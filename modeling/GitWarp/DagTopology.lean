import GitWarp.DagPathFinding
import GitWarp.TraversalTopology

/-! The topological sort of commits. It finds what is reachable, yields commits none of whose edges are left, and takes
what it has not yielded for a cycle. -/

namespace GitWarp
open Js TopoOrder

/-- A finite index: the parents, too, are among its commits. -/
structure FiniteIndex extends CommitIndex where
  parent_mem : ∀ sha, ∀ parent ∈ getParents sha, parent ∈ commits

namespace DagTopology

inductive TraversalDirection where
  | forward
  | reverse
  deriving DecidableEq

def getNeighbors (index : FiniteIndex) (sha : JsString) : TraversalDirection → List JsString
  | .forward => index.getChildren sha
  | .reverse => index.getParents sha

/-- What the first phase has found. -/
structure Discovery where
  inDegree : JsMap JsString Int
  allNodes : JsSet JsString
  edges : JsMap JsString (List JsString)
  queue : List JsString

def discoverNeighbor (d : Discovery) (neighbor : JsString) : Discovery :=
  let d := { d with inDegree := d.inDegree.set neighbor ((d.inDegree.get neighbor).getD 0 + 1) }
  if !d.allNodes.has neighbor then { d with allNodes := d.allNodes.add neighbor, queue := d.queue ++ [neighbor] } else d

structure YieldedNode where
  sha : JsString
  depth : Nat
  deriving DecidableEq

/-- What the second phase has yielded, and what may come next. -/
structure Emission where
  inDegree : JsMap JsString Int
  ready : List JsString
  depthMap : JsMap JsString Nat
  yielded : List YieldedNode

def releaseNeighbor (depth : Nat) (e : Emission) (neighbor : JsString) : Emission :=
  let newDegree := (e.inDegree.get neighbor).getD 0 - 1
  { e with
    inDegree := e.inDegree.set neighbor newDegree
    depthMap := if !e.depthMap.has neighbor then e.depthMap.set neighbor (depth + 1) else e.depthMap
    ready := if newDegree = 0 then e.ready ++ [neighbor] else e.ready }

def emitStep (edges : JsMap JsString (List JsString)) (maxNodes : Nat) (e : Emission) : Option Emission :=
  match e.ready with
  | [] => none
  | sha :: ready =>
      if e.yielded.length < maxNodes then
        let depth := (e.depthMap.get sha).getD 0
        some (((edges.get sha).getD []).foldl (releaseNeighbor depth)
          { e with ready := ready, yielded := e.yielded ++ [⟨sha, depth⟩] })
      else none

/-- A thrown `TraversalError` of code `CYCLE_DETECTED`, with its context. -/
structure CycleDetected where
  start : JsString
  direction : TraversalDirection
  nodesYielded : Nat
  totalNodes : Nat
  nodesInCycle : Nat
  deriving DecidableEq

section Sorting

variable (neighborsOf : JsString → List JsString)

def discoverStep (d : Discovery) : Option Discovery :=
  match d.queue with
  | [] => none
  | sha :: queue =>
      let neighbors := neighborsOf sha
      some (neighbors.foldl discoverNeighbor { d with edges := d.edges.set sha neighbors, queue := queue })

/-- The first phase, of at most as many turns as there are commits. -/
def discover (bound : Nat) (start : JsString) : Discovery :=
  let d := While.loop (discoverStep neighborsOf) bound ⟨.empty, .ofList [start], .empty, [start]⟩
  if !d.inDegree.has start then { d with inDegree := d.inDegree.set start 0 } else d

def initialReady (d : Discovery) : List JsString :=
  d.allNodes.elems.filter fun sha => !d.inDegree.has sha || d.inDegree.get sha = some 0

/-- The second phase. -/
def emit (maxNodes : Nat) (start : JsString) (d : Discovery) : Emission :=
  While.loop (emitStep d.edges maxNodes) d.allNodes.size ⟨d.inDegree, initialReady d, JsMap.empty.set start 0, []⟩

end Sorting

/-- What the generator yields, and the error that it ends with. -/
def topologicalSort (index : FiniteIndex) (start : JsString) (maxNodes : Nat) (direction : TraversalDirection)
    (throwOnCycle : Bool) : List YieldedNode × Option CycleDetected :=
  let neighborsOf := fun sha => getNeighbors index sha direction
  let d := discover neighborsOf (index.commits.length + 1) start
  let nodesYielded := (emit maxNodes start d).yielded
  let cycleDetected := nodesYielded.length < d.allNodes.size
  (nodesYielded,
    if cycleDetected ∧ throwOnCycle then
      some ⟨start, direction, nodesYielded.length, d.allNodes.size, d.allNodes.size - nodesYielded.length⟩
    else none)

/-! ### The first phase -/

section Discovering

variable (neighborsOf : JsString → List JsString)

/-- The neighbors as the edges of a graph traversal. -/
def asEdges (u : JsString) : List NeighborEdge := (neighborsOf u).map fun v => ⟨v, []⟩

@[simp] theorem neighborIds_asEdges (u : JsString) : GraphTraversal.neighborIds (asEdges neighborsOf u) = neighborsOf u := by
  rw [GraphTraversal.neighborIds, asEdges, List.map_map]
  exact List.map_id _

/-- A discovery of the graph traversal, whose queue is read from a head on, as one that shifts its queue. -/
def ofTraversal (d : GraphTraversal.Discovery) : Discovery :=
  ⟨d.inDegree, d.discovered, d.adjList.getD .empty, d.queue.drop d.qHead⟩

theorem discoverNeighbor_ofTraversal {d : GraphTraversal.Discovery} (hhead : d.qHead ≤ d.queue.length) (id : JsString) :
    discoverNeighbor (ofTraversal d) id = ofTraversal (GraphTraversal.discoverEdge d id) := by
  unfold discoverNeighbor GraphTraversal.discoverEdge ofTraversal
  dsimp only
  by_cases hhas : d.discovered.has id = true
  · rw [hhas, if_neg (by decide), if_pos rfl]
  · rw [if_neg hhas, if_pos (by simpa using hhas)]
    dsimp only
    rw [List.drop_append_of_le_length hhead]

theorem foldl_discoverNeighbor {d : GraphTraversal.Discovery} (helems : d.discovered.elems = d.queue)
    (hhead : d.qHead ≤ d.queue.length) (ids : List JsString) :
    ids.foldl discoverNeighbor (ofTraversal d) = ofTraversal (ids.foldl GraphTraversal.discoverEdge d) := by
  induction ids generalizing d with
  | nil => rfl
  | cons id rest ih =>
      obtain ⟨added, -, hqueue, helems', -, -, hhead', -⟩ := GraphTraversal.discoverEdges_spec [id] d helems
      have hlength : (GraphTraversal.discoverEdge d id).qHead ≤ (GraphTraversal.discoverEdge d id).queue.length := by
        have hq : (GraphTraversal.discoverEdge d id).queue = d.queue ++ added := hqueue
        have hh : (GraphTraversal.discoverEdge d id).qHead = d.qHead := hhead'
        rw [hq, hh, List.length_append]
        omega
      rw [List.foldl_cons, List.foldl_cons, discoverNeighbor_ofTraversal hhead]
      exact ih (helems'.trans hqueue.symm) hlength

theorem foldl_discoverEdge_adjList (adjList : Option (JsMap JsString (List JsString))) (d : GraphTraversal.Discovery)
    (ids : List JsString) : ids.foldl GraphTraversal.discoverEdge { d with adjList := adjList } =
      { ids.foldl GraphTraversal.discoverEdge d with adjList := adjList } := by
  induction ids generalizing d with
  | nil => rfl
  | cons id rest ih =>
      have hfirst : GraphTraversal.discoverEdge { d with adjList := adjList } id =
          { GraphTraversal.discoverEdge d id with adjList := adjList } := by
        unfold GraphTraversal.discoverEdge
        dsimp only
        split <;> rfl
      rw [List.foldl_cons, List.foldl_cons, hfirst, ih]

/-- The discoveries turn alike. -/
theorem discoverStep_ofTraversal {d : GraphTraversal.Discovery} (helems : d.discovered.elems = d.queue)
    (hlist : d.adjList.isSome = true) : discoverStep neighborsOf (ofTraversal d) =
      (GraphTraversal.discoverStep (asEdges neighborsOf) false d).map ofTraversal := by
  obtain ⟨edges, hedges⟩ := Option.isSome_iff_exists.mp hlist
  unfold discoverStep GraphTraversal.discoverStep
  cases hnode : d.queue[d.qHead]? with
  | none =>
      have hqueue : (ofTraversal d).queue = [] := List.drop_eq_nil_of_le (List.getElem?_eq_none_iff.mp hnode)
      rw [hqueue]
      rfl
  | some nodeId =>
      obtain ⟨hlt, hget⟩ := List.getElem?_eq_some_iff.mp hnode
      have hqueue : (ofTraversal d).queue = nodeId :: d.queue.drop (d.qHead + 1) := by
        rw [← hget]
        exact List.drop_eq_getElem_cons hlt
      rw [hqueue]
      dsimp only
      rw [Option.map_some, neighborIds_asEdges]
      have hstart : (⟨(ofTraversal d).inDegree, (ofTraversal d).allNodes, (ofTraversal d).edges.set nodeId (neighborsOf nodeId),
          d.queue.drop (d.qHead + 1)⟩ : Discovery) =
          ofTraversal { d with qHead := d.qHead + 1, adjList := some (edges.set nodeId (neighborsOf nodeId)) } := by
        rw [ofTraversal, hedges]
        rfl
      have hlast : (neighborsOf nodeId).foldl GraphTraversal.discoverEdge
          { d with qHead := d.qHead + 1, adjList := some (edges.set nodeId (neighborsOf nodeId)) } =
          { (neighborsOf nodeId).foldl GraphTraversal.discoverEdge { d with qHead := d.qHead + 1 } with
            adjList := some (edges.set nodeId (neighborsOf nodeId)) } :=
        foldl_discoverEdge_adjList _ { d with qHead := d.qHead + 1 } _
      obtain ⟨-, -, -, -, -, -, -, hsame, -⟩ := GraphTraversal.discoverEdges_spec (neighborsOf nodeId)
        { d with qHead := d.qHead + 1 } helems
      have hfold := foldl_discoverNeighbor
        (d := { d with qHead := d.qHead + 1, adjList := some (edges.set nodeId (neighborsOf nodeId)) }) helems hlt
        (neighborsOf nodeId)
      rw [hstart, hfold, hlast, hsame]
      dsimp only
      rw [hedges]
      rfl

theorem discoverStep_keeps {d d' : GraphTraversal.Discovery} (h : d.discovered.elems = d.queue ∧ d.adjList.isSome = true)
    (hstep : GraphTraversal.discoverStep (asEdges neighborsOf) false d = some d') :
    d'.discovered.elems = d'.queue ∧ d'.adjList.isSome = true := by
  unfold GraphTraversal.discoverStep at hstep
  split at hstep
  · cases hstep
  · rename_i nodeId hnode
    obtain ⟨added, -, hqueue, helems, -, -, -, hlist, -⟩ := GraphTraversal.discoverEdges_spec
      (GraphTraversal.neighborIds (asEdges neighborsOf nodeId)) { d with qHead := d.qHead + 1 } h.1
    rw [← Option.some.inj hstep]
    dsimp only
    rw [hqueue, helems, hlist, Option.isSome_map]
    exact ⟨rfl, h.2⟩

/-- The first phase is that of the graph traversal. -/
theorem discover_eq (bound : Nat) (start : JsString) :
    ∃ d, discover neighborsOf bound start = ofTraversal d ∧ d.adjList.isSome = true ∧
      d = GraphTraversal.discover (asEdges neighborsOf) bound false false (JsSet.ofList [start]) := by
  let first : GraphTraversal.Discovery := ⟨some .empty, .empty, .empty, .ofList [start], [start], 0⟩
  have hfirst : first.discovered.elems = first.queue ∧ first.adjList.isSome = true := ⟨rfl, rfl⟩
  have hloop := While.loop_view (v := ofTraversal) (fun _ _ => discoverStep_keeps neighborsOf)
    (fun d h => discoverStep_ofTraversal neighborsOf h.1 h.2) bound hfirst
  have hlast := While.loop_invariant (fun _ _ => discoverStep_keeps neighborsOf) bound hfirst
  refine ⟨_, ?_, ?_, rfl⟩
  · have hgiven : (⟨.empty, .ofList [start], .empty, [start]⟩ : Discovery) = ofTraversal first := rfl
    unfold discover
    rw [hgiven, hloop]
    generalize hlastState : While.loop (GraphTraversal.discoverStep (asEdges neighborsOf) false) bound first = last
    have hdiscover : GraphTraversal.discover (asEdges neighborsOf) bound false false (JsSet.ofList [start]) =
        { last with inDegree := if last.inDegree.has start then last.inDegree else last.inDegree.set start 0 } := by
      rw [← hlastState]
      rfl
    rw [hdiscover, ofTraversal, ofTraversal]
    dsimp only
    cases last.inDegree.has start <;> rfl
  · exact hlast.2

/-- What the first phase ends with: the commits that are reachable, and the number of edges from them into each. -/
structure Explored (start : JsString) (d : Discovery) : Prop where
  mem_iff : ∀ v, v ∈ d.allNodes ↔ Relation.ReflTransGen (fun u v => v ∈ neighborsOf u) start v
  degree : ∀ v, (d.inDegree.get v).getD 0 = GraphTraversal.degreeFrom (asEdges neighborsOf) d.allNodes.elems v
  edges : ∀ u ∈ d.allNodes, (d.edges.get u).getD [] = neighborsOf u

variable {neighborsOf} in
theorem discover_spec {nodes : List JsString} (hclosed : ∀ u, ∀ v ∈ neighborsOf u, v ∈ nodes) {start : JsString}
    (hstart : start ∈ nodes) : Explored neighborsOf start (discover neighborsOf nodes.length start) := by
  have hstep : GraphTraversal.Step (asEdges neighborsOf) = fun u v => v ∈ neighborsOf u := by
    funext u v
    rw [GraphTraversal.Step, neighborIds_asEdges]
  have hclosed' : ∀ u v, GraphTraversal.Step (asEdges neighborsOf) u v → v ∈ nodes := by
    rw [hstep]
    exact hclosed
  have hstarts : (JsSet.ofList [start]).elems ⊆ nodes := fun v hv => List.mem_singleton.mp hv ▸ hstart
  obtain ⟨d, hd, hlist, hdiscover⟩ := discover_eq neighborsOf nodes.length start
  have hexplored := GraphTraversal.discover_spec hclosed' hstarts false false
  rw [← hdiscover] at hexplored
  rw [hd]
  refine ⟨?_, hexplored.degree, ?_⟩
  · intro v
    change v ∈ d.discovered.elems ↔ _
    rw [hexplored.mem_iff, GraphTraversal.Reachable, hstep]
    exact ⟨fun h => h.elim fun s hs => List.mem_singleton.mp hs.1 ▸ hs.2, fun hreach => ⟨start, List.mem_singleton_self _, hreach⟩⟩
  · intro u hu
    have hids := hexplored.neighborIds u hu
    obtain ⟨edges, hedges⟩ := Option.isSome_iff_exists.mp hlist
    rw [neighborIds_asEdges, hedges] at hids
    rw [ofTraversal, hedges]
    exact hids

end Discovering

/-! ### The second phase -/

section Emitting

/-- Taking edges away lets those commits come next that have no edge left. -/
theorem releaseNeighbors_spec (depth : Nat) (ids : List JsString) (e : Emission)
    (hcount : ∀ v, (ids.count v : Int) ≤ (e.inDegree.get v).getD 0) (hnodup : e.ready.Nodup)
    (hzero : ∀ v ∈ e.ready, (e.inDegree.get v).getD 0 = 0) :
    (ids.foldl (releaseNeighbor depth) e).yielded = e.yielded ∧
      (∀ v, ((ids.foldl (releaseNeighbor depth) e).inDegree.get v).getD 0 = (e.inDegree.get v).getD 0 - ids.count v) ∧
      (ids.foldl (releaseNeighbor depth) e).ready.Nodup ∧
      ∀ v, v ∈ (ids.foldl (releaseNeighbor depth) e).ready ↔
        v ∈ e.ready ∨ (v ∈ ids ∧ (e.inDegree.get v).getD 0 = ids.count v) := by
  induction ids generalizing e with
  | nil => exact ⟨rfl, by simp, hnodup, by simp⟩
  | cons id rest ih =>
      have hid : 1 ≤ (e.inDegree.get id).getD 0 := by
        have hle := hcount id
        rw [List.count_cons_self] at hle
        omega
      have hdegree : ∀ v, ((releaseNeighbor depth e id).inDegree.get v).getD 0 =
          (e.inDegree.get v).getD 0 - if v = id then 1 else 0 := by
        intro v
        change ((e.inDegree.set id _).get v).getD 0 = _
        rw [JsMap.get_set]
        split
        · rename_i heq
          rw [heq, Option.getD_some]
        · rw [sub_zero]
      have hfresh : id ∉ e.ready := by
        intro hmem
        have hdeg := hzero id hmem
        omega
      have hready : ∀ v, v ∈ (releaseNeighbor depth e id).ready ↔
          v ∈ e.ready ∨ (v = id ∧ (e.inDegree.get id).getD 0 = 1) := by
        intro v
        unfold releaseNeighbor
        dsimp only
        split
        · have hone : (e.inDegree.get id).getD 0 = 1 := by omega
          simp [hone]
        · have hone : ¬ (e.inDegree.get id).getD 0 = 1 := by omega
          simp [hone]
      have hnodup' : (releaseNeighbor depth e id).ready.Nodup := by
        unfold releaseNeighbor
        dsimp only
        split
        · exact hnodup.append (List.nodup_singleton id) (List.disjoint_singleton.mpr hfresh)
        · exact hnodup
      have hzero' : ∀ v ∈ (releaseNeighbor depth e id).ready, ((releaseNeighbor depth e id).inDegree.get v).getD 0 = 0 := by
        intro v hv
        rw [hdegree]
        rcases (hready v).mp hv with hv | ⟨rfl, hone⟩
        · have hne : v ≠ id := fun heq => hfresh (heq ▸ hv)
          rw [if_neg hne, hzero v hv, sub_zero]
        · rw [if_pos rfl, hone, sub_self]
      have hcount' : ∀ v, (rest.count v : Int) ≤ ((releaseNeighbor depth e id).inDegree.get v).getD 0 := by
        intro v
        have hle := hcount v
        rw [hdegree]
        by_cases hv : v = id
        · rw [hv, List.count_cons_self] at hle
          rw [if_pos hv, hv]
          omega
        · rw [List.count_cons_of_ne (Ne.symm hv)] at hle
          rw [if_neg hv]
          omega
      obtain ⟨hyielded, hdegree'', hnodup'', hmem⟩ := ih (releaseNeighbor depth e id) hcount' hnodup' hzero'
      refine ⟨hyielded, fun v => ?_, hnodup'', fun v => ?_⟩
      · rw [List.foldl_cons, hdegree'', hdegree]
        by_cases hv : v = id
        · rw [if_pos hv, hv, List.count_cons_self]
          omega
        · rw [if_neg hv, List.count_cons_of_ne (Ne.symm hv)]
          omega
      · rw [List.foldl_cons, hmem, hready, hdegree, List.mem_cons]
        have hle := hcount' v
        rw [hdegree] at hle
        by_cases hv : v = id
        · subst hv
          rw [if_pos rfl] at hle ⊢
          rw [List.count_cons_self]
          by_cases hrest : v ∈ rest
          · have hpos := List.count_pos_iff.mpr hrest
            simp only [hfresh, hrest, true_and, false_or, or_true]
            omega
          · rw [List.count_eq_zero.mpr hrest] at hle ⊢
            simp only [hfresh, hrest, false_and, or_false, false_or, true_and]
            omega
        · rw [if_neg hv, List.count_cons_of_ne (Ne.symm hv)]
          simp [hv]

variable {neighborsOf : JsString → List JsString} {nodes : List JsString} {maxNodes : Nat}

/-- What the second phase keeps: what is yielded is in order, the degrees count the edges from commits that are not
yielded, and those may come next that have none. -/
structure Emitted (neighborsOf : JsString → List JsString) (nodes : List JsString) (maxNodes : Nat) (e : Emission) : Prop where
  order : IsOrder (fun u v => v ∈ neighborsOf u) nodes (e.yielded.map YieldedNode.sha)
  degree : ∀ v, (e.inDegree.get v).getD 0 = GraphTraversal.degreeLeft neighborsOf nodes (e.yielded.map YieldedNode.sha) v
  nodup : e.ready.Nodup
  ready : ∀ v, v ∈ e.ready ↔ Ready (fun u v => v ∈ neighborsOf u) nodes (e.yielded.map YieldedNode.sha) v
  limit : e.yielded.length ≤ maxNodes

theorem Emitted.length_le {e : Emission} (h : Emitted neighborsOf nodes maxNodes e) : e.yielded.length ≤ nodes.length := by
  have hle := (List.subperm_of_subset h.order.nodup h.order.subset).length_le
  rwa [List.length_map] at hle

theorem emitStep_spec (hnodup : nodes.Nodup) (hclosed : ∀ u ∈ nodes, ∀ v ∈ neighborsOf u, v ∈ nodes)
    {edges : JsMap JsString (List JsString)} (hedges : ∀ u ∈ nodes, (edges.get u).getD [] = neighborsOf u)
    {e e' : Emission} (h : Emitted neighborsOf nodes maxNodes e) (hstep : emitStep edges maxNodes e = some e') :
    Emitted neighborsOf nodes maxNodes e' ∧ nodes.length - e'.yielded.length < nodes.length - e.yielded.length := by
  unfold emitStep at hstep
  split at hstep
  · cases hstep
  · rename_i x ready hready
    split at hstep
    · rename_i hlimit
      have hx := (h.ready x).mp (by rw [hready]; exact List.mem_cons_self)
      obtain ⟨hxnodes, hxplaced, hxdegree⟩ := (GraphTraversal.ready_iff neighborsOf).mp hx
      have hrest := List.nodup_cons.mp (hready ▸ h.nodup)
      have hcount : ∀ v, ((neighborsOf x).count v : Int) ≤ (e.inDegree.get v).getD 0 := by
        intro v
        rw [h.degree]
        exact GraphTraversal.count_le_degreeLeft neighborsOf hxnodes hxplaced v
      have hzero : ∀ v ∈ ready, (e.inDegree.get v).getD 0 = 0 := by
        intro v hv
        rw [h.degree]
        have hvready := (h.ready v).mp (by rw [hready]; exact List.mem_cons_of_mem _ hv)
        exact ((GraphTraversal.ready_iff neighborsOf).mp hvready).2.2
      rw [hedges x hxnodes] at hstep
      obtain ⟨hyielded, hdegree, hnodup', hmem⟩ := releaseNeighbors_spec ((e.depthMap.get x).getD 0) (neighborsOf x)
        { e with ready := ready, yielded := e.yielded ++ [⟨x, (e.depthMap.get x).getD 0⟩] } hcount hrest.2 hzero
      rw [Option.some.inj hstep] at hyielded hdegree hnodup' hmem
      have hsorted : e'.yielded.map YieldedNode.sha = e.yielded.map YieldedNode.sha ++ [x] := by
        rw [hyielded, List.map_append, List.map_singleton]
      have hlength : e'.yielded.length = e.yielded.length + 1 := by
        rw [hyielded, List.length_append, List.length_singleton]
      have hnext := GraphTraversal.ready_concat_iff hnodup hclosed h.order hx
      have hemitted : Emitted neighborsOf nodes maxNodes e' := by
        refine ⟨?_, ?_, hnodup', ?_, ?_⟩
        · rw [hsorted]
          exact h.order.concat hx
        · intro v
          rw [hdegree, hsorted, h.degree, GraphTraversal.degreeLeft_concat neighborsOf hnodup hxnodes hxplaced]
        · intro v
          rw [hmem, hsorted, hnext, h.degree, ← h.ready, hready, List.mem_cons]
          have hne : v ∈ ready → v ≠ x := fun hv heq => hrest.1 (heq ▸ hv)
          tauto
        · rw [hlength]
          exact hlimit
      have hbound := hemitted.length_le
      exact ⟨hemitted, by omega⟩
    · cases hstep

/-- The second phase stops at the limit or where nothing may come next. -/
theorem emit_spec {start : JsString} {d : Discovery} (hclosed : ∀ u ∈ d.allNodes, ∀ v ∈ neighborsOf u, v ∈ d.allNodes)
    (hedges : ∀ u ∈ d.allNodes, (d.edges.get u).getD [] = neighborsOf u)
    (hdegree : ∀ v, (d.inDegree.get v).getD 0 = GraphTraversal.degreeLeft neighborsOf d.allNodes.elems [] v) (maxNodes : Nat) :
    Emitted neighborsOf d.allNodes.elems maxNodes (emit maxNodes start d) ∧
      ((emit maxNodes start d).yielded.length < maxNodes →
        ∀ v, ¬ Ready (fun u v => v ∈ neighborsOf u) d.allNodes.elems ((emit maxNodes start d).yielded.map YieldedNode.sha) v) := by
  have hfirst : Emitted neighborsOf d.allNodes.elems maxNodes ⟨d.inDegree, initialReady d, JsMap.empty.set start 0, []⟩ := by
    refine ⟨isOrder_nil, hdegree, d.allNodes.nodup.filter _, ?_, Nat.zero_le _⟩
    intro v
    have hzero : (!d.inDegree.has v || decide (d.inDegree.get v = some 0)) = true ↔ (d.inDegree.get v).getD 0 = 0 := by
      rw [JsMap.has]
      cases d.inDegree.get v <;> simp
    rw [initialReady, List.mem_filter, hzero, hdegree]
    exact ⟨fun h => (GraphTraversal.ready_iff neighborsOf).mpr ⟨h.1, List.not_mem_nil, h.2⟩,
      fun h => ⟨((GraphTraversal.ready_iff neighborsOf).mp h).1, ((GraphTraversal.ready_iff neighborsOf).mp h).2.2⟩⟩
  have hkept : ∀ e e', Emitted neighborsOf d.allNodes.elems maxNodes e → emitStep d.edges maxNodes e = some e' →
      Emitted neighborsOf d.allNodes.elems maxNodes e' ∧
        d.allNodes.elems.length - e'.yielded.length < d.allNodes.elems.length - e.yielded.length :=
    fun e e' h hstep => emitStep_spec d.allNodes.nodup hclosed hedges h hstep
  have hend := While.loop_invariant (fun e e' h hstep => (hkept e e' h hstep).1) d.allNodes.size hfirst
  have hstop : emitStep d.edges maxNodes (While.loop (emitStep d.edges maxNodes) d.allNodes.size
      ⟨d.inDegree, initialReady d, JsMap.empty.set start 0, []⟩) = none :=
    While.loop_stops (m := fun e : Emission => d.allNodes.elems.length - e.yielded.length) hkept hfirst (Nat.sub_le _ _)
  unfold emit
  generalize While.loop (emitStep d.edges maxNodes) d.allNodes.size
    ⟨d.inDegree, initialReady d, JsMap.empty.set start 0, []⟩ = last at hend hstop ⊢
  refine ⟨hend, fun hlt v hv => ?_⟩
  have hmem := (hend.ready v).mpr hv
  rw [emitStep] at hstop
  split at hstop
  · rename_i hnil
    exact absurd (hnil ▸ hmem) List.not_mem_nil
  · rw [if_pos hlt] at hstop
    cases hstop

end Emitting

/-! ### The sort as a whole -/

section Deciding

variable (index : FiniteIndex) (start : JsString) (direction : TraversalDirection)

/-- A directed edge of the graph that the sort walks. -/
def Edge (u v : JsString) : Prop := v ∈ getNeighbors index u direction

def Reachable (v : JsString) : Prop := Relation.ReflTransGen (Edge index direction) start v

/-- What is reachable from the start contains a directed cycle. -/
def HasCycle : Prop := ∃ c, Reachable index start direction c ∧ Relation.TransGen (Edge index direction) c c

theorem getNeighbors_mem (u v : JsString) (h : v ∈ getNeighbors index u direction) : v ∈ start :: index.commits := by
  cases direction with
  | forward => exact List.mem_cons_of_mem _ (index.child_mem u v h)
  | reverse => exact List.mem_cons_of_mem _ (index.parent_mem u v h)

/-- What a run of the sort finds and yields. -/
structure Sorted (maxNodes : Nat) (found yielded : List JsString) : Prop where
  nodup : found.Nodup
  mem_iff : ∀ v, v ∈ found ↔ Reachable index start direction v
  order : IsOrder (Edge index direction) found yielded
  limit : yielded.length ≤ maxNodes
  stops : yielded.length < maxNodes → ∀ v, ¬ Ready (Edge index direction) found yielded v

/-- The error is thrown where fewer commits are yielded than are found. -/
theorem topologicalSort_run (maxNodes : Nat) : ∃ found : List JsString, ∃ nodesYielded : List YieldedNode,
    Sorted index start direction maxNodes found (nodesYielded.map YieldedNode.sha) ∧
      ∀ throwOnCycle, topologicalSort index start maxNodes direction throwOnCycle =
        (nodesYielded, if nodesYielded.length < found.length ∧ throwOnCycle = true then
          some ⟨start, direction, nodesYielded.length, found.length, found.length - nodesYielded.length⟩ else none) := by
  have hspec := discover_spec (getNeighbors_mem index start direction) List.mem_cons_self
  rw [List.length_cons] at hspec
  generalize hd : discover (fun sha => getNeighbors index sha direction) (index.commits.length + 1) start = d at hspec
  have hclosed : ∀ u ∈ d.allNodes, ∀ v ∈ getNeighbors index u direction, v ∈ d.allNodes :=
    fun u hu v hv => (hspec.mem_iff v).mpr (((hspec.mem_iff u).mp hu).tail hv)
  have hdegree : ∀ v, (d.inDegree.get v).getD 0 = GraphTraversal.degreeLeft (fun sha => getNeighbors index sha direction)
      d.allNodes.elems [] v := by
    intro v
    rw [hspec.degree, GraphTraversal.degreeLeft, List.filter_eq_self.mpr fun u _ => by simp, GraphTraversal.degreeFrom]
    congr 1
    exact List.map_congr_left fun u _ => by rw [neighborIds_asEdges]
  obtain ⟨hemitted, hstops⟩ := @emit_spec _ start _ hclosed hspec.edges hdegree maxNodes
  refine ⟨d.allNodes.elems, (emit maxNodes start d).yielded,
    ⟨d.allNodes.nodup, hspec.mem_iff, hemitted.order, ?_, ?_⟩, fun throwOnCycle => ?_⟩
  · rw [List.length_map]
    exact hemitted.limit
  · rw [List.length_map]
    exact hstops
  · rw [topologicalSort, hd]
    rfl

section Runs

variable {index start direction} {maxNodes : Nat} {found yielded : List JsString}

theorem Sorted.closed (h : Sorted index start direction maxNodes found yielded) (u : JsString) (hu : u ∈ found) (v : JsString)
    (hstep : Edge index direction u v) : v ∈ found :=
  (h.mem_iff v).mpr (((h.mem_iff u).mp hu).tail hstep)

theorem Sorted.ncard_eq (h : Sorted index start direction maxNodes found yielded) :
    Set.ncard {v | Reachable index start direction v} = found.length := by
  have hset : {v | Reachable index start direction v} = (found.toFinset : Set JsString) := by
    ext v
    rw [List.coe_toFinset, Set.mem_ofPred_eq, Set.mem_ofPred_eq, h.mem_iff]
  rw [hset, Set.ncard_coe_finset, List.toFinset_card_of_nodup h.nodup]

theorem Sorted.length_lt_iff (h : Sorted index start direction maxNodes found yielded) :
    yielded.length < found.length ↔ ∃ v ∈ found, v ∉ yielded := by
  have hsub := List.subperm_of_subset h.order.nodup h.order.subset
  constructor
  · intro hlt
    by_contra hnone
    push Not at hnone
    exact absurd (List.subperm_of_subset h.nodup hnone).length_le (Nat.not_le_of_lt hlt)
  · rintro ⟨v, hv, hleft⟩
    refine Nat.lt_of_le_of_ne hsub.length_le fun heq => hleft ?_
    exact (hsub.perm_of_length_le (Nat.le_of_eq heq.symm)).symm.subset hv

/-- Fewer commits are yielded than are found where a cycle is reachable. -/
theorem Sorted.length_lt_of_hasCycle (h : Sorted index start direction maxNodes found yielded)
    (hcycle : HasCycle index start direction) : yielded.length < found.length := by
  obtain ⟨c, hreach, hc⟩ := hcycle
  exact h.length_lt_iff.mpr ⟨c, (h.mem_iff c).mpr hreach, fun hmem => h.order.not_cycle h.closed hmem hc⟩

/-- Where all that is found may be yielded, only a cycle keeps a commit back. -/
theorem Sorted.hasCycle_of_length_lt (h : Sorted index start direction maxNodes found yielded)
    (hmax : found.length ≤ maxNodes) (hlt : yielded.length < found.length) : HasCycle index start direction := by
  obtain ⟨v, hv, hleft⟩ := h.length_lt_iff.mp hlt
  obtain ⟨c, hc, hcycle, -⟩ := behindCycle_of_left (h.stops (hlt.trans_le hmax)) hv hleft
  exact ⟨c, (h.mem_iff c).mp hc, hcycle⟩

end Runs

/-- What is yielded is distinct and reachable, each commit after all that lead to it, and all of it where there is no
cycle and room enough. -/
structure YieldsInOrder (maxNodes : Nat) (yielded : List JsString) : Prop where
  nodup : yielded.Nodup
  reachable : ∀ v ∈ yielded, Reachable index start direction v
  after : ∀ before v rest, yielded = before ++ v :: rest →
    ∀ u, Reachable index start direction u → Relation.TransGen (Edge index direction) u v → u ∈ before
  complete : ¬ HasCycle index start direction → Set.ncard {v | Reachable index start direction v} ≤ maxNodes →
    ∀ v, Reachable index start direction v → v ∈ yielded

/-- The sort yields in order, and throws, where it is asked to, on cycles only and on each of them. -/
structure SortsCorrectly (maxNodes : Nat) : Prop where
  yields : ∀ throwOnCycle, YieldsInOrder index start direction maxNodes
    ((topologicalSort index start maxNodes direction throwOnCycle).1.map YieldedNode.sha)
  silent : (topologicalSort index start maxNodes direction false).2 = none
  throws : (topologicalSort index start maxNodes direction true).2.isSome = true ↔ HasCycle index start direction

variable {index start direction} in
theorem Sorted.yieldsInOrder {maxNodes : Nat} {found yielded : List JsString}
    (h : Sorted index start direction maxNodes found yielded) : YieldsInOrder index start direction maxNodes yielded := by
  refine ⟨h.order.nodup, fun v hv => (h.mem_iff v).mp (h.order.subset hv), ?_, ?_⟩
  · intro before v rest heq u hu hlead
    exact h.order.before_of_transGen h.closed ((h.mem_iff u).mpr hu) hlead heq
  · intro hacyclic hmax v hv
    by_contra hleft
    rw [h.ncard_eq] at hmax
    have hlt := h.length_lt_iff.mpr ⟨v, (h.mem_iff v).mpr hv, hleft⟩
    exact hacyclic (h.hasCycle_of_length_lt hmax hlt)

/-- The sort throws where it has yielded less than it found, whether a cycle or its limit kept it from more. -/
theorem throws_iff (maxNodes : Nat) : (topologicalSort index start maxNodes direction true).2.isSome = true ↔
    HasCycle index start direction ∨ maxNodes < Set.ncard {v | Reachable index start direction v} := by
  obtain ⟨found, nodesYielded, hsorted, hrun⟩ := topologicalSort_run index start direction maxNodes
  have hlength : (nodesYielded.map YieldedNode.sha).length = nodesYielded.length := List.length_map _
  have hthrows : (topologicalSort index start maxNodes direction true).2.isSome = true ↔
      nodesYielded.length < found.length := by
    rw [hrun]
    by_cases hlt : nodesYielded.length < found.length
    · simp [hlt]
    · simp [hlt]
  rw [hthrows, hsorted.ncard_eq, ← hlength]
  constructor
  · intro hlt
    by_cases hmax : found.length ≤ maxNodes
    · exact .inl (hsorted.hasCycle_of_length_lt hmax hlt)
    · exact .inr (Nat.lt_of_not_le hmax)
  · rintro (hcycle | hmax)
    · exact hsorted.length_lt_of_hasCycle hcycle
    · exact hsorted.limit.trans_lt hmax

/-- The sort is correct where a cycle is reachable or all that is reachable may be yielded. -/
theorem topologicalSort_correct_iff (maxNodes : Nat) : SortsCorrectly index start direction maxNodes ↔
    HasCycle index start direction ∨ Set.ncard {v | Reachable index start direction v} ≤ maxNodes := by
  obtain ⟨found, nodesYielded, hsorted, hrun⟩ := topologicalSort_run index start direction maxNodes
  constructor
  · intro h
    by_cases hcycle : HasCycle index start direction
    · exact .inl hcycle
    · refine .inr (Nat.le_of_not_lt fun hmax => hcycle (h.throws.mp ?_))
      exact (throws_iff index start direction maxNodes).mpr (.inr hmax)
  · intro h
    refine ⟨fun throwOnCycle => ?_, ?_, ?_⟩
    · rw [hrun]
      exact hsorted.yieldsInOrder
    · rw [hrun]
      simp
    · rw [throws_iff]
      constructor
      · rintro (hcycle | hmax)
        · exact hcycle
        · exact h.resolve_right (Nat.not_le_of_lt hmax)
      · exact .inl

/-! ### Two commits, one of which may be yielded -/

/-- A commit and its child. -/
def pairIndex : FiniteIndex where
  commits := [js "a", js "b"]
  getChildren sha := if sha = js "a" then [js "b"] else []
  getParents sha := if sha = js "b" then [js "a"] else []
  child_mem := by
    intro sha child h
    split at h
    · exact List.mem_cons_of_mem _ h
    · cases h
  parent_iff := by
    intro sha parent
    split <;> split <;> simp_all
  parent_mem := by
    intro sha parent h
    split at h
    · rw [List.mem_singleton.mp h]
      exact List.mem_cons_self
    · cases h

theorem pairIndex_throws : (topologicalSort pairIndex (js "a") 1 .forward true).2.isSome = true := by
  decide

/-- A limit of one makes the sort of two commits report a cycle that there is not. -/
theorem not_sortsCorrectly_pair : ¬ SortsCorrectly pairIndex (js "a") .forward 1 := by
  intro h
  have hedge : ∀ u v, Edge pairIndex .forward u v → u = js "a" ∧ v = js "b" := by
    intro u v huv
    change v ∈ (if u = js "a" then [js "b"] else []) at huv
    split at huv
    · rename_i hu
      exact ⟨hu, List.mem_singleton.mp huv⟩
    · cases huv
  obtain ⟨c, -, hcycle⟩ := h.throws.mp pairIndex_throws
  obtain ⟨d, hfirst, -⟩ := Relation.TransGen.head'_iff.mp hcycle
  obtain ⟨e, -, hlast⟩ := Relation.TransGen.tail'_iff.mp hcycle
  have hsame := (hedge c d hfirst).1.symm.trans (hedge e c hlast).2
  exact absurd hsame (by decide)

end Deciding

end DagTopology

end GitWarp
