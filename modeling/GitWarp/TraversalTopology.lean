import GitWarp.GraphTraversal
import GitWarp.LibraryDiscovery
import GitWarp.LibraryExceptLoops
import GitWarp.LibraryTopoOrder
import Mathlib.Algebra.BigOperators.Group.List.Lemmas
import Mathlib.Algebra.BigOperators.Ring.Finset
import Mathlib.Algebra.Order.BigOperators.Group.List

/-! The topological sort finds the nodes that are reachable from its starts and places each least node whose
predecessors are placed; it stops early exactly before a cycle. -/

namespace GitWarp
open Js ExceptLoops TopoOrder

namespace GraphTraversal

section Discovering

variable (neighborsOf : JsString → List NeighborEdge)

def Step (u v : JsString) : Prop := v ∈ neighborIds (neighborsOf u)

/-- The number of edges from the nodes of a list into a node. -/
def degreeFrom (placed : List JsString) (v : JsString) : Int :=
  (placed.map fun u => ((neighborIds (neighborsOf u)).count v : Int)).sum

def Reachable (starts : List JsString) (v : JsString) : Prop :=
  ∃ s ∈ starts, Relation.ReflTransGen (Step neighborsOf) s v

variable {neighborsOf} in
theorem Reachable.step {starts : List JsString} {u v : JsString} (h : Reachable neighborsOf starts u)
    (hstep : Step neighborsOf u v) : Reachable neighborsOf starts v := by
  obtain ⟨s, hs, hreach⟩ := h
  exact ⟨s, hs, hreach.tail hstep⟩

variable {neighborsOf} in
theorem Reachable.mem_of_closed {nodes starts : List JsString} {v : JsString} (h : Reachable neighborsOf starts v)
    (hstarts : starts ⊆ nodes) (hclosed : ∀ u v, Step neighborsOf u v → v ∈ nodes) : v ∈ nodes := by
  obtain ⟨s, hs, hreach⟩ := h
  cases hreach with
  | refl => exact hstarts hs
  | tail _ hstep => exact hclosed _ _ hstep

theorem step_mem_nodes {provider : NeighborProvider} {direction : Direction} {options : Option (List JsString)}
    (u v : JsString) (h : Step (GraphTraversal.neighborsOf provider direction options) u v) : v ∈ provider.nodes := by
  obtain ⟨edge, hedge, rfl⟩ := List.mem_map.mp h
  exact provider.neighbor_mem _ _ _ edge hedge

/-- What the first phase keeps: the queue holds reachable nodes, and the edges of those before its head are counted. -/
structure Discovered (nodes starts : List JsString) (returnAdjList : Bool) (d : Discovery) : Prop where
  elems : d.discovered.elems = d.queue
  inNodes : d.queue ⊆ nodes
  hasStarts : starts ⊆ d.queue
  reachable : ∀ v ∈ d.queue, Reachable neighborsOf starts v
  expanded : ∀ u ∈ d.queue.take d.qHead, ∀ v, Step neighborsOf u v → v ∈ d.queue
  head_le : d.qHead ≤ d.queue.length
  degree : ∀ v, (d.inDegree.get v).getD 0 = degreeFrom neighborsOf (d.queue.take d.qHead) v
  adjList : ∀ adjList ∈ d.adjList, ∀ u ∈ d.queue.take d.qHead, adjList.get u = some (neighborIds (neighborsOf u))
  edgeMap : returnAdjList = true → ∀ u ∈ d.queue.take d.qHead, d.neighborEdgeMap.get u = some (neighborsOf u)
  named : d.discovered =
    (JsSet.ofList starts).addAll ((d.queue.take d.qHead).flatMap fun u => neighborIds (neighborsOf u))

theorem discovered_foldl_discoverEdge (ids : List JsString) (d : Discovery) :
    (ids.foldl discoverEdge d).discovered = d.discovered.addAll ids := by
  induction ids generalizing d with
  | nil => rfl
  | cons id rest ih =>
      have hedge : (discoverEdge d id).discovered = d.discovered.add id := by
        unfold discoverEdge
        dsimp only
        split
        · rename_i hhas
          rw [JsSet.has_iff, JsSet.mem_def] at hhas
          rw [JsSet.add, dif_pos hhas]
        · rfl
      rw [List.foldl_cons, ih, hedge]
      rfl

/-- New neighbors come to the end of the queue, and each neighbor is counted once more. -/
theorem discoverEdges_spec (ids : List JsString) (d : Discovery) (h : d.discovered.elems = d.queue) :
    ∃ added, added ⊆ ids ∧ (ids.foldl discoverEdge d).queue = d.queue ++ added ∧
      (ids.foldl discoverEdge d).discovered.elems = d.queue ++ added ∧ (∀ v ∈ ids, v ∈ d.queue ++ added) ∧
      (∀ v, ((ids.foldl discoverEdge d).inDegree.get v).getD 0 = (d.inDegree.get v).getD 0 + ids.count v) ∧
      (ids.foldl discoverEdge d).qHead = d.qHead ∧ (ids.foldl discoverEdge d).adjList = d.adjList ∧
      (ids.foldl discoverEdge d).neighborEdgeMap = d.neighborEdgeMap := by
  induction ids generalizing d with
  | nil => exact ⟨[], List.Subset.refl _, by simp, by simpa using h, by simp, by simp, rfl, rfl, rfl⟩
  | cons id rest ih =>
      have hfirst : ∃ new, new ⊆ [id] ∧ (discoverEdge d id).queue = d.queue ++ new ∧
          (discoverEdge d id).discovered.elems = d.queue ++ new ∧ id ∈ d.queue ++ new := by
        unfold discoverEdge
        dsimp only
        split
        · rename_i hhas
          rw [JsSet.has_iff, JsSet.mem_def, h] at hhas
          exact ⟨[], List.nil_subset _, by simp, by simpa using h, by simpa using hhas⟩
        · rename_i hhas
          rw [JsSet.has_iff] at hhas
          refine ⟨[id], List.Subset.refl _, rfl, ?_, by simp⟩
          change (d.discovered.add id).elems = d.queue ++ [id]
          rw [JsSet.elems_add hhas, h]
      have hdegree : ∀ v, ((discoverEdge d id).inDegree.get v).getD 0 =
          (d.inDegree.get v).getD 0 + if id = v then 1 else 0 := by
        intro v
        have hset : (discoverEdge d id).inDegree = d.inDegree.set id ((d.inDegree.get id).getD 0 + 1) := by
          unfold discoverEdge
          dsimp only
          split <;> rfl
        rw [hset, JsMap.get_set]
        by_cases hv : v = id
        · subst hv
          rw [if_pos rfl, if_pos rfl, Option.getD_some]
        · rw [if_neg hv, if_neg fun heq => hv heq.symm, add_zero]
      have hother : (discoverEdge d id).qHead = d.qHead ∧ (discoverEdge d id).adjList = d.adjList ∧
          (discoverEdge d id).neighborEdgeMap = d.neighborEdgeMap := by
        unfold discoverEdge
        dsimp only
        split <;> exact ⟨rfl, rfl, rfl⟩
      obtain ⟨new, hnew, hqueue, helems, hid⟩ := hfirst
      obtain ⟨added, hadded, hqueue', helems', hmem, hdegree', hhead', hadj', hmap'⟩ := ih (discoverEdge d id) (by rw [helems, hqueue])
      rw [hqueue, List.append_assoc] at hqueue' helems'
      rw [hqueue, List.append_assoc] at hmem
      refine ⟨new ++ added, ?_, hqueue', helems', ?_, ?_, hhead'.trans hother.1, hadj'.trans hother.2.1,
        hmap'.trans hother.2.2⟩
      · intro v hv
        rcases List.mem_append.mp hv with hv | hv
        · exact List.mem_cons.mpr (Or.inl (List.mem_singleton.mp (hnew hv)))
        · exact List.mem_cons_of_mem _ (hadded hv)
      · intro v hv
        rcases List.mem_cons.mp hv with rfl | hv
        · rw [← List.append_assoc]
          exact List.mem_append_left _ hid
        · exact hmem v hv
      · intro v
        rw [List.foldl_cons, hdegree', hdegree, List.count_cons, add_assoc]
        congr 1
        by_cases hv : id = v
        · simp [hv, add_comm]
        · simp [hv]

variable {neighborsOf} in
theorem discoverStep_spec {nodes starts : List JsString} {returnAdjList : Bool}
    (hclosed : ∀ u v, Step neighborsOf u v → v ∈ nodes) {d d' : Discovery} (h : Discovered neighborsOf nodes starts returnAdjList d)
    (hstep : discoverStep neighborsOf returnAdjList d = some d') :
    Discovered neighborsOf nodes starts returnAdjList d' ∧ nodes.length - d'.qHead < nodes.length - d.qHead := by
  unfold discoverStep at hstep
  split at hstep
  · cases hstep
  · rename_i nodeId hnode
    obtain ⟨hlt, hget⟩ := List.getElem?_eq_some_iff.mp hnode
    obtain ⟨added, hadded, hqueue, helems, hmem, hdegree, hhead, hadj, hmap⟩ :=
      discoverEdges_spec (neighborIds (neighborsOf nodeId)) { d with qHead := d.qHead + 1 } h.elems
    dsimp only at hqueue helems hmem hdegree hhead hadj hmap
    cases hstep
    have htake : (d.queue ++ added).take (d.qHead + 1) = d.queue.take d.qHead ++ [nodeId] := by
      rw [List.take_append_of_le_length hlt, List.take_add_one, hnode]
      rfl
    have hnodeId : nodeId ∈ d.queue := hget ▸ List.getElem_mem hlt
    have hbound : d.queue.length ≤ nodes.length :=
      (List.subperm_of_subset (h.elems ▸ d.discovered.nodup) h.inNodes).length_le
    constructor
    · refine ⟨?_, ?_, ?_, ?_, ?_, ?_, ?_, ?_, ?_, ?_⟩
      · dsimp only
        rw [helems, hqueue]
      · dsimp only
        rw [hqueue]
        intro v hv
        rcases List.mem_append.mp hv with hv | hv
        · exact h.inNodes hv
        · exact hclosed nodeId v (hadded hv)
      · dsimp only
        rw [hqueue]
        exact fun v hv => List.mem_append_left _ (h.hasStarts hv)
      · dsimp only
        rw [hqueue]
        intro v hv
        rcases List.mem_append.mp hv with hv | hv
        · exact h.reachable v hv
        · obtain ⟨s, hs, hreach⟩ := h.reachable nodeId hnodeId
          exact ⟨s, hs, hreach.tail (hadded hv)⟩
      · dsimp only
        rw [hqueue, hhead, htake]
        intro u hu v huv
        rcases List.mem_append.mp hu with hu | hu
        · exact List.mem_append_left _ (h.expanded u hu v huv)
        · rw [List.mem_singleton] at hu
          subst hu
          exact hmem v huv
      · dsimp only
        rw [hqueue, hhead, List.length_append]
        omega
      · dsimp only
        intro v
        rw [hdegree, hqueue, hhead, htake, degreeFrom, List.map_append, List.sum_append, List.map_singleton,
          List.sum_singleton, h.degree v]
        rfl
      · dsimp only
        rw [hadj, hqueue, hhead, htake]
        intro adjList hadjList u hu
        obtain ⟨old, hold, rfl⟩ := Option.map_eq_some_iff.mp hadjList
        rw [JsMap.get_set]
        split
        · rename_i heq
          rw [heq]
        · rename_i hne
          rcases List.mem_append.mp hu with hu | hu
          · exact h.adjList old hold u hu
          · exact absurd (List.mem_singleton.mp hu) hne
      · dsimp only
        rw [hmap, hqueue, hhead, htake]
        intro hreturn u hu
        rw [if_pos hreturn, JsMap.get_set]
        split
        · rename_i heq
          rw [heq]
        · rename_i hne
          rcases List.mem_append.mp hu with hu | hu
          · exact h.edgeMap hreturn u hu
          · exact absurd (List.mem_singleton.mp hu) hne
      · dsimp only
        rw [discovered_foldl_discoverEdge, hqueue, hhead, htake, List.flatMap_append, List.flatMap_singleton]
        dsimp only
        rw [h.named]
        exact List.foldl_append.symm
    · dsimp only
      rw [hhead]
      omega

/-- What the first phase ends with: the reachable nodes, once each, and the number of their edges into each node. -/
structure Explored (starts : List JsString) (returnAdjList : Bool) (d : Discovery) : Prop where
  mem_iff : ∀ v, v ∈ d.discovered.elems ↔ Reachable neighborsOf starts v
  degree : ∀ v, (d.inDegree.get v).getD 0 = degreeFrom neighborsOf d.discovered.elems v
  neighborIds : ∀ u ∈ d.discovered.elems, getNeighborIds neighborsOf d.adjList u = neighborIds (neighborsOf u)
  edgeMap : returnAdjList = true → ∀ u ∈ d.discovered.elems, d.neighborEdgeMap.get u = some (neighborsOf u)
  named : d.discovered.elems =
    (JsSet.ofList (starts ++ d.discovered.elems.flatMap fun u => GraphTraversal.neighborIds (neighborsOf u))).elems

theorem getD_ensureStarts (starts : List JsString) (degrees : JsMap JsString Int) (v : JsString) :
    ((starts.foldl (fun degrees s => if degrees.has s then degrees else degrees.set s 0) degrees).get v).getD 0 =
      (degrees.get v).getD 0 := by
  induction starts generalizing degrees with
  | nil => rfl
  | cons s rest ih =>
      rw [List.foldl_cons, ih]
      split
      · rfl
      · rename_i hhas
        rw [JsMap.get_set]
        split
        · rename_i heq
          subst heq
          rw [JsMap.has, Option.not_isSome_iff_eq_none] at hhas
          rw [hhas]
          rfl
        · rfl

variable {neighborsOf} in
theorem discover_spec {nodes : List JsString} (hclosed : ∀ u v, Step neighborsOf u v → v ∈ nodes)
    {starts : JsSet JsString} (hstarts : starts.elems ⊆ nodes) (lightweight returnAdjList : Bool) :
    Explored neighborsOf starts.elems returnAdjList
      (discover neighborsOf nodes.length lightweight returnAdjList starts) := by
  unfold discover
  let first : Discovery := ⟨if lightweight then none else some .empty, .empty, .empty, starts, starts.elems, 0⟩
  have hfirst : Discovered neighborsOf nodes starts.elems returnAdjList first := by
    refine ⟨rfl, hstarts, List.Subset.refl _, fun v hv => ⟨v, hv, .refl⟩, ?_, Nat.zero_le _, ?_, ?_, ?_,
      (JsSet.ofList_elems starts).symm⟩
    · exact fun u hu => absurd hu List.not_mem_nil
    · exact fun v => rfl
    · exact fun adjList _ u hu => absurd hu List.not_mem_nil
    · exact fun _ u hu => absurd hu List.not_mem_nil
  have hkept : ∀ d d', Discovered neighborsOf nodes starts.elems returnAdjList d →
      discoverStep neighborsOf returnAdjList d = some d' → Discovered neighborsOf nodes starts.elems returnAdjList d' ∧
        nodes.length - d'.qHead < nodes.length - d.qHead :=
    fun d d' h hstep => discoverStep_spec hclosed h hstep
  have hend := While.loop_invariant (fun d d' h hstep => (hkept d d' h hstep).1) nodes.length hfirst
  have hstop := While.loop_stops (m := fun d : Discovery => nodes.length - d.qHead) hkept hfirst (Nat.sub_le _ _)
  generalize While.loop (discoverStep neighborsOf returnAdjList) nodes.length first = last at hend hstop ⊢
  have hall : last.queue.take last.qHead = last.queue := by
    refine List.take_of_length_le (Nat.le_of_not_lt fun hlt => ?_)
    rw [discoverStep, List.getElem?_eq_getElem hlt] at hstop
    cases hstop
  have hexpanded := hend.expanded
  have hdegree := hend.degree
  have hadj := hend.adjList
  have hmap := hend.edgeMap
  have hnamed := hend.named
  rw [hall] at hexpanded hdegree hadj hmap hnamed
  refine ⟨fun v => ?_, fun v => ?_, fun u hu => ?_, ?_, ?_⟩
  · dsimp only
    rw [hend.elems]
    constructor
    · exact hend.reachable v
    · rintro ⟨s, hs, hreach⟩
      induction hreach with
      | refl => exact hend.hasStarts hs
      | tail _ hstep ih => exact hexpanded _ ih _ hstep
  · dsimp only
    rw [getD_ensureStarts, hdegree, hend.elems]
  · dsimp only at hu ⊢
    rw [hend.elems] at hu
    unfold getNeighborIds
    cases hlist : last.adjList with
    | none => rfl
    | some adjList =>
        dsimp only
        rw [hadj adjList hlist u hu]
        rfl
  · intro hreturn u hu
    dsimp only at hu ⊢
    rw [hend.elems] at hu
    exact hmap hreturn u hu
  · dsimp only
    rw [JsSet.ofList_append, hend.elems, ← hnamed, hend.elems]

end Discovering

/-! ### Placing -/

section Placing

variable (idsOf : JsString → List JsString)

/-- The number of edges into a node from the nodes of a list that are not placed. -/
def degreeLeft (nodes placed : List JsString) (v : JsString) : Int :=
  ((nodes.filter fun u => u ∉ placed).map fun u => ((idsOf u).count v : Int)).sum

theorem degreeLeft_eq_cast (nodes placed : List JsString) (v : JsString) :
    degreeLeft idsOf nodes placed v = (((nodes.filter fun u => u ∉ placed).map fun u => (idsOf u).count v).sum : Nat) := by
  rw [degreeLeft, Nat.cast_list_sum, List.map_map]
  rfl

theorem degreeLeft_eq_zero_iff {nodes placed : List JsString} {v : JsString} :
    degreeLeft idsOf nodes placed v = 0 ↔ ∀ u ∈ nodes, v ∈ idsOf u → u ∈ placed := by
  rw [degreeLeft_eq_cast, Int.natCast_eq_zero, List.sum_eq_zero_iff]
  simp only [List.mem_map, List.mem_filter, decide_eq_true_eq, forall_exists_index, and_imp]
  constructor
  · intro h u hu hv
    by_contra hplaced
    exact List.count_eq_zero.mp (h _ u hu hplaced rfl) hv
  · rintro h _ u hu hplaced rfl
    exact List.count_eq_zero.mpr fun hv => hplaced (h u hu hv)

theorem count_le_degreeLeft {nodes placed : List JsString} {x : JsString} (hx : x ∈ nodes) (hplaced : x ∉ placed)
    (v : JsString) : ((idsOf x).count v : Int) ≤ degreeLeft idsOf nodes placed v := by
  rw [degreeLeft_eq_cast, Int.ofNat_le]
  exact List.le_sum_of_mem (List.mem_map_of_mem (List.mem_filter.mpr ⟨hx, by simpa using hplaced⟩))

/-- Placing a node takes its edges away. -/
theorem degreeLeft_concat {nodes placed : List JsString} (hnodup : nodes.Nodup) {x : JsString} (hx : x ∈ nodes)
    (hplaced : x ∉ placed) (v : JsString) :
    degreeLeft idsOf nodes (placed ++ [x]) v = degreeLeft idsOf nodes placed v - (idsOf x).count v := by
  have hperm : (nodes.filter fun u => u ∉ placed).Perm (x :: nodes.filter fun u => u ∉ placed ++ [x]) := by
    refine (List.perm_ext_iff_of_nodup (hnodup.filter _) (List.nodup_cons.mpr ⟨?_, hnodup.filter _⟩)).mpr fun u => ?_
    · simp
    · by_cases hu : u = x
      · simp [hu, hx, hplaced]
      · simp [hu]
  have hsum := (hperm.map fun u => ((idsOf u).count v : Int)).sum_eq
  rw [List.map_cons, List.sum_cons] at hsum
  unfold degreeLeft
  rw [hsum]
  omega

theorem readyEntry_injective {v w : JsString} (h : readyEntry v = readyEntry w) : v = w :=
  congrArg (fun entry => (ofLex entry).2) h

/-- Taking one edge away makes its node ready if that has no edge left. -/
theorem releaseEdge_spec (id : JsString) (k : Kahn) (hid : 1 ≤ (k.inDegree.get id).getD 0) (hnodup : k.ready.heap.Nodup)
    (hzero : ∀ v, readyEntry v ∈ k.ready.heap → (k.inDegree.get v).getD 0 = 0) :
    (∀ v, ((releaseEdge k id).inDegree.get v).getD 0 = (k.inDegree.get v).getD 0 - if id = v then 1 else 0) ∧
      (∀ entry, entry ∈ (releaseEdge k id).ready.heap ↔
        entry ∈ k.ready.heap ∨ (entry = readyEntry id ∧ (k.inDegree.get id).getD 0 = 1)) ∧
      (releaseEdge k id).ready.heap.Nodup ∧
      ∀ v, readyEntry v ∈ (releaseEdge k id).ready.heap → ((releaseEdge k id).inDegree.get v).getD 0 = 0 := by
  have hdegree : ∀ v, ((releaseEdge k id).inDegree.get v).getD 0 =
      (k.inDegree.get v).getD 0 - if id = v then 1 else 0 := by
    intro v
    rw [releaseEdge]
    dsimp only
    rw [JsMap.get_set]
    by_cases hv : v = id
    · subst hv
      rw [if_pos rfl, if_pos rfl, Option.getD_some]
    · rw [if_neg hv, if_neg fun heq => hv heq.symm, sub_zero]
  have hfresh : readyEntry id ∉ k.ready.heap := by
    intro hmem
    have hdeg := hzero id hmem
    omega
  have hready : ∀ entry, entry ∈ (releaseEdge k id).ready.heap ↔
      entry ∈ k.ready.heap ∨ (entry = readyEntry id ∧ (k.inDegree.get id).getD 0 = 1) := by
    intro entry
    rw [releaseEdge]
    dsimp only
    split
    · rename_i hdeg
      rw [MinHeap.mem_insert, or_comm]
      have hone : (k.inDegree.get id).getD 0 = 1 := by omega
      simp [hone]
    · rename_i hdeg
      have hone : ¬ (k.inDegree.get id).getD 0 = 1 := by omega
      simp [hone]
  refine ⟨hdegree, hready, ?_, fun v hv => ?_⟩
  · rw [releaseEdge]
    dsimp only
    split
    · exact (k.ready.insert_perm _).nodup_iff.mpr (List.nodup_cons.mpr ⟨hfresh, hnodup⟩)
    · exact hnodup
  · rw [hdegree]
    rcases (hready _).mp hv with hv | ⟨hv, hone⟩
    · have hne : id ≠ v := fun heq => hfresh (heq ▸ hv)
      rw [if_neg hne, hzero v hv, sub_zero]
    · rw [readyEntry_injective hv, if_pos rfl, hone, sub_self]

/-- Taking edges away makes those nodes ready that have no edge left. -/
theorem releaseEdges_spec (ids : List JsString) (k : Kahn) (hcount : ∀ v, (ids.count v : Int) ≤ (k.inDegree.get v).getD 0)
    (hnodup : k.ready.heap.Nodup) (hzero : ∀ v, readyEntry v ∈ k.ready.heap → (k.inDegree.get v).getD 0 = 0) :
    (ids.foldl releaseEdge k).sorted = k.sorted ∧
      (∀ v, ((ids.foldl releaseEdge k).inDegree.get v).getD 0 = (k.inDegree.get v).getD 0 - ids.count v) ∧
      (ids.foldl releaseEdge k).ready.heap.Nodup ∧
      ∀ entry, entry ∈ (ids.foldl releaseEdge k).ready.heap ↔ entry ∈ k.ready.heap ∨
        ∃ v ∈ ids, entry = readyEntry v ∧ (k.inDegree.get v).getD 0 = ids.count v := by
  induction ids generalizing k with
  | nil => exact ⟨rfl, by simp, hnodup, by simp⟩
  | cons id rest ih =>
      have hid : 1 ≤ (k.inDegree.get id).getD 0 := by
        have hle := hcount id
        rw [List.count_cons_self] at hle
        omega
      obtain ⟨hdegree, hready, hnodup', hzero'⟩ := releaseEdge_spec id k hid hnodup hzero
      have hcount' : ∀ v, (rest.count v : Int) ≤ ((releaseEdge k id).inDegree.get v).getD 0 := by
        intro v
        have hle := hcount v
        rw [List.count_cons] at hle
        rw [hdegree]
        by_cases hv : id = v
        · simp only [hv, beq_self_eq_true, if_true, Nat.cast_add, Nat.cast_one] at hle ⊢
          omega
        · simpa [hv] using hle
      obtain ⟨hsorted, hdegree'', hnodup'', hmem⟩ := ih (releaseEdge k id) hcount' hnodup' hzero'
      refine ⟨hsorted, fun v => ?_, hnodup'', fun entry => ?_⟩
      · rw [List.foldl_cons, hdegree'', hdegree, List.count_cons]
        by_cases hv : id = v
        · simp only [hv, if_true, beq_self_eq_true, Nat.cast_add, Nat.cast_one]
          omega
        · simp [hv]
      · rw [List.foldl_cons, hmem, hready, or_assoc]
        refine or_congr_right ?_
        constructor
        · rintro (⟨rfl, hone⟩ | ⟨v, hv, rfl, hdeg⟩)
          · refine ⟨id, List.mem_cons_self, rfl, ?_⟩
            have hle := hcount' id
            rw [hdegree, if_pos rfl, hone] at hle
            rw [hone, List.count_cons_self]
            omega
          · refine ⟨v, List.mem_cons_of_mem _ hv, rfl, ?_⟩
            rw [hdegree] at hdeg
            rw [List.count_cons]
            by_cases heq : id = v
            · simp only [heq, if_true, beq_self_eq_true, Nat.cast_add, Nat.cast_one] at hdeg ⊢
              omega
            · simpa [heq] using hdeg
        · rintro ⟨v, hv, rfl, hdeg⟩
          rw [List.count_cons] at hdeg
          by_cases heq : id = v
          · subst heq
            simp only [beq_self_eq_true, if_true, Nat.cast_add, Nat.cast_one] at hdeg
            by_cases hrest : id ∈ rest
            · refine Or.inr ⟨id, hrest, rfl, ?_⟩
              rw [hdegree, if_pos rfl, hdeg]
              omega
            · rw [List.count_eq_zero.mpr hrest] at hdeg
              exact Or.inl ⟨rfl, by simpa using hdeg⟩
          · refine Or.inr ⟨v, (List.mem_cons.mp hv).resolve_left fun h => heq h.symm, rfl, ?_⟩
            rw [hdegree, if_neg heq, sub_zero]
            simpa [heq] using hdeg

/-- What the second phase keeps: least nodes are placed, the degrees count the edges from nodes that are not, and the
queue holds the nodes that may come next, once each. -/
structure Placed (nodes : List JsString) (k : Kahn) : Prop where
  sorted : IsLeastOrder (fun u v => v ∈ idsOf u) nodes k.sorted
  degree : ∀ v, (k.inDegree.get v).getD 0 = degreeLeft idsOf nodes k.sorted v
  nodup : k.ready.heap.Nodup
  ready : ∀ entry, entry ∈ k.ready.heap ↔
    ∃ v, entry = readyEntry v ∧ Ready (fun u v => v ∈ idsOf u) nodes k.sorted v

theorem readyEntry_le_iff {v w : JsString} : readyEntry v ≤ readyEntry w ↔ v ≤ w := by
  unfold readyEntry
  rw [Prod.Lex.toLex_le_toLex]
  exact ⟨fun h => (h.resolve_left (lt_irrefl 0)).2, fun h => Or.inr ⟨rfl, h⟩⟩

theorem ready_iff {nodes placed : List JsString} {v : JsString} :
    Ready (fun u v => v ∈ idsOf u) nodes placed v ↔ v ∈ nodes ∧ v ∉ placed ∧ degreeLeft idsOf nodes placed v = 0 := by
  rw [degreeLeft_eq_zero_iff]
  rfl

variable {idsOf} in
/-- After one more node those may come next that could before, and those whose last edges came from it. -/
theorem ready_concat_iff {nodes placed : List JsString} (hnodup : nodes.Nodup)
    (hclosed : ∀ u ∈ nodes, ∀ v ∈ idsOf u, v ∈ nodes) (horder : IsOrder (fun u v => v ∈ idsOf u) nodes placed)
    {x : JsString} (hx : Ready (fun u v => v ∈ idsOf u) nodes placed x) (v : JsString) :
    Ready (fun u v => v ∈ idsOf u) nodes (placed ++ [x]) v ↔
      (Ready (fun u v => v ∈ idsOf u) nodes placed v ∧ v ≠ x) ∨
        (v ∈ idsOf x ∧ degreeLeft idsOf nodes placed v = (idsOf x).count v) := by
  obtain ⟨hxnodes, hxplaced, hxdegree⟩ := (ready_iff idsOf).mp hx
  simp only [ready_iff, degreeLeft_concat idsOf hnodup hxnodes hxplaced, List.mem_append, List.mem_singleton, not_or]
  constructor
  · rintro ⟨hvnodes, ⟨hvplaced, hne⟩, hdeg⟩
    by_cases hready : degreeLeft idsOf nodes placed v = 0
    · exact Or.inl ⟨⟨hvnodes, hvplaced, hready⟩, hne⟩
    · refine Or.inr ⟨?_, by omega⟩
      by_contra hv
      rw [List.count_eq_zero.mpr hv] at hdeg
      exact hready (by simpa using hdeg)
  · rintro (⟨⟨hvnodes, hvplaced, hvdegree⟩, hne⟩ | ⟨hv, hdeg⟩)
    · have hle := count_le_degreeLeft idsOf hxnodes hxplaced v
      exact ⟨hvnodes, ⟨hvplaced, hne⟩, by omega⟩
    · have hfresh : v ∉ placed := by
        intro hvplaced
        obtain ⟨before, after, heq⟩ := List.append_of_mem hvplaced
        have hpred := (horder before v after heq).2.2 x hxnodes hv
        exact hxplaced (heq ▸ List.mem_append_left _ hpred)
      refine ⟨hclosed x hxnodes v hv, ⟨hfresh, ?_⟩, by omega⟩
      rintro rfl
      rw [hxdegree] at hdeg
      exact List.count_eq_zero.mp (by omega) hv

variable {idsOf} in
theorem kahnStep_spec {nodes : List JsString} (hnodup : nodes.Nodup) (hclosed : ∀ u ∈ nodes, ∀ v ∈ idsOf u, v ∈ nodes)
    {maxNodes : Nat} {k k' : Kahn} (h : Placed idsOf nodes k) (hstep : kahnStep idsOf maxNodes k = some k') :
    Placed idsOf nodes k' ∧ nodes.length - k'.sorted.length < nodes.length - k.sorted.length := by
  unfold kahnStep at hstep
  split at hstep
  · cases hstep
  · rename_i entry rest hextract
    split at hstep
    · obtain ⟨hperm, hleast⟩ := MinHeap.extractMin_spec hextract
      obtain ⟨x, rfl, hx⟩ := (h.ready entry).mp (hperm.symm.subset List.mem_cons_self)
      obtain ⟨hxnodes, hxplaced, hxdegree⟩ := (ready_iff idsOf).mp hx
      have hrest := List.nodup_cons.mp (hperm.nodup_iff.mp h.nodup)
      have hcount : ∀ v, ((idsOf x).count v : Int) ≤ (k.inDegree.get v).getD 0 := by
        intro v
        rw [h.degree]
        exact count_le_degreeLeft idsOf hxnodes hxplaced v
      have hzero : ∀ v, readyEntry v ∈ rest.heap → (k.inDegree.get v).getD 0 = 0 := by
        intro v hv
        obtain ⟨w, heq, hw⟩ := (h.ready _).mp (hperm.symm.subset (List.mem_cons_of_mem _ hv))
        rw [readyEntry_injective heq, h.degree]
        exact ((ready_iff idsOf).mp hw).2.2
      obtain ⟨hsorted, hdegree, hnodup', hmem⟩ :=
        releaseEdges_spec (idsOf x) ⟨k.inDegree, rest, k.sorted ++ [x]⟩ hcount hrest.2 hzero
      obtain rfl : (idsOf x).foldl releaseEdge ⟨k.inDegree, rest, k.sorted ++ [x]⟩ = k' := Option.some.inj hstep
      have hplace : IsLeast {v | Ready (fun u v => v ∈ idsOf u) nodes k.sorted v} x := by
        refine ⟨hx, fun v hv => ?_⟩
        exact readyEntry_le_iff.mp (hleast _ ((h.ready _).mpr ⟨v, rfl, hv⟩))
      have horder := h.sorted.concat hplace
      have hbound : (k.sorted ++ [x]).length ≤ nodes.length :=
        (List.subperm_of_subset horder.isOrder.nodup horder.isOrder.subset).length_le
      rw [List.length_append, List.length_singleton] at hbound
      refine ⟨⟨?_, fun v => ?_, hnodup', fun entry => ?_⟩, ?_⟩
      · rw [hsorted]
        exact horder
      · rw [hdegree, hsorted, h.degree, degreeLeft_concat idsOf hnodup hxnodes hxplaced]
      · rw [hmem, hsorted]
        have hnext := ready_concat_iff hnodup hclosed h.sorted.isOrder hx
        constructor
        · rintro (hentry | ⟨v, hv, rfl, hdeg⟩)
          · obtain ⟨v, rfl, hready⟩ := (h.ready _).mp (hperm.symm.subset (List.mem_cons_of_mem _ hentry))
            refine ⟨v, rfl, (hnext v).mpr (Or.inl ⟨hready, ?_⟩)⟩
            rintro rfl
            exact hrest.1 hentry
          · rw [h.degree] at hdeg
            exact ⟨v, rfl, (hnext v).mpr (Or.inr ⟨hv, hdeg⟩)⟩
        · rintro ⟨v, rfl, hready⟩
          rcases (hnext v).mp hready with ⟨hready, hne⟩ | ⟨hv, hdeg⟩
          · rcases List.mem_cons.mp (hperm.subset ((h.ready _).mpr ⟨v, rfl, hready⟩)) with heq | hentry
            · exact absurd (readyEntry_injective heq) hne
            · exact Or.inl hentry
          · exact Or.inr ⟨v, hv, rfl, by rw [h.degree, hdeg]⟩
      · rw [hsorted, List.length_append, List.length_singleton]
        omega
    · cases hstep

theorem initialReady_spec (d : Discovery) : (initialReady d).heap.Nodup ∧ ∀ entry, entry ∈ (initialReady d).heap ↔
    ∃ v ∈ d.discovered.elems, entry = readyEntry v ∧ (d.inDegree.get v).getD 0 = 0 := by
  have hloop : ∀ (nodeIds : List JsString) (ready : MinHeap (ℕ ×ₗ JsString)), nodeIds.Nodup → ready.heap.Nodup →
      (∀ v ∈ nodeIds, readyEntry v ∉ ready.heap) →
      (nodeIds.foldl (fun ready nodeId => if (d.inDegree.get nodeId).getD 0 = 0 then ready.insert (readyEntry nodeId)
        else ready) ready).heap.Nodup ∧
      ∀ entry, entry ∈ (nodeIds.foldl (fun ready nodeId => if (d.inDegree.get nodeId).getD 0 = 0 then
        ready.insert (readyEntry nodeId) else ready) ready).heap ↔ entry ∈ ready.heap ∨
          ∃ v ∈ nodeIds, entry = readyEntry v ∧ (d.inDegree.get v).getD 0 = 0 := by
    intro nodeIds
    induction nodeIds with
    | nil => exact fun ready _ hready _ => ⟨hready, by simp⟩
    | cons id rest ih =>
        intro ready hnodup hready hfresh
        obtain ⟨hid, hrest⟩ := List.nodup_cons.mp hnodup
        rw [List.foldl_cons]
        split
        · rename_i hzero
          obtain ⟨hnodup', hmem⟩ := ih (ready.insert (readyEntry id)) hrest
            ((ready.insert_perm _).nodup_iff.mpr (List.nodup_cons.mpr ⟨hfresh id List.mem_cons_self, hready⟩)) (by
              intro v hv hin
              rcases (MinHeap.mem_insert _ _ _).mp hin with heq | hin
              · exact hid (readyEntry_injective heq ▸ hv)
              · exact hfresh v (List.mem_cons_of_mem _ hv) hin)
          refine ⟨hnodup', fun entry => ?_⟩
          rw [hmem, MinHeap.mem_insert]
          simp only [List.mem_cons, exists_eq_or_imp, hzero, and_true]
          tauto
        · rename_i hzero
          obtain ⟨hnodup', hmem⟩ := ih ready hrest hready fun v hv => hfresh v (List.mem_cons_of_mem _ hv)
          refine ⟨hnodup', fun entry => ?_⟩
          rw [hmem]
          simp only [List.mem_cons, exists_eq_or_imp, hzero, and_false, false_or]
  have hempty : ∀ entry, entry ∉ (MinHeap.empty : MinHeap (ℕ ×ₗ JsString)).heap := fun _ => List.not_mem_nil
  obtain ⟨hnodup, hmem⟩ := hloop d.discovered.elems .empty d.discovered.nodup List.nodup_nil fun v _ => hempty _
  refine ⟨hnodup, fun entry => ?_⟩
  rw [initialReady, hmem]
  simp [hempty]

variable {idsOf} in
/-- The second phase ends with an order of least nodes; it stops at the limit or where nothing may come next. -/
theorem kahn_spec {bound : Nat} {d : Discovery} (hclosed : ∀ u ∈ d.discovered.elems, ∀ v ∈ idsOf u, v ∈ d.discovered.elems)
    (hbound : d.discovered.elems.length ≤ bound)
    (hdegree : ∀ v, (d.inDegree.get v).getD 0 = degreeLeft idsOf d.discovered.elems [] v) (maxNodes : Nat) :
    Placed idsOf d.discovered.elems (kahn idsOf bound maxNodes d) ∧
      ((kahn idsOf bound maxNodes d).ready.isEmpty = false → maxNodes ≤ (kahn idsOf bound maxNodes d).sorted.length) := by
  have hfirst : Placed idsOf d.discovered.elems ⟨d.inDegree, initialReady d, []⟩ := by
    obtain ⟨hnodup, hmem⟩ := initialReady_spec d
    refine ⟨isLeastOrder_nil, hdegree, hnodup, fun entry => ?_⟩
    rw [hmem]
    constructor
    · rintro ⟨v, hv, rfl, hzero⟩
      exact ⟨v, rfl, (ready_iff idsOf).mpr ⟨hv, List.not_mem_nil, by rw [← hdegree, hzero]⟩⟩
    · rintro ⟨v, rfl, hready⟩
      obtain ⟨hv, -, hzero⟩ := (ready_iff idsOf).mp hready
      exact ⟨v, hv, rfl, by rw [hdegree, hzero]⟩
  have hkept : ∀ k k', Placed idsOf d.discovered.elems k → kahnStep idsOf maxNodes k = some k' →
      Placed idsOf d.discovered.elems k' ∧
        d.discovered.elems.length - k'.sorted.length < d.discovered.elems.length - k.sorted.length :=
    fun k k' h hstep => kahnStep_spec d.discovered.nodup hclosed h hstep
  have hend := While.loop_invariant (fun k k' h hstep => (hkept k k' h hstep).1) bound hfirst
  have hstop := While.loop_stops (m := fun k : Kahn => d.discovered.elems.length - k.sorted.length) hkept hfirst
    ((Nat.sub_le _ _).trans hbound)
  unfold kahn
  refine ⟨hend, fun hready => Nat.le_of_not_lt fun hlt => ?_⟩
  rw [kahnStep] at hstop
  split at hstop
  · rename_i hnone
    rw [MinHeap.isEmpty, MinHeap.extractMin_eq_none_iff.mp hnone] at hready
    cases hready
  · rw [if_pos hlt] at hstop
    cases hstop

end Placing

/-! ### The sort as a whole -/

section Sorting

/-- What a run of the sort finds and places. -/
structure TopoRun (neighborsOf : JsString → List NeighborEdge) (starts : List JsString) (maxNodes : Nat)
    (found sorted : List JsString) : Prop where
  nodup : found.Nodup
  mem_iff : ∀ v, v ∈ found ↔ Reachable neighborsOf starts v
  order : IsLeastOrder (Step neighborsOf) found sorted
  limit : ∀ v, Ready (Step neighborsOf) found sorted v → maxNodes ≤ sorted.length

theorem ready_congr {R R' : JsString → JsString → Prop} {nodes : List JsString} (h : ∀ u ∈ nodes, ∀ v, R u v ↔ R' u v)
    (placed : List JsString) (v : JsString) : Ready R nodes placed v ↔ Ready R' nodes placed v := by
  unfold Ready
  refine and_congr_right fun _ => and_congr_right fun _ => forall₂_congr fun u hu => ?_
  rw [h u hu]

theorem findSome?_congr_mem {α β : Type} {f g : α → Option β} {l : List α} (h : ∀ a ∈ l, f a = g a) :
    l.findSome? f = l.findSome? g := by
  induction l with
  | nil => rfl
  | cons a rest ih =>
      rw [List.findSome?_cons, List.findSome?_cons, h a List.mem_cons_self,
        ih fun b hb => h b (List.mem_cons_of_mem _ hb)]

variable (provider : NeighborProvider) (direction : Direction) (options : Option (List JsString))

theorem forM_validateStart_eq_ok {starts : List JsString} (h : ∀ s ∈ starts, provider.hasNode s = true) :
    starts.forM (validateStart provider) = .ok () := by
  induction starts with
  | nil => rfl
  | cons s rest ih =>
      change (do validateStart provider s; rest.forM (validateStart provider)) = .ok ()
      rw [validateStart, if_pos (h s List.mem_cons_self), ih fun t ht => h t (List.mem_cons_of_mem _ ht)]
      rfl

/-- The order in which the first phase finds the nodes. -/
def discoveryOrder (start : List JsString) : List JsString :=
  (discover (neighborsOf provider direction options) provider.nodes.length true false (.ofList start)).discovered.elems

theorem isBreadthFirst_discoveryOrder {start : List JsString} (hstart : ∀ s ∈ start, provider.hasNode s = true) :
    Discovery.IsBreadthFirst (fun u => neighborIds (neighborsOf provider direction options u)) start
      (discoveryOrder provider direction options start) := by
  have hspec := @discover_spec (neighborsOf provider direction options) _ step_mem_nodes _
    (fun s hs => List.contains_iff_mem.mp (hstart s ((JsSet.mem_ofList start s).mp hs))) true false
  refine ⟨fun v hv => ?_, ?_⟩
  · obtain ⟨s, hs, hlead⟩ := (hspec.mem_iff v).mp hv
    exact ⟨s, (JsSet.mem_ofList start s).mp hs, hlead⟩
  · have hnamed := hspec.named
    rw [JsSet.ofList_append, JsSet.ofList_elems, ← JsSet.ofList_append] at hnamed
    exact hnamed

theorem discover_congr (neighborsOf : JsString → List NeighborEdge) (bound : Nat) (lightweight returnAdjList : Bool)
    (starts : JsSet JsString) : (discover neighborsOf bound lightweight returnAdjList starts).discovered =
      (discover neighborsOf bound true false starts).discovered := by
  have hedge : ∀ (ids : List JsString) (d e : Discovery), d.discovered = e.discovered → d.queue = e.queue →
      (ids.foldl discoverEdge d).discovered = (ids.foldl discoverEdge e).discovered ∧
        (ids.foldl discoverEdge d).queue = (ids.foldl discoverEdge e).queue ∧
        (ids.foldl discoverEdge d).qHead = d.qHead ∧ (ids.foldl discoverEdge e).qHead = e.qHead := by
    intro ids
    induction ids with
    | nil => exact fun d e hd hq => ⟨hd, hq, rfl, rfl⟩
    | cons id rest ih =>
        intro d e hd hq
        have hstep : (discoverEdge d id).discovered = (discoverEdge e id).discovered ∧
            (discoverEdge d id).queue = (discoverEdge e id).queue ∧ (discoverEdge d id).qHead = d.qHead ∧
            (discoverEdge e id).qHead = e.qHead := by
          unfold discoverEdge
          dsimp only
          rw [hd]
          split
          · exact ⟨rfl, hq, rfl, rfl⟩
          · exact ⟨rfl, congrArg (· ++ [id]) hq, rfl, rfl⟩
        obtain ⟨hd', hq', hhead, hhead'⟩ := ih _ _ hstep.1 hstep.2.1
        exact ⟨hd', hq', hhead.trans hstep.2.2.1, hhead'.trans hstep.2.2.2⟩
  have hloop : ∀ (fuel : Nat) (d e : Discovery), d.discovered = e.discovered → d.queue = e.queue → d.qHead = e.qHead →
      (While.loop (discoverStep neighborsOf returnAdjList) fuel d).discovered =
        (While.loop (discoverStep neighborsOf false) fuel e).discovered := by
    intro fuel
    induction fuel with
    | zero => exact fun d e hd _ _ => hd
    | succ fuel ih =>
        intro d e hd hq hhead
        have hsame : d.queue[d.qHead]? = e.queue[e.qHead]? := by rw [hq, hhead]
        rw [While.loop, While.loop, discoverStep, discoverStep, hsame]
        cases hget : e.queue[e.qHead]? with
        | none => exact hd
        | some nodeId =>
            obtain ⟨hd', hq', hhead', hhead''⟩ := hedge (neighborIds (neighborsOf nodeId))
              { d with qHead := d.qHead + 1 } { e with qHead := e.qHead + 1 } hd hq
            refine ih _ _ hd' hq' ?_
            dsimp only at hhead' hhead'' ⊢
            rw [hhead', hhead'', hhead]
  unfold discover
  exact hloop bound _ _ rfl rfl rfl

/-- What the sort returns or throws, by what it found and placed. -/
theorem topologicalSort_run (p : TopoOptions) (hstart : ∀ s ∈ p.start, provider.hasNode s = true) :
    ∃ sorted neighborEdgeMap hasCycle,
      TopoRun (neighborsOf provider direction options) p.start p.maxNodes (discoveryOrder provider direction options p.start)
        sorted ∧
      (hasCycle = true ↔ (∀ v, ¬ Ready (Step (neighborsOf provider direction options))
        (discoveryOrder provider direction options p.start) sorted v) ∧
          sorted.length < (discoveryOrder provider direction options p.start).length) ∧
      (p.returnAdjList = true → ∃ edges : JsMap JsString (List NeighborEdge), neighborEdgeMap = some edges ∧
        ∀ u ∈ discoveryOrder provider direction options p.start,
          edges.get u = some (neighborsOf provider direction options u)) ∧
      topologicalSort provider direction options p =
        if hasCycle && p.throwOnCycle then
          .error (.hasCycles ((discoveryOrder provider direction options p.start).length - sorted.length)
            ((findTopoCycleWitness (fun u => neighborIds (neighborsOf provider direction options u))
              (discoveryOrder provider direction options p.start) sorted).filter fun witness => witness.1 ≠ []))
        else .ok ⟨sorted, hasCycle, neighborEdgeMap⟩ := by
  have hvalid : (JsSet.ofList p.start).elems.forM (validateStart provider) = .ok () :=
    forM_validateStart_eq_ok provider fun s hs => hstart s ((JsSet.mem_ofList _ _).mp hs)
  have hclosed : ∀ u v, Step (neighborsOf provider direction options) u v → v ∈ provider.nodes := step_mem_nodes
  have hsubset : (JsSet.ofList p.start).elems ⊆ provider.nodes := by
    intro s hs
    exact List.contains_iff_mem.mp (hstart s ((JsSet.mem_ofList _ _).mp hs))
  have hspec := discover_spec hclosed hsubset (p.lightweight && !p.returnAdjList) p.returnAdjList
  have hcongr := discover_congr (neighborsOf provider direction options) provider.nodes.length
    (p.lightweight && !p.returnAdjList) p.returnAdjList (.ofList p.start)
  have horder : discoveryOrder provider direction options p.start = (discover (neighborsOf provider direction options)
      provider.nodes.length (p.lightweight && !p.returnAdjList) p.returnAdjList (.ofList p.start)).discovered.elems := by
    rw [hcongr]
    rfl
  rw [horder]
  unfold topologicalSort
  simp only [hvalid]
  generalize discover (neighborsOf provider direction options) provider.nodes.length
    (p.lightweight && !p.returnAdjList) p.returnAdjList (.ofList p.start) = d at hspec ⊢
  have hsame : ∀ u ∈ d.discovered.elems, ∀ v, v ∈ getNeighborIds (neighborsOf provider direction options) d.adjList u ↔
      Step (neighborsOf provider direction options) u v := by
    intro u hu v
    rw [hspec.neighborIds u hu]
    rfl
  have hstarts : ∀ v, Reachable (neighborsOf provider direction options) (JsSet.ofList p.start).elems v ↔
      Reachable (neighborsOf provider direction options) p.start v := by
    intro v
    unfold Reachable
    simp only [JsSet.mem_elems, JsSet.mem_ofList]
  have hinside : ∀ u ∈ d.discovered.elems, ∀ v, Step (neighborsOf provider direction options) u v →
      v ∈ d.discovered.elems := fun u hu v huv => (hspec.mem_iff v).mpr (((hspec.mem_iff u).mp hu).step huv)
  have hinNodes : d.discovered.elems ⊆ provider.nodes := fun v hv =>
    ((hspec.mem_iff v).mp hv).mem_of_closed hsubset hclosed
  have hdegree : ∀ v, (d.inDegree.get v).getD 0 =
      degreeLeft (getNeighborIds (neighborsOf provider direction options) d.adjList) d.discovered.elems [] v := by
    intro v
    rw [hspec.degree, degreeLeft, List.filter_eq_self.mpr fun u _ => by simp, degreeFrom]
    congr 1
    exact List.map_congr_left fun u hu => by rw [hspec.neighborIds u hu]
  have hbound : d.discovered.elems.length ≤ provider.nodes.length :=
    (List.subperm_of_subset d.discovered.nodup hinNodes).length_le
  obtain ⟨hplaced, hlimit⟩ := kahn_spec (fun u hu v hv => hinside u hu v ((hsame u hu v).mp hv)) hbound hdegree p.maxNodes
  generalize kahn (getNeighborIds (neighborsOf provider direction options) d.adjList) provider.nodes.length p.maxNodes d = k
    at hplaced hlimit ⊢
  have hready : (∃ v, Ready (Step (neighborsOf provider direction options)) d.discovered.elems k.sorted v) ↔
      k.ready.isEmpty = false := by
    rw [MinHeap.isEmpty, List.isEmpty_eq_false_iff_exists_mem]
    constructor
    · rintro ⟨v, hv⟩
      exact ⟨readyEntry v, (hplaced.ready _).mpr ⟨v, rfl, (ready_congr hsame k.sorted v).mpr hv⟩⟩
    · rintro ⟨entry, hentry⟩
      obtain ⟨v, -, hv⟩ := (hplaced.ready entry).mp hentry
      exact ⟨v, (ready_congr hsame k.sorted v).mp hv⟩
  have hwitness : findTopoCycleWitness (getNeighborIds (neighborsOf provider direction options) d.adjList)
      d.discovered.elems k.sorted = findTopoCycleWitness
        (fun u => neighborIds (neighborsOf provider direction options u)) d.discovered.elems k.sorted := by
    refine findSome?_congr_mem fun u hu => ?_
    rw [hspec.neighborIds u hu]
  refine ⟨k.sorted, if p.returnAdjList then some d.neighborEdgeMap else none,
    computeTopoHasCycle k.sorted.length d.discovered.size p.maxNodes (!k.ready.isEmpty), ⟨d.discovered.nodup, ?_, ?_, ?_⟩,
    ?_, ?_, ?_⟩
  · exact fun v => (hspec.mem_iff v).trans (hstarts v)
  · intro before v after heq
    have hleast := hplaced.sorted before v after heq
    have hset : {x | Ready (Step (neighborsOf provider direction options)) d.discovered.elems before x} =
        {x | Ready (fun u v => v ∈ getNeighborIds (neighborsOf provider direction options) d.adjList u)
          d.discovered.elems before x} :=
      Set.ext fun x => (ready_congr hsame before x).symm
    rw [hset]
    exact hleast
  · exact fun v hv => hlimit (hready.mp ⟨v, hv⟩)
  · rw [← not_exists, hready, computeTopoHasCycle, JsSet.size]
    cases hempty : k.ready.isEmpty with
    | true => simp
    | false => simp [hlimit hempty]
  · intro hreturn
    exact ⟨d.neighborEdgeMap, by rw [if_pos hreturn], fun u hu => hspec.edgeMap hreturn u hu⟩
  · rw [hwitness]
    rfl

end Sorting

end GraphTraversal

end GitWarp
