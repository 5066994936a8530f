import GitWarp.TraversalReduction

/-! The transitive closure, as a stream and as a list: for each reachable node, in order, the nodes that it reaches. -/

namespace GitWarp
open Js Relation Reachability ExceptLoops

namespace GraphTraversal

section Definitions

variable (neighborsOf : JsString → List NeighborEdge)

/-! ### The nodes that are found -/

structure ClosureQueue where
  allVisited : JsSet JsString
  queue : List JsString
  qHead : Nat

def closureQueueStep (maxNodes : Nat) (c : ClosureQueue) : Option ClosureQueue :=
  match c.queue[c.qHead]? with
  | none => none
  | some nodeId =>
      if maxNodes ≤ c.allVisited.size then none
      else
        let seen := (neighborIds (neighborsOf nodeId)).foldl visitSuccessor (c.allVisited, c.queue)
        some ⟨seen.1, seen.2, c.qHead + 1⟩

/-! ### The edges of a node -/

structure ClosureEdge where
  source : JsString
  target : JsString
  deriving DecidableEq

/-- The search from one node. Once the edges exceed `maxEdges`, it has thrown. -/
structure Spread where
  visited : JsSet JsString
  frontier : List JsString
  nextFrontier : List JsString
  reachable : List JsString
  edgeCount : Nat
  exceeded : Bool

def spreadNeighbor (maxEdges : Nat) (s : Spread) (neighborId : JsString) : Spread :=
  if s.exceeded || s.visited.has neighborId then s
  else { s with
    visited := s.visited.add neighborId
    nextFrontier := s.nextFrontier ++ [neighborId]
    reachable := s.reachable ++ [neighborId]
    edgeCount := s.edgeCount + 1
    exceeded := decide (maxEdges < s.edgeCount + 1) }

def spreadStep (maxEdges : Nat) (s : Spread) : Option Spread :=
  if s.exceeded = true ∨ s.frontier = [] then none
  else
    let s := s.frontier.foldl (fun s nodeId => (neighborIds (neighborsOf nodeId)).foldl (spreadNeighbor maxEdges) s)
      { s with nextFrontier := [] }
    some { s with frontier := s.nextFrontier }

/-- What the generator has yielded, and what it has thrown. -/
structure ClosureStream where
  edges : List ClosureEdge
  edgeCount : Nat
  thrown : Option TraversalError
  deriving DecidableEq

/-- The edges of one node. -/
def streamFrom (bound maxEdges : Nat) (s : ClosureStream) (fromNode : JsString) : ClosureStream :=
  if s.thrown.isSome then s
  else
    let spread := While.loop (spreadStep neighborsOf maxEdges) bound
      ⟨.ofList [fromNode], [fromNode], [], [], s.edgeCount, false⟩
    if spread.exceeded then { s with thrown := some (.maxEdgesExceeded maxEdges spread.edgeCount) }
    else ⟨s.edges ++ (spread.reachable.insertionSort (· ≤ ·)).map (ClosureEdge.mk fromNode), spread.edgeCount, none⟩

end Definitions

section Runs

variable (provider : NeighborProvider) (direction : Direction) (options : Option (List JsString))

def prepareTransitiveClosure (start : List JsString) (maxNodes : Nat) : Except TraversalError (List JsString) := do
  let starts := JsSet.ofList start
  starts.elems.forM (validateStart provider)
  let c := While.loop (closureQueueStep (neighborsOf provider direction options) maxNodes) provider.nodes.length
    ⟨starts, starts.elems, 0⟩
  return c.allVisited.elems.insertionSort (· ≤ ·)

def streamTransitiveClosureEdges (nodeList : List JsString) (maxEdges : Nat) : ClosureStream :=
  nodeList.foldl (streamFrom (neighborsOf provider direction options) (provider.nodes.length + 1) maxEdges) ⟨[], 0, none⟩

def transitiveClosureStream (start : List JsString) (maxNodes maxEdges : Nat) : ClosureStream :=
  match prepareTransitiveClosure provider direction options start maxNodes with
  | .error err => ⟨[], 0, some err⟩
  | .ok nodeList => streamTransitiveClosureEdges provider direction options nodeList maxEdges

def transitiveClosure (start : List JsString) (maxNodes maxEdges : Nat) : Except TraversalError (List ClosureEdge) := do
  let nodeList ← prepareTransitiveClosure provider direction options start maxNodes
  let stream := streamTransitiveClosureEdges provider direction options nodeList maxEdges
  match stream.thrown with
  | some err => throw err
  | none => return stream.edges

end Runs

/-! ### What one node reaches -/

section Spreading

variable {neighborsOf : JsString → List NeighborEdge} {source : JsString} {nodes : List JsString} {maxEdges count : Nat}

/-- The search from a node in the middle: it counts what it has visited beside the node itself. -/
structure Counted (neighborsOf : JsString → List NeighborEdge) (source : JsString) (nodes : List JsString)
    (maxEdges count : Nat) (s : Spread) : Prop where
  elems : s.visited.elems = source :: s.reachable
  counted : s.edgeCount = count + s.reachable.length
  sound : ∀ v ∈ s.visited.elems, ReflTransGen (Step neighborsOf) source v
  inNodes : ∀ v ∈ s.visited.elems, v ∈ nodes
  exceeded : s.exceeded = decide (maxEdges < s.edgeCount)
  bounded : s.edgeCount ≤ maxEdges + 1

theorem spreadNeighbors_exceeded (ids : List JsString) {s : Spread} (h : s.exceeded = true) :
    ids.foldl (spreadNeighbor maxEdges) s = s := by
  induction ids with
  | nil => rfl
  | cons id rest ih =>
      have hsame : spreadNeighbor maxEdges s id = s := by
        rw [spreadNeighbor, h]
        rfl
      rw [List.foldl_cons, hsame, ih]

theorem Counted.visit {s : Spread} (h : Counted neighborsOf source nodes maxEdges count s) (hnot : s.exceeded = false)
    {v : JsString} (hv : ReflTransGen (Step neighborsOf) source v) (hnode : v ∈ nodes) (hnew : v ∉ s.visited) :
    Counted neighborsOf source nodes maxEdges count { s with
      visited := s.visited.add v
      nextFrontier := s.nextFrontier ++ [v]
      reachable := s.reachable ++ [v]
      edgeCount := s.edgeCount + 1
      exceeded := decide (maxEdges < s.edgeCount + 1) } := by
  have hfew : ¬ maxEdges < s.edgeCount := of_decide_eq_false (h.exceeded.symm.trans hnot)
  refine ⟨?_, ?_, fun w hw => ?_, fun w hw => ?_, rfl, ?_⟩
  · dsimp only
    rw [JsSet.elems_add hnew, h.elems]
    rfl
  · dsimp only
    rw [List.length_append, List.length_singleton, h.counted, Nat.add_assoc]
  · rcases (JsSet.mem_add _ _ _).mp hw with rfl | hw
    · exact hv
    · exact h.sound w hw
  · rcases (JsSet.mem_add _ _ _).mp hw with rfl | hw
    · exact hnode
    · exact h.inNodes w hw
  · dsimp only
    omega

/-- The neighbors of nodes that are visited. -/
theorem spreadNeighbors_spec (ids : List JsString) {s : Spread} (h : Counted neighborsOf source nodes maxEdges count s)
    (hids : ∀ v ∈ ids, ReflTransGen (Step neighborsOf) source v ∧ v ∈ nodes) :
    Counted neighborsOf source nodes maxEdges count (ids.foldl (spreadNeighbor maxEdges) s) ∧
      ((ids.foldl (spreadNeighbor maxEdges) s).exceeded = false → ∃ added,
        (ids.foldl (spreadNeighbor maxEdges) s).visited.elems = s.visited.elems ++ added ∧
        (ids.foldl (spreadNeighbor maxEdges) s).nextFrontier = s.nextFrontier ++ added ∧
        ∀ v, v ∈ added ↔ v ∈ ids ∧ v ∉ s.visited) := by
  induction ids generalizing s with
  | nil => exact ⟨h, fun _ => ⟨[], (List.append_nil _).symm, (List.append_nil _).symm, by simp⟩⟩
  | cons id rest ih =>
      have hrest : ∀ v ∈ rest, ReflTransGen (Step neighborsOf) source v ∧ v ∈ nodes :=
        fun v hv => hids v (List.mem_cons_of_mem _ hv)
      cases hexceeded : s.exceeded with
      | true =>
          rw [spreadNeighbors_exceeded (id :: rest) hexceeded]
          exact ⟨h, fun hnot => absurd (hexceeded.symm.trans hnot) nofun⟩
      | false =>
          rw [List.foldl_cons]
          by_cases hhas : id ∈ s.visited
          · have hsame : spreadNeighbor maxEdges s id = s := by
              rw [spreadNeighbor, if_pos (by simpa [hexceeded] using hhas)]
            obtain ⟨hlast, hmore⟩ := ih h hrest
            rw [hsame]
            refine ⟨hlast, fun hnot => ?_⟩
            obtain ⟨added, helems, hfrontier, hadded⟩ := hmore hnot
            refine ⟨added, helems, hfrontier, fun v => ?_⟩
            rw [hadded, List.mem_cons]
            grind
          · obtain ⟨hv, hnode⟩ := hids id List.mem_cons_self
            obtain ⟨hlast, hmore⟩ := ih (h.visit hexceeded hv hnode hhas) hrest
            rw [spreadNeighbor, if_neg (by simpa [hexceeded] using hhas)]
            refine ⟨hlast, fun hnot => ?_⟩
            obtain ⟨added, helems, hfrontier, hadded⟩ := hmore hnot
            refine ⟨id :: added, ?_, ?_, fun v => ?_⟩
            · rw [helems, JsSet.elems_add hhas, List.append_assoc]
              rfl
            · rw [hfrontier, List.append_assoc]
              rfl
            · rw [List.mem_cons, hadded, JsSet.mem_add, List.mem_cons]
              grind

/-- A level of the search: it floods on, unless it has thrown. -/
theorem spreadStep_spec {s s' : Spread} (h : Counted neighborsOf source nodes maxEdges count s)
    (hflooded : s.exceeded = false → Flooded (Step neighborsOf) {v | v = source} s.visited.elems s.frontier)
    (hnodes : ∀ u v, Step neighborsOf u v → v ∈ nodes) (hstep : spreadStep neighborsOf maxEdges s = some s') :
    Counted neighborsOf source nodes maxEdges count s' ∧
      (s'.exceeded = false → Flooded (Step neighborsOf) {v | v = source} s'.visited.elems s'.frontier) ∧
      (s'.exceeded = false → s'.visited.size - s'.frontier.length > s.visited.size - s.frontier.length) := by
  unfold spreadStep at hstep
  split at hstep
  · cases hstep
  rename_i hgo
  rw [not_or, Bool.not_eq_true] at hgo
  obtain ⟨hnot, hne⟩ := hgo
  have hfirst := hflooded hnot
  rw [← List.foldl_flatMap, Option.some.injEq] at hstep
  have hcounted : Counted neighborsOf source nodes maxEdges count { s with nextFrontier := [] } :=
    ⟨h.elems, h.counted, h.sound, h.inNodes, h.exceeded, h.bounded⟩
  obtain ⟨hlast, hmore⟩ := spreadNeighbors_spec (s.frontier.flatMap fun nodeId => neighborIds (neighborsOf nodeId))
    hcounted (by
      intro v hv
      obtain ⟨u, hu, hstep⟩ := List.mem_flatMap.mp hv
      exact ⟨(h.sound u (hfirst.subset u hu)).tail hstep, hnodes u v hstep⟩)
  subst hstep
  refine ⟨⟨hlast.elems, hlast.counted, hlast.sound, hlast.inNodes, hlast.exceeded, hlast.bounded⟩, fun hnot' => ?_,
    fun hnot' => ?_⟩
  · obtain ⟨added, helems, hfrontier, hadded⟩ := hmore hnot'
    dsimp only at hfrontier helems hadded ⊢
    rw [helems, hfrontier, List.nil_append]
    apply hfirst.next
    intro v
    rw [hadded, List.mem_flatMap]
    rfl
  · obtain ⟨added, helems, hfrontier, hadded⟩ := hmore hnot'
    dsimp only at hfrontier helems hadded ⊢
    rw [JsSet.size, helems, hfrontier, List.nil_append, List.length_append, JsSet.size]
    have hpos : 0 < s.frontier.length := List.length_pos_of_ne_nil hne
    have hsize : 0 < s.visited.elems.length := by
      rw [h.elems]
      exact Nat.succ_pos _
    omega

/-- Where the search ends: with all that the node reaches, or beyond the limit. -/
theorem spread_spec (hnodes : ∀ u v, Step neighborsOf u v → v ∈ nodes) (hsource : source ∈ nodes)
    (hcount : count ≤ maxEdges) {s : Spread}
    (hs : s = While.loop (spreadStep neighborsOf maxEdges) (nodes.length + 1)
      ⟨.ofList [source], [source], [], [], count, false⟩) :
    Counted neighborsOf source nodes maxEdges count s ∧
      (s.exceeded = false → ∀ v, v ∈ s.visited.elems ↔ ReflTransGen (Step neighborsOf) source v) := by
  let P : Spread → Prop := fun s => Counted neighborsOf source nodes maxEdges count s ∧
    (s.exceeded = false → Flooded (Step neighborsOf) {v | v = source} s.visited.elems s.frontier)
  let remaining : Spread → Nat := fun s =>
    if s.exceeded = true then 0 else nodes.length + 1 - (s.visited.size - s.frontier.length)
  have hturn : ∀ s s', P s → spreadStep neighborsOf maxEdges s = some s' → P s' ∧ remaining s' < remaining s := by
    intro s s' h hstep
    obtain ⟨hcounted, hflooded, hmore⟩ := spreadStep_spec h.1 h.2 hnodes hstep
    have hnot : s.exceeded = false := by
      unfold spreadStep at hstep
      split at hstep
      · cases hstep
      · rename_i hgo
        exact Bool.not_eq_true _ ▸ (not_or.mp hgo).1
    have hsize : s.visited.size ≤ nodes.length := (List.subperm_of_subset s.visited.nodup h.1.inNodes).length_le
    refine ⟨⟨hcounted, hflooded⟩, ?_⟩
    dsimp only [remaining]
    rw [hnot, if_neg Bool.false_ne_true]
    split
    · omega
    · rename_i hnot'
      have hless := hmore (by simpa using hnot')
      omega
  have hfirst : P ⟨.ofList [source], [source], [], [], count, false⟩ := by
    refine ⟨⟨rfl, rfl, ?_, ?_, ?_, ?_⟩, fun _ => .start fun v => List.mem_singleton⟩
    · intro v hv
      rw [List.mem_singleton.mp hv]
    · intro v hv
      exact List.mem_singleton.mp hv ▸ hsource
    · exact (decide_eq_false (not_lt.mpr hcount)).symm
    · dsimp only
      omega
  have hfuel : remaining ⟨.ofList [source], [source], [], [], count, false⟩ ≤ nodes.length + 1 := by
    dsimp only [remaining]
    split <;> omega
  have hstop := While.loop_stops hturn hfirst hfuel
  have hlast := While.loop_invariant (fun s s' h hstep => (hturn s s' h hstep).1) (nodes.length + 1) hfirst
  rw [← hs] at hstop hlast
  refine ⟨hlast.1, fun hnot v => ?_⟩
  have hempty : s.frontier = [] := by
    unfold spreadStep at hstop
    split at hstop
    · rename_i hdone
      exact hdone.resolve_left fun h => absurd (hnot.symm.trans h) nofun
    · cases hstop
  have hflooded := hlast.2 hnot
  rw [hempty] at hflooded
  rw [hflooded.mem_iff]
  constructor
  · intro h
    obtain ⟨w, rfl, hway⟩ := h
    exact hway
  · exact fun hway => ⟨source, rfl, hway⟩

/-- The other nodes that a node reaches, in order. -/
structure IsTargets (neighborsOf : JsString → List NeighborEdge) (source : JsString) (targets : List JsString) : Prop where
  sorted : targets.Pairwise (· < ·)
  mem_iff : ∀ v, v ∈ targets ↔ v ≠ source ∧ ReflTransGen (Step neighborsOf) source v

theorem exists_targets (hnodes : ∀ u v, Step neighborsOf u v → v ∈ nodes) (source : JsString) :
    ∃ targets, IsTargets neighborsOf source targets := by
  classical
  let found := nodes.dedup.filter fun v => decide (v ≠ source ∧ ReflTransGen (Step neighborsOf) source v)
  refine ⟨found.insertionSort (· ≤ ·), ?_, fun v => ?_⟩
  · apply Lists.pairwise_lt_insertionSort_key (· ≤ ·) id (fun _ _ hle => hle) (fun _ _ hnle => (not_le.mp hnle).le)
    rw [List.map_id]
    exact nodes.nodup_dedup.filter _
  · rw [List.mem_insertionSort, List.mem_filter, decide_eq_true_eq, List.mem_dedup]
    refine and_iff_right_of_imp fun h => ?_
    rcases ReflTransGen.cases_tail h.2 with heq | ⟨u, -, hstep⟩
    · exact absurd heq.symm h.1.symm
    · exact hnodes u v hstep

/-- One node yields its targets, or the limit is exceeded. -/
theorem streamFrom_eq (hnodes : ∀ u v, Step neighborsOf u v → v ∈ nodes) (hsource : source ∈ nodes)
    {targets : List JsString} (htargets : IsTargets neighborsOf source targets) {s : ClosureStream} (hthrown : s.thrown = none)
    (hcount : s.edgeCount ≤ maxEdges) : streamFrom neighborsOf (nodes.length + 1) maxEdges s source =
      if maxEdges < s.edgeCount + targets.length then { s with thrown := some (.maxEdgesExceeded maxEdges (maxEdges + 1)) }
      else ⟨s.edges ++ targets.map (ClosureEdge.mk source), s.edgeCount + targets.length, none⟩ := by
  unfold streamFrom
  rw [hthrown, if_neg (by simp)]
  obtain ⟨hcounted, hreached⟩ := spread_spec hnodes hsource hcount rfl
  generalize While.loop (spreadStep neighborsOf maxEdges) (nodes.length + 1)
    ⟨.ofList [source], [source], [], [], s.edgeCount, false⟩ = spread at hcounted hreached
  obtain ⟨hself, hnodup⟩ := List.nodup_cons.mp (hcounted.elems ▸ spread.visited.nodup)
  have hsubset : spread.reachable ⊆ targets := by
    intro v hv
    refine (htargets.mem_iff v).mpr ⟨fun heq => hself (heq ▸ hv), hcounted.sound v ?_⟩
    rw [hcounted.elems]
    exact List.mem_cons_of_mem _ hv
  have hcountEq := hcounted.counted
  have hbounded := hcounted.bounded
  cases hexceeded : spread.exceeded with
  | true =>
      have hmany : maxEdges < spread.edgeCount := of_decide_eq_true (hcounted.exceeded.symm.trans hexceeded)
      have hlength := (List.subperm_of_subset hnodup hsubset).length_le
      dsimp only
      rw [hexceeded, if_pos rfl, if_pos (by omega), show spread.edgeCount = maxEdges + 1 by omega]
  | false =>
      have hfew : ¬ maxEdges < spread.edgeCount := of_decide_eq_false (hcounted.exceeded.symm.trans hexceeded)
      have hperm : spread.reachable.Perm targets := by
        apply (List.perm_ext_iff_of_nodup hnodup (htargets.sorted.imp ne_of_lt)).mpr
        refine fun v => ⟨fun hv => hsubset hv, fun hv => ?_⟩
        obtain ⟨hne, hway⟩ := (htargets.mem_iff v).mp hv
        have hvisited := (hreached hexceeded v).mpr hway
        rw [hcounted.elems] at hvisited
        exact List.mem_of_ne_of_mem hne hvisited
      have hsorted : spread.reachable.insertionSort (· ≤ ·) = targets :=
        ((List.perm_insertionSort _ _).trans hperm).eq_of_pairwise (fun _ _ _ _ => le_antisymm)
          (List.pairwise_insertionSort _ _) (htargets.sorted.imp le_of_lt)
      have hlength := hperm.length_eq
      dsimp only
      rw [hexceeded, if_neg Bool.false_ne_true, hsorted, if_neg (by omega), hcountEq, hlength]

/-- The edges of a list of nodes, for the lists of their targets. -/
def closureEdges (targets : JsString → List JsString) (nodeList : List JsString) : List ClosureEdge :=
  nodeList.flatMap fun source => (targets source).map (ClosureEdge.mk source)

theorem streamFrom_thrown (bound : Nat) (nodeList : List JsString) {s : ClosureStream} (h : s.thrown ≠ none) :
    nodeList.foldl (streamFrom neighborsOf bound maxEdges) s = s := by
  induction nodeList with
  | nil => rfl
  | cons source rest ih =>
      have hsame : streamFrom neighborsOf bound maxEdges s source = s := by
        rw [streamFrom, if_pos (Option.isSome_iff_ne_none.mpr h)]
      rw [List.foldl_cons, hsame, ih]

/-- The stream yields all edges, or a part of them before it throws. -/
theorem streamFromAll_spec (targets : JsString → List JsString) (hnodes : ∀ u v, Step neighborsOf u v → v ∈ nodes)
    {nodeList : List JsString} (hlist : ∀ u ∈ nodeList, u ∈ nodes ∧ IsTargets neighborsOf u (targets u)) {s : ClosureStream}
    (hthrown : s.thrown = none) (hcount : s.edgeCount ≤ maxEdges) :
    (s.edgeCount + (closureEdges targets nodeList).length ≤ maxEdges →
      nodeList.foldl (streamFrom neighborsOf (nodes.length + 1) maxEdges) s =
        ⟨s.edges ++ closureEdges targets nodeList, s.edgeCount + (closureEdges targets nodeList).length, none⟩) ∧
    (maxEdges < s.edgeCount + (closureEdges targets nodeList).length →
      (nodeList.foldl (streamFrom neighborsOf (nodes.length + 1) maxEdges) s).thrown =
        some (.maxEdgesExceeded maxEdges (maxEdges + 1)) ∧
      (nodeList.foldl (streamFrom neighborsOf (nodes.length + 1) maxEdges) s).edges <+:
        s.edges ++ closureEdges targets nodeList) := by
  induction nodeList generalizing s with
  | nil =>
      refine ⟨fun _ => ?_, fun h => ?_⟩
      · obtain ⟨edges, edgeCount, thrown⟩ := s
        rw [show thrown = none from hthrown]
        simp [closureEdges]
      · rw [closureEdges, List.flatMap_nil, List.length_nil] at h
        omega
  | cons source rest ih =>
      obtain ⟨hsource, htargets⟩ := hlist source List.mem_cons_self
      have hedges : closureEdges targets (source :: rest) =
          (targets source).map (ClosureEdge.mk source) ++ closureEdges targets rest := List.flatMap_cons ..
      have hlength : (closureEdges targets (source :: rest)).length =
          (targets source).length + (closureEdges targets rest).length := by
        rw [hedges, List.length_append, List.length_map]
      rw [List.foldl_cons, streamFrom_eq hnodes hsource htargets hthrown hcount]
      by_cases hfew : maxEdges < s.edgeCount + (targets source).length
      · rw [if_pos hfew, streamFrom_thrown _ _ (Option.some_ne_none _)]
        refine ⟨fun h => ?_, fun _ => ⟨rfl, List.prefix_append _ _⟩⟩
        omega
      · rw [if_neg hfew]
        obtain ⟨hall, hpart⟩ := ih (fun u hu => hlist u (List.mem_cons_of_mem _ hu))
          (s := ⟨s.edges ++ (targets source).map (ClosureEdge.mk source), s.edgeCount + (targets source).length, none⟩)
          rfl (not_lt.mp hfew)
        dsimp only at hall hpart
        rw [hlength, hedges, ← List.append_assoc, ← Nat.add_assoc]
        exact ⟨hall, hpart⟩

end Spreading

/-! ### The nodes of the closure -/

section Preparing

variable {neighborsOf : JsString → List NeighborEdge} {starts nodes : List JsString} {maxNodes : Nat}

/-- The queue in the middle: the nodes before its head are expanded. -/
structure Queued (neighborsOf : JsString → List NeighborEdge) (starts nodes : List JsString) (c : ClosureQueue) : Prop where
  elems : c.allVisited.elems = c.queue
  inNodes : ∀ v ∈ c.queue, v ∈ nodes
  hasStarts : ∀ v ∈ starts, v ∈ c.queue
  reachable : ∀ v ∈ c.queue, Reachable neighborsOf starts v
  expanded : ∀ u ∈ c.queue.take c.qHead, ∀ v, Step neighborsOf u v → v ∈ c.queue

theorem Queued.step {c c' : ClosureQueue} (h : Queued neighborsOf starts nodes c)
    (hnodes : ∀ u v, Step neighborsOf u v → v ∈ nodes) (hstep : closureQueueStep neighborsOf maxNodes c = some c') :
    Queued neighborsOf starts nodes c' ∧ nodes.length - c'.qHead < nodes.length - c.qHead := by
  unfold closureQueueStep at hstep
  split at hstep
  · cases hstep
  rename_i nodeId hnode
  split at hstep
  · cases hstep
  obtain ⟨hlt, hget⟩ := List.getElem?_eq_some_iff.mp hnode
  obtain ⟨added, helems, hqueue, hadded⟩ := visitSuccessors_spec (neighborIds (neighborsOf nodeId)) (c.allVisited, c.queue)
  rw [h.elems] at helems
  have hnodeId : nodeId ∈ c.queue := hget ▸ List.getElem_mem hlt
  have hbound : c.queue.length ≤ nodes.length :=
    (List.subperm_of_subset (h.elems ▸ c.allVisited.nodup) fun v hv => h.inNodes v hv).length_le
  rw [Option.some.injEq] at hstep
  subst hstep
  have hstepped : ∀ v ∈ added, Step neighborsOf nodeId v := fun v hv => ((hadded v).mp hv).1
  constructor
  · refine ⟨?_, ?_, ?_, ?_, ?_⟩
    · dsimp only
      rw [helems, hqueue]
    · dsimp only
      rw [hqueue]
      intro v hv
      rcases List.mem_append.mp hv with hv | hv
      · exact h.inNodes v hv
      · exact hnodes nodeId v (hstepped v hv)
    · dsimp only
      rw [hqueue]
      exact fun v hv => List.mem_append_left _ (h.hasStarts v hv)
    · dsimp only
      rw [hqueue]
      intro v hv
      rcases List.mem_append.mp hv with hv | hv
      · exact h.reachable v hv
      · exact (h.reachable nodeId hnodeId).step (hstepped v hv)
    · dsimp only
      rw [hqueue]
      intro u hu v hstep
      rw [List.take_append_of_le_length hlt, List.take_add_one, hnode] at hu
      rcases List.mem_append.mp hu with hu | hu
      · exact List.mem_append_left _ (h.expanded u hu v hstep)
      · rw [Option.toList_some, List.mem_singleton] at hu
        subst hu
        by_cases hv : v ∈ c.allVisited
        · exact List.mem_append_left _ (h.elems ▸ hv)
        · exact List.mem_append_right _ ((hadded v).mpr ⟨hstep, hv⟩)
  · dsimp only
    omega

end Preparing

section Results

variable {provider : NeighborProvider} {direction : Direction} {options : Option (List JsString)} {start : List JsString}

theorem length_le_ncard_reachable (hstart : ∀ s ∈ start, provider.hasNode s = true) {nodes : List JsString}
    (hnodup : nodes.Nodup) (hnodes : ∀ v ∈ nodes, Reachable (neighborsOf provider direction options) start v) :
    nodes.length ≤ {v | Reachable (neighborsOf provider direction options) start v}.ncard := by
  have hfinite : {v | Reachable (neighborsOf provider direction options) start v}.Finite :=
    (Finset.finite_toSet provider.nodes.toFinset).subset fun v hv =>
      List.mem_toFinset.mpr (Reachable.mem_nodes hstart hv)
  calc
    nodes.length = nodes.toFinset.card := (List.toFinset_card_of_nodup hnodup).symm
    _ = (nodes.toFinset : Set JsString).ncard := (Set.ncard_coe_finset _).symm
    _ ≤ _ := Set.ncard_le_ncard (fun v hv => hnodes v (List.mem_toFinset.mp hv)) hfinite

/-- The closure is taken of the reachable nodes, in order. -/
theorem prepareTransitiveClosure_spec {maxNodes : Nat} (hstart : ∀ s ∈ start, provider.hasNode s = true)
    (hlimit : {v | Reachable (neighborsOf provider direction options) start v}.ncard ≤ maxNodes) :
    ∃ nodeList, prepareTransitiveClosure provider direction options start maxNodes = .ok nodeList ∧
      nodeList.Pairwise (· < ·) ∧ ∀ v, v ∈ nodeList ↔ Reachable (neighborsOf provider direction options) start v := by
  have hnodes : ∀ u v, Step (neighborsOf provider direction options) u v → v ∈ provider.nodes := step_mem_nodes
  have hmem : ∀ v, v ∈ (JsSet.ofList start).elems ↔ v ∈ start := JsSet.mem_ofList start
  have hvalid : (JsSet.ofList start).elems.forM (validateStart provider) = .ok () :=
    forM_validateStart_eq_ok provider fun s hs => hstart s ((hmem s).mp hs)
  have hfirst : Queued (neighborsOf provider direction options) start provider.nodes
      ⟨.ofList start, (JsSet.ofList start).elems, 0⟩ := by
    refine ⟨rfl, fun v hv => ?_, fun v hv => (hmem v).mpr hv, fun v hv => ?_, fun u hu => absurd hu ?_⟩
    · exact List.contains_iff_mem.mp (hstart v ((hmem v).mp hv))
    · exact ⟨v, (hmem v).mp hv, .refl⟩
    · simp
  have hturn : ∀ c c', Queued (neighborsOf provider direction options) start provider.nodes c →
      closureQueueStep (neighborsOf provider direction options) maxNodes c = some c' →
      Queued (neighborsOf provider direction options) start provider.nodes c' ∧
        provider.nodes.length - c'.qHead < provider.nodes.length - c.qHead :=
    fun c c' h hstep => h.step hnodes hstep
  have hstop := While.loop_stops hturn hfirst (Nat.sub_le provider.nodes.length 0)
  have hlast := While.loop_invariant (fun c c' h hstep => (hturn c c' h hstep).1) provider.nodes.length hfirst
  refine ⟨_, by rw [prepareTransitiveClosure, hvalid]; rfl, ?_, fun v => ?_⟩
  · apply Lists.pairwise_lt_insertionSort_key (· ≤ ·) id (fun _ _ hle => hle) (fun _ _ hnle => (not_le.mp hnle).le)
    rw [List.map_id]
    exact JsSet.nodup _
  · rw [List.mem_insertionSort]
    generalize While.loop (closureQueueStep (neighborsOf provider direction options) maxNodes) provider.nodes.length
      ⟨.ofList start, (JsSet.ofList start).elems, 0⟩ = last at hstop hlast ⊢
    rw [hlast.elems]
    refine ⟨hlast.reachable v, fun hv => ?_⟩
    unfold closureQueueStep at hstop
    split at hstop
    · rename_i hend
      have hall := hlast.expanded
      rw [List.take_of_length_le (List.getElem?_eq_none_iff.mp hend)] at hall
      obtain ⟨s, hs, hway⟩ := hv
      induction hway with
      | refl => exact hlast.hasStarts s hs
      | tail _ hstep ih => exact hall _ ih _ hstep
    · split at hstop
      · rename_i hfull
        by_contra hnew
        have hnodup : (v :: last.queue).Nodup := List.nodup_cons.mpr ⟨hnew, hlast.elems ▸ last.allVisited.nodup⟩
        have hlength := length_le_ncard_reachable hstart hnodup (by
          intro u hu
          rcases List.mem_cons.mp hu with rfl | hu
          · exact hv
          · exact hlast.reachable u hu)
        rw [JsSet.size, hlast.elems] at hfull
        rw [List.length_cons] at hlength
        omega
      · cases hstop

variable (provider direction options) in
/-- What the closure and its stream return where the limit leaves room for all reachable nodes. -/
structure IsTransitiveClosure (start : List JsString) (maxNodes maxEdges : Nat) (edges : List ClosureEdge) : Prop where
  mem_iff : ∀ edge, edge ∈ edges ↔ Reachable (neighborsOf provider direction options) start edge.source ∧
    edge.source ≠ edge.target ∧ TransGen (Step (neighborsOf provider direction options)) edge.source edge.target
  sorted : edges.Pairwise fun edge later =>
    edge.source < later.source ∨ edge.source = later.source ∧ edge.target < later.target
  returned : edges.length ≤ maxEdges →
    transitiveClosure provider direction options start maxNodes maxEdges = .ok edges ∧
    (transitiveClosureStream provider direction options start maxNodes maxEdges).edges = edges ∧
    (transitiveClosureStream provider direction options start maxNodes maxEdges).thrown = none
  limited : maxEdges < edges.length →
    transitiveClosure provider direction options start maxNodes maxEdges =
      .error (.maxEdgesExceeded maxEdges (maxEdges + 1)) ∧
    (transitiveClosureStream provider direction options start maxNodes maxEdges).edges <+: edges ∧
    (transitiveClosureStream provider direction options start maxNodes maxEdges).thrown =
      some (.maxEdgesExceeded maxEdges (maxEdges + 1))

/-- The edges of a sorted list of nodes, each with its sorted targets, are sorted. -/
theorem closureEdges_sorted {neighborsOf : JsString → List NeighborEdge} {targets : JsString → List JsString}
    (htargets : ∀ source, IsTargets neighborsOf source (targets source)) {nodeList : List JsString}
    (hordered : nodeList.Pairwise (· < ·)) : (closureEdges targets nodeList).Pairwise fun edge later =>
      edge.source < later.source ∨ edge.source = later.source ∧ edge.target < later.target := by
  rw [closureEdges, List.pairwise_flatMap]
  refine ⟨fun source _ => ?_, hordered.imp fun hlt edge hedge later hlater => ?_⟩
  · rw [List.pairwise_map]
    exact (htargets source).sorted.imp fun hlt => .inr ⟨rfl, hlt⟩
  · obtain ⟨_, _, rfl⟩ := List.mem_map.mp hedge
    obtain ⟨_, _, rfl⟩ := List.mem_map.mp hlater
    exact .inl hlt

theorem mem_closureEdges {neighborsOf : JsString → List NeighborEdge} {targets : JsString → List JsString}
    (htargets : ∀ source, IsTargets neighborsOf source (targets source)) {nodeList : List JsString} (edge : ClosureEdge) :
    edge ∈ closureEdges targets nodeList ↔ edge.source ∈ nodeList ∧ edge.source ≠ edge.target ∧
      TransGen (Step neighborsOf) edge.source edge.target := by
  obtain ⟨source, target⟩ := edge
  have hway : target ∈ targets source ↔ source ≠ target ∧ TransGen (Step neighborsOf) source target := by
    rw [(htargets source).mem_iff, ne_comm]
    refine and_congr_right fun hne => ?_
    rw [reflTransGen_iff_eq_or_transGen, or_iff_right hne.symm]
  rw [closureEdges, List.mem_flatMap]
  dsimp only
  rw [← hway]
  constructor
  · intro h
    obtain ⟨u, hu, hedge⟩ := h
    obtain ⟨v, hv, heq⟩ := List.mem_map.mp hedge
    cases heq
    exact ⟨hu, hv⟩
  · intro h
    exact ⟨source, h.1, List.mem_map.mpr ⟨target, h.2, rfl⟩⟩

theorem transitiveClosure_spec {maxNodes : Nat} (hstart : ∀ s ∈ start, provider.hasNode s = true)
    (hlimit : {v | Reachable (neighborsOf provider direction options) start v}.ncard ≤ maxNodes) (maxEdges : Nat) :
    ∃ edges, IsTransitiveClosure provider direction options start maxNodes maxEdges edges := by
  have hnodes : ∀ u v, Step (neighborsOf provider direction options) u v → v ∈ provider.nodes := step_mem_nodes
  obtain ⟨nodeList, hprepared, hordered, hreachable⟩ := prepareTransitiveClosure_spec hstart hlimit
  choose targets htargets using exists_targets hnodes
  have hlist : ∀ u ∈ nodeList, u ∈ provider.nodes ∧
      IsTargets (neighborsOf provider direction options) u (targets u) :=
    fun u hu => ⟨Reachable.mem_nodes hstart ((hreachable u).mp hu), htargets u⟩
  obtain ⟨hall, hpart⟩ := streamFromAll_spec targets hnodes hlist (s := ⟨[], 0, none⟩) rfl (Nat.zero_le maxEdges)
  dsimp only at hall hpart
  rw [Nat.zero_add, List.nil_append] at hall hpart
  refine ⟨closureEdges targets nodeList, ?_, closureEdges_sorted htargets hordered, fun hroom => ?_, fun hfull => ?_⟩
  · intro edge
    rw [mem_closureEdges htargets, hreachable]
  · rw [transitiveClosure, transitiveClosureStream, hprepared]
    dsimp only [bind, Except.bind]
    rw [streamTransitiveClosureEdges, hall hroom]
    exact ⟨rfl, rfl, rfl⟩
  · obtain ⟨hthrown, hprefix⟩ := hpart hfull
    rw [transitiveClosure, transitiveClosureStream, hprepared]
    dsimp only [bind, Except.bind]
    rw [streamTransitiveClosureEdges, hthrown]
    exact ⟨rfl, hprefix, rfl⟩

variable (provider direction options) in
/-- The reduction of an acyclic graph of ids without NUL, and the closure of any graph, where the limit leaves room for all
reachable nodes. -/
theorem reduction_closure_spec (start : List JsString) (hstart : ∀ s ∈ start, provider.hasNode s = true) (maxNodes : Nat)
    (hlimit : {v | Reachable (neighborsOf provider direction options) start v}.ncard ≤ maxNodes) :
    (¬ Cyclic (neighborsOf provider direction options) start →
      (∀ v, Reachable (neighborsOf provider direction options) start v → fieldSeparator ∉ v) →
      ∃ result, transitiveReduction provider direction options start maxNodes = .ok result ∧
        IsTransitiveReduction provider direction options start result) ∧
    ∀ maxEdges, ∃ edges, IsTransitiveClosure provider direction options start maxNodes maxEdges edges :=
  ⟨fun hacyclic hids => transitiveReduction_spec provider direction options start hstart hacyclic maxNodes hlimit hids,
    transitiveClosure_spec hstart hlimit⟩

theorem reduction_closure_detour :
    (∃ result, transitiveReduction Example.detour .out none [js "s"] 3 = .ok result ∧
      IsTransitiveReduction Example.detour .out none [js "s"] result) ∧
    (∃ edges, IsTransitiveClosure Example.detour .out none [js "s"] 3 3 edges) ∧
    (transitiveReduction Example.detour .out none [js "s"] 3).toOption =
      some ⟨[⟨js "a", js "g", js "to"⟩, ⟨js "s", js "a", js "to"⟩], 1⟩ ∧
    (transitiveClosure Example.detour .out none [js "s"] 3 3).toOption =
      some [⟨js "a", js "g"⟩, ⟨js "s", js "a"⟩, ⟨js "s", js "g"⟩] := by
  have hstart : ∀ s ∈ [js "s"], Example.detour.hasNode s = true := by decide
  obtain ⟨hreduction, hclosure⟩ := reduction_closure_spec Example.detour .out none [js "s"] hstart 3
    (ncard_reachable_le Example.detour .out none hstart)
  refine ⟨hreduction (Example.not_cyclic_providerOf (by decide) _) fun v hv => ?_, hclosure 3, by decide +kernel,
    by decide +kernel⟩
  have hids : ∀ v ∈ Example.detour.nodes, fieldSeparator ∉ v := by decide
  exact hids v (hv.mem_nodes hstart)

/-- With room for one node, the edge out of `a` is not seen. -/
theorem reduction_stopped_by_limit :
    ¬ Cyclic (neighborsOf Example.detour .out none) [js "s"] ∧
    ∃ result, transitiveReduction Example.detour .out none [js "s"] 1 = .ok result ∧
      result = ⟨[⟨js "s", js "a", js "to"⟩], 1⟩ ∧ ¬ IsTransitiveReduction Example.detour .out none [js "s"] result := by
  refine ⟨Example.not_cyclic_providerOf (by decide) _, ⟨[⟨js "s", js "a", js "to"⟩], 1⟩, ?_, rfl, fun hreduction => ?_⟩
  · have hsome : (transitiveReduction Example.detour .out none [js "s"] 1).toOption =
        some ⟨[⟨js "s", js "a", js "to"⟩], 1⟩ := by decide +kernel
    cases hresult : transitiveReduction Example.detour .out none [js "s"] 1 with
    | error err =>
        rw [hresult] at hsome
        cases hsome
    | ok result =>
        rw [hresult] at hsome
        exact congrArg Except.ok (Option.some.inj hsome)
  · have hfirst : Step (neighborsOf Example.detour .out none) (js "s") (js "a") :=
      show js "a" ∈ neighborIds _ by decide
    have hsecond : Step (neighborsOf Example.detour .out none) (js "a") (js "g") :=
      show js "g" ∈ neighborIds _ by decide
    have hway := (hreduction.same (js "a") (js "g") ⟨js "s", List.mem_singleton_self _, .single hfirst⟩).mpr (.single hsecond)
    obtain ⟨w, ⟨label, hedge⟩, -⟩ := TransGen.head'_iff.mp hway
    have hsource : js "a" = js "s" := congrArg LabelledEdge.source (List.mem_singleton.mp hedge)
    exact absurd hsource (by decide)

end Results

end GraphTraversal

end GitWarp
