import GitWarp.LibraryDepthFirst
import GitWarp.TraversalSearch

/-! The depth-first search. It visits in the depth-first order, where a node keeps the depth of the way that comes to
it first, and so it can miss nodes that the breadth-first search lists. -/

namespace GitWarp
open Js Layers DepthFirst

namespace GraphTraversal

section Searching

variable (neighborsOf : JsString → List NeighborEdge)

/-- The top of the stack comes first. -/
structure Dfs where
  visited : JsSet JsString
  result : List JsString
  stack : List (JsString × Nat)

/-- The neighbors are pushed from the last to the first. -/
def pushNeighbors (visited : JsSet JsString) (depth : Nat) (ids : List JsString) (stack : List (JsString × Nat)) :
    List (JsString × Nat) :=
  ids.foldr (fun neighborId stack => if visited.has neighborId then stack else (neighborId, depth + 1) :: stack) stack

def dfsStep (maxNodes maxDepth : Nat) (s : Dfs) : Option Dfs :=
  match s.stack with
  | [] => none
  | (nodeId, depth) :: stack =>
      if maxNodes ≤ s.visited.size then none
      else if s.visited.has nodeId then some { s with stack := stack }
      else if maxDepth < depth then some { s with stack := stack }
      else
        let visited := s.visited.add nodeId
        let stack := if depth < maxDepth then pushNeighbors visited depth (neighborIds (neighborsOf nodeId)) stack else stack
        some ⟨visited, s.result ++ [nodeId], stack⟩

/-- One turn for the start, and one for every edge out of every node. -/
def dfsBound (nodes : List JsString) : Nat := 1 + (nodes.map fun u => (neighborsOf u).length).sum

end Searching

section Runs

variable (provider : NeighborProvider) (direction : Direction) (options : Option (List JsString))

def dfs (start : JsString) (maxNodes maxDepth : Nat) : Except TraversalError (List JsString) := do
  validateStart provider start
  return (While.loop (dfsStep (neighborsOf provider direction options) maxNodes maxDepth)
    (dfsBound (neighborsOf provider direction options) provider.nodes) ⟨.empty, [], [(start, 0)]⟩).result

end Runs

section Stack

variable {neighborsOf : JsString → List NeighborEdge} {start : JsString} {maxNodes maxDepth : Nat}

theorem pushNeighbors_eq (visited : JsSet JsString) (depth : Nat) (ids : List JsString) (stack : List (JsString × Nat)) :
    pushNeighbors visited depth ids stack = (fresh id visited.elems ids).map (·, depth + 1) ++ stack := by
  induction ids with
  | nil => rfl
  | cons neighborId rest ih =>
      rw [pushNeighbors, List.foldr_cons, ← pushNeighbors, ih]
      by_cases hvisited : neighborId ∈ visited.elems
      · rw [if_pos ((visited.has_iff neighborId).mpr hvisited), fresh_cons_of_mem id hvisited]
      · rw [if_neg fun h => hvisited ((visited.has_iff neighborId).mp h), fresh_cons_of_not_mem id hvisited]
        rfl

/-- The neighbors of a node, as the depth-first order takes them. -/
abbrev nextIds (neighborsOf : JsString → List NeighborEdge) (u : JsString) : List JsString := neighborIds (neighborsOf u)

/-- What a visit leaves on the stack. -/
def pushed (neighborsOf : JsString → List NeighborEdge) (maxDepth : Nat) (visited : JsSet JsString) (v : JsString)
    (depth : Nat) (stack : List (JsString × Nat)) : List (JsString × Nat) :=
  if depth < maxDepth then pushNeighbors visited depth (neighborIds (neighborsOf v)) stack else stack

theorem fresh_pushed (visited : JsSet JsString) (v : JsString) (depth : Nat) (stack : List (JsString × Nat)) :
    fresh Prod.fst visited.elems (pushed neighborsOf maxDepth visited v depth stack) =
      unvisited (nextIds neighborsOf) maxDepth visited.elems (v, depth) ++ fresh Prod.fst visited.elems stack := by
  unfold pushed unvisited
  split
  · rw [pushNeighbors_eq, fresh_append]
    congr 1
    apply fresh_eq_self
    intro entry hentry
    obtain ⟨w, hw, rfl⟩ := List.mem_map.mp hentry
    exact ((mem_fresh id).mp hw).2
  · rfl

theorem length_pushed (visited : JsSet JsString) (v : JsString) (depth : Nat) (stack : List (JsString × Nat)) :
    (pushed neighborsOf maxDepth visited v depth stack).length ≤ (neighborsOf v).length + stack.length := by
  unfold pushed
  split
  · have hlength : (fresh id visited.elems (neighborIds (neighborsOf v))).length ≤ _ := length_fresh_le id
    rw [neighborIds, List.length_map] at hlength
    rw [pushNeighbors_eq, List.length_append, List.length_map]
    exact Nat.add_le_add_right hlength _
  · omega

/-- The visits so far. What is unvisited on the stack is what the depth-first order may visit next. -/
structure Stacked (neighborsOf : JsString → List NeighborEdge) (start : JsString) (maxDepth : Nat)
    (visits : List (JsString × Nat)) (s : Dfs) : Prop where
  made : Visits (nextIds neighborsOf) start maxDepth visits
  stack : fresh Prod.fst (visits.map Prod.fst) s.stack = candidates (nextIds neighborsOf) maxDepth visits
  visited : s.visited.elems = visits.map Prod.fst
  result : s.result = visits.map Prod.fst

/-- The edges out of the nodes that are not visited. -/
def unseenEdges (neighborsOf : JsString → List NeighborEdge) (nodes visited : List JsString) : Nat :=
  (nodes.map fun u => if u ∈ visited then 0 else (neighborsOf u).length).sum

theorem unseenEdges_visit {nodes visited : List JsString} {v : JsString} (hv : v ∈ nodes) (hnew : v ∉ visited) :
    unseenEdges neighborsOf nodes (visited ++ [v]) + (neighborsOf v).length ≤ unseenEdges neighborsOf nodes visited := by
  have hvisit := unseen_visit (fun u => (neighborsOf u).length) hv hnew
  unfold unseen at hvisit
  unfold unseenEdges
  convert hvisit

theorem Stacked.step {nodes visits : List _} {s s' : Dfs} (h : Stacked neighborsOf start maxDepth visits s)
    (hnodes : ∀ u v, Step neighborsOf u v → v ∈ nodes) (hstep : dfsStep neighborsOf maxNodes maxDepth s = some s') :
    ∃ visits', Stacked neighborsOf start maxDepth visits' s' ∧
      s'.stack.length + unseenEdges neighborsOf nodes s'.visited.elems <
        s.stack.length + unseenEdges neighborsOf nodes s.visited.elems := by
  unfold dfsStep at hstep
  split at hstep
  · cases hstep
  rename_i v depth stack hstack
  split at hstep
  · cases hstep
  have htop := h.stack
  rw [hstack] at htop
  split at hstep
  · rename_i hhas
    have hvisited : v ∈ visits.map Prod.fst := h.visited ▸ (s.visited.has_iff v).mp hhas
    cases hstep
    rw [fresh_cons_of_mem Prod.fst hvisited] at htop
    refine ⟨visits, ⟨h.made, htop, h.visited, h.result⟩, ?_⟩
    rw [hstack, List.length_cons]
    dsimp only
    omega
  · rename_i hhas
    have hvisited : v ∉ s.visited := fun hmem => hhas ((s.visited.has_iff v).mpr hmem)
    have hnew : v ∉ visits.map Prod.fst := h.visited ▸ hvisited
    rw [fresh_cons_of_not_mem Prod.fst hnew] at htop
    obtain ⟨⟨u, k⟩, -, hk, rfl, hv, -⟩ := mem_candidates.mp (htop ▸ List.mem_cons_self)
    dsimp only at hk hstep
    rw [if_neg (by omega), Option.some.injEq] at hstep
    subst hstep
    have helems : (s.visited.add v).elems = (visits ++ [(v, k + 1)]).map Prod.fst := by
      rw [JsSet.elems_add hvisited, h.visited, List.map_append]
      rfl
    refine ⟨visits ++ [(v, k + 1)], ⟨h.made.next htop.symm, ?_, helems, ?_⟩, ?_⟩
    · have hmore : ∀ u ∈ visits.map Prod.fst, u ∈ (visits ++ [(v, k + 1)]).map Prod.fst := by
        intro u hu
        rw [List.map_append]
        exact List.mem_append_left _ hu
      rw [candidates_concat, ← htop, fresh_cons_of_mem Prod.fst (by simp), fresh_fresh Prod.fst hmore, ← helems]
      exact fresh_pushed (s.visited.add v) v (k + 1) stack
    · dsimp only
      rw [h.result, List.map_append]
      rfl
    · have hless := @unseenEdges_visit neighborsOf _ _ _ (hnodes u v hv) hvisited
      have hlength := @length_pushed neighborsOf maxDepth (s.visited.add v) v (k + 1) stack
      unfold pushed at hlength
      rw [hstack, List.length_cons, JsSet.elems_add hvisited]
      dsimp only
      omega

/-- The first turn visits the start. -/
theorem dfsStep_start (hroom : 0 < maxNodes) (nodes : List JsString) (hstart : start ∈ nodes) :
    ∃ s, dfsStep neighborsOf maxNodes maxDepth ⟨.empty, [], [(start, 0)]⟩ = some s ∧
      Stacked neighborsOf start maxDepth [(start, 0)] s ∧
      s.stack.length + unseenEdges neighborsOf nodes s.visited.elems ≤ (nodes.map fun u => (neighborsOf u).length).sum := by
  have hnew : start ∉ (JsSet.empty : JsSet JsString) := JsSet.not_mem_empty start
  refine ⟨⟨JsSet.empty.add start, [start], pushed neighborsOf maxDepth (JsSet.empty.add start) start 0 []⟩, ?_,
    ⟨.start, ?_, rfl, rfl⟩, ?_⟩
  · unfold dfsStep
    dsimp only
    rw [if_neg (not_le.mpr (show (JsSet.empty : JsSet JsString).size < maxNodes from hroom)), if_neg (by simp),
      if_neg (by omega)]
    rfl
  · exact fresh_pushed (JsSet.empty.add start) start 0 []
  · have hless := @unseenEdges_visit neighborsOf _ [] _ hstart List.not_mem_nil
    have hlength := @length_pushed neighborsOf maxDepth (JsSet.empty.add start) start 0 []
    have hall : unseenEdges neighborsOf nodes [] = (nodes.map fun u => (neighborsOf u).length).sum := by
      unfold unseenEdges
      simp
    have helems : (JsSet.empty.add start).elems = [] ++ [start] := rfl
    rw [helems]
    rw [List.length_nil] at hlength
    dsimp only
    omega

/-- The search visits in the depth-first order, and nothing else. -/
theorem dfs_order {nodes : List JsString} (hlimit : NotBinding neighborsOf start maxNodes maxDepth)
    (hstart : start ∈ nodes) (hnodes : ∀ u v, Step neighborsOf u v → v ∈ nodes) :
    ∃ visits, Order (nextIds neighborsOf) start maxDepth visits ∧
      (While.loop (dfsStep neighborsOf maxNodes maxDepth) (dfsBound neighborsOf nodes)
        ⟨.empty, [], [(start, 0)]⟩).result = visits.map Prod.fst := by
  have hself : WithinDepth neighborsOf start maxDepth start := ⟨0, Nat.zero_le _, distanceFrom_zero_iff.mpr rfl⟩
  have hroom : 0 < maxNodes := hlimit.room .empty (fun v hv => absurd hv (JsSet.not_mem_empty v)) hself
    (JsSet.not_mem_empty start)
  obtain ⟨s, hfirst, hstacked, hmeasure⟩ := @dfsStep_start neighborsOf _ _ maxDepth hroom nodes hstart
  have hturn : ∀ s s', (∃ visits, Stacked neighborsOf start maxDepth visits s) →
      dfsStep neighborsOf maxNodes maxDepth s = some s' → (∃ visits, Stacked neighborsOf start maxDepth visits s') ∧
        s'.stack.length + unseenEdges neighborsOf nodes s'.visited.elems <
          s.stack.length + unseenEdges neighborsOf nodes s.visited.elems := by
    intro s s' h hstep
    obtain ⟨visits, h⟩ := h
    obtain ⟨visits', h', hless⟩ := h.step hnodes hstep
    exact ⟨⟨visits', h'⟩, hless⟩
  have hstop := While.loop_stops hturn ⟨_, hstacked⟩ hmeasure
  obtain ⟨visits, hlast⟩ := While.loop_invariant (fun s s' h hstep => (hturn s s' h hstep).1)
    (nodes.map fun u => (neighborsOf u).length).sum ⟨_, hstacked⟩
  rw [dfsBound, Nat.add_comm, While.loop, hfirst]
  dsimp only
  generalize While.loop (dfsStep neighborsOf maxNodes maxDepth) (nodes.map fun u => (neighborsOf u).length).sum s = last at hstop hlast
  refine ⟨visits, ⟨hlast.made, ?_⟩, hlast.result⟩
  by_contra hmore
  obtain ⟨⟨v, depth⟩, hv⟩ := List.exists_mem_of_ne_nil _ hmore
  obtain ⟨hstack, -⟩ := (mem_fresh Prod.fst).mp (hlast.stack ▸ hv)
  obtain ⟨visit, hvisit, hdepth, -, hnext, hnew⟩ := mem_candidates.mp hv
  have hfull : maxNodes ≤ last.visited.size := by
    unfold dfsStep at hstop
    split at hstop
    · rename_i hempty
      rw [hempty] at hstack
      cases hstack
    · split at hstop
      · assumption
      · split at hstop
        · cases hstop
        · split at hstop <;> cases hstop
  have hwithin : WithinDepth neighborsOf start maxDepth v := by
    obtain ⟨n, hn, hdistance⟩ := (StepsTo.step (hlast.made.steps visit hvisit).2 hnext).exists_distance
    exact ⟨n, hn.trans hdepth, hdistance⟩
  have hfree := hlimit.room last.visited (fun u hu => hlast.made.within (hlast.visited ▸ hu)) hwithin
    fun hmem => hnew (hlast.visited ▸ hmem)
  omega

end Stack

section Agreement

variable (provider : NeighborProvider) (direction : Direction) (options : Option (List JsString))

/-- Both searches return the nodes within the depth. -/
def SearchesCover (start : JsString) (maxNodes maxDepth : Nat) : Prop :=
  ∃ nodes listed, dfs provider direction options start maxNodes maxDepth = .ok nodes ∧
    bfs provider direction options start maxNodes maxDepth = .ok listed ∧ (∀ v, v ∈ nodes ↔ v ∈ listed) ∧
    ∀ v, v ∈ nodes ↔ WithinDepth (neighborsOf provider direction options) start maxDepth v

/-- The searches return the same nodes exactly where the depth-first order hides none: no node that it meets only at the
depth bound, though it is nearer, has a neighbor that is not met from elsewhere. -/
theorem searchesCover_iff (start : JsString) (maxNodes maxDepth : Nat) (hstart : provider.hasNode start = true)
    (hlimit : NotBinding (neighborsOf provider direction options) start maxNodes maxDepth) :
    SearchesCover provider direction options start maxNodes maxDepth ↔
      ∀ visits, Order (nextIds (neighborsOf provider direction options)) start maxDepth visits →
        HidesNothing (nextIds (neighborsOf provider direction options)) start maxDepth visits := by
  obtain ⟨listed, hlisted, hmem, -⟩ := bfs_spec hstart hlimit
  have hnode : start ∈ provider.nodes := List.contains_iff_mem.mp hstart
  obtain ⟨visits, horder, hresult⟩ := dfs_order hlimit hnode step_mem_nodes
  have hdfs : dfs provider direction options start maxNodes maxDepth = .ok (visits.map Prod.fst) := by
    rw [dfs, validateStart_of_node hstart, ← hresult]
    rfl
  constructor
  · intro h visits' horder'
    obtain ⟨nodes, listed', hnodes, -, -, hcover⟩ := h
    obtain rfl := horder'.unique horder
    obtain rfl := Except.ok.inj (hdfs.symm.trans hnodes)
    exact horder.covers_iff.mp hcover
  · intro h
    have hcover := horder.covers_iff.mpr (h visits horder)
    exact ⟨_, listed, hdfs, hlisted, fun v => (hcover v).trans (hmem v).symm, hcover⟩

/-- Two steps lead to `b` through `a`, which comes first, and one leads there directly. -/
def Example.shortcut : NeighborProvider :=
  Example.providerOf [js "s", js "a", js "b", js "c"]
    [(js "s", js "a"), (js "s", js "b"), (js "a", js "b"), (js "b", js "c")]

theorem Example.order_shortcut : Order (nextIds (neighborsOf Example.shortcut .out none)) (js "s") 3
    [(js "s", 0), (js "a", 1), (js "b", 2), (js "c", 3)] := by
  have hs : Visits (nextIds (neighborsOf Example.shortcut .out none)) (js "s") 3 [(js "s", 0)] := .start
  have ha := hs.next (show candidates _ _ _ = (js "a", 1) :: [(js "b", 1)] by decide +kernel)
  have hb := ha.next (show candidates _ _ _ = (js "b", 2) :: [(js "b", 1)] by decide +kernel)
  have hc := hb.next (show candidates _ _ _ = (js "c", 3) :: [] by decide +kernel)
  exact ⟨hc, by decide +kernel⟩

/-- With three steps the way through `a` is no detour too long. -/
theorem searchesCover_shortcut : SearchesCover Example.shortcut .out none (js "s") 4 3 := by
  apply (searchesCover_iff Example.shortcut .out none (js "s") 4 3 (by decide)
    (notBinding_of_nodes (by decide) (by decide))).mpr
  intro visits horder u n hu _ _ v hv
  rw [horder.unique Example.order_shortcut] at hu
  have hc : u = js "c" := by
    simp only [List.mem_cons, Prod.mk.injEq, List.not_mem_nil, or_false] at hu
    rcases hu with ⟨-, hdepth⟩ | ⟨-, hdepth⟩ | ⟨-, hdepth⟩ | ⟨hc, -⟩
    · omega
    · omega
    · omega
    · exact hc
  rw [hc] at hv
  have hnone : nextIds (neighborsOf Example.shortcut .out none) (js "c") = [] := by decide
  rw [hnone] at hv
  cases hv

/-- With two steps `b` is met through `a` at the bound, and `c` is missed. -/
theorem dfs_misses_node :
    (dfs Example.shortcut .out none (js "s") 4 2).toOption = some [js "s", js "a", js "b"] ∧
    (bfs Example.shortcut .out none (js "s") 4 2).toOption = some [js "s", js "a", js "b", js "c"] ∧
    ¬ SearchesCover Example.shortcut .out none (js "s") 4 2 := by
  have hdfs : (dfs Example.shortcut .out none (js "s") 4 2).toOption = some [js "s", js "a", js "b"] := by decide +kernel
  have hbfs : (bfs Example.shortcut .out none (js "s") 4 2).toOption =
      some [js "s", js "a", js "b", js "c"] := by decide +kernel
  refine ⟨hdfs, hbfs, fun h => ?_⟩
  obtain ⟨nodes, listed, hnodes, hlisted, hsame, -⟩ := h
  rw [hnodes] at hdfs
  rw [hlisted] at hbfs
  obtain rfl := Option.some.inj hdfs
  obtain rfl := Option.some.inj hbfs
  have hmissed := (hsame (js "c")).mpr (by decide)
  revert hmissed
  decide

end Agreement

end GraphTraversal

end GitWarp
