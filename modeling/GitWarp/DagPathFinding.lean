import GitWarp.LibraryBreadthFirst
import GitWarp.TraversalLongest

/-! Paths between commits: the search along the children, and the search from both ends. -/

namespace GitWarp
open Js Layers

/-- The commits that an index shows, with the children and the parents of each. -/
structure CommitIndex where
  commits : List JsString
  getChildren : JsString → List JsString
  getParents : JsString → List JsString
  child_mem : ∀ sha, ∀ child ∈ getChildren sha, child ∈ commits
  parent_iff : ∀ sha parent, parent ∈ getParents sha ↔ sha ∈ getChildren parent

def CommitIndex.Child (index : CommitIndex) (sha child : JsString) : Prop := child ∈ index.getChildren sha

namespace DagPathFinding

structure PathResult where
  found : Bool
  path : List JsString
  length : Int
  deriving DecidableEq

section Definitions

variable (index : CommitIndex)

/-! ### The search along the children -/

/-- A search has returned once it has found its target. -/
structure FindPath where
  visited : JsSet JsString
  parentMap : JsMap JsString JsString
  queue : List (JsString × Nat)
  found : Bool

/-- A child that is not visited is queued, whether or not it is queued already. -/
def enqueueChild (visited : JsSet JsString) (sha : JsString) (depth : Nat)
    (s : JsMap JsString JsString × List (JsString × Nat)) (child : JsString) :
    JsMap JsString JsString × List (JsString × Nat) :=
  if visited.has child then s else (s.1.set child sha, s.2 ++ [(child, depth + 1)])

def findStep (target : JsString) (maxNodes maxDepth : Nat) (s : FindPath) : Option FindPath :=
  if s.found then none
  else match s.queue with
  | [] => none
  | (sha, depth) :: queue =>
      if maxNodes ≤ s.visited.size then none
      else if maxDepth < depth then some { s with queue := queue }
      else if s.visited.has sha then some { s with queue := queue }
      else
        let visited := s.visited.add sha
        if sha = target then some { s with visited := visited, queue := queue, found := true }
        else
          let next := (index.getChildren sha).foldl (enqueueChild visited sha depth) (s.parentMap, queue)
          some ⟨visited, next.1, next.2, false⟩

/-- One turn for the source, and one for every child of every commit. -/
def findBound : Nat := 1 + (index.commits.map fun sha => (index.getChildren sha).length).sum

def walkPredecessors (predecessorMap : JsMap JsString JsString) (bound : Nat) (source target : JsString) : List JsString :=
  GraphTraversal.reconstructPath predecessorMap bound source target

def findPath (source target : JsString) (maxNodes maxDepth : Nat) : PathResult :=
  if source = target then ⟨true, [source], 0⟩
  else
    let s := While.loop (findStep index target maxNodes maxDepth) (findBound index)
      ⟨.empty, .empty, [(source, 0)], false⟩
    if s.found then
      let path := walkPredecessors s.parentMap index.commits.length source target
      ⟨true, path, path.length - 1⟩
    else ⟨false, [], -1⟩

/-! ### The search from both ends -/

/-- One of the two searches, in the middle of a layer. Once it has met the other one, it has returned. -/
structure Side where
  visited : JsSet JsString
  parent : JsMap JsString JsString
  next : List JsString
  meeting : Option JsString

def expandNeighbor (other : JsSet JsString) (sha : JsString) (s : Side) (neighbor : JsString) : Side :=
  if s.meeting.isSome then s
  else if other.has neighbor then { s with parent := s.parent.set neighbor sha, meeting := some neighbor }
  else if s.visited.has neighbor then s
  else { s with
    visited := s.visited.add neighbor, parent := s.parent.set neighbor sha, next := s.next ++ [neighbor] }

/-- The layer after a frontier, which is what comes next after it. -/
def expandFrontier (neighborsOf : JsString → List JsString) (other : JsSet JsString) (s : Side) : Side :=
  s.next.foldl (fun s sha => (neighborsOf sha).foldl (expandNeighbor other sha) s) { s with next := [] }

/-- The two searches. The frontier of each is what comes next. -/
structure ShortestPath where
  fwd : Side
  bwd : Side

def shortestStep (s : ShortestPath) : Option ShortestPath :=
  if s.fwd.meeting.isSome || s.bwd.meeting.isSome then none
  else if s.fwd.next = [] ∧ s.bwd.next = [] then none
  else
    let fwd := expandFrontier index.getChildren s.bwd.visited s.fwd
    if fwd.meeting.isSome then some { s with fwd := fwd }
    else some ⟨fwd, expandFrontier index.getParents fwd.visited s.bwd⟩

/-- The walk along a parent map as far as it goes. -/
def walkParents (parent : JsMap JsString JsString) (bound : Nat) (meeting : JsString) : List JsString :=
  While.loop (fun path => path.head?.bind fun current => (parent.get current).map fun next => next :: path) bound [meeting]

def reconstructBidirectionalPath (fwdParent bwdParent : JsMap JsString JsString) (bound : Nat)
    (source target meeting : JsString) : List JsString :=
  let forwardPath := walkParents fwdParent bound meeting
  let forwardPath := if forwardPath.head? = some source then forwardPath else source :: forwardPath
  let path := forwardPath ++ (walkParents bwdParent bound meeting).reverse.tail
  if path.getLast? = some target then path else path ++ [target]

def shortestPath (source target : JsString) (maxDepth : Nat) : PathResult :=
  if source = target then ⟨true, [source], 0⟩
  else
    let s := While.loop (shortestStep index) maxDepth
      ⟨⟨.ofList [source], .empty, [source], none⟩, ⟨.ofList [target], .empty, [target], none⟩⟩
    match s.fwd.meeting.or s.bwd.meeting with
    | some meeting =>
        let path := reconstructBidirectionalPath s.fwd.parent s.bwd.parent (maxDepth + 1) source target meeting
        ⟨true, path, path.length - 1⟩
    | none => ⟨false, [], -1⟩

end Definitions

/-! ### Limits -/

section Limits

variable (index : CommitIndex) (source : JsString)

/-- A number of steps from the source to a child. -/
abbrev DistanceFrom (n : Nat) (sha : JsString) : Prop :=
  Distance (fun sha child => child ∈ index.getChildren sha) {sha | sha = source} n sha

/-- There are no more than `maxNodes` commits within the depth. -/
def NotBinding (maxNodes maxDepth : Nat) : Prop :=
  ∀ shas : List JsString, shas.Nodup → (∀ sha ∈ shas, ∃ n, n ≤ maxDepth ∧ DistanceFrom index source n sha) →
    shas.length ≤ maxNodes

/-- The breadth-first order of the commits within the depth. -/
def breadthFirst (maxDepth : Nat) : List (JsString × Nat) :=
  BreadthFirst.order index.getChildren source maxDepth index.commits.length

end Limits

/-! ### The queue -/

section Queue

open BreadthFirst
open DepthFirst hiding candidates mem_candidates candidates_concat

variable {index : CommitIndex} {source target : JsString} {maxNodes maxDepth : Nat}

theorem enqueueChildren_spec (visited : JsSet JsString) (sha : JsString) (depth : Nat) (children : List JsString)
    (s : JsMap JsString JsString × List (JsString × Nat)) :
    (children.foldl (enqueueChild visited sha depth) s).2 =
        s.2 ++ (fresh id visited.elems children).map (·, depth + 1) ∧
      ∀ v, (children.foldl (enqueueChild visited sha depth) s).1.get v =
        if v ∈ children ∧ v ∉ visited.elems then some sha else s.1.get v := by
  induction children generalizing s with
  | nil => exact ⟨(List.append_nil _).symm, fun v => (if_neg fun h => List.not_mem_nil h.1).symm⟩
  | cons child rest ih =>
      obtain ⟨hqueue, hparent⟩ := ih (enqueueChild visited sha depth s child)
      rw [List.foldl_cons]
      by_cases hvisited : child ∈ visited.elems
      · have hsame : enqueueChild visited sha depth s child = s := if_pos ((visited.has_iff child).mpr hvisited)
        rw [hsame] at hqueue hparent ⊢
        refine ⟨by rw [hqueue, fresh_cons_of_mem id hvisited], fun v => ?_⟩
        simp only [hparent, List.mem_cons]
        grind
      · have hnew : enqueueChild visited sha depth s child = (s.1.set child sha, s.2 ++ [(child, depth + 1)]) :=
          if_neg fun h => hvisited ((visited.has_iff child).mp h)
        rw [hnew] at hqueue hparent ⊢
        refine ⟨by rw [hqueue, fresh_cons_of_not_mem id hvisited, List.append_assoc]; rfl, fun v => ?_⟩
        simp only [hparent, JsMap.get_set, List.mem_cons]
        grind

/-- What a queue still brings to a search: the entries within the depth whose commits are not visited. -/
def live (maxDepth : Nat) (visited : List JsString) (queue : List (JsString × Nat)) : List (JsString × Nat) :=
  fresh Prod.fst visited (queue.filter fun entry => entry.2 ≤ maxDepth)

theorem live_append (visited : List JsString) (queue more : List (JsString × Nat)) :
    live maxDepth visited (queue ++ more) = live maxDepth visited queue ++ live maxDepth visited more := by
  rw [live, List.filter_append, fresh_append]
  rfl

theorem live_live {visited visited' : List JsString} (hmore : ∀ v ∈ visited, v ∈ visited') (queue : List (JsString × Nat)) :
    fresh Prod.fst visited' (live maxDepth visited queue) = live maxDepth visited' queue :=
  fresh_fresh Prod.fst hmore

/-- The children that a commit queues are those that the breadth-first order takes. -/
theorem live_map_fresh (visited : List JsString) (sha : JsString) (depth : Nat) :
    live maxDepth visited ((fresh id visited (index.getChildren sha)).map (·, depth + 1)) =
      unvisited index.getChildren maxDepth visited (sha, depth) := by
  have hdepth : ∀ entry ∈ (fresh id visited (index.getChildren sha)).map (·, depth + 1),
      entry.2 = depth + 1 ∧ entry.1 ∉ visited := by
    intro entry hentry
    obtain ⟨child, hchild, rfl⟩ := List.mem_map.mp hentry
    exact ⟨rfl, ((mem_fresh id).mp hchild).2⟩
  rw [live, unvisited]
  split
  · rename_i hless
    rw [List.filter_eq_self.mpr, fresh_eq_self Prod.fst fun entry hentry => (hdepth entry hentry).2]
    intro entry hentry
    rw [(hdepth entry hentry).1]
    exact decide_eq_true hless
  · rename_i hge
    rw [List.filter_eq_nil_iff.mpr]
    · rfl
    · intro entry hentry
      rw [(hdepth entry hentry).1]
      simpa using hge

/-- A search that has made its visits. Parents are the last ones, also of the commits that are only queued. -/
structure Queued (index : CommitIndex) (source target : JsString) (maxDepth count : Nat) (s : FindPath) : Prop where
  visited : s.visited.elems = (order index.getChildren source maxDepth count).map Prod.fst
  parent : ∀ v, s.found = false ∨ v ∈ s.visited.elems →
    s.parentMap.get v = lastParent index.getChildren (order index.getChildren source maxDepth count) v
  queue : s.found = false →
    live maxDepth s.visited.elems s.queue = candidates index.getChildren maxDepth (order index.getChildren source maxDepth count)
  found_iff : s.found = true ↔ target ∈ s.visited.elems
  inCommits : ∀ v ∈ s.visited.elems, v ∈ index.commits

def remaining (index : CommitIndex) (s : FindPath) : Nat :=
  s.queue.length + unseen (fun sha => (index.getChildren sha).length) index.commits s.visited.elems

/-- An entry that brings nothing to the search leaves the queue. -/
theorem Queued.skip {count : Nat} {s : FindPath} (h : Queued index source target maxDepth count s)
    {entry : JsString × Nat} {queue : List (JsString × Nat)} (hqueue : s.queue = entry :: queue)
    (hdead : live maxDepth s.visited.elems (entry :: queue) = live maxDepth s.visited.elems queue) :
    Queued index source target maxDepth count { s with queue := queue } ∧
      remaining index { s with queue := queue } < remaining index s := by
  refine ⟨⟨h.visited, h.parent, fun hnot => ?_, h.found_iff, h.inCommits⟩, ?_⟩
  · rw [← h.queue hnot, hqueue, hdead]
  · simp only [remaining, hqueue, List.length_cons]
    omega

/-- An entry that is live is the next visit of the breadth-first order. -/
theorem Queued.next_visit {count : Nat} {s : FindPath} (h : Queued index source target maxDepth count s)
    {sha : JsString} {depth : Nat} {queue : List (JsString × Nat)}
    (hcandidates : candidates index.getChildren maxDepth (order index.getChildren source maxDepth count) =
      (sha, depth) :: queue) :
    (s.visited.add sha).elems = (order index.getChildren source maxDepth (count + 1)).map Prod.fst ∧
      (s.visited.add sha).elems = s.visited.elems ++ [sha] ∧ sha ∈ index.commits ∧
      ∀ v ∈ (s.visited.add sha).elems, v ∈ index.commits := by
  have hmem : (sha, depth) ∈ candidates index.getChildren maxDepth (order index.getChildren source maxDepth count) :=
    hcandidates ▸ List.mem_cons_self
  obtain ⟨visit, -, -, -, hchild, hnew⟩ := mem_candidates.mp hmem
  rw [← h.visited] at hnew
  have helems : (s.visited.add sha).elems = s.visited.elems ++ [sha] := JsSet.elems_add hnew
  have hcommit : sha ∈ index.commits := index.child_mem _ _ hchild
  refine ⟨?_, helems, hcommit, ?_⟩
  · rw [helems, h.visited, order_succ hcandidates, List.map_append]
    rfl
  · rw [helems]
    intro v hv
    rcases List.mem_append.mp hv with hv | hv
    · exact h.inCommits v hv
    · exact List.mem_singleton.mp hv ▸ hcommit

theorem Queued.step {count : Nat} {s s' : FindPath} (h : Queued index source target maxDepth count s)
    (hstep : findStep index target maxNodes maxDepth s = some s') :
    (∃ count', Queued index source target maxDepth count' s') ∧ remaining index s' < remaining index s := by
  unfold findStep at hstep
  split at hstep
  · cases hstep
  rename_i hnot
  rw [Bool.not_eq_true] at hnot
  split at hstep
  · cases hstep
  rename_i sha depth queue hqueue
  split at hstep
  · cases hstep
  split at hstep
  · rename_i hdeep
    rw [Option.some.injEq] at hstep
    subst hstep
    have hskip := h.skip hqueue (by rw [live, live, List.filter_cons_of_neg (by simpa using hdeep)])
    exact ⟨⟨count, hskip.1⟩, hskip.2⟩
  rename_i hdepth
  split at hstep
  · rename_i hvisited
    rw [Option.some.injEq] at hstep
    subst hstep
    have hskip := h.skip hqueue (by rw [live, live, List.filter_cons_of_pos (by simpa using hdepth),
      fresh_cons_of_mem Prod.fst ((s.visited.has_iff sha).mp hvisited)])
    exact ⟨⟨count, hskip.1⟩, hskip.2⟩
  rename_i hunvisited
  have hnew : sha ∉ s.visited.elems := fun hmem => hunvisited ((s.visited.has_iff sha).mpr hmem)
  have hcandidates : candidates index.getChildren maxDepth (order index.getChildren source maxDepth count) =
      (sha, depth) :: live maxDepth s.visited.elems queue := by
    rw [← h.queue hnot, hqueue, live, live, List.filter_cons_of_pos (by simpa using hdepth),
      fresh_cons_of_not_mem Prod.fst hnew]
  have horder := order_succ hcandidates
  obtain ⟨hvisits, helems, hcommit, hcommits⟩ := h.next_visit hcandidates
  have hunmet : target ∉ s.visited.elems := fun hmem =>
    absurd (hnot.symm.trans (h.found_iff.mpr hmem)) Bool.false_ne_true
  have hweight := unseen_visit (fun sha => (index.getChildren sha).length) hcommit hnew
  split at hstep
  · rename_i htarget
    rw [Option.some.injEq] at hstep
    subst hstep
    have hfound : true ≠ false := Bool.false_ne_true.symm
    refine ⟨⟨count + 1, hvisits, fun v hv => ?_, fun h => absurd h hfound, iff_of_true rfl ?_, hcommits⟩, ?_⟩
    · have hmem : v ∈ (s.visited.add sha).elems := hv.resolve_left hfound
      rw [horder, lastParent_concat, if_neg, h.parent v (.inl hnot)]
      rw [← horder, ← hvisits]
      exact fun hfree => hfree.2 hmem
    · rw [helems, htarget]
      exact List.mem_append_right _ (List.mem_singleton_self _)
    · simp only [remaining, hqueue, List.length_cons, helems]
      omega
  · rename_i htarget
    rw [Option.some.injEq] at hstep
    subst hstep
    obtain ⟨hnext, hparents⟩ := enqueueChildren_spec (s.visited.add sha) sha depth (index.getChildren sha)
      (s.parentMap, queue)
    refine ⟨⟨count + 1, hvisits, fun v _ => ?_, fun _ => ?_, iff_of_false Bool.false_ne_true ?_, hcommits⟩, ?_⟩
    · rw [hparents, horder, lastParent_concat, h.parent v (.inl hnot)]
      by_cases hchild : v ∈ index.getChildren sha ∧ v ∉ (s.visited.add sha).elems
      · rw [if_pos hchild, if_pos]
        rwa [← horder, ← hvisits]
      · rw [if_neg hchild, if_neg]
        rwa [← horder, ← hvisits]
    · dsimp only
      rw [hnext, horder, candidates_concat, ← horder, ← hvisits, hcandidates,
        fresh_cons_of_mem Prod.fst (helems ▸ List.mem_append_right _ (List.mem_singleton_self sha)), live_append, live_live,
        live_map_fresh]
      rw [helems]
      exact fun v hv => List.mem_append_left _ hv
    · rw [helems]
      intro hmem
      rcases List.mem_append.mp hmem with hmem | hmem
      · exact hunmet hmem
      · exact htarget (List.mem_singleton.mp hmem).symm
    · have hlength : (fresh id (s.visited.add sha).elems (index.getChildren sha)).length ≤ _ := length_fresh_le id
      simp only [remaining, hqueue, hnext, List.length_cons, List.length_append, List.length_map]
      rw [helems] at hlength ⊢
      omega

/-! ### The run -/

/-- The first turn visits the source. -/
theorem findStep_start (hsource : source ∈ index.commits) (hne : source ≠ target) (hroom : 0 < maxNodes) :
    ∃ s, findStep index target maxNodes maxDepth ⟨.empty, .empty, [(source, 0)], false⟩ = some s ∧
      Queued index source target maxDepth 0 s ∧
      remaining index s ≤ (index.commits.map fun sha => (index.getChildren sha).length).sum := by
  have hempty : source ∉ (JsSet.empty : JsSet JsString).elems := List.not_mem_nil
  have helems : ((JsSet.empty : JsSet JsString).add source).elems = [source] := JsSet.elems_add hempty
  obtain ⟨hnext, hparents⟩ := enqueueChildren_spec (JsSet.empty.add source) source 0 (index.getChildren source) (.empty, [])
  rw [List.nil_append] at hnext
  refine ⟨⟨JsSet.empty.add source,
    ((index.getChildren source).foldl (enqueueChild (JsSet.empty.add source) source 0) (.empty, [])).1,
    ((index.getChildren source).foldl (enqueueChild (JsSet.empty.add source) source 0) (.empty, [])).2, false⟩,
    ?_, ⟨?_, ?_, ?_, ?_, ?_⟩, ?_⟩
  · unfold findStep
    dsimp only
    have hfull : ¬ maxNodes ≤ (JsSet.empty : JsSet JsString).size := Nat.not_le_of_lt hroom
    rw [if_neg Bool.false_ne_true, if_neg hfull, if_neg (Nat.not_lt_zero _),
      if_neg fun h => hempty ((JsSet.has_iff _ _).mp h), if_neg hne]
  · exact helems
  · intro v _
    dsimp only
    rw [hparents, order, While.loop, ← List.nil_append [(source, 0)], lastParent_concat, helems]
    by_cases hchild : v ∈ index.getChildren source ∧ v ∉ [source]
    · rw [if_pos hchild, if_pos]
      exact hchild
    · rw [if_neg hchild, if_neg]
      · rfl
      · exact hchild
  · intro _
    dsimp only
    rw [hnext, helems, live_map_fresh, order, While.loop, candidates, List.flatMap_singleton]
    rfl
  · dsimp only
    rw [helems]
    exact iff_of_false Bool.false_ne_true fun hmem => hne (List.mem_singleton.mp hmem).symm
  · dsimp only
    rw [helems]
    intro v hv
    exact List.mem_singleton.mp hv ▸ hsource
  · have hweight := unseen_visit (fun sha => (index.getChildren sha).length) hsource (List.not_mem_nil (a := source))
    have hall : unseen (fun sha => (index.getChildren sha).length) index.commits [] =
        (index.commits.map fun sha => (index.getChildren sha).length).sum := by
      simp only [unseen, List.not_mem_nil, if_false]
    have hlength : (fresh id [source] (index.getChildren source)).length ≤ _ := length_fresh_le id
    rw [List.nil_append, hall] at hweight
    simp only [remaining, hnext, helems, List.length_map]
    omega

/-- Where the loop ends: with the target, or with all commits within the depth. -/
theorem findLoop_spec (hsource : source ∈ index.commits) (hne : source ≠ target)
    (hlimit : NotBinding index source maxNodes maxDepth) : ∃ count s, While.loop (findStep index target maxNodes maxDepth)
      (findBound index) ⟨.empty, .empty, [(source, 0)], false⟩ = s ∧ Queued index source target maxDepth count s ∧
      (s.found = true ↔ ∃ n, n ≤ maxDepth ∧ DistanceFrom index source n target) := by
  have hself : ∀ sha ∈ [source], ∃ n, n ≤ maxDepth ∧ DistanceFrom index source n sha := by
    intro sha hsha
    exact ⟨0, Nat.zero_le _, distance_zero_iff.mpr (List.mem_singleton.mp hsha)⟩
  have hroom : 0 < maxNodes := hlimit [source] (List.nodup_singleton _) hself
  obtain ⟨s, hfirst, hqueued, hmeasure⟩ := @findStep_start index source target maxNodes maxDepth hsource hne hroom
  have hturn : ∀ s s', (∃ count, Queued index source target maxDepth count s) →
      findStep index target maxNodes maxDepth s = some s' →
      (∃ count, Queued index source target maxDepth count s') ∧ remaining index s' < remaining index s :=
    fun s s' h hstep => h.elim fun count h => h.step hstep
  have hstop := While.loop_stops hturn ⟨0, hqueued⟩ hmeasure
  obtain ⟨count, hlast⟩ := While.loop_invariant (fun s s' h hstep => (hturn s s' h hstep).1)
    ((index.commits.map fun sha => (index.getChildren sha).length).sum) ⟨0, hqueued⟩
  refine ⟨count, _, by rw [findBound, Nat.add_comm, While.loop, hfirst], hlast, ?_⟩
  generalize While.loop (findStep index target maxNodes maxDepth) _ s = last at hstop hlast
  have hlayered := @layered_order _ _ index.getChildren source maxDepth count
  have hwithin : ∀ v ∈ last.visited.elems, ∃ n, n ≤ maxDepth ∧ DistanceFrom index source n v := by
    rw [hlast.visited]
    intro v hv
    obtain ⟨visit, hvisit, rfl⟩ := List.mem_map.mp hv
    exact ⟨visit.2, hlayered.distance visit hvisit⟩
  constructor
  · intro hfound
    exact hwithin target (hlast.found_iff.mp hfound)
  · intro htarget
    by_contra hnot
    have hunmet : target ∉ last.visited.elems := fun hmem => hnot (hlast.found_iff.mpr hmem)
    unfold findStep at hstop
    rw [if_neg hnot] at hstop
    split at hstop
    · rename_i hempty
      have hcandidates := hlast.queue (by simpa using hnot)
      rw [hempty] at hcandidates
      obtain ⟨n, hn, hdistance⟩ := htarget
      exact hunmet (hlast.visited ▸ hlayered.complete hcandidates.symm hn hdistance)
    · split at hstop
      · rename_i hfull
        have hlength := hlimit (target :: last.visited.elems) (List.nodup_cons.mpr ⟨hunmet, last.visited.nodup⟩) (by
          intro v hv
          rcases List.mem_cons.mp hv with rfl | hv
          · exact htarget
          · exact hwithin v hv)
        rw [List.length_cons] at hlength
        exact absurd hfull (Nat.not_le_of_lt hlength)
      · split at hstop
        · cases hstop
        · split at hstop
          · cases hstop
          · dsimp only at hstop
            split at hstop
            · cases hstop
            · cases hstop

/-- The walk back from a target that is found goes over the last parents. -/
theorem Queued.walk {count : Nat} {s : FindPath} (h : Queued index source target maxDepth count s)
    (hsource : source ∈ index.commits) (hfound : s.found = true) : ∃ n : Nat, DistanceFrom index source n target ∧
      IsWalk (ParentArc index.getChildren (breadthFirst index source maxDepth)) source target
        (walkPredecessors s.parentMap index.commits.length source target) n := by
  classical
  have hlayered := @layered_order _ _ index.getChildren source maxDepth count
  have hprefix : order index.getChildren source maxDepth count <+: breadthFirst index source maxDepth :=
    order_prefix_of_nodes hsource index.child_mem count
  let depth : JsString → Nat := fun v => if hv : ∃ n, DistanceFrom index source n v then hv.choose else 0
  have hdepth : ∀ {n v}, DistanceFrom index source n v → depth v = n := by
    intro n v hdistance
    have hexists : ∃ n, DistanceFrom index source n v := ⟨n, hdistance⟩
    change (if hv : ∃ n, DistanceFrom index source n v then hv.choose else 0) = n
    rw [dif_pos hexists]
    exact hexists.choose_spec.unique hdistance
  have htarget : target ∈ s.visited.elems := h.found_iff.mp hfound
  have hzero : (depth source : Int) = 0 := by
    rw [hdepth (distance_zero_iff.mpr rfl)]
    rfl
  have hprev : ∀ v, v ∈ s.visited.elems → v ≠ source → ∃ u w, s.parentMap.get v = some u ∧ u ∈ s.visited.elems ∧
      s.visited.elems.idxOf u < s.visited.elems.idxOf v ∧
      ParentArc index.getChildren (breadthFirst index source maxDepth) u v w ∧ (depth v : Int) = depth u + w := by
    intro v hv hne
    rw [h.parent v (.inr hv)]
    rw [h.visited] at hv ⊢
    obtain ⟨⟨x, m⟩, hvisit, heq⟩ := List.mem_map.mp hv
    obtain rfl : x = v := heq
    obtain ⟨u, n, hparent, hu⟩ := hlayered.exists_lastParent hvisit hne
    obtain ⟨-, humem, hless⟩ := lastParent_eq_some hparent
    have hdv := hdepth (hlayered.distance _ hvisit).2
    have hdu := hdepth (hlayered.distance _ hu).2
    refine ⟨u, (m : Int) - n, hparent, humem, ?_, ⟨?_, n, m, hprefix.subset hu, hprefix.subset hvisit, by omega⟩, ?_⟩
    · convert hless
    · rw [lastParent_mono hprefix hv, hparent]
    · rw [hdv, hdu]
      omega
  have hbound : s.visited.elems.idxOf target ≤ index.commits.length :=
    (List.idxOf_lt_length_of_mem htarget).le.trans (List.subperm_of_subset s.visited.nodup h.inCommits).length_le
  have hwalk := GraphTraversal.reconstructPath_spec (fun v => (depth v : Int)) (fun v => v ∈ s.visited.elems)
    (fun v => s.visited.elems.idxOf v) hzero hprev htarget hbound
  rw [h.visited] at htarget
  obtain ⟨⟨x, n⟩, hvisit, heq⟩ := List.mem_map.mp htarget
  obtain rfl : x = target := heq
  have hdistance := (hlayered.distance _ hvisit).2
  rw [hdepth hdistance] at hwalk
  exact ⟨n, hdistance, hwalk⟩

end Queue

/-! ### What a path result says -/

/-- A result that is right: found where there is a way, with a path. -/
structure FindsPath (index : CommitIndex) (source target : JsString) (result : PathResult) : Prop where
  found_iff : result.found = true ↔ Relation.ReflTransGen index.Child source target
  path : result.found = true → IsPathBy index.Child source target result.path ∧ result.length = result.path.length - 1

/-- A result whose path is a shortest one. -/
structure FindsShortest (index : CommitIndex) (source target : JsString) (result : PathResult) : Prop extends
    FindsPath index source target result where
  shortest : result.found = true → IsShortest index.Child source target result.path

/-- Going back from the target, each time to the last commit before it in the breadth-first order that has it as a child,
every step leads to a commit that is one nearer to the source. -/
def Straight (index : CommitIndex) (source target : JsString) (maxDepth : Nat) : Prop :=
  BreadthFirst.Straight index.getChildren source (breadthFirst index source maxDepth) target

section Result

variable {index : CommitIndex} {source target : JsString} {maxNodes maxDepth : Nat}

theorem reaches_iff (hdepth : ∀ n, DistanceFrom index source n target → n ≤ maxDepth) :
    (∃ n, n ≤ maxDepth ∧ DistanceFrom index source n target) ↔ Relation.ReflTransGen index.Child source target := by
  refine Iff.trans ?_ exists_distance_iff
  exact exists_congr fun n => and_iff_right_of_imp (hdepth n)

/-- Within the limits the search along the children finds a path, which is a shortest one exactly where the way back is
straight. -/
theorem findPath_spec (hsource : source ∈ index.commits) (hdepth : ∀ n, DistanceFrom index source n target → n ≤ maxDepth)
    (hlimit : NotBinding index source maxNodes maxDepth) :
    FindsPath index source target (findPath index source target maxNodes maxDepth) ∧
      ((findPath index source target maxNodes maxDepth).found = true →
        (IsShortest index.Child source target (findPath index source target maxNodes maxDepth).path ↔
          Straight index source target maxDepth)) := by
  unfold findPath
  by_cases hne : source = target
  · subst hne
    rw [if_pos rfl]
    refine ⟨⟨iff_of_true rfl .refl, fun _ => ⟨.single source, rfl⟩⟩, fun _ => iff_of_true ?_ .start⟩
    exact (isShortest_iff (.single source) (distance_zero_iff.mpr rfl)).mpr rfl
  · obtain ⟨count, s, hloop, hlast, hfound⟩ := findLoop_spec hsource hne hlimit
    rw [if_neg hne, hloop]
    rw [reaches_iff hdepth] at hfound
    dsimp only
    split
    · rename_i hyes
      obtain ⟨n, hdistance, hwalk⟩ := hlast.walk hsource hyes
      have hpath : IsPathBy index.Child source target (walkPredecessors s.parentMap index.commits.length source target) :=
        .of_walk (fun u v w harc => (BreadthFirst.lastParent_eq_some harc.1).1) hwalk
      refine ⟨⟨iff_of_true rfl (hfound.mp hyes), fun _ => ⟨hpath, rfl⟩⟩, fun _ => ?_⟩
      have hlayered := @BreadthFirst.layered_order _ _ index.getChildren source maxDepth index.commits.length
      obtain ⟨-, hforward, hback⟩ := hlayered.straight_iff hwalk
      refine (isShortest_iff hpath hdistance).trans ⟨fun hlength => ?_, fun hstraight => ?_⟩
      · exact hforward .start (by omega)
      · have hlength := (hback hstraight).2
        omega
    · rename_i hno
      exact ⟨⟨iff_of_false nofun fun hway => hno (hfound.mpr hway), nofun⟩, nofun⟩

end Result

end DagPathFinding

end GitWarp
