import GitWarp.LibraryLayers
import GitWarp.LibraryLists
import GitWarp.TraversalLongest

/-! Searches in layers: the breadth-first search, the shortest path and reachability. Each goes from one layer of
distances to the next and stops at the depth bound. -/

namespace GitWarp
open Js Layers

namespace GraphTraversal

section Searching

variable (neighborsOf : JsString → List NeighborEdge)

/-! ### The breadth-first search -/

/-- What the inner loop of a level changes. -/
structure BfsLevel where
  visited : JsSet JsString
  result : List JsString
  nextLevel : List (JsString × Nat)
  queued : JsSet JsString

def queueNeighbor (depth : Nat) (s : BfsLevel) (neighborId : JsString) : BfsLevel :=
  if s.visited.has neighborId || s.queued.has neighborId then s
  else { s with queued := s.queued.add neighborId, nextLevel := s.nextLevel ++ [(neighborId, depth + 1)] }

/-- One turn of the inner loop. Once it breaks at `maxNodes`, the rest of the level changes nothing. -/
def bfsVisit (maxNodes maxDepth : Nat) (s : BfsLevel) (entry : JsString × Nat) : BfsLevel :=
  if maxNodes ≤ s.visited.size then s
  else if s.visited.has entry.1 then s
  else if maxDepth < entry.2 then s
  else
    let s := { s with visited := s.visited.add entry.1, result := s.result ++ [entry.1] }
    if entry.2 < maxDepth then (neighborIds (neighborsOf entry.1)).foldl (queueNeighbor entry.2) s else s

structure Bfs where
  visited : JsSet JsString
  result : List JsString
  currentLevel : List (JsString × Nat)

/-- A level in the order of its ids. -/
def sortLevel (level : List (JsString × Nat)) : List (JsString × Nat) :=
  level.insertionSort fun entry other => entry.1 ≤ other.1

def bfsStep (maxNodes maxDepth : Nat) (s : Bfs) : Option Bfs :=
  if s.currentLevel = [] ∨ maxNodes ≤ s.visited.size then none
  else
    let level := (sortLevel s.currentLevel).foldl (bfsVisit neighborsOf maxNodes maxDepth) ⟨s.visited, s.result, [], .empty⟩
    some ⟨level.visited, level.result, level.nextLevel⟩

/-! ### The shortest path -/

/-- A search with the nodes it came from. Once it is found, it has returned. -/
structure PathSearch where
  visited : JsSet JsString
  parent : JsMap JsString JsString
  frontier : List (JsString × Nat)
  nextFrontier : List (JsString × Nat)
  found : Bool

def searchNeighbor (goal nodeId : JsString) (depth : Nat) (s : PathSearch) (neighborId : JsString) : PathSearch :=
  if s.found || s.visited.has neighborId then s
  else
    let s := { s with visited := s.visited.add neighborId, parent := s.parent.set neighborId nodeId }
    if neighborId = goal then { s with found := true }
    else { s with nextFrontier := s.nextFrontier ++ [(neighborId, depth + 1)] }

def searchNode (goal : JsString) (maxDepth : Nat) (s : PathSearch) (entry : JsString × Nat) : PathSearch :=
  if maxDepth ≤ entry.2 then s
  else (neighborIds (neighborsOf entry.1)).foldl (searchNeighbor goal entry.1 entry.2) s

def searchStep (goal : JsString) (maxNodes maxDepth : Nat) (s : PathSearch) : Option PathSearch :=
  if s.found = true ∨ s.frontier = [] ∨ maxNodes ≤ s.visited.size then none
  else
    let s := (sortLevel s.frontier).foldl (searchNode neighborsOf goal maxDepth) { s with nextFrontier := [] }
    some { s with frontier := s.nextFrontier }

structure ShortestPath where
  found : Bool
  path : List JsString
  length : Int
  deriving DecidableEq

/-! ### Reachability -/

structure Reach where
  visited : JsSet JsString
  frontier : List JsString
  nextFrontier : List JsString
  depth : Nat
  reachable : Bool

/-- Here the goal is looked for before the node is, and it is never visited. -/
def reachNeighbor (goal : JsString) (s : Reach) (neighborId : JsString) : Reach :=
  if s.reachable then s
  else if neighborId = goal then { s with reachable := true }
  else if s.visited.has neighborId then s
  else { s with visited := s.visited.add neighborId, nextFrontier := s.nextFrontier ++ [neighborId] }

def reachStep (goal : JsString) (maxNodes maxDepth : Nat) (s : Reach) : Option Reach :=
  if s.reachable = true ∨ s.frontier = [] ∨ maxDepth ≤ s.depth ∨ maxNodes ≤ s.visited.size then none
  else
    let s := s.frontier.foldl (fun s nodeId => (neighborIds (neighborsOf nodeId)).foldl (reachNeighbor goal) s)
      { s with nextFrontier := [] }
    some { s with frontier := s.nextFrontier, depth := s.depth + 1 }

end Searching

section Runs

variable (provider : NeighborProvider) (direction : Direction) (options : Option (List JsString))

def bfs (start : JsString) (maxNodes maxDepth : Nat) : Except TraversalError (List JsString) := do
  validateStart provider start
  return (While.loop (bfsStep (neighborsOf provider direction options) maxNodes maxDepth) (maxDepth + 1)
    ⟨.empty, [], [(start, 0)]⟩).result

def shortestPath (start goal : JsString) (maxNodes maxDepth : Nat) : Except TraversalError ShortestPath := do
  validateStart provider start
  if start = goal then return ⟨true, [start], 0⟩
  let s := While.loop (searchStep (neighborsOf provider direction options) goal maxNodes maxDepth) (maxDepth + 1)
    ⟨.ofList [start], .empty, [(start, 0)], [], false⟩
  if s.found then
    let path := reconstructPath s.parent maxDepth start goal
    return ⟨true, path, path.length - 1⟩
  else return ⟨false, [], -1⟩

/-- `isReachable` takes a start that is no node. -/
def isReachable (start goal : JsString) (maxNodes maxDepth : Nat) : Bool :=
  if start = goal then true
  else (While.loop (reachStep (neighborsOf provider direction options) goal maxNodes maxDepth) (maxDepth + 1)
    ⟨.ofList [start], [start], [], 0, false⟩).reachable

end Runs

/-! ### Layers of distances -/

section Layers

variable (neighborsOf : JsString → List NeighborEdge) (start : JsString)

abbrev DistanceFrom (n : Nat) (v : JsString) : Prop := Distance (Step neighborsOf) {v | v = start} n v

/-- A node at a distance of at most the depth. -/
def WithinDepth (depth : Nat) (v : JsString) : Prop := ∃ n, n ≤ depth ∧ DistanceFrom neighborsOf start n v

/-- There are no more than `maxNodes` nodes within the depth. -/
def NotBinding (maxNodes maxDepth : Nat) : Prop :=
  ∀ visited : List JsString, visited.Nodup → (∀ v ∈ visited, WithinDepth neighborsOf start maxDepth v) →
    visited.length ≤ maxNodes

/-- The order of a breadth-first listing. -/
def Earlier (u v : JsString) : Prop :=
  ∀ n m, DistanceFrom neighborsOf start n u → DistanceFrom neighborsOf start m v → n < m ∨ n = m ∧ u < v

variable {neighborsOf start}

theorem distanceFrom_zero_iff {v : JsString} : DistanceFrom neighborsOf start 0 v ↔ v = start := distance_zero_iff

theorem distanceFrom_succ_iff {depth : Nat} {v : JsString} : DistanceFrom neighborsOf start (depth + 1) v ↔
    (∃ u, DistanceFrom neighborsOf start depth u ∧ Step neighborsOf u v) ∧ ¬ WithinDepth neighborsOf start depth v := by
  refine Iff.trans distance_succ_iff (and_congr_right fun _ => ?_)
  rw [WithinDepth, not_exists]
  exact forall_congr' fun n => not_and.symm

theorem withinDepth_succ_iff {depth : Nat} {v : JsString} : WithinDepth neighborsOf start (depth + 1) v ↔
    WithinDepth neighborsOf start depth v ∨ DistanceFrom neighborsOf start (depth + 1) v := by
  constructor
  · intro h
    obtain ⟨n, hn, hdistance⟩ := h
    rcases Nat.lt_or_eq_of_le hn with hless | rfl
    · exact .inl ⟨n, by omega, hdistance⟩
    · exact .inr hdistance
  · intro h
    rcases h with ⟨n, hn, hdistance⟩ | hdistance
    · exact ⟨n, by omega, hdistance⟩
    · exact ⟨depth + 1, le_rfl, hdistance⟩

theorem WithinDepth.mono {depth depth' : Nat} {v : JsString} (h : WithinDepth neighborsOf start depth v)
    (hle : depth ≤ depth') : WithinDepth neighborsOf start depth' v := by
  obtain ⟨n, hn, hdistance⟩ := h
  exact ⟨n, hn.trans hle, hdistance⟩

theorem WithinDepth.step {depth : Nat} {u v : JsString} (h : DistanceFrom neighborsOf start depth u)
    (hstep : Step neighborsOf u v) : WithinDepth neighborsOf start (depth + 1) v :=
  (StepsTo.step h.1 hstep).exists_distance

/-- A node that a layer leads to and that is not nearer lies in the next layer. -/
theorem distance_of_step {depth : Nat} {u v : JsString} (h : DistanceFrom neighborsOf start depth u)
    (hstep : Step neighborsOf u v) (hfar : ¬ WithinDepth neighborsOf start depth v) :
    DistanceFrom neighborsOf start (depth + 1) v :=
  (withinDepth_succ_iff.mp (WithinDepth.step h hstep)).resolve_left hfar

/-- Where a layer is empty, there is no node at its distance or further away. -/
theorem withinDepth_of_empty {depth maxDepth : Nat} (hempty : ∀ v, ¬ DistanceFrom neighborsOf start depth v)
    {v : JsString} (h : WithinDepth neighborsOf start maxDepth v) : ∃ n, n < depth ∧ DistanceFrom neighborsOf start n v := by
  obtain ⟨n, -, hdistance⟩ := h
  refine ⟨n, ?_, hdistance⟩
  by_contra hnot
  obtain ⟨u, hu⟩ := hdistance.exists_of_le (not_lt.mp hnot)
  exact hempty u hu

/-- While `maxNodes` does not bind, there is room for every node within the depth that is not yet visited. -/
theorem NotBinding.room {maxNodes maxDepth : Nat} (h : NotBinding neighborsOf start maxNodes maxDepth)
    (visited : JsSet JsString) (hvisited : ∀ v ∈ visited, WithinDepth neighborsOf start maxDepth v) {v : JsString}
    (hv : WithinDepth neighborsOf start maxDepth v) (hnew : v ∉ visited) : visited.size < maxNodes := by
  have hlength := h (v :: visited.elems) (List.nodup_cons.mpr ⟨hnew, visited.nodup⟩) ?_
  · rwa [List.length_cons] at hlength
  · intro u hu
    rcases List.mem_cons.mp hu with rfl | hu
    · exact hv
    · exact hvisited u hu

end Layers

/-! ### The listing of the breadth-first search -/

section Listing

variable {neighborsOf : JsString → List NeighborEdge} {start : JsString}

/-- The ids of the entries of a level. -/
def levelIds (level : List (JsString × Nat)) : List JsString := level.map Prod.fst

/-- What queueing the neighbors of a node adds to the next level. -/
theorem queueNeighbors_spec (depth : Nat) (ids : List JsString) (s : BfsLevel)
    (hqueued : ∀ v, v ∈ s.queued ↔ v ∈ levelIds s.nextLevel) :
    ∃ added : List JsString, (∀ v ∈ added, v ∈ ids) ∧
      (∀ v ∈ ids, v ∈ s.visited ∨ v ∈ levelIds (ids.foldl (queueNeighbor depth) s).nextLevel) ∧
      (ids.foldl (queueNeighbor depth) s).nextLevel = s.nextLevel ++ added.map (·, depth + 1) ∧
      (ids.foldl (queueNeighbor depth) s).visited = s.visited ∧ (ids.foldl (queueNeighbor depth) s).result = s.result ∧
      ∀ v, v ∈ (ids.foldl (queueNeighbor depth) s).queued ↔ v ∈ levelIds (ids.foldl (queueNeighbor depth) s).nextLevel := by
  induction ids generalizing s with
  | nil => exact ⟨[], nofun, nofun, (List.append_nil _).symm, rfl, rfl, hqueued⟩
  | cons id rest ih =>
      rw [List.foldl_cons]
      by_cases hskip : id ∈ s.visited ∨ id ∈ s.queued
      · have hsame : queueNeighbor depth s id = s := by
          unfold queueNeighbor
          rw [if_pos (by simpa using hskip)]
        obtain ⟨added, hadded, hids, hnext, hvisited, hresult, hqueued'⟩ := ih s hqueued
        rw [hsame]
        refine ⟨added, fun v hv => List.mem_cons_of_mem _ (hadded v hv), ?_, hnext, hvisited, hresult, hqueued'⟩
        intro v hv
        rcases List.mem_cons.mp hv with rfl | hv
        · refine hskip.imp_right fun hmem => ?_
          rw [hnext, levelIds, List.map_append]
          exact List.mem_append_left _ ((hqueued _).mp hmem)
        · exact hids v hv
      · have hmore : queueNeighbor depth s id =
            { s with queued := s.queued.add id, nextLevel := s.nextLevel ++ [(id, depth + 1)] } := by
          unfold queueNeighbor
          rw [if_neg (by simpa using hskip)]
        rw [hmore]
        obtain ⟨added, hadded, hids, hnext, hvisited, hresult, hqueued'⟩ :=
          ih { s with queued := s.queued.add id, nextLevel := s.nextLevel ++ [(id, depth + 1)] } (by
            intro v
            rw [JsSet.mem_add, hqueued, levelIds, levelIds, List.map_append, List.mem_append, List.map_singleton,
              List.mem_singleton, or_comm])
        refine ⟨id :: added, ?_, ?_, ?_, hvisited, hresult, hqueued'⟩
        · intro v hv
          exact (List.mem_cons.mp hv).elim (fun h => h ▸ List.mem_cons_self) fun h =>
            List.mem_cons_of_mem _ (hadded v h)
        · intro v hv
          rcases List.mem_cons.mp hv with rfl | hv
          · right
            rw [hnext, levelIds, List.map_append, List.map_append]
            exact List.mem_append_left _ (List.mem_append_right _ List.mem_cons_self)
          · exact hids v hv
        · rw [hnext, List.append_assoc]
          rfl

/-- A level in the middle: what is visited before the level and in it, and what comes to the next. -/
structure LevelPart (before : List JsString) (depth maxDepth : Nat) (fresh : List JsString) (s : BfsLevel) : Prop where
  elems : s.visited.elems = before ++ fresh
  result : s.result = before ++ fresh
  sorted : fresh.Pairwise (· < ·)
  distance : ∀ v ∈ fresh, DistanceFrom neighborsOf start depth v
  next : ∀ entry ∈ s.nextLevel, entry.2 = depth + 1 ∧ ∃ u ∈ fresh, Step neighborsOf u entry.1
  closed : depth < maxDepth → ∀ u ∈ fresh, ∀ v, Step neighborsOf u v → v ∈ s.visited ∨ v ∈ levelIds s.nextLevel
  queued : ∀ v, v ∈ s.queued ↔ v ∈ levelIds s.nextLevel

/-- One entry of the level, which no later entry precedes. -/
theorem LevelPart.visit {before fresh : List JsString} {depth maxDepth maxNodes : Nat} {s : BfsLevel}
    (h : @LevelPart neighborsOf start before depth maxDepth fresh s)
    (hbefore : ∀ v ∈ before, WithinDepth neighborsOf start maxDepth v)
    (hnear : ∀ v, WithinDepth neighborsOf start depth v → v ∈ before ∨ DistanceFrom neighborsOf start depth v)
    (hlimit : NotBinding neighborsOf start maxNodes maxDepth) (hdepth : depth ≤ maxDepth) {u : JsString}
    (hu : WithinDepth neighborsOf start depth u) (hless : ∀ v ∈ fresh, v ≤ u) :
    ∃ added, (∀ v ∈ added, v = u) ∧ u ∈ before ++ (fresh ++ added) ∧
      @LevelPart neighborsOf start before depth maxDepth (fresh ++ added)
        (bfsVisit neighborsOf maxNodes maxDepth s (u, depth)) := by
  have hwithin : ∀ v ∈ s.visited, WithinDepth neighborsOf start maxDepth v := by
    intro v hv
    rw [JsSet.mem_def, h.elems] at hv
    rcases List.mem_append.mp hv with hv | hv
    · exact hbefore v hv
    · exact ⟨depth, hdepth, h.distance v hv⟩
  by_cases hvisited : u ∈ s.visited
  · have hsame : bfsVisit neighborsOf maxNodes maxDepth s (u, depth) = s := by
      unfold bfsVisit
      split
      · rfl
      · rw [if_pos ((s.visited.has_iff u).mpr hvisited)]
    refine ⟨[], List.forall_mem_nil _, ?_, ?_⟩
    · rw [List.append_nil, ← h.elems]
      exact hvisited
    · rw [List.append_nil, hsame]
      exact h
  · have hroom := hlimit.room _ hwithin (hu.mono hdepth) hvisited
    have helems : (s.visited.add u).elems = before ++ (fresh ++ [u]) := by
      rw [JsSet.elems_add hvisited, h.elems, List.append_assoc]
    have hdistance : DistanceFrom neighborsOf start depth u := by
      refine (hnear u hu).resolve_left fun hmem => hvisited ?_
      rw [JsSet.mem_def, h.elems]
      exact List.mem_append_left _ hmem
    have hnew : ∀ v ∈ fresh, v < u := by
      intro v hv
      refine lt_of_le_of_ne (hless v hv) fun heq => hvisited ?_
      rw [JsSet.mem_def, h.elems, ← heq]
      exact List.mem_append_right _ hv
    let visiting : BfsLevel := { s with visited := s.visited.add u, result := s.result ++ [u] }
    have hvisiting : @LevelPart neighborsOf start before depth depth (fresh ++ [u]) visiting := by
      refine ⟨helems, ?_, ?_, ?_, ?_, fun hlt => absurd hlt (lt_irrefl _), h.queued⟩
      · change s.result ++ [u] = before ++ (fresh ++ [u])
        rw [h.result, List.append_assoc]
      · exact List.pairwise_append.mpr ⟨h.sorted, List.pairwise_singleton _ _, by simpa using hnew⟩
      · intro v hv
        rcases List.mem_append.mp hv with hv | hv
        · exact h.distance v hv
        · exact List.mem_singleton.mp hv ▸ hdistance
      · intro entry hentry
        obtain ⟨hentry, w, hw, hstep⟩ := h.next entry hentry
        exact ⟨hentry, w, List.mem_append_left _ hw, hstep⟩
    refine ⟨[u], fun v hv => List.mem_singleton.mp hv, by simp, ?_⟩
    have hturn : bfsVisit neighborsOf maxNodes maxDepth s (u, depth) =
        if depth < maxDepth then (neighborIds (neighborsOf u)).foldl (queueNeighbor depth) visiting else visiting := by
      unfold bfsVisit
      rw [if_neg (not_le.mpr hroom), if_neg (by simpa using hvisited), if_neg (not_lt.mpr hdepth)]
    rw [hturn]
    split
    · obtain ⟨added, hadded, hids, hnext, hvisited', hresult, hqueued⟩ :=
        queueNeighbors_spec depth (neighborIds (neighborsOf u)) visiting h.queued
      refine ⟨hvisited' ▸ hvisiting.elems, hresult ▸ hvisiting.result, hvisiting.sorted, hvisiting.distance, ?_, ?_, hqueued⟩
      · intro entry hentry
        rw [hnext] at hentry
        rcases List.mem_append.mp hentry with hentry | hentry
        · exact hvisiting.next entry hentry
        · obtain ⟨v, hv, rfl⟩ := List.mem_map.mp hentry
          exact ⟨rfl, u, by simp, hadded v hv⟩
      · intro hlt w hw v hstep
        rcases List.mem_append.mp hw with hw | hw
        · rw [hvisited', hnext, levelIds, List.map_append]
          rcases h.closed hlt w hw v hstep with hv | hv
          · exact .inl ((JsSet.mem_add _ _ _).mpr (.inr hv))
          · exact .inr (List.mem_append_left _ hv)
        · rw [List.mem_singleton] at hw
          subst hw
          rw [hvisited']
          exact hids v hstep
    · exact { hvisiting with closed := fun hlt => absurd hlt (by assumption) }

/-- A whole level, in the order of its ids. -/
theorem LevelPart.visitAll {before fresh : List JsString} {depth maxDepth maxNodes : Nat} {s : BfsLevel}
    (h : @LevelPart neighborsOf start before depth maxDepth fresh s)
    (hbefore : ∀ v ∈ before, WithinDepth neighborsOf start maxDepth v)
    (hnear : ∀ v, WithinDepth neighborsOf start depth v → v ∈ before ∨ DistanceFrom neighborsOf start depth v)
    (hlimit : NotBinding neighborsOf start maxNodes maxDepth) (hdepth : depth ≤ maxDepth) {level : List (JsString × Nat)}
    (hlevel : ∀ entry ∈ level, entry.2 = depth ∧ WithinDepth neighborsOf start depth entry.1)
    (hsorted : level.Pairwise fun entry other => entry.1 ≤ other.1) (hless : ∀ v ∈ fresh, ∀ entry ∈ level, v ≤ entry.1) :
    ∃ added, (∀ v ∈ levelIds level, v ∈ before ++ (fresh ++ added)) ∧
      @LevelPart neighborsOf start before depth maxDepth (fresh ++ added)
        (level.foldl (bfsVisit neighborsOf maxNodes maxDepth) s) := by
  induction level generalizing fresh s with
  | nil => exact ⟨[], nofun, by rwa [List.append_nil]⟩
  | cons entry rest ih =>
      obtain ⟨u, k⟩ := entry
      obtain ⟨hk, hu⟩ := hlevel (u, k) List.mem_cons_self
      obtain rfl : k = depth := hk
      obtain ⟨hfirst, hrest⟩ := List.pairwise_cons.mp hsorted
      obtain ⟨added, hadded, hmem, hpart⟩ := h.visit hbefore hnear hlimit hdepth hu fun v hv =>
        hless v hv _ List.mem_cons_self
      obtain ⟨more, hmore, hlast⟩ := ih hpart (fun entry hentry => hlevel entry (List.mem_cons_of_mem _ hentry)) hrest (by
        intro v hv entry hentry
        rcases List.mem_append.mp hv with hv | hv
        · exact hless v hv entry (List.mem_cons_of_mem _ hentry)
        · exact hadded v hv ▸ hfirst entry hentry)
      rw [List.append_assoc] at hmore hlast
      refine ⟨added ++ more, ?_, hlast⟩
      intro v hv
      rcases List.mem_cons.mp hv with rfl | hv
      · rw [← List.append_assoc, ← List.append_assoc, List.append_assoc before]
        exact List.mem_append_left _ hmem
      · exact hmore v hv

/-- The state before the level of a distance. -/
structure BeforeLevel (neighborsOf : JsString → List NeighborEdge) (start : JsString) (maxDepth depth : Nat) (s : Bfs) :
    Prop where
  result : s.result = s.visited.elems
  visited : ∀ v, v ∈ s.visited ↔ ∃ n, n < depth ∧ DistanceFrom neighborsOf start n v
  sorted : s.result.Pairwise (Earlier neighborsOf start)
  level : ∀ entry ∈ s.currentLevel, entry.2 = depth ∧ WithinDepth neighborsOf start depth entry.1
  covers : depth ≤ maxDepth → ∀ v, DistanceFrom neighborsOf start depth v → v ∈ levelIds s.currentLevel

theorem beforeLevel_start (maxDepth : Nat) :
    BeforeLevel neighborsOf start maxDepth 0 ⟨.empty, [], [(start, 0)]⟩ := by
  refine ⟨rfl, fun v => ?_, List.Pairwise.nil, fun entry hentry => ?_, fun _ v hv => ?_⟩
  · simp
  · rw [List.mem_singleton] at hentry
    subst hentry
    exact ⟨rfl, 0, le_rfl, distanceFrom_zero_iff.mpr rfl⟩
  · rw [distanceFrom_zero_iff.mp hv]
    exact List.mem_singleton_self _

theorem levelIds_perm {level level' : List (JsString × Nat)} (h : level.Perm level') :
    (levelIds level).Perm (levelIds level') := h.map Prod.fst

/-- Each level lists the nodes of the next distance. -/
theorem BeforeLevel.step {maxNodes maxDepth depth : Nat} {s s' : Bfs}
    (h : BeforeLevel neighborsOf start maxDepth depth s) (hlimit : NotBinding neighborsOf start maxNodes maxDepth)
    (hdepth : depth ≤ maxDepth) (hstep : bfsStep neighborsOf maxNodes maxDepth s = some s') :
    BeforeLevel neighborsOf start maxDepth (depth + 1) s' := by
  unfold bfsStep at hstep
  split at hstep
  · cases hstep
  rw [Option.some.injEq] at hstep
  have hnear : ∀ v, WithinDepth neighborsOf start depth v →
      v ∈ s.visited.elems ∨ DistanceFrom neighborsOf start depth v := by
    intro v hv
    obtain ⟨n, hn, hdistance⟩ := hv
    rcases Nat.lt_or_eq_of_le hn with hless | rfl
    · exact .inl ((h.visited v).mpr ⟨n, hless, hdistance⟩)
    · exact .inr hdistance
  have hbefore : ∀ v ∈ s.visited.elems, WithinDepth neighborsOf start maxDepth v := by
    intro v hv
    obtain ⟨n, hn, hdistance⟩ := (h.visited v).mp hv
    exact ⟨n, by omega, hdistance⟩
  have hfirst : @LevelPart neighborsOf start s.visited.elems depth maxDepth []
      ⟨s.visited, s.result, [], .empty⟩ := by
    refine ⟨(List.append_nil _).symm, ?_, List.Pairwise.nil, nofun, nofun, fun _ => nofun, fun v => by simp [levelIds]⟩
    rw [List.append_nil]
    exact h.result
  have hperm : (sortLevel s.currentLevel).Perm s.currentLevel := List.perm_insertionSort _ _
  have hsorted : (sortLevel s.currentLevel).Pairwise fun entry other => entry.1 ≤ other.1 :=
    Lists.pairwise_insertionSort_key _ Prod.fst (fun _ _ hle => hle) (fun _ _ hnle => (not_le.mp hnle).le) _
  obtain ⟨fresh, hids, hpart⟩ := hfirst.visitAll hbefore hnear hlimit hdepth
    (fun entry hentry => h.level entry (hperm.mem_iff.mp hentry)) hsorted nofun
  rw [List.nil_append] at hids hpart
  have hcovered : ∀ v, DistanceFrom neighborsOf start depth v → v ∈ s.visited.elems ++ fresh := by
    intro v hv
    exact hids v ((levelIds_perm hperm).mem_iff.mpr (h.covers hdepth v hv))
  subst hstep
  have hvisited : ∀ v, v ∈ s.visited.elems ++ fresh ↔ ∃ n, n < depth + 1 ∧ DistanceFrom neighborsOf start n v := by
    intro v
    constructor
    · intro hv
      rcases List.mem_append.mp hv with hv | hv
      · obtain ⟨n, hn, hdistance⟩ := (h.visited v).mp hv
        exact ⟨n, by omega, hdistance⟩
      · exact ⟨depth, by omega, hpart.distance v hv⟩
    · intro hv
      obtain ⟨n, hn, hdistance⟩ := hv
      rcases Nat.lt_or_eq_of_le (Nat.le_of_lt_succ hn) with hless | rfl
      · exact List.mem_append_left _ ((h.visited v).mpr ⟨n, hless, hdistance⟩)
      · exact hcovered v hdistance
  refine ⟨hpart.result.trans hpart.elems.symm, fun v => ?_, ?_, fun entry hentry => ?_, fun hle v hv => ?_⟩
  · rw [← hvisited, JsSet.mem_def, hpart.elems]
  · dsimp only
    rw [hpart.result]
    refine List.pairwise_append.mpr ⟨h.result ▸ h.sorted, ?_, fun u hu v hv n m hn hm => ?_⟩
    · refine List.Pairwise.imp_of_mem ?_ hpart.sorted
      intro u v hu hv hless n m hn hm
      exact .inr ⟨(hn.unique (hpart.distance u hu)).trans ((hpart.distance v hv).unique hm), hless⟩
    · obtain ⟨k, hk, hdistance⟩ := (h.visited u).mp hu
      left
      rw [hn.unique hdistance, hm.unique (hpart.distance v hv)]
      exact hk
  · obtain ⟨hentry, u, hu, hstep⟩ := hpart.next entry hentry
    exact ⟨hentry, WithinDepth.step (hpart.distance u hu) hstep⟩
  · obtain ⟨⟨u, hu, hstep⟩, hfar⟩ := distance_succ_iff.mp hv
    have hunvisited : v ∉ s.visited.elems ++ fresh := by
      intro hmem
      obtain ⟨n, hn, hdistance⟩ := (hvisited v).mp hmem
      exact hfar n (by omega) hdistance
    have hfresh : u ∈ fresh := by
      refine (List.mem_append.mp (hcovered u hu)).resolve_left fun hmem => ?_
      obtain ⟨n, hn, hdistance⟩ := (h.visited u).mp hmem
      exact absurd (hu.unique hdistance) (by omega)
    refine (hpart.closed (by omega) u hfresh v hstep).resolve_left fun hmem => hunvisited ?_
    rw [← hpart.elems]
    exact hmem

/-- The breadth-first search lists the nodes within the depth, by their distances and then by their ids. -/
theorem bfs_listing {maxNodes maxDepth : Nat} (hlimit : NotBinding neighborsOf start maxNodes maxDepth) :
    (∀ v, v ∈ (While.loop (bfsStep neighborsOf maxNodes maxDepth) (maxDepth + 1) ⟨.empty, [], [(start, 0)]⟩).result ↔
      WithinDepth neighborsOf start maxDepth v) ∧
    (While.loop (bfsStep neighborsOf maxNodes maxDepth) (maxDepth + 1) ⟨.empty, [], [(start, 0)]⟩).result.Pairwise
      (Earlier neighborsOf start) := by
  have hturns : ∀ turn s s', (turn ≤ maxDepth + 1 → BeforeLevel neighborsOf start maxDepth turn s) →
      bfsStep neighborsOf maxNodes maxDepth s = some s' →
      turn + 1 ≤ maxDepth + 1 → BeforeLevel neighborsOf start maxDepth (turn + 1) s' :=
    fun turn s s' h hstep hle => (h (by omega)).step hlimit (by omega) hstep
  obtain ⟨turns, hle, hlast, hend⟩ := While.loop_counted hturns (maxDepth + 1) fun _ => beforeLevel_start maxDepth
  generalize While.loop (bfsStep neighborsOf maxNodes maxDepth) (maxDepth + 1) ⟨.empty, [], [(start, 0)]⟩ = s at hlast hend
  have h := hlast hle
  refine ⟨fun v => ?_, h.sorted⟩
  rw [h.result, JsSet.mem_elems, h.visited]
  constructor
  · intro hv
    obtain ⟨n, hn, hdistance⟩ := hv
    exact ⟨n, by omega, hdistance⟩
  · intro hv
    rcases hend with rfl | hstop
    · obtain ⟨n, hn, hdistance⟩ := hv
      exact ⟨n, by omega, hdistance⟩
    · by_cases hfull : turns = maxDepth + 1
      · obtain ⟨n, hn, hdistance⟩ := hv
        exact ⟨n, by omega, hdistance⟩
      · unfold bfsStep at hstop
        split at hstop
        · rename_i hdone
          rcases hdone with hempty | hbound
          · apply withinDepth_of_empty _ hv
            intro u hu
            have hmem := h.covers (by omega) u hu
            rw [hempty] at hmem
            cases hmem
          · rw [← h.visited]
            by_contra hnew
            have hroom := hlimit.room s.visited ?_ hv hnew
            · omega
            · intro u hu
              obtain ⟨n, hn, hdistance⟩ := (h.visited u).mp hu
              exact ⟨n, by omega, hdistance⟩
        · cases hstop

end Listing

section Results

variable {provider : NeighborProvider} {direction : Direction} {options : Option (List JsString)}

theorem validateStart_of_node {start : JsString} (hstart : provider.hasNode start = true) :
    validateStart provider start = .ok () := by
  rw [validateStart, if_pos hstart]
  rfl

theorem WithinDepth.mem_nodes {start v : JsString} {depth : Nat} (hstart : provider.hasNode start = true)
    (h : WithinDepth (neighborsOf provider direction options) start depth v) : v ∈ provider.nodes := by
  have hsteps : ∀ n v, StepsTo (Step (neighborsOf provider direction options)) {v | v = start} n v →
      v ∈ provider.nodes := by
    intro n v hsteps
    cases hsteps with
    | start heq =>
        rw [show v = start from heq]
        exact List.contains_iff_mem.mp hstart
    | step _ hstep => exact step_mem_nodes _ _ hstep
  obtain ⟨n, -, hdistance⟩ := h
  exact hsteps n v hdistance.1

/-- A limit that is no less than the number of nodes does not bind. -/
theorem notBinding_of_nodes {start : JsString} {maxNodes maxDepth : Nat} (hstart : provider.hasNode start = true)
    (hnodes : provider.nodes.length ≤ maxNodes) :
    NotBinding (neighborsOf provider direction options) start maxNodes maxDepth := by
  intro visited hnodup hvisited
  exact (List.subperm_of_subset hnodup fun v hv => (hvisited v hv).mem_nodes hstart).length_le.trans hnodes

theorem bfs_spec {start : JsString} {maxNodes maxDepth : Nat} (hstart : provider.hasNode start = true)
    (hlimit : NotBinding (neighborsOf provider direction options) start maxNodes maxDepth) :
    ∃ nodes, bfs provider direction options start maxNodes maxDepth = .ok nodes ∧
      (∀ v, v ∈ nodes ↔ WithinDepth (neighborsOf provider direction options) start maxDepth v) ∧
      nodes.Pairwise (Earlier (neighborsOf provider direction options) start) := by
  obtain ⟨hmem, hsorted⟩ := bfs_listing hlimit
  refine ⟨_, ?_, hmem, hsorted⟩
  rw [bfs, validateStart_of_node hstart]
  rfl

end Results

end GraphTraversal

end GitWarp
