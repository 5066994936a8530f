import GitWarp.TraversalSearch

/-! Searches for a goal: the shortest path and reachability find it where the breadth-first search lists it. -/

namespace GitWarp
open Js Layers

namespace GraphTraversal

/-! ### The search for a path -/

section Paths

variable {neighborsOf : JsString → List NeighborEdge} {start goal : JsString}

/-- Each visited node but the start has a visited parent one step nearer. -/
structure Parents (neighborsOf : JsString → List NeighborEdge) (start goal : JsString) (maxDepth : Nat)
    (s : PathSearch) : Prop where
  hasStart : start ∈ s.visited
  within : ∀ v ∈ s.visited, WithinDepth neighborsOf start maxDepth v
  parent : ∀ v ∈ s.visited, v ≠ start → ∃ u n, s.parent.get v = some u ∧ u ∈ s.visited ∧ Step neighborsOf u v ∧
    DistanceFrom neighborsOf start n u ∧ DistanceFrom neighborsOf start (n + 1) v
  found : s.found = true → goal ∈ s.visited

/-- A search that has not met its goal, in the middle of a layer. -/
structure LayerPart (neighborsOf : JsString → List NeighborEdge) (start goal : JsString) (depth : Nat)
    (s : PathSearch) : Prop where
  visited : ∀ v, v ∈ s.visited ↔ WithinDepth neighborsOf start depth v ∨ v ∈ levelIds s.nextFrontier
  next : ∀ entry ∈ s.nextFrontier, entry.2 = depth + 1 ∧ DistanceFrom neighborsOf start (depth + 1) entry.1
  unmet : goal ∉ s.visited

theorem searchNeighbor_spec {maxDepth depth : Nat} {s : PathSearch} (h : Parents neighborsOf start goal maxDepth s)
    (hpart : s.found = false → LayerPart neighborsOf start goal depth s) (hdepth : depth < maxDepth) {u : JsString}
    (hu : DistanceFrom neighborsOf start depth u) {v : JsString} (hstep : Step neighborsOf u v) :
    Parents neighborsOf start goal maxDepth (searchNeighbor goal u depth s v) ∧
      (∀ w ∈ s.visited, w ∈ (searchNeighbor goal u depth s v).visited) ∧
      ((searchNeighbor goal u depth s v).found = false → s.found = false ∧ v ∈ (searchNeighbor goal u depth s v).visited ∧
        LayerPart neighborsOf start goal depth (searchNeighbor goal u depth s v)) := by
  cases hfound : s.found with
  | true =>
      have hsame : searchNeighbor goal u depth s v = s := by
        unfold searchNeighbor
        rw [hfound]
        rfl
      rw [hsame]
      exact ⟨h, fun w hw => hw, fun hnot => absurd (hnot.symm.trans hfound) Bool.false_ne_true⟩
  | false =>
      have hlayer := hpart hfound
      by_cases hvisited : v ∈ s.visited
      · have hsame : searchNeighbor goal u depth s v = s := by
          unfold searchNeighbor
          rw [hfound, if_pos (by simpa using hvisited)]
        rw [hsame]
        exact ⟨h, fun w hw => hw, fun _ => ⟨rfl, hvisited, hlayer⟩⟩
      · have hdistance : DistanceFrom neighborsOf start (depth + 1) v := by
          apply distance_of_step hu hstep
          exact fun hnear => hvisited ((hlayer.visited v).mpr (.inl hnear))
        have humem : u ∈ s.visited := (hlayer.visited u).mpr (.inl ⟨depth, le_rfl, hu⟩)
        have hnew : Parents neighborsOf start goal maxDepth
            { s with visited := s.visited.add v, parent := s.parent.set v u } := by
          refine ⟨(JsSet.mem_add _ _ _).mpr (.inr h.hasStart), ?_, ?_, fun hmet =>
            absurd (hfound.symm.trans hmet) Bool.false_ne_true⟩
          · intro w hw
            rcases (JsSet.mem_add _ _ _).mp hw with rfl | hw
            · exact ⟨depth + 1, hdepth, hdistance⟩
            · exact h.within w hw
          · intro w hw hne
            dsimp only
            rcases (JsSet.mem_add _ _ _).mp hw with rfl | hw
            · exact ⟨u, depth, JsMap.get_set_self _ _ _, (JsSet.mem_add _ _ _).mpr (.inr humem), hstep, hu, hdistance⟩
            · obtain ⟨x, n, hget, hx, hrest⟩ := h.parent w hw hne
              refine ⟨x, n, ?_, (JsSet.mem_add _ _ _).mpr (.inr hx), hrest⟩
              rw [JsMap.get_set_of_ne _ _ fun heq : w = v => hvisited (heq ▸ hw)]
              exact hget
        have hmono : ∀ w ∈ s.visited, w ∈ s.visited.add v := fun w hw => (JsSet.mem_add _ _ _).mpr (.inr hw)
        have hself : v ∈ s.visited.add v := (JsSet.mem_add _ _ _).mpr (.inl rfl)
        unfold searchNeighbor
        rw [hfound, if_neg (by simpa using hvisited)]
        dsimp only
        split
        · rename_i hgoal
          refine ⟨⟨hnew.hasStart, hnew.within, hnew.parent, fun _ => hgoal ▸ hself⟩, hmono, fun hnot =>
            absurd hnot.symm Bool.false_ne_true⟩
        · rename_i hgoal
          refine ⟨⟨hnew.hasStart, hnew.within, hnew.parent, fun hmet => absurd hmet Bool.false_ne_true⟩, hmono,
            fun _ => ⟨rfl, hself, ?_, ?_, ?_⟩⟩
          · intro w
            rw [JsSet.mem_add, hlayer.visited, levelIds, levelIds, List.map_append, List.mem_append, List.map_singleton,
              List.mem_singleton]
            tauto
          · intro entry hentry
            rcases List.mem_append.mp hentry with hentry | hentry
            · exact hlayer.next entry hentry
            · rw [List.mem_singleton] at hentry
              subst hentry
              exact ⟨rfl, hdistance⟩
          · rw [JsSet.mem_add, not_or]
            exact ⟨fun heq => hgoal heq.symm, hlayer.unmet⟩

theorem searchNeighbors_spec {maxDepth depth : Nat} (hdepth : depth < maxDepth) {u : JsString}
    (hu : DistanceFrom neighborsOf start depth u) (ids : List JsString) (hids : ∀ v ∈ ids, Step neighborsOf u v)
    {s : PathSearch} (h : Parents neighborsOf start goal maxDepth s)
    (hpart : s.found = false → LayerPart neighborsOf start goal depth s) :
    Parents neighborsOf start goal maxDepth (ids.foldl (searchNeighbor goal u depth) s) ∧
      (∀ w ∈ s.visited, w ∈ (ids.foldl (searchNeighbor goal u depth) s).visited) ∧
      ((ids.foldl (searchNeighbor goal u depth) s).found = false → s.found = false ∧
        (∀ v ∈ ids, v ∈ (ids.foldl (searchNeighbor goal u depth) s).visited) ∧
        LayerPart neighborsOf start goal depth (ids.foldl (searchNeighbor goal u depth) s)) := by
  induction ids generalizing s with
  | nil => exact ⟨h, fun w hw => hw, fun hnot => ⟨hnot, nofun, hpart hnot⟩⟩
  | cons v rest ih =>
      obtain ⟨hfirst, hmono, hlayer⟩ := searchNeighbor_spec h hpart hdepth hu (hids v List.mem_cons_self)
      obtain ⟨hlast, hmono', hlayer'⟩ := ih (fun w hw => hids w (List.mem_cons_of_mem _ hw)) hfirst
        fun hnot => (hlayer hnot).2.2
      rw [List.foldl_cons]
      refine ⟨hlast, fun w hw => hmono' w (hmono w hw), fun hnot => ?_⟩
      obtain ⟨hnot', hrest, hend⟩ := hlayer' hnot
      obtain ⟨hnot'', hv, -⟩ := hlayer hnot'
      refine ⟨hnot'', fun w hw => ?_, hend⟩
      rcases List.mem_cons.mp hw with rfl | hw
      · exact hmono' _ hv
      · exact hrest w hw

/-- A whole layer. -/
theorem searchLayer_spec {maxDepth depth : Nat} (hdepth : depth < maxDepth) {level : List (JsString × Nat)}
    (hlevel : ∀ entry ∈ level, entry.2 = depth ∧ DistanceFrom neighborsOf start depth entry.1)
    {s : PathSearch} (h : Parents neighborsOf start goal maxDepth s)
    (hpart : s.found = false → LayerPart neighborsOf start goal depth s) :
    Parents neighborsOf start goal maxDepth (level.foldl (searchNode neighborsOf goal maxDepth) s) ∧
      (∀ w ∈ s.visited, w ∈ (level.foldl (searchNode neighborsOf goal maxDepth) s).visited) ∧
      ((level.foldl (searchNode neighborsOf goal maxDepth) s).found = false → s.found = false ∧
        (∀ u ∈ levelIds level, ∀ v, Step neighborsOf u v →
          v ∈ (level.foldl (searchNode neighborsOf goal maxDepth) s).visited) ∧
        LayerPart neighborsOf start goal depth (level.foldl (searchNode neighborsOf goal maxDepth) s)) := by
  induction level generalizing s with
  | nil => exact ⟨h, fun w hw => hw, fun hnot => ⟨hnot, nofun, hpart hnot⟩⟩
  | cons entry rest ih =>
      obtain ⟨u, k⟩ := entry
      obtain ⟨hk, hu⟩ := hlevel (u, k) List.mem_cons_self
      obtain rfl : k = depth := hk
      have hnode : searchNode neighborsOf goal maxDepth s (u, k) =
          (neighborIds (neighborsOf u)).foldl (searchNeighbor goal u k) s := by
        unfold searchNode
        rw [if_neg (not_le.mpr hdepth)]
      obtain ⟨hfirst, hmono, hlayer⟩ := searchNeighbors_spec hdepth hu (neighborIds (neighborsOf u))
        (fun v hv => hv) h hpart
      rw [← hnode] at hfirst hmono hlayer
      obtain ⟨hlast, hmono', hlayer'⟩ := ih (fun other hother => hlevel other (List.mem_cons_of_mem _ hother)) hfirst
        fun hnot => (hlayer hnot).2.2
      rw [List.foldl_cons]
      refine ⟨hlast, fun w hw => hmono' w (hmono w hw), fun hnot => ?_⟩
      obtain ⟨hnot', hrest, hend⟩ := hlayer' hnot
      obtain ⟨hnot'', hv, -⟩ := hlayer hnot'
      refine ⟨hnot'', fun w hw => ?_, hend⟩
      rcases List.mem_cons.mp hw with rfl | hw
      · exact fun v hstep => hmono' v (hv v hstep)
      · exact hrest w hw

/-- The state before the layer of a distance: the nodes nearer are visited, and the goal is none of them. -/
structure BeforeLayer (neighborsOf : JsString → List NeighborEdge) (start goal : JsString) (maxDepth depth : Nat)
    (s : PathSearch) : Prop where
  visited : ∀ v, v ∈ s.visited ↔ WithinDepth neighborsOf start (min depth maxDepth) v
  frontier : ∀ entry ∈ s.frontier, entry.2 = depth ∧ DistanceFrom neighborsOf start depth entry.1
  covers : depth ≤ maxDepth → ∀ v, DistanceFrom neighborsOf start depth v → v ∈ levelIds s.frontier
  unmet : goal ∉ s.visited

theorem searchStep_spec {maxNodes maxDepth depth : Nat} {s s' : PathSearch}
    (h : Parents neighborsOf start goal maxDepth s)
    (hlayer : s.found = false → BeforeLayer neighborsOf start goal maxDepth depth s)
    (hstep : searchStep neighborsOf goal maxNodes maxDepth s = some s') :
    Parents neighborsOf start goal maxDepth s' ∧
      (s'.found = false → BeforeLayer neighborsOf start goal maxDepth (depth + 1) s') := by
  unfold searchStep at hstep
  split at hstep
  · cases hstep
  rename_i hgo
  rw [not_or, Bool.not_eq_true] at hgo
  have hbefore := hlayer hgo.1
  have hperm : (sortLevel s.frontier).Perm s.frontier := List.perm_insertionSort _ _
  have hlevel : ∀ entry ∈ sortLevel s.frontier, entry.2 = depth ∧ DistanceFrom neighborsOf start depth entry.1 :=
    fun entry hentry => hbefore.frontier entry (hperm.mem_iff.mp hentry)
  have hfirst : Parents neighborsOf start goal maxDepth { s with nextFrontier := [] } :=
    ⟨h.hasStart, h.within, h.parent, h.found⟩
  rw [Option.some.injEq] at hstep
  subst hstep
  by_cases hdepth : depth < maxDepth
  · have hmin : min depth maxDepth = depth := min_eq_left hdepth.le
    have hpart : LayerPart neighborsOf start goal depth { s with nextFrontier := [] } := by
      refine ⟨fun v => ?_, List.forall_mem_nil _, hbefore.unmet⟩
      rw [hbefore.visited, hmin]
      simp [levelIds]
    obtain ⟨hlast, hmono, hend⟩ := searchLayer_spec hdepth hlevel hfirst fun _ => hpart
    refine ⟨⟨hlast.hasStart, hlast.within, hlast.parent, hlast.found⟩, fun hnot => ?_⟩
    obtain ⟨-, hsteps, hpart'⟩ := hend hnot
    have hreached : ∀ v, DistanceFrom neighborsOf start (depth + 1) v →
        v ∈ ((sortLevel s.frontier).foldl (searchNode neighborsOf goal maxDepth) { s with nextFrontier := [] }).visited := by
      intro v hv
      obtain ⟨⟨u, hu, hstep⟩, -⟩ := distance_succ_iff.mp hv
      exact hsteps u ((levelIds_perm hperm).mem_iff.mpr (hbefore.covers hdepth.le u hu)) v hstep
    refine ⟨fun v => ?_, hpart'.next, fun _ v hv => ?_, hpart'.unmet⟩
    · dsimp only
      rw [min_eq_left hdepth, withinDepth_succ_iff, hpart'.visited]
      constructor
      · intro hv
        refine hv.imp_right fun hmem => ?_
        obtain ⟨entry, hentry, rfl⟩ := List.mem_map.mp hmem
        exact (hpart'.next entry hentry).2
      · intro hv
        rcases hv with hv | hv
        · exact .inl hv
        · exact (hpart'.visited v).mp (hreached v hv)
    · refine ((hpart'.visited v).mp (hreached v hv)).resolve_left fun hnear => ?_
      obtain ⟨n, hn, hdistance⟩ := hnear
      exact absurd (hv.unique hdistance) (by omega)
  · have hsame : ∀ (level : List (JsString × Nat)) (s : PathSearch), (∀ entry ∈ level, entry.2 = depth) →
        level.foldl (searchNode neighborsOf goal maxDepth) s = s := by
      intro level s hall
      induction level generalizing s with
      | nil => rfl
      | cons entry rest ih =>
          have hskip : searchNode neighborsOf goal maxDepth s entry = s := by
            unfold searchNode
            rw [if_pos (by rw [hall entry List.mem_cons_self]; omega)]
          rw [List.foldl_cons, hskip, ih _ fun other hother => hall other (List.mem_cons_of_mem _ hother)]
    rw [hsame _ _ fun entry hentry => (hlevel entry hentry).1]
    refine ⟨⟨h.hasStart, h.within, h.parent, h.found⟩, fun _ =>
      ⟨fun v => ?_, List.forall_mem_nil _, fun hle => ?_, hbefore.unmet⟩⟩
    · dsimp only
      rw [hbefore.visited, min_eq_right (by omega), min_eq_right (by omega)]
    · omega

theorem beforeLayer_start {maxDepth : Nat} (hne : start ≠ goal) :
    Parents neighborsOf start goal maxDepth ⟨.ofList [start], .empty, [(start, 0)], [], false⟩ ∧
      BeforeLayer neighborsOf start goal maxDepth 0 ⟨.ofList [start], .empty, [(start, 0)], [], false⟩ := by
  have hself : DistanceFrom neighborsOf start 0 start := distanceFrom_zero_iff.mpr rfl
  have hmem : ∀ v, v ∈ JsSet.ofList [start] ↔ v = start := fun v => by simp
  refine ⟨⟨(hmem start).mpr rfl, ?_, ?_, nofun⟩, ⟨fun v => ?_, ?_, fun _ v hv => ?_, ?_⟩⟩
  · intro v hv
    rw [(hmem v).mp hv]
    exact ⟨0, Nat.zero_le _, hself⟩
  · exact fun v hv hother => absurd ((hmem v).mp hv) hother
  · rw [hmem, Nat.zero_min]
    constructor
    · intro hv
      exact ⟨0, le_rfl, distanceFrom_zero_iff.mpr hv⟩
    · intro hv
      obtain ⟨n, hn, hdistance⟩ := hv
      obtain rfl := Nat.le_zero.mp hn
      exact distanceFrom_zero_iff.mp hdistance
  · intro entry hentry
    rw [List.mem_singleton] at hentry
    subst hentry
    exact ⟨rfl, hself⟩
  · rw [distanceFrom_zero_iff.mp hv]
    exact List.mem_singleton_self _
  · rw [hmem]
    exact fun heq => hne heq.symm

/-- The search is found exactly where the goal lies within the depth. -/
theorem search_found_iff {maxNodes maxDepth : Nat} (hlimit : NotBinding neighborsOf start maxNodes maxDepth)
    (hne : start ≠ goal) {s : PathSearch}
    (hs : s = While.loop (searchStep neighborsOf goal maxNodes maxDepth) (maxDepth + 1)
      ⟨.ofList [start], .empty, [(start, 0)], [], false⟩) :
    Parents neighborsOf start goal maxDepth s ∧ (s.found = true ↔ WithinDepth neighborsOf start maxDepth goal) := by
  obtain ⟨hparents, hfirst⟩ := @beforeLayer_start neighborsOf _ _ maxDepth hne
  have hturns : ∀ turn s s', (Parents neighborsOf start goal maxDepth s ∧
      (s.found = false → BeforeLayer neighborsOf start goal maxDepth turn s)) →
      searchStep neighborsOf goal maxNodes maxDepth s = some s' →
      Parents neighborsOf start goal maxDepth s' ∧
        (s'.found = false → BeforeLayer neighborsOf start goal maxDepth (turn + 1) s') :=
    fun turn s s' h hstep => searchStep_spec h.1 h.2 hstep
  obtain ⟨turns, hle, ⟨hlast, hlayer⟩, hend⟩ := While.loop_counted hturns (maxDepth + 1) ⟨hparents, fun _ => hfirst⟩
  rw [← hs] at hlast hlayer hend
  refine ⟨hlast, fun hfound => hlast.within goal (hlast.found hfound), fun hgoal => ?_⟩
  by_contra hnot
  rw [Bool.not_eq_true] at hnot
  have hbefore := hlayer hnot
  apply hbefore.unmet
  rw [hbefore.visited]
  by_cases hfull : maxDepth ≤ turns
  · rwa [min_eq_right hfull]
  · rcases hend with rfl | hstop
    · omega
    · unfold searchStep at hstop
      split at hstop
      · rename_i hdone
        rcases hdone with hfound | hempty | hbound
        · exact absurd (hnot.symm.trans hfound) nofun
        · obtain ⟨n, hn, hdistance⟩ := withinDepth_of_empty (fun u (hu : DistanceFrom neighborsOf start turns u) => by
            have hmem := hbefore.covers (by omega) u hu
            rw [hempty] at hmem
            cases hmem) hgoal
          exact ⟨n, by omega, hdistance⟩
        · exact absurd (hlimit.room _ hlast.within hgoal hbefore.unmet) (not_lt.mpr hbound)
      · cases hstop

/-- A step that counts one. -/
def CountedArc (neighborsOf : JsString → List NeighborEdge) (u v : JsString) (w : Int) : Prop :=
  Step neighborsOf u v ∧ w = 1

/-- A path of steps, by the nodes on it. -/
structure IsPath (neighborsOf : JsString → List NeighborEdge) (start goal : JsString) (path : List JsString) : Prop where
  head : path.head? = some start
  last : path.getLast? = some goal
  steps : path.IsChain (Step neighborsOf)

theorem IsPath.of_walk {u t : JsString} {path : List JsString} {c : Int} (h : IsWalk (CountedArc neighborsOf) u t path c) :
    IsPath neighborsOf u t path ∧ (path.length : Int) = c + 1 := by
  induction h with
  | nil v => exact ⟨⟨rfl, rfl, List.isChain_singleton v⟩, rfl⟩
  | @cons u v t path w c harc hwalk ih =>
      obtain ⟨⟨hhead, hlast, hsteps⟩, hlength⟩ := ih
      obtain ⟨rest, rfl⟩ := List.head?_eq_some_iff.mp hhead
      refine ⟨⟨rfl, ?_, List.isChain_cons_cons.mpr ⟨harc.1, hsteps⟩⟩, ?_⟩
      · rw [List.getLast?_cons_cons]
        exact hlast
      · rw [List.length_cons, Int.natCast_succ, hlength, harc.2, add_comm c]

/-- The walk back along the parents is a path of the goal's distance. -/
theorem Parents.path {maxDepth : Nat} {s : PathSearch} (h : Parents neighborsOf start goal maxDepth s)
    (hgoal : goal ∈ s.visited) : ∃ n, n ≤ maxDepth ∧ DistanceFrom neighborsOf start n goal ∧
      IsPath neighborsOf start goal (reconstructPath s.parent maxDepth start goal) ∧
      ((reconstructPath s.parent maxDepth start goal).length : Int) = n + 1 := by
  classical
  let position : JsString → Nat := fun v => if hv : ∃ n, DistanceFrom neighborsOf start n v then hv.choose else 0
  have hposition : ∀ {n v}, DistanceFrom neighborsOf start n v → position v = n := by
    intro n v hdistance
    have hexists : ∃ n, DistanceFrom neighborsOf start n v := ⟨n, hdistance⟩
    change (if hv : ∃ n, DistanceFrom neighborsOf start n v then hv.choose else 0) = n
    rw [dif_pos hexists]
    exact hexists.choose_spec.unique hdistance
  obtain ⟨n, hn, hdistance⟩ := h.within goal hgoal
  have hzero : (position start : Int) = 0 := by
    rw [hposition (distanceFrom_zero_iff.mpr rfl)]
    rfl
  have hprev : ∀ v, v ∈ s.visited → v ≠ start → ∃ u w, s.parent.get v = some u ∧ u ∈ s.visited ∧
      position u < position v ∧ CountedArc neighborsOf u v w ∧ (position v : Int) = position u + w := by
    intro v hv hne
    obtain ⟨u, m, hget, hu, hstep, hdu, hdv⟩ := h.parent v hv hne
    refine ⟨u, 1, hget, hu, ?_, ⟨hstep, rfl⟩, ?_⟩
    · rw [hposition hdu, hposition hdv]
      exact Nat.lt_succ_self m
    · rw [hposition hdu, hposition hdv]
      exact Int.natCast_succ m
  have hbound : position goal ≤ maxDepth := by
    rw [hposition hdistance]
    exact hn
  have hwalk := reconstructPath_spec (fun v => (position v : Int)) (fun v => v ∈ s.visited) position hzero hprev hgoal hbound
  obtain ⟨hpath, hlength⟩ := IsPath.of_walk hwalk
  rw [hposition hdistance] at hlength
  exact ⟨n, hn, hdistance, hpath, hlength⟩

end Paths

/-! ### The search for reachability -/

section Reaching

variable {neighborsOf : JsString → List NeighborEdge} {start goal : JsString}

/-- What the neighbors of a node add to a search that looks for its goal among them. -/
theorem reachNeighbors_spec (ids : List JsString) (s : Reach) :
    ((ids.foldl (reachNeighbor goal) s).reachable = true ↔ s.reachable = true ∨ goal ∈ ids) ∧
    ((ids.foldl (reachNeighbor goal) s).reachable = false →
      (∀ v, v ∈ (ids.foldl (reachNeighbor goal) s).visited ↔ v ∈ s.visited ∨ v ∈ ids) ∧
      (∀ v, v ∈ (ids.foldl (reachNeighbor goal) s).nextFrontier ↔ v ∈ s.nextFrontier ∨ v ∈ ids ∧ v ∉ s.visited)) ∧
    (ids.foldl (reachNeighbor goal) s).depth = s.depth := by
  induction ids generalizing s with
  | nil => simp
  | cons id rest ih =>
      obtain ⟨hreach, hmore, hdepth⟩ := ih (reachNeighbor goal s id)
      rw [List.foldl_cons]
      cases hfound : s.reachable with
      | true =>
          have hsame : reachNeighbor goal s id = s := by
            unfold reachNeighbor
            rw [if_pos hfound]
          rw [hsame] at hreach hmore hdepth ⊢
          rw [hfound] at hreach
          refine ⟨by simpa using hreach, fun hnot => ?_, hdepth⟩
          exact absurd ((hreach.mpr (.inl rfl)).symm.trans hnot) nofun
      | false =>
          by_cases hgoal : id = goal
          · have hend : reachNeighbor goal s id = { s with reachable := true } := by
              unfold reachNeighbor
              rw [hfound, if_neg Bool.false_ne_true, if_pos hgoal]
            rw [hend] at hreach hmore hdepth ⊢
            refine ⟨iff_of_true (hreach.mpr (.inl rfl)) (.inr (hgoal ▸ List.mem_cons_self)), fun hnot => ?_, hdepth⟩
            exact absurd ((hreach.mpr (.inl rfl)).symm.trans hnot) nofun
          · by_cases hvisited : id ∈ s.visited
            · have hsame : reachNeighbor goal s id = s := by
                unfold reachNeighbor
                rw [hfound, if_neg Bool.false_ne_true, if_neg hgoal, if_pos ((s.visited.has_iff id).mpr hvisited)]
              rw [hsame] at hreach hmore hdepth ⊢
              refine ⟨?_, fun hnot => ?_, hdepth⟩
              · rw [hreach, hfound]
                simp [Ne.symm hgoal]
              · obtain ⟨hall, hnext⟩ := hmore hnot
                constructor
                · grind
                · grind
            · have hnew : reachNeighbor goal s id =
                  { s with visited := s.visited.add id, nextFrontier := s.nextFrontier ++ [id] } := by
                unfold reachNeighbor
                rw [hfound, if_neg Bool.false_ne_true, if_neg hgoal, if_neg fun h => hvisited ((s.visited.has_iff id).mp h)]
              rw [hnew] at hreach hmore hdepth ⊢
              refine ⟨?_, fun hnot => ?_, hdepth⟩
              · rw [hreach, hfound]
                simp [Ne.symm hgoal]
              · obtain ⟨hall, hnext⟩ := hmore hnot
                constructor
                · intro v
                  rw [hall, JsSet.mem_add, List.mem_cons]
                  tauto
                · intro v
                  rw [hnext, JsSet.mem_add, List.mem_append, List.mem_singleton, List.mem_cons]
                  grind

/-- The state after a number of layers. -/
structure AfterLayers (neighborsOf : JsString → List NeighborEdge) (start goal : JsString) (maxDepth turns : Nat)
    (s : Reach) : Prop where
  depth : s.depth = turns
  reachable : s.reachable = true → WithinDepth neighborsOf start maxDepth goal
  visited : s.reachable = false → ∀ v, v ∈ s.visited ↔ WithinDepth neighborsOf start turns v
  frontier : s.reachable = false → ∀ v, v ∈ s.frontier ↔ DistanceFrom neighborsOf start turns v
  unmet : s.reachable = false → ¬ WithinDepth neighborsOf start turns goal

theorem AfterLayers.step {maxNodes maxDepth turns : Nat} {s s' : Reach}
    (h : AfterLayers neighborsOf start goal maxDepth turns s)
    (hstep : reachStep neighborsOf goal maxNodes maxDepth s = some s') :
    AfterLayers neighborsOf start goal maxDepth (turns + 1) s' := by
  unfold reachStep at hstep
  split at hstep
  · cases hstep
  rename_i hgo
  rw [not_or, not_or, not_or, Bool.not_eq_true] at hgo
  obtain ⟨hfound, -, hdepth, -⟩ := hgo
  rw [h.depth] at hdepth
  rw [Option.some.injEq, ← List.foldl_flatMap] at hstep
  subst hstep
  let ids := s.frontier.flatMap fun nodeId => neighborIds (neighborsOf nodeId)
  obtain ⟨hreach, hmore, hsame⟩ := @reachNeighbors_spec goal ids { s with nextFrontier := [] }
  have hids : ∀ v, v ∈ ids ↔ ∃ u, DistanceFrom neighborsOf start turns u ∧ Step neighborsOf u v := by
    intro v
    rw [List.mem_flatMap]
    exact exists_congr fun u => and_congr_left' (h.frontier hfound u)
  have hnew : ∀ v, (v ∈ ids ∧ v ∉ s.visited) ↔ DistanceFrom neighborsOf start (turns + 1) v := by
    intro v
    rw [distanceFrom_succ_iff, hids, h.visited hfound]
  have hnear : ∀ v, (v ∈ s.visited ∨ v ∈ ids) ↔ WithinDepth neighborsOf start (turns + 1) v := by
    intro v
    rw [withinDepth_succ_iff, ← h.visited hfound, ← hnew]
    tauto
  refine ⟨?_, fun hyes => ?_, fun hnot v => ?_, fun hnot v => ?_, fun hnot hwithin => ?_⟩
  · dsimp only
    rw [hsame, h.depth]
  · have hmem := (hreach.mp hyes).resolve_left fun heq => absurd (hfound.symm.trans heq) nofun
    exact ((hnear goal).mp (.inr hmem)).mono (by omega)
  · exact ((hmore hnot).1 v).trans (hnear v)
  · refine ((hmore hnot).2 v).trans ?_
    rw [← hnew]
    exact or_iff_right List.not_mem_nil
  · rcases withinDepth_succ_iff.mp hwithin with hwithin | hdistance
    · exact h.unmet hfound hwithin
    · have hmem := ((hnew goal).mpr hdistance).1
      exact absurd ((hreach.mpr (.inr hmem)).symm.trans hnot) nofun

theorem reach_found_iff {maxNodes maxDepth : Nat} (hlimit : NotBinding neighborsOf start maxNodes maxDepth)
    (hne : start ≠ goal) :
    (While.loop (reachStep neighborsOf goal maxNodes maxDepth) (maxDepth + 1)
      ⟨.ofList [start], [start], [], 0, false⟩).reachable = true ↔ WithinDepth neighborsOf start maxDepth goal := by
  have hzero : ∀ v, WithinDepth neighborsOf start 0 v ↔ v = start := by
    intro v
    rw [← @distanceFrom_zero_iff neighborsOf]
    constructor
    · intro h
      obtain ⟨n, hn, hdistance⟩ := h
      obtain rfl := Nat.le_zero.mp hn
      exact hdistance
    · exact fun h => ⟨0, le_rfl, h⟩
  have hfirst : AfterLayers neighborsOf start goal maxDepth 0 ⟨.ofList [start], [start], [], 0, false⟩ := by
    refine ⟨rfl, nofun, fun _ v => ?_, fun _ v => ?_, fun _ h => hne ((hzero goal).mp h).symm⟩
    · rw [hzero]
      simp
    · rw [distanceFrom_zero_iff]
      exact List.mem_singleton
  obtain ⟨turns, hle, hlast, hend⟩ := While.loop_counted (fun turn s s' h hstep => AfterLayers.step h hstep)
    (maxDepth + 1) hfirst
  generalize While.loop (reachStep neighborsOf goal maxNodes maxDepth) (maxDepth + 1)
    ⟨.ofList [start], [start], [], 0, false⟩ = s at hlast hend
  refine ⟨hlast.reachable, fun hgoal => ?_⟩
  by_contra hnot
  rw [Bool.not_eq_true] at hnot
  rcases hend with rfl | hstop
  · exact hlast.unmet hnot (hgoal.mono (by omega))
  · unfold reachStep at hstop
    split at hstop
    · rename_i hdone
      rcases hdone with hfound | hempty | hdeep | hbound
      · exact absurd (hnot.symm.trans hfound) nofun
      · obtain ⟨n, hn, hdistance⟩ := withinDepth_of_empty (fun u (hu : DistanceFrom neighborsOf start turns u) => by
          have hmem := (hlast.frontier hnot u).mpr hu
          rw [hempty] at hmem
          cases hmem) hgoal
        exact hlast.unmet hnot ⟨n, by omega, hdistance⟩
      · rw [hlast.depth] at hdeep
        exact hlast.unmet hnot (hgoal.mono hdeep)
      · by_cases hdeep : maxDepth ≤ turns
        · exact hlast.unmet hnot (hgoal.mono hdeep)
        · have hroom := hlimit.room s.visited (fun v hv =>
            ((hlast.visited hnot v).mp hv).mono (by omega)) hgoal fun hmem =>
              hlast.unmet hnot ((hlast.visited hnot goal).mp hmem)
          omega
    · cases hstop

end Reaching

section Agreement

variable {provider : NeighborProvider} {direction : Direction} {options : Option (List JsString)}

/-- What a search for a path returns: a path of the goal's distance, if the goal lies within the depth. -/
structure FoundWithin (neighborsOf : JsString → List NeighborEdge) (start goal : JsString) (maxDepth : Nat)
    (result : ShortestPath) : Prop where
  found_iff : result.found = true ↔ WithinDepth neighborsOf start maxDepth goal
  path : result.found = true → IsPath neighborsOf start goal result.path ∧
    ∃ n, DistanceFrom neighborsOf start n goal ∧ result.length = n ∧ result.path.length = n + 1
  noPath : result.found = false → result.path = [] ∧ result.length = -1

theorem shortestPath_spec {start goal : JsString} {maxNodes maxDepth : Nat} (hstart : provider.hasNode start = true)
    (hlimit : NotBinding (neighborsOf provider direction options) start maxNodes maxDepth) :
    ∃ result, shortestPath provider direction options start goal maxNodes maxDepth = .ok result ∧
      FoundWithin (neighborsOf provider direction options) start goal maxDepth result := by
  by_cases hne : start = goal
  · have hself : DistanceFrom (neighborsOf provider direction options) start 0 goal :=
      distanceFrom_zero_iff.mpr hne.symm
    refine ⟨⟨true, [start], 0⟩, ?_, ?_, fun _ => ⟨⟨rfl, ?_, List.isChain_singleton start⟩, 0, hself, rfl, rfl⟩, nofun⟩
    · rw [shortestPath, validateStart_of_node hstart, if_pos hne]
      rfl
    · exact iff_of_true rfl ⟨0, Nat.zero_le _, hself⟩
    · exact congrArg some hne
  · have heq : shortestPath provider direction options start goal maxNodes maxDepth =
        let s := While.loop (searchStep (neighborsOf provider direction options) goal maxNodes maxDepth) (maxDepth + 1)
          ⟨.ofList [start], .empty, [(start, 0)], [], false⟩
        if s.found then
          let path := reconstructPath s.parent maxDepth start goal
          .ok ⟨true, path, path.length - 1⟩
        else .ok ⟨false, [], -1⟩ := by
      rw [shortestPath, validateStart_of_node hstart, if_neg hne]
      rfl
    obtain ⟨hparents, hfound⟩ := search_found_iff hlimit hne rfl
    rw [heq]
    dsimp only
    split
    · rename_i hyes
      obtain ⟨n, hn, hdistance, hpath, hlength⟩ := hparents.path (hparents.found hyes)
      refine ⟨_, rfl, iff_of_true rfl (hfound.mp hyes), fun _ => ⟨hpath, n, hdistance, ?_, ?_⟩, nofun⟩
      · dsimp only
        omega
      · dsimp only
        omega
    · rename_i hno
      exact ⟨_, rfl, iff_of_false Bool.false_ne_true fun h => hno (hfound.mpr h), nofun, fun _ => ⟨rfl, rfl⟩⟩

theorem isReachable_iff {start goal : JsString} {maxNodes maxDepth : Nat}
    (hlimit : NotBinding (neighborsOf provider direction options) start maxNodes maxDepth) :
    isReachable provider direction options start goal maxNodes maxDepth = true ↔
      WithinDepth (neighborsOf provider direction options) start maxDepth goal := by
  unfold isReachable
  by_cases hne : start = goal
  · rw [if_pos hne]
    exact iff_of_true rfl ⟨0, Nat.zero_le _, distanceFrom_zero_iff.mpr hne.symm⟩
  · rw [if_neg hne]
    exact reach_found_iff hlimit hne

variable (provider direction options)

/-- What the three searches return for a start that is a node. -/
structure SearchesAgree (start goal : JsString) (maxNodes maxDepth : Nat) (nodes : List JsString)
    (result : ShortestPath) : Prop where
  listed : bfs provider direction options start maxNodes maxDepth = .ok nodes
  mem_iff : ∀ v, v ∈ nodes ↔ WithinDepth (neighborsOf provider direction options) start maxDepth v
  sorted : nodes.Pairwise (Earlier (neighborsOf provider direction options) start)
  searched : shortestPath provider direction options start goal maxNodes maxDepth = .ok result
  found_iff : result.found = true ↔ goal ∈ nodes
  path : result.found = true → IsPath (neighborsOf provider direction options) start goal result.path ∧
    ∃ n, DistanceFrom (neighborsOf provider direction options) start n goal ∧ result.length = n ∧
      result.path.length = n + 1
  reachable : isReachable provider direction options start goal maxNodes maxDepth = result.found

/-- Where `maxNodes` does not bind, the three searches agree on the nodes within the depth. -/
theorem searches_agree (start goal : JsString) (maxNodes maxDepth : Nat) (hstart : provider.hasNode start = true)
    (hlimit : NotBinding (neighborsOf provider direction options) start maxNodes maxDepth) :
    ∃ nodes result, SearchesAgree provider direction options start goal maxNodes maxDepth nodes result := by
  obtain ⟨nodes, hlisted, hmem, hsorted⟩ := bfs_spec hstart hlimit
  obtain ⟨result, hsearched, hfound⟩ := @shortestPath_spec _ _ _ _ goal _ _ hstart hlimit
  refine ⟨nodes, result, hlisted, hmem, hsorted, hsearched, hfound.found_iff.trans (hmem goal).symm, hfound.path, ?_⟩
  exact Bool.eq_iff_iff.mpr ((isReachable_iff hlimit).trans hfound.found_iff.symm)

/-- A tie between the ways to `c`, and a node beyond the depth. -/
def Example.twoWays : NeighborProvider :=
  Example.providerOf [js "s", js "a", js "b", js "c", js "d"]
    [(js "s", js "b"), (js "s", js "a"), (js "a", js "c"), (js "b", js "c"), (js "c", js "d")]

theorem searches_agree_twoWays :
    (∃ nodes result, SearchesAgree Example.twoWays .out none (js "s") (js "c") 5 2 nodes result) ∧
    (bfs Example.twoWays .out none (js "s") 5 2).toOption = some [js "s", js "a", js "b", js "c"] ∧
    (shortestPath Example.twoWays .out none (js "s") (js "c") 5 2).toOption = some ⟨true, [js "s", js "a", js "c"], 2⟩ :=
  ⟨searches_agree Example.twoWays .out none (js "s") (js "c") 5 2 (by decide)
    (notBinding_of_nodes (by decide) (by decide)), by decide +kernel, by decide +kernel⟩

end Agreement

end GraphTraversal

end GitWarp
