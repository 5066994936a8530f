import GitWarp.LibraryWalks
import GitWarp.TraversalCycles
import Mathlib.Tactic.Linarith

/-! Longest paths and levels along the topological order: what is computed node by node is the maximum over all walks. -/

namespace GitWarp
open Js ExceptLoops TopoOrder

namespace GraphTraversal

section Weights

variable (neighborsOf : JsString → List NeighborEdge) (weightFn : JsString → JsString → JsString → JsNumber)

/-- An edge with its weight, an integer; parallel edges may have several. -/
def WeightedArc (u v : JsString) (w : ℤ) : Prop :=
  ∃ edge ∈ neighborsOf u, edge.neighborId = v ∧ weightFn u v edge.label = .ofInt w

/-- Every edge that is reached weighs an integer, and every path from the start one that sums are exact up to. -/
structure SafeWeights (start : JsString) : Prop where
  integer : ∀ u, Reachable neighborsOf [start] u → ∀ edge ∈ neighborsOf u,
    ∃ w : ℤ, weightFn u edge.neighborId edge.label = .ofInt w
  bounded : ∀ v path c, IsWalk (WeightedArc neighborsOf weightFn) start v path c → |c| ≤ 2 ^ 53

/-- An edge that counts one. -/
def UnitArc (u v : JsString) (n : Nat) : Prop := Step neighborsOf u v ∧ n = 1

variable {neighborsOf weightFn}

theorem WeightedArc.step {u v : JsString} {w : ℤ} (h : WeightedArc neighborsOf weightFn u v w) : Step neighborsOf u v := by
  obtain ⟨edge, hedge, rfl, -⟩ := h
  exact List.mem_map_of_mem hedge

/-! ### Along the order -/

theorem LeastTopologicalOrder.idxOf_lt {starts sorted : List JsString} (h : LeastTopologicalOrder neighborsOf starts sorted)
    {u v : JsString} (hu : u ∈ sorted) (hv : v ∈ sorted) (hstep : Step neighborsOf u v) :
    sorted.idxOf u < sorted.idxOf v := by
  obtain ⟨before, after, hsplit⟩ := List.append_of_mem hv
  have hearly := h.forward before v after hsplit u ((h.mem_iff u).mp hu) hstep
  have hlate : v ∉ before := by
    intro hmem
    have hnodup := h.nodup
    rw [hsplit] at hnodup
    exact (List.nodup_append.mp hnodup).2.2 v hmem v List.mem_cons_self rfl
  rw [hsplit, List.idxOf_append_of_mem hearly, List.idxOf_append_of_notMem hlate, List.idxOf_cons_self]
  exact List.idxOf_lt_length_of_mem hearly

/-- A loop over the order of an acyclic graph: a node comes when no edge leads from it to itself or back. -/
theorem LeastTopologicalOrder.foldl_invariant {S : Type} {starts sorted : List JsString}
    (h : LeastTopologicalOrder neighborsOf starts sorted) (hacyclic : ¬ Cyclic neighborsOf starts)
    {f : S → JsString → S} {motive : List JsString → S → Prop}
    (hstep : ∀ done x s, x ∈ sorted → x ∉ done → (∀ u ∈ x :: done, ¬ Step neighborsOf x u) → motive done s →
      motive (done ++ [x]) (f s x))
    {s : S} (hinit : motive [] s) : motive sorted (sorted.foldl f s) := by
  have hloop : ∀ (rest done : List JsString) (s : S), sorted = done ++ rest → motive done s →
      motive sorted (rest.foldl f s) := by
    intro rest
    induction rest with
    | nil =>
        intro done s heq hdone
        rw [List.append_nil] at heq
        exact heq ▸ hdone
    | cons x rest ih =>
        intro done s heq hmotive
        have hx : x ∈ sorted := heq ▸ by simp
        have hreach := (h.mem_iff x).mp hx
        have hdone : x ∉ done := by
          intro hmem
          have hnodup := h.nodup
          rw [heq] at hnodup
          exact (List.nodup_append.mp hnodup).2.2 x hmem x List.mem_cons_self rfl
        rw [List.foldl_cons]
        refine ih (done ++ [x]) _ (by rw [heq]; simp) (hstep done x s hx hdone ?_ hmotive)
        intro u hu hback
        rcases List.mem_cons.mp hu with rfl | hu
        · exact hacyclic ⟨u, hreach, .single hback⟩
        · obtain ⟨first, second, rfl⟩ := List.append_of_mem hu
          have hearly := h.forward first u (second ++ x :: rest) (by rw [heq]; simp) x hreach hback
          exact hdone (List.mem_append_left _ hearly)
  exact hloop sorted [] s rfl hinit

/-! ### The predecessor walk -/

/-- Where every other node than the start has a predecessor that is earlier in an order and at the distance that an
arc leaves, the walk back along the predecessors ends at the start. -/
theorem reconstructPath_spec {N : Type} [AddGroup N] {arc : JsString → JsString → N → Prop} (dist : JsString → N)
    (P : JsString → Prop) (position : JsString → Nat) {prev : JsMap JsString JsString} {start : JsString}
    (hstart : dist start = 0)
    (hprev : ∀ v, P v → v ≠ start → ∃ u w, prev.get v = some u ∧ P u ∧ position u < position v ∧ arc u v w ∧
      dist v = dist u + w)
    {goal : JsString} (hgoal : P goal) {bound : Nat} (hbound : position goal ≤ bound) :
    IsWalk arc start goal (reconstructPath prev bound start goal) (dist goal) := by
  let Q := fun path : List JsString => ∃ current c, path.head? = some current ∧ P current ∧
    IsWalk arc current goal path c ∧ dist current + c = dist goal
  let measure := fun path : List JsString => (path.head?.map position).getD 0
  have hkept : ∀ path path', Q path → pathStep prev start path = some path' → Q path' ∧ measure path' < measure path := by
    rintro path path' ⟨current, c, hhead, hP, hwalk, hsum⟩ hstep
    rw [pathStep, hhead] at hstep
    dsimp only at hstep
    split at hstep
    · cases hstep
    · rename_i hne
      obtain ⟨u, w, hget, hu, hless, harc, hdist⟩ := hprev current hP hne
      rw [hget, Option.map_some, Option.some.injEq] at hstep
      subst hstep
      refine ⟨⟨u, w + c, rfl, hu, .cons harc hwalk, ?_⟩, ?_⟩
      · rw [← add_assoc, ← hdist, hsum]
      · dsimp only [measure]
        rw [hhead]
        exact hless
  have hfirst : Q [goal] := ⟨goal, 0, rfl, hgoal, .nil goal, add_zero _⟩
  have hend := While.loop_invariant (fun path path' h hstep => (hkept path path' h hstep).1) bound hfirst
  have hstop := While.loop_stops (m := measure) hkept hfirst hbound
  unfold reconstructPath
  generalize While.loop (pathStep prev start) bound [goal] = path at hend hstop ⊢
  obtain ⟨current, c, hhead, hP, hwalk, hsum⟩ := hend
  have hcurrent : current = start := by
    by_contra hne
    obtain ⟨u, w, hget, -⟩ := hprev current hP hne
    rw [pathStep, hhead] at hstop
    simp only [hne, if_false, hget, Option.map_some, reduceCtorEq] at hstop
  subst hcurrent
  rw [hstart, zero_add] at hsum
  exact hsum ▸ hwalk

/-! ### Longest distances -/

/-- One edge: its target gets the sum, which is no less than what it had, or has no less than the sum already. -/
theorem lengthenEdge_cases {x : JsString} {dx w : ℤ} {edge : NeighborEdge} {s : Distances}
    (hx : s.dist.get x = some (.ofInt dx)) (hw : weightFn x edge.neighborId edge.label = .ofInt w)
    (hsafe : |dx + w| ≤ 2 ^ 53) (hint : ∀ v n, s.dist.get v = some n → ∃ d, n = .ofInt d) :
    (lengthenEdge weightFn x s edge =
        ⟨s.dist.set edge.neighborId (.ofInt (dx + w)), s.prev.set edge.neighborId x⟩ ∧
      ∀ d, s.dist.get edge.neighborId = some (.ofInt d) → d ≤ dx + w) ∨
    lengthenEdge weightFn x s edge = s ∧ ∃ best, s.dist.get edge.neighborId = some (.ofInt best) ∧ dx + w ≤ best := by
  unfold lengthenEdge
  rw [hx, Option.getD_some, hw, JsNumber.plus_ofInt hsafe]
  cases hget : s.dist.get edge.neighborId with
  | none => exact Or.inl ⟨if_pos rfl, nofun⟩
  | some number =>
      obtain ⟨best, rfl⟩ := hint _ _ hget
      dsimp only
      rw [Option.getD_some, JsNumber.lessThan_ofInt, JsNumber.strictEquals_ofInt]
      split
      · rename_i hbetter
        rw [Bool.or_eq_true, Bool.and_eq_true, decide_eq_true_eq, decide_eq_true_eq] at hbetter
        refine Or.inl ⟨rfl, fun d hd => ?_⟩
        obtain rfl := JsNumber.ofInt_injective (Option.some.inj hd)
        rcases hbetter with hless | ⟨heq, -⟩
        · exact hless.le
        · exact heq.ge
      · rename_i hbetter
        refine Or.inr ⟨rfl, best, rfl, ?_⟩
        by_contra hless
        exact hbetter (by simp [not_le.mp hless])

/-- What lengthening along one edge does to its target and to the others. -/
theorem lengthenEdge_spec {x : JsString} {dx w : ℤ} {edge : NeighborEdge} {s : Distances}
    (hx : s.dist.get x = some (.ofInt dx)) (hw : weightFn x edge.neighborId edge.label = .ofInt w)
    (hsafe : |dx + w| ≤ 2 ^ 53) (hint : ∀ v n, s.dist.get v = some n → ∃ d, n = .ofInt d) :
    (∀ v, v ≠ edge.neighborId → (lengthenEdge weightFn x s edge).dist.get v = s.dist.get v ∧
      (lengthenEdge weightFn x s edge).prev.get v = s.prev.get v) ∧
    (((lengthenEdge weightFn x s edge).dist.get edge.neighborId = s.dist.get edge.neighborId ∧
        (lengthenEdge weightFn x s edge).prev.get edge.neighborId = s.prev.get edge.neighborId) ∨
      (lengthenEdge weightFn x s edge).prev.get edge.neighborId = some x ∧
        (lengthenEdge weightFn x s edge).dist.get edge.neighborId = some (.ofInt (dx + w))) ∧
    ∃ d', (lengthenEdge weightFn x s edge).dist.get edge.neighborId = some (.ofInt d') ∧ dx + w ≤ d' ∧
      ∀ d, s.dist.get edge.neighborId = some (.ofInt d) → d ≤ d' := by
  rcases lengthenEdge_cases hx hw hsafe hint with ⟨heq, hle⟩ | ⟨heq, best, hbest, hle⟩
  · rw [heq]
    exact ⟨fun v hv => ⟨JsMap.get_set_of_ne _ _ hv, JsMap.get_set_of_ne _ _ hv⟩,
      Or.inr ⟨JsMap.get_set_self .., JsMap.get_set_self ..⟩, _, JsMap.get_set_self .., le_rfl, hle⟩
  · rw [heq]
    refine ⟨fun v _ => ⟨rfl, rfl⟩, Or.inl ⟨rfl, rfl⟩, best, hbest, hle, fun d hd => ?_⟩
    exact (JsNumber.ofInt_injective (Option.some.inj (hd.symm.trans hbest))).le

/-- What lengthening along edges out of one node does to the others. -/
theorem lengthenEdges_spec {x : JsString} {dx : ℤ} (edges : List NeighborEdge) (s : Distances)
    (hself : ∀ edge ∈ edges, edge.neighborId ≠ x) (hx : s.dist.get x = some (.ofInt dx))
    (hweights : ∀ edge ∈ edges, ∃ w : ℤ, weightFn x edge.neighborId edge.label = .ofInt w ∧ |dx + w| ≤ 2 ^ 53)
    (hint : ∀ v n, s.dist.get v = some n → ∃ d, n = .ofInt d) :
    (∀ v, v ∉ neighborIds edges → (edges.foldl (lengthenEdge weightFn x) s).dist.get v = s.dist.get v ∧
      (edges.foldl (lengthenEdge weightFn x) s).prev.get v = s.prev.get v) ∧
    (∀ v, ((edges.foldl (lengthenEdge weightFn x) s).dist.get v = s.dist.get v ∧
        (edges.foldl (lengthenEdge weightFn x) s).prev.get v = s.prev.get v) ∨
      ∃ edge ∈ edges, ∃ w : ℤ, edge.neighborId = v ∧ weightFn x v edge.label = .ofInt w ∧
        (edges.foldl (lengthenEdge weightFn x) s).prev.get v = some x ∧
        (edges.foldl (lengthenEdge weightFn x) s).dist.get v = some (.ofInt (dx + w))) ∧
    (∀ v d, s.dist.get v = some (.ofInt d) →
      ∃ d', (edges.foldl (lengthenEdge weightFn x) s).dist.get v = some (.ofInt d') ∧ d ≤ d') ∧
    (∀ edge ∈ edges, ∀ w : ℤ, weightFn x edge.neighborId edge.label = .ofInt w →
      ∃ d', (edges.foldl (lengthenEdge weightFn x) s).dist.get edge.neighborId = some (.ofInt d') ∧ dx + w ≤ d') := by
  induction edges generalizing s with
  | nil => exact ⟨fun v _ => ⟨rfl, rfl⟩, fun v => Or.inl ⟨rfl, rfl⟩, fun v d h => ⟨d, h, le_rfl⟩, fun edge h => by cases h⟩
  | cons edge rest ih =>
      have hne := hself edge List.mem_cons_self
      obtain ⟨w, hw, hsafe⟩ := hweights edge List.mem_cons_self
      obtain ⟨hsame, hset, hgrow⟩ := lengthenEdge_spec hx hw hsafe hint
      have hx' : (lengthenEdge weightFn x s edge).dist.get x = some (.ofInt dx) := by
        rw [(hsame x hne.symm).1, hx]
      have hint' : ∀ v n, (lengthenEdge weightFn x s edge).dist.get v = some n → ∃ d, n = .ofInt d := by
        intro v n hn
        by_cases hv : v = edge.neighborId
        · subst hv
          obtain ⟨d', hd', -⟩ := hgrow
          rw [hd', Option.some.injEq] at hn
          exact ⟨d', hn.symm⟩
        · exact hint v n ((hsame v hv).1 ▸ hn)
      obtain ⟨ih₁, ih₂, ih₃, ih₄⟩ := ih (lengthenEdge weightFn x s edge) (fun e he => hself e (List.mem_cons_of_mem _ he)) hx'
        (fun e he => hweights e (List.mem_cons_of_mem _ he)) hint'
      refine ⟨fun v hv => ?_, fun v => ?_, fun v d hd => ?_, fun e he we hwe => ?_⟩
      · rw [neighborIds, List.map_cons, List.mem_cons, not_or] at hv
        obtain ⟨hd, hp⟩ := ih₁ v hv.2
        exact ⟨hd.trans (hsame v hv.1).1, hp.trans (hsame v hv.1).2⟩
      · rcases ih₂ v with ⟨hd, hp⟩ | ⟨e, he, we, hid, hwe, hp, hd⟩
        · by_cases hv : v = edge.neighborId
          · subst hv
            rcases hset with ⟨hd', hp'⟩ | ⟨hp', hd'⟩
            · exact Or.inl ⟨hd.trans hd', hp.trans hp'⟩
            · exact Or.inr ⟨edge, List.mem_cons_self, w, rfl, hw, hp.trans hp', hd.trans hd'⟩
          · exact Or.inl ⟨hd.trans (hsame v hv).1, hp.trans (hsame v hv).2⟩
        · exact Or.inr ⟨e, List.mem_cons_of_mem _ he, we, hid, hwe, hp, hd⟩
      · by_cases hv : v = edge.neighborId
        · subst hv
          obtain ⟨d', hd', -, hle⟩ := hgrow
          obtain ⟨d'', hd'', hle'⟩ := ih₃ _ d' hd'
          exact ⟨d'', hd'', (hle d hd).trans hle'⟩
        · exact ih₃ v d ((hsame v hv).1.trans hd)
      · rcases List.mem_cons.mp he with rfl | he
        · obtain ⟨d', hd', hle, -⟩ := hgrow
          obtain ⟨d'', hd'', hle'⟩ := ih₃ _ d' hd'
          obtain rfl := JsNumber.ofInt_injective (hw.symm.trans hwe)
          exact ⟨d'', hd'', hle.trans hle'⟩
        · exact ih₄ e he we hwe

variable (neighborsOf weightFn) in
/-- The distances after the nodes of a list: each comes along an arc from one of them, and none of their arcs gives more. -/
structure Lengthened (start : JsString) (done : List JsString) (s : Distances) : Prop where
  fromStart : s.dist.get start = some (.ofInt 0)
  integer : ∀ v n, s.dist.get v = some n → ∃ d, n = .ofInt d
  walked : ∀ v d, s.dist.get v = some (.ofInt d) → ∃ path, IsWalk (WeightedArc neighborsOf weightFn) start v path d
  along : ∀ v d, s.dist.get v = some (.ofInt d) → v ≠ start → ∃ u ∈ done, ∃ du w, s.prev.get v = some u ∧
    s.dist.get u = some (.ofInt du) ∧ WeightedArc neighborsOf weightFn u v w ∧ d = du + w
  longest : ∀ u ∈ done, ∀ du, s.dist.get u = some (.ofInt du) → ∀ v w, WeightedArc neighborsOf weightFn u v w →
    ∃ dv, s.dist.get v = some (.ofInt dv) ∧ du + w ≤ dv

/-- Lengthening along the arcs out of the next node of the order. -/
theorem Lengthened.step {start x : JsString} {done : List JsString} {s : Distances}
    (h : Lengthened neighborsOf weightFn start done s) (hsafe : SafeWeights neighborsOf weightFn start)
    (hreach : Reachable neighborsOf [start] x)
    (hforward : ∀ u ∈ x :: done, ¬ Step neighborsOf x u) (hstart : ¬ Step neighborsOf x start) :
    Lengthened neighborsOf weightFn start (done ++ [x])
      (if s.dist.has x then (neighborsOf x).foldl (lengthenEdge weightFn x) s else s) := by
  by_cases hhas : s.dist.has x = true
  · rw [if_pos hhas]
    obtain ⟨n, hn⟩ := Option.isSome_iff_exists.mp hhas
    obtain ⟨dx, rfl⟩ := h.integer x n hn
    obtain ⟨pathx, hwalkx⟩ := h.walked x dx hn
    have hself : ∀ edge ∈ neighborsOf x, edge.neighborId ≠ x := by
      intro edge hedge heq
      have hstep : Step neighborsOf x edge.neighborId := List.mem_map_of_mem hedge
      rw [heq] at hstep
      exact hforward x List.mem_cons_self hstep
    have hweights : ∀ edge ∈ neighborsOf x,
        ∃ w : ℤ, weightFn x edge.neighborId edge.label = .ofInt w ∧ |dx + w| ≤ 2 ^ 53 := by
      intro edge hedge
      obtain ⟨w, hw⟩ := hsafe.integer x hreach edge hedge
      exact ⟨w, hw, hsafe.bounded _ _ _ (hwalkx.concat ⟨edge, hedge, rfl, hw⟩)⟩
    obtain ⟨hsame, hset, hgrow, hlong⟩ := lengthenEdges_spec (neighborsOf x) s hself hn hweights h.integer
    have hkept : ∀ u ∈ x :: done, ((neighborsOf x).foldl (lengthenEdge weightFn x) s).dist.get u = s.dist.get u :=
      fun u hu => (hsame u (hforward u hu)).1
    refine ⟨?_, fun v n hn => ?_, fun v d hd => ?_, fun v d hd hne => ?_, fun u hu du hdu v w harc => ?_⟩
    · rw [(hsame start hstart).1, h.fromStart]
    · rcases hset v with ⟨hdist, -⟩ | ⟨edge, -, w, -, -, -, hdist⟩
      · exact h.integer v n (hdist ▸ hn)
      · rw [hdist, Option.some.injEq] at hn
        exact ⟨dx + w, hn.symm⟩
    · rcases hset v with ⟨hdist, -⟩ | ⟨edge, hedge, w, hid, hw, -, hdist⟩
      · exact h.walked v d (hdist ▸ hd)
      · rw [hdist, Option.some.injEq] at hd
        obtain rfl := JsNumber.ofInt_injective hd
        exact ⟨_, hwalkx.concat ⟨edge, hedge, hid, hw⟩⟩
    · rcases hset v with ⟨hdist, hprev⟩ | ⟨edge, hedge, w, hid, hw, hprev, hdist⟩
      · rw [hdist] at hd
        obtain ⟨u, hu, du, w, hget, hdu, harc, heq⟩ := h.along v d hd hne
        refine ⟨u, List.mem_append_left _ hu, du, w, hprev.trans hget, ?_, harc, heq⟩
        rw [hkept u (List.mem_cons_of_mem _ hu), hdu]
      · rw [hdist, Option.some.injEq] at hd
        refine ⟨x, List.mem_append_right _ List.mem_cons_self, dx, w, hprev, ?_, ⟨edge, hedge, hid, hw⟩,
          (JsNumber.ofInt_injective hd).symm⟩
        rw [hkept x List.mem_cons_self, hn]
    · rcases List.mem_append.mp hu with hu | hu
      · rw [hkept u (List.mem_cons_of_mem _ hu)] at hdu
        obtain ⟨dv, hdv, hle⟩ := h.longest u hu du hdu v w harc
        obtain ⟨dv', hdv', hle'⟩ := hgrow v dv hdv
        exact ⟨dv', hdv', hle.trans hle'⟩
      · rw [List.mem_singleton] at hu
        subst hu
        rw [hkept u List.mem_cons_self, hn, Option.some.injEq] at hdu
        obtain rfl := JsNumber.ofInt_injective hdu
        obtain ⟨edge, hedge, rfl, hw⟩ := harc
        exact hlong edge hedge w hw
  · rw [if_neg hhas]
    refine ⟨h.fromStart, h.integer, h.walked, fun v d hd hne => ?_, fun u hu du hdu => ?_⟩
    · obtain ⟨u, hu, hrest⟩ := h.along v d hd hne
      exact ⟨u, List.mem_append_left _ hu, hrest⟩
    · rcases List.mem_append.mp hu with hu | hu
      · exact h.longest u hu du hdu
      · rw [List.mem_singleton] at hu
        subst hu
        exact absurd (Option.isSome_iff_exists.mpr ⟨_, hdu⟩) hhas

/-- The whole order: the distances of an acyclic graph. -/
theorem lengthened_of_order {start : JsString} {sorted : List JsString}
    (horder : LeastTopologicalOrder neighborsOf [start] sorted) (hacyclic : ¬ Cyclic neighborsOf [start])
    (hsafe : SafeWeights neighborsOf weightFn start) {lengthen : Distances → JsString → Distances}
    (hlengthen : ∀ x ∈ sorted, ∀ s, lengthen s x =
      if s.dist.has x then (neighborsOf x).foldl (lengthenEdge weightFn x) s else s) :
    Lengthened neighborsOf weightFn start sorted (sorted.foldl lengthen ⟨JsMap.empty.set start (.finite 0), .empty⟩) := by
  have hinit : ∀ v n, (JsMap.empty.set start (JsNumber.finite 0)).get v = some n → v = start ∧ n = .ofInt 0 := by
    intro v n hn
    rw [JsMap.get_set] at hn
    split at hn
    · rename_i hv
      exact ⟨hv, (Option.some.inj hn).symm.trans (congrArg _ Int.cast_zero.symm)⟩
    · cases hn
  refine horder.foldl_invariant hacyclic (fun done x s hx _ hforward h => ?_)
    ⟨(JsMap.get_set_self ..).trans (congrArg (some ∘ JsNumber.finite) Int.cast_zero.symm),
      fun v n hn => ⟨0, (hinit v n hn).2⟩, fun v d hd => ?_, fun v d hd hne => absurd (hinit v _ hd).1 hne,
      fun u hu => absurd hu List.not_mem_nil⟩
  · rw [hlengthen x hx]
    have hreach := (horder.mem_iff x).mp hx
    refine h.step hsafe hreach hforward fun hstep => ?_
    obtain ⟨s, hs, hlead⟩ := hreach
    rw [List.mem_singleton] at hs
    subst hs
    exact hacyclic ⟨s, ⟨s, List.mem_cons_self, .refl⟩, Relation.TransGen.tail' hlead hstep⟩
  · obtain ⟨rfl, hzero⟩ := hinit v _ hd
    obtain rfl := JsNumber.ofInt_injective hzero
    exact ⟨_, .nil v⟩

/-- The distances are the greatest weights of the walks from the start, and the predecessors spell one of them. -/
theorem Lengthened.spec {start : JsString} {sorted : List JsString} {s : Distances}
    (h : Lengthened neighborsOf weightFn start sorted s) (horder : LeastTopologicalOrder neighborsOf [start] sorted) :
    (∀ goal, s.dist.get goal = none ↔ ¬ ∃ path c, IsWalk (WeightedArc neighborsOf weightFn) start goal path c) ∧
    ∀ goal n, s.dist.get goal = some n → ∃ d, n = .ofInt d ∧ ∀ bound, sorted.length ≤ bound →
      IsWalk (WeightedArc neighborsOf weightFn) start goal (reconstructPath s.prev bound start goal) d ∧
      ∀ path c, IsWalk (WeightedArc neighborsOf weightFn) start goal path c → c ≤ d := by
  have hone : ∀ v, ∃ d : ℤ, ∀ d', s.dist.get v = some (.ofInt d') → d' = d := by
    intro v
    by_cases hv : ∃ d, s.dist.get v = some (.ofInt d)
    · obtain ⟨d, hd⟩ := hv
      exact ⟨d, fun d' hd' => JsNumber.ofInt_injective (Option.some.inj (hd'.symm.trans hd))⟩
    · exact ⟨0, fun d hd => absurd ⟨d, hd⟩ hv⟩
  choose dist hdist using hone
  have heq : ∀ v d, s.dist.get v = some (.ofInt d) → dist v = d := fun v d hd => (hdist v d hd).symm
  have hlong : ∀ {goal path c}, IsWalk (WeightedArc neighborsOf weightFn) start goal path c →
      (∃ d, s.dist.get goal = some (.ofInt d)) ∧ c ≤ dist goal := by
    intro goal path c hwalk
    have hstart : Reachable neighborsOf [start] start ∧ ∃ d, s.dist.get start = some (.ofInt d) :=
      ⟨⟨start, List.mem_cons_self, .refl⟩, 0, h.fromStart⟩
    obtain ⟨⟨-, hd⟩, hle⟩ := hwalk.le_potential
      (P := fun v => Reachable neighborsOf [start] v ∧ ∃ d, s.dist.get v = some (.ofInt d)) (f := dist) (by
        rintro u v w ⟨hu, du, hdu⟩ harc
        obtain ⟨dv, hdv, hle⟩ := h.longest u ((horder.mem_iff u).mpr hu) du hdu v w harc
        refine ⟨⟨hu.step harc.step, dv, hdv⟩, ?_⟩
        rw [heq u du hdu, heq v dv hdv]
        exact hle) hstart
    rw [heq start 0 h.fromStart, zero_add] at hle
    exact ⟨hd, hle⟩
  have hwalk : ∀ goal d, s.dist.get goal = some (.ofInt d) → ∀ bound, sorted.length ≤ bound →
      IsWalk (WeightedArc neighborsOf weightFn) start goal (reconstructPath s.prev bound start goal) d := by
    intro goal d hd bound hbound
    have hall : ∀ v, (∃ d, s.dist.get v = some (.ofInt d)) → v ∈ sorted := by
      rintro v ⟨d, hd⟩
      rw [horder.mem_iff]
      by_cases hv : v = start
      · exact ⟨start, List.mem_cons_self, hv ▸ .refl⟩
      · obtain ⟨u, hu, du, w, -, -, harc, -⟩ := h.along v d hd hv
        exact ((horder.mem_iff u).mp hu).step harc.step
    refine heq goal d hd ▸ reconstructPath_spec dist (fun v => ∃ d, s.dist.get v = some (.ofInt d))
      (fun v => sorted.idxOf v) (heq start 0 h.fromStart) ?_ ⟨d, hd⟩ ?_
    · rintro v ⟨d, hd⟩ hne
      obtain ⟨u, hu, du, w, hprev, hdu, harc, hsum⟩ := h.along v d hd hne
      refine ⟨u, w, hprev, ⟨du, hdu⟩, ?_, harc, by rw [heq v d hd, heq u du hdu, hsum]⟩
      exact horder.idxOf_lt hu (hall v ⟨d, hd⟩) harc.step
    · exact (List.idxOf_lt_length_of_mem (hall goal ⟨d, hd⟩)).le.trans hbound
  refine ⟨fun goal => ?_, fun goal n hn => ?_⟩
  · rw [← not_iff_not, not_not, ← ne_eq, Option.ne_none_iff_exists']
    constructor
    · rintro ⟨n, hn⟩
      obtain ⟨d, rfl⟩ := h.integer goal n hn
      exact ⟨_, d, hwalk goal d hn sorted.length le_rfl⟩
    · rintro ⟨path, c, hwalk'⟩
      obtain ⟨d, hd⟩ := (hlong hwalk').1
      exact ⟨_, hd⟩
  · obtain ⟨d, rfl⟩ := h.integer goal n hn
    refine ⟨d, rfl, fun bound hbound => ⟨hwalk goal d hn bound hbound, fun path c hwalk' => ?_⟩⟩
    exact heq goal d hn ▸ (hlong hwalk').2

/-! ### Levels -/

variable (neighborsOf) in
/-- The levels after the nodes of a list: a level above zero comes along an edge from one of them, none of their edges
asks for more, and the greatest level is kept. -/
structure Raised (sorted done : List JsString) (s : Levels) : Prop where
  has : ∀ v, (∃ l, s.levels.get v = some l) ↔ v ∈ sorted
  along : ∀ v l, s.levels.get v = some l → l = 0 ∨
    ∃ u ∈ done, ∃ lu, s.levels.get u = some lu ∧ Step neighborsOf u v ∧ l = lu + 1
  longest : ∀ u ∈ done, ∀ lu, s.levels.get u = some lu → ∀ v, Step neighborsOf u v →
    ∃ lv, s.levels.get v = some lv ∧ lu + 1 ≤ lv
  bounded : ∀ v l, s.levels.get v = some l → l ≤ s.maxLevel
  attained : s.maxLevel = 0 ∨ ∃ v, s.levels.get v = some s.maxLevel

theorem raiseLevels_spec (edges : List NeighborEdge) (level : Nat) (s : Levels)
    (hedges : ∀ edge ∈ edges, ∃ l, s.levels.get edge.neighborId = some l)
    (hbounded : ∀ v l, s.levels.get v = some l → l ≤ s.maxLevel)
    (hattained : s.maxLevel = 0 ∨ ∃ v, s.levels.get v = some s.maxLevel) :
    (∀ v, v ∉ neighborIds edges → (edges.foldl (raiseLevel level) s).levels.get v = s.levels.get v) ∧
    (∀ v, (edges.foldl (raiseLevel level) s).levels.get v = s.levels.get v ∨
      v ∈ neighborIds edges ∧ (edges.foldl (raiseLevel level) s).levels.get v = some (level + 1)) ∧
    (∀ v l, s.levels.get v = some l → ∃ l', (edges.foldl (raiseLevel level) s).levels.get v = some l' ∧ l ≤ l') ∧
    (∀ v ∈ neighborIds edges, ∃ l', (edges.foldl (raiseLevel level) s).levels.get v = some l' ∧ level + 1 ≤ l') ∧
    (∀ v l, (edges.foldl (raiseLevel level) s).levels.get v = some l → l ≤ (edges.foldl (raiseLevel level) s).maxLevel) ∧
    ((edges.foldl (raiseLevel level) s).maxLevel = 0 ∨
      ∃ v, (edges.foldl (raiseLevel level) s).levels.get v = some (edges.foldl (raiseLevel level) s).maxLevel) := by
  induction edges generalizing s with
  | nil =>
      exact ⟨fun v _ => rfl, fun v => Or.inl rfl, fun v l h => ⟨l, h, le_rfl⟩, fun v hv => absurd hv List.not_mem_nil,
        hbounded, hattained⟩
  | cons edge rest ih =>
      obtain ⟨old, hold⟩ := hedges edge List.mem_cons_self
      obtain ⟨hsame, hset, hbounded', hattained'⟩ :
          (∀ v, v ≠ edge.neighborId → (raiseLevel level s edge).levels.get v = s.levels.get v) ∧
          (∃ l, (raiseLevel level s edge).levels.get edge.neighborId = some l ∧ level + 1 ≤ l ∧ old ≤ l ∧
            (l = old ∨ l = level + 1)) ∧
          (∀ v l, (raiseLevel level s edge).levels.get v = some l → l ≤ (raiseLevel level s edge).maxLevel) ∧
          ((raiseLevel level s edge).maxLevel = 0 ∨
            ∃ v, (raiseLevel level s edge).levels.get v = some (raiseLevel level s edge).maxLevel) := by
        unfold raiseLevel
        rw [hold, Option.getD_some]
        dsimp only
        split
        · rename_i hless
          have hmax : ∀ v l, (s.levels.set edge.neighborId (level + 1)).get v = some l →
              l ≤ if s.maxLevel < level + 1 then level + 1 else s.maxLevel := by
            intro v l hl
            rw [JsMap.get_set] at hl
            split at hl
            · cases hl
              split <;> omega
            · have hle := hbounded v l hl
              split <;> omega
          refine ⟨fun v hv => JsMap.get_set_of_ne _ _ hv, ⟨_, JsMap.get_set_self .., le_rfl, by omega, Or.inr rfl⟩, hmax, ?_⟩
          split
          · exact Or.inr ⟨edge.neighborId, JsMap.get_set_self ..⟩
          · rename_i hnot
            rcases hattained with hzero | ⟨v, hv⟩
            · exact Or.inl hzero
            · refine Or.inr ⟨v, ?_⟩
              rw [JsMap.get_set_of_ne _ _ ?_, hv]
              rintro rfl
              rw [hold, Option.some.injEq] at hv
              omega
        · rename_i hnot
          exact ⟨fun v _ => rfl, ⟨old, hold, by omega, le_rfl, Or.inl rfl⟩, hbounded, hattained⟩
      have hedges' : ∀ e ∈ rest, ∃ l, (raiseLevel level s edge).levels.get e.neighborId = some l := by
        intro e he
        by_cases heq : e.neighborId = edge.neighborId
        · obtain ⟨l, hl, -⟩ := hset
          exact ⟨l, heq ▸ hl⟩
        · rw [hsame _ heq]
          exact hedges e (List.mem_cons_of_mem _ he)
      obtain ⟨ih₁, ih₂, ih₃, ih₄, ih₅, ih₆⟩ := ih (raiseLevel level s edge) hedges' hbounded' hattained'
      refine ⟨fun v hv => ?_, fun v => ?_, fun v l hl => ?_, fun v hv => ?_, ih₅, ih₆⟩
      · rw [neighborIds, List.map_cons, List.mem_cons, not_or] at hv
        exact (ih₁ v hv.2).trans (hsame v hv.1)
      · by_cases hv : v = edge.neighborId
        · subst hv
          obtain ⟨l, hl, -, -, hwhich⟩ := hset
          rcases ih₂ edge.neighborId with hkept | ⟨-, hnew⟩
          · rcases hwhich with rfl | rfl
            · exact Or.inl (hkept.trans (hl.trans hold.symm))
            · exact Or.inr ⟨List.mem_cons_self, hkept.trans hl⟩
          · exact Or.inr ⟨List.mem_cons_self, hnew⟩
        · rcases ih₂ v with hkept | ⟨hmem, hnew⟩
          · exact Or.inl (hkept.trans (hsame v hv))
          · exact Or.inr ⟨List.mem_cons_of_mem _ hmem, hnew⟩
      · by_cases hv : v = edge.neighborId
        · subst hv
          obtain ⟨l', hl', -, hle, -⟩ := hset
          obtain ⟨l'', hl'', hle'⟩ := ih₃ _ l' hl'
          rw [hold, Option.some.injEq] at hl
          exact ⟨l'', hl'', by omega⟩
        · exact ih₃ v l ((hsame v hv).trans hl)
      · rcases List.mem_cons.mp hv with rfl | hv
        · obtain ⟨l', hl', hle, -⟩ := hset
          obtain ⟨l'', hl'', hle'⟩ := ih₃ _ l' hl'
          exact ⟨l'', hl'', hle.trans hle'⟩
        · exact ih₄ v hv

/-- Raising along the edges out of the next node of the order. -/
theorem Raised.step {x : JsString} {sorted done : List JsString} {s : Levels} (h : Raised neighborsOf sorted done s)
    (hx : x ∈ sorted) (hclosed : ∀ v, Step neighborsOf x v → v ∈ sorted)
    (hforward : ∀ u ∈ x :: done, ¬ Step neighborsOf x u) :
    Raised neighborsOf sorted (done ++ [x]) ((neighborsOf x).foldl (raiseLevel ((s.levels.get x).getD 0)) s) := by
  obtain ⟨lx, hlx⟩ := (h.has x).mpr hx
  rw [hlx, Option.getD_some]
  obtain ⟨hsame, hset, hgrow, hlong, hbounded, hattained⟩ := raiseLevels_spec (neighborsOf x) lx s
    (fun edge hedge => (h.has _).mpr (hclosed _ (List.mem_map_of_mem hedge))) h.bounded h.attained
  have hkept : ∀ u ∈ x :: done, ((neighborsOf x).foldl (raiseLevel lx) s).levels.get u = s.levels.get u :=
    fun u hu => hsame u (hforward u hu)
  refine ⟨fun v => ?_, fun v l hl => ?_, fun u hu lu hlu v hstep => ?_, hbounded, hattained⟩
  · rw [← h.has v]
    constructor
    · rintro ⟨l, hl⟩
      rcases hset v with heq | ⟨hmem, -⟩
      · exact ⟨l, heq ▸ hl⟩
      · exact (h.has v).mpr (hclosed v hmem)
    · rintro ⟨l, hl⟩
      obtain ⟨l', hl', -⟩ := hgrow v l hl
      exact ⟨l', hl'⟩
  · rcases hset v with heq | ⟨hmem, hnew⟩
    · rw [heq] at hl
      refine (h.along v l hl).imp_right ?_
      rintro ⟨u, hu, lu, hlu, hstep, rfl⟩
      exact ⟨u, List.mem_append_left _ hu, lu, by rw [hkept u (List.mem_cons_of_mem _ hu), hlu], hstep, rfl⟩
    · rw [hnew, Option.some.injEq] at hl
      exact Or.inr ⟨x, List.mem_append_right _ List.mem_cons_self, lx, by rw [hkept x List.mem_cons_self, hlx], hmem,
        hl.symm⟩
  · rcases List.mem_append.mp hu with hu | hu
    · rw [hkept u (List.mem_cons_of_mem _ hu)] at hlu
      obtain ⟨lv, hlv, hle⟩ := h.longest u hu lu hlu v hstep
      obtain ⟨lv', hlv', hle'⟩ := hgrow v lv hlv
      exact ⟨lv', hlv', hle.trans hle'⟩
    · rw [List.mem_singleton] at hu
      subst hu
      rw [hkept u List.mem_cons_self, hlx, Option.some.injEq] at hlu
      subst hlu
      exact hlong v hstep

theorem get_initialLevels (sorted : List JsString) (v : JsString) :
    (sorted.foldl (fun levelMap nodeId => if levelMap.has nodeId then levelMap else levelMap.set nodeId 0)
      (JsMap.empty : JsMap JsString Nat)).get v = if v ∈ sorted then some 0 else none := by
  have hloop : ∀ (nodeIds : List JsString) (levelMap : JsMap JsString Nat),
      (∀ w l, levelMap.get w = some l → l = 0) →
      (nodeIds.foldl (fun levelMap nodeId => if levelMap.has nodeId then levelMap else levelMap.set nodeId 0) levelMap).get v =
        if v ∈ nodeIds then some 0 else levelMap.get v := by
    intro nodeIds
    induction nodeIds with
    | nil => exact fun levelMap _ => rfl
    | cons id rest ih =>
        intro levelMap hzero
        rw [List.foldl_cons]
        split
        · rename_i hhas
          rw [ih levelMap hzero]
          by_cases hv : v = id
          · subst hv
            obtain ⟨l, hl⟩ := Option.isSome_iff_exists.mp hhas
            simp [hl, hzero v l hl]
          · simp [hv]
        · rw [ih _ fun w l hl => ?_, JsMap.get_set]
          · by_cases hv : v = id
            · simp [hv]
            · simp [hv]
          · rw [JsMap.get_set] at hl
            split at hl
            · exact (Option.some.inj hl).symm
            · exact hzero w l hl
  rw [hloop sorted .empty fun w l hl => by cases hl]
  rfl

theorem raised_of_order {starts sorted : List JsString} (horder : LeastTopologicalOrder neighborsOf starts sorted)
    (hacyclic : ¬ Cyclic neighborsOf starts) :
    Raised neighborsOf sorted sorted (sorted.foldl (fun s x => (neighborsOf x).foldl (raiseLevel ((s.levels.get x).getD 0)) s)
      ⟨sorted.foldl (fun levelMap nodeId => if levelMap.has nodeId then levelMap else levelMap.set nodeId 0) .empty, 0⟩) := by
  refine horder.foldl_invariant hacyclic (fun done x s hx _ hforward h => ?_)
    ⟨fun v => ?_, fun v l hl => ?_, fun u hu => absurd hu List.not_mem_nil, fun v l hl => ?_, Or.inl rfl⟩
  · exact h.step hx (fun v hstep => (horder.mem_iff v).mpr (((horder.mem_iff x).mp hx).step hstep)) hforward
  · dsimp only
    rw [get_initialLevels]
    by_cases hv : v ∈ sorted <;> simp [hv]
  · dsimp only at hl
    rw [get_initialLevels] at hl
    split at hl
    · exact Or.inl (Option.some.inj hl).symm
    · cases hl
  · dsimp only at hl
    rw [get_initialLevels] at hl
    split at hl
    · exact (Option.some.inj hl).ge
    · cases hl

/-- The levels are the greatest numbers of edges on walks from the starts. -/
theorem Raised.spec {starts sorted : List JsString} {s : Levels} (h : Raised neighborsOf sorted sorted s)
    (horder : LeastTopologicalOrder neighborsOf starts sorted) {v : JsString} {l : Nat} (hl : s.levels.get v = some l) :
    IsGreatest {n | ∃ start ∈ starts, ∃ path, IsWalk (UnitArc neighborsOf) start v path n} l := by
  constructor
  · have hall : ∀ (position : Nat) (v : JsString) (l : Nat), sorted.idxOf v = position → s.levels.get v = some l →
        ∃ start ∈ starts, ∃ path, IsWalk (UnitArc neighborsOf) start v path l := by
      intro position
      induction position using Nat.strong_induction_on with
      | _ position ih =>
          rintro v l rfl hl
          have hv := (h.has v).mp ⟨l, hl⟩
          rcases h.along v l hl with rfl | ⟨u, hu, lu, hlu, hstep, rfl⟩
          · obtain ⟨start, hstart, hreach⟩ := (horder.mem_iff v).mp hv
            rcases Relation.ReflTransGen.cases_tail hreach with rfl | ⟨u, hlead, hstep⟩
            · exact ⟨v, hstart, _, .nil v⟩
            · have hu := (horder.mem_iff u).mpr ⟨start, hstart, hlead⟩
              obtain ⟨lu, hlu⟩ := (h.has u).mpr hu
              obtain ⟨lv, hlv, hle⟩ := h.longest u hu lu hlu v hstep
              rw [hl, Option.some.injEq] at hlv
              omega
          · obtain ⟨start, hstart, path, hwalk⟩ := ih _ (horder.idxOf_lt hu hv hstep) u lu rfl hlu
            exact ⟨start, hstart, _, hwalk.concat ⟨hstep, rfl⟩⟩
    exact hall _ v l rfl hl
  · rintro n ⟨start, hstart, path, hwalk⟩
    have hin : start ∈ sorted := (horder.mem_iff start).mpr ⟨start, hstart, .refl⟩
    obtain ⟨-, hle⟩ := hwalk.le_potential (P := fun u => u ∈ sorted) (f := fun u => (s.levels.get u).getD 0) (by
      rintro u w n hu ⟨hstep, rfl⟩
      obtain ⟨lu, hlu⟩ := (h.has u).mpr hu
      obtain ⟨lw, hlw, hle⟩ := h.longest u hu lu hlu w hstep
      refine ⟨(horder.mem_iff w).mpr (((horder.mem_iff u).mp hu).step hstep), ?_⟩
      rw [hlu, hlw]
      exact hle) hin
    rw [hl, Option.getD_some] at hle
    omega

end Weights

/-! ### What is returned -/

section Results

variable (provider : NeighborProvider) (direction : Direction) (options : Option (List JsString))

/-- On an acyclic graph, where the limit leaves room for all reachable nodes, the path that is returned is of the
greatest weight and the levels are the greatest numbers of edges. -/
theorem longestPath_levels_spec (start : List JsString) (hstart : ∀ s ∈ start, provider.hasNode s = true)
    (hacyclic : ¬ Cyclic (neighborsOf provider direction options) start) (maxNodes : Nat)
    (hlimit : {v | Reachable (neighborsOf provider direction options) start v}.ncard ≤ maxNodes) :
    (∀ s, start = [s] → ∀ weights weightFn, resolveWeightFn weights = .ok weightFn →
      SafeWeights (neighborsOf provider direction options) weightFn s → ∀ goal,
      (weightedLongestPath provider direction options s goal weights maxNodes = .error (.noPath s goal none) ∧
        ¬ ∃ path c, IsWalk (WeightedArc (neighborsOf provider direction options) weightFn) s goal path c) ∨
      ∃ path c, weightedLongestPath provider direction options s goal weights maxNodes = .ok ⟨path, .ofInt c⟩ ∧
        IsWalk (WeightedArc (neighborsOf provider direction options) weightFn) s goal path c ∧
        ∀ path' c', IsWalk (WeightedArc (neighborsOf provider direction options) weightFn) s goal path' c' → c' ≤ c) ∧
    ∃ result, levels provider direction options start maxNodes = .ok result ∧
      (∀ v, (∃ l, result.levels.get v = some l) ↔ Reachable (neighborsOf provider direction options) start v) ∧
      (∀ v l, result.levels.get v = some l → IsGreatest {n | ∃ s ∈ start, ∃ path,
        IsWalk (UnitArc (neighborsOf provider direction options)) s v path n} l) ∧
      (∀ v l, result.levels.get v = some l → l ≤ result.maxLevel) ∧
      (start ≠ [] → ∃ v, result.levels.get v = some result.maxLevel) := by
  have htopo : ∀ returnAdjList, ∃ sorted neighborEdgeMap,
      LeastTopologicalOrder (neighborsOf provider direction options) start sorted ∧
      (returnAdjList = true → ∃ edges : JsMap JsString (List NeighborEdge), neighborEdgeMap = some edges ∧
        ∀ u ∈ sorted, edges.get u = some (neighborsOf provider direction options u)) ∧
      topologicalSort provider direction options (.of start maxNodes true returnAdjList) =
        .ok ⟨sorted, false, neighborEdgeMap⟩ := by
    intro returnAdjList
    obtain ⟨sorted, neighborEdgeMap, hasCycle, hrun, hcycle, hedges, heq⟩ :=
      topologicalSort_run provider direction options (.of start maxNodes true returnAdjList) hstart
    have hstuck := hrun.not_ready (hrun.length_eq_ncard ▸ hlimit)
    have hfalse : hasCycle = false := by
      rw [← Bool.not_eq_true, hcycle, not_and, hrun.cyclic_iff hstuck]
      exact fun _ => hacyclic
    subst hfalse
    refine ⟨sorted, neighborEdgeMap, hrun.least hstuck hacyclic, fun hreturn => ?_, heq⟩
    obtain ⟨edges, hsome, hget⟩ := hedges hreturn
    exact ⟨edges, hsome, fun u hu => hget u (hrun.order.isOrder.subset hu)⟩
  have hnodes : ∀ {sorted}, LeastTopologicalOrder (neighborsOf provider direction options) start sorted →
      sorted.length ≤ provider.nodes.length := by
    intro sorted horder
    exact (List.subperm_of_subset horder.nodup fun v hv => Reachable.mem_nodes hstart ((horder.mem_iff v).mp hv)).length_le
  constructor
  · rintro s rfl weights weightFn hweights hsafe goal
    obtain ⟨sorted, neighborEdgeMap, horder, hedges, heq⟩ := htopo true
    obtain ⟨edges, rfl, hget⟩ := hedges rfl
    have hlengthen : ∀ x ∈ sorted, ∀ t, lengthenFrom provider direction options weightFn (some edges) t x =
        if t.dist.has x then (neighborsOf provider direction options x).foldl (lengthenEdge weightFn x) t else t := by
      intro x hx t
      rw [lengthenFrom]
      dsimp only
      rw [hget x hx, Option.getD_some]
    obtain ⟨hnone, hsome⟩ := (lengthened_of_order horder hacyclic hsafe hlengthen).spec horder
    have hvalid : validateStart provider s = .ok () := by
      rw [validateStart, if_pos (hstart s List.mem_cons_self)]
      rfl
    unfold weightedLongestPath
    rw [hweights, heq]
    simp only [hvalid, bind, Except.bind]
    cases hgoal : (sorted.foldl (lengthenFrom provider direction options weightFn (some edges))
        ⟨JsMap.empty.set s (.finite 0), .empty⟩).dist.get goal with
    | none => exact Or.inl ⟨rfl, (hnone goal).mp hgoal⟩
    | some n =>
        obtain ⟨d, rfl, hd⟩ := hsome goal n hgoal
        obtain ⟨hwalk, hgreatest⟩ := hd provider.nodes.length (hnodes horder)
        exact Or.inr ⟨_, d, rfl, hwalk, hgreatest⟩
  · obtain ⟨sorted, neighborEdgeMap, horder, -, heq⟩ := htopo false
    have hraised := raised_of_order horder hacyclic
    refine ⟨_, by rw [levels, heq]; rfl, fun v => (hraised.has v).trans (horder.mem_iff v),
      fun v l hl => hraised.spec horder hl, hraised.bounded, fun hne => ?_⟩
    rcases hraised.attained with hzero | hattained
    · obtain ⟨s, hs⟩ := List.exists_mem_of_ne_nil start hne
      obtain ⟨l, hl⟩ := (hraised.has s).mpr ((horder.mem_iff s).mpr ⟨s, hs, .refl⟩)
      have hle := hraised.bounded s l hl
      rw [hzero, Nat.le_zero] at hle
      subst hle
      exact ⟨s, hl.trans (congrArg some hzero.symm)⟩
    · exact hattained

end Results

/-! ### A limit that stops the sort, and a sum that is rounded -/

/-- Where every edge leads to a later node and weighs one, sums stay small. -/
theorem Example.safeWeights_providerOf {vertices : List JsString} {arcs : List (JsString × JsString)}
    (h : ∀ arc ∈ arcs, vertices.idxOf arc.1 < vertices.idxOf arc.2) (hfew : vertices.length ≤ 2 ^ 53) (start : JsString) :
    SafeWeights (neighborsOf (Example.providerOf vertices arcs) .out none) (fun _ _ _ => .finite 1) start := by
  have hone : ∀ {u v w}, WeightedArc (neighborsOf (Example.providerOf vertices arcs) .out none) (fun _ _ _ => .finite 1)
      u v w → w = 1 := by
    rintro u v w ⟨edge, -, -, hw⟩
    exact (JsNumber.ofInt_injective ((congrArg JsNumber.finite Int.cast_one).trans hw)).symm
  refine ⟨fun u _ edge _ => ⟨1, (congrArg JsNumber.finite Int.cast_one).symm⟩, fun v path c hwalk => ?_⟩
  have hnonneg : 0 ≤ c := by
    induction hwalk with
    | nil => exact le_rfl
    | cons harc _ ih => exact add_nonneg ((hone harc).symm ▸ zero_le_one) ih
  have hplace := (hwalk.le_potential (P := fun _ => True) (f := fun v => (vertices.idxOf v : ℤ)) (fun u v w _ harc => by
    have hless := h _ (Example.step_providerOf harc.step)
    rw [hone harc]
    exact ⟨trivial, by dsimp only at hless ⊢; omega⟩) trivial).2
  have hlast : vertices.idxOf v ≤ vertices.length := List.idxOf_le_length
  rw [abs_of_nonneg hnonneg]
  omega

/-- An edge from `s` to `g`, and two edges around it through `a`. -/
def Example.detour : NeighborProvider :=
  Example.providerOf [js "s", js "a", js "g"] [(js "s", js "a"), (js "s", js "g"), (js "a", js "g")]

/-- The way around weighs more than sums are exact for. -/
def Example.heavyWeight (source target _label : JsString) : JsNumber :=
  if source = js "a" then .finite 2 else if target = js "a" then .finite (2 ^ 53 - 1) else .finite 0

/-- A limit of one node leaves the shorter path; a sum that is rounded is not the weight of its path. -/
theorem longestPath_stopped_and_rounded :
    ¬ Cyclic (neighborsOf Example.detour .out none) [js "s"] ∧
    ((weightedLongestPath Example.detour .out none (js "s") (js "g") ⟨none, none⟩ 1).toOption =
        some ⟨[js "s", js "g"], .finite 1⟩ ∧
      IsWalk (WeightedArc (neighborsOf Example.detour .out none) fun _ _ _ => .finite 1) (js "s") (js "g")
        [js "s", js "a", js "g"] (1 + (1 + 0))) ∧
    (weightedLongestPath Example.detour .out none (js "s") (js "g") ⟨some Example.heavyWeight, none⟩ 3).toOption =
        some ⟨[js "s", js "a", js "g"], .finite (2 ^ 53)⟩ ∧
      IsWalk (WeightedArc (neighborsOf Example.detour .out none) Example.heavyWeight) (js "s") (js "g")
        [js "s", js "a", js "g"] (2 ^ 53 - 1 + (2 + 0)) := by
  have hfirst : ⟨js "a", js "to"⟩ ∈ neighborsOf Example.detour .out none (js "s") := by decide
  have hsecond : ⟨js "g", js "to"⟩ ∈ neighborsOf Example.detour .out none (js "a") := by decide
  refine ⟨Example.not_cyclic_providerOf (by decide) _, ⟨by decide +kernel, ?_⟩, by decide +kernel, ?_⟩
  · exact .cons ⟨_, hfirst, rfl, by decide +kernel⟩ (.cons ⟨_, hsecond, rfl, by decide +kernel⟩ (.nil _))
  · exact .cons ⟨_, hfirst, rfl, by decide +kernel⟩ (.cons ⟨_, hsecond, rfl, by decide +kernel⟩ (.nil _))

theorem longestPath_levels_detour :
    (∃ path c, weightedLongestPath Example.detour .out none (js "s") (js "g") ⟨none, none⟩ 3 = .ok ⟨path, .ofInt c⟩ ∧
      2 ≤ c) ∧
    ∃ result, levels Example.detour .out none [js "s"] 3 = .ok result ∧
      ∃ v, result.levels.get v = some result.maxLevel := by
  obtain ⟨hpaths, result, hresult, -, -, -, hattained⟩ := longestPath_levels_spec Example.detour .out none [js "s"]
    (by decide) (Example.not_cyclic_providerOf (by decide) _) 3 (ncard_reachable_le Example.detour .out none (by decide))
  refine ⟨?_, result, hresult, hattained (List.cons_ne_nil _ _)⟩
  have hround : IsWalk (WeightedArc (neighborsOf Example.detour .out none) fun _ _ _ => .finite 1) (js "s") (js "g")
      [js "s", js "a", js "g"] (1 + (1 + 0)) :=
    .cons ⟨⟨js "a", js "to"⟩, by decide, rfl, by decide +kernel⟩
      (.cons ⟨⟨js "g", js "to"⟩, by decide, rfl, by decide +kernel⟩ (.nil _))
  rcases hpaths _ rfl ⟨none, none⟩ _ rfl (Example.safeWeights_providerOf (by decide) (by decide) _) (js "g") with
    ⟨-, hnone⟩ | ⟨path, c, hrun, -, hgreatest⟩
  · exact absurd ⟨_, _, hround⟩ hnone
  · exact ⟨path, c, hrun, hgreatest _ _ hround⟩

end GraphTraversal

end GitWarp
