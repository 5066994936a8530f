import GitWarp.ReducerDiff

/-! The log of one operation is exact where every dot belongs to one element: an add raises at most its own
element, and the reverse index of a remove finds every element that dies. The merged log is then the net
change since the last patch in which the element went both ways. -/

namespace GitWarp
open Js ExceptLoops

variable {V : Type}

/-- No dot occurs under two elements. -/
def ORSet.Owned (set : ORSet) : Prop :=
  ∀ x y d, d ∈ set.dotsOf x → d ∈ set.dotsOf y → x = y

/-! ### The reverse index -/

/-- The scan order of `buildDotToElement`. -/
def ORSet.pairs (set : ORSet) : List (JsString × JsString) :=
  set.entries.entries.flatMap fun entry => entry.2.elems.map fun d => (entry.1, d)

theorem mem_pairs (set : ORSet) (x d : JsString) : (x, d) ∈ set.pairs ↔ d ∈ set.dotsOf x := by
  rw [ORSet.pairs, List.mem_flatMap, ORSet.mem_dotsOf_iff]
  constructor
  · rintro ⟨⟨y, dots⟩, hentry, hmem⟩
    obtain ⟨d', hd', heq⟩ := List.mem_map.mp hmem
    obtain ⟨rfl, rfl⟩ := Prod.mk.inj heq
    exact ⟨dots, (JsMap.get_eq_some_iff _ _ _).mpr hentry, hd'⟩
  · rintro ⟨dots, hget, hmem⟩
    exact ⟨(x, dots), (JsMap.get_eq_some_iff _ _ _).mp hget, List.mem_map.mpr ⟨d, hmem, rfl⟩⟩

theorem nodup_pairs (set : ORSet) : set.pairs.Nodup := by
  refine List.nodup_flatMap.mpr ⟨fun entry _ => ?_, ?_⟩
  · exact entry.2.nodup.map fun a b h => congrArg Prod.snd h
  · have hkeys := List.pairwise_map.mp (List.nodup_iff_pairwise_ne.mp set.entries.nodup)
    refine hkeys.imp fun hne p hp hp' => ?_
    obtain ⟨d, -, rfl⟩ := List.mem_map.mp hp
    obtain ⟨d', -, heq⟩ := List.mem_map.mp hp'
    exact hne (congrArg Prod.fst heq).symm

theorem nodup_pairs_snd {set : ORSet} (howned : set.Owned) : (set.pairs.map Prod.snd).Nodup := by
  refine (nodup_pairs set).map_on fun p hp q hq hsnd => ?_
  obtain ⟨x, d⟩ := p
  obtain ⟨y, d'⟩ := q
  simp only at hsnd
  subst hsnd
  rw [howned x y d ((mem_pairs set x d).mp hp) ((mem_pairs set y d).mp hq)]

theorem foldl_scanPair_done (targetDots : JsSet JsString) (pairs : List (JsString × JsString))
    (m : JsMap JsString JsString) : pairs.foldl (scanPair targetDots) (m, 0) = (m, 0) := by
  induction pairs with
  | nil => rfl
  | cons pair rest ih => exact ih

/-- The scan finds the element of every target dot; it stops early only when all were found. -/
theorem get_foldl_scanPair (targetDots : JsSet JsString) (pairs : List (JsString × JsString))
    (hnodup : (pairs.map Prod.snd).Nodup) (m : JsMap JsString JsString) (remaining : Nat)
    (seen : List JsString) (hseen : seen.Nodup) (hsub : ∀ d ∈ seen, d ∈ targetDots)
    (hcount : seen.length + remaining = targetDots.size)
    (hdisjoint : ∀ d ∈ seen, d ∉ pairs.map Prod.snd) (d x : JsString) :
    (pairs.foldl (scanPair targetDots) (m, remaining)).1.get d = some x ↔
      (m.get d = some x ∧ (d ∈ targetDots → d ∉ pairs.map Prod.snd)) ∨
        ((x, d) ∈ pairs ∧ d ∈ targetDots) := by
  induction pairs generalizing m remaining seen with
  | nil => simp
  | cons pair rest ih =>
      obtain ⟨y, e⟩ := pair
      rw [List.map_cons, List.nodup_cons] at hnodup
      have hdisjointRest : ∀ d ∈ seen, d ∉ rest.map Prod.snd := fun d hd hmem =>
        hdisjoint d hd (List.mem_cons_of_mem _ hmem)
      rw [List.foldl_cons]
      rcases Nat.eq_zero_or_pos remaining with hdone | hopen
      · -- every target dot was seen before, so none is left to find
        subst hdone
        have hall : ∀ t ∈ targetDots, t ∈ seen := by
          have hperm : seen.Perm targetDots.elems :=
            (List.subperm_of_subset hseen hsub).perm_of_length_le (by
              rw [← Nat.add_zero seen.length, hcount]
              exact le_rfl)
          exact fun t ht => hperm.mem_iff.mpr ht
        rw [show scanPair targetDots (m, 0) (y, e) = (m, 0) from rfl, foldl_scanPair_done]
        constructor
        · exact fun hget => Or.inl ⟨hget, fun ht => hdisjoint d (hall d ht)⟩
        · rintro (⟨hget, -⟩ | ⟨hmem, ht⟩)
          · exact hget
          · exact absurd (List.mem_map.mpr ⟨_, hmem, rfl⟩) (hdisjoint d (hall d ht))
      · by_cases he : e ∈ targetDots
        · have hstep : scanPair targetDots (m, remaining) (y, e) = (m.set e y, remaining - 1) := by
            simp [scanPair, hopen.ne', he]
          have hfresh : e ∉ seen := fun h => hdisjoint e h List.mem_cons_self
          rw [hstep, ih hnodup.2 _ _ (e :: seen) (List.nodup_cons.mpr ⟨hfresh, hseen⟩) ?_ ?_ ?_]
          · rw [JsMap.get_set, List.map_cons, List.mem_cons, List.mem_cons, Prod.mk.injEq]
            by_cases hde : d = e
            · subst hde
              have hnot : ∀ x, (x, d) ∉ rest := fun x h => hnodup.1 (List.mem_map.mpr ⟨_, h, rfl⟩)
              have hnot' : d ∉ rest.map Prod.snd := hnodup.1
              simp [he, hnot, hnot', eq_comm]
            · simp [hde]
          · intro t ht
            rcases List.mem_cons.mp ht with rfl | ht
            · exact he
            · exact hsub t ht
          · rw [List.length_cons]
            omega
          · intro t ht
            rcases List.mem_cons.mp ht with rfl | ht
            · exact hnodup.1
            · exact hdisjointRest t ht
        · have hstep : scanPair targetDots (m, remaining) (y, e) = (m, remaining) := by
            simp [scanPair, hopen.ne', he]
          rw [hstep, ih hnodup.2 m remaining seen hseen hsub hcount hdisjointRest]
          rw [List.map_cons, List.mem_cons, List.mem_cons, Prod.mk.injEq]
          by_cases hde : d = e
          · subst hde
            simp [he]
          · simp [hde]

theorem get_buildDotToElement {set : ORSet} (howned : set.Owned) (targetDots : JsSet JsString)
    (d x : JsString) :
    (buildDotToElement set targetDots).get d = some x ↔ d ∈ set.dotsOf x ∧ d ∈ targetDots := by
  have hscan := get_foldl_scanPair targetDots set.pairs (nodup_pairs_snd howned) JsMap.empty
    targetDots.size [] List.nodup_nil (by simp) (by simp) (by simp) d x
  simp only [JsMap.get_empty, reduceCtorEq, false_and, false_or, mem_pairs] at hscan
  exact hscan

theorem mem_aliveElementsForDots {set : ORSet} (howned : set.Owned) (observedDots : JsSet JsString)
    (x : JsString) :
    x ∈ aliveElementsForDots set observedDots ↔
      orsetContains set x = true ∧ ∃ d ∈ observedDots, d ∈ set.dotsOf x := by
  obtain ⟨step, halive, hstep⟩ : ∃ step : JsSet JsString → JsString → JsSet JsString,
      aliveElementsForDots set observedDots = observedDots.elems.foldl step JsSet.empty ∧
        ∀ result d, step result d = ((buildDotToElement set observedDots).get d).elim result fun element =>
          if result.has element = false ∧ orsetContains set element then result.add element else result := by
    refine ⟨_, rfl, fun result d => ?_⟩
    cases (buildDotToElement set observedDots).get d <;> rfl
  have hloop : ∀ (ds : List JsString) (result : JsSet JsString), x ∈ ds.foldl step result ↔
      x ∈ result ∨ (orsetContains set x = true ∧
        ∃ d ∈ ds, (buildDotToElement set observedDots).get d = some x) := by
    intro ds
    induction ds with
    | nil => simp
    | cons d rest ih =>
        intro result
        rw [List.foldl_cons, ih, hstep]
        cases hget : (buildDotToElement set observedDots).get d with
        | none => simp [hget]
        | some element =>
            by_cases hcond : result.has element = false ∧ orsetContains set element = true
            · simp only [Option.elim_some, if_pos hcond, JsSet.mem_add, List.exists_mem_cons_iff, hget,
                Option.some.injEq]
              by_cases hx : element = x
              · subst hx
                simp [hcond.2]
              · have hx' : x ≠ element := fun h => hx h.symm
                simp [hx, hx']
            · simp only [Option.elim_some, if_neg hcond, List.exists_mem_cons_iff, hget, Option.some.injEq]
              by_cases hx : element = x
              · subst hx
                cases hhas : result.has element with
                | true =>
                    have hmem := (JsSet.has_iff _ _).mp hhas
                    simp [hmem]
                | false =>
                    have hdead : orsetContains set element = false := by
                      cases hc : orsetContains set element with
                      | false => rfl
                      | true => exact absurd ⟨hhas, hc⟩ hcond
                    simp [hdead]
              · simp [hx]
  rw [halive]
  refine (hloop observedDots.elems JsSet.empty).trans ?_
  simp only [JsSet.not_mem_empty, false_or, get_buildDotToElement howned]
  refine and_congr_right fun _ => ⟨?_, ?_⟩
  · rintro ⟨d, -, hd, hmem⟩
    exact ⟨d, hmem, hd⟩
  · rintro ⟨d, hmem, hd⟩
    exact ⟨d, hmem, hd, hmem⟩

/-! ### What adds and removes do to an element -/

theorem orsetContains_orsetAdd (set : ORSet) (element : JsString) (dot : Dot) {x : JsString}
    (hx : x ≠ element) : orsetContains (orsetAdd set element dot) x = orsetContains set x := by
  apply orsetContains_eq_of_view
  rw [view_orsetAdd]
  simp only [AddWins.Alive, AddWins.mem_adds_sup, AddWins.mem_tombs_sup]
  simp [AddWins.added, hx]

theorem orsetContains_orsetAdd_of_contains {set : ORSet} {x : JsString}
    (h : orsetContains set x = true) (element : JsString) (dot : Dot) :
    orsetContains (orsetAdd set element dot) x = true := by
  rw [orsetContains_iff, view_orsetAdd] at *
  obtain ⟨d, hadd, hlive⟩ := h
  exact ⟨d, Or.inl hadd, fun hdead => hdead.elim hlive id⟩

theorem orsetContains_of_orsetRemove {set : ORSet} {x : JsString} {observedDots : List JsString}
    (h : orsetContains (orsetRemove set observedDots) x = true) : orsetContains set x = true := by
  rw [orsetContains_iff, view_orsetRemove] at *
  obtain ⟨d, hadd, hlive⟩ := h
  exact ⟨d, hadd.elim id fun h => h.elim, fun hdead => hlive (Or.inl hdead)⟩

/-- An element that dies in a remove owns one of the observed dots. -/
theorem exists_observed_of_died {set : ORSet} {x : JsString} {observedDots : List JsString}
    (halive : orsetContains set x = true)
    (hdead : orsetContains (orsetRemove set observedDots) x = false) :
    ∃ d ∈ observedDots, d ∈ set.dotsOf x := by
  obtain ⟨d, hadd, hlive⟩ := (orsetContains_iff set x).mp halive
  have hdead' : ¬ (orsetRemove set observedDots).view.Alive x := by
    rw [← orsetContains_iff, hdead]
    exact Bool.false_ne_true
  rw [view_orsetRemove] at hdead'
  by_contra hnone
  refine hdead' ⟨d, Or.inl hadd, ?_⟩
  rintro (htomb | hobserved)
  · exact hlive htomb
  · exact hnone ⟨d, hobserved, hadd⟩

/-- The removal log of a remove lists exactly the elements that die in it, each once. -/
theorem count_diedSince {set : ORSet} (howned : set.Owned) (observedDots : List JsString)
    (x : JsString) :
    (diedSince (orsetRemove set observedDots)
      (aliveElementsForDots set (JsSet.ofList observedDots))).count x =
      if orsetContains set x = true ∧ orsetContains (orsetRemove set observedDots) x = false then 1
      else 0 := by
  have hnodup : (diedSince (orsetRemove set observedDots)
      (aliveElementsForDots set (JsSet.ofList observedDots))).Nodup := JsSet.nodup _ |>.filter _
  have hmem : x ∈ diedSince (orsetRemove set observedDots)
      (aliveElementsForDots set (JsSet.ofList observedDots)) ↔
      orsetContains set x = true ∧ orsetContains (orsetRemove set observedDots) x = false := by
    rw [diedSince, List.mem_filter, JsSet.mem_elems, mem_aliveElementsForDots howned,
      Bool.not_eq_true']
    constructor
    · rintro ⟨⟨halive, -⟩, hdead⟩
      exact ⟨halive, hdead⟩
    · rintro ⟨halive, hdead⟩
      obtain ⟨d, hd, hown⟩ := exists_observed_of_died halive hdead
      exact ⟨⟨halive, d, (JsSet.mem_ofList _ _).mpr hd, hown⟩, hdead⟩
  by_cases h : orsetContains set x = true ∧ orsetContains (orsetRemove set observedDots) x = false
  · rw [if_pos h]
    exact List.count_eq_one_of_mem hnodup (hmem.mpr h)
  · rw [if_neg h]
    exact List.count_eq_zero.mpr fun hx => h (hmem.mp hx)

end GitWarp
