import GitWarp.CrdtVersionVector
import GitWarp.LibraryAddWins
import GitWarp.LibraryExceptLoops

/-! The OR-Set: the encoded dots each element was added under, and the encoded dots that were removed.
`ORSet.view` forgets insertion order and reads it as an add-wins set; each operation has one lemma
that says what it does to the view. -/

namespace GitWarp
open Js ExceptLoops

structure ORSet where
  entries : JsMap JsString (JsSet JsString)
  tombstones : JsSet JsString
  deriving DecidableEq

def createORSet : ORSet := ⟨JsMap.empty, JsSet.empty⟩

namespace ORSet

/-- `set.entries.get(element)`, with no entry read as the empty set. -/
def dotsOf (set : ORSet) (element : JsString) : JsSet JsString :=
  (set.entries.get element).getD JsSet.empty

def view (set : ORSet) : AddWins JsString JsString where
  adds := {p | p.2 ∈ set.dotsOf p.1}
  tombs := {d | d ∈ set.tombstones}

/-- No element is kept without a dot. -/
def Filled (set : ORSet) : Prop :=
  ∀ element dots, set.entries.get element = some dots → ∃ d, d ∈ dots

theorem mem_adds_view (set : ORSet) (element encoded : JsString) :
    (element, encoded) ∈ set.view.adds ↔ encoded ∈ set.dotsOf element := Iff.rfl

theorem mem_tombs_view (set : ORSet) (encoded : JsString) :
    encoded ∈ set.view.tombs ↔ encoded ∈ set.tombstones := Iff.rfl

theorem mem_dotsOf_iff (set : ORSet) (element encoded : JsString) :
    encoded ∈ set.dotsOf element ↔ ∃ dots, set.entries.get element = some dots ∧ encoded ∈ dots := by
  unfold dotsOf
  cases set.entries.get element with
  | none => simp
  | some dots => simp

end ORSet

def orsetAdd (set : ORSet) (element : JsString) (dot : Dot) : ORSet :=
  { set with entries := set.entries.set element ((set.dotsOf element).add (encodeDot dot)) }

def orsetRemove (set : ORSet) (observedDots : List JsString) : ORSet :=
  { set with tombstones := set.tombstones.addAll observedDots }

def orsetContains (set : ORSet) (element : JsString) : Bool :=
  match set.entries.get element with
  | none => false
  | some dots => dots.elems.any fun encodedDot => !set.tombstones.has encodedDot

def orsetElements (set : ORSet) : List JsString :=
  set.entries.keys.filter (orsetContains set)

def orsetGetDots (set : ORSet) (element : JsString) : JsSet JsString :=
  match set.entries.get element with
  | none => JsSet.empty
  | some dots => dots.filter fun encodedDot => !set.tombstones.has encodedDot

def orsetJoin (a b : ORSet) : ORSet where
  entries := a.entries.mergeWith (fun existing dots =>
    some (match existing with
      | some known => known.addAll dots.elems
      | none => dots)) b.entries
  tombstones := a.tombstones.addAll b.tombstones.elems

/-- The dots one entry of the set loses to compaction: those that are tombstoned and covered. -/
def compactEntry (set : ORSet) (includedVV : VersionVector) (entry : JsString × JsSet JsString) :
    Except JsError (List (JsString × JsString)) :=
  collectM (fun encodedDot => do
    let dot ← decodeDot encodedDot
    return if set.tombstones.has encodedDot && vvContains includedVV dot then [(entry.1, encodedDot)]
      else []) entry.2.elems

/-- Applies one deletion: the dot leaves its element, an element left without dots leaves the map,
and the tombstone goes. -/
def deleteDot (set : ORSet) (target : JsString × JsString) : ORSet where
  entries :=
    match set.entries.get target.1 with
    | none => set.entries
    | some dots =>
        let rest := dots.delete target.2
        if rest.size = 0 then set.entries.delete target.1 else set.entries.set target.1 rest
  tombstones := set.tombstones.delete target.2

def orsetCompact (set : ORSet) (includedVV : VersionVector) : Except JsError ORSet := do
  let toDelete ← collectM (compactEntry set includedVV) set.entries.entries
  return toDelete.foldl deleteDot set

/-! ### What the operations do to the view -/

theorem view_createORSet : createORSet.view = ⊥ := by
  apply AddWins.ext
  · ext p
    exact iff_of_false (JsSet.not_mem_empty p.2) (AddWins.not_mem_adds_bot p)
  · ext d
    exact iff_of_false (JsSet.not_mem_empty d) (AddWins.not_mem_tombs_bot d)

theorem dotsOf_orsetAdd (set : ORSet) (element element' : JsString) (dot : Dot) :
    (orsetAdd set element dot).dotsOf element' =
      if element' = element then (set.dotsOf element).add (encodeDot dot)
      else set.dotsOf element' := by
  unfold ORSet.dotsOf orsetAdd
  rw [JsMap.get_set]
  split <;> rfl

theorem view_orsetAdd (set : ORSet) (element : JsString) (dot : Dot) :
    (orsetAdd set element dot).view = set.view ⊔ AddWins.added element (encodeDot dot) := by
  apply AddWins.ext
  · ext ⟨element', encoded⟩
    rw [AddWins.mem_adds_sup, ORSet.mem_adds_view, ORSet.mem_adds_view, dotsOf_orsetAdd]
    by_cases h : element' = element
    · subst h
      simp [AddWins.added, or_comm]
    · simp [AddWins.added, h]
  · ext encoded
    simp [orsetAdd, ORSet.mem_tombs_view, AddWins.added]

theorem view_orsetRemove (set : ORSet) (observedDots : List JsString) :
    (orsetRemove set observedDots).view = set.view ⊔ AddWins.removed {d | d ∈ observedDots} := by
  apply AddWins.ext
  · ext p
    simp [orsetRemove, ORSet.view, ORSet.dotsOf, AddWins.removed]
  · ext encoded
    simp [orsetRemove, ORSet.mem_tombs_view, AddWins.removed]

theorem view_orsetJoin (a b : ORSet) : (orsetJoin a b).view = a.view ⊔ b.view := by
  apply AddWins.ext
  · ext ⟨element, encoded⟩
    rw [AddWins.mem_adds_sup, ORSet.mem_adds_view, ORSet.mem_adds_view, ORSet.mem_adds_view]
    unfold ORSet.dotsOf orsetJoin
    rw [JsMap.get_mergeWith]
    cases a.entries.get element <;> cases b.entries.get element <;>
      simp [JsMap.mergedValue]
  · ext encoded
    simp [orsetJoin, ORSet.mem_tombs_view]

theorem orsetContains_iff (set : ORSet) (element : JsString) :
    orsetContains set element = true ↔ set.view.Alive element := by
  simp only [orsetContains, AddWins.Alive, ORSet.mem_adds_view, ORSet.mem_tombs_view,
    ORSet.mem_dotsOf_iff]
  cases set.entries.get element with
  | none => simp
  | some dots => simp [JsSet.has]

theorem orsetContains_eq_of_view {a b : ORSet} {element : JsString}
    (h : a.view.Alive element ↔ b.view.Alive element) :
    orsetContains a element = orsetContains b element := by
  rw [Bool.eq_iff_iff, orsetContains_iff, orsetContains_iff, h]

theorem mem_orsetElements (set : ORSet) (element : JsString) :
    element ∈ orsetElements set ↔ orsetContains set element = true := by
  unfold orsetElements
  rw [List.mem_filter, and_iff_right_iff_imp]
  intro h
  rw [JsMap.mem_keys_iff]
  unfold orsetContains at h
  cases hget : set.entries.get element with
  | none => rw [hget] at h; cases h
  | some dots => rfl

theorem mem_orsetGetDots (set : ORSet) (element encoded : JsString) :
    encoded ∈ orsetGetDots set element ↔
      encoded ∈ set.dotsOf element ∧ encoded ∉ set.tombstones := by
  unfold orsetGetDots ORSet.dotsOf
  cases set.entries.get element with
  | none => simp
  | some dots => simp [JsSet.has]

/-! ### Compaction drops dots that were removed -/

/-- The dots that compaction drops. -/
def ORSet.compactable (set : ORSet) (includedVV : VersionVector) : Set JsString :=
  {encoded | encoded ∈ set.tombstones ∧ (∃ element, encoded ∈ set.dotsOf element) ∧
    ∃ dot, decodeDot encoded = .ok dot ∧ vvContains includedVV dot = true}

theorem view_deleteDot (set : ORSet) (target : JsString × JsString) :
    (deleteDot set target).view =
      ⟨{p | p ∈ set.view.adds ∧ p ≠ target}, {d | d ∈ set.view.tombs ∧ d ≠ target.2}⟩ := by
  obtain ⟨element, encoded⟩ := target
  apply AddWins.ext
  · ext ⟨element', encoded'⟩
    simp only [ORSet.mem_adds_view, Set.mem_ofPred_eq, ne_eq, Prod.mk.injEq, not_and]
    unfold ORSet.dotsOf deleteDot
    cases hget : set.entries.get element with
    | none =>
        simp only
        constructor
        · intro hmem
          refine ⟨hmem, ?_⟩
          rintro rfl
          simp [hget] at hmem
        · exact And.left
    | some dots =>
        simp only
        by_cases hsize : (dots.delete encoded).size = 0
        · rw [if_pos hsize, JsMap.get_delete]
          have hall : ∀ d ∈ dots, d = encoded := by
            intro d hd
            by_contra hne
            exact (JsSet.size_eq_zero_iff _).mp hsize d ((JsSet.mem_delete _ _ _).mpr ⟨hd, hne⟩)
          by_cases helement : element' = element
          · subst helement
            simp only [if_true, Option.getD_none, JsSet.not_mem_empty, hget, Option.getD_some,
              forall_const, false_iff, not_and, not_not]
            exact fun hmem => hall _ hmem
          · simp [helement]
        · rw [if_neg hsize, JsMap.get_set]
          by_cases helement : element' = element
          · subst helement
            simp [hget]
          · simp [helement]
  · ext encoded'
    simp [deleteDot, ORSet.mem_tombs_view]

theorem view_foldl_deleteDot (targets : List (JsString × JsString)) (set : ORSet) :
    (targets.foldl deleteDot set).view =
      ⟨{p | p ∈ set.view.adds ∧ p ∉ targets}, {d | d ∈ set.view.tombs ∧ ∀ e, (e, d) ∉ targets}⟩ := by
  induction targets generalizing set with
  | nil => simp
  | cons target rest ih =>
      rw [List.foldl_cons, ih, view_deleteDot]
      apply AddWins.ext
      · ext p
        simp only [Set.mem_ofPred_eq, List.mem_cons, not_or, and_assoc]
      · ext d
        obtain ⟨element, encoded⟩ := target
        simp only [Set.mem_ofPred_eq, List.mem_cons, Prod.mk.injEq, not_or, not_and, and_assoc]
        constructor
        · rintro ⟨hd, hne, hrest⟩
          exact ⟨hd, fun e => ⟨fun _ => hne, hrest e⟩⟩
        · rintro ⟨hd, hrest⟩
          exact ⟨hd, (hrest element).1 rfl, fun e => (hrest e).2⟩

theorem mem_toDelete {set : ORSet} {includedVV : VersionVector} {toDelete : List (JsString × JsString)}
    (h : collectM (compactEntry set includedVV) set.entries.entries = .ok toDelete)
    (element encoded : JsString) :
    (element, encoded) ∈ toDelete ↔
      encoded ∈ set.dotsOf element ∧ encoded ∈ set.compactable includedVV := by
  rw [mem_of_collectM_ok h, ORSet.mem_dotsOf_iff]
  constructor
  · rintro ⟨⟨element', dots⟩, hentry, zs, hzs, hmem⟩
    obtain ⟨encoded', hencoded, ws, hws, hmem'⟩ := (mem_of_collectM_ok hzs _).mp hmem
    cases hdot : decodeDot encoded' with
    | error err => rw [hdot] at hws; cases hws
    | ok dot =>
        rw [hdot] at hws
        simp only [bind, Except.bind, pure, Except.pure, Except.ok.injEq] at hws
        subst hws
        split at hmem'
        · rename_i hcond
          rw [List.mem_singleton, Prod.mk.injEq] at hmem'
          obtain ⟨rfl, rfl⟩ := hmem'
          rw [Bool.and_eq_true, JsSet.has_iff] at hcond
          have hget := (JsMap.get_eq_some_iff _ _ _).mpr hentry
          exact ⟨⟨dots, hget, hencoded⟩, hcond.1,
            ⟨element, (set.mem_dotsOf_iff _ _).mpr ⟨dots, hget, hencoded⟩⟩, dot, hdot, hcond.2⟩
        · cases hmem'
  · rintro ⟨⟨dots, hget, hencoded⟩, htomb, -, dot, hdot, hcovered⟩
    have hentry := (JsMap.get_eq_some_iff _ _ _).mp hget
    have hok := (exists_collectM_ok_iff.mp ⟨toDelete, h⟩) _ hentry
    obtain ⟨zs, hzs⟩ := hok
    refine ⟨_, hentry, zs, hzs,
      (mem_of_collectM_ok hzs _).mpr ⟨encoded, hencoded, [(element, encoded)], ?_, ?_⟩⟩
    · rw [hdot]
      simp [bind, Except.bind, pure, Except.pure, htomb, hcovered]
    · exact List.mem_singleton_self _

/-- Compaction drops exactly the dots that are present, tombstoned and covered by the vector. -/
theorem view_orsetCompact {set set' : ORSet} {includedVV : VersionVector}
    (h : orsetCompact set includedVV = .ok set') :
    set'.view = set.view.drop (set.compactable includedVV) := by
  unfold orsetCompact at h
  cases hdelete : collectM (compactEntry set includedVV) set.entries.entries with
  | error err => rw [hdelete] at h; cases h
  | ok toDelete =>
      rw [hdelete] at h
      cases h
      rw [view_foldl_deleteDot]
      apply AddWins.ext
      · ext ⟨element, encoded⟩
        simp only [AddWins.drop, Set.mem_ofPred_eq, mem_toDelete hdelete, ← ORSet.mem_adds_view]
        tauto
      · ext encoded
        simp only [AddWins.drop, Set.mem_ofPred_eq, Set.mem_sdiff, mem_toDelete hdelete, not_and]
        constructor
        · rintro ⟨hd, hnot⟩
          exact ⟨hd, fun hc => hc.2.1.elim fun element hmem => hnot element hmem hc⟩
        · rintro ⟨hd, hnot⟩
          exact ⟨hd, fun _ _ => hnot⟩

theorem compactable_subset_tombs (set : ORSet) (includedVV : VersionVector) :
    set.compactable includedVV ⊆ set.view.tombs := fun _ h => h.1

theorem compactable_subset_dots (set : ORSet) (includedVV : VersionVector) :
    set.compactable includedVV ⊆ set.view.dots := fun _ h => h.2.1

/-- Compaction throws only on a dot that cannot be decoded. -/
theorem exists_orsetCompact_ok {set : ORSet}
    (hdots : ∀ element, ∀ encoded ∈ set.dotsOf element, ∃ dot, decodeDot encoded = .ok dot)
    (includedVV : VersionVector) : ∃ set', orsetCompact set includedVV = .ok set' := by
  have hcollect : ∃ toDelete,
      collectM (compactEntry set includedVV) set.entries.entries = .ok toDelete := by
    refine exists_collectM_ok_iff.mpr fun entry hentry => exists_collectM_ok_iff.mpr fun encoded henc => ?_
    have hget := (JsMap.get_eq_some_iff set.entries entry.1 entry.2).mpr hentry
    obtain ⟨dot, hdot⟩ := hdots entry.1 encoded ((set.mem_dotsOf_iff _ _).mpr ⟨_, hget, henc⟩)
    rw [hdot]
    exact ⟨_, rfl⟩
  obtain ⟨toDelete, htoDelete⟩ := hcollect
  unfold orsetCompact
  rw [htoDelete]
  exact ⟨_, rfl⟩

/-! ### Elements are kept only with a dot -/

theorem filled_createORSet : createORSet.Filled := by
  intro element dots h
  cases h

theorem filled_orsetAdd {set : ORSet} (hfilled : set.Filled) (element : JsString) (dot : Dot) :
    (orsetAdd set element dot).Filled := by
  intro element' dots h
  simp only [orsetAdd, JsMap.get_set] at h
  split at h
  · cases h
    exact ⟨encodeDot dot, by simp⟩
  · exact hfilled element' dots h

theorem filled_orsetRemove {set : ORSet} (hfilled : set.Filled) (observedDots : List JsString) :
    (orsetRemove set observedDots).Filled := hfilled

theorem filled_orsetJoin {a b : ORSet} (ha : a.Filled) (hb : b.Filled) : (orsetJoin a b).Filled := by
  intro element dots h
  simp only [orsetJoin, JsMap.get_mergeWith] at h
  cases hga : a.entries.get element with
  | none =>
      cases hgb : b.entries.get element with
      | none => simp [hga, hgb, JsMap.mergedValue] at h
      | some dotsB =>
          simp only [hga, hgb, JsMap.mergedValue, Option.or_none, Option.some.injEq] at h
          subst h
          exact hb element _ hgb
  | some dotsA =>
      obtain ⟨d, hd⟩ := ha element dotsA hga
      cases hgb : b.entries.get element with
      | none =>
          simp only [hga, hgb, JsMap.mergedValue, Option.some.injEq] at h
          subst h
          exact ⟨d, hd⟩
      | some dotsB =>
          simp only [hga, hgb, JsMap.mergedValue, Option.or_some, Option.getD_some,
            Option.some.injEq] at h
          subst h
          exact ⟨d, (JsSet.mem_addAll _ _ _).mpr (Or.inl hd)⟩

/-- Equality of OR-Sets as maps to sets, whatever the insertion order. -/
structure ORSet.Same (a b : ORSet) : Prop where
  elements : ∀ element, a.entries.has element = b.entries.has element
  dots : ∀ element encoded, encoded ∈ a.dotsOf element ↔ encoded ∈ b.dotsOf element
  tombstones : ∀ encoded, encoded ∈ a.tombstones ↔ encoded ∈ b.tombstones

theorem ORSet.Same.refl (set : ORSet) : set.Same set := ⟨fun _ => rfl, fun _ _ => Iff.rfl, fun _ => Iff.rfl⟩

theorem ORSet.Filled.has_iff {set : ORSet} (hfilled : set.Filled) (element : JsString) :
    set.entries.has element = true ↔ ∃ d, d ∈ set.dotsOf element := by
  unfold JsMap.has ORSet.dotsOf
  cases hget : set.entries.get element with
  | none => simp
  | some dots =>
      obtain ⟨d, hd⟩ := hfilled element dots hget
      simp only [Option.isSome_some, Option.getD_some, true_iff]
      exact ⟨d, hd⟩

theorem ORSet.Same.of_view_eq {a b : ORSet} (ha : a.Filled) (hb : b.Filled) (h : a.view = b.view) :
    a.Same b := by
  have hdots : ∀ element encoded, encoded ∈ a.dotsOf element ↔ encoded ∈ b.dotsOf element := by
    intro element encoded
    rw [← ORSet.mem_adds_view, h, ORSet.mem_adds_view]
  refine ⟨fun element => ?_, hdots, fun encoded => ?_⟩
  · rw [Bool.eq_iff_iff, ha.has_iff, hb.has_iff]
    simp only [hdots]
  · rw [← ORSet.mem_tombs_view, h, ORSet.mem_tombs_view]

end GitWarp
