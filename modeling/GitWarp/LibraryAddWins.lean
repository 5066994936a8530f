import Mathlib.Data.Set.Lattice
import Mathlib.Order.Lattice
import Mathlib.Order.BoundedOrder.Basic
import Mathlib.Order.CompletePartialOrder
import Mathlib.Order.ConditionallyCompleteLattice.Basic

/-! Add-wins sets as a join semilattice. A set records which element every dot was added for and
which dots were removed; an element is alive while one of its dots was not removed. Joining is union
of both parts, so adds and removes are elements of the semilattice themselves and the order in which
they arrive does not matter.

`Forgets s t` is the simulation between a set `s` from which removed dots were dropped together with
their tombstones and the set `t` that still has them. -/

namespace GitWarp

@[ext]
structure AddWins (E D : Type) where
  adds : Set (E × D)
  tombs : Set D

namespace AddWins

variable {E D : Type}

def toPair (s : AddWins E D) : Set (E × D) × Set D := (s.adds, s.tombs)

theorem toPair_injective : Function.Injective (toPair : AddWins E D → _) := by
  intro s t h
  exact AddWins.ext (congrArg Prod.fst h) (congrArg Prod.snd h)

instance : LE (AddWins E D) := ⟨fun s t => s.toPair ≤ t.toPair⟩

instance : LT (AddWins E D) := ⟨fun s t => s.toPair < t.toPair⟩

instance : Max (AddWins E D) := ⟨fun s t => ⟨s.adds ∪ t.adds, s.tombs ∪ t.tombs⟩⟩

instance : SemilatticeSup (AddWins E D) :=
  toPair_injective.semilatticeSup toPair Iff.rfl Iff.rfl fun _ _ => rfl

instance : OrderBot (AddWins E D) where
  bot := ⟨∅, ∅⟩
  bot_le s := ⟨Set.empty_subset s.adds, Set.empty_subset s.tombs⟩

/-- The effect of adding `e` under the dot `d`. -/
def added (e : E) (d : D) : AddWins E D := ⟨{(e, d)}, ∅⟩

/-- The effect of removing every dot of `ds`. -/
def removed (ds : Set D) : AddWins E D := ⟨∅, ds⟩

def Alive (s : AddWins E D) (e : E) : Prop := ∃ d, (e, d) ∈ s.adds ∧ d ∉ s.tombs

/-- The dots that some element was added under. -/
def dots (s : AddWins E D) : Set D := {d | ∃ e, (e, d) ∈ s.adds}

@[simp] theorem mem_adds_sup (s t : AddWins E D) (p : E × D) :
    p ∈ (s ⊔ t).adds ↔ p ∈ s.adds ∨ p ∈ t.adds := Iff.rfl

@[simp] theorem mem_tombs_sup (s t : AddWins E D) (d : D) :
    d ∈ (s ⊔ t).tombs ↔ d ∈ s.tombs ∨ d ∈ t.tombs := Iff.rfl

@[simp] theorem not_mem_adds_bot (p : E × D) : p ∉ (⊥ : AddWins E D).adds := id

@[simp] theorem not_mem_tombs_bot (d : D) : d ∉ (⊥ : AddWins E D).tombs := id

theorem mem_dots {s : AddWins E D} {e : E} {d : D} (h : (e, d) ∈ s.adds) : d ∈ s.dots := ⟨e, h⟩

/-- Joining keeps an element alive exactly when one of its dots survives the tombstones of both. -/
theorem alive_sup_iff (s t : AddWins E D) (e : E) :
    (s ⊔ t).Alive e ↔ ∃ d, ((e, d) ∈ s.adds ∨ (e, d) ∈ t.adds) ∧ d ∉ s.tombs ∧ d ∉ t.tombs := by
  simp only [Alive, mem_adds_sup, mem_tombs_sup, not_or]

/-- The elements of a set, all of them added under one dot. -/
def shared (es : Set E) (d : D) : AddWins E D := ⟨{p | p.1 ∈ es ∧ p.2 = d}, ∅⟩

@[simp] theorem alive_shared_iff (es : Set E) (d : D) (e : E) : (shared es d).Alive e ↔ e ∈ es := by
  apply Iff.intro
  · rintro ⟨c, hadd, -⟩
    exact hadd.1
  · intro he
    exact ⟨d, ⟨he, rfl⟩, id⟩

/-! ### Dropping removed dots -/

/-- Dropping every add under a dot of `F`, and the tombstones of these dots. -/
def drop (s : AddWins E D) (F : Set D) : AddWins E D :=
  ⟨{p | p ∈ s.adds ∧ p.2 ∉ F}, s.tombs \ F⟩

/-- `s` is `t` without the adds under some removed dots `F`; of the tombstones of `t` it may only
miss those of `F`. -/
structure ForgetsDots (F : Set D) (s t : AddWins E D) : Prop where
  removed : F ⊆ t.tombs
  adds : ∀ e d, (e, d) ∈ s.adds ↔ (e, d) ∈ t.adds ∧ d ∉ F
  tombs : s.tombs ⊆ t.tombs
  missing : ∀ d ∈ t.tombs, d ∉ F → d ∈ s.tombs

theorem forgetsDots_refl (s : AddWins E D) : ForgetsDots ∅ s s where
  removed := Set.empty_subset _
  adds _ _ := by simp
  tombs := subset_rfl
  missing _ hd _ := hd

theorem forgetsDots_drop {s : AddWins E D} {F : Set D} (hF : F ⊆ s.tombs) :
    ForgetsDots F (s.drop F) s where
  removed := hF
  adds _ _ := Iff.rfl
  tombs _ hd := hd.1
  missing _ hd hnot := ⟨hd, hnot⟩

/-- What was dropped was dead, so nothing visible changes. -/
theorem ForgetsDots.alive_iff {F : Set D} {s t : AddWins E D} (h : ForgetsDots F s t) (e : E) :
    s.Alive e ↔ t.Alive e := by
  constructor
  · rintro ⟨d, hadd, hlive⟩
    obtain ⟨hadd', hnot⟩ := (h.adds e d).mp hadd
    exact ⟨d, hadd', fun hdead => hlive (h.missing d hdead hnot)⟩
  · rintro ⟨d, hadd, hlive⟩
    exact ⟨d, (h.adds e d).mpr ⟨hadd, fun hF => hlive (h.removed hF)⟩, fun hdead => hlive (h.tombs hdead)⟩

/-- Dropping removed dots on one side of a join is invisible exactly when every element that the other
side still holds under a dropped dot is alive anyway. -/
theorem alive_drop_sup_iff {s : AddWins E D} {F : Set D} (hF : F ⊆ s.tombs) (t : AddWins E D) :
    (∀ e, (s.drop F ⊔ t).Alive e ↔ (s ⊔ t).Alive e) ↔
      ∀ e, ∀ d ∈ F, (e, d) ∈ t.adds → d ∉ t.tombs → (s ⊔ t).Alive e := by
  constructor
  · intro h e d hd hadd hlive
    refine (h e).mp ⟨d, Or.inr hadd, ?_⟩
    rintro (hdead | hdead)
    · exact hdead.2 hd
    · exact hlive hdead
  · intro h e
    constructor
    · rintro ⟨d, hadd, hlive⟩
      rw [mem_tombs_sup, not_or] at hlive
      by_cases hd : d ∈ F
      · rcases hadd with hold | hnew
        · exact absurd hd hold.2
        · exact h e d hd hnew hlive.2
      · refine ⟨d, hadd.imp And.left id, ?_⟩
        rintro (hdead | hdead)
        · exact hlive.1 ⟨hdead, hd⟩
        · exact hlive.2 hdead
    · rintro ⟨d, hadd, hlive⟩
      rw [mem_tombs_sup, not_or] at hlive
      refine ⟨d, hadd.imp (fun hold => ⟨hold, fun hd => hlive.1 (hF hd)⟩) id, ?_⟩
      rintro (hdead | hdead)
      · exact hlive.1 hdead.1
      · exact hlive.2 hdead

/-- The simulation survives every later effect that adds nothing under a dropped dot. -/
theorem ForgetsDots.sup {F : Set D} {s t : AddWins E D} (h : ForgetsDots F s t) (u : AddWins E D)
    (hfresh : ∀ d ∈ u.dots, d ∉ F) : ForgetsDots F (s ⊔ u) (t ⊔ u) where
  removed d hd := Or.inl (h.removed hd)
  adds e d := by
    rw [mem_adds_sup, mem_adds_sup, h.adds]
    constructor
    · rintro (⟨hadd, hnot⟩ | hadd)
      · exact ⟨Or.inl hadd, hnot⟩
      · exact ⟨Or.inr hadd, hfresh d (mem_dots hadd)⟩
    · rintro ⟨hadd | hadd, hnot⟩
      · exact Or.inl ⟨hadd, hnot⟩
      · exact Or.inr hadd
  tombs := Set.union_subset_union h.tombs subset_rfl
  missing d hd hnot := hd.imp (fun hdead => h.missing d hdead hnot) id

/-- Dropping in two rounds drops both sets of dots. -/
theorem ForgetsDots.trans {F G : Set D} {r s t : AddWins E D} (hrs : ForgetsDots G r s)
    (hst : ForgetsDots F s t) : ForgetsDots (F ∪ G) r t where
  removed := Set.union_subset hst.removed (hrs.removed.trans hst.tombs)
  adds e d := by
    rw [hrs.adds, hst.adds, Set.mem_union, not_or, and_assoc]
  tombs := hrs.tombs.trans hst.tombs
  missing d hd hnot :=
    hrs.missing d (hst.missing d hd fun hF => hnot (Or.inl hF)) fun hG => hnot (Or.inr hG)

end AddWins

end GitWarp
