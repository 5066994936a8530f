import GitWarp.LibraryJsValue
import Mathlib.Data.Int.Log
import Mathlib.Data.List.DropRight
import Mathlib.Data.Rat.Floor
import Mathlib.Tactic.Linarith

/-! Comparing and adding numbers: a sum is rounded to the nearest double, and so exact for integers up to `2 ^ 53`. A
slot that is raised to one number after the other forgets what came before a NaN. -/

namespace GitWarp.JsNumber

/-- `a === b` -/
def strictEquals : JsNumber → JsNumber → Bool
  | .nan, _ => false
  | a, b => a = b

/-- `a < b` -/
def lessThan : JsNumber → JsNumber → Bool
  | .finite a, .finite b => a < b
  | .finite _, .infinite negative => !negative
  | .infinite negative, .finite _ => negative
  | .infinite negative, .infinite negative' => negative && !negative'
  | .nan, _ => false
  | _, .nan => false

/-- How far apart the doubles of the size of `q` are. -/
def spacing (q : ℚ) : ℚ := 2 ^ max (Int.log 2 |q| - 52) (-1074)

/-- The nearest integer, of two the even one. -/
def roundHalfEven (q : ℚ) : ℤ :=
  let rest := q - ⌊q⌋
  if rest < 1 / 2 ∨ (rest = 1 / 2 ∧ ⌊q⌋ % 2 = 0) then ⌊q⌋ else ⌊q⌋ + 1

/-- The nearest double. -/
def toNearest (q : ℚ) : JsNumber :=
  let value := roundHalfEven (q / spacing q) * spacing q
  if |value| < 2 ^ 1024 then .finite value else .infinite (decide (value < 0))

/-- `a + b` -/
def plus : JsNumber → JsNumber → JsNumber
  | .finite a, .finite b => toNearest (a + b)
  | .finite _, .infinite negative => .infinite negative
  | .infinite negative, .finite _ => .infinite negative
  | .infinite negative, .infinite negative' => if negative = negative' then .infinite negative else .nan
  | .nan, _ => .nan
  | _, .nan => .nan

example : toNearest (2 ^ 53 + 1) = .finite (2 ^ 53) := by decide +kernel

def ofInt (n : ℤ) : JsNumber := .finite n

theorem ofInt_injective : Function.Injective ofInt := fun _ _ h => Int.cast_injective (JsNumber.finite.inj h)

@[simp] theorem lessThan_ofInt (a b : ℤ) : (ofInt a).lessThan (ofInt b) = decide (a < b) := by
  simp [ofInt, lessThan]

@[simp] theorem strictEquals_ofInt (a b : ℤ) : (ofInt a).strictEquals (ofInt b) = decide (a = b) := by
  simp [ofInt, strictEquals]

theorem roundHalfEven_intCast (n : ℤ) : roundHalfEven n = n := by
  simp [roundHalfEven]

/-- An integer up to `2 ^ 53` is a multiple of the spacing around it. -/
theorem exists_mul_spacing {n : ℤ} (h : |n| ≤ 2 ^ 53) : ∃ m : ℤ, (n : ℚ) / spacing n = m := by
  unfold spacing
  generalize he : max (Int.log 2 |(n : ℚ)| - 52) (-1074) = e
  rcases le_or_gt e 0 with hsmall | hlarge
  · refine ⟨n * 2 ^ (-e).toNat, ?_⟩
    have hexponent : (2 : ℚ) ^ e = (2 ^ (-e).toNat)⁻¹ := by
      rw [← zpow_natCast, Int.toNat_of_nonneg (by omega), zpow_neg, inv_inv]
    rw [hexponent, div_inv_eq_mul]
    push_cast
    rfl
  · have hlog : 53 ≤ Int.log 2 |(n : ℚ)| := by omega
    have hpos : 0 < |(n : ℚ)| := by
      by_contra hzero
      rw [Int.log_of_right_le_zero 2 (not_lt.mp hzero)] at hlog
      omega
    have hbig : (2 : ℚ) ^ (53 : ℤ) ≤ |(n : ℚ)| := (Int.zpow_le_iff_le_log (by decide) hpos).mpr hlog
    have habs : |n| = 2 ^ 53 := by
      have hcast : ((2 ^ 53 : ℤ) : ℚ) ≤ ((|n| : ℤ) : ℚ) := by
        rw [Int.cast_abs, Int.cast_pow]
        exact hbig
      exact le_antisymm h (Int.cast_le.mp hcast)
    have hexact : Int.log 2 |(n : ℚ)| = 53 := by
      rw [← Int.cast_abs, habs, Int.cast_pow]
      exact Int.log_zpow (R := ℚ) (by decide : 1 < 2) 53
    obtain rfl : e = 1 := by omega
    rw [zpow_one]
    rcases abs_eq (by positivity) |>.mp habs with rfl | rfl
    · exact ⟨2 ^ 52, by norm_num⟩
    · exact ⟨-2 ^ 52, by norm_num⟩

theorem toNearest_intCast {n : ℤ} (h : |n| ≤ 2 ^ 53) : toNearest n = ofInt n := by
  obtain ⟨m, hm⟩ := exists_mul_spacing h
  have hspacing : spacing (n : ℚ) ≠ 0 := zpow_ne_zero _ two_ne_zero
  have hvalue : (m : ℚ) * spacing n = n := by rw [← hm, div_mul_cancel₀ _ hspacing]
  have hfinite : |(n : ℚ)| < 2 ^ 1024 := by
    have hcast : |(n : ℚ)| ≤ 2 ^ 53 := by exact_mod_cast h
    exact hcast.trans_lt (pow_lt_pow_right₀ one_lt_two (by decide))
  rw [toNearest, hm, roundHalfEven_intCast]
  simp only [hvalue]
  rw [if_pos hfinite]
  rfl

theorem plus_ofInt {a b : ℤ} (h : |a + b| ≤ 2 ^ 53) : (ofInt a).plus (ofInt b) = ofInt (a + b) := by
  rw [← toNearest_intCast h, Int.cast_add]
  rfl

/-! ### Greatest numbers -/

/-- `Math.max(a, b)` -/
def mathMax : JsNumber → JsNumber → JsNumber
  | .nan, _ => .nan
  | _, .nan => .nan
  | a, b => if a.lessThan b then b else a

/-- `value || 0`, where a missing value is `undefined`. -/
def orZero : Option JsNumber → JsNumber
  | some .nan => ofInt 0
  | some n => n
  | none => ofInt 0

/-- What a slot holds after `slot = Math.max(slot || 0, n)` for each of the numbers; nothing before the first. -/
def raised (numbers : List JsNumber) : Option JsNumber :=
  numbers.foldl (fun slot n => some (mathMax (orZero slot) n)) none

/-- The numbers after the last NaN. -/
def sinceNaN (numbers : List JsNumber) : List JsNumber := numbers.rtakeWhile (· ≠ .nan)

/-- The greatest number since the last NaN is a positive whole number. -/
def CountsWhole (numbers : List JsNumber) : Prop :=
  ∃ count : ℕ, 0 < count ∧ ofInt count ∈ sinceNaN numbers ∧
    ∀ n ∈ sinceNaN numbers, (ofInt count).lessThan n = false

theorem lessThan_trans {a b c : JsNumber} (hab : a.lessThan b = true) (hbc : b.lessThan c = true) :
    a.lessThan c = true := by
  cases a <;> cases b <;> cases c <;> simp_all [lessThan]
  exact hab.trans hbc

theorem lessThan_self (a : JsNumber) : a.lessThan a = false := by
  cases a <;> simp [lessThan]

/-- Numbers are in a linear order but for NaN. -/
theorem eq_of_not_lessThan {a b : JsNumber} (ha : a ≠ .nan) (hb : b ≠ .nan) (hab : a.lessThan b = false)
    (hba : b.lessThan a = false) : a = b := by
  cases a with
  | nan => exact absurd rfl ha
  | finite p =>
      cases b with
      | nan => exact absurd rfl hb
      | finite q => exact congrArg _ (le_antisymm (by simpa [lessThan] using hba) (by simpa [lessThan] using hab))
      | infinite negative => cases negative <;> simp_all [lessThan]
  | infinite negative =>
      cases b with
      | nan => exact absurd rfl hb
      | finite q => cases negative <;> simp_all [lessThan]
      | infinite negative' => cases negative <;> cases negative' <;> simp_all [lessThan]

theorem mathMax_nan (a : JsNumber) : mathMax a .nan = .nan := by
  cases a <;> rfl

theorem mathMax_of_ne {a b : JsNumber} (ha : a ≠ .nan) (hb : b ≠ .nan) :
    mathMax a b = if a.lessThan b then b else a := by
  cases a <;> cases b <;> first | rfl | contradiction

theorem orZero_of_ne {n : JsNumber} (h : n ≠ .nan) : orZero (some n) = n := by
  cases n <;> first | rfl | contradiction

theorem ofInt_ne_nan (n : ℤ) : ofInt n ≠ .nan := nofun

theorem orZero_ne_nan (slot : Option JsNumber) : orZero slot ≠ .nan := by
  cases slot with
  | none => exact ofInt_ne_nan 0
  | some n => cases n <;> nofun

theorem raised_concat (numbers : List JsNumber) (n : JsNumber) :
    raised (numbers ++ [n]) = some (mathMax (orZero (raised numbers)) n) := by
  rw [raised, List.foldl_append]
  rfl

/-- Raising a slot only by what is greater comes to the same for a number above zero. -/
theorem raised_concat_of_pos {n : JsNumber} (hpos : (ofInt 0).lessThan n = true) (numbers : List JsNumber) :
    raised (numbers ++ [n]) = if (orZero (raised numbers)).lessThan n then some n else raised numbers := by
  have hn : n ≠ .nan := by
    rintro rfl
    cases hpos
  rw [raised_concat, mathMax_of_ne (orZero_ne_nan _) hn]
  split
  · rfl
  · rename_i hnot
    cases hraised : raised numbers with
    | none =>
        rw [hraised] at hnot
        exact absurd hpos hnot
    | some m =>
        by_cases hm : m = .nan
        · rw [hraised, hm] at hnot
          exact absurd hpos hnot
        · rw [orZero_of_ne hm]

theorem raised_eq_none_iff (numbers : List JsNumber) : raised numbers = none ↔ numbers = [] := by
  cases numbers using List.reverseRecOn with
  | nil => exact ⟨fun _ => rfl, fun _ => rfl⟩
  | append_singleton numbers n => simp [raised_concat]

theorem sinceNaN_concat (numbers : List JsNumber) (n : JsNumber) :
    sinceNaN (numbers ++ [n]) = if n = .nan then [] else sinceNaN numbers ++ [n] := by
  rw [sinceNaN, List.rtakeWhile_concat]
  by_cases hn : n = .nan
  · rw [if_pos hn, if_neg (by simp [hn])]
  · rw [if_neg hn, if_pos (by simp [hn])]
    rfl

/-- What counts of a slot is the greatest of zero and the numbers since the last NaN. -/
theorem orZero_raised_spec (numbers : List JsNumber) :
    orZero (raised numbers) ∈ ofInt 0 :: sinceNaN numbers ∧
      ∀ n ∈ ofInt 0 :: sinceNaN numbers, (orZero (raised numbers)).lessThan n = false := by
  induction numbers using List.reverseRecOn with
  | nil => exact ⟨List.mem_singleton_self _, fun n hn => by cases List.mem_singleton.mp hn; exact lessThan_self _⟩
  | append_singleton numbers n ih =>
      obtain ⟨hmem, hgreatest⟩ := ih
      rw [raised_concat, sinceNaN_concat]
      by_cases hn : n = .nan
      · rw [if_pos hn, hn, mathMax_nan]
        exact ⟨List.mem_singleton_self _, fun n hn => by cases List.mem_singleton.mp hn; exact lessThan_self _⟩
      · have hslot := orZero_ne_nan (raised numbers)
        rw [if_neg hn, mathMax_of_ne hslot hn, ← List.cons_append]
        split
        · rename_i hless
          rw [orZero_of_ne hn]
          refine ⟨List.mem_append_right _ (List.mem_singleton_self n), fun m hm => ?_⟩
          rcases List.mem_append.mp hm with hold | hnew
          · -- what is greater than the new number is greater than the old slot
            refine Bool.eq_false_of_not_eq_true fun hgreater => ?_
            have hold := hgreatest m hold
            rw [lessThan_trans hless hgreater] at hold
            cases hold
          · cases List.mem_singleton.mp hnew
            exact lessThan_self n
        · rename_i hless
          rw [orZero_of_ne hslot]
          refine ⟨List.mem_append_left _ hmem, fun m hm => ?_⟩
          rcases List.mem_append.mp hm with hold | hnew
          · exact hgreatest m hold
          · cases List.mem_singleton.mp hnew
            exact Bool.eq_false_of_not_eq_true hless

theorem not_lessThan_zero (numbers : List JsNumber) : (orZero (raised numbers)).lessThan (ofInt 0) = false :=
  (orZero_raised_spec numbers).2 _ List.mem_cons_self

/-- A slot holds a positive whole number exactly if the numbers since the last NaN have one as their greatest. -/
theorem countsWhole_iff (numbers : List JsNumber) :
    CountsWhole numbers ↔ ∃ count : ℕ, 0 < count ∧ raised numbers = some (ofInt count) := by
  obtain ⟨hmem, hgreatest⟩ := orZero_raised_spec numbers
  have hne : ∀ {count : ℕ}, 0 < count → ofInt count ≠ ofInt 0 := fun hpos heq => by
    have := ofInt_injective heq
    omega
  constructor
  · rintro ⟨count, hpos, hcount, hall⟩
    refine ⟨count, hpos, ?_⟩
    have hslot : orZero (raised numbers) = ofInt count := by
      refine eq_of_not_lessThan (orZero_ne_nan _) (ofInt_ne_nan _) (hgreatest _ (List.mem_cons_of_mem _ hcount)) ?_
      rcases List.mem_cons.mp hmem with hzero | hsince
      · rw [hzero, lessThan_ofInt]
        exact decide_eq_false (by omega)
      · exact hall _ hsince
    cases hraised : raised numbers with
    | none =>
        rw [hraised] at hslot
        exact absurd hslot.symm (hne hpos)
    | some n =>
        rw [hraised] at hslot
        by_cases hn : n = .nan
        · rw [hn] at hslot
          exact absurd hslot.symm (hne hpos)
        · rw [← orZero_of_ne hn, hslot]
  · rintro ⟨count, hpos, hraised⟩
    rw [hraised, orZero_of_ne (ofInt_ne_nan _)] at hmem hgreatest
    refine ⟨count, hpos, ?_, fun n hn => hgreatest n (List.mem_cons_of_mem _ hn)⟩
    exact (List.mem_cons.mp hmem).resolve_left (hne hpos)

end GitWarp.JsNumber
