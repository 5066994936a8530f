import Mathlib.Data.List.Basic
import Mathlib.Tactic.Ring

/-! Numbers as strings of bits, the most significant first, and the octets that such a string fills. -/

namespace GitWarp.Bits

def bits : Nat → Nat → List Bool
  | 0, _ => []
  | width + 1, n => decide (n / 2 ^ width % 2 = 1) :: bits width n

def value (string : List Bool) : Nat := string.foldl (fun n bit => 2 * n + bit.toNat) 0

/-- The octets of a string; bits at the end that fill none are left out. -/
def octets : List Bool → List UInt8
  | b₇ :: b₆ :: b₅ :: b₄ :: b₃ :: b₂ :: b₁ :: b₀ :: rest =>
      UInt8.ofNat (value [b₇, b₆, b₅, b₄, b₃, b₂, b₁, b₀]) :: octets rest
  | _ => []

@[simp] theorem length_bits (width n : Nat) : (bits width n).length = width := by
  induction width with
  | zero => rfl
  | succ width ih => rw [bits, List.length_cons, ih]

theorem bits_mod {width place : Nat} (hplace : width ≤ place) (n : Nat) : bits width (n % 2 ^ place) = bits width n := by
  induction width with
  | zero => rfl
  | succ width ih =>
      have hdiv : n % 2 ^ place / 2 ^ width % 2 = n / 2 ^ width % 2 := by
        obtain ⟨more, rfl⟩ := Nat.exists_eq_add_of_le hplace
        have hpow : 2 ^ (width + 1 + more) = 2 ^ width * (2 * 2 ^ more) := by ring
        rw [hpow, Nat.mod_mul_right_div_self, Nat.mod_mul_right_mod]
      rw [bits, bits, hdiv, ih (Nat.le_of_succ_le hplace)]

theorem bits_split (high low n : Nat) : bits (high + low) n = bits high (n / 2 ^ low) ++ bits low n := by
  induction high with
  | zero => rw [Nat.zero_add, bits, List.nil_append]
  | succ high ih =>
      have hdiv : n / 2 ^ (high + low) = n / 2 ^ low / 2 ^ high := by
        rw [Nat.div_div_eq_div_mul, ← Nat.pow_add, Nat.add_comm low high]
      rw [Nat.add_right_comm, bits, bits, List.cons_append, hdiv, ih]

/-- Two numbers side by side. -/
theorem bits_append {high low n m k : Nat} (hhigh : k / 2 ^ low % 2 ^ high = n % 2 ^ high) (hlow : k % 2 ^ low = m % 2 ^ low) :
    bits high n ++ bits low m = bits (high + low) k := by
  rw [bits_split, ← bits_mod (le_refl high) n, ← bits_mod (le_refl low) m, ← hhigh, ← hlow, bits_mod (le_refl high),
    bits_mod (le_refl low)]

theorem foldl_bits (width n start : Nat) :
    (bits width n).foldl (fun n bit => 2 * n + bit.toNat) start = start * 2 ^ width + n % 2 ^ width := by
  induction width generalizing start with
  | zero => simp [bits, Nat.mod_one]
  | succ width ih =>
      have hbit : (decide (n / 2 ^ width % 2 = 1)).toNat = n / 2 ^ width % 2 := by
        rcases Nat.mod_two_eq_zero_or_one (n / 2 ^ width) with h | h <;> simp [h]
      rw [bits, List.foldl_cons, ih, hbit, Nat.mod_pow_succ]
      ring

theorem value_bits (width n : Nat) : value (bits width n) = n % 2 ^ width := by
  rw [value, foldl_bits, Nat.zero_mul, Nat.zero_add]

theorem octets_append (n : Nat) (rest : List Bool) : octets (bits 8 n ++ rest) = UInt8.ofNat n :: octets rest := by
  have hoctet : octets (bits 8 n ++ rest) = UInt8.ofNat (value (bits 8 n)) :: octets rest := rfl
  have hbyte : UInt8.ofNat (n % 2 ^ 8) = UInt8.ofNat n := by
    apply UInt8.toNat_inj.mp
    rw [UInt8.toNat_ofNat', UInt8.toNat_ofNat', Nat.mod_mod]
  rw [hoctet, value_bits, hbyte]

/-- Bits that are left over from one number fill an octet with the first bits of the next. -/
theorem octets_carry (left high low : Nat) {n m : Nat} (hoctet : left + high = 8) (hm : m < 2 ^ (high + low))
    (rest : List Bool) :
    octets (bits left n ++ (bits (high + low) m ++ rest)) =
      UInt8.ofNat (n * 2 ^ high + m / 2 ^ low) :: octets (bits low m ++ rest) := by
  have hfirst : m / 2 ^ low < 2 ^ high := by
    apply Nat.div_lt_of_lt_mul
    rw [← Nat.pow_add, Nat.add_comm low high]
    exact hm
  have hjoin : bits left n ++ bits high (m / 2 ^ low) = bits 8 (n * 2 ^ high + m / 2 ^ low) := by
    rw [← hoctet]
    apply bits_append
    · rw [Nat.mul_comm n, Nat.mul_add_div (Nat.two_pow_pos high), Nat.div_eq_of_lt hfirst, Nat.add_zero]
    · rw [Nat.mul_add_mod']
  rw [bits_split high low, List.append_assoc, ← List.append_assoc, hjoin, octets_append]

theorem octets_eq_nil {string : List Bool} (hshort : string.length < 8) : octets string = [] := by
  unfold octets
  split
  · simp only [List.length_cons] at hshort
    omega
  · rfl

end GitWarp.Bits
