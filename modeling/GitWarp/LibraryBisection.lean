import Mathlib.Data.Nat.Log

/-! Binary search for the place where a sequence of Booleans turns from `true` to `false`. The search does not need that it
turns only once. -/

namespace GitWarp.Bisection

/-- The search among the places after `lo`, up to the one after `hi`, and the places that it reads. -/
def bisect (passes : Nat → Bool) (lo hi : Nat) : Nat × List Nat :=
  if lo < hi then
    let mid := (lo + hi) / 2
    if passes (mid + 1) then ((bisect passes (mid + 1) hi).1, (mid + 1) :: (bisect passes (mid + 1) hi).2)
    else ((bisect passes lo mid).1, (mid + 1) :: (bisect passes lo mid).2)
  else (lo, [])
termination_by hi - lo

/-- The place below the range passes and the upper end fails, in every turn. -/
theorem bisect_turns {passes : Nat → Bool} {lo hi : Nat} (hle : lo ≤ hi) (hlo : passes lo = true)
    (hhi : passes (hi + 1) = false) : lo ≤ (bisect passes lo hi).1 ∧ (bisect passes lo hi).1 ≤ hi ∧
      passes (bisect passes lo hi).1 = true ∧ passes ((bisect passes lo hi).1 + 1) = false := by
  induction lo, hi using bisect.induct passes with
  | case1 lo hi hlt mid hmid ih =>
      have hrange := ih (by omega) hmid hhi
      rw [bisect, if_pos hlt, if_pos hmid]
      exact ⟨le_trans (by omega) hrange.1, hrange.2⟩
  | case2 lo hi hlt mid hmid ih =>
      have hrange := ih (by omega) hlo (Bool.not_eq_true _ ▸ hmid)
      rw [bisect, if_pos hlt, if_neg hmid]
      exact ⟨hrange.1, hrange.2.1.trans (by omega), hrange.2.2⟩
  | case3 lo hi hge =>
      have heq : lo = hi := by omega
      rw [bisect, if_neg hge]
      exact ⟨Nat.le_refl lo, hle, hlo, heq ▸ hhi⟩

/-- Half of the places are left, rounded up. -/
theorem clog_half {n k : Nat} (hn : 1 < n) (hk : 2 * k ≤ n + 1) : Nat.clog 2 k + 1 ≤ Nat.clog 2 n := by
  rw [Nat.clog_of_two_le (by decide) hn]
  exact Nat.succ_le_succ (Nat.clog_mono_right 2 (by omega))

theorem length_bisect_le (passes : Nat → Bool) (lo hi : Nat) :
    (bisect passes lo hi).2.length ≤ Nat.clog 2 (hi + 1 - lo) := by
  induction lo, hi using bisect.induct passes with
  | case1 lo hi hlt mid hmid ih =>
      rw [bisect, if_pos hlt, if_pos hmid, List.length_cons]
      exact (Nat.succ_le_succ ih).trans (clog_half (by omega) (by omega))
  | case2 lo hi hlt mid hmid ih =>
      rw [bisect, if_pos hlt, if_neg hmid, List.length_cons]
      exact (Nat.succ_le_succ ih).trans (clog_half (by omega) (by omega))
  | case3 lo hi hge =>
      rw [bisect, if_neg hge]
      exact Nat.zero_le _

end GitWarp.Bisection
