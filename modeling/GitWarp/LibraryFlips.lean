import Mathlib.Order.Basic
import Mathlib.Algebra.Order.Ring.Nat

/-! Logs of the changes of a flag. A flag is watched along a run; every step in which it goes up or down
leaves an entry. Logs are kept per batch of steps and merged by cancelling: as soon as both kinds occur in
the merged log, all entries are dropped. The merged log is the net change since the end of the last batch
in which the flag went both ways. -/

namespace GitWarp.Flips

variable {σ ε : Type}

/-- How many steps of a run raise the flag. -/
def ups (step : σ → ε → σ) (flag : σ → Bool) : σ → List ε → Nat
  | _, [] => 0
  | s, e :: rest =>
      (if flag s = false ∧ flag (step s e) = true then 1 else 0) + ups step flag (step s e) rest

/-- How many steps of a run lower the flag. -/
def downs (step : σ → ε → σ) (flag : σ → Bool) : σ → List ε → Nat
  | _, [] => 0
  | s, e :: rest =>
      (if flag s = true ∧ flag (step s e) = false then 1 else 0) + downs step flag (step s e) rest

/-- Raising and lowering alternate, so their difference is the change from start to end. -/
theorem ups_add_start (step : σ → ε → σ) (flag : σ → Bool) (s : σ) (run : List ε) :
    ups step flag s run + (flag s).toNat = downs step flag s run + (flag (run.foldl step s)).toNat := by
  induction run generalizing s with
  | nil => rfl
  | cons e rest ih =>
      have hrest := ih (step s e)
      rw [ups, downs, List.foldl_cons]
      cases hs : flag s <;> cases hs' : flag (step s e) <;> simp_all <;> omega

/-- One step goes one way. -/
theorem not_both_ways_singleton (step : σ → ε → σ) (flag : σ → Bool) (s : σ) (e : ε) :
    ¬ (0 < ups step flag s [e] ∧ 0 < downs step flag s [e]) := by
  simp only [ups, downs]
  cases flag s <;> cases flag (step s e) <;> simp

/-- The entries of a log about one flag. -/
structure Log where
  ups : Nat
  downs : Nat
  deriving DecidableEq

/-- Merging two logs: entries of one kind stay only where there is none of the other. -/
def Log.merge (a b : Log) : Log where
  ups := if 0 < a.downs + b.downs then 0 else a.ups + b.ups
  downs := if 0 < a.ups + b.ups then 0 else a.downs + b.downs

/-- The log of a net change. -/
def Log.net (start stop : Bool) : Log where
  ups := if start = false ∧ stop = true then 1 else 0
  downs := if start = true ∧ stop = false then 1 else 0

/-- A flag that ends where the log says it started from `start`. -/
theorem Log.net_inj {a b stop : Bool} : Log.net a stop = Log.net b stop ↔ a = b := by
  cases a <;> cases b <;> cases stop <;> decide

/-! ### Batches

A batch `b` runs the steps `events b`; `next` is the state after it, which may differ from the state its
steps lead to in ways the flag does not see. -/

variable {β : Type}

/-- The log of one batch. -/
def batchLog (step : σ → ε → σ) (events : β → List ε) (flag : σ → Bool) (s : σ) (b : β) : Log :=
  ⟨ups step flag s (events b), downs step flag s (events b)⟩

/-- The value of the flag right after the last batch in which it went both ways; `start` if none did. -/
def settled (step : σ → ε → σ) (events : β → List ε) (next : σ → β → σ) (flag : σ → Bool)
    (start : Bool) : σ → List β → Bool
  | _, [] => start
  | s, b :: rest =>
      settled step events next flag
        (if 0 < ups step flag s (events b) ∧ 0 < downs step flag s (events b) then flag (next s b)
          else start) (next s b) rest

/-- The merged log after a list of batches. -/
def mergedLog (step : σ → ε → σ) (events : β → List ε) (next : σ → β → σ) (flag : σ → Bool) :
    Log → σ → List β → Log
  | log, _, [] => log
  | log, s, b :: rest =>
      mergedLog step events next flag (log.merge (batchLog step events flag s b)) (next s b) rest

section

variable {step : σ → ε → σ} {events : β → List ε} {next : σ → β → σ} {flag : σ → Bool}

/-- One batch: a batch that goes one way extends or cancels the net change, a batch that goes both ways
wipes it. -/
theorem merge_batchLog (hnext : ∀ s b, flag (next s b) = flag ((events b).foldl step s)) (start : Bool)
    (s : σ) (b : β) :
    (Log.net start (flag s)).merge (batchLog step events flag s b) =
      Log.net (if 0 < ups step flag s (events b) ∧ 0 < downs step flag s (events b) then flag (next s b)
        else start) (flag (next s b)) := by
  have halternate := ups_add_start step flag s (events b)
  rw [← hnext] at halternate
  unfold batchLog
  generalize ups step flag s (events b) = u at halternate ⊢
  generalize downs step flag s (events b) = d at halternate ⊢
  cases hs : flag s <;> cases ht : flag (next s b) <;> cases start <;>
    rw [hs, ht] at halternate <;> simp only [Bool.toNat_true, Bool.toNat_false] at halternate <;>
    rcases Nat.eq_zero_or_pos u with hu | hu <;> rcases Nat.eq_zero_or_pos d with hd | hd <;>
    simp [Log.merge, Log.net, hu, hd] <;> omega

/-- The merged log is the net change since the flag settled. -/
theorem mergedLog_net (hnext : ∀ s b, flag (next s b) = flag ((events b).foldl step s)) (start : Bool)
    (s : σ) (batches : List β) :
    mergedLog step events next flag (Log.net start (flag s)) s batches =
      Log.net (settled step events next flag start s batches) (flag (batches.foldl next s)) := by
  induction batches generalizing start s with
  | nil => rfl
  | cons b rest ih => rw [mergedLog, merge_batchLog hnext, ih, settled, List.foldl_cons]

/-- The merged log is the net change of the whole run exactly when the flag settled at its first value. -/
theorem mergedLog_eq_net_iff (hnext : ∀ s b, flag (next s b) = flag ((events b).foldl step s)) (s : σ)
    (batches : List β) :
    mergedLog step events next flag ⟨0, 0⟩ s batches =
        Log.net (flag s) (flag (batches.foldl next s)) ↔
      settled step events next flag (flag s) s batches = flag s := by
  have hempty : (⟨0, 0⟩ : Log) = Log.net (flag s) (flag s) := by
    cases flag s <;> rfl
  rw [hempty, mergedLog_net hnext, Log.net_inj]

end

/-! ### Changes of a value -/

/-- Some step of a run counts as a change. -/
def changes (step : σ → ε → σ) (changed : σ → ε → Bool) : σ → List ε → Bool
  | _, [] => false
  | s, e :: rest => changed s e || changes step changed (step s e) rest

/-- Some step of some batch counts as a change. -/
def changesIn (step : σ → ε → σ) (events : β → List ε) (next : σ → β → σ) (changed : σ → ε → Bool) :
    σ → List β → Bool
  | _, [] => false
  | s, b :: rest => changes step changed s (events b) || changesIn step events next changed (next s b) rest

variable {α : Type} {step : σ → ε → σ} {changed : σ → ε → Bool} {value : σ → α}

theorem changes_of_ne (hquiet : ∀ s e, changed s e = false → value (step s e) = value s) {s : σ} {run : List ε}
    (h : value (run.foldl step s) ≠ value s) : changes step changed s run = true := by
  induction run generalizing s with
  | nil => exact absurd rfl h
  | cons e rest ih =>
      rw [changes, Bool.or_eq_true]
      cases hstep : changed s e with
      | true => exact Or.inl rfl
      | false =>
          refine Or.inr (ih ?_)
          rw [hquiet s e hstep]
          exact h

/-- A value that ends other than it started was changed on the way. -/
theorem changesIn_of_ne {events : β → List ε} {next : σ → β → σ}
    (hquiet : ∀ s e, changed s e = false → value (step s e) = value s)
    (hnext : ∀ s b, value (next s b) = value ((events b).foldl step s)) {s : σ} {batches : List β}
    (h : value (batches.foldl next s) ≠ value s) :
    changesIn step events next changed s batches = true := by
  induction batches generalizing s with
  | nil => exact absurd rfl h
  | cons b rest ih =>
      rw [changesIn, Bool.or_eq_true]
      by_cases hbatch : value (next s b) = value s
      · refine Or.inr (ih ?_)
        rw [hbatch]
        exact h
      · refine Or.inl (changes_of_ne hquiet ?_)
        rwa [← hnext]

end GitWarp.Flips
