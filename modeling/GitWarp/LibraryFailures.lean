import GitWarp.LibraryExceptLoops

/-! Two runs of one program, of which one meets failures. A run stops short where it does what the run without
failures does, or stops with an error of a kind that is allowed; steps that stop short follow one another. -/

namespace GitWarp.Failures

variable {ε α β : Type} {allowed : ε → Prop}

theorem bind_error_iff {x : Except ε α} {f : α → Except ε β} {err : ε} :
    x >>= f = .error err ↔ x = .error err ∨ ∃ a, x = .ok a ∧ f a = .error err := by
  cases x with
  | error other => simp [bind, Except.bind]
  | ok a => simp [bind, Except.bind]

/-! ### What a step may stop with -/

def StopsWith (allowed : ε → Prop) (x : Except ε α) : Prop := ∀ err, x = .error err → allowed err

theorem StopsWith.ok (a : α) : StopsWith allowed (.ok a : Except ε α) := nofun

theorem StopsWith.error {err : ε} (h : allowed err) : StopsWith allowed (.error err : Except ε α) := by
  rintro _ ⟨⟩
  exact h

theorem StopsWith.bind {x : Except ε α} {f : α → Except ε β} (hx : StopsWith allowed x)
    (hf : ∀ a, StopsWith allowed (f a)) : StopsWith allowed (x >>= f) := by
  intro err h
  rcases bind_error_iff.mp h with h | ⟨a, -, h⟩
  · exact hx err h
  · exact hf a err h

/-! ### The run with failures and the run without -/

def StopsShort (allowed : ε → Prop) (run clean : Except ε α) : Prop :=
  run = clean ∨ ∃ err, allowed err ∧ run = .error err

theorem StopsShort.refl (x : Except ε α) : StopsShort allowed x x := .inl rfl

theorem StopsShort.error {err : ε} (h : allowed err) (clean : Except ε α) : StopsShort allowed (.error err) clean :=
  .inr ⟨err, h, rfl⟩

theorem StopsShort.bind {run clean : Except ε α} {f g : α → Except ε β} (h : StopsShort allowed run clean)
    (hnext : ∀ a, StopsShort allowed (f a) (g a)) : StopsShort allowed (run >>= f) (clean >>= g) := by
  rcases h with rfl | ⟨err, herr, rfl⟩
  · cases run with
    | error err => exact .refl _
    | ok a => exact hnext a
  · exact .error herr _

/-- A run that comes to a result comes to that of the run without failures. -/
theorem StopsShort.eq_of_ok {run clean : Except ε α} (h : StopsShort allowed run clean) {a : α} (hok : run = .ok a) :
    clean = .ok a := by
  rcases h with heq | ⟨err, -, heq⟩
  · rw [← heq, hok]
  · rw [hok] at heq
    cases heq

end GitWarp.Failures
