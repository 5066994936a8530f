import Mathlib.Order.Basic

/-! Loops with a bound on their turns. A step gives the next state or says that the loop has stopped. Where each
turn decreases a measure, a loop that is given as many turns as the measure counts stops by itself. -/

namespace GitWarp.While

variable {σ : Type}

/-- The state after the turns of a loop, at most as many as the bound. -/
def loop (step : σ → Option σ) : Nat → σ → σ
  | 0, state => state
  | fuel + 1, state =>
      match step state with
      | none => state
      | some state' => loop step fuel state'

/-- The turns of a loop that is given more of them come after those that it made. -/
theorem loop_add (step : σ → Option σ) (fuel more : Nat) (state : σ) :
    loop step (fuel + more) state = loop step more (loop step fuel state) := by
  induction fuel generalizing state with
  | zero => rw [Nat.zero_add, loop]
  | succ fuel ih =>
      rw [Nat.add_right_comm, loop, loop]
      cases hnext : step state with
      | some state' => exact ih state'
      | none =>
          cases more with
          | zero => rfl
          | succ more =>
              rw [loop, hnext]

theorem loop_of_stopped {step : σ → Option σ} {state : σ} (h : step state = none) (fuel : Nat) :
    loop step fuel state = state := by
  cases fuel with
  | zero => rfl
  | succ fuel => rw [loop, h]

/-- What every turn keeps holds of the last state. -/
theorem loop_invariant {step : σ → Option σ} {P : σ → Prop}
    (hstep : ∀ state state', P state → step state = some state' → P state') (fuel : Nat) {state : σ} (h : P state) :
    P (loop step fuel state) := by
  induction fuel generalizing state with
  | zero => exact h
  | succ fuel ih =>
      rw [loop]
      cases hnext : step state with
      | none => exact h
      | some state' => exact ih (hstep state state' h hnext)

/-- With enough turns the loop ends in a state that has no next one. -/
theorem loop_stops {step : σ → Option σ} {P : σ → Prop} {m : σ → Nat}
    (hstep : ∀ state state', P state → step state = some state' → P state' ∧ m state' < m state)
    {fuel : Nat} {state : σ} (h : P state) (hfuel : m state ≤ fuel) : step (loop step fuel state) = none := by
  induction fuel generalizing state with
  | zero =>
      cases hnext : step state with
      | none => rw [loop, hnext]
      | some state' =>
          have hless := (hstep state state' h hnext).2
          omega
  | succ fuel ih =>
      rw [loop]
      cases hnext : step state with
      | none => exact hnext
      | some state' =>
          obtain ⟨h', hless⟩ := hstep state state' h hnext
          exact ih h' (by omega)

/-- What each turn makes of what the turn before left holds after the turns that were made: all of them, or as many
as it took to stop. -/
theorem loop_counted {step : σ → Option σ} {P : Nat → σ → Prop}
    (hstep : ∀ turn state state', P turn state → step state = some state' → P (turn + 1) state') (fuel : Nat) {state : σ}
    (h : P 0 state) : ∃ turns, turns ≤ fuel ∧ P turns (loop step fuel state) ∧
      (turns = fuel ∨ step (loop step fuel state) = none) := by
  have hloop : ∀ (fuel turn : Nat) (state : σ), P turn state → ∃ turns, turns ≤ fuel ∧
      P (turn + turns) (loop step fuel state) ∧ (turns = fuel ∨ step (loop step fuel state) = none) := by
    intro fuel
    induction fuel with
    | zero => exact fun turn state h => ⟨0, Nat.le_refl 0, h, .inl rfl⟩
    | succ fuel ih =>
        intro turn state h
        rw [loop]
        cases hnext : step state with
        | none => exact ⟨0, Nat.zero_le _, h, .inr hnext⟩
        | some state' =>
            obtain ⟨turns, hturns, hlast, hend⟩ := ih (turn + 1) state' (hstep turn state state' h hnext)
            refine ⟨turns + 1, by omega, ?_, hend.imp_left fun heq => by omega⟩
            rwa [show turn + (turns + 1) = turn + 1 + turns by omega]
  obtain ⟨turns, hturns, hlast, hend⟩ := hloop fuel 0 state h
  rw [Nat.zero_add] at hlast
  exact ⟨turns, hturns, hlast, hend⟩

/-- A loop that turns as a view of another one does ends in the view of the other's last state. -/
theorem loop_view {τ : Type} {step : σ → Option σ} {step' : τ → Option τ} {v : σ → τ} {P : σ → Prop}
    (hstep : ∀ state state', P state → step state = some state' → P state')
    (hview : ∀ state, P state → step' (v state) = (step state).map v) (fuel : Nat) {state : σ} (h : P state) :
    loop step' fuel (v state) = v (loop step fuel state) := by
  induction fuel generalizing state with
  | zero => rfl
  | succ fuel ih =>
      rw [loop, loop, hview state h]
      cases hnext : step state with
      | none => rfl
      | some state' => exact ih (hstep state state' h hnext)

end GitWarp.While
