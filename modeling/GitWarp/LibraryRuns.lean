import Mathlib.Data.Option.Basic

/-! Runs of a partial step function, and invariants along the runs whose steps meet a condition. -/

namespace GitWarp.Runs

variable {σ α : Type}

/-- The state after a list of actions; `none` where one of them is not possible. -/
def run (step : σ → α → Option σ) : σ → List α → Option σ
  | state, [] => some state
  | state, action :: rest => (step state action).bind fun state' => run step state' rest

/-- Every action of the list is taken in a state that meets the condition. -/
def Meets (step : σ → α → Option σ) (condition : σ → α → Prop) : σ → List α → Prop
  | _, [] => True
  | state, action :: rest =>
      condition state action ∧ ∀ state' ∈ step state action, Meets step condition state' rest

instance decidableMeets (step : σ → α → Option σ) (condition : σ → α → Prop)
    [∀ state action, Decidable (condition state action)] :
    ∀ (state : σ) (actions : List α), Decidable (Meets step condition state actions)
  | _, [] => isTrue trivial
  | state, action :: rest =>
      have : ∀ state', Decidable (Meets step condition state' rest) :=
        fun state' => decidableMeets step condition state' rest
      inferInstanceAs (Decidable (_ ∧ ∀ state' ∈ step state action, Meets step condition state' rest))

theorem Meets.imp {step : σ → α → Option σ} {condition condition' : σ → α → Prop}
    (h : ∀ state action, condition state action → condition' state action) {state : σ} {actions : List α}
    (hmeets : Meets step condition state actions) : Meets step condition' state actions := by
  induction actions generalizing state with
  | nil => exact trivial
  | cons action rest ih =>
      exact ⟨h state action hmeets.1, fun state' hstate' => ih (hmeets.2 state' hstate')⟩

theorem meets_of_forall {step : σ → α → Option σ} {condition : σ → α → Prop} {actions : List α}
    (h : ∀ action ∈ actions, ∀ state, condition state action) (state : σ) : Meets step condition state actions := by
  induction actions generalizing state with
  | nil => exact trivial
  | cons action rest ih =>
      exact ⟨h action List.mem_cons_self state, fun state' _ =>
        ih (fun later hlater => h later (List.mem_cons_of_mem _ hlater)) state'⟩

theorem Meets.and {step : σ → α → Option σ} {condition condition' : σ → α → Prop} {state : σ} {actions : List α}
    (h : Meets step condition state actions) (h' : Meets step condition' state actions) :
    Meets step (fun state action => condition state action ∧ condition' state action) state actions := by
  induction actions generalizing state with
  | nil => exact trivial
  | cons action rest ih =>
      exact ⟨⟨h.1, h'.1⟩, fun state' hstate' => ih (h.2 state' hstate') (h'.2 state' hstate')⟩

theorem run_append_eq_some {step : σ → α → Option σ} {state last : σ} {actions later : List α} :
    run step state (actions ++ later) = some last ↔
      ∃ middle, run step state actions = some middle ∧ run step middle later = some last := by
  induction actions generalizing state with
  | nil => exact ⟨fun h => ⟨state, rfl, h⟩, fun ⟨_, hmiddle, hlast⟩ => Option.some.inj hmiddle ▸ hlast⟩
  | cons action rest ih =>
      simp only [List.cons_append, run, Option.bind_eq_some_iff]
      constructor
      · rintro ⟨next, hnext, hrest⟩
        obtain ⟨middle, hmiddle, hlast⟩ := ih.mp hrest
        exact ⟨middle, ⟨next, hnext, hmiddle⟩, hlast⟩
      · rintro ⟨middle, ⟨next, hnext, hmiddle⟩, hlast⟩
        exact ⟨next, hnext, ih.mpr ⟨middle, hmiddle, hlast⟩⟩

theorem run_cons_eq_some {step : σ → α → Option σ} {state last : σ} {action : α} {rest : List α} :
    run step state (action :: rest) = some last ↔
      ∃ state', step state action = some state' ∧ run step state' rest = some last :=
  Option.bind_eq_some_iff

/-- Each action leads to the state that is written next to it. -/
def Follows (step : σ → α → Option σ) : σ → List (α × σ) → Prop
  | _, [] => True
  | state, (action, next) :: rest => step state action = some next ∧ Follows step next rest

/-- The condition is met in each state of the trace. -/
def MetAlong (condition : σ → α → Prop) : σ → List (α × σ) → Prop
  | _, [] => True
  | state, (action, next) :: rest => condition state action ∧ MetAlong condition next rest

theorem run_of_follows {step : σ → α → Option σ} {state : σ} {trace : List (α × σ)} (h : Follows step state trace) :
    run step state (trace.map Prod.fst) = some ((trace.map Prod.snd).getLastD state) := by
  induction trace generalizing state with
  | nil => rfl
  | cons entry rest ih =>
      obtain ⟨hstep, hrest⟩ := h
      rw [List.map_cons, run, hstep, Option.bind_some, ih hrest, List.map_cons, List.getLastD_cons]

theorem meets_of_follows {step : σ → α → Option σ} {condition : σ → α → Prop} {state : σ} {trace : List (α × σ)}
    (h : Follows step state trace) (hmet : MetAlong condition state trace) :
    Meets step condition state (trace.map Prod.fst) := by
  induction trace generalizing state with
  | nil => exact trivial
  | cons entry rest ih =>
      refine ⟨hmet.1, fun next hnext => ?_⟩
      cases h.1.symm.trans hnext
      exact ih h.2 hmet.2

/-- What every step under the condition preserves, every run under the condition preserves. -/
theorem invariant_of_run {step : σ → α → Option σ} {condition : σ → α → Prop} {I : σ → Prop}
    (hstep : ∀ state action state', I state → condition state action →
      step state action = some state' → I state')
    {state last : σ} {actions : List α} (hstart : I state) (hmeets : Meets step condition state actions)
    (hrun : run step state actions = some last) : I last := by
  induction actions generalizing state with
  | nil =>
      cases hrun
      exact hstart
  | cons action rest ih =>
      obtain ⟨state', hstate', hrest⟩ := run_cons_eq_some.mp hrun
      exact ih (hstep state action state' hstart hmeets.1 hstate') (hmeets.2 state' hstate') hrest

end GitWarp.Runs
