import Mathlib.Data.List.Nodup
import Mathlib.Data.List.Infix

/-! A ref that is moved by compare-and-swap, each time to a commit on top of the last. The commits behind the
ref are a chain; commits are never changed, so the chain of a ref is determined by it, only grows, and never
comes back to an older ref. -/

namespace GitWarp.RefChain

variable {K C : Type} {get get' : K → Option C} {parents : C → List K}

/-- The commits behind a ref, oldest first. -/
inductive Chain (get : K → Option C) (parents : C → List K) : Option K → List K → Prop where
  | nil : Chain get parents none []
  | snoc {tip : K} {commit : C} {prev : Option K} {ids : List K} : get tip = some commit →
      parents commit = prev.toList → Chain get parents prev ids → Chain get parents (some tip) (ids ++ [tip])

/-- Commits are only added. -/
def Grows (get get' : K → Option C) : Prop := ∀ id commit, get id = some commit → get' id = some commit

theorem Grows.refl (get : K → Option C) : Grows get get := fun _ _ h => h

theorem Grows.trans {get'' : K → Option C} (h : Grows get get') (h' : Grows get' get'') : Grows get get'' :=
  fun id commit hget => h' id commit (h id commit hget)

theorem Chain.grows {ref : Option K} {ids : List K} (h : Chain get parents ref ids) (hgrows : Grows get get') :
    Chain get' parents ref ids := by
  induction h with
  | nil => exact .nil
  | snoc hget hparents _ ih => exact .snoc (hgrows _ _ hget) hparents ih

theorem toList_injective {a b : Option K} (h : a.toList = b.toList) : a = b := by
  cases a with
  | none =>
      cases b with
      | none => rfl
      | some b => cases h
  | some a =>
      cases b with
      | none => cases h
      | some b => rw [(List.cons.inj h).1]

theorem Chain.unique {ref : Option K} {ids ids' : List K} (h : Chain get parents ref ids)
    (h' : Chain get parents ref ids') : ids = ids' := by
  induction h generalizing ids' with
  | nil => cases h' with | nil => rfl
  | snoc hget hparents _ ih =>
      cases h' with
      | snoc hget' hparents' hrest' =>
          rw [hget, Option.some.injEq] at hget'
          subst hget'
          have hprev := toList_injective (hparents.symm.trans hparents')
          subst hprev
          rw [ih hrest']

/-- Each commit of a chain has the chain up to it behind it. -/
theorem Chain.at {ref : Option K} {ids : List K} (h : Chain get parents ref ids) {id : K} (hid : id ∈ ids) :
    ∃ before after commit prev, ids = before ++ id :: after ∧ get id = some commit ∧
      parents commit = prev.toList ∧ Chain get parents prev before := by
  induction h with
  | nil => cases hid
  | @snoc tip commit prev ids hget hparents hrest ih =>
      rcases List.mem_append.mp hid with hmem | hlast
      · obtain ⟨before, after, commit', prev', rfl, hrest'⟩ := ih hmem
        exact ⟨before, after ++ [tip], commit', prev', by simp, hrest'⟩
      · rw [List.mem_singleton] at hlast
        subst hlast
        exact ⟨ids, [], commit, prev, rfl, hget, hparents, hrest⟩

/-- What goes on top of the tip is not in the chain. -/
theorem Chain.not_mem_of_parent {ref : Option K} {ids : List K} (h : Chain get parents ref ids) {id : K} {commit : C}
    (hget : get id = some commit) (hparents : parents commit = ref.toList) : id ∉ ids := by
  intro hid
  obtain ⟨before, after, commit', prev, hids, hget', hparents', hbefore⟩ := h.at hid
  rw [hget, Option.some.injEq] at hget'
  subst hget'
  have hprev := toList_injective (hparents.symm.trans hparents')
  subst hprev
  have hlength := congrArg List.length hids
  rw [h.unique hbefore, List.length_append, List.length_cons] at hlength
  omega

/-- The ref, or that there is none yet, is behind a chain. -/
def Behind (ids : List K) (ref : Option K) : Prop := ∀ id ∈ ref, id ∈ ids

theorem Chain.behind {ref : Option K} {ids : List K} (h : Chain get parents ref ids) : Behind ids ref := by
  cases h with
  | nil => exact nofun
  | snoc _ _ _ =>
      rintro id ⟨⟩
      exact List.mem_append_right _ (List.mem_singleton_self _)

theorem Behind.mono {ids ids' : List K} {ref : Option K} (h : Behind ids ref) (hfront : ids <+: ids') :
    Behind ids' ref := fun id hid => hfront.subset (h id hid)

/-- A commit on top of the tip is no ref that was behind the chain. -/
theorem Chain.ne_of_behind {ref older : Option K} {ids : List K} (h : Chain get parents ref ids)
    (holder : Behind ids older) {id : K} {commit : C} (hget : get id = some commit)
    (hparents : parents commit = ref.toList) : some id ≠ older := by
  rintro rfl
  exact h.not_mem_of_parent hget hparents (holder id rfl)

end GitWarp.RefChain
