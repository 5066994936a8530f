import Mathlib.Algebra.Order.Group.Defs
import Mathlib.Data.List.Chain
import Mathlib.Logic.Relation
import Mathlib.Tactic.Abel

/-! Walks along weighted arcs, by the nodes that they visit and the sum of their weights. -/

namespace GitWarp

/-- A walk from a node to a node: the nodes on it and its weight. -/
inductive IsWalk {α N : Type} [AddMonoid N] (arc : α → α → N → Prop) : α → α → List α → N → Prop where
  | nil (v : α) : IsWalk arc v v [v] 0
  | cons {u v t : α} {path : List α} {w c : N} : arc u v w → IsWalk arc v t path c → IsWalk arc u t (u :: path) (w + c)

namespace IsWalk

variable {α N : Type} [AddMonoid N] {arc : α → α → N → Prop}

theorem append {u v t : α} {path rest : List α} {c d : N} (h : IsWalk arc u v path c)
    (h' : IsWalk arc v t rest d) : IsWalk arc u t (path ++ rest.tail) (c + d) := by
  induction h with
  | nil v =>
      obtain ⟨tail, rfl⟩ : ∃ tail, rest = v :: tail := by
        cases h' with
        | nil => exact ⟨[], rfl⟩
        | cons _ _ => exact ⟨_, rfl⟩
      rw [zero_add]
      exact h'
  | cons harc _ ih =>
      rw [List.cons_append, add_assoc]
      exact .cons harc (ih h')

theorem concat {u v t : α} {path : List α} {c w : N} (h : IsWalk arc u v path c) (harc : arc v t w) :
    IsWalk arc u t (path ++ [t]) (c + w) := by
  have hstep : IsWalk arc v t [v, t] (w + 0) := .cons harc (.nil t)
  rw [add_zero] at hstep
  exact h.append hstep

/-- A potential that grows by at least the weight along every arc grows by at least the weight of a walk. -/
theorem le_potential {M : Type} [AddMonoid M] [PartialOrder M] [AddRightMono M] {arc : α → α → M → Prop} {P : α → Prop}
    {f : α → M} (harc : ∀ u v w, P u → arc u v w → P v ∧ f u + w ≤ f v) {u t : α} {path : List α} {c : M}
    (h : IsWalk arc u t path c) (hu : P u) : P t ∧ f u + c ≤ f t := by
  induction h with
  | nil => exact ⟨hu, (add_zero _).le⟩
  | cons hstep _ ih =>
      obtain ⟨hv, hle⟩ := harc _ _ _ hu hstep
      obtain ⟨ht, hle'⟩ := ih hv
      refine ⟨ht, ?_⟩
      rw [← add_assoc]
      exact (add_le_add_left hle _).trans hle'

end IsWalk

/-- A path of steps, by the nodes on it. -/
structure IsPathBy {α : Type} (R : α → α → Prop) (source target : α) (path : List α) : Prop where
  head : path.head? = some source
  last : path.getLast? = some target
  steps : path.IsChain R

/-- A path that no other is shorter than. -/
structure IsShortest {α : Type} (R : α → α → Prop) (source target : α) (path : List α) : Prop extends
    IsPathBy R source target path where
  le : ∀ other, IsPathBy R source target other → path.length ≤ other.length

namespace IsPathBy

variable {α N : Type} {R : α → α → Prop}

theorem single (v : α) : IsPathBy R v v [v] := ⟨rfl, rfl, List.isChain_singleton v⟩

theorem cons {u v t : α} {path : List α} (hstep : R u v) (h : IsPathBy R v t path) : IsPathBy R u t (u :: path) := by
  obtain ⟨rest, rfl⟩ := List.head?_eq_some_iff.mp h.head
  refine ⟨rfl, ?_, List.isChain_cons_cons.mpr ⟨hstep, h.steps⟩⟩
  rw [List.getLast?_cons_cons]
  exact h.last

theorem of_walk [AddMonoid N] {arc : α → α → N → Prop} (hR : ∀ u v w, arc u v w → R u v) {u t : α} {path : List α} {c : N}
    (h : IsWalk arc u t path c) : IsPathBy R u t path := by
  induction h with
  | nil v => exact single v
  | cons harc _ ih => exact cons (hR _ _ _ harc) ih

theorem append {u v t : α} {path rest : List α} (h : IsPathBy R u v path) (h' : IsPathBy R v t rest) :
    IsPathBy R u t (path ++ rest.tail) := by
  obtain ⟨rest, rfl⟩ := List.head?_eq_some_iff.mp h'.head
  obtain ⟨first, rfl⟩ := List.head?_eq_some_iff.mp h.head
  have hlast := h'.last
  refine ⟨rfl, ?_, ?_⟩
  · rw [List.tail_cons, List.getLast?_append, h.last]
    cases rest with
    | nil => exact hlast
    | cons w rest =>
        rw [List.getLast?_cons_cons] at hlast
        rw [hlast]
        rfl
  · rw [List.tail_cons, List.isChain_append]
    refine ⟨h.steps, (List.isChain_cons.mp h'.steps).2, fun x hx y hy => ?_⟩
    rw [h.last] at hx
    cases hx
    exact (List.isChain_cons.mp h'.steps).1 y hy

/-- A path turned around follows the steps back. -/
theorem reverse {u t : α} {path : List α} (h : IsPathBy R u t path) :
    IsPathBy (fun u v => R v u) t u path.reverse :=
  ⟨by rw [List.head?_reverse, h.last], by rw [List.getLast?_reverse, h.head], List.isChain_reverse.mpr h.steps⟩

theorem reflTransGen {u t : α} {path : List α} (h : IsPathBy R u t path) : Relation.ReflTransGen R u t := by
  induction path generalizing u with
  | nil => cases h.head
  | cons v rest ih =>
      obtain rfl : v = u := Option.some.inj h.head
      cases rest with
      | nil =>
          obtain rfl : v = t := Option.some.inj h.last
          exact .refl
      | cons w rest =>
          obtain ⟨hstep, hrest⟩ := List.isChain_cons_cons.mp h.steps
          refine .head hstep (ih ⟨rfl, ?_, hrest⟩)
          rw [← h.last, List.getLast?_cons_cons]

end IsPathBy

end GitWarp
