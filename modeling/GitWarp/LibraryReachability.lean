import Mathlib.Data.Set.Basic
import Mathlib.Logic.Relation

/-! Reachability along a relation: what a flood from a set comes to, and the least subrelation of an acyclic relation
that reaches as much as it does. -/

namespace GitWarp.Reachability

open Relation

variable {α : Type}

/-! ### Floods -/

/-- A flood from a set. What it has visited is closed under steps, but for the frontier. -/
structure Flooded (R : α → α → Prop) (W : Set α) (visited frontier : List α) : Prop where
  sound : ∀ v ∈ visited, ∃ s ∈ W, ReflTransGen R s v
  seeds : ∀ s ∈ W, s ∈ visited
  closed : ∀ u ∈ visited, u ∉ frontier → ∀ v, R u v → v ∈ visited
  subset : ∀ v ∈ frontier, v ∈ visited

namespace Flooded

variable {R : α → α → Prop} {W : Set α} {visited frontier : List α}

theorem start {seeds : List α} (h : ∀ v, v ∈ seeds ↔ v ∈ W) : Flooded R W seeds seeds where
  sound v hv := ⟨v, (h v).mp hv, .refl⟩
  seeds s hs := (h s).mpr hs
  closed _ hu hnot := absurd hu hnot
  subset _ hv := hv

/-- The frontier moves on to what it leads to. -/
theorem next (h : Flooded R W visited frontier) {added : List α}
    (hadded : ∀ v, v ∈ added ↔ (∃ u ∈ frontier, R u v) ∧ v ∉ visited) : Flooded R W (visited ++ added) added where
  sound v hv := by
    rcases List.mem_append.mp hv with hv | hv
    · exact h.sound v hv
    · obtain ⟨⟨u, hu, hstep⟩, -⟩ := (hadded v).mp hv
      obtain ⟨s, hs, hreach⟩ := h.sound u (h.subset u hu)
      exact ⟨s, hs, hreach.tail hstep⟩
  seeds s hs := List.mem_append_left _ (h.seeds s hs)
  closed u hu hnot v hstep := by
    by_cases hv : v ∈ visited
    · exact List.mem_append_left _ hv
    · have hu' := (List.mem_append.mp hu).resolve_right hnot
      by_cases hfrontier : u ∈ frontier
      · exact List.mem_append_right _ ((hadded v).mpr ⟨⟨u, hfrontier, hstep⟩, hv⟩)
      · exact absurd (h.closed u hu' hfrontier v hstep) hv
  subset v hv := List.mem_append_right _ hv

/-- A flood that has come to its end has visited what can be reached. -/
theorem mem_iff (h : Flooded R W visited []) (v : α) : v ∈ visited ↔ ∃ s ∈ W, ReflTransGen R s v := by
  constructor
  · exact h.sound v
  · intro hv
    obtain ⟨s, hs, hreach⟩ := hv
    induction hreach with
    | refl => exact h.seeds s hs
    | tail _ hstep ih => exact h.closed _ ih List.not_mem_nil _ hstep

end Flooded

/-! ### The least subrelation with the same reachability -/

section Reduction

variable (R : α → α → Prop)

/-- A longer way leads from one to the other. -/
def Redundant (u v : α) : Prop := ∃ w, R u w ∧ TransGen R w v

def Reduced (u v : α) : Prop := R u v ∧ ¬ Redundant R u v

variable {R} {P : α → Prop} {rank : α → Nat}

theorem rank_lt_of_transGen (hrank : ∀ u v, P u → R u v → P v ∧ rank u < rank v) {u v : α} (hu : P u)
    (h : TransGen R u v) : P v ∧ rank u < rank v := by
  induction h with
  | single hstep => exact hrank _ _ hu hstep
  | tail _ hstep ih =>
      obtain ⟨hv, hless⟩ := ih
      obtain ⟨hw, hless'⟩ := hrank _ _ hv hstep
      exact ⟨hw, hless.trans hless'⟩

/-- Where every step raises a rank, the steps that no longer way replaces reach as much as all. -/
theorem transGen_reduced (hrank : ∀ u v, P u → R u v → P v ∧ rank u < rank v) {u v : α} (hu : P u)
    (h : TransGen R u v) : TransGen (Reduced R) u v := by
  have hways : ∀ n u v, P u → rank v - rank u ≤ n → TransGen R u v → TransGen (Reduced R) u v := by
    intro n
    induction n with
    | zero =>
        intro u v hu hn h
        have hless := (rank_lt_of_transGen hrank hu h).2
        omega
    | succ n ih =>
        intro u v hu hn h
        -- a way over a node between splits into two that are shorter
        have hbetween : ∀ w, R u w → TransGen R w v → TransGen (Reduced R) u v := by
          intro w hstep hrest
          obtain ⟨hw, hless⟩ := hrank u w hu hstep
          have hless' := (rank_lt_of_transGen hrank hw hrest).2
          exact (ih u w hu (by omega) (.single hstep)).trans (ih w v hw (by omega) hrest)
        rcases TransGen.head'_iff.mp h with ⟨w, hstep, hrest⟩
        rcases reflTransGen_iff_eq_or_transGen.mp hrest with rfl | hrest
        · by_cases hredundant : Redundant R u v
          · obtain ⟨x, hx, hway⟩ := hredundant
            exact hbetween x hx hway
          · exact .single ⟨hstep, hredundant⟩
        · exact hbetween w hstep hrest
  exact hways _ u v hu le_rfl h

/-- A step that no longer way replaces belongs to every subrelation that reaches as much. -/
theorem Reduced.mem_of_same {S : α → α → Prop} (hsub : ∀ u v, S u v → R u v) {u v : α} (h : Reduced R u v)
    (hsame : TransGen R u v → TransGen S u v) : S u v := by
  obtain ⟨hstep, hredundant⟩ := h
  obtain ⟨w, hfirst, hrest⟩ := TransGen.head'_iff.mp (hsame (.single hstep))
  rcases reflTransGen_iff_eq_or_transGen.mp hrest with rfl | hrest
  · exact hfirst
  · exact absurd ⟨w, hsub u w hfirst, TransGen.mono hsub _ _ hrest⟩ hredundant

end Reduction

end GitWarp.Reachability
