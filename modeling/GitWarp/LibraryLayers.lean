import GitWarp.LibraryWalks
import Mathlib.Order.Bounds.Basic

/-! Distances from a set along a relation. A layer is what one step leads to from the layer before it, less what is
nearer. -/

namespace GitWarp.Layers

section Layers

variable {α : Type} (R : α → α → Prop) (W : Set α)

/-- What a number of steps leads to from the set. -/
inductive StepsTo : Nat → α → Prop
  | start {v : α} : v ∈ W → StepsTo 0 v
  | step {n : Nat} {u v : α} : StepsTo n u → R u v → StepsTo (n + 1) v

/-- The least number of steps. -/
def Distance (n : Nat) (v : α) : Prop := IsLeast {n | StepsTo R W n v} n

variable {R W}

theorem Distance.unique {n m : Nat} {v : α} (h : Distance R W n v) (h' : Distance R W m v) : n = m := IsLeast.unique h h'

theorem distance_zero_iff {v : α} : Distance R W 0 v ↔ v ∈ W := by
  constructor
  · rintro ⟨h, -⟩
    cases h with
    | start h => exact h
  · exact fun h => ⟨.start h, fun n _ => Nat.zero_le n⟩

theorem StepsTo.exists_distance {n : Nat} {v : α} (h : StepsTo R W n v) : ∃ m, m ≤ n ∧ Distance R W m v := by
  induction n using Nat.strong_induction_on with
  | _ n ih =>
      by_cases hless : ∃ m, m < n ∧ StepsTo R W m v
      · obtain ⟨m, hm, hsteps⟩ := hless
        obtain ⟨k, hk, hdistance⟩ := ih m hm hsteps
        exact ⟨k, hk.trans hm.le, hdistance⟩
      · refine ⟨n, le_rfl, h, fun m hm => ?_⟩
        by_contra hnot
        exact hless ⟨m, not_le.mp hnot, hm⟩

theorem distance_succ_iff {n : Nat} {v : α} :
    Distance R W (n + 1) v ↔ (∃ u, Distance R W n u ∧ R u v) ∧ ∀ m, m ≤ n → ¬ Distance R W m v := by
  constructor
  · intro h
    refine ⟨?_, fun m hm hdistance => ?_⟩
    · obtain ⟨hsteps, hleast⟩ := h
      cases hsteps with
      | @step _ u _ hu hstep =>
          obtain ⟨m, hm, hdistance⟩ := hu.exists_distance
          have hle : n + 1 ≤ m + 1 := hleast (StepsTo.step hdistance.1 hstep)
          obtain rfl : m = n := by omega
          exact ⟨u, hdistance, hstep⟩
    · have heq := h.unique hdistance
      omega
  · rintro ⟨⟨u, hu, hstep⟩, hfar⟩
    refine ⟨StepsTo.step hu.1 hstep, fun m hm => ?_⟩
    obtain ⟨k, hk, hdistance⟩ := StepsTo.exists_distance hm
    by_contra hnot
    exact hfar k (by omega) hdistance

/-- No layer before a layer is empty. -/
theorem Distance.exists_of_le {n m : Nat} {v : α} (h : Distance R W n v) (hle : m ≤ n) : ∃ u, Distance R W m u := by
  induction n generalizing v with
  | zero =>
      obtain rfl := Nat.le_zero.mp hle
      exact ⟨v, h⟩
  | succ n ih =>
      rcases Nat.lt_or_eq_of_le hle with hless | rfl
      · obtain ⟨⟨u, hu, -⟩, -⟩ := distance_succ_iff.mp h
        exact ih hu (by omega)
      · exact ⟨v, h⟩

/-! ### Paths from one node -/

variable {source target : α}

theorem IsPathBy.stepsTo {path : List α} (h : IsPathBy R source target path) {n : Nat}
    (hsource : StepsTo R W n source) : StepsTo R W (n + (path.length - 1)) target := by
  induction path generalizing source n with
  | nil => cases h.head
  | cons v rest ih =>
      obtain rfl : v = source := Option.some.inj h.head
      cases rest with
      | nil =>
          obtain rfl : v = target := Option.some.inj h.last
          exact hsource
      | cons w rest =>
          obtain ⟨hstep, hrest⟩ := List.isChain_cons_cons.mp h.steps
          have hlast := h.last
          rw [List.getLast?_cons_cons] at hlast
          have hsteps := ih ⟨rfl, hlast, hrest⟩ (hsource.step hstep)
          rw [List.length_cons, Nat.add_sub_cancel] at hsteps ⊢
          rwa [List.length_cons, ← Nat.add_assoc, Nat.add_right_comm]

theorem StepsTo.exists_path {n : Nat} (h : StepsTo R {v | v = source} n target) :
    ∃ path, IsPathBy R source target path ∧ path.length = n + 1 := by
  induction h with
  | @start v hv =>
      obtain rfl : v = source := hv
      exact ⟨[v], .single v, rfl⟩
  | @step n u v _ hstep ih =>
      obtain ⟨path, hpath, hlength⟩ := ih
      refine ⟨path ++ [v], hpath.append (.cons hstep (.single v)), ?_⟩
      rw [List.length_append, hlength]
      rfl

theorem StepsTo.head {n : Nat} {u : α} (hstep : R source u) (h : StepsTo R {v | v = u} n target) :
    StepsTo R {v | v = source} (n + 1) target := by
  induction h with
  | @start v hv =>
      obtain rfl : v = u := hv
      exact .step (.start rfl) hstep
  | step _ hlast ih => exact .step ih hlast

/-- Somewhere on the way the rest of it leads back from the target. -/
theorem StepsTo.exists_middle {n : Nat} (more : Nat) (h : StepsTo R W (n + more) target) :
    ∃ v, StepsTo R W n v ∧ StepsTo (fun u v => R v u) {v | v = target} more v := by
  induction more generalizing target with
  | zero => exact ⟨target, h, .start rfl⟩
  | succ more ih =>
      cases h with
      | @step _ u _ hu hstep =>
          obtain ⟨v, hv, hback⟩ := ih hu
          exact ⟨v, hv, .head hstep hback⟩

/-- Where no node is both within a distance of the source and within a distance of the target, these are further apart
than both together. -/
theorem lt_distance_of_apart {a b n : Nat} (hapart : ∀ v, (∃ m, m ≤ a ∧ Distance R {v | v = source} m v) →
    ¬ ∃ m, m ≤ b ∧ Distance (fun u v => R v u) {v | v = target} m v) (h : Distance R {v | v = source} n target) :
    a + b < n := by
  by_contra hle
  have hsplit : n = min n a + (n - min n a) := by omega
  have hsteps := h.1
  rw [hsplit] at hsteps
  obtain ⟨v, hv, hback⟩ := hsteps.exists_middle
  obtain ⟨m, hm, hdistance⟩ := hv.exists_distance
  obtain ⟨k, hk, hdistance'⟩ := hback.exists_distance
  exact hapart v ⟨m, by omega, hdistance⟩ ⟨k, by omega, hdistance'⟩

/-- What is reached has a distance. -/
theorem exists_distance_iff : (∃ n, Distance R {v | v = source} n target) ↔ Relation.ReflTransGen R source target := by
  constructor
  · intro h
    obtain ⟨n, hdistance⟩ := h
    obtain ⟨path, hpath, -⟩ := hdistance.1.exists_path
    exact hpath.reflTransGen
  · intro h
    have hsteps : ∃ n, StepsTo R {v | v = source} n target := by
      induction h with
      | refl => exact ⟨0, .start rfl⟩
      | tail _ hstep ih =>
          obtain ⟨n, hn⟩ := ih
          exact ⟨n + 1, hn.step hstep⟩
    obtain ⟨n, hn⟩ := hsteps
    obtain ⟨m, -, hdistance⟩ := hn.exists_distance
    exact ⟨m, hdistance⟩

/-- A path is as long as the distance exactly where it is a shortest one. -/
theorem isShortest_iff {path : List α} (h : IsPathBy R source target path) {n : Nat}
    (hdistance : Distance R {v | v = source} n target) : IsShortest R source target path ↔ path.length = n + 1 := by
  have hle : ∀ other, IsPathBy R source target other → n + 1 ≤ other.length := by
    intro other hother
    have hleast := hdistance.2 (IsPathBy.stepsTo hother (.start rfl))
    have hpos : 0 < other.length := List.length_pos_of_ne_nil fun hnil => by
      rw [hnil] at hother
      cases hother.head
    omega
  constructor
  · intro hshortest
    obtain ⟨other, hother, hlength⟩ := hdistance.1.exists_path
    have hmost := hshortest.le other hother
    have hleast := hle path h
    omega
  · intro hlength
    exact ⟨h, fun other hother => hlength ▸ hle other hother⟩

end Layers

end GitWarp.Layers
