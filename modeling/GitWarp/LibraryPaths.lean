import Mathlib.Data.List.Basic
import Mathlib.Data.List.TakeWhile

/-! Paths as texts with a separator, read by their segments. Below a part without reserved segments each reserved segment
begins a namespace of its own. -/

namespace GitWarp.Paths

variable {α : Type} [DecidableEq α]

/-- One path is the other or a directory above it. -/
def PathPrefix (sep : α) (path path' : List α) : Prop := path = path' ∨ path ++ [sep] <+: path'

theorem segments_append (sep : α) (path rest : List α) :
    (path ++ [sep] ++ rest).splitOn sep = path.splitOn sep ++ rest.splitOn sep := by
  rw [List.append_assoc, List.singleton_append]
  exact List.splitOn_append_cons_self path rest

theorem splitOn_injective (sep : α) {path path' : List α} (h : path.splitOn sep = path'.splitOn sep) : path = path' := by
  calc
    path = [sep].intercalate (path.splitOn sep) := (List.intercalate_splitOn sep).symm
    _ = [sep].intercalate (path'.splitOn sep) := by rw [h]
    _ = path' := List.intercalate_splitOn sep

theorem not_mem_of_mem_splitOn {sep : α} {path segment : List α} (h : segment ∈ path.splitOn sep) : sep ∉ segment := by
  induction hlength : path.length using Nat.strongRecOn generalizing path with
  | _ n ih =>
      by_cases hsep : sep ∈ path
      · obtain ⟨front, rest, rfl, hfront⟩ := List.eq_append_cons_of_mem hsep
        rw [List.splitOn_append_cons_self_of_not_mem hfront] at h
        rcases List.mem_cons.mp h with rfl | h
        · exact hfront
        · refine ih rest.length ?_ h rfl
          rw [← hlength, List.length_append, List.length_cons]
          omega
      · rw [List.splitOn_eq_singleton hsep] at h
        exact List.mem_singleton.mp h ▸ hsep

theorem PathPrefix.segments {sep : α} {path path' : List α} (h : PathPrefix sep path path') :
    path.splitOn sep <+: path'.splitOn sep := by
  rcases h with rfl | ⟨rest, rfl⟩
  · exact List.prefix_rfl
  · rw [segments_append]
    exact List.prefix_append _ _

omit [DecidableEq α] in
theorem intercalate_append (sep : List α) {front rest : List (List α)} (hfront : front ≠ []) (hrest : rest ≠ []) :
    sep.intercalate (front ++ rest) = sep.intercalate front ++ sep ++ sep.intercalate rest := by
  induction front with
  | nil => exact absurd rfl hfront
  | cons segment front ih =>
      cases front with
      | nil => rw [List.singleton_append, List.intercalate_cons_of_ne_nil hrest, List.intercalate_singleton]
      | cons segment' front =>
          rw [List.cons_append, List.cons_append, List.intercalate_cons_cons, ← List.cons_append,
            ih (List.cons_ne_nil _ _), List.intercalate_cons_cons, List.append_assoc, List.append_assoc, List.append_assoc,
            List.append_assoc, List.append_assoc]

/-- A path whose segments begin with those of a directory lies below it. -/
theorem exists_below {sep : α} {path front : List α} {rest : List (List α)}
    (h : path.splitOn sep = front.splitOn sep ++ rest) (hrest : rest ≠ []) :
    ∃ below, path = front ++ [sep] ++ below ∧ below.splitOn sep = rest := by
  have hpath : path = front ++ [sep] ++ [sep].intercalate rest := by
    calc
      path = [sep].intercalate (path.splitOn sep) := (List.intercalate_splitOn sep).symm
      _ = [sep].intercalate (front.splitOn sep ++ rest) := by rw [h]
      _ = [sep].intercalate (front.splitOn sep) ++ [sep] ++ [sep].intercalate rest :=
        intercalate_append [sep] (List.splitOn_ne_nil sep front) hrest
      _ = front ++ [sep] ++ [sep].intercalate rest := by rw [List.intercalate_splitOn]
  refine ⟨_, hpath, ?_⟩
  rw [hpath, segments_append] at h
  exact List.append_cancel_left h

omit [DecidableEq α] in
/-- The free parts of two rows are the same where one row begins the other: both end at the first reserved item. -/
theorem free_part_eq {reserved : α → Bool} {front front' tail tail' : List α} {x x' : α}
    (hfront : ∀ y ∈ front, reserved y = false) (hfront' : ∀ y ∈ front', reserved y = false)
    (hx : reserved x = true) (hx' : reserved x' = true) (h : front ++ x :: tail <+: front' ++ x' :: tail') :
    front = front' ∧ x :: tail <+: x' :: tail' := by
  have htake : ∀ {free : List α} (rest : List α) {y : α}, (∀ z ∈ free, reserved z = false) → reserved y = true →
      (free ++ y :: rest).takeWhile (fun z => !reserved z) = free := by
    intro free rest y hfree hy
    rw [List.takeWhile_append_of_pos (fun z hz => by rw [hfree z hz]; rfl), List.takeWhile_cons_of_neg (by simp [hy]),
      List.append_nil]
  obtain ⟨more, hmore⟩ := h
  have hsame : front = front' := by
    rw [← htake tail' hfront' hx', ← hmore, List.append_assoc, List.cons_append, htake _ hfront hx]
  subst hsame
  rw [List.append_assoc] at hmore
  exact ⟨rfl, more, List.append_cancel_left hmore⟩

end GitWarp.Paths
