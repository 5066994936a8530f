import GitWarp.LibraryJsMap
import Mathlib.Data.List.Perm.Subperm
import Mathlib.Logic.Relation

/-! Breadth-first orders from several nodes: the starts come first, then what each node of the order names in turn. -/

namespace GitWarp.Discovery

variable {α : Type} [DecidableEq α]

/-- The nodes that are reached from the starts, as the starts and then the neighbors of each of them in turn name them
first. -/
structure IsBreadthFirst (next : α → List α) (starts order : List α) : Prop where
  reached : ∀ v ∈ order, ∃ s ∈ starts, Relation.ReflTransGen (fun u v => v ∈ next u) s v
  named : order = (JsSet.ofList (starts ++ order.flatMap next)).elems

variable {next : α → List α} {starts order order' : List α}

theorem IsBreadthFirst.nodup (h : IsBreadthFirst next starts order) : order.Nodup := by
  rw [h.named]
  exact JsSet.nodup _

theorem IsBreadthFirst.subset_of_closed (h : IsBreadthFirst next starts order) {nodes : List α} (hstarts : starts ⊆ nodes)
    (hclosed : ∀ u ∈ nodes, next u ⊆ nodes) : order ⊆ nodes := by
  intro v hv
  obtain ⟨s, hs, hlead⟩ := h.reached v hv
  clear hv
  induction hlead with
  | refl => exact hstarts hs
  | tail _ hstep ih => exact hclosed _ ih hstep

/-- What a front of the order names is a front of the order. -/
theorem IsBreadthFirst.prefix_named (h : IsBreadthFirst next starts order) (n : Nat) :
    (JsSet.ofList (starts ++ (order.take n).flatMap next)).elems <+: order := by
  have hsplit : starts ++ order.flatMap next =
      (starts ++ (order.take n).flatMap next) ++ (order.drop n).flatMap next := by
    rw [List.append_assoc, ← List.flatMap_append, List.take_append_drop]
  have hnamed := h.named
  rw [hsplit, JsSet.ofList_append] at hnamed
  generalize (JsSet.ofList (starts ++ (order.take n).flatMap next)) = named at hnamed ⊢
  rw [hnamed]
  exact JsSet.prefix_addAll _ _

/-- A front that names no node beyond itself is all of the order. -/
theorem IsBreadthFirst.take_eq (h : IsBreadthFirst next starts order) {n : Nat}
    (hshort : (JsSet.ofList (starts ++ (order.take n).flatMap next)).elems.length ≤ n) : order.take n = order := by
  have hinside : (JsSet.ofList (starts ++ (order.take n).flatMap next)).elems ⊆ order.take n := by
    rw [List.prefix_iff_eq_take.mp (h.prefix_named n)]
    exact List.take_subset_take_left order hshort
  have hall : order ⊆ order.take n := by
    refine h.subset_of_closed (fun s hs => hinside ?_) fun u hu v hv => hinside ?_
    · exact (JsSet.mem_ofList _ _).mpr (List.mem_append_left _ hs)
    · exact (JsSet.mem_ofList _ _).mpr (List.mem_append_right _ (List.mem_flatMap.mpr ⟨u, hu, hv⟩))
  have hlength := (List.subperm_of_subset h.nodup hall).length_le
  rw [List.length_take] at hlength
  exact List.take_of_length_le (by omega)

/-- There is one such order. -/
theorem IsBreadthFirst.unique (h : IsBreadthFirst next starts order) (h' : IsBreadthFirst next starts order') :
    order = order' := by
  have htake : ∀ n, order.take n = order'.take n := by
    intro n
    induction n with
    | zero => rfl
    | succ n ih =>
        have hfront := h.prefix_named n
        have hfront' := h'.prefix_named n
        have hend := h.take_eq (n := n)
        have hend' := h'.take_eq (n := n)
        rw [← ih] at hfront' hend'
        generalize (JsSet.ofList (starts ++ (order.take n).flatMap next)).elems = named at hfront hfront' hend hend'
        rcases Nat.lt_or_ge n named.length with hmore | hless
        · obtain ⟨rest, rfl⟩ := hfront
          obtain ⟨rest', rfl⟩ := hfront'
          rw [List.take_append_of_le_length hmore, List.take_append_of_le_length hmore]
        · rw [← hend hless, hend' hless]
  have hwhole := htake (max order.length order'.length)
  rwa [List.take_of_length_le (le_max_left _ _), List.take_of_length_le (le_max_right _ _)] at hwhole

end GitWarp.Discovery
