import Mathlib.Data.Set.Finite.Basic
import Mathlib.Data.Fintype.Order
import Mathlib.Logic.Relation
import Mathlib.Order.Bounds.Basic
import Mathlib.Order.WellFounded

/-! Orders in which a node comes after all its predecessors, placed one by one. What can be placed is never on a
cycle; what is left where nothing more can be placed lies behind a cycle. -/

namespace GitWarp.TopoOrder

variable {α : Type} (R : α → α → Prop) (nodes : List α)

/-- A node that may come next: it is not placed, and all its predecessors are. -/
def Ready (placed : List α) (v : α) : Prop := v ∈ nodes ∧ v ∉ placed ∧ ∀ u ∈ nodes, R u v → u ∈ placed

/-- Each node may come next after the ones before it. -/
def IsOrder (sorted : List α) : Prop :=
  ∀ before v after, sorted = before ++ v :: after → Ready R nodes before v

/-- Each node is the least of those that may come next. -/
def IsLeastOrder [LinearOrder α] (sorted : List α) : Prop :=
  ∀ before v after, sorted = before ++ v :: after → IsLeast {x | Ready R nodes before x} v

/-- A node that a cycle of the nodes leads to. -/
def BehindCycle (v : α) : Prop := ∃ c ∈ nodes, Relation.TransGen R c c ∧ Relation.ReflTransGen R c v

variable {R nodes}

theorem isLeastOrder_nil [LinearOrder α] : IsLeastOrder R nodes ([] : List α) := by
  intro before v after h
  cases before <;> cases h

theorem IsLeastOrder.isOrder [LinearOrder α] {sorted : List α} (h : IsLeastOrder R nodes sorted) :
    IsOrder R nodes sorted :=
  fun before v after heq => (h before v after heq).1

theorem isOrder_nil : IsOrder R nodes ([] : List α) := by
  intro before v after h
  cases before <;> cases h

/-- What holds at every place of a list, and of one more element after it. -/
theorem forall_place_concat {P : List α → α → Prop} {sorted : List α} {v : α}
    (h : ∀ before w after, sorted = before ++ w :: after → P before w) (hv : P sorted v) :
    ∀ before w after, sorted ++ [v] = before ++ w :: after → P before w := by
  intro before w after heq
  rcases List.eq_nil_or_concat after with rfl | ⟨init, last, rfl⟩
  · obtain ⟨rfl, rfl⟩ := List.append_inj' heq rfl |>.imp id fun h => List.cons.inj h |>.1
    exact hv
  · rw [List.concat_eq_append, ← List.cons_append, ← List.append_assoc] at heq
    exact h before w init (List.append_inj' heq rfl).1

theorem IsLeastOrder.concat [LinearOrder α] {sorted : List α} (h : IsLeastOrder R nodes sorted) {v : α}
    (hv : IsLeast {x | Ready R nodes sorted x} v) : IsLeastOrder R nodes (sorted ++ [v]) :=
  forall_place_concat h hv

theorem IsOrder.concat {sorted : List α} (h : IsOrder R nodes sorted) {v : α} (hv : Ready R nodes sorted v) :
    IsOrder R nodes (sorted ++ [v]) :=
  forall_place_concat h hv

theorem IsOrder.nodup {sorted : List α} (h : IsOrder R nodes sorted) : sorted.Nodup := by
  induction sorted using List.reverseRecOn with
  | nil => exact List.nodup_nil
  | append_singleton init v ih =>
      have hinit : IsOrder R nodes init := by
        rintro before w after rfl
        exact h before w (after ++ [v]) (by simp)
      have hv := (h init v [] rfl).2.1
      exact (ih hinit).append (List.nodup_singleton v) (by simpa using hv)

theorem IsOrder.subset {sorted : List α} (h : IsOrder R nodes sorted) : sorted ⊆ nodes := by
  intro v hv
  obtain ⟨before, after, heq⟩ := List.append_of_mem hv
  exact (h before v after heq).1

section Closed

variable (hclosed : ∀ u ∈ nodes, ∀ v, R u v → v ∈ nodes)

include hclosed in
/-- All that leads to a node is placed before it. -/
theorem IsOrder.before_of_transGen {sorted : List α} (h : IsOrder R nodes sorted) {u v : α} (hu : u ∈ nodes)
    (huv : Relation.TransGen R u v) {before after : List α} (heq : sorted = before ++ v :: after) : u ∈ before := by
  induction huv generalizing before after with
  | single hstep => exact (h before _ after heq).2.2 u hu hstep
  | @tail b c hub hbc ih =>
      have hreach : ∀ {w}, Relation.TransGen R u w → w ∈ nodes := by
        intro w hw
        induction hw with
        | single hstep => exact hclosed u hu _ hstep
        | tail _ hstep ih' => exact hclosed _ ih' _ hstep
      have hb : b ∈ before := (h before c after heq).2.2 b (hreach hub) hbc
      obtain ⟨first, second, rfl⟩ := List.append_of_mem hb
      have hsplit : sorted = first ++ b :: (second ++ c :: after) := by rw [heq]; simp
      have hearly := ih hsplit
      exact List.mem_append_left _ hearly

include hclosed in
theorem IsOrder.not_cycle {sorted : List α} (h : IsOrder R nodes sorted) {v : α} (hv : v ∈ sorted) :
    ¬ Relation.TransGen R v v := by
  intro hcycle
  obtain ⟨before, after, heq⟩ := List.append_of_mem hv
  have hready := h before v after heq
  exact hready.2.1 (h.before_of_transGen hclosed hready.1 hcycle heq)

include hclosed in
theorem IsOrder.not_behindCycle {sorted : List α} (h : IsOrder R nodes sorted) {v : α} (hv : v ∈ sorted) :
    ¬ BehindCycle R nodes v := by
  rintro ⟨c, hc, hcycle, hlead⟩
  rcases Relation.reflTransGen_iff_eq_or_transGen.mp hlead with rfl | hlead
  · exact h.not_cycle hclosed hv hcycle
  · obtain ⟨before, after, heq⟩ := List.append_of_mem hv
    have hplaced := h.before_of_transGen hclosed hc hlead heq
    exact h.not_cycle hclosed (heq ▸ List.mem_append_left _ hplaced) hcycle

end Closed

/-- Where every node of a finite set has a predecessor in it, a cycle of the set leads to each of them. -/
theorem behindCycle_of_pred {left : Set α} (hfinite : left.Finite) (hpred : ∀ v ∈ left, ∃ u ∈ left, R u v) {v : α}
    (hv : v ∈ left) : ∃ c ∈ left, Relation.TransGen R c c ∧ Relation.ReflTransGen R c v := by
  by_contra hnone
  have hsub : {u | u ∈ left ∧ Relation.ReflTransGen R u v}.Finite := hfinite.subset fun u hu => hu.1
  have : Finite {u | u ∈ left ∧ Relation.ReflTransGen R u v} := hsub
  let above : {u | u ∈ left ∧ Relation.ReflTransGen R u v} → {u | u ∈ left ∧ Relation.ReflTransGen R u v} → Prop :=
    fun a b => Relation.TransGen R a.1 b.1
  have htrans : IsTrans _ above := ⟨fun a b c hab hbc => Relation.TransGen.trans hab hbc⟩
  have hirrefl : Std.Irrefl above := ⟨fun a ha => hnone ⟨a.1, a.2.1, ha, a.2.2⟩⟩
  have hwf : WellFounded above := Finite.wellFounded_of_trans_of_irrefl above
  obtain ⟨m, -, hmin⟩ := hwf.has_min Set.univ ⟨⟨v, hv, .refl⟩, trivial⟩
  obtain ⟨u, hu, hstep⟩ := hpred m.1 m.2.1
  exact hmin ⟨u, hu, m.2.2.head hstep⟩ trivial (.single hstep)

/-- Where nothing more can be placed, a cycle leads to each node that is left. -/
theorem behindCycle_of_left {sorted : List α} (hstuck : ∀ v, ¬ Ready R nodes sorted v) {v : α} (hv : v ∈ nodes)
    (hleft : v ∉ sorted) : BehindCycle R nodes v := by
  have hpred : ∀ w ∈ {w | w ∈ nodes ∧ w ∉ sorted}, ∃ u ∈ {w | w ∈ nodes ∧ w ∉ sorted}, R u w := by
    rintro w ⟨hw, hwleft⟩
    by_contra hnone
    refine hstuck w ⟨hw, hwleft, fun u hu hstep => ?_⟩
    by_contra huleft
    exact hnone ⟨u, ⟨hu, huleft⟩, hstep⟩
  have hfinite : {w | w ∈ nodes ∧ w ∉ sorted}.Finite := nodes.finite_toSet.subset fun w hw => hw.1
  obtain ⟨c, hc, hcycle, hlead⟩ := behindCycle_of_pred hfinite hpred ⟨hv, hleft⟩
  exact ⟨c, hc.1, hcycle, hlead⟩

end GitWarp.TopoOrder
