import GitWarp.LibraryWhile
import Mathlib.Data.List.Perm.Basic
import Mathlib.Order.Lattice

/-! Binary heaps in a list, for any comparison of the entries.

Sifting up asks of a parent and its child whether they have to change places, sifting down whether a child goes
before an entry. Whatever the answers are, sifting permutes the list. Where they are those of one relation that is
reflexive and transitive on the entries of the list, sifting restores the order and the first entry is a least
one. -/

namespace GitWarp.Heaps

variable {K : Type}

/-- The two questions that sifting asks: of a parent and its child, and of a child and an entry. -/
structure Comparison (K : Type) where
  mustSwap : K → K → Bool
  isBefore : K → K → Bool

/-- The answers are those of a relation, as far as they concern entries of a kind. -/
structure Comparison.Follows (c : Comparison K) (kind : K → Prop) (le : K → K → Prop) : Prop where
  refl : ∀ a, kind a → le a a
  trans : ∀ a b d, le a b → le b d → le a d
  ge_of_mustSwap : ∀ a b, kind a → kind b → c.mustSwap a b = true → le b a
  le_of_not_mustSwap : ∀ a b, kind a → kind b → c.mustSwap a b = false → le a b
  le_of_isBefore : ∀ a b, kind a → kind b → c.isBefore a b = true → le a b
  ge_of_not_isBefore : ∀ a b, kind a → kind b → c.isBefore a b = false → le b a

def parentOf (i : Nat) : Nat := (i - 1) / 2

theorem parentOf_lt {i : Nat} (h : 0 < i) : parentOf i < i := by
  unfold parentOf
  omega

theorem children_of_parentOf {i : Nat} (h : 0 < i) : i = 2 * parentOf i + 1 ∨ i = 2 * parentOf i + 2 := by
  unfold parentOf
  omega

/-- A question about the entries at two places; where one does not exist the answer is no. -/
def ask (question : K → K → Bool) (heap : List K) (i j : Nat) : Bool :=
  match heap[i]?, heap[j]? with
  | some a, some b => question a b
  | _, _ => false

/-- The entries at two places are related, where both exist. -/
def RelAt (le : K → K → Prop) (heap : List K) (i j : Nat) : Prop := ∀ a ∈ heap[i]?, ∀ b ∈ heap[j]?, le a b

/-- Every entry is related to those under it. -/
def IsHeap (le : K → K → Prop) (heap : List K) : Prop := ∀ i, 0 < i → RelAt le heap (parentOf i) i

theorem ask_of_getElem? {question : K → K → Bool} {heap : List K} {i j : Nat} {a b : K} (ha : heap[i]? = some a)
    (hb : heap[j]? = some b) : ask question heap i j = question a b := by
  unfold ask
  rw [ha, hb]

theorem ask_eq_true_iff {question : K → K → Bool} {heap : List K} {i j : Nat} :
    ask question heap i j = true ↔ ∃ a b, heap[i]? = some a ∧ heap[j]? = some b ∧ question a b = true := by
  unfold ask
  cases heap[i]? with
  | none => simp
  | some a =>
      cases heap[j]? with
      | none => simp
      | some b => simp

/-! ### Swapping -/

def swap (heap : List K) (i j : Nat) : List K :=
  match heap[i]?, heap[j]? with
  | some a, some b => (heap.set i b).set j a
  | _, _ => heap

theorem getElem?_swap {heap : List K} {i j : Nat} (hi : i < heap.length) (hj : j < heap.length) (k : Nat) :
    (swap heap i j)[k]? = if k = j then heap[i]? else if k = i then heap[j]? else heap[k]? := by
  unfold swap
  rw [List.getElem?_eq_getElem hi, List.getElem?_eq_getElem hj]
  simp only [List.getElem?_set, List.length_set, hi, hj, if_true, eq_comm (a := j) (b := k), eq_comm (a := i) (b := k)]

theorem swap_perm {heap : List K} {i j : Nat} (hi : i < heap.length) (hj : j < heap.length) :
    (swap heap i j).Perm heap := by
  unfold swap
  rw [List.getElem?_eq_getElem hi, List.getElem?_eq_getElem hj]
  exact List.set_set_perm hi hj

namespace Comparison

variable (c : Comparison K)

/-! ### The two ways to sift -/

/-- One turn up; it stops where the parent stays. -/
def upStep (state : List K × Nat) : Option (List K × Nat) :=
  let (heap, current) := state
  if current = 0 then none
  else if ask c.mustSwap heap (parentOf current) current = false then none
  else some (swap heap (parentOf current) current, parentOf current)

def bubbleUp (heap : List K) (pos : Nat) : List K := (While.loop c.upStep pos (heap, pos)).1

/-- The place, among an entry and its children, of the one that goes first. -/
def smallestOf (heap : List K) (current : Nat) : Nat :=
  let smallest := if ask c.isBefore heap (2 * current + 1) current then 2 * current + 1 else current
  if ask c.isBefore heap (2 * current + 2) smallest then 2 * current + 2 else smallest

/-- One turn down; it stops where no child goes first. -/
def downStep (state : List K × Nat) : Option (List K × Nat) :=
  let (heap, current) := state
  let smallest := c.smallestOf heap current
  if smallest = current then none else some (swap heap current smallest, smallest)

def bubbleDown (heap : List K) (pos : Nat) : List K := (While.loop c.downStep heap.length (heap, pos)).1

variable {c}

theorem upStep_eq_some {heap heap' : List K} {current current' : Nat}
    (h : c.upStep (heap, current) = some (heap', current')) :
    0 < current ∧ ask c.mustSwap heap (parentOf current) current = true ∧ heap' = swap heap (parentOf current) current ∧
      current' = parentOf current := by
  simp only [upStep] at h
  split at h
  · cases h
  · rename_i hpos
    split at h
    · cases h
    · rename_i hswap
      cases h
      exact ⟨Nat.pos_of_ne_zero hpos, by simpa using hswap, rfl, rfl⟩

theorem upStep_eq_none {heap : List K} {current : Nat} (h : c.upStep (heap, current) = none) (hpos : 0 < current) :
    ask c.mustSwap heap (parentOf current) current = false := by
  simp only [upStep, if_neg hpos.ne'] at h
  by_contra hswap
  rw [if_neg hswap] at h
  exact Option.some_ne_none _ h

theorem smallestOf_place (heap : List K) (current : Nat) :
    c.smallestOf heap current = current ∨
      current < c.smallestOf heap current ∧ parentOf (c.smallestOf heap current) = current ∧
        c.smallestOf heap current < heap.length := by
  have hplace : ∀ child place : Nat, ask c.isBefore heap child place = true → child < heap.length := by
    intro child place hask
    obtain ⟨a, -, ha, -⟩ := ask_eq_true_iff.mp hask
    exact (List.getElem?_eq_some_iff.mp ha).1
  unfold smallestOf parentOf
  dsimp only
  by_cases hleft : ask c.isBefore heap (2 * current + 1) current = true
  · rw [if_pos hleft]
    split
    · rename_i hright
      exact Or.inr ⟨by omega, by omega, hplace _ _ hright⟩
    · exact Or.inr ⟨by omega, by omega, hplace _ _ hleft⟩
  · rw [if_neg hleft]
    split
    · rename_i hright
      exact Or.inr ⟨by omega, by omega, hplace _ _ hright⟩
    · exact Or.inl rfl

theorem downStep_eq_some {heap heap' : List K} {current current' : Nat}
    (h : c.downStep (heap, current) = some (heap', current')) :
    c.smallestOf heap current ≠ current ∧ heap' = swap heap current (c.smallestOf heap current) ∧
      current' = c.smallestOf heap current := by
  simp only [downStep] at h
  split at h
  · cases h
  · rename_i hne
    cases h
    exact ⟨hne, rfl, rfl⟩

/-! ### Sifting permutes -/

theorem upStep_perm {heap heap' : List K} {current current' : Nat} (hlt : current < heap.length)
    (h : c.upStep (heap, current) = some (heap', current')) :
    heap'.Perm heap ∧ current' < heap'.length ∧ current' < current := by
  obtain ⟨hpos, -, rfl, rfl⟩ := upStep_eq_some h
  have hparent := parentOf_lt hpos
  have hswap := swap_perm (hparent.trans hlt) hlt
  refine ⟨hswap, ?_, hparent⟩
  rw [hswap.length_eq]
  exact hparent.trans hlt

theorem downStep_perm {heap heap' : List K} {current current' : Nat} (hlt : current < heap.length)
    (h : c.downStep (heap, current) = some (heap', current')) :
    heap'.Perm heap ∧ current' < heap'.length ∧ current < current' := by
  obtain ⟨hne, rfl, rfl⟩ := downStep_eq_some h
  obtain ⟨hless, -, hlt'⟩ := (smallestOf_place heap current).resolve_left hne
  have hswap := swap_perm hlt hlt'
  exact ⟨hswap, hswap.length_eq ▸ hlt', hless⟩

theorem bubbleUp_perm {heap : List K} {pos : Nat} (hpos : pos < heap.length) : (c.bubbleUp heap pos).Perm heap := by
  let P := fun state : List K × Nat => state.2 < state.1.length ∧ state.1.Perm heap
  have hkept : ∀ state state' : List K × Nat, P state → c.upStep state = some state' → P state' := by
    rintro ⟨now, current⟩ ⟨next, current'⟩ ⟨hlt, hperm⟩ hstep
    obtain ⟨hswap, hlt', -⟩ := upStep_perm hlt hstep
    exact ⟨hlt', hswap.trans hperm⟩
  have hstart : P (heap, pos) := ⟨hpos, List.Perm.refl _⟩
  exact (While.loop_invariant hkept pos hstart).2

theorem bubbleDown_perm {heap : List K} {pos : Nat} (hpos : pos < heap.length) :
    (c.bubbleDown heap pos).Perm heap := by
  let P := fun state : List K × Nat => state.2 < state.1.length ∧ state.1.Perm heap
  have hkept : ∀ state state' : List K × Nat, P state → c.downStep state = some state' → P state' := by
    rintro ⟨now, current⟩ ⟨next, current'⟩ ⟨hlt, hperm⟩ hstep
    obtain ⟨hswap, hlt', -⟩ := downStep_perm hlt hstep
    exact ⟨hlt', hswap.trans hperm⟩
  have hstart : P (heap, pos) := ⟨hpos, List.Perm.refl _⟩
  exact (While.loop_invariant hkept heap.length hstart).2

/-! ### Sifting restores the order -/

/-- Only the entry at a place may be out of order with its parent; what is under it is in order with that parent. -/
structure UpOrder (le : K → K → Prop) (heap : List K) (current : Nat) : Prop where
  others : ∀ i, 0 < i → i ≠ current → RelAt le heap (parentOf i) i
  below : ∀ i, 0 < i → parentOf i = current → 0 < current → RelAt le heap (parentOf current) i

/-- Only the entries under a place may be out of order with it; they are in order with its parent. -/
structure DownOrder (le : K → K → Prop) (heap : List K) (current : Nat) : Prop where
  others : ∀ i, 0 < i → parentOf i ≠ current → RelAt le heap (parentOf i) i
  below : ∀ i, 0 < i → parentOf i = current → 0 < current → RelAt le heap (parentOf current) i

section Order

variable {kind : K → Prop} {le : K → K → Prop} (hc : c.Follows kind le) {heap : List K} {current : Nat}
include hc

theorem Follows.relAt_self (hkind : ∀ a ∈ heap, kind a) (i : Nat) : RelAt le heap i i := by
  intro a ha b hb
  rw [Option.mem_def] at ha hb
  rw [ha] at hb
  cases hb
  exact hc.refl a (hkind a (List.mem_of_getElem? ha))

theorem Follows.relAt_trans {i j k : Nat} (hj : j < heap.length) (hij : RelAt le heap i j) (hjk : RelAt le heap j k) :
    RelAt le heap i k := by
  intro a ha b hb
  have hmiddle := List.getElem?_eq_getElem hj
  exact hc.trans a _ b (hij a ha _ hmiddle) (hjk _ hmiddle b hb)

theorem Follows.relAt_of_isBefore (hkind : ∀ a ∈ heap, kind a) {i j : Nat} (h : ask c.isBefore heap i j = true) :
    RelAt le heap i j := by
  intro a ha b hb
  rw [ask_of_getElem? ha hb] at h
  exact hc.le_of_isBefore a b (hkind a (List.mem_of_getElem? ha)) (hkind b (List.mem_of_getElem? hb)) h

theorem Follows.relAt_of_not_isBefore (hkind : ∀ a ∈ heap, kind a) {i j : Nat} (h : ¬ ask c.isBefore heap i j = true) :
    RelAt le heap j i := by
  intro b hb a ha
  rw [ask_of_getElem? ha hb, Bool.not_eq_true] at h
  exact hc.ge_of_not_isBefore a b (hkind a (List.mem_of_getElem? ha)) (hkind b (List.mem_of_getElem? hb)) h

theorem Follows.relAt_of_not_mustSwap (hkind : ∀ a ∈ heap, kind a) {i j : Nat}
    (h : ask c.mustSwap heap i j = false) : RelAt le heap i j := by
  intro a ha b hb
  rw [ask_of_getElem? ha hb] at h
  exact hc.le_of_not_mustSwap a b (hkind a (List.mem_of_getElem? ha)) (hkind b (List.mem_of_getElem? hb)) h

theorem Follows.relAt_of_mustSwap (hkind : ∀ a ∈ heap, kind a) {i j : Nat} (h : ask c.mustSwap heap i j = true) :
    RelAt le heap j i := by
  intro b hb a ha
  rw [ask_of_getElem? ha hb] at h
  exact hc.ge_of_mustSwap a b (hkind a (List.mem_of_getElem? ha)) (hkind b (List.mem_of_getElem? hb)) h

/-- The place that goes first is in order with the entry and with each of its children. -/
theorem Follows.smallestOf_le (hkind : ∀ a ∈ heap, kind a) (hlt : current < heap.length) :
    RelAt le heap (c.smallestOf heap current) current ∧
      ∀ i, 0 < i → parentOf i = current → RelAt le heap (c.smallestOf heap current) i := by
  have hchoose : ∀ i j : Nat, i < heap.length →
      (if ask c.isBefore heap j i then j else i) < heap.length ∧
        RelAt le heap (if ask c.isBefore heap j i then j else i) i ∧
        RelAt le heap (if ask c.isBefore heap j i then j else i) j := by
    intro i j hi
    split
    · rename_i hbefore
      obtain ⟨a, -, ha, -⟩ := ask_eq_true_iff.mp hbefore
      exact ⟨(List.getElem?_eq_some_iff.mp ha).1, hc.relAt_of_isBefore hkind hbefore, hc.relAt_self hkind j⟩
    · rename_i hbefore
      exact ⟨hi, hc.relAt_self hkind i, hc.relAt_of_not_isBefore hkind hbefore⟩
  unfold smallestOf
  dsimp only
  obtain ⟨hlt₁, hle₁, hleft₁⟩ := hchoose current (2 * current + 1) hlt
  generalize (if ask c.isBefore heap (2 * current + 1) current then 2 * current + 1 else current) = first at *
  obtain ⟨-, hle₂, hright₂⟩ := hchoose first (2 * current + 2) hlt₁
  refine ⟨hc.relAt_trans hlt₁ hle₂ hle₁, ?_⟩
  rintro i hi rfl
  rcases children_of_parentOf hi with hchild | hchild
  · rw [← hchild] at hleft₁
    exact hc.relAt_trans hlt₁ hle₂ hleft₁
  · rw [← hchild] at hright₂ ⊢
    exact hright₂

theorem UpOrder.swap (h : UpOrder le heap current) (hpos : 0 < current) (hlt : current < heap.length)
    (hle : RelAt le heap current (parentOf current)) :
    UpOrder le (swap heap (parentOf current) current) (parentOf current) := by
  have hparent := parentOf_lt hpos
  obtain ⟨a, ha⟩ : ∃ a, heap[current]? = some a := ⟨_, List.getElem?_eq_getElem hlt⟩
  obtain ⟨b, hb⟩ : ∃ b, heap[parentOf current]? = some b := ⟨_, List.getElem?_eq_getElem (hparent.trans hlt)⟩
  have hab : le a b := hle a ha b hb
  have hget := getElem?_swap (hparent.trans hlt) hlt
  constructor
  · intro i hi hne x hx y hy
    rw [Option.mem_def, hget] at hx hy
    have hparent' := parentOf_lt hi
    rw [if_neg hne] at hy
    by_cases hcurrent : i = current
    · subst hcurrent
      rw [if_neg hparent.ne, if_pos rfl, ha] at hx
      rw [if_pos rfl, hb] at hy
      cases hx
      cases hy
      exact hab
    · rw [if_neg hcurrent] at hy
      by_cases hunder : parentOf i = current
      · rw [if_pos hunder, hb] at hx
        cases hx
        exact h.below i hi hunder hpos b hb y hy
      · rw [if_neg hunder] at hx
        by_cases hsame : parentOf i = parentOf current
        · rw [if_pos hsame, ha] at hx
          cases hx
          exact hc.trans a b y hab (h.others i hi hcurrent b (hsame ▸ hb) y hy)
        · rw [if_neg hsame] at hx
          exact h.others i hi hcurrent x hx y hy
  · intro i hi hunder hpos' x hx y hy
    have hgrand := parentOf_lt hpos'
    have hup : le x b := by
      rw [Option.mem_def, hget, if_neg (by omega), if_neg hgrand.ne] at hx
      exact h.others (parentOf current) hpos' hparent.ne x hx b hb
    have hi' := parentOf_lt hi
    rw [Option.mem_def, hget] at hy
    by_cases hcurrent : i = current
    · rw [if_pos hcurrent, hb] at hy
      cases hy
      exact hup
    · rw [if_neg hcurrent, if_neg (by omega)] at hy
      exact hc.trans x b y hup (h.others i hi hcurrent b (hunder ▸ hb) y hy)

theorem DownOrder.swap (hkind : ∀ a ∈ heap, kind a) (h : DownOrder le heap current) (hlt : current < heap.length)
    (hne : c.smallestOf heap current ≠ current) :
    DownOrder le (Heaps.swap heap current (c.smallestOf heap current)) (c.smallestOf heap current) := by
  obtain ⟨hle, hleast⟩ := hc.smallestOf_le hkind hlt
  obtain ⟨hless, hparent, hlt'⟩ := (smallestOf_place heap current).resolve_left hne
  generalize c.smallestOf heap current = smallest at *
  have hpos : 0 < smallest := Nat.zero_lt_of_lt hless
  obtain ⟨a, ha⟩ : ∃ a, heap[current]? = some a := ⟨_, List.getElem?_eq_getElem hlt⟩
  obtain ⟨b, hb⟩ : ∃ b, heap[smallest]? = some b := ⟨_, List.getElem?_eq_getElem hlt'⟩
  have hget := getElem?_swap hlt hlt'
  constructor
  · intro i hi hunder x hx y hy
    rw [Option.mem_def, hget] at hx hy
    rw [if_neg hunder] at hx
    have hi' := parentOf_lt hi
    by_cases hsmallest : i = smallest
    · subst hsmallest
      rw [if_pos rfl, ha] at hy
      rw [if_pos hparent, hb] at hx
      cases hx
      cases hy
      exact hle b hb a ha
    · rw [if_neg hsmallest] at hy
      by_cases hcurrent : i = current
      · rw [if_pos hcurrent, hb] at hy
        cases hy
        rw [if_neg (by omega)] at hx
        subst hcurrent
        exact h.below smallest hpos hparent hi x hx b hb
      · rw [if_neg hcurrent] at hy
        by_cases hsame : parentOf i = current
        · rw [if_pos hsame, hb] at hx
          cases hx
          exact hleast i hi hsame b hb y hy
        · rw [if_neg hsame] at hx
          exact h.others i hi hsame x hx y hy
  · intro i hi hunder _ x hx y hy
    have hi' := parentOf_lt hi
    rw [Option.mem_def, hget, hparent, if_neg hne.symm, if_pos rfl, hb] at hx
    rw [Option.mem_def, hget, if_neg (by omega), if_neg (by omega)] at hy
    cases hx
    exact h.others i hi (by omega) b (hunder ▸ hb) y hy

theorem Follows.bubbleUp_isHeap (hkind : ∀ a ∈ heap, kind a) (h : UpOrder le heap current)
    (hlt : current < heap.length) : IsHeap le (c.bubbleUp heap current) := by
  let P := fun state : List K × Nat => UpOrder le state.1 state.2 ∧ state.2 < state.1.length ∧ state.1.Perm heap
  have hkept : ∀ state state' : List K × Nat, P state → c.upStep state = some state' → P state' ∧ state'.2 < state.2 := by
    rintro ⟨now, place⟩ ⟨next, place'⟩ ⟨horder, hlt, hperm⟩ hstep
    have hkind' : ∀ a ∈ now, kind a := fun a ha => hkind a (hperm.mem_iff.mp ha)
    obtain ⟨hswap, hlt', hless⟩ := upStep_perm hlt hstep
    obtain ⟨hpos, hmust, rfl, rfl⟩ := upStep_eq_some hstep
    exact ⟨⟨horder.swap hc hpos hlt (hc.relAt_of_mustSwap hkind' hmust), hlt', hswap.trans hperm⟩, hless⟩
  have hstart : P (heap, current) := ⟨h, hlt, List.Perm.refl _⟩
  have hend := While.loop_invariant (fun state state' hs hstep => (hkept state state' hs hstep).1) current hstart
  have hstop := While.loop_stops hkept hstart le_rfl
  unfold bubbleUp
  generalize While.loop c.upStep current (heap, current) = last at hend hstop ⊢
  obtain ⟨now, place⟩ := last
  intro i hi
  by_cases hcurrent : i = place
  · subst hcurrent
    exact hc.relAt_of_not_mustSwap (fun a ha => hkind a (hend.2.2.mem_iff.mp ha)) (upStep_eq_none hstop hi)
  · exact hend.1.others i hi hcurrent

theorem Follows.bubbleDown_isHeap (hkind : ∀ a ∈ heap, kind a) (h : DownOrder le heap current)
    (hlt : current < heap.length) : IsHeap le (c.bubbleDown heap current) := by
  let P := fun state : List K × Nat => DownOrder le state.1 state.2 ∧ state.2 < state.1.length ∧ state.1.Perm heap
  have hkept : ∀ state state' : List K × Nat, P state → c.downStep state = some state' →
      P state' ∧ heap.length - state'.2 < heap.length - state.2 := by
    rintro ⟨now, place⟩ ⟨next, place'⟩ ⟨horder, hlt, hperm⟩ hstep
    have hkind' : ∀ a ∈ now, kind a := fun a ha => hkind a (hperm.mem_iff.mp ha)
    obtain ⟨hswap, hlt', hless⟩ := downStep_perm hlt hstep
    obtain ⟨hne, rfl, rfl⟩ := downStep_eq_some hstep
    refine ⟨⟨horder.swap hc hkind' hlt hne, hlt', hswap.trans hperm⟩, ?_⟩
    dsimp only at hlt
    rw [hperm.length_eq] at hlt
    exact Nat.sub_lt_sub_left hlt hless
  have hstart : P (heap, current) := ⟨h, hlt, List.Perm.refl _⟩
  have hend := While.loop_invariant (fun state state' hs hstep => (hkept state state' hs hstep).1) heap.length hstart
  have hstop := While.loop_stops (m := fun state : List K × Nat => heap.length - state.2) hkept hstart (Nat.sub_le _ _)
  unfold bubbleDown
  generalize While.loop c.downStep heap.length (heap, current) = last at hend hstop ⊢
  obtain ⟨now, place⟩ := last
  intro i hi
  by_cases hunder : parentOf i = place
  · have hsmallest : c.smallestOf now place = place := by
      by_contra hne
      simp only [downStep, if_neg hne, reduceCtorEq] at hstop
    obtain ⟨-, hleast⟩ := hc.smallestOf_le (fun a ha => hkind a (hend.2.2.mem_iff.mp ha)) hend.2.1
    rw [hunder]
    exact hsmallest ▸ hleast i hi hunder
  · exact hend.1.others i hi hunder

/-- The first entry of a heap is related to all of them. -/
theorem Follows.first_le (hkind : ∀ a ∈ heap, kind a) (h : IsHeap le heap) {first : K} (hfirst : heap[0]? = some first) :
    ∀ entry ∈ heap, le first entry := by
  have hall : ∀ (i : Nat) (entry : K), heap[i]? = some entry → le first entry := by
    intro i
    induction i using Nat.strong_induction_on with
    | _ i ih =>
        intro entry hentry
        rcases Nat.eq_zero_or_pos i with rfl | hi
        · exact hc.relAt_self hkind 0 first hfirst entry hentry
        · have hparent := parentOf_lt hi
          have hlt := hparent.trans (List.getElem?_eq_some_iff.mp hentry).1
          obtain ⟨above, habove⟩ : ∃ above, heap[parentOf i]? = some above := ⟨_, List.getElem?_eq_getElem hlt⟩
          exact hc.trans _ _ _ (ih _ hparent above habove) (h i hi above habove entry hentry)
  intro entry hentry
  obtain ⟨i, hi⟩ := List.mem_iff_getElem?.mp hentry
  exact hall i entry hi

end Order

/-! ### An entry at the end, and the last entry at the front -/

theorem upOrder_append {le : K → K → Prop} {heap : List K} (h : IsHeap le heap) (entry : K) :
    UpOrder le (heap ++ [entry]) heap.length := by
  constructor
  · intro i hi hne a ha b hb
    rw [Option.mem_def] at ha hb
    have hlt : i < heap.length := by
      have hbound := (List.getElem?_eq_some_iff.mp hb).1
      rw [List.length_append, List.length_singleton] at hbound
      omega
    rw [List.getElem?_append_left hlt] at hb
    rw [List.getElem?_append_left ((parentOf_lt hi).trans hlt)] at ha
    exact h i hi a ha b hb
  · intro i hi hunder _ a _ b hb
    have hbound := (List.getElem?_eq_some_iff.mp hb).1
    rw [List.length_append, List.length_singleton] at hbound
    have hparent := parentOf_lt hi
    omega

theorem downOrder_withLast {le : K → K → Prop} {heap : List K} (h : IsHeap le heap) (last : K) :
    DownOrder le (heap.dropLast.set 0 last) 0 := by
  constructor
  · intro i hi hunder a ha b hb
    rw [Option.mem_def, List.getElem?_set, if_neg (by omega), List.getElem?_dropLast] at ha hb
    split at ha
    · split at hb
      · exact h i hi a ha b hb
      · cases hb
    · cases ha
  · exact fun i _ _ hpos => absurd hpos (Nat.lt_irrefl 0)

end Comparison

end GitWarp.Heaps
