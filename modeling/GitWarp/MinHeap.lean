import GitWarp.LibraryHeaps

/-! A binary heap in a list. The entries are in a linear order; the least one comes out first. -/

namespace GitWarp

namespace HeapOrder

variable {K : Type} [LinearOrder K]

/-- The entries at two places are in order, where both places exist. -/
def LeAt (heap : List K) (i j : Nat) : Prop := ∀ a ∈ heap[i]?, ∀ b ∈ heap[j]?, a ≤ b

def parentOf (i : Nat) : Nat := (i - 1) / 2

/-- No entry is before its parent. -/
def IsHeap (heap : List K) : Prop := ∀ i, 0 < i → LeAt heap (parentOf i) i

/-- `_compare(idxA, idxB) < 0` -/
def isBefore (heap : List K) (idxA idxB : Nat) : Bool :=
  match heap[idxA]?, heap[idxB]? with
  | some a, some b => a < b
  | _, _ => false

def swap (heap : List K) (i j : Nat) : List K :=
  match heap[i]?, heap[j]? with
  | some a, some b => (heap.set i b).set j a
  | _, _ => heap

/-- One turn of `_bubbleUp`; it stops where the parent is not after the entry. -/
def upStep (state : List K × Nat) : Option (List K × Nat) :=
  let (heap, current) := state
  if current = 0 then none
  else if isBefore heap current (parentOf current) = false then none
  else some (swap heap (parentOf current) current, parentOf current)

def bubbleUp (heap : List K) (pos : Nat) : List K := (While.loop upStep pos (heap, pos)).1

/-- The place of the least of an entry and its children. -/
def smallestOf (heap : List K) (current : Nat) : Nat :=
  let smallest := if isBefore heap (2 * current + 1) current then 2 * current + 1 else current
  if isBefore heap (2 * current + 2) smallest then 2 * current + 2 else smallest

/-- One turn of `_bubbleDown`; it stops where no child is before the entry. -/
def downStep (state : List K × Nat) : Option (List K × Nat) :=
  let (heap, current) := state
  let smallest := smallestOf heap current
  if smallest = current then none else some (swap heap current smallest, smallest)

def bubbleDown (heap : List K) (pos : Nat) : List K := (While.loop downStep heap.length (heap, pos)).1

/-! ### The heap of the order -/

/-- The questions of sifting, answered by the order. -/
def byOrder (K : Type) [LinearOrder K] : Heaps.Comparison K := ⟨fun a b => b < a, fun a b => a < b⟩

theorem byOrder_follows : (byOrder K).Follows (fun _ => True) (· ≤ ·) where
  refl a _ := le_refl a
  trans _ _ _ := le_trans
  ge_of_mustSwap _ _ _ _ h := (of_decide_eq_true h).le
  le_of_not_mustSwap _ _ _ _ h := not_lt.mp (of_decide_eq_false h)
  le_of_isBefore _ _ _ _ h := (of_decide_eq_true h).le
  ge_of_not_isBefore _ _ _ _ h := not_lt.mp (of_decide_eq_false h)

theorem ask_mustSwap (heap : List K) (i j : Nat) : Heaps.ask (byOrder K).mustSwap heap i j = isBefore heap j i := by
  unfold Heaps.ask isBefore
  cases heap[i]? with
  | none =>
      cases heap[j]? with
      | none => rfl
      | some b => rfl
  | some a =>
      cases heap[j]? with
      | none => rfl
      | some b => rfl

theorem upStep_eq : upStep (K := K) = (byOrder K).upStep := by
  funext state
  rw [upStep, Heaps.Comparison.upStep, ask_mustSwap]
  rfl

theorem bubbleUp_eq (heap : List K) (pos : Nat) : bubbleUp heap pos = (byOrder K).bubbleUp heap pos := by
  rw [bubbleUp, upStep_eq, Heaps.Comparison.bubbleUp]

theorem downStep_eq : downStep (K := K) = (byOrder K).downStep := rfl

theorem bubbleDown_eq (heap : List K) (pos : Nat) : bubbleDown heap pos = (byOrder K).bubbleDown heap pos := by
  rw [bubbleDown, downStep_eq, Heaps.Comparison.bubbleDown]

theorem bubbleUp_spec {heap : List K} (h : IsHeap heap) (entry : K) :
    IsHeap (bubbleUp (heap ++ [entry]) heap.length) ∧ (bubbleUp (heap ++ [entry]) heap.length).Perm (entry :: heap) := by
  have hlt : heap.length < (heap ++ [entry]).length := by simp
  rw [bubbleUp_eq]
  refine ⟨byOrder_follows.bubbleUp_isHeap (fun _ _ => trivial) (Heaps.Comparison.upOrder_append h entry) hlt, ?_⟩
  exact (Heaps.Comparison.bubbleUp_perm hlt).trans (List.perm_append_singleton entry heap)

theorem bubbleDown_spec {heap : List K} (h : IsHeap heap) (last : K) (hlt : 0 < (heap.dropLast.set 0 last).length) :
    IsHeap (bubbleDown (heap.dropLast.set 0 last) 0) ∧
      (bubbleDown (heap.dropLast.set 0 last) 0).Perm (heap.dropLast.set 0 last) := by
  rw [bubbleDown_eq]
  refine ⟨?_, Heaps.Comparison.bubbleDown_perm hlt⟩
  exact byOrder_follows.bubbleDown_isHeap (fun _ _ => trivial) (Heaps.Comparison.downOrder_withLast h last) hlt

/-- The first entry is the least one. -/
theorem IsHeap.first_le {heap : List K} (h : IsHeap heap) {first : K} (hfirst : heap[0]? = some first) :
    ∀ entry ∈ heap, first ≤ entry :=
  byOrder_follows.first_le (fun _ _ => trivial) h hfirst

end HeapOrder

open HeapOrder

/-- A heap of entries, each a priority and an item; of equal priorities the tie-breaker puts the least item first. -/
structure MinHeap (K : Type) [LinearOrder K] where
  heap : List K
  isHeap : IsHeap heap

namespace MinHeap

variable {K : Type} [LinearOrder K]

def empty : MinHeap K := ⟨[], fun i _ a ha => by cases ha⟩

def isEmpty (h : MinHeap K) : Bool := h.heap.isEmpty

def insert (h : MinHeap K) (entry : K) : MinHeap K :=
  ⟨bubbleUp (h.heap ++ [entry]) h.heap.length, (bubbleUp_spec h.isHeap entry).1⟩

theorem insert_perm (h : MinHeap K) (entry : K) : (h.insert entry).heap.Perm (entry :: h.heap) :=
  (bubbleUp_spec h.isHeap entry).2

@[simp] theorem mem_insert (h : MinHeap K) (entry other : K) :
    other ∈ (h.insert entry).heap ↔ other = entry ∨ other ∈ h.heap := by
  rw [(h.insert_perm entry).mem_iff, List.mem_cons]

/-- The first entry; the last one takes its place and bubbles down. -/
def extractMin (h : MinHeap K) : Option (K × MinHeap K) :=
  match hfirst : h.heap with
  | [] => none
  | [only] => some (only, empty)
  | first :: second :: rest =>
      let moved := (first :: second :: rest).dropLast.set 0 ((second :: rest).getLast (List.cons_ne_nil _ _))
      some (first, ⟨bubbleDown moved 0,
        (bubbleDown_spec (hfirst ▸ h.isHeap) _ (by simp [List.length_dropLast])).1⟩)

theorem extractMin_eq_none_iff {h : MinHeap K} : h.extractMin = none ↔ h.heap = [] := by
  unfold extractMin
  split <;> simp_all

/-- What is taken out is least, and the others stay. -/
theorem extractMin_spec {h rest : MinHeap K} {entry : K} (hextract : h.extractMin = some (entry, rest)) :
    h.heap.Perm (entry :: rest.heap) ∧ ∀ other ∈ h.heap, entry ≤ other := by
  obtain ⟨heap, hheap⟩ := h
  match heap, hheap, hextract with
  | [only], hheap, hextract =>
      cases hextract
      exact ⟨List.Perm.refl _, hheap.first_le rfl⟩
  | first :: second :: others, hheap, hextract =>
      simp only [extractMin, Option.some.injEq, Prod.mk.injEq] at hextract
      obtain ⟨rfl, rfl⟩ := hextract
      refine ⟨?_, hheap.first_le rfl⟩
      refine List.Perm.cons _ (List.Perm.trans ?_ (bubbleDown_spec hheap _
        (by simp [List.length_dropLast])).2.symm)
      rw [List.dropLast_cons_of_ne_nil (List.cons_ne_nil _ _), List.set_cons_zero]
      have hsplit := List.dropLast_append_getLast (List.cons_ne_nil second others)
      calc
        (second :: others).Perm ((second :: others).dropLast ++ [(second :: others).getLast _]) := by rw [hsplit]
        List.Perm _ ((second :: others).getLast _ :: (second :: others).dropLast) := List.perm_append_singleton _ _

end MinHeap

end GitWarp
