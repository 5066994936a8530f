import GitWarp.LibraryDoubles
import GitWarp.LibraryHeaps
import Mathlib.Algebra.Order.Field.Rat
import Mathlib.Data.Multiset.AddSub
import Mathlib.Order.WithBot

/-! The class `MinHeap`, with priorities that are any numbers and any tie-breaker, as a priority queue. -/

namespace GitWarp

namespace JsNumber

/-- `a - b`. Only the sign of a difference is read here, and rounding keeps it. -/
def minus : JsNumber → JsNumber → JsNumber
  | .finite a, .finite b => .finite (a - b)
  | .finite _, .infinite negative => .infinite (!negative)
  | .infinite negative, .finite _ => .infinite negative
  | .infinite negative, .infinite negative' => if negative = negative' then .nan else .infinite negative
  | .nan, _ => .nan
  | _, .nan => .nan

/-- `n < 0` -/
def isNegative : JsNumber → Bool
  | .finite value => value < 0
  | .infinite negative => negative
  | .nan => false

/-- `n <= 0` -/
def isNotPositive : JsNumber → Bool
  | .finite value => value ≤ 0
  | .infinite negative => negative
  | .nan => false

/-- The numbers other than NaN in their order. -/
def place : JsNumber → WithBot (WithTop Rat)
  | .finite value => ((value : WithTop Rat) : WithBot (WithTop Rat))
  | .infinite true => ⊥
  | .infinite false => ((⊤ : WithTop Rat) : WithBot (WithTop Rat))
  | .nan => ⊥

theorem isNotPositive_of_isNegative {n : JsNumber} (h : n.isNegative = true) : n.isNotPositive = true := by
  cases n with
  | finite value => exact decide_eq_true (of_decide_eq_true h).le
  | infinite negative => exact h
  | nan => exact h

theorem strictEquals_iff {a b : JsNumber} (ha : a ≠ .nan) : a.strictEquals b = true ↔ a = b := by
  cases a with
  | nan => exact absurd rfl ha
  | finite value => simp [strictEquals]
  | infinite negative => simp [strictEquals]

theorem place_injOn {a b : JsNumber} (ha : a ≠ .nan) (hb : b ≠ .nan) (h : a.place = b.place) : a = b := by
  rcases a with value | (_ | _) | _ <;> rcases b with value' | (_ | _) | _ <;> simp_all [place]

/-- The difference of two numbers has the sign of their order. -/
theorem isNegative_minus {a b : JsNumber} (ha : a ≠ .nan) (hb : b ≠ .nan) (hne : a ≠ b) :
    (a.minus b).isNegative = decide (a.place < b.place) ∧ (a.minus b).isNotPositive = decide (a.place < b.place) := by
  rcases a with value | (_ | _) | _ <;> rcases b with value' | (_ | _) | _ <;>
    simp_all [minus, isNegative, isNotPositive, place, le_iff_lt_or_eq, sub_eq_zero, lt_top_iff_ne_top]

end JsNumber

/-- What the array `_heap` holds. -/
structure HeapEntry (T : Type) where
  item : T
  priority : JsNumber
  deriving DecidableEq

/-- The class `MinHeap`. -/
structure MinHeapObject (T : Type) where
  heap : List (HeapEntry T)
  tieBreaker : Option (T → T → JsNumber)

section
variable {T : Type}

/-- `_compare`, of the entries at its two places. -/
def compareEntries (tieBreaker : Option (T → T → JsNumber)) (a b : HeapEntry T) : JsNumber :=
  if a.priority.strictEquals b.priority = false then a.priority.minus b.priority
  else
    match tieBreaker with
    | some tieBreaker => tieBreaker a.item b.item
    | none => .finite 0

/-- `_bubbleUp` asks whether a comparison is not `<= 0`, `_bubbleDown` whether it is `< 0`. -/
def entryComparison (tieBreaker : Option (T → T → JsNumber)) : Heaps.Comparison (HeapEntry T) where
  mustSwap a b := !(compareEntries tieBreaker a b).isNotPositive
  isBefore a b := (compareEntries tieBreaker a b).isNegative

namespace MinHeapObject

def new (tieBreaker : Option (T → T → JsNumber)) : MinHeapObject T := ⟨[], tieBreaker⟩

def insert (h : MinHeapObject T) (item : T) (priority : JsNumber) : MinHeapObject T :=
  { h with heap := (entryComparison h.tieBreaker).bubbleUp (h.heap ++ [⟨item, priority⟩]) h.heap.length }

def extractMin (h : MinHeapObject T) : Option T × MinHeapObject T :=
  match h.heap with
  | [] => (none, h)
  | [only] => (some only.item, { h with heap := [] })
  | min :: second :: rest =>
      let popped := (min :: second :: rest).dropLast
      let last := (second :: rest).getLast (List.cons_ne_nil _ _)
      (some min.item, { h with heap := (entryComparison h.tieBreaker).bubbleDown (popped.set 0 last) 0 })

def peekPriority (h : MinHeapObject T) : JsNumber :=
  match h.heap with
  | [] => .infinite false
  | first :: _ => first.priority

end MinHeapObject

/-- A call of one of the two methods that change a heap. -/
inductive HeapCall (T : Type) where
  | insert (item : T) (priority : JsNumber)
  | extractMin

/-- What the calls of `extractMin` return, in their order, and the heap after all calls. -/
def MinHeapObject.run (h : MinHeapObject T) : List (HeapCall T) → List (Option T) × MinHeapObject T
  | [] => ([], h)
  | .insert item priority :: calls => (h.insert item priority).run calls
  | .extractMin :: calls =>
      let rest := h.extractMin.2.run calls
      (h.extractMin.1 :: rest.1, rest.2)

def HeapCall.insertedEntry : HeapCall T → Option (HeapEntry T)
  | .insert item priority => some ⟨item, priority⟩
  | .extractMin => none

def insertedEntries (calls : List (HeapCall T)) : List (HeapEntry T) := calls.filterMap HeapCall.insertedEntry

@[simp] theorem insertedEntries_nil : insertedEntries ([] : List (HeapCall T)) = [] := rfl

@[simp] theorem insertedEntries_insert (item : T) (priority : JsNumber) (calls : List (HeapCall T)) :
    insertedEntries (.insert item priority :: calls) = ⟨item, priority⟩ :: insertedEntries calls := rfl

@[simp] theorem insertedEntries_extractMin (calls : List (HeapCall T)) :
    insertedEntries (.extractMin :: calls) = insertedEntries calls := rfl

/-! ### The queue that a heap stands for -/

/-- A priority queue is a bag of entries. What is taken out of it has no entry of the bag before it. -/
inductive Serves (before : HeapEntry T → HeapEntry T → Prop) :
    Multiset (HeapEntry T) → List (HeapCall T) → List (Option T) → Multiset (HeapEntry T) → Prop
  | done (pending : Multiset (HeapEntry T)) : Serves before pending [] [] pending
  | insert {pending calls answers last} (item : T) (priority : JsNumber)
      (rest : Serves before (⟨item, priority⟩ ::ₘ pending) calls answers last) :
      Serves before pending (.insert item priority :: calls) answers last
  | extract {pending calls answers last} (entry : HeapEntry T)
      (minimal : ∀ other ∈ entry ::ₘ pending, ¬ before other entry) (rest : Serves before pending calls answers last) :
      Serves before (entry ::ₘ pending) (.extractMin :: calls) (some entry.item :: answers) last
  | empty {calls answers last} (rest : Serves before 0 calls answers last) :
      Serves before 0 (.extractMin :: calls) (none :: answers) last

theorem Serves.of_insert {before : HeapEntry T → HeapEntry T → Prop} {pending last : Multiset (HeapEntry T)}
    {calls : List (HeapCall T)} {item : T} {priority : JsNumber} {answers : List (Option T)}
    (h : Serves before pending (.insert item priority :: calls) answers last) :
    Serves before (⟨item, priority⟩ ::ₘ pending) calls answers last := by
  cases h with
  | insert item priority rest => exact rest

theorem Serves.exists_minimal {before : HeapEntry T → HeapEntry T → Prop} {pending last : Multiset (HeapEntry T)}
    {calls : List (HeapCall T)} {item : T} {answers : List (Option T)}
    (h : Serves before pending (.extractMin :: calls) (some item :: answers) last) :
    ∃ entry ∈ pending, entry.item = item ∧ ∀ other ∈ pending, ¬ before other entry := by
  cases h with
  | extract entry minimal rest => exact ⟨entry, Multiset.mem_cons_self _ _, rfl, minimal⟩

/-- A queue gives back what was put into it, every entry once. -/
theorem Serves.exists_extracted {before : HeapEntry T → HeapEntry T → Prop} {pending last : Multiset (HeapEntry T)}
    {calls : List (HeapCall T)} {answers : List (Option T)} (h : Serves before pending calls answers last) :
    ∃ extracted : List (HeapEntry T), answers.filterMap id = extracted.map HeapEntry.item ∧
      pending + (insertedEntries calls : Multiset (HeapEntry T)) = extracted + last := by
  induction h with
  | done pending => exact ⟨[], rfl, by simp [insertedEntries]⟩
  | insert item priority rest ih =>
      obtain ⟨extracted, hitems, hbag⟩ := ih
      refine ⟨extracted, hitems, ?_⟩
      rw [← hbag, Multiset.cons_add, ← Multiset.add_cons]
      rfl
  | extract entry minimal rest ih =>
      obtain ⟨extracted, hitems, hbag⟩ := ih
      refine ⟨entry :: extracted, ?_, ?_⟩
      · exact congrArg (entry.item :: ·) hitems
      · rw [← Multiset.cons_coe, Multiset.cons_add, Multiset.cons_add, ← hbag]
        rfl
  | empty rest ih =>
      obtain ⟨extracted, hitems, hbag⟩ := ih
      exact ⟨extracted, hitems, hbag⟩

/-! ### A comparison without contradictions -/

/-- The entries of a kind have priorities other than NaN, and of equal ones the tie-breaker orders the items. -/
structure Orders (tieBreaker : Option (T → T → JsNumber)) (kind : HeapEntry T → Prop) : Prop where
  priority_ne_nan : ∀ a, kind a → a.priority ≠ .nan
  antisymm : ∀ tie ∈ tieBreaker, ∀ a b, kind a → kind b → a.priority = b.priority →
    (tie a.item b.item).isNotPositive = true → (tie b.item a.item).isNegative = false
  trans : ∀ tie ∈ tieBreaker, ∀ a b d, kind a → kind b → kind d → a.priority = b.priority → b.priority = d.priority →
    (tie b.item a.item).isNegative = false → (tie d.item b.item).isNegative = false →
      (tie d.item a.item).isNegative = false

/-- The first entry has to come out before the second one. -/
def comesBefore (tieBreaker : Option (T → T → JsNumber)) (a b : HeapEntry T) : Prop :=
  (compareEntries tieBreaker a b).isNegative = true

instance (tieBreaker : Option (T → T → JsNumber)) (a b : HeapEntry T) : Decidable (comesBefore tieBreaker a b) :=
  inferInstanceAs (Decidable (_ = true))

theorem compareEntries_of_ne (tieBreaker : Option (T → T → JsNumber)) {a b : HeapEntry T} (ha : a.priority ≠ .nan)
    (hne : a.priority ≠ b.priority) : compareEntries tieBreaker a b = a.priority.minus b.priority := by
  have hstrict : a.priority.strictEquals b.priority = false :=
    Bool.eq_false_iff.mpr fun h => hne ((JsNumber.strictEquals_iff ha).mp h)
  rw [compareEntries.eq_def, if_pos hstrict]

theorem compareEntries_of_eq (tieBreaker : Option (T → T → JsNumber)) {a b : HeapEntry T} (ha : a.priority ≠ .nan)
    (heq : a.priority = b.priority) :
    compareEntries tieBreaker a b = tieBreaker.elim (.finite 0) (fun tie => tie a.item b.item) := by
  have hstrict := (JsNumber.strictEquals_iff ha).mpr heq
  rw [compareEntries.eq_def, hstrict, if_neg (by simp)]
  cases tieBreaker with
  | none => rfl
  | some tie => rfl

namespace Orders

variable {tieBreaker : Option (T → T → JsNumber)} {kind : HeapEntry T → Prop} (h : Orders tieBreaker kind)
include h

/-- Of two entries in order, the second one does not come before the first. -/
def InOrder (tieBreaker : Option (T → T → JsNumber)) (kind : HeapEntry T → Prop) (a b : HeapEntry T) : Prop :=
  kind a ∧ kind b ∧ ¬ comesBefore tieBreaker b a

theorem not_comesBefore_iff {a b : HeapEntry T} (ha : kind a) (hb : kind b) :
    ¬ comesBefore tieBreaker b a ↔ a.priority.place < b.priority.place ∨
      a.priority = b.priority ∧ ∀ tie ∈ tieBreaker, (tie b.item a.item).isNegative = false := by
  have hna := h.priority_ne_nan a ha
  have hnb := h.priority_ne_nan b hb
  unfold comesBefore
  by_cases heq : b.priority = a.priority
  · rw [compareEntries_of_eq tieBreaker hnb heq, heq]
    cases tieBreaker with
    | none => simp [JsNumber.isNegative]
    | some tie => simp
  · rw [compareEntries_of_ne tieBreaker hnb heq, (JsNumber.isNegative_minus hnb hna heq).1, decide_eq_true_iff, not_lt,
      or_iff_left (fun hequal => heq hequal.1.symm)]
    refine ⟨fun hle => lt_of_le_of_ne hle fun hplace => heq (JsNumber.place_injOn hna hnb hplace).symm, le_of_lt⟩

theorem inOrder_of_not_positive {a b : HeapEntry T} (ha : kind a) (hb : kind b)
    (hle : (compareEntries tieBreaker a b).isNotPositive = true) : InOrder tieBreaker kind a b := by
  refine ⟨ha, hb, (h.not_comesBefore_iff ha hb).mpr ?_⟩
  have hna := h.priority_ne_nan a ha
  by_cases heq : a.priority = b.priority
  · rw [compareEntries_of_eq tieBreaker hna heq] at hle
    refine Or.inr ⟨heq, fun tie htie => ?_⟩
    rw [Option.mem_def] at htie
    subst htie
    exact h.antisymm tie rfl a b ha hb heq hle
  · rw [compareEntries_of_ne tieBreaker hna heq,
      (JsNumber.isNegative_minus hna (h.priority_ne_nan b hb) heq).2, decide_eq_true_iff] at hle
    exact Or.inl hle

theorem inOrder_trans {a b d : HeapEntry T} (hab : InOrder tieBreaker kind a b) (hbd : InOrder tieBreaker kind b d) :
    InOrder tieBreaker kind a d := by
  obtain ⟨ha, hb, hab⟩ := hab
  obtain ⟨-, hd, hbd⟩ := hbd
  refine ⟨ha, hd, (h.not_comesBefore_iff ha hd).mpr ?_⟩
  rcases (h.not_comesBefore_iff ha hb).mp hab with hlt | ⟨heq, htie⟩
  · rcases (h.not_comesBefore_iff hb hd).mp hbd with hlt' | ⟨heq', -⟩
    · exact Or.inl (hlt.trans hlt')
    · exact Or.inl (heq' ▸ hlt)
  · rcases (h.not_comesBefore_iff hb hd).mp hbd with hlt' | ⟨heq', htie'⟩
    · exact Or.inl (heq ▸ hlt')
    · refine Or.inr ⟨heq.trans heq', fun tie hmem => ?_⟩
      exact h.trans tie hmem a b d ha hb hd heq heq' (htie tie hmem) (htie' tie hmem)

theorem follows : (entryComparison tieBreaker).Follows kind (InOrder tieBreaker kind) where
  refl a ha := by
    by_cases hnegative : (compareEntries tieBreaker a a).isNegative = true
    · exact h.inOrder_of_not_positive ha ha (JsNumber.isNotPositive_of_isNegative hnegative)
    · exact ⟨ha, ha, hnegative⟩
  trans a b d := h.inOrder_trans
  ge_of_mustSwap a b ha hb hswap := by
    refine ⟨hb, ha, fun hnegative => ?_⟩
    have hle := JsNumber.isNotPositive_of_isNegative hnegative
    simp only [entryComparison, hle, Bool.not_true, Bool.false_eq_true] at hswap
  le_of_not_mustSwap a b ha hb hstay := h.inOrder_of_not_positive ha hb (by simpa [entryComparison] using hstay)
  le_of_isBefore a b ha hb hbefore := h.inOrder_of_not_positive ha hb (JsNumber.isNotPositive_of_isNegative hbefore)
  ge_of_not_isBefore a b ha hb hbefore := ⟨hb, ha, Bool.eq_false_iff.mp hbefore⟩

end Orders

/-! ### Tie-breakers of the callers -/

/-- `(a, b) => (a < b ? -1 : a > b ? 1 : 0)` -/
def lexTieBreaker [LinearOrder T] (a b : T) : JsNumber :=
  if a < b then .finite (-1) else if b < a then .finite 1 else .finite 0

theorem isNegative_lexTieBreaker [LinearOrder T] (a b : T) : (lexTieBreaker a b).isNegative = decide (a < b) := by
  unfold lexTieBreaker
  split
  · rename_i hlt
    rw [decide_eq_true hlt]
    rfl
  · rename_i hnot
    rw [decide_eq_false hnot]
    split
    · rfl
    · rfl

theorem isNotPositive_lexTieBreaker [LinearOrder T] (a b : T) :
    (lexTieBreaker a b).isNotPositive = decide (a ≤ b) := by
  unfold lexTieBreaker
  split
  · rename_i hlt
    rw [decide_eq_true hlt.le]
    rfl
  · rename_i hnot
    split
    · rename_i hlt
      rw [decide_eq_false hlt.not_ge]
      rfl
    · rename_i hnot'
      rw [decide_eq_true (not_lt.mp hnot')]
      rfl

theorem orders_lexTieBreaker [LinearOrder T] {kind : HeapEntry T → Prop}
    (h : ∀ a, kind a → a.priority ≠ .nan) : Orders (some lexTieBreaker) kind where
  priority_ne_nan := h
  antisymm tie htie a b _ _ _ hle := by
    cases htie
    rw [isNotPositive_lexTieBreaker, decide_eq_true_iff] at hle
    rw [isNegative_lexTieBreaker, decide_eq_false hle.not_gt]
  trans tie htie a b d _ _ _ _ _ hab hbd := by
    cases htie
    rw [isNegative_lexTieBreaker, decide_eq_false_iff_not, not_lt] at hab hbd ⊢
    exact hab.trans hbd

/-! ### One call -/

namespace MinHeapObject

theorem insert_perm (h : MinHeapObject T) (item : T) (priority : JsNumber) :
    (h.insert item priority).heap.Perm (⟨item, priority⟩ :: h.heap) :=
  (Heaps.Comparison.bubbleUp_perm (by simp)).trans (List.perm_append_singleton _ h.heap)

/-- What `extractMin` leaves, with the first entry, is what there was. -/
theorem extractMin_spec (h : MinHeapObject T) :
    h.heap = [] ∧ h.extractMin = (none, h) ∨
      ∃ first, h.heap[0]? = some first ∧ h.extractMin.1 = some first.item ∧ h.heap.Perm (first :: h.extractMin.2.heap) := by
  obtain ⟨heap, tieBreaker⟩ := h
  match heap with
  | [] => exact Or.inl ⟨rfl, rfl⟩
  | [only] => exact Or.inr ⟨only, rfl, rfl, List.Perm.refl _⟩
  | first :: second :: rest =>
      refine Or.inr ⟨first, rfl, rfl, List.Perm.cons _ ?_⟩
      refine List.Perm.trans ?_ (Heaps.Comparison.bubbleDown_perm (by simp)).symm
      rw [List.dropLast_cons_of_ne_nil (List.cons_ne_nil _ _), List.set_cons_zero]
      have hsplit := List.dropLast_append_getLast (List.cons_ne_nil second rest)
      calc
        (second :: rest).Perm ((second :: rest).dropLast ++ [(second :: rest).getLast _]) := by rw [hsplit]
        List.Perm _ ((second :: rest).getLast _ :: (second :: rest).dropLast) := List.perm_append_singleton _ _

@[simp] theorem extractMin_tieBreaker (h : MinHeapObject T) : h.extractMin.2.tieBreaker = h.tieBreaker := by
  unfold extractMin
  split
  · rfl
  · rfl
  · rfl

/-- The heap has entries of a kind, and none of them comes before the one above it. -/
structure Ordered (kind : HeapEntry T → Prop) (h : MinHeapObject T) : Prop where
  ofKind : ∀ entry ∈ h.heap, kind entry
  isHeap : Heaps.IsHeap (Orders.InOrder h.tieBreaker kind) h.heap

section Kept

variable {kind : HeapEntry T → Prop} {h : MinHeapObject T} (horders : Orders h.tieBreaker kind)
include horders

theorem Ordered.insert (hordered : Ordered kind h) {item : T} {priority : JsNumber} (hnew : kind ⟨item, priority⟩) :
    Ordered kind (h.insert item priority) := by
  have hkind : ∀ entry ∈ h.heap ++ [⟨item, priority⟩], kind entry := by
    intro entry hentry
    rcases List.mem_append.mp hentry with hold | hlast
    · exact hordered.ofKind entry hold
    · exact List.mem_singleton.mp hlast ▸ hnew
  constructor
  · intro entry hentry
    exact hkind entry ((List.perm_append_singleton _ h.heap).mem_iff.mpr ((h.insert_perm item priority).mem_iff.mp hentry))
  · exact horders.follows.bubbleUp_isHeap hkind (Heaps.Comparison.upOrder_append hordered.isHeap _) (by simp)

theorem Ordered.extractMin (hordered : Ordered kind h) : Ordered kind h.extractMin.2 := by
  have hkept : ∀ entry ∈ h.extractMin.2.heap, kind entry := by
    intro entry hentry
    rcases h.extractMin_spec with ⟨-, heq⟩ | ⟨first, -, -, hperm⟩
    · rw [heq] at hentry
      exact hordered.ofKind entry hentry
    · exact hordered.ofKind entry (hperm.mem_iff.mpr (List.mem_cons_of_mem _ hentry))
  refine ⟨hkept, ?_⟩
  obtain ⟨heap, tieBreaker⟩ := h
  match heap with
  | [] => exact hordered.isHeap
  | [only] =>
      intro i _ a ha
      simp only [MinHeapObject.extractMin, List.getElem?_nil] at ha
      cases ha
  | first :: second :: rest =>
      have hlt : 0 < ((first :: second :: rest).dropLast.set 0
          ((second :: rest).getLast (List.cons_ne_nil _ _))).length := by simp
      refine horders.follows.bubbleDown_isHeap ?_ (Heaps.Comparison.downOrder_withLast hordered.isHeap _) hlt
      intro entry hentry
      exact hkept entry ((Heaps.Comparison.bubbleDown_perm hlt).mem_iff.mpr hentry)

/-- The first entry has no other one before it. -/
theorem Ordered.first_minimal (hordered : Ordered kind h) {first : HeapEntry T} (hfirst : h.heap[0]? = some first) :
    ∀ other ∈ h.heap, ¬ comesBefore h.tieBreaker other first := by
  intro other hother
  exact (horders.follows.first_le hordered.ofKind hordered.isHeap hfirst other hother).2.2

end Kept

/-! ### Any calls -/

/-- Where the first entry is always minimal, a heap serves as a queue. -/
theorem serves_of_step (before : HeapEntry T → HeapEntry T → Prop) (Inv : MinHeapObject T → Prop)
    (admits : HeapEntry T → Prop)
    (hinsert : ∀ h item priority, Inv h → admits ⟨item, priority⟩ → Inv (h.insert item priority))
    (hextract : ∀ h, Inv h → Inv h.extractMin.2)
    (hfirst : ∀ h first, Inv h → h.heap[0]? = some first → ∀ other ∈ h.heap, ¬ before other first)
    (calls : List (HeapCall T)) (hcalls : ∀ entry ∈ insertedEntries calls, admits entry) {h : MinHeapObject T} (hinv : Inv h) :
    Serves before h.heap calls (h.run calls).1 (h.run calls).2.heap := by
  induction calls generalizing h with
  | nil => exact Serves.done _
  | cons call calls ih =>
      cases call with
      | insert item priority =>
          rw [insertedEntries_insert, List.forall_mem_cons] at hcalls
          have hrest := ih hcalls.2 (hinsert h item priority hinv hcalls.1)
          rw [Multiset.coe_eq_coe.mpr (h.insert_perm item priority), ← Multiset.cons_coe] at hrest
          exact Serves.insert item priority hrest
      | extractMin =>
          rw [insertedEntries_extractMin] at hcalls
          have hrest := ih hcalls (hextract h hinv)
          rw [run]
          dsimp only
          rcases h.extractMin_spec with ⟨hnil, heq⟩ | ⟨first, hhead, hanswer, hperm⟩
          · rw [heq, hnil] at hrest ⊢
            exact Serves.empty hrest
          · rw [hanswer, Multiset.coe_eq_coe.mpr hperm, ← Multiset.cons_coe]
            refine Serves.extract first ?_ hrest
            intro other hother
            rw [Multiset.cons_coe, Multiset.mem_coe] at hother
            exact hfirst h first hinv hhead other (hperm.mem_iff.mpr hother)

end MinHeapObject

/-- Whatever the priorities and the tie-breaker, the calls give back what they inserted, every entry once; and where
the inserted entries are in an order, every call of `extractMin` returns a minimal one of those that are pending. -/
theorem minHeap_serves (tieBreaker : Option (T → T → JsNumber)) (calls : List (HeapCall T)) :
    (∃ extracted : List (HeapEntry T),
      ((MinHeapObject.new tieBreaker).run calls).1.filterMap id = extracted.map HeapEntry.item ∧
        (insertedEntries calls).Perm (extracted ++ ((MinHeapObject.new tieBreaker).run calls).2.heap)) ∧
      (Orders tieBreaker (· ∈ insertedEntries calls) →
        Serves (comesBefore tieBreaker) 0 calls ((MinHeapObject.new tieBreaker).run calls).1
          ((MinHeapObject.new tieBreaker).run calls).2.heap) := by
  constructor
  · have hbag := MinHeapObject.serves_of_step (fun _ _ => False) (fun _ => True)
      (fun _ => True) (fun _ _ _ _ _ => trivial) (fun _ _ => trivial) (fun _ _ _ _ _ _ => not_false) calls
      (fun _ _ => trivial) (h := MinHeapObject.new tieBreaker) trivial
    obtain ⟨extracted, hitems, heq⟩ := hbag.exists_extracted
    rw [Multiset.coe_add, Multiset.coe_add, Multiset.coe_eq_coe] at heq
    exact ⟨extracted, hitems, heq⟩
  · intro horders
    have hempty : (MinHeapObject.new tieBreaker).Ordered (· ∈ insertedEntries calls) := by
      refine ⟨fun entry hentry => absurd hentry List.not_mem_nil, fun i _ a ha => ?_⟩
      rw [MinHeapObject.new, List.getElem?_nil] at ha
      cases ha
    exact MinHeapObject.serves_of_step (comesBefore tieBreaker)
      (fun h => h.tieBreaker = tieBreaker ∧ h.Ordered (· ∈ insertedEntries calls)) (· ∈ insertedEntries calls)
      (fun h item priority hinv hnew => ⟨hinv.1, hinv.2.insert (hinv.1.symm ▸ horders) hnew⟩)
      (fun h hinv => ⟨h.extractMin_tieBreaker.trans hinv.1, hinv.2.extractMin (hinv.1.symm ▸ horders)⟩)
      (fun h first hinv hfirst => hinv.1 ▸ hinv.2.first_minimal (hinv.1.symm ▸ horders) hfirst)
      calls (fun _ hentry => hentry) (h := MinHeapObject.new tieBreaker) ⟨rfl, hempty⟩

end

/-- Items of equal priority in the order of the tie-breaker of the traversals. -/
def tiedCalls : List (HeapCall Nat) := [.insert 2 (.finite 0), .insert 1 (.finite 0), .extractMin]

theorem minHeap_serves_tied :
    Serves (comesBefore (some lexTieBreaker)) 0 tiedCalls ((MinHeapObject.new (some lexTieBreaker)).run tiedCalls).1
      ((MinHeapObject.new (some lexTieBreaker)).run tiedCalls).2.heap :=
  (minHeap_serves (some lexTieBreaker) tiedCalls).2 (orders_lexTieBreaker (by simp [tiedCalls]))

/-- NaN rises over 0, and 1 rises over NaN: 1 comes out while 0 is pending. -/
def nanCalls : List (HeapCall Nat) :=
  [.insert 0 (.finite 0), .insert 9 .nan, .insert 1 (.finite 1), .extractMin]

/-- Each of three items comes before another one, in a round. -/
def roundTieBreaker (a b : Nat) : JsNumber := if (a + 1) % 3 = b % 3 then .finite (-1) else .finite 1

def roundCalls : List (HeapCall Nat) :=
  [.insert 0 (.finite 0), .insert 1 (.finite 0), .insert 2 (.finite 0), .extractMin]

theorem not_serves_nan_nor_round :
    ¬ Serves (comesBefore none) 0 nanCalls ((MinHeapObject.new none).run nanCalls).1
        ((MinHeapObject.new none).run nanCalls).2.heap ∧
      ¬ Serves (comesBefore (some roundTieBreaker)) 0 roundCalls ((MinHeapObject.new (some roundTieBreaker)).run roundCalls).1
        ((MinHeapObject.new (some roundTieBreaker)).run roundCalls).2.heap := by
  constructor
  · have hanswers : ((MinHeapObject.new none).run nanCalls).1 = [some 1] := by decide +kernel
    rw [hanswers]
    intro h
    obtain ⟨entry, hentry, hitem, hminimal⟩ := h.of_insert.of_insert.of_insert.exists_minimal
    have hzero := hminimal ⟨0, .finite 0⟩ (by simp)
    simp only [Multiset.mem_cons, Multiset.notMem_zero, or_false] at hentry
    rcases hentry with rfl | rfl | rfl
    · exact hzero (by decide +kernel)
    · cases hitem
    · cases hitem
  · have hanswers : ((MinHeapObject.new (some roundTieBreaker)).run roundCalls).1 = [some 2] := by decide +kernel
    rw [hanswers]
    intro h
    obtain ⟨entry, hentry, hitem, hminimal⟩ := h.of_insert.of_insert.of_insert.exists_minimal
    have hone := hminimal ⟨1, .finite 0⟩ (by simp)
    simp only [Multiset.mem_cons, Multiset.notMem_zero, or_false] at hentry
    rcases hentry with rfl | rfl | rfl
    · exact hone (by decide +kernel)
    · cases hitem
    · cases hitem

end GitWarp
