import GitWarp.LibraryJsonParse
import Mathlib.Data.Finset.Insert
import Mathlib.Data.Fintype.EquivFin
import Mathlib.Data.List.ReduceOption
import Mathlib.Logic.Relation
import Mathlib.Order.WellFounded

/-! Values of JavaScript with references to arrays and plain objects, which may be shared or lie in a cycle. The
references are those of one heap, which are finitely many. -/

namespace GitWarp
open Js Relation

inductive HeapValue (N Ref : Type) where
  | undefined
  | null
  | bool (b : Bool)
  | number (n : N)
  /-- `NaN` or an infinity. -/
  | notFinite
  | string (s : JsString)
  | symbol
  | function (name : Nat)
  | ref (r : Ref)

inductive HeapObject (N Ref : Type) where
  /-- A hole is an index without an element. -/
  | array (elements : List (Option (HeapValue N Ref)))
  | object (fields : JsMap JsString (HeapValue N Ref))

abbrev JsHeap (N Ref : Type) := Ref → HeapObject N Ref

variable {N Ref : Type}

namespace HeapValue

/-- A value that JSON has. -/
def isJson : HeapValue N Ref → Bool
  | .undefined | .notFinite | .symbol | .function _ => false
  | _ => true

/-- A value that JSON leaves out of an object. -/
def isLeftOut : HeapValue N Ref → Bool
  | .undefined | .symbol | .function _ => true
  | _ => false

end HeapValue

namespace HeapObject

def members : HeapObject N Ref → List (HeapValue N Ref)
  | .array elements => elements.reduceOption
  | .object fields => fields.values

/-- Whether every index of an array has an element. -/
def isDense : HeapObject N Ref → Bool
  | .array elements => elements.all Option.isSome
  | .object _ => true

theorem exists_values_of_isDense {elements : List (Option (HeapValue N Ref))} (h : (array elements).isDense = true) :
    ∃ values : List (HeapValue N Ref), elements = values.map some := by
  have hsome : ∀ element ∈ elements, element.isSome = true := List.all_eq_true.mp h
  refine ⟨elements.reduceOption, ?_⟩
  clear h
  induction elements with
  | nil => rfl
  | cons element rest ih =>
      obtain ⟨value, rfl⟩ := Option.isSome_iff_exists.mp (hsome element List.mem_cons_self)
      rw [List.reduceOption_cons_of_some, List.map_cons, ← ih fun other hother => hsome other (List.mem_cons_of_mem _ hother)]

/-- The function that `JSON.stringify` asks for what to print. -/
def toJSON : HeapObject N Ref → Option Nat
  | .array _ => none
  | .object fields =>
      match fields.get (js "toJSON") with
      | some (.function name) => some name
      | _ => none

end HeapObject

namespace JsHeap

variable (heap : JsHeap N Ref)

inductive Member : HeapValue N Ref → HeapValue N Ref → Prop where
  | intro {r : Ref} {inner : HeapValue N Ref} : inner ∈ (heap r).members → Member (.ref r) inner

def Reaches : HeapValue N Ref → HeapValue N Ref → Prop := ReflTransGen (Member heap)

def HasCycle (value : HeapValue N Ref) : Prop := ∃ inner, Reaches heap value inner ∧ TransGen (Member heap) inner inner

/-- A value of `null`, booleans, finite numbers, strings, arrays and plain objects. -/
structure BuiltOfJson (value : HeapValue N Ref) : Prop where
  values : ∀ inner, Reaches heap value inner → inner.isJson = true
  dense : ∀ r, Reaches heap value (.ref r) → (heap r).isDense = true

/-- The data of a value. -/
inductive Represents : HeapValue N Ref → JsonData N → Prop where
  | null : Represents .null .null
  | bool (b : Bool) : Represents (.bool b) (.bool b)
  | number (n : N) : Represents (.number n) (.number n)
  | string (s : JsString) : Represents (.string s) (.string s)
  | array {r : Ref} {values : List (HeapValue N Ref)} {items : List (JsonData N)} : heap r = .array (values.map some) →
      values.length = items.length →
      (∀ i (h : i < values.length) (h' : i < items.length), Represents values[i] items[i]) →
      Represents (.ref r) (.array items)
  | object {r : Ref} {fields : JsMap JsString (HeapValue N Ref)} {data : JsString → Option (JsonData N)} :
      heap r = .object fields → (∀ key, (data key).isSome = (fields.get key).isSome) →
      (∀ key value item, fields.get key = some value → data key = some item → Represents value item) →
      Represents (.ref r) (.object data)

variable {heap} {value inner : HeapValue N Ref}

theorem member_of_element {r : Ref} {elements : List (Option (HeapValue N Ref))} (hheap : heap r = .array elements)
    {value : HeapValue N Ref} (hmem : some value ∈ elements) : Member heap (.ref r) value := by
  refine .intro ?_
  rw [hheap]
  exact List.reduceOption_mem_iff.mpr hmem

theorem member_of_field {r : Ref} {fields : JsMap JsString (HeapValue N Ref)} (hheap : heap r = .object fields)
    {key : JsString} {value : HeapValue N Ref} (hfield : fields.get key = some value) : Member heap (.ref r) value := by
  refine .intro ?_
  rw [hheap]
  exact (JsMap.mem_values_iff fields value).mpr ⟨key, hfield⟩

theorem exists_field_of_member {r : Ref} {fields : JsMap JsString (HeapValue N Ref)} (hheap : heap r = .object fields)
    (hmember : Member heap (.ref r) inner) : ∃ key, fields.get key = some inner := by
  cases hmember with
  | intro hinner =>
      rw [hheap] at hinner
      exact (JsMap.mem_values_iff fields inner).mp hinner

theorem BuiltOfJson.of_member (h : BuiltOfJson heap value) (hmember : Member heap value inner) : BuiltOfJson heap inner :=
  ⟨fun last hreach => h.values last (hreach.head hmember), fun r hreach => h.dense r (hreach.head hmember)⟩

theorem BuiltOfJson.isLeftOut (h : BuiltOfJson heap value) : value.isLeftOut = false := by
  have hjson := h.values value .refl
  cases value with
  | undefined | symbol | function => cases hjson
  | _ => rfl

theorem Represents.isLeftOut {value : HeapValue N Ref} {data : JsonData N} (h : Represents heap value data) :
    value.isLeftOut = false := by
  cases h <;> rfl

theorem HasCycle.of_member (hmember : Member heap value inner) (hcycle : HasCycle heap inner) : HasCycle heap value := by
  obtain ⟨at', hreach, hloop⟩ := hcycle
  exact ⟨at', hreach.head hmember, hloop⟩

theorem not_hasCycle_of_member (hacyclic : ¬ HasCycle heap value) (hmember : Member heap value inner) :
    ¬ HasCycle heap inner :=
  fun hcycle => hacyclic (hcycle.of_member hmember)

/-- What a member reaches does not hold it. -/
theorem not_reaches_of_member (hacyclic : ¬ HasCycle heap value) (hmember : Member heap value inner) :
    ¬ Reaches heap inner value :=
  fun hreach => hacyclic ⟨value, ReflTransGen.refl, TransGen.head' hmember hreach⟩

theorem wellFounded_of_acyclic [Finite Ref] : WellFounded fun r s : Ref =>
    ¬ HasCycle heap (.ref s) ∧ TransGen (Member heap) (.ref s) (.ref r) := by
  have : Std.Irrefl fun r s : Ref => ¬ HasCycle heap (.ref s) ∧ TransGen (Member heap) (.ref s) (.ref r) :=
    ⟨fun r h => h.1 ⟨.ref r, ReflTransGen.refl, h.2⟩⟩
  have : IsTrans Ref fun r s : Ref => ¬ HasCycle heap (.ref s) ∧ TransGen (Member heap) (.ref s) (.ref r) :=
    ⟨fun _ _ _ h h' => ⟨h'.1, h'.2.trans h.2⟩⟩
  exact Finite.wellFounded_of_trans_of_irrefl _

/-- What holds of a value when it holds of its members holds of every acyclic value. -/
theorem acyclic_induction [Finite Ref] {P : HeapValue N Ref → Prop}
    (hstep : ∀ value, ¬ HasCycle heap value → (∀ inner, Member heap value inner → P inner) → P value)
    (hacyclic : ¬ HasCycle heap value) : P value := by
  have hrefs : ∀ r, ¬ HasCycle heap (.ref r) → P (.ref r) := by
    intro r
    induction r using (@wellFounded_of_acyclic N Ref heap _).induction with
    | _ r ih =>
        intro hr
        refine hstep _ hr fun inner hmember => ?_
        have hinner := not_hasCycle_of_member hr hmember
        cases inner with
        | ref s => exact ih s ⟨hr, .single hmember⟩ hinner
        | _ =>
            refine hstep _ hinner fun _ hnone => ?_
            cases hnone
  cases value with
  | ref r => exact hrefs r hacyclic
  | _ =>
      refine hstep _ hacyclic fun _ hnone => ?_
      cases hnone

/-- A value holds none of the objects that it is in. -/
def FreeOf (heap : JsHeap N Ref) (seen : Finset Ref) (value : HeapValue N Ref) : Prop :=
  ∀ r ∈ seen, ¬ Reaches heap value (.ref r)

theorem freeOf_empty : FreeOf heap ∅ value := fun r hr => absurd hr (Finset.notMem_empty r)

theorem FreeOf.not_mem {seen : Finset Ref} {r : Ref} (h : FreeOf heap seen (.ref r)) : r ∉ seen :=
  fun hmem => h r hmem .refl

theorem FreeOf.of_member [DecidableEq Ref] {seen : Finset Ref} {r : Ref} (h : FreeOf heap seen (.ref r))
    (hacyclic : ¬ HasCycle heap (.ref r)) (hmember : Member heap (.ref r) inner) : FreeOf heap (insert r seen) inner := by
  intro s hs hreach
  rcases Finset.mem_insert.mp hs with rfl | hs
  · exact not_reaches_of_member hacyclic hmember hreach
  · exact h s hs (hreach.head hmember)

end JsHeap

end GitWarp
