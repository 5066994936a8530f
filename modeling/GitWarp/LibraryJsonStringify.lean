import GitWarp.LibraryExceptLoops
import GitWarp.LibraryJsHeap
import Mathlib.Data.Finset.BooleanAlgebra

/-! `JSON.stringify` on values with references. An object whose `toJSON` is a function is printed as what this
function returns; the functions are a parameter, and are called without effect on the heap. -/

namespace GitWarp.JsonStringify
open Js JsHeap JsonReader ExceptLoops Relation

variable {N Ref : Type} (numbers : NumberText N)

/-- `JSON.stringify` of a value that is no object; `none` is `undefined`. -/
def primitiveText : HeapValue N Ref → Option JsString
  | .undefined | .symbol | .function _ | .ref _ => none
  | .null | .notFinite => some (js "null")
  | .bool b => some (if b then js "true" else js "false")
  | .number n => some (numbers.print n)
  | .string s => some (Json.quote s)

/-- What the functions of a heap return: called on an object, with the key that it is at. -/
abbrev Functions (N Ref : Type) := Nat → Ref → JsString → Except JsError (HeapValue N Ref)

theorem card_compl_insert_lt [DecidableEq Ref] [Fintype Ref] {seen : Finset Ref} {r : Ref} (h : r ∉ seen) :
    (insert r seen)ᶜ.card < seenᶜ.card := by
  refine Finset.card_lt_card (Finset.compl_ssubset_compl.mpr (Finset.ssubset_insert h))

/-- The value that is printed for a property's value. -/
def throughToJSON (heap : JsHeap N Ref) (call : Functions N Ref) (key : JsString) :
    HeapValue N Ref → Except JsError (HeapValue N Ref)
  | .ref r =>
      match (heap r).toJSON with
      | some name => call name r key
      | none => return .ref r
  | value => return value

def circularStructure : JsError := ⟨"TypeError", "Converting circular structure to JSON"⟩

/-- The text of a property's value, where `stack` are the objects that it is in. -/
def stringifyProperty [DecidableEq Ref] [Fintype Ref] (heap : JsHeap N Ref) (call : Functions N Ref) (stack : Finset Ref)
    (key : JsString) (value : HeapValue N Ref) : Except JsError (Option JsString) := do
  match ← throughToJSON heap call key value with
  | .ref r =>
      if _hnew : r ∈ stack then .error circularStructure
      else match heap r with
        | .array elements => do
            let texts ← elements.zipIdx.mapM fun element =>
              stringifyProperty heap call (insert r stack) (decimal element.2) (element.1.getD .undefined)
            return some (arrayText (texts.map fun text => text.getD (js "null")))
        | .object fields => do
            let texts ← fields.entries.mapM fun field => do
              return (← stringifyProperty heap call (insert r stack) field.1 field.2).map fun text => (field.1, text)
            return some (objectText texts.reduceOption)
  | value => return primitiveText numbers value
termination_by stackᶜ.card
decreasing_by
  · exact card_compl_insert_lt _hnew
  · exact card_compl_insert_lt _hnew

/-- `JSON.stringify(value)`, where `call` is what the functions of the heap return. -/
def jsonStringify [DecidableEq Ref] [Fintype Ref] (heap : JsHeap N Ref) (call : Functions N Ref) (value : HeapValue N Ref) :
    Except JsError (Option JsString) :=
  stringifyProperty numbers heap call ∅ [] value

section Answered

variable [DecidableEq Ref] [Fintype Ref] (heap : JsHeap N Ref) (s : JsString)

/-- Every function returns the string `s`. -/
def answer : Functions N Ref := fun _ _ _ => return .string s

/-- The text of an acyclic value whose functions return `s`. -/
def answeredText (value : HeapValue N Ref) : Option JsString := (jsonStringify numbers heap (answer s) value).toOption.join

def answeredElement (element : Option (HeapValue N Ref)) : JsString :=
  (answeredText numbers heap s (element.getD .undefined)).getD (js "null")

def answeredMember (field : JsString × HeapValue N Ref) : Option (JsString × JsString) :=
  (answeredText numbers heap s field.2).map fun text => (field.1, text)

def answeredRefText (r : Ref) : JsString :=
  if (heap r).toJSON.isSome then Json.quote s
  else match heap r with
    | .array elements => arrayText (elements.map (answeredElement numbers heap s))
    | .object fields => objectText (fields.entries.filterMap (answeredMember numbers heap s))

/-- The functions return `s` wherever `JSON.stringify` comes to one. -/
def Answers (call : Functions N Ref) (value : HeapValue N Ref) : Prop := ∀ r key, Reaches heap value (.ref r) →
  throughToJSON heap call key (.ref r) = throughToJSON heap (answer s) key (.ref r)

variable {numbers heap s} {call : Functions N Ref} {value : HeapValue N Ref}

theorem answeredRefText_toJSON {r : Ref} {name : Nat} (hjson : (heap r).toJSON = some name) :
    answeredRefText numbers heap s r = Json.quote s := by
  rw [answeredRefText, hjson]
  rfl

theorem answeredRefText_array {r : Ref} {elements : List (Option (HeapValue N Ref))} (hheap : heap r = .array elements) :
    answeredRefText numbers heap s r = arrayText (elements.map (answeredElement numbers heap s)) := by
  rw [answeredRefText, hheap]
  rfl

theorem answeredRefText_object {r : Ref} {fields : JsMap JsString (HeapValue N Ref)} (hheap : heap r = .object fields)
    (hjson : (heap r).toJSON = none) :
    answeredRefText numbers heap s r = objectText (fields.entries.filterMap (answeredMember numbers heap s)) := by
  rw [answeredRefText, hjson, hheap]
  rfl

theorem stringifyProperty_primitive (href : ∀ r, value ≠ .ref r) (call : Functions N Ref) (stack : Finset Ref)
    (key : JsString) : stringifyProperty numbers heap call stack key value = .ok (primitiveText numbers value) := by
  rw [stringifyProperty.eq_def]
  cases value with
  | ref r => exact absurd rfl (href r)
  | _ => rfl

/-- The text of an object whose members have texts. -/
theorem stringifyProperty_ref {r : Ref} {stack : Finset Ref} (hanswer : Answers heap s call (.ref r)) (hnew : r ∉ stack)
    (hmembers : ∀ inner key, Member heap (.ref r) inner →
      stringifyProperty numbers heap call (insert r stack) key inner = .ok (answeredText numbers heap s inner))
    (key : JsString) :
    stringifyProperty numbers heap call stack key (.ref r) = .ok (some (answeredRefText numbers heap s r)) := by
  have hundefined : ∀ key, stringifyProperty numbers heap call (insert r stack) key .undefined =
      .ok (answeredText numbers heap s .undefined) := by
    intro key
    rw [answeredText, jsonStringify, stringifyProperty_primitive (by simp), stringifyProperty_primitive (by simp)]
    rfl
  rw [stringifyProperty, hanswer r key .refl, answeredRefText, throughToJSON]
  cases hjson : (heap r).toJSON with
  | some name => rfl
  | none =>
      show (if _ : r ∈ stack then _ else _) = _
      rw [dif_neg hnew, Option.isSome_none, if_neg Bool.false_ne_true]
      cases hheap : heap r with
      | array elements =>
          have htexts : elements.zipIdx.mapM (fun element =>
              stringifyProperty numbers heap call (insert r stack) (decimal element.2) (element.1.getD .undefined)) =
              .ok (elements.zipIdx.map fun element => answeredText numbers heap s (element.1.getD .undefined)) := by
            refine mapM_of_ok fun element hmem => ?_
            have hmem' : element.1 ∈ elements := by
              rw [← List.zipIdx_map_fst 0 elements]
              exact List.mem_map_of_mem hmem
            cases helement : element.1 with
            | none => exact hundefined _
            | some value => exact hmembers value _ (member_of_element hheap (helement ▸ hmem'))
          show (elements.zipIdx.mapM _ >>= _) = _
          rw [htexts]
          show Except.ok (some (arrayText ((elements.zipIdx.map _).map _))) = _
          have helements : elements.zipIdx.map (answeredElement numbers heap s ∘ Prod.fst) =
              elements.map (answeredElement numbers heap s) := by
            rw [← List.map_map, List.zipIdx_map_fst]
          rw [List.map_map]
          exact congrArg (fun texts => Except.ok (some (arrayText texts))) helements
      | object fields =>
          have htexts : fields.entries.mapM (fun field => do
              return (← stringifyProperty numbers heap call (insert r stack) field.1 field.2).map fun text => (field.1, text)) =
              .ok (fields.entries.map (answeredMember numbers heap s)) := by
            refine mapM_of_ok fun field hmem => ?_
            have hfield := (fields.get_eq_some_iff field.1 field.2).mpr hmem
            rw [hmembers field.2 field.1 (member_of_field hheap hfield)]
            rfl
          show (fields.entries.mapM _ >>= _) = _
          rw [htexts]
          show Except.ok (some (objectText (fields.entries.map _).reduceOption)) = _
          rw [List.reduceOption, List.filterMap_map]
          rfl

omit [DecidableEq Ref] [Fintype Ref] in
theorem Answers.of_member (h : Answers heap s call value) {inner : HeapValue N Ref} (hmember : Member heap value inner) :
    Answers heap s call inner :=
  fun r key hreach => h r key (hreach.head hmember)

/-- The objects that a value is in, and the key that it is under, do not change its text. -/
theorem stringifyProperty_eq (hacyclic : ¬ HasCycle heap value) (hanswer : Answers heap s call value) {stack : Finset Ref}
    (hfree : FreeOf heap stack value) (key : JsString) :
    stringifyProperty numbers heap call stack key value = .ok (answeredText numbers heap s value) := by
  revert call stack key
  refine acyclic_induction (P := fun value => ∀ {call : Functions N Ref}, Answers heap s call value →
    ∀ {stack : Finset Ref}, FreeOf heap stack value → ∀ key,
      stringifyProperty numbers heap call stack key value = .ok (answeredText numbers heap s value)) ?_ hacyclic
  intro value hacyclic ih call hanswer stack hfree key
  have hsame : ∀ text, jsonStringify numbers heap (answer s) value = .ok text →
      stringifyProperty numbers heap call stack key value = .ok text →
      stringifyProperty numbers heap call stack key value = .ok (answeredText numbers heap s value) := by
    intro text h h'
    rw [h', answeredText, h]
    rfl
  cases value with
  | ref r =>
      have hrun : ∀ {call : Functions N Ref}, Answers heap s call (.ref r) → ∀ {stack : Finset Ref},
          FreeOf heap stack (.ref r) → ∀ key,
            stringifyProperty numbers heap call stack key (.ref r) = .ok (some (answeredRefText numbers heap s r)) := by
        intro call hanswer stack hfree key
        refine stringifyProperty_ref hanswer hfree.not_mem (fun inner key hmember => ?_) key
        exact ih inner hmember (hanswer.of_member hmember) (hfree.of_member hacyclic hmember) key
      exact hsame _ (hrun (fun _ _ _ => rfl) freeOf_empty []) (hrun hanswer hfree key)
  | _ => exact hsame _ (stringifyProperty_primitive (by simp) _ ∅ []) (stringifyProperty_primitive (by simp) call stack key)

theorem jsonStringify_of_acyclic (hacyclic : ¬ HasCycle heap value) (hanswer : Answers heap s call value) :
    jsonStringify numbers heap call value = .ok (answeredText numbers heap s value) :=
  stringifyProperty_eq hacyclic hanswer freeOf_empty []

theorem answeredText_ref {r : Ref} (hacyclic : ¬ HasCycle heap (.ref r)) :
    answeredText numbers heap s (.ref r) = some (answeredRefText numbers heap s r) := by
  have hanswer : Answers heap s (answer s) (.ref r) := fun _ _ _ => rfl
  have htext := @jsonStringify_of_acyclic N Ref numbers _ _ heap s _ _ hacyclic hanswer
  rw [jsonStringify, stringifyProperty_ref hanswer (Finset.notMem_empty r) fun inner key hmember => ?_] at htext
  · exact (Except.ok.inj htext).symm
  · exact stringifyProperty_eq (not_hasCycle_of_member hacyclic hmember) (hanswer.of_member hmember)
      (freeOf_empty.of_member hacyclic hmember) key

theorem answeredText_primitive (href : ∀ r, value ≠ .ref r) :
    answeredText numbers heap s value = primitiveText numbers value := by
  rw [answeredText, jsonStringify, stringifyProperty_primitive href]
  rfl

end Answered

end GitWarp.JsonStringify
