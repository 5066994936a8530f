import GitWarp.LibraryJsonStringify
import Mathlib.Data.List.Sort

/-! The canonical text of a value of the heap, and what `JSON.stringify` makes of the same value. The text says the
data of a JSON value, and tells two of them apart. Where the other values are left out, or stand for `null`, it follows
`JSON.stringify` on a value without holes and `toJSON` functions only. -/

namespace GitWarp.CanonicalText
open Js JsHeap JsonReader JsonStringify ExceptLoops Relation

variable {N Ref : Type} (numbers : NumberText N)

def circularReference : JsError := ⟨"TypeError", "Circular reference detected in canonicalStringify"⟩

/-- `obj[key]` -/
def valueAt (fields : JsMap JsString (HeapValue N Ref)) (key : JsString) : HeapValue N Ref :=
  (fields.get key).getD .undefined

/-- The keys that are not filtered out. -/
def definedKeys (fields : JsMap JsString (HeapValue N Ref)) : List JsString :=
  fields.keys.filter fun key => !(valueAt fields key).isLeftOut

def keptKeys (fields : JsMap JsString (HeapValue N Ref)) : List JsString := (definedKeys fields).insertionSort (· ≤ ·)

/-- The text of an array's element. `map` passes over a hole. -/
def elementTextBy (stringify : HeapValue N Ref → Except JsError (Option JsString)) :
    Option (HeapValue N Ref) → Except JsError (Option JsString)
  | none => return none
  | some value => if value.isLeftOut then return some (js "null") else stringify value

/-- `_canonicalStringify(value, seen)` -/
def canonicalStringifySeen [DecidableEq Ref] [Fintype Ref] (heap : JsHeap N Ref) (seen : Finset Ref) :
    HeapValue N Ref → Except JsError (Option JsString)
  | .undefined => return some (js "null")
  | .null => return some (js "null")
  | .ref r =>
      if _hnew : r ∈ seen then .error circularReference
      else match heap r with
        | .array elements => do
            let texts ← elements.mapM (elementTextBy fun value => canonicalStringifySeen heap (insert r seen) value)
            -- `join` puts nothing in the place of a hole
            return some (arrayText (texts.map fun text => text.getD []))
        | .object fields => do
            let pairs ← (keptKeys fields).mapM fun key => do
              let text ← canonicalStringifySeen heap (insert r seen) (valueAt fields key)
              return (key, text.getD (js "undefined"))
            return some (objectText pairs)
  | value => return primitiveText numbers value
termination_by seenᶜ.card
decreasing_by
  · exact card_compl_insert_lt _hnew
  · exact card_compl_insert_lt _hnew

def canonicalStringify [DecidableEq Ref] [Fintype Ref] (heap : JsHeap N Ref) (value : HeapValue N Ref) :
    Except JsError (Option JsString) :=
  canonicalStringifySeen numbers heap ∅ value

section Canonical

variable [DecidableEq Ref] [Fintype Ref] (heap : JsHeap N Ref)

/-- The text of an acyclic value. -/
def canonicalText (value : HeapValue N Ref) : Option JsString := (canonicalStringify numbers heap value).toOption.join

def elementText : Option (HeapValue N Ref) → JsString
  | none => []
  | some value => if value.isLeftOut then js "null" else (canonicalText numbers heap value).getD []

def keyText (fields : JsMap JsString (HeapValue N Ref)) (key : JsString) : JsString :=
  (canonicalText numbers heap (valueAt fields key)).getD (js "undefined")

def refText (r : Ref) : JsString :=
  match heap r with
  | .array elements => arrayText (elements.map (elementText numbers heap))
  | .object fields => objectText ((keptKeys fields).map fun key => (key, keyText numbers heap fields key))

end Canonical

theorem valueAt_of_get {fields : JsMap JsString (HeapValue N Ref)} {key : JsString} {value : HeapValue N Ref}
    (h : fields.get key = some value) : valueAt fields key = value := by
  rw [valueAt, h, Option.getD_some]

theorem mem_definedKeys {fields : JsMap JsString (HeapValue N Ref)} {key : JsString} :
    key ∈ definedKeys fields ↔ ∃ value, fields.get key = some value ∧ value.isLeftOut = false := by
  rw [definedKeys, List.mem_filter, JsMap.mem_keys_iff, valueAt]
  cases fields.get key with
  | none => simp
  | some value => simp

theorem nodup_definedKeys (fields : JsMap JsString (HeapValue N Ref)) : (definedKeys fields).Nodup := fields.nodup.filter _

theorem mem_keptKeys {fields : JsMap JsString (HeapValue N Ref)} {key : JsString} :
    key ∈ keptKeys fields ↔ ∃ value, fields.get key = some value ∧ value.isLeftOut = false := by
  rw [keptKeys, (List.perm_insertionSort _ _).mem_iff, mem_definedKeys]

theorem nodup_keptKeys (fields : JsMap JsString (HeapValue N Ref)) : (keptKeys fields).Nodup := by
  rw [keptKeys, (List.perm_insertionSort _ _).nodup_iff]
  exact nodup_definedKeys fields

section Runs

variable [DecidableEq Ref] [Fintype Ref] {numbers} {heap : JsHeap N Ref}

theorem canonicalStringifySeen_undefined (seen : Finset Ref) :
    canonicalStringifySeen numbers heap seen .undefined = .ok (some (js "null")) := by
  rw [canonicalStringifySeen]
  rfl

theorem canonicalStringifySeen_primitive {value : HeapValue N Ref} (hdefined : value ≠ .undefined)
    (href : ∀ r, value ≠ .ref r) (seen : Finset Ref) :
    canonicalStringifySeen numbers heap seen value = .ok (primitiveText numbers value) := by
  rw [canonicalStringifySeen.eq_def]
  cases value with
  | undefined => exact absurd rfl hdefined
  | ref r => exact absurd rfl (href r)
  | _ => rfl

/-- The text of an object whose members have texts. -/
theorem canonicalStringifySeen_ref {r : Ref} {seen : Finset Ref} (hnew : r ∉ seen)
    (hmembers : ∀ inner, Member heap (.ref r) inner →
      canonicalStringifySeen numbers heap (insert r seen) inner = .ok (canonicalText numbers heap inner)) :
    canonicalStringifySeen numbers heap seen (.ref r) = .ok (some (refText numbers heap r)) := by
  rw [canonicalStringifySeen, dif_neg hnew, refText]
  cases hheap : heap r with
  | array elements =>
      have htexts : elements.mapM (elementTextBy fun value => canonicalStringifySeen numbers heap (insert r seen) value) =
          .ok (elements.map fun element => element.bind fun value =>
            if value.isLeftOut then some (js "null") else canonicalText numbers heap value) := by
        refine mapM_of_ok fun element hmem => ?_
        cases element with
        | none => rfl
        | some value =>
            rw [elementTextBy, Option.bind_some]
            split
            · rfl
            · exact hmembers value (member_of_element hheap hmem)
      show (elements.mapM _ >>= _) = _
      rw [htexts]
      show Except.ok (some (arrayText ((elements.map _).map _))) = _
      rw [List.map_map]
      refine congrArg (fun texts => Except.ok (some (arrayText texts))) (List.map_congr_left fun element _ => ?_)
      cases element with
      | none => rfl
      | some value =>
          rw [Function.comp_apply, Option.bind_some, elementText]
          split <;> rfl
  | object fields =>
      have hpairs : (keptKeys fields).mapM (fun key => do
          let text ← canonicalStringifySeen numbers heap (insert r seen) (valueAt fields key)
          return (key, text.getD (js "undefined"))) =
          .ok ((keptKeys fields).map fun key => (key, keyText numbers heap fields key)) := by
        refine mapM_of_ok fun key hkey => ?_
        obtain ⟨value, hvalue, -⟩ := mem_keptKeys.mp hkey
        rw [keyText, valueAt_of_get hvalue, hmembers value (member_of_field hheap hvalue)]
        rfl
      show ((keptKeys fields).mapM _ >>= _) = _
      rw [hpairs]
      rfl

theorem refText_array {r : Ref} {elements : List (Option (HeapValue N Ref))} (hheap : heap r = .array elements) :
    refText numbers heap r = arrayText (elements.map (elementText numbers heap)) := by
  rw [refText, hheap]

theorem refText_object {r : Ref} {fields : JsMap JsString (HeapValue N Ref)} (hheap : heap r = .object fields) :
    refText numbers heap r = objectText ((keptKeys fields).map fun key => (key, keyText numbers heap fields key)) := by
  rw [refText, hheap]

/-- The objects that a value is in do not change its text, as long as it holds none of them. -/
theorem canonicalStringifySeen_eq {value : HeapValue N Ref} (hacyclic : ¬ HasCycle heap value) {seen : Finset Ref}
    (hfree : FreeOf heap seen value) :
    canonicalStringifySeen numbers heap seen value = .ok (canonicalText numbers heap value) := by
  revert seen
  refine acyclic_induction (P := fun value => ∀ {seen : Finset Ref}, FreeOf heap seen value →
    canonicalStringifySeen numbers heap seen value = .ok (canonicalText numbers heap value)) ?_ hacyclic
  intro value hacyclic ih seen hfree
  have hsame : ∀ text, canonicalStringify numbers heap value = .ok text →
      canonicalStringifySeen numbers heap seen value = .ok text →
      canonicalStringifySeen numbers heap seen value = .ok (canonicalText numbers heap value) := by
    intro text h h'
    rw [h', canonicalText, h]
    rfl
  cases value with
  | undefined => exact hsame _ (canonicalStringifySeen_undefined ∅) (canonicalStringifySeen_undefined seen)
  | ref r =>
      have hrun : ∀ {seen : Finset Ref}, FreeOf heap seen (.ref r) →
          canonicalStringifySeen numbers heap seen (.ref r) = .ok (some (refText numbers heap r)) := by
        intro seen hfree
        exact canonicalStringifySeen_ref hfree.not_mem fun inner hmember =>
          ih inner hmember (hfree.of_member hacyclic hmember)
      exact hsame _ (hrun freeOf_empty) (hrun hfree)
  | _ =>
      exact hsame _ (canonicalStringifySeen_primitive (by simp) (by simp) ∅)
        (canonicalStringifySeen_primitive (by simp) (by simp) seen)

theorem canonicalStringify_of_acyclic {value : HeapValue N Ref} (hacyclic : ¬ HasCycle heap value) :
    canonicalStringify numbers heap value = .ok (canonicalText numbers heap value) :=
  canonicalStringifySeen_eq hacyclic freeOf_empty

theorem canonicalText_ref {r : Ref} (hacyclic : ¬ HasCycle heap (.ref r)) :
    canonicalText numbers heap (.ref r) = some (refText numbers heap r) := by
  have htext := @canonicalStringify_of_acyclic N Ref numbers _ _ heap _ hacyclic
  rw [canonicalStringify, canonicalStringifySeen_ref (Finset.notMem_empty r) fun inner hmember => ?_] at htext
  · exact (Except.ok.inj htext).symm
  · exact canonicalStringifySeen_eq (not_hasCycle_of_member hacyclic hmember) (freeOf_empty.of_member hacyclic hmember)

theorem canonicalText_primitive {value : HeapValue N Ref} (hdefined : value ≠ .undefined) (href : ∀ r, value ≠ .ref r) :
    canonicalText numbers heap value = primitiveText numbers value := by
  rw [canonicalText, canonicalStringify, canonicalStringifySeen_primitive hdefined href]
  rfl

/-- Where a text is returned, the members have texts too. -/
theorem exists_of_member {r : Ref} {seen : Finset Ref} {text : Option JsString}
    (h : canonicalStringifySeen numbers heap seen (.ref r) = .ok text) {inner : HeapValue N Ref}
    (hmember : Member heap (.ref r) inner) (hkept : inner.isLeftOut = false) :
    ∃ text, canonicalStringifySeen numbers heap (insert r seen) inner = .ok text := by
  obtain ⟨hinner⟩ := hmember
  rw [canonicalStringifySeen] at h
  split at h
  · cases h
  · split at h
    · rename_i elements hheap
      obtain ⟨texts, htexts, -⟩ := bind_ok_iff.mp h
      rw [hheap] at hinner
      obtain ⟨text, htext⟩ := exists_mapM_ok_iff.mp ⟨texts, htexts⟩ (some inner) (List.reduceOption_mem_iff.mp hinner)
      rw [elementTextBy, hkept] at htext
      exact ⟨text, htext⟩
    · rename_i fields hheap
      obtain ⟨pairs, hpairs, -⟩ := bind_ok_iff.mp h
      rw [hheap] at hinner
      obtain ⟨key, hkey⟩ := (JsMap.mem_values_iff fields inner).mp hinner
      obtain ⟨pair, hpair⟩ := exists_mapM_ok_iff.mp ⟨pairs, hpairs⟩ key (mem_keptKeys.mpr ⟨inner, hkey, hkept⟩)
      obtain ⟨text, htext, -⟩ := bind_ok_iff.mp hpair
      rw [valueAt_of_get hkey] at htext
      exact ⟨text, htext⟩

/-- Where a text is returned, the value reaches neither a cycle nor an object that it is in. -/
theorem acyclic_of_ok {seen : Finset Ref} {value : HeapValue N Ref} {text : Option JsString}
    (h : canonicalStringifySeen numbers heap seen value = .ok text) {inner : HeapValue N Ref}
    (hreach : Reaches heap value inner) :
    (∀ r ∈ seen, inner ≠ .ref r) ∧ ¬ TransGen (Member heap) inner inner := by
  induction hcard : seenᶜ.card using Nat.strong_induction_on generalizing seen value text inner with
  | _ n ih =>
      cases value with
      | ref r =>
          have hnew : r ∉ seen := by
            intro hmem
            rw [canonicalStringifySeen, dif_pos hmem] at h
            cases h
          have hmembers : ∀ {next other}, Member heap (.ref r) next → Reaches heap next other →
              (∀ s ∈ insert r seen, other ≠ .ref s) ∧ ¬ TransGen (Member heap) other other := by
            intro next other hmember hother
            cases hleft : next.isLeftOut with
            | false =>
                obtain ⟨text, htext⟩ := exists_of_member h hmember hleft
                exact ih _ (hcard ▸ card_compl_insert_lt hnew) htext hother rfl
            | true =>
                -- what is left out has no members
                have hnone : ∀ last, ¬ Member heap next last := by
                  intro last hlast
                  cases hlast
                  cases hleft
                obtain rfl | ⟨last, hlast, -⟩ := ReflTransGen.cases_head hother
                · refine ⟨fun s _ heq => ?_, fun hloop => ?_⟩
                  · subst heq
                    cases hleft
                  · obtain ⟨last, hlast, -⟩ := TransGen.head'_iff.mp hloop
                    exact hnone last hlast
                · exact absurd hlast (hnone last)
          obtain rfl | ⟨next, hmember, hother⟩ := ReflTransGen.cases_head hreach
          · refine ⟨fun s hs heq => hnew (HeapValue.ref.inj heq ▸ hs), fun hloop => ?_⟩
            obtain ⟨next, hmember, hback⟩ := TransGen.head'_iff.mp hloop
            exact (hmembers hmember hback).1 r (Finset.mem_insert_self r seen) rfl
          · obtain ⟨hseen, hloop⟩ := hmembers hmember hother
            exact ⟨fun s hs => hseen s (Finset.mem_insert_of_mem hs), hloop⟩
      | _ =>
          obtain rfl | ⟨next, hmember, -⟩ := ReflTransGen.cases_head hreach
          · refine ⟨fun r _ => by simp, fun hloop => ?_⟩
            obtain ⟨next, hmember, -⟩ := TransGen.head'_iff.mp hloop
            cases hmember
          · cases hmember

/-- `canonicalStringify` throws on the values with a cycle. -/
theorem canonicalStringify_error_iff {value : HeapValue N Ref} :
    (∃ err, canonicalStringify numbers heap value = .error err) ↔ HasCycle heap value := by
  constructor
  · rintro ⟨err, herr⟩
    by_contra hacyclic
    rw [canonicalStringify_of_acyclic hacyclic] at herr
    cases herr
  · rintro ⟨inner, hreach, hloop⟩
    cases h : canonicalStringify numbers heap value with
    | error err => exact ⟨err, rfl⟩
    | ok text => exact absurd hloop (acyclic_of_ok h hreach).2

end Runs

end GitWarp.CanonicalText
