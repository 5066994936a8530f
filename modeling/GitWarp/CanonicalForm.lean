import GitWarp.CanonicalText
import GitWarp.LibraryLists

/-! The canonical text against `JSON.stringify`: on the values of JSON it is a text of the same data, one for each, and
on the others it leaves out the same members where no array has a hole and no object has a `toJSON` function. -/

namespace GitWarp.CanonicalText
open Js JsHeap JsonReader JsonStringify Relation GitWarp.Lists

variable {N Ref : Type}

section Plain

variable (heap : JsHeap N Ref)

/-- The value reaches no array with a hole and no object with a `toJSON` function. -/
def Plain (value : HeapValue N Ref) : Prop := ∀ r, Reaches heap value (.ref r) →
  (heap r).isDense = true ∧ (heap r).toJSON = none

variable {heap} {value inner : HeapValue N Ref}

theorem plain_of_not_ref (href : ∀ r, value ≠ .ref r) : Plain heap value := by
  intro r hreach
  obtain rfl | ⟨next, ⟨_⟩, -⟩ := ReflTransGen.cases_head hreach
  · exact absurd rfl (href r)
  · exact absurd rfl (href _)

theorem plain_ref_iff {r : Ref} : Plain heap (.ref r) ↔
    ((heap r).isDense = true ∧ (heap r).toJSON = none) ∧ ∀ inner, Member heap (.ref r) inner → Plain heap inner := by
  constructor
  · intro h
    exact ⟨h r .refl, fun inner hmember s hreach => h s (hreach.head hmember)⟩
  · rintro ⟨hobject, hmembers⟩ s hreach
    obtain heq | ⟨next, hmember, hreach⟩ := ReflTransGen.cases_head hreach
    · rw [← HeapValue.ref.inj heq]
      exact hobject
    · exact hmembers next hmember s hreach

theorem not_ref_of_isLeftOut (h : value.isLeftOut = true) (r : Ref) : value ≠ .ref r := by
  rintro rfl
  cases h

/-- A value of JSON has no functions. -/
theorem plain_of_builtOfJson (h : BuiltOfJson heap value) : Plain heap value := by
  intro r hreach
  refine ⟨h.dense r hreach, ?_⟩
  cases hheap : heap r with
  | array elements => rfl
  | object fields =>
      rw [HeapObject.toJSON]
      split
      · rename_i name hfield
        have hjson := h.values _ (hreach.tail (member_of_field hheap hfield))
        cases hjson
      · rfl

end Plain

/-- The text of a value that is no object says its data. -/
theorem exists_said_primitive (numbers : NumberText N) (heap : JsHeap N Ref) {value : HeapValue N Ref}
    (hkept : value.isLeftOut = false) (href : ∀ r, value ≠ .ref r) :
    ∃ text data, primitiveText numbers value = some text ∧ Readable numbers text ∧ parse numbers text = some data ∧
      (value.isJson = true → Represents heap value data) := by
  cases value with
  | undefined | symbol | function => cases hkept
  | null => exact ⟨_, .null, rfl, readable_null, reads_null.parse_eq, fun _ => .null⟩
  | notFinite => exact ⟨_, .null, rfl, readable_null, reads_null.parse_eq, fun h => by cases h⟩
  | bool b => exact ⟨_, .bool b, rfl, readable_bool b, (reads_bool b).parse_eq, fun _ => .bool b⟩
  | number n => exact ⟨_, .number n, rfl, readable_number n, (reads_number n).parse_eq, fun _ => .number n⟩
  | string s => exact ⟨_, .string s, rfl, readable_string s, (reads_string s).parse_eq, fun _ => .string s⟩
  | ref r => exact absurd rfl (href r)

/-! ### Canonical texts -/

variable [DecidableEq Ref] [Fintype Ref] {numbers : NumberText N} {heap : JsHeap N Ref}

variable (numbers heap) in
/-- The value has a canonical text, which may be a part of a text. -/
def HasText (value : HeapValue N Ref) : Prop :=
  ∃ text, canonicalText numbers heap value = some text ∧ Readable numbers text ∧ text ≠ []

theorem HasText.element {element : Option (HeapValue N Ref)}
    (h : ∀ value, element = some value → value.isLeftOut = false → HasText numbers heap value) :
    Readable numbers (elementText numbers heap element) ∧ (elementText numbers heap element = [] ↔ element = none) := by
  cases element with
  | none => exact ⟨readable_nil, iff_of_true rfl rfl⟩
  | some value =>
      rw [elementText]
      cases hleft : value.isLeftOut with
      | true => exact ⟨readable_null, iff_of_false (List.cons_ne_nil _ _) (by simp)⟩
      | false =>
          obtain ⟨text, htext, hreadable, hne⟩ := h value rfl hleft
          rw [htext]
          exact ⟨hreadable, iff_of_false hne (by simp)⟩

theorem HasText.key {fields : JsMap JsString (HeapValue N Ref)}
    (h : ∀ key value, fields.get key = some value → value.isLeftOut = false → HasText numbers heap value) :
    ∀ key ∈ keptKeys fields, Readable numbers (keyText numbers heap fields key) := by
  intro key hkey
  obtain ⟨value, hvalue, hleft⟩ := mem_keptKeys.mp hkey
  obtain ⟨text, htext, hreadable, -⟩ := h key value hvalue hleft
  rw [keyText, valueAt_of_get hvalue, htext]
  exact hreadable

/-- An acyclic value that is not left out has a text. -/
theorem hasText_of_acyclic {value : HeapValue N Ref} (hacyclic : ¬ HasCycle heap value) :
    value.isLeftOut = false → HasText numbers heap value := by
  refine acyclic_induction (P := fun value => value.isLeftOut = false → HasText numbers heap value) ?_ hacyclic
  intro value hacyclic ih hkept
  cases value with
  | ref r =>
      rw [HasText, canonicalText_ref hacyclic]
      refine ⟨_, rfl, ?_⟩
      cases hheap : heap r with
      | array elements =>
          rw [refText_array hheap]
          refine ⟨readable_array fun text htext => ?_, List.cons_ne_nil _ _⟩
          obtain ⟨element, hmem, rfl⟩ := List.mem_map.mp htext
          exact (HasText.element fun value hvalue => ih value (member_of_element hheap (hvalue ▸ hmem))).1
      | object fields =>
          rw [refText_object hheap]
          refine ⟨readable_object fun member hmember => ?_, List.cons_ne_nil _ _⟩
          obtain ⟨key, hkey, rfl⟩ := List.mem_map.mp hmember
          exact HasText.key (fun key value hfield => ih value (member_of_field hheap hfield)) key hkey
  | undefined | symbol | function => cases hkept
  | _ =>
      obtain ⟨text, data, htext, hreadable, hparse, -⟩ := exists_said_primitive numbers heap hkept (by simp)
      refine ⟨text, (canonicalText_primitive (by simp) (by simp)).trans htext, hreadable, ?_⟩
      rintro rfl
      rw [parse_nil] at hparse
      cases hparse

theorem parse_getD (text : Option JsString) : parse numbers (text.getD []) = text.bind (parse numbers) := by
  cases text with
  | none => exact parse_nil
  | some text => rfl

theorem parse_keyText {fields : JsMap JsString (HeapValue N Ref)} {key : JsString} {value : HeapValue N Ref}
    (hacyclic : ¬ HasCycle heap value) (hvalue : fields.get key = some value) (hkept : value.isLeftOut = false) :
    parse numbers (keyText numbers heap fields key) = (canonicalText numbers heap value).bind (parse numbers) := by
  have hhas : HasText numbers heap value := hasText_of_acyclic hacyclic hkept
  obtain ⟨text, htext, -⟩ := hhas
  rw [keyText, valueAt_of_get hvalue, htext]
  rfl

/-! ### Texts compared -/

section Compared

variable (numbers heap) (s : JsString)

/-- The data that the text of `JSON.stringify` says, where functions return `s`. -/
def answeredData (value : HeapValue N Ref) : JsonData N :=
  ((answeredText numbers heap s value).bind (parse numbers)).getD .null

def elementData : Option (HeapValue N Ref) → JsonData N
  | none => .null
  | some value => if value.isLeftOut then .null else answeredData numbers heap s value

def fieldData (fields : JsMap JsString (HeapValue N Ref)) (key : JsString) : Option (JsonData N) :=
  (fields.get key).bind fun value => if value.isLeftOut then none else some (answeredData numbers heap s value)

/-- What the two texts of a value say. -/
structure Compared (value : HeapValue N Ref) : Prop where
  answered : ∃ text, answeredText numbers heap s value = some text ∧ Readable numbers text ∧
    parse numbers text = some (answeredData numbers heap s value)
  canonical_iff : (canonicalText numbers heap value).bind (parse numbers) = some (answeredData numbers heap s value) ↔
    Plain heap value
  represents : BuiltOfJson heap value → Represents heap value (answeredData numbers heap s value)

variable {numbers heap s} {value : HeapValue N Ref}

theorem Compared.of_text (data : JsonData N) {text : JsString} (htext : answeredText numbers heap s value = some text)
    (hreadable : Readable numbers text) (hparse : parse numbers text = some data)
    (hiff : (canonicalText numbers heap value).bind (parse numbers) = some data ↔ Plain heap value)
    (hrepresents : BuiltOfJson heap value → Represents heap value data) : Compared numbers heap s value := by
  have hdata : answeredData numbers heap s value = data := by
    rw [answeredData, htext, Option.bind_some, hparse, Option.getD_some]
  exact ⟨⟨text, htext, hreadable, hdata ▸ hparse⟩, hdata ▸ hiff, hdata ▸ hrepresents⟩

theorem fieldData_of_get {fields : JsMap JsString (HeapValue N Ref)} {key : JsString} (hvalue : fields.get key = some value)
    (hkept : value.isLeftOut = false) : fieldData numbers heap s fields key = some (answeredData numbers heap s value) := by
  rw [fieldData, hvalue, Option.bind_some, hkept]
  rfl

theorem fieldData_eq_none {fields : JsMap JsString (HeapValue N Ref)} {key : JsString} (hkey : key ∉ definedKeys fields) :
    fieldData numbers heap s fields key = none := by
  rw [fieldData]
  cases hvalue : fields.get key with
  | none => rfl
  | some value =>
      cases hleft : value.isLeftOut with
      | true => rw [Option.bind_some, hleft]; rfl
      | false => exact absurd (mem_definedKeys.mpr ⟨value, hvalue, hleft⟩) hkey

theorem answeredText_of_isLeftOut (h : value.isLeftOut = true) : answeredText numbers heap s value = none := by
  rw [answeredText_primitive (not_ref_of_isLeftOut h)]
  cases value with
  | undefined | symbol | function => rfl
  | _ => cases h

theorem Compared.element {element : Option (HeapValue N Ref)}
    (h : ∀ value, element = some value → value.isLeftOut = false → Compared numbers heap s value) :
    Readable numbers (answeredElement numbers heap s element) ∧
      parse numbers (answeredElement numbers heap s element) = some (elementData numbers heap s element) ∧
      (parse numbers (elementText numbers heap element) = some (elementData numbers heap s element) ↔
        ∃ value, element = some value ∧ Plain heap value) := by
  have hnull : ∀ value : HeapValue N Ref, value.isLeftOut = true →
      (answeredText numbers heap s value).getD (js "null") = js "null" := by
    intro value hleft
    rw [answeredText_of_isLeftOut hleft, Option.getD_none]
  cases element with
  | none =>
      rw [answeredElement, Option.getD_none, hnull _ rfl]
      refine ⟨readable_null, reads_null.parse_eq, iff_of_false (fun hnone => ?_) (by simp)⟩
      rw [elementText, parse_nil] at hnone
      cases hnone
  | some value =>
      rw [answeredElement, elementText, elementData, Option.getD_some]
      cases hleft : value.isLeftOut with
      | true =>
          rw [hnull value hleft]
          exact ⟨readable_null, reads_null.parse_eq,
            iff_of_true reads_null.parse_eq ⟨value, rfl, plain_of_not_ref (not_ref_of_isLeftOut hleft)⟩⟩
      | false =>
          obtain ⟨⟨text, htext, hreadable, hparse⟩, hiff, -⟩ := h value rfl hleft
          rw [htext, Option.getD_some, if_neg Bool.false_ne_true]
          refine ⟨hreadable, hparse, ?_⟩
          show parse numbers ((canonicalText numbers heap value).getD []) = some (answeredData numbers heap s value) ↔ _
          rw [parse_getD, hiff]
          constructor
          · intro hplain
            exact ⟨value, rfl, hplain⟩
          · rintro ⟨value', hvalue', hplain⟩
            rw [Option.some.inj hvalue']
            exact hplain

theorem compared_array {r : Ref} (hacyclic : ¬ HasCycle heap (.ref r))
    (ih : ∀ inner, Member heap (.ref r) inner → inner.isLeftOut = false → Compared numbers heap s inner)
    {elements : List (Option (HeapValue N Ref))} (hheap : heap r = .array elements) : Compared numbers heap s (.ref r) := by
  have helement : ∀ element ∈ elements, Readable numbers (answeredElement numbers heap s element) ∧
      parse numbers (answeredElement numbers heap s element) = some (elementData numbers heap s element) ∧
      (parse numbers (elementText numbers heap element) = some (elementData numbers heap s element) ↔
        ∃ value, element = some value ∧ Plain heap value) := by
    intro element hmem
    exact Compared.element fun value hvalue => ih value (member_of_element hheap (hvalue ▸ hmem))
  have htexts : ∀ element ∈ elements, Readable numbers (elementText numbers heap element) := by
    intro element hmem
    refine (HasText.element fun value hvalue => ?_).1
    exact hasText_of_acyclic (not_hasCycle_of_member hacyclic (member_of_element hheap (hvalue ▸ hmem)))
  refine .of_text (.array (elements.map (elementData numbers heap s))) (answeredText_ref hacyclic) ?_ ?_ ?_ ?_
  · rw [answeredRefText_array hheap]
    refine readable_array fun text htext => ?_
    obtain ⟨element, hmem, rfl⟩ := List.mem_map.mp htext
    exact (helement element hmem).1
  · rw [answeredRefText_array hheap, parse_array_eq_iff fun element hmem => (helement element hmem).1]
    exact fun element hmem => (helement element hmem).2.1
  · rw [canonicalText_ref hacyclic, Option.bind_some, refText_array hheap, parse_array_eq_iff htexts, plain_ref_iff, hheap,
      HeapObject.isDense, List.all_eq_true]
    constructor
    · intro h
      have hplain : ∀ element ∈ elements, ∃ value, element = some value ∧ Plain heap value :=
        fun element hmem => (helement element hmem).2.2.mp (h element hmem)
      refine ⟨⟨fun element hmem => ?_, rfl⟩, fun inner hmember => ?_⟩
      · obtain ⟨value, rfl, -⟩ := hplain element hmem
        rfl
      · cases hmember with
        | intro hinner =>
            rw [hheap] at hinner
            obtain ⟨value, hvalue, hplain⟩ := hplain (some inner) (List.reduceOption_mem_iff.mp hinner)
            exact Option.some.inj hvalue ▸ hplain
    · rintro ⟨⟨hdense, -⟩, hmembers⟩ element hmem
      obtain ⟨value, rfl⟩ := Option.isSome_iff_exists.mp (hdense element hmem)
      exact (helement _ hmem).2.2.mpr ⟨value, rfl, hmembers value (member_of_element hheap hmem)⟩
  · intro hbuilt
    have hdense := hbuilt.dense r .refl
    rw [hheap] at hdense
    obtain ⟨values, rfl⟩ := HeapObject.exists_values_of_isDense hdense
    refine .array hheap (by rw [List.length_map, List.length_map]) fun i hi hi' => ?_
    have hmember := member_of_element hheap (List.mem_map_of_mem (List.getElem_mem hi))
    have hinner := hbuilt.of_member hmember
    rw [List.getElem_map, List.getElem_map, elementData, hinner.isLeftOut]
    exact (ih _ hmember hinner.isLeftOut).represents hinner

/-- The members that `JSON.stringify` prints. -/
theorem filterMap_answeredMember {fields : JsMap JsString (HeapValue N Ref)}
    (ih : ∀ key value, fields.get key = some value → value.isLeftOut = false → Compared numbers heap s value) :
    fields.entries.filterMap (answeredMember numbers heap s) =
      (definedKeys fields).map fun key => (key, (answeredText numbers heap s (valueAt fields key)).getD []) := by
  rw [definedKeys, JsMap.keys, List.filter_map, List.map_map]
  refine filterMap_eq_map_filter fun field hfield => ?_
  have hget := (fields.get_eq_some_iff field.1 field.2).mpr hfield
  rw [Function.comp_apply, Function.comp_apply, valueAt_of_get hget, answeredMember]
  cases hleft : field.2.isLeftOut with
  | true => rw [answeredText_of_isLeftOut hleft]; rfl
  | false =>
      obtain ⟨text, htext, -⟩ := (ih field.1 field.2 hget hleft).answered
      rw [htext]
      rfl

theorem compared_object {r : Ref} (hacyclic : ¬ HasCycle heap (.ref r))
    (ih : ∀ inner, Member heap (.ref r) inner → inner.isLeftOut = false → Compared numbers heap s inner)
    {fields : JsMap JsString (HeapValue N Ref)} (hheap : heap r = .object fields) : Compared numbers heap s (.ref r) := by
  have ih' : ∀ key value, fields.get key = some value → value.isLeftOut = false → Compared numbers heap s value :=
    fun key value hfield => ih value (member_of_field hheap hfield)
  have hkeys : ∀ key ∈ keptKeys fields, Readable numbers (keyText numbers heap fields key) :=
    HasText.key fun key value hfield =>
      hasText_of_acyclic (not_hasCycle_of_member hacyclic (member_of_field hheap hfield))
  have hmembers : ∀ m ∈ (keptKeys fields).map fun key => (key, keyText numbers heap fields key), Readable numbers m.2 := by
    intro m hm
    obtain ⟨key, hkey, rfl⟩ := List.mem_map.mp hm
    exact hkeys key hkey
  cases hjson : (heap r).toJSON with
  | some name =>
      refine .of_text (.string s) (answeredText_ref hacyclic) ?_ ?_ (iff_of_false ?_ ?_) ?_
      · rw [answeredRefText_toJSON hjson]
        exact readable_string s
      · rw [answeredRefText_toJSON hjson]
        exact (reads_string s).parse_eq
      · intro h
        rw [canonicalText_ref hacyclic, Option.bind_some, refText_object hheap] at h
        obtain ⟨data, hdata⟩ := exists_fields_of_parse_object hmembers h
        cases hdata
      · intro hplain
        have hnone := (hplain r .refl).2
        rw [hjson] at hnone
        cases hnone
      · intro hbuilt
        have hnone := (plain_of_builtOfJson hbuilt r .refl).2
        rw [hjson] at hnone
        cases hnone
  | none =>
      have hanswers : ∀ key ∈ definedKeys fields,
          Readable numbers ((answeredText numbers heap s (valueAt fields key)).getD []) := by
        intro key hkey
        obtain ⟨value, hvalue, hleft⟩ := mem_definedKeys.mp hkey
        obtain ⟨text, htext, hreadable, -⟩ := (ih' key value hvalue hleft).answered
        rw [valueAt_of_get hvalue, htext]
        exact hreadable
      have htext : answeredRefText numbers heap s r = objectText ((definedKeys fields).map fun key =>
          (key, (answeredText numbers heap s (valueAt fields key)).getD [])) := by
        rw [answeredRefText_object hheap hjson, filterMap_answeredMember ih']
      refine .of_text (.object (fieldData numbers heap s fields)) (answeredText_ref hacyclic) ?_ ?_ ?_ ?_
      · rw [htext]
        refine readable_object fun member hmember => ?_
        obtain ⟨key, hkey, rfl⟩ := List.mem_map.mp hmember
        exact hanswers key hkey
      · rw [htext, parse_object_eq_iff (nodup_definedKeys fields) hanswers]
        refine ⟨fun key hkey => ?_, fun key hkey => fieldData_eq_none hkey⟩
        obtain ⟨value, hvalue, hleft⟩ := mem_definedKeys.mp hkey
        obtain ⟨text, htext, -, hparse⟩ := (ih' key value hvalue hleft).answered
        refine ⟨_, ?_, fieldData_of_get hvalue hleft⟩
        rw [valueAt_of_get hvalue, htext]
        exact hparse
      · rw [canonicalText_ref hacyclic, Option.bind_some, refText_object hheap,
          parse_object_eq_iff (nodup_keptKeys fields) hkeys, plain_ref_iff, hjson, hheap]
        constructor
        · rintro ⟨hsaid, -⟩
          refine ⟨⟨rfl, rfl⟩, fun inner hmember => ?_⟩
          cases hleft : inner.isLeftOut with
          | true => exact plain_of_not_ref (not_ref_of_isLeftOut hleft)
          | false =>
              obtain ⟨key, hvalue⟩ := exists_field_of_member hheap hmember
              obtain ⟨data, hparse, hdata⟩ := hsaid key (mem_keptKeys.mpr ⟨inner, hvalue, hleft⟩)
              rw [fieldData_of_get hvalue hleft, Option.some.injEq] at hdata
              rw [parse_keyText (not_hasCycle_of_member hacyclic hmember) hvalue hleft, ← hdata] at hparse
              exact (ih inner hmember hleft).canonical_iff.mp hparse
        · rintro ⟨-, hplain⟩
          refine ⟨fun key hkey => ?_, fun key hkey => fieldData_eq_none fun hmem => ?_⟩
          · obtain ⟨value, hvalue, hleft⟩ := mem_keptKeys.mp hkey
            have hmember := member_of_field hheap hvalue
            refine ⟨_, ?_, fieldData_of_get hvalue hleft⟩
            rw [parse_keyText (not_hasCycle_of_member hacyclic hmember) hvalue hleft]
            exact (ih value hmember hleft).canonical_iff.mpr (hplain value hmember)
          · exact hkey (mem_keptKeys.mpr (mem_definedKeys.mp hmem))
      · intro hbuilt
        refine .object hheap (fun key => ?_) fun key value item hvalue hitem => ?_
        · cases hvalue : fields.get key with
          | none => rw [fieldData, hvalue]; rfl
          | some value =>
              rw [fieldData_of_get hvalue (hbuilt.of_member (member_of_field hheap hvalue)).isLeftOut]
              rfl
        · have hmember := member_of_field hheap hvalue
          have hinner := hbuilt.of_member hmember
          rw [fieldData_of_get hvalue hinner.isLeftOut, Option.some.injEq] at hitem
          exact hitem ▸ (ih value hmember hinner.isLeftOut).represents hinner

theorem compared_of_acyclic (hacyclic : ¬ HasCycle heap value) : value.isLeftOut = false → Compared numbers heap s value := by
  refine acyclic_induction (P := fun value => value.isLeftOut = false → Compared numbers heap s value) ?_ hacyclic
  intro value hacyclic ih hkept
  cases value with
  | ref r =>
      cases hheap : heap r with
      | array elements => exact compared_array hacyclic ih hheap
      | object fields => exact compared_object hacyclic ih hheap
  | undefined | symbol | function => cases hkept
  | _ =>
      obtain ⟨text, data, htext, hreadable, hparse, hrepresents⟩ := exists_said_primitive numbers heap hkept (by simp)
      refine .of_text data ((answeredText_primitive (by simp)).trans htext) hreadable hparse (iff_of_true ?_ ?_) ?_
      · rw [canonicalText_primitive (by simp) (by simp), htext]
        exact hparse
      · exact plain_of_not_ref (by simp)
      · exact fun hbuilt => hrepresents (hbuilt.values _ .refl)

end Compared

/-! ### Equal data -/

omit [DecidableEq Ref] [Fintype Ref] in
theorem mem_keptKeys_of_represents {fields : JsMap JsString (HeapValue N Ref)} {data : JsString → Option (JsonData N)}
    (hkeys : ∀ key, (data key).isSome = (fields.get key).isSome)
    (hfields : ∀ key value item, fields.get key = some value → data key = some item → Represents heap value item)
    (key : JsString) : key ∈ keptKeys fields ↔ ∃ item, data key = some item := by
  rw [mem_keptKeys]
  constructor
  · rintro ⟨value, hvalue, -⟩
    have hsome := hkeys key
    rw [hvalue] at hsome
    exact Option.isSome_iff_exists.mp hsome
  · rintro ⟨item, hitem⟩
    have hsome := hkeys key
    rw [hitem] at hsome
    obtain ⟨value, hvalue⟩ := Option.isSome_iff_exists.mp hsome.symm
    exact ⟨value, hvalue, (hfields key value item hvalue hitem).isLeftOut⟩

/-- Values with one data have one text. -/
theorem canonicalText_eq_of_represents {Ref' : Type} [DecidableEq Ref'] [Fintype Ref'] {heap' : JsHeap N Ref'}
    {value : HeapValue N Ref} {value' : HeapValue N Ref'} {data : JsonData N} (h : Represents heap value data)
    (h' : Represents heap' value' data) (hacyclic : ¬ HasCycle heap value) (hacyclic' : ¬ HasCycle heap' value') :
    canonicalText numbers heap value = canonicalText numbers heap' value' := by
  induction h generalizing value' with
  | null | bool | number | string =>
      cases h'
      rw [canonicalText_primitive (by simp) (by simp), canonicalText_primitive (by simp) (by simp)]
      rfl
  | @array r values items hheap hlength hitems ih =>
      cases h' with
      | @array r' values' _ hheap' hlength' hitems' =>
          rw [canonicalText_ref hacyclic, canonicalText_ref hacyclic', refText_array hheap, refText_array hheap']
          refine congrArg (fun texts => some (arrayText texts)) (List.ext_getElem ?_ fun i hi hi' => ?_)
          · rw [List.length_map, List.length_map, List.length_map, List.length_map, hlength, hlength']
          · rw [List.length_map, List.length_map] at hi hi'
            have hmember := member_of_element hheap (List.mem_map_of_mem (List.getElem_mem hi))
            have hmember' := member_of_element hheap' (List.mem_map_of_mem (List.getElem_mem hi'))
            have hitem := hitems i hi (hlength ▸ hi)
            have hitem' := hitems' i hi' (hlength ▸ hi)
            rw [List.getElem_map, List.getElem_map, List.getElem_map, List.getElem_map, elementText, elementText,
              hitem.isLeftOut, hitem'.isLeftOut, ih i hi (hlength ▸ hi) hitem' (not_hasCycle_of_member hacyclic hmember)
              (not_hasCycle_of_member hacyclic' hmember')]
  | @object r fields data hheap hkeys hfields ih =>
      cases h' with
      | @object r' fields' _ hheap' hkeys' hfields' =>
          have hmem : ∀ key, key ∈ keptKeys fields ↔ key ∈ keptKeys fields' := by
            intro key
            rw [mem_keptKeys_of_represents hkeys hfields, mem_keptKeys_of_represents hkeys' hfields']
          have hsame : keptKeys fields = keptKeys fields' := by
            have hperm := (List.perm_ext_iff_of_nodup (nodup_keptKeys fields) (nodup_keptKeys fields')).mpr hmem
            exact hperm.eq_of_pairwise (fun _ _ _ _ => le_antisymm) (List.pairwise_insertionSort _ _)
              (List.pairwise_insertionSort _ _)
          rw [canonicalText_ref hacyclic, canonicalText_ref hacyclic', refText_object hheap, refText_object hheap', hsame]
          refine congrArg (fun members => some (objectText members)) (List.map_congr_left fun key hkey => ?_)
          obtain ⟨value, hvalue, -⟩ := mem_keptKeys.mp ((hmem key).mpr hkey)
          obtain ⟨value', hvalue', -⟩ := mem_keptKeys.mp hkey
          obtain ⟨item, hitem⟩ := (mem_keptKeys_of_represents hkeys hfields key).mp ((hmem key).mpr hkey)
          have htext := ih key value item hvalue hitem (hfields' key value' item hvalue' hitem)
            (not_hasCycle_of_member hacyclic (member_of_field hheap hvalue))
            (not_hasCycle_of_member hacyclic' (member_of_field hheap' hvalue'))
          rw [keyText, keyText, valueAt_of_get hvalue, valueAt_of_get hvalue', htext]

/-! ### The canonical form -/

/-- The data that a returned text says. -/
def said (numbers : NumberText N) (result : Except JsError (Option JsString)) : Except JsError (Option (Option (JsonData N))) :=
  result.map (Option.map (parse numbers))

/-- Equality up to the order of the keys. -/
def SameData {Ref' : Type} (heap : JsHeap N Ref) (value : HeapValue N Ref) (heap' : JsHeap N Ref') (value' : HeapValue N Ref') :
    Prop :=
  ∃ data, Represents heap value data ∧ Represents heap' value' data

variable (numbers heap) in
/-- What the canonical text of a value is to be. A value that is `undefined` itself has the text of `null`, by intent. -/
structure IsCanonicalForm (value : HeapValue N Ref) : Prop where
  throws_iff : (∃ err, canonicalStringify numbers heap value = .error err) ↔ HasCycle heap value
  reparses : BuiltOfJson heap value → ¬ HasCycle heap value →
    ∃ data, Represents heap value data ∧ said numbers (canonicalStringify numbers heap value) = .ok (some (some data))
  determines : BuiltOfJson heap value → ¬ HasCycle heap value →
    ∀ (Ref' : Type) [DecidableEq Ref'] [Fintype Ref'] (heap' : JsHeap N Ref') (value' : HeapValue N Ref'),
      BuiltOfJson heap' value' → ¬ HasCycle heap' value' →
        (canonicalStringify numbers heap value = canonicalStringify numbers heap' value' ↔ SameData heap value heap' value')
  leavesOut : value ≠ .undefined → ¬ HasCycle heap value →
    ∀ call, said numbers (canonicalStringify numbers heap value) = said numbers (jsonStringify numbers heap call value)

theorem said_of_acyclic {value : HeapValue N Ref} (hacyclic : ¬ HasCycle heap value) :
    said numbers (canonicalStringify numbers heap value) =
      .ok ((canonicalText numbers heap value).map (parse numbers)) := by
  rw [canonicalStringify_of_acyclic hacyclic]
  rfl

/-- The text of a value of JSON says its data. -/
theorem exists_said (numbers : NumberText N) {value : HeapValue N Ref} (hbuilt : BuiltOfJson heap value)
    (hacyclic : ¬ HasCycle heap value) :
    ∃ data, Represents heap value data ∧ said numbers (canonicalStringify numbers heap value) = .ok (some (some data)) := by
  have hcompared : Compared numbers heap [] value := compared_of_acyclic hacyclic hbuilt.isLeftOut
  have hsaid := hcompared.canonical_iff.mpr (plain_of_builtOfJson hbuilt)
  obtain ⟨text, htext, hparse⟩ := Option.bind_eq_some_iff.mp hsaid
  refine ⟨_, hcompared.represents hbuilt, ?_⟩
  rw [said_of_acyclic hacyclic, htext, ← hparse]
  rfl

theorem canonicalStringify_eq_iff {Ref' : Type} [DecidableEq Ref'] [Fintype Ref'] {heap' : JsHeap N Ref'}
    {value : HeapValue N Ref} {value' : HeapValue N Ref'} (hbuilt : BuiltOfJson heap value) (hacyclic : ¬ HasCycle heap value)
    (hbuilt' : BuiltOfJson heap' value') (hacyclic' : ¬ HasCycle heap' value') :
    canonicalStringify numbers heap value = canonicalStringify numbers heap' value' ↔ SameData heap value heap' value' := by
  constructor
  · intro h
    obtain ⟨data, hdata, hsaid⟩ := exists_said numbers hbuilt hacyclic
    obtain ⟨data', hdata', hsaid'⟩ := exists_said numbers hbuilt' hacyclic'
    rw [h, hsaid'] at hsaid
    cases hsaid
    exact ⟨data, hdata, hdata'⟩
  · rintro ⟨data, hdata, hdata'⟩
    rw [canonicalStringify_of_acyclic hacyclic, canonicalStringify_of_acyclic hacyclic',
      canonicalText_eq_of_represents hdata hdata' hacyclic hacyclic']

/-- The two texts say the same, whatever functions return, where `JSON.stringify` meets neither a hole nor a function that
it calls. -/
theorem said_eq_iff {value : HeapValue N Ref} (hdefined : value ≠ .undefined) (hacyclic : ¬ HasCycle heap value) :
    (∀ call, said numbers (canonicalStringify numbers heap value) = said numbers (jsonStringify numbers heap call value)) ↔
      Plain heap value := by
  have hanswered : ∀ {call}, Answers heap [] call value → said numbers (jsonStringify numbers heap call value) =
      .ok ((answeredText numbers heap [] value).map (parse numbers)) := by
    intro call hanswer
    rw [jsonStringify_of_acyclic hacyclic hanswer]
    rfl
  cases hleft : value.isLeftOut with
  | true =>
      have href := not_ref_of_isLeftOut hleft
      refine iff_of_true (fun call => ?_) (plain_of_not_ref href)
      rw [said_of_acyclic hacyclic, jsonStringify, stringifyProperty_primitive href, canonicalText_primitive hdefined href]
      rfl
  | false =>
      have hcompared : Compared numbers heap [] value := compared_of_acyclic hacyclic hleft
      obtain ⟨text, htext, -, hparse⟩ := hcompared.answered
      obtain ⟨canonical, hcanonical, -⟩ : HasText numbers heap value := hasText_of_acyclic hacyclic hleft
      rw [← hcompared.canonical_iff, hcanonical, Option.bind_some, ← hparse, said_of_acyclic hacyclic, hcanonical]
      constructor
      · intro h
        have hsaid := h (answer [])
        rw [hanswered fun _ _ _ => rfl, htext] at hsaid
        rw [Except.ok.injEq, Option.map_some, Option.map_some, Option.some.injEq] at hsaid
        exact hsaid
      · intro h call
        have hplain := hcompared.canonical_iff.mp (by rw [hcanonical, Option.bind_some, h, hparse])
        rw [hanswered fun r key hreach => ?_, htext, Option.map_some, Option.map_some, h]
        rw [throughToJSON, throughToJSON, (hplain r hreach).2]

/-- The canonical text of a value is what it is to be where the value has a cycle, or reaches no array with a hole and no
object with a `toJSON` function. -/
theorem isCanonicalForm_iff (numbers : NumberText N) (heap : JsHeap N Ref) (value : HeapValue N Ref) :
    IsCanonicalForm numbers heap value ↔ HasCycle heap value ∨ Plain heap value := by
  constructor
  · intro h
    refine or_iff_not_imp_left.mpr fun hacyclic => ?_
    by_cases hdefined : value = .undefined
    · subst hdefined
      exact plain_of_not_ref (by simp)
    · exact (said_eq_iff hdefined hacyclic).mp (h.leavesOut hdefined hacyclic)
  · intro h
    refine ⟨canonicalStringify_error_iff, exists_said numbers, fun hbuilt hacyclic Ref' _ _ heap' value' => ?_, ?_⟩
    · exact canonicalStringify_eq_iff hbuilt hacyclic
    · intro hdefined hacyclic
      exact (said_eq_iff hdefined hacyclic).mpr (h.resolve_left hacyclic)

/-- The natural numbers, which JavaScript prints in decimal up to 10²¹. -/
def decimalNumbers : NumberText Nat where
  print := decimal
  read text := if decimal (digitsValue text) = text then some (digitsValue text) else none
  read_print n := by rw [digitsValue_decimal, if_pos rfl]
  print_ne_nil := decimal_ne_nil
  units n c hc := by rw [Json.isNumberUnit, isDigit_of_mem_decimal hc, Bool.true_or]

/-- The heap of the array `[, 1]`. -/
def holeFirst : JsHeap Nat Unit := fun _ => .array [none, some (.number 1)]

theorem not_hasCycle_holeFirst : ¬ HasCycle holeFirst (.ref ()) := by
  rintro ⟨inner, -, hloop⟩
  obtain ⟨next, hmember, hback⟩ := TransGen.head'_iff.mp hloop
  obtain ⟨hnext⟩ := hmember
  obtain rfl := List.mem_singleton.mp hnext
  obtain heq | ⟨last, hlast, -⟩ := ReflTransGen.cases_head hback
  · cases heq
  · cases hlast

/-- The text `[,1]`, which is no JSON. -/
example : canonicalStringify decimalNumbers holeFirst (.ref ()) = .ok (some (arrayText [[], decimal 1])) := by
  rw [canonicalStringify_of_acyclic not_hasCycle_holeFirst, canonicalText_ref not_hasCycle_holeFirst, refText_array rfl,
    List.map_cons, List.map_singleton, elementText, elementText, canonicalText_primitive (by simp) (by simp)]
  rfl

/-- Nothing stands for the hole, where `JSON.stringify` puts `null`. -/
theorem not_isCanonicalForm_holeFirst : ¬ IsCanonicalForm decimalNumbers holeFirst (.ref ()) := by
  intro h
  have hdefined : HeapValue.ref () ≠ (.undefined : HeapValue Nat Unit) := by simp
  have hplain := (said_eq_iff hdefined not_hasCycle_holeFirst).mp (h.leavesOut hdefined not_hasCycle_holeFirst)
  cases (hplain () .refl).1

end GitWarp.CanonicalText
