import GitWarp.LibraryJsValue
import GitWarp.LibrarySortedFields
import GitWarp.SyncJsonResponses
import GitWarp.TrustReading

/-! The codec of stored objects: before a value is written its keys are sorted, where a `Map` is written as an
object and an own `__proto__` key is lost. What is written reads back as it is. -/

namespace GitWarp
open Js

namespace JsValue

mutual

/-- `sortKeys`; an object with a `constructor` of its own is not taken for a plain one. -/
def sortKeys : JsValue → JsValue
  | .array items => .array (sortKeysOfItems items)
  | .object fields =>
      if ((JsValue.object fields).get (js "constructor")).isUndefined then .object (sortKeysOfFields fields)
      else .object fields
  | .map entries => .object (sortKeysOfFields entries)
  | value => value

def sortKeysOfItems : List JsValue → List JsValue
  | [] => []
  | item :: rest => sortKeys item :: sortKeysOfItems rest

/-- `sorted['__proto__'] = value` writes no key. -/
def sortKeysOfFields : List (JsString × JsValue) → List (JsString × JsValue)
  | [] => []
  | (key, value) :: rest =>
      if key = protoKey then sortKeysOfFields rest else SortedFields.put key (sortKeys value) (sortKeysOfFields rest)

end

theorem get_object_put (fields : List (JsString × JsValue)) (key key' : JsString) (value : JsValue) :
    (JsValue.object (SortedFields.put key value fields)).get key' =
      if key' = key then value else (JsValue.object fields).get key' := by
  have hlookup : ∀ fields : List (JsString × JsValue),
      (JsValue.object fields).get key' = (JsMap.lookup fields key').getD .undefined := by
    intro fields
    induction fields with
    | nil => rfl
    | cons field rest ih =>
        obtain ⟨k, v⟩ := field
        rw [get_cons, JsMap.lookup_cons, ih]
        by_cases hkey : k = key'
        · rw [if_pos hkey, if_pos hkey.symm]
          rfl
        · rw [if_neg hkey, if_neg fun h => hkey h.symm]
  rw [hlookup, hlookup, SortedFields.lookup_put]
  split <;> rfl

theorem get_sortKeysOfFields (fields : List (JsString × JsValue)) {key : JsString} (hkey : key ≠ protoKey) :
    (JsValue.object (sortKeysOfFields fields)).get key = sortKeys ((JsValue.object fields).get key) := by
  induction fields with
  | nil => rfl
  | cons field rest ih =>
      obtain ⟨k, v⟩ := field
      rw [sortKeysOfFields, get_cons]
      split
      · rename_i hproto
        rw [if_neg fun h => hkey (h.symm.trans hproto), ih]
      · rw [get_object_put, ih]
        by_cases hk : k = key
        · rw [if_pos hk, if_pos hk.symm]
        · rw [if_neg hk, if_neg fun h => hk h.symm]

theorem exists_of_mem_sortKeysOfFields {fields : List (JsString × JsValue)} {field : JsString × JsValue}
    (h : field ∈ sortKeysOfFields fields) : ∃ field' ∈ fields, field.1 = field'.1 ∧ field.2 = sortKeys field'.2 := by
  induction fields with
  | nil => cases h
  | cons first rest ih =>
      obtain ⟨k, v⟩ := first
      have hrest : field ∈ sortKeysOfFields rest →
          ∃ field' ∈ (k, v) :: rest, field.1 = field'.1 ∧ field.2 = sortKeys field'.2 := fun hmem => by
        obtain ⟨field', hfield', hsame⟩ := ih hmem
        exact ⟨field', List.mem_cons_of_mem _ hfield', hsame⟩
      rw [sortKeysOfFields] at h
      split at h
      · exact hrest h
      · rcases SortedFields.mem_put h with rfl | hmem
        · exact ⟨(k, v), List.mem_cons_self, rfl, rfl⟩
        · exact hrest hmem

/-- The fields of an object are written with their keys sorted, or as they are. -/
theorem get_sortKeys (fields : List (JsString × JsValue)) {key : JsString} (hkey : key ≠ protoKey) :
    (sortKeys (.object fields)).get key = sortKeys ((JsValue.object fields).get key) ∨
      (sortKeys (.object fields)).get key = (JsValue.object fields).get key := by
  rw [sortKeys]
  split
  · exact .inl (get_sortKeysOfFields fields hkey)
  · exact .inr rfl

theorem asString_sortKeys (value : JsValue) : asString (sortKeys value) = asString value := by
  cases value with
  | object fields =>
      rw [sortKeys]
      split <;> rfl
  | _ => rfl

theorem asString_get_sortKeys (fields : List (JsString × JsValue)) {key : JsString} (hkey : key ≠ protoKey) :
    asString ((sortKeys (.object fields)).get key) = asString ((JsValue.object fields).get key) := by
  rcases get_sortKeys fields hkey with h | h
  · rw [h, asString_sortKeys]
  · rw [h]

/-- A value that is no container is written as it is. -/
theorem get_sortKeys_of_leaf {raw leaf : JsValue} {key : JsString} (h : raw.get key = leaf)
    (hdefined : leaf ≠ .undefined) (hleaf : sortKeys leaf = leaf) (hkey : key ≠ protoKey) :
    (sortKeys raw).get key = leaf := by
  obtain ⟨fields, rfl⟩ := exists_fields_of_get (h ▸ hdefined)
  rcases get_sortKeys fields hkey with hget | hget
  · rw [hget, h, hleaf]
  · rw [hget, h]

end JsValue

end GitWarp
