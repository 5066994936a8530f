import GitWarp.LibraryJson
import GitWarp.LibraryJsValue
import GitWarp.LibrarySortedFields

/-! Canonical JSON: the data that a value's canonical text says. Fields that are undefined are left out, the
others are sorted by key. -/

namespace GitWarp
open Js

namespace JsValue

def sortFields : List (JsString × Json) → List (JsString × Json)
  | [] => []
  | (key, value) :: rest => SortedFields.put key value (sortFields rest)

mutual

/-- The data that `canonicalStringify` prints. -/
def canonicalData : JsValue → Except JsError Json
  | .undefined => return .null
  | .null => return .null
  | .bool b => return .bool b
  | .number (.finite value) => return .number value
  | .number _ => return .null
  | .bigint _ => .error ⟨"TypeError", "Do not know how to serialize a BigInt"⟩
  | .string s => return .string s
  | .array items => return .array (← canonicalItems items)
  | .object fields => return .object (← canonicalFields fields)
  | .map _ => return .object []
  | .bytes data => return .object (sortFields (data.zipIdx.map fun item => (decimal item.2, .number item.1.toNat)))
  | .builtin _ _ => return .object []

def canonicalItems : List JsValue → Except JsError (List Json)
  | [] => return []
  | item :: rest => return (← canonicalData item) :: (← canonicalItems rest)

/-- The first of two fields with one key is the one that is read. -/
def canonicalFields : List (JsString × JsValue) → Except JsError (List (JsString × Json))
  | [] => return []
  | (key, value) :: rest => do
      let value' ← canonicalData value
      let rest' ← canonicalFields rest
      return if value.isUndefined then rest'.filter fun field => field.1 ≠ key
        else SortedFields.put key value' rest'

end

/-- What the canonical text says of one field. -/
def canonicalField (value : JsValue) : Option (Except JsError Json) :=
  if value.isUndefined then none else some (canonicalData value)

theorem lookup_filter_ne (fields : List (JsString × Json)) (key key' : JsString) :
    JsMap.lookup (fields.filter fun field => field.1 ≠ key) key' =
      if key' = key then none else JsMap.lookup fields key' := by
  induction fields with
  | nil => simp [JsMap.lookup]
  | cons first rest ih =>
      obtain ⟨k, v⟩ := first
      by_cases hk : k = key
      · subst hk
        rw [List.filter_cons_of_neg (by simp), ih, JsMap.lookup_cons]
        by_cases hkey : key' = k
        · simp [hkey]
        · simp [hkey]
      · rw [List.filter_cons_of_pos (by simpa using hk), JsMap.lookup_cons, ih, JsMap.lookup_cons]
        by_cases hkey : key' = k
        · subst hkey
          simp [hk]
        · simp [hkey]

theorem canonicalFields_spec {fields : List (JsString × JsValue)} {canonical : List (JsString × Json)}
    (h : canonicalFields fields = .ok canonical) :
    SortedFields.Sorted canonical ∧
      ∀ key, canonicalField ((JsValue.object fields).get key) = (JsMap.lookup canonical key).map .ok := by
  induction fields generalizing canonical with
  | nil =>
      cases h
      exact ⟨List.Pairwise.nil, fun _ => rfl⟩
  | cons field rest ih =>
      obtain ⟨k, v⟩ := field
      rw [canonicalFields] at h
      cases hvalue : canonicalData v with
      | error err =>
          rw [hvalue] at h
          cases h
      | ok value' =>
          cases hrest : canonicalFields rest with
          | error err =>
              rw [hvalue, hrest] at h
              cases h
          | ok rest' =>
              obtain ⟨hsorted, hget⟩ := ih hrest
              rw [hvalue, hrest] at h
              simp only [bind, Except.bind, pure, Except.pure, Except.ok.injEq] at h
              split at h
              · rename_i hundefined
                subst h
                refine ⟨hsorted.filter _, fun key => ?_⟩
                rw [get_cons, lookup_filter_ne]
                by_cases hkey : key = k
                · simp [hkey, canonicalField, hundefined]
                · rw [if_neg fun heq => hkey heq.symm, if_neg hkey, hget]
              · rename_i hdefined
                subst h
                refine ⟨hsorted.put k value', fun key => ?_⟩
                rw [get_cons, SortedFields.lookup_put]
                by_cases hkey : key = k
                · simp [hkey, canonicalField, hdefined, hvalue]
                · rw [if_neg fun heq => hkey heq.symm, if_neg hkey, hget]

/-- Two objects have one canonical text when each field says the same in both. -/
theorem canonicalFields_eq_iff {fields fields' : List (JsString × JsValue)} {canonical canonical' : List (JsString × Json)}
    (h : canonicalFields fields = .ok canonical) (h' : canonicalFields fields' = .ok canonical') :
    canonical = canonical' ↔ ∀ key, canonicalField ((JsValue.object fields).get key) =
      canonicalField ((JsValue.object fields').get key) := by
  obtain ⟨hsorted, hget⟩ := canonicalFields_spec h
  obtain ⟨hsorted', hget'⟩ := canonicalFields_spec h'
  constructor
  · rintro rfl key
    rw [hget, hget']
  · intro hfields
    refine SortedFields.eq_of_lookup hsorted hsorted' fun key => ?_
    have hkey := hfields key
    rw [hget, hget'] at hkey
    exact Option.map_injective (fun a b hab => Except.ok.inj hab) hkey

/-- An object is canonicalized where each of its fields is. -/
theorem exists_canonicalFields_iff {fields : List (JsString × JsValue)} :
    (∃ canonical, canonicalFields fields = .ok canonical) ↔ ∀ field ∈ fields, ∃ value, canonicalData field.2 = .ok value := by
  induction fields with
  | nil => exact ⟨fun _ => nofun, fun _ => ⟨[], rfl⟩⟩
  | cons field rest ih =>
      obtain ⟨k, v⟩ := field
      rw [List.forall_mem_cons, ← ih, canonicalFields]
      cases hvalue : canonicalData v with
      | error err =>
          refine iff_of_false ?_ ?_
          · rintro ⟨canonical, h⟩
            cases h
          · rintro ⟨⟨value, h⟩, -⟩
            cases h
      | ok value' =>
          cases hrest : canonicalFields rest with
          | error err =>
              refine iff_of_false ?_ ?_
              · rintro ⟨canonical, h⟩
                cases h
              · rintro ⟨-, ⟨canonical, h⟩⟩
                cases h
          | ok rest' => exact iff_of_true ⟨_, rfl⟩ ⟨⟨value', rfl⟩, rest', rfl⟩

theorem canonicalFields_bytesFields (data : List UInt8) : canonicalFields (bytesFields data) =
    .ok (sortFields (data.zipIdx.map fun item => (decimal item.2, .number item.1.toNat))) := by
  unfold bytesFields
  induction data.zipIdx with
  | nil => rfl
  | cons item rest ih =>
      rw [List.map_cons, canonicalFields, ih]
      rfl

end JsValue

end GitWarp
