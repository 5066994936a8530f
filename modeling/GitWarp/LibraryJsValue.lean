import GitWarp.LibraryExceptLoops
import GitWarp.LibraryJsObject
import Mathlib.Data.Rat.Init

/-! The values of JavaScript that hold data, and what a JSON text keeps of them.

The order of an object's keys is no data: its fields are listed by key. A number is finite, where zero has no
sign, or one of the three others. -/

namespace GitWarp
open Js

inductive JsNumber where
  | finite (value : Rat)
  | infinite (negative : Bool)
  | nan
  deriving DecidableEq

inductive JsValue where
  | undefined
  | null
  | bool (b : Bool)
  | number (n : JsNumber)
  | bigint (n : Int)
  | string (s : JsString)
  | array (items : List JsValue)
  | object (fields : List (JsString × JsValue))
  /-- A `Map` with string keys. -/
  | map (entries : List (JsString × JsValue))
  /-- A `Uint8Array`. -/
  | bytes (data : List UInt8)
  /-- A `Date`, a `Set` or another instance without own enumerable properties: what it holds, and what its
  `toJSON` returns when it has one. -/
  | builtin (held : JsString) (toJSON : Option JsString)

namespace JsValue

def isUndefined : JsValue → Bool
  | .undefined => true
  | _ => false

def ofInt (n : Int) : JsValue := .number (.finite n)

/-- `typeof value === 'object'` for a value that is not falsy. -/
def isObject : JsValue → Bool
  | .array _ | .object _ | .map _ | .bytes _ | .builtin _ _ => true
  | _ => false

/-- The integer that `Number.isInteger` accepts. -/
def asInteger : JsValue → Option Int
  | .number (.finite value) => if value.den = 1 then some value.num else none
  | _ => none

/-- The string a value is taken for. -/
def text : JsValue → JsString
  | .string s => s
  | _ => []

def isText : JsValue → Bool
  | .string _ => true
  | _ => false

/-- `typeof value` -/
def typeOf : JsValue → String
  | .undefined => "undefined"
  | .bool _ => "boolean"
  | .number _ => "number"
  | .bigint _ => "bigint"
  | .string _ => "string"
  | _ => "object"

/-- Whether a condition takes the value for true. -/
def truthy : JsValue → Bool
  | .undefined | .null => false
  | .bool b => b
  | .number (.finite value) => value ≠ 0
  | .number (.infinite _) => true
  | .number .nan => false
  | .bigint n => n ≠ 0
  | .string s => !s.isEmpty
  | _ => true

/-- `a || b` -/
def orElse (a b : JsValue) : JsValue := if a.truthy then a else b

/-- `value[key]` of an object. -/
def get : JsValue → JsString → JsValue
  | .object fields, key => ((fields.find? fun field => field.1 = key).map Prod.snd).getD .undefined
  | _, _ => .undefined

theorem get_cons (k key : JsString) (value : JsValue) (rest : List (JsString × JsValue)) :
    (JsValue.object ((k, value) :: rest)).get key = if k = key then value else (JsValue.object rest).get key := by
  rw [get, get, List.find?_cons]
  by_cases hkey : k = key
  · simp [hkey]
  · simp [hkey]

theorem get_of_not_mem {fields : List (JsString × JsValue)} {key : JsString} (h : key ∉ fields.map Prod.fst) :
    (JsValue.object fields).get key = .undefined := by
  have hnone : fields.find? (fun field => field.1 = key) = none := by
    rw [List.find?_eq_none]
    intro field hfield heq
    exact h (List.mem_map.mpr ⟨field, hfield, of_decide_eq_true heq⟩)
  rw [get, hnone]
  rfl

/-- A value with a defined property is an object. -/
theorem exists_fields_of_get {value : JsValue} {key : JsString} (h : value.get key ≠ .undefined) :
    ∃ fields, value = .object fields := by
  cases value with
  | object fields => exact ⟨fields, rfl⟩
  | _ => exact absurd rfl h

theorem exists_field_of_get (fields : List (JsString × JsValue)) (key : JsString) :
    (JsValue.object fields).get key = .undefined ∨ ∃ field ∈ fields, (JsValue.object fields).get key = field.2 := by
  induction fields with
  | nil => exact .inl rfl
  | cons first rest ih =>
      obtain ⟨k, v⟩ := first
      rw [get_cons]
      split
      · exact .inr ⟨(k, v), List.mem_cons_self, rfl⟩
      · refine ih.imp_right ?_
        rintro ⟨field, hfield, hget⟩
        exact ⟨field, List.mem_cons_of_mem _ hfield, hget⟩

theorem eq_undefined {value : JsValue} (h : value.isUndefined = true) : value = .undefined := by
  cases value with
  | undefined => rfl
  | _ => cases h

def bytesFields (data : List UInt8) : List (JsString × JsValue) :=
  data.zipIdx.map fun item => (decimal item.2, .number (.finite item.1.toNat))

mutual

/-- `JSON.parse(JSON.stringify(value))`, or `undefined` where `JSON.stringify` returns that. -/
def reparse : JsValue → Except JsError JsValue
  | .undefined => return .undefined
  | .null => return .null
  | .bool b => return .bool b
  | .number (.finite value) => return .number (.finite value)
  | .number _ => return .null
  | .bigint _ => .error ⟨"TypeError", "Do not know how to serialize a BigInt"⟩
  | .string s => return .string s
  | .array items => return .array (← reparseItems items)
  | .object fields => return .object (← reparseFields fields)
  | .map _ => return .object []
  | .bytes data => return .object (bytesFields data)
  | .builtin _ (some text) => return .string text
  | .builtin _ none => return .object []

/-- In an array `null` stands for what is left out elsewhere. -/
def reparseItems : List JsValue → Except JsError (List JsValue)
  | [] => return []
  | item :: rest => do
      let item ← reparse item
      let rest ← reparseItems rest
      return (if item.isUndefined then .null else item) :: rest

def reparseFields : List (JsString × JsValue) → Except JsError (List (JsString × JsValue))
  | [] => return []
  | (key, value) :: rest => do
      let value ← reparse value
      let rest ← reparseFields rest
      return if value.isUndefined then rest else (key, value) :: rest

end

theorem reparseFields_bytesFields (data : List UInt8) :
    reparseFields (bytesFields data) = .ok (bytesFields data) := by
  unfold bytesFields
  induction data.zipIdx with
  | nil => rfl
  | cons item rest ih =>
      rw [List.map_cons, reparseFields, ih]
      rfl

mutual

/-- Equality of the data, not of the references. -/
def sameData : JsValue → JsValue → Bool
  | .undefined, .undefined => true
  | .null, .null => true
  | .bool a, .bool b => a = b
  | .number a, .number b => a = b
  | .bigint a, .bigint b => a = b
  | .string a, .string b => a = b
  | .array items, .array others => sameItems items others
  | .object fields, .object others => sameFields fields others
  | .map entries, .map others => sameFields entries others
  | .bytes a, .bytes b => a = b
  | .builtin a text, .builtin b text' => a = b && text = text'
  | _, _ => false

def sameItems : List JsValue → List JsValue → Bool
  | [], [] => true
  | item :: rest, other :: others => sameData item other && sameItems rest others
  | _, _ => false

def sameFields : List (JsString × JsValue) → List (JsString × JsValue) → Bool
  | [], [] => true
  | (key, value) :: rest, (key', value') :: others => key = key' && sameData value value' && sameFields rest others
  | _, _ => false

end

mutual

theorem sameData_iff (a b : JsValue) : sameData a b = true ↔ a = b := by
  cases a with
  | array items =>
      cases b with
      | array others => rw [sameData, sameItems_iff items others, array.injEq]
      | _ => exact iff_of_false Bool.false_ne_true nofun
  | object fields =>
      cases b with
      | object others => rw [sameData, sameFields_iff fields others, object.injEq]
      | _ => exact iff_of_false Bool.false_ne_true nofun
  | map entries =>
      cases b with
      | map others => rw [sameData, sameFields_iff entries others, map.injEq]
      | _ => exact iff_of_false Bool.false_ne_true nofun
  | _ => cases b <;> simp [sameData]

theorem sameItems_iff (items others : List JsValue) : sameItems items others = true ↔ items = others := by
  cases items with
  | nil => cases others <;> simp [sameItems]
  | cons item rest =>
      cases others with
      | nil => simp [sameItems]
      | cons other others =>
          rw [sameItems, Bool.and_eq_true, sameData_iff item other, sameItems_iff rest others, List.cons.injEq]

theorem sameFields_iff (fields others : List (JsString × JsValue)) : sameFields fields others = true ↔ fields = others := by
  cases fields with
  | nil => cases others <;> simp [sameFields]
  | cons field rest =>
      obtain ⟨key, value⟩ := field
      cases others with
      | nil => simp [sameFields]
      | cons other others =>
          obtain ⟨key', value'⟩ := other
          rw [sameFields, Bool.and_eq_true, Bool.and_eq_true, decide_eq_true_iff, sameData_iff value value',
            sameFields_iff rest others, List.cons.injEq, Prod.mk.injEq]

end

instance : DecidableEq JsValue := fun a b => decidable_of_iff _ (sameData_iff a b)

end JsValue

open JsValue

theorem asInteger_eq_some_iff {value : JsValue} {n : Int} : asInteger value = some n ↔ value = ofInt n := by
  constructor
  · intro h
    unfold asInteger at h
    split at h
    · rename_i q
      split at h
      · rename_i hden
        rw [Option.some.injEq] at h
        rw [ofInt, ← h, Rat.coe_int_num_of_den_eq_one hden]
      · cases h
    · cases h
  · rintro rfl
    rfl

theorem isText_iff {value : JsValue} : value.isText = true ↔ value = .string value.text := by
  cases value with
  | string s => exact iff_of_true rfl rfl
  | _ => exact iff_of_false Bool.false_ne_true nofun

/-- A string that is not empty. -/
theorem text_ne_nil {value : JsValue} (h : value.text ≠ []) : value = .string value.text := by
  cases value with
  | string s => rfl
  | _ => exact absurd rfl h

end GitWarp
