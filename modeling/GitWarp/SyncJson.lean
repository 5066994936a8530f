import GitWarp.LibraryJsValue
import GitWarp.SyncCheckpoints

/-! The way of a sync response over HTTP: it is canonicalized, printed as JSON and parsed again. A `Map`, such as
the context of a loaded patch, has no own keys and arrives as an empty object. -/

namespace GitWarp
open Js ExceptLoops

namespace JsValue

mutual

/-- `canonicalizeJson`; fields are listed by key already. Assigning to `__proto__` makes no own property. -/
def canonicalizeJson : JsValue → JsValue
  | .array items => .array (canonicalizeItems items)
  | .object fields => .object (canonicalizeFields fields)
  | .map _ => .object []
  | .bytes data => .object (bytesFields data)
  | .builtin _ _ => .object []
  | value => value

def canonicalizeItems : List JsValue → List JsValue
  | [] => []
  | item :: rest => canonicalizeJson item :: canonicalizeItems rest

def canonicalizeFields : List (JsString × JsValue) → List (JsString × JsValue)
  | [] => []
  | (key, value) :: rest =>
      if key = protoKey then canonicalizeFields rest
      else (key, canonicalizeJson value) :: canonicalizeFields rest

end

/-- What `JSON.parse` makes of the body that `jsonResponse` prints. -/
def overHttp (value : JsValue) : Except JsError JsValue := reparse (canonicalizeJson value)

mutual

/-- `JSON.stringify` meets a BigInt. -/
def hasBigInt : JsValue → Bool
  | .bigint _ => true
  | .array items => itemsHaveBigInt items
  | .object fields => fieldsHaveBigInt fields
  | _ => false

def itemsHaveBigInt : List JsValue → Bool
  | [] => false
  | item :: rest => hasBigInt item || itemsHaveBigInt rest

def fieldsHaveBigInt : List (JsString × JsValue) → Bool
  | [] => false
  | (key, value) :: rest => (decide (key ≠ protoKey) && hasBigInt value) || fieldsHaveBigInt rest

end

mutual

/-- A value of `null`, booleans, finite numbers, strings, arrays and plain objects, without a key `__proto__`. -/
def isJson : JsValue → Bool
  | .null => true
  | .bool _ => true
  | .number (.finite _) => true
  | .string _ => true
  | .array items => itemsAreJson items
  | .object fields => fieldsAreJson fields
  | _ => false

def itemsAreJson : List JsValue → Bool
  | [] => true
  | item :: rest => isJson item && itemsAreJson rest

def fieldsAreJson : List (JsString × JsValue) → Bool
  | [] => true
  | (key, value) :: rest => decide (key ≠ protoKey) && isJson value && fieldsAreJson rest

end

/-! ### What arrives -/

def itemsOverHttp (items : List JsValue) : Except JsError (List JsValue) :=
  reparseItems (canonicalizeItems items)

def fieldsOverHttp (fields : List (JsString × JsValue)) : Except JsError (List (JsString × JsValue)) :=
  reparseFields (canonicalizeFields fields)

theorem overHttp_array (items : List JsValue) : overHttp (.array items) = (itemsOverHttp items).map .array := by
  rw [overHttp, canonicalizeJson, reparse, itemsOverHttp]
  cases reparseItems (canonicalizeItems items) <;> rfl

theorem overHttp_object (fields : List (JsString × JsValue)) :
    overHttp (.object fields) = (fieldsOverHttp fields).map .object := by
  rw [overHttp, canonicalizeJson, reparse, fieldsOverHttp]
  cases reparseFields (canonicalizeFields fields) <;> rfl

theorem itemsOverHttp_cons (item : JsValue) (rest : List JsValue) :
    itemsOverHttp (item :: rest) = (do
      let item ← overHttp item
      let rest ← itemsOverHttp rest
      return (if item.isUndefined then .null else item) :: rest) := by
  rw [itemsOverHttp, canonicalizeItems, reparseItems]
  rfl

theorem fieldsOverHttp_cons (key : JsString) (value : JsValue) (rest : List (JsString × JsValue)) :
    fieldsOverHttp ((key, value) :: rest) =
      if key = protoKey then fieldsOverHttp rest
      else do
        let value ← overHttp value
        let rest ← fieldsOverHttp rest
        return if value.isUndefined then rest else (key, value) :: rest := by
  rw [fieldsOverHttp, canonicalizeFields]
  split
  · rfl
  · rw [reparseFields]
    rfl

@[simp] theorem overHttp_undefined : overHttp .undefined = .ok .undefined := rfl

@[simp] theorem overHttp_map (entries : List (JsString × JsValue)) : overHttp (.map entries) = .ok (.object []) := rfl

@[simp] theorem overHttp_builtin (held : JsString) (toJSON : Option JsString) :
    overHttp (.builtin held toJSON) = .ok (.object []) := rfl

@[simp] theorem overHttp_bytes (data : List UInt8) : overHttp (.bytes data) = .ok (.object (bytesFields data)) := by
  rw [overHttp, canonicalizeJson, reparse, reparseFields_bytesFields]
  rfl

theorem isUndefined_overHttp {value arrived : JsValue} (h : overHttp value = .ok arrived) :
    arrived.isUndefined = value.isUndefined := by
  cases value with
  | number n => cases n <;> cases h <;> rfl
  | bigint n => cases h
  | bytes data => rw [overHttp_bytes] at h; cases h; rfl
  | array items =>
      rw [overHttp_array] at h
      cases hitems : itemsOverHttp items with
      | error err => rw [hitems] at h; cases h
      | ok arrivedItems => rw [hitems] at h; cases h; rfl
  | object fields =>
      rw [overHttp_object] at h
      cases hfields : fieldsOverHttp fields with
      | error err => rw [hfields] at h; cases h
      | ok arrivedFields => rw [hfields] at h; cases h; rfl
  | _ => cases h; rfl

mutual

theorem exists_overHttp_iff : ∀ value : JsValue,
    (∃ arrived, overHttp value = .ok arrived) ↔ hasBigInt value = false
  | .array items => by
      rw [overHttp_array, hasBigInt, ← exists_itemsOverHttp_iff items]
      cases itemsOverHttp items <;> simp [Except.map]
  | .object fields => by
      rw [overHttp_object, hasBigInt, ← exists_fieldsOverHttp_iff fields]
      cases fieldsOverHttp fields <;> simp [Except.map]
  | .bigint n => by simp [overHttp, canonicalizeJson, reparse, hasBigInt]
  | .number (.finite x) => ⟨fun _ => rfl, fun _ => ⟨_, rfl⟩⟩
  | .number (.infinite negative) => ⟨fun _ => rfl, fun _ => ⟨_, rfl⟩⟩
  | .number .nan => ⟨fun _ => rfl, fun _ => ⟨_, rfl⟩⟩
  | .undefined => ⟨fun _ => rfl, fun _ => ⟨_, rfl⟩⟩
  | .null => ⟨fun _ => rfl, fun _ => ⟨_, rfl⟩⟩
  | .bool _ => ⟨fun _ => rfl, fun _ => ⟨_, rfl⟩⟩
  | .string _ => ⟨fun _ => rfl, fun _ => ⟨_, rfl⟩⟩
  | .map _ => ⟨fun _ => rfl, fun _ => ⟨_, rfl⟩⟩
  | .bytes data => ⟨fun _ => rfl, fun _ => ⟨_, overHttp_bytes data⟩⟩
  | .builtin _ _ => ⟨fun _ => rfl, fun _ => ⟨_, rfl⟩⟩

theorem exists_itemsOverHttp_iff : ∀ items : List JsValue,
    (∃ arrived, itemsOverHttp items = .ok arrived) ↔ itemsHaveBigInt items = false
  | [] => ⟨fun _ => rfl, fun _ => ⟨_, rfl⟩⟩
  | item :: rest => by
      rw [itemsOverHttp_cons, itemsHaveBigInt, Bool.or_eq_false_iff, ← exists_overHttp_iff item,
        ← exists_itemsOverHttp_iff rest]
      cases overHttp item <;> cases itemsOverHttp rest <;> simp [bind, Except.bind, pure, Except.pure]

theorem exists_fieldsOverHttp_iff : ∀ fields : List (JsString × JsValue),
    (∃ arrived, fieldsOverHttp fields = .ok arrived) ↔ fieldsHaveBigInt fields = false
  | [] => ⟨fun _ => rfl, fun _ => ⟨_, rfl⟩⟩
  | (key, value) :: rest => by
      rw [fieldsOverHttp_cons, fieldsHaveBigInt, Bool.or_eq_false_iff, ← exists_fieldsOverHttp_iff rest]
      by_cases hkey : key = protoKey
      · simp [hkey]
      · rw [if_neg hkey, decide_eq_true hkey, Bool.true_and, ← exists_overHttp_iff value]
        cases overHttp value <;> cases fieldsOverHttp rest <;>
          simp [bind, Except.bind, pure, Except.pure]

end

theorem length_fieldsOverHttp {fields arrived : List (JsString × JsValue)}
    (h : fieldsOverHttp fields = .ok arrived) : arrived.length ≤ fields.length := by
  induction fields generalizing arrived with
  | nil =>
      cases h
      exact le_rfl
  | cons field rest ih =>
      obtain ⟨key, value⟩ := field
      rw [fieldsOverHttp_cons] at h
      split at h
      · exact (ih h).trans (Nat.le_succ _)
      · cases hvalue : overHttp value with
        | error err => rw [hvalue] at h; cases h
        | ok v =>
            cases hrest : fieldsOverHttp rest with
            | error err => rw [hvalue, hrest] at h; cases h
            | ok vs =>
                rw [hvalue, hrest] at h
                cases h
                split
                · exact (ih hrest).trans (Nat.le_succ _)
                · exact Nat.succ_le_succ (ih hrest)

mutual

/-- Exactly the JSON values arrive unchanged. -/
theorem overHttp_eq_self_iff : ∀ value : JsValue, value.isUndefined = false →
    (overHttp value = .ok value ↔ isJson value = true)
  | .array items, _ => by
      rw [overHttp_array, isJson, ← itemsOverHttp_eq_self_iff items]
      cases itemsOverHttp items <;> simp [Except.map]
  | .object fields, _ => by
      rw [overHttp_object, isJson, ← fieldsOverHttp_eq_self_iff fields]
      cases fieldsOverHttp fields <;> simp [Except.map]
  | .bigint n, _ => by simp [overHttp, canonicalizeJson, reparse, isJson]
  | .number (.finite x), _ => ⟨fun _ => rfl, fun _ => rfl⟩
  | .number (.infinite negative), _ => by
      simp [overHttp, canonicalizeJson, reparse, isJson, pure, Except.pure]
  | .number .nan, _ => by simp [overHttp, canonicalizeJson, reparse, isJson, pure, Except.pure]
  | .null, _ => ⟨fun _ => rfl, fun _ => rfl⟩
  | .bool _, _ => ⟨fun _ => rfl, fun _ => rfl⟩
  | .string _, _ => ⟨fun _ => rfl, fun _ => rfl⟩
  | .map _, _ => by simp [isJson]
  | .bytes data, _ => by simp [isJson]
  | .builtin _ _, _ => by simp [isJson]

theorem itemsOverHttp_eq_self_iff : ∀ items : List JsValue,
    itemsOverHttp items = .ok items ↔ itemsAreJson items = true
  | [] => ⟨fun _ => rfl, fun _ => rfl⟩
  | item :: rest => by
      rw [itemsOverHttp_cons, itemsAreJson, Bool.and_eq_true, ← itemsOverHttp_eq_self_iff rest]
      cases hundefined : item.isUndefined with
      | true =>
          cases item <;> cases hundefined
          rw [overHttp_undefined]
          cases itemsOverHttp rest <;> simp [isJson, isUndefined, bind, Except.bind, pure, Except.pure]
      | false =>
          rw [← overHttp_eq_self_iff item hundefined]
          cases hitem : overHttp item with
          | error err => simp [bind, Except.bind]
          | ok arrived =>
              have hsame := (isUndefined_overHttp hitem).trans hundefined
              cases itemsOverHttp rest <;> simp [bind, Except.bind, pure, Except.pure, hsame]

theorem fieldsOverHttp_eq_self_iff : ∀ fields : List (JsString × JsValue),
    fieldsOverHttp fields = .ok fields ↔ fieldsAreJson fields = true
  | [] => ⟨fun _ => rfl, fun _ => rfl⟩
  | (key, value) :: rest => by
      have hshort : fieldsOverHttp rest ≠ .ok ((key, value) :: rest) := fun h =>
        absurd (length_fieldsOverHttp h) (by simp)
      rw [fieldsOverHttp_cons, fieldsAreJson, Bool.and_eq_true, Bool.and_eq_true, decide_eq_true_eq,
        ← fieldsOverHttp_eq_self_iff rest]
      by_cases hkey : key = protoKey
      · simp [hkey, hkey ▸ hshort]
      · rw [if_neg hkey]
        cases hundefined : value.isUndefined with
        | true =>
            cases value <;> cases hundefined
            rw [overHttp_undefined]
            cases hrest : fieldsOverHttp rest with
            | error err => simp [bind, Except.bind]
            | ok vs =>
                rw [hrest] at hshort
                simpa [isJson, isUndefined, bind, Except.bind, pure, Except.pure] using hshort
        | false =>
            rw [← overHttp_eq_self_iff value hundefined]
            cases hvalue : overHttp value with
            | error err => simp [bind, Except.bind]
            | ok arrived =>
                have hsame := (isUndefined_overHttp hvalue).trans hundefined
                cases fieldsOverHttp rest <;> simp [bind, Except.bind, pure, Except.pure, hsame, hkey]

end

end JsValue

end GitWarp
