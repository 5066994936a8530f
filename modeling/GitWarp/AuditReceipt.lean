import GitWarp.LibraryJsValue

/-! The receipts of an audit chain. A blob can hold anything, so a receipt is a value first: the verifier checks
its nine fields one by one and then reads it as a record. -/

namespace GitWarp
open Js JsValue ExceptLoops

structure AuditReceipt where
  version : Int
  graphName : JsString
  writerId : JsString
  dataCommit : JsString
  opsDigest : JsString
  prevAuditCommit : JsString
  tickStart : Int
  tickEnd : Int
  timestamp : Int
  deriving DecidableEq

namespace JsValue

/-- `Object.keys(value)` -/
def objectKeys : JsValue → List JsString
  | .array items => (List.range items.length).map decimal
  | .object fields => fields.map Prod.fst
  | .bytes data => (List.range data.length).map decimal
  | _ => []

/-- `key in value` for a key that no prototype has. -/
def hasProperty : JsValue → JsString → Bool
  | .object fields, key => fields.any fun field => field.1 = key
  | _, _ => false

end JsValue

namespace AuditReceipt

/-- The fields of a receipt in the order of their keys. -/
def fields (receipt : AuditReceipt) : List (JsString × JsValue) :=
  [(js "dataCommit", .string receipt.dataCommit), (js "graphName", .string receipt.graphName),
    (js "opsDigest", .string receipt.opsDigest), (js "prevAuditCommit", .string receipt.prevAuditCommit),
    (js "tickEnd", ofInt receipt.tickEnd), (js "tickStart", ofInt receipt.tickStart),
    (js "timestamp", ofInt receipt.timestamp), (js "version", ofInt receipt.version),
    (js "writerId", .string receipt.writerId)]

def required : List JsString :=
  [js "dataCommit", js "graphName", js "opsDigest", js "prevAuditCommit", js "tickEnd", js "tickStart", js "timestamp",
    js "version", js "writerId"]

/-- The record that a value is read as. -/
def ofValue (value : JsValue) : AuditReceipt :=
  { version := (asInteger (value.get (js "version"))).getD 0
    graphName := (value.get (js "graphName")).text
    writerId := (value.get (js "writerId")).text
    dataCommit := (value.get (js "dataCommit")).text
    opsDigest := (value.get (js "opsDigest")).text
    prevAuditCommit := (value.get (js "prevAuditCommit")).text
    tickStart := (asInteger (value.get (js "tickStart"))).getD 0
    tickEnd := (asInteger (value.get (js "tickEnd"))).getD 0
    timestamp := (asInteger (value.get (js "timestamp"))).getD 0 }

end AuditReceipt

/-- The field checks of `validateReceiptSchema`, on a value that has the nine fields; the text of the first one
that fails. A template literal prints values, which may throw. -/
def receiptFieldError (template : JsValue → Except JsError JsString) (rec : JsValue) :
    Except JsError (Option JsString) :=
  let field := fun (name : String) => rec.get (js name)
  let tickStart := field "tickStart"
  let tickEnd := field "tickEnd"
  let start := (asInteger tickStart).getD 0
  let printed := fun (front : String) (value : JsValue) => (template value).map fun text => some (js front ++ text)
  if field "version" ≠ ofInt 1 then printed "unsupported version: " (field "version")
  else if (field "graphName").text = [] then .ok (some (js "graphName must be a non-empty string"))
  else if (field "writerId").text = [] then .ok (some (js "writerId must be a non-empty string"))
  else if (field "dataCommit").isText = false then .ok (some (js "dataCommit must be a string"))
  else if (field "opsDigest").isText = false then .ok (some (js "opsDigest must be a string"))
  else if (field "prevAuditCommit").isText = false then .ok (some (js "prevAuditCommit must be a string"))
  else if (asInteger tickStart).all (· < 1) then printed "tickStart must be integer >= 1, got " tickStart
  else if (asInteger tickEnd).all (· < start) then printed "tickEnd must be integer >= tickStart, got " tickEnd
  else if tickStart ≠ tickEnd then do
    let startText ← template tickStart
    let endText ← template tickEnd
    return some (js "v1 requires tickStart === tickEnd, got " ++ startText ++ js " !== " ++ endText)
  else if (asInteger (field "timestamp")).all (· < 0) then
    printed "timestamp must be non-negative integer, got " (field "timestamp")
  else .ok none

def validateReceiptSchema (template : JsValue → Except JsError JsString) (receipt : JsValue) :
    Except JsError (Option JsString) :=
  let keys := objectKeys receipt
  if isObject receipt = false then .ok (some (js "receipt is not an object"))
  else if keys.length ≠ 9 then .ok (some (js "expected 9 fields, got " ++ decimal keys.length))
  else
    match AuditReceipt.required.find? fun key => !hasProperty receipt key with
    | some key => .ok (some (js "missing field: " ++ key))
    | none => receiptFieldError template receipt

/-! ### The values that pass -/

/-- What a receipt of version 1 must be. -/
structure AuditReceipt.Valid (receipt : AuditReceipt) : Prop where
  version : receipt.version = 1
  graphName : receipt.graphName ≠ []
  writerId : receipt.writerId ≠ []
  tick : 1 ≤ receipt.tickStart
  oneTick : receipt.tickEnd = receipt.tickStart
  timestamp : 0 ≤ receipt.timestamp

/-- The value is an object with the fields of a valid receipt and no others. -/
structure HoldsReceipt (value : JsValue) (receipt : AuditReceipt) : Prop where
  fields : ∃ fields, value = .object fields ∧ fields.Perm receipt.fields
  valid : receipt.Valid

namespace AuditReceipt

theorem nodup_required : required.Nodup := by decide +kernel

theorem keys_fields (receipt : AuditReceipt) : receipt.fields.map Prod.fst = required := rfl

end AuditReceipt

/-- An object is its fields, read by key. -/
theorem get_of_mem {fields : List (JsString × JsValue)} (hnodup : (fields.map Prod.fst).Nodup) {key : JsString}
    {value : JsValue} (h : (key, value) ∈ fields) : (JsValue.object fields).get key = value := by
  induction fields with
  | nil => cases h
  | cons field rest ih =>
      obtain ⟨k, v⟩ := field
      rw [List.map_cons, List.nodup_cons] at hnodup
      rw [get_cons]
      rcases List.mem_cons.mp h with heq | hrest
      · cases heq
        rw [if_pos rfl]
      · have hne : k ≠ key := by
          rintro rfl
          exact hnodup.1 (List.mem_map.mpr ⟨_, hrest, rfl⟩)
        rw [if_neg hne]
        exact ih hnodup.2 hrest

theorem map_get {fields : List (JsString × JsValue)} (hnodup : (fields.map Prod.fst).Nodup) :
    (fields.map Prod.fst).map (fun key => (key, (JsValue.object fields).get key)) = fields := by
  rw [List.map_map]
  conv_rhs => rw [← List.map_id fields]
  refine List.map_congr_left fun field hfield => ?_
  exact Prod.ext rfl (get_of_mem hnodup hfield)

/-- As many keys as are required, and each of these, are these in some order. -/
theorem perm_required {keys : List JsString} (hlength : keys.length = 9) (hmem : ∀ key ∈ AuditReceipt.required, key ∈ keys) :
    keys.Perm AuditReceipt.required :=
  ((List.subperm_of_subset AuditReceipt.nodup_required hmem).perm_of_length_le (le_of_eq hlength)).symm

theorem find_missing_eq_none_iff {fields : List (JsString × JsValue)} :
    (AuditReceipt.required.find? fun key => !hasProperty (.object fields) key) = none ↔
      ∀ key ∈ AuditReceipt.required, key ∈ fields.map Prod.fst := by
  rw [List.find?_eq_none]
  refine forall₂_congr fun key _ => ?_
  rw [Bool.not_eq_true, Bool.not_eq_false', hasProperty, List.any_eq_true]
  constructor
  · rintro ⟨field, hfield, hkey⟩
    exact List.mem_map.mpr ⟨field, hfield, of_decide_eq_true hkey⟩
  · intro hkey
    obtain ⟨field, hfield, hname⟩ := List.mem_map.mp hkey
    exact ⟨field, hfield, decide_eq_true hname⟩

/-- `none`, or an integer below a bound, is what the integer checks refuse. -/
theorem asInteger_all_false {value : JsValue} {p : Int → Bool} (h : ¬ (asInteger value).all p = true) :
    ∃ n, value = ofInt n ∧ p n = false := by
  cases hvalue : asInteger value with
  | none =>
      rw [hvalue] at h
      exact absurd rfl h
  | some n =>
      rw [hvalue, Option.all_some, Bool.not_eq_true] at h
      exact ⟨n, asInteger_eq_some_iff.mp hvalue, h⟩

/-- Where no field check fails, the fields are those of a valid receipt. -/
theorem valid_of_receiptFieldError {template : JsValue → Except JsError JsString} {rec : JsValue}
    (h : receiptFieldError template rec = .ok none) :
    (AuditReceipt.ofValue rec).Valid ∧
      ∀ key ∈ AuditReceipt.required, (key, rec.get key) ∈ (AuditReceipt.ofValue rec).fields := by
  have hprinted : ∀ (front : String) (value : JsValue),
      (template value).map (fun text => some (js front ++ text)) ≠ .ok none := by
    intro front value heq
    cases hvalue : template value with
    | error err =>
        rw [hvalue] at heq
        cases heq
    | ok text =>
        rw [hvalue] at heq
        cases heq
  unfold receiptFieldError at h
  dsimp only at h
  split at h
  · exact absurd h (hprinted _ _)
  rename_i hversion
  split at h
  · cases h
  rename_i hgraph
  split at h
  · cases h
  rename_i hwriter
  split at h
  · cases h
  rename_i hdata
  split at h
  · cases h
  rename_i hops
  split at h
  · cases h
  rename_i hprev
  split at h
  · exact absurd h (hprinted _ _)
  rename_i hstart
  split at h
  · exact absurd h (hprinted _ _)
  rename_i hend
  split at h
  · obtain ⟨startText, -, hrest⟩ := bind_ok_iff.mp h
    obtain ⟨endText, -, hrest⟩ := bind_ok_iff.mp hrest
    cases hrest
  rename_i hsame
  split at h
  · exact absurd h (hprinted _ _)
  rename_i htime
  rw [not_not] at hversion hsame
  rw [Bool.not_eq_false] at hdata hops hprev
  obtain ⟨start, hstartValue, hone⟩ := asInteger_all_false hstart
  obtain ⟨time, htimeValue, hpositive⟩ := asInteger_all_false htime
  have hread : AuditReceipt.ofValue rec =
      { version := 1, graphName := (rec.get (js "graphName")).text, writerId := (rec.get (js "writerId")).text,
        dataCommit := (rec.get (js "dataCommit")).text, opsDigest := (rec.get (js "opsDigest")).text,
        prevAuditCommit := (rec.get (js "prevAuditCommit")).text, tickStart := start, tickEnd := start,
        timestamp := time } := by
    rw [AuditReceipt.ofValue, ← hsame, hversion, hstartValue, htimeValue]
    rfl
  rw [hread]
  constructor
  · exact ⟨rfl, hgraph, hwriter, Int.not_lt.mp (of_decide_eq_false hone), rfl, Int.not_lt.mp (of_decide_eq_false hpositive)⟩
  · intro key hkey
    simp only [AuditReceipt.required, List.mem_cons, List.not_mem_nil, or_false] at hkey
    rcases hkey with rfl | rfl | rfl | rfl | rfl | rfl | rfl | rfl | rfl
    · rw [isText_iff.mp hdata]; simp [AuditReceipt.fields, JsValue.text]
    · rw [text_ne_nil hgraph]; simp [AuditReceipt.fields, JsValue.text]
    · rw [isText_iff.mp hops]; simp [AuditReceipt.fields, JsValue.text]
    · rw [isText_iff.mp hprev]; simp [AuditReceipt.fields, JsValue.text]
    · rw [← hsame, hstartValue]; simp [AuditReceipt.fields]
    · rw [hstartValue]; simp [AuditReceipt.fields]
    · rw [htimeValue]; simp [AuditReceipt.fields]
    · rw [hversion]; simp [AuditReceipt.fields]
    · rw [text_ne_nil hwriter]; simp [AuditReceipt.fields, JsValue.text]

namespace HoldsReceipt

variable {value : JsValue} {receipt : AuditReceipt}

theorem get_field (h : HoldsReceipt value receipt) (key : JsString) (held : JsValue)
    (hmem : (key, held) ∈ receipt.fields) : value.get key = held := by
  obtain ⟨fields, rfl, hperm⟩ := h.fields
  have hnodup : (fields.map Prod.fst).Nodup :=
    (hperm.map Prod.fst).nodup_iff.mpr (AuditReceipt.keys_fields receipt ▸ AuditReceipt.nodup_required)
  exact get_of_mem hnodup (hperm.mem_iff.mpr hmem)

/-- The record is read back from the value. -/
theorem ofValue_eq (h : HoldsReceipt value receipt) : AuditReceipt.ofValue value = receipt := by
  unfold AuditReceipt.ofValue
  rw [h.get_field (js "version") (ofInt receipt.version) (by simp [AuditReceipt.fields]),
    h.get_field (js "graphName") (.string receipt.graphName) (by simp [AuditReceipt.fields]),
    h.get_field (js "writerId") (.string receipt.writerId) (by simp [AuditReceipt.fields]),
    h.get_field (js "dataCommit") (.string receipt.dataCommit) (by simp [AuditReceipt.fields]),
    h.get_field (js "opsDigest") (.string receipt.opsDigest) (by simp [AuditReceipt.fields]),
    h.get_field (js "prevAuditCommit") (.string receipt.prevAuditCommit) (by simp [AuditReceipt.fields]),
    h.get_field (js "tickStart") (ofInt receipt.tickStart) (by simp [AuditReceipt.fields]),
    h.get_field (js "tickEnd") (ofInt receipt.tickEnd) (by simp [AuditReceipt.fields]),
    h.get_field (js "timestamp") (ofInt receipt.timestamp) (by simp [AuditReceipt.fields])]
  rfl

/-- A value that holds a valid receipt passes every field check. -/
theorem receiptFieldError_eq (h : HoldsReceipt value receipt) (template : JsValue → Except JsError JsString) :
    receiptFieldError template value = .ok none := by
  have hvalid := h.valid
  have hversion := h.get_field (js "version") (ofInt receipt.version) (by simp [AuditReceipt.fields])
  have hgraph := h.get_field (js "graphName") (.string receipt.graphName) (by simp [AuditReceipt.fields])
  have hwriter := h.get_field (js "writerId") (.string receipt.writerId) (by simp [AuditReceipt.fields])
  have hdata := h.get_field (js "dataCommit") (.string receipt.dataCommit) (by simp [AuditReceipt.fields])
  have hops := h.get_field (js "opsDigest") (.string receipt.opsDigest) (by simp [AuditReceipt.fields])
  have hprev := h.get_field (js "prevAuditCommit") (.string receipt.prevAuditCommit) (by simp [AuditReceipt.fields])
  have hstart := h.get_field (js "tickStart") (ofInt receipt.tickStart) (by simp [AuditReceipt.fields])
  have hend := h.get_field (js "tickEnd") (ofInt receipt.tickEnd) (by simp [AuditReceipt.fields])
  have htime := h.get_field (js "timestamp") (ofInt receipt.timestamp) (by simp [AuditReceipt.fields])
  have htick : ¬ receipt.tickStart < 1 := Int.not_lt.mpr hvalid.tick
  have htimestamp : ¬ receipt.timestamp < 0 := Int.not_lt.mpr hvalid.timestamp
  unfold receiptFieldError
  simp only [hversion, hgraph, hwriter, hdata, hops, hprev, hstart, hend, htime, hvalid.version, hvalid.oneTick,
    asInteger_eq_some_iff.mpr rfl, Option.getD_some]
  simp [JsValue.text, JsValue.isText, hvalid.graphName, hvalid.writerId, htick, htimestamp]

theorem validateReceiptSchema_eq (h : HoldsReceipt value receipt) (template : JsValue → Except JsError JsString) :
    validateReceiptSchema template value = .ok none := by
  have hfields := h.receiptFieldError_eq template
  obtain ⟨fields, rfl, hperm⟩ := h.fields
  have hkeys : (fields.map Prod.fst).Perm AuditReceipt.required :=
    (hperm.map Prod.fst).trans (List.Perm.of_eq (AuditReceipt.keys_fields receipt))
  have hlength : (objectKeys (.object fields)).length = 9 := hkeys.length_eq
  unfold validateReceiptSchema
  rw [find_missing_eq_none_iff.mpr fun key hkey => hkeys.mem_iff.mpr hkey]
  simp only [isObject, hlength, hfields, Bool.true_eq_false, ne_eq, not_true_eq_false, if_false]

end HoldsReceipt

/-- Exactly the values that hold a valid receipt pass. -/
theorem validateReceiptSchema_ok_iff {template : JsValue → Except JsError JsString} {value : JsValue} :
    validateReceiptSchema template value = .ok none ↔ ∃ receipt, HoldsReceipt value receipt := by
  constructor
  · intro h
    unfold validateReceiptSchema at h
    dsimp only at h
    split at h
    · cases h
    split at h
    · cases h
    rename_i hlength
    split at h
    · cases h
    rename_i hmissing
    cases value with
    | object fields =>
        rw [not_not] at hlength
        have hkeys : (fields.map Prod.fst).Perm AuditReceipt.required :=
          perm_required hlength (find_missing_eq_none_iff.mp hmissing)
        have hnodup : (fields.map Prod.fst).Nodup := hkeys.nodup_iff.mpr AuditReceipt.nodup_required
        obtain ⟨hvalid, hheld⟩ := valid_of_receiptFieldError h
        refine ⟨_, ⟨fields, rfl, ?_⟩, hvalid⟩
        -- both lists are their keys with what is under them
        have hread := hkeys.map fun key => (key, (JsValue.object fields).get key)
        rw [map_get hnodup] at hread
        refine hread.trans (List.Perm.of_eq ?_)
        have hreceipt : ((AuditReceipt.ofValue (.object fields)).fields.map Prod.fst).Nodup := AuditReceipt.nodup_required
        rw [← map_get hreceipt, AuditReceipt.keys_fields]
        exact List.map_congr_left fun key hkey => Prod.ext rfl (get_of_mem hreceipt (hheld key hkey)).symm
    | _ => simp [AuditReceipt.required, hasProperty] at hmissing
  · rintro ⟨receipt, h⟩
    exact h.validateReceiptSchema_eq template

end GitWarp
