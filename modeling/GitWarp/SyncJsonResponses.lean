import GitWarp.ReducerValues
import GitWarp.SyncJson

/-! Sync responses as values, read back from a parsed body. -/

namespace GitWarp
open Js ExceptLoops JsValue

/-- A property value: anything but `undefined`, for which `none` stands. -/
abbrev JsData := {value : JsValue // value.isUndefined = false}

/-! ### A response as a value -/

def dataValue : Option JsData → JsValue
  | some data => data.1
  | none => .undefined

def stringValue : Option JsString → JsValue
  | some s => .string s
  | none => .undefined

def intValue (n : Int) : JsValue := .number (.finite n)

def stringsValue (strings : List JsString) : JsValue := .array (strings.map .string)

def dotValue (dot : Dot) : JsValue :=
  .object [(js "counter", intValue dot.counter), (js "writerId", .string dot.writerId)]

def opValue : OpV2 JsData → JsValue
  | .nodeAdd node dot =>
      .object [(js "dot", dotValue dot), (js "node", .string node), (js "type", .string (js "NodeAdd"))]
  | .nodeRemove node observedDots =>
      .object [(js "node", stringValue node), (js "observedDots", stringsValue observedDots),
        (js "type", .string (js "NodeRemove"))]
  | .edgeAdd edge dot =>
      .object [(js "dot", dotValue dot), (js "from", .string edge.fromId), (js "label", .string edge.label),
        (js "to", .string edge.toId), (js "type", .string (js "EdgeAdd"))]
  | .edgeRemove fromId toId label observedDots =>
      .object [(js "from", stringValue fromId), (js "label", stringValue label),
        (js "observedDots", stringsValue observedDots), (js "to", stringValue toId),
        (js "type", .string (js "EdgeRemove"))]
  | .propSet node key value =>
      .object [(js "key", .string key), (js "node", .string node), (js "type", .string (js "PropSet")),
        (js "value", dataValue value)]
  | .nodePropSet node key value =>
      .object [(js "key", .string key), (js "node", .string node), (js "type", .string (js "NodePropSet")),
        (js "value", dataValue value)]
  | .edgePropSet edge key value =>
      .object [(js "from", .string edge.fromId), (js "key", .string key), (js "label", .string edge.label),
        (js "to", .string edge.toId), (js "type", .string (js "EdgePropSet")), (js "value", dataValue value)]
  | .blobValue node oid =>
      .object [(js "node", .string node), (js "oid", .string oid), (js "type", .string (js "BlobValue"))]
  | .unknown type => .object [(js "type", .string type)]

def contextValue : PatchContext → JsValue
  | .map vv => .map (vv.entries.map fun entry => (entry.1, intValue entry.2))
  | .record counters => .object (counters.map fun entry => (entry.1, intValue entry.2))

def patchValue (patch : PatchV2 JsData) : JsValue :=
  .object [(js "context", contextValue patch.context), (js "lamport", intValue patch.lamport),
    (js "ops", .array (patch.ops.map opValue)), (js "schema", intValue patch.schema),
    (js "writer", .string patch.writer)]

def patchEntryValue (entry : SyncPatch JsData) : JsValue :=
  .object [(js "patch", patchValue entry.patch), (js "sha", .string entry.sha),
    (js "writerId", .string entry.writerId)]

def skippedValue (skipped : SkippedWriter) : JsValue :=
  .object [(js "localSha", .string skipped.localSha), (js "reason", .string (js skipped.reason)),
    (js "remoteSha", .string skipped.remoteSha), (js "writerId", .string skipped.writerId)]

def frontierValue (frontier : PlainObject Sha) : JsValue :=
  .object (frontier.entries.map fun entry => (entry.1, .string entry.2))

def responseValue (response : SyncResponse JsData) : JsValue :=
  .object [(js "frontier", frontierValue response.frontier),
    (js "patches", .array (response.patches.map patchEntryValue)),
    (js "skippedWriters", .array (response.skippedWriters.map skippedValue)),
    (js "type", .string (js "sync-response"))]

/-! ### Reading a body -/

def asData (value : JsValue) : Option JsData :=
  if h : value.isUndefined = false then some ⟨value, h⟩ else none

def asString : JsValue → Option JsString
  | .string s => some s
  | _ => none

def asInt : JsValue → Option Int
  | .number (.finite value) => if value.den = 1 then some value.num else none
  | _ => none

def asNat (value : JsValue) : Option Nat := do
  let n ← asInt value
  if 0 ≤ n then some n.toNat else none

def asArray : JsValue → Option (List JsValue)
  | .array items => some items
  | _ => none

def asFields : JsValue → Option (List (JsString × JsValue))
  | .object fields => some fields
  | _ => none

def asDot (value : JsValue) : Option Dot := do
  return ⟨← asString (value.get (js "writerId")), ← asInt (value.get (js "counter"))⟩

def asStrings (value : JsValue) : Option (List JsString) := do
  (← asArray value).mapM asString

def asEdge (value : JsValue) : Option EdgeRef := do
  return ⟨← asString (value.get (js "from")), ← asString (value.get (js "to")),
    ← asString (value.get (js "label"))⟩

/-- The operation of a known type, when its fields are there. -/
def asKnownOp (type : JsString) (value : JsValue) : Option (OpV2 JsData) :=
  if type = js "NodeAdd" then do
    return .nodeAdd (← asString (value.get (js "node"))) (← asDot (value.get (js "dot")))
  else if type = js "NodeRemove" then do
    return .nodeRemove (asString (value.get (js "node"))) (← asStrings (value.get (js "observedDots")))
  else if type = js "EdgeAdd" then do
    return .edgeAdd (← asEdge value) (← asDot (value.get (js "dot")))
  else if type = js "EdgeRemove" then do
    return .edgeRemove (asString (value.get (js "from"))) (asString (value.get (js "to")))
      (asString (value.get (js "label"))) (← asStrings (value.get (js "observedDots")))
  else if type = js "PropSet" then do
    return .propSet (← asString (value.get (js "node"))) (← asString (value.get (js "key")))
      (asData (value.get (js "value")))
  else if type = js "NodePropSet" then do
    return .nodePropSet (← asString (value.get (js "node"))) (← asString (value.get (js "key")))
      (asData (value.get (js "value")))
  else if type = js "EdgePropSet" then do
    return .edgePropSet (← asEdge value) (← asString (value.get (js "key")))
      (asData (value.get (js "value")))
  else if type = js "BlobValue" then do
    return .blobValue (← asString (value.get (js "node"))) (← asString (value.get (js "oid")))
  else none

/-- `opSchema` asks for a type only. -/
def asOp (value : JsValue) : Option (OpV2 JsData) := do
  let type ← asString (value.get (js "type"))
  return (asKnownOp type value).getD (.unknown type)

def asContext (value : JsValue) : Option PatchContext := do
  let counters ← (← asFields value).mapM fun field => do return (field.1, ← asInt field.2)
  return .record counters

def asPatch (value : JsValue) : Option (PatchV2 JsData) := do
  let schema ← asNat (value.get (js "schema"))
  let writer ← asString (value.get (js "writer"))
  let lamport ← asNat (value.get (js "lamport"))
  let context ← asContext (value.get (js "context"))
  let ops ← (← asArray (value.get (js "ops"))).mapM asOp
  return ⟨schema, writer, lamport, context, ops⟩

def asPatchEntry (value : JsValue) : Option (SyncPatch JsData) := do
  return ⟨← asString (value.get (js "writerId")), ← asString (value.get (js "sha")),
    ← asPatch (value.get (js "patch"))⟩

def asFrontier (value : JsValue) : Option (PlainObject Sha) := do
  let entries ← (← asFields value).mapM fun field => do return (field.1, ← asString field.2)
  return entries.foldl (fun obj entry => obj.assign entry.1 entry.2) PlainObject.empty

/-- The response in a body that has the shape of one. Nothing reads its `skippedWriters`. -/
def asResponse (value : JsValue) : Option (SyncResponse JsData) := do
  if asString (value.get (js "type")) ≠ some (js "sync-response") then none
  else do
    let frontier ← asFrontier (value.get (js "frontier"))
    let patches ← (← asArray (value.get (js "patches"))).mapM asPatchEntry
    return ⟨frontier, patches, []⟩

/-! ### Lists and objects -/

@[simp] theorem overHttp_string (s : JsString) : overHttp (.string s) = .ok (.string s) := rfl

@[simp] theorem overHttp_intValue (n : Int) : overHttp (intValue n) = .ok (intValue n) := rfl

@[simp] theorem asString_string (s : JsString) : asString (.string s) = some s := rfl

@[simp] theorem asInt_intValue (n : Int) : asInt (intValue n) = some n := rfl

@[simp] theorem asNat_intValue (n : Nat) : asNat (intValue n) = some n := by
  simp [asNat]

/-- Items that arrive and can be read one by one. -/
theorem itemsOverHttp_map {α β : Type} {write : α → JsValue} {read : JsValue → Option β} {result : α → β}
    {xs : List α} (hdefined : ∀ x ∈ xs, (write x).isUndefined = false)
    (h : ∀ x ∈ xs, ∃ arrived, overHttp (write x) = .ok arrived ∧ read arrived = some (result x)) :
    ∃ arrived, itemsOverHttp (xs.map write) = .ok arrived ∧ arrived.mapM read = some (xs.map result) := by
  induction xs with
  | nil => exact ⟨[], rfl, rfl⟩
  | cons x rest ih =>
      obtain ⟨arrived, hx, hread⟩ := h x (List.mem_cons_self ..)
      obtain ⟨arrivedRest, hrest, hreadRest⟩ := ih (fun y hy => hdefined y (List.mem_cons_of_mem _ hy))
        (fun y hy => h y (List.mem_cons_of_mem _ hy))
      have hsame := (isUndefined_overHttp hx).trans (hdefined x (List.mem_cons_self ..))
      refine ⟨arrived :: arrivedRest, ?_, ?_⟩
      · rw [List.map_cons, itemsOverHttp_cons, hx, hrest]
        simp [bind, Except.bind, pure, Except.pure, hsame]
      · rw [List.mapM_cons, hread, hreadRest]
        rfl

/-- Fields arrive one by one. -/
theorem get_overHttp {fields : List (JsString × JsValue)} {arrived : JsValue}
    (hnodup : (fields.map Prod.fst).Nodup) (h : overHttp (.object fields) = .ok arrived) {key : JsString}
    (hkey : key ≠ protoKey) : overHttp ((JsValue.object fields).get key) = .ok (arrived.get key) := by
  have hloop : ∀ (fields arrived : List (JsString × JsValue)), (fields.map Prod.fst).Nodup →
      fieldsOverHttp fields = .ok arrived →
      overHttp ((JsValue.object fields).get key) = .ok ((JsValue.object arrived).get key) := by
    intro fields
    induction fields with
    | nil =>
        intro arrived _ hfields
        cases hfields
        rfl
    | cons field rest ih =>
        obtain ⟨k, value⟩ := field
        intro arrived hnodup hfields
        rw [List.map_cons, List.nodup_cons] at hnodup
        rw [fieldsOverHttp_cons] at hfields
        rw [get_cons]
        split at hfields
        · rename_i hproto
          rw [if_neg (hproto ▸ hkey.symm)]
          exact ih arrived hnodup.2 hfields
        · cases hvalue : overHttp value with
          | error err => rw [hvalue] at hfields; cases hfields
          | ok v =>
              cases hrest : fieldsOverHttp rest with
              | error err => rw [hvalue, hrest] at hfields; cases hfields
              | ok vs =>
                  have hget := ih vs hnodup.2 hrest
                  rw [hvalue, hrest] at hfields
                  cases hfields
                  by_cases hk : k = key
                  · rw [if_pos hk, hvalue]
                    split
                    · rename_i hundefined
                      rw [get_of_not_mem (hk ▸ hnodup.1)] at hget
                      cases eq_undefined hundefined
                      exact hget
                    · rw [get_cons, if_pos hk]
                  · rw [if_neg hk, hget]
                    split
                    · rfl
                    · rw [get_cons, if_neg hk]
  rw [overHttp_object] at h
  cases hfields : fieldsOverHttp fields with
  | error err => rw [hfields] at h; cases h
  | ok arrivedFields =>
      rw [hfields] at h
      cases h
      exact hloop fields arrivedFields hnodup hfields

/-! ### BigInts -/

theorem itemsHaveBigInt_map {α : Type} (write : α → JsValue) (xs : List α) :
    itemsHaveBigInt (xs.map write) = xs.any fun x => hasBigInt (write x) := by
  induction xs with
  | nil => rfl
  | cons x rest ih => rw [List.map_cons, itemsHaveBigInt, ih, List.any_cons]

theorem fieldsHaveBigInt_map {α : Type} {write : α → JsValue} (h : ∀ x, hasBigInt (write x) = false)
    (entries : List (JsString × α)) :
    fieldsHaveBigInt (entries.map fun entry => (entry.1, write entry.2)) = false := by
  induction entries with
  | nil => rfl
  | cons entry rest ih => rw [List.map_cons, fieldsHaveBigInt, ih, h, Bool.and_false, Bool.or_false]

@[simp] theorem hasBigInt_stringsValue (strings : List JsString) : hasBigInt (stringsValue strings) = false := by
  rw [stringsValue, hasBigInt, itemsHaveBigInt_map]
  simp [hasBigInt]

@[simp] theorem hasBigInt_stringValue (s : Option JsString) : hasBigInt (stringValue s) = false := by
  cases s <;> rfl

@[simp] theorem hasBigInt_intValue (n : Int) : hasBigInt (intValue n) = false := rfl

@[simp] theorem hasBigInt_dotValue (dot : Dot) : hasBigInt (dotValue dot) = false := rfl

@[simp] theorem hasBigInt_dataValue (value : Option JsData) :
    hasBigInt (dataValue value) = value.any fun data => hasBigInt data.1 := by
  cases value <;> rfl

theorem hasBigInt_opValue (op : OpV2 JsData) :
    hasBigInt (opValue op) = op.value.any fun data => hasBigInt data.1 := by
  cases op <;> simp +decide [opValue, hasBigInt, fieldsHaveBigInt, OpV2.value]

theorem hasBigInt_contextValue (context : PatchContext) : hasBigInt (contextValue context) = false := by
  cases context with
  | map vv => rfl
  | record counters => exact fieldsHaveBigInt_map (fun _ => rfl) counters

/-- Only written values can hold a BigInt. -/
def PatchV2.HasBigInt (patch : PatchV2 JsData) : Prop :=
  ∃ op ∈ patch.ops, ∃ data, op.value = some data ∧ hasBigInt data.1 = true

theorem hasBigInt_patchEntryValue (entry : SyncPatch JsData) :
    hasBigInt (patchEntryValue entry) = true ↔ entry.patch.HasBigInt := by
  simp +decide [patchEntryValue, patchValue, hasBigInt, fieldsHaveBigInt, hasBigInt_contextValue,
    itemsHaveBigInt_map, hasBigInt_opValue, PatchV2.HasBigInt, Option.any_eq_true]

theorem hasBigInt_responseValue (response : SyncResponse JsData) :
    hasBigInt (responseValue response) = true ↔ ∃ entry ∈ response.patches, entry.patch.HasBigInt := by
  have hfrontier : hasBigInt (frontierValue response.frontier) = false :=
    fieldsHaveBigInt_map (fun _ => rfl) response.frontier.entries
  have hskipped : ∀ skipped, hasBigInt (skippedValue skipped) = false := by
    intro skipped
    simp +decide [skippedValue, hasBigInt, fieldsHaveBigInt]
  simp +decide [responseValue, hasBigInt, fieldsHaveBigInt, hfrontier, hskipped, itemsHaveBigInt_map,
    hasBigInt_patchEntryValue]

/-! ### What the other side reads -/

/-- The value that arrives for one without a BigInt. -/
def carried (data : JsData) : JsData :=
  match h : overHttp data.1 with
  | .ok arrived => ⟨arrived, (isUndefined_overHttp h).trans data.2⟩
  | .error _ => data

theorem overHttp_data {data : JsData} (h : hasBigInt data.1 = false) :
    overHttp data.1 = .ok (carried data).1 := by
  obtain ⟨arrived, harrived⟩ := (exists_overHttp_iff data.1).mpr h
  rw [harrived, carried]
  split
  · rename_i arrived' harrived'
    rw [harrived] at harrived'
    exact harrived'
  · rename_i err herr
    rw [harrived] at herr
    cases herr

theorem asData_data (data : JsData) : asData data.1 = some data := by
  rw [asData, dif_pos data.2]

/-- An object without BigInts arrives field by field. -/
theorem exists_overHttp_object {value : JsValue} {fields : List (JsString × JsValue)}
    (hvalue : value = .object fields) (hnodup : (fields.map Prod.fst).Nodup) (h : hasBigInt value = false) :
    ∃ arrived, overHttp value = .ok arrived ∧
      (∀ key s, key ≠ protoKey → value.get key = .string s → arrived.get key = .string s) ∧
      (∀ key, key ≠ protoKey → value.get key = .undefined → arrived.get key = .undefined) ∧
      ∀ key, key ≠ protoKey → overHttp (value.get key) = .ok (arrived.get key) := by
  subst hvalue
  obtain ⟨arrived, harrived⟩ := (exists_overHttp_iff _).mpr h
  have hget : ∀ key, key ≠ protoKey → overHttp ((JsValue.object fields).get key) = .ok (arrived.get key) :=
    fun _ hkey => get_overHttp hnodup harrived hkey
  refine ⟨arrived, harrived, fun key s hkey hs => ?_, fun key hkey hundefined => ?_, hget⟩
  · have harr := hget key hkey
    rw [hs] at harr
    exact (Except.ok.inj harr).symm
  · have harr := hget key hkey
    rw [hundefined] at harr
    exact (Except.ok.inj harr).symm

theorem asString_overHttp {s : Option JsString} {arrived : JsValue}
    (h : overHttp (stringValue s) = .ok arrived) : asString arrived = s := by
  cases s <;> cases h <;> rfl

theorem asData_overHttp {value : Option JsData} {arrived : JsValue}
    (hdata : ∀ data, value = some data → hasBigInt data.1 = false)
    (h : overHttp (dataValue value) = .ok arrived) : asData arrived = value.map carried := by
  cases value with
  | none =>
      cases h
      rfl
  | some data =>
      rw [dataValue, overHttp_data (hdata data rfl)] at h
      cases h
      exact asData_data (carried data)

theorem asDot_overHttp {dot : Dot} {arrived : JsValue} (h : overHttp (dotValue dot) = .ok arrived) :
    asDot arrived = some dot := by
  cases h
  rfl

theorem asStrings_overHttp {strings : List JsString} {arrived : JsValue}
    (h : overHttp (stringsValue strings) = .ok arrived) : asStrings arrived = some strings := by
  have hstring : ∀ s ∈ strings, ∃ arrived, overHttp (.string s) = .ok arrived ∧ asString arrived = some (id s) :=
    fun s _ => ⟨_, rfl, rfl⟩
  obtain ⟨items, hitems, hread⟩ := itemsOverHttp_map (fun _ _ => rfl) hstring
  rw [stringsValue, overHttp_array, hitems] at h
  cases h
  rw [asStrings, asArray]
  simpa using hread

theorem asEdge_of_get {value : JsValue} {edge : EdgeRef} (hfrom : value.get (js "from") = .string edge.fromId)
    (hto : value.get (js "to") = .string edge.toId) (hlabel : value.get (js "label") = .string edge.label) :
    asEdge value = some edge := by
  rw [asEdge, hfrom, hto, hlabel]
  rfl

theorem asOp_overHttp {op : OpV2 JsData} (h : ∀ data, op.value = some data → hasBigInt data.1 = false) :
    ∃ arrived, overHttp (opValue op) = .ok arrived ∧ asOp arrived = some (op.mapValue carried) := by
  have hnone : hasBigInt (opValue op) = false := by
    rw [hasBigInt_opValue]
    cases hvalue : op.value with
    | none => rfl
    | some data => exact h data hvalue
  cases op with
  | nodeAdd node dot =>
      obtain ⟨arrived, harrived, hstring, -, hget⟩ := exists_overHttp_object rfl (by simp +decide) hnone
      refine ⟨arrived, harrived, ?_⟩
      have hnode := hstring (js "node") _ (by decide) rfl
      have hdot := asDot_overHttp (hget (js "dot") (by decide))
      rw [asOp, hstring (js "type") _ (by decide) rfl]
      simp +decide [asKnownOp, hnode, hdot, OpV2.mapValue]
  | nodeRemove node observedDots =>
      obtain ⟨arrived, harrived, hstring, -, hget⟩ := exists_overHttp_object rfl (by simp +decide) hnone
      refine ⟨arrived, harrived, ?_⟩
      have hnode := asString_overHttp (hget (js "node") (by decide))
      have hdots := asStrings_overHttp (hget (js "observedDots") (by decide))
      rw [asOp, hstring (js "type") _ (by decide) rfl]
      simp +decide [asKnownOp, hnode, hdots, OpV2.mapValue]
  | edgeAdd edge dot =>
      obtain ⟨arrived, harrived, hstring, -, hget⟩ := exists_overHttp_object rfl (by simp +decide) hnone
      refine ⟨arrived, harrived, ?_⟩
      have hedge := asEdge_of_get (hstring (js "from") _ (by decide) rfl) (hstring (js "to") _ (by decide) rfl)
        (hstring (js "label") _ (by decide) rfl)
      have hdot := asDot_overHttp (hget (js "dot") (by decide))
      rw [asOp, hstring (js "type") _ (by decide) rfl]
      simp +decide [asKnownOp, hedge, hdot, OpV2.mapValue]
  | edgeRemove fromId toId label observedDots =>
      obtain ⟨arrived, harrived, hstring, -, hget⟩ := exists_overHttp_object rfl (by simp +decide) hnone
      refine ⟨arrived, harrived, ?_⟩
      have hfrom := asString_overHttp (hget (js "from") (by decide))
      have hto := asString_overHttp (hget (js "to") (by decide))
      have hlabel := asString_overHttp (hget (js "label") (by decide))
      have hdots := asStrings_overHttp (hget (js "observedDots") (by decide))
      rw [asOp, hstring (js "type") _ (by decide) rfl]
      simp +decide [asKnownOp, hfrom, hto, hlabel, hdots, OpV2.mapValue]
  | propSet node key value =>
      obtain ⟨arrived, harrived, hstring, -, hget⟩ := exists_overHttp_object rfl (by simp +decide) hnone
      refine ⟨arrived, harrived, ?_⟩
      have hnode := hstring (js "node") _ (by decide) rfl
      have hkey := hstring (js "key") _ (by decide) rfl
      have hvalue := asData_overHttp h (hget (js "value") (by decide))
      rw [asOp, hstring (js "type") _ (by decide) rfl]
      simp +decide [asKnownOp, hnode, hkey, hvalue, OpV2.value, OpV2.mapValue]
  | nodePropSet node key value =>
      obtain ⟨arrived, harrived, hstring, -, hget⟩ := exists_overHttp_object rfl (by simp +decide) hnone
      refine ⟨arrived, harrived, ?_⟩
      have hnode := hstring (js "node") _ (by decide) rfl
      have hkey := hstring (js "key") _ (by decide) rfl
      have hvalue := asData_overHttp h (hget (js "value") (by decide))
      rw [asOp, hstring (js "type") _ (by decide) rfl]
      simp +decide [asKnownOp, hnode, hkey, hvalue, OpV2.value, OpV2.mapValue]
  | edgePropSet edge key value =>
      obtain ⟨arrived, harrived, hstring, -, hget⟩ := exists_overHttp_object rfl (by simp +decide) hnone
      refine ⟨arrived, harrived, ?_⟩
      have hedge := asEdge_of_get (hstring (js "from") _ (by decide) rfl) (hstring (js "to") _ (by decide) rfl)
        (hstring (js "label") _ (by decide) rfl)
      have hkey := hstring (js "key") _ (by decide) rfl
      have hvalue := asData_overHttp h (hget (js "value") (by decide))
      rw [asOp, hstring (js "type") _ (by decide) rfl]
      simp +decide [asKnownOp, hedge, hkey, hvalue, OpV2.value, OpV2.mapValue]
  | blobValue node oid =>
      obtain ⟨arrived, harrived, hstring, -, -⟩ := exists_overHttp_object rfl (by simp +decide) hnone
      refine ⟨arrived, harrived, ?_⟩
      have hnode := hstring (js "node") _ (by decide) rfl
      have hoid := hstring (js "oid") _ (by decide) rfl
      rw [asOp, hstring (js "type") _ (by decide) rfl]
      simp +decide [asKnownOp, hnode, hoid, OpV2.mapValue]
  | unknown type =>
      obtain ⟨arrived, harrived, hstring, hundefined, -⟩ :=
        exists_overHttp_object rfl (by simp) hnone
      refine ⟨arrived, harrived, ?_⟩
      have hnode := hundefined (js "node") (by decide) rfl
      have hfrom := hundefined (js "from") (by decide) rfl
      have hdots := hundefined (js "observedDots") (by decide) rfl
      have hknown : asKnownOp type arrived = none := by
        simp [asKnownOp, asString, asEdge, asStrings, asArray, hnode, hfrom, hdots]
      rw [asOp, hstring (js "type") _ (by decide) rfl]
      simp [hknown, OpV2.mapValue]

theorem asPatch_overHttp {patch : PatchV2 JsData} {vv : VersionVector} (hcontext : patch.context = .map vv)
    (h : ¬ patch.HasBigInt) :
    ∃ arrived, overHttp (patchValue patch) = .ok arrived ∧ asPatch arrived = some (patch.rewritten carried) := by
  have hops : ∀ op ∈ patch.ops, ∃ arrived, overHttp (opValue op) = .ok arrived ∧
      asOp arrived = some (op.mapValue carried) := by
    intro op hop
    refine asOp_overHttp fun data hdata => ?_
    by_contra hbig
    exact h ⟨op, hop, data, hdata, eq_true_of_ne_false hbig⟩
  have hdefined : ∀ op ∈ patch.ops, (opValue op).isUndefined = false := by
    intro op _
    cases op <;> rfl
  obtain ⟨arrivedOps, harrivedOps, hreadOps⟩ := itemsOverHttp_map hdefined hops
  have hnone : hasBigInt (patchValue patch) = false := by
    by_contra hbig
    exact h ((hasBigInt_patchEntryValue ⟨[], [], patch⟩).mp (by
      simpa +decide [patchEntryValue, hasBigInt, fieldsHaveBigInt] using eq_true_of_ne_false hbig))
  obtain ⟨arrived, harrived, hstring, -, hget⟩ := exists_overHttp_object rfl (by simp +decide) hnone
  refine ⟨arrived, harrived, ?_⟩
  have hschema : arrived.get (js "schema") = intValue patch.schema :=
    (Except.ok.inj (hget (js "schema") (by decide))).symm
  have hlamport : arrived.get (js "lamport") = intValue patch.lamport :=
    (Except.ok.inj (hget (js "lamport") (by decide))).symm
  have hwriter := hstring (js "writer") _ (by decide) rfl
  have hempty : arrived.get (js "context") = .object [] := by
    have hmap : overHttp (contextValue patch.context) = .ok (arrived.get (js "context")) :=
      hget (js "context") (by decide)
    rw [hcontext] at hmap
    exact (Except.ok.inj hmap).symm
  have harray : arrived.get (js "ops") = .array arrivedOps := by
    have hitems : overHttp (.array (patch.ops.map opValue)) = .ok (arrived.get (js "ops")) :=
      hget (js "ops") (by decide)
    rw [overHttp_array, harrivedOps] at hitems
    exact (Except.ok.inj hitems).symm
  rw [asPatch, hschema, hlamport, hwriter, hempty, harray]
  simp [asContext, asFields, asArray, hreadOps, PatchV2.rewritten]

/-- The entry with its patch rewritten. -/
def SyncPatch.rewritten {V : Type} (f : V → V) (entry : SyncPatch V) : SyncPatch V :=
  { entry with patch := entry.patch.rewritten f }

/-- What the other side reads of a response whose patches were loaded. -/
def SyncResponse.received (response : SyncResponse JsData) : SyncResponse JsData :=
  ⟨response.frontier, response.patches.map (SyncPatch.rewritten carried), []⟩

theorem asPatchEntry_overHttp {entry : SyncPatch JsData} {vv : VersionVector}
    (hcontext : entry.patch.context = .map vv) (h : ¬ entry.patch.HasBigInt) :
    ∃ arrived, overHttp (patchEntryValue entry) = .ok arrived ∧
      asPatchEntry arrived = some (entry.rewritten carried) := by
  have hnone : hasBigInt (patchEntryValue entry) = false := by
    rw [← Bool.not_eq_true, hasBigInt_patchEntryValue]
    exact h
  obtain ⟨arrivedPatch, hpatch, hread⟩ := asPatch_overHttp hcontext h
  obtain ⟨arrived, harrived, hstring, -, hget⟩ := exists_overHttp_object rfl (by simp +decide) hnone
  refine ⟨arrived, harrived, ?_⟩
  have hwriter := hstring (js "writerId") _ (by decide) rfl
  have hsha := hstring (js "sha") _ (by decide) rfl
  have hfield : overHttp (patchValue entry.patch) = .ok (arrived.get (js "patch")) :=
    hget (js "patch") (by decide)
  rw [hpatch] at hfield
  rw [asPatchEntry, hwriter, hsha, ← Except.ok.inj hfield, hread]
  rfl

theorem asFrontier_overHttp (frontier : PlainObject Sha) :
    overHttp (frontierValue frontier) = .ok (frontierValue frontier) ∧
      asFrontier (frontierValue frontier) = some frontier := by
  have hproto : ∀ entry ∈ frontier.entries, entry.1 ≠ protoKey := by
    rintro ⟨key, value⟩ hentry rfl
    have hget := (frontier.props.get_eq_some_iff protoKey value).mpr hentry
    rw [frontier.noProto] at hget
    cases hget
  constructor
  · rw [frontierValue, overHttp_object]
    have hfields : ∀ entries : List (JsString × Sha), (∀ entry ∈ entries, entry.1 ≠ protoKey) →
        fieldsOverHttp (entries.map fun entry => (entry.1, .string entry.2)) =
          .ok (entries.map fun entry => (entry.1, .string entry.2)) := by
      intro entries
      induction entries with
      | nil => exact fun _ => rfl
      | cons entry rest ih =>
          intro hproto
          rw [List.map_cons, fieldsOverHttp_cons, if_neg (hproto entry (List.mem_cons_self ..)), overHttp_string,
            ih fun other hother => hproto other (List.mem_cons_of_mem _ hother)]
          rfl
    rw [hfields _ hproto]
    rfl
  · have hread : (frontier.entries.map fun entry => (entry.1, JsValue.string entry.2)).mapM
        (fun field => (do return (field.1, ← asString field.2) : Option (JsString × Sha))) =
          some frontier.entries := by
      induction frontier.entries with
      | nil => rfl
      | cons entry rest ih =>
          rw [List.map_cons, List.mapM_cons, ih]
          rfl
    rw [asFrontier, frontierValue, asFields]
    simp only [Option.bind_eq_bind, Option.bind_some, Option.pure_def] at hread ⊢
    rw [hread, Option.bind_some, PlainObject.foldl_assign_entries]

/-- A response of loaded patches arrives unless a value holds a BigInt. -/
theorem asResponse_overHttp {response : SyncResponse JsData}
    (hcontext : ∀ entry ∈ response.patches, ∃ vv, entry.patch.context = .map vv)
    (h : ∀ entry ∈ response.patches, ¬ entry.patch.HasBigInt) :
    ∃ body, overHttp (responseValue response) = .ok body ∧ asResponse body = some response.received := by
  have hnone : hasBigInt (responseValue response) = false := by
    rw [← Bool.not_eq_true, hasBigInt_responseValue]
    rintro ⟨entry, hentry, hbig⟩
    exact h entry hentry hbig
  obtain ⟨arrivedPatches, hpatches, hread⟩ := itemsOverHttp_map (fun _ _ => rfl)
    (fun entry hentry => asPatchEntry_overHttp (hcontext entry hentry).choose_spec (h entry hentry))
  obtain ⟨body, hbody, hstring, -, hget⟩ := exists_overHttp_object rfl (by simp +decide) hnone
  refine ⟨body, hbody, ?_⟩
  have htype := hstring (js "type") _ (by decide) rfl
  have hfrontier : overHttp (frontierValue response.frontier) = .ok (body.get (js "frontier")) :=
    hget (js "frontier") (by decide)
  have hitems : overHttp (.array (response.patches.map patchEntryValue)) = .ok (body.get (js "patches")) :=
    hget (js "patches") (by decide)
  rw [(asFrontier_overHttp response.frontier).1] at hfrontier
  rw [overHttp_array, hpatches] at hitems
  rw [asResponse, htype, ← Except.ok.inj hfrontier, ← Except.ok.inj hitems,
    (asFrontier_overHttp response.frontier).2]
  simp [asArray, hread, SyncResponse.received]

end GitWarp
