import GitWarp.CborCodec
import GitWarp.GraphStore
import GitWarp.TrustReading

/-! The chain of trust records: a ref to commits that hold one record each, each on top of the one whose record
id it names. Records are read as they are stored, and a read chain is verified link by link. -/

namespace GitWarp
open Js JsValue

/-- What `record.cbor` of a record decodes to. -/
def TrustText.stored (text : TrustText) (record : JsValue) : JsValue := text.cbor (sortKeys record)

structure TrustCommit where
  /-- What `record.cbor` of its tree decodes to. -/
  record : Option JsValue
  parents : List Sha
  deriving DecidableEq

structure TrustRepo where
  commits : JsMap Sha TrustCommit
  ref : Option Sha
  deriving DecidableEq

namespace TrustRepo

def missingObject (sha : Sha) : JsError := ⟨"PersistenceError", "Missing Git object: " ++ toText sha⟩

/-- `record.recordId ?? null` -/
def recordIdOrNull (record : JsValue) : JsValue :=
  match record.get (js "recordId") with
  | .undefined => .null
  | recordId => recordId

/-- `_readTip(ref)` where the ref is readable. -/
def readTip (repo : TrustRepo) : Except JsError (Option Sha × JsValue) :=
  match repo.ref with
  | none => .ok (none, .null)
  | some tipSha =>
      match repo.commits.get tipSha with
      | none => .error (missingObject tipSha)
      | some commit => .ok (some tipSha, (commit.record.map recordIdOrNull).getD .null)

/-- The loop of `readRecords` from a commit; `none` where the fuel ends first. -/
def readRecordsFrom (repo : TrustRepo) : Nat → Sha → List JsValue → Option (Except JsError (List JsValue))
  | 0, _, _ => none
  | fuel + 1, current, records =>
      match repo.commits.get current with
      | none => some (.error (missingObject current))
      | some commit =>
          match commit.record with
          | none => some (.ok records)
          | some record =>
              match commit.parents with
              | [] => some (.ok (record :: records))
              | parent :: _ => repo.readRecordsFrom fuel parent (record :: records)

def readRecords (repo : TrustRepo) (fuel : Nat) : Option (Except JsError (List JsValue)) :=
  match repo.ref with
  | none => some (.ok [])
  | some tip => repo.readRecordsFrom fuel tip []

end TrustRepo

/-! ### `verifyChain` -/

/-- `a === b` where one of them is `null` or a string. -/
def sameId : JsValue → JsValue → Bool
  | .null, .null => true
  | .string a, .string b => a = b
  | _, _ => false

inductive ChainFault where
  | schema (record : JsValue)
  | recordIdMismatch
  | duplicate (recordId : JsString)
  | genesisPrev (prev : JsValue)
  | prevLink (expectedPrev prev : JsValue)

/-- The text of an error, where `JSON.stringify` and a template literal print values. -/
def ChainFault.text (schema : TrustSchema) (stringify template : JsValue → JsString) : ChainFault → JsString
  | .schema record => js "Schema: " ++ schema.message record
  | .recordIdMismatch => js "RecordId does not match content"
  | .duplicate recordId => js "Duplicate recordId: " ++ recordId
  | .genesisPrev prev => js "Genesis record must have prev=null, got " ++ stringify prev
  | .prevLink expectedPrev prev =>
      js "Prev-link mismatch: expected " ++ template expectedPrev ++ js ", got " ++ template prev

/-- The check of a prev-link; `previous` is the record before, if there is one. -/
def prevFaults (previous : Option JsValue) (record : JsValue) : List ChainFault :=
  let prev := record.get (js "prev")
  match previous with
  | none => if sameId prev .null then [] else [.genesisPrev prev]
  | some last =>
      let expectedPrev := last.get (js "recordId")
      if sameId prev expectedPrev then [] else [.prevLink expectedPrev prev]

/-- The loop of `verifyChain`; `seenIds` are ids of records that passed the schema. -/
def verifyChainFrom (schema : TrustSchema) (text : TrustText) :
    Nat → Option JsValue → List JsString → List JsValue → Except JsError (List (Nat × ChainFault))
  | _, _, _, [] => return []
  | index, previous, seenIds, record :: rest =>
      match schema.safeParse record with
      | none => return (index, .schema record) :: (← verifyChainFrom schema text (index + 1) (some record) seenIds rest)
      | some parsed => do
          let idMatches ← text.verifyRecordId record
          let faults := (if idMatches then [] else [.recordIdMismatch]) ++
            (if seenIds.contains parsed.recordId then [.duplicate parsed.recordId] else []) ++ prevFaults previous record
          let later ← verifyChainFrom schema text (index + 1) (some record) (parsed.recordId :: seenIds) rest
          return faults.map (Prod.mk index) ++ later

/-- The errors that `verifyChain(records)` returns; the chain is valid where there are none. -/
def verifyChain (schema : TrustSchema) (text : TrustText) (records : List JsValue) :
    Except JsError (List (Nat × ChainFault)) :=
  verifyChainFrom schema text 0 none [] records

/-! ### What is stored reads back -/

/-- A value without others in it that stands for itself in CBOR. -/
def isLeaf : JsValue → Bool
  | .undefined | .null | .bool _ | .number _ | .string _ | .bytes _ => true
  | _ => false

/-- The keys that cbor-x may rename, and what it renames them to. -/
def isRenamed (key : JsString) : Bool := key = protoKey || key = js "__proto_"

/-- What the codec gives back: a string for a string only, numbers and bytes as they are, and for an object one that
has what comes back of each value under its key. A key `__proto__` may come back as another one. -/
structure CborRereads (cbor : JsValue → JsValue) : Prop where
  asString : ∀ value, asString (cbor value) = asString value
  leaf : ∀ value, isLeaf value = true → cbor value = value
  object : ∀ fields, ∃ fields', cbor (.object fields) = .object fields' ∧ ∀ key, isRenamed key = false →
    (JsValue.object fields').get key = cbor ((JsValue.object fields).get key)

theorem asSubject_of_strings {recordType : JsString} {value value' : JsValue}
    (h : ∀ key ∈ [js "keyId", js "reasonCode", js "publicKey", js "writerId"],
      asString (value'.get key) = asString (value.get key)) : asSubject recordType value' = asSubject recordType value := by
  simp only [List.forall_mem_cons, List.not_mem_nil, false_implies, implies_true, and_true] at h
  obtain ⟨hkeyId, hreasonCode, hpublicKey, hwriterId⟩ := h
  simp only [asSubject, asStringThat, asTrimmed, hkeyId, hreasonCode, hpublicKey, hwriterId]

theorem asSubject_sortKeys {recordType : JsString} {value : JsValue} {subject : TrustSubject}
    (h : asSubject recordType value = some subject) : asSubject recordType (sortKeys value) = some subject := by
  obtain ⟨-, keyId, hkey, -⟩ := asSubject_cases h
  obtain ⟨fields, rfl⟩ : ∃ fields, value = .object fields := exists_fields_of_get (by rw [hkey]; nofun)
  rw [← h]
  have hnames : protoKey ∉ [js "keyId", js "reasonCode", js "publicKey", js "writerId"] := by decide
  exact asSubject_of_strings fun key hkey => asString_get_sortKeys fields fun heq => hnames (heq ▸ hkey)

theorem asSignature_sortKeys {value : JsValue} {sig : JsString} (h : asSignature value = some sig) :
    asSignature (sortKeys value) = some sig := by
  have halg : value.get (js "alg") ≠ .undefined := by
    intro hundefined
    rw [asSignature, hundefined, if_neg nofun] at h
    cases h
  obtain ⟨fields, rfl⟩ := exists_fields_of_get halg
  rw [← h]
  simp only [asSignature, asStringThat, asString_get_sortKeys fields (show js "alg" ≠ protoKey by decide),
    asString_get_sortKeys fields (show js "sig" ≠ protoKey by decide)]

theorem asMetadata_sortKeys {value : JsValue} {metadata : List (JsString × JsValue)}
    (h : asMetadata value = some metadata) : ∃ metadata', asMetadata (sortKeys value) = some metadata' := by
  cases value with
  | object fields =>
      rw [sortKeys]
      split
      · exact ⟨_, rfl⟩
      · exact ⟨_, rfl⟩
  | undefined => exact ⟨_, h⟩
  | bytes data => exact ⟨_, h⟩
  | _ => cases h

theorem safeParse_sortKeys {schema : TrustSchema} {raw : JsValue} {record : TrustRecord}
    (h : schema.safeParse raw = some record) :
    ∃ metadata, schema.safeParse (sortKeys raw) = some { record with metadata := metadata } := by
  obtain ⟨hreads, hvalid⟩ := readsAs_of_safeParse h
  obtain ⟨fields, rfl⟩ : ∃ fields, raw = .object fields := exists_fields_of_get (by rw [hreads.recordId]; nofun)
  have hsubject : asSubject record.subject.recordType ((sortKeys (.object fields)).get (js "subject")) =
      some record.subject := by
    rcases get_sortKeys fields (show js "subject" ≠ protoKey by decide) with hget | hget
    · rw [hget]
      exact asSubject_sortKeys hreads.subject
    · rw [hget]
      exact hreads.subject
  have hmetadata : ∃ metadata, asMetadata ((sortKeys (.object fields)).get (js "meta")) = some metadata := by
    rcases get_sortKeys fields (show js "meta" ≠ protoKey by decide) with hget | hget
    · rw [hget]
      exact asMetadata_sortKeys hreads.metadata
    · rw [hget]
      exact ⟨_, hreads.metadata⟩
  have hsignature : asSignature ((sortKeys (.object fields)).get (js "signature")) = some record.sig := by
    rcases get_sortKeys fields (show js "signature" ≠ protoKey by decide) with hget | hget
    · rw [hget]
      exact asSignature_sortKeys hreads.signature
    · rw [hget]
      exact hreads.signature
  have hprev : prevValue record.prev ≠ .undefined ∧ sortKeys (prevValue record.prev) = prevValue record.prev := by
    cases record.prev with
    | none => exact ⟨nofun, rfl⟩
    | some recordId => exact ⟨nofun, rfl⟩
  obtain ⟨metadata, hmetadata⟩ := hmetadata
  refine ⟨metadata, safeParse_of_readsAs ⟨?_, ?_, ?_, ?_, ?_, ?_, hsubject, hmetadata, hsignature⟩
    ⟨hvalid.recordId, hvalid.issuerKeyId, hvalid.issuedAt, hvalid.prev⟩⟩
  · exact get_sortKeys_of_leaf hreads.version nofun rfl (by decide)
  · exact get_sortKeys_of_leaf hreads.recordId nofun rfl (by decide)
  · exact get_sortKeys_of_leaf hreads.issuerKeyId nofun rfl (by decide)
  · exact get_sortKeys_of_leaf hreads.issuedAt nofun rfl (by decide)
  · exact get_sortKeys_of_leaf hreads.prev hprev.1 hprev.2 (by decide)
  · exact get_sortKeys_of_leaf hreads.recordType nofun rfl (by decide)

theorem cborRereads_id : CborRereads id where
  asString _ := rfl
  leaf _ _ := rfl
  object fields := ⟨fields, rfl, fun _ _ => rfl⟩

section Codec

variable {cbor : JsValue → JsValue} (hcbor : CborRereads cbor)

include hcbor

theorem CborRereads.asSubject {recordType : JsString} {value : JsValue} {subject : TrustSubject}
    (h : GitWarp.asSubject recordType value = some subject) : GitWarp.asSubject recordType (cbor value) = some subject := by
  obtain ⟨-, keyId, hkey, -⟩ := asSubject_cases h
  obtain ⟨fields, rfl⟩ : ∃ fields, value = .object fields := exists_fields_of_get (by rw [hkey]; nofun)
  obtain ⟨fields', hfields', hget⟩ := hcbor.object fields
  rw [← h, hfields']
  have hnames : ∀ key ∈ [js "keyId", js "reasonCode", js "publicKey", js "writerId"], isRenamed key = false := by decide
  exact asSubject_of_strings fun key hkey => by rw [hget key (hnames key hkey), hcbor.asString]

theorem CborRereads.asSignature {value : JsValue} {sig : JsString} (h : GitWarp.asSignature value = some sig) :
    GitWarp.asSignature (cbor value) = some sig := by
  have halg : value.get (js "alg") ≠ .undefined := by
    intro hundefined
    rw [GitWarp.asSignature, hundefined, if_neg nofun] at h
    cases h
  obtain ⟨fields, rfl⟩ := exists_fields_of_get halg
  obtain ⟨fields', hfields', hget⟩ := hcbor.object fields
  rw [← h, hfields']
  simp only [GitWarp.asSignature, asStringThat, hget (js "alg") (by decide), hget (js "sig") (by decide), hcbor.asString]

theorem CborRereads.asMetadata {value : JsValue} {metadata : List (JsString × JsValue)}
    (h : GitWarp.asMetadata value = some metadata) : ∃ metadata', GitWarp.asMetadata (cbor value) = some metadata' := by
  cases value with
  | object fields =>
      obtain ⟨fields', hfields', -⟩ := hcbor.object fields
      rw [hfields']
      exact ⟨_, rfl⟩
  | undefined => exact ⟨metadata, by rw [hcbor.leaf _ rfl]; exact h⟩
  | bytes data => exact ⟨metadata, by rw [hcbor.leaf _ rfl]; exact h⟩
  | _ => cases h

/-- The schema reads what the codec gives back of a record as it read the record. -/
theorem CborRereads.safeParse {schema : TrustSchema} {raw : JsValue} {record : TrustRecord}
    (h : schema.safeParse raw = some record) :
    ∃ metadata, schema.safeParse (cbor raw) = some { record with metadata := metadata } := by
  obtain ⟨hreads, hvalid⟩ := readsAs_of_safeParse h
  obtain ⟨fields, rfl⟩ : ∃ fields, raw = .object fields := exists_fields_of_get (by rw [hreads.recordId]; nofun)
  obtain ⟨fields', hfields', hget⟩ := hcbor.object fields
  have hleaf : ∀ {key leaf}, (JsValue.object fields).get key = leaf → isLeaf leaf = true → isRenamed key = false →
      (JsValue.object fields').get key = leaf := by
    intro key leaf hkey hleaf hkept
    rw [hget key hkept, hkey, hcbor.leaf leaf hleaf]
  have hprev : isLeaf (prevValue record.prev) = true := by
    cases record.prev <;> rfl
  obtain ⟨metadata, hmetadata⟩ := hcbor.asMetadata hreads.metadata
  refine ⟨metadata, ?_⟩
  rw [hfields']
  refine safeParse_of_readsAs ⟨hleaf hreads.version rfl (by decide), hleaf hreads.recordId rfl (by decide),
    hleaf hreads.issuerKeyId rfl (by decide), hleaf hreads.issuedAt rfl (by decide), hleaf hreads.prev hprev (by decide),
    hleaf hreads.recordType rfl (by decide), ?_, ?_, ?_⟩
    ⟨hvalid.recordId, hvalid.issuerKeyId, hvalid.issuedAt, hvalid.prev⟩
  · rw [hget _ (by decide)]
    exact hcbor.asSubject hreads.subject
  · rw [hget _ (by decide)]
    exact hmetadata
  · rw [hget _ (by decide)]
    exact hcbor.asSignature hreads.signature

end Codec

/-- The schema reads a stored record as it read the record itself, but for what `meta` holds. -/
theorem safeParse_stored {schema : TrustSchema} {text : TrustText} (hcbor : CborRereads text.cbor) {raw : JsValue}
    {record : TrustRecord} (h : schema.safeParse raw = some record) :
    ∃ metadata, schema.safeParse (text.stored raw) = some { record with metadata := metadata } := by
  obtain ⟨sorted, hsorted⟩ := safeParse_sortKeys h
  obtain ⟨metadata, hstored⟩ := hcbor.safeParse hsorted
  exact ⟨metadata, hstored⟩

end GitWarp
