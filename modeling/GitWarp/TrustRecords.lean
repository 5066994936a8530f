import GitWarp.CanonicalStringify
import GitWarp.SyncJsonResponses

/-! Trust records: the schema that reads a stored record, and the texts that its id and its signature are
computed over. Reading drops the keys that the schema does not name, fills in `meta` and trims writer ids. -/

namespace GitWarp
open Js JsValue

/-- What the schema library decides by itself. -/
structure TrustSchema where
  /-- `z.string().datetime({ offset: false })` -/
  isDatetime : JsString → Bool
  /-- The text of its complaint about a record. -/
  message : JsValue → JsString

inductive TrustSubject where
  | keyAdd (keyId publicKey : JsString)
  | keyRevoke (keyId reasonCode : JsString)
  | writerBindAdd (writerId keyId : JsString)
  | writerBindRevoke (writerId keyId reasonCode : JsString)
  deriving DecidableEq

/-- A record as the schema returns it. -/
structure TrustRecord where
  recordId : JsString
  issuerKeyId : JsString
  issuedAt : JsString
  prev : Option JsString
  subject : TrustSubject
  metadata : List (JsString × JsValue)
  sig : JsString

/-! ### The schema -/

def asStringThat (p : JsString → Bool) (value : JsValue) : Option JsString := (asString value).filter p

/-- `KeyIdSchema` -/
def isKeyId (s : JsString) : Bool :=
  (js "ed25519:").isPrefixOf s && (s.drop 8).length = 64 && (s.drop 8).all isHexDigit

/-- `RecordIdSchema` -/
def isRecordId (s : JsString) : Bool := s.length = 64 && s.all isHexDigit

def isNonEmpty (s : JsString) : Bool := s ≠ []

def isOneOf (values : List JsString) (s : JsString) : Bool := values.contains s

/-- `z.literal(1)` -/
def isLiteralOne : JsValue → Bool
  | .number (.finite n) => n = 1
  | _ => false

/-- `z.string().trim().min(1)` -/
def asTrimmed (value : JsValue) : Option JsString := ((asString value).map trim).filter isNonEmpty

/-- What `z.record(z.unknown())` takes for an object: its own properties. -/
def asRecord : JsValue → Option (List (JsString × JsValue))
  | .object fields => some fields
  | .bytes data => some (bytesFields data)
  | _ => none

def asSubject (recordType : JsString) (subject : JsValue) : Option TrustSubject :=
  let keyId := asStringThat isKeyId (subject.get (js "keyId"))
  let reasonCode := fun codes => asStringThat (isOneOf codes) (subject.get (js "reasonCode"))
  if recordType = js "KEY_ADD" then do
    return .keyAdd (← keyId) (← asStringThat isNonEmpty (subject.get (js "publicKey")))
  else if recordType = js "KEY_REVOKE" then do
    return .keyRevoke (← keyId)
      (← reasonCode [js "KEY_COMPROMISE", js "KEY_ROLLOVER", js "OPERATOR_REQUEST"])
  else if recordType = js "WRITER_BIND_ADD" then do
    return .writerBindAdd (← asTrimmed (subject.get (js "writerId"))) (← keyId)
  else if recordType = js "WRITER_BIND_REVOKE" then do
    return .writerBindRevoke (← asTrimmed (subject.get (js "writerId"))) (← keyId)
      (← reasonCode [js "ACCESS_REMOVED", js "ROTATION", js "KEY_REVOKED"])
  else none

def asPrev : JsValue → Option (Option JsString)
  | .null => some none
  | value => (asStringThat isRecordId value).map some

/-- `meta`, by default `{}`; a record of the schema has no own property `__proto__`. -/
def asMetadata : JsValue → Option (List (JsString × JsValue))
  | .undefined => some []
  | value => (asRecord value).map fun fields => fields.filter fun field => field.1 ≠ protoKey

def asSignature (signature : JsValue) : Option JsString :=
  if asString (signature.get (js "alg")) = some (js "ed25519") then
    asStringThat isNonEmpty (signature.get (js "sig"))
  else none

/-- `TrustRecordSchema.safeParse(record)`; `none` where it does not succeed. -/
def TrustSchema.safeParse (schema : TrustSchema) (record : JsValue) : Option TrustRecord := do
  if isLiteralOne (record.get (js "schemaVersion")) then
    let recordType ← asString (record.get (js "recordType"))
    let recordId ← asStringThat isRecordId (record.get (js "recordId"))
    let issuerKeyId ← asStringThat isKeyId (record.get (js "issuerKeyId"))
    let issuedAt ← asStringThat schema.isDatetime (record.get (js "issuedAt"))
    let prev ← asPrev (record.get (js "prev"))
    let subject ← asSubject recordType (record.get (js "subject"))
    let metadata ← asMetadata (record.get (js "meta"))
    let sig ← asSignature (record.get (js "signature"))
    return ⟨recordId, issuerKeyId, issuedAt, prev, subject, metadata, sig⟩
  else none

/-! ### The record the schema returns -/

namespace TrustSubject

def recordType : TrustSubject → JsString
  | .keyAdd _ _ => js "KEY_ADD"
  | .keyRevoke _ _ => js "KEY_REVOKE"
  | .writerBindAdd _ _ => js "WRITER_BIND_ADD"
  | .writerBindRevoke _ _ _ => js "WRITER_BIND_REVOKE"

def fields : TrustSubject → List (JsString × JsValue)
  | .keyAdd keyId publicKey => [(js "keyId", .string keyId), (js "publicKey", .string publicKey)]
  | .keyRevoke keyId reasonCode => [(js "keyId", .string keyId), (js "reasonCode", .string reasonCode)]
  | .writerBindAdd writerId keyId => [(js "writerId", .string writerId), (js "keyId", .string keyId)]
  | .writerBindRevoke writerId keyId reasonCode =>
      [(js "writerId", .string writerId), (js "keyId", .string keyId), (js "reasonCode", .string reasonCode)]

end TrustSubject

def prevValue : Option JsString → JsValue
  | some recordId => .string recordId
  | none => .null

def TrustRecord.unsignedFields (record : TrustRecord) : List (JsString × JsValue) :=
  [(js "schemaVersion", .number (.finite 1)), (js "recordType", .string record.subject.recordType),
    (js "recordId", .string record.recordId), (js "issuerKeyId", .string record.issuerKeyId),
    (js "issuedAt", .string record.issuedAt), (js "prev", prevValue record.prev),
    (js "subject", .object record.subject.fields), (js "meta", .object record.metadata)]

def TrustRecord.value (record : TrustRecord) : JsValue :=
  .object (record.unsignedFields ++
    [(js "signature", .object [(js "alg", .string (js "ed25519")), (js "sig", .string record.sig)])])

/-! ### Ids and signatures -/

/-- A copy of the object without some of its properties. -/
def withoutKeys (keys : List JsString) : JsValue → JsValue
  | .object fields => .object (fields.filter fun field => !keys.contains field.1)
  | value => value

def unsignedRecordForId (record : JsValue) : JsValue := withoutKeys [js "recordId", js "signature"] record

def unsignedRecordForSignature (record : JsValue) : JsValue := withoutKeys [js "signature"] record

/-- Printing, hashing, and what cbor-x decodes from what it has encoded. -/
structure TrustText where
  /-- `JSON.stringify(value)` of a number. -/
  number : Rat → JsString
  /-- `crypto.hash('sha256', text)` -/
  sha256 : JsString → JsString
  cbor : JsValue → JsValue := id

def TrustText.canonicalStringify (text : TrustText) (value : JsValue) : Except JsError JsString :=
  (canonicalData value).map (Json.print text.number)

def TrustText.recordIdPayload (text : TrustText) (record : JsValue) : Except JsError JsString := do
  return js "git-warp:trust-record:v1\x00" ++ (← text.canonicalStringify (unsignedRecordForId record))

/-- `computeSignaturePayload`, before its text is encoded. -/
def TrustText.signaturePayload (text : TrustText) (record : JsValue) : Except JsError JsString := do
  return js "git-warp:trust-sign:v1\x00" ++ (← text.canonicalStringify (unsignedRecordForSignature record))

def TrustText.computeRecordId (text : TrustText) (record : JsValue) : Except JsError JsString := do
  return text.sha256 (← text.recordIdPayload record)

def TrustText.verifyRecordId (text : TrustText) (record : JsValue) : Except JsError Bool := do
  return asString (record.get (js "recordId")) = some (← text.computeRecordId record)

end GitWarp
