import GitWarp.TrustRecords

/-! The trust state: records are read and checked in chain order, and each accepted one acts on the keys or on
the bindings of writers to keys. A binding lives under the writer id and the key id joined by NUL. -/

namespace GitWarp
open Js JsValue

structure ActiveKey where
  publicKey : JsString
  addedAt : JsString

structure RevokedKey where
  publicKey : JsString
  revokedAt : JsString
  reasonCode : JsString

structure WriterBinding where
  keyId : JsString
  boundAt : JsString

structure RevokedBinding where
  keyId : JsString
  revokedAt : JsString
  reasonCode : JsString

structure TrustStateError where
  recordId : JsString
  error : JsString

structure TrustState where
  activeKeys : JsMap JsString ActiveKey
  revokedKeys : JsMap JsString RevokedKey
  writerBindings : JsMap JsString WriterBinding
  revokedBindings : JsMap JsString RevokedBinding
  errors : List TrustStateError
  recordsProcessed : Nat

/-- The callbacks of `buildState`, where they are given; both may throw. -/
structure TrustBuildOptions where
  signatureVerifier : Option (TrustRecord → JsString → Except JsError Bool)
  computeKeyFingerprint : Option (JsString → Except JsError JsString)

def TrustState.empty : TrustState := ⟨JsMap.empty, JsMap.empty, JsMap.empty, JsMap.empty, [], 0⟩

def bindingKey (writerId keyId : JsString) : JsString := writerId ++ 0 :: keyId

/-! ### Cryptographic checks -/

/-- The fingerprint part of `validateRecordCryptography`. -/
def fingerprintError (options : TrustBuildOptions) (record : TrustRecord) : Option JsString :=
  match options.computeKeyFingerprint, record.subject with
  | some computeKeyFingerprint, .keyAdd keyId publicKey =>
      match computeKeyFingerprint publicKey with
      | .error err => some (js "KEY_ADD fingerprint validation failed: " ++ js err.message)
      | .ok expected =>
          if expected ≠ keyId then
            some (js "KEY_ADD fingerprint mismatch: declared " ++ keyId ++ js ", computed " ++ expected)
          else none
  | _, _ => none

/-- The key that the signature is checked under: a key that adds itself, or an active key; `none` stands for a
falsy one. -/
def issuerPublicKey (state : TrustState) (record : TrustRecord) : Option JsString :=
  let active := ((state.activeKeys.get record.issuerKeyId).map ActiveKey.publicKey).filter isNonEmpty
  match record.subject with
  | .keyAdd keyId publicKey =>
      if record.issuerKeyId = keyId then some publicKey |>.filter isNonEmpty else active
  | _ => active

/-- The signature part of `validateRecordCryptography`. -/
def signatureError (options : TrustBuildOptions) (state : TrustState) (record : TrustRecord) : Option JsString :=
  match options.signatureVerifier with
  | none => none
  | some verify =>
      match issuerPublicKey state record with
      | none => some (js "Unknown issuer key for signature verification: " ++ record.issuerKeyId)
      | some publicKey =>
          match verify record publicKey with
          | .error err => some (js "Signature verification failed: " ++ js err.message)
          | .ok false => some (js "Signature verification failed for issuer key " ++ record.issuerKeyId)
          | .ok true => none

def validateRecordCryptography (options : TrustBuildOptions) (state : TrustState) (record : TrustRecord) :
    Option JsString :=
  (fingerprintError options record).or (signatureError options state record)

/-! ### Handlers -/

def handleKeyAdd (state : TrustState) (record : TrustRecord) (keyId publicKey : JsString) :
    Except JsString TrustState :=
  if state.revokedKeys.has keyId then .error (js "Cannot re-add revoked key: " ++ keyId)
  else if state.activeKeys.has keyId then .error (js "Duplicate KEY_ADD for already-active key: " ++ keyId)
  else .ok { state with activeKeys := state.activeKeys.set keyId ⟨publicKey, record.issuedAt⟩ }

def handleKeyRevoke (state : TrustState) (record : TrustRecord) (keyId reasonCode : JsString) :
    Except JsString TrustState :=
  if state.revokedKeys.has keyId then .error (js "Key already revoked: " ++ keyId)
  else
    match state.activeKeys.get keyId with
    | none => .error (js "Cannot revoke unknown key: " ++ keyId)
    | some keyInfo =>
        .ok { state with
          activeKeys := state.activeKeys.delete keyId
          revokedKeys := state.revokedKeys.set keyId ⟨keyInfo.publicKey, record.issuedAt, reasonCode⟩ }

def handleBindAdd (state : TrustState) (record : TrustRecord) (writerId keyId : JsString) :
    Except JsString TrustState :=
  if state.revokedKeys.has keyId then .error (js "Cannot bind writer to revoked key: " ++ keyId)
  else if state.activeKeys.has keyId = false then .error (js "Cannot bind writer to unknown key: " ++ keyId)
  else
    .ok { state with
      writerBindings := state.writerBindings.set (bindingKey writerId keyId) ⟨keyId, record.issuedAt⟩ }

def handleBindRevoke (state : TrustState) (record : TrustRecord) (writerId keyId reasonCode : JsString) :
    Except JsString TrustState :=
  if state.writerBindings.has (bindingKey writerId keyId) = false then
    .error (js "Cannot revoke non-existent binding: writer=" ++ writerId ++ js " key=" ++ keyId)
  else
    .ok { state with
      writerBindings := state.writerBindings.delete (bindingKey writerId keyId)
      revokedBindings := state.revokedBindings.set (bindingKey writerId keyId) ⟨keyId, record.issuedAt, reasonCode⟩ }

/-- The state after a record that raises no error. -/
def acceptRecord (options : TrustBuildOptions) (state : TrustState) (record : TrustRecord) :
    Except JsString TrustState :=
  match validateRecordCryptography options state record with
  | some error => .error error
  | none =>
      match record.subject with
      | .keyAdd keyId publicKey => handleKeyAdd state record keyId publicKey
      | .keyRevoke keyId reasonCode => handleKeyRevoke state record keyId reasonCode
      | .writerBindAdd writerId keyId => handleBindAdd state record writerId keyId
      | .writerBindRevoke writerId keyId reasonCode => handleBindRevoke state record writerId keyId reasonCode

def TrustState.withError (state : TrustState) (recordId error : JsString) : TrustState :=
  { state with errors := state.errors ++ [⟨recordId, error⟩] }

def processRecord (options : TrustBuildOptions) (state : TrustState) (record : TrustRecord) : TrustState :=
  match acceptRecord options state record with
  | .ok next => next
  | .error error => state.withError record.recordId error

/-- One round of the loop of `buildState`. -/
def readRecord (schema : TrustSchema) (options : TrustBuildOptions) (state : TrustState) (record : JsValue) :
    TrustState :=
  match schema.safeParse record with
  | none =>
      state.withError ((asString (record.get (js "recordId"))).getD (js "(unknown)"))
        (js "Schema validation failed: " ++ schema.message record)
  | some parsed => processRecord options state parsed

def buildState (schema : TrustSchema) (options : TrustBuildOptions) (records : List JsValue) : TrustState :=
  { records.foldl (readRecord schema options) TrustState.empty with recordsProcessed := records.length }

end GitWarp
