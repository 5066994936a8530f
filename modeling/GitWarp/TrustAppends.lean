import GitWarp.TrustChain

/-! Appending trust records. Many calls of `appendRecord` and `appendRecordWithRetry` run on one chain, and
each of their persistence calls is a step of its own: a call reads the tip, commits its record on top of it, and
moves the ref if it still is the tip that was read. Reading what a commit holds is one step with reading the ref,
since commits do not change. -/

namespace GitWarp
open Js JsValue

structure RetryOptions where
  maxRetries : Int
  /-- Whether a `resign` function is given. -/
  resigns : Bool
  deriving DecidableEq

inductive TrustFailure where
  | recordInvalid (record : JsValue)
  | recordIdMismatch
  | signatureMissing
  | prevMismatch (prev currentTip : JsValue)
  | casConflict (expectedTipSha actualTipSha : Option Sha) (actualTipRecordId : JsValue)
  | casExhausted (message : JsString)
  | other (err : JsError)
  deriving DecidableEq

namespace TrustFailure

def code : TrustFailure → Option JsString
  | .recordInvalid _ => some (js "E_TRUST_RECORD_INVALID")
  | .recordIdMismatch => some (js "E_TRUST_RECORD_ID_MISMATCH")
  | .signatureMissing => some (js "E_TRUST_SIGNATURE_MISSING")
  | .prevMismatch _ _ => some (js "E_TRUST_PREV_MISMATCH")
  | .casConflict _ _ _ => some (js "E_TRUST_CAS_CONFLICT")
  | .casExhausted _ => some (js "E_TRUST_CAS_EXHAUSTED")
  | .other _ => none

/-- The text of the error, where a template literal prints values. -/
def message (schema : TrustSchema) (template : JsValue → JsString) : TrustFailure → JsString
  | .recordInvalid record => js "Trust record schema validation failed: " ++ schema.message record
  | .recordIdMismatch => js "Trust record recordId does not match content"
  | .signatureMissing => js "Trust record missing or malformed signature"
  | .prevMismatch prev currentTip =>
      js "Prev-link mismatch: record.prev=" ++ template prev ++ js ", chain tip=" ++ template currentTip
  | .casConflict expectedTipSha actualTipSha _ =>
      js "Trust CAS conflict: chain advanced from " ++ expectedTipSha.getD (js "null") ++ js " to " ++
        actualTipSha.getD (js "null")
  | .casExhausted text => text
  | .other err => js err.message

end TrustFailure

/-! ### One call -/

inductive AppendPhase where
  /-- `appendRecord` is about to read the tip. -/
  | attempting (record : JsValue)
  /-- The record names the tip that was read; it is about to be committed. -/
  | persisting (record : JsValue) (tipSha : Option Sha)
  | swapping (record : JsValue) (commitSha : Sha) (parentSha : Option Sha) (attempt : Nat)
  /-- The swap failed; the tip is about to be read again. -/
  | rereading (record : JsValue) (commitSha : Sha) (parentSha : Option Sha) (attempt : Nat)
  /-- The rebuilt record is with the `resign` function. -/
  | resigning (record : JsValue)
  | resolved (record : JsValue) (commitSha : Sha)
  | thrown (failure : TrustFailure)
  deriving DecidableEq

/-- A call of `appendRecord`, or of `appendRecordWithRetry` where there are retry options. -/
structure AppendCall where
  retry : Option RetryOptions
  skipSignatureVerify : Bool
  /-- `i`, the number of attempts before this one. -/
  attempt : Nat
  phase : AppendPhase
  deriving DecidableEq

def maxCasAttempts : Nat := 3

def isFalsy : JsValue → Bool
  | .undefined | .null | .bool false | .number (.finite 0) | .number .nan | .bigint 0 | .string [] => true
  | _ => false

/-- `_verifySignatureEnvelope(record)` -/
def verifySignatureEnvelope (record : JsValue) : Bool :=
  let signature := record.get (js "signature")
  !(isFalsy signature || isFalsy (signature.get (js "sig")) || isFalsy (signature.get (js "alg")))

/-- What `appendRecord` checks before it reads the tip. -/
def checkRecord (schema : TrustSchema) (text : TrustText) (skipSignatureVerify : Bool) (record : JsValue) :
    Except TrustFailure Unit :=
  if (schema.safeParse record).isNone then .error (.recordInvalid record)
  else
    match text.verifyRecordId record with
    | .error err => .error (.other err)
    | .ok false => .error .recordIdMismatch
    | .ok true =>
        if !skipSignatureVerify && !verifySignatureEnvelope record then .error .signatureMissing else .ok ()

/-- `{ ...record, [key]: value }` -/
def withField (key : JsString) (value : JsValue) : JsValue → JsValue
  | .object fields => .object ((key, value) :: fields.filter fun field => field.1 ≠ key)
  | _ => .object [(key, value)]

namespace AppendCall

def start (retry : Option RetryOptions) (skipSignatureVerify : Bool) (record : JsValue) : AppendCall where
  retry := retry
  skipSignatureVerify := skipSignatureVerify
  attempt := 0
  phase :=
    match retry with
    | some options =>
        if options.maxRetries < 0 then .thrown (.casExhausted (js "Trust CAS failed")) else .attempting record
    | none => .attempting record

/-- What this call waits for. A ref may be unreadable, and a swap may fail without need. -/
inductive Event where
  | readTip (refReadable : Bool)
  | commit (sha : Sha)
  | swap (spurious : Bool)
  | rereadTip (refReadable : Bool)
  | resign (record : JsValue)
  | fail (err : JsError)

/-- `_readTip(ref)`: a ref that cannot be read is taken for none. -/
def tipRead (repo : TrustRepo) (refReadable : Bool) : Except JsError (Option Sha × JsValue) :=
  if refReadable then repo.readTip else .ok (none, .null)

/-- `appendRecord` up to its first write. -/
def afterTip (schema : TrustSchema) (text : TrustText) (repo : TrustRepo) (call : AppendCall) (record : JsValue)
    (refReadable : Bool) : AppendPhase :=
  match checkRecord schema text call.skipSignatureVerify record with
  | .error failure => .thrown failure
  | .ok () =>
      match tipRead repo refReadable with
      | .error err => .thrown (.other err)
      | .ok (tipSha, currentTip) =>
          if sameId (record.get (js "prev")) currentTip then .persisting record tipSha
          else .thrown (.prevMismatch (record.get (js "prev")) currentTip)

/-- What `appendRecordWithRetry` does with a conflict. -/
def afterConflict (call : AppendCall) (record : JsValue) (parentSha freshTipSha : Option Sha)
    (freshRecordId : JsValue) : AppendCall :=
  match call.retry with
  | none => { call with phase := .thrown (.casConflict parentSha freshTipSha freshRecordId) }
  | some options =>
      if call.attempt = options.maxRetries then
        { call with
          phase := .thrown (.casExhausted
            (js "Trust CAS exhausted after " ++ decimal (call.attempt + 1) ++ js " attempts (with retry)")) }
      else
        let rebuilt := withField (js "prev") freshRecordId record
        { call with
          attempt := call.attempt + 1
          phase := if options.resigns then .resigning rebuilt else .attempting rebuilt }

/-- After a failed swap: the same swap again, or a conflict. -/
def afterReread (repo : TrustRepo) (call : AppendCall) (record : JsValue) (commitSha : Sha) (parentSha : Option Sha)
    (attempt : Nat) (refReadable : Bool) : AppendCall :=
  match tipRead repo refReadable with
  | .error err => { call with phase := .thrown (.other err) }
  | .ok (freshTipSha, freshRecordId) =>
      if freshTipSha = parentSha then
        if attempt = maxCasAttempts then
          { call with
            phase := .thrown (.casExhausted
              (js "Trust CAS exhausted after " ++ decimal maxCasAttempts ++ js " attempts")) }
        else { call with phase := .swapping record commitSha parentSha (attempt + 1) }
      else call.afterConflict record parentSha freshTipSha freshRecordId

/-- The commit of a record: ids are of contents, so an id that is in use stands for the same commit. -/
def commitTo (text : TrustText) (repo : TrustRepo) (sha : Sha) (record : JsValue) (parentSha : Option Sha) :
    Option TrustRepo :=
  let commit : TrustCommit := ⟨some (text.stored record), parentSha.toList⟩
  match repo.commits.get sha with
  | some existing => if existing = commit then some repo else none
  | none => some { repo with commits := repo.commits.set sha commit }

/-- `compareAndSwapRef(ref, commitSha, parentSha)` -/
def swapRef (repo : TrustRepo) (call : AppendCall) (record : JsValue) (commitSha : Sha) (parentSha : Option Sha)
    (attempt : Nat) (spurious : Bool) : TrustRepo × AppendCall :=
  if !spurious && repo.ref = parentSha then
    ({ repo with ref := some commitSha }, { call with phase := .resolved record commitSha })
  else (repo, { call with phase := .rereading record commitSha parentSha attempt })

def step (schema : TrustSchema) (text : TrustText) (repo : TrustRepo) (call : AppendCall) (event : Event) :
    Option (TrustRepo × AppendCall) :=
  match call.phase, event with
  | .attempting record, .readTip refReadable =>
      some (repo, { call with phase := call.afterTip schema text repo record refReadable })
  | .persisting record tipSha, .commit sha =>
      (commitTo text repo sha record tipSha).map fun repo' => (repo', { call with phase := .swapping record sha tipSha 1 })
  | .swapping record commitSha parentSha attempt, .swap spurious =>
      some (swapRef repo call record commitSha parentSha attempt spurious)
  | .rereading record commitSha parentSha attempt, .rereadTip refReadable =>
      some (repo, call.afterReread repo record commitSha parentSha attempt refReadable)
  | .resigning _, .resign record => some (repo, { call with phase := .attempting record })
  | .attempting _, .fail err | .persisting _ _, .fail err | .rereading _ _ _ _, .fail err | .resigning _, .fail err =>
      some (repo, { call with phase := .thrown (.other err) })
  | _, _ => none

end AppendCall

/-! ### All calls -/

structure TrustSystem where
  repo : TrustRepo
  calls : List AppendCall
  deriving DecidableEq

inductive TrustEvent where
  | call (retry : Option RetryOptions) (skipSignatureVerify : Bool) (record : JsValue)
  | within (index : Nat) (event : AppendCall.Event)

namespace TrustSystem

def empty : TrustSystem := ⟨⟨JsMap.empty, none⟩, []⟩

def step (schema : TrustSchema) (text : TrustText) (system : TrustSystem) : TrustEvent → Option TrustSystem
  | .call retry skipSignatureVerify record =>
      some { system with calls := system.calls ++ [AppendCall.start retry skipSignatureVerify record] }
  | .within index event => do
      let call ← system.calls[index]?
      let (repo, call') ← call.step schema text system.repo event
      return ⟨repo, system.calls.set index call'⟩

end TrustSystem

end GitWarp
