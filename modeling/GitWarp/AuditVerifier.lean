import GitWarp.AuditMessage
import GitWarp.AuditReceipt
import GitWarp.GraphStore

/-! The verifier of audit chains. It walks from the tip of an audit ref to the genesis commit, or to the commit
of `--since`, and stops at the first thing that is wrong; every read can fail, and in every round of the walk
each kind of read is made at most once. -/

namespace GitWarp
open Js JsValue ExceptLoops

structure AuditCommit where
  message : JsString
  tree : Sha
  parents : List Sha
  deriving DecidableEq

/-- What the object store holds. -/
structure AuditStore where
  commits : JsMap Sha AuditCommit
  trees : JsMap Sha (JsMap JsString Sha)
  blobs : JsMap Sha (List UInt8)
  deriving DecidableEq

/-- The reads of a round. -/
inductive AuditRead where
  | nodeInfo
  | commitTree
  | treeOids
  | blob
  deriving DecidableEq

/-- How the persistence answers during one verification. -/
structure AuditReads where
  tip : Except JsError (Option Sha)
  /-- The failure of a read in a round. -/
  fault : Nat → AuditRead → Option JsError
  /-- The answer when the ref is read again after the walk. -/
  tipAfter : Except JsError (Option Sha)

/-- The parts of the platform under the verifier. -/
structure AuditPlatform where
  trailers : TrailerCodec
  /-- `codec.decode(bytes)` -/
  decode : List UInt8 → Except JsError JsValue
  /-- A value as a template literal prints it. -/
  template : JsValue → Except JsError JsString

inductive ChainStatus where
  | valid
  | partialChain
  | brokenChain
  | dataMismatch
  | error
  deriving DecidableEq

structure ChainError where
  code : String
  message : JsString
  commit : Option Sha
  deriving DecidableEq

structure ChainWarning where
  code : String
  message : JsString
  deriving DecidableEq

structure ChainResult where
  writerId : JsString
  ref : JsString
  status : ChainStatus
  receiptsVerified : Nat
  receiptsScanned : Nat
  tipCommit : Option Sha
  tipAtStart : Option Sha
  genesisCommit : Option Sha
  stoppedAt : Option Sha
  since : Option Sha
  errors : List ChainError
  warnings : List ChainWarning
  deriving DecidableEq

def ChainResult.addError (result : ChainResult) (code : String) (message : JsString) (commit : Option Sha) :
    ChainResult :=
  { result with
    errors := result.errors ++ [⟨code, message, commit.filter (· ≠ [])⟩]
    status := match result.status with
      | .valid | .partialChain => .error
      | status => status }

/-- Why a walk stops before its end: an exception nobody catches, or an error in the result. -/
inductive WalkStop where
  | threw (err : JsError)
  | failed (result : ChainResult)

/-- `this._addError(..); return` -/
def stopWith {α : Type} (result : ChainResult) (code : String) (message : JsString) (commit : Option Sha) :
    Except WalkStop α := .error (.failed (result.addError code message commit))

/-- `this._addError(..); result.status = status; return` -/
def stopAs {α : Type} (status : ChainStatus) (result : ChainResult) (code : String) (message : JsString)
    (commit : Option Sha) : Except WalkStop α :=
  .error (.failed { result.addError code message commit with status := status })

/-- A call inside `try`, where `onError` is what its `catch` does. -/
def orStop {α : Type} (x : Except JsError α) (onError : JsString → Except WalkStop α) : Except WalkStop α :=
  match x with
  | .ok a => .ok a
  | .error err => onError (js err.message)

def missingObject (sha : Sha) : JsError := ⟨"PersistenceError", "Missing Git object: " ++ toText sha⟩

/-- A read of an object: the failure, or what the store holds. -/
def answer {α : Type} (fault : Option JsError) (store : JsMap Sha α) (sha : Sha) : Except JsError α :=
  match fault, store.get sha with
  | some err, _ => .error err
  | none, none => .error (missingObject sha)
  | none, some found => .ok found

/-! ### The checks of one receipt -/

/-- `validateOidFormat(value)`: what is wrong with a string. -/
def validateOidFormat (value : JsString) : Option JsString :=
  let normalized := toLowerCase value
  if normalized = [] ∨ normalized.all isHexDigit = false then some (js "contains non-hex characters")
  else if normalized.length ≠ 40 ∧ normalized.length ≠ 64 then some (js "invalid length " ++ decimal normalized.length)
  else none

/-- `'0'.repeat(length)` -/
def zeroHash (length : Nat) : Sha := List.replicate length 48

def validateTrailerConsistency (receipt : AuditReceipt) (decoded : AuditMessage) : Option JsString :=
  if decoded.schema ≠ 1 then some (js "trailer eg-schema must be 1, got " ++ decimal decoded.schema)
  else if decoded.graph ≠ receipt.graphName then
    some (js "trailer eg-graph '" ++ decoded.graph ++ js "' !== receipt graphName '" ++ receipt.graphName ++ js "'")
  else if decoded.writer ≠ receipt.writerId then
    some (js "trailer eg-writer '" ++ decoded.writer ++ js "' !== receipt writerId '" ++ receipt.writerId ++ js "'")
  else if toLowerCase decoded.dataCommit ≠ toLowerCase receipt.dataCommit then
    some (js "trailer eg-data-commit '" ++ decoded.dataCommit ++ js "' !== receipt dataCommit '" ++ receipt.dataCommit ++
      js "'")
  else if toLowerCase decoded.opsDigest ≠ toLowerCase receipt.opsDigest then
    some (js "trailer eg-ops-digest '" ++ decoded.opsDigest ++ js "' !== receipt opsDigest '" ++ receipt.opsDigest ++
      js "'")
  else none

/-- `_validateOids(receipt, result, commitSha)` -/
def validateOids (receipt : AuditReceipt) (result : ChainResult) (commitSha : Sha) : Except WalkStop Unit :=
  match validateOidFormat receipt.dataCommit with
  | some text =>
      stopAs .brokenChain result "OID_FORMAT_INVALID" (js "dataCommit OID invalid: " ++ text) commitSha
  | none =>
      match validateOidFormat receipt.prevAuditCommit with
      | none => .ok ()
      | some text =>
          let isZero := receipt.prevAuditCommit ≠ [] && receipt.prevAuditCommit.all (· = 48)
          if isZero then .ok ()
          else stopAs .brokenChain result "OID_FORMAT_INVALID" (js "prevAuditCommit OID invalid: " ++ text) commitSha

/-- `_validateChainLink(currentReceipt, prevReceipt, commitSha, result)`, where the previous receipt is the newer
one; it may leave a warning. -/
def validateChainLink (currentReceipt prevReceipt : AuditReceipt) (commitSha : Sha) (result : ChainResult) :
    Except WalkStop ChainResult :=
  if prevReceipt.tickStart ≤ currentReceipt.tickEnd then
    stopAs .brokenChain result "TICK_MONOTONICITY"
      (js "tick " ++ decimalInt currentReceipt.tickEnd ++ js " >= previous " ++ decimalInt prevReceipt.tickStart) commitSha
  else
    let result := if currentReceipt.tickEnd + 1 < prevReceipt.tickStart then
        { result with warnings := result.warnings ++ [⟨"TICK_GAP", js "Gap between tick " ++
          decimalInt currentReceipt.tickEnd ++ js " and " ++ decimalInt prevReceipt.tickStart⟩] }
      else result
    if currentReceipt.writerId ≠ prevReceipt.writerId then
      stopAs .brokenChain result "WRITER_CONSISTENCY" (js "writerId changed from '" ++ currentReceipt.writerId ++
        js "' to '" ++ prevReceipt.writerId ++ js "'") commitSha
    else if currentReceipt.graphName ≠ prevReceipt.graphName then
      stopAs .brokenChain result "WRITER_CONSISTENCY" (js "graphName changed from '" ++ currentReceipt.graphName ++
        js "' to '" ++ prevReceipt.graphName ++ js "'") commitSha
    else .ok result

/-- The object that `readTreeOids` of the adapters fills with the entries of a tree: assigning an oid to `__proto__` adds
no key, and a tree without that name is read as it is. -/
def readTreeOids (tree : JsMap JsString Sha) : JsMap JsString Sha := tree.delete protoKey

/-- `receipt.cbor` -/
def receiptName : JsString := js "receipt.cbor"

/-- The blob of a receipt tree, which has one entry. -/
def receiptBlob (treeEntries : JsMap JsString Sha) (result : ChainResult) (commitSha : Sha) : Except WalkStop Sha :=
  match treeEntries.get receiptName, treeEntries.size with
  | some blobOid, 1 => .ok blobOid
  | _, _ =>
      stopAs .brokenChain result "RECEIPT_TREE_INVALID" (js "Expected exactly one entry 'receipt.cbor', got [" ++
        (js ", ").intercalate treeEntries.keys ++ js "]") commitSha

namespace AuditPlatform

/-- `_readReceipt(commitSha, commitInfo, result)` in one round. -/
def readReceipt (platform : AuditPlatform) (store : AuditStore) (fault : AuditRead → Option JsError) (commitSha : Sha)
    (commitInfo : AuditCommit) (result : ChainResult) : Except WalkStop (JsValue × AuditMessage) := do
  let commit ← orStop (answer (fault .commitTree) store.commits commitSha) fun text =>
    stopWith result "MISSING_RECEIPT_BLOB" (js "Cannot read tree for " ++ commitSha ++ js ": " ++ text) commitSha
  let treeOid := commit.tree
  let treeEntries ← orStop (answer (fault .treeOids) store.trees treeOid) fun text =>
    stopWith result "RECEIPT_TREE_INVALID" (js "Cannot read tree " ++ treeOid ++ js ": " ++ text) commitSha
  let blobOid ← receiptBlob (readTreeOids treeEntries) result commitSha
  let blobContent ← orStop (answer (fault .blob) store.blobs blobOid) fun text =>
    stopWith result "MISSING_RECEIPT_BLOB" (js "Cannot read receipt blob " ++ blobOid ++ js ": " ++ text) commitSha
  let receipt ← orStop (platform.decode blobContent) fun text =>
    stopAs .error result "CBOR_DECODE_FAILED" (js "CBOR decode failed: " ++ text) commitSha
  let decodedTrailers ← orStop (platform.trailers.decodeAuditMessage commitInfo.message) fun text =>
    stopAs .dataMismatch result "TRAILER_MISMATCH" (js "Trailer decode failed: " ++ text) commitSha
  return (receipt, decodedTrailers)

end AuditPlatform

/-- The schema check of a round: what it throws is not caught. -/
def checkSchema (template : JsValue → Except JsError JsString) (value : JsValue) (result : ChainResult) (current : Sha) :
    Except WalkStop AuditReceipt :=
  match validateReceiptSchema template value with
  | .error err => .error (.threw err)
  | .ok (some schemaErr) => stopWith result "RECEIPT_SCHEMA_INVALID" schemaErr current
  | .ok none => .ok (AuditReceipt.ofValue value)

/-- The checks of one length for all object ids. -/
def checkOidLength (receipt : AuditReceipt) (chainOidLen : Option Nat) (result : ChainResult) (current : Sha) :
    Except WalkStop Unit :=
  let oidLen := receipt.dataCommit.length
  match chainOidLen.filter (· ≠ oidLen) with
  | some chainOidLen =>
      stopWith result "OID_LENGTH_MISMATCH"
        (js "OID length changed from " ++ decimal chainOidLen ++ js " to " ++ decimal oidLen) current
  | none =>
      if receipt.prevAuditCommit.length ≠ oidLen then
        stopWith result "OID_LENGTH_MISMATCH" (js "prevAuditCommit length " ++ decimal receipt.prevAuditCommit.length ++
          js " !== dataCommit length " ++ decimal oidLen) current
      else .ok ()

def checkTrailers (receipt : AuditReceipt) (decoded : AuditMessage) (result : ChainResult) (current : Sha) :
    Except WalkStop Unit :=
  match validateTrailerConsistency receipt decoded with
  | some trailerErr => stopAs .dataMismatch result "TRAILER_MISMATCH" trailerErr current
  | none => .ok ()

/-- The link to the receipt of the round before, if there was one. -/
def checkLink (receipt : AuditReceipt) (prevReceipt : Option AuditReceipt) (current : Sha) (result : ChainResult) :
    Except WalkStop ChainResult :=
  match prevReceipt with
  | some prevReceipt => validateChainLink receipt prevReceipt current result
  | none => .ok result

def checkWriter (receipt : AuditReceipt) (graphName writerId : JsString) (result : ChainResult) (current : Sha) :
    Except WalkStop Unit :=
  if receipt.writerId ≠ writerId then
    stopAs .brokenChain result "WRITER_CONSISTENCY"
      (js "receipt writerId '" ++ receipt.writerId ++ js "' !== expected '" ++ writerId ++ js "'") current
  else if receipt.graphName ≠ graphName then
    stopAs .brokenChain result "WRITER_CONSISTENCY"
      (js "receipt graphName '" ++ receipt.graphName ++ js "' !== expected '" ++ graphName ++ js "'") current
  else .ok ()

/-! ### The walk -/

/-- What follows a round in which every check passed. -/
inductive WalkNext where
  | done (result : ChainResult)
  | next (result : ChainResult)

/-- `if (result.errors.length === 0) result.status = status` -/
def ChainResult.conclude (result : ChainResult) (status : ChainStatus) : ChainResult :=
  if result.errors = [] then { result with status := status } else result

/-- The end of a round: the `--since` boundary, the genesis commit, or a commit with one older receipt. -/
def roundEnd (commitInfo : AuditCommit) (receipt : AuditReceipt) (since : Option Sha) (current : Sha)
    (result : ChainResult) : Except WalkStop WalkNext :=
  if since = some current then .ok (.done ({ result with stoppedAt := some current }.conclude .partialChain))
  else if receipt.prevAuditCommit = zeroHash receipt.dataCommit.length then
    let result := { result with genesisCommit := some current }
    if commitInfo.parents ≠ [] then
      stopAs .brokenChain result "GENESIS_HAS_PARENTS"
        (js "Genesis commit has " ++ decimal commitInfo.parents.length ++ js " parent(s)") current
    else
      match since with
      | some since =>
          stopAs .error result "SINCE_NOT_FOUND" (js "Commit " ++ since ++ js " not found in chain") none
      | none => .ok (.done (result.conclude .valid))
  else
    match commitInfo.parents with
    | [parent] =>
        if parent ≠ receipt.prevAuditCommit then
          stopAs .brokenChain result "GIT_PARENT_MISMATCH"
            (js "Git parent '" ++ parent ++ js "' !== prevAuditCommit '" ++ receipt.prevAuditCommit ++ js "'") current
        else .ok (.next result)
    | _ =>
        stopAs .brokenChain result "CONTINUATION_NO_PARENT" (js "Continuation commit has " ++
          decimal commitInfo.parents.length ++ js " parent(s), expected 1") current

namespace AuditPlatform

/-- One round of the walk, with the receipt that it read. -/
def walkRound (platform : AuditPlatform) (store : AuditStore) (fault : AuditRead → Option JsError)
    (graphName writerId : JsString) (since : Option Sha) (current : Sha) (prevReceipt : Option AuditReceipt)
    (chainOidLen : Option Nat) (result : ChainResult) : Except WalkStop (AuditReceipt × WalkNext) := do
  let result := { result with receiptsScanned := result.receiptsScanned + 1 }
  let commitInfo ← orStop (answer (fault .nodeInfo) store.commits current) fun text =>
    stopWith result "MISSING_RECEIPT_BLOB" (js "Cannot read commit " ++ current ++ js ": " ++ text) current
  let (value, decodedTrailers) ← platform.readReceipt store fault current commitInfo result
  let receipt ← checkSchema platform.template value result current
  validateOids receipt result current
  checkOidLength receipt chainOidLen result current
  checkTrailers receipt decodedTrailers result current
  let result ← checkLink receipt prevReceipt current result
  checkWriter receipt graphName writerId result current
  let next ← roundEnd commitInfo receipt since current { result with receiptsVerified := result.receiptsVerified + 1 }
  return (receipt, next)

/-- `_walkChain` after its loop. -/
def afterLoop (since : Option Sha) (result : ChainResult) : ChainResult :=
  match since with
  | some since =>
      { result.addError "SINCE_NOT_FOUND" (js "Commit " ++ since ++ js " not found in chain") none with
        status := .error }
  | none => result

/-- The loop of `_walkChain` from a round; `none` where the fuel ends first. -/
def walkChain (platform : AuditPlatform) (store : AuditStore) (fault : Nat → AuditRead → Option JsError)
    (graphName writerId : JsString) (since : Option Sha) : Nat → Nat → Sha → Option AuditReceipt → Option Nat →
    ChainResult → Option (Except JsError ChainResult)
  | 0, _, _, _, _, _ => none
  | fuel + 1, round, current, prevReceipt, chainOidLen, result =>
      if current = [] then some (.ok (afterLoop since result))
      else
        match platform.walkRound store (fault round) graphName writerId since current prevReceipt chainOidLen result with
        | .error (.threw err) => some (.error err)
        | .error (.failed result) => some (.ok result)
        | .ok (_, .done result) => some (.ok result)
        | .ok (receipt, .next result) =>
            platform.walkChain store fault graphName writerId since fuel (round + 1) receipt.prevAuditCommit
              (some receipt) (some receipt.dataCommit.length) result

/-- `_checkTipMoved(ref, result)` -/
def checkTipMoved (reads : AuditReads) (result : ChainResult) : ChainResult :=
  match reads.tipAfter with
  | .error _ | .ok none | .ok (some []) => result
  | .ok (some currentTip) =>
      if some currentTip = result.tipAtStart then result
      else { result with warnings := result.warnings ++ [⟨"TIP_MOVED_DURING_VERIFY", js "Ref tip moved from " ++
        result.tipAtStart.getD (js "null") ++ js " to " ++ currentTip ++ js " during verification"⟩] }

def verifyChain (platform : AuditPlatform) (store : AuditStore) (reads : AuditReads) (graphName writerId : JsString)
    (since : Option Sha) (fuel : Nat) : Option (Except JsError ChainResult) :=
  match buildAuditRef graphName writerId with
  | .error err => some (.error err)
  | .ok ref =>
      let since := since.filter (· ≠ [])
      let result : ChainResult :=
        { writerId, ref, status := .valid, receiptsVerified := 0, receiptsScanned := 0, tipCommit := none,
          tipAtStart := none, genesisCommit := none, stoppedAt := none, since, errors := [], warnings := [] }
      match reads.tip with
      | .error _ | .ok none | .ok (some []) => some (.ok result)
      | .ok (some tip) =>
          let result := { result with tipCommit := some tip, tipAtStart := some tip }
          (platform.walkChain store reads.fault graphName writerId since fuel 0 tip none none result).map
            (Except.map (checkTipMoved reads))

end AuditPlatform

end GitWarp
