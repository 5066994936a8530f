import GitWarp.AuditVerifier
import GitWarp.TrustChain
import GitWarp.TrustState

/-! The trust of the writers of a graph: the records are read and verified, the state is built of them, and each
writer is looked up in it. What cannot be read or verified is assessed as a failure. -/

namespace GitWarp
open Js JsValue ExceptLoops

inductive TrustVerdict where
  | pass
  | fail
  | notConfigured
  deriving DecidableEq

inductive TrustAssessmentStatus where
  | notConfigured
  | configured
  | pinned
  | error
  deriving DecidableEq

structure TrustExplanation where
  writerId : JsString
  trusted : Bool
  reasonCode : JsString
  reason : JsString
  deriving DecidableEq

structure EvidenceSummary where
  recordsScanned : Nat
  activeKeys : Nat
  revokedKeys : Nat
  activeBindings : Nat
  revokedBindings : Nat
  deriving DecidableEq

/-- The field `trust` of an assessment. -/
structure TrustEvidence where
  status : TrustAssessmentStatus
  source : JsString
  sourceDetail : Option JsString
  evaluatedWriters : List JsString
  untrustedWriters : List JsString
  explanations : List TrustExplanation
  evidenceSummary : EvidenceSummary
  deriving DecidableEq

structure TrustAssessment where
  trustSchemaVersion : Nat
  mode : JsString
  trustVerdict : TrustVerdict
  trust : TrustEvidence
  deriving DecidableEq

/-! ### The evaluator -/

def deriveTrustVerdict (trust : TrustEvidence) : TrustVerdict :=
  match trust.status with
  | .notConfigured => .notConfigured
  | .error => .fail
  | .configured | .pinned => if trust.untrustedWriters ≠ [] then .fail else .pass

def buildEvidenceSummary (trustState : TrustState) : EvidenceSummary where
  recordsScanned := trustState.recordsProcessed
  activeKeys := trustState.activeKeys.size
  revokedKeys := trustState.revokedKeys.size
  activeBindings := trustState.writerBindings.size
  revokedBindings := trustState.revokedBindings.size

/-- `{ trustSchemaVersion: 1, mode: 'signed_evidence_v1', ... }` -/
def assessed (trust : TrustEvidence) : TrustAssessment := ⟨1, js "signed_evidence_v1", deriveTrustVerdict trust, trust⟩

/-- `bindingKey.startsWith(writerId + NUL)` -/
def isBindingOf (writerId key : JsString) : Bool := (writerId ++ [0]).isPrefixOf key

def evaluateSingleWriter (writerId : JsString) (trustState : TrustState) : TrustExplanation :=
  let activeKeyIds := (trustState.writerBindings.entries.filter fun entry => isBindingOf writerId entry.1).map
    fun entry => entry.2.keyId
  let hasRevokedBinding := trustState.revokedBindings.keys.any (isBindingOf writerId)
  if activeKeyIds = [] then
    if hasRevokedBinding then
      ⟨writerId, false, js "BINDING_REVOKED",
        js "Writer '" ++ writerId ++ js "' has no active bindings (all revoked)"⟩
    else ⟨writerId, false, js "WRITER_HAS_NO_ACTIVE_BINDING", js "Writer '" ++ writerId ++ js "' has no active bindings"⟩
  else
    match activeKeyIds.find? trustState.activeKeys.has with
    | some keyId =>
        ⟨writerId, true, js "WRITER_BOUND_TO_ACTIVE_KEY",
          js "Writer '" ++ writerId ++ js "' is bound to active key " ++ keyId⟩
    | none =>
        ⟨writerId, false, js "WRITER_BOUND_KEY_REVOKED",
          js "Writer '" ++ writerId ++ js "' is bound only to revoked keys"⟩

def sortWriters (writerIds : List JsString) : List JsString := writerIds.insertionSort (· ≤ ·)

def buildErrorAssessment (writerIds : List JsString) (reasonCode : JsString) : TrustAssessment :=
  let sortedWriters := sortWriters writerIds
  assessed ⟨.error, js "none", none, sortedWriters, sortedWriters,
    sortedWriters.map fun writerId => ⟨writerId, false, reasonCode, js "Policy validation failed: " ++ reasonCode⟩,
    ⟨0, 0, 0, 0, 0⟩⟩

/-- One explanation for each writer, or one for `*` where there is none. -/
def explainAll (writerIds : List JsString) (reasonCode reason : JsString) : List TrustExplanation :=
  if writerIds = [] then [⟨js "*", false, reasonCode, reason⟩]
  else writerIds.map fun writerId => ⟨writerId, false, reasonCode, reason⟩

def buildTrustStateErrorAssessment (writerIds : List JsString) (trustState : TrustState) : TrustAssessment :=
  let sortedWriters := sortWriters writerIds
  let firstError := ((trustState.errors.head?.map TrustStateError.error).filter isNonEmpty).getD
    (js "Invalid trust evidence")
  assessed ⟨.error, js "ref", none, sortedWriters, sortedWriters,
    explainAll sortedWriters (js "TRUST_RECORD_CHAIN_INVALID") (js "Trust evidence invalid: " ++ firstError),
    buildEvidenceSummary trustState⟩

/-- `evaluateWriters(writerIds, trustState, { schemaVersion: 1, mode, writerPolicy: .. })` -/
def evaluateWriters (writerIds : List JsString) (trustState : TrustState) (mode : JsString) : TrustAssessment :=
  if isOneOf [js "warn", js "enforce"] mode = false then buildErrorAssessment writerIds (js "TRUST_POLICY_INVALID")
  else if trustState.errors ≠ [] then buildTrustStateErrorAssessment writerIds trustState
  else
    let sortedWriters := sortWriters writerIds
    let explanations := sortedWriters.map fun writerId => evaluateSingleWriter writerId trustState
    let untrustedWriters := (explanations.filter fun e => !e.trusted).map TrustExplanation.writerId
    assessed ⟨.configured, js "ref", none, sortedWriters, untrustedWriters, explanations,
      buildEvidenceSummary trustState⟩

/-! ### The records of a graph -/

inductive PersistenceErrorCode where
  | missingObject
  | refNotFound
  | refIo
  deriving DecidableEq

/-- A failure of a read that does not say that the ref is not there. -/
structure OperationalError where
  error : JsError
  code : Option PersistenceErrorCode
  operational : code ≠ some .refNotFound

def buildTrustRecordRef (graphName : JsString) : Except JsError JsString := do
  validateGraphName graphName
  return refPrefix ++ js "/" ++ graphName ++ js "/trust/records"

def buildAuditPrefix (graphName : JsString) : Except JsError JsString := do
  validateGraphName graphName
  return refPrefix ++ js "/" ++ graphName ++ js "/audit/"

/-- How the reads of one evaluation fail. -/
structure TrustFailures where
  tip : Option OperationalError
  walk : Nat → AuditRead → Option JsError
  listRefs : Option JsError

/-- The parts of the platform under an evaluation. -/
structure TrustPlatform where
  schema : TrustSchema
  text : TrustText
  /-- `this._trustCrypto` -/
  crypto : TrustBuildOptions
  /-- `codec.decode(bytes)` -/
  decode : List UInt8 → Except JsError JsValue
  /-- `JSON.stringify(value)` -/
  stringify : JsValue → JsString
  /-- A value as a template literal prints it. -/
  template : JsValue → Except JsError JsString

namespace TrustPlatform

/-- A round of the loop of `readRecords`: the commit, and the record where its tree has one. -/
def readTrustRecord (platform : TrustPlatform) (store : AuditStore) (fault : AuditRead → Option JsError) (current : Sha) :
    Except JsError (AuditCommit × Option JsValue) := do
  let info ← answer (fault .nodeInfo) store.commits current
  let commit ← answer (fault .commitTree) store.commits current
  let entries ← answer (fault .treeOids) store.trees commit.tree
  match (entries.get (js "record.cbor")).filter (· ≠ []) with
  | none => return (info, none)
  | some blobOid =>
      let data ← answer (fault .blob) store.blobs blobOid
      let record ← platform.decode data
      return (info, some record)

/-- The loop of `readRecords` from a round; `none` where the fuel ends first. -/
def readRecordsFrom (platform : TrustPlatform) (store : AuditStore) (fault : Nat → AuditRead → Option JsError) :
    Nat → Nat → Sha → List JsValue → Option (Except JsError (List JsValue))
  | 0, _, _, _ => none
  | fuel + 1, round, current, records =>
      if current = [] then some (.ok records)
      else
        match platform.readTrustRecord store (fault round) current with
        | .error err => some (.error err)
        | .ok (_, none) => some (.ok records)
        | .ok (info, some record) =>
            match info.parents with
            | [] => some (.ok (record :: records))
            | parent :: _ => platform.readRecordsFrom store fault fuel (round + 1) parent (record :: records)

/-- `readRecords(graphName, pin ? { tip: pin } : {})` where the ref has a name; the result is that of the inner
`try`. -/
def readRecords (platform : TrustPlatform) (store : AuditStore) (refs : JsMap JsString Sha) (failures : TrustFailures)
    (ref : JsString) (pin : Option Sha) (fuel : Nat) : Option (Except JsError (List JsValue)) :=
  match pin with
  | some tip => platform.readRecordsFrom store failures.walk fuel 0 tip []
  | none =>
      match failures.tip with
      | some failure =>
          if failure.code = some .refNotFound then some (.ok [])
          else some (.error ⟨"TrustError", "Failed to read trust chain ref: " ++ failure.error.message⟩)
      | none =>
          match (refs.get ref).filter (· ≠ []) with
          | none => some (.ok [])
          | some tip => platform.readRecordsFrom store failures.walk fuel 0 tip []

/-- The texts of the errors of `verifyChain`; a template literal may throw. -/
def chainTexts (platform : TrustPlatform) (errors : List (Nat × ChainFault)) : Except JsError (List JsString) :=
  errors.mapM fun error => do
    match error.2 with
    | .prevLink expectedPrev prev =>
        let _ ← platform.template expectedPrev
        let _ ← platform.template prev
        return error.2.text platform.schema platform.stringify fun value => (platform.template value).toOption.getD []
    | fault => return fault.text platform.schema platform.stringify fun _ => []

end TrustPlatform

/-! ### The assessment -/

structure TrustOptions where
  pin : Option Sha
  mode : Option JsString
  writerIds : Option (List JsString)
  source : Option JsString
  sourceDetail : Option JsString
  status : Option TrustAssessmentStatus

structure TrustSource where
  status : TrustAssessmentStatus
  source : JsString
  sourceDetail : Option JsString

/-- `options.pin`, where it is not empty. -/
def TrustOptions.pinned (options : TrustOptions) : Option Sha := options.pin.filter (· ≠ [])

def resolveTrustSource (options : TrustOptions) : TrustSource where
  status := options.status.getD (if options.pinned.isSome then .pinned else .configured)
  source := (options.source.filter isNonEmpty).getD (if options.pinned.isSome then js "pinned" else js "ref")
  sourceDetail := options.sourceDetail.or options.pin

/-- A failure; its reason code is `TRUST_RECORD_CHAIN_INVALID` for every caller. -/
def buildTrustFailureAssessment (status : TrustAssessmentStatus) (source : TrustSource) (writerIds : List JsString)
    (recordsScanned : Nat) (reason : JsString) : TrustAssessment :=
  let evaluatedWriters := sortWriters writerIds
  ⟨1, js "signed_evidence_v1", .fail, status, source.source, source.sourceDetail, evaluatedWriters, evaluatedWriters,
    explainAll evaluatedWriters (js "TRUST_RECORD_CHAIN_INVALID") reason, ⟨recordsScanned, 0, 0, 0, 0⟩⟩

/-- The assessment of a graph without records. -/
def notConfiguredAssessment : TrustAssessment :=
  ⟨1, js "signed_evidence_v1", .notConfigured, .notConfigured, js "none", none, [], [], [], ⟨0, 0, 0, 0, 0⟩⟩

/-- `listRefs(prefix)`: the names of the refs that begin with it. -/
def listRefs (refs : JsMap JsString Sha) (failure : Option JsError) (front : JsString) : Except JsError (List JsString) :=
  match failure with
  | some err => .error err
  | none => .ok (refs.keys.filter front.isPrefixOf)

def listWriterIds (refs : JsMap JsString Sha) (failure : Option JsError) (graphName : JsString) :
    Except JsError (List JsString) := do
  let front ← buildAuditPrefix graphName
  let found ← listRefs refs failure front
  return (found.map (List.drop front.length)).filter (· ≠ [])

namespace TrustPlatform

/-- What follows the reading of some records. -/
def assessRecords (platform : TrustPlatform) (refs : JsMap JsString Sha) (failures : TrustFailures)
    (graphName : JsString) (options : TrustOptions) (records : List JsValue) : Except JsError TrustAssessment := do
  let source := resolveTrustSource options
  if records = [] then return notConfiguredAssessment
  let errors ← verifyChain platform.schema platform.text records
  let texts ← platform.chainTexts errors
  match texts with
  | first :: _ =>
      return buildTrustFailureAssessment .error source (options.writerIds.getD []) records.length
        (js "Trust chain invalid: " ++ (if first ≠ [] then first else js "unknown chain error"))
  | [] =>
      let trustState := buildState platform.schema platform.crypto records
      let writerIds ← match options.writerIds with
        | some writerIds => .ok writerIds
        | none => listWriterIds refs failures.listRefs graphName
      let assessment := evaluateWriters writerIds trustState (options.mode.getD (js "warn"))
      return { assessment with
        trust := { assessment.trust with
          status := if assessment.trust.status = .error then .error else source.status
          source := source.source
          sourceDetail := source.sourceDetail } }

/-- What `readRecords` could not read is a failure. -/
def assessRead (platform : TrustPlatform) (refs : JsMap JsString Sha) (failures : TrustFailures) (graphName : JsString)
    (options : TrustOptions) (read : Except JsError (List JsValue)) : Except JsError TrustAssessment :=
  match read with
  | .error err => .ok (buildTrustFailureAssessment .error (resolveTrustSource options) [] 0
      (js "Trust chain read failed: " ++ js err.message))
  | .ok records => platform.assessRecords refs failures graphName options records

/-- `evaluateTrust(graphName, options)`; `none` where the fuel ends first. -/
def evaluateTrust (platform : TrustPlatform) (store : AuditStore) (refs : JsMap JsString Sha) (failures : TrustFailures)
    (graphName : JsString) (options : TrustOptions) (fuel : Nat) : Option (Except JsError TrustAssessment) :=
  match buildTrustRecordRef graphName with
  | .error err => some (.error err)
  | .ok ref => (platform.readRecords store refs failures ref options.pinned fuel).map
      (platform.assessRead refs failures graphName options)

end TrustPlatform

end GitWarp
