import GitWarp.ReducerDiff

/-! Tick receipts: `applyWithReceipt` applies a patch like `applyFast` and records, operation by operation, what
became of it. The receipt is checked when it is made, after the patch has been applied. -/

namespace GitWarp
open Js ExceptLoops

variable {V : Type}

/-- `OP_TYPES` -/
inductive ReceiptOpType where
  | nodeAdd
  | nodeTombstone
  | edgeAdd
  | edgeTombstone
  | propSet
  | nodePropSet
  | edgePropSet
  | blobValue
  deriving DecidableEq

/-- `RESULT_TYPES` -/
inductive OutcomeResult where
  | applied
  | superseded
  | redundant
  deriving DecidableEq

structure Outcome where
  target : JsString
  result : OutcomeResult
  reason : Option String

structure OpOutcome where
  op : ReceiptOpType
  target : JsString
  result : OutcomeResult
  reason : Option String

structure TickReceipt where
  patchSha : JsString
  writer : JsString
  lamport : Nat
  ops : List OpOutcome

/-- `'*'` -/
def anyTarget : JsString := js "*"

/-- `value || '*'` -/
def orAnyTarget : Option JsString → JsString
  | none => anyTarget
  | some [] => anyTarget
  | some value => value

def addOutcome (orset : ORSet) (element : JsString) (dot : Dot) : Outcome :=
  if (orset.dotsOf element).has (encodeDot dot) then ⟨element, .redundant, none⟩
  else ⟨element, .applied, none⟩

def nodeAddOutcome (orset : ORSet) (node : JsString) (dot : Dot) : Outcome := addOutcome orset node dot

def edgeAddOutcome (orset : ORSet) (dot : Dot) (edgeKey : JsString) : Outcome := addOutcome orset edgeKey dot

/-- Some observed dot is present and not yet removed. -/
def removeIsEffective (orset : ORSet) (observedDots : List JsString) : Bool :=
  let targetDots := JsSet.ofList observedDots
  let dotToElement := buildDotToElement orset targetDots
  targetDots.elems.any fun encodedDot =>
    !orset.tombstones.has encodedDot && dotToElement.has encodedDot

def removeOutcome (orset : ORSet) (observedDots : List JsString) (target : JsString) : Outcome :=
  ⟨target, if removeIsEffective orset observedDots then .applied else .redundant, none⟩

def nodeRemoveOutcome (orset : ORSet) (node : Option JsString) (observedDots : List JsString) : Outcome :=
  removeOutcome orset observedDots (orAnyTarget node)

def edgeRemoveOutcome (orset : ORSet) (fromId toId label : Option JsString) (observedDots : List JsString) :
    Outcome :=
  removeOutcome orset observedDots
    (match fromId, toId, label with
    | some fromId, some toId, some label =>
        if fromId ≠ [] ∧ toId ≠ [] ∧ label ≠ [] then encodeEdgeKey fromId toId label else anyTarget
    | _, _, _ => anyTarget)

def propOutcomeForKey (prop : JsMap JsString (LWWRegister V)) (key : JsString) (eventId : EventId) : Outcome :=
  match prop.get key with
  | none => ⟨key, .applied, none⟩
  | some current =>
      let cmp := compareEventIds eventId current.eventId
      if 0 < cmp then ⟨key, .applied, none⟩
      else if cmp < 0 then
        let winner := current.eventId
        ⟨key, .superseded, some s!"LWW: writer {toText winner.writerId} at lamport {winner.lamport} wins"⟩
      else ⟨key, .redundant, none⟩

/-- What becomes of an operation, seen from the state before it. -/
def opOutcome (state : WarpStateV5 V) (op : OpV2 V) (eventId : EventId) : Outcome :=
  match op with
  | .nodeAdd node dot => nodeAddOutcome state.nodeAlive node dot
  | .nodeRemove node observedDots => nodeRemoveOutcome state.nodeAlive node observedDots
  | .edgeAdd edge dot => edgeAddOutcome state.edgeAlive dot edge.key
  | .edgeRemove fromId toId label observedDots =>
      edgeRemoveOutcome state.edgeAlive fromId toId label observedDots
  | .propSet node key _ | .nodePropSet node key _ =>
      propOutcomeForKey state.prop (encodePropKey node key) eventId
  | .edgePropSet edge key _ =>
      propOutcomeForKey state.prop (encodeEdgePropKey edge.fromId edge.toId edge.label key) eventId
  | .blobValue node oid =>
      ⟨orAnyTarget (if node = [] then some oid else some node), .applied, none⟩
  | .unknown _ => ⟨anyTarget, .applied, none⟩

/-- The type under which an operation is in a receipt; `none` if it is left out. -/
def receiptOpType : OpV2 V → Option ReceiptOpType
  | .nodeAdd _ _ => some .nodeAdd
  | .nodeRemove _ _ => some .nodeTombstone
  | .edgeAdd _ _ => some .edgeAdd
  | .edgeRemove _ _ _ _ => some .edgeTombstone
  | .propSet _ _ _ => some .propSet
  | .nodePropSet _ _ _ => some .nodePropSet
  | .edgePropSet _ _ _ => some .edgePropSet
  | .blobValue _ _ => some .blobValue
  | .unknown type =>
      if type = js "NodeTombstone" then some .nodeTombstone
      else if type = js "EdgeTombstone" then some .edgeTombstone
      else none

/-- The entry of an operation in the receipt. -/
def receiptEntry (state : WarpStateV5 V) (op : OpV2 V) (eventId : EventId) : List OpOutcome :=
  match receiptOpType op with
  | none => []
  | some type =>
      let outcome := opOutcome state op eventId
      [⟨type, outcome.target, outcome.result, outcome.reason⟩]

/-- The types and results of the entries are valid by their types. -/
def createTickReceipt (patchSha writer : JsString) (lamport : Nat) (ops : List OpOutcome) :
    Except JsError TickReceipt :=
  if patchSha = [] then thrown "patchSha must be a non-empty string"
  else if writer = [] then thrown "writer must be a non-empty string"
  else
    match ops.findIdx? fun entry => entry.target.isEmpty with
    | some i => thrown s!"ops[{i}].target must be a non-empty string"
    | none => .ok ⟨patchSha, writer, lamport, ops⟩

def applyWithReceipt (state : WarpStateV5 V) (patch : PatchV2 V) (patchSha : JsString) :
    Except JsError (WarpStateV5 V × TickReceipt) := do
  let acc ← patch.ops.zipIdx.foldlM (fun (acc : WarpStateV5 V × List OpOutcome) item => do
    let canonOp ← normalizeRawOp item.1
    let eventId ← createEventId patch.lamport patch.writer patchSha item.2
    -- the outcome is that in the state before the operation
    let entry := receiptEntry acc.1 canonOp eventId
    let state ← applyOpV2 acc.1 canonOp eventId
    return (state, acc.2 ++ entry)) (state, [])
  let state ← updateFrontierFromPatch acc.1 patch
  let receipt ← createTickReceipt patchSha patch.writer patch.lamport acc.2
  return (state, receipt)

/-! ### Reading first, as for `applyFast` -/

/-- One canonical operation with its entry. -/
def receiptEvent (acc : WarpStateV5 V × List OpOutcome) (event : OpV2 V × EventId) :
    WarpStateV5 V × List OpOutcome :=
  (applyEvent acc.1 event, acc.2 ++ receiptEntry acc.1 event.1 event.2)

/-- The entries of one patch. -/
def receiptOps (state : WarpStateV5 V) (events : List (OpV2 V × EventId)) : List OpOutcome :=
  (events.foldl receiptEvent (state, [])).2

theorem fst_foldl_receiptEvent (events : List (OpV2 V × EventId)) (acc : WarpStateV5 V × List OpOutcome) :
    (events.foldl receiptEvent acc).1 = events.foldl applyEvent acc.1 := by
  induction events generalizing acc with
  | nil => rfl
  | cons event rest ih => exact ih (receiptEvent acc event)

/-- An entry of the receipt is the entry of some event in some state. -/
theorem mem_foldl_receiptEvent {events : List (OpV2 V × EventId)} {acc : WarpStateV5 V × List OpOutcome}
    {entry : OpOutcome} (h : entry ∈ (events.foldl receiptEvent acc).2) :
    entry ∈ acc.2 ∨ ∃ event ∈ events, ∃ state, entry ∈ receiptEntry state event.1 event.2 := by
  induction events generalizing acc with
  | nil => exact Or.inl h
  | cons event rest ih =>
      rcases ih h with hacc | ⟨event', hevent', state, hentry⟩
      · rcases List.mem_append.mp hacc with hacc | hentry
        · exact Or.inl hacc
        · exact Or.inr ⟨event, List.mem_cons_self .., acc.1, hentry⟩
      · exact Or.inr ⟨event', List.mem_cons_of_mem _ hevent', state, hentry⟩

/-- Every event has left its entry. -/
theorem exists_mem_foldl_receiptEvent {events : List (OpV2 V × EventId)}
    (acc : WarpStateV5 V × List OpOutcome) {event : OpV2 V × EventId} (hevent : event ∈ events) :
    ∃ state, ∀ entry ∈ receiptEntry state event.1 event.2, entry ∈ (events.foldl receiptEvent acc).2 := by
  have hkept : ∀ (events : List (OpV2 V × EventId)) (acc : WarpStateV5 V × List OpOutcome),
      ∀ entry ∈ acc.2, entry ∈ (events.foldl receiptEvent acc).2 := by
    intro events
    induction events with
    | nil => exact fun acc entry hentry => hentry
    | cons event rest ih => exact fun acc entry hentry => ih _ entry (List.mem_append_left _ hentry)
  induction events generalizing acc with
  | nil => cases hevent
  | cons head rest ih =>
      rcases List.mem_cons.mp hevent with rfl | hevent
      · exact ⟨acc.1, fun entry hentry => hkept rest _ entry (List.mem_append_right _ hentry)⟩
      · exact ih _ hevent

theorem createTickReceipt_eq_ok_iff (patchSha writer : JsString) (lamport : Nat) (ops : List OpOutcome) :
    (∃ receipt, createTickReceipt patchSha writer lamport ops = .ok receipt) ↔
      patchSha ≠ [] ∧ writer ≠ [] ∧ ∀ entry ∈ ops, entry.target ≠ [] := by
  unfold createTickReceipt
  split
  · rename_i hsha
    constructor
    · rintro ⟨receipt, h⟩
      cases h
    · exact fun h => absurd hsha h.1
  · split
    · rename_i hwriter
      constructor
      · rintro ⟨receipt, h⟩
        cases h
      · exact fun h => absurd hwriter h.2.1
    · rename_i hsha hwriter
      cases hfind : ops.findIdx? fun entry => entry.target.isEmpty with
      | some i =>
          have hany : (ops.findIdx? fun entry => entry.target.isEmpty).isSome = true := by rw [hfind]; rfl
          rw [List.findIdx?_isSome, List.any_eq_true] at hany
          obtain ⟨entry, hentry, hempty⟩ := hany
          constructor
          · rintro ⟨receipt, h⟩
            cases h
          · exact fun h => absurd (List.isEmpty_iff.mp hempty) (h.2.2 entry hentry)
      | none =>
          refine ⟨fun _ => ⟨hsha, hwriter, fun entry hentry hempty => ?_⟩, fun _ => ⟨_, rfl⟩⟩
          have hfalse := List.findIdx?_eq_none_iff.mp hfind entry hentry
          rw [hempty] at hfalse
          cases hfalse

/-- A patch that can be read is applied, and gets a receipt if no entry lacks a target. -/
theorem applyWithReceipt_of_readPatch {entry : PatchEntry V} {read : ReadPatch V}
    (hread : readPatch entry = .ok read) (state : WarpStateV5 V) :
    applyWithReceipt state entry.patch entry.sha =
      (createTickReceipt entry.sha entry.patch.writer entry.patch.lamport
        (receiptOps state read.events)).map fun receipt => (applyRead state read, receipt) := by
  obtain ⟨events, context, hevents, hcontext, rfl⟩ := readPatch_eq_ok hread
  unfold applyWithReceipt
  rw [foldlM_canonical_ok hevents
    (fun (acc : WarpStateV5 V × List OpOutcome) canonOp eventId => do
      let entry := receiptEntry acc.1 canonOp eventId
      let state ← applyOpV2 acc.1 canonOp eventId
      return (state, acc.2 ++ entry)) receiptEvent]
  · simp only [bind, Except.bind, updateFrontierFromPatch, hcontext, fst_foldl_receiptEvent]
    rfl
  · intro acc raw canon eventId hop
    simp only [applyOpV2_normalized hop]
    rfl

/-! ### Which patches get a receipt -/

theorem orAnyTarget_ne_nil (value : Option JsString) : orAnyTarget value ≠ [] := by
  unfold orAnyTarget
  split
  · decide
  · decide
  · rename_i hvalue
    exact fun h => hvalue (h ▸ rfl)

theorem encodeEdgeKey_ne_nil (fromId toId label : JsString) : encodeEdgeKey fromId toId label ≠ [] :=
  List.append_ne_nil_of_right_ne_nil _ (List.cons_ne_nil _ _)

/-- Only the addition of a node with an empty id has no target. -/
theorem opOutcome_target_ne_nil_iff (state : WarpStateV5 V) (op : OpV2 V) (eventId : EventId) :
    (opOutcome state op eventId).target ≠ [] ↔ ∀ dot, op ≠ .nodeAdd [] dot := by
  have hprop : ∀ key, (propOutcomeForKey state.prop key eventId).target = key := by
    intro key
    unfold propOutcomeForKey
    cases state.prop.get key with
    | none => rfl
    | some current =>
        simp only
        split_ifs <;> rfl
  have hadd : ∀ (orset : ORSet) element dot, (addOutcome orset element dot).target = element := by
    intro orset element dot
    unfold addOutcome
    split <;> rfl
  cases op with
  | nodeAdd node dot =>
      rw [opOutcome, nodeAddOutcome, hadd]
      constructor
      · rintro hnode dot' h
        cases h
        exact hnode rfl
      · rintro h rfl
        exact h dot rfl
  | nodeRemove node observedDots => exact iff_of_true (orAnyTarget_ne_nil node) (by simp)
  | edgeAdd edge dot =>
      rw [opOutcome, edgeAddOutcome, hadd]
      exact iff_of_true (encodeEdgeKey_ne_nil _ _ _) (by simp)
  | edgeRemove fromId toId label observedDots =>
      refine iff_of_true ?_ (by simp)
      simp only [opOutcome, edgeRemoveOutcome, removeOutcome]
      split
      · split
        · exact encodeEdgeKey_ne_nil _ _ _
        · decide
      · decide
  | propSet node key value =>
      rw [opOutcome, hprop]
      exact iff_of_true (List.append_ne_nil_of_right_ne_nil _ (List.cons_ne_nil _ _)) (by simp)
  | nodePropSet node key value =>
      rw [opOutcome, hprop]
      exact iff_of_true (List.append_ne_nil_of_right_ne_nil _ (List.cons_ne_nil _ _)) (by simp)
  | edgePropSet edge key value =>
      rw [opOutcome, hprop]
      exact iff_of_true (List.cons_ne_nil _ _) (by simp)
  | blobValue node oid => exact iff_of_true (orAnyTarget_ne_nil _) (by simp)
  | unknown type => exact iff_of_true (show anyTarget ≠ [] by decide) (by simp)

theorem mem_receiptEntry {state : WarpStateV5 V} {op : OpV2 V} {eventId : EventId} {entry : OpOutcome}
    (h : entry ∈ receiptEntry state op eventId) : entry.target = (opOutcome state op eventId).target := by
  unfold receiptEntry at h
  split at h
  · cases h
  · cases List.mem_singleton.mp h
    rfl

/-- The receipt of a patch can be made if and only if it adds no node with an empty id. -/
theorem applyWithReceipt_ok_iff {entry : PatchEntry V} {read : ReadPatch V}
    (hread : readPatch entry = .ok read) (hsha : entry.sha ≠ []) (hwriter : entry.patch.writer ≠ [])
    (state : WarpStateV5 V) :
    (∃ result, applyWithReceipt state entry.patch entry.sha = .ok result) ↔
      ∀ event ∈ read.events, ∀ dot, event.1 ≠ .nodeAdd [] dot := by
  have hreceipt : (∃ result, applyWithReceipt state entry.patch entry.sha = .ok result) ↔
      ∃ receipt, createTickReceipt entry.sha entry.patch.writer entry.patch.lamport
        (receiptOps state read.events) = .ok receipt := by
    rw [applyWithReceipt_of_readPatch hread]
    cases createTickReceipt entry.sha entry.patch.writer entry.patch.lamport
      (receiptOps state read.events) <;> simp [Except.map]
  rw [hreceipt, createTickReceipt_eq_ok_iff, and_iff_right hsha, and_iff_right hwriter]
  constructor
  · rintro htargets ⟨op, eventId⟩ hevent dot rfl
    obtain ⟨seen, hentries⟩ := exists_mem_foldl_receiptEvent (state, []) hevent
    refine htargets _ (hentries _ (List.mem_singleton_self _)) ?_
    by_contra hne
    exact (opOutcome_target_ne_nil_iff seen _ eventId).mp hne dot rfl
  · intro hnone outcome houtcome
    rcases mem_foldl_receiptEvent houtcome with hmem | ⟨event, hevent, seen, hentry⟩
    · cases hmem
    · rw [mem_receiptEntry hentry]
      exact (opOutcome_target_ne_nil_iff seen event.1 event.2).mpr (hnone event hevent)

/-- The addition of a node with an empty id. -/
def OpV2.addsUnnamed : OpV2 V → Bool
  | .nodeAdd node _ => node.isEmpty
  | _ => false

/-- The receipt of a commit is not refused. -/
def ReceiptAccepted (patch : PatchV2 V) (patchSha : JsString) : Prop :=
  patchSha ≠ [] ∧ patch.writer ≠ [] ∧ ∀ op ∈ patch.ops, op.addsUnnamed = false

instance (patch : PatchV2 V) (patchSha : JsString) : Decidable (ReceiptAccepted patch patchSha) :=
  inferInstanceAs (Decidable (_ ∧ _ ∧ _))

theorem normalizeRawOp_addsUnnamed {raw op : OpV2 V} (h : normalizeRawOp raw = .ok op) :
    op.addsUnnamed = raw.addsUnnamed := by
  cases raw with
  | propSet node key value =>
      simp only [normalizeRawOp, bind, Except.bind] at h
      repeat' split at h
      all_goals cases h
      all_goals rfl
  | _ => cases h; rfl

theorem ReceiptAccepted.applyWithReceipt_eq_ok {patch : PatchV2 V} {patchSha : JsString} {read : ReadPatch V}
    (h : ReceiptAccepted patch patchSha) (hread : readPatch ⟨patch, patchSha⟩ = .ok read) (state : WarpStateV5 V) :
    ∃ receipt, applyWithReceipt state patch patchSha = .ok (applyRead state read, receipt) := by
  obtain ⟨hsha, hwriter, hnamed⟩ := h
  have happly := applyWithReceipt_of_readPatch hread state
  obtain ⟨result, hresult⟩ := (applyWithReceipt_ok_iff hread hsha hwriter state).mpr fun event hevent dot heq => by
    obtain ⟨raw, hraw, hnorm⟩ := (exists_event_iff hread event.1).mp ⟨event.2, hevent⟩
    have hunnamed := normalizeRawOp_addsUnnamed hnorm
    rw [hnamed raw hraw, heq] at hunnamed
    cases hunnamed
  rw [hresult] at happly
  cases hreceipt : createTickReceipt patchSha patch.writer patch.lamport (receiptOps state read.events) with
  | error err => rw [hreceipt] at happly; cases happly
  | ok receipt =>
      rw [hreceipt] at happly
      cases happly
      exact ⟨receipt, hresult⟩

end GitWarp
