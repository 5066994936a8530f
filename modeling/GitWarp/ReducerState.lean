import GitWarp.CodecKey
import GitWarp.CrdtEventId
import GitWarp.CrdtORSet
import GitWarp.LibraryExceptLoops

/-! The reducer: the graph state, the operations a patch is made of, and the two merges, patch by patch
(`reduceV5`) and state by state (`joinStates`).

An operation has one of the shapes that `validateOp` lets through. A property value is `none` where
JavaScript has `undefined`. Updating a state in place is returning the new one. -/

namespace GitWarp
open Js

/-- An operation of a patch, raw or canonical. -/
inductive OpV2 (V : Type) where
  | nodeAdd (node : JsString) (dot : Dot)
  | nodeRemove (node : Option JsString) (observedDots : List JsString)
  | edgeAdd (edge : EdgeRef) (dot : Dot)
  | edgeRemove (fromId toId label : Option JsString) (observedDots : List JsString)
  | propSet (node key : JsString) (value : Option V)
  | nodePropSet (node key : JsString) (value : Option V)
  | edgePropSet (edge : EdgeRef) (key : JsString) (value : Option V)
  | blobValue (node oid : JsString)
  | unknown (type : JsString)
  deriving DecidableEq

/-- The `context` of a patch: a version vector, or the plain record it is decoded to. -/
inductive PatchContext where
  | map (vv : VersionVector)
  | record (counters : List (JsString × Int))
  deriving DecidableEq

structure PatchV2 (V : Type) where
  schema : Nat
  writer : JsString
  lamport : Nat
  context : PatchContext
  ops : List (OpV2 V)
  deriving DecidableEq

/-- A patch with the sha of its commit. -/
structure PatchEntry (V : Type) where
  patch : PatchV2 V
  sha : JsString
  deriving DecidableEq

structure WarpStateV5 (V : Type) where
  nodeAlive : ORSet
  edgeAlive : ORSet
  prop : JsMap JsString (LWWRegister V)
  observedFrontier : VersionVector
  edgeBirthEvent : JsMap JsString EventId
  deriving DecidableEq

variable {V : Type}

def createEmptyStateV5 : WarpStateV5 V :=
  ⟨createORSet, createORSet, JsMap.empty, createVersionVector, JsMap.empty⟩

/-- Turns a raw `PropSet` into the canonical operation it stands for. -/
def normalizeRawOp : OpV2 V → Except JsError (OpV2 V)
  | .propSet node key value =>
      if isLegacyEdgePropNode node then do
        let edge ← decodeLegacyEdgePropNode node
        return .edgePropSet edge key value
      else return .nodePropSet node key value
  | op => return op

/-- Turns a canonical property operation back into the raw one that is persisted. -/
def lowerCanonicalOp : OpV2 V → OpV2 V
  | .nodePropSet node key value => .propSet node key value
  | .edgePropSet edge key value =>
      .propSet (encodeLegacyEdgePropNode edge.fromId edge.toId edge.label) key value
  | op => op

/-- Writes `value` to the register under `key`, where the greater event id wins. -/
def setRegister (prop : JsMap JsString (LWWRegister V)) (key : JsString) (eventId : EventId)
    (value : Option V) : JsMap JsString (LWWRegister V) :=
  match lwwMax (prop.get key) (some (lwwSet eventId value)) with
  | some register => prop.set key register
  | none => prop

/-- Records when an edge was added, keeping the latest event. -/
def setBirthEvent (births : JsMap JsString EventId) (edgeKey : JsString) (eventId : EventId) :
    JsMap JsString EventId :=
  match births.get edgeKey with
  | none => births.set edgeKey eventId
  | some prev => if 0 < compareEventIds eventId prev then births.set edgeKey eventId else births

def applyOpV2 (state : WarpStateV5 V) (op : OpV2 V) (eventId : EventId) :
    Except JsError (WarpStateV5 V) :=
  match op with
  | .nodeAdd node dot => return { state with nodeAlive := orsetAdd state.nodeAlive node dot }
  | .nodeRemove _ observedDots =>
      return { state with nodeAlive := orsetRemove state.nodeAlive observedDots }
  | .edgeAdd edge dot =>
      return { state with
        edgeAlive := orsetAdd state.edgeAlive edge.key dot
        edgeBirthEvent := setBirthEvent state.edgeBirthEvent edge.key eventId }
  | .edgeRemove _ _ _ observedDots =>
      return { state with edgeAlive := orsetRemove state.edgeAlive observedDots }
  | .nodePropSet node key value =>
      return { state with prop := setRegister state.prop (encodePropKey node key) eventId value }
  | .edgePropSet edge key value =>
      return { state with
        prop := setRegister state.prop
          (encodeEdgePropKey edge.fromId edge.toId edge.label key) eventId value }
  | .propSet node key value =>
      if node.head? = some edgePropPrefix then
        .error ⟨"PatchError",
          "Unnormalized legacy edge-property PropSet reached canonical apply path. " ++
          "Call normalizeRawOp() at the decode boundary."⟩
      else return { state with prop := setRegister state.prop (encodePropKey node key) eventId value }
  | .blobValue _ _ => return state
  | .unknown _ => return state

/-- Folds a patch's own dot into the observed frontier. -/
def foldPatchDot (frontier : VersionVector) (writer : JsString) (lamport : Nat) : VersionVector :=
  if frontier.counter writer < lamport then frontier.set writer lamport else frontier

/-- The context of a patch as a version vector. -/
def contextVV : PatchContext → Except JsError VersionVector
  | .map vv => return vv
  | .record counters => vvDeserialize counters

def updateFrontierFromPatch (state : WarpStateV5 V) (patch : PatchV2 V) :
    Except JsError (WarpStateV5 V) := do
  let contextVV ← contextVV patch.context
  return { state with
    observedFrontier :=
      foldPatchDot (vvMerge state.observedFrontier contextVV) patch.writer patch.lamport }

/-- Applies a patch, operation by operation, then its context. -/
def applyFast (state : WarpStateV5 V) (patch : PatchV2 V) (patchSha : JsString) :
    Except JsError (WarpStateV5 V) := do
  let state ← patch.ops.zipIdx.foldlM (fun state item => do
    let eventId ← createEventId patch.lamport patch.writer patchSha item.2
    let op ← normalizeRawOp item.1
    applyOpV2 state op eventId) state
  updateFrontierFromPatch state patch

/-- `join` without receipts. -/
def join (state : WarpStateV5 V) (patch : PatchV2 V) (patchSha : JsString) :
    Except JsError (WarpStateV5 V) := applyFast state patch patchSha

def mergeProps (a b : JsMap JsString (LWWRegister V)) : JsMap JsString (LWWRegister V) :=
  a.mergeWith (fun regA regB => lwwMax regA (some regB)) b

def mergeEdgeBirthEvent (a b : JsMap JsString EventId) : JsMap JsString EventId :=
  a.mergeWith (fun existing eventId =>
    match existing with
    | none => some eventId
    | some known => if 0 < compareEventIds eventId known then some eventId else none) b

def joinStates (a b : WarpStateV5 V) : WarpStateV5 V where
  nodeAlive := orsetJoin a.nodeAlive b.nodeAlive
  edgeAlive := orsetJoin a.edgeAlive b.edgeAlive
  prop := mergeProps a.prop b.prop
  observedFrontier := vvMerge a.observedFrontier b.observedFrontier
  edgeBirthEvent := mergeEdgeBirthEvent a.edgeBirthEvent b.edgeBirthEvent

/-- `reduceV5(patches, initialState)` without options. -/
def reduceV5From (initialState : WarpStateV5 V) (patches : List (PatchEntry V)) :
    Except JsError (WarpStateV5 V) :=
  patches.foldlM (fun state entry => applyFast state entry.patch entry.sha) initialState

/-- `reduceV5(patches)` -/
def reduceV5 (patches : List (PatchEntry V)) : Except JsError (WarpStateV5 V) :=
  reduceV5From createEmptyStateV5 patches

/-! ### Reading a patch

Whether a patch can be applied depends on the patch and not on the state: reading it turns its
operations into canonical ones with their event ids, and its context into a version vector. What is
then applied cannot fail. -/

/-- A patch after the checks of `applyFast`. -/
structure ReadPatch (V : Type) where
  events : List (OpV2 V × EventId)
  context : VersionVector
  writer : JsString
  lamport : Nat

def readOp (patch : PatchV2 V) (patchSha : JsString) (item : OpV2 V × Nat) :
    Except JsError (OpV2 V × EventId) := do
  let eventId ← createEventId patch.lamport patch.writer patchSha item.2
  let op ← normalizeRawOp item.1
  return (op, eventId)

def readPatch (entry : PatchEntry V) : Except JsError (ReadPatch V) := do
  let events ← entry.patch.ops.zipIdx.mapM (readOp entry.patch entry.sha)
  let context ← contextVV entry.patch.context
  return ⟨events, context, entry.patch.writer, entry.patch.lamport⟩

theorem readPatch_eq_ok {entry : PatchEntry V} {read : ReadPatch V} (h : readPatch entry = .ok read) :
    ∃ events context, entry.patch.ops.zipIdx.mapM (readOp entry.patch entry.sha) = .ok events ∧
      contextVV entry.patch.context = .ok context ∧
      read = ⟨events, context, entry.patch.writer, entry.patch.lamport⟩ := by
  unfold readPatch at h
  cases hevents : entry.patch.ops.zipIdx.mapM (readOp entry.patch entry.sha) with
  | error err => rw [hevents] at h; cases h
  | ok events =>
      rw [hevents] at h
      cases hcontext : contextVV entry.patch.context with
      | error err => rw [hcontext] at h; cases h
      | ok context =>
          rw [hcontext] at h
          cases h
          exact ⟨events, context, rfl, rfl, rfl⟩

/-- The state after one canonical operation. -/
def applyEvent (state : WarpStateV5 V) (event : OpV2 V × EventId) : WarpStateV5 V :=
  match applyOpV2 state event.1 event.2 with
  | .ok state' => state'
  | .error _ => state

def applyRead (state : WarpStateV5 V) (read : ReadPatch V) : WarpStateV5 V :=
  let state := read.events.foldl applyEvent state
  { state with
    observedFrontier :=
      foldPatchDot (vvMerge state.observedFrontier read.context) read.writer read.lamport }

theorem normalizeRawOp_ne_propSet {op canon : OpV2 V} (hop : normalizeRawOp op = .ok canon) (node key : JsString)
    (value : Option V) : canon ≠ .propSet node key value := by
  rintro rfl
  cases op <;> simp only [normalizeRawOp, pure, Except.pure, bind, Except.bind] at hop <;>
    repeat' (first | split at hop | cases hop)

/-- A canonical operation is not a raw `PropSet`, so applying it never throws. -/
theorem applyOpV2_normalized {op canon : OpV2 V} (hop : normalizeRawOp op = .ok canon)
    (state : WarpStateV5 V) (eventId : EventId) :
    applyOpV2 state canon eventId = .ok (applyEvent state (canon, eventId)) := by
  cases canon with
  | propSet node key value => exact absurd rfl (normalizeRawOp_ne_propSet hop node key value)
  | _ => rfl

theorem applyFast_step (patch : PatchV2 V) (patchSha : JsString) (state : WarpStateV5 V)
    (item : OpV2 V × Nat) :
    (do let eventId ← createEventId patch.lamport patch.writer patchSha item.2
        let op ← normalizeRawOp item.1
        applyOpV2 state op eventId) =
      (readOp patch patchSha item).map (applyEvent state) := by
  unfold readOp
  cases createEventId patch.lamport patch.writer patchSha item.2 with
  | error err => rfl
  | ok eventId =>
      cases hop : normalizeRawOp item.1 with
      | error err => rfl
      | ok canon => exact applyOpV2_normalized hop state eventId

theorem applyFast_eq (state : WarpStateV5 V) (entry : PatchEntry V) :
    applyFast state entry.patch entry.sha = (readPatch entry).map (applyRead state) := by
  have hloop := ExceptLoops.foldlM_eq_mapM_foldl (readOp entry.patch entry.sha)
    (fun state item => do
      let eventId ← createEventId entry.patch.lamport entry.patch.writer entry.sha item.2
      let op ← normalizeRawOp item.1
      applyOpV2 state op eventId)
    applyEvent (applyFast_step entry.patch entry.sha) entry.patch.ops.zipIdx state
  unfold applyFast readPatch
  rw [hloop]
  cases entry.patch.ops.zipIdx.mapM (readOp entry.patch entry.sha) with
  | error err => rfl
  | ok events =>
      simp only [Except.map, bind, Except.bind, updateFrontierFromPatch]
      cases contextVV entry.patch.context <;> rfl

/-- The reducer reads every patch and then folds what it read into the initial state. -/
theorem reduceV5From_eq (initialState : WarpStateV5 V) (patches : List (PatchEntry V)) :
    reduceV5From initialState patches =
      (patches.mapM readPatch).map fun reads => reads.foldl applyRead initialState :=
  ExceptLoops.foldlM_eq_mapM_foldl readPatch _ applyRead applyFast_eq patches initialState

theorem reduceV5From_eq_ok_iff {initialState state : WarpStateV5 V} {patches : List (PatchEntry V)} :
    reduceV5From initialState patches = .ok state ↔
      ∃ reads, patches.mapM readPatch = .ok reads ∧ reads.foldl applyRead initialState = state := by
  rw [reduceV5From_eq]
  cases patches.mapM readPatch <;> simp [Except.map]

theorem reduceV5_eq_ok_iff {state : WarpStateV5 V} {patches : List (PatchEntry V)} :
    reduceV5 patches = .ok state ↔
      ∃ reads, patches.mapM readPatch = .ok reads ∧
        reads.foldl applyRead createEmptyStateV5 = state :=
  reduceV5From_eq_ok_iff

end GitWarp
