import GitWarp.ReducerContents
import GitWarp.LibraryFlips

/-! Diff tracking: `applyWithDiff` applies a patch like `applyFast` and logs, operation by operation, which
nodes and edges came alive or died and which registers changed their value. `reduceV5` with `trackDiff`
merges the logs of the patches by `mergeDiffs`. -/

namespace GitWarp
open Js ExceptLoops

variable {V : Type}

/-- Values with their references, `0` and `-0` for one: `===` holds of what is one and the same, but not of `NaN`,
and an array or object may hold the same data as another one. -/
class JsReferences (V : Type) where
  strictEquals : V → V → Bool
  eq_of_strictEquals : ∀ a b, strictEquals a b = true → a = b
  sameData : V → V → Bool
  sameData_self : ∀ a, sameData a a = true

/-- Strings, booleans and the like, which are compared by what they hold. -/
instance (priority := low) JsReferences.ofDecidableEq [DecidableEq V] : JsReferences V where
  strictEquals a b := a = b
  eq_of_strictEquals _ _ := of_decide_eq_true
  sameData a b := a = b
  sameData_self _ := decide_eq_true rfl

structure PropDiffEntry (V : Type) where
  nodeId : JsString
  key : JsString
  value : Option V
  prevValue : Option V
  deriving DecidableEq

structure PatchDiff (V : Type) where
  nodesAdded : List JsString
  nodesRemoved : List JsString
  edgesAdded : List EdgeRef
  edgesRemoved : List EdgeRef
  propsChanged : List (PropDiffEntry V)
  deriving DecidableEq

def createEmptyDiff : PatchDiff V := ⟨[], [], [], [], []⟩

/-- `${entry.nodeId}\0${entry.key}` -/
def PropDiffEntry.mapKey (entry : PropDiffEntry V) : JsString :=
  entry.nodeId ++ fieldSeparator :: entry.key

/-- The last entry of each key, in the order in which the keys first occur. -/
def lastPropEntries (entries : List (PropDiffEntry V)) : JsMap JsString (PropDiffEntry V) :=
  JsMap.ofEntries (entries.map fun entry => (entry.mapKey, entry))

def mergeDiffs (a b : PatchDiff V) : PatchDiff V :=
  let allAdded := a.nodesAdded ++ b.nodesAdded
  let allRemoved := a.nodesRemoved ++ b.nodesRemoved
  let removedSet := JsSet.ofList allRemoved
  let addedSet := JsSet.ofList allAdded
  let allEdgesAdded := a.edgesAdded ++ b.edgesAdded
  let allEdgesRemoved := a.edgesRemoved ++ b.edgesRemoved
  let edgeRemovedSet := JsSet.ofList (allEdgesRemoved.map EdgeRef.key)
  let edgeAddedSet := JsSet.ofList (allEdgesAdded.map EdgeRef.key)
  { nodesAdded := allAdded.filter fun id => !removedSet.has id
    nodesRemoved := allRemoved.filter fun id => !addedSet.has id
    edgesAdded := allEdgesAdded.filter fun e => !edgeRemovedSet.has e.key
    edgesRemoved := allEdgesRemoved.filter fun e => !edgeAddedSet.has e.key
    propsChanged := (lastPropEntries (a.propsChanged ++ b.propsChanged)).values }

/-- One pair of the scan of `buildDotToElement`; the scan stops once every target dot was found. -/
def scanPair (targetDots : JsSet JsString) (acc : JsMap JsString JsString × Nat)
    (pair : JsString × JsString) : JsMap JsString JsString × Nat :=
  if acc.2 = 0 then acc
  else if targetDots.has pair.2 then (acc.1.set pair.2 pair.1, acc.2 - 1)
  else acc

/-- The element of each target dot, in one scan over the entries. -/
def buildDotToElement (orset : ORSet) (targetDots : JsSet JsString) : JsMap JsString JsString :=
  ((orset.entries.entries.flatMap fun entry => entry.2.elems.map fun d => (entry.1, d)).foldl
    (scanPair targetDots) (JsMap.empty, targetDots.size)).1

/-- The alive elements that own one of the observed dots. -/
def aliveElementsForDots (orset : ORSet) (observedDots : JsSet JsString) : JsSet JsString :=
  let dotToElement := buildDotToElement orset observedDots
  observedDots.elems.foldl (fun result d =>
    match dotToElement.get d with
    | none => result
    | some element =>
        if result.has element = false ∧ orsetContains orset element then result.add element
        else result) JsSet.empty

/-- What is looked at before an operation; a field the operation has no use for keeps its default. -/
structure SnapshotBeforeOp (V : Type) where
  nodeWasAlive : Bool := false
  edgeWasAlive : Bool := false
  edgeKey : JsString := []
  prevPropValue : Option V := none
  propKey : JsString := []
  aliveBeforeNodes : JsSet JsString := JsSet.empty
  aliveBeforeEdges : JsSet JsString := JsSet.empty

def snapshotBeforeOp (state : WarpStateV5 V) : OpV2 V → SnapshotBeforeOp V
  | .nodeAdd node _ => { nodeWasAlive := orsetContains state.nodeAlive node }
  | .nodeRemove _ observedDots =>
      { aliveBeforeNodes := aliveElementsForDots state.nodeAlive (JsSet.ofList observedDots) }
  | .edgeAdd edge _ =>
      { edgeWasAlive := orsetContains state.edgeAlive edge.key
        edgeKey := edge.key }
  | .edgeRemove _ _ _ observedDots =>
      { aliveBeforeEdges := aliveElementsForDots state.edgeAlive (JsSet.ofList observedDots) }
  | .propSet node key _ | .nodePropSet node key _ =>
      { prevPropValue := lwwValue (state.prop.get (encodePropKey node key))
        propKey := encodePropKey node key }
  | .edgePropSet edge key _ =>
      { prevPropValue :=
          lwwValue (state.prop.get (encodeEdgePropKey edge.fromId edge.toId edge.label key))
        propKey := encodeEdgePropKey edge.fromId edge.toId edge.label key }
  | .blobValue _ _ => {}
  | .unknown _ => {}

/-- The elements of `aliveBefore` that are no longer alive. -/
def diedSince (orset : ORSet) (aliveBefore : JsSet JsString) : List JsString :=
  aliveBefore.elems.filter fun element => !orsetContains orset element

variable [JsReferences V]

/-- `===`, where a register that is missing has the value `undefined`. -/
def strictEquals : Option V → Option V → Bool
  | some a, some b => JsReferences.strictEquals a b
  | none, none => true
  | _, _ => false

theorem eq_of_strictEquals {a b : Option V} (h : strictEquals a b = true) : a = b := by
  cases a with
  | none =>
      cases b with
      | none => rfl
      | some b => cases h
  | some a =>
      cases b with
      | none => cases h
      | some b => exact congrArg some (JsReferences.eq_of_strictEquals a b h)

/-- Logs a property under `nodeId` and `key` when its value is no longer the one before. -/
def pushPropChange (diff : PatchDiff V) (state : WarpStateV5 V) (nodeId key : JsString)
    (before : SnapshotBeforeOp V) : PatchDiff V :=
  let newVal := lwwValue (state.prop.get before.propKey)
  if strictEquals newVal before.prevPropValue = false then
    { diff with propsChanged := diff.propsChanged ++ [⟨nodeId, key, newVal, before.prevPropValue⟩] }
  else diff

def accumulateOpDiff (diff : PatchDiff V) (state : WarpStateV5 V) (op : OpV2 V)
    (before : SnapshotBeforeOp V) : PatchDiff V :=
  match op with
  | .nodeAdd node _ =>
      if before.nodeWasAlive = false ∧ orsetContains state.nodeAlive node then
        { diff with nodesAdded := diff.nodesAdded ++ [node] }
      else diff
  | .nodeRemove _ _ =>
      { diff with
        nodesRemoved := diff.nodesRemoved ++ diedSince state.nodeAlive before.aliveBeforeNodes }
  | .edgeAdd edge _ =>
      if before.edgeWasAlive = false ∧ orsetContains state.edgeAlive before.edgeKey then
        { diff with edgesAdded := diff.edgesAdded ++ [edge] }
      else diff
  | .edgeRemove _ _ _ _ =>
      { diff with
        edgesRemoved := diff.edgesRemoved ++
          (diedSince state.edgeAlive before.aliveBeforeEdges).map decodeEdgeKey }
  | .propSet node key _ | .nodePropSet node key _ => pushPropChange diff state node key before
  | .edgePropSet edge key _ => pushPropChange diff state edge.key key before
  | .blobValue _ _ => diff
  | .unknown _ => diff

def applyWithDiff (state : WarpStateV5 V) (patch : PatchV2 V) (patchSha : JsString) :
    Except JsError (WarpStateV5 V × PatchDiff V) := do
  let acc ← patch.ops.zipIdx.foldlM (fun (acc : WarpStateV5 V × PatchDiff V) item => do
    let canonOp ← normalizeRawOp item.1
    let eventId ← createEventId patch.lamport patch.writer patchSha item.2
    let before := snapshotBeforeOp acc.1 canonOp
    let state ← applyOpV2 acc.1 canonOp eventId
    return (state, accumulateOpDiff acc.2 state canonOp before)) (state, createEmptyDiff)
  let state ← updateFrontierFromPatch acc.1 patch
  return (state, acc.2)

/-- `reduceV5(patches, initialState, { trackDiff: true })` -/
def reduceV5TrackDiff (initialState : WarpStateV5 V) (patches : List (PatchEntry V)) :
    Except JsError (WarpStateV5 V × PatchDiff V) :=
  patches.foldlM (fun (acc : WarpStateV5 V × PatchDiff V) entry => do
    let result ← applyWithDiff acc.1 entry.patch entry.sha
    return (result.1, mergeDiffs acc.2 result.2)) (initialState, createEmptyDiff)

/-! ### Reading first, as for `applyFast` -/

/-- One canonical operation with its log. -/
def diffEvent (acc : WarpStateV5 V × PatchDiff V) (event : OpV2 V × EventId) :
    WarpStateV5 V × PatchDiff V :=
  (applyEvent acc.1 event,
    accumulateOpDiff acc.2 (applyEvent acc.1 event) event.1 (snapshotBeforeOp acc.1 event.1))

/-- The log of one patch. -/
def readDiff (state : WarpStateV5 V) (read : ReadPatch V) : PatchDiff V :=
  (read.events.foldl diffEvent (state, createEmptyDiff)).2

theorem fst_foldl_diffEvent (events : List (OpV2 V × EventId)) (acc : WarpStateV5 V × PatchDiff V) :
    (events.foldl diffEvent acc).1 = events.foldl applyEvent acc.1 := by
  induction events generalizing acc with
  | nil => rfl
  | cons event rest ih => exact ih (diffEvent acc event)

omit [JsReferences V] in
/-- A loop over the operations of a patch that can be read is a fold over what was read, if one round is. -/
theorem foldlM_canonical_ok {σ : Type} {patch : PatchV2 V} {patchSha : JsString} {items : List (OpV2 V × Nat)}
    {events : List (OpV2 V × EventId)} (hevents : items.mapM (readOp patch patchSha) = .ok events)
    (round : σ → OpV2 V → EventId → Except JsError σ) (step : σ → OpV2 V × EventId → σ)
    (hround : ∀ acc raw canon eventId, normalizeRawOp raw = .ok canon →
      round acc canon eventId = .ok (step acc (canon, eventId))) (acc : σ) :
    items.foldlM (fun (acc : σ) item => do
      let canonOp ← normalizeRawOp item.1
      let eventId ← createEventId patch.lamport patch.writer patchSha item.2
      round acc canonOp eventId) acc = (.ok (events.foldl step acc) : Except JsError _) := by
  induction items generalizing events acc with
  | nil =>
      cases hevents
      rfl
  | cons item rest ih =>
      obtain ⟨event, restEvents, hevent, hrest, rfl⟩ := mapM_cons_ok_iff.mp hevents
      unfold readOp at hevent
      cases hid : createEventId patch.lamport patch.writer patchSha item.2 with
      | error err => rw [hid] at hevent; cases hevent
      | ok eventId =>
          cases hop : normalizeRawOp item.1 with
          | error err => simp only [hid, hop, bind, Except.bind] at hevent; cases hevent
          | ok canon =>
              simp only [hid, hop, bind, Except.bind, pure, Except.pure] at hevent
              cases hevent
              have hhead := ih hrest (step acc (canon, eventId))
              rw [List.foldlM_cons, hop]
              simp only [hid, bind, Except.bind, hround acc item.1 canon eventId hop]
              exact hhead

theorem foldlM_diff_ok {patch : PatchV2 V} {patchSha : JsString} {items : List (OpV2 V × Nat)}
    {events : List (OpV2 V × EventId)} (hevents : items.mapM (readOp patch patchSha) = .ok events)
    (acc : WarpStateV5 V × PatchDiff V) :
    items.foldlM (fun (acc : WarpStateV5 V × PatchDiff V) item => do
      let canonOp ← normalizeRawOp item.1
      let eventId ← createEventId patch.lamport patch.writer patchSha item.2
      let before := snapshotBeforeOp acc.1 canonOp
      let state ← applyOpV2 acc.1 canonOp eventId
      return (state, accumulateOpDiff acc.2 state canonOp before)) acc =
      (.ok (events.foldl diffEvent acc) : Except JsError _) := by
  refine foldlM_canonical_ok hevents (fun acc canonOp eventId => do
    let before := snapshotBeforeOp acc.1 canonOp
    let state ← applyOpV2 acc.1 canonOp eventId
    return (state, accumulateOpDiff acc.2 state canonOp before)) diffEvent ?_ acc
  intro acc raw canon eventId hop
  simp only [applyOpV2_normalized hop]
  rfl

theorem applyWithDiff_ok {entry : PatchEntry V} {read : ReadPatch V}
    (hread : readPatch entry = .ok read) (state : WarpStateV5 V) :
    applyWithDiff state entry.patch entry.sha = .ok (applyRead state read, readDiff state read) := by
  obtain ⟨events, context, hevents, hcontext, rfl⟩ := readPatch_eq_ok hread
  unfold applyWithDiff
  rw [foldlM_diff_ok hevents]
  simp only [bind, Except.bind, updateFrontierFromPatch, hcontext, fst_foldl_diffEvent]
  rfl

/-- Merging the logs of patches one after the other. -/
def trackReads : WarpStateV5 V × PatchDiff V → List (ReadPatch V) → WarpStateV5 V × PatchDiff V :=
  List.foldl fun acc read => (applyRead acc.1 read, mergeDiffs acc.2 (readDiff acc.1 read))

theorem reduceV5TrackDiff_ok {patches : List (PatchEntry V)} {reads : List (ReadPatch V)}
    (hreads : patches.mapM readPatch = .ok reads) (state : WarpStateV5 V) :
    reduceV5TrackDiff state patches = .ok (trackReads (state, createEmptyDiff) reads) := by
  have hloop : ∀ (patches : List (PatchEntry V)) (reads : List (ReadPatch V))
      (acc : WarpStateV5 V × PatchDiff V), patches.mapM readPatch = .ok reads →
      patches.foldlM (fun (acc : WarpStateV5 V × PatchDiff V) entry => do
        let result ← applyWithDiff acc.1 entry.patch entry.sha
        return (result.1, mergeDiffs acc.2 result.2)) acc =
        (.ok (trackReads acc reads) : Except JsError _) := by
    intro patches
    induction patches with
    | nil =>
        intro reads acc h
        cases h
        rfl
    | cons entry rest ih =>
        intro reads acc h
        obtain ⟨read, restReads, hread, hrest, rfl⟩ := mapM_cons_ok_iff.mp h
        rw [List.foldlM_cons, applyWithDiff_ok hread]
        exact ih restReads _ hrest
  exact hloop patches reads _ hreads

theorem fst_trackReads (reads : List (ReadPatch V)) (acc : WarpStateV5 V × PatchDiff V) :
    (trackReads acc reads).1 = reads.foldl applyRead acc.1 := by
  induction reads generalizing acc with
  | nil => rfl
  | cons read rest ih => exact ih _

/-- What the tracked loop gets through, the reader gets through. -/
theorem exists_events_of_foldlM_diff {patch : PatchV2 V} {patchSha : JsString}
    {items : List (OpV2 V × Nat)} {acc out : WarpStateV5 V × PatchDiff V}
    (h : items.foldlM (fun (acc : WarpStateV5 V × PatchDiff V) item => do
      let canonOp ← normalizeRawOp item.1
      let eventId ← createEventId patch.lamport patch.writer patchSha item.2
      let before := snapshotBeforeOp acc.1 canonOp
      let state ← applyOpV2 acc.1 canonOp eventId
      return (state, accumulateOpDiff acc.2 state canonOp before)) acc =
      (.ok out : Except JsError _)) :
    ∃ events, items.mapM (readOp patch patchSha) = .ok events := by
  induction items generalizing acc with
  | nil => exact ⟨[], rfl⟩
  | cons item rest ih =>
      rw [List.foldlM_cons] at h
      cases hop : normalizeRawOp item.1 with
      | error err => rw [hop] at h; cases h
      | ok canon =>
          cases hid : createEventId patch.lamport patch.writer patchSha item.2 with
          | error err => simp only [hop, hid, bind, Except.bind] at h; cases h
          | ok eventId =>
              simp only [hop, hid, bind, Except.bind, applyOpV2_normalized hop, pure, Except.pure] at h
              obtain ⟨events, hevents⟩ := ih h
              refine ⟨(canon, eventId) :: events, mapM_cons_ok_iff.mpr ⟨_, events, ?_, hevents, rfl⟩⟩
              simp only [readOp, hop, hid, bind, Except.bind, pure, Except.pure]

theorem exists_read_of_applyWithDiff {state : WarpStateV5 V} {entry : PatchEntry V}
    {result : WarpStateV5 V × PatchDiff V}
    (h : applyWithDiff state entry.patch entry.sha = .ok result) :
    ∃ read, readPatch entry = .ok read := by
  unfold applyWithDiff at h
  cases hloop : entry.patch.ops.zipIdx.foldlM (fun (acc : WarpStateV5 V × PatchDiff V) item => do
      let canonOp ← normalizeRawOp item.1
      let eventId ← createEventId entry.patch.lamport entry.patch.writer entry.sha item.2
      let before := snapshotBeforeOp acc.1 canonOp
      let state ← applyOpV2 acc.1 canonOp eventId
      return (state, accumulateOpDiff acc.2 state canonOp before)) (state, createEmptyDiff) with
  | error err => rw [hloop] at h; cases h
  | ok out =>
      obtain ⟨events, hevents⟩ := exists_events_of_foldlM_diff hloop
      rw [hloop] at h
      simp only [bind, Except.bind, updateFrontierFromPatch] at h
      cases hcontext : contextVV entry.patch.context with
      | error err => rw [hcontext] at h; cases h
      | ok context =>
          unfold readPatch
          rw [hevents]
          simp only [bind, Except.bind, hcontext]
          exact ⟨_, rfl⟩

theorem exists_reads_of_reduceV5TrackDiff {patches : List (PatchEntry V)} {state : WarpStateV5 V}
    {result : WarpStateV5 V × PatchDiff V} (h : reduceV5TrackDiff state patches = .ok result) :
    ∃ reads, patches.mapM readPatch = .ok reads := by
  have hloop : ∀ (patches : List (PatchEntry V)) (acc : WarpStateV5 V × PatchDiff V),
      patches.foldlM (fun (acc : WarpStateV5 V × PatchDiff V) entry => do
        let result ← applyWithDiff acc.1 entry.patch entry.sha
        return (result.1, mergeDiffs acc.2 result.2)) acc = (.ok result : Except JsError _) →
      ∃ reads, patches.mapM readPatch = .ok reads := by
    intro patches
    induction patches with
    | nil => exact fun _ _ => ⟨[], rfl⟩
    | cons entry rest ih =>
        intro acc hfold
        rw [List.foldlM_cons] at hfold
        cases hone : applyWithDiff acc.1 entry.patch entry.sha with
        | error err => rw [hone] at hfold; cases hfold
        | ok out =>
            rw [hone] at hfold
            obtain ⟨read, hread⟩ := exists_read_of_applyWithDiff hone
            obtain ⟨reads, hreads⟩ := ih _ hfold
            exact ⟨read :: reads, mapM_cons_ok_iff.mpr ⟨read, reads, hread, hreads, rfl⟩⟩
  exact hloop patches _ h

/-- Tracking changes nothing about the state. -/
theorem reduceV5TrackDiff_state {patches : List (PatchEntry V)} {reads : List (ReadPatch V)}
    (hreads : patches.mapM readPatch = .ok reads) (state : WarpStateV5 V) :
    reduceV5From state patches = .ok (trackReads (state, createEmptyDiff) reads).1 := by
  rw [fst_trackReads]
  exact reduceV5From_eq_ok_iff.mpr ⟨reads, hreads, rfl⟩

end GitWarp
