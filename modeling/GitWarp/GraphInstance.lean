import GitWarp.CheckpointIncremental
import GitWarp.GcPolicy
import GitWarp.GraphStore
import GitWarp.ReducerReceipts

/-! A graph instance: the caches of a `WarpGraph` and the methods that fill them. A method that throws is an
error; the index of the cached state is built by a view service. -/

namespace GitWarp
open Js ExceptLoops

/-- What an instance is given from outside: the codec, the hash of a state and the view service, which
builds an index tree from a state or updates one by a diff. -/
structure GraphServices (V T Hash Buffer : Type) where
  codec : CodecPort (FullStateObject V) Buffer
  computeStateHash : WarpStateV5 V → Hash
  build : WarpStateV5 V → Option T
  applyDiff : T → PatchDiff V → WarpStateV5 V → Option T

/-- The fields of a `WarpGraph`. `versionVectors` are the objects that `_versionVector` has pointed to, the
current one last; a `Writer` goes on holding the one it was made with. -/
structure WarpGraph (V T Hash : Type) where
  writerId : JsString
  versionVectors : List VersionVector
  cachedState : Option (WarpStateV5 V)
  stateDirty : Bool
  maxObservedLamport : Nat
  lastFrontier : Option Frontier
  cachedCeiling : Option Int
  cachedFrontier : Option Frontier
  /-- The logical index and the property reader. -/
  view : Option T
  cachedViewHash : Option Hash
  cachedIndexTree : Option T
  audited : Bool

/-- A checkpoint as it is loaded. -/
structure Checkpoint (V : Type) where
  schema : Nat
  state : WarpStateV5 V
  frontier : Frontier

variable {V T Hash Buffer : Type}

/-! ### Checkpoints of a repository -/

namespace Repository

def loadCheckpoint (repo : Repository V) (checkpointSha : Sha) : Except JsError (Checkpoint V) :=
  match repo.showNode checkpointSha with
  | some ⟨_, .checkpoint schema state frontier⟩ =>
      if schema = 2 ∨ schema = 3 ∨ schema = 4 then return ⟨schema, state, frontier⟩
      else thrown s!"Checkpoint {toText checkpointSha} is schema:{schema}. "
  | _ => thrown "Invalid checkpoint message"

def loadLatestCheckpoint (repo : Repository V) : Except JsError (Option (Checkpoint V)) :=
  match repo.checkpointRef with
  | some checkpointSha => do return some (← repo.loadCheckpoint checkpointSha)
  | none => return none

/-- A commit and its first parents, as `_isAncestor` walks them. -/
def lineFrom : List (Sha × Commit V) → Sha → List Sha
  | [], _ => []
  | (objectSha, commit) :: older, sha =>
      if sha = objectSha then
        sha :: match commit.parents.head? with
          | some parent => lineFrom older parent
          | none => []
      else lineFrom older sha

def isAncestor (repo : Repository V) (ancestorSha descendantSha : Sha) : Bool :=
  (lineFrom repo.store.objects descendantSha).contains ancestorSha

/-- Refuses a tip that does not extend the head the checkpoint has for its writer; a checkpoint of schema 4
is not looked at. -/
def validatePatchAgainstCheckpoint (repo : Repository V) (writerId : JsString) (incomingSha : Sha)
    (checkpoint : Checkpoint V) : Except JsError Unit :=
  if checkpoint.schema ≠ 2 ∧ checkpoint.schema ≠ 3 then return ()
  else match checkpoint.frontier.get writerId with
    | none => return ()
    | some ckHead =>
        if incomingSha = ckHead then
          thrown (s!"Backfill rejected for writer {toText writerId}: " ++
            "incoming patch is same checkpoint frontier")
        else if repo.isAncestor ckHead incomingSha then return ()
        else if repo.isAncestor incomingSha ckHead then
          thrown (s!"Backfill rejected for writer {toText writerId}: " ++
            "incoming patch is behind checkpoint frontier")
        else
          thrown (s!"Writer fork detected for {toText writerId}: " ++
            "incoming patch does not extend checkpoint head")

/-- The patches of one writer since the checkpoint. -/
def loadWriterPatchesSince (repo : Repository V) (checkpoint : Checkpoint V) (writerId : JsString) :
    Except JsError (List (PatchEntry V)) := do
  let patches := repo.loadWriterPatches writerId (checkpoint.frontier.get writerId)
  match patches.getLast? with
  | some last => repo.validatePatchAgainstCheckpoint writerId last.sha checkpoint
  | none => pure ()
  return patches

def loadPatchesSince (repo : Repository V) (checkpoint : Checkpoint V) :
    Except JsError (List (PatchEntry V)) := do
  return (← repo.discoverWriters.mapM (repo.loadWriterPatchesSince checkpoint)).flatten

/-- All patches of all writers. -/
def loadAllPatches (repo : Repository V) : List (PatchEntry V) :=
  repo.discoverWriters.flatMap fun writerId => repo.loadWriterPatches writerId none

end Repository

/-- `frontier.cbor` read back: a record of the entries, which cannot hold the key `__proto__`. -/
def storedFrontier (frontier : Frontier) : Frontier :=
  JsMap.ofEntries ((frontier.keys.insertionSort (· ≤ ·)).foldl (fun obj key =>
    match frontier.get key with
    | some sha => obj.assign key sha
    | none => obj) PlainObject.empty).entries

/-- `[...a].every(([w, sha]) => b.get(w) === sha)` for maps of one size. -/
def sameFrontier (a b : Frontier) : Bool :=
  b.size = a.size && a.entries.all fun entry => b.get entry.1 = some entry.2

/-! ### Installing a state -/

namespace WarpGraph

/-- A freshly opened instance. -/
def opened (writerId : JsString) (audited : Bool) : WarpGraph V T Hash where
  writerId := writerId
  versionVectors := [createVersionVector]
  cachedState := none
  stateDirty := false
  maxObservedLamport := 0
  lastFrontier := none
  cachedCeiling := none
  cachedFrontier := none
  view := none
  cachedViewHash := none
  cachedIndexTree := none
  audited := audited

def versionVector (graph : WarpGraph V T Hash) : VersionVector :=
  graph.versionVectors.getLast?.getD createVersionVector

section

variable [DecidableEq Hash] (services : GraphServices V T Hash Buffer)

/-- Rebuilds the index unless the state hashes as the one it was built for: from the cached tree and a diff
where both are there, else from the state. -/
def buildView (graph : WarpGraph V T Hash) (state : WarpStateV5 V) (stateHash : Hash)
    (diff : Option (PatchDiff V)) : WarpGraph V T Hash :=
  if graph.cachedViewHash = some stateHash then graph
  else
    let result := match diff, graph.cachedIndexTree with
      | some diff, some existingTree => services.applyDiff existingTree diff state
      | _, _ => services.build state
    match result with
    | some tree =>
        { graph with view := some tree, cachedViewHash := some stateHash, cachedIndexTree := some tree }
    | none => { graph with view := none, cachedIndexTree := none }

def setMaterializedState (graph : WarpGraph V T Hash) (state : WarpStateV5 V)
    (diff : Option (PatchDiff V)) : WarpGraph V T Hash :=
  buildView services
    { graph with
      cachedState := some state
      stateDirty := false
      versionVectors := graph.versionVectors ++ [state.observedFrontier] }
    state (services.computeStateHash state) diff

end

/-! ### Materializing -/

/-- What the loading half of `materialize` has computed. -/
structure Loaded (V : Type) where
  state : WarpStateV5 V
  diff : Option (PatchDiff V)

def maxLamportOf (patches : List (PatchEntry V)) (start : Nat) : Nat :=
  patches.foldl (fun tick entry => max tick entry.patch.lamport) start

/-- The maximum of `start` and the lamports of the patch commits at the tips. -/
def scanFrontierForMaxLamport (repo : Repository V) (frontier : Frontier) (start : Nat) : Nat :=
  frontier.values.foldl (fun tick tip =>
    match repo.showNode tip with
    | some ⟨_, .patch patch⟩ => max tick patch.lamport
    | _ => tick) start

/-- `reduceV5` with `trackDiff` or without. -/
def reduceWanting [DecidableEq V] (wantDiff : Bool) (initialState : WarpStateV5 V)
    (patches : List (PatchEntry V)) : Except JsError (Loaded V) :=
  if wantDiff then do
    let result ← reduceV5TrackDiff initialState patches
    return ⟨result.1, some result.2⟩
  else do
    return ⟨← reduceV5From initialState patches, none⟩

/-- The first half of `materialize`: everything up to the new state. -/
def loadMaterialized [DecidableEq V] (repo : Repository V) (graph : WarpGraph V T Hash)
    (collectReceipts : Bool) : Except JsError (WarpGraph V T Hash × Loaded V) := do
  let wantDiff := !collectReceipts && graph.cachedIndexTree.isSome
  match ← repo.loadLatestCheckpoint with
  | some checkpoint =>
      let patches ← repo.loadPatchesSince checkpoint
      let tick := scanFrontierForMaxLamport repo checkpoint.frontier graph.maxObservedLamport
      let loaded ← reduceWanting wantDiff checkpoint.state patches
      return ({ graph with maxObservedLamport := maxLamportOf patches tick }, loaded)
  | none =>
      let allPatches := repo.loadAllPatches
      if allPatches = [] then return (graph, ⟨createEmptyStateV5, none⟩)
      let loaded ← reduceWanting wantDiff createEmptyStateV5 allPatches
      return ({ graph with maxObservedLamport := maxLamportOf allPatches graph.maxObservedLamport }, loaded)

variable [DecidableEq Hash] (services : GraphServices V T Hash Buffer)

/-- The second half: the state is installed, and the refs are read again for the frontier. -/
def installMaterialized (repo : Repository V) (graph : WarpGraph V T Hash) (loaded : Loaded V) :
    WarpGraph V T Hash :=
  { graph.setMaterializedState services loaded.state loaded.diff with
    cachedCeiling := none
    cachedFrontier := none
    lastFrontier := some repo.getFrontier }

/-- Replays the patches up to a lamport tick; the cached state is kept if it is the same replay. -/
def materializeWithCeiling (repo : Repository V) (graph : WarpGraph V T Hash) (ceiling : Int)
    (collectReceipts : Bool) : Except JsError (WarpGraph V T Hash) := do
  let frontier := repo.getFrontier
  let cacheHit := match graph.cachedFrontier with
    | some cachedFrontier =>
        graph.cachedState.isSome && !graph.stateDirty && graph.cachedCeiling = some ceiling &&
          !collectReceipts && sameFrontier frontier cachedFrontier
    | none => false
  if cacheHit then return graph
  let allPatches := if ceiling ≤ 0 then []
    else (frontier.keys.flatMap fun writerId => repo.loadWriterPatches writerId none).filter
      fun entry => (entry.patch.lamport : Int) ≤ ceiling
  let state ← reduceV5 allPatches
  return { graph.setMaterializedState services state none with
    cachedCeiling := some ceiling
    cachedFrontier := some frontier }

/-- Replays, on top of a given checkpoint, the patches up to the current tips. -/
def materializeAt (repo : Repository V) (graph : WarpGraph V T Hash) (checkpointSha : Sha) :
    Except JsError (WarpGraph V T Hash) := do
  let targetFrontier := repo.getFrontier
  let checkpoint ← repo.loadCheckpoint checkpointSha
  let allPatches := targetFrontier.entries.flatMap fun entry =>
    repo.store.walk (checkpoint.frontier.get entry.1) entry.2
  let state ← reduceV5From checkpoint.state allPatches
  return graph.setMaterializedState services state none

/-! ### Changing the cached state -/

/-- The committed patch on top of the cached state, with its diff unless an audit wants a receipt. -/
def applyCommitted [DecidableEq V] (audited : Bool) (cachedState : WarpStateV5 V) (committed : PatchV2 V)
    (sha : Sha) : Except JsError (Loaded V) :=
  if audited then do
    let result ← applyWithReceipt cachedState committed sha
    return ⟨result.1, none⟩
  else do
    let result ← applyWithDiff cachedState committed sha
    return ⟨result.1, some result.2⟩

/-- What is left of the cached state when the application of a patch throws: the operations before the one that
throws were applied in place, and all of the patch was if only the receipt cannot be made. -/
def applyUntilError (state : WarpStateV5 V) (patch : PatchV2 V) (sha : Sha) : WarpStateV5 V :=
  match applyFast state patch sha with
  | .ok state => state
  | .error _ =>
      let readable := (patch.ops.zipIdx.map fun item => (readOp patch sha item).toOption).takeWhile Option.isSome
      (readable.filterMap id).foldl applyEvent state

/-- The post-commit hook: counts the commit in the version vector and, where the cached state is clean,
applies the patch to it. The builder logs what the hook throws and goes on. -/
def onPatchCommitted [DecidableEq V] (graph : WarpGraph V T Hash) (writerId : JsString)
    (committed : PatchV2 V) (sha : Sha) : WarpGraph V T Hash :=
  match vvIncrement graph.versionVector writerId with
  | .error _ => graph
  | .ok incremented =>
      let graph := { graph with
        versionVectors := graph.versionVectors.dropLast ++ [incremented.1]
        maxObservedLamport := max graph.maxObservedLamport committed.lamport }
      match graph.cachedState, graph.stateDirty with
      | some cachedState, false =>
          match applyCommitted graph.audited cachedState committed sha with
          | .ok loaded =>
              let graph := graph.setMaterializedState services loaded.state loaded.diff
              { graph with
                lastFrontier := graph.lastFrontier.map fun frontier => frontier.set writerId sha }
          | .error _ => { graph with cachedState := some (applyUntilError cachedState committed sha) }
      | _, _ => { graph with stateDirty := true, cachedViewHash := none }

/-- Applies the patches of a response to the cached state. -/
def applySync (graph : WarpGraph V T Hash) (patches : List (SyncPatch V)) :
    Except JsError (WarpGraph V T Hash) :=
  match graph.cachedState with
  | none => .error ⟨"QueryError", "E_NO_STATE"⟩
  | some cachedState => do
      let result ← applySyncResponse patches cachedState (graph.lastFrontier.getD JsMap.empty)
      return { graph.setMaterializedState services result.state none with
        lastFrontier := some result.frontier }

/-- Merges another state into the cached one; the index is dropped. -/
def join (graph : WarpGraph V T Hash) (otherState : WarpStateV5 V) :
    Except JsError (WarpGraph V T Hash) :=
  match graph.cachedState with
  | none => .error ⟨"QueryError", "E_NO_STATE"⟩
  | some cachedState =>
      let mergedState := joinStates cachedState otherState
      return { graph with
        cachedState := some mergedState
        versionVectors := graph.versionVectors ++ [mergedState.observedFrontier]
        view := none
        cachedViewHash := none
        cachedIndexTree := none
        stateDirty := false }

/-- Compacts the cached state. -/
def collectGarbage (graph : WarpGraph V T Hash) : Except JsError (WarpGraph V T Hash) :=
  match graph.cachedState with
  | none => .error ⟨"QueryError", "E_NO_STATE"⟩
  | some cachedState => do
      let result ← runGC cachedState
      return { graph with cachedState := some result.1 }

/-- The checkpoint that `createCheckpoint` commits for a frontier it has read, from the cached state. -/
def checkpointCommit (graph : WarpGraph V T Hash) (frontier : Frontier) :
    Except JsError (Commit V) :=
  match graph.cachedState with
  | none => .error ⟨"QueryError", "E_NO_STATE"⟩
  | some state => do
      let indexTree := graph.cachedIndexTree.or (services.build state)
      let stored ← reloadCheckpoint services.codec state
      return ⟨frontier.values, .checkpoint (if indexTree.isSome then 4 else 2) stored (storedFrontier frontier)⟩

end WarpGraph

end GitWarp
