import GitWarp.GraphInstance
import GitWarp.LibraryRuns

/-! Everything that runs on one repository: graph instances, their writers and patch builders, and the calls
that are under way. A step is one call of a method or, inside a `commit()`, one call to the persistence
layer; a call that throws changes nothing and is no step. -/

namespace GitWarp
open Js ExceptLoops

variable {V T Hash Buffer : Type}

/-! ### Patch builders -/

/-- Where a builder is in its `commit()`: the next call to the persistence layer and what it needs. -/
inductive CommitPhase (V : Type) where
  | building
  | readingRef
  | showingNode (currentRefSha : Sha)
  | writingBlob (parentCommit : Option Sha) (patch : PatchV2 V)
  | writingTree (parentCommit : Option Sha) (patch : PatchV2 V)
  | committingNode (parentCommit : Option Sha) (patch : PatchV2 V)
  | updatingRef (sha : Sha) (patch : PatchV2 V)
  | notifying (sha : Sha) (patch : PatchV2 V)
  | committed (sha : Sha)

/-- What the codec gives back for an operation that it has encoded. The dot of an addition comes back as it is. -/
structure OpCodec (V : Type) where
  stored : OpV2 V → OpV2 V
  addDot_stored : ∀ op, (stored op).addDot = op.addDot

/-- A codec that changes nothing. -/
def OpCodec.exact : OpCodec V := ⟨id, fun _ => rfl⟩

structure PatchBuilderV2 (V : Type) where
  /-- The instance whose `_onPatchCommitted` is the success callback. -/
  graph : Nat
  writerId : JsString
  lamport : Nat
  vv : VersionVector
  expectedParentSha : Option Sha
  ops : List (OpV2 V)
  phase : CommitPhase V
  codec : OpCodec V := .exact

/-- The checks of the three identifiers of an edge. -/
def EdgeRef.NoReservedBytes (edge : EdgeRef) : Prop :=
  GitWarp.NoReservedBytes edge.fromId ∧ GitWarp.NoReservedBytes edge.toId ∧
    GitWarp.NoReservedBytes edge.label

instance (edge : EdgeRef) : Decidable edge.NoReservedBytes := inferInstanceAs (Decidable (_ ∧ _ ∧ _))

/-- The operations that the mutators without a dot append: removals and property writes. -/
def OpV2.isDotless : OpV2 V → Bool
  | .nodeRemove _ _ => true
  | .edgeRemove _ _ _ _ => true
  | .nodePropSet node key _ => NoReservedBytes node ∧ NoReservedBytes key
  | .edgePropSet edge key _ => edge.NoReservedBytes ∧ NoReservedBytes key
  | _ => false

def OpV2.isEdgePropSet : OpV2 V → Bool
  | .edgePropSet _ _ _ => true
  | _ => false

namespace PatchBuilderV2

def isBuilding (builder : PatchBuilderV2 V) : Bool :=
  match builder.phase with
  | .building => true
  | _ => false

/-- The sha that `commit()` has resolved with. -/
def committedSha (builder : PatchBuilderV2 V) : Option Sha :=
  match builder.phase with
  | .committed sha => some sha
  | _ => none

/-- The next call is the `updateRef`. -/
def isUpdatingRef (builder : PatchBuilderV2 V) : Bool :=
  match builder.phase with
  | .updatingRef _ _ => true
  | _ => false

/-- Takes the next dot of the writer and appends the operation made of it. -/
def addWithDot (builder : PatchBuilderV2 V) (op : Dot → OpV2 V) : Option (PatchBuilderV2 V) :=
  if builder.isBuilding then
    match vvIncrement builder.vv builder.writerId with
    | .ok (vv, dot) => some { builder with vv := vv, ops := builder.ops ++ [op dot] }
    | .error _ => none
  else none

def addNode (builder : PatchBuilderV2 V) (nodeId : JsString) : Option (PatchBuilderV2 V) :=
  if NoReservedBytes nodeId then builder.addWithDot (.nodeAdd nodeId) else none

def addEdge (builder : PatchBuilderV2 V) (edge : EdgeRef) : Option (PatchBuilderV2 V) :=
  if edge.NoReservedBytes then builder.addWithDot (.edgeAdd edge) else none

/-- A mutator without a dot. -/
def append (builder : PatchBuilderV2 V) (op : OpV2 V) : Option (PatchBuilderV2 V) :=
  if builder.isBuilding && op.isDotless then some { builder with ops := builder.ops ++ [op] } else none

/-- The call of `commit()`, up to its first `await`. -/
def commit (builder : PatchBuilderV2 V) : Option (PatchBuilderV2 V) :=
  if builder.isBuilding && !builder.ops.isEmpty then some { builder with phase := .readingRef } else none

/-- The patch that is committed at a lamport tick; a version vector with a zero counter is refused. -/
def toPatch (builder : PatchBuilderV2 V) (lamport : Nat) : Except JsError (PatchV2 V) := do
  let context ← vvSerialize builder.vv
  return {
    schema := if builder.ops.any OpV2.isEdgePropSet then 3 else 2
    writer := builder.writerId
    lamport := lamport
    context := .record (context.entries.map fun entry => (entry.1, (entry.2 : Int)))
    ops := builder.ops.map lowerCanonicalOp }

/-- The patch that its commit is read back as. -/
def storedPatch (builder : PatchBuilderV2 V) (patch : PatchV2 V) : PatchV2 V :=
  { patch with ops := patch.ops.map builder.codec.stored }

/-- The patch is made; `commit()` fails here if it cannot be. -/
def withPatch (builder : PatchBuilderV2 V) (parentCommit : Option Sha) (lamport : Nat) :
    PatchBuilderV2 V :=
  match builder.toPatch lamport with
  | .ok patch => { builder with phase := .writingBlob parentCommit patch }
  | .error _ => { builder with phase := .building }

/-- The tick of the patch on top of the commit that the ref points to. -/
def lamportOn (builder : PatchBuilderV2 V) (current : Commit V) : Nat :=
  match current.content with
  | .patch patch => max builder.lamport (patch.lamport + 1)
  | _ => builder.lamport

/-- The next call that `commit()` makes; `sha` is the name that a new commit object gets. A builder whose
`commit()` fails is open again. -/
def persist [DecidableEq V] (repo : Repository V) (builder : PatchBuilderV2 V) (sha : Sha) :
    Option (Repository V × PatchBuilderV2 V) :=
  match builder.phase with
  | .readingRef =>
      let currentRefSha := repo.readRef builder.writerId
      if currentRefSha ≠ builder.expectedParentSha then
        -- `WRITER_CAS_CONFLICT`
        some (repo, { builder with phase := .building })
      else match currentRefSha with
        | some tip => some (repo, { builder with phase := .showingNode tip })
        | none => some (repo, builder.withPatch none builder.lamport)
  | .showingNode currentRefSha => do
      let commit ← repo.showNode currentRefSha
      return (repo, builder.withPatch (some currentRefSha) (builder.lamportOn commit))
  | .writingBlob parentCommit patch =>
      some (repo, { builder with phase := .writingTree parentCommit patch })
  | .writingTree parentCommit patch =>
      some (repo, { builder with phase := .committingNode parentCommit patch })
  | .committingNode parentCommit patch => do
      let repo ← repo.commitNode sha ⟨parentCommit.toList, .patch (builder.storedPatch patch)⟩
      return (repo, { builder with phase := .updatingRef sha patch })
  | .updatingRef newCommitSha patch => do
      let repo ← repo.updateRef builder.writerId newCommitSha
      return (repo, { builder with phase := .notifying newCommitSha patch })
  | _ => none

/-- A call to the persistence layer fails and `commit()` with it. -/
def abort (builder : PatchBuilderV2 V) : Option (PatchBuilderV2 V) :=
  match builder.phase with
  | .building | .notifying _ _ | .committed _ => none
  | _ => some { builder with phase := .building }

end PatchBuilderV2

/-- The tick of the patch commit that a writer's ref points to. -/
def Repository.ownTick (repo : Repository V) (writerId : JsString) : Nat :=
  match (repo.readRef writerId).bind repo.showNode with
  | some ⟨_, .patch patch⟩ => patch.lamport
  | _ => 0

/-- `createPatch()` of the instance with number `index`. -/
def WarpGraph.createPatch (repo : Repository V) (index : Nat) (graph : WarpGraph V T Hash) :
    PatchBuilderV2 V where
  graph := index
  writerId := graph.writerId
  lamport := max (repo.ownTick graph.writerId) graph.maxObservedLamport + 1
  vv := graph.versionVector
  expectedParentSha := repo.readRef graph.writerId
  ops := []
  phase := .building

/-- A `Writer`; it holds the version vector object that its instance had when it was made. -/
structure Writer where
  graph : Nat
  writerId : JsString
  versionVector : Nat

/-- The tick after the writer's tip; a tip with a tick below one is refused. -/
def Writer.nextLamport (writer : Writer) (repo : Repository V) : Option Nat :=
  match (repo.readRef writer.writerId).bind repo.showNode with
  | some ⟨_, .patch patch⟩ => if patch.lamport < 1 then none else some (patch.lamport + 1)
  | _ => some 1

/-- `beginPatch()`. -/
def Writer.beginPatch (writer : Writer) (repo : Repository V) (graph : WarpGraph V T Hash) :
    Option (PatchBuilderV2 V) := do
  let versionVector ← graph.versionVectors[writer.versionVector]?
  let lamport ← writer.nextLamport repo
  return {
    graph := writer.graph
    writerId := writer.writerId
    lamport := lamport
    vv := versionVector
    expectedParentSha := repo.readRef writer.writerId
    ops := []
    phase := .building }

/-! ### The world -/

/-- A `materialize()` between its two halves: what it has loaded, and the refs it has loaded it from. -/
structure Materialization (V : Type) where
  graph : Nat
  loaded : WarpGraph.Loaded V
  seen : Frontier

/-- A `createCheckpoint()` that has read its frontier. -/
structure CheckpointDraft where
  graph : Nat
  frontier : Frontier

structure World (V T Hash : Type) where
  codec : OpCodec V
  repo : Repository V
  graphs : List (WarpGraph V T Hash)
  writers : List Writer
  builders : List (PatchBuilderV2 V)
  materializations : List (Materialization V)
  drafts : List CheckpointDraft

inductive Action (V : Type) where
  | open (writerId : JsString) (audited : Bool)
  | writer (graph : Nat) (writerId : JsString)
  | createPatch (graph : Nat)
  | beginPatch (writer : Nat)
  | addNode (builder : Nat) (nodeId : JsString)
  | addEdge (builder : Nat) (edge : EdgeRef)
  | append (builder : Nat) (op : OpV2 V)
  | commit (builder : Nat)
  | persist (builder : Nat) (sha : Sha)
  | abort (builder : Nat)
  | notify (builder : Nat)
  | loadMaterialized (graph : Nat) (collectReceipts : Bool)
  | installMaterialized (materialization : Nat)
  | materializeWithCeiling (graph : Nat) (ceiling : Int) (collectReceipts : Bool)
  | materializeAt (graph : Nat) (checkpointSha : Sha)
  | applySyncResponse (graph : Nat) (patches : List (SyncPatch V))
  | join (graph : Nat) (otherState : WarpStateV5 V)
  | runGC (graph : Nat)
  | readCheckpointFrontier (graph : Nat)
  | commitCheckpoint (draft : Nat) (sha : Sha)
  /-- A commit of another repository, which sync responses may carry. -/
  | remoteCommit (sha : Sha) (commit : Commit V)

/-- The builder whose `commit()` goes on. -/
def Action.persisting : Action V → Option Nat
  | .persist builder _ => some builder
  | _ => none

namespace World

def empty : World V T Hash := ⟨.exact, Repository.empty, [], [], [], [], []⟩

/-- Replaces one instance by what a method makes of it. -/
def withGraph (world : World V T Hash) (index : Nat)
    (method : WarpGraph V T Hash → Except JsError (WarpGraph V T Hash)) : Option (World V T Hash) := do
  let graph ← world.graphs[index]?
  let graph' ← (method graph).toOption
  return { world with graphs := world.graphs.set index graph' }

/-- Replaces one builder by what a method makes of it. -/
def withBuilder (world : World V T Hash) (index : Nat)
    (method : PatchBuilderV2 V → Option (PatchBuilderV2 V)) : Option (World V T Hash) := do
  let builder ← world.builders[index]?
  let builder' ← method builder
  return { world with builders := world.builders.set index builder' }

/-- The builder that an action begins. -/
def begun (world : World V T Hash) : Action V → Option (PatchBuilderV2 V)
  | .createPatch index => do
      let graph ← world.graphs[index]?
      return { graph.createPatch world.repo index with codec := world.codec }
  | .beginPatch index => do
      let writer ← world.writers[index]?
      let graph ← world.graphs[writer.graph]?
      let builder ← writer.beginPatch world.repo graph
      return { builder with codec := world.codec }
  | _ => none

/-- Adds the builder that an action begins. -/
def withBegun (world : World V T Hash) (action : Action V) : Option (World V T Hash) := do
  let builder ← world.begun action
  return { world with builders := world.builders ++ [builder] }

variable [DecidableEq V] [DecidableEq Hash] (services : GraphServices V T Hash Buffer)

/-- The success callback of a builder, after which `commit()` resolves. -/
def notify (world : World V T Hash) (index : Nat) : Option (World V T Hash) := do
  let builder ← world.builders[index]?
  match builder.phase with
  | .notifying sha patch =>
      let graph ← world.graphs[builder.graph]?
      return { world with
        graphs := world.graphs.set builder.graph
          (graph.onPatchCommitted services builder.writerId patch sha)
        builders := world.builders.set index { builder with phase := .committed sha } }
  | _ => none

def step (world : World V T Hash) : Action V → Option (World V T Hash)
  | .open writerId audited =>
      some { world with graphs := world.graphs ++ [WarpGraph.opened writerId audited] }
  | .writer index writerId => do
      let graph ← world.graphs[index]?
      return { world with writers := world.writers ++ [⟨index, writerId, graph.versionVectors.length - 1⟩] }
  | .createPatch index => world.withBegun (.createPatch index)
  | .beginPatch index => world.withBegun (.beginPatch index)
  | .addNode index nodeId => world.withBuilder index fun builder => builder.addNode nodeId
  | .addEdge index edge => world.withBuilder index fun builder => builder.addEdge edge
  | .append index op => world.withBuilder index fun builder => builder.append op
  | .commit index => world.withBuilder index PatchBuilderV2.commit
  | .persist index sha => do
      let builder ← world.builders[index]?
      let result ← builder.persist world.repo sha
      return { world with repo := result.1, builders := world.builders.set index result.2 }
  | .abort index => world.withBuilder index PatchBuilderV2.abort
  | .notify index => world.notify services index
  | .loadMaterialized index collectReceipts => do
      let graph ← world.graphs[index]?
      let result ← (graph.loadMaterialized world.repo collectReceipts).toOption
      return { world with
        graphs := world.graphs.set index result.1
        materializations := world.materializations ++ [⟨index, result.2, world.repo.refs⟩] }
  | .installMaterialized index => do
      let materialization ← world.materializations[index]?
      let graph ← world.graphs[materialization.graph]?
      return { world with
        graphs := world.graphs.set materialization.graph
          (graph.installMaterialized services world.repo materialization.loaded)
        materializations := world.materializations.eraseIdx index }
  | .materializeWithCeiling index ceiling collectReceipts =>
      world.withGraph index fun graph =>
        graph.materializeWithCeiling services world.repo ceiling collectReceipts
  | .materializeAt index checkpointSha =>
      world.withGraph index fun graph => graph.materializeAt services world.repo checkpointSha
  | .applySyncResponse index patches =>
      world.withGraph index fun graph => graph.applySync services patches
  | .join index otherState => world.withGraph index fun graph => graph.join otherState
  | .runGC index => world.withGraph index WarpGraph.collectGarbage
  | .readCheckpointFrontier index => do
      let _ ← world.graphs[index]?
      return { world with drafts := world.drafts ++ [⟨index, world.repo.getFrontier⟩] }
  | .commitCheckpoint index sha => do
      let draft ← world.drafts[index]?
      let graph ← world.graphs[draft.graph]?
      if graph.stateDirty then none
      else
        let commit ← (graph.checkpointCommit services draft.frontier).toOption
        let repo ← world.repo.commitNode sha commit
        let repo ← repo.updateCheckpointRef sha
        return { world with repo := repo, drafts := world.drafts.eraseIdx index }
  | .remoteCommit sha commit => do
      let repo ← world.repo.commitNode sha commit
      return { world with repo := repo }

end World

/-! ### Small runs -/

/-- Services without an index, for graphs of which nothing is read. -/
def plainServices : GraphServices Nat Unit Unit (FullStateObject Nat) where
  codec := identityCodec
  computeStateHash _ := ()
  build _ := some ()
  applyDiff _ _ _ := some ()

/-- The five calls of a `commit()` that finds no ref, with the sha of its commit. -/
def persistAll (builder : Nat) (sha : Sha) : List (Action Nat) :=
  [.persist builder sha, .persist builder sha, .persist builder sha, .persist builder sha,
    .persist builder sha]

/-- One builder adds a node and commits it. -/
def oneCommit : List (Action Nat) :=
  [.open (js "a") false, .createPatch 0, .addNode 0 (js "n"), .commit 0] ++ persistAll 0 (js "aaaa") ++
    [.notify 0]

/-- The six calls of a `commit()` on top of a tip, and its callback. -/
def commitOnTip (builder : Nat) (sha : Sha) : List (Action Nat) :=
  [.commit builder, .persist builder sha] ++ persistAll builder sha ++ [.notify builder]

end GitWarp
