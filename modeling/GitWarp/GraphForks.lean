import GitWarp.CommitSteps
import GitWarp.LibraryJsValue
import GitWarp.RefLayout

/-! Forks. Several graphs live in one repository: they share its objects, and each has refs of its own below
its name. A fork is a graph whose first writer ref points into the chain of another graph. -/

namespace GitWarp
open Js ExceptLoops

variable {V T Hash Buffer : Type}

/-! ### Graphs that share their objects -/

/-- The refs of a repository over a store that has grown. -/
def Repository.onStore (repo : Repository V) (store : ObjectStore V) (h : store.Extends repo.store) :
    Repository V where
  store := store
  refs := repo.refs
  checkpointRef := repo.checkpointRef
  refsExist writerId tip htip := h.mem_shas (repo.refsExist writerId tip htip)
  checkpointExists sha hsha := h.mem_shas (repo.checkpointExists sha hsha)

/-- The objects and, for each graph name, the refs of that graph with everything that runs on them. -/
structure Host (V T Hash : Type) where
  store : ObjectStore V
  worlds : JsString → World V T Hash
  shared : ∀ name, (worlds name).repo.store = store

/-- An opened graph as its user holds it: the number of the instance among those of its graph, and whether it
was given a `patchBlobStorage`. -/
structure GraphHandle where
  graphName : JsString
  index : Nat
  patchBlobStorage : Bool
  deriving DecidableEq

namespace Host

def empty : Host V T Hash := ⟨ObjectStore.empty, fun _ => World.empty, fun _ => rfl⟩

/-- Replaces what runs on one graph; the other graphs see the objects that it has written. -/
def put (host : Host V T Hash) (name : JsString) (world : World V T Hash)
    (h : world.repo.store.Extends host.store) : Host V T Hash where
  store := world.repo.store
  worlds other :=
    if other = name then world
    else { host.worlds other with
      repo := (host.worlds other).repo.onStore world.repo.store ((host.shared other).symm ▸ h) }
  shared other := by split <;> rfl

end Host

section

variable [DecidableEq V] [DecidableEq Hash] (services : GraphServices V T Hash Buffer)

theorem World.extends_of_step {services : GraphServices V T Hash Buffer} {world world' : World V T Hash}
    {action : Action V} (h : world.step services action = some world') :
    world'.repo.store.Extends world.repo.store := by
  cases World.effect_of_step h with
  | quiet hstore hrefs hbuilders => exact hstore
  | persisted index builder builder' haction hbuilder hbuilders hpersisted => exact hpersisted.extends
  | begun builder hrepo | edited index builder builder' hrepo | notified index builder sha patch hrepo =>
      rw [hrepo]
      exact ObjectStore.Extends.refl _

/-- A step of one of the graphs. -/
def Host.step (host : Host V T Hash) (action : JsString × Action V) : Option (Host V T Hash) :=
  match h : (host.worlds action.1).step services action.2 with
  | some world => some (host.put action.1 world (host.shared action.1 ▸ World.extends_of_step h))
  | none => none

end

/-! ### Reading patches

The message of a patch commit, and so its sha, tells whether the blob of the patch is in a blob storage. -/

section

variable (encrypted : Sha → Bool)

/-- `_readPatchBlob` -/
def readPatchBlob (patchBlobStorage : Bool) (sha : Sha) : Except JsError Unit :=
  if encrypted sha && !patchBlobStorage then
    .error ⟨"EncryptionError",
      "This graph contains encrypted patches; provide patchBlobStorage with an encryption key"⟩
  else return ()

namespace Repository

/-- The patches that `materialize` walks: those since the checkpoint, if there is one. -/
def walkedPatches (repo : Repository V) : Except JsError (List (PatchEntry V)) := do
  match ← repo.loadLatestCheckpoint with
  | some checkpoint =>
      return repo.discoverWriters.flatMap fun writerId =>
        repo.loadWriterPatches writerId (checkpoint.frontier.get writerId)
  | none => return repo.loadAllPatches

/-- Whether a writer has a patch of schema 1 at its tip; the first such writer ends the search. -/
def hasSchema1Patches (repo : Repository V) (patchBlobStorage : Bool) : List JsString → Except JsError Bool
  | [] => return false
  | writerId :: rest => do
      match repo.readRef writerId with
      | some tipSha =>
          match repo.showNode tipSha with
          | some ⟨_, .patch patch⟩ => do
              readPatchBlob encrypted patchBlobStorage tipSha
              if patch.schema = 1 then return true else hasSchema1Patches repo patchBlobStorage rest
          | _ => hasSchema1Patches repo patchBlobStorage rest
      | none => hasSchema1Patches repo patchBlobStorage rest

/-- `_validateMigrationBoundary` -/
def validateMigrationBoundary (repo : Repository V) (patchBlobStorage : Bool) : Except JsError Unit := do
  match ← repo.loadLatestCheckpoint with
  | some checkpoint => if checkpoint.schema = 2 ∨ checkpoint.schema = 3 ∨ checkpoint.schema = 4 then return ()
  | none => pure ()
  if ← repo.hasSchema1Patches encrypted patchBlobStorage repo.discoverWriters then
    thrown ("Cannot open graph with v1 history. " ++
      "Run MigrationService.migrate() first to create migration checkpoint.")

end Repository

/-- The state that `materialize()` returns. -/
def WarpGraph.materialized [DecidableEq V] (repo : Repository V) (patchBlobStorage : Bool)
    (graph : WarpGraph V T Hash) : Except JsError (WarpStateV5 V) := do
  let patches ← repo.walkedPatches
  let _ ← patches.mapM fun entry => readPatchBlob encrypted patchBlobStorage entry.sha
  return (← graph.loadMaterialized repo false).2.state

namespace Host

/-- `materialize()` of an opened graph. -/
def materialize [DecidableEq V] (host : Host V T Hash) (handle : GraphHandle) :
    Except JsError (WarpStateV5 V) :=
  let world := host.worlds handle.graphName
  match world.graphs[handle.index]? with
  | some graph => graph.materialized encrypted world.repo handle.patchBlobStorage
  | none => thrown "No such instance"

/-- `WarpGraph.open` -/
def openGraph (host : Host V T Hash) (graphName writerId : JsString) (patchBlobStorage : Bool) :
    Except JsError (GraphHandle × Host V T Hash) := do
  validateGraphName graphName
  validateWriterId writerId
  let world := host.worlds graphName
  world.repo.validateMigrationBoundary encrypted patchBlobStorage
  let world' := { world with graphs := world.graphs ++ [WarpGraph.opened writerId false] }
  return (⟨graphName, world.graphs.length, patchBlobStorage⟩,
    host.put graphName world' (host.shared graphName ▸ ObjectStore.Extends.refl world.repo.store))

end Host

/-! ### The fork -/

/-- The options of `fork`. -/
structure ForkOptions where
  «from» : JsValue
  «at» : JsValue
  forkName : JsValue
  forkWriterId : JsValue

/-- What `fork` draws: the suffix of a name that is not given, and a writer id. -/
structure ForkDraws where
  suffix : JsString
  writerId : JsString

def forkError {α : Type} (code : String) : Except JsError α := .error ⟨"ForkError", code⟩

/-- A required parameter. -/
def forkParameter : JsValue → Except JsError JsString
  | .string text => if text = [] then forkError "E_FORK_INVALID_ARGS" else return text
  | _ => forkError "E_FORK_INVALID_ARGS"

/-- `forkName ?? …` -/
def resolvedForkName (graphName : JsString) (options : ForkOptions) (draws : ForkDraws) : JsValue :=
  match options.forkName with
  | .undefined | .null => .string (graphName ++ js "-fork-" ++ draws.suffix)
  | forkName => forkName

/-- `forkWriterId || generateWriterId()` -/
def resolvedForkWriterId (options : ForkOptions) (draws : ForkDraws) : JsValue :=
  options.forkWriterId.orElse (.string draws.writerId)

/-- A name that a validator lets pass. -/
def validatedName (validate : JsString → Except JsError Unit) (code : String) : JsValue → Except JsError JsString
  | .string name =>
      match validate name with
      | .ok () => return name
      | .error _ => forkError code
  | _ => forkError code

/-- `MAX_WALK` -/
def maxWalk : Nat := 100000

/-- `_isAncestor`, which gives up after `MAX_WALK` commits. -/
def isAncestorWithin (repo : Repository V) (ancestorSha descendantSha : Sha) : Except JsError Bool :=
  let line := Repository.lineFrom repo.store.objects descendantSha
  if (line.take (maxWalk + 1)).contains ancestorSha then return true
  else if line.length ≤ maxWalk then return false
  else thrown s!"_isAncestor: exceeded {maxWalk} steps — possible cycle"

/-- The ref that a fork is about to write. -/
structure ForkTarget where
  forkName : JsString
  writerId : JsString
  «at» : Sha

namespace Host

/-- The checks of `fork`. -/
def forkTarget (host : Host V T Hash) (handle : GraphHandle) (options : ForkOptions) (draws : ForkDraws) :
    Except JsError ForkTarget := do
  let fromId ← forkParameter options.from
  let atSha ← forkParameter options.at
  let repo := (host.worlds handle.graphName).repo
  if fromId ∉ repo.discoverWriters then forkError "E_FORK_WRITER_NOT_FOUND"
  if atSha ∉ host.store.shas then forkError "E_FORK_PATCH_NOT_FOUND"
  match repo.readRef fromId with
  | none => forkError "E_FORK_WRITER_NOT_FOUND"
  | some tipSha =>
      if (← isAncestorWithin repo atSha tipSha) = false then forkError "E_FORK_PATCH_NOT_IN_CHAIN"
      let forkName ← validatedName validateGraphName "E_FORK_NAME_INVALID"
        (resolvedForkName handle.graphName options draws)
      -- only the writer refs of the name are listed
      if (host.worlds forkName).repo.refs.size > 0 then forkError "E_FORK_ALREADY_EXISTS"
      let writerId ← validatedName validateWriterId "E_FORK_WRITER_ID_INVALID" (resolvedForkWriterId options draws)
      return ⟨forkName, writerId, atSha⟩

/-- Writes the writer ref of the fork. -/
def writeForkRef (host : Host V T Hash) (target : ForkTarget) : Option (Host V T Hash) :=
  let world := host.worlds target.forkName
  match h : world.repo.updateRef target.writerId target.at with
  | some repo =>
      some (host.put target.forkName { world with repo := repo }
        (host.shared target.forkName ▸ (Repository.updateRef_eq_some h).2.1 ▸ ObjectStore.Extends.refl _))
  | none => none

/-- `fork`. The ref stays when opening the fork fails; a `patchBlobStorage` of the original is not passed on. -/
def fork (host : Host V T Hash) (handle : GraphHandle) (options : ForkOptions) (draws : ForkDraws) :
    Except JsError GraphHandle × Host V T Hash :=
  match host.forkTarget handle options draws with
  | .error err => (.error err, host)
  | .ok target =>
      match host.writeForkRef target with
      | none => (thrown "The commit does not exist", host)
      | some written =>
          match written.openGraph encrypted target.forkName target.writerId false with
          | .error err => (.error err, written)
          | .ok opened => (.ok opened.1, opened.2)

end Host

end

end GitWarp
