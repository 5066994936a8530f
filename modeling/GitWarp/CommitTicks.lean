import GitWarp.CoherenceRuns
import GitWarp.CommitSafety

/-! Causality of ticks. A writer's next patch should have a tick above those of all patches that its author
could see, so that it wins over them. `createPatch` counts on from the tip of its writer and from the ticks
that its instance has counted, which are those of `materialize` and of its own commits; `Writer.beginPatch`
counts on from the tip alone. What came into the cached state in other ways is not counted.

A run is recorded here together with the patches that each cached state was made of. -/

namespace GitWarp
open Js ExceptLoops

variable {V T Hash Buffer : Type}

/-! ### What is in the cached states -/

/-- A world and where its states come from: by instance the patches in the cached state and the patches
whose ticks were counted, by materialization under way and by checkpoint the patches in its state, and by
builder the patches that were in the cached state of its instance when it was begun. -/
structure Recorded (V T Hash : Type) where
  world : World V T Hash
  included : Nat → List (PatchEntry V)
  counted : Nat → List (PatchEntry V)
  loading : List (List (PatchEntry V))
  checkpoints : List (Sha × List (PatchEntry V))
  seen : Nat → List (PatchEntry V)

namespace Repository

/-- The patches that `materialize` replays on top of the latest checkpoint, if there is one. -/
def materializedPatches (repo : Repository V) : List (PatchEntry V) :=
  match repo.loadLatestCheckpoint with
  | .ok (some checkpoint) => (repo.loadPatchesSince checkpoint).toOption.getD []
  | _ => repo.loadAllPatches

/-- The patches below the frontier of the latest checkpoint. -/
def checkpointedPatches (repo : Repository V) : List (PatchEntry V) :=
  match repo.loadLatestCheckpoint with
  | .ok (some checkpoint) => checkpoint.frontier.values.flatMap (repo.store.walk none)
  | _ => []

/-- The patches that a ceiling lets through. -/
def patchesUpTo (repo : Repository V) (ceiling : Int) : List (PatchEntry V) :=
  if ceiling ≤ 0 then []
  else (repo.getFrontier.keys.flatMap fun writerId => repo.loadWriterPatches writerId none).filter
    fun entry => (entry.patch.lamport : Int) ≤ ceiling

/-- The patches that are replayed on top of a given checkpoint. -/
def patchesOnTopOf (repo : Repository V) (checkpointSha : Sha) : List (PatchEntry V) :=
  match repo.loadCheckpoint checkpointSha with
  | .ok checkpoint => repo.getFrontier.entries.flatMap fun entry =>
      repo.store.walk (checkpoint.frontier.get entry.1) entry.2
  | .error _ => []

end Repository

/-- The cached state is that of the ceiling already. -/
def WarpGraph.servesCeiling (repo : Repository V) (graph : WarpGraph V T Hash) (ceiling : Int)
    (collectReceipts : Bool) : Bool :=
  match graph.cachedFrontier with
  | some cachedFrontier =>
      graph.cachedState.isSome && !graph.stateDirty && graph.cachedCeiling = some ceiling &&
        !collectReceipts && sameFrontier repo.getFrontier cachedFrontier
  | none => false

/-- A commit is applied to the cached state when it is announced. -/
def WarpGraph.takesCommit (graph : WarpGraph V T Hash) (writerId : JsString) : Bool :=
  (vvIncrement graph.versionVector writerId).toOption.isSome && graph.cachedState.isSome && !graph.stateDirty

namespace Recorded

def empty : Recorded V T Hash := ⟨World.empty, fun _ => [], fun _ => [], [], [], fun _ => []⟩

/-- The patches in the state of a checkpoint. -/
def inCheckpoint (recorded : Recorded V T Hash) (sha : Sha) : List (PatchEntry V) :=
  (recorded.checkpoints.filter fun checkpoint => checkpoint.1 = sha).flatMap Prod.snd

/-- The patches in the state of the latest checkpoint. -/
def inLatestCheckpoint (recorded : Recorded V T Hash) : List (PatchEntry V) :=
  recorded.world.repo.checkpointRef.elim [] recorded.inCheckpoint

/-- The instance that a builder is begun on. -/
def begunOn (recorded : Recorded V T Hash) : Action V → Option Nat
  | .createPatch index => some index
  | .beginPatch index => recorded.world.writers[index]?.map Writer.graph
  | _ => none

/-- The commit that an action announces, with the number of the instance. -/
def announced (recorded : Recorded V T Hash) : Action V → Option (Nat × JsString × PatchEntry V)
  | .notify index => do
      let builder ← recorded.world.builders[index]?
      let (sha, patch) ← builder.announced
      return (builder.graph, builder.writerId, ⟨patch, sha⟩)
  | _ => none

/-- The patches in the cached states after an action. `origin` are the patches that a state from elsewhere
is made of. -/
def includedAfter (origin : WarpStateV5 V → List (PatchEntry V)) (recorded : Recorded V T Hash)
    (action : Action V) : Nat → List (PatchEntry V) :=
  let world := recorded.world
  let included := recorded.included
  match action with
  | .open _ _ => Function.update included world.graphs.length []
  | .notify _ =>
      match recorded.announced action with
      | some (index, writerId, entry) =>
          if (world.graphs[index]?.map fun graph => graph.takesCommit writerId).getD false then
            Function.update included index (included index ++ [entry])
          else included
      | none => included
  | .installMaterialized index =>
      match world.materializations[index]? with
      | some materialization =>
          Function.update included materialization.graph (recorded.loading.getD index [])
      | none => included
  | .materializeWithCeiling index ceiling collectReceipts =>
      if (world.graphs[index]?.map fun graph =>
          graph.servesCeiling world.repo ceiling collectReceipts).getD false then included
      else Function.update included index (world.repo.patchesUpTo ceiling)
  | .materializeAt index checkpointSha =>
      Function.update included index
        (recorded.inCheckpoint checkpointSha ++ world.repo.patchesOnTopOf checkpointSha)
  | .applySyncResponse index patches =>
      Function.update included index (included index ++ patches.map fun patch => ⟨patch.patch, patch.sha⟩)
  | .join index otherState => Function.update included index (included index ++ origin otherState)
  | _ => included

/-- The patches whose ticks the instances have counted after an action. -/
def countedAfter (recorded : Recorded V T Hash) (action : Action V) : Nat → List (PatchEntry V) :=
  let world := recorded.world
  let counted := recorded.counted
  match action with
  | .open _ _ => Function.update counted world.graphs.length []
  | .notify _ =>
      match recorded.announced action with
      | some (index, writerId, entry) =>
          if (world.graphs[index]?.map fun graph =>
              (vvIncrement graph.versionVector writerId).toOption.isSome).getD false then
            Function.update counted index (counted index ++ [entry])
          else counted
      | none => counted
  | .loadMaterialized index _ =>
      Function.update counted index
        (counted index ++ (world.repo.checkpointedPatches ++ world.repo.materializedPatches))
  | _ => counted

def loadingAfter (recorded : Recorded V T Hash) : Action V → List (List (PatchEntry V))
  | .loadMaterialized _ _ =>
      recorded.loading ++ [recorded.inLatestCheckpoint ++ recorded.world.repo.materializedPatches]
  | .installMaterialized index => recorded.loading.eraseIdx index
  | _ => recorded.loading

def checkpointsAfter (origin : WarpStateV5 V → List (PatchEntry V)) (recorded : Recorded V T Hash) :
    Action V → List (Sha × List (PatchEntry V))
  | .commitCheckpoint index sha =>
      match recorded.world.drafts[index]? with
      | some draft => recorded.checkpoints ++ [(sha, recorded.included draft.graph)]
      | none => recorded.checkpoints
  | .remoteCommit sha commit =>
      match commit.content with
      | .checkpoint _ state _ => recorded.checkpoints ++ [(sha, origin state)]
      | _ => recorded.checkpoints
  | _ => recorded.checkpoints

/-- A builder that is begun has seen what is in the cached state of its instance. -/
def seenAfter (recorded : Recorded V T Hash) (action : Action V) : Nat → List (PatchEntry V) :=
  match recorded.begunOn action with
  | some index =>
      Function.update recorded.seen recorded.world.builders.length (recorded.included index)
  | none => recorded.seen

/-- A step of the world, recorded. -/
def step [DecidableEq V] [DecidableEq Hash] (services : GraphServices V T Hash Buffer)
    (origin : WarpStateV5 V → List (PatchEntry V)) (recorded : Recorded V T Hash) (action : Action V) :
    Option (Recorded V T Hash) := do
  let world ← recorded.world.step services action
  return {
    world := world
    included := recorded.includedAfter origin action
    counted := recorded.countedAfter action
    loading := recorded.loadingAfter action
    checkpoints := recorded.checkpointsAfter origin action
    seen := recorded.seenAfter action }

/-- The patches whose ticks a new builder takes into account: the chain of its writer and, for
`createPatch`, those that its instance has counted. -/
def takenIntoAccount (recorded : Recorded V T Hash) : Action V → List (PatchEntry V)
  | .createPatch index =>
      match recorded.world.graphs[index]? with
      | some graph => recorded.world.repo.loadWriterPatches graph.writerId none ++ recorded.counted index
      | none => []
  | .beginPatch index =>
      match recorded.world.writers[index]? with
      | some writer => recorded.world.repo.loadWriterPatches writer.writerId none
      | none => []
  | _ => []

/-- The tick that a new builder counts on from. -/
def baseTick (recorded : Recorded V T Hash) : Action V → Nat
  | .createPatch index =>
      match recorded.world.graphs[index]? with
      | some graph => max (recorded.world.repo.ownTick graph.writerId) graph.maxObservedLamport
      | none => 0
  | .beginPatch index =>
      match recorded.world.writers[index]? with
      | some writer => recorded.world.repo.ownTick writer.writerId
      | none => 0
  | _ => 0

end Recorded

/-- When a builder is begun, the patches in the cached state that it does not take into account happen to
have no greater ticks than it counts on from. -/
def TicksCovered (recorded : Recorded V T Hash) (action : Action V) : Prop :=
  ∀ index ∈ recorded.begunOn action, ∀ entry ∈ recorded.included index,
    entry ∉ recorded.takenIntoAccount action → entry.patch.lamport ≤ recorded.baseTick action

instance [DecidableEq V] (recorded : Recorded V T Hash) (action : Action V) :
    Decidable (TicksCovered recorded action) :=
  inferInstanceAs (Decidable (∀ index ∈ recorded.begunOn action, ∀ entry ∈ recorded.included index, _ → _))

/-- The patch that a builder has committed has a tick above those of all patches that were in the cached
state when the builder was begun. So where both set a property, the register in a replay of the two among
other patches is not that of the earlier one. -/
def TicksAdvance (recorded : Recorded V T Hash) : Prop :=
  ∀ index builder sha, recorded.world.builders[index]? = some builder → builder.phase = .committed sha →
    ∃ parents patch, recorded.world.repo.store.get sha = some ⟨parents, .patch patch⟩ ∧
      ∀ entry ∈ recorded.seen index, entry.patch.lamport < patch.lamport ∧
        ∀ entries state, reduceV5 entries = .ok state → entry ∈ entries → ⟨patch, sha⟩ ∈ entries →
          ∀ key, entry.Sets key → PatchEntry.Sets ⟨patch, sha⟩ key →
            ∃ register, state.prop.get key = some register ∧ register ∉ writtenRegisters [entry]

/-! ### Chains with rising ticks -/

/-- The patch at the tip has the greatest tick of its chain. -/
def ObjectStore.Ascends (store : ObjectStore V) (tip : Sha) : Prop :=
  ∃ parents patch, store.get tip = some ⟨parents, .patch patch⟩ ∧
    ∀ entry ∈ store.walk none tip, entry.patch.lamport ≤ patch.lamport

theorem ObjectStore.Ascends.of_extends {store store' : ObjectStore V} {tip : Sha} (h : store.Ascends tip)
    (hstore : store'.Extends store) : store'.Ascends tip := by
  obtain ⟨parents, patch, hget, hle⟩ := h
  refine ⟨parents, patch, hstore.get hget, ?_⟩
  rw [hstore.walk none (ObjectStore.mem_shas_of_get hget)]
  exact hle

/-- A patch above its parent ascends if its parent does. -/
theorem ObjectStore.ascends_of_above {store : ObjectStore V} {sha : Sha} {parentCommit : Option Sha}
    {patch : PatchV2 V} (hget : store.get sha = some ⟨parentCommit.toList, .patch patch⟩)
    (habove : Above store parentCommit patch)
    (hparent : ∀ tip, parentCommit = some tip → store.Ascends tip) : store.Ascends sha := by
  refine ⟨_, patch, hget, fun entry hentry => ?_⟩
  rw [ObjectStore.walk_eq hget, if_neg (Option.some_ne_none sha)] at hentry
  rcases List.mem_append.mp hentry with hmem | hlast
  · cases parentCommit with
    | none => cases hmem
    | some tip =>
        obtain ⟨parents, below, hbelow, hle⟩ := hparent tip rfl
        have hlt := habove tip _ below rfl hbelow rfl
        exact (hle entry hmem).trans hlt.le
  · rw [List.mem_singleton.mp hlast]

/-- The chain of a writer has no tick above that of its tip. -/
theorem Repository.le_ownTick {repo : Repository V} {writerId : JsString}
    (hrefs : ∀ tip, repo.refs.get writerId = some tip → repo.store.Ascends tip) {entry : PatchEntry V}
    (hentry : entry ∈ repo.loadWriterPatches writerId none) :
    entry.patch.lamport ≤ repo.ownTick writerId := by
  unfold loadWriterPatches readRef at hentry
  unfold ownTick readRef
  cases htip : repo.refs.get writerId with
  | none => rw [htip] at hentry; cases hentry
  | some tip =>
      rw [htip] at hentry
      obtain ⟨parents, patch, hget, hle⟩ := hrefs tip htip
      simp only [Option.bind_some, showNode, hget]
      exact hle entry hentry

/-! ### The clock of an instance -/

theorem le_maxLamportOf (patches : List (PatchEntry V)) (start : Nat) :
    start ≤ WarpGraph.maxLamportOf patches start ∧
      ∀ entry ∈ patches, entry.patch.lamport ≤ WarpGraph.maxLamportOf patches start := by
  unfold WarpGraph.maxLamportOf
  induction patches generalizing start with
  | nil => exact ⟨le_rfl, fun entry hentry => nomatch hentry⟩
  | cons head rest ih =>
      obtain ⟨hstart, hrest⟩ := ih (max start head.patch.lamport)
      refine ⟨(le_max_left _ _).trans hstart, fun entry hentry => ?_⟩
      rcases List.mem_cons.mp hentry with rfl | hmem
      · exact (le_max_right _ _).trans hstart
      · exact hrest entry hmem

/-- Scanning the tips of a frontier reaches the ticks of the chains below them. -/
theorem le_scanFrontierForMaxLamport {repo : Repository V} {frontier : Frontier} (start : Nat)
    (hascends : ∀ tip ∈ frontier.values, repo.store.Ascends tip) :
    start ≤ WarpGraph.scanFrontierForMaxLamport repo frontier start ∧
      ∀ tip ∈ frontier.values, ∀ entry ∈ repo.store.walk none tip,
        entry.patch.lamport ≤ WarpGraph.scanFrontierForMaxLamport repo frontier start := by
  unfold WarpGraph.scanFrontierForMaxLamport
  generalize frontier.values = tips at hascends ⊢
  induction tips generalizing start with
  | nil => exact ⟨le_rfl, fun tip htip => nomatch htip⟩
  | cons head rest ih =>
      obtain ⟨parents, patch, hget, hle⟩ := hascends head (List.mem_cons_self ..)
      have hshow : repo.showNode head = some ⟨parents, .patch patch⟩ := hget
      rw [List.foldl_cons]
      simp only [hshow]
      obtain ⟨hstart, hrest⟩ :=
        ih (max start patch.lamport) fun tip htip => hascends tip (List.mem_cons_of_mem _ htip)
      refine ⟨(le_max_left _ _).trans hstart, fun tip htip entry hentry => ?_⟩
      rcases List.mem_cons.mp htip with rfl | hmem
      · exact (hle entry hentry).trans ((le_max_right _ _).trans hstart)
      · exact hrest tip hmem entry hentry

namespace WarpGraph

section Materializing

variable [DecidableEq V]

/-- `materialize` counts the ticks of what it replays and of what lies below its checkpoint. -/
theorem le_of_loadMaterialized {repo : Repository V} {graph graph' : WarpGraph V T Hash}
    {collectReceipts : Bool} {loaded : Loaded V}
    (hcheckpoint : ∀ checkpoint, repo.loadLatestCheckpoint = .ok (some checkpoint) →
      ∀ tip ∈ checkpoint.frontier.values, repo.store.Ascends tip)
    (h : graph.loadMaterialized repo collectReceipts = .ok (graph', loaded)) :
    graph.maxObservedLamport ≤ graph'.maxObservedLamport ∧
      ∀ entry ∈ repo.checkpointedPatches ++ repo.materializedPatches,
        entry.patch.lamport ≤ graph'.maxObservedLamport := by
  unfold loadMaterialized at h
  unfold Repository.checkpointedPatches Repository.materializedPatches
  cases hlatest : repo.loadLatestCheckpoint with
  | error err => rw [hlatest] at h; cases h
  | ok latest =>
      rw [hlatest] at h
      simp only [bind, Except.bind, pure, Except.pure] at h
      cases latest with
      | some checkpoint =>
          simp only at h
          cases hpatches : repo.loadPatchesSince checkpoint with
          | error err => rw [hpatches] at h; cases h
          | ok patches =>
              simp only [hpatches] at h
              split at h
              · cases h
              · cases h
                obtain ⟨hscan, hbelow⟩ :=
                  le_scanFrontierForMaxLamport graph.maxObservedLamport (hcheckpoint checkpoint hlatest)
                obtain ⟨hstart, htop⟩ := le_maxLamportOf patches
                  (scanFrontierForMaxLamport repo checkpoint.frontier graph.maxObservedLamport)
                refine ⟨hscan.trans hstart, fun entry hentry => ?_⟩
                simp only [hpatches, Except.toOption, Option.getD_some] at hentry
                rcases List.mem_append.mp hentry with hmem | hmem
                · obtain ⟨tip, htip, hwalk⟩ := List.mem_flatMap.mp hmem
                  exact (hbelow tip htip entry hwalk).trans hstart
                · exact htop entry hmem
      | none =>
          simp only at h
          split at h
          · rename_i hnone
            cases h
            simp only [hnone]
            exact ⟨le_rfl, fun entry hentry => nomatch hentry⟩
          · split at h
            · cases h
            · cases h
              obtain ⟨hstart, htop⟩ := le_maxLamportOf repo.loadAllPatches graph.maxObservedLamport
              exact ⟨hstart, fun entry hentry => htop entry hentry⟩

end Materializing

section Frames

variable [DecidableEq Hash] {services : GraphServices V T Hash Buffer}

/-- The reading of the code that the record of a ceiling follows. -/
theorem materializeWithCeiling_eq (repo : Repository V) (graph : WarpGraph V T Hash) (ceiling : Int)
    (collectReceipts : Bool) :
    graph.materializeWithCeiling services repo ceiling collectReceipts =
      if graph.servesCeiling repo ceiling collectReceipts then .ok graph
      else do
        let state ← reduceV5 (repo.patchesUpTo ceiling)
        return { graph.setMaterializedState services state none with
          cachedCeiling := some ceiling
          cachedFrontier := some repo.getFrontier } := rfl

theorem maxObservedLamport_materializeWithCeiling {repo : Repository V} {graph graph' : WarpGraph V T Hash}
    {ceiling : Int} {collectReceipts : Bool}
    (h : graph.materializeWithCeiling services repo ceiling collectReceipts = .ok graph') :
    graph'.maxObservedLamport = graph.maxObservedLamport := by
  rw [materializeWithCeiling_eq] at h
  split at h
  · cases h
    rfl
  · cases hstate : reduceV5 (repo.patchesUpTo ceiling) with
    | error err => rw [hstate] at h; cases h
    | ok state =>
        rw [hstate] at h
        cases h
        exact setMaterializedState_maxObservedLamport services graph state none

theorem maxObservedLamport_materializeAt {repo : Repository V} {graph graph' : WarpGraph V T Hash}
    {checkpointSha : Sha} (h : graph.materializeAt services repo checkpointSha = .ok graph') :
    graph'.maxObservedLamport = graph.maxObservedLamport := by
  unfold materializeAt at h
  simp only [bind, Except.bind, pure, Except.pure] at h
  split at h
  · cases h
  · split at h
    · cases h
    · cases h
      exact setMaterializedState_maxObservedLamport services graph _ none

theorem maxObservedLamport_applySync {graph graph' : WarpGraph V T Hash} {patches : List (SyncPatch V)}
    (h : graph.applySync services patches = .ok graph') :
    graph'.maxObservedLamport = graph.maxObservedLamport := by
  unfold applySync at h
  split at h
  · cases h
  · simp only [bind, Except.bind, pure, Except.pure] at h
    split at h
    · cases h
    · cases h
      exact setMaterializedState_maxObservedLamport services graph _ none

omit [DecidableEq Hash] in
theorem maxObservedLamport_join {graph graph' : WarpGraph V T Hash} {otherState : WarpStateV5 V}
    (h : graph.join otherState = .ok graph') : graph'.maxObservedLamport = graph.maxObservedLamport := by
  unfold join at h
  split at h
  · cases h
  · cases h
    rfl

omit [DecidableEq Hash] in
theorem maxObservedLamport_collectGarbage {graph graph' : WarpGraph V T Hash}
    (h : graph.collectGarbage = .ok graph') : graph'.maxObservedLamport = graph.maxObservedLamport := by
  unfold collectGarbage at h
  split at h
  · cases h
  · simp only [bind, Except.bind, pure, Except.pure] at h
    split at h
    · cases h
    · cases h
      rfl

variable (services) in
/-- Announcing a commit counts its tick. -/
theorem le_of_onPatchCommitted [DecidableEq V] (graph : WarpGraph V T Hash) (writerId : JsString)
    (patch : PatchV2 V) (sha : Sha) :
    graph.maxObservedLamport ≤ (graph.onPatchCommitted services writerId patch sha).maxObservedLamport ∧
      ((vvIncrement graph.versionVector writerId).toOption.isSome = true →
        patch.lamport ≤ (graph.onPatchCommitted services writerId patch sha).maxObservedLamport) := by
  unfold onPatchCommitted
  cases vvIncrement graph.versionVector writerId with
  | error err => exact ⟨le_rfl, fun h => nomatch h⟩
  | ok incremented =>
      dsimp only
      split
      · split <;> simp
      · simp

end Frames

end WarpGraph

/-! ### What every run keeps -/

/-- In the course of a `commit()` the tick of the patch is above its parent and not below the builder's. -/
def PatchBuilderV2.TickKept (store : ObjectStore V) (builder : PatchBuilderV2 V) : Prop :=
  match builder.phase with
  | .writingBlob _ patch | .writingTree _ patch | .committingNode _ patch | .updatingRef _ patch =>
      builder.lamport ≤ patch.lamport ∧ Above store builder.expectedParentSha patch
  | .notifying _ patch => builder.lamport ≤ patch.lamport
  | .committed sha => ∃ parents patch,
      store.get sha = some ⟨parents, .patch patch⟩ ∧ builder.lamport ≤ patch.lamport
  | _ => True

/-- Every chain that a ref, a builder or a checkpoint frontier names has its greatest tick at its tip. -/
structure TicksRise (world : World V T Hash) : Prop extends BuildersOk world where
  refs : ∀ writerId tip, world.repo.refs.get writerId = some tip → world.repo.store.Ascends tip
  bases : ∀ builder ∈ world.builders, ∀ tip, builder.expectedParentSha = some tip →
    world.repo.store.Ascends tip
  kept : ∀ builder ∈ world.builders, builder.TickKept world.repo.store
  drafts : ∀ draft ∈ world.drafts, ∀ tip ∈ draft.frontier.values, world.repo.store.Ascends tip
  checkpoint : ∀ sha parents schema state frontier, world.repo.checkpointRef = some sha →
    world.repo.store.get sha = some ⟨parents, .checkpoint schema state frontier⟩ →
    ∀ tip ∈ frontier.values, world.repo.store.Ascends tip

namespace PatchBuilderV2

theorem TickKept.of_extends {store store' : ObjectStore V} {builder : PatchBuilderV2 V}
    (h : builder.TickKept store) (hstore : store'.Extends store)
    (hparent : ∀ tip, builder.expectedParentSha = some tip → tip ∈ store.shas) :
    builder.TickKept store' := by
  unfold TickKept at h ⊢
  cases hphase : builder.phase <;> simp only [hphase] at h ⊢
  case writingBlob parentCommit patch => exact ⟨h.1, h.2.of_extends hstore hparent⟩
  case writingTree parentCommit patch => exact ⟨h.1, h.2.of_extends hstore hparent⟩
  case committingNode parentCommit patch => exact ⟨h.1, h.2.of_extends hstore hparent⟩
  case updatingRef sha patch => exact ⟨h.1, h.2.of_extends hstore hparent⟩
  case notifying sha patch => exact h
  case committed sha =>
    obtain ⟨parents, patch, hget, hle⟩ := h
    exact ⟨parents, patch, hstore.get hget, hle⟩

theorem Edit.tickKept {store : ObjectStore V} {builder builder' : PatchBuilderV2 V}
    (h : builder.Edit builder') : builder'.TickKept store := by
  cases h with
  | dot op hop vv dot hphase hdot => simp [TickKept, hphase]
  | append op hphase hop => simp [TickKept, hphase]
  | commit hphase => trivial
  | abort hphase hphase' => trivial

/-- The patch that a builder makes is above its parent. -/
theorem Persisted.tickKept {repo repo' : Repository V} {builder builder' : PatchBuilderV2 V}
    (hpersisted : Persisted repo builder repo' builder') (hmaking : builder.Making repo.store)
    (h : builder.TickKept repo.store)
    (hparent : ∀ tip, builder.expectedParentSha = some tip → tip ∈ repo.store.shas) :
    builder'.TickKept repo'.store := by
  unfold TickKept at h
  cases hpersisted with
  | conflict hphase => trivial
  | showing tip hparent hphase => trivial
  | patchFailed hphase hphase' => trivial
  | patchRoot patch hnone hphase hpatch =>
      obtain ⟨-, hlamport, -⟩ := toPatch_eq_ok hpatch
      refine ⟨hlamport.ge, fun tip commit below htip => ?_⟩
      simp only [hnone] at htip
      cases htip
  | patchOn tip commit lamport patch hphase hcommit hlamport hraised hpatch =>
      obtain ⟨-, hsame, -⟩ := toPatch_eq_ok hpatch
      unfold Making at hmaking
      rw [hphase] at hmaking
      refine ⟨hsame ▸ hraised, fun tip' commit' below htip hget hbelow => ?_⟩
      simp only [hmaking, Option.some.injEq] at htip
      subst htip
      rw [hcommit, Option.some.injEq] at hget
      subst hget
      exact hsame ▸ hlamport below hbelow
  | blob parentCommit patch hphase =>
      rw [hphase] at h
      exact h
  | tree parentCommit patch hphase =>
      rw [hphase] at h
      exact h
  | node parentCommit patch sha repo' hphase hstore hrefs hget hnew =>
      rw [hphase] at h
      exact ⟨h.1, h.2.of_extends hstore hparent⟩
  | ref sha patch repo' hphase hstore hrefs =>
      rw [hphase] at h
      exact h.1

/-- The refs after a call of the persistence layer ascend. -/
theorem Persisted.ascends {repo repo' : Repository V} {builder builder' : PatchBuilderV2 V}
    (hpersisted : Persisted repo builder repo' builder') (hmaking : builder.Making repo.store)
    (h : builder.TickKept repo.store)
    (hbase : ∀ tip, builder.expectedParentSha = some tip → repo.store.Ascends tip)
    (hrefs : ∀ writerId tip, repo.refs.get writerId = some tip → repo.store.Ascends tip) :
    ∀ writerId tip, repo'.refs.get writerId = some tip → repo'.store.Ascends tip := by
  cases hpersisted with
  | node parentCommit patch sha repo' hphase hstore hsame hget hnew =>
      intro writerId tip htip
      rw [hsame] at htip
      exact (hrefs writerId tip htip).of_extends hstore
  | ref sha patch repo' hphase hstore hset =>
      intro writerId tip htip
      unfold TickKept at h
      unfold Making at hmaking
      rw [hphase] at h hmaking
      rw [hset, JsMap.get_set] at htip
      rw [hstore]
      split at htip
      · cases htip
        exact ObjectStore.ascends_of_above hmaking.1 h.2 hbase
      · exact hrefs writerId tip htip
  | _ => exact hrefs

end PatchBuilderV2

/-- The tips of a stored frontier are tips of the frontier. -/
theorem mem_values_storedFrontier {frontier : Frontier} {tip : Sha}
    (h : tip ∈ (storedFrontier frontier).values) : tip ∈ frontier.values := by
  obtain ⟨writerId, hget⟩ := (JsMap.mem_values_iff _ tip).mp h
  rw [get_storedFrontier] at hget
  split at hget
  · cases hget
  · exact (JsMap.mem_values_iff frontier tip).mpr ⟨writerId, hget⟩

theorem mem_values_getFrontier {repo : Repository V} {tip : Sha} (h : tip ∈ repo.getFrontier.values) :
    ∃ writerId, repo.refs.get writerId = some tip := by
  obtain ⟨writerId, hget⟩ := (JsMap.mem_values_iff _ tip).mp h
  exact ⟨writerId, (repo.get_getFrontier writerId) ▸ hget⟩

theorem checkpointRef_of_persist [DecidableEq V] {repo repo' : Repository V}
    {builder builder' : PatchBuilderV2 V} {sha : Sha}
    (h : builder.persist repo sha = some (repo', builder')) : repo'.checkpointRef = repo.checkpointRef := by
  unfold PatchBuilderV2.persist at h
  cases hphase : builder.phase <;>
    simp only [hphase, Option.bind_eq_bind, Option.bind_eq_some_iff, Option.pure_def, Option.some.injEq,
      Prod.mk.injEq, reduceCtorEq] at h
  case readingRef =>
    split at h
    · cases h
      rfl
    · split at h <;>
      · cases h
        rfl
  case showingNode tip =>
    obtain ⟨commit, -, rfl, -⟩ := h
    rfl
  case writingBlob parentCommit patch => rw [h.1]
  case writingTree parentCommit patch => rw [h.1]
  case committingNode parentCommit patch =>
    obtain ⟨written, hwritten, rfl, -⟩ := h
    exact (Repository.commitNode_eq_some hwritten).2.2
  case updatingRef newCommitSha patch =>
    obtain ⟨moved, hmoved, rfl, -⟩ := h
    exact (Repository.updateRef_eq_some hmoved).2.2.2

section Steps

variable [DecidableEq V] [DecidableEq Hash] {services : GraphServices V T Hash Buffer}

/-- Drafts have the frontier of the refs, and a checkpoint is committed for the frontier of its draft. -/
theorem checkpoints_of_step {world world' : World V T Hash} {action : Action V}
    (h : world.step services action = some world') :
    (∀ draft ∈ world'.drafts, draft ∈ world.drafts ∨ draft.frontier = world.repo.getFrontier) ∧
      (world'.repo.checkpointRef = world.repo.checkpointRef ∨
        ∃ draft ∈ world.drafts, ∃ sha parents schema state, world'.repo.checkpointRef = some sha ∧
          world'.repo.store.get sha =
            some ⟨parents, .checkpoint schema state (storedFrontier draft.frontier)⟩) := by
  have hgraph : ∀ {index method}, world.withGraph index method = some world' →
      world'.drafts = world.drafts ∧ world'.repo = world.repo := by
    intro index method hstep
    obtain ⟨graph, graph', -, -, rfl⟩ := World.withGraph_eq_some hstep
    exact ⟨rfl, rfl⟩
  have hbuilder : ∀ {index method}, world.withBuilder index method = some world' →
      world'.drafts = world.drafts ∧ world'.repo = world.repo := by
    intro index method hstep
    simp only [World.withBuilder, Option.bind_eq_bind, Option.bind_eq_some_iff, Option.pure_def,
      Option.some.injEq] at hstep
    obtain ⟨builder, -, builder', -, rfl⟩ := hstep
    exact ⟨rfl, rfl⟩
  have hbegun : world.withBegun action = some world' →
      world'.drafts = world.drafts ∧ world'.repo = world.repo := by
    intro hstep
    simp only [World.withBegun, Option.bind_eq_bind, Option.bind_eq_some_iff, Option.pure_def,
      Option.some.injEq] at hstep
    obtain ⟨builder, -, rfl⟩ := hstep
    exact ⟨rfl, rfl⟩
  have hsame : ∀ {other : Prop}, world'.drafts = world.drafts ∧ world'.repo = world.repo →
      (∀ draft ∈ world'.drafts, draft ∈ world.drafts ∨ draft.frontier = world.repo.getFrontier) ∧
        (world'.repo.checkpointRef = world.repo.checkpointRef ∨ other) :=
    fun hframe => ⟨fun draft hdraft => Or.inl (hframe.1 ▸ hdraft), Or.inl (by rw [hframe.2])⟩
  cases action with
  | «open» writerId audited =>
      cases h
      exact hsame ⟨rfl, rfl⟩
  | createPatch index => exact hsame (hbegun h)
  | beginPatch index => exact hsame (hbegun h)
  | addNode index nodeId => exact hsame (hbuilder h)
  | addEdge index edge => exact hsame (hbuilder h)
  | append index op => exact hsame (hbuilder h)
  | commit index => exact hsame (hbuilder h)
  | abort index => exact hsame (hbuilder h)
  | materializeWithCeiling index ceiling collectReceipts => exact hsame (hgraph h)
  | materializeAt index checkpointSha => exact hsame (hgraph h)
  | applySyncResponse index patches => exact hsame (hgraph h)
  | join index otherState => exact hsame (hgraph h)
  | runGC index => exact hsame (hgraph h)
  | writer index writerId =>
      simp only [World.step, Option.bind_eq_bind, Option.bind_eq_some_iff, Option.pure_def,
        Option.some.injEq] at h
      obtain ⟨graph, -, rfl⟩ := h
      exact hsame ⟨rfl, rfl⟩
  | persist index sha =>
      simp only [World.step, Option.bind_eq_bind, Option.bind_eq_some_iff, Option.pure_def,
        Option.some.injEq] at h
      obtain ⟨builder, -, ⟨repo', builder'⟩, hresult, rfl⟩ := h
      exact ⟨fun draft hdraft => Or.inl hdraft, Or.inl (checkpointRef_of_persist hresult)⟩
  | notify index =>
      simp only [World.step, World.notify, Option.bind_eq_bind, Option.bind_eq_some_iff] at h
      obtain ⟨builder, -, h⟩ := h
      split at h
      · simp only [Option.bind_eq_some_iff, Option.pure_def, Option.some.injEq] at h
        obtain ⟨graph, -, rfl⟩ := h
        exact hsame ⟨rfl, rfl⟩
      · cases h
  | loadMaterialized index collectReceipts =>
      simp only [World.step, Option.bind_eq_bind, Option.bind_eq_some_iff, Option.pure_def,
        Option.some.injEq] at h
      obtain ⟨graph, -, result, -, rfl⟩ := h
      exact hsame ⟨rfl, rfl⟩
  | installMaterialized index =>
      simp only [World.step, Option.bind_eq_bind, Option.bind_eq_some_iff, Option.pure_def,
        Option.some.injEq] at h
      obtain ⟨materialization, -, graph, -, rfl⟩ := h
      exact hsame ⟨rfl, rfl⟩
  | readCheckpointFrontier index =>
      simp only [World.step, Option.bind_eq_bind, Option.bind_eq_some_iff, Option.pure_def,
        Option.some.injEq] at h
      obtain ⟨graph, -, rfl⟩ := h
      refine ⟨fun draft hdraft => ?_, Or.inl rfl⟩
      rcases List.mem_append.mp hdraft with hold | hnew
      · exact Or.inl hold
      · rw [List.mem_singleton.mp hnew]
        exact Or.inr rfl
  | commitCheckpoint index sha =>
      simp only [World.step, Option.bind_eq_bind, Option.bind_eq_some_iff] at h
      obtain ⟨draft, hdraft, graph, -, h⟩ := h
      split at h
      · cases h
      · simp only [Option.bind_eq_some_iff, Option.pure_def, Option.some.injEq] at h
        obtain ⟨commit, hcommit, written, hwritten, moved, hmoved, rfl⟩ := h
        obtain ⟨hput, -, -⟩ := Repository.commitNode_eq_some hwritten
        obtain ⟨hstore, -, href⟩ := Repository.updateCheckpointRef_eq_some hmoved
        refine ⟨fun other hother => Or.inl (List.mem_of_mem_eraseIdx hother), Or.inr ?_⟩
        refine ⟨draft, List.mem_of_getElem? hdraft, sha, ?_⟩
        show ∃ parents schema state, moved.checkpointRef = some sha ∧ moved.store.get sha = _
        rw [hstore, (ObjectStore.put_eq_some hput).2.1]
        unfold WarpGraph.checkpointCommit at hcommit
        split at hcommit
        · cases hcommit
        · rename_i state _
          cases hreload : reloadCheckpoint services.codec state with
          | error err => simp only [hreload, bind, Except.bind] at hcommit; cases hcommit
          | ok stored =>
              simp only [hreload, bind, Except.bind, pure, Except.pure] at hcommit
              cases hcommit
              exact ⟨_, _, stored, href, rfl⟩
  | remoteCommit sha commit =>
      simp only [World.step, Option.bind_eq_bind, Option.bind_eq_some_iff, Option.pure_def,
        Option.some.injEq] at h
      obtain ⟨written, hwritten, rfl⟩ := h
      exact ⟨fun draft hdraft => Or.inl hdraft, Or.inl (Repository.commitNode_eq_some hwritten).2.2⟩

theorem extends_of_step {world world' : World V T Hash} {action : Action V}
    (h : world.step services action = some world') : world'.repo.store.Extends world.repo.store := by
  cases World.effect_of_step h with
  | quiet hstore hrefs hbuilders => exact hstore
  | begun builder hrepo hbuilders hphase hops hparent haction =>
      rw [hrepo]
      exact ObjectStore.Extends.refl _
  | edited index builder builder' hrepo hbuilder hbuilders hedit =>
      rw [hrepo]
      exact ObjectStore.Extends.refl _
  | persisted index builder builder' haction hbuilder hbuilders hpersisted => exact hpersisted.extends
  | notified index builder sha patch hrepo hbuilder hphase hbuilders =>
      rw [hrepo]
      exact ObjectStore.Extends.refl _

theorem ticksRise_step {world world' : World V T Hash} {action : Action V} (h : TicksRise world)
    (hstep : world.step services action = some world') : TicksRise world' := by
  have hok := buildersOk_step h.toBuildersOk hstep
  have hstore := extends_of_step hstep
  obtain ⟨hdrafts, hcheckpoint⟩ := checkpoints_of_step hstep
  have hnewDrafts : ∀ draft ∈ world'.drafts, ∀ tip ∈ draft.frontier.values,
      world'.repo.store.Ascends tip := by
    intro draft hdraft tip htip
    rcases hdrafts draft hdraft with hold | hfrontier
    · exact (h.drafts draft hold tip htip).of_extends hstore
    · rw [hfrontier] at htip
      obtain ⟨writerId, href⟩ := mem_values_getFrontier htip
      exact (h.refs writerId tip href).of_extends hstore
  have hnewCheckpoint : ∀ sha parents schema state frontier, world'.repo.checkpointRef = some sha →
      world'.repo.store.get sha = some ⟨parents, .checkpoint schema state frontier⟩ →
      ∀ tip ∈ frontier.values, world'.repo.store.Ascends tip := by
    intro sha parents schema state frontier href hget tip htip
    rcases hcheckpoint with hsame | ⟨draft, hdraft, sha', parents', schema', state', href', hget'⟩
    · rw [hsame] at href
      rw [hstore.get_eq (world.repo.checkpointExists sha href)] at hget
      exact (h.checkpoint sha parents schema state frontier href hget tip htip).of_extends hstore
    · rw [href', Option.some.injEq] at href
      subst href
      rw [hget', Option.some.injEq, Commit.mk.injEq, CommitContent.checkpoint.injEq] at hget
      rw [← hget.2.2.2] at htip
      exact (h.drafts draft hdraft tip (mem_values_storedFrontier htip)).of_extends hstore
  have hbuild : ∀ {index builder builder'}, world.builders[index]? = some builder →
      world'.builders = world.builders.set index builder' →
      builder'.expectedParentSha = builder.expectedParentSha → builder'.TickKept world'.repo.store →
      (∀ writerId tip, world'.repo.refs.get writerId = some tip → world'.repo.store.Ascends tip) →
      TicksRise world' := by
    intro index builder builder' hbuilder hbuilders hparent hkept hrefs
    refine ⟨hok, hrefs, fun other hother tip htip => ?_, fun other hother => ?_, hnewDrafts,
      hnewCheckpoint⟩ <;> rw [hbuilders] at hother <;>
      rcases Lists.mem_of_mem_set hbuilder hother with rfl | hmem
    · rw [hparent] at htip
      exact (h.bases builder (List.mem_of_getElem? hbuilder) tip htip).of_extends hstore
    · exact (h.bases other hmem tip htip).of_extends hstore
    · exact hkept
    · exact (h.kept other hmem).of_extends hstore (h.parents other hmem)
  have hsameRefs : world'.repo.refs = world.repo.refs →
      ∀ writerId tip, world'.repo.refs.get writerId = some tip → world'.repo.store.Ascends tip :=
    fun hrefs writerId tip htip => (h.refs writerId tip (hrefs ▸ htip)).of_extends hstore
  cases World.effect_of_step hstep with
  | quiet hextends hrefs hbuilders =>
      refine ⟨hok, hsameRefs hrefs, fun builder hmem tip htip => ?_, fun builder hmem => ?_, hnewDrafts,
        hnewCheckpoint⟩ <;> rw [hbuilders] at hmem
      · exact (h.bases builder hmem tip htip).of_extends hstore
      · exact (h.kept builder hmem).of_extends hstore (h.parents builder hmem)
  | begun builder hrepo hbuilders hphase hops hparent haction =>
      refine ⟨hok, hsameRefs (by rw [hrepo]), fun other hmem tip htip => ?_, fun other hmem => ?_,
        hnewDrafts, hnewCheckpoint⟩ <;> rw [hbuilders] at hmem <;>
        rcases List.mem_append.mp hmem with hold | hnew
      · exact (h.bases other hold tip htip).of_extends hstore
      · rw [List.mem_singleton.mp hnew, hparent] at htip
        exact (h.refs _ tip htip).of_extends hstore
      · exact (h.kept other hold).of_extends hstore (h.parents other hold)
      · rw [List.mem_singleton.mp hnew]
        simp [PatchBuilderV2.TickKept, hphase]
  | edited index builder builder' hrepo hbuilder hbuilders hedit =>
      exact hbuild hbuilder hbuilders hedit.frame.2 hedit.tickKept (hsameRefs (by rw [hrepo]))
  | persisted index builder builder' haction hbuilder hbuilders hpersisted =>
      have hmem := List.mem_of_getElem? hbuilder
      exact hbuild hbuilder hbuilders hpersisted.frame.2.1
        (hpersisted.tickKept (h.making builder hmem) (h.kept builder hmem) (h.parents builder hmem))
        (hpersisted.ascends (h.making builder hmem) (h.kept builder hmem) (h.bases builder hmem) h.refs)
  | notified index builder sha patch hrepo hbuilder hphase hbuilders =>
      have hmem := List.mem_of_getElem? hbuilder
      refine hbuild hbuilder hbuilders rfl ?_ (hsameRefs (by rw [hrepo]))
      have hkept := h.kept builder hmem
      have hmaking := h.making builder hmem
      unfold PatchBuilderV2.TickKept at hkept
      unfold PatchBuilderV2.Making at hmaking
      rw [hphase] at hkept hmaking
      rw [hrepo]
      exact ⟨_, builder.storedPatch patch, hmaking.1, hkept⟩

end Steps

/-! ### Recorded runs -/

/-- The clocks of the instances are not below the ticks that were counted. -/
def ClocksAhead (graphs : List (WarpGraph V T Hash)) (counted : Nat → List (PatchEntry V)) : Prop :=
  ∀ index graph, graphs[index]? = some graph →
    ∀ entry ∈ counted index, entry.patch.lamport ≤ graph.maxObservedLamport

/-- One instance is replaced by a later one that may have counted more. -/
theorem ClocksAhead.replace {graphs : List (WarpGraph V T Hash)} {counted counted' : Nat → List (PatchEntry V)}
    (h : ClocksAhead graphs counted) {index : Nat} {graph graph' : WarpGraph V T Hash}
    (hgraph : graphs[index]? = some graph) (hclock : graph.maxObservedLamport ≤ graph'.maxObservedLamport)
    (hothers : ∀ other, other ≠ index → counted' other = counted other)
    (hnew : ∀ entry ∈ counted' index,
      entry ∈ counted index ∨ entry.patch.lamport ≤ graph'.maxObservedLamport) :
    ClocksAhead (graphs.set index graph') counted' := by
  intro other found hfound entry hentry
  by_cases hother : other = index
  · subst hother
    rw [List.getElem?_set_self (List.getElem?_eq_some_iff.mp hgraph).1, Option.some.injEq] at hfound
    subst hfound
    rcases hnew entry hentry with hold | hle
    · exact (h other graph hgraph entry hold).trans hclock
    · exact hle
  · rw [List.getElem?_set_ne (Ne.symm hother)] at hfound
    rw [hothers other hother] at hentry
    exact h other found hfound entry hentry

/-- The clocks are ahead of what was counted, and a builder of what it has seen. -/
structure TickInvariant (recorded : Recorded V T Hash) : Prop extends TicksRise recorded.world where
  clocks : ClocksAhead recorded.world.graphs recorded.counted
  seen : ∀ index builder, recorded.world.builders[index]? = some builder →
    ∀ entry ∈ recorded.seen index, entry.patch.lamport < builder.lamport

/-- The tips of the frontier of the latest checkpoint ascend. -/
theorem TicksRise.latestCheckpoint {world : World V T Hash} (h : TicksRise world) {checkpoint : Checkpoint V}
    (hload : world.repo.loadLatestCheckpoint = .ok (some checkpoint)) :
    ∀ tip ∈ checkpoint.frontier.values, world.repo.store.Ascends tip := by
  unfold Repository.loadLatestCheckpoint at hload
  split at hload
  · rename_i sha href
    cases hone : world.repo.loadCheckpoint sha with
    | error err => rw [hone] at hload; cases hload
    | ok loaded =>
        rw [hone] at hload
        cases hload
        unfold Repository.loadCheckpoint at hone
        split at hone
        · rename_i parents schema state frontier hget
          split at hone
          · cases hone
            exact h.checkpoint sha parents schema state frontier href hget
          · cases hone
        · cases hone
  · cases hload

section Steps

variable [DecidableEq V] [DecidableEq Hash] {services : GraphServices V T Hash Buffer}

theorem Recorded.step_eq_some {origin : WarpStateV5 V → List (PatchEntry V)}
    {recorded recorded' : Recorded V T Hash} {action : Action V}
    (h : recorded.step services origin action = some recorded') :
    recorded.world.step services action = some recorded'.world ∧
      recorded'.counted = recorded.countedAfter action ∧ recorded'.seen = recorded.seenAfter action := by
  simp only [Recorded.step, Option.bind_eq_bind, Option.bind_eq_some_iff, Option.pure_def,
    Option.some.injEq] at h
  obtain ⟨world, hworld, rfl⟩ := h
  exact ⟨hworld, rfl, rfl⟩

omit [DecidableEq V] [DecidableEq Hash] in
theorem clocksAhead_of_withGraph {world world' : World V T Hash} {counted : Nat → List (PatchEntry V)}
    (h : ClocksAhead world.graphs counted) {index : Nat}
    {method : WarpGraph V T Hash → Except JsError (WarpGraph V T Hash)}
    (hmethod : ∀ graph graph', method graph = .ok graph' →
      graph'.maxObservedLamport = graph.maxObservedLamport)
    (hstep : world.withGraph index method = some world') : ClocksAhead world'.graphs counted := by
  obtain ⟨graph, graph', hgraph, hresult, rfl⟩ := World.withGraph_eq_some hstep
  exact h.replace hgraph (hmethod graph graph' hresult).ge (fun _ _ => rfl) fun _ hentry => Or.inl hentry

theorem clocksAhead_step {recorded : Recorded V T Hash} {world' : World V T Hash} {action : Action V}
    (h : TickInvariant recorded) (hstep : recorded.world.step services action = some world') :
    ClocksAhead world'.graphs (recorded.countedAfter action) := by
  have hclocks := h.clocks
  cases action with
  | «open» writerId audited =>
      cases hstep
      intro index graph hgraph entry hentry
      simp only [Recorded.countedAfter, Function.update_apply] at hentry
      split at hentry
      · cases hentry
      · rename_i hne
        rw [List.getElem?_append] at hgraph
        split at hgraph
        · exact hclocks index graph hgraph entry hentry
        · rename_i hge
          rw [List.getElem?_singleton] at hgraph
          split at hgraph
          · rename_i hzero
            exact absurd (by omega) hne
          · cases hgraph
  | notify index =>
      simp only [World.step, World.notify, Option.bind_eq_bind, Option.bind_eq_some_iff] at hstep
      obtain ⟨builder, hbuilder, hstep⟩ := hstep
      split at hstep
      · rename_i sha patch hphase
        simp only [Option.bind_eq_some_iff, Option.pure_def, Option.some.injEq] at hstep
        obtain ⟨graph, hgraph, rfl⟩ := hstep
        obtain ⟨hclock, hcounts⟩ :=
          WarpGraph.le_of_onPatchCommitted services graph builder.writerId patch sha
        have hannounced : recorded.announced (.notify index) =
            some (builder.graph, builder.writerId, ⟨patch, sha⟩) := by
          simp [Recorded.announced, hbuilder, PatchBuilderV2.announced, hphase]
        refine hclocks.replace hgraph hclock (fun other hother => ?_) fun entry hentry => ?_
        · simp only [Recorded.countedAfter, hannounced]
          split
          · exact Function.update_of_ne hother _ _
          · rfl
        · simp only [Recorded.countedAfter, hannounced, hgraph, Option.map_some, Option.getD_some] at hentry
          split at hentry
          · rename_i hcounted
            rw [Function.update_self] at hentry
            rcases List.mem_append.mp hentry with hold | hnew
            · exact Or.inl hold
            · rw [List.mem_singleton.mp hnew]
              exact Or.inr (hcounts hcounted)
          · exact Or.inl hentry
      · cases hstep
  | loadMaterialized index collectReceipts =>
      simp only [World.step, Option.bind_eq_bind, Option.bind_eq_some_iff, Option.pure_def,
        Option.some.injEq] at hstep
      obtain ⟨graph, hgraph, ⟨graph', loaded⟩, hresult, rfl⟩ := hstep
      have hload : graph.loadMaterialized recorded.world.repo collectReceipts = .ok (graph', loaded) := by
        cases hone : graph.loadMaterialized recorded.world.repo collectReceipts with
        | error err => rw [hone] at hresult; cases hresult
        | ok both =>
            rw [hone] at hresult
            cases hresult
            rfl
      obtain ⟨hclock, hcounts⟩ := WarpGraph.le_of_loadMaterialized (fun _ => h.latestCheckpoint) hload
      refine hclocks.replace hgraph hclock (fun other hother => ?_) fun entry hentry => ?_
      · exact Function.update_of_ne hother _ _
      · simp only [Recorded.countedAfter, Function.update_self] at hentry
        rcases List.mem_append.mp hentry with hold | hnew
        · exact Or.inl hold
        · exact Or.inr (hcounts entry hnew)
  | installMaterialized index =>
      simp only [World.step, Option.bind_eq_bind, Option.bind_eq_some_iff, Option.pure_def,
        Option.some.injEq] at hstep
      obtain ⟨materialization, -, graph, hgraph, rfl⟩ := hstep
      refine hclocks.replace hgraph ?_ (fun _ _ => rfl) fun _ hentry => Or.inl hentry
      simp [WarpGraph.installMaterialized]
  | materializeWithCeiling index ceiling collectReceipts =>
      exact clocksAhead_of_withGraph hclocks
        (fun _ _ => WarpGraph.maxObservedLamport_materializeWithCeiling) hstep
  | materializeAt index checkpointSha =>
      exact clocksAhead_of_withGraph hclocks (fun _ _ => WarpGraph.maxObservedLamport_materializeAt) hstep
  | applySyncResponse index patches =>
      exact clocksAhead_of_withGraph hclocks (fun _ _ => WarpGraph.maxObservedLamport_applySync) hstep
  | join index otherState =>
      exact clocksAhead_of_withGraph hclocks (fun _ _ => WarpGraph.maxObservedLamport_join) hstep
  | runGC index =>
      exact clocksAhead_of_withGraph hclocks (fun _ _ => WarpGraph.maxObservedLamport_collectGarbage) hstep
  | commitCheckpoint index sha =>
      simp only [World.step, Option.bind_eq_bind, Option.bind_eq_some_iff] at hstep
      obtain ⟨draft, -, graph, -, hstep⟩ := hstep
      split at hstep
      · cases hstep
      · simp only [Option.bind_eq_some_iff, Option.pure_def, Option.some.injEq] at hstep
        obtain ⟨commit, -, written, -, moved, -, rfl⟩ := hstep
        exact hclocks
  | _ =>
      have hgraphs : world'.graphs = recorded.world.graphs := by
        simp only [World.step, World.withBegun, World.withBuilder, Option.bind_eq_bind,
          Option.bind_eq_some_iff, Option.pure_def, Option.some.injEq] at hstep
        grind
      rw [hgraphs]
      exact hclocks

/-- A step leaves the tick of a builder alone, or begins it. -/
theorem builder_of_step {world world' : World V T Hash} {action : Action V}
    (hstep : world.step services action = some world') {index : Nat} {builder' : PatchBuilderV2 V}
    (hbuilder' : world'.builders[index]? = some builder') :
    (∃ builder, world.builders[index]? = some builder ∧ builder'.lamport = builder.lamport) ∨
      index = world.builders.length ∧ world.begun action = some builder' := by
  have hset : ∀ (place : Nat) (old new : PatchBuilderV2 V), world.builders[place]? = some old →
      new.lamport = old.lamport → world'.builders = world.builders.set place new →
      ∃ builder, world.builders[index]? = some builder ∧ builder'.lamport = builder.lamport := by
    intro place old new hold hlamport hbuilders
    rw [hbuilders] at hbuilder'
    by_cases hplace : index = place
    · subst hplace
      rw [List.getElem?_set_self (List.getElem?_eq_some_iff.mp hold).1, Option.some.injEq] at hbuilder'
      exact ⟨old, hold, hbuilder' ▸ hlamport⟩
    · rw [List.getElem?_set_ne (Ne.symm hplace)] at hbuilder'
      exact ⟨builder', hbuilder', rfl⟩
  cases World.effect_of_step hstep with
  | quiet hstore hrefs hbuilders =>
      rw [hbuilders] at hbuilder'
      exact Or.inl ⟨builder', hbuilder', rfl⟩
  | begun builder hrepo hbuilders hphase hops hparent haction =>
      rw [hbuilders, List.getElem?_append] at hbuilder'
      split at hbuilder'
      · exact Or.inl ⟨builder', hbuilder', rfl⟩
      · rw [List.getElem?_singleton] at hbuilder'
        split at hbuilder'
        · cases hbuilder'
          exact Or.inr ⟨by omega, haction⟩
        · cases hbuilder'
  | edited place builder new hrepo hbuilder hbuilders hedit =>
      exact Or.inl (hset place builder new hbuilder hedit.lamport hbuilders)
  | persisted place builder new haction hbuilder hbuilders hpersisted =>
      exact Or.inl (hset place builder new hbuilder hpersisted.lamport hbuilders)
  | notified place builder sha patch hrepo hbuilder hphase hbuilders =>
      exact Or.inl (hset place builder { builder with phase := .committed sha } hbuilder rfl hbuilders)

omit [DecidableEq V] [DecidableEq Hash] in
/-- A builder is begun with the tick after the base tick, which is not below what it takes into account. -/
theorem base_of_begun {recorded : Recorded V T Hash} {action : Action V} {builder : PatchBuilderV2 V}
    (h : TickInvariant recorded) (hbegun : recorded.world.begun action = some builder) :
    (∃ index, recorded.begunOn action = some index) ∧ builder.lamport = recorded.baseTick action + 1 ∧
      ∀ entry ∈ recorded.takenIntoAccount action, entry.patch.lamport ≤ recorded.baseTick action := by
  cases action with
  | createPatch index =>
      simp only [World.begun, Option.bind_eq_bind, Option.bind_eq_some_iff, Option.pure_def,
        Option.some.injEq] at hbegun
      obtain ⟨graph, hgraph, rfl⟩ := hbegun
      simp only [Recorded.baseTick, Recorded.takenIntoAccount, hgraph]
      refine ⟨⟨index, rfl⟩, rfl, fun entry hentry => ?_⟩
      rcases List.mem_append.mp hentry with hchain | hcounted
      · exact (Repository.le_ownTick (h.refs graph.writerId) hchain).trans (le_max_left _ _)
      · exact (h.clocks index graph hgraph entry hcounted).trans (le_max_right _ _)
  | beginPatch index =>
      simp only [World.begun, Writer.beginPatch, Option.bind_eq_bind, Option.bind_eq_some_iff,
        Option.pure_def, Option.some.injEq] at hbegun
      obtain ⟨writer, hwriter, graph, -, builder, ⟨vv, -, lamport, hlamport, rfl⟩, rfl⟩ := hbegun
      simp only [Recorded.baseTick, Recorded.takenIntoAccount, hwriter]
      refine ⟨⟨writer.graph, by simp [Recorded.begunOn, hwriter]⟩, ?_,
        fun entry => Repository.le_ownTick (h.refs writer.writerId)⟩
      unfold Writer.nextLamport at hlamport
      unfold Repository.ownTick
      split at hlamport
      · split at hlamport
        · cases hlamport
        · cases hlamport
          rfl
      · cases hlamport
        rfl
  | _ => cases hbegun

theorem tickInvariant_step {origin : WarpStateV5 V → List (PatchEntry V)}
    {recorded recorded' : Recorded V T Hash} {action : Action V} (h : TickInvariant recorded)
    (hcovered : TicksCovered recorded action)
    (hstep : recorded.step services origin action = some recorded') : TickInvariant recorded' := by
  obtain ⟨hworld, hcounted, hseen⟩ := Recorded.step_eq_some hstep
  refine ⟨ticksRise_step h.toTicksRise hworld, hcounted ▸ clocksAhead_step h hworld, ?_⟩
  intro index builder' hbuilder' entry hentry
  rw [hseen] at hentry
  unfold Recorded.seenAfter at hentry
  rcases builder_of_step hworld hbuilder' with ⟨builder, hbuilder, hlamport⟩ | ⟨hindex, hbegun⟩
  · have hlt := (List.getElem?_eq_some_iff.mp hbuilder).1
    rw [hlamport]
    cases hon : recorded.begunOn action with
    | none =>
        rw [hon] at hentry
        exact h.seen index builder hbuilder entry hentry
    | some graph =>
        rw [hon] at hentry
        simp only [Function.update_of_ne hlt.ne] at hentry
        exact h.seen index builder hbuilder entry hentry
  · obtain ⟨⟨graph, hon⟩, hbase, htaken⟩ := base_of_begun h hbegun
    rw [hon] at hentry
    simp only [hindex, Function.update_self] at hentry
    rw [hbase, Nat.lt_succ_iff]
    by_cases hmem : entry ∈ recorded.takenIntoAccount action
    · exact htaken entry hmem
    · exact hcovered graph hon entry hentry hmem

omit [DecidableEq V] [DecidableEq Hash] in
theorem tickInvariant_empty : TickInvariant (Recorded.empty : Recorded V T Hash) where
  toBuildersOk := buildersOk_of_nil rfl
  refs _ _ htip := nomatch htip
  bases _ hbuilder := nomatch hbuilder
  kept _ hbuilder := nomatch hbuilder
  drafts _ hdraft := nomatch hdraft
  checkpoint _ _ _ _ _ href := nomatch href
  clocks _ _ hgraph := nomatch hgraph
  seen _ _ hbuilder := nomatch hbuilder

/-- In every run that begins each builder on a tick that covers what its instance shows, ticks advance. -/
theorem ticksAdvance_of_run (origin : WarpStateV5 V → List (PatchEntry V)) (actions : List (Action V))
    (last : Recorded V T Hash)
    (hcovered : Runs.Meets (Recorded.step services origin) TicksCovered Recorded.empty actions)
    (hrun : Runs.run (Recorded.step services origin) Recorded.empty actions = some last) :
    TicksAdvance last := by
  have hlast : TickInvariant last :=
    Runs.invariant_of_run (fun _ _ _ => tickInvariant_step) tickInvariant_empty hcovered hrun
  intro index builder sha hbuilder hphase
  have hkept := hlast.kept builder (List.mem_of_getElem? hbuilder)
  unfold PatchBuilderV2.TickKept at hkept
  rw [hphase] at hkept
  obtain ⟨parents, patch, hget, hle⟩ := hkept
  refine ⟨parents, patch, hget, fun entry hentry => ?_⟩
  have hlt := (hlast.seen index builder hbuilder entry hentry).trans_le hle
  refine ⟨hlt, fun entries state hstate _ hmem key _ hsets => ?_⟩
  obtain ⟨register, hregister, hge⟩ := exists_register_of_sets hstate hmem hsets
  refine ⟨register, hregister, ?_⟩
  rintro ⟨other, hother, read, hread, op, key', hevent, -⟩
  rw [List.mem_singleton.mp hother] at hread
  have hsame := lamport_of_readPatch hread hevent
  exact absurd (hsame ▸ hge) (not_le_of_gt hlt)

end Steps

/-! An instance that has materialized another writer's first patch begins a patch through its `Writer`: that
patch has tick one again, and loses to the patch it meant to overwrite. -/

/-- Writer `b` sets a property, and an instance of writer `a` materializes it. -/
def materializedOther : List (Action Nat) :=
  [.open (js "b") false, .createPatch 0, .append 0 (.nodePropSet (js "n") (js "k") (some 1)), .commit 0] ++
    persistAll 0 (js "aaaa") ++
    [.notify 0, .open (js "a") false, .loadMaterialized 1 false, .installMaterialized 0]

/-- The patch of `a` that sets the property again. -/
def overwrite : List (Action Nat) :=
  [.append 1 (.nodePropSet (js "n") (js "k") (some 2)), .commit 1] ++ persistAll 1 (js "bbbb") ++ [.notify 1]

def overwriteThroughWriter : List (Action Nat) :=
  materializedOther ++ [.writer 1 (js "a"), .beginPatch 0] ++ overwrite

def overwriteThroughPatch : List (Action Nat) := materializedOther ++ [.createPatch 1] ++ overwrite

/-- The tick of the patch that a commit carries. -/
def Commit.tick (commit : Commit V) : Nat :=
  match commit.content with
  | .patch patch => patch.lamport
  | _ => 0

theorem not_ticksAdvance_overwriteThroughWriter :
    ∃ last, Runs.run (Recorded.step plainServices fun _ => []) Recorded.empty overwriteThroughWriter =
        some last ∧ ¬ TicksAdvance last ∧
      ∃ state, reduceV5 (last.seen 1 ++ last.world.repo.loadWriterPatches (js "a") none) = .ok state ∧
        (state.prop.get (encodePropKey (js "n") (js "k"))).map LWWRegister.value = some (some 1) := by
  have hrun : (Runs.run (Recorded.step plainServices fun _ => []) Recorded.empty overwriteThroughWriter).map
      (fun last => ((last.seen 1).map fun entry => entry.patch.lamport,
        (last.world.builders[1]?).bind PatchBuilderV2.committedSha,
        (last.world.repo.store.get (js "bbbb")).map Commit.tick,
        (reduceV5 (last.seen 1 ++ last.world.repo.loadWriterPatches (js "a") none)).toOption.map
          fun state => (state.prop.get (encodePropKey (js "n") (js "k"))).map LWWRegister.value)) =
      some ([1], some (js "bbbb"), some 1, some (some (some 1))) := by decide +kernel
  obtain ⟨last, hlast, hshape⟩ := Option.map_eq_some_iff.mp hrun
  simp only [Prod.mk.injEq] at hshape
  obtain ⟨hseen, hcommitted, htick, hregister⟩ := hshape
  refine ⟨last, hlast, fun hadvance => ?_, ?_⟩
  · obtain ⟨builder, hbuilder, hsha⟩ := Option.bind_eq_some_iff.mp hcommitted
    have hphase : builder.phase = .committed (js "bbbb") := by
      unfold PatchBuilderV2.committedSha at hsha
      split at hsha
      · rename_i sha hphase
        cases hsha
        exact hphase
      · cases hsha
    obtain ⟨parents, patch, hget, hbelow⟩ := hadvance 1 builder (js "bbbb") hbuilder hphase
    rw [hget] at htick
    simp only [Option.map_some, Option.some.injEq, Commit.tick] at htick
    obtain ⟨entry, hentry, hone⟩ := List.mem_map.mp (hseen ▸ List.mem_singleton_self 1)
    have hlt := (hbelow entry hentry).1
    omega
  · obtain ⟨state, hstate, hvalue⟩ := Option.map_eq_some_iff.mp hregister
    refine ⟨state, ?_, hvalue⟩
    cases hreduce : reduceV5 (last.seen 1 ++ last.world.repo.loadWriterPatches (js "a") none) with
    | error err => rw [hreduce] at hstate; cases hstate
    | ok result =>
        rw [hreduce] at hstate
        cases hstate
        rfl

theorem ticksAdvance_overwriteThroughPatch :
    ∃ last, Runs.run (Recorded.step plainServices fun _ => []) Recorded.empty overwriteThroughPatch =
        some last ∧ (last.seen 1).map PatchEntry.sha = [js "aaaa"] ∧
      last.world.builders.map PatchBuilderV2.committedSha = [some (js "aaaa"), some (js "bbbb")] ∧
      TicksAdvance last := by
  have hrun : (Runs.run (Recorded.step plainServices fun _ => []) Recorded.empty overwriteThroughPatch).map
      (fun last => ((last.seen 1).map PatchEntry.sha,
        last.world.builders.map PatchBuilderV2.committedSha)) =
      some ([js "aaaa"], [some (js "aaaa"), some (js "bbbb")]) := by decide +kernel
  obtain ⟨last, hlast, hshape⟩ := Option.map_eq_some_iff.mp hrun
  obtain ⟨hseen, hcommitted⟩ := Prod.mk.inj hshape
  exact ⟨last, hlast, hseen, hcommitted,
    ticksAdvance_of_run (fun _ => []) overwriteThroughPatch last (by decide +kernel) hlast⟩

end GitWarp
