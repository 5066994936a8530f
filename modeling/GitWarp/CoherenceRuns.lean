import GitWarp.GraphCheckpoints

/-! Cache coherence over runs. The conditions under which the methods keep the cached states and the
checkpoints in step with the frontiers, step by step, and what every run under them keeps. -/

namespace GitWarp
open Js ExceptLoops

variable {V T Hash Buffer : Type}

/-- The commit that a builder is about to announce. -/
def PatchBuilderV2.announced (builder : PatchBuilderV2 V) : Option (Sha × PatchV2 V) :=
  match builder.phase with
  | .notifying sha patch => some (sha, patch)
  | _ => none

def CommitContent.isCheckpoint : CommitContent V → Bool
  | .checkpoint _ _ _ => true
  | _ => false

section Conditions

variable (world : World V T Hash)

/-- A local commit goes on top of the tip that `_lastFrontier` has. -/
def NotifyInStep (index : Nat) : Prop :=
  ∀ builder ∈ world.builders[index]?, ∀ graph ∈ world.graphs[builder.graph]?,
    ∀ announced ∈ builder.announced,
      CommitFollows world.repo.store graph builder announced.1 announced.2

/-- The latest checkpoint lies below the refs. -/
def LoadInStep : Prop :=
  ∀ latest ∈ world.repo.loadLatestCheckpoint.toOption, ∀ checkpoint ∈ latest,
    world.repo.CheckpointBelow checkpoint

/-- The refs are still those that were loaded. -/
def InstallInStep (index : Nat) : Prop :=
  ∀ materialization ∈ world.materializations[index]?, SameTips world.repo.refs materialization.seen

/-- The refs are the frontier of the instance, and the checkpoint lies below them. -/
def MaterializeAtInStep (index : Nat) (checkpointSha : Sha) : Prop :=
  ∀ graph ∈ world.graphs[index]?, graph.cachedCeiling = none →
    SameTips graph.frontier world.repo.refs ∧
      ∀ checkpoint ∈ (world.repo.loadCheckpoint checkpointSha).toOption,
        world.repo.CheckpointBelow checkpoint

/-- A response continues the chains from the tips that `_lastFrontier` has. -/
def SyncInStep (index : Nat) (patches : List (SyncPatch V)) : Prop :=
  ∀ graph ∈ world.graphs[index]?, ∀ state ∈ graph.cachedState, graph.cachedCeiling = none →
    ResponseFollows world.repo.store graph.frontier patches ∧
      AddsNothingForgotten world.repo.store graph.frontier state (appliedOrder patches)

/-- A joined state holds no more than the patches below `_lastFrontier`. -/
def JoinInStep (index : Nat) (otherState : WarpStateV5 V) : Prop :=
  ∀ graph ∈ world.graphs[index]?, JoinCovered world.repo.store graph otherState

/-- The drafted frontier is the one that the cached state stands for, and no writer is named
`__proto__`. -/
def CheckpointInStep (index : Nat) : Prop :=
  ∀ draft ∈ world.drafts[index]?, ∀ graph ∈ world.graphs[draft.graph]?,
    graph.cachedCeiling = none ∧ SameTips graph.frontier draft.frontier ∧
      draft.frontier.get protoKey = none

/-- The cached states and the checkpoints stay in step with their frontiers. -/
def InStep : Action V → Prop
  | .notify index => NotifyInStep world index
  | .loadMaterialized _ _ => LoadInStep world
  | .installMaterialized index => InstallInStep world index
  | .materializeAt index checkpointSha => MaterializeAtInStep world index checkpointSha
  | .applySyncResponse index patches => SyncInStep world index patches
  | .join index otherState => JoinInStep world index otherState
  | .commitCheckpoint index _ => CheckpointInStep world index
  | .remoteCommit _ commit => commit.content.isCheckpoint = false
  | _ => True

end Conditions

/-! ### The invariant -/

/-- Every checkpoint of the store stands for its frontier. -/
def CheckpointsSound (store : ObjectStore V) : Prop :=
  ∀ sha parents schema state frontier,
    store.get sha = some ⟨parents, .checkpoint schema state frontier⟩ → Represents store frontier state

structure CoherenceInvariant (world : World V T Hash) : Prop extends BuildersOk world where
  graphs : ∀ graph ∈ world.graphs, Coherent world.repo.store graph
  materializations : ∀ materialization ∈ world.materializations,
    Represents world.repo.store materialization.seen materialization.loaded.state
  checkpoints : CheckpointsSound world.repo.store

/-- Objects are added, none of them an unsound checkpoint, and the instances stay coherent. -/
theorem CoherenceInvariant.grow {world world' : World V T Hash} (h : CoherenceInvariant world)
    (hbuilders : BuildersOk world') (hstore : world'.repo.store.Extends world.repo.store)
    (hnew : ∀ sha parents schema state frontier,
      world'.repo.store.get sha = some ⟨parents, .checkpoint schema state frontier⟩ →
      world.repo.store.get sha = some ⟨parents, .checkpoint schema state frontier⟩ ∨
        Represents world.repo.store frontier state)
    (hgraphs : ∀ graph ∈ world'.graphs, graph ∈ world.graphs ∨ Coherent world'.repo.store graph)
    (hmaterializations : ∀ materialization ∈ world'.materializations,
      materialization ∈ world.materializations ∨
        Represents world'.repo.store materialization.seen materialization.loaded.state) :
    CoherenceInvariant world' where
  toBuildersOk := hbuilders
  graphs graph hgraph := by
    rcases hgraphs graph hgraph with hold | hcoherent
    · exact (h.graphs graph hold).of_extends hstore
    · exact hcoherent
  materializations materialization hmem := by
    rcases hmaterializations materialization hmem with hold | hrepresents
    · exact (h.materializations materialization hold).of_extends hstore
    · exact hrepresents
  checkpoints sha parents schema state frontier hget := by
    rcases hnew sha parents schema state frontier hget with hold | hrepresents
    · exact (h.checkpoints sha parents schema state frontier hold).of_extends hstore
    · exact hrepresents.of_extends hstore

/-- Nothing but instances and materializations changes. -/
theorem CoherenceInvariant.of_repo {world world' : World V T Hash} (h : CoherenceInvariant world)
    (hbuilders : BuildersOk world') (hrepo : world'.repo = world.repo)
    (hgraphs : ∀ graph ∈ world'.graphs, graph ∈ world.graphs ∨ Coherent world.repo.store graph)
    (hmaterializations : ∀ materialization ∈ world'.materializations,
      materialization ∈ world.materializations ∨
        Represents world.repo.store materialization.seen materialization.loaded.state) :
    CoherenceInvariant world' := by
  refine h.grow hbuilders ?_ ?_ ?_ ?_ <;> rw [hrepo]
  · exact ObjectStore.Extends.refl _
  · exact fun _ _ _ _ _ hget => Or.inl hget
  · exact hgraphs
  · exact hmaterializations

theorem represents_of_loadCheckpoint {repo : Repository V} (h : CheckpointsSound repo.store)
    {checkpointSha : Sha} {checkpoint : Checkpoint V}
    (hload : repo.loadCheckpoint checkpointSha = .ok checkpoint) :
    Represents repo.store checkpoint.frontier checkpoint.state := by
  unfold Repository.loadCheckpoint at hload
  split at hload
  · rename_i parents schema state frontier hget
    split at hload
    · cases hload
      exact h checkpointSha parents schema state frontier hget
    · cases hload
  · cases hload

theorem represents_of_loadLatestCheckpoint {repo : Repository V} (h : CheckpointsSound repo.store)
    {checkpoint : Checkpoint V} (hload : repo.loadLatestCheckpoint = .ok (some checkpoint)) :
    Represents repo.store checkpoint.frontier checkpoint.state := by
  unfold Repository.loadLatestCheckpoint at hload
  split at hload
  · rename_i checkpointSha _
    cases hone : repo.loadCheckpoint checkpointSha with
    | error err => rw [hone] at hload; cases hload
    | ok latest =>
        rw [hone] at hload
        cases hload
        exact represents_of_loadCheckpoint h hone
  · cases hload

/-! ### Steps -/

/-- A method of one instance that keeps it coherent. -/
theorem CoherenceInvariant.withGraph {world world' : World V T Hash} (h : CoherenceInvariant world)
    (hbuilders : BuildersOk world') {index : Nat}
    {method : WarpGraph V T Hash → Except JsError (WarpGraph V T Hash)}
    (hmethod : ∀ graph graph', world.graphs[index]? = some graph → Coherent world.repo.store graph →
      method graph = .ok graph' → Coherent world.repo.store graph')
    (hstep : world.withGraph index method = some world') : CoherenceInvariant world' := by
  obtain ⟨graph, graph', hgraph, hresult, rfl⟩ := World.withGraph_eq_some hstep
  refine h.of_repo hbuilders rfl (fun other hother => ?_) fun _ hmem => Or.inl hmem
  rcases Lists.mem_of_mem_set hgraph hother with rfl | hold
  · exact Or.inr (hmethod graph other hgraph (h.graphs graph (List.mem_of_getElem? hgraph)) hresult)
  · exact Or.inl hold

/-- A step that touches neither the repository nor the instances. -/
theorem CoherenceInvariant.of_frame {world world' : World V T Hash} (h : CoherenceInvariant world)
    (hbuilders : BuildersOk world') (hrepo : world'.repo = world.repo)
    (hgraphs : world'.graphs = world.graphs) (hmaterializations : world'.materializations = world.materializations) :
    CoherenceInvariant world' := by
  refine h.of_repo hbuilders hrepo (fun graph hgraph => ?_) fun materialization hmem => ?_
  · exact Or.inl (hgraphs ▸ hgraph)
  · exact Or.inl (hmaterializations ▸ hmem)

theorem World.withBuilder_frame {world world' : World V T Hash} {index : Nat}
    {method : PatchBuilderV2 V → Option (PatchBuilderV2 V)}
    (h : world.withBuilder index method = some world') :
    world'.repo = world.repo ∧ world'.graphs = world.graphs ∧
      world'.materializations = world.materializations := by
  simp only [World.withBuilder, Option.bind_eq_bind, Option.bind_eq_some_iff, Option.pure_def,
    Option.some.injEq] at h
  obtain ⟨builder, -, builder', -, rfl⟩ := h
  exact ⟨rfl, rfl, rfl⟩

theorem World.withBegun_frame {world world' : World V T Hash} {action : Action V}
    (h : world.withBegun action = some world') :
    world'.repo = world.repo ∧ world'.graphs = world.graphs ∧
      world'.materializations = world.materializations := by
  simp only [World.withBegun, Option.bind_eq_bind, Option.bind_eq_some_iff, Option.pure_def,
    Option.some.injEq] at h
  obtain ⟨builder, -, rfl⟩ := h
  exact ⟨rfl, rfl, rfl⟩

/-- A call of the persistence layer writes no checkpoint. -/
theorem CoherenceInvariant.persisted {world world' : World V T Hash} (h : CoherenceInvariant world)
    (hbuilders : BuildersOk world') {builder builder' : PatchBuilderV2 V}
    (hgraphs : world'.graphs = world.graphs)
    (hmaterializations : world'.materializations = world.materializations)
    (hpersisted : builder.Persisted world.repo world'.repo builder') : CoherenceInvariant world' := by
  refine h.grow hbuilders hpersisted.extends (fun sha parents schema state frontier hget => ?_)
    (fun graph hgraph => Or.inl (hgraphs ▸ hgraph)) fun _ hmem => Or.inl (hmaterializations ▸ hmem)
  left
  generalize world'.repo = repo' at hpersisted hget
  cases hpersisted with
  | node parentCommit patch newSha repo' hphase hstore hrefs hget' hnew =>
      rcases hnew sha _ hget with hold | hcommit
      · exact hold
      · cases hcommit
  | ref newSha patch repo' hphase hstore hrefs =>
      rw [hstore] at hget
      exact hget
  | _ => exact hget

variable [DecidableEq V] [DecidableEq Hash] {services : GraphServices V T Hash Buffer}

/-! One lemma for each action that does more than edit or begin a builder. -/

section Actions

variable {world world' : World V T Hash} (h : CoherenceInvariant world) (hbuilders : BuildersOk world')

include h hbuilders

theorem CoherenceInvariant.opened {writerId : JsString} {audited : Bool}
    (hstep : world.step services (.open writerId audited) = some world') : CoherenceInvariant world' := by
  cases hstep
  refine h.of_repo hbuilders rfl (fun graph hgraph => ?_) fun _ hmem => Or.inl hmem
  rcases List.mem_append.mp hgraph with hold | hnew
  · exact Or.inl hold
  · rw [List.mem_singleton.mp hnew]
    exact Or.inr fun state hstate => nomatch hstate

theorem CoherenceInvariant.notified {index : Nat} (hinStep : NotifyInStep world index)
    (hstep : world.step services (.notify index) = some world') : CoherenceInvariant world' := by
  simp only [World.step, World.notify, Option.bind_eq_bind, Option.bind_eq_some_iff] at hstep
  obtain ⟨builder, hbuilder, hstep⟩ := hstep
  split at hstep
  · rename_i sha patch hphase
    simp only [Option.bind_eq_some_iff, Option.pure_def, Option.some.injEq] at hstep
    obtain ⟨graph, hgraph, rfl⟩ := hstep
    refine h.of_repo hbuilders rfl (fun other hother => ?_) fun _ hmem => Or.inl hmem
    rcases Lists.mem_of_mem_set hgraph hother with rfl | hold
    · have hmaking := h.making builder (List.mem_of_getElem? hbuilder)
      unfold PatchBuilderV2.Making at hmaking
      rw [hphase] at hmaking
      refine Or.inr (WarpGraph.coherent_onPatchCommitted
        (h.graphs graph (List.mem_of_getElem? hgraph)) hmaking.1 ?_)
      refine hinStep builder hbuilder graph hgraph (sha, patch) ?_
      unfold PatchBuilderV2.announced
      rw [hphase]
      rfl
    · exact Or.inl hold
  · cases hstep

theorem CoherenceInvariant.loaded {index : Nat} {collectReceipts : Bool} (hinStep : LoadInStep world)
    (hstep : world.step services (.loadMaterialized index collectReceipts) = some world') :
    CoherenceInvariant world' := by
  simp only [World.step, Option.bind_eq_bind, Option.bind_eq_some_iff, Option.pure_def,
    Option.some.injEq] at hstep
  obtain ⟨graph, hgraph, ⟨graph', loaded⟩, hloaded, rfl⟩ := hstep
  have hload : graph.loadMaterialized world.repo collectReceipts = .ok (graph', loaded) :=
    toOption_eq_some hloaded
  obtain ⟨hrepresents, tick, rfl⟩ := WarpGraph.loadMaterialized_represents
    (fun checkpoint hlatest => ⟨represents_of_loadLatestCheckpoint h.checkpoints hlatest,
      hinStep (some checkpoint) (by rw [hlatest]; rfl) checkpoint rfl⟩) hload
  refine h.of_repo hbuilders rfl (fun other hother => ?_) fun materialization hmem => ?_
  · rcases Lists.mem_of_mem_set hgraph hother with rfl | hold
    · exact Or.inr ((h.graphs graph (List.mem_of_getElem? hgraph)).of_frame rfl rfl rfl)
    · exact Or.inl hold
  · rcases List.mem_append.mp hmem with hold | hnew
    · exact Or.inl hold
    · rw [List.mem_singleton.mp hnew]
      exact Or.inr hrepresents

theorem CoherenceInvariant.installed {index : Nat} (hinStep : InstallInStep world index)
    (hstep : world.step services (.installMaterialized index) = some world') : CoherenceInvariant world' := by
  simp only [World.step, Option.bind_eq_bind, Option.bind_eq_some_iff, Option.pure_def,
    Option.some.injEq] at hstep
  obtain ⟨materialization, hmaterialization, graph, hgraph, rfl⟩ := hstep
  refine h.of_repo hbuilders rfl (fun other hother => ?_)
    fun _ hmem => Or.inl (List.mem_of_mem_eraseIdx hmem)
  rcases Lists.mem_of_mem_set hgraph hother with rfl | hold
  · exact Or.inr (WarpGraph.coherent_installMaterialized
      (h.materializations materialization (List.mem_of_getElem? hmaterialization))
      (hinStep materialization hmaterialization))
  · exact Or.inl hold

theorem CoherenceInvariant.materializedAt {index : Nat} {checkpointSha : Sha}
    (hinStep : MaterializeAtInStep world index checkpointSha)
    (hstep : world.step services (.materializeAt index checkpointSha) = some world') :
    CoherenceInvariant world' := by
  refine h.withGraph hbuilders (fun graph graph' hgraph _ hresult => ?_) hstep
  refine WarpGraph.coherent_materializeAt (fun hceiling => (hinStep graph hgraph hceiling).1)
    (fun checkpoint hload => ⟨represents_of_loadCheckpoint h.checkpoints hload, fun hceiling => ?_⟩)
    hresult
  exact (hinStep graph hgraph hceiling).2 checkpoint (by rw [hload]; rfl)

theorem CoherenceInvariant.checkpointed (hcodec : services.codec.Inverts) {index : Nat} {sha : Sha}
    (hinStep : CheckpointInStep world index)
    (hstep : world.step services (.commitCheckpoint index sha) = some world') : CoherenceInvariant world' := by
  simp only [World.step, Option.bind_eq_bind, Option.bind_eq_some_iff] at hstep
  obtain ⟨draft, hdraft, graph, hgraph, hstep⟩ := hstep
  split at hstep
  · cases hstep
  · simp only [Option.bind_eq_some_iff, Option.pure_def, Option.some.injEq] at hstep
    obtain ⟨commit, hcommit, written, hwritten, moved, hmoved, rfl⟩ := hstep
    have hmade : graph.checkpointCommit services draft.frontier = .ok commit := toOption_eq_some hcommit
    obtain ⟨hceiling, htips, hproto⟩ := hinStep draft hdraft graph hgraph
    obtain ⟨parents, schema, stored, rfl, hrepresents⟩ := represents_checkpointCommit hcodec
      (h.graphs graph (List.mem_of_getElem? hgraph)) hceiling htips hproto hmade
    obtain ⟨hput, -, -⟩ := Repository.commitNode_eq_some hwritten
    obtain ⟨hstore, -, -⟩ := Repository.updateCheckpointRef_eq_some hmoved
    have hextends : moved.store.Extends world.repo.store := by
      rw [hstore]
      exact (ObjectStore.put_eq_some hput).1
    refine h.grow hbuilders hextends (fun other parents' schema' state frontier hget => ?_)
      (fun _ hmem => Or.inl hmem) fun _ hmem => Or.inl hmem
    change moved.store.get other = _ at hget
    rw [hstore] at hget
    rcases ObjectStore.get_of_put hput hget with hold | hnew
    · exact Or.inl hold
    · cases hnew
      exact Or.inr hrepresents

theorem CoherenceInvariant.remoteCommitted {sha : Sha} {commit : Commit V}
    (hinStep : commit.content.isCheckpoint = false)
    (hstep : world.step services (.remoteCommit sha commit) = some world') : CoherenceInvariant world' := by
  simp only [World.step, Option.bind_eq_bind, Option.bind_eq_some_iff, Option.pure_def,
    Option.some.injEq] at hstep
  obtain ⟨written, hwritten, rfl⟩ := hstep
  obtain ⟨hput, -, -⟩ := Repository.commitNode_eq_some hwritten
  refine h.grow hbuilders (ObjectStore.put_eq_some hput).1
    (fun other parents schema state frontier hget => ?_) (fun _ hmem => Or.inl hmem)
    fun _ hmem => Or.inl hmem
  rcases ObjectStore.get_of_put hput hget with hold | hnew
  · exact Or.inl hold
  · subst hnew
    cases hinStep

end Actions

theorem coherenceInvariant_step (hcodec : services.codec.Inverts) {world world' : World V T Hash}
    {action : Action V} (h : CoherenceInvariant world) (hinStep : InStep world action)
    (hstep : world.step services action = some world') : CoherenceInvariant world' := by
  have hbuilders := buildersOk_step h.toBuildersOk hstep
  cases action with
  | «open» writerId audited => exact h.opened hbuilders hstep
  | writer index writerId =>
      simp only [World.step, Option.bind_eq_bind, Option.bind_eq_some_iff, Option.pure_def,
        Option.some.injEq] at hstep
      obtain ⟨graph, -, rfl⟩ := hstep
      exact h.of_frame hbuilders rfl rfl rfl
  | createPatch index =>
      obtain ⟨hrepo, hgraphs, hmaterializations⟩ := World.withBegun_frame hstep
      exact h.of_frame hbuilders hrepo hgraphs hmaterializations
  | beginPatch index =>
      obtain ⟨hrepo, hgraphs, hmaterializations⟩ := World.withBegun_frame hstep
      exact h.of_frame hbuilders hrepo hgraphs hmaterializations
  | addNode index nodeId =>
      obtain ⟨hrepo, hgraphs, hmaterializations⟩ := World.withBuilder_frame hstep
      exact h.of_frame hbuilders hrepo hgraphs hmaterializations
  | addEdge index edge =>
      obtain ⟨hrepo, hgraphs, hmaterializations⟩ := World.withBuilder_frame hstep
      exact h.of_frame hbuilders hrepo hgraphs hmaterializations
  | append index op =>
      obtain ⟨hrepo, hgraphs, hmaterializations⟩ := World.withBuilder_frame hstep
      exact h.of_frame hbuilders hrepo hgraphs hmaterializations
  | commit index =>
      obtain ⟨hrepo, hgraphs, hmaterializations⟩ := World.withBuilder_frame hstep
      exact h.of_frame hbuilders hrepo hgraphs hmaterializations
  | abort index =>
      obtain ⟨hrepo, hgraphs, hmaterializations⟩ := World.withBuilder_frame hstep
      exact h.of_frame hbuilders hrepo hgraphs hmaterializations
  | persist index sha =>
      simp only [World.step, Option.bind_eq_bind, Option.bind_eq_some_iff, Option.pure_def,
        Option.some.injEq] at hstep
      obtain ⟨builder, -, ⟨repo', builder'⟩, hresult, rfl⟩ := hstep
      exact h.persisted hbuilders rfl rfl (PatchBuilderV2.persisted_of_persist hresult)
  | notify index => exact h.notified hbuilders hinStep hstep
  | loadMaterialized index collectReceipts => exact h.loaded hbuilders hinStep hstep
  | installMaterialized index => exact h.installed hbuilders hinStep hstep
  | materializeWithCeiling index ceiling collectReceipts =>
      exact h.withGraph hbuilders
        (fun _ _ _ _ hresult => WarpGraph.coherent_materializeWithCeiling hresult) hstep
  | materializeAt index checkpointSha => exact h.materializedAt hbuilders hinStep hstep
  | applySyncResponse index patches =>
      refine h.withGraph hbuilders (fun graph graph' hgraph hcoherent hresult => ?_) hstep
      exact WarpGraph.coherent_applySync hcoherent (hinStep graph hgraph) hresult
  | join index otherState =>
      refine h.withGraph hbuilders (fun graph graph' hgraph hcoherent hresult => ?_) hstep
      exact WarpGraph.coherent_join hcoherent (hinStep graph hgraph) hresult
  | runGC index =>
      exact h.withGraph hbuilders
        (fun _ _ _ hcoherent hresult => WarpGraph.coherent_collectGarbage hcoherent hresult) hstep
  | readCheckpointFrontier index =>
      simp only [World.step, Option.bind_eq_bind, Option.bind_eq_some_iff, Option.pure_def,
        Option.some.injEq] at hstep
      obtain ⟨graph, -, rfl⟩ := hstep
      exact h.of_frame hbuilders rfl rfl rfl
  | commitCheckpoint index sha => exact h.checkpointed hbuilders hcodec hinStep hstep
  | remoteCommit sha commit => exact h.remoteCommitted hbuilders hinStep hstep

/-! ### Runs -/

/-- A world in which nothing has been opened; checkpoints that are there already are sound. -/
structure World.Unopened (world : World V T Hash) : Prop where
  builders : world.builders = []
  graphs : world.graphs = []
  materializations : world.materializations = []
  checkpoints : CheckpointsSound world.repo.store

omit [DecidableEq V] [DecidableEq Hash] in
theorem World.unopened_empty : (World.empty : World V T Hash).Unopened where
  builders := rfl
  graphs := rfl
  materializations := rfl
  checkpoints _ _ _ _ _ hget := nomatch hget

theorem coherenceInvariant_of_run (hcodec : services.codec.Inverts) {start last : World V T Hash}
    {actions : List (Action V)} (hstart : start.Unopened)
    (hinStep : Runs.Meets (World.step services) InStep start actions)
    (hrun : Runs.run (World.step services) start actions = some last) : CoherenceInvariant last := by
  have hinvariant : CoherenceInvariant start :=
    ⟨buildersOk_of_nil hstart.builders, by simp [hstart.graphs], by simp [hstart.materializations],
      hstart.checkpoints⟩
  exact Runs.invariant_of_run (fun _ _ _ => coherenceInvariant_step hcodec) hinvariant hinStep hrun

/-- Each clean cached state shows what the patches below `_lastFrontier` replay to. -/
def CachesCoherent (world : World V T Hash) : Prop :=
  ∀ graph ∈ world.graphs, ∀ state, graph.cachedState = some state → graph.stateDirty = false →
    graph.cachedCeiling = none →
    ∃ full, reduceV5 (world.repo.store.patchesAt graph.frontier) = .ok full ∧ SameProjection state full

/-- Each checkpoint shows what the patches below the frontier it stores replay to. -/
def CheckpointsComplete (world : World V T Hash) : Prop :=
  ∀ sha parents schema state frontier,
    world.repo.store.get sha = some ⟨parents, .checkpoint schema state frontier⟩ →
    ∃ full, reduceV5 (world.repo.store.patchesAt frontier) = .ok full ∧ SameProjection state full

section Checks

variable (world : World V T Hash)

instance (store : ObjectStore V) (graph : WarpGraph V T Hash) (builder : PatchBuilderV2 V) (sha : Sha)
    (patch : PatchV2 V) : Decidable (CommitFollows store graph builder sha patch) :=
  inferInstanceAs (Decidable (∀ state ∈ graph.cachedState, _ → _ → _))

instance (repo : Repository V) (checkpoint : Checkpoint V) : Decidable (repo.CheckpointBelow checkpoint) :=
  inferInstanceAs (Decidable (_ ∧ _))

instance (store : ObjectStore V) (frontier : Frontier) (patches : List (SyncPatch V)) :
    Decidable (ResponseFollows store frontier patches) :=
  inferInstanceAs (Decidable (∀ group ∈ (groupByWriter patches).entries, ∀ last ∈ group.2.getLast?, _))

instance (index : Nat) : Decidable (NotifyInStep world index) :=
  inferInstanceAs (Decidable (∀ builder ∈ world.builders[index]?, ∀ graph ∈ world.graphs[builder.graph]?,
    ∀ announced ∈ builder.announced, _))

instance : Decidable (LoadInStep world) :=
  inferInstanceAs (Decidable (∀ latest ∈ world.repo.loadLatestCheckpoint.toOption, ∀ checkpoint ∈ latest, _))

instance (index : Nat) : Decidable (InstallInStep world index) :=
  inferInstanceAs (Decidable (∀ materialization ∈ world.materializations[index]?, _))

instance (index : Nat) (checkpointSha : Sha) : Decidable (MaterializeAtInStep world index checkpointSha) :=
  inferInstanceAs (Decidable (∀ graph ∈ world.graphs[index]?, graph.cachedCeiling = none →
    SameTips graph.frontier world.repo.refs ∧
      ∀ checkpoint ∈ (world.repo.loadCheckpoint checkpointSha).toOption, _))

instance (index : Nat) (patches : List (SyncPatch V)) : Decidable (SyncInStep world index patches) :=
  inferInstanceAs (Decidable (∀ graph ∈ world.graphs[index]?, ∀ state ∈ graph.cachedState, _ → _))

instance (index : Nat) : Decidable (CheckpointInStep world index) :=
  inferInstanceAs (Decidable (∀ draft ∈ world.drafts[index]?, ∀ graph ∈ world.graphs[draft.graph]?, _))

def checkInStep : Action V → Bool
  | .notify index => NotifyInStep world index
  | .loadMaterialized _ _ => LoadInStep world
  | .installMaterialized index => InstallInStep world index
  | .materializeAt index checkpointSha => MaterializeAtInStep world index checkpointSha
  | .applySyncResponse index patches => SyncInStep world index patches
  | .join _ _ => false
  | .commitCheckpoint index _ => CheckpointInStep world index
  | .remoteCommit _ commit => !commit.content.isCheckpoint
  | _ => true

end Checks

omit [DecidableEq Hash] in
theorem inStep_of_checkInStep (world : World V T Hash) (action : Action V)
    (h : checkInStep world action = true) : InStep world action := by
  cases action with
  | remoteCommit sha commit => simpa [checkInStep, InStep] using h
  | join index otherState => cases h
  | notify index => exact of_decide_eq_true (p := NotifyInStep world index) h
  | loadMaterialized index collectReceipts => exact of_decide_eq_true (p := LoadInStep world) h
  | installMaterialized index => exact of_decide_eq_true (p := InstallInStep world index) h
  | materializeAt index checkpointSha =>
      exact of_decide_eq_true (p := MaterializeAtInStep world index checkpointSha) h
  | applySyncResponse index patches => exact of_decide_eq_true (p := SyncInStep world index patches) h
  | commitCheckpoint index sha => exact of_decide_eq_true (p := CheckpointInStep world index) h
  | _ => trivial

/-! An instance that commits on top of a patch it has not seen records the new tip but lacks the patch. -/

/-- Two instances of one writer; the first one is materialized while the ref is absent. -/
def overtakenCommit : List (Action Nat) :=
  [.open (js "a") false, .open (js "a") false, .loadMaterialized 0 false, .installMaterialized 0,
    .createPatch 1, .addNode 0 (js "n"), .commit 0] ++ persistAll 0 (js "aaaa") ++
    [.notify 0, .createPatch 0, .addNode 1 (js "m")] ++ commitOnTip 1 (js "bbbb")

/-- Whether a node is alive in the clean cached state of an instance, and in the replay of the patches
below its frontier. -/
def cachedAndReplayed (world : World Nat Unit Unit) (graph : WarpGraph Nat Unit Unit) (node : JsString) :
    Option Bool × Option Bool :=
  (if graph.stateDirty = false ∧ graph.cachedCeiling = none then
      graph.cachedState.map fun state => orsetContains state.nodeAlive node
    else none,
    (reduceV5 (world.repo.store.patchesAt graph.frontier)).toOption.map fun full =>
      orsetContains full.nodeAlive node)

/-- A commit, a `materialize()` and a second commit, which is applied to the cached state. -/
def eagerCommit : List (Action Nat) :=
  oneCommit ++ [.loadMaterialized 0 false, .installMaterialized 0, .createPatch 0, .addNode 1 (js "m")] ++
    commitOnTip 1 (js "bbbb")

/-- The first instance is materialized before another writer commits, and drafts its checkpoint after. -/
def outdatedCheckpoint : List (Action Nat) :=
  [.open (js "a") false, .open (js "b") false, .loadMaterialized 0 false, .installMaterialized 0,
    .createPatch 1, .addNode 0 (js "n"), .commit 0] ++ persistAll 0 (js "aaaa") ++
    [.notify 0, .readCheckpointFrontier 0, .commitCheckpoint 0 (js "cccc")]

/-- Whether a node is alive in a checkpoint, and in the replay of the patches below its frontier. -/
def storedAndReplayed (world : World Nat Unit Unit) (sha : Sha) (node : JsString) :
    Option (Bool × Option Bool) :=
  match world.repo.store.get sha with
  | some ⟨_, .checkpoint _ state frontier⟩ =>
      some (orsetContains state.nodeAlive node,
        (reduceV5 (world.repo.store.patchesAt frontier)).toOption.map fun full =>
          orsetContains full.nodeAlive node)
  | _ => none

/-- A commit, a `materialize()`, a checkpoint, a second commit and a `materialize()` from the checkpoint. -/
def freshCheckpoint : List (Action Nat) :=
  oneCommit ++ [.loadMaterialized 0 false, .installMaterialized 0, .readCheckpointFrontier 0,
    .commitCheckpoint 0 (js "cccc"), .createPatch 0, .addNode 1 (js "m")] ++ commitOnTip 1 (js "bbbb") ++
    [.loadMaterialized 0 false, .installMaterialized 0]

end GitWarp
