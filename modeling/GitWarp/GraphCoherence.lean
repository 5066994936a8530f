import GitWarp.CommitSteps
import GitWarp.GraphReplay

/-! Cache coherence. Each method that replaces the cached state of an instance keeps it the replay of the
patches below `_lastFrontier` as long as the two move together: a local commit goes on top of the tip that
`_lastFrontier` has, a sync response continues the chains from these tips, the refs stand still while
`materialize` runs, and a checkpoint lies below the refs. None of this is checked. -/

namespace GitWarp
open Js ExceptLoops

variable {V T Hash Buffer : Type}

/-! ### What the methods rely on -/

/-- Two frontiers with the same tips. -/
def SameTips (a b : Frontier) : Prop := ∀ writerId, a.get writerId = b.get writerId

instance (a b : Frontier) : Decidable (SameTips a b) :=
  decidable_of_iff (∀ writerId ∈ a.keys ++ b.keys, a.get writerId = b.get writerId) <| by
    refine ⟨fun h writerId => ?_, fun h writerId _ => h writerId⟩
    by_cases hmem : writerId ∈ a.keys ++ b.keys
    · exact h writerId hmem
    · rw [List.mem_append, not_or, JsMap.mem_keys_iff, JsMap.mem_keys_iff, Bool.not_eq_true,
        Bool.not_eq_true, Option.isSome_eq_false_iff, Option.isSome_eq_false_iff, Option.isNone_iff_eq_none,
        Option.isNone_iff_eq_none] at hmem
      rw [hmem.1, hmem.2]

/-- The frontier that the cached state stands for. -/
def WarpGraph.frontier (graph : WarpGraph V T Hash) : Frontier := graph.lastFrontier.getD JsMap.empty

/-- The patches between a frontier and the refs. -/
def Repository.patchesSince (repo : Repository V) (frontier : Frontier) : List (PatchEntry V) :=
  repo.getFrontier.entries.flatMap fun entry => repo.store.walk (frontier.get entry.1) entry.2

/-- All patches that a checkpoint stands for are below the refs, and none of the later ones adds again what
its compaction has dropped. -/
def Repository.CheckpointBelow (repo : Repository V) (checkpoint : Checkpoint V) : Prop :=
  (∀ entry ∈ repo.store.patchesAt checkpoint.frontier, entry ∈ repo.store.patchesAt repo.refs) ∧
    AddsNothingForgotten repo.store checkpoint.frontier checkpoint.state
      (repo.patchesSince checkpoint.frontier)

/-- The commit that is announced to an instance goes on top of the tip that its frontier has, can be applied,
audited with a receipt, and is read back as it was announced. -/
def CommitFollows (store : ObjectStore V) (graph : WarpGraph V T Hash) (builder : PatchBuilderV2 V)
    (sha : Sha) (patch : PatchV2 V) : Prop :=
  ∀ state ∈ graph.cachedState, graph.stateDirty = false → graph.cachedCeiling = none →
    graph.lastFrontier.isSome = true ∧ graph.frontier.get builder.writerId = builder.expectedParentSha ∧
      (readPatch ⟨patch, sha⟩).toOption.isSome = true ∧ (graph.audited = true → ReceiptAccepted patch sha) ∧
      builder.storedPatch patch = patch ∧ AddsNothingForgotten store graph.frontier state [⟨patch, sha⟩]

/-- The patches of each writer in a response continue its chain from the tip that the frontier has. -/
def ResponseFollows (store : ObjectStore V) (frontier : Frontier) (patches : List (SyncPatch V)) : Prop :=
  ∀ group ∈ (groupByWriter patches).entries, ∀ last ∈ group.2.getLast?,
    last.sha ∈ store.shas ∧
      (∀ entry ∈ store.walk none last.sha, entry ∈ store.chainAt (frontier.get group.1) ∨ entry ∈ group.2) ∧
      (∀ entry ∈ store.chainAt (frontier.get group.1), entry ∈ store.walk none last.sha) ∧
      ∀ entry ∈ group.2, entry ∈ store.walk none last.sha

/-- A joined state is the replay of patches below the frontier. -/
def JoinCovered (store : ObjectStore V) (graph : WarpGraph V T Hash) (otherState : WarpStateV5 V) : Prop :=
  ∀ state ∈ graph.cachedState, graph.cachedCeiling = none →
    ∃ patches, reduceV5 patches = .ok otherState ∧
      (∀ entry ∈ patches, entry ∈ store.patchesAt graph.frontier) ∧
      AddsNothingForgotten store graph.frontier state patches

/-! ### Coherent instances -/

/-- The cached state is the replay of the patches below the frontier, unless it was cut at a ceiling. -/
def Coherent (store : ObjectStore V) (graph : WarpGraph V T Hash) : Prop :=
  ∀ state, graph.cachedState = some state → graph.cachedCeiling = none →
    Represents store graph.frontier state

theorem Coherent.of_extends {store store' : ObjectStore V} {graph : WarpGraph V T Hash}
    (h : Coherent store graph) (hstore : store'.Extends store) : Coherent store' graph :=
  fun state hstate hceiling => (h state hstate hceiling).of_extends hstore

/-- What coherence depends on. -/
theorem Coherent.of_frame {store : ObjectStore V} {graph graph' : WarpGraph V T Hash}
    (h : Coherent store graph) (hstate : graph'.cachedState = graph.cachedState)
    (hceiling : graph'.cachedCeiling = graph.cachedCeiling)
    (hfrontier : graph'.lastFrontier = graph.lastFrontier) : Coherent store graph' := by
  intro state hcached hnone
  unfold WarpGraph.frontier
  rw [hfrontier]
  exact h state (hstate ▸ hcached) (hceiling ▸ hnone)

namespace WarpGraph

section Installing

variable [DecidableEq Hash] (services : GraphServices V T Hash Buffer)

/-- Building the view changes nothing about the state. -/
theorem buildView_frame (graph : WarpGraph V T Hash) (state : WarpStateV5 V) (stateHash : Hash)
    (diff : Option (PatchDiff V)) :
    (graph.buildView services state stateHash diff).cachedState = graph.cachedState ∧
      (graph.buildView services state stateHash diff).cachedCeiling = graph.cachedCeiling ∧
      (graph.buildView services state stateHash diff).lastFrontier = graph.lastFrontier ∧
      (graph.buildView services state stateHash diff).maxObservedLamport = graph.maxObservedLamport := by
  unfold buildView
  split
  · exact ⟨rfl, rfl, rfl, rfl⟩
  · dsimp only
    split <;> exact ⟨rfl, rfl, rfl, rfl⟩

@[simp] theorem setMaterializedState_cachedState (graph : WarpGraph V T Hash) (state : WarpStateV5 V)
    (diff : Option (PatchDiff V)) :
    (graph.setMaterializedState services state diff).cachedState = some state :=
  (buildView_frame services _ state _ diff).1

@[simp] theorem setMaterializedState_cachedCeiling (graph : WarpGraph V T Hash) (state : WarpStateV5 V)
    (diff : Option (PatchDiff V)) :
    (graph.setMaterializedState services state diff).cachedCeiling = graph.cachedCeiling :=
  (buildView_frame services _ state _ diff).2.1

@[simp] theorem setMaterializedState_lastFrontier (graph : WarpGraph V T Hash) (state : WarpStateV5 V)
    (diff : Option (PatchDiff V)) :
    (graph.setMaterializedState services state diff).lastFrontier = graph.lastFrontier :=
  (buildView_frame services _ state _ diff).2.2.1

@[simp] theorem setMaterializedState_maxObservedLamport (graph : WarpGraph V T Hash)
    (state : WarpStateV5 V) (diff : Option (PatchDiff V)) :
    (graph.setMaterializedState services state diff).maxObservedLamport = graph.maxObservedLamport :=
  (buildView_frame services _ state _ diff).2.2.2

end Installing

end WarpGraph

/-! ### Replaying from the refs -/

namespace Repository

theorem holds_refs (repo : Repository V) : repo.store.Holds repo.refs := repo.refsExist

theorem chainAt_refs (repo : Repository V) (writerId : JsString) :
    repo.store.chainAt (repo.refs.get writerId) = repo.loadWriterPatches writerId none := by
  unfold ObjectStore.chainAt loadWriterPatches readRef
  cases repo.refs.get writerId <;> rfl

theorem mem_discoverWriters {repo : Repository V} {writerId : JsString} {tip : Sha}
    (h : repo.refs.get writerId = some tip) : writerId ∈ repo.discoverWriters := by
  unfold discoverWriters
  rw [List.mem_insertionSort, JsMap.mem_keys_iff, h]
  rfl

theorem mem_loadAllPatches {repo : Repository V} {entry : PatchEntry V} :
    entry ∈ repo.loadAllPatches ↔ entry ∈ repo.store.patchesAt repo.refs := by
  unfold loadAllPatches
  rw [List.mem_flatMap, ObjectStore.mem_patchesAt]
  simp only [chainAt_refs]
  constructor
  · rintro ⟨writerId, -, hentry⟩
    exact ⟨writerId, hentry⟩
  · rintro ⟨writerId, hentry⟩
    refine ⟨writerId, ?_, hentry⟩
    cases htip : repo.refs.get writerId with
    | none =>
        unfold loadWriterPatches readRef at hentry
        rw [htip] at hentry
        cases hentry
    | some tip => exact mem_discoverWriters htip

theorem mem_patchesSince {repo : Repository V} {frontier : Frontier} {entry : PatchEntry V} :
    entry ∈ repo.patchesSince frontier ↔
      ∃ writerId tip, repo.refs.get writerId = some tip ∧
        entry ∈ repo.store.walk (frontier.get writerId) tip := by
  unfold patchesSince
  rw [List.mem_flatMap]
  constructor
  · rintro ⟨⟨writerId, tip⟩, hmem, hentry⟩
    refine ⟨writerId, tip, ?_, hentry⟩
    rw [← get_getFrontier]
    exact (JsMap.get_eq_some_iff _ _ _).mpr hmem
  · rintro ⟨writerId, tip, htip, hentry⟩
    rw [← get_getFrontier] at htip
    exact ⟨(writerId, tip), (JsMap.get_eq_some_iff _ _ _).mp htip, hentry⟩

/-- The patches of a checkpoint below the refs and those since are all the patches below the refs. -/
theorem mem_patchesAt_refs {repo : Repository V} {frontier : Frontier}
    (hbelow : ∀ entry ∈ repo.store.patchesAt frontier, entry ∈ repo.store.patchesAt repo.refs)
    (entry : PatchEntry V) :
    entry ∈ repo.store.patchesAt repo.refs ↔
      entry ∈ repo.store.patchesAt frontier ∨ entry ∈ repo.patchesSince frontier := by
  constructor
  · intro hentry
    obtain ⟨writerId, hchain⟩ := ObjectStore.mem_patchesAt.mp hentry
    cases htip : repo.refs.get writerId with
    | none => rw [htip] at hchain; cases hchain
    | some tip =>
        rw [htip] at hchain
        rcases ObjectStore.mem_chain_or_walk (frontier.get writerId) (repo.refsExist writerId tip htip) hchain
          with hold | hnew
        · exact Or.inl (ObjectStore.mem_patchesAt.mpr ⟨writerId, hold⟩)
        · exact Or.inr (mem_patchesSince.mpr ⟨writerId, tip, htip, hnew⟩)
  · rintro (hold | hnew)
    · exact hbelow entry hold
    · obtain ⟨writerId, tip, htip, hwalk⟩ := mem_patchesSince.mp hnew
      refine ObjectStore.mem_patchesAt.mpr ⟨writerId, ?_⟩
      rw [htip]
      exact ObjectStore.mem_walk_of_stop (repo.refsExist writerId tip htip) hwalk

/-- Replaying the patches since a checkpoint on top of it. -/
theorem represents_of_checkpoint {repo : Repository V} {checkpoint : Checkpoint V}
    (hcheckpoint : Represents repo.store checkpoint.frontier checkpoint.state)
    (hbelow : repo.CheckpointBelow checkpoint) {patches : List (PatchEntry V)}
    (hpatches : ∀ entry, entry ∈ patches ↔ entry ∈ repo.patchesSince checkpoint.frontier)
    {reads : List (ReadPatch V)} (hreads : patches.mapM readPatch = .ok reads) :
    Represents repo.store repo.refs (reads.foldl applyRead checkpoint.state) := by
  refine hcheckpoint.extend hreads repo.holds_refs (fun entry => ?_) fun entry hentry => ?_
  · rw [mem_patchesAt_refs hbelow.1, hpatches]
  · exact hbelow.2 entry ((hpatches entry).mp hentry)

theorem mem_loadPatchesSince {repo : Repository V} {checkpoint : Checkpoint V}
    {patches : List (PatchEntry V)} (h : repo.loadPatchesSince checkpoint = .ok patches)
    (entry : PatchEntry V) : entry ∈ patches ↔ entry ∈ repo.patchesSince checkpoint.frontier := by
  have hone : ∀ writerId patches, repo.loadWriterPatchesSince checkpoint writerId = .ok patches →
      patches = repo.loadWriterPatches writerId (checkpoint.frontier.get writerId) := by
    intro writerId patches hload
    unfold loadWriterPatchesSince at hload
    simp only [bind, Except.bind] at hload
    repeat' split at hload
    all_goals first | exact (Except.ok.inj hload).symm | cases hload
  unfold loadPatchesSince at h
  cases hall : repo.discoverWriters.mapM (repo.loadWriterPatchesSince checkpoint) with
  | error err => rw [hall] at h; cases h
  | ok lists =>
      rw [hall] at h
      cases h
      rw [List.mem_flatten, mem_patchesSince]
      constructor
      · rintro ⟨list, hlist, hentry⟩
        obtain ⟨writerId, -, hload⟩ := (mem_of_mapM_ok hall list).mp hlist
        rw [hone writerId list hload] at hentry
        unfold loadWriterPatches readRef at hentry
        cases htip : repo.refs.get writerId with
        | none => rw [htip] at hentry; cases hentry
        | some tip =>
            rw [htip] at hentry
            exact ⟨writerId, tip, htip, hentry⟩
      · rintro ⟨writerId, tip, htip, hentry⟩
        obtain ⟨list, hload⟩ := exists_mapM_ok_iff.mp ⟨lists, hall⟩ writerId (mem_discoverWriters htip)
        refine ⟨list, (mem_of_mapM_ok hall list).mpr ⟨writerId, mem_discoverWriters htip, hload⟩, ?_⟩
        rw [hone writerId list hload]
        unfold loadWriterPatches readRef
        rw [htip]
        exact hentry

end Repository

/-! ### What each method keeps -/

/-- Compacting drops removed dots. -/
theorem Represents.compact {store : ObjectStore V} {frontier : Frontier} {state compacted : WarpStateV5 V}
    (h : Represents store frontier state) (vv : VersionVector)
    (hparts : ∀ edges, (compacted.part edges).view =
      (state.part edges).view.drop ((state.part edges).compactable vv))
    (hprop : ∀ key, compacted.prop.get key = state.prop.get key)
    (hbirths : ∀ key, compacted.edgeBirthEvent.get key = state.edgeBirthEvent.get key) :
    Represents store frontier compacted where
  holds := h.holds
  replay := by
    obtain ⟨full, forgotten, hfull, hreflects⟩ := h.replay
    exact ⟨full, _, hfull, hreflects.drop (fun edges => compactable_subset_tombs _ vv) hparts hprop hbirths⟩

theorem represents_runGC {store : ObjectStore V} {frontier : Frontier} {state : WarpStateV5 V}
    {result : WarpStateV5 V × GCExecuteResult} (h : Represents store frontier state)
    (hrun : runGC state = .ok result) : Represents store frontier result.1 := by
  unfold runGC at hrun
  cases hvv : computeAppliedVV state with
  | error err => rw [hvv] at hrun; cases hrun
  | ok vv =>
      rw [hvv] at hrun
      simp only [bind, Except.bind, executeGC] at hrun
      cases hnodes : orsetCompact state.nodeAlive vv with
      | error err => rw [hnodes] at hrun; cases hrun
      | ok nodes =>
          cases hedges : orsetCompact state.edgeAlive vv with
          | error err => rw [hnodes, hedges] at hrun; cases hrun
          | ok edges =>
              rw [hnodes, hedges] at hrun
              cases hrun
              refine h.compact vv (fun part => ?_) (fun _ => rfl) fun _ => rfl
              cases part with
              | false => exact view_orsetCompact hnodes
              | true => exact view_orsetCompact hedges

namespace WarpGraph

theorem coherent_collectGarbage {store : ObjectStore V} {graph graph' : WarpGraph V T Hash}
    (h : Coherent store graph) (hrun : graph.collectGarbage = .ok graph') : Coherent store graph' := by
  unfold collectGarbage at hrun
  split at hrun
  · cases hrun
  · rename_i cachedState hcached
    cases hgc : runGC cachedState with
    | error err => rw [hgc] at hrun; cases hrun
    | ok result =>
        rw [hgc] at hrun
        cases hrun
        intro state hstate hceiling
        cases hstate
        exact represents_runGC (h cachedState hcached hceiling) hgc

theorem coherent_join {store : ObjectStore V} {graph graph' : WarpGraph V T Hash}
    {otherState : WarpStateV5 V} (h : Coherent store graph) (hcovered : JoinCovered store graph otherState)
    (hrun : graph.join otherState = .ok graph') : Coherent store graph' := by
  unfold WarpGraph.join at hrun
  split at hrun
  · cases hrun
  · rename_i cachedState hcached
    cases hrun
    intro state hstate hceiling
    cases hstate
    obtain ⟨patches, hpatches, hbelow, hfresh⟩ := hcovered cachedState hcached hceiling
    exact (h cachedState hcached hceiling).join hpatches hbelow hfresh

variable [DecidableEq V]

theorem reduceWanting_eq_ok {wantDiff : Bool} {initialState : WarpStateV5 V}
    {patches : List (PatchEntry V)} {loaded : Loaded V}
    (h : reduceWanting wantDiff initialState patches = .ok loaded) :
    ∃ reads, patches.mapM readPatch = .ok reads ∧ loaded.state = reads.foldl applyRead initialState := by
  unfold reduceWanting at h
  split at h
  · cases hrun : reduceV5TrackDiff initialState patches with
    | error err => rw [hrun] at h; cases h
    | ok result =>
        rw [hrun] at h
        cases h
        obtain ⟨reads, hreads⟩ := exists_reads_of_reduceV5TrackDiff hrun
        rw [reduceV5TrackDiff_ok hreads] at hrun
        cases hrun
        exact ⟨reads, hreads, fst_trackReads reads _⟩
  · cases hrun : reduceV5From initialState patches with
    | error err => rw [hrun] at h; cases h
    | ok state =>
        rw [hrun] at h
        cases h
        obtain ⟨reads, hreads, rfl⟩ := reduceV5From_eq_ok_iff.mp hrun
        exact ⟨reads, hreads, rfl⟩

omit [DecidableEq V] in
theorem represents_of_allPatches {repo : Repository V} {patches : List (PatchEntry V)}
    (hpatches : ∀ entry, entry ∈ patches ↔ entry ∈ repo.store.patchesAt repo.refs)
    {reads : List (ReadPatch V)} (hreads : patches.mapM readPatch = .ok reads) :
    Represents repo.store repo.refs (reads.foldl applyRead createEmptyStateV5) :=
  Represents.of_same_members (reduceV5_eq_ok_iff.mpr ⟨reads, hreads, rfl⟩)
    (WarpStateV5.reflects_refl _) repo.holds_refs fun entry => (hpatches entry).symm

/-- The loading half of `materialize` represents the refs, and leaves the instance as it is but for its
clock. -/
theorem loadMaterialized_represents {repo : Repository V} {graph graph' : WarpGraph V T Hash}
    {collectReceipts : Bool} {loaded : Loaded V}
    (hcheckpoints : ∀ checkpoint, repo.loadLatestCheckpoint = .ok (some checkpoint) →
      Represents repo.store checkpoint.frontier checkpoint.state ∧ repo.CheckpointBelow checkpoint)
    (h : graph.loadMaterialized repo collectReceipts = .ok (graph', loaded)) :
    Represents repo.store repo.refs loaded.state ∧
      ∃ tick, graph' = { graph with maxObservedLamport := tick } := by
  unfold loadMaterialized at h
  cases hlatest : repo.loadLatestCheckpoint with
  | error err => rw [hlatest] at h; cases h
  | ok latest =>
      rw [hlatest] at h
      simp only [bind, Except.bind, pure, Except.pure] at h
      cases latest with
      | some checkpoint =>
          obtain ⟨hrepresents, hbelow⟩ := hcheckpoints checkpoint hlatest
          simp only at h
          cases hpatches : repo.loadPatchesSince checkpoint with
          | error err => rw [hpatches] at h; cases h
          | ok patches =>
              simp only [hpatches] at h
              split at h
              · cases h
              · rename_i result hresult
                cases h
                obtain ⟨reads, hreads, hstate⟩ := reduceWanting_eq_ok hresult
                refine ⟨?_, _, rfl⟩
                rw [hstate]
                exact Repository.represents_of_checkpoint hrepresents hbelow
                  (Repository.mem_loadPatchesSince hpatches) hreads
      | none =>
          simp only at h
          split at h
          · rename_i hnone
            cases h
            refine ⟨?_, _, rfl⟩
            have hempty : ∀ entry, entry ∈ [] ↔ entry ∈ repo.store.patchesAt repo.refs := by
              intro entry
              rw [← Repository.mem_loadAllPatches, hnone]
            exact represents_of_allPatches hempty rfl
          · split at h
            · cases h
            · rename_i result hresult
              cases h
              obtain ⟨reads, hreads, hstate⟩ := reduceWanting_eq_ok hresult
              refine ⟨?_, _, rfl⟩
              rw [hstate]
              exact represents_of_allPatches (fun entry => Repository.mem_loadAllPatches) hreads

theorem applyCommitted_eq_ok {audited : Bool} (cachedState : WarpStateV5 V) {patch : PatchV2 V} {sha : Sha}
    {read : ReadPatch V} (hread : readPatch ⟨patch, sha⟩ = .ok read)
    (hreceipt : audited = true → ReceiptAccepted patch sha) :
    ∃ loaded, applyCommitted audited cachedState patch sha = .ok loaded ∧
      loaded.state = applyRead cachedState read := by
  unfold applyCommitted
  cases audited with
  | true =>
      obtain ⟨receipt, happly⟩ := (hreceipt rfl).applyWithReceipt_eq_ok hread cachedState
      rw [if_pos rfl]
      simp only [happly, bind, Except.bind]
      exact ⟨_, rfl, rfl⟩
  | false =>
      have hdiff := applyWithDiff_ok hread cachedState
      rw [if_neg Bool.false_ne_true]
      simp only [hdiff, bind, Except.bind]
      exact ⟨_, rfl, rfl⟩

variable [DecidableEq Hash] {services : GraphServices V T Hash Buffer}

omit [DecidableEq V] in
/-- The installing half makes the instance coherent if the refs are those that were loaded. -/
theorem coherent_installMaterialized {repo : Repository V} {graph : WarpGraph V T Hash}
    {loaded : Loaded V} {seen : Frontier} (hloaded : Represents repo.store seen loaded.state)
    (hseen : SameTips repo.refs seen) :
    Coherent repo.store (graph.installMaterialized services repo loaded) := by
  intro state hstate hceiling
  simp only [installMaterialized, setMaterializedState_cachedState, Option.some.injEq] at hstate
  subst hstate
  refine hloaded.of_frontier fun writerId => ?_
  rw [← hseen writerId, ← Repository.get_getFrontier]
  rfl

omit [DecidableEq V] in
theorem coherent_materializeWithCeiling {repo : Repository V} {graph graph' : WarpGraph V T Hash}
    {ceiling : Int} {collectReceipts : Bool}
    (h : graph.materializeWithCeiling services repo ceiling collectReceipts = .ok graph') :
    Coherent repo.store graph' := by
  have hceiling : graph'.cachedCeiling = some ceiling := by
    unfold materializeWithCeiling at h
    have hmiss : ∀ {patches : List (PatchEntry V)}, (do
        let state ← reduceV5 patches
        return { graph.setMaterializedState services state none with
          cachedCeiling := some ceiling
          cachedFrontier := some repo.getFrontier } : Except JsError _) = .ok graph' →
        graph'.cachedCeiling = some ceiling := by
      intro patches hrun
      cases hstate : reduceV5 patches with
      | error err => rw [hstate] at hrun; cases hrun
      | ok state =>
          rw [hstate] at hrun
          cases hrun
          rfl
    cases hfrontier : graph.cachedFrontier with
    | none =>
        simp only [hfrontier] at h
        exact hmiss h
    | some cachedFrontier =>
        simp only [hfrontier] at h
        split at h
        · rename_i hhit
          cases h
          simp only [Bool.and_eq_true, decide_eq_true_eq] at hhit
          exact hhit.1.1.2
        · exact hmiss h
  intro state hstate hnone
  rw [hceiling] at hnone
  cases hnone

omit [DecidableEq V] in
theorem coherent_materializeAt {repo : Repository V} {graph graph' : WarpGraph V T Hash}
    {checkpointSha : Sha} (htips : graph.cachedCeiling = none → SameTips graph.frontier repo.refs)
    (hcheckpoint : ∀ checkpoint, repo.loadCheckpoint checkpointSha = .ok checkpoint →
      Represents repo.store checkpoint.frontier checkpoint.state ∧
        (graph.cachedCeiling = none → repo.CheckpointBelow checkpoint))
    (h : graph.materializeAt services repo checkpointSha = .ok graph') : Coherent repo.store graph' := by
  unfold materializeAt at h
  cases hload : repo.loadCheckpoint checkpointSha with
  | error err => rw [hload] at h; cases h
  | ok checkpoint =>
      rw [hload] at h
      simp only [bind, Except.bind] at h
      split at h
      · cases h
      · rename_i state hstate
        cases h
        intro state' hstate' hceiling
        rw [setMaterializedState_cachedState, Option.some.injEq] at hstate'
        subst hstate'
        rw [setMaterializedState_cachedCeiling] at hceiling
        obtain ⟨reads, hreads, rfl⟩ := reduceV5From_eq_ok_iff.mp hstate
        obtain ⟨hrepresents, hbelow⟩ := hcheckpoint checkpoint hload
        unfold WarpGraph.frontier
        rw [setMaterializedState_lastFrontier]
        exact (Repository.represents_of_checkpoint hrepresents (hbelow hceiling) (fun _ => Iff.rfl)
          hreads).of_frontier (htips hceiling)

omit [DecidableEq V] [DecidableEq Hash] in
/-- The patches below the frontier of a response. -/
theorem mem_patchesAt_response {store : ObjectStore V} {frontier frontier' : Frontier}
    {patches : List (SyncPatch V)} (hresponse : ResponseFollows store frontier patches)
    (hget : ∀ writerId, frontier'.get writerId =
      ((((groupByWriter patches).get writerId).bind List.getLast?).map PatchEntry.sha).or
        (frontier.get writerId)) (entry : PatchEntry V) :
    entry ∈ store.patchesAt frontier' ↔
      entry ∈ store.patchesAt frontier ∨ entry ∈ appliedOrder patches := by
  simp only [ObjectStore.mem_patchesAt, appliedOrder, List.mem_flatMap]
  constructor
  · rintro ⟨writerId, hentry⟩
    rw [hget] at hentry
    cases hlast : ((groupByWriter patches).get writerId).bind List.getLast? with
    | none =>
        rw [hlast] at hentry
        exact Or.inl ⟨writerId, hentry⟩
    | some last =>
        rw [hlast] at hentry
        obtain ⟨group, hgroup, hlast'⟩ := Option.bind_eq_some_iff.mp hlast
        have hmem := (JsMap.get_eq_some_iff _ _ _).mp hgroup
        rcases (hresponse (writerId, group) hmem last hlast').2.1 entry hentry with hold | hnew
        · exact Or.inl ⟨writerId, hold⟩
        · exact Or.inr ⟨(writerId, group), hmem, hnew⟩
  · rintro (⟨writerId, hentry⟩ | ⟨group, hmem, hentry⟩)
    · refine ⟨writerId, ?_⟩
      rw [hget]
      cases hlast : ((groupByWriter patches).get writerId).bind List.getLast? with
      | none => exact hentry
      | some last =>
          obtain ⟨group, hgroup, hlast'⟩ := Option.bind_eq_some_iff.mp hlast
          have hmem := (JsMap.get_eq_some_iff _ _ _).mp hgroup
          exact (hresponse (writerId, group) hmem last hlast').2.2.1 entry hentry
    · refine ⟨group.1, ?_⟩
      have hgroup := (JsMap.get_eq_some_iff (groupByWriter patches) group.1 group.2).mpr hmem
      obtain ⟨last, hlast⟩ := Option.ne_none_iff_exists'.mp
        (mt List.getLast?_eq_none_iff.mp (List.ne_nil_of_mem hentry))
      rw [hget, hgroup, Option.bind_some, hlast]
      exact (hresponse group hmem last hlast).2.2.2 entry hentry

omit [DecidableEq V] in
theorem coherent_applySync {store : ObjectStore V} {graph graph' : WarpGraph V T Hash}
    {patches : List (SyncPatch V)} (hcoherent : Coherent store graph)
    (hfollows : ∀ state ∈ graph.cachedState, graph.cachedCeiling = none →
      ResponseFollows store graph.frontier patches ∧
        AddsNothingForgotten store graph.frontier state (appliedOrder patches))
    (h : graph.applySync services patches = .ok graph') : Coherent store graph' := by
  unfold applySync at h
  split at h
  · cases h
  · rename_i cachedState hcached
    cases hresult : applySyncResponse patches cachedState (graph.lastFrontier.getD JsMap.empty) with
    | error err => rw [hresult] at h; cases h
    | ok result =>
        rw [hresult] at h
        cases h
        intro state hstate hceiling
        simp only [setMaterializedState_cachedState, Option.some.injEq] at hstate
        subst hstate
        simp only [setMaterializedState_cachedCeiling] at hceiling
        have hrepresents := hcoherent cachedState hcached hceiling
        obtain ⟨hresponse, hfresh⟩ := hfollows cachedState hcached hceiling
        obtain ⟨reads, hreads, hstate⟩ := applySyncResponse_state hresult
        rw [hstate]
        have hget := applySyncResponse_frontier hresult
        refine hrepresents.extend hreads (fun writerId tip htip => ?_) (fun entry => ?_) hfresh
        · change result.frontier.get writerId = some tip at htip
          rw [hget] at htip
          cases hlast : ((groupByWriter patches).get writerId).bind List.getLast? with
          | none =>
              rw [hlast] at htip
              exact hrepresents.holds writerId tip htip
          | some last =>
              rw [hlast] at htip
              cases htip
              obtain ⟨group, hgroup, hlast'⟩ := Option.bind_eq_some_iff.mp hlast
              exact (hresponse (writerId, group) ((JsMap.get_eq_some_iff _ _ _).mp hgroup) last hlast').1
        · exact mem_patchesAt_response hresponse hget entry

omit [DecidableEq V] [DecidableEq Hash] in
/-- The patches below a frontier after a commit on top of one of its tips. -/
theorem mem_patchesAt_set {store : ObjectStore V} {frontier : Frontier} {writerId : JsString} {sha : Sha}
    {patch : PatchV2 V} (hget : store.get sha = some ⟨(frontier.get writerId).toList, .patch patch⟩)
    (entry : PatchEntry V) :
    entry ∈ store.patchesAt (frontier.set writerId sha) ↔
      entry ∈ store.patchesAt frontier ∨ entry ∈ [⟨patch, sha⟩] := by
  have hchain : store.walk none sha = store.chainAt (frontier.get writerId) ++ [⟨patch, sha⟩] := by
    rw [ObjectStore.walk_eq hget, if_neg (Option.some_ne_none sha)]
    cases frontier.get writerId <;> rfl
  have hself : store.chainAt ((frontier.set writerId sha).get writerId) = store.walk none sha := by
    rw [JsMap.get_set_self]
    rfl
  simp only [ObjectStore.mem_patchesAt]
  constructor
  · rintro ⟨other, hentry⟩
    by_cases hother : other = writerId
    · subst hother
      rw [hself, hchain, List.mem_append] at hentry
      exact hentry.imp_left fun hold => ⟨other, hold⟩
    · rw [JsMap.get_set_of_ne _ _ hother] at hentry
      exact Or.inl ⟨other, hentry⟩
  · rintro (⟨other, hentry⟩ | hentry)
    · refine ⟨other, ?_⟩
      by_cases hother : other = writerId
      · subst hother
        rw [hself, hchain]
        exact List.mem_append_left _ hentry
      · rw [JsMap.get_set_of_ne _ _ hother]
        exact hentry
    · refine ⟨writerId, ?_⟩
      rw [hself, hchain]
      exact List.mem_append_right _ hentry

/-- A local commit on top of the tip that the frontier has. -/
theorem coherent_onPatchCommitted {store : ObjectStore V} {graph : WarpGraph V T Hash}
    {builder : PatchBuilderV2 V} {sha : Sha} {patch : PatchV2 V} (h : Coherent store graph)
    (hget : store.get sha = some ⟨builder.expectedParentSha.toList, .patch (builder.storedPatch patch)⟩)
    (hfollows : CommitFollows store graph builder sha patch) :
    Coherent store (graph.onPatchCommitted services builder.writerId patch sha) := by
  unfold onPatchCommitted
  cases hincrement : vvIncrement graph.versionVector builder.writerId with
  | error err => exact h
  | ok incremented =>
      dsimp only
      split
      · rename_i cachedState hcached hclean
        by_cases hnone : graph.cachedCeiling = none
        · obtain ⟨hfrontier, htip, hreadable, hreceipt, hstored, hfresh⟩ :=
            hfollows cachedState hcached hclean hnone
          rw [hstored] at hget
          have hrepresents := h cachedState hcached hnone
          cases hread : readPatch ⟨patch, sha⟩ with
          | error err => rw [hread] at hreadable; cases hreadable
          | ok read =>
              obtain ⟨loaded, hloaded, hstate⟩ :=
                applyCommitted_eq_ok cachedState hread hreceipt
              obtain ⟨frontier, hlast⟩ := Option.isSome_iff_exists.mp hfrontier
              have hsame : graph.frontier = frontier := by
                rw [WarpGraph.frontier, hlast, Option.getD_some]
              rw [hsame] at htip hfresh hrepresents
              rw [← htip] at hget
              simp only [hloaded]
              intro state hcached' _
              simp only [setMaterializedState_cachedState, Option.some.injEq] at hcached'
              subst hcached'
              rw [hstate]
              unfold WarpGraph.frontier
              simp only [setMaterializedState_lastFrontier, hlast, Option.map_some, Option.getD_some]
              refine hrepresents.extend (mapM_cons_ok_iff.mpr ⟨read, [], hread, rfl, rfl⟩)
                (fun writerId tip htip' => ?_) (mem_patchesAt_set hget) hfresh
              rw [JsMap.get_set] at htip'
              split at htip'
              · cases htip'
                exact ObjectStore.mem_shas_of_get hget
              · exact hrepresents.holds writerId tip htip'
        · have hceiling : ∀ graph' : WarpGraph V T Hash, graph'.cachedCeiling = graph.cachedCeiling →
              Coherent store graph' := by
            intro graph' hsame state _ hnone'
            exact absurd (hsame ▸ hnone') hnone
          refine hceiling _ ?_
          split <;> simp
      · exact h.of_frame rfl rfl rfl

end WarpGraph

end GitWarp
