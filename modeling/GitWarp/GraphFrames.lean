import GitWarp.CommitSafety
import GitWarp.GraphCoherence
import GitWarp.GraphForks

/-! What a step of one graph leaves of the others. It only adds objects, so every walk from a ref of another
graph finds the same commits, and another graph materializes the same state. -/

namespace GitWarp
open Js ExceptLoops

variable {V T Hash Buffer : Type}

/-! ### Repositories with the same refs -/

namespace Repository

/-- `repo'` has the refs of `repo` and at least its objects. -/
structure Grows (repo repo' : Repository V) : Prop where
  store : repo'.store.Extends repo.store
  refs : repo'.refs = repo.refs
  checkpointRef : repo'.checkpointRef = repo.checkpointRef

theorem Grows.refl (repo : Repository V) : repo.Grows repo := ⟨ObjectStore.Extends.refl _, rfl, rfl⟩

theorem Grows.trans {a b c : Repository V} (hab : a.Grows b) (hbc : b.Grows c) : a.Grows c :=
  ⟨hbc.store.trans hab.store, hbc.refs.trans hab.refs, hbc.checkpointRef.trans hab.checkpointRef⟩

variable {repo repo' : Repository V}

theorem Grows.discoverWriters (h : repo.Grows repo') : repo'.discoverWriters = repo.discoverWriters := by
  unfold Repository.discoverWriters
  rw [h.refs]

theorem Grows.loadWriterPatches (h : repo.Grows repo') (writerId : JsString) (stopAtSha : Option Sha) :
    repo'.loadWriterPatches writerId stopAtSha = repo.loadWriterPatches writerId stopAtSha :=
  loadWriterPatches_of_extends h.store (by rw [h.refs]) stopAtSha

theorem Grows.loadAllPatches (h : repo.Grows repo') : repo'.loadAllPatches = repo.loadAllPatches := by
  unfold Repository.loadAllPatches
  rw [h.discoverWriters]
  apply List.flatMap_congr
  intro writerId _
  exact h.loadWriterPatches writerId none

theorem Grows.loadLatestCheckpoint (h : repo.Grows repo') :
    repo'.loadLatestCheckpoint = repo.loadLatestCheckpoint := by
  unfold Repository.loadLatestCheckpoint
  rw [h.checkpointRef]
  cases hsha : repo.checkpointRef with
  | none => rfl
  | some sha =>
      have hshow : repo'.showNode sha = repo.showNode sha := h.store.get_eq (repo.checkpointExists sha hsha)
      simp only [loadCheckpoint, hshow]

theorem Grows.walkedPatches (h : repo.Grows repo') : repo'.walkedPatches = repo.walkedPatches := by
  unfold Repository.walkedPatches
  rw [h.loadLatestCheckpoint, h.loadAllPatches, h.discoverWriters]
  simp only [h.loadWriterPatches]

/-- Newer objects do not matter for the line below an older one. -/
theorem lineFrom_append {newer older : List (Sha × Commit V)} (h : Closed (newer ++ older)) {sha : Sha}
    (hsha : sha ∈ older.map Prod.fst) : lineFrom (newer ++ older) sha = lineFrom older sha := by
  induction newer with
  | nil => rfl
  | cons object rest ih =>
      have hne : sha ≠ object.1 := by
        intro heq
        rw [heq] at hsha
        exact h.1.1 (List.map_append ▸ List.mem_append_right _ hsha)
      rw [List.cons_append, lineFrom, if_neg hne]
      exact ih h.2

theorem Grows.isAncestor (h : repo.Grows repo') {descendantSha : Sha}
    (hsha : descendantSha ∈ repo.store.shas) (ancestorSha : Sha) :
    repo'.isAncestor ancestorSha descendantSha = repo.isAncestor ancestorSha descendantSha := by
  obtain ⟨newer, hnewer⟩ := h.store
  have hclosed := repo'.store.closed
  rw [← hnewer] at hclosed
  unfold Repository.isAncestor
  rw [← hnewer, lineFrom_append hclosed hsha]

/-- The check of a tip that exists passes as before; where it fails, the error may be another one. -/
theorem Grows.validatePatchAgainstCheckpoint (h : repo.Grows repo') {incomingSha : Sha}
    (hsha : incomingSha ∈ repo.store.shas) (writerId : JsString) (checkpoint : Checkpoint V) :
    repo'.validatePatchAgainstCheckpoint writerId incomingSha checkpoint = .ok () ↔
      repo.validatePatchAgainstCheckpoint writerId incomingSha checkpoint = .ok () := by
  unfold Repository.validatePatchAgainstCheckpoint
  split
  · exact Iff.rfl
  · split
    · exact Iff.rfl
    · rename_i ckHead hhead
      rw [h.isAncestor hsha ckHead]
      split
      · exact Iff.rfl
      · split
        · exact Iff.rfl
        · have hfails : ∀ (later : Bool) (behind forked : String),
              (if later then thrown behind else thrown forked : Except JsError Unit) ≠ .ok () := by
            intro later behind forked
            cases later <;> simp [thrown]
          exact iff_of_false (hfails _ _ _) (hfails _ _ _)

theorem Grows.loadWriterPatchesSince (h : repo.Grows repo') (checkpoint : Checkpoint V) (writerId : JsString)
    (patches : List (PatchEntry V)) :
    repo'.loadWriterPatchesSince checkpoint writerId = .ok patches ↔
      repo.loadWriterPatchesSince checkpoint writerId = .ok patches := by
  unfold Repository.loadWriterPatchesSince
  rw [h.loadWriterPatches]
  cases hlast : (repo.loadWriterPatches writerId (checkpoint.frontier.get writerId)).getLast? with
  | none => simp only [hlast]
  | some last =>
      have hsha : last.sha ∈ repo.store.shas := by
        have hmem := List.mem_of_getLast? hlast
        unfold Repository.loadWriterPatches at hmem
        cases htip : repo.readRef writerId with
        | none =>
            rw [htip] at hmem
            cases hmem
        | some tip =>
            rw [htip] at hmem
            obtain ⟨parents, hget⟩ := ObjectStore.get_of_mem_walk (repo.refsExist writerId tip htip) hmem
            exact ObjectStore.mem_shas_of_get hget
      simp only [hlast, bind_ok_iff, h.validatePatchAgainstCheckpoint hsha writerId checkpoint]

theorem Grows.loadPatchesSince (h : repo.Grows repo') (checkpoint : Checkpoint V) (patches : List (PatchEntry V)) :
    repo'.loadPatchesSince checkpoint = .ok patches ↔ repo.loadPatchesSince checkpoint = .ok patches := by
  unfold Repository.loadPatchesSince
  rw [h.discoverWriters]
  simp only [bind_ok_iff, mapM_ok_congr fun writerId _ patches => h.loadWriterPatchesSince checkpoint writerId patches]

end Repository

/-! ### Materializing -/

namespace WarpGraph

variable [DecidableEq V] {repo repo' : Repository V}

/-- What the loading half of `materialize` makes of the refs. -/
theorem loadMaterialized_ok_iff (graph : WarpGraph V T Hash) (collectReceipts : Bool) (loaded : Loaded V) :
    (∃ graph', graph.loadMaterialized repo collectReceipts = .ok (graph', loaded)) ↔
      (∃ checkpoint patches, repo.loadLatestCheckpoint = .ok (some checkpoint) ∧
        repo.loadPatchesSince checkpoint = .ok patches ∧
        reduceWanting (!collectReceipts && graph.cachedIndexTree.isSome) checkpoint.state patches = .ok loaded) ∨
      (repo.loadLatestCheckpoint = .ok none ∧
        if repo.loadAllPatches = [] then loaded = ⟨createEmptyStateV5, none⟩
        else reduceWanting (!collectReceipts && graph.cachedIndexTree.isSome) createEmptyStateV5
          repo.loadAllPatches = .ok loaded) := by
  unfold loadMaterialized
  cases repo.loadLatestCheckpoint with
  | error err => simp [bind, Except.bind]
  | ok latest =>
      cases latest with
      | some checkpoint =>
          simp only [bind, Except.bind, pure, Except.pure]
          cases hpatches : repo.loadPatchesSince checkpoint with
          | error err => simp [hpatches]
          | ok patches =>
              cases hreduce : reduceWanting (!collectReceipts && graph.cachedIndexTree.isSome) checkpoint.state
                patches with
              | error err => simp [hpatches, hreduce]
              | ok result => simp [hpatches, hreduce]
      | none =>
          simp only [bind, Except.bind, pure, Except.pure]
          by_cases hnone : repo.loadAllPatches = []
          · simp [hnone, eq_comm]
          · cases reduceWanting (!collectReceipts && graph.cachedIndexTree.isSome) createEmptyStateV5
              repo.loadAllPatches with
            | error err => simp [hnone]
            | ok result => simp [hnone]

theorem materialized_ok_iff (encrypted : Sha → Bool) (patchBlobStorage : Bool) (graph : WarpGraph V T Hash)
    (state : WarpStateV5 V) :
    graph.materialized encrypted repo patchBlobStorage = .ok state ↔
      (∃ patches reads, repo.walkedPatches = .ok patches ∧
        patches.mapM (fun entry => readPatchBlob encrypted patchBlobStorage entry.sha) = .ok reads) ∧
      ∃ diff graph', graph.loadMaterialized repo false = .ok (graph', ⟨state, diff⟩) := by
  unfold materialized
  simp only [bind_ok_iff, pure, Except.pure, Except.ok.injEq]
  constructor
  · rintro ⟨patches, hpatches, reads, hreads, ⟨graph', loaded⟩, hloaded, rfl⟩
    exact ⟨⟨patches, reads, hpatches, hreads⟩, loaded.diff, graph', hloaded⟩
  · rintro ⟨⟨patches, reads, hpatches, hreads⟩, diff, graph', hloaded⟩
    exact ⟨patches, hpatches, reads, hreads, ⟨graph', ⟨state, diff⟩⟩, hloaded, rfl⟩

/-- A graph materializes the same state from a repository that has only more objects. -/
theorem materialized_of_grows (h : repo.Grows repo') (encrypted : Sha → Bool) (patchBlobStorage : Bool)
    (graph : WarpGraph V T Hash) (state : WarpStateV5 V) :
    graph.materialized encrypted repo' patchBlobStorage = .ok state ↔
      graph.materialized encrypted repo patchBlobStorage = .ok state := by
  simp only [materialized_ok_iff, loadMaterialized_ok_iff, h.walkedPatches, h.loadLatestCheckpoint,
    h.loadPatchesSince, h.loadAllPatches]

end WarpGraph

/-! ### Steps of other graphs -/

/-- Nothing of a graph has changed but the objects around it. -/
structure World.Untouched (world world' : World V T Hash) : Prop where
  repo : world.repo.Grows world'.repo
  graphs : world'.graphs = world.graphs
  builders : world'.builders = world.builders

theorem World.Untouched.trans {a b c : World V T Hash} (hab : a.Untouched b) (hbc : b.Untouched c) : a.Untouched c :=
  ⟨hab.repo.trans hbc.repo, hbc.graphs.trans hab.graphs, hbc.builders.trans hab.builders⟩

namespace Host

theorem worlds_put (host : Host V T Hash) (name : JsString) (world : World V T Hash)
    (h : world.repo.store.Extends host.store) : (host.put name world h).worlds name = world :=
  if_pos rfl

theorem untouched_put (host : Host V T Hash) {name other : JsString} (hne : other ≠ name) (world : World V T Hash)
    (h : world.repo.store.Extends host.store) :
    (host.worlds other).Untouched ((host.put name world h).worlds other) := by
  have hother : (host.put name world h).worlds other =
      { host.worlds other with
        repo := (host.worlds other).repo.onStore world.repo.store ((host.shared other).symm ▸ h) } := if_neg hne
  have hstore : world.repo.store.Extends (host.worlds other).repo.store := by
    rw [host.shared other]
    exact h
  rw [hother]
  exact ⟨⟨hstore, rfl, rfl⟩, rfl, rfl⟩

variable [DecidableEq V] [DecidableEq Hash] {services : GraphServices V T Hash Buffer}

/-- A step of a graph is a step of what runs on it. -/
theorem step_eq_some {host host' : Host V T Hash} {name : JsString} {action : Action V}
    (h : host.step services (name, action) = some host') :
    (host.worlds name).step services action = some (host'.worlds name) ∧
      ∀ other, other ≠ name → (host.worlds other).Untouched (host'.worlds other) := by
  unfold step at h
  split at h
  · rename_i world hworld
    cases h
    refine ⟨?_, fun other hne => host.untouched_put hne world _⟩
    rw [worlds_put]
    exact hworld
  · cases h

/-- No step of other graphs touches a graph. -/
theorem untouched_of_run {host last : Host V T Hash} {actions : List (JsString × Action V)} {name : JsString}
    (hactions : ∀ action ∈ actions, action.1 ≠ name)
    (hrun : Runs.run (step services) host actions = some last) :
    (host.worlds name).Untouched (last.worlds name) := by
  have hstep : ∀ (state : Host V T Hash) (action : JsString × Action V) (state' : Host V T Hash),
      (host.worlds name).Untouched (state.worlds name) → action.1 ≠ name → state.step services action = some state' →
        (host.worlds name).Untouched (state'.worlds name) := by
    intro state action state' huntouched hne hstep
    exact huntouched.trans ((step_eq_some hstep).2 name hne.symm)
  have hmeets : Runs.Meets (step services) (fun _ action => action.1 ≠ name) host actions :=
    Runs.meets_of_forall (fun action haction _ => hactions action haction) host
  exact Runs.invariant_of_run hstep ⟨Repository.Grows.refl _, rfl, rfl⟩ hmeets hrun

/-- What an opened graph materializes, no step of other graphs changes. -/
theorem materialize_of_run {host last : Host V T Hash} {actions : List (JsString × Action V)} (handle : GraphHandle)
    (hactions : ∀ action ∈ actions, action.1 ≠ handle.graphName)
    (hrun : Runs.run (step services) host actions = some last) (encrypted : Sha → Bool) (state : WarpStateV5 V) :
    last.materialize encrypted handle = .ok state ↔ host.materialize encrypted handle = .ok state := by
  have huntouched := untouched_of_run hactions hrun
  simp only [materialize, huntouched.graphs]
  cases (host.worlds handle.graphName).graphs[handle.index]? with
  | none => exact Iff.rfl
  | some graph => exact graph.materialized_of_grows huntouched.repo encrypted handle.patchBlobStorage state

end Host

end GitWarp
