import GitWarp.GraphWorld

/-! What one step does to the repository and to the builders. Only a builder's `commit()` moves a writer's
ref; all other steps leave the refs alone and at most add objects. -/

namespace GitWarp
open Js ExceptLoops

variable {V T Hash Buffer : Type}

/-- How the methods of a builder that do not call the persistence layer change it. -/
inductive PatchBuilderV2.Edit (builder : PatchBuilderV2 V) : PatchBuilderV2 V → Prop
  | dot (op : Dot → OpV2 V) (hop : ∀ dot, (op dot).addDot = some dot) (vv : VersionVector) (dot : Dot)
      (hphase : builder.phase = .building) (hdot : vvIncrement builder.vv builder.writerId = .ok (vv, dot)) :
      Edit builder { builder with vv := vv, ops := builder.ops ++ [op dot] }
  | append (op : OpV2 V) (hphase : builder.phase = .building) (hop : op.isDotless = true) :
      Edit builder { builder with ops := builder.ops ++ [op] }
  | commit (hphase : builder.phase = .building) : Edit builder { builder with phase := .readingRef }
  | abort (hphase : ∀ sha patch, builder.phase ≠ .notifying sha patch)
      (hphase' : ∀ sha, builder.phase ≠ .committed sha) : Edit builder { builder with phase := .building }

namespace PatchBuilderV2

theorem phase_of_isBuilding {builder : PatchBuilderV2 V} (h : builder.isBuilding = true) :
    builder.phase = .building := by
  unfold isBuilding at h
  split at h
  · assumption
  · cases h

theorem edit_addWithDot {builder builder' : PatchBuilderV2 V} {op : Dot → OpV2 V}
    (hop : ∀ dot, (op dot).addDot = some dot) (h : builder.addWithDot op = some builder') :
    builder.Edit builder' := by
  unfold addWithDot at h
  split at h
  · rename_i hphase
    split at h
    · rename_i vv dot hdot
      cases h
      exact Edit.dot op hop vv dot (phase_of_isBuilding hphase) hdot
    · cases h
  · cases h

theorem edit_addNode {builder builder' : PatchBuilderV2 V} {nodeId : JsString}
    (h : builder.addNode nodeId = some builder') : builder.Edit builder' := by
  unfold addNode at h
  split at h
  · exact edit_addWithDot (fun _ => rfl) h
  · cases h

theorem edit_addEdge {builder builder' : PatchBuilderV2 V} {edge : EdgeRef}
    (h : builder.addEdge edge = some builder') : builder.Edit builder' := by
  unfold addEdge at h
  split at h
  · exact edit_addWithDot (fun _ => rfl) h
  · cases h

theorem edit_append {builder builder' : PatchBuilderV2 V} {op : OpV2 V}
    (h : builder.append op = some builder') : builder.Edit builder' := by
  unfold PatchBuilderV2.append at h
  split at h
  · rename_i hguard
    cases h
    rw [Bool.and_eq_true] at hguard
    exact Edit.append op (phase_of_isBuilding hguard.1) hguard.2
  · cases h

theorem edit_commit {builder builder' : PatchBuilderV2 V} (h : builder.commit = some builder') :
    builder.Edit builder' := by
  unfold PatchBuilderV2.commit at h
  split at h
  · rename_i hguard
    cases h
    rw [Bool.and_eq_true] at hguard
    exact Edit.commit (phase_of_isBuilding hguard.1)
  · cases h

theorem edit_abort {builder builder' : PatchBuilderV2 V} (h : builder.abort = some builder') :
    builder.Edit builder' := by
  unfold PatchBuilderV2.abort at h
  split at h
  · cases h
  · cases h
  · cases h
  · rename_i hnotifying hcommitted
    cases h
    exact Edit.abort hnotifying hcommitted

theorem Edit.frame {builder builder' : PatchBuilderV2 V} (h : builder.Edit builder') :
    builder'.writerId = builder.writerId ∧ builder'.expectedParentSha = builder.expectedParentSha := by
  cases h <;> exact ⟨rfl, rfl⟩

theorem Edit.lamport {builder builder' : PatchBuilderV2 V} (h : builder.Edit builder') :
    builder'.lamport = builder.lamport := by
  cases h <;> rfl

/-- The call of the persistence layer that a builder makes next. -/
inductive Persisted (repo : Repository V) (builder : PatchBuilderV2 V) :
    Repository V → PatchBuilderV2 V → Prop
  | conflict (hphase : builder.phase = .readingRef) :
      Persisted repo builder repo { builder with phase := .building }
  | showing (tip : Sha) (hparent : builder.expectedParentSha = some tip)
      (hphase : builder.phase = .readingRef) :
      Persisted repo builder repo { builder with phase := .showingNode tip }
  | patchFailed (hphase : ∀ sha patch, builder.phase ≠ .notifying sha patch)
      (hphase' : ∀ sha, builder.phase ≠ .committed sha) :
      Persisted repo builder repo { builder with phase := .building }
  | patchRoot (patch : PatchV2 V) (hparent : builder.expectedParentSha = none)
      (hphase : builder.phase = .readingRef) (hpatch : builder.toPatch builder.lamport = .ok patch) :
      Persisted repo builder repo { builder with phase := .writingBlob none patch }
  | patchOn (tip : Sha) (commit : Commit V) (lamport : Nat) (patch : PatchV2 V)
      (hphase : builder.phase = .showingNode tip) (hcommit : repo.store.get tip = some commit)
      (hlamport : ∀ below, commit.content = .patch below → below.lamport < lamport)
      (hraised : builder.lamport ≤ lamport) (hpatch : builder.toPatch lamport = .ok patch) :
      Persisted repo builder repo { builder with phase := .writingBlob (some tip) patch }
  | blob (parentCommit : Option Sha) (patch : PatchV2 V)
      (hphase : builder.phase = .writingBlob parentCommit patch) :
      Persisted repo builder repo { builder with phase := .writingTree parentCommit patch }
  | tree (parentCommit : Option Sha) (patch : PatchV2 V)
      (hphase : builder.phase = .writingTree parentCommit patch) :
      Persisted repo builder repo { builder with phase := .committingNode parentCommit patch }
  | node (parentCommit : Option Sha) (patch : PatchV2 V) (sha : Sha) (repo' : Repository V)
      (hphase : builder.phase = .committingNode parentCommit patch)
      (hstore : repo'.store.Extends repo.store) (hrefs : repo'.refs = repo.refs)
      (hget : repo'.store.get sha = some ⟨parentCommit.toList, .patch (builder.storedPatch patch)⟩)
      (hnew : ∀ other commit, repo'.store.get other = some commit → repo.store.get other = some commit ∨
        commit = ⟨parentCommit.toList, .patch (builder.storedPatch patch)⟩) :
      Persisted repo builder repo' { builder with phase := .updatingRef sha patch }
  | ref (sha : Sha) (patch : PatchV2 V) (repo' : Repository V)
      (hphase : builder.phase = .updatingRef sha patch) (hstore : repo'.store = repo.store)
      (hrefs : repo'.refs = repo.refs.set builder.writerId sha) :
      Persisted repo builder repo' { builder with phase := .notifying sha patch }

theorem Persisted.frame {repo repo' : Repository V} {builder builder' : PatchBuilderV2 V}
    (h : Persisted repo builder repo' builder') :
    builder'.writerId = builder.writerId ∧ builder'.expectedParentSha = builder.expectedParentSha ∧
      builder'.ops = builder.ops ∧ builder'.vv = builder.vv := by
  cases h <;> exact ⟨rfl, rfl, rfl, rfl⟩

theorem Persisted.lamport {repo repo' : Repository V} {builder builder' : PatchBuilderV2 V}
    (h : Persisted repo builder repo' builder') : builder'.lamport = builder.lamport := by
  cases h <;> rfl

/-- Objects are only ever added. -/
theorem Persisted.extends {repo repo' : Repository V} {builder builder' : PatchBuilderV2 V}
    (h : Persisted repo builder repo' builder') : repo'.store.Extends repo.store := by
  cases h with
  | node parentCommit patch sha repo' hphase hstore hrefs hget hnew => exact hstore
  | ref sha patch repo' hphase hstore hrefs =>
      rw [hstore]
      exact ObjectStore.Extends.refl _
  | _ => exact ObjectStore.Extends.refl _

theorem toPatch_eq_ok {builder : PatchBuilderV2 V} {lamport : Nat} {patch : PatchV2 V}
    (h : builder.toPatch lamport = .ok patch) :
    patch.writer = builder.writerId ∧ patch.lamport = lamport ∧
      patch.ops = builder.ops.map lowerCanonicalOp := by
  unfold toPatch at h
  cases hcontext : vvSerialize builder.vv with
  | error err => rw [hcontext] at h; cases h
  | ok context =>
      rw [hcontext] at h
      cases h
      exact ⟨rfl, rfl, rfl⟩

theorem withPatch_cases (builder : PatchBuilderV2 V) (parentCommit : Option Sha) (lamport : Nat) :
    builder.withPatch parentCommit lamport = { builder with phase := .building } ∨
      ∃ patch, builder.toPatch lamport = .ok patch ∧
        builder.withPatch parentCommit lamport = { builder with phase := .writingBlob parentCommit patch } := by
  unfold withPatch
  cases builder.toPatch lamport with
  | error err => exact Or.inl rfl
  | ok patch => exact Or.inr ⟨patch, rfl, rfl⟩

variable [DecidableEq V]

theorem persisted_of_persist {repo repo' : Repository V} {builder builder' : PatchBuilderV2 V} {sha : Sha}
    (h : builder.persist repo sha = some (repo', builder')) : Persisted repo builder repo' builder' := by
  unfold persist at h
  cases hphase : builder.phase with
  | building => rw [hphase] at h; cases h
  | notifying sha' patch => rw [hphase] at h; cases h
  | committed sha' => rw [hphase] at h; cases h
  | readingRef =>
      simp only [hphase] at h
      split at h
      · cases h
        exact Persisted.conflict hphase
      · rename_i hsame
        rw [ne_eq, not_not] at hsame
        cases hcurrent : repo.readRef builder.writerId with
        | some tip =>
            rw [hcurrent] at h hsame
            cases h
            exact Persisted.showing tip hsame.symm hphase
        | none =>
            rw [hcurrent] at h hsame
            cases h
            obtain hfailed | ⟨patch, hpatch, hmade⟩ := withPatch_cases builder none builder.lamport
            · rw [hfailed]
              exact Persisted.conflict hphase
            · rw [hmade]
              exact Persisted.patchRoot patch hsame.symm hphase hpatch
  | showingNode tip =>
      simp only [hphase, Option.bind_eq_bind, Option.bind_eq_some_iff, Option.pure_def] at h
      obtain ⟨commit, hcommit, h⟩ := h
      cases h
      obtain hfailed | ⟨patch, hpatch, hmade⟩ :=
        withPatch_cases builder (some tip) (builder.lamportOn commit)
      · rw [hfailed]
        exact Persisted.patchFailed (fun _ _ => by simp [hphase]) (fun _ => by simp [hphase])
      · rw [hmade]
        refine Persisted.patchOn tip commit _ patch hphase hcommit (fun below hbelow => ?_) ?_ hpatch
        · rw [lamportOn, hbelow]
          exact lt_of_lt_of_le (Nat.lt_succ_self _) (le_max_right _ _)
        · unfold lamportOn
          split
          · exact le_max_left _ _
          · exact le_rfl
  | writingBlob parentCommit patch =>
      simp only [hphase] at h
      cases h
      exact Persisted.blob parentCommit patch hphase
  | writingTree parentCommit patch =>
      simp only [hphase] at h
      cases h
      exact Persisted.tree parentCommit patch hphase
  | committingNode parentCommit patch =>
      simp only [hphase, Option.bind_eq_bind, Option.bind_eq_some_iff, Option.pure_def] at h
      obtain ⟨written, hwritten, h⟩ := h
      cases h
      obtain ⟨hput, hrefs, -⟩ := Repository.commitNode_eq_some hwritten
      obtain ⟨hextends, hget, -⟩ := ObjectStore.put_eq_some hput
      exact Persisted.node parentCommit patch sha _ hphase hextends hrefs hget
        fun other commit => ObjectStore.get_of_put hput
  | updatingRef newCommitSha patch =>
      simp only [hphase, Option.bind_eq_bind, Option.bind_eq_some_iff, Option.pure_def] at h
      obtain ⟨moved, hmoved, h⟩ := h
      cases h
      obtain ⟨-, hstore, hrefs, -⟩ := Repository.updateRef_eq_some hmoved
      exact Persisted.ref newCommitSha patch _ hphase hstore hrefs

end PatchBuilderV2

/-! ### All steps -/

/-- What a step does to the repository and the builders. -/
inductive BuilderEffect (world : World V T Hash) (action : Action V) : World V T Hash → Prop
  | quiet {world' : World V T Hash} (hstore : world'.repo.store.Extends world.repo.store)
      (hrefs : world'.repo.refs = world.repo.refs) (hbuilders : world'.builders = world.builders) :
      BuilderEffect world action world'
  | begun {world' : World V T Hash} (builder : PatchBuilderV2 V) (hrepo : world'.repo = world.repo)
      (hbuilders : world'.builders = world.builders ++ [builder]) (hphase : builder.phase = .building)
      (hops : builder.ops = []) (hparent : builder.expectedParentSha = world.repo.readRef builder.writerId)
      (haction : world.begun action = some builder) :
      BuilderEffect world action world'
  | edited {world' : World V T Hash} (index : Nat) (builder builder' : PatchBuilderV2 V)
      (hrepo : world'.repo = world.repo) (hbuilder : world.builders[index]? = some builder)
      (hbuilders : world'.builders = world.builders.set index builder') (hedit : builder.Edit builder') :
      BuilderEffect world action world'
  | persisted {world' : World V T Hash} (index : Nat) (builder builder' : PatchBuilderV2 V)
      (haction : ∃ sha, action = .persist index sha)
      (hbuilder : world.builders[index]? = some builder)
      (hbuilders : world'.builders = world.builders.set index builder')
      (hpersisted : builder.Persisted world.repo world'.repo builder') : BuilderEffect world action world'
  | notified {world' : World V T Hash} (index : Nat) (builder : PatchBuilderV2 V) (sha : Sha)
      (patch : PatchV2 V) (hrepo : world'.repo = world.repo)
      (hbuilder : world.builders[index]? = some builder) (hphase : builder.phase = .notifying sha patch)
      (hbuilders : world'.builders = world.builders.set index { builder with phase := .committed sha }) :
      BuilderEffect world action world'

namespace World

theorem withGraph_eq_some {world world' : World V T Hash} {index : Nat}
    {method : WarpGraph V T Hash → Except JsError (WarpGraph V T Hash)}
    (h : world.withGraph index method = some world') :
    ∃ graph graph', world.graphs[index]? = some graph ∧ method graph = .ok graph' ∧
      world' = { world with graphs := world.graphs.set index graph' } := by
  simp only [withGraph, Option.bind_eq_bind, Option.bind_eq_some_iff, Option.pure_def,
    Option.some.injEq] at h
  obtain ⟨graph, hgraph, graph', hmethod, rfl⟩ := h
  cases hresult : method graph with
  | error err => rw [hresult] at hmethod; cases hmethod
  | ok result =>
      rw [hresult] at hmethod
      cases hmethod
      exact ⟨graph, graph', hgraph, hresult, rfl⟩

theorem effect_of_withGraph {action : Action V} {world world' : World V T Hash} {index : Nat}
    {method : WarpGraph V T Hash → Except JsError (WarpGraph V T Hash)}
    (h : world.withGraph index method = some world') : BuilderEffect world action world' := by
  obtain ⟨graph, graph', -, -, rfl⟩ := withGraph_eq_some h
  exact BuilderEffect.quiet (ObjectStore.Extends.refl _) rfl rfl

theorem effect_of_withBuilder {action : Action V} {world world' : World V T Hash} {index : Nat}
    {method : PatchBuilderV2 V → Option (PatchBuilderV2 V)}
    (hmethod : ∀ builder builder', method builder = some builder' → builder.Edit builder')
    (h : world.withBuilder index method = some world') : BuilderEffect world action world' := by
  simp only [withBuilder, Option.bind_eq_bind, Option.bind_eq_some_iff, Option.pure_def,
    Option.some.injEq] at h
  obtain ⟨builder, hbuilder, builder', hresult, rfl⟩ := h
  exact BuilderEffect.edited index builder builder' rfl hbuilder rfl (hmethod builder builder' hresult)

/-- A new builder is open and empty and expects the current ref. -/
theorem begun_eq_some {world : World V T Hash} {action : Action V} {builder : PatchBuilderV2 V}
    (h : world.begun action = some builder) :
    builder.phase = .building ∧ builder.ops = [] ∧
      builder.expectedParentSha = world.repo.readRef builder.writerId := by
  cases action with
  | createPatch index =>
      simp only [begun, Option.bind_eq_bind, Option.bind_eq_some_iff, Option.pure_def,
        Option.some.injEq] at h
      obtain ⟨graph, -, rfl⟩ := h
      exact ⟨rfl, rfl, rfl⟩
  | beginPatch index =>
      simp only [begun, Writer.beginPatch, Option.bind_eq_bind, Option.bind_eq_some_iff, Option.pure_def,
        Option.some.injEq] at h
      obtain ⟨writer, -, graph, -, builder, ⟨vv, -, lamport, -, rfl⟩, rfl⟩ := h
      exact ⟨rfl, rfl, rfl⟩
  | _ => cases h

theorem effect_of_withBegun {action : Action V} {world world' : World V T Hash}
    (h : world.withBegun action = some world') : BuilderEffect world action world' := by
  simp only [withBegun, Option.bind_eq_bind, Option.bind_eq_some_iff, Option.pure_def,
    Option.some.injEq] at h
  obtain ⟨builder, hbegun, rfl⟩ := h
  obtain ⟨hphase, hops, hparent⟩ := begun_eq_some hbegun
  exact BuilderEffect.begun builder rfl rfl hphase hops hparent hbegun

variable [DecidableEq V] [DecidableEq Hash] {services : GraphServices V T Hash Buffer}

theorem effect_of_step {world world' : World V T Hash} {action : Action V}
    (h : world.step services action = some world') : BuilderEffect world action world' := by
  have hsame : world.repo.store.Extends world.repo.store := ObjectStore.Extends.refl _
  cases action with
  | «open» writerId audited =>
      cases h
      exact BuilderEffect.quiet hsame rfl rfl
  | writer index writerId =>
      simp only [step, Option.bind_eq_bind, Option.bind_eq_some_iff, Option.pure_def,
        Option.some.injEq] at h
      obtain ⟨graph, -, rfl⟩ := h
      exact BuilderEffect.quiet hsame rfl rfl
  | createPatch index => exact effect_of_withBegun h
  | beginPatch index => exact effect_of_withBegun h
  | addNode index nodeId => exact effect_of_withBuilder (fun _ _ => PatchBuilderV2.edit_addNode) h
  | addEdge index edge => exact effect_of_withBuilder (fun _ _ => PatchBuilderV2.edit_addEdge) h
  | append index op => exact effect_of_withBuilder (fun _ _ => PatchBuilderV2.edit_append) h
  | commit index => exact effect_of_withBuilder (fun _ _ => PatchBuilderV2.edit_commit) h
  | abort index => exact effect_of_withBuilder (fun _ _ => PatchBuilderV2.edit_abort) h
  | persist index sha =>
      simp only [step, Option.bind_eq_bind, Option.bind_eq_some_iff, Option.pure_def,
        Option.some.injEq] at h
      obtain ⟨builder, hbuilder, ⟨repo', builder'⟩, hresult, rfl⟩ := h
      exact BuilderEffect.persisted index builder builder' ⟨sha, rfl⟩ hbuilder rfl
        (PatchBuilderV2.persisted_of_persist hresult)
  | notify index =>
      simp only [step, notify, Option.bind_eq_bind, Option.bind_eq_some_iff] at h
      obtain ⟨builder, hbuilder, h⟩ := h
      split at h
      · rename_i sha patch hphase
        simp only [Option.bind_eq_some_iff, Option.pure_def, Option.some.injEq] at h
        obtain ⟨graph, -, rfl⟩ := h
        exact BuilderEffect.notified index builder sha patch rfl hbuilder hphase rfl
      · cases h
  | loadMaterialized index collectReceipts =>
      simp only [step, Option.bind_eq_bind, Option.bind_eq_some_iff, Option.pure_def,
        Option.some.injEq] at h
      obtain ⟨graph, -, result, -, rfl⟩ := h
      exact BuilderEffect.quiet hsame rfl rfl
  | installMaterialized index =>
      simp only [step, Option.bind_eq_bind, Option.bind_eq_some_iff, Option.pure_def,
        Option.some.injEq] at h
      obtain ⟨materialization, -, graph, -, rfl⟩ := h
      exact BuilderEffect.quiet hsame rfl rfl
  | materializeWithCeiling index ceiling collectReceipts => exact effect_of_withGraph h
  | materializeAt index checkpointSha => exact effect_of_withGraph h
  | applySyncResponse index patches => exact effect_of_withGraph h
  | join index otherState => exact effect_of_withGraph h
  | runGC index => exact effect_of_withGraph h
  | readCheckpointFrontier index =>
      simp only [step, Option.bind_eq_bind, Option.bind_eq_some_iff, Option.pure_def,
        Option.some.injEq] at h
      obtain ⟨graph, -, rfl⟩ := h
      exact BuilderEffect.quiet hsame rfl rfl
  | commitCheckpoint index sha =>
      simp only [step, Option.bind_eq_bind, Option.bind_eq_some_iff] at h
      obtain ⟨draft, -, graph, -, h⟩ := h
      split at h
      · cases h
      · simp only [Option.bind_eq_some_iff, Option.pure_def, Option.some.injEq] at h
        obtain ⟨commit, -, written, hwritten, moved, hmoved, rfl⟩ := h
        obtain ⟨hput, hrefs, -⟩ := Repository.commitNode_eq_some hwritten
        obtain ⟨hstore, hrefs', -⟩ := Repository.updateCheckpointRef_eq_some hmoved
        refine BuilderEffect.quiet ?_ (hrefs'.trans hrefs) rfl
        show moved.store.Extends _
        rw [hstore]
        exact (ObjectStore.put_eq_some hput).1
  | remoteCommit sha commit =>
      simp only [step, Option.bind_eq_bind, Option.bind_eq_some_iff, Option.pure_def,
        Option.some.injEq] at h
      obtain ⟨written, hwritten, rfl⟩ := h
      obtain ⟨hput, hrefs, -⟩ := Repository.commitNode_eq_some hwritten
      exact BuilderEffect.quiet (ObjectStore.put_eq_some hput).1 hrefs rfl

end World

/-! ### What every builder holds -/

/-- The patch holds the operations of the builder, as they are stored. -/
def PatchBuilderV2.Makes (builder : PatchBuilderV2 V) (patch : PatchV2 V) : Prop :=
  patch.ops = (builder.ops.map lowerCanonicalOp).map builder.codec.stored ∧ patch.writer = builder.writerId

/-- What a builder has got ready in the course of its `commit()`. -/
def PatchBuilderV2.Making (store : ObjectStore V) (builder : PatchBuilderV2 V) : Prop :=
  match builder.phase with
  | .showingNode tip => builder.expectedParentSha = some tip
  | .writingBlob parentCommit patch | .writingTree parentCommit patch
  | .committingNode parentCommit patch =>
      parentCommit = builder.expectedParentSha ∧ builder.Makes (builder.storedPatch patch)
  | .updatingRef sha patch | .notifying sha patch =>
      store.get sha = some ⟨builder.expectedParentSha.toList, .patch (builder.storedPatch patch)⟩ ∧
        builder.Makes (builder.storedPatch patch)
  | _ => True

namespace PatchBuilderV2

theorem Making.of_extends {store store' : ObjectStore V} {builder : PatchBuilderV2 V}
    (h : builder.Making store) (hstore : store'.Extends store) : builder.Making store' := by
  unfold Making at h ⊢
  cases hphase : builder.phase <;> simp only [hphase] at h ⊢
  case updatingRef sha patch => exact ⟨hstore.get h.1, h.2⟩
  case notifying sha patch => exact ⟨hstore.get h.1, h.2⟩
  all_goals exact h

theorem Edit.making {store : ObjectStore V} {builder builder' : PatchBuilderV2 V}
    (h : builder.Edit builder') : builder'.Making store := by
  cases h with
  | dot op hop vv dot hphase hdot => simp [Making, hphase]
  | append op hphase hop => simp [Making, hphase]
  | commit hphase => trivial
  | abort hphase hphase' => trivial

theorem Persisted.making {repo repo' : Repository V} {builder builder' : PatchBuilderV2 V}
    (hpersisted : Persisted repo builder repo' builder') (h : builder.Making repo.store) :
    builder'.Making repo'.store := by
  unfold Making at h
  cases hpersisted with
  | conflict hphase => trivial
  | showing tip hparent hphase => exact hparent
  | patchFailed hphase hphase' => trivial
  | patchRoot patch hparent hphase hpatch =>
      obtain ⟨hwriter, -, hops⟩ := toPatch_eq_ok hpatch
      exact ⟨hparent.symm, congrArg _ hops, hwriter⟩
  | patchOn tip commit lamport patch hphase hcommit hlamport hraised hpatch =>
      obtain ⟨hwriter, -, hops⟩ := toPatch_eq_ok hpatch
      rw [hphase] at h
      exact ⟨h.symm, congrArg _ hops, hwriter⟩
  | blob parentCommit patch hphase =>
      rw [hphase] at h
      exact h
  | tree parentCommit patch hphase =>
      rw [hphase] at h
      exact h
  | node parentCommit patch sha repo' hphase hstore hrefs hget hnew =>
      rw [hphase] at h
      rw [h.1] at hget
      exact ⟨hget, h.2⟩
  | ref sha patch repo' hphase hstore hrefs =>
      rw [hphase] at h
      rw [hstore]
      exact h

end PatchBuilderV2

/-- The builders expect commits that exist and have made what they are about to write. -/
structure BuildersOk (world : World V T Hash) : Prop where
  parents : ∀ builder ∈ world.builders, ∀ tip, builder.expectedParentSha = some tip →
    tip ∈ world.repo.store.shas
  making : ∀ builder ∈ world.builders, builder.Making world.repo.store

theorem buildersOk_of_nil {world : World V T Hash} (h : world.builders = []) : BuildersOk world :=
  ⟨by simp [h], by simp [h]⟩

theorem BuildersOk.replace {world world' : World V T Hash} (h : BuildersOk world)
    (hstore : world'.repo.store.Extends world.repo.store)
    {index : Nat} {builder builder' : PatchBuilderV2 V} (hbuilder : world.builders[index]? = some builder)
    (hbuilders : world'.builders = world.builders.set index builder')
    (hparent : builder'.expectedParentSha = builder.expectedParentSha)
    (hmaking : builder'.Making world'.repo.store) : BuildersOk world' where
  parents other hother tip htip := by
    rw [hbuilders] at hother
    rcases Lists.mem_of_mem_set hbuilder hother with rfl | hmem
    · rw [hparent] at htip
      exact hstore.mem_shas (h.parents builder (List.mem_of_getElem? hbuilder) tip htip)
    · exact hstore.mem_shas (h.parents other hmem tip htip)
  making other hother := by
    rw [hbuilders] at hother
    rcases Lists.mem_of_mem_set hbuilder hother with rfl | hmem
    · exact hmaking
    · exact (h.making other hmem).of_extends hstore

theorem buildersOk_step [DecidableEq V] [DecidableEq Hash] {services : GraphServices V T Hash Buffer}
    {world world' : World V T Hash} {action : Action V} (h : BuildersOk world)
    (hstep : world.step services action = some world') : BuildersOk world' := by
  cases World.effect_of_step hstep with
  | quiet hstore hrefs hbuilders =>
      refine ⟨fun builder hmem tip htip => ?_, fun builder hmem => ?_⟩ <;> rw [hbuilders] at hmem
      · exact hstore.mem_shas (h.parents builder hmem tip htip)
      · exact (h.making builder hmem).of_extends hstore
  | begun builder hrepo hbuilders hphase hops hparent haction =>
      refine ⟨fun other hmem tip htip => ?_, fun other hmem => ?_⟩ <;> rw [hbuilders] at hmem <;>
        rw [hrepo] <;> rcases List.mem_append.mp hmem with hold | hnew
      · exact h.parents other hold tip htip
      · rw [List.mem_singleton.mp hnew, hparent] at htip
        exact world.repo.refsExist _ tip htip
      · exact h.making other hold
      · rw [List.mem_singleton.mp hnew]
        simp [PatchBuilderV2.Making, hphase]
  | edited index builder builder' hrepo hbuilder hbuilders hedit =>
      refine h.replace ?_ hbuilder hbuilders hedit.frame.2 hedit.making
      rw [hrepo]
      exact ObjectStore.Extends.refl _
  | persisted index builder builder' haction hbuilder hbuilders hpersisted =>
      exact h.replace hpersisted.extends hbuilder hbuilders hpersisted.frame.2.1
        (hpersisted.making (h.making builder (List.mem_of_getElem? hbuilder)))
  | notified index builder sha patch hrepo hbuilder hphase hbuilders =>
      refine h.replace ?_ hbuilder hbuilders rfl trivial
      rw [hrepo]
      exact ObjectStore.Extends.refl _

end GitWarp
