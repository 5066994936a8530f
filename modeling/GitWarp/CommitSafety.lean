import GitWarp.CommitSteps

/-! Commits to a writer's ref. `commit()` compares the ref with the parent it expects at its start and writes
the ref at its end, without a comparison. As long as the ref still is the expected parent when it is
written, every commit extends the chain: nothing that was committed is lost, the chain stays linear and its
ticks increase. -/

namespace GitWarp
open Js ExceptLoops

variable {V T Hash Buffer : Type}

/-- `sha` is `tip` or one of its ancestors. -/
inductive ObjectStore.Reaches (store : ObjectStore V) : Sha → Sha → Prop
  | refl (sha : Sha) : Reaches store sha sha
  | parent {tip parent sha : Sha} {commit : Commit V} (hget : store.get tip = some commit)
      (hparent : parent ∈ commit.parents) (hrest : Reaches store parent sha) : Reaches store tip sha

/-- The commits of a writer form a line of patches, with increasing ticks from the root to the tip. -/
structure Repository.OrderedChain (repo : Repository V) (writerId : JsString) : Prop where
  linear : ∀ tip, repo.refs.get writerId = some tip → ∀ sha commit, repo.store.Reaches tip sha →
    repo.store.get sha = some commit →
    commit.parents.length ≤ 1 ∧ ∃ patch, commit.content = .patch patch
  ticks : ((repo.loadWriterPatches writerId none).map fun entry => entry.patch.lamport).Pairwise (· < ·)

/-- Nothing that was committed is lost. -/
structure CommitsKept (world : World V T Hash) : Prop where
  ordered : ∀ writerId, world.repo.OrderedChain writerId
  reachable : ∀ builder ∈ world.builders, ∀ sha, builder.phase = .committed sha →
    ∃ tip, world.repo.refs.get builder.writerId = some tip ∧ world.repo.store.Reaches tip sha
  once : ∀ builder ∈ world.builders, ∀ sha, builder.phase = .committed sha →
    (∃ patch, builder.Makes patch ∧ ⟨patch, sha⟩ ∈ world.repo.loadWriterPatches builder.writerId none) ∧
      ((world.repo.loadWriterPatches builder.writerId none).map PatchEntry.sha).count sha = 1
  distinct : ∀ (i j : Nat) builder builder' sha, world.builders[i]? = some builder →
    world.builders[j]? = some builder' → builder.writerId = builder'.writerId →
    builder.phase = .committed sha → builder'.phase = .committed sha → i = j

/-- When a commit writes its ref, the ref is the parent that it expects. -/
def RefUnmoved (world : World V T Hash) (action : Action V) : Prop :=
  ∀ index ∈ action.persisting, ∀ builder ∈ world.builders[index]?, builder.isUpdatingRef = true →
    world.repo.readRef builder.writerId = builder.expectedParentSha

instance (world : World V T Hash) (action : Action V) : Decidable (RefUnmoved world action) :=
  inferInstanceAs (Decidable (∀ index ∈ action.persisting, ∀ builder ∈ world.builders[index]?, _ → _))

/-! ### Chains -/

theorem ObjectStore.reaches_of_mem_walk {store : ObjectStore V} {stopAtSha : Option Sha} {tip : Sha}
    (htip : tip ∈ store.shas) {entry : PatchEntry V} (hentry : entry ∈ store.walk stopAtSha tip) :
    store.Reaches tip entry.sha := by
  revert hentry
  refine ObjectStore.parents_induction
    (P := fun tip => entry ∈ store.walk stopAtSha tip → store.Reaches tip entry.sha)
    (fun sha commit hget ih hentry => ?_) tip htip
  rw [ObjectStore.walk_eq hget] at hentry
  split at hentry
  · cases hentry
  · obtain ⟨parents, content⟩ := commit
    cases content with
    | patch patch =>
        rcases List.mem_append.mp hentry with hmem | hlast
        · cases parents with
          | nil => cases hmem
          | cons parent rest =>
              have hparent : parent ∈ parent :: rest := List.mem_cons_self ..
              exact Reaches.parent hget hparent (ih parent hparent hmem)
        · rw [List.mem_singleton.mp hlast]
          exact Reaches.refl sha
    | _ => cases hentry

/-- Reaching from an older commit does not see newer objects. -/
theorem ObjectStore.Extends.reaches {store store' : ObjectStore V} (h : store'.Extends store) {tip sha : Sha}
    (htip : tip ∈ store.shas) (hreaches : store'.Reaches tip sha) :
    store.Reaches tip sha ∧ sha ∈ store.shas := by
  induction hreaches with
  | refl sha => exact ⟨Reaches.refl sha, htip⟩
  | parent hget hparent _ ih =>
      obtain ⟨commit', hget'⟩ := ObjectStore.exists_get htip
      have hsame := h.get hget'
      rw [hget, Option.some.injEq] at hsame
      subst hsame
      obtain ⟨hrest, hmem⟩ := ih (ObjectStore.mem_shas_of_parent hget' hparent)
      exact ⟨Reaches.parent hget' hparent hrest, hmem⟩

theorem ObjectStore.Extends.get_eq {store store' : ObjectStore V} (h : store'.Extends store) {sha : Sha}
    (hsha : sha ∈ store.shas) : store'.get sha = store.get sha := by
  obtain ⟨commit, hget⟩ := ObjectStore.exists_get hsha
  rw [hget, h.get hget]

theorem Repository.loadWriterPatches_of_extends {repo repo' : Repository V}
    (hstore : repo'.store.Extends repo.store) {writerId : JsString}
    (href : repo'.refs.get writerId = repo.refs.get writerId) (stopAtSha : Option Sha) :
    repo'.loadWriterPatches writerId stopAtSha = repo.loadWriterPatches writerId stopAtSha := by
  unfold loadWriterPatches readRef
  rw [href]
  cases htip : repo.refs.get writerId with
  | none => rfl
  | some tip => exact hstore.walk stopAtSha (repo.refsExist writerId tip htip)

theorem Repository.OrderedChain.of_extends {repo repo' : Repository V} {writerId : JsString}
    (h : repo.OrderedChain writerId) (hstore : repo'.store.Extends repo.store)
    (href : repo'.refs.get writerId = repo.refs.get writerId) : repo'.OrderedChain writerId where
  linear tip htip sha commit hreaches hget := by
    rw [href] at htip
    obtain ⟨hreaches', hsha⟩ := hstore.reaches (repo.refsExist writerId tip htip) hreaches
    rw [hstore.get_eq hsha] at hget
    exact h.linear tip htip sha commit hreaches' hget
  ticks := by
    rw [Repository.loadWriterPatches_of_extends hstore href]
    exact h.ticks

/-- The shas of an ordered chain are distinct. -/
theorem Repository.OrderedChain.nodup {repo : Repository V} {writerId : JsString}
    (h : repo.OrderedChain writerId) :
    ((repo.loadWriterPatches writerId none).map PatchEntry.sha).Nodup := by
  have hticks := List.pairwise_map.mp h.ticks
  refine List.pairwise_map.mpr (hticks.imp_of_mem fun {a b} ha hb hlt hsha => ?_)
  have hstored : ∀ entry ∈ repo.loadWriterPatches writerId none,
      ∃ parents, repo.store.get entry.sha = some ⟨parents, .patch entry.patch⟩ := by
    intro entry hentry
    unfold loadWriterPatches readRef at hentry
    cases htip : repo.refs.get writerId with
    | none => rw [htip] at hentry; cases hentry
    | some tip =>
        rw [htip] at hentry
        exact ObjectStore.get_of_mem_walk (repo.refsExist writerId tip htip) hentry
  obtain ⟨parents, hgetA⟩ := hstored a ha
  obtain ⟨parents', hgetB⟩ := hstored b hb
  rw [hsha, hgetB] at hgetA
  injection hgetA with hcommits
  injection hcommits with _ hcontents
  injection hcontents with hpatches
  rw [hpatches] at hlt
  exact lt_irrefl _ hlt

/-- The tick of the patch is above that of the patch it goes on top of. -/
def Above (store : ObjectStore V) (parentCommit : Option Sha) (patch : PatchV2 V) : Prop :=
  ∀ tip commit below, parentCommit = some tip → store.get tip = some commit →
    commit.content = .patch below → below.lamport < patch.lamport

section Extension

variable {repo repo' : Repository V} {writerId : JsString} {sha : Sha} {patch : PatchV2 V}
  (hcommit : repo.store.get sha = some ⟨(repo.readRef writerId).toList, .patch patch⟩)
  (hstore : repo'.store = repo.store) (hrefs : repo'.refs = repo.refs.set writerId sha)

include hcommit hstore hrefs

/-- Writing the ref of a commit on top of the old tip extends the chain by one patch. -/
theorem loadWriterPatches_extension :
    repo'.loadWriterPatches writerId none = repo.loadWriterPatches writerId none ++ [⟨patch, sha⟩] := by
  have hread : repo'.readRef writerId = some sha := by
    unfold Repository.readRef
    rw [hrefs, JsMap.get_set_self]
  unfold Repository.loadWriterPatches
  rw [hread, hstore]
  show repo.store.walk none sha = _
  rw [ObjectStore.walk_eq hcommit, if_neg (Option.some_ne_none sha)]
  cases repo.readRef writerId <;> rfl

omit hstore hrefs in
theorem not_mem_before_extension {entry : PatchEntry V}
    (hentry : entry ∈ repo.loadWriterPatches writerId none) : entry.sha ≠ sha := by
  unfold Repository.loadWriterPatches at hentry
  cases htip : repo.readRef writerId with
  | none => rw [htip] at hentry; cases hentry
  | some tip =>
      rw [htip] at hcommit hentry
      exact ObjectStore.not_mem_walk_parent hcommit (List.mem_singleton_self tip) hentry

theorem OrderedChain.extension (h : repo.OrderedChain writerId)
    (habove : Above repo.store (repo.readRef writerId) patch) : repo'.OrderedChain writerId where
  linear tip htip sha' commit hreaches hget := by
    rw [hrefs, JsMap.get_set_self, Option.some.injEq] at htip
    subst htip
    rw [hstore] at hreaches hget
    cases hreaches with
    | refl =>
        rw [hcommit, Option.some.injEq] at hget
        subst hget
        refine ⟨?_, patch, rfl⟩
        cases repo.readRef writerId <;> simp
    | parent hget' hparent hrest =>
        rw [hcommit, Option.some.injEq] at hget'
        subst hget'
        rw [Option.mem_toList] at hparent
        exact h.linear _ hparent sha' commit hrest hget
  ticks := by
    rw [loadWriterPatches_extension hcommit hstore hrefs, List.map_append, List.pairwise_append]
    refine ⟨h.ticks, List.pairwise_singleton _ _, ?_⟩
    simp only [List.map_singleton, List.mem_singleton, forall_eq]
    intro tick htick
    cases htip : repo.readRef writerId with
    | none =>
        unfold Repository.loadWriterPatches at htick
        rw [htip] at htick
        cases htick
    | some tip =>
        obtain ⟨commit, hget⟩ := ObjectStore.exists_get (repo.refsExist writerId tip htip)
        obtain ⟨-, below, hbelow⟩ := h.linear tip htip tip commit (ObjectStore.Reaches.refl tip) hget
        have hlast := habove tip commit below htip hget hbelow
        -- the tip is the last patch of the chain, so its tick bounds the others
        have hchain : ∃ init, repo.loadWriterPatches writerId none = init ++ [⟨below, tip⟩] := by
          unfold Repository.loadWriterPatches
          rw [htip]
          show ∃ init, repo.store.walk none tip = _
          rw [ObjectStore.walk_eq hget, if_neg (Option.some_ne_none tip), hbelow]
          exact ⟨_, rfl⟩
        obtain ⟨init, hinit⟩ := hchain
        have hticks := h.ticks
        rw [hinit, List.map_append, List.pairwise_append] at hticks
        rw [hinit, List.map_append, List.mem_append] at htick
        rcases htick with hmem | hmem
        · exact (hticks.2.2 tick hmem below.lamport (List.mem_singleton_self _)).trans hlast
        · rw [List.map_singleton, List.mem_singleton] at hmem
          exact hmem ▸ hlast

end Extension

/-! ### The invariant -/

/-- The patch of the builder lies on the chain of its writer, in the commit `sha`. -/
def LandedAt (repo : Repository V) (builder : PatchBuilderV2 V) (sha : Sha) : Prop :=
  ∃ patch, builder.Makes patch ∧ ⟨patch, sha⟩ ∈ repo.loadWriterPatches builder.writerId none

/-- A patch that is about to be written is above its parent; one that has been written has landed. -/
def PhaseOk (repo : Repository V) (builder : PatchBuilderV2 V) : Prop :=
  match builder.phase with
  | .building | .readingRef | .showingNode _ => True
  | .writingBlob _ patch | .writingTree _ patch | .committingNode _ patch | .updatingRef _ patch =>
      Above repo.store builder.expectedParentSha patch
  | .notifying sha _ | .committed sha => LandedAt repo builder sha

/-- The commit whose sha the ref has been set to. -/
def PatchBuilderV2.landedSha (builder : PatchBuilderV2 V) : Option Sha :=
  match builder.phase with
  | .notifying sha _ | .committed sha => some sha
  | _ => none

/-- The writer and the sha of a builder that has written its ref. -/
def PatchBuilderV2.landing (builder : PatchBuilderV2 V) : Option (JsString × Sha) :=
  builder.landedSha.map fun sha => (builder.writerId, sha)

/-- A builder that has not written its ref. -/
theorem PatchBuilderV2.landing_eq_none {builder : PatchBuilderV2 V} {phase : CommitPhase V}
    (hphase : builder.phase = phase) (hnotifying : ∀ sha patch, phase ≠ .notifying sha patch)
    (hcommitted : ∀ sha, phase ≠ .committed sha) : builder.landing = none := by
  unfold PatchBuilderV2.landing PatchBuilderV2.landedSha
  rw [hphase]
  cases phase with
  | notifying sha patch => exact absurd rfl (hnotifying sha patch)
  | committed sha => exact absurd rfl (hcommitted sha)
  | _ => rfl

structure CommitInvariant (world : World V T Hash) : Prop extends BuildersOk world where
  ordered : ∀ writerId, world.repo.OrderedChain writerId
  phases : ∀ builder ∈ world.builders, PhaseOk world.repo builder
  landings : (world.builders.filterMap PatchBuilderV2.landing).Nodup

theorem Above.of_extends {store store' : ObjectStore V} {parentCommit : Option Sha} {patch : PatchV2 V}
    (h : Above store parentCommit patch) (hstore : store'.Extends store)
    (hparent : ∀ tip, parentCommit = some tip → tip ∈ store.shas) : Above store' parentCommit patch := by
  intro tip commit below htip hget hbelow
  rw [hstore.get_eq (hparent tip htip)] at hget
  exact h tip commit below htip hget hbelow

/-- A builder stays right while the store and the chains grow. -/
theorem PhaseOk.mono {repo repo' : Repository V} {builder : PatchBuilderV2 V} (h : PhaseOk repo builder)
    (hstore : repo'.store.Extends repo.store)
    (hchain : ∀ entry ∈ repo.loadWriterPatches builder.writerId none,
      entry ∈ repo'.loadWriterPatches builder.writerId none)
    (hparent : ∀ tip, builder.expectedParentSha = some tip → tip ∈ repo.store.shas) :
    PhaseOk repo' builder := by
  unfold PhaseOk at h ⊢
  cases hphase : builder.phase <;> simp only [hphase] at h ⊢
  case writingBlob parentCommit patch => exact h.of_extends hstore hparent
  case writingTree parentCommit patch => exact h.of_extends hstore hparent
  case committingNode parentCommit patch => exact h.of_extends hstore hparent
  case updatingRef sha patch => exact h.of_extends hstore hparent
  case notifying sha patch =>
    obtain ⟨made, hmade, hmem⟩ := h
    exact ⟨made, hmade, hchain _ hmem⟩
  case committed sha =>
    obtain ⟨made, hmade, hmem⟩ := h
    exact ⟨made, hmade, hchain _ hmem⟩

theorem phaseOk_edit {repo : Repository V} {builder builder' : PatchBuilderV2 V}
    (h : builder.Edit builder') : PhaseOk repo builder' ∧ builder'.landing = none := by
  cases h with
  | dot op hop vv dot hphase hdot => simp [PhaseOk, PatchBuilderV2.landing, PatchBuilderV2.landedSha, hphase]
  | append op hphase hop => simp [PhaseOk, PatchBuilderV2.landing, PatchBuilderV2.landedSha, hphase]
  | commit hphase => simp [PhaseOk, PatchBuilderV2.landing, PatchBuilderV2.landedSha]
  | abort hphase hphase' => simp [PhaseOk, PatchBuilderV2.landing, PatchBuilderV2.landedSha]

theorem Edit.landing_before {builder builder' : PatchBuilderV2 V} (h : builder.Edit builder') :
    builder.landing = none := by
  cases h with
  | dot op hop vv dot hphase hdot => simp [PatchBuilderV2.landing, PatchBuilderV2.landedSha, hphase]
  | append op hphase hop => simp [PatchBuilderV2.landing, PatchBuilderV2.landedSha, hphase]
  | commit hphase => simp [PatchBuilderV2.landing, PatchBuilderV2.landedSha, hphase]
  | abort hphase hphase' =>
      unfold PatchBuilderV2.landing PatchBuilderV2.landedSha
      split
      · rename_i sha patch heq
        exact absurd heq (hphase sha patch)
      · rename_i sha heq
        exact absurd heq (hphase' sha)
      · rfl

/-- Replacing one builder, while the store and the chains grow. -/
theorem CommitInvariant.replace {world world' : World V T Hash} (h : CommitInvariant world)
    (hbuildersOk : BuildersOk world') (hstore : world'.repo.store.Extends world.repo.store)
    (hordered : ∀ writerId, world'.repo.OrderedChain writerId)
    (hchain : ∀ writerId, ∀ entry ∈ world.repo.loadWriterPatches writerId none,
      entry ∈ world'.repo.loadWriterPatches writerId none)
    {index : Nat} {builder builder' : PatchBuilderV2 V} (hbuilder : world.builders[index]? = some builder)
    (hbuilders : world'.builders = world.builders.set index builder') (hphase : PhaseOk world'.repo builder')
    (hlandings : ((world.builders.set index builder').filterMap PatchBuilderV2.landing).Nodup) :
    CommitInvariant world' where
  toBuildersOk := hbuildersOk
  ordered := hordered
  phases other hother := by
    rw [hbuilders] at hother
    rcases Lists.mem_of_mem_set hbuilder hother with rfl | hmem
    · exact hphase
    · exact (h.phases other hmem).mono hstore (hchain other.writerId) (h.parents other hmem)
  landings := by
    rw [hbuilders]
    exact hlandings

section Persisting

variable {world world' : World V T Hash} (h : CommitInvariant world) (hbuildersOk : BuildersOk world')
  {index : Nat} {builder builder' : PatchBuilderV2 V} (hbuilder : world.builders[index]? = some builder)
  (hbuilders : world'.builders = world.builders.set index builder')

include h hbuildersOk hbuilder hbuilders

/-- A call that only moves the builder on. -/
theorem CommitInvariant.movedOn (hrepo : world'.repo = world.repo) (hphase : PhaseOk world.repo builder')
    (hlanding : builder'.landing = builder.landing) : CommitInvariant world' := by
  refine h.replace hbuildersOk ?_ ?_ ?_ hbuilder hbuilders ?_ ?_
  · rw [hrepo]
    exact ObjectStore.Extends.refl _
  · rw [hrepo]
    exact h.ordered
  · rw [hrepo]
    exact fun _ _ hentry => hentry
  · rw [hrepo]
    exact hphase
  · rw [Lists.filterMap_set_same hbuilder hlanding]
    exact h.landings

/-- The patch of a builder that has read its tip is above it. -/
theorem CommitInvariant.patchMadeOn {tip : Sha} {commit : Commit V} {lamport : Nat} {patch : PatchV2 V}
    (hphase : builder.phase = .showingNode tip) (hcommit : world.repo.store.get tip = some commit)
    (hlamport : ∀ below, commit.content = .patch below → below.lamport < lamport)
    (hpatch : builder.toPatch lamport = .ok patch) (hrepo : world'.repo = world.repo)
    (hmade : builder' = { builder with phase := .writingBlob (some tip) patch }) : CommitInvariant world' := by
  obtain ⟨-, htick, -⟩ := PatchBuilderV2.toPatch_eq_ok hpatch
  have hparent : builder.expectedParentSha = some tip := by
    have hmaking := h.making builder (List.mem_of_getElem? hbuilder)
    unfold PatchBuilderV2.Making at hmaking
    rw [hphase] at hmaking
    exact hmaking
  subst hmade
  refine h.movedOn hbuildersOk hbuilder hbuilders hrepo ?_ (PatchBuilderV2.landing_eq_none hphase nofun nofun).symm
  intro tip' commit' below htip hget hbelow
  rw [hparent, Option.some.injEq] at htip
  rw [← htip, hcommit, Option.some.injEq] at hget
  rw [htick]
  exact hlamport below (hget ▸ hbelow)

/-- The commit object is written. -/
theorem CommitInvariant.nodeCommitted {parentCommit : Option Sha} {patch : PatchV2 V} {sha : Sha}
    (hphase : builder.phase = .committingNode parentCommit patch)
    (hstore : world'.repo.store.Extends world.repo.store) (hrefs : world'.repo.refs = world.repo.refs)
    (hmade : builder' = { builder with phase := .updatingRef sha patch }) : CommitInvariant world' := by
  have hmem := List.mem_of_getElem? hbuilder
  have hok := h.phases builder hmem
  unfold PhaseOk at hok
  rw [hphase] at hok
  have href : ∀ writerId, world'.repo.refs.get writerId = world.repo.refs.get writerId :=
    fun writerId => by rw [hrefs]
  subst hmade
  refine h.replace hbuildersOk hstore
    (fun writerId => (h.ordered writerId).of_extends hstore (href writerId))
    (fun writerId entry hentry => ?_) hbuilder hbuilders ?_ ?_
  · rw [Repository.loadWriterPatches_of_extends hstore (href writerId)]
    exact hentry
  · exact Above.of_extends hok hstore (h.parents builder hmem)
  · rw [Lists.filterMap_set_same hbuilder (PatchBuilderV2.landing_eq_none hphase nofun nofun).symm]
    exact h.landings

/-- The ref is written while it is the expected parent. -/
theorem CommitInvariant.refUpdated {patch : PatchV2 V} {sha : Sha}
    (hphase : builder.phase = .updatingRef sha patch) (hstore : world'.repo.store = world.repo.store)
    (hrefs : world'.repo.refs = world.repo.refs.set builder.writerId sha)
    (hread : world.repo.readRef builder.writerId = builder.expectedParentSha)
    (hmade : builder' = { builder with phase := .notifying sha patch }) : CommitInvariant world' := by
  have hmem := List.mem_of_getElem? hbuilder
  have hok := h.phases builder hmem
  have hmaking := h.making builder hmem
  unfold PhaseOk at hok
  unfold PatchBuilderV2.Making at hmaking
  rw [hphase] at hok hmaking
  obtain ⟨hcommit, hmakes⟩ := hmaking
  have habove : Above world.repo.store builder.expectedParentSha (builder.storedPatch patch) := hok
  rw [← hread] at hcommit habove
  have hchain := loadWriterPatches_extension hcommit hstore hrefs
  have hother : ∀ writerId, writerId ≠ builder.writerId →
      world'.repo.refs.get writerId = world.repo.refs.get writerId := by
    intro writerId hne
    rw [hrefs, JsMap.get_set_of_ne _ _ hne]
  have hlanded : LandedAt world'.repo { builder with phase := .notifying sha patch } sha := by
    refine ⟨builder.storedPatch patch, hmakes, ?_⟩
    show _ ∈ world'.repo.loadWriterPatches builder.writerId none
    rw [hchain]
    exact List.mem_append_right _ (List.mem_singleton_self _)
  have hextends : world'.repo.store.Extends world.repo.store := by
    rw [hstore]
    exact ObjectStore.Extends.refl _
  subst hmade
  refine h.replace hbuildersOk hextends (fun writerId => ?_) (fun writerId entry hentry => ?_) hbuilder
    hbuilders hlanded ?_
  · by_cases hwriter : writerId = builder.writerId
    · subst hwriter
      exact OrderedChain.extension hcommit hstore hrefs (h.ordered _) habove
    · exact (h.ordered writerId).of_extends hextends (hother writerId hwriter)
  · by_cases hwriter : writerId = builder.writerId
    · subst hwriter
      rw [hchain]
      exact List.mem_append_left _ hentry
    · rw [Repository.loadWriterPatches_of_extends hextends (hother writerId hwriter)]
      exact hentry
  · have hperm := Lists.filterMap_set_new (f := PatchBuilderV2.landing)
      (b := { builder with phase := .notifying sha patch }) hbuilder
      (PatchBuilderV2.landing_eq_none hphase nofun nofun) rfl
    refine hperm.nodup_iff.mpr (List.nodup_cons.mpr ⟨fun hmem' => ?_, h.landings⟩)
    -- another builder that landed this commit would have it below the new tip
    obtain ⟨other, hother, hlanding⟩ := List.mem_filterMap.mp hmem'
    obtain ⟨landed, hlanded', hpair⟩ := Option.map_eq_some_iff.mp hlanding
    obtain ⟨hwriter, rfl⟩ := Prod.mk.inj hpair
    have hotherOk := h.phases other hother
    have hlandedAt : LandedAt world.repo other landed := by
      unfold PhaseOk at hotherOk
      unfold PatchBuilderV2.landedSha at hlanded'
      cases hotherPhase : other.phase <;> simp only [hotherPhase] at hlanded' hotherOk <;>
        cases hlanded' <;> exact hotherOk
    obtain ⟨made, -, hmade⟩ := hlandedAt
    rw [hwriter] at hmade
    exact not_mem_before_extension hcommit hmade rfl

/-- A call of the persistence layer keeps the invariant if a ref is written only while it is the expected
parent. -/
theorem CommitInvariant.persisted (hpersisted : builder.Persisted world.repo world'.repo builder')
    (hunmoved : builder.isUpdatingRef = true →
      world.repo.readRef builder.writerId = builder.expectedParentSha) : CommitInvariant world' := by
  have hok := h.phases builder (List.mem_of_getElem? hbuilder)
  have hmoved := h.movedOn hbuildersOk hbuilder hbuilders
  generalize hrepo' : world'.repo = repo' at hpersisted
  cases hpersisted with
  | conflict hphase => exact hmoved hrepo' trivial (PatchBuilderV2.landing_eq_none hphase nofun nofun).symm
  | showing tip hparent hphase =>
      exact hmoved hrepo' trivial (PatchBuilderV2.landing_eq_none hphase nofun nofun).symm
  | patchFailed hphase hphase' =>
      exact hmoved hrepo' trivial (PatchBuilderV2.landing_eq_none rfl hphase hphase').symm
  | patchRoot patch hparent hphase hpatch =>
      refine hmoved hrepo' ?_ (PatchBuilderV2.landing_eq_none hphase nofun nofun).symm
      intro tip commit below htip
      rw [hparent] at htip
      cases htip
  | patchOn tip commit lamport patch hphase hcommit hlamport hraised hpatch =>
      exact h.patchMadeOn hbuildersOk hbuilder hbuilders hphase hcommit hlamport hpatch hrepo' rfl
  | blob parentCommit patch hphase =>
      unfold PhaseOk at hok
      rw [hphase] at hok
      exact hmoved hrepo' hok (PatchBuilderV2.landing_eq_none hphase nofun nofun).symm
  | tree parentCommit patch hphase =>
      unfold PhaseOk at hok
      rw [hphase] at hok
      exact hmoved hrepo' hok (PatchBuilderV2.landing_eq_none hphase nofun nofun).symm
  | node parentCommit patch sha repo' hphase hstore hrefs hget hnew =>
      subst hrepo'
      exact h.nodeCommitted hbuildersOk hbuilder hbuilders hphase hstore hrefs rfl
  | ref sha patch repo' hphase hstore hrefs =>
      subst hrepo'
      exact h.refUpdated hbuildersOk hbuilder hbuilders hphase hstore hrefs
        (hunmoved (by rw [PatchBuilderV2.isUpdatingRef, hphase])) rfl

end Persisting

variable [DecidableEq V] [DecidableEq Hash] {services : GraphServices V T Hash Buffer}

theorem commitInvariant_step {world world' : World V T Hash} {action : Action V}
    (h : CommitInvariant world) (hunmoved : RefUnmoved world action)
    (hstep : world.step services action = some world') : CommitInvariant world' := by
  have hbuildersOk := buildersOk_step h.toBuildersOk hstep
  cases World.effect_of_step hstep with
  | quiet hstore hrefs hbuilders =>
      have href : ∀ writerId, world'.repo.refs.get writerId = world.repo.refs.get writerId :=
        fun writerId => by rw [hrefs]
      refine ⟨hbuildersOk, fun writerId => (h.ordered writerId).of_extends hstore (href writerId),
        fun builder hmem => ?_, ?_⟩
      · rw [hbuilders] at hmem
        refine (h.phases builder hmem).mono hstore (fun entry hentry => ?_) (h.parents builder hmem)
        rw [Repository.loadWriterPatches_of_extends hstore (href _)]
        exact hentry
      · rw [hbuilders]
        exact h.landings
  | begun builder hrepo hbuilders hphase hops hparent haction =>
      have hlanding : builder.landing = none := by
        simp [PatchBuilderV2.landing, PatchBuilderV2.landedSha, hphase]
      refine ⟨hbuildersOk, by rw [hrepo]; exact h.ordered, fun other hmem => ?_, ?_⟩
      · rw [hrepo]
        rw [hbuilders] at hmem
        rcases List.mem_append.mp hmem with hold | hnew
        · exact h.phases other hold
        · rw [List.mem_singleton.mp hnew]
          simp [PhaseOk, hphase]
      · rw [hbuilders, List.filterMap_append, List.filterMap_cons_none hlanding, List.filterMap_nil,
          List.append_nil]
        exact h.landings
  | edited index builder builder' hrepo hbuilder hbuilders hedit =>
      obtain ⟨hphase, hlanding⟩ : PhaseOk world'.repo builder' ∧ _ := phaseOk_edit hedit
      refine h.replace hbuildersOk ?_ ?_ ?_ hbuilder hbuilders hphase ?_
      · rw [hrepo]
        exact ObjectStore.Extends.refl _
      · rw [hrepo]
        exact h.ordered
      · rw [hrepo]
        exact fun _ _ hentry => hentry
      · rw [Lists.filterMap_set_same hbuilder (hlanding.trans (Edit.landing_before hedit).symm)]
        exact h.landings
  | persisted index builder builder' haction hbuilder hbuilders hpersisted =>
      obtain ⟨sha, rfl⟩ := haction
      exact h.persisted hbuildersOk hbuilder hbuilders hpersisted (hunmoved index rfl builder hbuilder)
  | notified index builder sha patch hrepo hbuilder hphase hbuilders =>
      have hok := h.phases builder (List.mem_of_getElem? hbuilder)
      unfold PhaseOk at hok
      rw [hphase] at hok
      have hlanding : builder.landing = some (builder.writerId, sha) := by
        simp [PatchBuilderV2.landing, PatchBuilderV2.landedSha, hphase]
      refine h.replace hbuildersOk ?_ ?_ ?_ hbuilder hbuilders ?_ ?_
      · rw [hrepo]
        exact ObjectStore.Extends.refl _
      · rw [hrepo]
        exact h.ordered
      · rw [hrepo]
        exact fun _ _ hentry => hentry
      · rw [hrepo]
        exact hok
      · rw [Lists.filterMap_set_same hbuilder hlanding.symm]
        exact h.landings

/-! ### The result -/

omit [DecidableEq V] [DecidableEq Hash] in
theorem CommitInvariant.commitsKept {world : World V T Hash} (h : CommitInvariant world) :
    CommitsKept world where
  ordered := h.ordered
  reachable builder hbuilder sha hphase := by
    have hok := h.phases builder hbuilder
    unfold PhaseOk at hok
    rw [hphase] at hok
    obtain ⟨patch, -, hmem⟩ := hok
    unfold Repository.loadWriterPatches Repository.readRef at hmem
    cases htip : world.repo.refs.get builder.writerId with
    | none => rw [htip] at hmem; cases hmem
    | some tip =>
        rw [htip] at hmem
        exact ⟨tip, rfl, ObjectStore.reaches_of_mem_walk (world.repo.refsExist _ tip htip) hmem⟩
  once builder hbuilder sha hphase := by
    have hok := h.phases builder hbuilder
    unfold PhaseOk at hok
    rw [hphase] at hok
    refine ⟨hok, ?_⟩
    obtain ⟨patch, -, hmem⟩ := hok
    exact List.count_eq_one_of_mem (h.ordered builder.writerId).nodup (List.mem_map_of_mem hmem)
  distinct i j builder builder' sha hi hj hwriter hphase hphase' := by
    have hlanding : builder.landing = some (builder.writerId, sha) := by
      simp [PatchBuilderV2.landing, PatchBuilderV2.landedSha, hphase]
    have hlanding' : builder'.landing = some (builder.writerId, sha) := by
      simp [PatchBuilderV2.landing, PatchBuilderV2.landedSha, hphase', hwriter]
    exact Lists.place_of_filterMap_nodup h.landings hi hj hlanding hlanding'

theorem commitInvariant_of_run {start last : World V T Hash} {actions : List (Action V)}
    (hbuilders : start.builders = []) (hordered : ∀ writerId, start.repo.OrderedChain writerId)
    (hunmoved : Runs.Meets (World.step services) RefUnmoved start actions)
    (hrun : Runs.run (World.step services) start actions = some last) : CommitInvariant last := by
  have hstart : CommitInvariant start :=
    ⟨buildersOk_of_nil hbuilders, hordered, by simp [hbuilders], by simp [hbuilders]⟩
  exact Runs.invariant_of_run (fun _ _ _ => commitInvariant_step) hstart hunmoved hrun

/-- In every run that starts without builders and with ordered chains, and that writes a ref only while it
is the parent the commit expects, nothing that was committed is lost. -/
theorem commitsKept_of_run (start last : World V T Hash) (actions : List (Action V))
    (hbuilders : start.builders = []) (hordered : ∀ writerId, start.repo.OrderedChain writerId)
    (hunmoved : Runs.Meets (World.step services) RefUnmoved start actions)
    (hrun : Runs.run (World.step services) start actions = some last) : CommitsKept last :=
  (commitInvariant_of_run hbuilders hordered hunmoved hrun).commitsKept

omit [DecidableEq V] in
theorem phase_of_committedSha {builder : PatchBuilderV2 V} {sha : Sha}
    (h : builder.committedSha = some sha) : builder.phase = .committed sha := by
  unfold PatchBuilderV2.committedSha at h
  split at h
  · rename_i sha' hphase
    cases h
    exact hphase
  · cases h

/-! Two builders of one instance that both read the ref before either of them writes it both succeed, and
the first commit is gone. -/

/-- The second builder reads the ref before the first one writes it. -/
def lostCommit : List (Action Nat) :=
  [.open (js "a") false, .createPatch 0, .createPatch 0, .addNode 0 (js "n"), .addNode 1 (js "m"),
    .commit 0, .commit 1, .persist 1 (js "bbbb")] ++ persistAll 0 (js "aaaa") ++
    [.notify 0, .persist 1 (js "bbbb"), .persist 1 (js "bbbb"), .persist 1 (js "bbbb"),
      .persist 1 (js "bbbb"), .notify 1]

theorem not_commitsKept_lostCommit :
    ∃ last, Runs.run (World.step plainServices) World.empty lostCommit = some last ∧
      ¬ CommitsKept last := by
  have hrun : (Runs.run (World.step plainServices) World.empty lostCommit).map (fun last =>
      (last.builders.map fun builder => (builder.writerId, builder.committedSha),
        (last.repo.loadWriterPatches (js "a") none).map PatchEntry.sha)) =
      some ([(js "a", some (js "aaaa")), (js "a", some (js "bbbb"))], [js "bbbb"]) := by decide +kernel
  obtain ⟨last, hlast, hshape⟩ := Option.map_eq_some_iff.mp hrun
  obtain ⟨hbuilders, hchain⟩ := Prod.mk.inj hshape
  refine ⟨last, hlast, fun hkept => ?_⟩
  have hfirst : (js "a", some (js "aaaa")) ∈
      last.builders.map fun builder => (builder.writerId, builder.committedSha) := by
    rw [hbuilders]
    exact List.mem_cons_self ..
  obtain ⟨builder, hmem, hpair⟩ := List.mem_map.mp hfirst
  obtain ⟨hwriter, hsha⟩ := Prod.mk.inj hpair
  have hcount := (hkept.once builder hmem (js "aaaa") (phase_of_committedSha hsha)).2
  rw [hwriter, hchain] at hcount
  exact absurd hcount (by decide)

/-- Two instances race for one ref. The first `commit()` of the second builder fails between the check and the
write of the first builder, its second one finds the ref moved, and a third builder goes on. -/
def racingCommits : List (Action Nat) :=
  [.open (js "a") false, .open (js "a") false, .createPatch 0, .createPatch 1, .addNode 0 (js "n"),
    .addNode 1 (js "m"), .commit 0, .persist 0 (js "aaaa"), .commit 1, .persist 1 (js "bbbb"),
    .persist 0 (js "aaaa"), .persist 1 (js "bbbb"), .persist 0 (js "aaaa"), .abort 1, .persist 0 (js "aaaa"),
    .commit 1, .persist 0 (js "aaaa"), .persist 1 (js "bbbb"), .createPatch 1, .addNode 2 (js "k"), .notify 0] ++
    commitOnTip 2 (js "cccc") ++ [.commit 1, .persist 1 (js "bbbb")]

theorem commitsKept_racingCommits :
    ∃ last, Runs.run (World.step plainServices) World.empty racingCommits = some last ∧
      last.builders.map PatchBuilderV2.committedSha = [some (js "aaaa"), none, some (js "cccc")] ∧
      (last.repo.loadWriterPatches (js "a") none).map PatchEntry.sha = [js "aaaa", js "cccc"] ∧
      CommitsKept last := by
  have hrun : (Runs.run (World.step plainServices) World.empty racingCommits).map (fun last =>
      (last.builders.map PatchBuilderV2.committedSha,
        (last.repo.loadWriterPatches (js "a") none).map PatchEntry.sha)) =
      some ([some (js "aaaa"), none, some (js "cccc")], [js "aaaa", js "cccc"]) := by decide +kernel
  obtain ⟨last, hlast, hshape⟩ := Option.map_eq_some_iff.mp hrun
  obtain ⟨hcommitted, hchain⟩ := Prod.mk.inj hshape
  refine ⟨last, hlast, hcommitted, hchain, commitsKept_of_run World.empty last racingCommits rfl ?_ ?_ hlast⟩
  · intro writerId
    refine ⟨fun tip htip => ?_, List.Pairwise.nil⟩
    cases htip
  · decide +kernel

end GitWarp
