import GitWarp.CommitDots
import GitWarp.GraphFrames
import GitWarp.StateSerializer

/-! What a fork shows and what it commits. Its only ref points into the chain of the original, so its first
`materialize()` replays that part of the chain, unless a checkpoint is left under its name or a patch is
stored where the fork cannot read it. What it commits goes on top of the shared patches; its dots are new as
long as its builders count on from the whole history of the fork. -/

namespace GitWarp
open Js ExceptLoops

variable {V T Hash Buffer : Type}

/-- A commit on the line below a writer's tip, and the patches of the writer's chain up to and including it. -/
structure IsChainUpTo (repo : Repository V) (writerId : JsString) (atSha : Sha) (patches : List (PatchEntry V)) :
    Prop where
  line : ∃ tip, repo.readRef writerId = some tip ∧ atSha ∈ Repository.lineFrom repo.store.objects tip
  chain : ∀ entry ∈ repo.loadWriterPatches writerId none, entry.sha = atSha →
    patches.getLast? = some entry ∧ ∃ newer, repo.loadWriterPatches writerId none = patches ++ newer

/-- A chain of the fork: the fork's first writer goes on from the shared patches, any other writer from
nothing. The dots of what follows are those of the writer, each of them only once and none of them shared. -/
def ForkChain (shared : List (PatchEntry V)) (forkWriterId writerId : JsString) (patches : List (PatchEntry V)) :
    Prop :=
  ∃ own, patches = (if writerId = forkWriterId then shared else []) ++ own ∧ (addDots own).Nodup ∧
    ∀ dot ∈ addDots own, dot.writerId = writerId ∧ dot ∉ addDots shared

/-- The builder has dots that are neither in the patches it goes on from nor in the shared ones. -/
def NumberedOnFork (shared : List (PatchEntry V)) (builder : PatchBuilderV2 V) (base : List (PatchEntry V)) : Prop :=
  NumberedOn base builder ∧ NumberedOn shared builder

/-- A builder of the graph is begun with a version vector that covers all patches of the graph. -/
def ForkCovered (name : JsString) (host : Host V T Hash) (action : JsString × Action V) : Prop :=
  action.1 = name → ∀ builder ∈ (host.worlds name).begun action.2,
    builder.vv.Covers builder.writerId (host.worlds name).repo.loadAllPatches

instance (name : JsString) (host : Host V T Hash) (action : JsString × Action V) :
    Decidable (ForkCovered name host action) :=
  inferInstanceAs (Decidable (_ → ∀ builder ∈ (host.worlds name).begun action.2, _))

/-! ### The shared part of a chain -/

theorem ObjectStore.walk_of_mem_walk {store : ObjectStore V} {tip : Sha} (htip : tip ∈ store.shas)
    {entry : PatchEntry V} (hentry : entry ∈ store.walk none tip) :
    (store.walk none entry.sha).getLast? = some entry ∧
      ∃ newer, store.walk none tip = store.walk none entry.sha ++ newer := by
  revert hentry
  refine parents_induction (P := fun sha => entry ∈ store.walk none sha →
      (store.walk none entry.sha).getLast? = some entry ∧
        ∃ newer, store.walk none sha = store.walk none entry.sha ++ newer)
    (fun sha commit hget ih hentry => ?_) tip htip
  obtain ⟨parents, content⟩ := commit
  have hwalk := walk_eq hget none
  rw [if_neg (Option.some_ne_none sha)] at hwalk
  cases content with
  | patch patch =>
      simp only at hwalk
      rw [hwalk] at hentry ⊢
      rcases List.mem_append.mp hentry with hmem | hlast
      · cases parents with
        | nil => cases hmem
        | cons parent rest =>
            obtain ⟨hend, newer, hnewer⟩ := ih parent List.mem_cons_self hmem
            refine ⟨hend, newer ++ [⟨patch, sha⟩], ?_⟩
            rw [← List.append_assoc, ← hnewer]
            rfl
      · rw [List.mem_singleton.mp hlast, hwalk]
        exact ⟨List.getLast?_concat, [], (List.append_nil _).symm⟩
  | checkpoint schema state frontier =>
      rw [hwalk] at hentry
      cases hentry
  | anchor =>
      rw [hwalk] at hentry
      cases hentry

theorem isChainUpTo_walk {repo : Repository V} {writerId : JsString} {tip atSha : Sha}
    (htip : repo.readRef writerId = some tip) (hline : atSha ∈ Repository.lineFrom repo.store.objects tip) :
    IsChainUpTo repo writerId atSha (repo.store.walk none atSha) := by
  refine ⟨⟨tip, htip, hline⟩, fun entry hentry hsha => ?_⟩
  subst hsha
  have hchain : repo.loadWriterPatches writerId none = repo.store.walk none tip := by
    rw [Repository.loadWriterPatches, htip]
  rw [hchain] at hentry ⊢
  exact ObjectStore.walk_of_mem_walk (repo.refsExist writerId tip htip) hentry

/-! ### A fork that succeeds -/

theorem forkParameter_eq_ok {value : JsValue} {text : JsString} (h : forkParameter value = .ok text) :
    value = .string text := by
  unfold forkParameter at h
  split at h
  · split at h
    · cases h
    · cases h
      rfl
  · cases h

theorem validatedName_eq_ok {validate : JsString → Except JsError Unit} {code : String} {value : JsValue}
    {name : JsString} (h : validatedName validate code value = .ok name) : value = .string name := by
  unfold validatedName at h
  split at h
  · split at h
    · cases h
      rfl
    · cases h
  · cases h

theorem mem_line_of_isAncestorWithin {repo : Repository V} {ancestorSha descendantSha : Sha} {inChain : Bool}
    (h : isAncestorWithin repo ancestorSha descendantSha = .ok inChain) (hin : inChain ≠ false) :
    ancestorSha ∈ Repository.lineFrom repo.store.objects descendantSha := by
  unfold isAncestorWithin at h
  simp only at h
  split at h
  · rename_i hcontains
    exact List.mem_of_mem_take (List.contains_iff_mem.mp hcontains)
  · split at h
    · cases h
      exact absurd rfl hin
    · cases h

namespace Host

theorem forkTarget_eq_ok {host : Host V T Hash} {handle : GraphHandle} {options : ForkOptions} {draws : ForkDraws}
    {target : ForkTarget} (h : host.forkTarget handle options draws = .ok target) :
    (∃ fromId tipSha, options.from = .string fromId ∧
        (host.worlds handle.graphName).repo.readRef fromId = some tipSha ∧
        target.at ∈ Repository.lineFrom (host.worlds handle.graphName).repo.store.objects tipSha) ∧
      options.at = .string target.at ∧
      resolvedForkName handle.graphName options draws = .string target.forkName ∧
      resolvedForkWriterId options draws = .string target.writerId ∧
      (host.worlds target.forkName).repo.refs.entries = [] := by
  unfold forkTarget at h
  obtain ⟨fromId, hfrom, h⟩ := bind_ok_iff.mp h
  obtain ⟨atSha, hat, h⟩ := bind_ok_iff.mp h
  simp only at h
  split at h
  · cases h
  · split at h
    · cases h
    · split at h
      · cases h
      · rename_i tipSha htip
        obtain ⟨inChain, hancestor, h⟩ := bind_ok_iff.mp h
        split at h
        · cases h
        · rename_i hin
          obtain ⟨forkName, hname, h⟩ := bind_ok_iff.mp h
          split at h
          · cases h
          · rename_i hrefs
            obtain ⟨writerId, hwriter, h⟩ := bind_ok_iff.mp h
            cases h
            have hnone : (host.worlds forkName).repo.refs.entries.length = 0 := by
              unfold JsMap.size at hrefs
              omega
            exact ⟨⟨fromId, tipSha, forkParameter_eq_ok hfrom, htip, mem_line_of_isAncestorWithin hancestor hin⟩,
              forkParameter_eq_ok hat, validatedName_eq_ok hname, validatedName_eq_ok hwriter,
              List.length_eq_zero_iff.mp hnone⟩

/-- What a successful fork has written and returned. -/
structure Forked (host host' : Host V T Hash) (target : ForkTarget) (forked : GraphHandle) : Prop where
  graphName : forked.graphName = target.forkName
  patchBlobStorage : forked.patchBlobStorage = false
  store : (host'.worlds target.forkName).repo.store = host.store
  refs : (host'.worlds target.forkName).repo.refs =
    (host.worlds target.forkName).repo.refs.set target.writerId target.at
  checkpointRef : (host'.worlds target.forkName).repo.checkpointRef = (host.worlds target.forkName).repo.checkpointRef
  graph : (host'.worlds target.forkName).graphs[forked.index]? = some (WarpGraph.opened target.writerId false)
  builders : (host'.worlds target.forkName).builders = (host.worlds target.forkName).builders

theorem openGraph_eq_ok {encrypted : Sha → Bool} {host host' : Host V T Hash} {graphName writerId : JsString}
    {patchBlobStorage : Bool} {handle : GraphHandle}
    (h : host.openGraph encrypted graphName writerId patchBlobStorage = .ok (handle, host')) :
    handle = ⟨graphName, (host.worlds graphName).graphs.length, patchBlobStorage⟩ ∧
      host'.worlds graphName =
        { host.worlds graphName with
          graphs := (host.worlds graphName).graphs ++ [WarpGraph.opened writerId false] } := by
  unfold openGraph at h
  obtain ⟨⟨⟩, -, h⟩ := bind_ok_iff.mp h
  obtain ⟨⟨⟩, -, h⟩ := bind_ok_iff.mp h
  obtain ⟨⟨⟩, -, h⟩ := bind_ok_iff.mp h
  cases h
  exact ⟨rfl, worlds_put _ _ _ _⟩

theorem writeForkRef_eq_some {host written : Host V T Hash} {target : ForkTarget}
    (h : host.writeForkRef target = some written) :
    ∃ repo, (host.worlds target.forkName).repo.updateRef target.writerId target.at = some repo ∧
      written.worlds target.forkName = { host.worlds target.forkName with repo := repo } := by
  unfold writeForkRef at h
  simp only at h
  split at h
  · rename_i repo hrepo
    cases h
    exact ⟨repo, hrepo, worlds_put _ _ _ _⟩
  · cases h

theorem forked_of_fork {encrypted : Sha → Bool} {host host' : Host V T Hash} {original forked : GraphHandle}
    {options : ForkOptions} {draws : ForkDraws}
    (h : host.fork encrypted original options draws = (.ok forked, host')) :
    ∃ target, host.forkTarget original options draws = .ok target ∧ host.Forked host' target forked := by
  unfold fork at h
  cases htarget : host.forkTarget original options draws with
  | error err =>
      rw [htarget] at h
      cases h
  | ok target =>
      rw [htarget] at h
      simp only at h
      cases hwritten : host.writeForkRef target with
      | none =>
          rw [hwritten] at h
          cases h
      | some written =>
          rw [hwritten] at h
          simp only at h
          cases hopened : written.openGraph encrypted target.forkName target.writerId false with
          | error err =>
              rw [hopened] at h
              cases h
          | ok opened =>
              rw [hopened] at h
              cases h
              obtain ⟨repo, hrepo, hworld⟩ := writeForkRef_eq_some hwritten
              obtain ⟨hstore, hrefs, hcheckpoint⟩ := (Repository.updateRef_eq_some hrepo).2
              obtain ⟨hhandle, hworld'⟩ := openGraph_eq_ok hopened
              refine ⟨target, rfl, ?_⟩
              constructor <;> simp only [hworld', hworld, hhandle, hstore, hrefs, hcheckpoint]
              · exact host.shared target.forkName
              · exact List.getElem?_concat_length

variable {host host' : Host V T Hash} {target : ForkTarget} {forked : GraphHandle}

theorem get_of_noEntries {m : Frontier} (h : m.entries = []) (key : JsString) : m.get key = none := by
  unfold JsMap.get
  rw [h]
  rfl

theorem Forked.loadWriterPatches (h : host.Forked host' target forked)
    (hrefs : (host.worlds target.forkName).repo.refs.entries = []) (writerId : JsString) :
    (host'.worlds target.forkName).repo.loadWriterPatches writerId none =
      if writerId = target.writerId then host.store.walk none target.at else [] := by
  unfold Repository.loadWriterPatches Repository.readRef
  rw [h.refs, h.store, JsMap.get_set, get_of_noEntries hrefs]
  by_cases hwriter : writerId = target.writerId
  · rw [if_pos hwriter, if_pos hwriter]
  · rw [if_neg hwriter, if_neg hwriter]

theorem Forked.loadAllPatches (h : host.Forked host' target forked)
    (hrefs : (host.worlds target.forkName).repo.refs.entries = []) :
    (host'.worlds target.forkName).repo.loadAllPatches = host.store.walk none target.at := by
  have hentries : (host'.worlds target.forkName).repo.refs.entries = [(target.writerId, target.at)] := by
    rw [h.refs, JsMap.entries_set_of_get_none (get_of_noEntries hrefs _), hrefs]
    rfl
  have hwriters : (host'.worlds target.forkName).repo.discoverWriters = [target.writerId] := by
    rw [Repository.discoverWriters, JsMap.keys, hentries]
    rfl
  rw [Repository.loadAllPatches, hwriters, List.flatMap_singleton, h.loadWriterPatches hrefs, if_pos rfl]

theorem exists_readPatchBlob_iff {encrypted : Sha → Bool} {sha : Sha} :
    (∃ read, readPatchBlob encrypted false sha = .ok read) ↔ encrypted sha = false := by
  unfold readPatchBlob
  cases encrypted sha <;> simp [pure, Except.pure]

/-- Without a checkpoint the fork replays what it shares with the original, if it can read all of it. -/
theorem Forked.materialize [DecidableEq V] (h : host.Forked host' target forked)
    (hrefs : (host.worlds target.forkName).repo.refs.entries = [])
    (hcheckpoint : (host.worlds target.forkName).repo.checkpointRef = none) (encrypted : Sha → Bool)
    (state : WarpStateV5 V) :
    host'.materialize encrypted forked = .ok state ↔
      reduceV5 (host.store.walk none target.at) = .ok state ∧
        ∀ entry ∈ host.store.walk none target.at, encrypted entry.sha = false := by
  have hlatest : (host'.worlds target.forkName).repo.loadLatestCheckpoint = .ok none := by
    unfold Repository.loadLatestCheckpoint
    rw [h.checkpointRef, hcheckpoint]
    rfl
  have hall := h.loadAllPatches hrefs
  have hwalked : (host'.worlds target.forkName).repo.walkedPatches = .ok (host.store.walk none target.at) := by
    unfold Repository.walkedPatches
    rw [hlatest, ← hall]
    rfl
  have hread : (∃ reads, (host.store.walk none target.at).mapM
      (fun entry => readPatchBlob encrypted false entry.sha) = .ok reads) ↔
        ∀ entry ∈ host.store.walk none target.at, encrypted entry.sha = false := by
    rw [exists_mapM_ok_iff]
    exact forall₂_congr fun entry _ => exists_readPatchBlob_iff
  have hreduce : (∃ diff graph', WarpGraph.loadMaterialized (host'.worlds target.forkName).repo
      (WarpGraph.opened target.writerId false : WarpGraph V T Hash) false = .ok (graph', ⟨state, diff⟩)) ↔
        reduceV5 (host.store.walk none target.at) = .ok state := by
    simp only [WarpGraph.loadMaterialized_ok_iff, hlatest, hall, WarpGraph.opened, WarpGraph.reduceWanting, reduceV5]
    by_cases hnone : host.store.walk none target.at = []
    · simp [hnone, reduceV5From, pure, Except.pure, eq_comm]
    · cases reduceV5From createEmptyStateV5 (host.store.walk none target.at) <;>
        simp [hnone, bind, Except.bind, pure, Except.pure]
  have hmaterialize : host'.materialize encrypted forked = WarpGraph.materialized encrypted
      (host'.worlds target.forkName).repo false (WarpGraph.opened target.writerId false : WarpGraph V T Hash) := by
    unfold Host.materialize
    simp only [h.graphName, h.graph, h.patchBlobStorage]
  rw [hmaterialize, WarpGraph.materialized_ok_iff, hreduce, hwalked]
  simp only [Except.ok.injEq, exists_and_left, exists_eq_left', hread]
  exact And.comm

end Host

/-! ### What the fork commits -/

theorem ForkChain.nil (shared : List (PatchEntry V)) (forkWriterId writerId : JsString) :
    ForkChain shared forkWriterId writerId (if writerId = forkWriterId then shared else []) :=
  ⟨[], (List.append_nil _).symm, List.nodup_nil, by simp [addDots]⟩

/-- The patch of a builder on top of a chain of the fork. -/
theorem ForkChain.concat {shared : List (PatchEntry V)} {forkWriterId : JsString} {base : List (PatchEntry V)}
    {builder : PatchBuilderV2 V} {patch : PatchV2 V} (sha : Sha)
    (hchain : ForkChain shared forkWriterId builder.writerId base) (hbuilder : NumberedOnFork shared builder base)
    (hmakes : builder.Makes patch) : ForkChain shared forkWriterId builder.writerId (base ++ [⟨patch, sha⟩]) := by
  obtain ⟨own, hbase, hnodup, hown⟩ := hchain
  obtain ⟨hnumbered, hshared⟩ := hbuilder
  have hsubset : ∀ dot ∈ addDots own, dot ∈ addDots base := by
    intro dot hdot
    rw [hbase, addDots_append]
    exact List.mem_append_right _ hdot
  refine ⟨own ++ [⟨patch, sha⟩], by rw [hbase, List.append_assoc], ?_, fun dot hdot => ?_⟩
  · rw [hmakes.addDots_append, List.nodup_append]
    refine ⟨hnodup, hnumbered.nodup, fun dot hdot dot' hdot' heq => ?_⟩
    rw [heq] at hdot
    exact hnumbered.fresh dot' hdot' (hsubset dot' hdot)
  · rw [hmakes.addDots_append] at hdot
    rcases List.mem_append.mp hdot with hold | hnew
    · exact hown dot hold
    · exact ⟨(hnumbered.writer dot hnew).1, hshared.fresh dot hnew⟩

theorem chainRule_fork (shared : List (PatchEntry V)) (forkWriterId : JsString) :
    ChainRule (ForkChain shared forkWriterId) (NumberedOnFork shared) where
  frame h hwriter hops hvv :=
    ⟨h.1.of_frame hwriter (by rw [hops]) hvv, h.2.of_frame hwriter (by rw [hops]) hvv⟩
  edit h hedit := ⟨h.1.edit hedit, h.2.edit hedit⟩
  extend sha hchain hbuilder hmakes := hchain.concat sha hbuilder hmakes

theorem VersionVector.Covers.mono {vv : VersionVector} {writerId : JsString} {P Q : List (PatchEntry V)}
    (h : vv.Covers writerId Q) (hsubset : P ⊆ Q) : vv.Covers writerId P := by
  intro dot hdot
  obtain ⟨entry, hentry, hdot'⟩ := List.mem_flatMap.mp hdot
  exact h dot (List.mem_flatMap.mpr ⟨entry, hsubset hentry, hdot'⟩)

theorem Repository.loadWriterPatches_subset (repo : Repository V) (writerId : JsString) :
    repo.loadWriterPatches writerId none ⊆ repo.loadAllPatches := by
  intro entry hentry
  rw [mem_loadAllPatches, ObjectStore.mem_patchesAt]
  exact ⟨writerId, by rw [chainAt_refs]; exact hentry⟩

theorem ChainsHold.untouched {C : JsString → List (PatchEntry V) → Prop}
    {B : PatchBuilderV2 V → List (PatchEntry V) → Prop} {world world' : World V T Hash} (h : ChainsHold C B world)
    (huntouched : world.Untouched world') : ChainsHold C B world' := by
  have hbase : ∀ builder ∈ world.builders, builder.base world'.repo.store = builder.base world.repo.store :=
    fun builder hmem => PatchBuilderV2.base_of_extends huntouched.repo.store rfl (h.parents builder hmem)
  refine ⟨⟨?_, ?_⟩, ?_, ?_⟩
  · rw [huntouched.builders]
    exact fun builder hmem tip htip => huntouched.repo.store.mem_shas (h.parents builder hmem tip htip)
  · rw [huntouched.builders]
    exact fun builder hmem => (h.making builder hmem).of_extends huntouched.repo.store
  · intro writerId
    rw [huntouched.repo.loadWriterPatches]
    exact h.chains writerId
  · rw [huntouched.builders]
    intro builder hmem
    rw [hbase builder hmem]
    exact h.builders builder hmem

variable [DecidableEq V] [DecidableEq Hash] {services : GraphServices V T Hash Buffer}

/-- In every run that begins the builders of the fork with a vector that covers the history of the fork, the
dots that the fork commits are new. -/
theorem forkChains_of_run {name forkWriterId : JsString} {shared : List (PatchEntry V)} {host last : Host V T Hash}
    {actions : List (JsString × Action V)}
    (hstart : ChainsHold (ForkChain shared forkWriterId) (NumberedOnFork shared) (host.worlds name))
    (hcovered : Runs.Meets (Host.step services) (ForkCovered name) host actions)
    (hrun : Runs.run (Host.step services) host actions = some last) :
    ChainsHold (ForkChain shared forkWriterId) (NumberedOnFork shared) (last.worlds name) := by
  have hstep : ∀ (state : Host V T Hash) (action : JsString × Action V) (state' : Host V T Hash),
      ChainsHold (ForkChain shared forkWriterId) (NumberedOnFork shared) (state.worlds name) →
      ForkCovered name state action → state.step services action = some state' →
      ChainsHold (ForkChain shared forkWriterId) (NumberedOnFork shared) (state'.worlds name) := by
    intro state action state' h hcovered hstep
    obtain ⟨acting, action⟩ := action
    obtain ⟨hworld, hothers⟩ := Host.step_eq_some hstep
    by_cases hacting : acting = name
    · subst hacting
      refine h.step (chainRule_fork shared forkWriterId) (fun builder hbuilder hops => ?_) hworld
      have hvv := hcovered rfl builder hbuilder
      have hshared : shared ⊆ (state.worlds acting).repo.loadAllPatches := by
        obtain ⟨own, hchain, -, -⟩ := h.chains forkWriterId
        rw [if_pos rfl] at hchain
        intro entry hentry
        apply Repository.loadWriterPatches_subset _ forkWriterId
        rw [hchain]
        exact List.mem_append_left _ hentry
      exact ⟨NumberedOn.begun hops (hvv.mono (Repository.loadWriterPatches_subset _ _)),
        NumberedOn.begun hops (hvv.mono hshared)⟩
    · exact h.untouched (hothers name (Ne.symm hacting))
  exact Runs.invariant_of_run hstep hstart hcovered hrun

/-! ### Forks -/

/-- Where no checkpoint is left under its name, a fork first materializes the part of the chain up to `at`,
exactly if it can read all of it. No step of one graph changes what an instance of another graph
materializes. In every run that begins the builders of the fork with a vector that covers its history, the
dots that the fork commits are new. -/
theorem forkFaithful_of_run (services : GraphServices V T Hash Buffer) (encrypted : Sha → Bool)
    (host host' : Host V T Hash) (original forked : GraphHandle) (options : ForkOptions) (draws : ForkDraws)
    (hfork : host.fork encrypted original options draws = (.ok forked, host')) :
    ∃ fromId atSha forkWriterId, options.from = .string fromId ∧ options.at = .string atSha ∧
      resolvedForkName original.graphName options draws = .string forked.graphName ∧
      resolvedForkWriterId options draws = .string forkWriterId ∧
      IsChainUpTo (host.worlds original.graphName).repo fromId atSha (host.store.walk none atSha) ∧
      ((host.worlds forked.graphName).repo.checkpointRef = none → ∀ state,
        host'.materialize encrypted forked = .ok state ↔
          reduceV5 (host.store.walk none atSha) = .ok state ∧
            ∀ entry ∈ host.store.walk none atSha, encrypted entry.sha = false) ∧
      (∀ (handle : GraphHandle) (actions later : List (JsString × Action V)) (middle last : Host V T Hash),
        Runs.run (Host.step services) host' actions = some middle →
        Runs.run (Host.step services) middle later = some last →
        (∀ action ∈ later, action.1 ≠ handle.graphName) →
        ∀ state, last.materialize encrypted handle = .ok state ↔ middle.materialize encrypted handle = .ok state) ∧
      ((host.worlds forked.graphName).builders = [] →
        ∀ (actions : List (JsString × Action V)) (last : Host V T Hash),
        Runs.Meets (Host.step services) (ForkCovered forked.graphName) host' actions →
        Runs.run (Host.step services) host' actions = some last →
        (∀ writerId, ForkChain (host.store.walk none atSha) forkWriterId writerId
          ((last.worlds forked.graphName).repo.loadWriterPatches writerId none)) ∧
        ∀ builder ∈ (last.worlds forked.graphName).builders,
          NumberedOnFork (host.store.walk none atSha) builder (builder.base last.store)) := by
  obtain ⟨target, htarget, hforked⟩ := Host.forked_of_fork hfork
  obtain ⟨⟨fromId, tipSha, hfrom, htip, hline⟩, hat, hname, hwriter, hrefs⟩ := Host.forkTarget_eq_ok htarget
  refine ⟨fromId, target.at, target.writerId, hfrom, hat, ?_, hwriter, ?_, ?_, ?_, ?_⟩
  · rw [hforked.graphName]
    exact hname
  · rw [← host.shared original.graphName]
    exact isChainUpTo_walk htip hline
  · intro hcheckpoint state
    rw [hforked.graphName] at hcheckpoint
    exact hforked.materialize hrefs hcheckpoint encrypted state
  · intro handle actions later middle last _ hlater hothers state
    exact Host.materialize_of_run handle hothers hlater encrypted state
  · intro hbuilders actions last hcovered hrun
    rw [hforked.graphName] at hbuilders hcovered ⊢
    have hnone : (host'.worlds target.forkName).builders = [] := by rw [hforked.builders, hbuilders]
    have hstart : ChainsHold (ForkChain (host.store.walk none target.at) target.writerId)
        (NumberedOnFork (host.store.walk none target.at)) (host'.worlds target.forkName) := by
      refine ⟨buildersOk_of_nil hnone, fun writerId => ?_, by simp [hnone]⟩
      rw [hforked.loadWriterPatches hrefs]
      exact ForkChain.nil _ _ _
    have hlast := forkChains_of_run hstart hcovered hrun
    refine ⟨hlast.chains, fun builder hbuilder => ?_⟩
    rw [← last.shared target.forkName]
    exact (hlast.builders builder hbuilder).2

/-! A checkpoint that is left under the name of the fork is where its first `materialize()` starts, and the
fork cannot read the patches that the original reads from its blob storage. -/

/-- A patch of another repository. -/
def pulledPatch : SyncPatch Nat :=
  ⟨js "p", js "eeee", ⟨2, js "p", 1, .record [], [.nodeAdd (js "x") ⟨js "p", 1⟩]⟩⟩

def onGraph (name : JsString) (actions : List (Action Nat)) : List (JsString × Action Nat) :=
  actions.map fun action => (name, action)

/-- Two commits to the graph `g`, and a checkpoint of a graph `f` that has only pulled patches. -/
def leftoverCheckpoint : List (JsString × Action Nat) :=
  onGraph (js "g") (oneCommit ++ [.createPatch 0, .addNode 1 (js "m")] ++ commitOnTip 1 (js "bbbb")) ++
    onGraph (js "f") [.open (js "r") false, .loadMaterialized 0 false, .installMaterialized 0,
      .applySyncResponse 0 [pulledPatch], .readCheckpointFrontier 0, .commitCheckpoint 0 (js "cccc")]

/-- A fork of the chain of `a` at its tip. -/
def forkAtTip (forkName forkWriterId : JsString) : ForkOptions :=
  ⟨.string (js "a"), .string (js "bbbb"), .string forkName, .string forkWriterId⟩

def noDraws : ForkDraws := ⟨js "00000000", js "w_0"⟩

/-- A fork of the graph `g`, which has a blob storage. -/
def forkOfG (encrypted : Sha → Bool) (host : Host Nat Unit Unit) (options : ForkOptions) :
    Except JsError GraphHandle × Host Nat Unit Unit :=
  host.fork encrypted ⟨js "g", 0, true⟩ options noDraws

/-- The nodes that the fork shows, and those of the chain up to `at`. -/
def forkedAndReplayed (encrypted : Sha → Bool) (host : Host Nat Unit Unit) (options : ForkOptions) :
    Option (Option (List JsString) × Option (List JsString)) :=
  (forkOfG encrypted host options).1.toOption.map fun forked =>
    (((forkOfG encrypted host options).2.materialize encrypted forked).toOption.map fun state =>
        (visibleProjection state).nodes,
      (reduceV5 (host.store.walk none (js "bbbb"))).toOption.map fun state => (visibleProjection state).nodes)

/-- The fork succeeds, and its first `materialize()` does not return what the chain up to `at` shows. -/
def ShowsOther (encrypted : Sha → Bool) (host : Host Nat Unit Unit) (options : ForkOptions) : Prop :=
  ∃ forked host', forkOfG encrypted host options = (.ok forked, host') ∧
    (host'.materialize encrypted forked).map visibleProjection ≠
      (reduceV5 (host.store.walk none (js "bbbb"))).map visibleProjection

theorem showsOther_of_nodes {encrypted : Sha → Bool} {host : Host Nat Unit Unit} {options : ForkOptions}
    {shown replayed : Option (List JsString)}
    (h : forkedAndReplayed encrypted host options = some (shown, replayed)) (hne : shown ≠ replayed) :
    ShowsOther encrypted host options := by
  obtain ⟨forked, hforked, hpair⟩ := Option.map_eq_some_iff.mp h
  obtain ⟨hshown, hreplayed⟩ := Prod.mk.inj hpair
  refine ⟨forked, (forkOfG encrypted host options).2, Prod.ext (toOption_eq_some hforked) rfl, fun hsame => hne ?_⟩
  have hnodes : ∀ result : Except JsError (WarpStateV5 Nat),
      (result.toOption.map fun state => (visibleProjection state).nodes) =
        (result.map visibleProjection).toOption.map VisibleProjection.nodes := by
    intro result
    cases result <;> rfl
  rw [← hshown, ← hreplayed, hnodes, hnodes, hsame]

/-- A commit of the fork that its first instance makes without a `materialize()`. -/
def forkCommit (name : JsString) : List (JsString × Action Nat) :=
  onGraph name ([.createPatch 0, .addNode 0 (js "z")] ++ commitOnTip 0 (js "dddd"))

theorem not_forkFaithful_leftoverCheckpoint :
    ∃ host, Runs.run (Host.step plainServices) Host.empty leftoverCheckpoint = some host ∧
      ShowsOther (fun _ => false) host (forkAtTip (js "f") (js "w")) ∧
      ShowsOther (fun sha => sha = js "aaaa") host (forkAtTip (js "h") (js "w")) ∧
      ∃ last, Runs.run (Host.step plainServices)
          (forkOfG (fun _ => false) host (forkAtTip (js "k") (js "a"))).2 (forkCommit (js "k")) = some last ∧
        ¬ (addDots ((last.worlds (js "k")).repo.loadWriterPatches (js "a") none)).Nodup := by
  have hleftover : (Runs.run (Host.step plainServices) Host.empty leftoverCheckpoint).map (fun host =>
      forkedAndReplayed (fun _ => false) host (forkAtTip (js "f") (js "w"))) =
      some (some (some [js "m", js "n", js "x"], some [js "m", js "n"])) := by decide +kernel
  have hencrypted : (Runs.run (Host.step plainServices) Host.empty leftoverCheckpoint).map (fun host =>
      forkedAndReplayed (fun sha => sha = js "aaaa") host (forkAtTip (js "h") (js "w"))) =
      some (some (none, some [js "m", js "n"])) := by decide +kernel
  have hcommit : (Runs.run (Host.step plainServices) Host.empty leftoverCheckpoint).map (fun host =>
      (Runs.run (Host.step plainServices) (forkOfG (fun _ => false) host (forkAtTip (js "k") (js "a"))).2
        (forkCommit (js "k"))).map fun last =>
          addDots ((last.worlds (js "k")).repo.loadWriterPatches (js "a") none)) =
      some (some [⟨js "a", 1⟩, ⟨js "a", 2⟩, ⟨js "a", 1⟩]) := by decide +kernel
  obtain ⟨host, hhost, hshown⟩ := Option.map_eq_some_iff.mp hleftover
  rw [hhost] at hencrypted hcommit
  obtain ⟨last, hlast, hdots⟩ := Option.map_eq_some_iff.mp (Option.some.inj hcommit)
  refine ⟨host, hhost, showsOther_of_nodes hshown (by decide),
    showsOther_of_nodes (Option.some.inj hencrypted) (by decide), last, hlast, ?_⟩
  rw [hdots]
  decide

/-- A fork of two commits, and a commit of its own. -/
theorem forkFaithful_twoCommits :
    ∃ host host' forked last,
      Runs.run (Host.step plainServices) Host.empty leftoverCheckpoint = some host ∧
      forkOfG (fun _ => false) host (forkAtTip (js "h") (js "w")) = (.ok forked, host') ∧
      Runs.run (Host.step plainServices) host' (forkCommit (js "h")) = some last ∧
      (∀ state, host'.materialize (fun _ => false) forked = .ok state ↔
        reduceV5 (host.store.walk none (js "bbbb")) = .ok state) ∧
      ∀ writerId, ForkChain (host.store.walk none (js "bbbb")) (js "w") writerId
        ((last.worlds (js "h")).repo.loadWriterPatches writerId none) := by
  have hforked : (Runs.run (Host.step plainServices) Host.empty leftoverCheckpoint).map (fun host =>
      (forkOfG (fun _ => false) host (forkAtTip (js "h") (js "w"))).1.toOption) =
      some (some ⟨js "h", 0, false⟩) := by decide +kernel
  have hunused : (Runs.run (Host.step plainServices) Host.empty leftoverCheckpoint).map (fun host =>
      ((host.worlds (js "h")).repo.checkpointRef, (host.worlds (js "h")).builders.length)) =
      some (none, 0) := by decide +kernel
  have hcommit : (Runs.run (Host.step plainServices) Host.empty leftoverCheckpoint).map (fun host =>
      ((Runs.run (Host.step plainServices) (forkOfG (fun _ => false) host (forkAtTip (js "h") (js "w"))).2
        (forkCommit (js "h"))).isSome,
        decide (Runs.Meets (Host.step plainServices) (ForkCovered (js "h"))
          (forkOfG (fun _ => false) host (forkAtTip (js "h") (js "w"))).2 (forkCommit (js "h"))))) =
      some (true, true) := by decide +kernel
  obtain ⟨host, hhost, hfork⟩ := Option.map_eq_some_iff.mp hforked
  rw [hhost] at hunused hcommit
  obtain ⟨hcheckpoint, hbuilders⟩ := Prod.mk.inj (Option.some.inj hunused)
  obtain ⟨hran, hcovered⟩ := Prod.mk.inj (Option.some.inj hcommit)
  obtain ⟨last, hlast⟩ := Option.isSome_iff_exists.mp hran
  obtain ⟨fromId, atSha, forkWriterId, -, hat, -, hwriter, -, hmaterialize, -, hdots⟩ :=
    forkFaithful_of_run plainServices (fun _ => false) host _ ⟨js "g", 0, true⟩ ⟨js "h", 0, false⟩
      (forkAtTip (js "h") (js "w")) noDraws (Prod.ext (toOption_eq_some hfork) rfl)
  cases hat
  cases hwriter
  refine ⟨host, _, _, last, hhost, Prod.ext (toOption_eq_some hfork) rfl, hlast, fun state => ?_, ?_⟩
  · exact (hmaterialize hcheckpoint state).trans (and_iff_left fun _ _ => rfl)
  · exact (hdots (List.length_eq_zero_iff.mp hbuilders) _ last (of_decide_eq_true hcovered) hlast).1

end GitWarp
