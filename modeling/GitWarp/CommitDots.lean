import GitWarp.CommitSafety

/-! Uniqueness of dots. A builder counts its dots on from the version vector it was begun with, and its
commit goes on top of the chain it was begun on. So its dots are new as soon as that vector covers the dots
of that chain, which is what a vector taken from a replay of the chain does. -/

namespace GitWarp
open Js ExceptLoops

variable {V T Hash Buffer : Type}

/-- The counter of the vector is not below any dot of the writer in the patches. -/
def VersionVector.Covers (vv : VersionVector) (writerId : JsString) (entries : List (PatchEntry V)) : Prop :=
  ∀ dot ∈ addDots entries, dot.writerId = writerId → dot.counter ≤ vv.counter writerId

instance (vv : VersionVector) (writerId : JsString) (entries : List (PatchEntry V)) :
    Decidable (vv.Covers writerId entries) := inferInstanceAs (Decidable (∀ dot ∈ addDots entries, _ → _))

/-- A builder is begun with a version vector that covers the chain of its writer. -/
def BegunCovered (world : World V T Hash) (action : Action V) : Prop :=
  ∀ builder ∈ world.begun action,
    builder.vv.Covers builder.writerId (world.repo.loadWriterPatches builder.writerId none)

instance (world : World V T Hash) (action : Action V) : Decidable (BegunCovered world action) :=
  inferInstanceAs (Decidable (∀ builder ∈ world.begun action, _))

/-- The patches that end in the commit a builder expects as its parent. -/
def PatchBuilderV2.base (builder : PatchBuilderV2 V) (store : ObjectStore V) : List (PatchEntry V) :=
  match builder.expectedParentSha with
  | some tip => store.walk none tip
  | none => []

/-- The dots of a builder are numbered on from its base. -/
structure FreshDots (store : ObjectStore V) (builder : PatchBuilderV2 V) : Prop where
  base : (addDots (builder.base store)).Nodup
  writer : ∀ dot ∈ builder.ops.filterMap OpV2.addDot,
    dot.writerId = builder.writerId ∧ dot.counter ≤ builder.vv.counter builder.writerId
  nodup : (builder.ops.filterMap OpV2.addDot).Nodup
  covers : builder.vv.Covers builder.writerId (builder.base store)
  fresh : ∀ dot ∈ builder.ops.filterMap OpV2.addDot, dot ∉ addDots (builder.base store)

/-- The dots of a builder are numbered on from some patches. -/
structure NumberedOn (patches : List (PatchEntry V)) (builder : PatchBuilderV2 V) : Prop where
  writer : ∀ dot ∈ builder.ops.filterMap OpV2.addDot,
    dot.writerId = builder.writerId ∧ dot.counter ≤ builder.vv.counter builder.writerId
  nodup : (builder.ops.filterMap OpV2.addDot).Nodup
  covers : builder.vv.Covers builder.writerId patches
  fresh : ∀ dot ∈ builder.ops.filterMap OpV2.addDot, dot ∉ addDots patches

theorem freshDots_iff {store : ObjectStore V} {builder : PatchBuilderV2 V} :
    FreshDots store builder ↔
      (addDots (builder.base store)).Nodup ∧ NumberedOn (builder.base store) builder :=
  ⟨fun h => ⟨h.base, h.writer, h.nodup, h.covers, h.fresh⟩,
    fun h => ⟨h.1, h.2.writer, h.2.nodup, h.2.covers, h.2.fresh⟩⟩

theorem addDot_lowerCanonicalOp (op : OpV2 V) : (lowerCanonicalOp op).addDot = op.addDot := by
  cases op <;> rfl

theorem addDot_of_isDotless {op : OpV2 V} (h : op.isDotless = true) : op.addDot = none := by
  cases op <;> first | rfl | cases h

/-- A persisted patch has the dots of its builder. -/
theorem PatchBuilderV2.Makes.addDots {builder : PatchBuilderV2 V} {patch : PatchV2 V}
    (h : builder.Makes patch) : patch.addDots = builder.ops.filterMap OpV2.addDot := by
  rw [PatchV2.addDots, h.1, List.map_map, List.filterMap_map]
  exact List.filterMap_congr fun op _ =>
    (builder.codec.addDot_stored (lowerCanonicalOp op)).trans (addDot_lowerCanonicalOp op)

theorem addDots_append (P Q : List (PatchEntry V)) : addDots (P ++ Q) = addDots P ++ addDots Q :=
  List.flatMap_append

/-! ### Builders -/

theorem PatchBuilderV2.base_of_extends {builder builder' : PatchBuilderV2 V} {store store' : ObjectStore V}
    (hstore : store'.Extends store) (hparent : builder'.expectedParentSha = builder.expectedParentSha)
    (hexists : ∀ tip, builder.expectedParentSha = some tip → tip ∈ store.shas) :
    builder'.base store' = builder.base store := by
  unfold base
  rw [hparent]
  cases htip : builder.expectedParentSha with
  | none => rfl
  | some tip => exact hstore.walk none (hexists tip htip)

/-- What the dots of a builder depend on. -/
theorem NumberedOn.of_frame {patches : List (PatchEntry V)} {builder builder' : PatchBuilderV2 V}
    (h : NumberedOn patches builder) (hwriter : builder'.writerId = builder.writerId)
    (hdots : builder'.ops.filterMap OpV2.addDot = builder.ops.filterMap OpV2.addDot)
    (hvv : builder'.vv = builder.vv) : NumberedOn patches builder' where
  writer := by
    rw [hdots, hvv, hwriter]
    exact h.writer
  nodup := by
    rw [hdots]
    exact h.nodup
  covers := by
    rw [hvv, hwriter]
    exact h.covers
  fresh := by
    rw [hdots]
    exact h.fresh

/-- A new builder has no dots yet. -/
theorem NumberedOn.begun {patches : List (PatchEntry V)} {builder : PatchBuilderV2 V} (hops : builder.ops = [])
    (hcovers : builder.vv.Covers builder.writerId patches) : NumberedOn patches builder :=
  ⟨by simp [hops], by simp [hops], hcovers, by simp [hops]⟩

/-- The next dot is above all dots of the builder and of the patches. -/
theorem NumberedOn.dot {patches : List (PatchEntry V)} {builder : PatchBuilderV2 V} (h : NumberedOn patches builder)
    {op : Dot → OpV2 V} (hop : ∀ dot, (op dot).addDot = some dot) {vv : VersionVector} {dot : Dot}
    (hdot : vvIncrement builder.vv builder.writerId = .ok (vv, dot)) :
    NumberedOn patches { builder with vv := vv, ops := builder.ops ++ [op dot] } := by
  obtain ⟨rfl, rfl⟩ := vvIncrement_eq_ok hdot
  have hdots : (builder.ops ++ [op ⟨builder.writerId, builder.vv.counter builder.writerId + 1⟩]).filterMap
      OpV2.addDot = builder.ops.filterMap OpV2.addDot ++
        [⟨builder.writerId, builder.vv.counter builder.writerId + 1⟩] := by
    rw [List.filterMap_append, List.filterMap_cons_some (hop _), List.filterMap_nil]
  have hcounter : VersionVector.counter (builder.vv.set builder.writerId
      (builder.vv.counter builder.writerId + 1)) builder.writerId =
      builder.vv.counter builder.writerId + 1 := by
    rw [VersionVector.counter, JsMap.get_set_self, Option.getD_some]
  refine ⟨fun d hd => ?_, ?_, fun d hd hwriter => ?_, fun d hd hbase => ?_⟩
  · rw [hdots, List.mem_append, List.mem_singleton] at hd
    show d.writerId = builder.writerId ∧ d.counter ≤ VersionVector.counter _ builder.writerId
    rw [hcounter]
    rcases hd with hold | rfl
    · have hle := (h.writer d hold).2
      exact ⟨(h.writer d hold).1, by omega⟩
    · exact ⟨rfl, by push_cast; exact le_refl _⟩
  · rw [hdots, List.nodup_append]
    refine ⟨h.nodup, List.nodup_singleton _, fun d hd d' hd' heq => ?_⟩
    rw [List.mem_singleton] at hd'
    have hle := (h.writer d hd).2
    rw [heq, hd'] at hle
    simp only at hle
    omega
  · have hle := h.covers d hd hwriter
    show d.counter ≤ VersionVector.counter _ builder.writerId
    rw [hcounter]
    omega
  · rw [hdots, List.mem_append, List.mem_singleton] at hd
    rcases hd with hold | rfl
    · exact h.fresh d hold hbase
    · have hle := h.covers _ hbase rfl
      simp only at hle
      omega

theorem NumberedOn.edit {patches : List (PatchEntry V)} {builder builder' : PatchBuilderV2 V}
    (h : NumberedOn patches builder) (hedit : builder.Edit builder') : NumberedOn patches builder' := by
  cases hedit with
  | dot op hop vv dot hphase hdot => exact h.dot hop hdot
  | append op hphase hop =>
      refine h.of_frame rfl ?_ rfl
      show (builder.ops ++ [op]).filterMap OpV2.addDot = _
      rw [List.filterMap_append, List.filterMap_cons_none (addDot_of_isDotless hop), List.filterMap_nil,
        List.append_nil]
  | commit hphase => exact h.of_frame rfl rfl rfl
  | abort hphase hphase' => exact h.of_frame rfl rfl rfl

theorem PatchBuilderV2.Makes.addDots_append {builder : PatchBuilderV2 V} {patch : PatchV2 V}
    (h : builder.Makes patch) (patches : List (PatchEntry V)) (sha : Sha) :
    GitWarp.addDots (patches ++ [⟨patch, sha⟩]) =
      GitWarp.addDots patches ++ builder.ops.filterMap OpV2.addDot := by
  rw [GitWarp.addDots_append, GitWarp.addDots, GitWarp.addDots, List.flatMap_singleton, h.addDots]

/-! ### Steps -/

/-- What holds of every chain and of every builder over its base: the patch of a builder may go on top of
the base, and the methods of a builder keep what holds of it. -/
structure ChainRule (C : JsString → List (PatchEntry V) → Prop)
    (B : PatchBuilderV2 V → List (PatchEntry V) → Prop) : Prop where
  frame : ∀ {builder builder' : PatchBuilderV2 V} {base : List (PatchEntry V)}, B builder base →
    builder'.writerId = builder.writerId → builder'.ops = builder.ops → builder'.vv = builder.vv → B builder' base
  edit : ∀ {builder builder' : PatchBuilderV2 V} {base : List (PatchEntry V)}, B builder base →
    builder.Edit builder' → B builder' base
  extend : ∀ {builder : PatchBuilderV2 V} {base : List (PatchEntry V)} {patch : PatchV2 V} (sha : Sha),
    C builder.writerId base → B builder base → builder.Makes patch → C builder.writerId (base ++ [⟨patch, sha⟩])

structure ChainsHold (C : JsString → List (PatchEntry V) → Prop)
    (B : PatchBuilderV2 V → List (PatchEntry V) → Prop) (world : World V T Hash) : Prop extends BuildersOk world where
  chains : ∀ writerId, C writerId (world.repo.loadWriterPatches writerId none)
  builders : ∀ builder ∈ world.builders,
    C builder.writerId (builder.base world.repo.store) ∧ B builder (builder.base world.repo.store)

/-- A chain stays as it is, or it becomes the base of its builder with the patch of the builder on top. -/
theorem chain_of_persisted {repo repo' : Repository V} {builder builder' : PatchBuilderV2 V}
    (hmaking : builder.Making repo.store) (hpersisted : builder.Persisted repo repo' builder')
    (writerId : JsString) :
    repo'.loadWriterPatches writerId none = repo.loadWriterPatches writerId none ∨
      ∃ sha patch, writerId = builder.writerId ∧ builder.Makes patch ∧
        repo'.loadWriterPatches writerId none = builder.base repo.store ++ [⟨patch, sha⟩] := by
  cases hpersisted with
  | node parentCommit patch sha repo' hphase hstore hrefs hget hnew =>
      exact Or.inl (Repository.loadWriterPatches_of_extends hstore (by rw [hrefs]) none)
  | ref sha patch repo' hphase hstore hrefs =>
      by_cases hwriter : writerId = builder.writerId
      · subst hwriter
        unfold PatchBuilderV2.Making at hmaking
        rw [hphase] at hmaking
        obtain ⟨hcommit, hmakes⟩ := hmaking
        refine Or.inr ⟨sha, builder.storedPatch patch, rfl, hmakes, ?_⟩
        have hread : repo'.readRef builder.writerId = some sha := by
          rw [Repository.readRef, hrefs, JsMap.get_set_self]
        rw [Repository.loadWriterPatches, hread, hstore]
        show repo.store.walk none sha = _
        rw [ObjectStore.walk_eq hcommit, if_neg (Option.some_ne_none sha), PatchBuilderV2.base]
        cases builder.expectedParentSha <;> rfl
      · refine Or.inl (Repository.loadWriterPatches_of_extends ?_ ?_ none)
        · rw [hstore]
          exact ObjectStore.Extends.refl _
        · rw [hrefs, JsMap.get_set_of_ne _ _ hwriter]
  | _ => exact Or.inl rfl

theorem PatchBuilderV2.base_of_begun {repo : Repository V} {builder : PatchBuilderV2 V}
    (hparent : builder.expectedParentSha = repo.readRef builder.writerId) :
    builder.base repo.store = repo.loadWriterPatches builder.writerId none := by
  cases hread : repo.readRef builder.writerId <;>
    simp only [PatchBuilderV2.base, Repository.loadWriterPatches, hparent, hread]

section

variable [DecidableEq V] [DecidableEq Hash] {services : GraphServices V T Hash Buffer}

/-- What every builder meets when it is begun on its chain, every step keeps. -/
theorem ChainsHold.step {C : JsString → List (PatchEntry V) → Prop}
    {B : PatchBuilderV2 V → List (PatchEntry V) → Prop} (rule : ChainRule C B) {world world' : World V T Hash}
    {action : Action V} (h : ChainsHold C B world)
    (hbegun : ∀ builder ∈ world.begun action, builder.ops = [] →
      B builder (world.repo.loadWriterPatches builder.writerId none))
    (hstep : world.step services action = some world') : ChainsHold C B world' := by
  have hok := buildersOk_step h.toBuildersOk hstep
  have hbase : ∀ builder ∈ world.builders, ∀ builder' : PatchBuilderV2 V,
      builder'.expectedParentSha = builder.expectedParentSha →
      world'.repo.store.Extends world.repo.store →
      builder'.base world'.repo.store = builder.base world.repo.store :=
    fun builder hmem builder' hparent hstore =>
      PatchBuilderV2.base_of_extends hstore hparent (h.parents builder hmem)
  cases World.effect_of_step hstep with
  | quiet hstore hrefs hbuilders =>
      refine ⟨hok, fun writerId => ?_, fun builder hmem => ?_⟩
      · rw [Repository.loadWriterPatches_of_extends hstore (by rw [hrefs])]
        exact h.chains writerId
      · rw [hbuilders] at hmem
        rw [hbase builder hmem builder rfl hstore]
        exact h.builders builder hmem
  | begun builder hrepo hbuilders hphase hops hparent haction =>
      refine ⟨hok, by rw [hrepo]; exact h.chains, fun other hmem => ?_⟩
      rw [hbuilders] at hmem
      rw [hrepo]
      rcases List.mem_append.mp hmem with hold | hnew
      · exact h.builders other hold
      · rw [List.mem_singleton.mp hnew, PatchBuilderV2.base_of_begun hparent]
        exact ⟨h.chains _, hbegun builder haction hops⟩
  | edited index builder builder' hrepo hbuilder hbuilders hedit =>
      refine ⟨hok, by rw [hrepo]; exact h.chains, fun other hmem => ?_⟩
      rw [hbuilders] at hmem
      rw [hrepo]
      rcases Lists.mem_of_mem_set hbuilder hmem with rfl | hold
      · obtain ⟨hchain, hmade⟩ := h.builders builder (List.mem_of_getElem? hbuilder)
        obtain ⟨hwriter, hparent⟩ := hedit.frame
        have hsame : other.base world.repo.store = builder.base world.repo.store := by
          unfold PatchBuilderV2.base
          rw [hparent]
        rw [hwriter, hsame]
        exact ⟨hchain, rule.edit hmade hedit⟩
      · exact h.builders other hold
  | persisted index builder builder' haction hbuilder hbuilders hpersisted =>
      have hmem := List.mem_of_getElem? hbuilder
      obtain ⟨hchain, hmade⟩ := h.builders builder hmem
      obtain ⟨hwriter, hparent, hops, hvv⟩ := hpersisted.frame
      refine ⟨hok, fun writerId => ?_, fun other hother => ?_⟩
      · rcases chain_of_persisted (h.making builder hmem) hpersisted writerId with
          hsame | ⟨sha, patch, rfl, hmakes, hextended⟩
        · rw [hsame]
          exact h.chains writerId
        · rw [hextended]
          exact rule.extend sha hchain hmade hmakes
      · rw [hbuilders] at hother
        rcases Lists.mem_of_mem_set hbuilder hother with rfl | hold
        · rw [hbase builder hmem other hparent hpersisted.extends, hwriter]
          exact ⟨hchain, rule.frame hmade hwriter hops hvv⟩
        · rw [hbase other hold other rfl hpersisted.extends]
          exact h.builders other hold
  | notified index builder sha patch hrepo hbuilder hphase hbuilders =>
      refine ⟨hok, by rw [hrepo]; exact h.chains, fun other hmem => ?_⟩
      rw [hbuilders] at hmem
      rw [hrepo]
      rcases Lists.mem_of_mem_set hbuilder hmem with rfl | hold
      · obtain ⟨hchain, hmade⟩ := h.builders builder (List.mem_of_getElem? hbuilder)
        exact ⟨hchain, rule.frame hmade rfl rfl rfl⟩
      · exact h.builders other hold

end

/-! ### Dots that never repeat -/

/-- Each chain has pairwise different dots, and the builders go on from their bases. -/
structure DotInvariant (world : World V T Hash) : Prop extends BuildersOk world where
  unique : ∀ writerId, (addDots (world.repo.loadWriterPatches writerId none)).Nodup
  builders : ∀ builder ∈ world.builders, FreshDots world.repo.store builder

theorem dotInvariant_iff {world : World V T Hash} :
    DotInvariant world ↔ ChainsHold (fun _ patches => (addDots patches).Nodup)
      (fun builder base => NumberedOn base builder) world := by
  apply Iff.intro
  · intro h
    exact ⟨h.toBuildersOk, h.unique, fun builder hmem => freshDots_iff.mp (h.builders builder hmem)⟩
  · intro h
    exact ⟨h.toBuildersOk, h.chains, fun builder hmem => freshDots_iff.mpr (h.builders builder hmem)⟩

/-- The patch of a builder on top of its base. -/
theorem NumberedOn.nodup_append {patches : List (PatchEntry V)} {builder : PatchBuilderV2 V}
    (h : NumberedOn patches builder) (hpatches : (addDots patches).Nodup) {patch : PatchV2 V}
    (hmakes : builder.Makes patch) (sha : Sha) : (addDots (patches ++ [⟨patch, sha⟩])).Nodup := by
  rw [hmakes.addDots_append, List.nodup_append]
  refine ⟨hpatches, h.nodup, fun dot hdot dot' hdot' heq => ?_⟩
  rw [heq] at hdot
  exact h.fresh dot' hdot' hdot

theorem chainRule_nodup : ChainRule (V := V) (fun _ patches => (addDots patches).Nodup)
    (fun builder base => NumberedOn base builder) where
  frame h hwriter hops hvv := h.of_frame hwriter (by rw [hops]) hvv
  edit h hedit := h.edit hedit
  extend sha hbase h hmakes := h.nodup_append hbase hmakes sha

variable [DecidableEq V] [DecidableEq Hash] {services : GraphServices V T Hash Buffer}

theorem dotInvariant_step {world world' : World V T Hash} {action : Action V} (h : DotInvariant world)
    (hcovered : BegunCovered world action) (hstep : world.step services action = some world') : DotInvariant world' := by
  rw [dotInvariant_iff] at h ⊢
  exact h.step chainRule_nodup (fun builder hbuilder hops => NumberedOn.begun hops (hcovered builder hbuilder)) hstep

/-- In every run that begins each builder with a vector that covers its chain, the dots of each chain are
pairwise different. The chains hold every patch that was committed if moreover no commit overwrites a ref
that has moved. -/
theorem dotsUnique_of_run (start last : World V T Hash) (actions : List (Action V))
    (hbuilders : start.builders = [])
    (hdots : ∀ writerId, (addDots (start.repo.loadWriterPatches writerId none)).Nodup)
    (hcovered : Runs.Meets (World.step services) BegunCovered start actions)
    (hrun : Runs.run (World.step services) start actions = some last) :
    (∀ writerId, (addDots (last.repo.loadWriterPatches writerId none)).Nodup) ∧
      ((∀ writerId, start.repo.OrderedChain writerId) →
        Runs.Meets (World.step services) RefUnmoved start actions →
        ∀ builder ∈ last.builders, ∀ sha, builder.phase = .committed sha →
          ∃ patch, builder.Makes patch ∧
            ⟨patch, sha⟩ ∈ last.repo.loadWriterPatches builder.writerId none) := by
  refine ⟨?_, fun hordered hunmoved builder hbuilder sha hphase => ?_⟩
  · have hstart : DotInvariant start := ⟨buildersOk_of_nil hbuilders, hdots, by simp [hbuilders]⟩
    exact (Runs.invariant_of_run (fun _ _ _ => dotInvariant_step) hstart hcovered hrun).unique
  · have hlast : CommitInvariant last := commitInvariant_of_run hbuilders hordered hunmoved hrun
    exact (hlast.commitsKept.once builder hbuilder sha hphase).1

/-! An instance that is opened on a chain begins its patches with an empty vector and counts from one again. -/

/-- A commit of one node, and then another one by a second instance of the same writer. -/
def reopenedCommit : List (Action Nat) :=
  oneCommit ++ [.open (js "a") false, .createPatch 1, .addNode 1 (js "m")] ++ commitOnTip 1 (js "bbbb")

theorem not_dotsUnique_reopenedCommit :
    ∃ last, Runs.run (World.step plainServices) World.empty reopenedCommit = some last ∧
      last.builders.map PatchBuilderV2.committedSha = [some (js "aaaa"), some (js "bbbb")] ∧
      ¬ (addDots (last.repo.loadWriterPatches (js "a") none)).Nodup := by
  have hrun : (Runs.run (World.step plainServices) World.empty reopenedCommit).map (fun last =>
      (last.builders.map PatchBuilderV2.committedSha,
        addDots (last.repo.loadWriterPatches (js "a") none))) =
      some ([some (js "aaaa"), some (js "bbbb")], [⟨js "a", 1⟩, ⟨js "a", 1⟩]) := by decide +kernel
  obtain ⟨last, hlast, hshape⟩ := Option.map_eq_some_iff.mp hrun
  obtain ⟨hcommitted, hchain⟩ := Prod.mk.inj hshape
  refine ⟨last, hlast, hcommitted, ?_⟩
  rw [hchain]
  decide

/-- The same with a `materialize()` of the second instance before its commit; both patches have two additions. -/
def materializedCommit : List (Action Nat) :=
  [.open (js "a") false, .open (js "a") false, .createPatch 0, .addNode 0 (js "n"),
    .addEdge 0 ⟨js "n", js "n", js "self"⟩, .commit 0] ++ persistAll 0 (js "aaaa") ++
    [.notify 0, .loadMaterialized 1 false, .installMaterialized 0, .createPatch 1, .addNode 1 (js "m"),
      .addEdge 1 ⟨js "m", js "n", js "to"⟩] ++ commitOnTip 1 (js "bbbb")

theorem dotsUnique_materializedCommit :
    ∃ last, Runs.run (World.step plainServices) World.empty materializedCommit = some last ∧
      addDots (last.repo.loadWriterPatches (js "a") none) =
        [⟨js "a", 1⟩, ⟨js "a", 2⟩, ⟨js "a", 3⟩, ⟨js "a", 4⟩] ∧
      (∀ writerId, (addDots (last.repo.loadWriterPatches writerId none)).Nodup) ∧
      ∀ builder ∈ last.builders, ∀ sha, builder.phase = .committed sha →
        ∃ patch, builder.Makes patch ∧ ⟨patch, sha⟩ ∈ last.repo.loadWriterPatches builder.writerId none := by
  have hrun : (Runs.run (World.step plainServices) World.empty materializedCommit).map (fun last =>
      addDots (last.repo.loadWriterPatches (js "a") none)) =
      some [⟨js "a", 1⟩, ⟨js "a", 2⟩, ⟨js "a", 3⟩, ⟨js "a", 4⟩] := by decide +kernel
  obtain ⟨last, hlast, hchain⟩ := Option.map_eq_some_iff.mp hrun
  obtain ⟨hunique, hkept⟩ := dotsUnique_of_run World.empty last materializedCommit rfl
    (fun _ => List.nodup_nil) (by decide +kernel) hlast
  refine ⟨last, hlast, hchain, hunique, hkept (fun writerId => ?_) (by decide +kernel)⟩
  refine ⟨fun tip htip => ?_, List.Pairwise.nil⟩
  cases htip

end GitWarp
