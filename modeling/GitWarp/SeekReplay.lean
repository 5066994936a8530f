import GitWarp.SeekMaterialize

/-! Reads at a ceiling agree with a replay, whatever goes on beside them: as long as the tips are those that a read
began with, what it took from the cache is what it would have replayed. A read that was overtaken by commits may have
stored more than its key says, but then the tips are not those of the key any more. -/

namespace GitWarp
open Js ExceptLoops
open Boundary (ReloadOf exists_reload)

variable {V Buffer : Type}

/-! ### What holds of the reads -/

namespace SeekTarget

/-- The frontier is that of an earlier repository. -/
def Began (target : SeekTarget) (repo : Repository V) : Prop :=
  ∃ past : Repository V, target.frontier = past.getFrontier ∧ past.MovesOn repo ∧ past.ReadableRefs

/-- As long as the tips have not moved since, a replay gives a state with the property. -/
def Yields (target : SeekTarget) (repo : Repository V) (property : WarpStateV5 V → Prop) : Prop :=
  target.frontier = repo.getFrontier → ∃ replayed, reduceV5 (repo.patchesUpTo target.ceiling) = .ok replayed ∧
    property replayed

/-- The patches of the writers that have been loaded. -/
def loadedFrom (target : SeekTarget) (repo : Repository V) (writerIds : List JsString) : List (PatchEntry V) :=
  (writerIds.flatMap fun writerId => repo.loadWriterPatches writerId none).filter
    fun entry => (entry.patch.lamport : Int) ≤ target.ceiling

variable {target : SeekTarget} {repo repo' : Repository V}

theorem Began.moveOn (h : target.Began repo) (hmoves : repo.MovesOn repo') : target.Began repo' := by
  obtain ⟨past, hpast, hbefore, hreadable⟩ := h
  exact ⟨past, hpast, hbefore.trans hmoves, hreadable⟩

/-- Tips that have not moved in the end had not moved before. -/
theorem Began.frontier_eq (h : target.Began repo) (hmoves : repo.MovesOn repo')
    (hcurrent : target.frontier = repo'.getFrontier) : target.frontier = repo.getFrontier := by
  obtain ⟨past, hpast, hbefore, -⟩ := h
  rw [hpast] at hcurrent ⊢
  exact hbefore.getFrontier_eq hmoves hcurrent

theorem Yields.moveOn {property : WarpStateV5 V → Prop} (h : target.Yields repo property) (hbegan : target.Began repo)
    (hmoves : repo.MovesOn repo') : target.Yields repo' property := by
  intro hcurrent
  have hbefore := hbegan.frontier_eq hmoves hcurrent
  rw [hmoves.patchesUpTo_eq (hbefore.symm.trans hcurrent)]
  exact h hbefore

theorem Yields.imp {property property' : WarpStateV5 V → Prop} (h : target.Yields repo property)
    (himp : ∀ replayed, property replayed → property' replayed) : target.Yields repo property' := by
  intro hcurrent
  obtain ⟨replayed, hreplayed, hproperty⟩ := h hcurrent
  exact ⟨replayed, hreplayed, himp replayed hproperty⟩

theorem loadedFrom_moveOn (hmoves : repo.MovesOn repo') (hsame : repo.getFrontier = repo'.getFrontier)
    (writerIds : List JsString) : target.loadedFrom repo' writerIds = target.loadedFrom repo writerIds := by
  unfold loadedFrom
  simp only [hmoves.loadWriterPatches_eq hsame]

theorem loadedFrom_keys (hceiling : 0 < target.ceiling) (hcurrent : target.frontier = repo.getFrontier) :
    target.loadedFrom repo target.frontier.keys = repo.patchesUpTo target.ceiling := by
  unfold Repository.patchesUpTo
  rw [if_neg (not_le.mpr hceiling), ← hcurrent]
  rfl

end SeekTarget

namespace SeekSystem

variable (ports : SeekPorts V Buffer)

/-- Some read has the key and the property. -/
def FromRead (system : SeekSystem V Buffer) (key : JsString) (property : WarpStateV5 V → Prop) : Prop :=
  ∃ origin ∈ system.targets, origin.key ports.hash = key ∧ 0 < origin.ceiling ∧ origin.Yields system.repo property

def PhaseHolds (system : SeekSystem V Buffer) (target : SeekTarget) : SeekReadPhase V Buffer → Prop
  | .asking call => 0 < target.ceiling ∧ system.cache.asked[call]? = some (.get (target.key ports.hash))
  | .removing _ => 0 < target.ceiling
  | .loading writerIds allPatches => 0 < target.ceiling ∧ ∃ loaded, target.frontier.keys = loaded ++ writerIds ∧
      (target.frontier = system.repo.getFrontier → allPatches = target.loadedFrom system.repo loaded)
  | .returned state unsaved =>
      (target.Yields system.repo (state = ·) ∨
        0 < target.ceiling ∧ system.FromRead ports (target.key ports.hash) (ReloadOf state)) ∧
      ∀ buffer, unsaved = some buffer → 0 < target.ceiling ∧
        target.Yields system.repo fun replayed => serializeFullStateV5 ports.codec replayed = .ok buffer
  | .threw => True

/-- What holds at any time. -/
structure Holds (system : SeekSystem V Buffer) : Prop where
  readable : system.repo.ReadableRefs
  cache : system.cache.Holds ports.adapter
  began : ∀ target ∈ system.targets, target.Began system.repo
  stored : ∀ key buffer indexTreeOid, .set key buffer indexTreeOid ∈ system.cache.asked →
    system.FromRead ports key fun replayed => serializeFullStateV5 ports.codec replayed = .ok buffer
  reads : ∀ pair ∈ system.reads, system.PhaseHolds ports pair.1 pair.2

/-- A system some steps later. -/
structure Later (system system' : SeekSystem V Buffer) : Prop where
  moves : system.repo.MovesOn system'.repo
  targets : system.targets ⊆ system'.targets
  asked : ∀ (i : Nat) call, system.cache.asked[i]? = some call → system'.cache.asked[i]? = some call

variable {ports} {system system' : SeekSystem V Buffer}

theorem FromRead.later {key : JsString} {property : WarpStateV5 V → Prop} (h : system.FromRead ports key property)
    (hbegan : ∀ target ∈ system.targets, target.Began system.repo) (hlater : system.Later system') :
    system'.FromRead ports key property := by
  obtain ⟨origin, horigin, hkey, hceiling, hyields⟩ := h
  exact ⟨origin, hlater.targets horigin, hkey, hceiling, hyields.moveOn (hbegan origin horigin) hlater.moves⟩

theorem PhaseHolds.later {target : SeekTarget} {phase : SeekReadPhase V Buffer} (h : system.PhaseHolds ports target phase)
    (htarget : target ∈ system.targets) (hbegan : ∀ target ∈ system.targets, target.Began system.repo)
    (hlater : system.Later system') : system'.PhaseHolds ports target phase := by
  have hmine := hbegan target htarget
  cases phase with
  | asking call => exact ⟨h.1, hlater.asked call _ h.2⟩
  | removing call => exact h
  | loading writerIds allPatches =>
      obtain ⟨hceiling, loaded, hkeys, hloaded⟩ := h
      refine ⟨hceiling, loaded, hkeys, fun hcurrent => ?_⟩
      have hbefore := hmine.frontier_eq hlater.moves hcurrent
      rw [SeekTarget.loadedFrom_moveOn hlater.moves (hbefore.symm.trans hcurrent)]
      exact hloaded hbefore
  | returned state unsaved =>
      obtain ⟨hstate, hunsaved⟩ := h
      refine ⟨?_, fun buffer hbuffer => ?_⟩
      · rcases hstate with hown | ⟨hceiling, hcached⟩
        · exact Or.inl (hown.moveOn hmine hlater.moves)
        · exact Or.inr ⟨hceiling, hcached.later hbegan hlater⟩
      · obtain ⟨hceiling, hyields⟩ := hunsaved buffer hbuffer
        exact ⟨hceiling, hyields.moveOn hmine hlater.moves⟩
  | threw => trivial

/-- What is new in a step is all that is to be looked at. -/
theorem Holds.later (h : system.Holds ports) (hlater : system.Later system')
    (hreadable : system'.repo.ReadableRefs) (hcache : system'.cache.Holds ports.adapter)
    (hbegan : ∀ target ∈ system'.targets, target ∈ system.targets ∨ target.Began system'.repo)
    (hstored : ∀ key buffer indexTreeOid, .set key buffer indexTreeOid ∈ system'.cache.asked →
      .set key buffer indexTreeOid ∈ system.cache.asked ∨
        system.FromRead ports key fun replayed => serializeFullStateV5 ports.codec replayed = .ok buffer)
    (hreads : ∀ pair ∈ system'.reads, pair ∈ system.reads ∨ system'.PhaseHolds ports pair.1 pair.2) :
    system'.Holds ports where
  readable := hreadable
  cache := hcache
  began target htarget := (hbegan target htarget).elim (fun hold => (h.began target hold).moveOn hlater.moves) id
  stored key buffer indexTreeOid hset := by
    have hbefore := (hstored key buffer indexTreeOid hset).elim (h.stored key buffer indexTreeOid) id
    exact hbefore.later h.began hlater
  reads pair hpair := by
    rcases hreads pair hpair with hold | hnew
    · exact (h.reads pair hold).later (List.mem_map_of_mem hold) h.began hlater
    · exact hnew

/-- What a `get` of the cache finds is what some read has stored. -/
theorem Holds.fromRead (h : system.Holds ports) {call : Nat} {key : JsString}
    (hasked : system.cache.asked[call]? = some (.get key)) {buffer : Buffer} {indexTreeOid : Option JsString}
    (hsettled : system.cache.settled call = some (.found buffer indexTreeOid)) :
    system.FromRead ports key fun replayed => serializeFullStateV5 ports.codec replayed = .ok buffer := by
  unfold SeekWorld.settled at hsettled
  unfold SeekWorld.asked at hasked
  rw [List.getElem?_map] at hasked
  split at hsettled
  · rename_i asked result hcall
    rw [hcall] at hasked
    cases hasked
    cases hsettled
    obtain ⟨given, hgiven, -⟩ := h.cache.calls _ (List.mem_of_getElem? hcall) key rfl
    exact h.stored key buffer given hgiven
  · cases hsettled
  · cases hsettled

theorem PhaseHolds.resume (hcodec : ports.codec.Inverts) (h : system.Holds ports) {target : SeekTarget}
    {phase : SeekReadPhase V Buffer} (hphase : system.PhaseHolds ports target phase) :
    (∀ call ∈ (target.resume ports system.repo system.cache phase).1, ∃ key, call = .delete key) ∧
      system.PhaseHolds ports target (target.resume ports system.repo system.cache phase).2 := by
  have hquiet : ∀ call ∈ (none : Option (SeekCall Buffer)), ∃ key, call = .delete key := fun call hcall => by cases hcall
  fun_cases SeekTarget.resume target ports system.repo system.cache phase
  case case1 => exact ⟨hquiet, hphase⟩
  case case2 call buffer indexTreeOid hsettled state hstate =>
    -- the cached buffer is read
    refine ⟨hquiet, Or.inr ⟨hphase.1, ?_⟩, fun buffer hbuffer => by cases hbuffer⟩
    obtain ⟨origin, horigin, hkey, hceiling, hyields⟩ := h.fromRead hphase.2 hsettled
    refine ⟨origin, horigin, hkey, hceiling, hyields.imp fun replayed hreplayed => ?_⟩
    obtain ⟨loaded, hloaded, hreload⟩ := exists_reload hcodec hreplayed
    rw [hstate] at hloaded
    cases hloaded
    exact hreload
  case case3 =>
    refine ⟨fun call hcall => ?_, hphase.1⟩
    cases hcall
    exact ⟨_, rfl⟩
  case case4 => exact ⟨hquiet, hphase.1, [], rfl, fun _ => rfl⟩
  case case5 => exact ⟨hquiet, hphase⟩
  case case6 => exact ⟨hquiet, hphase, [], rfl, fun _ => rfl⟩
  case case7 writerId writerIds allPatches writerPatches =>
    -- one more writer is loaded
    obtain ⟨hceiling, loaded, hkeys, hloaded⟩ := hphase
    refine ⟨hquiet, hceiling, loaded ++ [writerId], ?_, fun hcurrent => ?_⟩
    · rw [hkeys, List.append_assoc]
      rfl
    · rw [hloaded hcurrent]
      unfold SeekTarget.loadedFrom
      rw [List.flatMap_append, List.filter_append, List.flatMap_singleton]
  case case8 allPatches hempty =>
    obtain ⟨hceiling, loaded, hkeys, hloaded⟩ := hphase
    rw [List.append_nil] at hkeys
    refine ⟨hquiet, Or.inl fun hcurrent => ⟨createEmptyStateV5, ?_, rfl⟩, fun buffer hbuffer => by cases hbuffer⟩
    rw [← SeekTarget.loadedFrom_keys hceiling hcurrent, hkeys, ← hloaded hcurrent, List.isEmpty_iff.mp hempty]
    rfl
  case case9 allPatches hsome state hstate =>
    -- all writers are loaded
    obtain ⟨hceiling, loaded, hkeys, hloaded⟩ := hphase
    rw [List.append_nil] at hkeys
    have hreduce : target.frontier = system.repo.getFrontier →
        reduceV5 (system.repo.patchesUpTo target.ceiling) = .ok state := by
      intro hcurrent
      rw [← SeekTarget.loadedFrom_keys hceiling hcurrent, hkeys, ← hloaded hcurrent]
      exact hstate
    refine ⟨hquiet, Or.inl fun hcurrent => ⟨state, hreduce hcurrent, rfl⟩, fun buffer hbuffer => ⟨hceiling, fun hcurrent => ?_⟩⟩
    refine ⟨state, hreduce hcurrent, ?_⟩
    cases hserialized : serializeFullStateV5 ports.codec state with
    | error err => rw [hserialized] at hbuffer; cases hbuffer
    | ok buffer' =>
        rw [hserialized] at hbuffer
        cases hbuffer
        exact hserialized
  case case10 => exact ⟨hquiet, trivial⟩
  case case11 => exact ⟨hquiet, hphase⟩

theorem later_of_asked {cache : SeekWorld Buffer} {calls : List (SeekCall Buffer)}
    (hasked : cache.asked = system.cache.asked ++ calls) {reads : List (SeekTarget × SeekReadPhase V Buffer)}
    (htargets : ∀ target ∈ system.targets, target ∈ reads.map Prod.fst) : system.Later ⟨system.repo, cache, reads⟩ := by
  refine ⟨.refl _, htargets, fun i call hcall => ?_⟩
  dsimp only
  rw [hasked, List.getElem?_append_left (List.getElem?_eq_some_iff.mp hcall).1]
  exact hcall

/-- The cache gets some calls or none, and the reads go on. -/
theorem Holds.goOn (h : system.Holds ports) {cache : SeekWorld Buffer} (hcache : cache.Holds ports.adapter)
    {calls : List (SeekCall Buffer)} (hasked : cache.asked = system.cache.asked ++ calls)
    (hset : ∀ key buffer indexTreeOid, .set key buffer indexTreeOid ∈ calls →
      system.FromRead ports key fun replayed => serializeFullStateV5 ports.codec replayed = .ok buffer)
    {reads : List (SeekTarget × SeekReadPhase V Buffer)} (htargets : ∀ target ∈ system.targets, target ∈ reads.map Prod.fst)
    (hnew : ∀ pair ∈ reads, pair ∈ system.reads ∨ pair.1.Began system.repo ∧
      (⟨system.repo, cache, reads⟩ : SeekSystem V Buffer).PhaseHolds ports pair.1 pair.2) :
    (⟨system.repo, cache, reads⟩ : SeekSystem V Buffer).Holds ports := by
  refine h.later (later_of_asked hasked htargets) h.readable hcache (fun target htarget => ?_)
    (fun key buffer indexTreeOid hmem => ?_) fun pair hpair => (hnew pair hpair).imp_right And.right
  · obtain ⟨pair, hpair, rfl⟩ := List.mem_map.mp htarget
    exact (hnew pair hpair).imp (fun hold => List.mem_map_of_mem hold) And.left
  · dsimp only at hmem
    rw [hasked] at hmem
    exact (List.mem_append.mp hmem).imp_right (hset key buffer indexTreeOid)

theorem Holds.materialize (h : system.Holds ports) (hrestores : ports.adapter.RestoresSet system.cache.asked)
    (ceiling : Int) : (system.apply ports (.materialize ceiling)).Holds ports := by
  have hbegan : SeekTarget.Began ⟨ceiling, system.repo.getFrontier⟩ system.repo :=
    ⟨system.repo, rfl, .refl _, h.readable⟩
  have htargets : ∀ phase : SeekReadPhase V Buffer, ∀ target ∈ system.targets, target ∈
      (system.reads ++ [((⟨ceiling, system.repo.getFrontier⟩ : SeekTarget), phase)]).map Prod.fst := by
    intro phase target htarget
    rw [List.map_append]
    exact List.mem_append_left _ htarget
  unfold SeekSystem.apply
  dsimp only
  split
  · rename_i hnothing
    refine h.goOn h.cache (List.append_nil _).symm (fun _ _ _ hset => by cases hset) (htargets _) fun pair hpair => ?_
    rcases List.mem_append.mp hpair with hold | hlast
    · exact Or.inl hold
    rw [List.mem_singleton.mp hlast]
    refine Or.inr ⟨hbegan, Or.inl fun _ => ⟨createEmptyStateV5, ?_, rfl⟩, fun buffer hbuffer => by cases hbuffer⟩
    have hnone : system.repo.patchesUpTo ceiling = [] := by
      unfold Repository.patchesUpTo
      split
      · rfl
      · rename_i hpositive
        rw [List.isEmpty_iff.mp (hnothing.resolve_right hpositive)]
        rfl
    dsimp only
    rw [hnone]
    rfl
  · rename_i hsome
    rw [not_or, not_le] at hsome
    refine h.goOn (h.cache.step hrestores _) (SeekWorld.asked_call _ _)
      (fun _ _ _ hset => by cases List.mem_singleton.mp hset) (htargets _) fun pair hpair => ?_
    rcases List.mem_append.mp hpair with hold | hlast
    · exact Or.inl hold
    rw [List.mem_singleton.mp hlast]
    refine Or.inr ⟨hbegan, hsome.2, ?_⟩
    have hlength : system.cache.asked.length = system.cache.calls.length := List.length_map _
    dsimp only
    rw [SeekWorld.asked_call, ← hlength, List.getElem?_concat_length]

theorem Holds.resume (hcodec : ports.codec.Inverts) (h : system.Holds ports)
    (hrestores : ports.adapter.RestoresSet system.cache.asked) (i : Nat) :
    (system.apply ports (.resume i)).Holds ports := by
  cases hread : system.reads[i]? with
  | none =>
      have hsame : system.apply ports (.resume i) = system := by simp only [SeekSystem.apply, hread]
      rw [hsame]
      exact h
  | some pair =>
      obtain ⟨target, phase⟩ := pair
      have hmem := List.mem_of_getElem? hread
      have htarget : target ∈ system.targets := List.mem_map_of_mem hmem
      obtain ⟨hcalls, hphase⟩ := PhaseHolds.resume hcodec h (h.reads _ hmem)
      have htargets : ∀ other ∈ system.targets, other ∈
          (system.reads.set i (target, (target.resume ports system.repo system.cache phase).2)).map Prod.fst := by
        rw [Lists.map_fst_set hread]
        exact fun _ hother => hother
      unfold SeekSystem.apply
      simp only [hread]
      cases hcall : (target.resume ports system.repo system.cache phase).1 with
      | none =>
          refine h.goOn h.cache (List.append_nil _).symm (fun _ _ _ hset => by cases hset) htargets fun pair hpair => ?_
          rcases List.mem_or_eq_of_mem_set hpair with hold | rfl
          · exact Or.inl hold
          · exact Or.inr ⟨h.began target htarget, hphase.later htarget h.began
              (later_of_asked (List.append_nil _).symm htargets)⟩
      | some call =>
          obtain ⟨key, rfl⟩ := hcalls call hcall
          refine h.goOn (h.cache.step hrestores _) (SeekWorld.asked_call _ _)
            (fun _ _ _ hset => by cases List.mem_singleton.mp hset) htargets fun pair hpair => ?_
          rcases List.mem_or_eq_of_mem_set hpair with hold | rfl
          · exact Or.inl hold
          · exact Or.inr ⟨h.began target htarget, hphase.later htarget h.began
              (later_of_asked (SeekWorld.asked_call _ _) htargets)⟩

theorem Holds.persist (h : system.Holds ports) (hrestores : ports.adapter.RestoresSet system.cache.asked) (i : Nat)
    (indexTreeOid : Option JsString) : (system.apply ports (.persist i indexTreeOid)).Holds ports := by
  unfold SeekSystem.apply
  dsimp only
  split
  · rename_i target state buffer hread
    have hmem := List.mem_of_getElem? hread
    have htarget : target ∈ system.targets := List.mem_map_of_mem hmem
    have hphase := h.reads _ hmem
    obtain ⟨hceiling, hyields⟩ := hphase.2 buffer rfl
    have htargets : ∀ other ∈ system.targets, other ∈
        (system.reads.set i (target, .returned state none)).map Prod.fst := by
      rw [Lists.map_fst_set hread]
      exact fun _ hother => hother
    have hsaved : system.PhaseHolds ports target (.returned state none) :=
      ⟨hphase.1, fun buffer hbuffer => by cases hbuffer⟩
    refine h.goOn (h.cache.step hrestores _) (SeekWorld.asked_call _ _) (fun key buffer' indexTreeOid' hset => ?_) htargets
      fun pair hpair => ?_
    · cases List.mem_singleton.mp hset
      exact ⟨target, htarget, rfl, hceiling, hyields⟩
    · rcases List.mem_or_eq_of_mem_set hpair with hold | rfl
      · exact Or.inl hold
      · exact Or.inr ⟨h.began target htarget, hsaved.later htarget h.began
          (later_of_asked (SeekWorld.asked_call _ _) htargets)⟩
  · exact h

theorem Holds.step (hcodec : ports.codec.Inverts) (h : system.Holds ports)
    (hrestores : ports.adapter.RestoresSet system.cache.asked) (hstep : system.Step ports system') : system'.Holds ports := by
  cases hstep with
  | apply event =>
      cases event with
      | materialize ceiling => exact h.materialize hrestores ceiling
      | resume i => exact h.resume hcodec hrestores i
      | persist i indexTreeOid => exact h.persist hrestores i indexTreeOid
      | act call act =>
          exact h.goOn (h.cache.step hrestores _) ((SeekWorld.asked_act _ _ _).trans (List.append_nil _).symm)
            (fun _ _ _ hset => by cases hset) (fun _ htarget => htarget) fun _ hpair => Or.inl hpair
  | moveOn hmoves hreadable =>
      exact h.later ⟨hmoves, fun _ htarget => htarget, fun _ _ hcall => hcall⟩ hreadable h.cache
        (fun _ htarget => Or.inl htarget) (fun _ _ _ hset => Or.inl hset) fun _ hpair => Or.inl hpair
  | call hcall =>
      exact h.goOn (h.cache.step hrestores _) (SeekWorld.asked_call _ _)
        (fun key buffer indexTreeOid hset => absurd (List.mem_singleton.mp hset).symm (hcall key buffer indexTreeOid))
        (fun _ htarget => htarget) fun _ hpair => Or.inl hpair

theorem asked_step (hstep : system.Step ports system') : system.cache.asked ⊆ system'.cache.asked := by
  have hcall : ∀ call, system.cache.asked ⊆ (system.cache.step ports.adapter (.call call)).asked := by
    intro call
    rw [SeekWorld.asked_call]
    exact List.subset_append_left _ _
  cases hstep with
  | apply event =>
      cases event with
      | materialize ceiling =>
          unfold SeekSystem.apply
          dsimp only
          split
          · exact List.Subset.refl _
          · exact hcall _
      | resume i =>
          cases hread : system.reads[i]? with
          | none =>
              simp only [SeekSystem.apply, hread]
              exact List.Subset.refl _
          | some pair =>
              simp only [SeekSystem.apply, hread]
              cases (pair.1.resume ports system.repo system.cache pair.2).1 with
              | none => exact List.Subset.refl _
              | some call => exact hcall call
      | persist i indexTreeOid =>
          unfold SeekSystem.apply
          dsimp only
          split
          · exact hcall _
          · exact List.Subset.refl _
      | act call act =>
          simp only [SeekSystem.apply, SeekWorld.asked_act]
          exact List.Subset.refl _
  | moveOn => exact List.Subset.refl _
  | call => exact hcall _

/-- A cache without calls, and no reads. -/
def start (repo : Repository V) : SeekSystem V Buffer := ⟨repo, .empty, []⟩

theorem holds_start {repo : Repository V} (hreadable : repo.ReadableRefs) : (start repo : SeekSystem V Buffer).Holds ports where
  readable := hreadable
  cache := SeekWorld.holds_empty
  began target h := by cases h
  stored key buffer indexTreeOid h := by cases h
  reads pair h := by cases h

theorem holds_run (hcodec : ports.codec.Inverts) {repo : Repository V} (hreadable : repo.ReadableRefs)
    (hrun : Relation.ReflTransGen (Step ports) (start repo) system)
    (hrestores : ports.adapter.RestoresSet system.cache.asked) : system.Holds ports := by
  induction hrun with
  | refl => exact holds_start hreadable
  | tail _ hstep ih => 
      have hbefore := hrestores.mono (asked_step hstep)
      exact (ih hbefore).step hcodec hbefore hstep

theorem reaches_events (events : List Event) {before : SeekSystem V Buffer}
    (hbefore : Relation.ReflTransGen (Step ports) before system) :
    Relation.ReflTransGen (Step ports) before (events.foldl (SeekSystem.apply ports) system) := by
  induction events generalizing system with
  | nil => exact hbefore
  | cons event rest ih => exact ih (hbefore.tail (.apply event))

/-- One writer with one patch. -/
def oneWriter : Repository Nat where
  store := ⟨[(js "aaaa", ⟨[], .patch ⟨2, js "alice", 1, .record [], [.nodeAdd (js "n") ⟨js "alice", 1⟩]⟩⟩)],
    ⟨List.not_mem_nil, fun p hp => by cases hp⟩, trivial⟩
  refs := JsMap.empty.set (js "alice") (js "aaaa")
  checkpointRef := none
  refsExist writerId tip h := by
    rw [JsMap.get_set] at h
    split at h
    · cases h
      decide
    · cases h
  checkpointExists sha h := by cases h

theorem readable_oneWriter : oneWriter.ReadableRefs := by
  have honly : ∀ writerId tip, oneWriter.refs.get writerId = some tip → writerId = js "alice" ∧ tip = js "aaaa" := by
    intro writerId tip h
    change (JsMap.empty.set (js "alice") (js "aaaa")).get writerId = some tip at h
    rw [JsMap.get_set] at h
    split at h
    · rename_i hwriter
      cases h
      exact ⟨hwriter, rfl⟩
    · cases h
  refine ⟨fun writerId tip h => ?_, fun writerId tip h => ?_⟩
  · rw [(honly writerId tip h).1]
    decide
  · rw [(honly writerId tip h).2]
    exact List.all_eq_true.mp (by decide)

/-- What a cache of one buffer holds. -/
def onlyBuffer : FullStateObject Nat :=
  ((reduceV5 (oneWriter.patchesUpTo 5)).bind fullStateObject).toOption.getD ⟨none, none, none, none, none, none, none⟩

def onlyPorts : SeekPorts Nat (FullStateObject Nat) where
  codec := ⟨id, fun obj => .ok (some obj)⟩
  hash := id
  adapter := ⟨1, fun _ _ _ => js "tree", fun _ => some onlyBuffer, fun _ => 1⟩

/-- A read that replays, and one that gets what the first one has stored. -/
def readTwice : List Event :=
  [.materialize 5, .act 0 (.readIndex .reads (js "1")), .resume 0, .resume 0, .resume 0, .persist 0 none,
    .act 1 (.store (some 0)), .act 1 (.readIndex .reads (js "2")), .act 1 (.writeIndex false),
    .materialize 5, .act 2 (.readIndex .reads (js "3")), .act 2 (.restore true), .act 2 (.readIndex .reads (js "4")),
    .act 2 (.writeIndex false), .resume 1]

def readTwiceSystem : SeekSystem Nat (FullStateObject Nat) :=
  readTwice.foldl (SeekSystem.apply onlyPorts) (start oneWriter)

theorem asked_readTwice : readTwiceSystem.cache.asked =
    [.get (SeekTarget.key ⟨5, oneWriter.getFrontier⟩ id), .set (SeekTarget.key ⟨5, oneWriter.getFrontier⟩ id) onlyBuffer none,
      .get (SeekTarget.key ⟨5, oneWriter.getFrontier⟩ id)] := by rfl

theorem restores_readTwice : onlyPorts.adapter.RestoresSet readTwiceSystem.cache.asked := by
  intro key buffer indexTreeOid hset slug nonce
  rw [asked_readTwice, List.mem_cons, List.mem_cons, List.mem_singleton] at hset
  rcases hset with hset | hset | hset
  · cases hset
  · cases hset
    rfl
  · cases hset

def loadedState : WarpStateV5 Nat :=
  (deserializeFullStateV5 onlyPorts.codec (some onlyBuffer)).toOption.getD createEmptyStateV5

/-- Two reads whose payloads have one hash have one payload. -/
def NoCollision (hash : JsString → JsString) (system : SeekSystem V Buffer) : Prop :=
  ∀ a ∈ system.targets, ∀ b ∈ system.targets, hash a.payload = hash b.payload → a.payload = b.payload

/-- Whatever reads, commits and calls of the cache go on beside each other, a read whose tips have not moved gives the
state that a replay of the patches up to its ceiling gives, as it is or stored and loaded once. -/
theorem read_is_replay (hcodec : ports.codec.Inverts) {repo : Repository V} (hreadable : repo.ReadableRefs)
    (hrun : Relation.ReflTransGen (Step ports) (start repo) system)
    (hrestores : ports.adapter.RestoresSet system.cache.asked) (hhash : system.NoCollision ports.hash)
    {target : SeekTarget} {state : WarpStateV5 V} {unsaved : Option Buffer}
    (hread : (target, .returned state unsaved) ∈ system.reads) (hcurrent : target.frontier = system.repo.getFrontier) :
    ∃ replayed, reduceV5 (system.repo.patchesUpTo target.ceiling) = .ok replayed ∧
      (state = replayed ∨ ReloadOf state replayed) := by
  have h := holds_run hcodec hreadable hrun hrestores
  have htarget : target ∈ system.targets := List.mem_map_of_mem hread
  rcases (h.reads _ hread).1 with hown | ⟨hceiling, origin, horigin, hkey, hpositive, hyields⟩
  · obtain ⟨replayed, hreplayed, hsame⟩ := hown hcurrent
    exact ⟨replayed, hreplayed, Or.inl hsame⟩
  · obtain ⟨hceilings, hhashes⟩ := SeekTarget.of_key_eq hpositive hceiling hkey
    have hpayload := hhash origin horigin target htarget hhashes
    have hfrontier : origin.frontier = system.repo.getFrontier := by
      obtain ⟨past, hpast, -, hpastReadable⟩ := h.began origin horigin
      rw [hpast]
      exact hpastReadable.getFrontier_eq_of_payload h.readable hpast hcurrent hpayload
    obtain ⟨replayed, hreplayed, hreload⟩ := hyields hfrontier
    rw [hceilings] at hreplayed
    exact ⟨replayed, hreplayed, Or.inr hreload⟩

theorem read_is_replay_twice :
    readTwiceSystem.reads[1]? = some (⟨5, oneWriter.getFrontier⟩, .returned loadedState none) ∧
      ∃ replayed, reduceV5 (readTwiceSystem.repo.patchesUpTo 5) = .ok replayed ∧
        (loadedState = replayed ∨ ReloadOf loadedState replayed) := by
  have hread : readTwiceSystem.reads[1]? = some (⟨5, oneWriter.getFrontier⟩, .returned loadedState none) := by rfl
  exact ⟨hread, read_is_replay (fun _ => rfl) readable_oneWriter (reaches_events readTwice .refl) restores_readTwice
    (fun _ _ _ _ h => h) (List.mem_of_getElem? hread) rfl⟩

end SeekSystem

end GitWarp
