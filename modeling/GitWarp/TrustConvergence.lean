import GitWarp.TrustChainKept

/-! A retried append among concurrent ones. Each conflict that the call meets is one append by another call, so it
has appended its record before its retries are used up; but a record that was made for one tip and is taken to the
next is refused, so no other append may land between the two. -/

namespace GitWarp
open Js JsValue RefChain

/-! ### The chain as the calls see it -/

/-- The tip that the call goes on from. -/
def AppendCall.seen (call : AppendCall) : Option Sha :=
  match call.phase with
  | .persisting _ tipSha => tipSha
  | .swapping _ _ parentSha _ | .rereading _ _ parentSha _ => parentSha
  | _ => none

/-- What a call says of the commits and of the chain. -/
structure SeesChain (text : TrustText) (commits : JsMap Sha TrustCommit) (ids : List Sha) (call : AppendCall) : Prop where
  seen : Behind ids call.seen
  committed : ∀ record commitSha parentSha, call.pending = some (record, commitSha, parentSha) →
    commits.get commitSha = some ⟨some (text.stored record), parentSha.toList⟩
  resolved : ∀ record commitSha, call.phase = .resolved record commitSha →
    commitSha ∈ ids ∧ ∃ parents, commits.get commitSha = some ⟨some (text.stored record), parents⟩

theorem SeesChain.mono {text : TrustText} {commits commits' : JsMap Sha TrustCommit} {ids ids' : List Sha} {call : AppendCall}
    (h : SeesChain text commits ids call) (hgrows : Grows commits.get commits'.get) (hfront : ids <+: ids') :
    SeesChain text commits' ids' call where
  seen := h.seen.mono hfront
  committed record commitSha parentSha hpending := hgrows _ _ (h.committed record commitSha parentSha hpending)
  resolved record commitSha hphase := by
    obtain ⟨hmem, parents, hget⟩ := h.resolved record commitSha hphase
    exact ⟨hfront.subset hmem, parents, hgrows _ _ hget⟩

theorem seesChain_of_isBare {text : TrustText} {commits : JsMap Sha TrustCommit} {ids : List Sha} {call : AppendCall}
    (h : call.isBare = true) : SeesChain text commits ids call := by
  unfold AppendCall.isBare at h
  split at h
  · rename_i hphase
    refine ⟨?_, ?_, ?_⟩ <;> simp [AppendCall.seen, AppendCall.pending, hphase, Behind]
  · rename_i hphase
    refine ⟨?_, ?_, ?_⟩ <;> simp [AppendCall.seen, AppendCall.pending, hphase, Behind]
  · rename_i hphase
    refine ⟨?_, ?_, ?_⟩ <;> simp [AppendCall.seen, AppendCall.pending, hphase, Behind]
  · cases h

theorem seesChain_pending_iff {text : TrustText} {commits : JsMap Sha TrustCommit} {ids : List Sha} {call : AppendCall}
    {record : JsValue} {commitSha : Sha} {parentSha : Option Sha}
    (h : call.pending = some (record, commitSha, parentSha)) :
    SeesChain text commits ids call ↔
      Behind ids parentSha ∧ commits.get commitSha = some ⟨some (text.stored record), parentSha.toList⟩ := by
  have hphase : call.seen = parentSha ∧ ∀ record commitSha, call.phase ≠ .resolved record commitSha := by
    unfold AppendCall.pending at h
    unfold AppendCall.seen
    split at h
    · rename_i hphase
      cases h
      rw [hphase]
      exact ⟨rfl, nofun⟩
    · rename_i hphase
      cases h
      rw [hphase]
      exact ⟨rfl, nofun⟩
    · cases h
  constructor
  · intro hsees
    exact ⟨hphase.1 ▸ hsees.seen, hsees.committed _ _ _ h⟩
  · rintro ⟨hbehind, hget⟩
    refine ⟨hphase.1 ▸ hbehind, fun record' commitSha' parentSha' h' => ?_, fun record' commitSha' hresolved =>
      absurd hresolved (hphase.2 record' commitSha')⟩
    rw [h] at h'
    cases h'
    exact hget

structure LinearChain (text : TrustText) (system : TrustSystem) (ids : List Sha) : Prop where
  chain : system.repo.IsChain ids
  calls : ∀ call ∈ system.calls, SeesChain text system.repo.commits ids call

/-- A step adds at most one commit to the chain, on top of it. -/
theorem linearChain_step {schema : TrustSchema} {text : TrustText} {system system' : TrustSystem} {event : TrustEvent}
    {ids : List Sha} (h : LinearChain text system ids) (hstep : system.step schema text event = some system') :
    Grows system.repo.commits.get system'.repo.commits.get ∧
      ((system'.repo.ref = system.repo.ref ∧ LinearChain text system' ids) ∨
        ∃ sha, system'.repo.ref = some sha ∧ LinearChain text system' (ids ++ [sha]) ∧
          ∀ older, Behind ids older → system'.repo.ref ≠ older) := by
  have hreplace : ∀ (repo : TrustRepo) (index : Nat) (call call' : AppendCall), system.calls[index]? = some call →
      repo.ref = system.repo.ref → Grows system.repo.commits.get repo.commits.get →
      SeesChain text repo.commits ids call' → LinearChain text ⟨repo, system.calls.set index call'⟩ ids := by
    intro repo index call call' hcall href hgrows hsees
    refine ⟨?_, fun other hother => ?_⟩
    · rw [TrustRepo.IsChain, href]
      exact h.chain.grows hgrows
    · rcases Lists.mem_of_mem_set hcall hother with rfl | hold
      · exact hsees
      · exact (h.calls other hold).mono hgrows (List.prefix_refl ids)
  cases event with
  | call retry skipSignatureVerify record =>
      cases hstep
      refine ⟨Grows.refl _, .inl ⟨rfl, h.chain, fun call hcall => ?_⟩⟩
      rcases List.mem_append.mp hcall with hold | hnew
      · exact h.calls call hold
      · rw [List.mem_singleton.mp hnew]
        exact seesChain_of_isBare (isBare_start retry skipSignatureVerify record)
  | within index event =>
      unfold TrustSystem.step at hstep
      simp only [Option.bind_eq_bind, Option.bind_eq_some_iff, Option.pure_def, Option.some.injEq] at hstep
      obtain ⟨call, hcall, ⟨repo, call'⟩, heffect, rfl⟩ := hstep
      have hsees := h.calls call (List.mem_of_getElem? hcall)
      cases AppendCall.effect_of_step heffect with
      | bare hnone hbare =>
          exact ⟨Grows.refl _, .inl ⟨rfl, hreplace _ _ _ _ hcall rfl (Grows.refl _) (seesChain_of_isBare hbare)⟩⟩
      | @read record tipSha refReadable hphase hchecked hprev hseen =>
          refine ⟨Grows.refl _, .inl ⟨rfl, hreplace _ _ _ _ hcall rfl (Grows.refl _) ⟨?_, ?_, ?_⟩⟩⟩
          · rcases hseen with rfl | rfl
            · rintro _ ⟨⟩
            · exact h.chain.behind
          · rintro _ _ _ ⟨⟩
          · rintro _ _ ⟨⟩
      | @committed record tipSha sha repo' hphase href hgrows hget =>
          have hseen := hsees.seen
          rw [AppendCall.seen, hphase] at hseen
          exact ⟨hgrows, .inl ⟨href, hreplace _ _ _ _ hcall href hgrows
            ((seesChain_pending_iff rfl).mpr ⟨hseen, hget⟩)⟩⟩
      | @swapped record commitSha spurious hpending =>
          obtain ⟨-, hget⟩ := (seesChain_pending_iff hpending).mp hsees
          refine ⟨Grows.refl _, .inr ⟨commitSha, rfl, ⟨.snoc hget rfl h.chain, fun other hother => ?_⟩,
            fun older holder => h.chain.ne_of_behind holder hget rfl⟩⟩
          rcases Lists.mem_of_mem_set hcall hother with rfl | hold
          · refine ⟨?_, ?_, ?_⟩
            · rintro _ ⟨⟩
            · rintro _ _ _ ⟨⟩
            · rintro _ _ ⟨⟩
              exact ⟨List.mem_append_right _ (List.mem_singleton_self _), _, hget⟩
          · exact (h.calls other hold).mono (Grows.refl _) (List.prefix_append _ _)
      | @waiting event call' entry hpending hpending' =>
          obtain ⟨record, commitSha, parentSha⟩ := entry
          exact ⟨Grows.refl _, .inl ⟨rfl, hreplace _ _ _ _ hcall rfl (Grows.refl _)
            ((seesChain_pending_iff hpending').mpr ((seesChain_pending_iff hpending).mp hsees))⟩⟩

theorem exists_linearChain {schema : TrustSchema} {text : TrustText} {events : List TrustEvent} {system : TrustSystem}
    (hrun : Runs.run (TrustSystem.step schema text) TrustSystem.empty events = some system) :
    ∃ ids, LinearChain text system ids := by
  refine Runs.invariant_of_run (I := fun system => ∃ ids, LinearChain text system ids) (fun _ _ _ h _ hstep => ?_)
    ⟨[], .nil, fun _ hcall => absurd hcall List.not_mem_nil⟩ (Runs.meets_of_forall (fun _ _ _ => trivial) _) hrun
  obtain ⟨ids, hids⟩ := h
  obtain ⟨-, ⟨-, hnext⟩ | ⟨sha, -, hnext, -⟩⟩ := linearChain_step hids hstep
  · exact ⟨ids, hnext⟩
  · exact ⟨ids ++ [sha], hnext⟩

/-! ### One call among the others -/

/-- The event is a step of this call. -/
def TrustEvent.isOf (mine : Nat) : TrustEvent → Bool
  | .within index _ => index = mine
  | .call _ _ _ => false

/-- How many steps of others move the ref along a run. -/
def rivalAppends (schema : TrustSchema) (text : TrustText) (mine : Nat) : TrustSystem → List TrustEvent → Nat
  | _, [] => 0
  | system, event :: rest =>
      match system.step schema text event with
      | none => 0
      | some next =>
          (if event.isOf mine = false ∧ next.repo.ref ≠ system.repo.ref then 1 else 0) +
            rivalAppends schema text mine next rest

theorem rivalAppends_le_countP (schema : TrustSchema) (text : TrustText) (mine : Nat) (system : TrustSystem)
    (events : List TrustEvent) :
    rivalAppends schema text mine system events ≤ events.countP fun event => !event.isOf mine := by
  induction events generalizing system with
  | nil => exact Nat.zero_le _
  | cons event rest ih =>
      rw [rivalAppends, List.countP_cons]
      cases hstep : system.step schema text event with
      | none => exact Nat.zero_le _
      | some next =>
          have hnext := ih next
          dsimp only
          split
          · rename_i hrival
            rw [hrival.1, Bool.not_false, if_pos rfl]
            omega
          · omega

/-- The record's prev-link is what reading the tip gives. -/
def NamesTip (repo : TrustRepo) (record : JsValue) : Prop :=
  ∃ tipSha, repo.readTip = .ok (tipSha, record.get (js "prev"))

/-- What the call is promised: its persistence calls do not fail but where the ref has moved, and the `resign`
function returns a valid record for the prev-link it is given. -/
def AppendCall.Promised (schema : TrustSchema) (text : TrustText) (call : AppendCall) : AppendCall.Event → Prop
  | .readTip refReadable | .rereadTip refReadable => refReadable = true
  | .swap spurious => spurious = false
  | .fail _ => False
  | .commit _ => True
  | .resign record => checkRecord schema text call.skipSignatureVerify record = .ok () ∧
      ∀ rebuilt, call.phase = .resigning rebuilt → record.get (js "prev") = rebuilt.get (js "prev")

def Promised (schema : TrustSchema) (text : TrustText) (mine : Nat) (system : TrustSystem) (event : TrustEvent) :
    Prop :=
  ∀ own, event = .within mine own → ∀ call ∈ system.calls[mine]?, call.Promised schema text own

/-- The call has a record for a tip that it has not read yet. -/
def AppendCall.awaitsTip (call : AppendCall) : Bool :=
  match call.phase with
  | .attempting _ | .resigning _ => true
  | _ => false

/-- No other call moves the ref while this one has a record for the tip but has not read the tip. -/
def NoRivalBeforeTip (schema : TrustSchema) (text : TrustText) (mine : Nat) (system : TrustSystem)
    (event : TrustEvent) : Prop :=
  event.isOf mine = false → ∀ call ∈ system.calls[mine]?, call.awaitsTip = true →
    ∀ next ∈ system.step schema text event, next.repo.ref = system.repo.ref

/-- Where the call stands after so many appends by others and so many steps of its own. -/
def OnCourse (schema : TrustSchema) (text : TrustText) (repo : TrustRepo) (call : AppendCall) (rivals own : Nat) :
    Prop :=
  match call.phase with
  | .attempting record => call.attempt ≤ rivals ∧ own ≤ 5 * call.attempt ∧
      checkRecord schema text call.skipSignatureVerify record = .ok () ∧ NamesTip repo record
  | .persisting _ tipSha => call.attempt ≤ rivals ∧ own ≤ 5 * call.attempt + 1 ∧
      (repo.ref ≠ tipSha → call.attempt + 1 ≤ rivals)
  | .swapping _ _ parentSha _ => call.attempt ≤ rivals ∧ own ≤ 5 * call.attempt + 2 ∧
      (repo.ref ≠ parentSha → call.attempt + 1 ≤ rivals)
  | .rereading _ _ parentSha _ => call.attempt + 1 ≤ rivals ∧ own ≤ 5 * call.attempt + 3 ∧ repo.ref ≠ parentSha
  | .resigning rebuilt => call.attempt ≤ rivals ∧ own + 1 ≤ 5 * call.attempt ∧ NamesTip repo rebuilt
  | .resolved _ _ => True
  | .thrown _ => False

theorem readTip_of_chain {repo : TrustRepo} {ids : List Sha} (h : repo.IsChain ids) :
    ∃ recordId, repo.readTip = .ok (repo.ref, recordId) := by
  obtain ⟨commits, ref⟩ := repo
  cases h with
  | nil => exact ⟨.null, rfl⟩
  | @snoc tip commit prev ids hget hparents hrest =>
      refine ⟨(commit.record.map TrustRepo.recordIdOrNull).getD .null, ?_⟩
      unfold TrustRepo.readTip
      dsimp only at hget ⊢
      rw [hget]

theorem readTip_grows {repo repo' : TrustRepo} {tip : Option Sha × JsValue} (h : repo.readTip = .ok tip)
    (href : repo'.ref = repo.ref) (hgrows : Grows repo.commits.get repo'.commits.get) : repo'.readTip = .ok tip := by
  unfold TrustRepo.readTip at h ⊢
  rw [href]
  split at h
  · exact h
  · split at h
    · cases h
    · rename_i commit hget
      rw [hgrows _ _ hget]
      exact h

theorem NamesTip.grows {repo repo' : TrustRepo} {record : JsValue} (h : NamesTip repo record)
    (href : repo'.ref = repo.ref) (hgrows : Grows repo.commits.get repo'.commits.get) : NamesTip repo' record := by
  obtain ⟨tipSha, hread⟩ := h
  exact ⟨tipSha, readTip_grows hread href hgrows⟩

theorem get_withField (key : JsString) (value : JsValue) (record : JsValue) : (withField key value record).get key = value := by
  unfold withField
  split <;> exact (get_cons _ _ _ _).trans (if_pos rfl)

/-- A step of the call itself. -/
theorem onCourse_own {schema : TrustSchema} {text : TrustText} {repo repo' : TrustRepo} {call call' : AppendCall}
    {options : RetryOptions} {event : AppendCall.Event} {rivals own : Nat} {ids : List Sha} (hchain : repo.IsChain ids)
    (hretry : call.retry = some options) (hresigns : options.resigns = true)
    (hrivals : (rivals : Int) ≤ options.maxRetries) (h : OnCourse schema text repo call rivals own)
    (hpromised : call.Promised schema text event)
    (hstep : call.step schema text repo event = some (repo', call')) :
    OnCourse schema text repo' call' rivals (own + 1) ∧ call'.retry = some options := by
  unfold AppendCall.step at hstep
  split at hstep
  · rename_i record refReadable hphase
    cases hstep
    have hreadable : refReadable = true := hpromised
    subst hreadable
    unfold OnCourse at h
    rw [hphase] at h
    obtain ⟨hattempt, hown, hchecked, tipSha, hread⟩ := h
    obtain ⟨recordId, htip⟩ := readTip_of_chain hchain
    have hsame := htip.symm.trans hread
    rw [Except.ok.injEq, Prod.mk.injEq] at hsame
    obtain ⟨rfl, rfl⟩ := hsame
    obtain ⟨parsed, hparsed⟩ := checked_of_checkRecord hchecked
    have hself : sameId (record.get (js "prev")) (record.get (js "prev")) = true := by
      rw [hparsed.get_prev]
      exact sameId_self parsed.prev
    have hafter : call.afterTip schema text repo record true = .persisting record repo.ref := by
      simp only [AppendCall.afterTip, hchecked, AppendCall.tipRead, if_true, hread, hself]
    rw [hafter]
    exact ⟨⟨hattempt, by dsimp only; omega, fun hmoved => absurd rfl hmoved⟩, hretry⟩
  · rename_i record tipSha sha hphase
    obtain ⟨repo1, hcommit, hresult⟩ := Option.map_eq_some_iff.mp hstep
    cases hresult
    have href : repo'.ref = repo.ref := by
      unfold AppendCall.commitTo at hcommit
      dsimp only at hcommit
      split at hcommit
      · split at hcommit
        · cases hcommit
          rfl
        · cases hcommit
      · cases hcommit
        rfl
    unfold OnCourse at h ⊢
    rw [hphase] at h
    obtain ⟨hattempt, hown, hmoved⟩ := h
    rw [href]
    exact ⟨⟨hattempt, by dsimp only; omega, hmoved⟩, hretry⟩
  · rename_i record commitSha parentSha attempt spurious hphase
    have hspurious : spurious = false := hpromised
    subst hspurious
    rw [Option.some.injEq] at hstep
    unfold AppendCall.swapRef at hstep
    unfold OnCourse at h
    rw [hphase] at h
    obtain ⟨hattempt, hown, hmoved⟩ := h
    split at hstep
    · cases hstep
      exact ⟨trivial, hretry⟩
    · rename_i hne
      cases hstep
      have href : repo.ref ≠ parentSha := by simpa using hne
      exact ⟨⟨hmoved href, by dsimp only; omega, href⟩, hretry⟩
  · rename_i record commitSha parentSha attempt refReadable hphase
    cases hstep
    have hreadable : refReadable = true := hpromised
    subst hreadable
    unfold OnCourse at h
    rw [hphase] at h
    obtain ⟨hattempt, hown, href⟩ := h
    obtain ⟨recordId, htip⟩ := readTip_of_chain hchain
    have hnot : ¬ ((call.attempt : Int) = options.maxRetries) := by omega
    have hafter : call.afterReread repo record commitSha parentSha attempt true =
        { call with attempt := call.attempt + 1, phase := .resigning (withField (js "prev") recordId record) } := by
      simp only [AppendCall.afterReread, AppendCall.tipRead, if_true, htip, if_neg href, AppendCall.afterConflict,
        hretry, if_neg hnot, hresigns]
    rw [hafter]
    exact ⟨⟨hattempt, by dsimp only; omega, _, by rw [get_withField]; exact htip⟩, hretry⟩
  · rename_i rebuilt record hphase
    cases hstep
    obtain ⟨hchecked, hprev⟩ := hpromised
    unfold OnCourse at h
    rw [hphase] at h
    obtain ⟨hattempt, hown, tipSha, hread⟩ := h
    refine ⟨⟨hattempt, by dsimp only; omega, hchecked, tipSha, ?_⟩, hretry⟩
    rw [hprev rebuilt hphase]
    exact hread
  · exact hpromised.elim
  · exact hpromised.elim
  · exact hpromised.elim
  · exact hpromised.elim
  · cases hstep

/-- A step of another call. -/
theorem onCourse_other {schema : TrustSchema} {text : TrustText} {system next : TrustSystem} {event : TrustEvent}
    {mine : Nat} {call : AppendCall} {rivals own : Nat} {ids : List Sha} (hchain : LinearChain text system ids)
    (hstep : system.step schema text event = some next) (hcall : system.calls[mine]? = some call)
    (hother : event.isOf mine = false) (hwindow : NoRivalBeforeTip schema text mine system event)
    (h : OnCourse schema text system.repo call rivals own) :
    OnCourse schema text next.repo call (rivals + if next.repo.ref ≠ system.repo.ref then 1 else 0) own := by
  obtain ⟨hgrows, hlinear⟩ := linearChain_step hchain hstep
  have hsees := (hchain.calls call (List.mem_of_getElem? hcall)).seen
  -- a tip that was seen and is not the ref any more does not become it again
  have hnever : ∀ older, call.seen = older → system.repo.ref ≠ older → next.repo.ref ≠ older := by
    rintro older rfl hne
    rcases hlinear with ⟨href, -⟩ | ⟨sha, -, -, hnew⟩
    · rwa [href]
    · exact hnew _ hsees
  have hwaits : call.awaitsTip = true → next.repo.ref = system.repo.ref := fun hawaits =>
    hwindow hother call hcall hawaits next hstep
  unfold OnCourse at h ⊢
  cases hphase : call.phase with
  | attempting record =>
      rw [hphase] at h
      obtain ⟨hattempt, hown, hchecked, htip⟩ := h
      have href := hwaits (by rw [AppendCall.awaitsTip, hphase])
      exact ⟨Nat.le_add_right_of_le hattempt, hown, hchecked, htip.grows href hgrows⟩
  | persisting record tipSha =>
      rw [hphase] at h
      obtain ⟨hattempt, hown, hmoved⟩ := h
      refine ⟨Nat.le_add_right_of_le hattempt, hown, fun hne => ?_⟩
      by_cases href : next.repo.ref = system.repo.ref
      · exact Nat.le_add_right_of_le (hmoved (href ▸ hne))
      · rw [if_pos href]
        exact Nat.succ_le_succ hattempt
  | swapping record commitSha parentSha attempt =>
      rw [hphase] at h
      obtain ⟨hattempt, hown, hmoved⟩ := h
      refine ⟨Nat.le_add_right_of_le hattempt, hown, fun hne => ?_⟩
      by_cases href : next.repo.ref = system.repo.ref
      · exact Nat.le_add_right_of_le (hmoved (href ▸ hne))
      · rw [if_pos href]
        exact Nat.succ_le_succ hattempt
  | rereading record commitSha parentSha attempt =>
      rw [hphase] at h
      obtain ⟨hattempt, hown, hne⟩ := h
      exact ⟨Nat.le_add_right_of_le hattempt, hown, hnever _ (by rw [AppendCall.seen, hphase]) hne⟩
  | resigning rebuilt =>
      rw [hphase] at h
      obtain ⟨hattempt, hown, htip⟩ := h
      have href := hwaits (by rw [AppendCall.awaitsTip, hphase])
      exact ⟨Nat.le_add_right_of_le hattempt, hown, htip.grows href hgrows⟩
  | resolved record commitSha => trivial
  | thrown failure =>
      rw [hphase] at h
      exact h.elim

theorem calls_other {schema : TrustSchema} {text : TrustText} {system next : TrustSystem} {event : TrustEvent}
    {mine : Nat} {call : AppendCall} (hstep : system.step schema text event = some next)
    (hcall : system.calls[mine]? = some call) (hother : event.isOf mine = false) : next.calls[mine]? = some call := by
  cases event with
  | call retry skipSignatureVerify record =>
      cases hstep
      have hlt : mine < system.calls.length := (List.getElem?_eq_some_iff.mp hcall).1
      rw [List.getElem?_append_left hlt]
      exact hcall
  | within index event =>
      unfold TrustSystem.step at hstep
      simp only [Option.bind_eq_bind, Option.bind_eq_some_iff, Option.pure_def, Option.some.injEq] at hstep
      obtain ⟨other, -, ⟨repo, other'⟩, -, rfl⟩ := hstep
      have hne : index ≠ mine := of_decide_eq_false hother
      rw [List.getElem?_set_ne hne]
      exact hcall

theorem onCourse_run {schema : TrustSchema} {text : TrustText} {mine : Nat} {options : RetryOptions}
    (hresigns : options.resigns = true) {later : List TrustEvent} {system after : TrustSystem} {ids : List Sha}
    {call : AppendCall} {rivals own : Nat} (hchain : LinearChain text system ids) (hcall : system.calls[mine]? = some call)
    (hretry : call.retry = some options) (h : OnCourse schema text system.repo call rivals own)
    (hpromised : Runs.Meets (TrustSystem.step schema text) (Promised schema text mine) system later)
    (hwindow : Runs.Meets (TrustSystem.step schema text) (NoRivalBeforeTip schema text mine) system later)
    (hrun : Runs.run (TrustSystem.step schema text) system later = some after)
    (hrivals : ((rivals + rivalAppends schema text mine system later : Nat) : Int) ≤ options.maxRetries) :
    ∃ ids' call', LinearChain text after ids' ∧ after.calls[mine]? = some call' ∧
      OnCourse schema text after.repo call' (rivals + rivalAppends schema text mine system later)
        (own + later.countP (TrustEvent.isOf mine)) := by
  induction later generalizing system ids call rivals own with
  | nil =>
      cases hrun
      exact ⟨ids, call, hchain, hcall, h⟩
  | cons event rest ih =>
      obtain ⟨next, hstep, hrest⟩ := Runs.run_cons_eq_some.mp hrun
      rw [rivalAppends, hstep] at hrivals ⊢
      dsimp only at hrivals ⊢
      obtain ⟨ids', hchain'⟩ : ∃ ids', LinearChain text next ids' := by
        obtain ⟨-, ⟨-, hnext⟩ | ⟨sha, -, hnext, -⟩⟩ := linearChain_step hchain hstep
        · exact ⟨ids, hnext⟩
        · exact ⟨ids ++ [sha], hnext⟩
      cases hother : event.isOf mine with
      | false =>
          have hnext := onCourse_other hchain hstep hcall hother hwindow.1 h
          have hcount : (event :: rest).countP (TrustEvent.isOf mine) = rest.countP (TrustEvent.isOf mine) :=
            List.countP_cons_of_neg (by rw [hother]; exact Bool.false_ne_true)
          simp only [hother, true_and] at hrivals ⊢
          rw [hcount, ← Nat.add_assoc]
          rw [← Nat.add_assoc] at hrivals
          exact ih hchain' (calls_other hstep hcall hother) hretry hnext (hpromised.2 next hstep)
            (hwindow.2 next hstep) hrest hrivals
      | true =>
          obtain ⟨own', rfl⟩ : ∃ own', event = .within mine own' := by
            cases event with
            | call _ _ _ => cases hother
            | within index own' => exact ⟨own', by rw [of_decide_eq_true hother]⟩
          have hstep' := hstep
          unfold TrustSystem.step at hstep'
          simp only [Option.bind_eq_bind, Option.bind_eq_some_iff, Option.pure_def, Option.some.injEq] at hstep'
          obtain ⟨same, hsame, ⟨repo, call'⟩, hown, rfl⟩ := hstep'
          rw [hcall, Option.some.injEq] at hsame
          subst hsame
          have hlt : mine < system.calls.length := (List.getElem?_eq_some_iff.mp hcall).1
          have hcount : (TrustEvent.within mine own' :: rest).countP (TrustEvent.isOf mine) =
              rest.countP (TrustEvent.isOf mine) + 1 := List.countP_cons_of_pos hother
          have hzero : (if (true : Bool) = false ∧ repo.ref ≠ system.repo.ref then 1 else 0) = 0 := if_neg nofun
          simp only [hother] at hrivals ⊢
          rw [hzero, Nat.zero_add] at hrivals ⊢
          obtain ⟨hnext, hretry'⟩ := onCourse_own hchain.chain hretry hresigns (by omega) h
            (hpromised.1 own' rfl call hcall) hown
          rw [hcount, Nat.add_comm (rest.countP _) 1, ← Nat.add_assoc]
          exact ih hchain' (by rw [List.getElem?_set_self hlt]) hretry' hnext (hpromised.2 _ hstep)
            (hwindow.2 _ hstep) hrest hrivals

/-- The call has not thrown; it has appended its record, or can take its next step, and it takes a bounded number
of steps before it has. -/
structure Converges (schema : TrustSchema) (text : TrustText) (system : TrustSystem) (mine : Nat)
    (options : RetryOptions) (own : Nat) (call : AppendCall) : Prop where
  there : system.calls[mine]? = some call
  notThrown : ∀ failure, call.phase ≠ .thrown failure
  appended : ∀ record commitSha, call.phase = .resolved record commitSha → ∃ ids parents, system.repo.IsChain ids ∧
    commitSha ∈ ids ∧ system.repo.commits.get commitSha = some ⟨some (text.stored record), parents⟩
  goesOn : (∃ record commitSha, call.phase = .resolved record commitSha) ∨
    ∃ event, (system.step schema text (.within mine event)).isSome = true
  bounded : 5 * options.maxRetries + 3 ≤ own → ∃ record commitSha, call.phase = .resolved record commitSha

theorem exists_fresh_sha (commits : JsMap Sha TrustCommit) : ∃ sha, commits.get sha = none := by
  obtain ⟨sha, hfresh⟩ := Infinite.exists_notMem_finset commits.keys.toFinset
  refine ⟨sha, ?_⟩
  rw [List.mem_toFinset, JsMap.mem_keys_iff, Bool.not_eq_true, Option.isSome_eq_false_iff, Option.isNone_iff_eq_none]
    at hfresh
  exact hfresh

theorem exists_own_step {schema : TrustSchema} {text : TrustText} {repo : TrustRepo} {call : AppendCall}
    {rivals own : Nat} (h : OnCourse schema text repo call rivals own) :
    (∃ record commitSha, call.phase = .resolved record commitSha) ∨
      ∃ event, (call.step schema text repo event).isSome = true := by
  unfold OnCourse at h
  cases hphase : call.phase with
  | attempting record => exact .inr ⟨.readTip true, by simp [AppendCall.step, hphase]⟩
  | persisting record tipSha =>
      obtain ⟨sha, hfresh⟩ := exists_fresh_sha repo.commits
      refine .inr ⟨.commit sha, ?_⟩
      simp [AppendCall.step, hphase, AppendCall.commitTo, hfresh]
  | swapping record commitSha parentSha attempt => exact .inr ⟨.swap false, by simp [AppendCall.step, hphase]⟩
  | rereading record commitSha parentSha attempt => exact .inr ⟨.rereadTip true, by simp [AppendCall.step, hphase]⟩
  | resigning rebuilt => exact .inr ⟨.resign rebuilt, by simp [AppendCall.step, hphase]⟩
  | resolved record commitSha => exact .inl ⟨record, commitSha, rfl⟩
  | thrown failure =>
      rw [hphase] at h
      exact h.elim

/-- A call has few steps before it has appended its record. -/
theorem resolved_of_onCourse {schema : TrustSchema} {text : TrustText} {repo : TrustRepo} {call : AppendCall}
    {rivals own : Nat} {maxRetries : Int} (h : OnCourse schema text repo call rivals own)
    (hrivals : (rivals : Int) ≤ maxRetries) (hown : 5 * maxRetries + 3 ≤ own) :
    ∃ record commitSha, call.phase = .resolved record commitSha := by
  unfold OnCourse at h
  cases hphase : call.phase with
  | resolved record commitSha => exact ⟨record, commitSha, rfl⟩
  | thrown failure =>
      rw [hphase] at h
      exact h.elim
  | attempting record =>
      rw [hphase] at h
      obtain ⟨hattempt, hsteps, -⟩ := h
      omega
  | persisting record tipSha =>
      rw [hphase] at h
      obtain ⟨hattempt, hsteps, -⟩ := h
      omega
  | swapping record commitSha parentSha attempt =>
      rw [hphase] at h
      obtain ⟨hattempt, hsteps, -⟩ := h
      omega
  | rereading record commitSha parentSha attempt =>
      rw [hphase] at h
      obtain ⟨hattempt, hsteps, -⟩ := h
      omega
  | resigning rebuilt =>
      rw [hphase] at h
      obtain ⟨hattempt, hsteps, -⟩ := h
      omega

/-- A retried append converges in every run in which no other append lands between the making of its record and its
reading of the tip. -/
theorem converges_of_run {schema : TrustSchema} {text : TrustText} {events later : List TrustEvent}
    {before started after : TrustSystem} {options : RetryOptions} {skipSignatureVerify : Bool} {record : JsValue}
    (hbefore : Runs.run (TrustSystem.step schema text) TrustSystem.empty events = some before)
    (hstart : before.step schema text (.call (some options) skipSignatureVerify record) = some started)
    (hresigns : options.resigns = true) (hchecked : checkRecord schema text skipSignatureVerify record = .ok ())
    (hnames : NamesTip before.repo record)
    (hpromised : Runs.Meets (TrustSystem.step schema text) (Promised schema text before.calls.length) started later)
    (hwindow : Runs.Meets (TrustSystem.step schema text) (NoRivalBeforeTip schema text before.calls.length) started later)
    (hrun : Runs.run (TrustSystem.step schema text) started later = some after)
    (hrivals : (rivalAppends schema text before.calls.length started later : Int) ≤ options.maxRetries) :
    ∃ call, Converges schema text after before.calls.length options
      (later.countP (TrustEvent.isOf before.calls.length)) call := by
  cases hstart
  obtain ⟨ids, hchain⟩ := exists_linearChain hbefore
  have hstart : AppendCall.start (some options) skipSignatureVerify record =
      ⟨some options, skipSignatureVerify, 0, .attempting record⟩ := by
    have hnonneg : ¬ options.maxRetries < 0 := by omega
    rw [AppendCall.start]
    simp only [if_neg hnonneg]
  have hstarted : LinearChain text
      { before with calls := before.calls ++ [AppendCall.start (some options) skipSignatureVerify record] } ids := by
    refine ⟨hchain.chain, fun call hcall => ?_⟩
    rcases List.mem_append.mp hcall with hold | hnew
    · exact hchain.calls call hold
    · rw [List.mem_singleton.mp hnew]
      exact seesChain_of_isBare (isBare_start _ _ _)
  rw [hstart] at hstarted hpromised hwindow hrun hrivals
  obtain ⟨ids', call, hchain', hcall, hcourse⟩ := onCourse_run hresigns hstarted List.getElem?_concat_length rfl
    (show OnCourse schema text _ _ 0 0 from ⟨Nat.le_refl 0, Nat.le_refl 0, hchecked, hnames⟩) hpromised hwindow hrun
    (by rw [Nat.zero_add]; exact hrivals)
  rw [Nat.zero_add, Nat.zero_add] at hcourse
  refine ⟨call, hcall, ?_, fun record' commitSha hphase => ?_, ?_, fun hown => ?_⟩
  · rintro failure hphase
    rw [OnCourse, hphase] at hcourse
    exact hcourse
  · obtain ⟨hmem, parents, hget⟩ := (hchain'.calls call (List.mem_of_getElem? hcall)).resolved record' commitSha hphase
    exact ⟨ids', parents, hchain'.chain, hmem, hget⟩
  · refine (exists_own_step hcourse).imp_right ?_
    rintro ⟨event, hstep⟩
    obtain ⟨result, hresult⟩ := Option.isSome_iff_exists.mp hstep
    refine ⟨event, ?_⟩
    unfold TrustSystem.step
    simp only [hcall, Option.bind_eq_bind, Option.bind_some, hresult]
    rfl
  · exact resolved_of_onCourse hcourse hrivals hown

/-! ### A call that is overtaken -/

theorem promised_racing :
    Runs.MetAlong (Promised datetimeSchema Race.text 1) Race.started (Race.firstAppends ++ Race.secondAppends) := by
  have hresign : ∀ system call rebuilt, system.calls[1]? = some call → call.skipSignatureVerify = false →
      call.phase = .resigning rebuilt → rebuilt.get (js "prev") = .string rootRecord.recordId →
      Promised datetimeSchema Race.text 1 system (.within 1 (.resign nextRecord.value)) := by
    rintro system call rebuilt hcall hskip hphase hprev _ ⟨⟩ call' hcall'
    cases hcall.symm.trans hcall'
    refine ⟨hskip ▸ Race.checkRecord_next, fun rebuilt' hphase' => ?_⟩
    cases hphase.symm.trans hphase'
    exact Race.prev_next.trans hprev.symm
  have hown : ∀ system own, (∀ call, AppendCall.Promised datetimeSchema Race.text call own) →
      Promised datetimeSchema Race.text 1 system (.within 1 own) := by
    rintro system own hpromised _ ⟨⟩ call -
    exact hpromised call
  have hother : ∀ system own, Promised datetimeSchema Race.text 1 system (.within 0 own) := by
    rintro system own _ ⟨⟩
  exact ⟨hown _ _ fun _ => rfl, hother _ _, hown _ _ fun _ => trivial, hother _ _, hother _ _, hown _ _ fun _ => rfl,
    hown _ _ fun _ => rfl, hresign _ _ _ rfl rfl rfl (get_withField _ _ _), hown _ _ fun _ => rfl,
    hown _ _ fun _ => trivial, hown _ _ fun _ => rfl, trivial⟩

theorem noRivalBeforeTip_racing :
    Runs.MetAlong (NoRivalBeforeTip datetimeSchema Race.text 1) Race.started
      (Race.firstAppends ++ Race.secondAppends) := by
  have hown : ∀ system own, NoRivalBeforeTip datetimeSchema Race.text 1 system (.within 1 own) := by
    rintro system own ⟨⟩
  have hother : ∀ system own call, system.calls[1]? = some call → call.awaitsTip = false →
      NoRivalBeforeTip datetimeSchema Race.text 1 system (.within 0 own) := by
    intro system own call hcall hread _ call' hcall' hawaits
    cases hcall.symm.trans hcall'
    rw [hread] at hawaits
    cases hawaits
  exact ⟨hown _ _, hother _ _ _ rfl rfl, hown _ _, hother _ _ _ rfl rfl, hother _ _ _ rfl rfl, hown _ _, hown _ _,
    hown _ _, hown _ _, hown _ _, hown _ _, trivial⟩

/-- The call is overtaken between its tip read and its swap, and appends its record on the second attempt. -/
theorem converges_racing :
    Runs.run (TrustSystem.step datetimeSchema Race.text) Race.started
        ((Race.firstAppends ++ Race.secondAppends).map Prod.fst) = some Race.bothAppended ∧
      ∃ call, Converges datetimeSchema Race.text Race.bothAppended 1 Race.retries 8 call := by
  have hfollows : Runs.Follows (TrustSystem.step datetimeSchema Race.text) Race.started
      (Race.firstAppends ++ Race.secondAppends) := by
    obtain ⟨hmine, hrival, hcommit, hcommitted, hswapped, -⟩ := Race.follows_first
    exact ⟨hmine, hrival, hcommit, hcommitted, hswapped, Race.follows_second⟩
  have hafter := Runs.run_of_follows hfollows
  have hrivals : rivalAppends datetimeSchema Race.text 1 Race.started
      ((Race.firstAppends ++ Race.secondAppends).map Prod.fst) ≤ 3 :=
    rivalAppends_le_countP datetimeSchema Race.text 1 _ _
  have hbefore : Runs.run (TrustSystem.step datetimeSchema Race.text) TrustSystem.empty
      [.call none false rootRecord.value] =
        some ⟨⟨JsMap.empty, none⟩, [⟨none, false, 0, .attempting rootRecord.value⟩]⟩ := rfl
  exact ⟨hafter, converges_of_run hbefore rfl rfl Race.checkRecord_root ⟨none, rfl⟩
    (Runs.meets_of_follows hfollows promised_racing)
    (Runs.meets_of_follows hfollows noRivalBeforeTip_racing) hafter (Int.ofNat_le.mpr hrivals)⟩

/-- A retried append converges in every run with no more appends by others than it has retries. -/
def AlwaysConverges : Prop :=
  ∀ (schema : TrustSchema) (text : TrustText) (events later : List TrustEvent) (before started after : TrustSystem)
    (options : RetryOptions) (skipSignatureVerify : Bool) (record : JsValue),
    Runs.run (TrustSystem.step schema text) TrustSystem.empty events = some before →
    before.step schema text (.call (some options) skipSignatureVerify record) = some started →
    options.resigns = true → checkRecord schema text skipSignatureVerify record = .ok () → NamesTip before.repo record →
    Runs.Meets (TrustSystem.step schema text) (Promised schema text before.calls.length) started later →
    Runs.run (TrustSystem.step schema text) started later = some after →
    (rivalAppends schema text before.calls.length started later : Int) ≤ options.maxRetries →
    ∃ call, Converges schema text after before.calls.length options
      (later.countP (TrustEvent.isOf before.calls.length)) call

/-- Another client appends its record before the call reads the tip. -/
def overtaking : List TrustEvent :=
  [.within 0 (.readTip true), .within 0 (.commit rootSha), .within 0 (.swap false), .within 1 (.readTip true)]

theorem run_overtaken {schema : TrustSchema} {text : TrustText} {call other : AppendCall} {record : JsValue}
    {recordId : JsString} (hphase : call.phase = .attempting record)
    (hchecked : checkRecord schema text call.skipSignatureVerify record = .ok ())
    (hother : other.phase = .attempting record)
    (hchecked' : checkRecord schema text other.skipSignatureVerify record = .ok ())
    (hprev : record.get (js "prev") = .null) (hid : TrustRepo.recordIdOrNull (text.stored record) = .string recordId)
    (sha : Sha) :
    Runs.run (TrustSystem.step schema text) ⟨⟨JsMap.empty, none⟩, [call, other]⟩
        ((appendAlone record sha).drop 1 ++ [.within 1 (.readTip true)]) =
      some ⟨(appendedAlone text record sha).repo, [{ call with phase := .resolved record sha },
        { other with phase := .thrown (.prevMismatch .null (.string recordId)) }]⟩ := by
  refine Runs.run_append_eq_some.mpr ⟨_, run_alone hphase hchecked hprev [other] sha, ?_⟩
  have htip : (appendedAlone text record sha).repo.readTip = .ok (some sha, .string recordId) := by
    rw [TrustRepo.readTip, appendedAlone]
    dsimp only
    rw [JsMap.get_set_self, ← hid]
    rfl
  have hafter : other.afterTip schema text (appendedAlone text record sha).repo record true =
      .thrown (.prevMismatch .null (.string recordId)) := by
    rw [AppendCall.afterTip, hchecked', AppendCall.tipRead, if_pos rfl, htip, hprev]
    rfl
  simp only [Runs.run, TrustSystem.step, List.getElem?_cons_succ, List.getElem?_cons_zero, Option.bind_eq_bind,
    Option.bind_some, AppendCall.step, hother, hafter]
  rfl

/-- The second call has a record for an empty chain when the first has appended its own. -/
theorem not_alwaysConverges : ¬ AlwaysConverges := by
  intro h
  let text := recordText rootRecord.value rootRecord.recordId
  have hid : TrustRepo.recordIdOrNull (sortKeys rootRecord.value) = .string rootRecord.recordId := by decide +kernel
  have hrun := @run_overtaken _ _ (AppendCall.start none false rootRecord.value)
    (AppendCall.start (some Race.retries) false rootRecord.value) _ _ rfl checkRecord_rootRecord rfl
    checkRecord_rootRecord rfl hid rootSha
  obtain ⟨call, hcall⟩ := h datetimeSchema text [.call none false rootRecord.value] overtaking _ _ _
    Race.retries false rootRecord.value rfl rfl rfl checkRecord_rootRecord ⟨none, rfl⟩
    (Runs.meets_of_forall (fun event hevent system own hown call' _ => by
      subst hown
      simp only [overtaking, List.mem_cons, List.not_mem_nil, or_false] at hevent
      rcases hevent with hevent | hevent | hevent | hevent <;> cases hevent
      rfl) _) hrun (Int.ofNat_le.mpr (rivalAppends_le_countP datetimeSchema text 1 _ overtaking))
  have hthere := hcall.there
  rw [show TrustSystem.calls _ = [_, _] from rfl] at hthere
  cases hthere
  exact hcall.notThrown _ rfl

end GitWarp
