import GitWarp.AuditWalk
import GitWarp.LibraryFailures
import GitWarp.LibraryLists
import GitWarp.TrustAssessment

/-! The verifier where reads fail. A failed read stops the walk of a chain with an error and the assessment of trust
with a failure, but where the first read of the tip of a chain fails, the chain counts as one that is not there, which
is valid. -/

namespace GitWarp
open Js JsValue ExceptLoops Failures

/-- A repository and its refs. -/
structure RefRepo extends AuditRepo where
  refs : JsMap JsString Sha

/-- How the reads of the verification of one chain fail. -/
structure ChainFailures where
  tip : Option JsError
  walk : Nat → AuditRead → Option JsError
  tipAfter : Option JsError

def ChainFailures.none : ChainFailures := ⟨.none, fun _ _ => .none, .none⟩

def TrustFailures.none : TrustFailures := ⟨.none, fun _ _ => .none, .none⟩

/-- How the reads of the verification of all chains fail; each chain is walked once. -/
structure VerifyFailures where
  listRefs : Option JsError
  chain : JsString → ChainFailures

def VerifyFailures.none : VerifyFailures := ⟨.none, fun _ => .none⟩

/-- `readRef(ref)` -/
def readRef (refs : JsMap JsString Sha) (failure : Option JsError) (ref : JsString) : Except JsError (Option Sha) :=
  match failure with
  | some err => .error err
  | none => .ok (refs.get ref)

namespace RefRepo

/-- What the verifier reads of the ref of a writer; nothing is read where the ref has no name. -/
def auditReads (repo : RefRepo) (failures : ChainFailures) (graphName writerId : JsString) : AuditReads :=
  let ref := (buildAuditRef graphName writerId).toOption.getD []
  ⟨readRef repo.refs failures.tip ref, failures.walk, readRef repo.refs failures.tipAfter ref⟩

/-- The tip of the chain of a writer, where its ref has one. -/
def auditTip (repo : RefRepo) (graphName writerId : JsString) : Option Sha :=
  ((buildAuditRef graphName writerId).toOption.bind repo.refs.get).filter (· ≠ [])

/-- The writers that have an audit ref, in order. -/
def auditWriters (repo : RefRepo) (graphName : JsString) : List JsString :=
  sortWriters ((listWriterIds repo.refs none graphName).toOption.getD [])

end RefRepo

structure VerifySummary where
  total : Nat
  valid : Nat
  partialChains : Nat
  invalid : Nat
  deriving DecidableEq

structure VerifyResult where
  graph : JsString
  /-- `new Date().toISOString()` -/
  verifiedAt : JsString
  summary : VerifySummary
  chains : List ChainResult
  trustWarning : Option JsValue

namespace AuditPlatform

/-- `verifyChain(graphName, writerId, { since })` over the refs of a repository. -/
def verifyWriter (platform : AuditPlatform) (repo : RefRepo) (failures : ChainFailures) (graphName : JsString)
    (since : Option Sha) (fuel : Nat) (writerId : JsString) : Option (Except JsError ChainResult) :=
  platform.verifyChain repo.store (repo.auditReads failures graphName writerId) graphName writerId since fuel

/-- The loop of `verifyAll`. -/
def verifyWriters (platform : AuditPlatform) (repo : RefRepo) (failures : VerifyFailures) (graphName : JsString)
    (since : Option Sha) (fuel : Nat) : List JsString → Option (Except JsError (List ChainResult))
  | [] => some (.ok [])
  | writerId :: rest =>
      match platform.verifyWriter repo (failures.chain writerId) graphName since fuel writerId with
      | none => none
      | some (.error err) => some (.error err)
      | some (.ok result) =>
          (platform.verifyWriters repo failures graphName since fuel rest).map (Except.map (List.cons result))

def summarize (chains : List ChainResult) : VerifySummary :=
  let valid := (chains.filter fun c => c.status = .valid).length
  let partialChains := (chains.filter fun c => c.status = .partialChain).length
  ⟨chains.length, valid, partialChains, chains.length - valid - partialChains⟩

def verifyAll (platform : AuditPlatform) (repo : RefRepo) (failures : VerifyFailures) (graphName : JsString)
    (since : Option Sha) (verifiedAt : JsString) (trustWarning : Option JsValue) (fuel : Nat) :
    Option (Except JsError VerifyResult) :=
  match listWriterIds repo.refs failures.listRefs graphName with
  | .error err => some (.error err)
  | .ok writerIds =>
      (platform.verifyWriters repo failures graphName since fuel (sortWriters writerIds)).map
        (Except.map fun chains => ⟨graphName, verifiedAt, summarize chains, chains, trustWarning⟩)

end AuditPlatform

namespace AuditPlatform

variable {platform : AuditPlatform} {store : AuditStore} {graphName writerId : JsString}

/-- What is sound in spite of failures is sound without them. -/
theorem soundChain_of_failures {oidLen round : Nat} {walk : Nat → AuditRead → Option JsError} {ends : WalkedCommit → Prop}
    {sha : Sha} {walked : List WalkedCommit}
    (h : SoundChain platform store graphName writerId oidLen walk ends round sha walked) :
    SoundChain platform store graphName writerId oidLen (fun _ _ => none) ends round sha walked := by
  have hcommit : ∀ {fault w}, SoundCommit platform store graphName writerId oidLen fault w →
      SoundCommit platform store graphName writerId oidLen (fun _ => none) w :=
    fun hsound => { hsound with reads := fun _ => rfl }
  induction h with
  | last hsound hends => exact .last (hcommit hsound) hends
  | link hsound hparents htick hrest ih => exact .link (hcommit hsound) hparents htick ih

/-! ### A receipt that throws -/

/-- The walk comes over sound commits, newest first, to a receipt that throws. -/
inductive ThrowingWalk (platform : AuditPlatform) (store : AuditStore) (graphName writerId : JsString) (oidLen : Nat)
    (walk : Nat → AuditRead → Option JsError) (since : Option Sha) (err : JsError) :
    Nat → Sha → List WalkedCommit → Prop where
  | here {round : Nat} {sha : Sha} : ThrowsAt platform store (walk round) sha err →
      ThrowingWalk platform store graphName writerId oidLen walk since err round sha []
  | older {round : Nat} {w : WalkedCommit} {rest : List WalkedCommit} :
      SoundCommit platform store graphName writerId oidLen (walk round) w → since ≠ some w.sha →
      w.commit.parents = [w.receipt.prevAuditCommit] →
      (∀ next ∈ rest.head?, next.receipt.tickEnd < w.receipt.tickStart) →
      ThrowingWalk platform store graphName writerId oidLen walk since err (round + 1) w.receipt.prevAuditCommit rest →
      ThrowingWalk platform store graphName writerId oidLen walk since err round w.sha (w :: rest)

section Throws

variable {walk : Nat → AuditRead → Option JsError} {since : Option Sha} {err : JsError}

theorem ThrowingWalk.stored {oidLen round : Nat} {sha : Sha} {walked : List WalkedCommit}
    (h : ThrowingWalk platform store graphName writerId oidLen walk since err round sha walked) :
    ∃ commit, store.commits.get sha = some commit := by
  cases h with
  | here hthrows =>
      obtain ⟨-, commit, -, -, -, -, -, hget, -⟩ := hthrows
      exact ⟨commit, hget⟩
  | older hsound hsince hparents htick hrest => exact ⟨_, hsound.commit⟩

/-- A walk that throws has come to a receipt that throws. -/
theorem throwingWalk_of_walkChain (hgraph : validateGraphName graphName = .ok ())
    (hwriter : validateWriterId writerId = .ok ()) {fuel round : Nat} {current : Sha} {prevReceipt : Option AuditReceipt}
    {chainOidLen : Option Nat} {result : ChainResult} (hcurrent : current ≠ [])
    (h : platform.walkChain store walk graphName writerId since fuel round current prevReceipt chainOidLen result =
      some (.error err)) :
    ∃ oidLen walked, (∀ l ∈ chainOidLen, l = oidLen) ∧
      ThrowingWalk platform store graphName writerId oidLen walk since err round current walked ∧
      ∀ prev ∈ prevReceipt, ∀ w ∈ walked.head?, w.receipt.tickEnd < prev.tickStart := by
  induction fuel generalizing round current prevReceipt chainOidLen result with
  | zero => cases h
  | succ fuel ih =>
      rw [walkChain_succ hcurrent] at h
      split at h
      · rename_i thrown hround
        cases h
        refine ⟨chainOidLen.getD 0, [], ?_, .here (walkRound_threw_iff.mp hround), nofun⟩
        rintro l ⟨⟩
        rfl
      · cases h
      · cases h
      · rename_i receipt continued hround
        obtain ⟨commit, counted, hsound, hchain, hlink, -, hend⟩ := sound_of_walkRound hgraph hwriter hround
        obtain ⟨hsince, hparents, rfl⟩ := roundEnd_next ⟨current, commit, receipt⟩ hend
        have hprevious : receipt.prevAuditCommit ≠ [] := by
          have hoid := hsound.prevAuditCommit.1
          intro hnil
          simp [hnil] at hoid
        obtain ⟨oidLen, walked, holdest, hwalked, htick⟩ := ih hprevious h
        obtain rfl : receipt.dataCommit.length = oidLen := holdest _ rfl
        refine ⟨_, ⟨current, commit, receipt⟩ :: walked, hchain,
          .older hsound hsince hparents (htick receipt rfl) hwalked, ?_⟩
        rintro prev hprev _ ⟨⟩
        exact hlink prev hprev

/-- A walk over sound commits to a receipt that throws does throw. -/
theorem walkChain_of_throwingWalk {repo : AuditRepo} (hgraph : validateGraphName graphName = .ok ())
    (hwriter : validateWriterId writerId = .ok ()) {oidLen round : Nat} {current : Sha} {walked : List WalkedCommit}
    (h : ThrowingWalk platform repo.store graphName writerId oidLen walk since err round current walked) {fuel : Nat}
    {prevReceipt : Option AuditReceipt} {chainOidLen : Option Nat} {result : ChainResult} (hfuel : walked.length < fuel)
    (hcurrent : current ≠ []) (hchain : ∀ l ∈ chainOidLen, l = oidLen)
    (hprev : ∀ prev ∈ prevReceipt, prev.writerId = writerId ∧ prev.graphName = graphName ∧
      ∀ w ∈ walked.head?, w.receipt.tickEnd < prev.tickStart) :
    platform.walkChain repo.store walk graphName writerId since fuel round current prevReceipt chainOidLen result =
      some (.error err) := by
  induction h generalizing fuel prevReceipt chainOidLen result with
  | here hthrows =>
      obtain ⟨fuel, rfl⟩ := Nat.exists_eq_add_one.mpr (Nat.zero_lt_of_lt hfuel)
      rw [walkChain_succ hcurrent, walkRound_threw_iff.mpr hthrows]
  | @older round w rest hsound hsince hparents htick hrest ih =>
      obtain ⟨fuel, rfl⟩ := Nat.exists_eq_add_one.mpr (Nat.zero_lt_of_lt hfuel)
      have hzero : w.receipt.prevAuditCommit ≠ zeroHash w.receipt.dataCommit.length := by
        intro hzero
        obtain ⟨commit, hget⟩ := hrest.stored
        have hpositive : 0 < w.receipt.dataCommit.length := by
          rcases hsound.dataCommit.1 with hlength | hlength <;> omega
        rw [hzero, repo.nullId _ hpositive] at hget
        cases hget
      have hprevious : w.receipt.prevAuditCommit ≠ [] := by
        have hoid := hsound.prevAuditCommit.1
        intro hnil
        simp [hnil] at hoid
      obtain ⟨counted, -, hround⟩ := walkRound_of_sound since result hgraph hwriter hsound hchain
        fun prev hmem => ⟨(hprev prev hmem).2.2 w rfl, (hprev prev hmem).1, (hprev prev hmem).2.1⟩
      rw [walkChain_succ hcurrent, hround, roundEnd_of_link hsince hzero hparents]
      refine ih (Nat.lt_of_succ_lt_succ hfuel) hprevious ?_ ?_
      · rintro _ ⟨⟩
        exact hsound.dataLength
      · rintro _ ⟨⟩
        exact ⟨hsound.writer, hsound.graph, htick⟩

end Throws

/-! ### One chain -/

/-- The result of a chain that is not there. -/
def absentResult (ref writerId : JsString) (since : Option Sha) : ChainResult :=
  { writerId, ref, status := .valid, receiptsVerified := 0, receiptsScanned := 0, tipCommit := none, tipAtStart := none,
    genesisCommit := none, stoppedAt := none, since, errors := [], warnings := [] }

section Chain

variable {repo : RefRepo} {failures : ChainFailures} {ref : JsString} {since : Option Sha} {fuel : Nat}
  (href : buildAuditRef graphName writerId = .ok ref)

include href

theorem auditTip_eq : repo.auditTip graphName writerId = (repo.refs.get ref).filter (· ≠ []) := by
  unfold RefRepo.auditTip
  rw [href]
  rfl

theorem verifyWriter_absent (h : failures.tip ≠ none ∨ repo.auditTip graphName writerId = none) :
    platform.verifyWriter repo failures graphName since fuel writerId =
      some (.ok (absentResult ref writerId (since.filter (· ≠ [])))) := by
  have htip : (∃ err, readRef repo.refs failures.tip ref = .error err) ∨ readRef repo.refs failures.tip ref = .ok none ∨
      readRef repo.refs failures.tip ref = .ok (some []) := by
    unfold readRef
    cases hfailure : failures.tip with
    | some err => exact .inl ⟨err, rfl⟩
    | none =>
        have hnone := h.resolve_left fun hne => hne hfailure
        rw [auditTip_eq href] at hnone
        cases hget : repo.refs.get ref with
        | none => exact .inr (.inl rfl)
        | some tip =>
            rw [hget] at hnone
            have hempty : tip = [] := by simpa [Option.filter] using hnone
            exact .inr (.inr (by rw [hempty]))
  unfold verifyWriter verifyChain RefRepo.auditReads
  rw [href]
  rcases htip with ⟨err, heq⟩ | heq | heq
  · simp only [Except.toOption, Option.getD_some, heq]
    rfl
  · simp only [Except.toOption, Option.getD_some, heq]
    rfl
  · simp only [Except.toOption, Option.getD_some, heq]
    rfl

theorem verifyWriter_walked (hfailure : failures.tip = none) {tip : Sha}
    (htip : repo.auditTip graphName writerId = some tip) :
    tip ≠ [] ∧ platform.verifyWriter repo failures graphName since fuel writerId =
      (platform.walkChain repo.store failures.walk graphName writerId (since.filter (· ≠ [])) fuel 0 tip none none
        (startResult ref writerId (since.filter (· ≠ [])) tip)).map
          (Except.map (checkTipMoved (repo.auditReads failures graphName writerId))) := by
  rw [auditTip_eq href, Option.filter_eq_some_iff] at htip
  obtain ⟨hget, hne⟩ := htip
  have hne : tip ≠ [] := of_decide_eq_true hne
  refine ⟨hne, verifyChain_eq href ?_ hne⟩
  show readRef repo.refs failures.tip ((buildAuditRef graphName writerId).toOption.getD []) = .ok (some tip)
  rw [href, hfailure]
  exact congrArg Except.ok hget

end Chain

/-! ### What the failures leave of a chain -/

/-- A verdict is reached in spite of the failures: the tip cannot be read, or its chain can be and is sound. -/
def Concludes (platform : AuditPlatform) (repo : RefRepo) (failures : ChainFailures) (graphName : JsString)
    (since : Option Sha) (writerId : JsString) : Prop :=
  failures.tip = none → ∀ tip ∈ repo.auditTip graphName writerId, ∃ oidLen walked,
    SoundChain platform repo.store graphName writerId oidLen failures.walk (EndsWalk (since.filter (· ≠ []))) 0 tip walked

/-- The walk comes to a receipt that throws in spite of the failures. -/
def Throws (platform : AuditPlatform) (repo : RefRepo) (failures : ChainFailures) (graphName : JsString)
    (since : Option Sha) (writerId : JsString) : Prop :=
  failures.tip = none ∧ ∃ tip ∈ repo.auditTip graphName writerId, ∃ err oidLen walked,
    ThrowingWalk platform repo.store graphName writerId oidLen failures.walk (since.filter (· ≠ [])) err 0 tip walked

/-- Where the tip cannot be read, there is none, or the whole chain is asked for and is sound. -/
def TipHarmless (platform : AuditPlatform) (repo : RefRepo) (failures : ChainFailures) (graphName : JsString)
    (since : Option Sha) (writerId : JsString) : Prop :=
  failures.tip ≠ none → ∀ tip ∈ repo.auditTip graphName writerId, since.filter (· ≠ []) = none ∧ ∃ oidLen walked,
    SoundChain platform repo.store graphName writerId oidLen (fun _ _ => none) IsGenesis 0 tip walked

/-- A verdict of the run is that of the run without failures. -/
def NeverImproves (run clean : Option (Except JsError ChainResult)) : Prop :=
  ∀ result, run = some (.ok result) → result.status.IsVerdict →
    ∃ same, clean = some (.ok same) ∧ same.status = result.status

section Outcome

variable {repo : RefRepo} {failures : ChainFailures} {ref : JsString} {since : Option Sha} {fuel : Nat}

/-- A verification from a tip ends; it reports the verdict where there is a sound chain to its end, and throws where the
walk comes to a receipt that throws. -/
theorem verifyWriter_reports (href : buildAuditRef graphName writerId = .ok ref) (hfuel : repo.store.commits.size < fuel)
    (hfailure : failures.tip = none) {tip : Sha} (htip : repo.auditTip graphName writerId = some tip) :
    ∃ outcome, platform.verifyWriter repo failures graphName since fuel writerId = some outcome ∧
      (∀ status : ChainStatus, status.IsVerdict → (Reports outcome status ↔
        status = verdict (since.filter (· ≠ [])) ∧ ∃ oidLen walked, SoundChain platform repo.store graphName writerId oidLen
          failures.walk (EndsWalk (since.filter (· ≠ []))) 0 tip walked)) ∧
      ((∃ err, outcome = .error err) ↔ ∃ err oidLen walked, ThrowingWalk platform repo.store graphName writerId oidLen
        failures.walk (since.filter (· ≠ [])) err 0 tip walked) := by
  obtain ⟨hgraph, hwriter⟩ := validated_of_buildAuditRef href
  obtain ⟨hne, hrun⟩ : tip ≠ [] ∧ platform.verifyWriter repo failures graphName since fuel writerId = _ :=
    verifyWriter_walked href hfailure htip
  obtain ⟨outcome, hends, hverdict, hcounts⟩ := @walkChain_exact platform graphName writerId failures.walk
    (since.filter (· ≠ [])) repo.toAuditRepo ref tip hgraph hwriter hne
  rw [hends fuel hfuel] at hrun
  refine ⟨_, hrun, fun status hstatus => ?_, ?_⟩
  · rw [← hverdict]
    constructor
    · rintro ⟨result, hresult, rfl⟩
      cases outcome with
      | error err => cases hresult
      | ok walked =>
          cases hresult
          rw [(sameVerdict_checkTipMoved _ walked).status] at hstatus ⊢
          exact ⟨(hcounts walked rfl hstatus).1, walked, rfl, hstatus⟩
    · rintro ⟨rfl, walked, rfl, hwalked⟩
      exact ⟨_, rfl, (sameVerdict_checkTipMoved _ walked).status.trans (hcounts walked rfl hwalked).1⟩
  · constructor
    · rintro ⟨err, herr⟩
      cases outcome with
      | error thrown =>
          obtain ⟨oidLen, walked, -, hwalked, -⟩ := throwingWalk_of_walkChain hgraph hwriter hne (hends fuel hfuel)
          exact ⟨thrown, oidLen, walked, hwalked⟩
      | ok walked => cases herr
    · rintro ⟨err, oidLen, walked, hwalked⟩
      have hthrown : platform.walkChain repo.store failures.walk graphName writerId (since.filter (· ≠ []))
          (repo.store.commits.size + 1 + walked.length) 0 tip none none
          (startResult ref writerId (since.filter (· ≠ [])) tip) = some (.error err) :=
        walkChain_of_throwingWalk hgraph hwriter hwalked (by omega) hne
          (fun l (hl : l ∈ (none : Option Nat)) => nomatch hl)
          fun prev (hprev : prev ∈ (none : Option AuditReceipt)) => nomatch hprev
      rw [hends _ (by omega), Option.some.injEq] at hthrown
      exact ⟨err, by rw [hthrown]; rfl⟩

theorem verdict_isVerdict (since : Option Sha) : (verdict since).IsVerdict := by
  cases since with
  | none => exact .inl rfl
  | some boundary => exact .inr rfl

/-- A verification with a name ends: with a verdict, with an exception, or with a status that is no verdict. -/
theorem verifyWriter_spec (href : buildAuditRef graphName writerId = .ok ref) (hfuel : repo.store.commits.size < fuel) :
    ∃ outcome, platform.verifyWriter repo failures graphName since fuel writerId = some outcome ∧
      ((∃ result, outcome = .ok result ∧ result.status.IsVerdict) ↔
        platform.Concludes repo failures graphName since writerId) ∧
      ((∃ err, outcome = .error err) ↔ platform.Throws repo failures graphName since writerId) := by
  by_cases habsent : failures.tip ≠ none ∨ repo.auditTip graphName writerId = none
  · have hnothing : ∀ tip, failures.tip = none → tip ∉ repo.auditTip graphName writerId := by
      intro tip hnone htip
      rw [habsent.resolve_left fun hne => hne hnone] at htip
      cases htip
    refine ⟨_, verifyWriter_absent href habsent, iff_of_true ⟨_, rfl, .inl rfl⟩ fun hnone tip htip => ?_,
      iff_of_false nofun ?_⟩
    · exact absurd htip (hnothing tip hnone)
    · rintro ⟨hnone, tip, htip, -⟩
      exact hnothing tip hnone htip
  obtain ⟨hfailure, htip⟩ := not_or.mp habsent
  have hfailure := not_not.mp hfailure
  obtain ⟨tip, htip⟩ := Option.ne_none_iff_exists'.mp htip
  obtain ⟨outcome, hrun, hreports, hthrows⟩ := verifyWriter_reports href hfuel hfailure htip
  have honly : ∀ other, other ∈ repo.auditTip graphName writerId ↔ other = tip := by
    intro other
    rw [htip]
    exact ⟨fun h => (Option.some.inj h).symm, fun h => congrArg some h.symm⟩
  refine ⟨outcome, hrun, ⟨?_, ?_⟩, hthrows.trans ⟨?_, ?_⟩⟩
  · rintro ⟨result, hresult, hstatus⟩ - other hother
    exact (honly other).mp hother ▸ ((hreports result.status hstatus).mp ⟨result, hresult, rfl⟩).2
  · intro hconcludes
    have hchain := hconcludes hfailure tip ((honly tip).mpr rfl)
    obtain ⟨result, hresult, hstatus⟩ := (hreports _ (verdict_isVerdict _)).mpr ⟨rfl, hchain⟩
    exact ⟨result, hresult, hstatus ▸ verdict_isVerdict _⟩
  · exact fun hwalk => ⟨hfailure, tip, (honly tip).mpr rfl, hwalk⟩
  · rintro ⟨-, other, hother, hwalk⟩
    exact (honly other).mp hother ▸ hwalk

/-- The verification of a chain with failures never improves the verdict if and only if a tip that cannot be read does
no harm. -/
theorem neverImproves_iff (href : buildAuditRef graphName writerId = .ok ref) (hfuel : repo.store.commits.size < fuel) :
    NeverImproves (platform.verifyWriter repo failures graphName since fuel writerId)
        (platform.verifyWriter repo .none graphName since fuel writerId) ↔
      platform.TipHarmless repo failures graphName since writerId := by
  constructor
  · intro hnever hfailure tip htip
    obtain ⟨same, hsame, hvalid⟩ := hnever _ (verifyWriter_absent href (.inl hfailure)) (.inl rfl)
    obtain ⟨outcome, hclean, hreports, -⟩ :=
      @verifyWriter_reports platform graphName writerId repo .none ref since fuel href hfuel rfl tip htip
    cases hclean.symm.trans hsame
    obtain ⟨hstatus, hchain⟩ := (hreports .valid (.inl rfl)).mp ⟨same, rfl, hvalid⟩
    have hsince : since.filter (· ≠ []) = none := by
      cases hfilter : since.filter (· ≠ []) with
      | none => rfl
      | some boundary =>
          rw [hfilter] at hstatus
          cases hstatus
    rw [hsince] at hchain
    exact ⟨hsince, hchain⟩
  · intro hharmless result hresult hstatus
    by_cases hnotip : repo.auditTip graphName writerId = none
    · cases hresult.symm.trans (verifyWriter_absent href (.inr hnotip))
      exact ⟨_, verifyWriter_absent href (.inr hnotip), rfl⟩
    obtain ⟨tip, htip⟩ := Option.ne_none_iff_exists'.mp hnotip
    obtain ⟨clean, hclean, hreports, -⟩ :=
      @verifyWriter_reports platform graphName writerId repo .none ref since fuel href hfuel rfl tip htip
    have hsame : Reports clean result.status := by
      by_cases hfailure : failures.tip = none
      · obtain ⟨outcome, hrun, hran, -⟩ := verifyWriter_reports href hfuel hfailure htip
        cases hrun.symm.trans hresult
        obtain ⟨hverdict, oidLen, walked, hwalked⟩ := (hran result.status hstatus).mp ⟨result, rfl, rfl⟩
        exact (hreports result.status hstatus).mpr ⟨hverdict, oidLen, walked, soundChain_of_failures hwalked⟩
      · cases hresult.symm.trans (verifyWriter_absent href (.inl hfailure))
        obtain ⟨hsince, hchain⟩ := hharmless hfailure tip htip
        rw [hsince] at hreports
        exact (hreports .valid (.inl rfl)).mpr ⟨rfl, hchain⟩
    obtain ⟨same, rfl, hstatus⟩ := hsame
    exact ⟨same, hclean, hstatus⟩

end Outcome

/-! ### All chains -/

/-- Every chain that has a verdict in the run has the same one in the run without failures; both runs verify the chains
of the same writers in the same order. -/
def AllNeverImprove (run clean : Option (Except JsError VerifyResult)) : Prop :=
  ∀ result, run = some (.ok result) → (∃ chain ∈ result.chains, chain.status.IsVerdict) →
    ∃ same, clean = some (.ok same) ∧ List.Forall₂ (fun (chain other : ChainResult) =>
      chain.status.IsVerdict → other.status = chain.status) result.chains same.chains

/-- Where the run lists the writers, comes to its end and gives a verdict, every tip that cannot be read does no harm,
and no failure keeps a walk from a receipt that throws. -/
def AllHarmless (platform : AuditPlatform) (repo : RefRepo) (failures : VerifyFailures) (graphName : JsString)
    (since : Option Sha) : Prop :=
  failures.listRefs = none →
    (∀ writerId ∈ repo.auditWriters graphName, (∃ ref, buildAuditRef graphName writerId = .ok ref) ∧
      ¬ platform.Throws repo (failures.chain writerId) graphName since writerId) →
    (∃ writerId ∈ repo.auditWriters graphName,
      platform.Concludes repo (failures.chain writerId) graphName since writerId) →
    ∀ writerId ∈ repo.auditWriters graphName,
      platform.TipHarmless repo (failures.chain writerId) graphName since writerId ∧
        ¬ platform.Throws repo .none graphName since writerId

section All

variable {repo : RefRepo} {failures : VerifyFailures} {since : Option Sha} {fuel : Nat}

theorem verifyWriters_ok_iff {writers : List JsString} {chains : List ChainResult} :
    platform.verifyWriters repo failures graphName since fuel writers = some (.ok chains) ↔
      List.Forall₂ (fun writerId chain =>
        platform.verifyWriter repo (failures.chain writerId) graphName since fuel writerId = some (.ok chain))
        writers chains := by
  induction writers generalizing chains with
  | nil =>
      rw [List.forall₂_nil_left_iff]
      exact ⟨fun h => by cases h; rfl, fun h => by rw [h]; rfl⟩
  | cons writerId rest ih =>
      rw [List.forall₂_cons_left_iff, verifyWriters]
      cases hrun : platform.verifyWriter repo (failures.chain writerId) graphName since fuel writerId with
      | none => exact iff_of_false nofun fun ⟨_, _, h, _⟩ => nomatch h
      | some outcome =>
          cases outcome with
          | error err => exact iff_of_false nofun fun ⟨_, _, h, _⟩ => nomatch h
          | ok chain =>
              dsimp only
              constructor
              · intro h
                obtain ⟨outcome, houtcome, hmap⟩ := Option.map_eq_some_iff.mp h
                cases outcome with
                | error err => cases hmap
                | ok later =>
                    cases hmap
                    exact ⟨chain, later, rfl, ih.mp houtcome, rfl⟩
              · rintro ⟨_, later, ⟨⟩, hlater, rfl⟩
                rw [ih.mpr hlater]
                rfl

/-- A run that returns has listed the writers and verified the chain of each. -/
theorem verifyAll_ok_iff {verifiedAt : JsString} {trustWarning : Option JsValue} {result : VerifyResult} :
    platform.verifyAll repo failures graphName since verifiedAt trustWarning fuel = some (.ok result) ↔
      failures.listRefs = none ∧ (∃ front, buildAuditPrefix graphName = .ok front) ∧
        ∃ chains, result = ⟨graphName, verifiedAt, summarize chains, chains, trustWarning⟩ ∧
          List.Forall₂ (fun writerId chain =>
            platform.verifyWriter repo (failures.chain writerId) graphName since fuel writerId = some (.ok chain))
            (repo.auditWriters graphName) chains := by
  unfold verifyAll RefRepo.auditWriters listWriterIds
  cases hfront : buildAuditPrefix graphName with
  | error err => exact iff_of_false nofun fun ⟨_, ⟨_, h⟩, _⟩ => nomatch h
  | ok front =>
      cases hlist : failures.listRefs with
      | some err => exact iff_of_false nofun fun ⟨h, _⟩ => nomatch h
      | none =>
          simp only [bind, Except.bind, listRefs, pure, Except.pure, Except.toOption, Option.getD_some, true_and]
          rw [and_iff_right ⟨front, rfl⟩]
          simp only [← verifyWriters_ok_iff]
          constructor
          · intro h
            obtain ⟨outcome, houtcome, hmap⟩ := Option.map_eq_some_iff.mp h
            cases outcome with
            | error err => cases hmap
            | ok chains =>
                cases hmap
                exact ⟨chains, rfl, houtcome⟩
          · rintro ⟨chains, rfl, hchains⟩
            rw [hchains]
            rfl

theorem neverImproves_ok_iff {run clean : Option (Except JsError ChainResult)} {chain same : ChainResult}
    (hrun : run = some (.ok chain)) (hclean : clean = some (.ok same)) :
    NeverImproves run clean ↔ (chain.status.IsVerdict → same.status = chain.status) := by
  constructor
  · intro hnever hstatus
    obtain ⟨other, hother, hsame⟩ := hnever chain hrun hstatus
    cases hclean.symm.trans hother
    exact hsame
  · intro hsame result hresult hstatus
    cases hrun.symm.trans hresult
    exact ⟨same, hclean, hsame hstatus⟩

/-- The chains of the writers can be verified where every writer has a ref and no walk comes to a receipt that throws. -/
theorem exists_chains_iff (hfuel : repo.store.commits.size < fuel) (chainFailures : JsString → ChainFailures)
    (writers : List JsString) :
    (∃ chains, List.Forall₂ (fun writerId chain =>
      platform.verifyWriter repo (chainFailures writerId) graphName since fuel writerId = some (.ok chain)) writers chains) ↔
    ∀ writerId ∈ writers, (∃ ref, buildAuditRef graphName writerId = .ok ref) ∧
      ¬ platform.Throws repo (chainFailures writerId) graphName since writerId := by
  constructor
  · rintro ⟨chains, hchains⟩ writerId hwriter
    obtain ⟨chain, -, hchain⟩ := (Lists.exists_of_forall₂ hchains).1 writerId hwriter
    cases href : buildAuditRef graphName writerId with
    | error err =>
        rw [verifyWriter, verifyChain, href] at hchain
        cases hchain
    | ok ref =>
        obtain ⟨outcome, hrun, -, hthrows⟩ := @verifyWriter_spec platform graphName writerId repo
          (chainFailures writerId) ref since fuel href hfuel
        cases hrun.symm.trans hchain
        refine ⟨⟨ref, rfl⟩, fun h => ?_⟩
        obtain ⟨err, herr⟩ := hthrows.mpr h
        cases herr
  · intro h
    refine Lists.exists_forall₂ fun writerId hwriter => ?_
    obtain ⟨⟨ref, href⟩, hthrows⟩ := h writerId hwriter
    obtain ⟨outcome, hrun, -, hthrown⟩ := @verifyWriter_spec platform graphName writerId repo
      (chainFailures writerId) ref since fuel href hfuel
    cases outcome with
    | error err => exact absurd (hthrown.mp ⟨err, rfl⟩) hthrows
    | ok chain => exact ⟨chain, hrun⟩

theorem verifyWriter_unique (chainFailures : JsString → ChainFailures) (writerId : JsString) (chain other : ChainResult)
    (h : platform.verifyWriter repo (chainFailures writerId) graphName since fuel writerId = some (.ok chain))
    (h' : platform.verifyWriter repo (chainFailures writerId) graphName since fuel writerId = some (.ok other)) :
    chain = other :=
  Except.ok.inj (Option.some.inj (h.symm.trans h'))

/-- The verification of all chains never improves a verdict if and only if the failures do no harm. -/
theorem allNeverImprove_iff (hfuel : repo.store.commits.size < fuel) (verifiedAt : JsString)
    (trustWarning : Option JsValue) :
    AllNeverImprove (platform.verifyAll repo failures graphName since verifiedAt trustWarning fuel)
        (platform.verifyAll repo .none graphName since verifiedAt trustWarning fuel) ↔
      platform.AllHarmless repo failures graphName since := by
  constructor
  · intro hnever hlist hends hconcludes writerId hwriter
    obtain ⟨chains, hchains⟩ := (exists_chains_iff hfuel failures.chain _).mpr hends
    have hfront : ∃ front, buildAuditPrefix graphName = .ok front := by
      obtain ⟨⟨ref, href⟩, -⟩ := hends writerId hwriter
      obtain ⟨hgraph, -⟩ := validated_of_buildAuditRef href
      exact ⟨_, bind_ok_iff.mpr ⟨(), hgraph, rfl⟩⟩
    obtain ⟨concluding, hmem, hconcluding⟩ := hconcludes
    obtain ⟨chain, hchain, hrun⟩ := (Lists.exists_of_forall₂ hchains).1 concluding hmem
    obtain ⟨⟨ref, href⟩, -⟩ := hends concluding hmem
    obtain ⟨outcome, houtcome, hverdict, -⟩ := @verifyWriter_spec platform graphName concluding repo
      (failures.chain concluding) ref since fuel href hfuel
    cases houtcome.symm.trans hrun
    obtain ⟨result, hresult, hstatus⟩ := hverdict.mpr hconcluding
    cases hresult
    obtain ⟨same, hsame, hall⟩ := hnever _ (verifyAll_ok_iff.mpr ⟨hlist, hfront, chains, rfl, hchains⟩)
      ⟨_, hchain, hstatus⟩
    obtain ⟨-, -, others, rfl, hothers⟩ := verifyAll_ok_iff.mp hsame
    have hclean := (exists_chains_iff hfuel (fun _ => .none) _).mp ⟨others, hothers⟩
    obtain ⟨⟨ref, href⟩, hthrows⟩ := hclean writerId hwriter
    refine ⟨(neverImproves_iff href hfuel).mp ?_, hthrows⟩
    obtain ⟨mine, -, hmine⟩ := (Lists.exists_of_forall₂ hchains).1 writerId hwriter
    obtain ⟨other, -, hother⟩ := (Lists.exists_of_forall₂ hothers).1 writerId hwriter
    refine (neverImproves_ok_iff hmine hother).mpr ?_
    have hcommon := (Lists.forall₂_iff_of_common (verifyWriter_unique failures.chain)
      (verifyWriter_unique fun _ => .none) hchains hothers).mp hall
    exact hcommon writerId hwriter mine other hmine hother
  · intro hharmless result hresult hverdicts
    obtain ⟨hlist, hfront, chains, rfl, hchains⟩ := verifyAll_ok_iff.mp hresult
    have hends := (exists_chains_iff hfuel failures.chain _).mp ⟨chains, hchains⟩
    obtain ⟨chain, hmem, hstatus⟩ := hverdicts
    obtain ⟨concluding, hconcluding, hrun⟩ := (Lists.exists_of_forall₂ hchains).2 chain hmem
    have hconcludes : platform.Concludes repo (failures.chain concluding) graphName since concluding := by
      obtain ⟨⟨ref, href⟩, -⟩ := hends concluding hconcluding
      obtain ⟨outcome, houtcome, hverdict, -⟩ := @verifyWriter_spec platform graphName concluding repo
        (failures.chain concluding) ref since fuel href hfuel
      cases houtcome.symm.trans hrun
      exact hverdict.mp ⟨chain, rfl, hstatus⟩
    have hsafe := hharmless hlist hends ⟨concluding, hconcluding, hconcludes⟩
    obtain ⟨others, hothers⟩ := (exists_chains_iff hfuel (fun _ => .none) (repo.auditWriters graphName)).mpr
      fun writerId hwriter => ⟨(hends writerId hwriter).1, (hsafe writerId hwriter).2⟩
    refine ⟨_, verifyAll_ok_iff.mpr ⟨rfl, hfront, others, rfl, hothers⟩, ?_⟩
    refine (Lists.forall₂_iff_of_common (verifyWriter_unique failures.chain) (verifyWriter_unique fun _ => .none) hchains
      hothers).mpr ?_
    intro writerId hwriter mine other hmine hother
    obtain ⟨⟨ref, href⟩, -⟩ := hends writerId hwriter
    exact (neverImproves_ok_iff hmine hother).mp ((neverImproves_iff href hfuel).mpr (hsafe writerId hwriter).1)

end All

end AuditPlatform

/-! ### Trust -/

namespace TrustPlatform

variable {platform : TrustPlatform} {store : AuditStore} {refs : JsMap JsString Sha} {graphName : JsString}

theorem stopsShort_answer {α : Type} (fault : Option JsError) (objects : JsMap Sha α) (sha : Sha) :
    StopsShort (fun _ => True) (answer fault objects sha) (answer none objects sha) := by
  cases fault with
  | none => exact .refl _
  | some err => exact .error trivial _

theorem stopsShort_readTrustRecord (fault : AuditRead → Option JsError) (current : Sha) :
    StopsShort (fun _ => True) (platform.readTrustRecord store fault current)
      (platform.readTrustRecord store (fun _ => none) current) := by
  unfold readTrustRecord
  refine .bind (stopsShort_answer ..) fun info => ?_
  refine .bind (stopsShort_answer ..) fun commit => ?_
  refine .bind (stopsShort_answer ..) fun entries => ?_
  cases (entries.get (js "record.cbor")).filter (· ≠ []) with
  | none => exact .refl _
  | some blobOid => exact .bind (stopsShort_answer ..) fun data => .refl _

/-- The records that are read in spite of failures are those that are read without them. -/
theorem readRecordsFrom_of_failures {walk : Nat → AuditRead → Option JsError} {fuel round : Nat} {current : Sha}
    {records read : List JsValue}
    (h : platform.readRecordsFrom store walk fuel round current records = some (.ok read)) :
    platform.readRecordsFrom store (fun _ _ => none) fuel round current records = some (.ok read) := by
  induction fuel generalizing round current records with
  | zero => cases h
  | succ fuel ih =>
      unfold readRecordsFrom at h ⊢
      split at h
      · rename_i hcurrent
        rw [if_pos hcurrent]
        exact h
      rename_i hcurrent
      rw [if_neg hcurrent]
      split at h
      · cases h
      · rename_i info hread
        rw [(stopsShort_readTrustRecord (walk round) current).eq_of_ok hread]
        exact h
      · rename_i info record hread
        rw [(stopsShort_readTrustRecord (walk round) current).eq_of_ok hread]
        dsimp only
        split at h
        · exact h
        · exact ih h

theorem readRecords_of_failures {failures : TrustFailures} {ref : JsString} {pin : Option Sha} {fuel : Nat}
    {read : List JsValue} (h : platform.readRecords store refs failures ref pin fuel = some (.ok read)) :
    platform.readRecords store refs .none ref pin fuel = some (.ok read) := by
  unfold readRecords at h ⊢
  cases pin with
  | some tip => exact readRecordsFrom_of_failures h
  | none =>
      dsimp only at h ⊢
      split at h
      · rename_i failure hfailure
        rw [if_neg failure.operational] at h
        cases h
      · split at h
        · exact h
        · exact readRecordsFrom_of_failures h

theorem stopsShort_listWriterIds (failure : Option JsError) :
    StopsShort (fun _ => True) (listWriterIds refs failure graphName) (listWriterIds refs none graphName) := by
  unfold listWriterIds
  refine .bind (.refl _) fun front => .bind ?_ fun found => .refl _
  cases failure with
  | none => exact .refl _
  | some err => exact .error trivial _

/-- An assessment of records that is reached in spite of failures is that without them. -/
theorem stopsShort_assessRecords (failures : TrustFailures) (options : TrustOptions) (records : List JsValue) :
    StopsShort (fun _ => True) (platform.assessRecords refs failures graphName options records)
      (platform.assessRecords refs .none graphName options records) := by
  unfold assessRecords
  dsimp only
  split
  · exact .refl _
  refine .bind (.refl _) fun errors => .bind (.refl _) fun texts => ?_
  cases texts with
  | cons first rest => exact .refl _
  | nil =>
      cases options.writerIds with
      | some writerIds => exact .refl _
      | none => exact .bind (stopsShort_listWriterIds failures.listRefs) fun writerIds => .refl _

/-- An assessment that is no failure is that of the evaluation without failures. -/
def AssessmentNeverImproves (run clean : Option (Except JsError TrustAssessment)) : Prop :=
  ∀ assessment, run = some (.ok assessment) → assessment.trustVerdict ≠ .fail → clean = some (.ok assessment)

theorem assessmentNeverImproves (failures : TrustFailures) (options : TrustOptions) (fuel : Nat) :
    AssessmentNeverImproves (platform.evaluateTrust store refs failures graphName options fuel)
      (platform.evaluateTrust store refs .none graphName options fuel) := by
  intro assessment hrun hverdict
  unfold evaluateTrust at hrun ⊢
  cases href : buildTrustRecordRef graphName with
  | error err =>
      rw [href] at hrun
      exact hrun
  | ok ref =>
      rw [href] at hrun
      obtain ⟨read, hread, hassess⟩ := Option.map_eq_some_iff.mp hrun
      cases read with
      | error err =>
          cases hassess
          exact absurd rfl hverdict
      | ok records =>
          dsimp only
          rw [readRecords_of_failures hread]
          exact congrArg some ((stopsShort_assessRecords failures options records).eq_of_ok hassess)

end TrustPlatform

/-- Failed reads never improve a verdict: of one chain, if and only if a tip that cannot be read does no harm; of all
chains, if and only if the failures do none; of the trust, always. -/
theorem failures_never_improve_iff (platform : AuditPlatform) (trust : TrustPlatform) (repo : RefRepo)
    (graphName : JsString) :
    (∀ failures since writerId,
      (∀ fuel, repo.store.commits.size < fuel →
        AuditPlatform.NeverImproves (platform.verifyWriter repo failures graphName since fuel writerId)
          (platform.verifyWriter repo .none graphName since fuel writerId)) ↔
        platform.TipHarmless repo failures graphName since writerId) ∧
    (∀ failures since verifiedAt trustWarning,
      (∀ fuel, repo.store.commits.size < fuel →
        AuditPlatform.AllNeverImprove (platform.verifyAll repo failures graphName since verifiedAt trustWarning fuel)
          (platform.verifyAll repo .none graphName since verifiedAt trustWarning fuel)) ↔
        platform.AllHarmless repo failures graphName since) ∧
    ∀ failures options fuel,
      TrustPlatform.AssessmentNeverImproves (trust.evaluateTrust repo.store repo.refs failures graphName options fuel)
        (trust.evaluateTrust repo.store repo.refs .none graphName options fuel) := by
  refine ⟨fun failures since writerId => ?_, fun failures since verifiedAt trustWarning => ⟨fun h => ?_, ?_⟩,
    TrustPlatform.assessmentNeverImproves⟩
  · cases href : buildAuditRef graphName writerId with
    | error err =>
        refine iff_of_true (fun fuel _ result hresult => ?_) fun _ tip htip => ?_
        · rw [AuditPlatform.verifyWriter, AuditPlatform.verifyChain, href] at hresult
          cases hresult
        · rw [RefRepo.auditTip, href] at htip
          cases htip
    | ok ref =>
        exact ⟨fun h => (AuditPlatform.neverImproves_iff href (Nat.lt_succ_self _)).mp (h _ (Nat.lt_succ_self _)),
          fun h fuel hfuel => (AuditPlatform.neverImproves_iff href hfuel).mpr h⟩
  · exact (AuditPlatform.allNeverImprove_iff (Nat.lt_succ_self _) verifiedAt trustWarning).mp (h _ (Nat.lt_succ_self _))
  · exact fun h fuel hfuel => (AuditPlatform.allNeverImprove_iff hfuel verifiedAt trustWarning).mpr h

namespace ReadFailures
open TwoReceipts (oid)

/-- One commit, whose tree holds no receipt. -/
def store : AuditStore where
  commits := JsMap.ofEntries [(oid 50, ⟨[], oid 52, []⟩)]
  trees := JsMap.ofEntries [(oid 52, JsMap.empty)]
  blobs := JsMap.empty

theorem get_commits {sha : Sha} {commit : AuditCommit} (h : store.commits.get sha = some commit) :
    sha = oid 50 ∧ commit.parents = [] := by
  have hget : store.commits.get sha = if sha = oid 50 then some ⟨[], oid 52, []⟩ else none := rfl
  rw [hget] at h
  split at h
  · rename_i hsha
    cases h
    exact ⟨hsha, rfl⟩
  · cases h

/-- The audit ref of `alice` is at the commit. -/
def repo : RefRepo where
  store := store
  acyclic := by
    intro sha h
    obtain ⟨child, -, commit, hget, hparent⟩ := Relation.TransGen.tail'_iff.mp h
    rw [(get_commits hget).2] at hparent
    cases hparent
  nullId := by
    intro length hlength
    cases hget : store.commits.get (zeroHash length) with
    | none => rfl
    | some commit =>
        have hhead : (zeroHash length).head? = some 48 := by
          rw [zeroHash, List.head?_replicate, if_neg (Nat.ne_of_gt hlength)]
        rw [(get_commits hget).1] at hhead
        cases hhead
  refs := JsMap.ofEntries [(js "refs/warp/events/audit/alice", oid 50)]

/-- The first read of the tip fails, no other read does. -/
def tipTimeout : ChainFailures := ⟨some ⟨"Error", "timeout"⟩, fun _ _ => none, none⟩

/-- A broken chain is reported valid where its tip cannot be read. -/
theorem valid_without_tip : ¬ ∀ (platform : AuditPlatform) (repo : RefRepo) (failures : ChainFailures)
    (graphName : JsString) (since : Option Sha) (writerId : JsString) (fuel : Nat), repo.store.commits.size < fuel →
      AuditPlatform.NeverImproves (platform.verifyWriter repo failures graphName since fuel writerId)
        (platform.verifyWriter repo .none graphName since fuel writerId) := by
  intro h
  have hbroken : (TwoReceipts.platform.verifyWriter repo .none (js "events") none 2 (js "alice")).map
      (Except.map ChainResult.status) = some (.ok .brokenChain) := by
    decide +kernel
  have hvalid : (TwoReceipts.platform.verifyWriter repo tipTimeout (js "events") none 2 (js "alice")).map
      (Except.map ChainResult.status) = some (.ok .valid) := by
    decide +kernel
  obtain ⟨outcome, hrun, hstatus⟩ := Option.map_eq_some_iff.mp hvalid
  cases outcome with
  | error err => cases hstatus
  | ok result =>
      have hresult : result.status = .valid := Except.ok.inj hstatus
      obtain ⟨same, hsame, hequal⟩ := h TwoReceipts.platform repo tipTimeout (js "events") none (js "alice") 2
        (by decide) result hrun (.inl hresult)
      rw [hsame] at hbroken
      have hbad : same.status = .brokenChain := Except.ok.inj (Option.some.inj hbroken)
      rw [hequal, hresult] at hbad
      cases hbad

end ReadFailures

end GitWarp
