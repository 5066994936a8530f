import GitWarp.AuditVerified

/-! The whole walk of the audit verifier: over a history without cycles it ends, and it reports a verdict exactly
where the commits from the tip to its end are a sound chain. -/

namespace GitWarp
open Js JsValue ExceptLoops

/-- The parents that a commit of the store names. -/
def AuditStore.ParentOf (store : AuditStore) (parent child : Sha) : Prop :=
  ∃ commit, store.commits.get child = some commit ∧ parent ∈ commit.parents

/-- A repository: no commit is its own ancestor, and no commit has the id of zeros. -/
structure AuditRepo where
  store : AuditStore
  acyclic : ∀ sha, ¬ Relation.TransGen store.ParentOf sha sha
  nullId : ∀ length, 0 < length → store.commits.get (zeroHash length) = none

namespace SoundChain

variable {platform : AuditPlatform} {store : AuditStore} {graphName writerId : JsString} {oidLen : Nat}
  {fault : Nat → AuditRead → Option JsError} {ends : WalkedCommit → Prop} {round : Nat} {sha : Sha}

theorem ne_nil {walked : List WalkedCommit}
    (h : SoundChain platform store graphName writerId oidLen fault ends round sha walked) : walked ≠ [] := by
  cases h with
  | last hsound hends => exact List.cons_ne_nil _ _
  | link hsound hparents htick hrest => exact List.cons_ne_nil _ _

theorem head {w : WalkedCommit} {rest : List WalkedCommit}
    (h : SoundChain platform store graphName writerId oidLen fault ends round sha (w :: rest)) :
    w.sha = sha ∧ SoundCommit platform store graphName writerId oidLen (fault round) w := by
  cases h with
  | last hsound hends => exact ⟨rfl, hsound⟩
  | link hsound hparents htick hrest => exact ⟨rfl, hsound⟩

/-- The commits after the first are its ancestors. -/
theorem ancestor {w : WalkedCommit} {rest : List WalkedCommit}
    (h : SoundChain platform store graphName writerId oidLen fault ends round sha (w :: rest)) {older : WalkedCommit}
    (holder : older ∈ rest) : Relation.TransGen store.ParentOf older.sha sha := by
  induction rest generalizing round sha w with
  | nil => cases holder
  | cons next rest ih =>
      cases h with
      | link hsound hparents htick hrest =>
          have hparent : store.ParentOf w.receipt.prevAuditCommit w.sha :=
            ⟨w.commit, hsound.commit, hparents ▸ List.mem_singleton_self _⟩
          rcases List.mem_cons.mp holder with rfl | hmem
          · exact .single (hrest.head.1 ▸ hparent)
          · exact .tail (ih hrest hmem) hparent

/-- In a history without cycles, only the last commit of a chain is the one that its end names. -/
theorem ne_since {repo : AuditRepo} {since : Option Sha} {walked : List WalkedCommit}
    (h : SoundChain platform repo.store graphName writerId oidLen fault (EndsWalk since) round sha walked) :
    ∀ w ∈ walked.dropLast, since ≠ some w.sha := by
  have hlast : ∀ {round sha walked},
      SoundChain platform repo.store graphName writerId oidLen fault (EndsWalk since) round sha walked →
        ∃ w, walked.getLast? = some w ∧ EndsWalk since w := by
    intro round sha walked h
    induction h with
    | last hsound hends => exact ⟨_, rfl, hends⟩
    | link hsound hparents htick hrest ih => rwa [List.getLast?_cons_cons]
  induction h with
  | last hsound hends => exact nofun
  | @link round w older rest hsound hparents htick hrest ih =>
      rw [List.dropLast_cons_cons]
      refine List.forall_mem_cons.mpr ⟨?_, ih⟩
      rintro rfl
      obtain ⟨last, hgetLast, hends⟩ := hlast hrest
      have hancestor := (SoundChain.link hsound hparents htick hrest).ancestor (List.mem_of_getLast? hgetLast)
      rw [show last.sha = w.sha from hends] at hancestor
      exact repo.acyclic w.sha hancestor

end SoundChain

namespace AuditPlatform

variable {platform : AuditPlatform} {graphName writerId : JsString} {fault : Nat → AuditRead → Option JsError}
  {since : Option Sha}

theorem walkChain_succ {store : AuditStore} {fuel round : Nat} {current : Sha} {prevReceipt : Option AuditReceipt}
    {chainOidLen : Option Nat} {result : ChainResult} (hcurrent : current ≠ []) :
    platform.walkChain store fault graphName writerId since (fuel + 1) round current prevReceipt chainOidLen result =
      match platform.walkRound store (fault round) graphName writerId since current prevReceipt chainOidLen result with
      | .error (.threw err) => some (.error err)
      | .error (.failed result) => some (.ok result)
      | .ok (_, .done result) => some (.ok result)
      | .ok (receipt, .next result) =>
          platform.walkChain store fault graphName writerId since fuel (round + 1) receipt.prevAuditCommit (some receipt)
            (some receipt.dataCommit.length) result :=
  if_neg hcurrent

section Walk

variable {store : AuditStore} (hgraph : validateGraphName graphName = .ok ()) (hwriter : validateWriterId writerId = .ok ())
include hgraph hwriter

/-- A walk that ends with a verdict has walked a sound chain. -/
theorem soundChain_of_walkChain {fuel round : Nat} {current : Sha} {prevReceipt : Option AuditReceipt}
    {chainOidLen : Option Nat} {result after : ChainResult} (hcurrent : current ≠ []) (herrors : result.errors = [])
    (h : platform.walkChain store fault graphName writerId since fuel round current prevReceipt chainOidLen result =
      some (.ok after)) (hafter : after.status.IsVerdict) :
    ∃ oidLen walked, (∀ l ∈ chainOidLen, l = oidLen) ∧
      SoundChain platform store graphName writerId oidLen fault (EndsWalk since) round current walked ∧
      (∀ prev ∈ prevReceipt, ∀ w ∈ walked.head?, w.receipt.tickEnd < prev.tickStart) ∧
      after.status = verdict since ∧ after.errors = [] ∧
      after.receiptsVerified = result.receiptsVerified + walked.length := by
  induction fuel generalizing round current prevReceipt chainOidLen result with
  | zero => cases h
  | succ fuel ih =>
      rw [walkChain_succ hcurrent] at h
      split at h
      · cases h
      · rename_i stopped hround
        cases h
        exact absurd hafter (refuses_walkRound _ _ _ _ _ _ _ hround)
      · rename_i receipt ended hround
        cases h
        obtain ⟨commit, counted, hsound, hchain, hlink, hcounted, hend⟩ := sound_of_walkRound hgraph hwriter hround
        obtain ⟨hends, hstatus, hempty, hcount⟩ := roundEnd_done ⟨current, commit, receipt⟩
          (hcounted.errors.trans herrors) hend
        refine ⟨_, [⟨current, commit, receipt⟩], hchain, .last hsound hends, ?_, hstatus, hempty, ?_⟩
        · rintro prev hprev _ ⟨⟩
          exact hlink prev hprev
        · rw [hcount, hcounted.receiptsVerified]
          rfl
      · rename_i receipt continued hround
        obtain ⟨commit, counted, hsound, hchain, hlink, hcounted, hend⟩ := sound_of_walkRound hgraph hwriter hround
        obtain ⟨-, hparents, rfl⟩ := roundEnd_next ⟨current, commit, receipt⟩ hend
        have hprevious : receipt.prevAuditCommit ≠ [] := by
          have hoid := hsound.prevAuditCommit.1
          intro hnil
          simp [hnil] at hoid
        obtain ⟨oidLen, walked, holdest, hwalked, htick, hstatus, hempty, hcount⟩ :=
          ih hprevious (hcounted.errors.trans herrors) h
        obtain rfl : receipt.dataCommit.length = oidLen := holdest _ rfl
        cases walked with
        | nil => exact absurd rfl hwalked.ne_nil
        | cons older rest =>
            refine ⟨_, ⟨current, commit, receipt⟩ :: older :: rest, hchain,
              .link hsound hparents (htick receipt rfl older rfl) hwalked, ?_, hstatus, hempty, ?_⟩
            · rintro prev hprev _ ⟨⟩
              exact hlink prev hprev
            · rw [hcount, hcounted.receiptsVerified]
              simp only [List.length_cons]
              omega

/-- A sound chain is walked to its end, which is the verdict. -/
theorem walkChain_of_soundChain {repo : AuditRepo} {oidLen : Nat} {round : Nat} {current : Sha}
    {walked : List WalkedCommit}
    (h : SoundChain platform repo.store graphName writerId oidLen fault (EndsWalk since) round current walked)
    (hsince : ∀ w ∈ walked.dropLast, since ≠ some w.sha) {fuel : Nat} {prevReceipt : Option AuditReceipt}
    {chainOidLen : Option Nat} {result : ChainResult} (hfuel : walked.length ≤ fuel) (hcurrent : current ≠ [])
    (herrors : result.errors = []) (hchain : ∀ l ∈ chainOidLen, l = oidLen)
    (hprev : ∀ prev ∈ prevReceipt, prev.writerId = writerId ∧ prev.graphName = graphName ∧
      ∀ w ∈ walked.head?, w.receipt.tickEnd < prev.tickStart) :
    ∃ after, platform.walkChain repo.store fault graphName writerId since fuel round current prevReceipt chainOidLen result =
        some (.ok after) ∧ after.status = verdict since ∧ after.errors = [] ∧
      after.receiptsVerified = result.receiptsVerified + walked.length := by
  induction h generalizing fuel prevReceipt chainOidLen result with
  | @last round w hsound hends =>
      obtain ⟨fuel, rfl⟩ := Nat.exists_eq_add_one.mpr hfuel
      obtain ⟨counted, hcounted, hround⟩ := walkRound_of_sound since result hgraph hwriter hsound hchain
        fun prev hmem => ⟨(hprev prev hmem).2.2 w rfl, (hprev prev hmem).1, (hprev prev hmem).2.1⟩
      obtain ⟨after, hend, hstatus, hempty, hcount⟩ := roundEnd_of_ends (hcounted.errors.trans herrors) hends
      refine ⟨after, ?_, hstatus, hempty, ?_⟩
      · rw [walkChain_succ hcurrent, hround, hend]
        rfl
      · rw [hcount, hcounted.receiptsVerified]
        rfl
  | @link round w older rest hsound hparents htick hrest ih =>
      obtain ⟨fuel, rfl⟩ := Nat.exists_eq_add_one.mpr (Nat.lt_of_lt_of_le (Nat.succ_pos _) hfuel)
      rw [List.dropLast_cons_cons, List.forall_mem_cons] at hsince
      have hzero : w.receipt.prevAuditCommit ≠ zeroHash w.receipt.dataCommit.length := by
        intro hzero
        obtain ⟨hsha, holder⟩ := hrest.head
        have hpositive : 0 < w.receipt.dataCommit.length := by
          rcases hsound.dataCommit.1 with hlength | hlength <;> omega
        have hget := holder.commit
        rw [hsha, hzero, repo.nullId _ hpositive] at hget
        cases hget
      have hprevious : w.receipt.prevAuditCommit ≠ [] := by
        have hoid := hsound.prevAuditCommit.1
        intro hnil
        simp [hnil] at hoid
      obtain ⟨counted, hcounted, hround⟩ := walkRound_of_sound since result hgraph hwriter hsound hchain
        fun prev hmem => ⟨(hprev prev hmem).2.2 w rfl, (hprev prev hmem).1, (hprev prev hmem).2.1⟩
      have holdest : ∀ l ∈ some w.receipt.dataCommit.length, l = oidLen := by
        rintro _ ⟨⟩
        exact hsound.dataLength
      have hnewer : ∀ prev ∈ some w.receipt, prev.writerId = writerId ∧ prev.graphName = graphName ∧
          ∀ next ∈ (older :: rest).head?, next.receipt.tickEnd < prev.tickStart := by
        rintro _ ⟨⟩
        refine ⟨hsound.writer, hsound.graph, ?_⟩
        rintro _ ⟨⟩
        exact htick
      obtain ⟨after, hafter, hstatus, hempty, hcount⟩ := ih hsince.2 (Nat.le_of_succ_le_succ hfuel) hprevious
        (hcounted.errors.trans herrors) holdest hnewer
      refine ⟨after, ?_, hstatus, hempty, ?_⟩
      · rw [walkChain_succ hcurrent, hround, roundEnd_of_link hsince.1 hzero hparents]
        exact hafter
      · rw [hcount, hcounted.receiptsVerified]
        simp only [List.length_cons]
        omega

/-- A history without cycles is walked to an end, in no more rounds than there are commits. -/
theorem walkChain_terminates {repo : AuditRepo} {fuel round : Nat} {current : Sha} {prevReceipt : Option AuditReceipt}
    {chainOidLen : Option Nat} {result : ChainResult} (visited : List Sha) (hnodup : visited.Nodup)
    (hvisited : ∀ sha ∈ visited, sha ∈ repo.store.commits.keys ∧ Relation.TransGen repo.store.ParentOf current sha)
    (hfuel : repo.store.commits.size < fuel + visited.length) :
    ∃ outcome, ∀ more, platform.walkChain repo.store fault graphName writerId since (fuel + more) round current prevReceipt
      chainOidLen result = some outcome := by
  induction fuel generalizing round current prevReceipt chainOidLen result visited with
  | zero =>
      have hsub : visited ⊆ repo.store.commits.keys := fun sha hsha => (hvisited sha hsha).1
      have hle := (List.subperm_of_subset hnodup hsub).length_le
      rw [JsMap.keys, List.length_map] at hle
      rw [JsMap.size] at hfuel
      omega
  | succ fuel ih =>
      by_cases hcurrent : current = []
      · refine ⟨.ok (afterLoop since result), fun more => ?_⟩
        rw [Nat.succ_add]
        exact if_pos hcurrent
      -- a round either stops, or goes on at the only parent of a commit that was read
      have hstops : ∀ outcome, (∀ rest, platform.walkChain repo.store fault graphName writerId since (rest + 1) round current
          prevReceipt chainOidLen result = some outcome) → ∃ outcome, ∀ more, platform.walkChain repo.store fault graphName
            writerId since (fuel + 1 + more) round current prevReceipt chainOidLen result = some outcome := by
        intro outcome houtcome
        refine ⟨outcome, fun more => ?_⟩
        rw [Nat.succ_add]
        exact houtcome (fuel + more)
      cases hround : platform.walkRound repo.store (fault round) graphName writerId since current prevReceipt
        chainOidLen result with
      | error stop =>
          cases stop with
          | threw err => exact hstops (.error err) fun rest => by rw [walkChain_succ hcurrent, hround]
          | failed stopped => exact hstops (.ok stopped) fun rest => by rw [walkChain_succ hcurrent, hround]
      | ok passed =>
          obtain ⟨receipt, next⟩ := passed
          cases next with
          | done ended => exact hstops (.ok ended) fun rest => by rw [walkChain_succ hcurrent, hround]
          | next continued =>
              obtain ⟨commit, counted, hsound, -, -, -, hend⟩ := sound_of_walkRound hgraph hwriter hround
              obtain ⟨-, hparents, rfl⟩ := roundEnd_next ⟨current, commit, receipt⟩ hend
              have hparent : repo.store.ParentOf receipt.prevAuditCommit current :=
                ⟨commit, hsound.commit, hparents ▸ List.mem_singleton_self _⟩
              have hnew : current ∉ visited := fun hmem => repo.acyclic current (hvisited current hmem).2
              have hkey : current ∈ repo.store.commits.keys := by
                rw [JsMap.mem_keys_iff, hsound.commit]
                rfl
              obtain ⟨outcome, houtcome⟩ := ih (current :: visited) (List.nodup_cons.mpr ⟨hnew, hnodup⟩)
                (List.forall_mem_cons.mpr ⟨⟨hkey, .single hparent⟩, fun sha hsha =>
                  ⟨(hvisited sha hsha).1, .head hparent (hvisited sha hsha).2⟩⟩)
                (by rw [List.length_cons]; omega)
              refine ⟨outcome, fun more => ?_⟩
              rw [Nat.succ_add, walkChain_succ hcurrent, hround]
              exact houtcome more

end Walk

/-! ### The report -/

/-- A verification that returns with a status. -/
def Reports (outcome : Except JsError ChainResult) (status : ChainStatus) : Prop :=
  ∃ result, outcome = .ok result ∧ result.status = status

theorem sameVerdict_checkTipMoved (reads : AuditReads) (result : ChainResult) :
    SameVerdict result (checkTipMoved reads result) := by
  unfold checkTipMoved
  split
  · exact ⟨rfl, rfl, rfl⟩
  · exact ⟨rfl, rfl, rfl⟩
  · exact ⟨rfl, rfl, rfl⟩
  · split <;> exact ⟨rfl, rfl, rfl⟩

/-- The result before the walk. -/
def startResult (graphRef writerId : JsString) (since : Option Sha) (tip : Sha) : ChainResult :=
  { writerId, ref := graphRef, status := .valid, receiptsVerified := 0, receiptsScanned := 0, tipCommit := some tip,
    tipAtStart := some tip, genesisCommit := none, stoppedAt := none, since, errors := [], warnings := [] }

theorem verifyChain_eq {store : AuditStore} {reads : AuditReads} {ref : JsString} {tip : Sha} {since : Option Sha}
    {fuel : Nat} (href : buildAuditRef graphName writerId = .ok ref) (htip : reads.tip = .ok (some tip)) (hne : tip ≠ []) :
    platform.verifyChain store reads graphName writerId since fuel =
      (platform.walkChain store reads.fault graphName writerId (since.filter (· ≠ [])) fuel 0 tip none none
        (startResult ref writerId (since.filter (· ≠ [])) tip)).map (Except.map (checkTipMoved reads)) := by
  unfold verifyChain
  rw [href, htip]
  cases tip with
  | nil => exact absurd rfl hne
  | cons c rest => rfl

/-- The walk from a tip ends, with a verdict exactly where there is a sound chain to its end; the verdict counts
the commits of the chain. -/
theorem walkChain_exact (repo : AuditRepo) (ref : JsString) {tip : Sha} (hgraph : validateGraphName graphName = .ok ())
    (hwriter : validateWriterId writerId = .ok ()) (hne : tip ≠ []) :
    ∃ outcome, (∀ fuel, repo.store.commits.size < fuel → platform.walkChain repo.store fault graphName writerId since fuel 0
        tip none none (startResult ref writerId since tip) = some outcome) ∧
      ((∃ result, outcome = .ok result ∧ result.status.IsVerdict) ↔ ∃ oidLen walked,
        SoundChain platform repo.store graphName writerId oidLen fault (EndsWalk since) 0 tip walked) ∧
      ∀ result, outcome = .ok result → result.status.IsVerdict → result.status = verdict since ∧ result.errors = [] ∧
        ∀ oidLen walked, SoundChain platform repo.store graphName writerId oidLen fault (EndsWalk since) 0 tip walked →
          result.receiptsVerified = walked.length := by
  obtain ⟨outcome, houtcome⟩ : ∃ outcome, ∀ more, platform.walkChain repo.store fault graphName writerId since
      (repo.store.commits.size + 1 + more) 0 tip none none (startResult ref writerId since tip) = some outcome :=
    walkChain_terminates hgraph hwriter [] List.nodup_nil nofun (Nat.lt_succ_self _)
  have hends : ∀ fuel, repo.store.commits.size < fuel → platform.walkChain repo.store fault graphName writerId since fuel 0
      tip none none (startResult ref writerId since tip) = some outcome := by
    intro fuel hfuel
    obtain ⟨more, rfl⟩ := Nat.exists_eq_add_of_le hfuel
    exact houtcome more
  have hcomplete : ∀ oidLen walked,
      SoundChain platform repo.store graphName writerId oidLen fault (EndsWalk since) 0 tip walked →
        ∃ result, outcome = .ok result ∧ result.status = verdict since ∧ result.receiptsVerified = walked.length := by
    intro oidLen walked hwalked
    have hfuel : walked.length ≤ repo.store.commits.size + 1 + walked.length := Nat.le_add_left _ _
    have herrors : (startResult ref writerId since tip).errors = [] := rfl
    obtain ⟨after, hafter, hstatus, -, hcount⟩ := walkChain_of_soundChain hgraph hwriter hwalked hwalked.ne_since hfuel hne
      herrors (fun l (hl : l ∈ (none : Option Nat)) => nomatch hl)
      fun prev (hprev : prev ∈ (none : Option AuditReceipt)) => nomatch hprev
    rw [hends _ (Nat.lt_of_lt_of_le (Nat.lt_succ_self _) (Nat.le_add_right _ _)), Option.some.injEq] at hafter
    exact ⟨after, hafter, hstatus, by rw [hcount]; exact Nat.zero_add _⟩
  refine ⟨outcome, hends, ⟨?_, ?_⟩, ?_⟩
  · rintro ⟨result, rfl, hverdict⟩
    obtain ⟨oidLen, walked, -, hwalked, -⟩ := soundChain_of_walkChain hgraph hwriter hne
      (show (startResult ref writerId since tip).errors = [] from rfl) (hends _ (Nat.lt_succ_self _)) hverdict
    exact ⟨oidLen, walked, hwalked⟩
  · rintro ⟨oidLen, walked, hwalked⟩
    obtain ⟨result, hresult, hstatus, -⟩ := hcomplete oidLen walked hwalked
    refine ⟨result, hresult, ?_⟩
    rw [hstatus, verdict]
    split
    · exact Or.inr rfl
    · exact Or.inl rfl
  · rintro result rfl hverdict
    obtain ⟨oidLen, walked, -, -, -, hstatus, hempty, -⟩ := soundChain_of_walkChain hgraph hwriter hne
      (show (startResult ref writerId since tip).errors = [] from rfl) (hends _ (Nat.lt_succ_self _)) hverdict
    refine ⟨hstatus, hempty, fun oidLen walked hwalked => ?_⟩
    obtain ⟨other, hother, -, hcount⟩ := hcomplete oidLen walked hwalked
    cases hother
    exact hcount

/-- The verifier is sound and complete, whichever reads of the walk fail and whatever the ref reads as afterwards. -/
theorem verifyChain_exact (platform : AuditPlatform) (repo : AuditRepo) (reads : AuditReads)
    (graphName writerId : JsString) (since : Option Sha) {ref : JsString} {tip : Sha}
    (href : buildAuditRef graphName writerId = .ok ref) (htip : reads.tip = .ok (some tip)) (hne : tip ≠ []) :
    ∃ outcome, (∀ fuel, repo.store.commits.size < fuel →
        platform.verifyChain repo.store reads graphName writerId since fuel = some outcome) ∧
      (Reports outcome .valid ↔ since.filter (· ≠ []) = none ∧ ∃ oidLen walked,
        SoundChain platform repo.store graphName writerId oidLen reads.fault IsGenesis 0 tip walked) ∧
      (Reports outcome .partialChain ↔ ∃ boundary, since.filter (· ≠ []) = some boundary ∧ ∃ oidLen walked,
        SoundChain platform repo.store graphName writerId oidLen reads.fault (fun w => w.sha = boundary) 0 tip walked) ∧
      ∀ result, outcome = .ok result → result.status.IsVerdict → result.errors = [] ∧ ∀ oidLen walked,
        SoundChain platform repo.store graphName writerId oidLen reads.fault (EndsWalk (since.filter (· ≠ []))) 0 tip walked →
          result.receiptsVerified = walked.length := by
  obtain ⟨hgraph, hwriter⟩ := validated_of_buildAuditRef href
  have hwalk : ∀ {fuel}, platform.verifyChain repo.store reads graphName writerId since fuel = _ :=
    verifyChain_eq href htip hne
  generalize since.filter (· ≠ []) = since at hwalk ⊢
  obtain ⟨outcome, hends, hverdict, hcounts⟩ := walkChain_exact repo ref hgraph hwriter hne
  have hmap : ∀ result, outcome.map (checkTipMoved reads) = .ok result →
      ∃ walked, outcome = .ok walked ∧ SameVerdict walked result := by
    intro result hresult
    cases outcome with
    | error err => cases hresult
    | ok walked =>
        cases hresult
        exact ⟨walked, rfl, sameVerdict_checkTipMoved reads walked⟩
  have hreports : ∀ status : ChainStatus, status.IsVerdict → (Reports (outcome.map (checkTipMoved reads)) status ↔
      status = verdict since ∧ ∃ oidLen walked,
        SoundChain platform repo.store graphName writerId oidLen reads.fault (EndsWalk since) 0 tip walked) := by
    intro status hstatus
    rw [← hverdict]
    constructor
    · rintro ⟨result, hresult, rfl⟩
      obtain ⟨walked, hwalked, hsame⟩ := hmap result hresult
      rw [hsame.status] at hstatus ⊢
      exact ⟨(hcounts walked hwalked hstatus).1, walked, hwalked, hstatus⟩
    · rintro ⟨rfl, walked, rfl, hwalked⟩
      exact ⟨_, rfl, (sameVerdict_checkTipMoved reads walked).status.trans (hcounts walked rfl hwalked).1⟩
  refine ⟨outcome.map (checkTipMoved reads), fun fuel hfuel => ?_, ?_, ?_, ?_⟩
  · rw [hwalk, hends fuel hfuel]
    rfl
  · rw [hreports .valid (Or.inl rfl)]
    cases since with
    | none => exact and_congr_left' (iff_of_true rfl rfl)
    | some boundary => exact iff_of_false (fun h => nomatch h.1) fun h => nomatch h.1
  · rw [hreports .partialChain (Or.inr rfl)]
    cases since with
    | none => exact iff_of_false (fun h => nomatch h.1) fun ⟨_, h, _⟩ => nomatch h
    | some boundary =>
        constructor
        · rintro ⟨-, hchain⟩
          exact ⟨boundary, rfl, hchain⟩
        · rintro ⟨_, ⟨⟩, hchain⟩
          exact ⟨rfl, hchain⟩
  · intro result hresult hstatus
    obtain ⟨walked, hwalked, hsame⟩ := hmap result hresult
    rw [hsame.status] at hstatus
    obtain ⟨-, hempty, hcount⟩ := hcounts walked hwalked hstatus
    refine ⟨hsame.errors.trans hempty, fun oidLen chain hchain => ?_⟩
    rw [hsame.receiptsVerified, hcount oidLen chain hchain]

end AuditPlatform

/-! ### A chain of two receipts -/

/-- The trailers of a message, one to a line after the title and an empty line. -/
def lineCodec : TrailerCodec where
  encode title trailers := .ok (title ++ [10] ++ trailers.flatMap fun trailer => 10 :: (trailer.1 ++ js ": " ++ trailer.2))
  decode message := .ok (JsMap.ofEntries (((message.splitOn 10).drop 2).map fun line =>
    (line.takeWhile (· ≠ 58), (line.dropWhile (· ≠ 58)).drop 2)))

def cborHead (major n : Nat) : List UInt8 :=
  let initial := fun length => UInt8.ofNat (32 * major + length)
  if n < 24 then [initial n]
  else if n < 256 then [initial 24, UInt8.ofNat n]
  else if n < 65536 then [initial 25, UInt8.ofNat (n / 256), UInt8.ofNat n]
  else [initial 26, UInt8.ofNat (n / 16777216), UInt8.ofNat (n / 65536), UInt8.ofNat (n / 256), UInt8.ofNat n]

def cborText (s : JsString) : List UInt8 := cborHead 3 s.length ++ s.map fun c => UInt8.ofNat c.val

/-- A receipt of ASCII strings and numbers below 2^32 as the encoder of objects writes it. -/
def cborReceipt (receipt : AuditReceipt) : List UInt8 :=
  [185, 0, 9] ++ receipt.fields.flatMap fun field =>
    cborText field.1 ++ match field.2 with
      | .string s => cborText s
      | .number (.finite value) => cborHead 0 value.num.toNat
      | _ => []

/-- A decoder that knows what some receipts encode to. -/
def decodeAmong (receipts : List AuditReceipt) (data : List UInt8) : Except JsError JsValue :=
  match receipts.find? fun receipt => cborReceipt receipt = data with
  | some receipt => .ok (.object receipt.fields)
  | none => .error ⟨"Error", "Data read, but end of buffer not reached"⟩

namespace TwoReceipts

def oid (digit : CodeUnit) : Sha := List.replicate 40 digit

/-- The receipt of tick 1, and that of tick 2 on top of it. -/
def receipt (tick : Int) (dataCommit prevAuditCommit : Sha) : AuditReceipt :=
  { version := 1, graphName := js "events", writerId := js "alice", dataCommit, opsDigest := List.replicate 64 49,
    prevAuditCommit, tickStart := tick, tickEnd := tick, timestamp := 1700000000 }

def first : AuditReceipt := receipt 1 (oid 97) (zeroHash 40)

def second : AuditReceipt := receipt 2 (oid 98) (oid 49)

def message (receipt : AuditReceipt) : JsString :=
  js "warp:audit\n\neg-data-commit: " ++ receipt.dataCommit ++ js "\neg-graph: events\neg-kind: audit\neg-ops-digest: " ++
    receipt.opsDigest ++ js "\neg-schema: 1\neg-writer: alice"

def firstCommit : WalkedCommit := ⟨oid 49, ⟨message first, oid 51, []⟩, first⟩

def secondCommit : WalkedCommit := ⟨oid 50, ⟨message second, oid 52, [oid 49]⟩, second⟩

def store : AuditStore where
  commits := JsMap.ofEntries [(oid 49, firstCommit.commit), (oid 50, secondCommit.commit)]
  trees := JsMap.ofEntries
    [(oid 51, JsMap.ofEntries [(receiptName, oid 53)]), (oid 52, JsMap.ofEntries [(receiptName, oid 54)])]
  blobs := JsMap.ofEntries [(oid 53, cborReceipt first), (oid 54, cborReceipt second)]

def platform : AuditPlatform := ⟨lineCodec, decodeAmong [first, second], fun _ => .ok (js "?")⟩

/-- The walk reads everything; the ref is read again with a given answer. -/
def reads (tipAfter : Except JsError (Option Sha)) : AuditReads := ⟨.ok (some (oid 50)), fun _ _ => none, tipAfter⟩

theorem get_commits {sha : Sha} {commit : AuditCommit} (h : store.commits.get sha = some commit) :
    (sha = oid 49 ∧ commit = firstCommit.commit) ∨ (sha = oid 50 ∧ commit = secondCommit.commit) := by
  have hget : store.commits.get sha =
      if sha = oid 49 then some firstCommit.commit else if sha = oid 50 then some secondCommit.commit else none := rfl
  rw [hget] at h
  split at h
  · rename_i hsha
    exact Or.inl ⟨hsha, (Option.some.inj h).symm⟩
  split at h
  · rename_i hsha
    exact Or.inr ⟨hsha, (Option.some.inj h).symm⟩
  · cases h

theorem parentOf {parent child : Sha} (h : store.ParentOf parent child) : parent = oid 49 ∧ child = oid 50 := by
  obtain ⟨commit, hget, hparent⟩ := h
  rcases get_commits hget with ⟨-, rfl⟩ | ⟨rfl, rfl⟩
  · cases hparent
  · exact ⟨List.mem_singleton.mp hparent, rfl⟩

def repo : AuditRepo where
  store := store
  acyclic := by
    intro sha h
    obtain ⟨_, -, hlast⟩ := Relation.TransGen.tail'_iff.mp h
    obtain ⟨_, hfirst, -⟩ := Relation.TransGen.head'_iff.mp h
    have hne : oid 50 ≠ oid 49 := by decide +kernel
    exact hne ((parentOf hlast).2.symm.trans (parentOf hfirst).1)
  nullId := by
    intro length hlength
    cases hget : store.commits.get (zeroHash length) with
    | none => rfl
    | some commit =>
        have hhead : (zeroHash length).head? = some 48 := by
          rw [zeroHash, List.head?_replicate, if_neg (Nat.ne_of_gt hlength)]
        rcases get_commits hget with ⟨hsha, -⟩ | ⟨hsha, -⟩
        · rw [hsha] at hhead
          cases hhead
        · rw [hsha] at hhead
          cases hhead

theorem holdsReceipt {tick : Int} {dataCommit prevAuditCommit : Sha} (htick : 1 ≤ tick) :
    HoldsReceipt (.object (receipt tick dataCommit prevAuditCommit).fields) (receipt tick dataCommit prevAuditCommit) :=
  ⟨⟨_, rfl, List.Perm.refl _⟩, rfl, show js "events" ≠ [] by decide, show js "alice" ≠ [] by decide, htick, rfl,
    show (0 : Int) ≤ 1700000000 by decide⟩

theorem isOid_oid {digit : CodeUnit} (h : isHexDigit (lowerUnit digit) = true) : IsOid (oid digit) :=
  ⟨Or.inl (List.length_replicate ..), fun _ hc => List.eq_of_mem_replicate hc ▸ h⟩

/-- The trailers of a message as they are read. -/
def trailers (receipt : AuditReceipt) : List (JsString × JsString) :=
  [(js "eg-data-commit", receipt.dataCommit), (js "eg-graph", js "events"), (js "eg-kind", js "audit"),
    (js "eg-ops-digest", receipt.opsDigest), (js "eg-schema", js "1"), (js "eg-writer", js "alice")]

theorem decode_message {receipt : AuditReceipt} (hmem : receipt = first ∨ receipt = second) :
    lineCodec.decode (message receipt) = .ok (JsMap.ofEntries (trailers receipt)) := by
  have hlines : ((List.splitOn 10 (message receipt)).drop 2).map
      (fun line => (line.takeWhile (· ≠ 58), (line.dropWhile (· ≠ 58)).drop 2)) = trailers receipt := by
    rw [message, js_ofList, js_ofList, js_ofList]
    rcases hmem with rfl | rfl
    · decide +kernel
    · decide +kernel
  exact congrArg (fun lines => Except.ok (JsMap.ofEntries lines)) hlines

/-- The trailers of either message. -/
theorem trailers_of {receipt : AuditReceipt} (hmem : receipt = first ∨ receipt = second) :
    ∃ trailers, lineCodec.decode (message receipt) = .ok trailers ∧ TrailersMatch trailers receipt := by
  refine ⟨_, decode_message hmem, ?_⟩
  rcases hmem with rfl | rfl
  · exact ⟨by decide +kernel, by decide +kernel, by decide +kernel, by decide +kernel, by decide +kernel,
      by decide +kernel, [49], by decide +kernel, by decide, by decide⟩
  · exact ⟨by decide +kernel, by decide +kernel, by decide +kernel, by decide +kernel, by decide +kernel,
      by decide +kernel, [49], by decide +kernel, by decide, by decide⟩

theorem stored_of {receipt : AuditReceipt} (hmem : receipt = first ∨ receipt = second) :
    platform.decode (cborReceipt receipt) = .ok (.object receipt.fields) := by
  rcases hmem with rfl | rfl
  · decide +kernel
  · decide +kernel

theorem sound_first : SoundCommit platform store (js "events") (js "alice") 40 (fun _ => none) firstCommit where
  reads := fun _ => rfl
  commit := rfl
  stored := ⟨JsMap.ofEntries [(receiptName, oid 53)], oid 53, cborReceipt first, .object first.fields, rfl,
    rfl, rfl, stored_of (Or.inl rfl), holdsReceipt (le_refl 1)⟩
  dataCommit := isOid_oid (by decide)
  prevAuditCommit := isOid_oid (by decide)
  dataLength := List.length_replicate ..
  prevLength := List.length_replicate ..
  trailers := trailers_of (Or.inl rfl)
  writer := rfl
  graph := rfl

theorem sound_second : SoundCommit platform store (js "events") (js "alice") 40 (fun _ => none) secondCommit where
  reads := fun _ => rfl
  commit := rfl
  stored := ⟨JsMap.ofEntries [(receiptName, oid 54)], oid 54, cborReceipt second, .object second.fields,
    rfl, rfl, rfl, stored_of (Or.inr rfl), holdsReceipt (by decide)⟩
  dataCommit := isOid_oid (by decide)
  prevAuditCommit := isOid_oid (by decide)
  dataLength := List.length_replicate ..
  prevLength := List.length_replicate ..
  trailers := trailers_of (Or.inr rfl)
  writer := rfl
  graph := rfl

theorem soundChain : SoundChain platform store (js "events") (js "alice") 40 (fun _ _ => none) IsGenesis 0 (oid 50)
    [secondCommit, firstCommit] := by
  have hgenesis : IsGenesis firstCommit := ⟨rfl, rfl⟩
  have hlast : SoundChain platform store (js "events") (js "alice") 40 (fun _ _ => none) IsGenesis 1 (oid 49)
      [firstCommit] := SoundChain.last sound_first hgenesis
  exact SoundChain.link (w := secondCommit) sound_second rfl (show (1 : Int) < 2 by decide) hlast

theorem buildAuditRef_alice : buildAuditRef (js "events") (js "alice") = .ok (js "refs/warp/events/audit/alice") := by
  decide +kernel

/-- The chain of two receipts is reported valid. -/
theorem verifyChain_exact_twoReceipts : ∃ outcome, (∀ fuel, 2 < fuel → platform.verifyChain store
    (reads (.ok (some (oid 50)))) (js "events") (js "alice") none fuel = some outcome) ∧ AuditPlatform.Reports outcome .valid := by
  obtain ⟨outcome, hends, hvalid, -⟩ := AuditPlatform.verifyChain_exact platform repo (reads (.ok (some (oid 50))))
    (js "events") (js "alice") none buildAuditRef_alice rfl (by decide)
  exact ⟨outcome, hends, hvalid.mpr ⟨rfl, 40, _, soundChain⟩⟩

/-- The chain is valid whatever the ref reads as after the walk. -/
theorem status_verifyChain (tipAfter : Except JsError (Option Sha)) :
    (platform.verifyChain store (reads tipAfter) (js "events") (js "alice") none 3).map
      (Except.map ChainResult.status) = some (.ok .valid) := by
  obtain ⟨hgraph, hwriter⟩ := validated_of_buildAuditRef buildAuditRef_alice
  have hne : oid 50 ≠ [] := by decide
  have hnone : (none : Option Sha).filter (· ≠ []) = none := rfl
  have hchain : SoundChain platform repo.store (js "events") (js "alice") 40 (reads tipAfter).fault (EndsWalk none) 0
      (oid 50) [secondCommit, firstCommit] := soundChain
  obtain ⟨outcome, hends, hverdict, hstatus⟩ :=
    AuditPlatform.walkChain_exact repo (js "refs/warp/events/audit/alice") hgraph hwriter hne
  obtain ⟨result, rfl, hresult⟩ := hverdict.mpr ⟨40, _, hchain⟩
  have hverify : platform.verifyChain repo.store (reads tipAfter) (js "events") (js "alice") none 3 =
      some (.ok (AuditPlatform.checkTipMoved (reads tipAfter) result)) := by
    rw [AuditPlatform.verifyChain_eq buildAuditRef_alice rfl hne, hnone, hends 3 (by decide)]
    rfl
  have hvalid : (AuditPlatform.checkTipMoved (reads tipAfter) result).status = .valid :=
    (AuditPlatform.sameVerdict_checkTipMoved (reads tipAfter) result).status.trans (hstatus result rfl hresult).1
  change (platform.verifyChain repo.store _ _ _ _ _).map _ = _
  rw [hverify, Option.map_some, Except.map, hvalid]

/-- A verification can be valid although a read failed: that of the ref after the walk. -/
theorem valid_with_failed_read : ¬ ∀ tipAfter : Except JsError (Option Sha),
    (platform.verifyChain store (reads tipAfter) (js "events") (js "alice") none 3).map (Except.map ChainResult.status) =
      some (.ok .valid) → tipAfter.isOk = true := by
  intro h
  have hfailed := h (.error ⟨"Error", "timeout"⟩) (status_verifyChain _)
  cases hfailed

end TwoReceipts

end GitWarp
