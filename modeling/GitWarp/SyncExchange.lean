import GitWarp.CommitSafety
import GitWarp.LibraryJsObject
import GitWarp.SyncProtocol

/-! The exchange of two replicas. The requester sends its frontier; the responder walks each of its chains
back to the tip that the requester has and sends the patches on the way; the requester applies them. -/

namespace GitWarp
open Js ExceptLoops

variable {V : Type}

/-! ### Loading a range of patches -/

/-- What sync uses of the persistence layer: the commits and, for the Git adapter, the exit code of
`git merge-base --is-ancestor`. -/
structure SyncPersistence (V : Type) where
  store : ObjectStore V
  mergeBase : Option (Sha → Sha → Nat)

/-- `isAncestor` of the Git adapter; exit codes other than zero and one are thrown on. -/
def isAncestor (exitCode : Nat) : Except JsError Bool :=
  if exitCode = 0 then .ok true
  else if exitCode = 1 then .ok false
  else .error ⟨"GitError", "git merge-base failed"⟩

def isTruthy (sha : Option Sha) : Bool := sha.any fun s => !s.isEmpty

/-- The loop of `loadPatchRange`: the patches from `cur` back to `fromSha`, and whether it ran past a
root. -/
def collectRange (fromSha : Option Sha) : List (Sha × Commit V) → Sha →
    Except JsError (List (PatchEntry V) × Bool)
  | [], cur =>
      if cur = [] ∨ some cur = fromSha then .ok ([], false) else thrown s!"Commit not found: {toText cur}"
  | (objectSha, commit) :: older, cur =>
      if cur = [] ∨ some cur = fromSha then .ok ([], false)
      else if cur = objectSha then
        match commit.content with
        | .patch patch => do
            let normalized ← normalizePatch patch
            let rest ← match commit.parents.head? with
              | some parent => collectRange fromSha older parent
              | none => .ok ([], true)
            return (rest.1 ++ [⟨normalized, cur⟩], rest.2)
        | _ => thrown "Invalid patch message"
      else collectRange fromSha older cur

inductive LoadError where
  | diverged (toSha : Sha) (fromSha : Option Sha) (writerId : JsString)
  | failed (err : JsError)

def LoadError.message : LoadError → String
  | .diverged toSha fromSha writerId => s!"Divergence detected: {toText toSha} does not descend from " ++
      s!"{toText (fromSha.getD [])} for writer {toText writerId}"
  | .failed err => err.message

/-- The patches of a writer after `fromSha` up to `toSha`, oldest first. -/
def loadPatchRange (persistence : SyncPersistence V) (writerId : JsString) (fromSha : Option Sha)
    (toSha : Sha) : Except LoadError (List (PatchEntry V)) :=
  match collectRange fromSha persistence.store.objects toSha with
  | .error err => .error (.failed err)
  | .ok (patches, ranOut) =>
      if isTruthy fromSha && ranOut then .error (.diverged toSha fromSha writerId) else .ok patches

/-! ### Deltas -/

/-- The `{ from, to }` of a writer. -/
structure SyncRange where
  fromSha : Option Sha
  toSha : Sha
  deriving DecidableEq

structure SyncDelta where
  needFromRemote : JsMap JsString SyncRange
  needFromLocal : JsMap JsString SyncRange
  newWritersForLocal : List JsString
  newWritersForRemote : List JsString

/-- What the side with frontier `mine` needs from the side with frontier `theirs`, and the writers that are
new to it. -/
def neededFrom (mine theirs : Frontier) : JsMap JsString SyncRange × List JsString :=
  theirs.entries.foldl (fun needed entry =>
    match mine.get entry.1 with
    | none => (needed.1.set entry.1 ⟨none, entry.2⟩, needed.2 ++ [entry.1])
    | some sha => if sha ≠ entry.2 then (needed.1.set entry.1 ⟨some sha, entry.2⟩, needed.2) else needed)
    (JsMap.empty, [])

/-- Both directions are computed alike; ancestry is looked at later. -/
def computeSyncDelta (localFrontier remoteFrontier : Frontier) : SyncDelta :=
  let fromRemote := neededFrom localFrontier remoteFrontier
  let fromLocal := neededFrom remoteFrontier localFrontier
  ⟨fromRemote.1, fromLocal.1, fromRemote.2, fromLocal.2⟩

/-! ### Messages -/

/-- `obj[writerId] = sha` for every entry. -/
def frontierToObject (frontier : Frontier) : PlainObject Sha :=
  frontier.entries.foldl (fun obj entry => obj.assign entry.1 entry.2) PlainObject.empty

def objectToFrontier (obj : PlainObject Sha) : Frontier := JsMap.ofEntries obj.entries

structure SyncRequest where
  frontier : PlainObject Sha

structure SkippedWriter where
  writerId : JsString
  reason : String
  localSha : Sha
  remoteSha : Sha
  deriving DecidableEq

structure SyncResponse (V : Type) where
  frontier : PlainObject Sha
  patches : List (SyncPatch V)
  skippedWriters : List SkippedWriter

def createSyncRequest (frontier : Frontier) : SyncRequest := ⟨frontierToObject frontier⟩

/-- One round of the loop of `processSyncRequest`: the patches of a writer, or the writer is skipped. -/
def loadWriterRange (persistence : SyncPersistence V) (needed : JsString × SyncRange) :
    Except JsError (List (SyncPatch V) × List SkippedWriter) := do
  let skipped : SkippedWriter :=
    ⟨needed.1, "E_SYNC_DIVERGENCE", needed.2.toSha, needed.2.fromSha.getD []⟩
  let isAnc ← match needed.2.fromSha, persistence.mergeBase with
    | some sha, some mergeBase =>
        if sha.isEmpty then .ok true else isAncestor (mergeBase sha needed.2.toSha)
    | _, _ => .ok true
  if !isAnc then return ([], [skipped])
  match loadPatchRange persistence needed.1 needed.2.fromSha needed.2.toSha with
  | .ok patches => return (patches.map fun entry => ⟨needed.1, entry.sha, entry.patch⟩, [])
  | .error (.diverged _ _ _) => return ([], [skipped])
  | .error (.failed err) => .error err

def processSyncRequest (request : SyncRequest) (localFrontier : Frontier)
    (persistence : SyncPersistence V) : Except JsError (SyncResponse V) := do
  let remoteFrontier := objectToFrontier request.frontier
  let delta := computeSyncDelta remoteFrontier localFrontier
  let loaded ← delta.needFromRemote.entries.mapM (loadWriterRange persistence)
  return ⟨frontierToObject localFrontier, loaded.flatMap Prod.fst, loaded.flatMap Prod.snd⟩

/-! ### Replicas -/

/-- A state, its frontier and the repository below it. -/
structure Replica (V : Type) where
  state : WarpStateV5 V
  frontier : Frontier
  persistence : SyncPersistence V

/-- The request of one replica and the answer of the other. -/
def Replica.request (requester responder : Replica V) : Except JsError (SyncResponse V) :=
  processSyncRequest (createSyncRequest requester.frontier) responder.frontier responder.persistence

/-! ### Chains -/

/-- The tip of a chain of which the first `n` patches are there. -/
def tipAt (chain : List (PatchEntry V)) : Nat → Option Sha
  | 0 => none
  | n + 1 => chain[n]?.map PatchEntry.sha

/-- The first `count` patches of a chain are commits of the store, each on top of the one before. -/
def Stored (store : ObjectStore V) (chain : List (PatchEntry V)) (count : Nat) : Prop :=
  ∀ n entry, n < count → chain[n]? = some entry →
    store.get entry.sha = some ⟨(tipAt chain n).toList, .patch entry.patch⟩

/-- One chain of commits for each writer. A commit occurs once in its chain, and its name is that of its
contents. -/
structure LinearChains (chain : JsString → List (PatchEntry V)) : Prop where
  nodup : ∀ writerId, ((chain writerId).map PatchEntry.sha).Nodup
  named : ∀ writerId, ∀ entry ∈ chain writerId, entry.sha ≠ []
  consistent : ∀ writerId writerId', ∀ entry ∈ chain writerId, ∀ entry' ∈ chain writerId',
    entry.sha = entry'.sha → entry.patch = entry'.patch

theorem tipAt_injective {chain : List (PatchEntry V)} (hnodup : (chain.map PatchEntry.sha).Nodup)
    {m n : Nat} (hm : m ≤ chain.length) (hn : n ≤ chain.length) (h : tipAt chain m = tipAt chain n) :
    m = n := by
  have hsome : ∀ k, k < chain.length → tipAt chain (k + 1) = (chain.map PatchEntry.sha)[k]? := by
    intro k _
    rw [tipAt, List.getElem?_map]
  cases m with
  | zero =>
      cases n with
      | zero => rfl
      | succ n =>
          rw [hsome n hn, tipAt, List.getElem?_eq_getElem (by rw [List.length_map]; exact hn)] at h
          cases h
  | succ m =>
      cases n with
      | zero =>
          rw [hsome m hm, tipAt, List.getElem?_eq_getElem (by rw [List.length_map]; exact hm)] at h
          cases h
      | succ n =>
          rw [hsome m hm, hsome n hn] at h
          exact congrArg (· + 1) ((List.getElem?_inj (by rw [List.length_map]; exact hm) hnodup).mp h)

theorem tipAt_eq_some {chain : List (PatchEntry V)} {n : Nat} {sha : Sha} (h : tipAt chain n = some sha) :
    ∃ k entry, n = k + 1 ∧ chain[k]? = some entry ∧ entry.sha = sha := by
  cases n with
  | zero => cases h
  | succ k =>
      obtain ⟨entry, hentry, hsha⟩ := Option.map_eq_some_iff.mp h
      exact ⟨k, entry, rfl, hentry, hsha⟩

theorem exists_tipAt {chain : List (PatchEntry V)} {n : Nat} (hpos : 0 < n) (hn : n ≤ chain.length) :
    ∃ sha, tipAt chain n = some sha := by
  cases n with
  | zero => exact absurd hpos (lt_irrefl 0)
  | succ k => exact ⟨_, by rw [tipAt, List.getElem?_eq_getElem hn, Option.map_some]⟩

/-- The tip of a stored prefix reaches the shas of the prefix and no others. -/
theorem reaches_tipAt_iff {store : ObjectStore V} {chain : List (PatchEntry V)} {n : Nat} {tip : Sha}
    (hstored : Stored store chain n) (htip : tipAt chain n = some tip) (sha : Sha) :
    store.Reaches tip sha ↔ ∃ k ≤ n, tipAt chain k = some sha := by
  induction n generalizing tip with
  | zero => cases htip
  | succ n ih =>
      obtain ⟨entry, hentry, rfl⟩ := Option.map_eq_some_iff.mp htip
      have hget := hstored n entry (Nat.lt_succ_self n) hentry
      have hbelow : Stored store chain n := fun k e hk => hstored k e (hk.trans (Nat.lt_succ_self n))
      constructor
      · intro hreaches
        cases hreaches with
        | refl => exact ⟨n + 1, le_rfl, htip⟩
        | parent hget' hparent hrest =>
            rw [hget, Option.some.injEq] at hget'
            subst hget'
            obtain ⟨k, hk, hsha⟩ := (ih hbelow (Option.mem_toList.mp hparent)).mp hrest
            exact ⟨k, hk.trans (Nat.le_succ n), hsha⟩
      · rintro ⟨k, hk, hsha⟩
        rcases Nat.lt_or_ge n k with hlt | hge
        · have heq : k = n + 1 := by omega
          rw [heq, htip, Option.some.injEq] at hsha
          rw [hsha]
          exact ObjectStore.Reaches.refl sha
        · cases hparent : tipAt chain n with
          | none =>
              obtain ⟨j, e, rfl, he, -⟩ := tipAt_eq_some hsha
              have hlen := (List.getElem?_eq_some_iff.mp hentry).1
              obtain ⟨t, ht⟩ := (exists_tipAt (by omega) (by omega) : ∃ sha, tipAt chain n = some sha)
              rw [hparent] at ht
              cases ht
          | some parent =>
              refine ObjectStore.Reaches.parent hget ?_ ((ih hbelow hparent).mpr ⟨k, hge, hsha⟩)
              rw [hparent]
              exact List.mem_singleton_self parent

/-! ### The walk -/

/-- The entry as it is loaded: its context is a version vector. -/
def PatchEntry.normalized (entry : PatchEntry V) : PatchEntry V :=
  match normalizePatch entry.patch with
  | .ok patch => ⟨patch, entry.sha⟩
  | .error _ => entry

theorem normalizePatch_of_readPatch {entry : PatchEntry V} {read : ReadPatch V}
    (h : readPatch entry = .ok read) :
    normalizePatch entry.patch = .ok entry.normalized.patch ∧ entry.normalized.sha = entry.sha := by
  obtain ⟨events, context, -, hcontext, -⟩ := readPatch_eq_ok h
  have hnorm : ∃ patch, normalizePatch entry.patch = .ok patch := by
    unfold normalizePatch
    cases hc : entry.patch.context with
    | map vv => exact ⟨_, rfl⟩
    | record counters =>
        rw [hc, contextVV] at hcontext
        simp only [hcontext]
        exact ⟨_, rfl⟩
  obtain ⟨patch, hpatch⟩ := hnorm
  unfold PatchEntry.normalized
  rw [hpatch]
  exact ⟨rfl, rfl⟩

theorem readPatch_normalized {entry : PatchEntry V} {read : ReadPatch V} (h : readPatch entry = .ok read) :
    readPatch entry.normalized = .ok read := by
  obtain ⟨hnorm, hsha⟩ := normalizePatch_of_readPatch h
  rw [← h, ← readPatch_normalize hnorm, ← hsha]

theorem collectRange_stop {fromSha : Option Sha} {cur : Sha} (h : cur = [] ∨ some cur = fromSha)
    (objects : List (Sha × Commit V)) : collectRange fromSha objects cur = .ok ([], false) := by
  cases objects with
  | nil => rw [collectRange, if_pos h]
  | cons object older => rw [collectRange, if_pos h]

theorem collectRange_append {newer older : List (Sha × Commit V)} (hclosed : Closed (newer ++ older))
    (fromSha : Option Sha) {cur : Sha} (hcur : cur ∈ older.map Prod.fst) :
    collectRange fromSha (newer ++ older) cur = collectRange fromSha older cur := by
  induction newer with
  | nil => rfl
  | cons object rest ih =>
      have hne : cur ≠ object.1 := by
        rintro rfl
        exact hclosed.1.1 (List.map_append ▸ List.mem_append_right _ hcur)
      by_cases hstop : cur = [] ∨ some cur = fromSha
      · rw [collectRange_stop hstop, collectRange_stop hstop]
      · rw [List.cons_append, collectRange, if_neg hstop, if_neg hne]
        exact ih hclosed.2

/-- A round of the loop at a patch commit. -/
theorem collectRange_patch {store : ObjectStore V} {cur : Sha} {parentCommit : Option Sha} {patch : PatchV2 V}
    (hget : store.get cur = some ⟨parentCommit.toList, .patch patch⟩) {fromSha : Option Sha}
    (hgo : ¬ (cur = [] ∨ some cur = fromSha)) :
    collectRange fromSha store.objects cur = (do
      let normalized ← normalizePatch patch
      let rest ← match parentCommit with
        | some parent => collectRange fromSha store.objects parent
        | none => .ok ([], true)
      return (rest.1 ++ [⟨normalized, cur⟩], rest.2)) := by
  obtain ⟨newer, older, hsplit, hparents⟩ := ObjectStore.split_of_get hget
  have hclosed := store.closed
  rw [hsplit] at hclosed
  rw [hsplit, collectRange_append hclosed fromSha (List.mem_cons_self ..), collectRange, if_neg hgo,
    if_pos rfl]
  cases parentCommit with
  | none => rfl
  | some parent =>
      have hclosed' : Closed ((newer ++ [(cur, ⟨[parent], .patch patch⟩)]) ++ older) := by
        rw [List.append_assoc]
        exact hclosed
      have hrest := collectRange_append hclosed' fromSha (hparents parent (List.mem_singleton_self parent))
      rw [List.append_assoc, List.singleton_append] at hrest
      show _ = (do
        let normalized ← normalizePatch patch
        let rest ← collectRange fromSha (newer ++ (cur, ⟨[parent], .patch patch⟩) :: older) parent
        return (rest.1 ++ [⟨normalized, cur⟩], rest.2) : Except JsError _)
      rw [hrest]
      rfl

/-- Walking back from the tip of a stored prefix to the first `start` patches, or past the root. -/
theorem collectRange_stored {store : ObjectStore V} {chain : List (PatchEntry V)} (fromSha : Option Sha)
    {start n : Nat} {tip : Sha} (hstored : Stored store chain n) (hnamed : ∀ entry ∈ chain, entry.sha ≠ [])
    (hreadable : ∀ entry ∈ chain.take n, ∃ read, readPatch entry = .ok read) (hstart : start ≤ n)
    (hfrom : start = 0 ∨ tipAt chain start = fromSha)
    (habove : ∀ k, start < k → k ≤ n → tipAt chain k ≠ fromSha) (htip : tipAt chain n = some tip) :
    collectRange fromSha store.objects tip =
      .ok (((chain.take n).drop start).map PatchEntry.normalized, start = 0) := by
  induction n generalizing tip with
  | zero => cases htip
  | succ n ih =>
      obtain ⟨entry, hentry, rfl⟩ := Option.map_eq_some_iff.mp htip
      have hmem := List.mem_of_getElem? hentry
      have hlen := (List.getElem?_eq_some_iff.mp hentry).1
      have hget := hstored n entry (Nat.lt_succ_self n) hentry
      have htake : chain.take (n + 1) = chain.take n ++ [entry] := by
        rw [List.take_add_one, hentry, Option.toList_some]
      rcases Nat.lt_or_ge n start with hlt | hge
      · have heq : start = n + 1 := by omega
        subst heq
        rcases hfrom with hzero | hfrom
        · cases hzero
        · rw [collectRange_stop (Or.inr (htip.symm.trans hfrom)), List.drop_take_self]
          rfl
      · have hgo : ¬ (entry.sha = [] ∨ some entry.sha = fromSha) := by
          rintro (hempty | hstop)
          · exact hnamed entry hmem hempty
          · exact habove (n + 1) (by omega) le_rfl (htip.trans hstop)
        obtain ⟨read, hread⟩ := hreadable entry (by rw [htake]; exact List.mem_append_right _ (List.mem_singleton_self _))
        obtain ⟨hnorm, hsha⟩ := normalizePatch_of_readPatch hread
        have hlast : (⟨entry.normalized.patch, entry.sha⟩ : PatchEntry V) = entry.normalized := by
          rw [← hsha]
        have hslice : (chain.take (n + 1)).drop start = (chain.take n).drop start ++ [entry] := by
          rw [htake, List.drop_append_of_le_length]
          rw [List.length_take]
          omega
        rw [collectRange_patch hget hgo, hnorm, hslice, List.map_append]
        cases hparent : tipAt chain n with
        | none =>
            have hzero : n = 0 := by
              by_contra hne
              obtain ⟨t, ht⟩ := (exists_tipAt (by omega) (by omega) : ∃ sha, tipAt chain n = some sha)
              rw [hparent] at ht
              cases ht
            subst hzero
            have hs : start = 0 := by omega
            subst hs
            simp only [bind, Except.bind, pure, Except.pure, List.map_singleton, List.take_zero,
              List.drop_zero, List.map_nil, hlast, decide_true]
        | some parent =>
            have hrest := ih (fun k e hk => hstored k e (hk.trans (Nat.lt_succ_self n)))
              (fun e he => hreadable e (by rw [htake]; exact List.mem_append_left _ he)) hge
              (fun k hk hkn => habove k hk (hkn.trans (Nat.le_succ n))) hparent
            simp only [hrest, bind, Except.bind, pure, Except.pure, List.map_singleton, hlast]

/-! ### One writer -/

/-- The patches of a writer are those of its range, unless the writer is skipped. -/
theorem patches_of_loadWriterRange {persistence : SyncPersistence V} {needed : JsString × SyncRange}
    {result : List (SyncPatch V) × List SkippedWriter} (h : loadWriterRange persistence needed = .ok result) :
    result.1 = [] ∨ ∃ patches, loadPatchRange persistence needed.1 needed.2.fromSha needed.2.toSha = .ok patches ∧
      result.1 = patches.map fun entry => ⟨needed.1, entry.sha, entry.patch⟩ := by
  obtain ⟨writerId, fromSha, toSha⟩ := needed
  have hloop : ∀ isAnc : Bool, (if !isAnc then
        .ok ([], [⟨writerId, "E_SYNC_DIVERGENCE", toSha, fromSha.getD []⟩])
      else match loadPatchRange persistence writerId fromSha toSha with
        | .ok patches => .ok (patches.map fun entry => ⟨writerId, entry.sha, entry.patch⟩, [])
        | .error (.diverged _ _ _) => .ok ([], [⟨writerId, "E_SYNC_DIVERGENCE", toSha, fromSha.getD []⟩])
        | .error (.failed err) => .error err : Except JsError (List (SyncPatch V) × List SkippedWriter)) =
        .ok result → result.1 = [] ∨ ∃ patches, loadPatchRange persistence writerId fromSha toSha = .ok patches ∧
          result.1 = patches.map fun entry => ⟨writerId, entry.sha, entry.patch⟩ := by
    intro isAnc hresult
    cases isAnc with
    | false =>
        cases hresult
        exact .inl rfl
    | true =>
        cases hload : loadPatchRange persistence writerId fromSha toSha with
        | ok patches =>
            rw [hload] at hresult
            cases hresult
            exact .inr ⟨patches, rfl, rfl⟩
        | error err =>
            rw [hload] at hresult
            cases err with
            | diverged toSha fromSha writerId =>
                cases hresult
                exact .inl rfl
            | failed err => cases hresult
  unfold loadWriterRange at h
  cases fromSha with
  | none => exact hloop true h
  | some sha =>
      cases hbase : persistence.mergeBase with
      | none =>
          simp only [hbase] at h
          exact hloop true h
      | some mergeBase =>
          simp only [hbase] at h
          cases hempty : sha.isEmpty with
          | true =>
              simp only [hempty, if_true] at h
              exact hloop true h
          | false =>
              simp only [hempty, Bool.false_eq_true, if_false] at h
              cases hanc : isAncestor (mergeBase sha toSha) with
              | error err => rw [hanc] at h; cases h
              | ok isAnc =>
                  rw [hanc] at h
                  exact hloop isAnc h

/-- `git merge-base --is-ancestor` answers for commits that it knows, and fails otherwise. -/
def SyncPersistence.AnswersMergeBase (persistence : SyncPersistence V) : Prop :=
  ∀ mergeBase ∈ persistence.mergeBase, ∀ ancestor descendant,
    (ancestor ∈ persistence.store.shas → descendant ∈ persistence.store.shas →
      (persistence.store.Reaches descendant ancestor → mergeBase ancestor descendant = 0) ∧
        (¬ persistence.store.Reaches descendant ancestor → mergeBase ancestor descendant = 1)) ∧
      (ancestor ∉ persistence.store.shas →
        mergeBase ancestor descendant ≠ 0 ∧ mergeBase ancestor descendant ≠ 1)

theorem mem_shas_of_stored {store : ObjectStore V} {chain : List (PatchEntry V)} {count n : Nat} {tip : Sha}
    (hstored : Stored store chain count) (hn : n ≤ count) (htip : tipAt chain n = some tip) :
    tip ∈ store.shas := by
  obtain ⟨k, entry, rfl, hentry, rfl⟩ := tipAt_eq_some htip
  exact ObjectStore.mem_shas_of_get (hstored k entry hn hentry)

section Writer

variable {persistence : SyncPersistence V} {chain : List (PatchEntry V)} {theirs ours : Nat} {tip : Sha}
  (hgit : persistence.AnswersMergeBase) (hnodup : (chain.map PatchEntry.sha).Nodup)
  (hnamed : ∀ entry ∈ chain, entry.sha ≠ []) (hstored : Stored persistence.store chain ours)
  (hreadable : ∀ entry ∈ chain.take ours, ∃ read, readPatch entry = .ok read)
  (htheirs : theirs ≤ chain.length) (hours : ours ≤ chain.length) (htip : tipAt chain ours = some tip)

include hgit hnodup hnamed hstored hreadable htheirs hours htip

/-- A requester that is behind gets the patches it lacks. -/
theorem loadWriterRange_behind (writerId : JsString) (hlt : theirs < ours) :
    loadWriterRange persistence (writerId, ⟨tipAt chain theirs, tip⟩) =
      .ok (((chain.take ours).drop theirs).map
        (fun entry => ⟨writerId, entry.sha, entry.normalized.patch⟩), []) := by
  have hwalk := collectRange_stored (tipAt chain theirs) hstored hnamed hreadable hlt.le
    (Or.inr rfl) (fun k hk hkn heq => hk.ne' (tipAt_injective hnodup (hkn.trans hours) htheirs heq)) htip
  have hload : loadPatchRange persistence writerId (tipAt chain theirs) tip =
      .ok (((chain.take ours).drop theirs).map PatchEntry.normalized) := by
    unfold loadPatchRange
    rw [hwalk]
    refine if_neg ?_
    rw [Bool.and_eq_true, decide_eq_true_eq]
    rintro ⟨htruthy, hzero⟩
    rw [hzero] at htruthy
    cases htruthy
  have hpatches : (((chain.take ours).drop theirs).map PatchEntry.normalized).map
      (fun entry => (⟨writerId, entry.sha, entry.patch⟩ : SyncPatch V)) =
      ((chain.take ours).drop theirs).map
        (fun entry => ⟨writerId, entry.sha, entry.normalized.patch⟩) := by
    rw [List.map_map]
    refine List.map_congr_left fun entry hentry => ?_
    obtain ⟨read, hread⟩ := hreadable entry (List.mem_of_mem_drop hentry)
    simp only [Function.comp_apply, (normalizePatch_of_readPatch hread).2]
  have hancestor : ∀ sha mergeBase, tipAt chain theirs = some sha → persistence.mergeBase = some mergeBase →
      isAncestor (mergeBase sha tip) = .ok true := by
    intro sha mergeBase hsha hbase
    have hreaches := (reaches_tipAt_iff hstored htip sha).mpr ⟨theirs, hlt.le, hsha⟩
    rw [((hgit mergeBase hbase sha tip).1 (mem_shas_of_stored hstored hlt.le hsha)
      (mem_shas_of_stored hstored le_rfl htip)).1 hreaches]
    rfl
  unfold loadWriterRange
  dsimp only
  cases hsha : tipAt chain theirs with
  | none =>
      rw [hsha] at hload
      simp only [hload, hpatches, bind, Except.bind, pure, Except.pure]
      rfl
  | some sha =>
      rw [hsha] at hload
      cases hbase : persistence.mergeBase with
      | none =>
          simp only [hload, hpatches, bind, Except.bind, pure, Except.pure]
          rfl
      | some mergeBase =>
          simp only [hload, hpatches, hancestor sha mergeBase hsha hbase, bind, Except.bind, pure, Except.pure]
          split <;> rfl

/-- A requester that is ahead is sent nothing. -/
theorem loadWriterRange_ahead (writerId : JsString) (hlt : ours < theirs)
    (hknown : ∀ sha, tipAt chain theirs = some sha → persistence.mergeBase.isSome = true →
      sha ∈ persistence.store.shas) :
    ∃ skipped, loadWriterRange persistence (writerId, ⟨tipAt chain theirs, tip⟩) = .ok ([], [skipped]) := by
  obtain ⟨sha, hsha⟩ := (exists_tipAt (Nat.zero_lt_of_lt hlt) htheirs : ∃ sha, tipAt chain theirs = some sha)
  have hnonempty : sha ≠ [] := by
    obtain ⟨k, entry, -, hentry, rfl⟩ := tipAt_eq_some hsha
    exact hnamed entry (List.mem_of_getElem? hentry)
  have hne : ∀ k, k ≤ ours → tipAt chain k ≠ some sha := by
    intro k hk heq
    have := tipAt_injective hnodup (hk.trans hours) htheirs (heq.trans hsha.symm)
    omega
  have hwalk := collectRange_stored (some sha) hstored hnamed hreadable (Nat.zero_le ours)
    (Or.inl rfl) (fun k _ hk => hne k hk) htip
  have htruthy : isTruthy (some sha) = true := by
    cases sha with
    | nil => exact absurd rfl hnonempty
    | cons c rest => rfl
  have hload : loadPatchRange persistence writerId (some sha) tip =
      .error (.diverged tip (some sha) writerId) := by
    unfold loadPatchRange
    rw [hwalk]
    exact if_pos (by rw [htruthy]; rfl)
  have hnotAncestor : ∀ mergeBase, persistence.mergeBase = some mergeBase →
      isAncestor (mergeBase sha tip) = .ok false := by
    intro mergeBase hbase
    have hreaches : ¬ persistence.store.Reaches tip sha := by
      rw [reaches_tipAt_iff hstored htip]
      rintro ⟨k, hk, heq⟩
      exact hne k hk heq
    rw [((hgit mergeBase hbase sha tip).1 (hknown sha hsha (by rw [hbase]; rfl))
      (mem_shas_of_stored hstored le_rfl htip)).2 hreaches]
    rfl
  refine ⟨⟨writerId, "E_SYNC_DIVERGENCE", tip, sha⟩, ?_⟩
  unfold loadWriterRange
  dsimp only
  rw [hsha]
  cases hbase : persistence.mergeBase with
  | none => simp only [hload, bind, Except.bind, pure, Except.pure]; rfl
  | some mergeBase =>
      have hempty : sha.isEmpty = false := by
        cases sha with
        | nil => exact absurd rfl hnonempty
        | cons c rest => rfl
      simp only [hempty, hnotAncestor mergeBase hbase, bind, Except.bind, pure, Except.pure]
      rfl

end Writer

/-! ### Deltas and groups -/

/-- The range that one side needs of a writer. -/
def rangeFor (mine : Frontier) (entry : JsString × Sha) : Option (JsString × SyncRange) :=
  match mine.get entry.1 with
  | none => some (entry.1, ⟨none, entry.2⟩)
  | some sha => if sha ≠ entry.2 then some (entry.1, ⟨some sha, entry.2⟩) else none

theorem entries_neededFrom (mine theirs : Frontier) :
    (neededFrom mine theirs).1.entries = theirs.entries.filterMap (rangeFor mine) := by
  have hloop : ∀ (entries : List (JsString × Sha)) (start : JsMap JsString SyncRange × List JsString),
      (entries.map Prod.fst).Nodup → (∀ entry ∈ entries, start.1.get entry.1 = none) →
      (entries.foldl (fun needed entry =>
        match mine.get entry.1 with
        | none => (needed.1.set entry.1 ⟨none, entry.2⟩, needed.2 ++ [entry.1])
        | some sha => if sha ≠ entry.2 then (needed.1.set entry.1 ⟨some sha, entry.2⟩, needed.2) else needed)
        start).1.entries = start.1.entries ++ entries.filterMap (rangeFor mine) := by
    intro entries
    induction entries with
    | nil => exact fun start _ _ => (List.append_nil _).symm
    | cons entry rest ih =>
        intro start hnodup hfresh
        rw [List.map_cons, List.nodup_cons] at hnodup
        have hnone := hfresh entry (List.mem_cons_self ..)
        have hset : ∀ range, ∀ other ∈ rest, (start.1.set entry.1 range).get other.1 = none := by
          intro range other hother
          have hne : other.1 ≠ entry.1 := fun heq => hnodup.1 (heq ▸ List.mem_map_of_mem hother)
          rw [JsMap.get_set_of_ne _ _ hne]
          exact hfresh other (List.mem_cons_of_mem _ hother)
        rw [List.foldl_cons, List.filterMap_cons]
        cases hmine : mine.get entry.1 with
        | none =>
            simp only [rangeFor, hmine]
            rw [ih _ hnodup.2 (hset _)]
            dsimp only
            rw [JsMap.entries_set_of_get_none hnone, List.append_assoc, List.singleton_append]
        | some sha =>
            by_cases hsame : sha = entry.2
            · simp only [rangeFor, hmine, hsame, ne_eq, not_true_eq_false, if_false]
              exact ih _ hnodup.2 fun other hother => hfresh other (List.mem_cons_of_mem _ hother)
            · simp only [rangeFor, hmine, ne_eq, hsame, not_false_eq_true, if_true]
              rw [ih _ hnodup.2 (hset _)]
              dsimp only
              rw [JsMap.entries_set_of_get_none hnone, List.append_assoc, List.singleton_append]
  have hresult := hloop theirs.entries (JsMap.empty, []) theirs.nodup fun _ _ => rfl
  exact hresult

/-- A frontier that is sent loses the tip of `__proto__`. -/
theorem get_sentFrontier (frontier : Frontier) (writerId : JsString) :
    (objectToFrontier (frontierToObject frontier)).get writerId =
      if writerId = protoKey then none else frontier.get writerId := by
  unfold objectToFrontier frontierToObject PlainObject.entries
  rw [JsMap.get_ofEntries_of_perm (List.Perm.refl _), PlainObject.get_foldl_assign _ frontier.nodup]
  have hempty : (PlainObject.empty : PlainObject Sha).props.get writerId = none := rfl
  rw [hempty, Option.or_none]
  rfl

/-- The group of a writer. -/
theorem get_groupByWriter (patches : List (SyncPatch V)) (writerId : JsString) :
    (groupByWriter patches).get writerId =
      if (patches.filter fun p => p.writerId = writerId) = [] then none
      else some ((patches.filter fun p => p.writerId = writerId).map fun p => ⟨p.patch, p.sha⟩) := by
  induction patches using List.reverseRecOn with
  | nil => rfl
  | append_singleton patches p ih =>
      have hgroup : groupByWriter (patches ++ [p]) = (groupByWriter patches).set p.writerId
          (((groupByWriter patches).get p.writerId).getD [] ++ [⟨p.patch, p.sha⟩]) := by
        unfold groupByWriter
        rw [List.foldl_append, List.foldl_cons, List.foldl_nil]
      rw [hgroup, JsMap.get_set, List.filter_append]
      by_cases hwriter : p.writerId = writerId
      · subst hwriter
        have hlast : [p].filter (fun q => q.writerId = p.writerId) = [p] := by simp
        rw [if_pos rfl, ih, hlast, if_neg (List.append_ne_nil_of_right_ne_nil _ (List.cons_ne_nil p []))]
        by_cases hnil : patches.filter (fun q => q.writerId = p.writerId) = []
        · rw [if_pos hnil, hnil]
          rfl
        · rw [if_neg hnil, Option.getD_some, List.map_append]
          rfl
      · rw [if_neg fun heq => hwriter heq.symm, ih]
        simp [hwriter]

theorem wireOps_of_applySyncResponse {patches : List (SyncPatch V)} {state : WarpStateV5 V}
    {frontier : Frontier} {result : ApplySyncResult V}
    (h : applySyncResponse patches state frontier = .ok result) : ∀ p ∈ patches, p.patch.WireOps := by
  have hone : ∀ {s t : WarpStateV5 V} {entry : PatchEntry V}, applySyncPatch s entry = .ok t →
      entry.patch.WireOps := by
    intro s t entry happly op hop
    unfold applySyncPatch at happly
    cases hnorm : normalizePatch entry.patch with
    | error err => rw [hnorm] at happly; cases happly
    | ok patch =>
        rw [hnorm] at happly
        simp only [bind, Except.bind] at happly
        split at happly
        · cases happly
        · rename_i hfind
          rw [List.find?_eq_none, normalizePatch_ops hnorm] at hfind
          simpa using hfind op hop
  intro p hp
  have hmem : (⟨p.patch, p.sha⟩ : PatchEntry V) ∈ appliedOrder patches :=
    (mem_appliedOrder patches _).mpr ⟨p, hp, rfl⟩
  obtain ⟨group, hgroup, hentry⟩ := List.mem_flatMap.mp hmem
  obtain ⟨before, after, hstep⟩ := exists_step_of_foldlM_ok h hgroup
  cases hloop : group.2.foldlM applySyncPatch before.state with
  | error err => rw [hloop] at hstep; cases hstep
  | ok t =>
      obtain ⟨s, s', happly⟩ := exists_step_of_foldlM_ok hloop hentry
      exact hone happly

end GitWarp
