import GitWarp.AuditVerifier
import GitWarp.LibraryFailures
import Mathlib.Logic.Relation

/-! What a verified audit chain is, and that the verifier reports exactly that. One round of the walk passes where
its commit is sound and linked to the newer one; whatever stops a round leaves a status that is no verdict. -/

namespace GitWarp
open Js JsValue ExceptLoops Failures

/-! ### Sound chains -/

/-- A commit of an audit chain and its receipt. -/
structure WalkedCommit where
  sha : Sha
  commit : AuditCommit
  receipt : AuditReceipt

/-- An object id: 40 or 64 hexadecimal digits, in either case. -/
def IsOid (oid : JsString) : Prop :=
  (oid.length = 40 ∨ oid.length = 64) ∧ ∀ c ∈ oid, isHexDigit (lowerUnit c) = true

/-- The trailers of a message say what the receipt says. -/
structure TrailersMatch (trailers : JsMap JsString JsString) (receipt : AuditReceipt) : Prop where
  kind : trailers.get TrailerKey.kind.key = some (js "audit")
  graph : trailers.get TrailerKey.graph.key = some receipt.graphName
  writer : trailers.get TrailerKey.writer.key = some receipt.writerId
  dataCommit : trailers.get TrailerKey.dataCommit.key = some (toLowerCase receipt.dataCommit)
  opsDigest : trailers.get TrailerKey.opsDigest.key = some (toLowerCase receipt.opsDigest)
  digest : isSha256Text (toLowerCase receipt.opsDigest) = true
  schema : ∃ str, trailers.get TrailerKey.schema.key = some str ∧ str.all isDigit = true ∧ digitsValue str = 1

/-- The tree of the commit reads as the one entry `receipt.cbor`, which decodes to the receipt. -/
def StoresReceipt (platform : AuditPlatform) (store : AuditStore) (w : WalkedCommit) : Prop :=
  ∃ tree blobOid data value, store.trees.get w.commit.tree = some tree ∧
    (readTreeOids tree).entries = [(receiptName, blobOid)] ∧ store.blobs.get blobOid = some data ∧
    platform.decode data = .ok value ∧ HoldsReceipt value w.receipt

/-- Everything a receipt is checked for by itself, and that its commit, tree and blob can be read. -/
structure SoundCommit (platform : AuditPlatform) (store : AuditStore) (graphName writerId : JsString) (oidLen : Nat)
    (fault : AuditRead → Option JsError) (w : WalkedCommit) : Prop where
  reads : ∀ read, fault read = none
  commit : store.commits.get w.sha = some w.commit
  stored : StoresReceipt platform store w
  dataCommit : IsOid w.receipt.dataCommit
  prevAuditCommit : IsOid w.receipt.prevAuditCommit
  dataLength : w.receipt.dataCommit.length = oidLen
  prevLength : w.receipt.prevAuditCommit.length = oidLen
  trailers : ∃ trailers, platform.trailers.decode w.commit.message = .ok trailers ∧ TrailersMatch trailers w.receipt
  writer : w.receipt.writerId = writerId
  graph : w.receipt.graphName = graphName

/-- The first receipt of a chain: no audit commit before it, and no parents. -/
def IsGenesis (w : WalkedCommit) : Prop :=
  w.receipt.prevAuditCommit = zeroHash w.receipt.dataCommit.length ∧ w.commit.parents = []

/-- The commits from a position of the walk back to its end, newest first. -/
inductive SoundChain (platform : AuditPlatform) (store : AuditStore) (graphName writerId : JsString) (oidLen : Nat)
    (fault : Nat → AuditRead → Option JsError) (ends : WalkedCommit → Prop) : Nat → Sha → List WalkedCommit → Prop where
  | last {round : Nat} {w : WalkedCommit} : SoundCommit platform store graphName writerId oidLen (fault round) w →
      ends w → SoundChain platform store graphName writerId oidLen fault ends round w.sha [w]
  | link {round : Nat} {w older : WalkedCommit} {rest : List WalkedCommit} :
      SoundCommit platform store graphName writerId oidLen (fault round) w →
      w.commit.parents = [w.receipt.prevAuditCommit] → older.receipt.tickEnd < w.receipt.tickStart →
      SoundChain platform store graphName writerId oidLen fault ends (round + 1) w.receipt.prevAuditCommit (older :: rest) →
      SoundChain platform store graphName writerId oidLen fault ends round w.sha (w :: older :: rest)

/-- Everything of a commit up to its receipt can be read, and the schema check of the receipt throws. -/
def ThrowsAt (platform : AuditPlatform) (store : AuditStore) (fault : AuditRead → Option JsError) (sha : Sha)
    (err : JsError) : Prop :=
  (∀ read, fault read = none) ∧ ∃ commit tree blobOid data value decoded, store.commits.get sha = some commit ∧
    store.trees.get commit.tree = some tree ∧ (readTreeOids tree).entries = [(receiptName, blobOid)] ∧
    store.blobs.get blobOid = some data ∧ platform.decode data = .ok value ∧
    platform.trailers.decodeAuditMessage commit.message = .ok decoded ∧
    validateReceiptSchema platform.template value = .error err

/-! ### What stops a round gives no verdict -/

def ChainStatus.IsVerdict (status : ChainStatus) : Prop := status = .valid ∨ status = .partialChain

theorem isVerdict_addError (result : ChainResult) (code : String) (message : JsString) (commit : Option Sha) :
    ¬ (result.addError code message commit).status.IsVerdict := by
  unfold ChainResult.addError ChainStatus.IsVerdict
  cases result.status <;> simp

/-- Where a computation stops with an error in the result, the result has no verdict. -/
def Refuses {α : Type} (x : Except WalkStop α) : Prop := ∀ result, x = .error (.failed result) → ¬ result.status.IsVerdict

namespace Refuses

variable {α β : Type}

theorem ok (a : α) : Refuses (.ok a) := nofun

theorem threw (err : JsError) : Refuses (.error (.threw err) : Except WalkStop α) := nofun

theorem bind {x : Except WalkStop α} {f : α → Except WalkStop β} (hx : Refuses x) (hf : ∀ a, Refuses (f a)) :
    Refuses (x >>= f) := by
  cases x with
  | ok a => exact hf a
  | error stop =>
      rintro result ⟨⟩
      exact hx result rfl

end Refuses

/-- A stop with a result that has no verdict. -/
def Refusal : WalkStop → Prop
  | .threw _ => False
  | .failed result => ¬ result.status.IsVerdict

section Stops

variable {α : Type}

theorem refuses_of_stopsWith {x : Except WalkStop α} (h : StopsWith Refusal x) : Refuses x :=
  fun result hresult => h (.failed result) hresult

theorem stopsWith_stopWith (result : ChainResult) (code : String) (message : JsString) (commit : Option Sha) :
    StopsWith Refusal (stopWith result code message commit : Except WalkStop α) := by
  have hrefusal : Refusal (.failed (result.addError code message commit)) := isVerdict_addError result code message commit
  exact .error hrefusal

theorem stopsWith_stopAs {status : ChainStatus} (hstatus : ¬ status.IsVerdict) (result : ChainResult) (code : String)
    (message : JsString) (commit : Option Sha) :
    StopsWith Refusal (stopAs status result code message commit : Except WalkStop α) := by
  have hrefusal : Refusal (.failed { result.addError code message commit with status := status }) := hstatus
  exact .error hrefusal

theorem stopsWith_orStop {x : Except JsError α} {onError : JsString → Except WalkStop α}
    (h : ∀ text, StopsWith Refusal (onError text)) : StopsWith Refusal (orStop x onError) := by
  cases x with
  | ok a => exact .ok a
  | error err => exact h (js err.message)

end Stops

theorem not_isVerdict_brokenChain : ¬ ChainStatus.brokenChain.IsVerdict := by simp [ChainStatus.IsVerdict]

theorem not_isVerdict_dataMismatch : ¬ ChainStatus.dataMismatch.IsVerdict := by simp [ChainStatus.IsVerdict]

theorem not_isVerdict_error : ¬ ChainStatus.error.IsVerdict := by simp [ChainStatus.IsVerdict]

/-! ### The checks, one by one -/

theorem answer_ok_iff {α : Type} {fault : Option JsError} {store : JsMap Sha α} {sha : Sha} {found : α} :
    answer fault store sha = .ok found ↔ fault = none ∧ store.get sha = some found := by
  unfold answer
  cases fault with
  | some err => exact ⟨nofun, nofun⟩
  | none =>
      cases store.get sha with
      | none => exact ⟨nofun, nofun⟩
      | some object => simp

theorem orStop_ok_iff {α : Type} {x : Except JsError α} {onError : JsString → Except WalkStop α} {a : α}
    (h : ∀ text, onError text ≠ .ok a) : orStop x onError = .ok a ↔ x = .ok a := by
  cases x with
  | ok b => simp [orStop]
  | error err => exact iff_of_false (h _) nofun

theorem stopWith_ne_ok {α : Type} {result : ChainResult} {code : String} {message : JsString} {commit : Option Sha} {a : α} :
    stopWith result code message commit ≠ .ok a := nofun

theorem stopAs_ne_ok {α : Type} {status : ChainStatus} {result : ChainResult} {code : String} {message : JsString}
    {commit : Option Sha} {a : α} : stopAs status result code message commit ≠ .ok a := nofun

theorem validateOidFormat_eq_none_iff {oid : JsString} : validateOidFormat oid = none ↔ IsOid oid := by
  have hlength : (toLowerCase oid).length = oid.length := List.length_map _
  have hall : (toLowerCase oid).all isHexDigit = true ↔ ∀ c ∈ oid, isHexDigit (lowerUnit c) = true := by
    rw [toLowerCase, List.all_map, List.all_eq_true]
    rfl
  unfold validateOidFormat IsOid
  dsimp only
  rw [← hall, hlength]
  split
  · rename_i hbad
    refine iff_of_false nofun ?_
    rintro ⟨hsize, hhex⟩
    rcases hbad with hnil | hfalse
    · rw [toLowerCase, List.map_eq_nil_iff] at hnil
      subst hnil
      simp at hsize
    · rw [hhex] at hfalse
      cases hfalse
  · rename_i hgood
    rw [not_or, Bool.not_eq_false] at hgood
    split
    · rename_i hsize
      exact iff_of_false nofun fun h => h.1.elim hsize.1 hsize.2
    · rename_i hsize
      refine iff_of_true rfl ⟨?_, hgood.2⟩
      by_contra hnot
      rw [not_or] at hnot
      exact hsize hnot

theorem validateOids_ok_iff {receipt : AuditReceipt} {result : ChainResult} {commitSha : Sha} :
    validateOids receipt result commitSha = .ok () ↔
      IsOid receipt.dataCommit ∧ (IsOid receipt.prevAuditCommit ∨
        receipt.prevAuditCommit ≠ [] ∧ ∀ c ∈ receipt.prevAuditCommit, c = 48) := by
  unfold validateOids
  rw [← validateOidFormat_eq_none_iff, ← validateOidFormat_eq_none_iff]
  cases validateOidFormat receipt.dataCommit with
  | some text => exact iff_of_false nofun fun h => nomatch h.1
  | none =>
      cases validateOidFormat receipt.prevAuditCommit with
      | none => exact iff_of_true rfl ⟨rfl, Or.inl rfl⟩
      | some text =>
          dsimp only
          split
          · rename_i hzero
            rw [Bool.and_eq_true, decide_eq_true_eq, List.all_eq_true] at hzero
            exact iff_of_true rfl ⟨rfl, Or.inr ⟨hzero.1, fun c hc => of_decide_eq_true (hzero.2 c hc)⟩⟩
          · rename_i hzero
            refine iff_of_false nofun ?_
            rintro ⟨-, hfalse | ⟨hne, hall⟩⟩
            · cases hfalse
            · rw [Bool.and_eq_true, decide_eq_true_eq, List.all_eq_true] at hzero
              exact hzero ⟨hne, fun c hc => decide_eq_true (hall c hc)⟩

theorem checkOidLength_ok_iff {receipt : AuditReceipt} {chainOidLen : Option Nat} {result : ChainResult} {current : Sha} :
    checkOidLength receipt chainOidLen result current = .ok () ↔
      (∀ oidLen ∈ chainOidLen, oidLen = receipt.dataCommit.length) ∧
        receipt.prevAuditCommit.length = receipt.dataCommit.length := by
  have hprev : (if receipt.prevAuditCommit.length ≠ receipt.dataCommit.length then
        stopWith result "OID_LENGTH_MISMATCH" (js "prevAuditCommit length " ++ decimal receipt.prevAuditCommit.length ++
          js " !== dataCommit length " ++ decimal receipt.dataCommit.length) (some current)
      else .ok ()) = (.ok () : Except WalkStop Unit) ↔
      receipt.prevAuditCommit.length = receipt.dataCommit.length := by
    split
    · rename_i hne
      exact iff_of_false nofun hne
    · rename_i heq
      exact iff_of_true rfl (not_not.mp heq)
  unfold checkOidLength
  cases chainOidLen with
  | none =>
      refine Iff.trans ?_ (and_iff_right nofun).symm
      exact hprev
  | some oidLen =>
      by_cases heq : oidLen = receipt.dataCommit.length
      · subst heq
        simp only [Option.filter_some, ne_eq, not_true_eq_false, decide_false, Bool.false_eq_true, if_false]
        refine Iff.trans hprev (and_iff_right ?_).symm
        rintro _ ⟨⟩
        rfl
      · simp only [Option.filter_some, ne_eq, heq, not_false_eq_true, decide_true, if_true]
        exact iff_of_false nofun fun h => heq (h.1 oidLen rfl)

/-- All zeros, in the length of an object id, is an object id. -/
theorem isOid_of_zeros {data prev : JsString} (hdata : IsOid data) (hlength : prev.length = data.length)
    (hzeros : ∀ c ∈ prev, c = 48) : IsOid prev := by
  refine ⟨hlength ▸ hdata.1, fun c hc => ?_⟩
  rw [hzeros c hc]
  decide

/-- The two checks of the object ids together. -/
theorem oids_ok_iff {receipt : AuditReceipt} {chainOidLen : Option Nat} {result : ChainResult} {current : Sha} :
    (validateOids receipt result current = .ok () ∧ checkOidLength receipt chainOidLen result current = .ok ()) ↔
      IsOid receipt.dataCommit ∧ IsOid receipt.prevAuditCommit ∧
        (∀ oidLen ∈ chainOidLen, oidLen = receipt.dataCommit.length) ∧
        receipt.prevAuditCommit.length = receipt.dataCommit.length := by
  rw [validateOids_ok_iff, checkOidLength_ok_iff]
  constructor
  · rintro ⟨⟨hdata, hprev⟩, hchain, hlength⟩
    refine ⟨hdata, ?_, hchain, hlength⟩
    rcases hprev with hoid | ⟨-, hzeros⟩
    · exact hoid
    · exact isOid_of_zeros hdata hlength hzeros
  · rintro ⟨hdata, hprev, hrest⟩
    exact ⟨⟨hdata, Or.inl hprev⟩, hrest⟩

theorem lowerUnit_of_isHexDigit {c : CodeUnit} (h : isHexDigit c = true) : lowerUnit c = c := by
  unfold isHexDigit isDigit at h
  unfold lowerUnit
  rw [if_neg]
  simp only [Bool.or_eq_true, Bool.and_eq_true, decide_eq_true_eq] at h
  omega

theorem toLowerCase_of_hex {s : JsString} (h : s.all isHexDigit = true) : toLowerCase s = s := by
  rw [List.all_eq_true] at h
  unfold toLowerCase
  conv_rhs => rw [← List.map_id s]
  exact List.map_congr_left fun c hc => lowerUnit_of_isHexDigit (h c hc)

theorem isOidText_toLowerCase {oid : JsString} (h : IsOid oid) : isOidText (toLowerCase oid) = true := by
  have hall : (toLowerCase oid).all isHexDigit = true := by
    rw [toLowerCase, List.all_map, List.all_eq_true]
    exact h.2
  rw [isOidText, hall, toLowerCase, List.length_map]
  simpa using h.1

theorem checkTrailers_ok_iff {receipt : AuditReceipt} {decoded : AuditMessage} {result : ChainResult} {current : Sha} :
    checkTrailers receipt decoded result current = .ok () ↔
      decoded.schema = 1 ∧ decoded.graph = receipt.graphName ∧ decoded.writer = receipt.writerId ∧
        toLowerCase decoded.dataCommit = toLowerCase receipt.dataCommit ∧
        toLowerCase decoded.opsDigest = toLowerCase receipt.opsDigest := by
  have hnone : checkTrailers receipt decoded result current = .ok () ↔ validateTrailerConsistency receipt decoded = none := by
    unfold checkTrailers
    cases validateTrailerConsistency receipt decoded with
    | none => exact iff_of_true rfl rfl
    | some text => exact iff_of_false nofun nofun
  rw [hnone]
  unfold validateTrailerConsistency
  split
  · rename_i h
    exact iff_of_false nofun fun heq => h heq.1
  rename_i hschema
  split
  · rename_i h
    exact iff_of_false nofun fun heq => h heq.2.1
  rename_i hgraph
  split
  · rename_i h
    exact iff_of_false nofun fun heq => h heq.2.2.1
  rename_i hwriter
  split
  · rename_i h
    exact iff_of_false nofun fun heq => h heq.2.2.2.1
  rename_i hdata
  split
  · rename_i h
    exact iff_of_false nofun fun heq => h heq.2.2.2.2
  rename_i hops
  exact iff_of_true rfl ⟨not_not.mp hschema, not_not.mp hgraph, not_not.mp hwriter, not_not.mp hdata, not_not.mp hops⟩

/-- The message decodes to trailers that are those of the receipt. -/
theorem trailers_ok_iff {codec : TrailerCodec} {text : JsString} {receipt : AuditReceipt} (result : ChainResult)
    (current : Sha) (hgraph : validateGraphName receipt.graphName = .ok ())
    (hwriter : validateWriterId receipt.writerId = .ok ()) (hdata : IsOid receipt.dataCommit) :
    (∃ decoded, codec.decodeAuditMessage text = .ok decoded ∧ checkTrailers receipt decoded result current = .ok ()) ↔
      ∃ trailers, codec.decode text = .ok trailers ∧ TrailersMatch trailers receipt := by
  constructor
  · rintro ⟨decoded, hdecoded, hcheck⟩
    obtain ⟨trailers, htrailers, h⟩ := decodeAuditMessage_ok_iff.mp hdecoded
    obtain ⟨-, hgraphEq, hwriterEq, hdataEq, hopsEq⟩ := checkTrailers_ok_iff.mp hcheck
    have hoid := h.oid
    have hdigest := h.digest
    rw [isOidText, Bool.and_eq_true] at hoid
    rw [isSha256Text, Bool.and_eq_true] at hdigest
    rw [toLowerCase_of_hex hoid.2] at hdataEq
    rw [toLowerCase_of_hex hdigest.2] at hopsEq
    exact ⟨trailers, htrailers, h.kind, hgraphEq ▸ h.graph, hwriterEq ▸ h.writer, hdataEq ▸ h.dataCommit,
      hopsEq ▸ h.opsDigest, hopsEq ▸ h.digest, h.numeral⟩
  · rintro ⟨trailers, htrailers, h⟩
    have hoid := isOidText_toLowerCase hdata
    have hhex := hoid
    have hdigest := h.digest
    rw [isOidText, Bool.and_eq_true] at hhex
    rw [isSha256Text, Bool.and_eq_true] at hdigest
    refine ⟨⟨receipt.graphName, receipt.writerId, toLowerCase receipt.dataCommit, toLowerCase receipt.opsDigest, 1⟩,
      decodeAuditMessage_ok_iff.mpr ⟨trailers, htrailers, ?_⟩, checkTrailers_ok_iff.mpr ?_⟩
    · exact ⟨h.kind, h.graph, hgraph, h.writer, hwriter, h.dataCommit, hoid, h.opsDigest, h.digest, h.schema, rfl⟩
    · exact ⟨rfl, rfl, rfl, toLowerCase_of_hex hhex.2, toLowerCase_of_hex hdigest.2⟩

theorem checkSchema_ok_iff {template : JsValue → Except JsError JsString} {value : JsValue} {result : ChainResult}
    {current : Sha} {receipt : AuditReceipt} :
    checkSchema template value result current = .ok receipt ↔ HoldsReceipt value receipt := by
  have hschema : validateReceiptSchema template value = .ok none ↔ ∃ receipt, HoldsReceipt value receipt :=
    validateReceiptSchema_ok_iff
  unfold checkSchema
  cases hresult : validateReceiptSchema template value with
  | error err =>
      rw [hresult] at hschema
      exact iff_of_false nofun fun h => nomatch hschema.mpr ⟨receipt, h⟩
  | ok found =>
      rw [hresult] at hschema
      cases found with
      | some text => exact iff_of_false nofun fun h => nomatch hschema.mpr ⟨receipt, h⟩
      | none =>
          obtain ⟨held, hheld⟩ := hschema.mp rfl
          dsimp only
          rw [hheld.ofValue_eq, Except.ok.injEq]
          constructor
          · rintro rfl
            exact hheld
          · intro h
            rw [← hheld.ofValue_eq, h.ofValue_eq]

theorem receiptBlob_ok_iff {tree : JsMap JsString Sha} {result : ChainResult} {commitSha blobOid : Sha} :
    receiptBlob tree result commitSha = .ok blobOid ↔ tree.entries = [(receiptName, blobOid)] := by
  obtain ⟨entries, hnodup⟩ := tree
  unfold receiptBlob JsMap.get JsMap.size
  constructor
  · intro h
    split at h
    · rename_i found hget hsize
      cases h
      obtain ⟨⟨name, oid⟩, rfl⟩ := List.length_eq_one_iff.mp hsize
      rw [JsMap.lookup_cons] at hget
      split at hget
      · rename_i hname
        cases hget
        rw [hname]
      · cases hget
    · cases h
  · rintro rfl
    simp [JsMap.lookup]

theorem readReceipt_ok_iff {platform : AuditPlatform} {store : AuditStore} {fault : AuditRead → Option JsError}
    {commitSha : Sha} {commitInfo : AuditCommit} {result : ChainResult} {value : JsValue} {decoded : AuditMessage} :
    platform.readReceipt store fault commitSha commitInfo result = .ok (value, decoded) ↔
      ∃ commit tree blobOid data, (fault .commitTree = none ∧ store.commits.get commitSha = some commit) ∧
        (fault .treeOids = none ∧ store.trees.get commit.tree = some tree) ∧
        (readTreeOids tree).entries = [(receiptName, blobOid)] ∧
        (fault .blob = none ∧ store.blobs.get blobOid = some data) ∧ platform.decode data = .ok value ∧
        platform.trailers.decodeAuditMessage commitInfo.message = .ok decoded := by
  unfold AuditPlatform.readReceipt
  constructor
  · intro h
    obtain ⟨commit, hcommit, h⟩ := bind_ok_iff.mp h
    obtain ⟨tree, htree, h⟩ := bind_ok_iff.mp h
    obtain ⟨blobOid, hblobOid, h⟩ := bind_ok_iff.mp h
    obtain ⟨data, hdata, h⟩ := bind_ok_iff.mp h
    obtain ⟨held, hheld, h⟩ := bind_ok_iff.mp h
    obtain ⟨message, hmessage, h⟩ := bind_ok_iff.mp h
    cases h
    exact ⟨commit, tree, blobOid, data, answer_ok_iff.mp ((orStop_ok_iff fun _ => stopWith_ne_ok).mp hcommit),
      answer_ok_iff.mp ((orStop_ok_iff fun _ => stopWith_ne_ok).mp htree), receiptBlob_ok_iff.mp hblobOid,
      answer_ok_iff.mp ((orStop_ok_iff fun _ => stopWith_ne_ok).mp hdata), (orStop_ok_iff fun _ => stopAs_ne_ok).mp hheld,
      (orStop_ok_iff fun _ => stopAs_ne_ok).mp hmessage⟩
  · rintro ⟨commit, tree, blobOid, data, hcommit, htree, hblobOid, hdata, hheld, hmessage⟩
    refine bind_ok_iff.mpr ⟨commit, (orStop_ok_iff fun _ => stopWith_ne_ok).mpr (answer_ok_iff.mpr hcommit), ?_⟩
    refine bind_ok_iff.mpr ⟨tree, (orStop_ok_iff fun _ => stopWith_ne_ok).mpr (answer_ok_iff.mpr htree), ?_⟩
    refine bind_ok_iff.mpr ⟨blobOid, receiptBlob_ok_iff.mpr hblobOid, ?_⟩
    refine bind_ok_iff.mpr ⟨data, (orStop_ok_iff fun _ => stopWith_ne_ok).mpr (answer_ok_iff.mpr hdata), ?_⟩
    refine bind_ok_iff.mpr ⟨value, (orStop_ok_iff fun _ => stopAs_ne_ok).mpr hheld, ?_⟩
    exact bind_ok_iff.mpr ⟨decoded, (orStop_ok_iff fun _ => stopAs_ne_ok).mpr hmessage, rfl⟩

/-! ### One round -/

/-- Only what no verdict depends on has changed. -/
structure SameVerdict (before after : ChainResult) : Prop where
  status : after.status = before.status
  errors : after.errors = before.errors
  receiptsVerified : after.receiptsVerified = before.receiptsVerified

theorem of_validateChainLink {receipt prevReceipt : AuditReceipt} {sha : Sha} {result after : ChainResult} :
    validateChainLink receipt prevReceipt sha result = .ok after →
      receipt.tickEnd < prevReceipt.tickStart ∧ SameVerdict result after := by
  intro h
  unfold validateChainLink at h
  split at h
  · cases h
  rename_i htick
  dsimp only at h
  split at h
  · cases h
  split at h
  · cases h
  cases h
  refine ⟨Int.not_le.mp htick, ?_⟩
  split <;> exact ⟨rfl, rfl, rfl⟩

theorem validateChainLink_ok {receipt prevReceipt : AuditReceipt} {sha : Sha} {result : ChainResult}
    (htick : receipt.tickEnd < prevReceipt.tickStart) (hwriter : receipt.writerId = prevReceipt.writerId)
    (hgraph : receipt.graphName = prevReceipt.graphName) :
    ∃ after, validateChainLink receipt prevReceipt sha result = .ok after ∧ SameVerdict result after := by
  unfold validateChainLink
  rw [if_neg (Int.not_le.mpr htick)]
  dsimp only
  rw [if_neg (not_not.mpr hwriter), if_neg (not_not.mpr hgraph)]
  refine ⟨_, rfl, ?_⟩
  split <;> exact ⟨rfl, rfl, rfl⟩

theorem checkWriter_ok_iff {receipt : AuditReceipt} {graphName writerId : JsString} {result : ChainResult} {current : Sha} :
    checkWriter receipt graphName writerId result current = .ok () ↔
      receipt.writerId = writerId ∧ receipt.graphName = graphName := by
  unfold checkWriter
  split
  · rename_i h
    exact iff_of_false nofun fun heq => h heq.1
  rename_i hwriter
  split
  · rename_i h
    exact iff_of_false nofun fun heq => h heq.2
  rename_i hgraph
  exact iff_of_true rfl ⟨not_not.mp hwriter, not_not.mp hgraph⟩

/-- The result of a round that passes, before its end is looked at. -/
structure Counted (before after : ChainResult) : Prop where
  status : after.status = before.status
  errors : after.errors = before.errors
  receiptsVerified : after.receiptsVerified = before.receiptsVerified + 1

variable {platform : AuditPlatform} {store : AuditStore} {graphName writerId : JsString}

/-- A round passes on a sound commit that is linked to the newer receipt. -/
theorem walkRound_of_sound {oidLen : Nat} {fault : AuditRead → Option JsError} {w : WalkedCommit}
    {prevReceipt : Option AuditReceipt} {chainOidLen : Option Nat} (since : Option Sha) (result : ChainResult)
    (hgraph : validateGraphName graphName = .ok ()) (hwriter : validateWriterId writerId = .ok ())
    (hsound : SoundCommit platform store graphName writerId oidLen fault w) (hlength : ∀ l ∈ chainOidLen, l = oidLen)
    (hlink : ∀ prev ∈ prevReceipt, w.receipt.tickEnd < prev.tickStart ∧ prev.writerId = writerId ∧ prev.graphName = graphName) :
    ∃ after, Counted result after ∧
      platform.walkRound store fault graphName writerId since w.sha prevReceipt chainOidLen result =
        (roundEnd w.commit w.receipt since w.sha after).map (Prod.mk w.receipt) := by
  obtain ⟨tree, blobOid, data, value, htree, hentries, hdata, hvalue, hheld⟩ := hsound.stored
  let scanned := { result with receiptsScanned := result.receiptsScanned + 1 }
  obtain ⟨decoded, hdecoded, htrailers⟩ := (trailers_ok_iff scanned w.sha (hsound.graph ▸ hgraph)
    (hsound.writer ▸ hwriter) hsound.dataCommit).mpr hsound.trailers
  obtain ⟨hoids, hlengths⟩ : validateOids w.receipt scanned w.sha = .ok () ∧
      checkOidLength w.receipt chainOidLen scanned w.sha = .ok () := by
    refine oids_ok_iff.mpr ⟨hsound.dataCommit, hsound.prevAuditCommit, fun l hl => ?_, ?_⟩
    · rw [hlength l hl, hsound.dataLength]
    · rw [hsound.prevLength, hsound.dataLength]
  have hcommit : orStop (answer (fault .nodeInfo) store.commits w.sha) (fun text =>
      stopWith scanned "MISSING_RECEIPT_BLOB" (js "Cannot read commit " ++ w.sha ++ js ": " ++ text) w.sha) =
      .ok w.commit :=
    (orStop_ok_iff fun _ => stopWith_ne_ok).mpr (answer_ok_iff.mpr ⟨hsound.reads .nodeInfo, hsound.commit⟩)
  have hread : platform.readReceipt store fault w.sha w.commit scanned = .ok (value, decoded) :=
    readReceipt_ok_iff.mpr ⟨w.commit, tree, blobOid, data, ⟨hsound.reads .commitTree, hsound.commit⟩,
      ⟨hsound.reads .treeOids, htree⟩, hentries, ⟨hsound.reads .blob, hdata⟩, hvalue, hdecoded⟩
  have hschema : checkSchema platform.template value scanned w.sha = .ok w.receipt := checkSchema_ok_iff.mpr hheld
  obtain ⟨linked, hlinked, hsame⟩ : ∃ linked, checkLink w.receipt prevReceipt w.sha scanned = .ok linked ∧
      SameVerdict scanned linked := by
    cases prevReceipt with
    | none => exact ⟨scanned, rfl, rfl, rfl, rfl⟩
    | some prev =>
        obtain ⟨htick, hprevWriter, hprevGraph⟩ := hlink prev rfl
        exact validateChainLink_ok htick (hsound.writer.trans hprevWriter.symm) (hsound.graph.trans hprevGraph.symm)
  have hexpected : checkWriter w.receipt graphName writerId linked w.sha = .ok () :=
    checkWriter_ok_iff.mpr ⟨hsound.writer, hsound.graph⟩
  refine ⟨{ linked with receiptsVerified := linked.receiptsVerified + 1 }, ⟨hsame.status, hsame.errors, ?_⟩, ?_⟩
  · rw [hsame.receiptsVerified]
  · unfold AuditPlatform.walkRound
    simp only [hcommit, hread, hschema, hoids, hlengths, htrailers, hlinked, hexpected, bind, Except.bind, scanned]
    cases roundEnd w.commit w.receipt since w.sha { linked with receiptsVerified := linked.receiptsVerified + 1 } <;> rfl

/-- A round that passes was on a sound commit, linked to the newer receipt. -/
theorem sound_of_walkRound {fault : AuditRead → Option JsError} {since : Option Sha} {current : Sha}
    {prevReceipt : Option AuditReceipt} {chainOidLen : Option Nat} {result : ChainResult} {receipt : AuditReceipt}
    {next : WalkNext} (hgraph : validateGraphName graphName = .ok ()) (hwriter : validateWriterId writerId = .ok ())
    (h : platform.walkRound store fault graphName writerId since current prevReceipt chainOidLen result =
      .ok (receipt, next)) :
    ∃ commit after, SoundCommit platform store graphName writerId receipt.dataCommit.length fault ⟨current, commit, receipt⟩ ∧
      (∀ l ∈ chainOidLen, l = receipt.dataCommit.length) ∧ (∀ prev ∈ prevReceipt, receipt.tickEnd < prev.tickStart) ∧
      Counted result after ∧ roundEnd commit receipt since current after = .ok next := by
  unfold AuditPlatform.walkRound at h
  obtain ⟨commit, hcommit, h⟩ := bind_ok_iff.mp h
  obtain ⟨⟨value, decoded⟩, hread, h⟩ := bind_ok_iff.mp h
  obtain ⟨held, hschema, h⟩ := bind_ok_iff.mp h
  obtain ⟨⟨⟩, hoids, h⟩ := bind_ok_iff.mp h
  obtain ⟨⟨⟩, hlengths, h⟩ := bind_ok_iff.mp h
  obtain ⟨⟨⟩, htrailers, h⟩ := bind_ok_iff.mp h
  obtain ⟨linked, hlinked, h⟩ := bind_ok_iff.mp h
  obtain ⟨⟨⟩, hexpected, h⟩ := bind_ok_iff.mp h
  obtain ⟨ending, hend, h⟩ := bind_ok_iff.mp h
  cases h
  obtain ⟨hnodeInfo, hget⟩ := answer_ok_iff.mp ((orStop_ok_iff fun _ => stopWith_ne_ok).mp hcommit)
  obtain ⟨stored, tree, blobOid, data, ⟨hcommitTree, hstored⟩, ⟨htreeOids, htree⟩, hentries, ⟨hblob, hdata⟩, hvalue,
    hdecoded⟩ := readReceipt_ok_iff.mp hread
  rw [hget, Option.some.injEq] at hstored
  subst hstored
  obtain ⟨hwriterEq, hgraphEq⟩ := checkWriter_ok_iff.mp hexpected
  obtain ⟨hdataOid, hprevOid, hchain, hlength⟩ := oids_ok_iff.mp ⟨hoids, hlengths⟩
  have hsame : (∀ prev ∈ prevReceipt, receipt.tickEnd < prev.tickStart) ∧
      SameVerdict { result with receiptsScanned := result.receiptsScanned + 1 } linked := by
    cases prevReceipt with
    | none =>
        cases hlinked
        exact ⟨nofun, rfl, rfl, rfl⟩
    | some prev =>
        obtain ⟨htick, hverdict⟩ := of_validateChainLink hlinked
        refine ⟨?_, hverdict⟩
        rintro _ ⟨⟩
        exact htick
  have hreads : ∀ read, fault read = none := by
    intro read
    cases read with
    | nodeInfo => exact hnodeInfo
    | commitTree => exact hcommitTree
    | treeOids => exact htreeOids
    | blob => exact hblob
  refine ⟨commit, _, ⟨hreads, hget, ⟨tree, blobOid, data, value, htree, hentries, hdata, hvalue,
    checkSchema_ok_iff.mp hschema⟩, hdataOid, hprevOid, rfl, hlength, ?_, hwriterEq, hgraphEq⟩, hchain, hsame.1, ?_, hend⟩
  · exact (trailers_ok_iff _ current (hgraphEq ▸ hgraph) (hwriterEq ▸ hwriter) hdataOid).mp ⟨decoded, hdecoded, htrailers⟩
  · exact ⟨hsame.2.status, hsame.2.errors, by rw [hsame.2.receiptsVerified]⟩

/-- What ends a walk: the commit of `--since`, or the genesis commit where there is none. -/
def EndsWalk (since : Option Sha) (w : WalkedCommit) : Prop :=
  match since with
  | some since => w.sha = since
  | none => IsGenesis w

/-- The verdict that a walk can reach. -/
def verdict (since : Option Sha) : ChainStatus := if since.isSome then .partialChain else .valid

theorem conclude_of_no_errors (result : ChainResult) (h : result.errors = []) (status : ChainStatus) :
    (result.conclude status).status = status ∧ (result.conclude status).errors = [] ∧
      (result.conclude status).receiptsVerified = result.receiptsVerified := by
  rw [ChainResult.conclude, if_pos h]
  exact ⟨rfl, h, rfl⟩

/-- The rounds that pass and end the walk. -/
theorem roundEnd_done {since : Option Sha} (w : WalkedCommit) {result after : ChainResult} (herrors : result.errors = [])
    (h : roundEnd w.commit w.receipt since w.sha result = .ok (.done after)) :
    EndsWalk since w ∧ after.status = verdict since ∧ after.errors = [] ∧ after.receiptsVerified = result.receiptsVerified := by
  unfold roundEnd at h
  split at h
  · rename_i hsince
    cases h
    rw [hsince]
    exact ⟨rfl, conclude_of_no_errors { result with stoppedAt := some w.sha } herrors .partialChain⟩
  split at h
  · rename_i hzero
    dsimp only at h
    split at h
    · cases h
    rename_i hparents
    cases since with
    | some since => cases h
    | none =>
        cases h
        exact ⟨⟨hzero, not_not.mp hparents⟩, conclude_of_no_errors { result with genesisCommit := some w.sha } herrors .valid⟩
  · split at h
    · split at h <;> cases h
    · cases h

theorem roundEnd_next {since : Option Sha} (w : WalkedCommit) {result after : ChainResult}
    (h : roundEnd w.commit w.receipt since w.sha result = .ok (.next after)) :
    since ≠ some w.sha ∧ w.commit.parents = [w.receipt.prevAuditCommit] ∧ after = result := by
  unfold roundEnd at h
  split at h
  · cases h
  rename_i hsince
  split at h
  · dsimp only at h
    split at h
    · cases h
    cases since <;> cases h
  · split at h
    · rename_i parent hparents
      split at h
      · cases h
      rename_i hsame
      cases h
      exact ⟨hsince, by rw [hparents, not_not.mp hsame], rfl⟩
    · cases h

theorem roundEnd_of_ends {since : Option Sha} {w : WalkedCommit} {result : ChainResult} (herrors : result.errors = [])
    (h : EndsWalk since w) : ∃ after, roundEnd w.commit w.receipt since w.sha result = .ok (.done after) ∧
      after.status = verdict since ∧ after.errors = [] ∧ after.receiptsVerified = result.receiptsVerified := by
  unfold roundEnd
  cases since with
  | some since =>
      obtain rfl : w.sha = since := h
      rw [if_pos rfl]
      exact ⟨_, rfl, conclude_of_no_errors { result with stoppedAt := some w.sha } herrors .partialChain⟩
  | none =>
      obtain ⟨hzero, hparents⟩ : IsGenesis w := h
      rw [if_neg nofun, if_pos hzero]
      dsimp only
      rw [if_neg (not_not.mpr hparents)]
      exact ⟨_, rfl, conclude_of_no_errors { result with genesisCommit := some w.sha } herrors .valid⟩

theorem roundEnd_of_link {since : Option Sha} {w : WalkedCommit} {result : ChainResult} (hsince : since ≠ some w.sha)
    (hzero : w.receipt.prevAuditCommit ≠ zeroHash w.receipt.dataCommit.length)
    (hparents : w.commit.parents = [w.receipt.prevAuditCommit]) :
    roundEnd w.commit w.receipt since w.sha result = .ok (.next result) := by
  unfold roundEnd
  rw [if_neg hsince, if_neg hzero, hparents]
  exact if_neg (not_not.mpr rfl)

/-! ### The rounds that stop -/

theorem stopsWith_validateOids (receipt : AuditReceipt) (result : ChainResult) (commitSha : Sha) :
    StopsWith Refusal (validateOids receipt result commitSha) := by
  unfold validateOids
  split
  · exact stopsWith_stopAs not_isVerdict_brokenChain _ _ _ _
  split
  · exact .ok ()
  dsimp only
  split
  · exact .ok ()
  · exact stopsWith_stopAs not_isVerdict_brokenChain _ _ _ _

theorem stopsWith_checkOidLength (receipt : AuditReceipt) (chainOidLen : Option Nat) (result : ChainResult) (current : Sha) :
    StopsWith Refusal (checkOidLength receipt chainOidLen result current) := by
  unfold checkOidLength
  dsimp only
  split
  · exact stopsWith_stopWith _ _ _ _
  split
  · exact stopsWith_stopWith _ _ _ _
  · exact .ok _

theorem stopsWith_checkTrailers (receipt : AuditReceipt) (decoded : AuditMessage) (result : ChainResult) (current : Sha) :
    StopsWith Refusal (checkTrailers receipt decoded result current) := by
  unfold checkTrailers
  split
  · exact stopsWith_stopAs not_isVerdict_dataMismatch _ _ _ _
  · exact .ok _

theorem stopsWith_checkLink (receipt : AuditReceipt) (prevReceipt : Option AuditReceipt) (current : Sha)
    (result : ChainResult) : StopsWith Refusal (checkLink receipt prevReceipt current result) := by
  cases prevReceipt with
  | none => exact .ok result
  | some prev =>
      unfold checkLink validateChainLink
      dsimp only
      split
      · exact stopsWith_stopAs not_isVerdict_brokenChain _ _ _ _
      split
      · exact stopsWith_stopAs not_isVerdict_brokenChain _ _ _ _
      split
      · exact stopsWith_stopAs not_isVerdict_brokenChain _ _ _ _
      · exact .ok _

theorem stopsWith_checkWriter (receipt : AuditReceipt) (graphName writerId : JsString) (result : ChainResult)
    (current : Sha) : StopsWith Refusal (checkWriter receipt graphName writerId result current) := by
  unfold checkWriter
  split
  · exact stopsWith_stopAs not_isVerdict_brokenChain _ _ _ _
  split
  · exact stopsWith_stopAs not_isVerdict_brokenChain _ _ _ _
  · exact .ok _

theorem stopsWith_readReceipt (fault : AuditRead → Option JsError) (commitSha : Sha) (commitInfo : AuditCommit)
    (result : ChainResult) : StopsWith Refusal (platform.readReceipt store fault commitSha commitInfo result) := by
  unfold AuditPlatform.readReceipt
  refine .bind (stopsWith_orStop fun _ => stopsWith_stopWith _ _ _ _) fun commit => ?_
  refine .bind (stopsWith_orStop fun _ => stopsWith_stopWith _ _ _ _) fun tree => ?_
  refine .bind ?_ fun blobOid => ?_
  · unfold receiptBlob
    split
    · exact .ok _
    · exact stopsWith_stopAs not_isVerdict_brokenChain _ _ _ _
  refine .bind (stopsWith_orStop fun _ => stopsWith_stopWith _ _ _ _) fun data => ?_
  refine .bind (stopsWith_orStop fun _ => stopsWith_stopAs not_isVerdict_error _ _ _ _) fun value => ?_
  exact .bind (stopsWith_orStop fun _ => stopsWith_stopAs not_isVerdict_dataMismatch _ _ _ _) fun decoded => .ok _

theorem stopsWith_roundEnd (commitInfo : AuditCommit) (receipt : AuditReceipt) (since : Option Sha) (current : Sha)
    (result : ChainResult) : StopsWith Refusal (roundEnd commitInfo receipt since current result) := by
  unfold roundEnd
  split
  · exact .ok _
  split
  · dsimp only
    split
    · exact stopsWith_stopAs not_isVerdict_brokenChain _ _ _ _
    split
    · exact stopsWith_stopAs not_isVerdict_error _ _ _ _
    · exact .ok _
  split
  · split
    · exact stopsWith_stopAs not_isVerdict_brokenChain _ _ _ _
    · exact .ok _
  · exact stopsWith_stopAs not_isVerdict_brokenChain _ _ _ _

/-- What follows the schema check of a round. -/
theorem stopsWith_checks (commitInfo : AuditCommit) (decoded : AuditMessage) (receipt : AuditReceipt)
    (since : Option Sha) (current : Sha) (prevReceipt : Option AuditReceipt) (chainOidLen : Option Nat)
    (result : ChainResult) : StopsWith Refusal (do
      validateOids receipt result current
      checkOidLength receipt chainOidLen result current
      checkTrailers receipt decoded result current
      let result ← checkLink receipt prevReceipt current result
      checkWriter receipt graphName writerId result current
      let next ← roundEnd commitInfo receipt since current { result with receiptsVerified := result.receiptsVerified + 1 }
      return (receipt, next)) := by
  refine .bind (stopsWith_validateOids receipt _ current) fun _ => ?_
  refine .bind (stopsWith_checkOidLength receipt chainOidLen _ current) fun _ => ?_
  refine .bind (stopsWith_checkTrailers receipt decoded _ current) fun _ => ?_
  refine .bind (stopsWith_checkLink receipt prevReceipt current _) fun linked => ?_
  refine .bind (stopsWith_checkWriter receipt graphName writerId linked current) fun _ => ?_
  exact .bind (stopsWith_roundEnd commitInfo receipt since current _) fun next => .ok _

/-- Whatever stops a round, the result has no verdict. -/
theorem refuses_walkRound (fault : AuditRead → Option JsError) (since : Option Sha) (current : Sha)
    (prevReceipt : Option AuditReceipt) (chainOidLen : Option Nat) (result : ChainResult) :
    Refuses (platform.walkRound store fault graphName writerId since current prevReceipt chainOidLen result) := by
  unfold AuditPlatform.walkRound
  refine .bind (refuses_of_stopsWith (stopsWith_orStop fun _ => stopsWith_stopWith _ _ _ _)) fun commitInfo => ?_
  refine .bind (refuses_of_stopsWith (stopsWith_readReceipt fault current commitInfo _)) fun read => ?_
  refine .bind ?_ fun receipt => ?_
  · unfold checkSchema
    split
    · exact .threw _
    · exact refuses_of_stopsWith (stopsWith_stopWith _ _ _ _)
    · exact .ok _
  exact refuses_of_stopsWith (stopsWith_checks commitInfo read.2 receipt since current prevReceipt chainOidLen _)

/-- A round throws where everything up to the receipt can be read and the schema check throws. -/
theorem walkRound_threw_iff {fault : AuditRead → Option JsError} {since : Option Sha} {current : Sha}
    {prevReceipt : Option AuditReceipt} {chainOidLen : Option Nat} {result : ChainResult} {err : JsError} :
    platform.walkRound store fault graphName writerId since current prevReceipt chainOidLen result = .error (.threw err) ↔
      ThrowsAt platform store fault current err := by
  have hnever : ∀ {α : Type} {x : Except WalkStop α}, StopsWith Refusal x → x ≠ .error (.threw err) := fun h heq => h _ heq
  unfold AuditPlatform.walkRound
  constructor
  · intro h
    rcases bind_error_iff.mp h with h | ⟨commit, hcommit, h⟩
    · exact absurd h (hnever (stopsWith_orStop fun _ => stopsWith_stopWith _ _ _ _))
    rcases bind_error_iff.mp h with h | ⟨⟨value, decoded⟩, hread, h⟩
    · exact absurd h (hnever (stopsWith_readReceipt fault current commit _))
    rcases bind_error_iff.mp h with h | ⟨receipt, -, h⟩
    · obtain ⟨hnodeInfo, hget⟩ := answer_ok_iff.mp ((orStop_ok_iff fun _ => stopWith_ne_ok).mp hcommit)
      obtain ⟨stored, tree, blobOid, data, ⟨hcommitTree, hstored⟩, ⟨htreeOids, htree⟩, hentries, ⟨hblob, hdata⟩, hvalue,
        hdecoded⟩ := readReceipt_ok_iff.mp hread
      rw [hget, Option.some.injEq] at hstored
      subst hstored
      refine ⟨fun read => ?_, commit, tree, blobOid, data, value, decoded, hget, htree, hentries, hdata, hvalue,
        hdecoded, ?_⟩
      · cases read with
        | nodeInfo => exact hnodeInfo
        | commitTree => exact hcommitTree
        | treeOids => exact htreeOids
        | blob => exact hblob
      · unfold checkSchema at h
        split at h
        · rename_i thrown hschema
          cases h
          exact hschema
        · cases h
        · cases h
    · exact absurd h (hnever (stopsWith_checks commit decoded receipt since current prevReceipt chainOidLen _))
  · rintro ⟨hreads, commit, tree, blobOid, data, value, decoded, hget, htree, hentries, hdata, hvalue, hdecoded, hschema⟩
    let scanned := { result with receiptsScanned := result.receiptsScanned + 1 }
    have hcommit : orStop (answer (fault .nodeInfo) store.commits current) (fun text =>
        stopWith scanned "MISSING_RECEIPT_BLOB" (js "Cannot read commit " ++ current ++ js ": " ++ text) current) =
        .ok commit :=
      (orStop_ok_iff fun _ => stopWith_ne_ok).mpr (answer_ok_iff.mpr ⟨hreads .nodeInfo, hget⟩)
    have hread : platform.readReceipt store fault current commit scanned = .ok (value, decoded) :=
      readReceipt_ok_iff.mpr ⟨commit, tree, blobOid, data, ⟨hreads .commitTree, hget⟩, ⟨hreads .treeOids, htree⟩, hentries,
        ⟨hreads .blob, hdata⟩, hvalue, hdecoded⟩
    refine bind_error_iff.mpr (.inr ⟨commit, hcommit, ?_⟩)
    refine bind_error_iff.mpr (.inr ⟨(value, decoded), hread, ?_⟩)
    refine bind_error_iff.mpr (.inl ?_)
    unfold checkSchema
    rw [hschema]

end GitWarp
