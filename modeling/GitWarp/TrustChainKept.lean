import GitWarp.LibraryRefChain
import GitWarp.LibraryLists
import GitWarp.LibraryRuns
import GitWarp.TrustAppends
import GitWarp.TrustSignatures

/-! The chain of trust records under concurrent appends. Each record lies on top of the one that it names, the
records are those of the calls that resolved, and what was read once stays at the front, as long as the codec
keeps what the record ids are computed over. -/

namespace GitWarp
open Js JsValue RefChain

/-! ### What one step does to its call -/

/-- The prev-link names the record of the tip, or there is no tip. -/
def PrevMatches (commits : JsMap Sha TrustCommit) (prev : JsValue) : Option Sha → Prop
  | none => prev = .null
  | some tipSha => ∃ commit, commits.get tipSha = some commit ∧
      prev = (commit.record.map TrustRepo.recordIdOrNull).getD .null

namespace AppendCall

/-- A phase that says nothing of the chain. -/
def isBare (call : AppendCall) : Bool :=
  match call.phase with
  | .attempting _ | .resigning _ | .thrown _ => true
  | _ => false

/-- What a call has committed on top of what, before it has moved the ref. -/
def pending (call : AppendCall) : Option (JsValue × Sha × Option Sha) :=
  match call.phase with
  | .swapping record commitSha parentSha _ | .rereading record commitSha parentSha _ =>
      some (record, commitSha, parentSha)
  | _ => none

def resolvedSha (call : AppendCall) : Option Sha :=
  match call.phase with
  | .resolved _ commitSha => some commitSha
  | _ => none

inductive Effect (schema : TrustSchema) (text : TrustText) (repo : TrustRepo) (call : AppendCall) :
    Event → TrustRepo → AppendCall → Prop where
  | bare {event : Event} {call' : AppendCall} : call.resolvedSha = none → call'.isBare = true →
      Effect schema text repo call event repo call'
  | read {record : JsValue} {tipSha : Option Sha} {refReadable : Bool} : call.phase = .attempting record →
      checkRecord schema text call.skipSignatureVerify record = .ok () →
      PrevMatches repo.commits (record.get (js "prev")) tipSha → tipSha = none ∨ tipSha = repo.ref →
      Effect schema text repo call (.readTip refReadable) repo { call with phase := .persisting record tipSha }
  | committed {record : JsValue} {tipSha : Option Sha} {sha : Sha} {repo' : TrustRepo} :
      call.phase = .persisting record tipSha → repo'.ref = repo.ref → Grows repo.commits.get repo'.commits.get →
      repo'.commits.get sha = some ⟨some (text.stored record), tipSha.toList⟩ →
      Effect schema text repo call (.commit sha) repo' { call with phase := .swapping record sha tipSha 1 }
  | swapped {record : JsValue} {commitSha : Sha} {spurious : Bool} :
      call.pending = some (record, commitSha, repo.ref) →
      Effect schema text repo call (.swap spurious) { repo with ref := some commitSha }
        { call with phase := .resolved record commitSha }
  | waiting {event : Event} {call' : AppendCall} {entry : JsValue × Sha × Option Sha} : call.pending = some entry →
      call'.pending = some entry → Effect schema text repo call event repo call'

theorem sameId_eq {a b : JsValue} (h : sameId a b = true) : a = b := by
  unfold sameId at h
  split at h
  · rfl
  · rw [of_decide_eq_true h]
  · cases h

theorem prevMatches_of_tipRead {repo : TrustRepo} {refReadable : Bool} {tipSha : Option Sha} {currentTip prev : JsValue}
    (h : tipRead repo refReadable = .ok (tipSha, currentTip)) (hprev : prev = currentTip) :
    PrevMatches repo.commits prev tipSha ∧ (tipSha = none ∨ tipSha = repo.ref) := by
  subst hprev
  unfold tipRead at h
  split at h
  · unfold TrustRepo.readTip at h
    split at h
    · cases h
      exact ⟨rfl, .inl rfl⟩
    · rename_i tip href
      split at h
      · cases h
      · rename_i commit hget
        cases h
        exact ⟨⟨commit, hget, rfl⟩, .inr href.symm⟩
  · cases h
    exact ⟨rfl, .inl rfl⟩

theorem isBare_afterConflict (call : AppendCall) (record : JsValue) (parentSha freshTipSha : Option Sha)
    (freshRecordId : JsValue) : (call.afterConflict record parentSha freshTipSha freshRecordId).isBare = true := by
  unfold afterConflict
  split
  · rfl
  · split
    · rfl
    · rename_i options _ _
      dsimp only
      cases options.resigns <;> rfl

theorem effect_of_step {schema : TrustSchema} {text : TrustText} {repo repo' : TrustRepo} {call call' : AppendCall}
    {event : Event} (h : call.step schema text repo event = some (repo', call')) :
    Effect schema text repo call event repo' call' := by
  unfold step at h
  split at h
  · rename_i record refReadable hphase
    have hbare : call.resolvedSha = none := by rw [resolvedSha, hphase]
    cases h
    unfold afterTip
    split
    · exact .bare hbare rfl
    · rename_i hchecked
      split
      · exact .bare hbare rfl
      · rename_i tipSha currentTip htip
        split
        · rename_i hsame
          obtain ⟨hprev, hseen⟩ := prevMatches_of_tipRead htip (sameId_eq hsame)
          exact .read hphase hchecked hprev hseen
        · exact .bare hbare rfl
  · rename_i record tipSha sha hphase
    obtain ⟨repo1, hcommit, hresult⟩ := Option.map_eq_some_iff.mp h
    cases hresult
    unfold commitTo at hcommit
    dsimp only at hcommit
    split at hcommit
    · rename_i existing hget
      split at hcommit
      · rename_i hsame
        cases hcommit
        exact .committed hphase rfl (Grows.refl _) (hsame ▸ hget)
      · cases hcommit
    · rename_i hnone
      cases hcommit
      refine .committed hphase rfl (fun id commit hget => ?_) (JsMap.get_set_self _ _ _)
      rw [JsMap.get_set_of_ne _ _ (by rintro rfl; rw [hnone] at hget; cases hget)]
      exact hget
  · rename_i record commitSha parentSha attempt spurious hphase
    have hpending : call.pending = some (record, commitSha, parentSha) := by rw [pending, hphase]
    rw [Option.some.injEq] at h
    unfold swapRef at h
    split at h
    · rename_i hswap
      rw [Bool.and_eq_true, decide_eq_true_iff] at hswap
      cases h
      exact .swapped (hswap.2 ▸ hpending)
    · cases h
      exact .waiting hpending rfl
  · rename_i record commitSha parentSha attempt refReadable hphase
    have hpending : call.pending = some (record, commitSha, parentSha) := by rw [pending, hphase]
    have hbare : call.resolvedSha = none := by rw [resolvedSha, hphase]
    cases h
    unfold afterReread
    split
    · exact .bare hbare rfl
    · split
      · split
        · exact .bare hbare rfl
        · exact .waiting hpending rfl
      · exact .bare hbare (isBare_afterConflict _ _ _ _ _)
  · rename_i hphase
    cases h
    exact .bare (by rw [resolvedSha, hphase]) rfl
  · rename_i hphase
    cases h
    exact .bare (by rw [resolvedSha, hphase]) rfl
  · rename_i hphase
    cases h
    exact .bare (by rw [resolvedSha, hphase]) rfl
  · rename_i hphase
    cases h
    exact .bare (by rw [resolvedSha, hphase]) rfl
  · rename_i hphase
    cases h
    exact .bare (by rw [resolvedSha, hphase]) rfl
  · cases h

end AppendCall

/-! ### Records as they are stored -/

/-- Storing the record leaves the text that its id is computed over as it is. -/
def RecordKept (text : TrustText) (record : JsValue) : Prop :=
  text.recordIdPayload (text.stored record) = text.recordIdPayload record

theorem canonicalField_sortKeys {value : JsValue} (h : canonicalData (sortKeys value) = canonicalData value) :
    canonicalField (sortKeys value) = canonicalField value := by
  have hundefined : (sortKeys value).isUndefined = value.isUndefined := by
    cases value with
    | object fields =>
        rw [sortKeys]
        split <;> rfl
    | _ => rfl
  rw [canonicalField, canonicalField, hundefined, h]

/-- Sorting the keys keeps the canonical text of the fields that are looked at, where it keeps that of each value. -/
theorem canonicalData_sortKeysOfFields (p : JsString → Bool) {fields : List (JsString × JsValue)}
    {canonical : List (JsString × Json)} (h : canonicalFields fields = .ok canonical)
    (hproto : protoKey ∉ fields.map Prod.fst)
    (hsame : ∀ field ∈ fields, canonicalData (sortKeys field.2) = canonicalData field.2) :
    canonicalData (.object ((sortKeysOfFields fields).filter fun field => p field.1)) =
      canonicalData (.object (fields.filter fun field => p field.1)) := by
  obtain ⟨kept, hkept⟩ := canonicalFields_filter h fun field => p field.1
  obtain ⟨sorted, hsorted⟩ : ∃ sorted, canonicalFields ((sortKeysOfFields fields).filter fun field => p field.1) =
      .ok sorted := by
    refine exists_canonicalFields_iff.mpr fun field hfield => ?_
    obtain ⟨field', hfield', -, hvalue⟩ := exists_of_mem_sortKeysOfFields (List.mem_filter.mp hfield).1
    rw [hvalue, hsame field' hfield']
    exact exists_canonicalFields_iff.mp ⟨canonical, h⟩ field' hfield'
  rw [canonicalData_object_eq_iff hsorted hkept]
  intro key
  rw [get_filter_keys, get_filter_keys]
  by_cases hkey : key = protoKey
  · have hnone : protoKey ∉ (sortKeysOfFields fields).map Prod.fst := by
      intro hmem
      obtain ⟨field, hfield, heq⟩ := List.mem_map.mp hmem
      obtain ⟨field', hfield', hname, -⟩ := exists_of_mem_sortKeysOfFields hfield
      exact hproto (List.mem_map.mpr ⟨field', hfield', hname.symm.trans heq⟩)
    rw [hkey, get_of_not_mem hnone, get_of_not_mem hproto]
  · rw [get_sortKeysOfFields fields hkey]
    split
    · rcases exists_field_of_get fields key with hget | ⟨field, hfield, hget⟩
      · rw [hget]
        rfl
      · rw [hget]
        exact canonicalField_sortKeys (hsame field hfield)
    · rfl

theorem canonicalData_sortKeys_object {fields : List (JsString × JsValue)} {canonical : List (JsString × Json)}
    (h : canonicalFields fields = .ok canonical) (hproto : protoKey ∉ fields.map Prod.fst)
    (hsame : ∀ field ∈ fields, canonicalData (sortKeys field.2) = canonicalData field.2) :
    canonicalData (sortKeys (.object fields)) = canonicalData (.object fields) := by
  have hsorted := canonicalData_sortKeysOfFields (fun _ => true) h hproto hsame
  rw [List.filter_true, List.filter_true] at hsorted
  rw [sortKeys]
  split
  · exact hsorted
  · rfl

theorem canonicalData_sortKeys_subject (subject : TrustSubject) :
    canonicalData (sortKeys (.object subject.fields)) = canonicalData (.object subject.fields) := by
  obtain ⟨canonical, hcanonical⟩ := exists_canonical_subject subject
  have hproto : protoKey ∉ [js "keyId", js "publicKey", js "reasonCode", js "writerId"] := by decide
  have hkeys : ∀ field ∈ subject.fields, field.1 ∈ [js "keyId", js "publicKey", js "reasonCode", js "writerId"] ∧
      ∃ s, field.2 = .string s := by
    intro field hfield
    cases subject with
    | keyAdd keyId publicKey =>
        simp only [TrustSubject.fields, List.mem_cons, List.not_mem_nil, or_false] at hfield
        rcases hfield with rfl | rfl <;> exact ⟨by simp, _, rfl⟩
    | keyRevoke keyId reasonCode =>
        simp only [TrustSubject.fields, List.mem_cons, List.not_mem_nil, or_false] at hfield
        rcases hfield with rfl | rfl <;> exact ⟨by simp, _, rfl⟩
    | writerBindAdd writerId keyId =>
        simp only [TrustSubject.fields, List.mem_cons, List.not_mem_nil, or_false] at hfield
        rcases hfield with rfl | rfl <;> exact ⟨by simp, _, rfl⟩
    | writerBindRevoke writerId keyId reasonCode =>
        simp only [TrustSubject.fields, List.mem_cons, List.not_mem_nil, or_false] at hfield
        rcases hfield with rfl | rfl | rfl <;> exact ⟨by simp, _, rfl⟩
  refine canonicalData_sortKeys_object hcanonical (fun hmem => ?_) fun field hfield => ?_
  · obtain ⟨field, hfield, heq⟩ := List.mem_map.mp hmem
    exact hproto (heq ▸ (hkeys field hfield).1)
  · obtain ⟨-, s, hs⟩ := hkeys field hfield
    rw [hs]
    rfl

theorem canonicalData_sortKeys_signature (sig : JsString) :
    canonicalData (sortKeys (.object [(js "alg", .string (js "ed25519")), (js "sig", .string sig)])) =
      canonicalData (.object [(js "alg", .string (js "ed25519")), (js "sig", .string sig)]) := by
  obtain ⟨canonical, hcanonical⟩ : ∃ canonical,
      canonicalFields [(js "alg", .string (js "ed25519")), (js "sig", .string sig)] = .ok canonical := ⟨_, rfl⟩
  refine canonicalData_sortKeys_object hcanonical (show protoKey ∉ [js "alg", js "sig"] by decide) fun field hfield => ?_
  simp only [List.mem_cons, List.not_mem_nil, or_false] at hfield
  rcases hfield with rfl | rfl
  · rfl
  · rfl

theorem keys_value (record : TrustRecord) (signature : JsValue) :
    (record.unsignedFields ++ [(js "signature", signature)]).map Prod.fst = recordKeys ++ [js "signature"] := rfl

/-- A record of the schema is taken for a plain object. -/
theorem sortKeys_value (record : TrustRecord) : sortKeys record.value = .object (sortKeysOfFields
    (record.unsignedFields ++
      [(js "signature", .object [(js "alg", .string (js "ed25519")), (js "sig", .string record.sig)])])) := by
  have hconstructor : js "constructor" ∉ recordKeys ++ [js "signature"] := by decide +kernel
  rw [TrustRecord.value, sortKeys, get_of_not_mem (keys_value record _ ▸ hconstructor)]
  rfl

/-- The codec keeps a record of the schema when it keeps what is in its `meta`. -/
theorem recordKept_value {text : TrustText} (hcbor : text.cbor = id) {record : TrustRecord}
    {canonical : List (JsString × Json)}
    (hcanonical : canonicalFields record.metadata = .ok canonical)
    (hmetadata : canonicalData (sortKeys (.object record.metadata)) = canonicalData (.object record.metadata)) :
    RecordKept text record.value := by
  obtain ⟨unsigned, hunsigned⟩ := exists_canonical_record record hcanonical
  let signature := JsValue.object [(js "alg", .string (js "ed25519")), (js "sig", .string record.sig)]
  obtain ⟨signed, hsigned⟩ : ∃ signed,
      canonicalFields (record.unsignedFields ++ [(js "signature", signature)]) = .ok signed := by
    refine exists_canonicalFields_iff.mpr fun field hfield => ?_
    rcases List.mem_append.mp hfield with hmem | hmem
    · exact exists_canonicalFields_iff.mp ⟨unsigned, hunsigned⟩ field hmem
    · rw [List.mem_singleton.mp hmem]
      exact ⟨_, rfl⟩
  have hsame : ∀ field ∈ record.unsignedFields ++ [(js "signature", signature)],
      canonicalData (sortKeys field.2) = canonicalData field.2 := by
    intro field hfield
    simp only [TrustRecord.unsignedFields, List.cons_append, List.nil_append, List.mem_cons, List.not_mem_nil, or_false]
      at hfield
    rcases hfield with rfl | rfl | rfl | rfl | rfl | rfl | rfl | rfl | rfl
    · rfl
    · rfl
    · rfl
    · rfl
    · rfl
    · cases record.prev <;> rfl
    · exact canonicalData_sortKeys_subject record.subject
    · exact hmetadata
    · exact canonicalData_sortKeys_signature record.sig
  have hproto : protoKey ∉ recordKeys ++ [js "signature"] := by decide +kernel
  have hkept := canonicalData_sortKeysOfFields (fun key => !([js "recordId", js "signature"].contains key)) hsigned
    (keys_value record signature ▸ hproto) hsame
  rw [RecordKept, TrustText.stored, hcbor, id, TrustText.recordIdPayload, TrustText.recordIdPayload,
    TrustText.canonicalStringify, TrustText.canonicalStringify, sortKeys_value, TrustRecord.value, unsignedRecordForId, unsignedRecordForId,
    withoutKeys, withoutKeys, hkept]

/-- A record that passes the schema, under the id that its content has. -/
def Checked (schema : TrustSchema) (text : TrustText) (record : JsValue) (parsed : TrustRecord) : Prop :=
  schema.safeParse record = some parsed ∧ text.verifyRecordId record = .ok true

theorem checked_of_checkRecord {schema : TrustSchema} {text : TrustText} {skipSignatureVerify : Bool} {record : JsValue}
    (h : checkRecord schema text skipSignatureVerify record = .ok ()) : ∃ parsed, Checked schema text record parsed := by
  unfold checkRecord at h
  split at h
  · cases h
  · rename_i hsome
    rw [Bool.not_eq_true, Option.isNone_eq_false_iff, Option.isSome_iff_exists] at hsome
    obtain ⟨parsed, hparsed⟩ := hsome
    split at h
    · cases h
    · cases h
    · rename_i hverified
      exact ⟨parsed, hparsed, hverified⟩

theorem Checked.get_recordId {schema : TrustSchema} {text : TrustText} {record : JsValue} {parsed : TrustRecord}
    (h : Checked schema text record parsed) : record.get (js "recordId") = .string parsed.recordId :=
  (readsAs_of_safeParse h.1).1.recordId

theorem Checked.get_prev {schema : TrustSchema} {text : TrustText} {record : JsValue} {parsed : TrustRecord}
    (h : Checked schema text record parsed) : record.get (js "prev") = prevValue parsed.prev :=
  (readsAs_of_safeParse h.1).1.prev

theorem Checked.stored {schema : TrustSchema} {text : TrustText} (hcbor : CborRereads text.cbor) {record : JsValue}
    {parsed : TrustRecord} (h : Checked schema text record parsed) (hkept : RecordKept text record) :
    ∃ metadata, Checked schema text (text.stored record) { parsed with metadata := metadata } := by
  obtain ⟨metadata, hparsed⟩ := safeParse_stored hcbor h.1
  refine ⟨metadata, hparsed, ?_⟩
  have hid := (readsAs_of_safeParse hparsed).1.recordId
  have hverified := h.2
  unfold TrustText.verifyRecordId TrustText.computeRecordId at hverified ⊢
  rw [hkept, hid]
  rw [h.get_recordId] at hverified
  exact hverified

/-- A checked record is committed on top of the one that it names. -/
structure StoredAt (schema : TrustSchema) (text : TrustText) (commits : JsMap Sha TrustCommit) (sha : Sha)
    (record : JsValue) (parentSha : Option Sha) : Prop where
  stored : commits.get sha = some ⟨some (text.stored record), parentSha.toList⟩
  checked : ∃ parsed, Checked schema text record parsed
  kept : RecordKept text record
  prev : PrevMatches commits (record.get (js "prev")) parentSha

theorem PrevMatches.grows {commits commits' : JsMap Sha TrustCommit} {prev : JsValue} {tipSha : Option Sha}
    (h : PrevMatches commits prev tipSha) (hgrows : Grows commits.get commits'.get) :
    PrevMatches commits' prev tipSha := by
  cases tipSha with
  | none => exact h
  | some tipSha =>
      obtain ⟨commit, hget, hprev⟩ := h
      exact ⟨commit, hgrows _ _ hget, hprev⟩

theorem StoredAt.grows {schema : TrustSchema} {text : TrustText} {commits commits' : JsMap Sha TrustCommit} {sha : Sha}
    {record : JsValue} {parentSha : Option Sha} (h : StoredAt schema text commits sha record parentSha)
    (hgrows : Grows commits.get commits'.get) : StoredAt schema text commits' sha record parentSha :=
  ⟨hgrows _ _ h.stored, h.checked, h.kept, h.prev.grows hgrows⟩

/-! ### The records of a chain -/

/-- Each record passes the checks and names the one before it; ids may still repeat. -/
def Links (schema : TrustSchema) (text : TrustText) : Option JsValue → List JsValue → Prop
  | _, [] => True
  | previous, record :: rest =>
      (∃ parsed, Checked schema text record parsed) ∧ prevFaults previous record = [] ∧
        Links schema text (some record) rest

theorem links_append {schema : TrustSchema} {text : TrustText} {records later : List JsValue} {previous : Option JsValue} :
    Links schema text previous (records ++ later) ↔
      Links schema text previous records ∧ Links schema text (records.getLast?.or previous) later := by
  induction records generalizing previous with
  | nil => simp [Links]
  | cons record rest ih =>
      have hlast : (rest.getLast?.or (some record)) = (record :: rest).getLast?.or previous := by
        cases hrest : rest.getLast? with
        | none => rw [List.getLast?_cons, hrest]; rfl
        | some last => rw [List.getLast?_cons, hrest]; rfl
      rw [List.cons_append, Links, Links, ih, hlast, and_assoc, and_assoc]

/-- What no errors of a prev-link say. -/
theorem prevFaults_eq_nil {previous : Option JsValue} {record : JsValue} (h : prevFaults previous record = []) :
    record.get (js "prev") = (previous.map fun last => last.get (js "recordId")).getD .null := by
  cases previous with
  | none =>
      rw [prevFaults] at h
      split at h
      · rename_i hsame
        exact AppendCall.sameId_eq hsame
      · cases h
  | some last =>
      rw [prevFaults] at h
      split at h
      · rename_i hsame
        exact AppendCall.sameId_eq hsame
      · cases h

theorem sameId_self (prev : Option JsString) : sameId (prevValue prev) (prevValue prev) = true := by
  cases prev with
  | none => rfl
  | some recordId => exact decide_eq_true rfl

theorem prevFaults_of_prev {schema : TrustSchema} {text : TrustText} {previous : Option JsValue} {record : JsValue}
    {parsed : TrustRecord} (hchecked : Checked schema text record parsed)
    (h : record.get (js "prev") = (previous.map fun last => last.get (js "recordId")).getD .null) :
    prevFaults previous record = [] := by
  have hself := sameId_self parsed.prev
  rw [← hchecked.get_prev] at hself
  cases previous with
  | none =>
      rw [prevFaults]
      exact if_pos (by rw [← show _ = JsValue.null from h]; exact hself)
  | some last =>
      rw [prevFaults]
      exact if_pos (by rw [← show _ = last.get (js "recordId") from h]; exact hself)

/-! ### No record id twice -/

theorem canonicalFields_of_recordIdPayload {text : TrustText} {fields : List (JsString × JsValue)} {payload : JsString}
    (h : text.recordIdPayload (.object fields) = .ok payload) :
    ∃ canonical, canonicalFields (fields.filter fun field => !([js "recordId", js "signature"].contains field.1)) =
        .ok canonical ∧
      payload = js "git-warp:trust-record:v1\x00" ++ (Json.object canonical).print text.number := by
  rw [TrustText.recordIdPayload, TrustText.canonicalStringify, unsignedRecordForId, withoutKeys] at h
  cases hdata : canonicalData (.object (fields.filter fun field => !([js "recordId", js "signature"].contains field.1))) with
  | error err =>
      rw [hdata] at h
      cases h
  | ok data =>
      obtain ⟨canonical, hcanonical⟩ := exists_canonicalFields_of_data hdata
      rw [canonicalData_object hcanonical] at h
      exact ⟨canonical, hcanonical, (Except.ok.inj h).symm⟩

theorem prevValue_of_canonicalField {a b : Option JsString}
    (h : canonicalField (prevValue a) = canonicalField (prevValue b)) : prevValue a = prevValue b := by
  cases a with
  | none =>
      cases b with
      | none => rfl
      | some b => cases h
  | some a =>
      cases b with
      | none => cases h
      | some b => rw [prevValue, prevValue, canonicalField_string_inj.mp h]

/-- Two checked records under one id say the same in every field that the id is computed over. -/
theorem field_of_recordId {schema : TrustSchema} {text : TrustText} (hnumber : Json.PrintsNumbers text.number)
    (hhash : Function.Injective text.sha256) {record other : JsValue} {parsed parsed' : TrustRecord}
    (h : Checked schema text record parsed) (h' : Checked schema text other parsed')
    (hsame : record.get (js "recordId") = other.get (js "recordId")) {key : JsString}
    (hkept : (!([js "recordId", js "signature"].contains key)) = true) :
    canonicalField (record.get key) = canonicalField (other.get key) := by
  obtain ⟨payload, hpayload, hid⟩ := recordIdPayload_of_verifyRecordId h.1 h.2
  obtain ⟨payload', hpayload', hid'⟩ := recordIdPayload_of_verifyRecordId h'.1 h'.2
  rw [h.get_recordId, h'.get_recordId, JsValue.string.injEq, hid, hid'] at hsame
  have heq := hhash hsame
  subst heq
  have hobject : ∀ value parsed, Checked schema text value parsed → ∃ fields, value = .object fields := by
    intro value parsed hchecked
    exact exists_fields_of_get (by rw [hchecked.get_recordId]; nofun)
  obtain ⟨fields, rfl⟩ := hobject _ _ h
  obtain ⟨fields', rfl⟩ := hobject _ _ h'
  obtain ⟨canonical, hcanonical, hprint⟩ := canonicalFields_of_recordIdPayload hpayload
  obtain ⟨canonical', hcanonical', hprint'⟩ := canonicalFields_of_recordIdPayload hpayload'
  rw [hprint, List.append_cancel_left_eq] at hprint'
  have hdata := Json.object.inj (Json.print_injective hnumber hprint')
  have hfield := (canonicalFields_eq_iff hcanonical hcanonical').mp hdata key
  rwa [get_filter_keys fun key => !([js "recordId", js "signature"].contains key),
    get_filter_keys fun key => !([js "recordId", js "signature"].contains key), if_pos hkept, if_pos hkept] at hfield

/-- A record id stands for one prev-link. -/
theorem prev_of_recordId {schema : TrustSchema} {text : TrustText} (hnumber : Json.PrintsNumbers text.number)
    (hhash : Function.Injective text.sha256) {record other : JsValue} {parsed parsed' : TrustRecord}
    (h : Checked schema text record parsed) (h' : Checked schema text other parsed')
    (hsame : record.get (js "recordId") = other.get (js "recordId")) :
    record.get (js "prev") = other.get (js "prev") := by
  have hprev := field_of_recordId hnumber hhash h h' hsame (show (!([js "recordId", js "signature"].contains (js "prev"))) =
    true by decide)
  rw [h.get_prev, h'.get_prev] at hprev
  rw [h.get_prev, h'.get_prev, prevValue_of_canonicalField hprev]

theorem Links.checked {schema : TrustSchema} {text : TrustText} {previous : Option JsValue} {records : List JsValue}
    (h : Links schema text previous records) {record : JsValue} (hrecord : record ∈ records) :
    ∃ parsed, Checked schema text record parsed := by
  obtain ⟨before, after, rfl⟩ := List.append_of_mem hrecord
  exact (links_append.mp h).2.1

def recordIds (records : List JsValue) : List JsValue := records.map fun record => record.get (js "recordId")

theorem nodup_recordIds {schema : TrustSchema} {text : TrustText} (hnumber : Json.PrintsNumbers text.number)
    (hhash : Function.Injective text.sha256) {records : List JsValue} (h : Links schema text none records) :
    (recordIds records).Nodup := by
  induction records using List.reverseRecOn with
  | nil => exact List.nodup_nil
  | append_singleton records record ih =>
      obtain ⟨hrecords, ⟨parsed, hchecked⟩, hprev, -⟩ := links_append.mp h
      have hnodup := ih hrecords
      rw [recordIds, List.map_append]
      refine hnodup.append (List.nodup_singleton _) fun id hid hlast => ?_
      -- an earlier record under the same id names the record before this one too
      obtain ⟨earlier, hearlier, rfl⟩ := List.mem_map.mp hid
      obtain ⟨before, after, rfl⟩ := List.append_of_mem hearlier
      obtain ⟨-, ⟨parsed', hchecked'⟩, hprev', -⟩ := links_append.mp hrecords
      have hsame := prev_of_recordId hnumber hhash hchecked' hchecked (List.mem_singleton.mp hlast)
      obtain ⟨last, hlast⟩ : ∃ last, (earlier :: after).getLast? = some last :=
        ⟨_, List.getLast?_eq_some_getLast (List.cons_ne_nil _ _)⟩
      have hmem : last ∈ earlier :: after := List.mem_of_getLast? hlast
      obtain ⟨parsedLast, hcheckedLast⟩ := hrecords.checked (List.mem_append_right before hmem)
      rw [prevFaults_eq_nil hprev, prevFaults_eq_nil hprev', List.getLast?_append, hlast] at hsame
      cases hbefore : before.getLast? with
      | none =>
          rw [hbefore] at hsame
          have hnull : JsValue.null = last.get (js "recordId") := hsame
          rw [hcheckedLast.get_recordId] at hnull
          cases hnull
      | some named =>
          rw [hbefore] at hsame
          have htwice : named.get (js "recordId") = last.get (js "recordId") := hsame
          rw [recordIds, List.map_append] at hnodup
          exact (List.nodup_append.mp hnodup).2.2 _ (List.mem_map_of_mem (List.mem_of_getLast? hbefore)) _
            (List.mem_map_of_mem hmem) htwice

/-- A linked chain without a repeated id verifies. -/
theorem verifyChainFrom_of_links {schema : TrustSchema} {text : TrustText} {records : List JsValue} (index : Nat)
    (previous : Option JsValue) (seenIds : List JsString) (h : Links schema text previous records)
    (hnodup : (recordIds records).Nodup) (hseen : ∀ id ∈ seenIds, JsValue.string id ∉ recordIds records) :
    verifyChainFrom schema text index previous seenIds records = .ok [] := by
  induction records generalizing index previous seenIds with
  | nil => rfl
  | cons record rest ih =>
      obtain ⟨⟨parsed, hchecked⟩, hprev, hrest⟩ := h
      rw [recordIds, List.map_cons, List.nodup_cons] at hnodup
      have hnew : seenIds.contains parsed.recordId = false := by
        rw [List.contains_eq_mem, decide_eq_false_iff_not]
        intro hmem
        refine hseen _ hmem ?_
        rw [recordIds, List.map_cons, hchecked.get_recordId]
        exact List.mem_cons_self
      have hlater := ih (index + 1) (some record) (parsed.recordId :: seenIds) hrest hnodup.2 fun id hid hmem => by
        rcases List.mem_cons.mp hid with rfl | hid
        · rw [← hchecked.get_recordId] at hmem
          exact hnodup.1 hmem
        · exact hseen id hid (List.mem_cons_of_mem _ hmem)
      simp only [verifyChainFrom, hchecked.1, hchecked.2, hprev, hlater, hnew, bind, Except.bind, pure, Except.pure,
        if_true, Bool.false_eq_true, if_false, List.append_nil, List.map_nil]

theorem verifyChain_of_links {schema : TrustSchema} {text : TrustText} (hnumber : Json.PrintsNumbers text.number)
    (hhash : Function.Injective text.sha256) {records : List JsValue} (h : Links schema text none records) :
    verifyChain schema text records = .ok [] :=
  verifyChainFrom_of_links 0 none [] h (nodup_recordIds hnumber hhash h) nofun

/-! ### Reading a chain of commits -/

def storedRecords (commits : JsMap Sha TrustCommit) (ids : List Sha) : List JsValue :=
  ids.filterMap fun id => (commits.get id).bind TrustCommit.record

def AllStored (schema : TrustSchema) (text : TrustText) (commits : JsMap Sha TrustCommit) (ids : List Sha) : Prop :=
  ∀ id ∈ ids, ∃ record parentSha, StoredAt schema text commits id record parentSha

abbrev TrustRepo.IsChain (repo : TrustRepo) (ids : List Sha) : Prop :=
  Chain repo.commits.get TrustCommit.parents repo.ref ids

theorem storedRecords_append_single {schema : TrustSchema} {text : TrustText} {commits : JsMap Sha TrustCommit}
    {ids : List Sha} {tip : Sha} {record : JsValue} {parentSha : Option Sha}
    (h : StoredAt schema text commits tip record parentSha) :
    storedRecords commits (ids ++ [tip]) = storedRecords commits ids ++ [text.stored record] := by
  rw [storedRecords, List.filterMap_append, List.filterMap_cons_some (by rw [h.stored]; rfl)]
  rfl

theorem readRecordsFrom_of_chain {schema : TrustSchema} {text : TrustText} {repo : TrustRepo} {tip : Sha}
    {ids : List Sha} (h : Chain repo.commits.get TrustCommit.parents (some tip) ids)
    (hstored : AllStored schema text repo.commits ids) {fuel : Nat} (hfuel : ids.length ≤ fuel) (read : List JsValue) :
    repo.readRecordsFrom fuel tip read = some (.ok (storedRecords repo.commits ids ++ read)) := by
  generalize href : some tip = ref at h
  induction h generalizing tip fuel read with
  | nil => cases href
  | @snoc last commit prev ids hget hparents hrest ih =>
      cases href
      obtain ⟨record, parentSha, hrecord⟩ := hstored last (List.mem_append_right _ (List.mem_singleton_self _))
      have hcommit := hrecord.stored
      rw [hget, Option.some.injEq] at hcommit
      subst hcommit
      have hprev := toList_injective hparents
      subst hprev
      rw [storedRecords_append_single hrecord, List.append_assoc, List.singleton_append]
      rw [List.length_append, List.length_singleton] at hfuel
      cases fuel with
      | zero => omega
      | succ fuel =>
          rw [TrustRepo.readRecordsFrom, hget]
          cases parentSha with
          | none =>
              cases hrest with
              | nil => rfl
          | some parent =>
              exact ih (fun id hid => hstored id (List.mem_append_left _ hid)) (by omega) _ rfl

theorem readRecords_of_chain {schema : TrustSchema} {text : TrustText} {repo : TrustRepo} {ids : List Sha}
    (h : repo.IsChain ids) (hstored : AllStored schema text repo.commits ids) {fuel : Nat} (hfuel : ids.length ≤ fuel) :
    repo.readRecords fuel = some (.ok (storedRecords repo.commits ids)) := by
  unfold TrustRepo.readRecords
  cases href : repo.ref with
  | none =>
      rw [TrustRepo.IsChain, href] at h
      cases h with
      | nil => rfl
  | some tip =>
      rw [TrustRepo.IsChain, href] at h
      have hread := readRecordsFrom_of_chain h hstored hfuel []
      rw [List.append_nil] at hread
      exact hread

/-- The records of a chain of stored records are linked. -/
theorem links_of_chain {schema : TrustSchema} {text : TrustText} (hcbor : CborRereads text.cbor) {commits : JsMap Sha TrustCommit} {ref : Option Sha}
    {ids : List Sha} (h : Chain commits.get TrustCommit.parents ref ids) (hstored : AllStored schema text commits ids) :
    Links schema text none (storedRecords commits ids) ∧
      (storedRecords commits ids).getLast? = ref.bind fun tip => (commits.get tip).bind TrustCommit.record := by
  induction h with
  | nil => exact ⟨trivial, rfl⟩
  | @snoc tip commit prev ids hget hparents hrest ih =>
      obtain ⟨record, parentSha, hrecord⟩ := hstored tip (List.mem_append_right _ (List.mem_singleton_self _))
      obtain ⟨hlinks, hlast⟩ := ih fun id hid => hstored id (List.mem_append_left _ hid)
      have hcommit := hrecord.stored
      rw [hget, Option.some.injEq] at hcommit
      subst hcommit
      have hprev := toList_injective hparents
      subst hprev
      obtain ⟨parsed, hchecked⟩ := hrecord.checked
      obtain ⟨metadata, hsorted⟩ := hchecked.stored hcbor hrecord.kept
      rw [storedRecords_append_single hrecord]
      refine ⟨links_append.mpr ⟨hlinks, ⟨_, hsorted⟩, prevFaults_of_prev hsorted ?_, trivial⟩, ?_⟩
      · rw [hsorted.get_prev, ← hchecked.get_prev, Option.or_none, hlast]
        have hmatches := hrecord.prev
        cases parentSha with
        | none => exact hmatches
        | some parent =>
            obtain ⟨below, hbelow, hnamed⟩ := hmatches
            obtain ⟨recordBelow, _, hstoredBelow⟩ := hstored parent (List.mem_append_left _ (hrest.behind parent rfl))
            have hsame := hstoredBelow.stored
            rw [hbelow, Option.some.injEq] at hsame
            subst hsame
            obtain ⟨parsedBelow, hcheckedBelow⟩ := hstoredBelow.checked
            obtain ⟨_, hsortedBelow⟩ := hcheckedBelow.stored hcbor hstoredBelow.kept
            rw [hnamed, Option.bind_some, hbelow]
            simp [TrustRepo.recordIdOrNull, hsortedBelow.get_recordId]
      · rw [List.getLast?_concat, Option.bind_some, hget]
        rfl

/-! ### Runs -/

/-- What holds of a call at its phase. -/
def CallOk (schema : TrustSchema) (text : TrustText) (commits : JsMap Sha TrustCommit) (call : AppendCall) : Prop :=
  match call.phase with
  | .persisting record tipSha =>
      (∃ parsed, Checked schema text record parsed) ∧ PrevMatches commits (record.get (js "prev")) tipSha
  | .swapping record commitSha parentSha _ | .rereading record commitSha parentSha _ =>
      StoredAt schema text commits commitSha record parentSha
  | .resolved record commitSha => ∃ parentSha, StoredAt schema text commits commitSha record parentSha
  | _ => True

/-- The chain is that of the resolved calls. -/
structure ChainInvariant (schema : TrustSchema) (text : TrustText) (system : TrustSystem) : Prop where
  calls : ∀ call ∈ system.calls, CallOk schema text system.repo.commits call
  chain : ∃ ids, system.repo.IsChain ids ∧ ids.Perm (system.calls.filterMap AppendCall.resolvedSha)

/-- The chain has only grown. -/
def ChainGrows (before after : TrustSystem) : Prop :=
  Grows before.repo.commits.get after.repo.commits.get ∧
    ∀ ids, before.repo.IsChain ids → ∃ ids', after.repo.IsChain ids' ∧ ids <+: ids'

theorem ChainGrows.refl (system : TrustSystem) : ChainGrows system system :=
  ⟨Grows.refl _, fun ids h => ⟨ids, h, List.prefix_refl ids⟩⟩

theorem ChainGrows.trans {a b c : TrustSystem} (h : ChainGrows a b) (h' : ChainGrows b c) : ChainGrows a c := by
  refine ⟨h.1.trans h'.1, fun ids hids => ?_⟩
  obtain ⟨ids', hids', hfront⟩ := h.2 ids hids
  obtain ⟨ids'', hids'', hfront'⟩ := h'.2 ids' hids'
  exact ⟨ids'', hids'', hfront.trans hfront'⟩

/-- The record that a call is about to commit. -/
def AppendCall.committing (call : AppendCall) : Option JsValue :=
  match call.phase with
  | .persisting record _ => some record
  | _ => none

/-- The codec keeps what the id of a committed record is computed over. -/
def KeepsRecord (text : TrustText) (system : TrustSystem) : TrustEvent → Prop
  | .within index (.commit _) =>
      ∀ call ∈ system.calls[index]?, ∀ record ∈ call.committing, RecordKept text record
  | _ => True

instance (text : TrustText) (record : JsValue) : Decidable (RecordKept text record) :=
  inferInstanceAs (Decidable (_ = _))

instance (text : TrustText) (system : TrustSystem) : ∀ event, Decidable (KeepsRecord text system event)
  | .within index (.commit _) =>
      inferInstanceAs (Decidable (∀ call ∈ system.calls[index]?, ∀ record ∈ call.committing, RecordKept text record))
  | .call _ _ _ | .within _ (.readTip _) | .within _ (.swap _) | .within _ (.rereadTip _) | .within _ (.resign _)
  | .within _ (.fail _) => inferInstanceAs (Decidable True)

theorem CallOk.grows {schema : TrustSchema} {text : TrustText} {commits commits' : JsMap Sha TrustCommit}
    {call : AppendCall} (h : CallOk schema text commits call) (hgrows : Grows commits.get commits'.get) :
    CallOk schema text commits' call := by
  unfold CallOk at h ⊢
  split at h
  · exact ⟨h.1, h.2.grows hgrows⟩
  · exact h.grows hgrows
  · exact h.grows hgrows
  · obtain ⟨parentSha, hstored⟩ := h
    exact ⟨parentSha, hstored.grows hgrows⟩
  · trivial

theorem callOk_of_isBare (schema : TrustSchema) (text : TrustText) (commits : JsMap Sha TrustCommit) {call : AppendCall}
    (h : call.isBare = true) : CallOk schema text commits call ∧ call.resolvedSha = none := by
  unfold AppendCall.isBare at h
  unfold CallOk AppendCall.resolvedSha
  split at h
  · rename_i hphase
    rw [hphase]
    exact ⟨trivial, rfl⟩
  · rename_i hphase
    rw [hphase]
    exact ⟨trivial, rfl⟩
  · rename_i hphase
    rw [hphase]
    exact ⟨trivial, rfl⟩
  · cases h

theorem callOk_pending_iff (schema : TrustSchema) (text : TrustText) (commits : JsMap Sha TrustCommit)
    {call : AppendCall} {record : JsValue} {commitSha : Sha} {parentSha : Option Sha}
    (h : call.pending = some (record, commitSha, parentSha)) :
    (CallOk schema text commits call ↔ StoredAt schema text commits commitSha record parentSha) ∧
      call.resolvedSha = none := by
  unfold AppendCall.pending at h
  unfold CallOk AppendCall.resolvedSha
  split at h
  · rename_i hphase
    cases h
    rw [hphase]
    exact ⟨Iff.rfl, rfl⟩
  · rename_i hphase
    cases h
    rw [hphase]
    exact ⟨Iff.rfl, rfl⟩
  · cases h

/-- A step of one call that leaves the ref where it is. -/
theorem ChainInvariant.replace {schema : TrustSchema} {text : TrustText} {system : TrustSystem} {repo : TrustRepo}
    (h : ChainInvariant schema text system) (href : repo.ref = system.repo.ref)
    (hgrows : Grows system.repo.commits.get repo.commits.get) {index : Nat} {call call' : AppendCall}
    (hcall : system.calls[index]? = some call) (hok : CallOk schema text repo.commits call')
    (hsame : call'.resolvedSha = call.resolvedSha) :
    ChainInvariant schema text ⟨repo, system.calls.set index call'⟩ ∧
      ChainGrows system ⟨repo, system.calls.set index call'⟩ := by
  have hchain : ∀ ids, system.repo.IsChain ids → repo.IsChain ids := by
    intro ids hids
    rw [TrustRepo.IsChain, href]
    exact hids.grows hgrows
  refine ⟨⟨fun other hother => ?_, ?_⟩, hgrows, fun ids hids => ⟨ids, hchain ids hids, List.prefix_refl ids⟩⟩
  · rcases Lists.mem_of_mem_set hcall hother with rfl | hold
    · exact hok
    · exact (h.calls other hold).grows hgrows
  · obtain ⟨ids, hids, hperm⟩ := h.chain
    refine ⟨ids, hchain ids hids, ?_⟩
    rw [Lists.filterMap_set_same hcall hsame]
    exact hperm

theorem isBare_start (retry : Option RetryOptions) (skipSignatureVerify : Bool) (record : JsValue) :
    (AppendCall.start retry skipSignatureVerify record).isBare = true := by
  unfold AppendCall.start
  cases retry with
  | none => rfl
  | some options =>
      dsimp only
      by_cases hnegative : options.maxRetries < 0
      · rw [if_pos hnegative]
        rfl
      · rw [if_neg hnegative]
        rfl

theorem chainInvariant_step {schema : TrustSchema} {text : TrustText} {system system' : TrustSystem} {event : TrustEvent}
    (h : ChainInvariant schema text system) (hkeeps : KeepsRecord text system event)
    (hstep : system.step schema text event = some system') :
    ChainInvariant schema text system' ∧ ChainGrows system system' := by
  cases event with
  | call retry skipSignatureVerify record =>
      cases hstep
      obtain ⟨hok, hnone⟩ :=
        callOk_of_isBare schema text system.repo.commits (isBare_start retry skipSignatureVerify record)
      refine ⟨⟨fun call hcall => ?_, ?_⟩, Grows.refl _, fun ids hids => ⟨ids, hids, List.prefix_refl ids⟩⟩
      · rcases List.mem_append.mp hcall with hold | hnew
        · exact h.calls call hold
        · rw [List.mem_singleton.mp hnew]
          exact hok
      · obtain ⟨ids, hids, hperm⟩ := h.chain
        refine ⟨ids, hids, ?_⟩
        rw [List.filterMap_append, List.filterMap_cons_none hnone, List.filterMap_nil, List.append_nil]
        exact hperm
  | within index event =>
      unfold TrustSystem.step at hstep
      simp only [Option.bind_eq_bind, Option.bind_eq_some_iff, Option.pure_def, Option.some.injEq] at hstep
      obtain ⟨call, hcall, ⟨repo, call'⟩, heffect, rfl⟩ := hstep
      have hok := h.calls call (List.mem_of_getElem? hcall)
      cases AppendCall.effect_of_step heffect with
      | bare hnone hbare =>
          obtain ⟨hok', hnone'⟩ := callOk_of_isBare schema text system.repo.commits hbare
          exact h.replace rfl (Grows.refl _) hcall hok' (hnone'.trans hnone.symm)
      | @read record tipSha refReadable hphase hchecked hprev _ =>
          refine h.replace rfl (Grows.refl _) hcall ⟨checked_of_checkRecord hchecked, hprev⟩ ?_
          unfold AppendCall.resolvedSha
          rw [hphase]
      | @committed record tipSha sha repo' hphase href hgrows hget =>
          have hkept := hkeeps call hcall record (by rw [AppendCall.committing, hphase]; rfl)
          unfold CallOk at hok
          rw [hphase] at hok
          refine h.replace href hgrows hcall (show StoredAt schema text _ _ _ _ from ?_) ?_
          · exact ⟨hget, hok.1, hkept, hok.2.grows hgrows⟩
          · unfold AppendCall.resolvedSha
            rw [hphase]
      | @swapped record commitSha spurious hpending =>
          obtain ⟨hiff, hnone⟩ := callOk_pending_iff schema text system.repo.commits hpending
          have hstored := hiff.mp hok
          obtain ⟨ids, hids, hperm⟩ := h.chain
          have hids' : Chain system.repo.commits.get TrustCommit.parents (some commitSha) (ids ++ [commitSha]) :=
            .snoc hstored.stored rfl hids
          refine ⟨⟨fun other hother => ?_, ids ++ [commitSha], hids', ?_⟩, Grows.refl _, fun older holder => ?_⟩
          · rcases Lists.mem_of_mem_set hcall hother with rfl | hold
            · exact ⟨_, hstored⟩
            · exact h.calls other hold
          · have hnew := Lists.filterMap_set_new (f := AppendCall.resolvedSha)
              (b := { call with phase := .resolved record commitSha }) hcall hnone rfl
            refine (List.perm_append_singleton commitSha ids).trans ((hperm.cons commitSha).trans ?_)
            exact hnew.symm
          · rw [hids.unique holder] at hids'
            exact ⟨older ++ [commitSha], hids', List.prefix_append _ _⟩
      | @waiting event call' entry hpending hpending' =>
          obtain ⟨record, commitSha, parentSha⟩ := entry
          obtain ⟨hiff, hnone⟩ := callOk_pending_iff schema text system.repo.commits hpending
          obtain ⟨hiff', hnone'⟩ := callOk_pending_iff schema text system.repo.commits hpending'
          exact h.replace rfl (Grows.refl _) hcall (hiff'.mpr (hiff.mp hok)) (hnone'.trans hnone.symm)

/-- What `readRecords` returns. -/
def TrustRepo.Reads (repo : TrustRepo) (records : List JsValue) : Prop :=
  ∃ bound, ∀ fuel, bound ≤ fuel → repo.readRecords fuel = some (.ok records)

/-- The record of a call that has resolved, as it is stored. -/
def AppendCall.appended (text : TrustText) (call : AppendCall) : Option JsValue :=
  match call.phase with
  | .resolved record _ => some (text.stored record)
  | _ => none

/-- What is read verifies, extends what was read before and holds the records of the calls that have resolved. -/
def ChainKept (schema : TrustSchema) (text : TrustText) (before after : TrustSystem) : Prop :=
  ∃ records records', before.repo.Reads records ∧ after.repo.Reads records' ∧ records <+: records' ∧
    verifyChain schema text records' = .ok [] ∧ records'.Perm (after.calls.filterMap (AppendCall.appended text))

theorem ChainInvariant.exists_chain {schema : TrustSchema} {text : TrustText} {system : TrustSystem}
    (h : ChainInvariant schema text system) :
    ∃ ids, system.repo.IsChain ids ∧ AllStored schema text system.repo.commits ids ∧
      (storedRecords system.repo.commits ids).Perm (system.calls.filterMap (AppendCall.appended text)) := by
  obtain ⟨ids, hids, hperm⟩ := h.chain
  have hresolved : ∀ call ∈ system.calls, ∀ sha, call.resolvedSha = some sha →
      ∃ record parentSha, call.phase = .resolved record sha ∧
        StoredAt schema text system.repo.commits sha record parentSha := by
    intro call hcall sha hsha
    have hok := h.calls call hcall
    unfold AppendCall.resolvedSha at hsha
    split at hsha
    · rename_i record commitSha hphase
      cases hsha
      unfold CallOk at hok
      rw [hphase] at hok
      obtain ⟨parentSha, hstored⟩ := hok
      exact ⟨record, parentSha, hphase, hstored⟩
    · cases hsha
  refine ⟨ids, hids, fun id hid => ?_, ?_⟩
  · obtain ⟨call, hcall, hsha⟩ := List.mem_filterMap.mp (hperm.subset hid)
    obtain ⟨record, parentSha, -, hstored⟩ := hresolved call hcall id hsha
    exact ⟨record, parentSha, hstored⟩
  · refine (hperm.filterMap _).trans ?_
    rw [List.filterMap_filterMap, List.filterMap_congr fun call hcall => ?_]
    cases hsha : call.resolvedSha with
    | none =>
        unfold AppendCall.resolvedSha at hsha
        unfold AppendCall.appended
        split at hsha
        · cases hsha
        · rfl
    | some sha =>
        obtain ⟨record, parentSha, hphase, hstored⟩ := hresolved call hcall sha hsha
        rw [AppendCall.appended, hphase, Option.bind_some, hstored.stored]
        rfl

theorem ChainInvariant.reads {schema : TrustSchema} {text : TrustText} {system : TrustSystem} {ids : List Sha}
    (hids : system.repo.IsChain ids) (hstored : AllStored schema text system.repo.commits ids) :
    system.repo.Reads (storedRecords system.repo.commits ids) :=
  ⟨ids.length, fun _ hfuel => readRecords_of_chain hids hstored hfuel⟩

theorem storedRecords_grows {schema : TrustSchema} {text : TrustText} {commits commits' : JsMap Sha TrustCommit}
    {ids : List Sha} (hstored : AllStored schema text commits ids) (hgrows : Grows commits.get commits'.get) :
    storedRecords commits' ids = storedRecords commits ids := by
  refine List.filterMap_congr fun id hid => ?_
  obtain ⟨record, parentSha, hrecord⟩ := hstored id hid
  rw [hrecord.stored, (hrecord.grows hgrows).stored]

theorem chainInvariant_empty (schema : TrustSchema) (text : TrustText) :
    ChainInvariant schema text TrustSystem.empty := ⟨nofun, [], .nil, List.Perm.nil⟩

/-- The chain is kept in every run in which the codec keeps the records that are committed. -/
theorem chainKept_of_run {schema : TrustSchema} {text : TrustText} (hnumber : Json.PrintsNumbers text.number)
    (hhash : Function.Injective text.sha256) (hcbor : CborRereads text.cbor)
    {events later : List TrustEvent} {before after : TrustSystem}
    (hkeeps : Runs.Meets (TrustSystem.step schema text) (KeepsRecord text) TrustSystem.empty events)
    (hbefore : Runs.run (TrustSystem.step schema text) TrustSystem.empty events = some before)
    (hkeeps' : Runs.Meets (TrustSystem.step schema text) (KeepsRecord text) before later)
    (hafter : Runs.run (TrustSystem.step schema text) before later = some after) :
    ChainKept schema text before after := by
  have hinvariant : ChainInvariant schema text before :=
    Runs.invariant_of_run (fun _ _ _ h hkeeps hstep => (chainInvariant_step h hkeeps hstep).1)
      (chainInvariant_empty schema text) hkeeps hbefore
  obtain ⟨hinvariant', hgrows⟩ : ChainInvariant schema text after ∧ ChainGrows before after := by
    refine Runs.invariant_of_run (I := fun system => ChainInvariant schema text system ∧ ChainGrows before system)
      (fun _ _ _ h hkeeps hstep => ?_) ⟨hinvariant, ChainGrows.refl before⟩ hkeeps' hafter
    obtain ⟨hnext, hstepGrows⟩ := chainInvariant_step h.1 hkeeps hstep
    exact ⟨hnext, h.2.trans hstepGrows⟩
  obtain ⟨ids, hids, hstored, -⟩ := hinvariant.exists_chain
  obtain ⟨ids', hids', hstored', hperm⟩ := hinvariant'.exists_chain
  obtain ⟨extended, hextended, hfront⟩ := hgrows.2 ids hids
  rw [hextended.unique hids'] at hfront
  refine ⟨_, _, ChainInvariant.reads hids hstored, ChainInvariant.reads hids' hstored', ?_,
    verifyChain_of_links hnumber hhash (links_of_chain hcbor hids' hstored').1, hperm⟩
  obtain ⟨rest, rfl⟩ := hfront
  rw [← storedRecords_grows hstored hgrows.1, storedRecords, storedRecords, List.filterMap_append]
  exact List.prefix_append _ _

/-! ### A record with a `Map` -/

/-- One client appends the record. -/
def appendAlone (record : JsValue) (sha : Sha) : List TrustEvent :=
  [.call none false record, .within 0 (.readTip true), .within 0 (.commit sha), .within 0 (.swap false)]

def rootSha : Sha := hexText 40 0x6b1f0c5d2e9a47388c21f4d07e5b93a6c4d81f20

/-- The chain after one client has appended its record to the empty one. -/
def appendedAlone (text : TrustText) (record : JsValue) (sha : Sha) : TrustSystem where
  repo := ⟨JsMap.empty.set sha ⟨some (text.stored record), []⟩, some sha⟩
  calls := [⟨none, false, 0, .resolved record sha⟩]

theorem readTip_alone {schema : TrustSchema} {text : TrustText} {call : AppendCall} {record : JsValue}
    (hphase : call.phase = .attempting record)
    (hchecked : checkRecord schema text call.skipSignatureVerify record = .ok ())
    (hprev : record.get (js "prev") = .null) (others : List AppendCall) :
    TrustSystem.step schema text ⟨⟨JsMap.empty, none⟩, call :: others⟩ (.within 0 (.readTip true)) =
      some ⟨⟨JsMap.empty, none⟩, { call with phase := .persisting record none } :: others⟩ := by
  have htip : call.afterTip schema text ⟨JsMap.empty, none⟩ record true = .persisting record none := by
    rw [AppendCall.afterTip, hchecked]
    simp only [AppendCall.tipRead, if_true, TrustRepo.readTip, hprev, sameId]
  simp only [TrustSystem.step, List.getElem?_cons_zero, Option.bind_eq_bind, Option.bind_some, AppendCall.step, hphase,
    htip, List.set_cons_zero]
  rfl

/-- A call that has a record for the empty chain appends it when it takes its steps alone. -/
theorem run_alone {schema : TrustSchema} {text : TrustText} {call : AppendCall} {record : JsValue}
    (hphase : call.phase = .attempting record)
    (hchecked : checkRecord schema text call.skipSignatureVerify record = .ok ())
    (hprev : record.get (js "prev") = .null) (others : List AppendCall) (sha : Sha) :
    Runs.run (TrustSystem.step schema text) ⟨⟨JsMap.empty, none⟩, call :: others⟩ ((appendAlone record sha).drop 1) =
      some ⟨(appendedAlone text record sha).repo, { call with phase := .resolved record sha } :: others⟩ := by
  rw [appendAlone, List.drop_succ_cons, List.drop_zero, Runs.run, readTip_alone hphase hchecked hprev]
  rfl

theorem run_appendAlone {schema : TrustSchema} {text : TrustText} {record : JsValue}
    (hchecked : checkRecord schema text false record = .ok ()) (hprev : record.get (js "prev") = .null) (sha : Sha) :
    Runs.run (TrustSystem.step schema text) TrustSystem.empty (appendAlone record sha) =
      some (appendedAlone text record sha) :=
  @run_alone schema text (AppendCall.start none false record) record rfl hchecked hprev [] sha

/-- A record that the schema accepts passes the checks under the digest of its own text. -/
theorem checkRecord_of_digest {text : TrustText} {record parsed : TrustRecord}
    (hparse : datetimeSchema.safeParse record.value = some parsed)
    (hverified : text.verifyRecordId record.value = .ok true) (hsig : record.sig ≠ []) (skipSignatureVerify : Bool) :
    checkRecord datetimeSchema text skipSignatureVerify record.value = .ok () := by
  have henvelope : verifySignatureEnvelope record.value = true := by
    rw [verifySignatureEnvelope, signature_value]
    cases hrecord : record.sig with
    | nil => exact absurd hrecord hsig
    | cons unit rest => rfl
  rw [checkRecord, hparse, hverified, henvelope, Bool.not_true, Bool.and_false]
  rfl

theorem checkRecord_recordText {record parsed : TrustRecord} {canonical : List (JsString × Json)}
    (hparse : datetimeSchema.safeParse record.value = some parsed)
    (hcanonical : canonicalFields record.metadata = .ok canonical) (hsig : record.sig ≠ [])
    (skipSignatureVerify : Bool) :
    checkRecord datetimeSchema (recordText record.value record.recordId) skipSignatureVerify record.value = .ok () :=
  checkRecord_of_digest hparse (verifyRecordId_recordText record hcanonical) hsig skipSignatureVerify

theorem checkRecord_rootRecord :
    checkRecord datetimeSchema (recordText rootRecord.value rootRecord.recordId) false rootRecord.value = .ok () :=
  checkRecord_recordText (safeParse_of_readsAs readsAs_rootRecord valid_rootRecord) rfl sig_rootRecord false

/-! ### Two clients at once -/

/-- The root record, made again on top of itself. -/
def nextRecord : TrustRecord :=
  { rootRecord with
    recordId := hexText 64 0xaa1daa2ea60cc7bfe616831aead14f9e47235a9dbcbc18f444552c9f02ac0729
    prev := some rootRecord.recordId }

theorem safeParse_nextRecord : datetimeSchema.safeParse nextRecord.value = some nextRecord :=
  safeParse_of_readsAs (readsAs_value asSubject_rootKey (List.forall_mem_nil _) sig_rootRecord)
    ⟨isRecordId_hexText _, isKeyId_hexText _, isDatetime_issuedAt, fun prev hprev => by
      cases hprev
      exact isRecordId_hexText _⟩

namespace Race

/-- Printing, with the digests of both records' texts. -/
def text : TrustText where
  number := integerText
  sha256 := withValue (recordText rootRecord.value rootRecord.recordId).sha256 (recordIdText nextRecord.value)
    nextRecord.recordId

theorem recordIds_ne : rootRecord.recordId ≠ nextRecord.recordId := by decide +kernel

theorem recordIdTexts_ne : recordIdText rootRecord.value ≠ recordIdText nextRecord.value := by decide +kernel

theorem length_nextId : nextRecord.recordId.length = 64 := length_hexText 64 _

theorem sha256_injective : Function.Injective text.sha256 := by
  refine withValue_injective (recordText_sha256_injective _ valid_rootRecord.recordId) fun payload heq => ?_
  change (if payload = recordIdText rootRecord.value then rootRecord.recordId else List.replicate 65 0 ++ payload) =
    nextRecord.recordId at heq
  have hid := recordIds_ne
  have hlength := length_nextId
  generalize nextRecord.recordId = recordId at heq hid hlength
  split at heq
  · exact hid heq
  · rw [← heq, List.length_append, List.length_replicate] at hlength
    omega

theorem cborRereads : CborRereads text.cbor := cborRereads_id

theorem sha256_eq : text.sha256 = withValue (recordText rootRecord.value rootRecord.recordId).sha256
    (recordIdText nextRecord.value) nextRecord.recordId := rfl

theorem sha256_root : text.sha256 (recordIdText rootRecord.value) = rootRecord.recordId := by
  rw [sha256_eq, withValue_of_ne _ _ recordIdTexts_ne]
  exact sha256_recordText rootRecord

theorem sha256_next : text.sha256 (recordIdText nextRecord.value) = nextRecord.recordId :=
  (congrFun sha256_eq _).trans (withValue_self _ _ _)

theorem checkRecord_root : checkRecord datetimeSchema text false rootRecord.value = .ok () :=
  checkRecord_of_digest (safeParse_of_readsAs readsAs_rootRecord valid_rootRecord)
    (verifyRecordId_of_digest rfl rfl sha256_root) sig_rootRecord false

theorem sig_nextRecord : nextRecord.sig ≠ [] := sig_rootRecord

theorem checkRecord_next : checkRecord datetimeSchema text false nextRecord.value = .ok () :=
  checkRecord_of_digest safeParse_nextRecord (verifyRecordId_of_digest rfl rfl sha256_next) sig_nextRecord false

def rivalSha : Sha := hexText 40 0x2c41aa907be3f05d18c6b2f94e7d3a6105f8c9be

def nextSha : Sha := hexText 40 0x93d02b7ce1584fa6c07d9e35ba21f86c4de750a4

def rootCommit : TrustCommit := ⟨some (text.stored rootRecord.value), []⟩

def nextCommit : TrustCommit := ⟨some (text.stored nextRecord.value), [rootSha]⟩

def retries : RetryOptions := ⟨3, true⟩

/-- The root record on top of nothing, and with the id of the tip that was found instead. -/
def rebuilt : JsValue := withField (js "prev") (.string rootRecord.recordId) rootRecord.value

def system (commits : List (Sha × TrustCommit)) (ref : Option Sha) (first : AppendPhase) (attempt : Nat)
    (second : AppendPhase) : TrustSystem :=
  ⟨⟨JsMap.ofEntries commits, ref⟩, [⟨none, false, 0, first⟩, ⟨some retries, false, attempt, second⟩]⟩

/-- Both calls have the root record for the empty chain. -/
def started : TrustSystem := system [] none (.attempting rootRecord.value) 0 (.attempting rootRecord.value)

/-- Both read the tip and commit, and the first one swaps the ref. -/
def firstAppends : List (TrustEvent × TrustSystem) :=
  [(.within 1 (.readTip true),
      system [] none (.attempting rootRecord.value) 0 (.persisting rootRecord.value none)),
    (.within 0 (.readTip true),
      system [] none (.persisting rootRecord.value none) 0 (.persisting rootRecord.value none)),
    (.within 1 (.commit rivalSha),
      system [(rivalSha, rootCommit)] none (.persisting rootRecord.value none) 0
        (.swapping rootRecord.value rivalSha none 1)),
    (.within 0 (.commit rootSha),
      system [(rivalSha, rootCommit), (rootSha, rootCommit)] none (.swapping rootRecord.value rootSha none 1) 0
        (.swapping rootRecord.value rivalSha none 1)),
    (.within 0 (.swap false),
      system [(rivalSha, rootCommit), (rootSha, rootCommit)] (some rootSha) (.resolved rootRecord.value rootSha) 0
        (.swapping rootRecord.value rivalSha none 1))]

def firstAppended : TrustSystem :=
  system [(rivalSha, rootCommit), (rootSha, rootCommit)] (some rootSha) (.resolved rootRecord.value rootSha) 0
    (.swapping rootRecord.value rivalSha none 1)

/-- The swap of the second call fails; its record is made again on top of the new tip. -/
def secondAppends : List (TrustEvent × TrustSystem) :=
  let at' := system [(rivalSha, rootCommit), (rootSha, rootCommit)] (some rootSha) (.resolved rootRecord.value rootSha)
  [(.within 1 (.swap false), at' 0 (.rereading rootRecord.value rivalSha none 1)),
    (.within 1 (.rereadTip true), at' 1 (.resigning rebuilt)),
    (.within 1 (.resign nextRecord.value), at' 1 (.attempting nextRecord.value)),
    (.within 1 (.readTip true), at' 1 (.persisting nextRecord.value (some rootSha))),
    (.within 1 (.commit nextSha),
      system [(rivalSha, rootCommit), (rootSha, rootCommit), (nextSha, nextCommit)] (some rootSha)
        (.resolved rootRecord.value rootSha) 1 (.swapping nextRecord.value nextSha (some rootSha) 1)),
    (.within 1 (.swap false),
      system [(rivalSha, rootCommit), (rootSha, rootCommit), (nextSha, nextCommit)] (some nextSha)
        (.resolved rootRecord.value rootSha) 1 (.resolved nextRecord.value nextSha))]

theorem step_within {system : TrustSystem} {index : Nat} {event : AppendCall.Event} {call : AppendCall}
    {next : TrustRepo × AppendCall} (hcall : system.calls[index]? = some call)
    (hstep : call.step datetimeSchema text system.repo event = some next) :
    system.step datetimeSchema text (.within index event) = some ⟨next.1, system.calls.set index next.2⟩ := by
  simp only [TrustSystem.step, hcall, Option.bind_eq_bind, Option.bind_some, hstep]
  rfl

theorem step_readTip {repo : TrustRepo} {call : AppendCall} {record prev : JsValue} {tipSha : Option Sha}
    (hphase : call.phase = .attempting record)
    (hchecked : checkRecord datetimeSchema text call.skipSignatureVerify record = .ok ())
    (hprev : record.get (js "prev") = prev) (hread : repo.readTip = .ok (tipSha, prev))
    (hsame : sameId prev prev = true) :
    call.step datetimeSchema text repo (.readTip true) =
      some (repo, { call with phase := .persisting record tipSha }) := by
  have htip : call.afterTip datetimeSchema text repo record true = .persisting record tipSha := by
    rw [AppendCall.afterTip, hchecked, AppendCall.tipRead, if_pos rfl, hread, hprev]
    exact if_pos hsame
  simp only [AppendCall.step, hphase, htip]

theorem step_commit {commits : List (Sha × TrustCommit)} {ref parentSha : Option Sha} {call : AppendCall} {sha : Sha}
    {record : JsValue} (hphase : call.phase = .persisting record parentSha)
    (hnew : (JsMap.ofEntries commits).get sha = none) :
    call.step datetimeSchema text ⟨JsMap.ofEntries commits, ref⟩ (.commit sha) =
      some (⟨JsMap.ofEntries (commits ++ [(sha, ⟨some (text.stored record), parentSha.toList⟩)]), ref⟩,
        { call with phase := .swapping record sha parentSha 1 }) := by
  have hset : JsMap.ofEntries (commits ++ [(sha, (⟨some (text.stored record), parentSha.toList⟩ : TrustCommit))]) =
      (JsMap.ofEntries commits).set sha ⟨some (text.stored record), parentSha.toList⟩ := List.foldl_append
  simp only [AppendCall.step, hphase, AppendCall.commitTo, hnew, hset, Option.map_some]

theorem shas_ne : rootSha ≠ rivalSha ∧ nextSha ≠ rivalSha ∧ nextSha ≠ rootSha := by decide +kernel

theorem readTip_rootSha : TrustRepo.readTip
    ⟨JsMap.ofEntries [(rivalSha, rootCommit), (rootSha, rootCommit)], some rootSha⟩ =
      .ok (some rootSha, .string rootRecord.recordId) := by
  have hid : TrustRepo.recordIdOrNull (text.stored rootRecord.value) = .string rootRecord.recordId := by decide +kernel
  have hget : (JsMap.ofEntries [(rivalSha, rootCommit), (rootSha, rootCommit)]).get rootSha = some rootCommit :=
    JsMap.get_set_self _ _ _
  rw [TrustRepo.readTip]
  dsimp only
  rw [hget, ← hid]
  rfl

/-- The swap of the second call has failed, and the tip is another one. -/
theorem step_rereadTip {repo : TrustRepo} {freshTipSha : Sha} {freshRecordId : JsString}
    (hread : repo.readTip = .ok (some freshTipSha, .string freshRecordId)) :
    (⟨some retries, false, 0, .rereading rootRecord.value rivalSha none 1⟩ : AppendCall).step datetimeSchema text repo
        (.rereadTip true) =
      some (repo, ⟨some retries, false, 1,
        .resigning (withField (js "prev") (.string freshRecordId) rootRecord.value)⟩) := by
  simp only [AppendCall.step, AppendCall.afterReread, AppendCall.tipRead, if_true, hread]
  rfl

theorem prev_next : nextRecord.value.get (js "prev") = .string rootRecord.recordId := rfl

theorem follows_first : Runs.Follows (TrustSystem.step datetimeSchema text) started firstAppends := by
  have hread : ∀ call : AppendCall, call.phase = .attempting rootRecord.value → call.skipSignatureVerify = false →
      call.step datetimeSchema text ⟨JsMap.ofEntries [], none⟩ (.readTip true) =
        some (⟨JsMap.ofEntries [], none⟩, { call with phase := .persisting rootRecord.value none }) :=
    fun call hphase hskip => step_readTip hphase (hskip ▸ checkRecord_root) rfl rfl rfl
  refine ⟨(step_within rfl (hread _ rfl rfl)).trans rfl, (step_within rfl (hread _ rfl rfl)).trans rfl, ?_, ?_, rfl,
    trivial⟩
  · exact (step_within rfl (step_commit rfl rfl)).trans rfl
  · have hnew : (JsMap.ofEntries [(rivalSha, rootCommit)]).get rootSha = none :=
      (JsMap.get_set_of_ne _ _ shas_ne.1).trans rfl
    exact (step_within rfl (step_commit rfl hnew)).trans rfl

theorem follows_second : Runs.Follows (TrustSystem.step datetimeSchema text) firstAppended secondAppends := by
  have hread : (⟨some retries, false, 1, .attempting nextRecord.value⟩ : AppendCall).step datetimeSchema text
      ⟨JsMap.ofEntries [(rivalSha, rootCommit), (rootSha, rootCommit)], some rootSha⟩ (.readTip true) =
      some (⟨JsMap.ofEntries [(rivalSha, rootCommit), (rootSha, rootCommit)], some rootSha⟩,
        ⟨some retries, false, 1, .persisting nextRecord.value (some rootSha)⟩) :=
    step_readTip rfl checkRecord_next prev_next readTip_rootSha (sameId_self (some rootRecord.recordId))
  refine ⟨rfl, (step_within rfl (step_rereadTip readTip_rootSha)).trans rfl, rfl, ?_, ?_, rfl, trivial⟩
  · exact (step_within rfl hread).trans rfl
  · have hnew : (JsMap.ofEntries [(rivalSha, rootCommit), (rootSha, rootCommit)]).get nextSha = none :=
      (JsMap.get_set_of_ne _ _ shas_ne.2.2).trans ((JsMap.get_set_of_ne _ _ shas_ne.2.1).trans rfl)
    exact (step_within rfl (step_commit rfl hnew)).trans rfl

/-- One call without retries and one with, and what they do up to the first swap. -/
def opening : List (TrustEvent × TrustSystem) :=
  (.call none false rootRecord.value, ⟨⟨JsMap.empty, none⟩, [⟨none, false, 0, .attempting rootRecord.value⟩]⟩) ::
    (.call (some retries) false rootRecord.value, started) :: firstAppends

theorem follows_opening : Runs.Follows (TrustSystem.step datetimeSchema text) TrustSystem.empty opening :=
  ⟨rfl, rfl, follows_first⟩

theorem recordKept_root : RecordKept text rootRecord.value := recordKept_value rfl rfl rfl

theorem recordKept_next : RecordKept text nextRecord.value := recordKept_value rfl rfl rfl

theorem keepsRecord_commit {system : TrustSystem} {index : Nat} {sha : Sha} {call : AppendCall} {record : JsValue}
    {tipSha : Option Sha} (hcall : system.calls[index]? = some call) (hphase : call.phase = .persisting record tipSha)
    (hkept : RecordKept text record) : KeepsRecord text system (.within index (.commit sha)) := by
  intro call' hcall' record' hrecord
  cases hcall.symm.trans hcall'
  rw [AppendCall.committing, hphase] at hrecord
  cases hrecord
  exact hkept

theorem keepsRecord_opening : Runs.MetAlong (KeepsRecord text) TrustSystem.empty opening :=
  ⟨trivial, trivial, trivial, trivial, keepsRecord_commit rfl rfl recordKept_root,
    keepsRecord_commit rfl rfl recordKept_root, trivial, trivial⟩

theorem keepsRecord_second : Runs.MetAlong (KeepsRecord text) firstAppended secondAppends :=
  ⟨trivial, trivial, trivial, trivial, keepsRecord_commit rfl rfl recordKept_next, trivial, trivial⟩

/-- The chain of both records. -/
def bothAppended : TrustSystem :=
  system [(rivalSha, rootCommit), (rootSha, rootCommit), (nextSha, nextCommit)] (some nextSha)
    (.resolved rootRecord.value rootSha) 1 (.resolved nextRecord.value nextSha)

end Race

/-- The second call commits the root record too, loses the swap, and appends its record on top of the first. -/
theorem chainKept_racing :
    Runs.run (TrustSystem.step datetimeSchema Race.text) TrustSystem.empty (Race.opening.map Prod.fst) =
        some Race.firstAppended ∧
      Runs.run (TrustSystem.step datetimeSchema Race.text) Race.firstAppended (Race.secondAppends.map Prod.fst) =
        some Race.bothAppended ∧
      ChainKept datetimeSchema Race.text Race.firstAppended Race.bothAppended := by
  have hbefore := Runs.run_of_follows Race.follows_opening
  have hafter := Runs.run_of_follows Race.follows_second
  exact ⟨hbefore, hafter, chainKept_of_run integerText_printsNumbers Race.sha256_injective Race.cborRereads
    (Runs.meets_of_follows Race.follows_opening Race.keepsRecord_opening) hbefore
    (Runs.meets_of_follows Race.follows_second Race.keepsRecord_second) hafter⟩

/-- The chain is kept in every run. -/
def KeepsChain : Prop :=
  ∀ (schema : TrustSchema) (text : TrustText), Json.PrintsNumbers text.number → Function.Injective text.sha256 →
    CborRereads text.cbor → ∀ events later before after, Runs.run (TrustSystem.step schema text) TrustSystem.empty events = some before →
      Runs.run (TrustSystem.step schema text) before later = some after → ChainKept schema text before after

theorem verifyRecordId_of_verifyChain {schema : TrustSchema} {text : TrustText} {record : JsValue}
    {parsed : TrustRecord} (hparse : schema.safeParse record = some parsed)
    (h : verifyChain schema text [record] = .ok []) : text.verifyRecordId record = .ok true := by
  rw [verifyChain, verifyChainFrom, hparse] at h
  dsimp only at h
  cases hverified : text.verifyRecordId record with
  | error err =>
      rw [hverified] at h
      cases h
  | ok idMatches =>
      rw [hverified] at h
      cases idMatches with
      | false => cases h
      | true => rfl

/-- The root record with a `Map` in its `meta`, which its id is computed over as `\x7b\x7d`. -/
def mapRecord : TrustRecord :=
  { rootRecord with
    recordId := hexText 64 0x265f871c59c1b54af748500e5a95f6225cbf71ea6a1b54e48a443783ebcad5b0
    metadata := [(js "tags", .map [(js "a", .number (.finite 1))])]
    sig := js "zyozHDI4JoOjNG/PqhqpInygUWj/RhAyUtcJHQg6/pD4lBGnIBt0uoCWCZtRUMv3ldqk2Vitn1pkw+HD/N+RDw==" }

theorem not_keepsChain : ¬ KeepsChain := by
  intro h
  have hid : isRecordId mapRecord.recordId = true := isRecordId_hexText _
  have hsig : mapRecord.sig ≠ [] := by
    dsimp only [mapRecord]
    rw [js_ofList]
    exact List.cons_ne_nil _ _
  have hparse : datetimeSchema.safeParse mapRecord.value = some mapRecord :=
    safeParse_of_readsAs (readsAs_value asSubject_rootKey (by decide) hsig)
      ⟨hid, isKeyId_hexText _, isDatetime_issuedAt, nofun⟩
  have hchecked := checkRecord_recordText hparse (show canonicalFields mapRecord.metadata = .ok _ from rfl) hsig false
  obtain ⟨records, records', -, ⟨bound, hreads⟩, -, hvalid, -⟩ :=
    h datetimeSchema (recordText mapRecord.value mapRecord.recordId) integerText_printsNumbers
      (recordText_sha256_injective _ hid) (cborRereads_id) [] (appendAlone mapRecord.value rootSha) _
      (appendedAlone _ mapRecord.value rootSha) rfl (run_appendAlone hchecked rfl rootSha)
  have hread : (appendedAlone (recordText mapRecord.value mapRecord.recordId) mapRecord.value rootSha).repo.readRecords
      (bound + 1) = some (.ok [sortKeys mapRecord.value]) := by
    rw [TrustRepo.readRecords, appendedAlone]
    dsimp only
    rw [TrustRepo.readRecordsFrom, JsMap.get_set_self]
    rfl
  rw [hreads (bound + 1) (by omega), Option.some.injEq, Except.ok.injEq] at hread
  subst hread
  obtain ⟨metadata, hstored⟩ := safeParse_sortKeys hparse
  obtain ⟨parsed, hchecked'⟩ := checked_of_checkRecord hchecked
  have hmeta := field_of_recordId integerText_printsNumbers (recordText_sha256_injective _ hid) hchecked'
    ⟨hstored, verifyRecordId_of_verifyChain hstored hvalid⟩
    (get_sortKeys_of_leaf (recordId_value mapRecord) nofun rfl (by decide)).symm
    (show (!([js "recordId", js "signature"].contains (js "meta"))) = true by decide)
  rw [sortKeys_value, get_sortKeysOfFields _ (show js "meta" ≠ protoKey by decide)] at hmeta
  -- the `Map` is written as an object with its entry, and its canonical text has none
  change some (Except.ok (Json.object [(js "tags", .object [])])) =
    some (Except.ok (Json.object [(js "tags", .object [(js "a", .number 1)])])) at hmeta
  cases hmeta

end GitWarp
