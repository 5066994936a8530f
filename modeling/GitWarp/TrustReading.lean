import GitWarp.TrustRecords

/-! What reading a trust record says of the stored one, and the stored records that the schema reads. -/

namespace GitWarp
open Js JsValue

theorem asString_eq_some {value : JsValue} {s : JsString} (h : asString value = some s) : value = .string s := by
  cases value with
  | string t => rw [Option.some.inj h]
  | _ => cases h

/-- What reading a record says of the stored one. -/
structure ReadsAs (raw : JsValue) (record : TrustRecord) : Prop where
  version : raw.get (js "schemaVersion") = .number (.finite 1)
  recordId : raw.get (js "recordId") = .string record.recordId
  issuerKeyId : raw.get (js "issuerKeyId") = .string record.issuerKeyId
  issuedAt : raw.get (js "issuedAt") = .string record.issuedAt
  prev : raw.get (js "prev") = prevValue record.prev
  recordType : raw.get (js "recordType") = .string record.subject.recordType
  subject : asSubject record.subject.recordType (raw.get (js "subject")) = some record.subject
  metadata : asMetadata (raw.get (js "meta")) = some record.metadata
  signature : asSignature (raw.get (js "signature")) = some record.sig

theorem asStringThat_spec {p : JsString → Bool} {value : JsValue} {s : JsString} (h : asStringThat p value = some s) :
    value = .string s ∧ p s = true := by
  rw [asStringThat, Option.filter_eq_some_iff] at h
  exact ⟨asString_eq_some h.1, h.2⟩

theorem asTrimmed_spec {value : JsValue} {s : JsString} (h : asTrimmed value = some s) :
    ∃ untrimmed, value = .string untrimmed ∧ s = trim untrimmed := by
  rw [asTrimmed, Option.filter_eq_some_iff, Option.map_eq_some_iff] at h
  obtain ⟨⟨untrimmed, hvalue, rfl⟩, -⟩ := h
  exact ⟨untrimmed, asString_eq_some hvalue, rfl⟩

/-- The subjects that the schema returns, with the stored fields they were read from. -/
theorem asSubject_cases {recordType : JsString} {value : JsValue} {subject : TrustSubject}
    (h : asSubject recordType value = some subject) : recordType = subject.recordType ∧
      ∃ keyId, value.get (js "keyId") = .string keyId ∧ isKeyId keyId = true ∧
        ((∃ publicKey, subject = .keyAdd keyId publicKey ∧ value.get (js "publicKey") = .string publicKey) ∨
        (∃ reasonCode, subject = .keyRevoke keyId reasonCode ∧ value.get (js "reasonCode") = .string reasonCode) ∨
        (∃ writerId, subject = .writerBindAdd (trim writerId) keyId ∧
          value.get (js "writerId") = .string writerId) ∨
        ∃ writerId reasonCode, subject = .writerBindRevoke (trim writerId) keyId reasonCode ∧
          value.get (js "writerId") = .string writerId ∧ value.get (js "reasonCode") = .string reasonCode) := by
  unfold asSubject at h
  dsimp only at h
  split at h
  · rename_i htype
    simp only [Option.bind_eq_bind, Option.bind_eq_some_iff, Option.pure_def] at h
    obtain ⟨keyId, hkey, publicKey, hpublic, hsubject⟩ := h
    obtain ⟨hkey, hvalid⟩ := asStringThat_spec hkey
    cases hsubject
    exact ⟨htype, keyId, hkey, hvalid, .inl ⟨publicKey, rfl, (asStringThat_spec hpublic).1⟩⟩
  · split at h
    · rename_i htype
      simp only [Option.bind_eq_bind, Option.bind_eq_some_iff, Option.pure_def] at h
      obtain ⟨keyId, hkey, reasonCode, hreason, hsubject⟩ := h
      obtain ⟨hkey, hvalid⟩ := asStringThat_spec hkey
      cases hsubject
      exact ⟨htype, keyId, hkey, hvalid, .inr (.inl ⟨reasonCode, rfl, (asStringThat_spec hreason).1⟩)⟩
    · split at h
      · rename_i htype
        simp only [Option.bind_eq_bind, Option.bind_eq_some_iff, Option.pure_def] at h
        obtain ⟨writerId, hwriter, keyId, hkey, hsubject⟩ := h
        obtain ⟨hkey, hvalid⟩ := asStringThat_spec hkey
        obtain ⟨untrimmed, hvalue, rfl⟩ := asTrimmed_spec hwriter
        cases hsubject
        exact ⟨htype, keyId, hkey, hvalid, .inr (.inr (.inl ⟨untrimmed, rfl, hvalue⟩))⟩
      · split at h
        · rename_i htype
          simp only [Option.bind_eq_bind, Option.bind_eq_some_iff, Option.pure_def] at h
          obtain ⟨writerId, hwriter, keyId, hkey, reasonCode, hreason, hsubject⟩ := h
          obtain ⟨hkey, hvalid⟩ := asStringThat_spec hkey
          obtain ⟨untrimmed, hvalue, rfl⟩ := asTrimmed_spec hwriter
          cases hsubject
          exact ⟨htype, keyId, hkey, hvalid,
            .inr (.inr (.inr ⟨untrimmed, reasonCode, rfl, hvalue, (asStringThat_spec hreason).1⟩))⟩
        · cases h

theorem isLiteralOne_iff {value : JsValue} : isLiteralOne value = true ↔ value = .number (.finite 1) := by
  unfold isLiteralOne
  split
  · rw [decide_eq_true_iff, JsValue.number.injEq, JsNumber.finite.injEq]
  · rename_i h
    exact iff_of_false Bool.false_ne_true (h 1)

/-- What the schema asks of the fields of a record besides their types. -/
structure TrustSchema.Valid (schema : TrustSchema) (record : TrustRecord) : Prop where
  recordId : isRecordId record.recordId = true
  issuerKeyId : isKeyId record.issuerKeyId = true
  issuedAt : schema.isDatetime record.issuedAt = true
  prev : ∀ recordId ∈ record.prev, isRecordId recordId = true

theorem asPrev_spec {value : JsValue} {prev : Option JsString} (h : asPrev value = some prev) :
    value = prevValue prev ∧ ∀ recordId ∈ prev, isRecordId recordId = true := by
  unfold asPrev at h
  split at h
  · cases h
    exact ⟨rfl, nofun⟩
  · obtain ⟨id, hid, rfl⟩ := Option.map_eq_some_iff.mp h
    obtain ⟨hvalue, hvalid⟩ := asStringThat_spec hid
    refine ⟨hvalue, ?_⟩
    rintro recordId ⟨⟩
    exact hvalid

theorem readsAs_of_safeParse {schema : TrustSchema} {raw : JsValue} {record : TrustRecord}
    (h : schema.safeParse raw = some record) : ReadsAs raw record ∧ schema.Valid record := by
  unfold TrustSchema.safeParse at h
  split at h
  · rename_i hversion
    simp only [Option.bind_eq_bind, Option.bind_eq_some_iff, Option.pure_def, Option.some.injEq] at h
    obtain ⟨recordType, hrecordType, recordId, hrecordId, issuerKeyId, hissuer, issuedAt, hissued, prev, hprev,
      subject, hsubject, metadata, hmetadata, sig, hsig, rfl⟩ := h
    have htype := (asSubject_cases hsubject).1
    subst htype
    obtain ⟨hrecordId, hvalidId⟩ := asStringThat_spec hrecordId
    obtain ⟨hissuer, hvalidIssuer⟩ := asStringThat_spec hissuer
    obtain ⟨hissued, hvalidIssued⟩ := asStringThat_spec hissued
    obtain ⟨hprev, hvalidPrev⟩ := asPrev_spec hprev
    exact ⟨⟨isLiteralOne_iff.mp hversion, hrecordId, hissuer, hissued, hprev, asString_eq_some hrecordType, hsubject,
      hmetadata, hsig⟩, hvalidId, hvalidIssuer, hvalidIssued, hvalidPrev⟩
  · cases h

theorem asStringThat_string {p : JsString → Bool} {s : JsString} (h : p s = true) :
    asStringThat p (.string s) = some s := Option.filter_eq_some_iff.mpr ⟨rfl, h⟩

theorem safeParse_of_readsAs {schema : TrustSchema} {raw : JsValue} {record : TrustRecord} (h : ReadsAs raw record)
    (hvalid : schema.Valid record) : schema.safeParse raw = some record := by
  have hprev : asPrev (prevValue record.prev) = some record.prev := by
    cases hrecord : record.prev with
    | none => rfl
    | some recordId =>
        rw [prevValue, asPrev, asStringThat_string (hvalid.prev recordId hrecord)]
        · rfl
        · nofun
  simp only [TrustSchema.safeParse, h.version, h.recordId, h.issuerKeyId, h.issuedAt, h.prev, h.recordType,
    asStringThat_string hvalid.recordId, asStringThat_string hvalid.issuerKeyId, asStringThat_string hvalid.issuedAt,
    hprev, Option.bind_eq_bind, Option.bind_some]
  rw [if_pos (isLiteralOne_iff.mpr rfl)]
  simp only [asString, Option.bind_some, h.subject, h.metadata, h.signature, Option.pure_def]

end GitWarp
