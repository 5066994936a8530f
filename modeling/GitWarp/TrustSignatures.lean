import GitWarp.TrustReading
import GitWarp.TrustState

/-! What a trust signature is checked over. The check prints the record as the schema returned it, the signer
printed the record that is stored; the two texts agree for records that the schema leaves as they are. -/

namespace GitWarp
open Js JsValue

/-! ### Objects that say the same -/

theorem canonicalField_of_defined {value : JsValue} (h : value ≠ .undefined) :
    canonicalField value = some (canonicalData value) := by
  unfold canonicalField
  rw [if_neg fun hundefined => h (eq_undefined hundefined)]

theorem canonicalField_object (fields : List (JsString × JsValue)) :
    canonicalField (.object fields) = some (canonicalData (.object fields)) := rfl

theorem canonicalField_eq_none_iff {value : JsValue} : canonicalField value = none ↔ value = .undefined := by
  constructor
  · intro h
    by_contra hdefined
    rw [canonicalField_of_defined hdefined] at h
    cases h
  · rintro rfl
    rfl

/-- An object agrees with a list of fields: it has no others, and says the same in each of them. -/
theorem fields_agree_iff (value : JsValue) {known : List (JsString × JsValue)} (hnodup : (known.map Prod.fst).Nodup) :
    (∀ key, canonicalField (value.get key) = canonicalField ((JsValue.object known).get key)) ↔
      (∀ key, value.get key ≠ .undefined → key ∈ known.map Prod.fst) ∧
        ∀ field ∈ known, canonicalField (value.get field.1) = canonicalField field.2 := by
  have hknown : ∀ field ∈ known, (JsValue.object known).get field.1 = field.2 := by
    intro field hfield
    induction known with
    | nil => cases hfield
    | cons first rest ih =>
        obtain ⟨k, v⟩ := first
        rw [List.map_cons, List.nodup_cons] at hnodup
        rw [get_cons]
        rcases List.mem_cons.mp hfield with rfl | hfield
        · exact if_pos rfl
        · have hne : k ≠ field.1 := fun heq => hnodup.1 (List.mem_map.mpr ⟨field, hfield, heq.symm⟩)
          rw [if_neg hne]
          exact ih hnodup.2 hfield
  constructor
  · intro h
    refine ⟨fun key hdefined => ?_, fun field hfield => by rw [h, hknown field hfield]⟩
    by_contra hkey
    have hother := h key
    rw [get_of_not_mem hkey] at hother
    exact hdefined (canonicalField_eq_none_iff.mp hother)
  · rintro ⟨hothers, hsame⟩ key
    by_cases hkey : key ∈ known.map Prod.fst
    · obtain ⟨field, hfield, rfl⟩ := List.mem_map.mp hkey
      rw [hsame field hfield, hknown field hfield]
    · rw [get_of_not_mem hkey, not_not.mp fun hdefined => hkey (hothers key hdefined)]

theorem canonicalData_object {fields : List (JsString × JsValue)} {canonical : List (JsString × Json)}
    (h : canonicalFields fields = .ok canonical) :
    canonicalData (.object fields) = .ok (.object canonical) := by
  rw [canonicalData, h]
  rfl

theorem canonicalData_object_eq_iff {fields fields' : List (JsString × JsValue)}
    {canonical canonical' : List (JsString × Json)}
    (h : canonicalFields fields = .ok canonical) (h' : canonicalFields fields' = .ok canonical') :
    canonicalData (.object fields) = canonicalData (.object fields') ↔
      ∀ key, canonicalField ((JsValue.object fields).get key) = canonicalField ((JsValue.object fields').get key) := by
  rw [← canonicalFields_eq_iff h h', canonicalData_object h, canonicalData_object h', Except.ok.injEq,
    Json.object.injEq]

/-! ### Records as the schema writes them -/

/-- The record is written as the schema writes it: with `meta`, no other keys and no spaces around a writer id. -/
structure WrittenPlainly (raw : JsValue) (record : TrustRecord) : Prop where
  known : ∀ key, raw.get key ≠ .undefined → key ∈ record.unsignedFields.map Prod.fst ∨ key = js "signature"
  hasMetadata : raw.get (js "meta") ≠ .undefined ∧ (raw.get (js "meta")).get protoKey = .undefined
  subjectKnown : ∀ key, (raw.get (js "subject")).get key ≠ .undefined → key ∈ record.subject.fields.map Prod.fst
  trimmed : ∀ writerId, (raw.get (js "subject")).get (js "writerId") = .string writerId →
    js "writerId" ∈ record.subject.fields.map Prod.fst → trim writerId = writerId

/-! ### Subject and metadata -/

theorem canonicalField_string_inj {a b : JsString} :
    canonicalField (.string a) = canonicalField (.string b) ↔ a = b := by
  simp [canonicalField, isUndefined, canonicalData, pure, Except.pure]

/-- Each field of the subject is the stored one, a writer id without the spaces around it. -/
theorem asSubject_field {recordType : JsString} {value : JsValue} {subject : TrustSubject}
    (h : asSubject recordType value = some subject) : ∀ field ∈ subject.fields,
      (value.get field.1 = field.2 ∧ field.1 ≠ js "writerId") ∨
        field.1 = js "writerId" ∧ ∃ untrimmed, value.get (js "writerId") = .string untrimmed ∧
          field.2 = .string (trim untrimmed) := by
  obtain ⟨-, keyId, hkey, -, hcases⟩ := asSubject_cases h
  have hkeyId : (value.get (js "keyId") = JsValue.string keyId ∧ js "keyId" ≠ js "writerId") := ⟨hkey, by decide⟩
  rcases hcases with ⟨publicKey, rfl, hpublic⟩ | ⟨reasonCode, rfl, hreason⟩ | ⟨writerId, rfl, hwriter⟩ |
    ⟨writerId, reasonCode, rfl, hwriter, hreason⟩
  · intro field hfield
    simp only [TrustSubject.fields, List.mem_cons, List.not_mem_nil, or_false] at hfield
    rcases hfield with rfl | rfl
    · exact .inl hkeyId
    · exact .inl ⟨hpublic, show js "publicKey" ≠ js "writerId" by decide⟩
  · intro field hfield
    simp only [TrustSubject.fields, List.mem_cons, List.not_mem_nil, or_false] at hfield
    rcases hfield with rfl | rfl
    · exact .inl hkeyId
    · exact .inl ⟨hreason, show js "reasonCode" ≠ js "writerId" by decide⟩
  · intro field hfield
    simp only [TrustSubject.fields, List.mem_cons, List.not_mem_nil, or_false] at hfield
    rcases hfield with rfl | rfl
    · exact .inr ⟨rfl, writerId, hwriter, rfl⟩
    · exact .inl hkeyId
  · intro field hfield
    simp only [TrustSubject.fields, List.mem_cons, List.not_mem_nil, or_false] at hfield
    rcases hfield with rfl | rfl | rfl
    · exact .inr ⟨rfl, writerId, hwriter, rfl⟩
    · exact .inl hkeyId
    · exact .inl ⟨hreason, show js "reasonCode" ≠ js "writerId" by decide⟩

theorem nodup_subjectKeys (subject : TrustSubject) : (subject.fields.map Prod.fst).Nodup := by
  cases subject with
  | keyAdd keyId publicKey => exact show [js "keyId", js "publicKey"].Nodup by decide
  | keyRevoke keyId reasonCode => exact show [js "keyId", js "reasonCode"].Nodup by decide
  | writerBindAdd writerId keyId => exact show [js "writerId", js "keyId"].Nodup by decide
  | writerBindRevoke writerId keyId reasonCode =>
      exact show [js "writerId", js "keyId", js "reasonCode"].Nodup by decide

theorem exists_canonical_subject (subject : TrustSubject) :
    ∃ canonical, canonicalFields subject.fields = .ok canonical := by
  cases subject with
  | keyAdd keyId publicKey => exact ⟨_, rfl⟩
  | keyRevoke keyId reasonCode => exact ⟨_, rfl⟩
  | writerBindAdd writerId keyId => exact ⟨_, rfl⟩
  | writerBindRevoke writerId keyId reasonCode => exact ⟨_, rfl⟩

theorem exists_canonicalFields_of_data {fields : List (JsString × JsValue)} {data : Json}
    (h : canonicalData (.object fields) = .ok data) : ∃ canonical, canonicalFields fields = .ok canonical := by
  rw [canonicalData] at h
  cases hfields : canonicalFields fields with
  | error err =>
      rw [hfields] at h
      cases h
  | ok canonical => exact ⟨canonical, rfl⟩

/-- The schema leaves a subject as it is when there are no other keys and no spaces around the writer id. -/
theorem subject_agrees_iff {recordType : JsString} {value : JsValue} {data : Json} {subject : TrustSubject}
    (h : asSubject recordType value = some subject) (hdata : canonicalData value = .ok data) :
    canonicalField value = canonicalField (.object subject.fields) ↔
      (∀ key, value.get key ≠ .undefined → key ∈ subject.fields.map Prod.fst) ∧
        ∀ writerId, value.get (js "writerId") = .string writerId → js "writerId" ∈ subject.fields.map Prod.fst →
          trim writerId = writerId := by
  obtain ⟨-, keyId, hkey, -⟩ := asSubject_cases h
  have hobject : ∃ fields, value = .object fields := exists_fields_of_get (by rw [hkey]; nofun)
  obtain ⟨fields, rfl⟩ := hobject
  obtain ⟨canonical, hcanonical⟩ := exists_canonicalFields_of_data hdata
  obtain ⟨canonical', hcanonical'⟩ := exists_canonical_subject subject
  rw [canonicalField_object, canonicalField_object, Option.some.injEq,
    canonicalData_object_eq_iff hcanonical hcanonical', fields_agree_iff _ (nodup_subjectKeys subject)]
  refine and_congr_right fun _ => ?_
  constructor
  · intro hsame writerId hwriter hmem
    obtain ⟨field, hfield, hname⟩ := List.mem_map.mp hmem
    rcases asSubject_field h field hfield with ⟨-, hne⟩ | ⟨-, untrimmed, hget, hvalue⟩
    · exact absurd hname hne
    · have hagree := hsame field hfield
      rw [hname, hwriter] at hagree
      rw [hwriter, JsValue.string.injEq] at hget
      rw [hvalue, canonicalField_string_inj, ← hget] at hagree
      exact hagree.symm
  · intro htrim field hfield
    rcases asSubject_field h field hfield with ⟨hget, -⟩ | ⟨hname, untrimmed, hget, hvalue⟩
    · rw [hget]
    · rw [hname, hget, hvalue, htrim untrimmed hget (List.mem_map.mpr ⟨field, hfield, hname⟩)]

theorem get_filter_keys (p : JsString → Bool) (fields : List (JsString × JsValue)) (key : JsString) :
    (JsValue.object (fields.filter fun field => p field.1)).get key =
      if p key then (JsValue.object fields).get key else .undefined := by
  induction fields with
  | nil => simp [JsValue.get]
  | cons field rest ih =>
      obtain ⟨k, v⟩ := field
      by_cases hk : p k = true
      · rw [List.filter_cons, if_pos hk, get_cons, get_cons, ih]
        by_cases hkey : k = key
        · subst hkey
          simp [hk]
        · simp [hkey]
      · rw [List.filter_cons, if_neg hk, get_cons, ih]
        by_cases hkey : k = key
        · subst hkey
          simp [hk]
        · simp [hkey]

theorem canonicalFields_filter {fields : List (JsString × JsValue)} {canonical : List (JsString × Json)}
    (h : canonicalFields fields = .ok canonical)
    (p : JsString × JsValue → Bool) : ∃ kept, canonicalFields (fields.filter p) = .ok kept := by
  have hall := exists_canonicalFields_iff.mp ⟨canonical, h⟩
  exact exists_canonicalFields_iff.mpr fun field hfield => hall field (List.mem_filter.mp hfield).1

theorem decimal_ne_protoKey (n : Nat) : decimal n ≠ protoKey := by
  intro h
  have hdigit : isDigit 95 = true := isDigit_of_mem_decimal (n := n) (h ▸ (by decide : (95 : CodeUnit) ∈ protoKey))
  exact absurd hdigit (by decide)

theorem filter_bytesFields (data : List UInt8) :
    (bytesFields data).filter (fun field => field.1 ≠ protoKey) = bytesFields data := by
  refine List.filter_eq_self.mpr fun field hfield => ?_
  obtain ⟨item, -, rfl⟩ := List.mem_map.mp hfield
  exact decide_eq_true (decimal_ne_protoKey item.2)

theorem exists_canonical_metadata {value : JsValue} {metadata : List (JsString × JsValue)}
    (h : asMetadata value = some metadata) (hdata : ∃ data, canonicalData value = .ok data) :
    ∃ canonical, canonicalFields metadata = .ok canonical := by
  obtain ⟨data, hdata⟩ := hdata
  cases value with
  | undefined =>
      cases h
      exact ⟨_, rfl⟩
  | object fields =>
      obtain ⟨canonical, hcanonical⟩ := exists_canonicalFields_of_data hdata
      cases h
      exact canonicalFields_filter hcanonical _
  | bytes bytes =>
      cases h
      dsimp only
      rw [filter_bytesFields]
      exact ⟨_, canonicalFields_bytesFields bytes⟩
  | _ => cases h

/-- The schema leaves `meta` as it is when it is there, without a key `__proto__`. -/
theorem metadata_agrees_iff {value : JsValue} {metadata : List (JsString × JsValue)}
    (h : asMetadata value = some metadata) (hdata : ∃ data, canonicalData value = .ok data) :
    canonicalField value = canonicalField (.object metadata) ↔
      value ≠ .undefined ∧ value.get protoKey = .undefined := by
  cases value with
  | undefined =>
      refine iff_of_false (fun heq => ?_) fun hdefined => hdefined.1 rfl
      cases heq
  | object fields =>
      obtain ⟨data, hdata⟩ := hdata
      obtain ⟨canonical, hcanonical⟩ := exists_canonicalFields_of_data hdata
      cases h
      obtain ⟨kept, hkept⟩ := canonicalFields_filter hcanonical fun field => field.1 ≠ protoKey
      rw [canonicalField_object, canonicalField_object, Option.some.injEq, canonicalData_object_eq_iff hcanonical hkept]
      constructor
      · intro hsame
        have hproto := hsame protoKey
        rw [get_filter_keys fun key => decide (key ≠ protoKey)] at hproto
        refine ⟨JsValue.noConfusion, canonicalField_eq_none_iff.mp (hproto.trans ?_)⟩
        simp [canonicalField, isUndefined]
      · rintro ⟨-, hnone⟩ key
        rw [get_filter_keys fun key => decide (key ≠ protoKey)]
        by_cases hkey : key = protoKey
        · rw [hkey, hnone]
          simp
        · simp [hkey]
  | bytes bytes =>
      cases h
      refine iff_of_true ?_ ⟨JsValue.noConfusion, rfl⟩
      dsimp only
      rw [filter_bytesFields, canonicalField_object, canonicalData, canonicalFields_bytesFields]
      rfl
  | _ => cases h

/-! ### The signed text -/

def recordKeys : List JsString :=
  [js "schemaVersion", js "recordType", js "recordId", js "issuerKeyId", js "issuedAt", js "prev", js "subject",
    js "meta"]

theorem keys_unsignedFields (record : TrustRecord) : record.unsignedFields.map Prod.fst = recordKeys := rfl

theorem nodup_recordKeys : recordKeys.Nodup := by decide +kernel

theorem signature_not_mem_recordKeys : js "signature" ∉ recordKeys := by decide +kernel

theorem unsigned_value (record : TrustRecord) :
    unsignedRecordForSignature record.value = .object record.unsignedFields := by
  have hkept : ∀ field ∈ record.unsignedFields, (!([js "signature"].contains field.1)) = true := by
    intro field hfield
    have hmem : field.1 ∈ recordKeys := keys_unsignedFields record ▸ List.mem_map_of_mem hfield
    have hne : field.1 ≠ js "signature" := fun heq => signature_not_mem_recordKeys (heq ▸ hmem)
    simp [hne]
  rw [unsignedRecordForSignature, TrustRecord.value, withoutKeys, List.filter_append, List.filter_eq_self.mpr hkept]
  simp

theorem exists_data_of_get {fields : List (JsString × JsValue)} {canonical : List (JsString × Json)}
    (h : canonicalFields fields = .ok canonical) (key : JsString) : ∃ data, canonicalData ((JsValue.object fields).get key) = .ok data := by
  have hfield := (canonicalFields_spec h).2 key
  by_cases hdefined : (JsValue.object fields).get key = .undefined
  · rw [hdefined]
    exact ⟨.null, rfl⟩
  · rw [canonicalField_of_defined hdefined] at hfield
    obtain ⟨data, -, hdata⟩ := Option.map_eq_some_iff.mp hfield.symm
    exact ⟨data, hdata.symm⟩

theorem exists_canonical_record (record : TrustRecord) {canonical : List (JsString × Json)}
    (h : canonicalFields record.metadata = .ok canonical) :
    ∃ canonical, canonicalFields record.unsignedFields = .ok canonical := by
  obtain ⟨subject, hsubject⟩ := exists_canonical_subject record.subject
  refine exists_canonicalFields_iff.mpr fun field hfield => ?_
  simp only [TrustRecord.unsignedFields, List.mem_cons, List.not_mem_nil, or_false] at hfield
  rcases hfield with rfl | rfl | rfl | rfl | rfl | rfl | rfl | rfl
  · exact ⟨_, rfl⟩
  · exact ⟨_, rfl⟩
  · exact ⟨_, rfl⟩
  · exact ⟨_, rfl⟩
  · exact ⟨_, rfl⟩
  · cases record.prev with
    | none => exact ⟨_, rfl⟩
    | some recordId => exact ⟨_, rfl⟩
  · exact ⟨_, canonicalData_object hsubject⟩
  · exact ⟨_, canonicalData_object h⟩

theorem signaturePayload_of_canonical (text : TrustText) {record : JsValue}
    {fields : List (JsString × JsValue)} {canonical : List (JsString × Json)}
    (hrecord : unsignedRecordForSignature record = .object fields) (h : canonicalFields fields = .ok canonical) :
    text.signaturePayload record = .ok (js "git-warp:trust-sign:v1\x00" ++ (Json.object canonical).print text.number) := by
  rw [TrustText.signaturePayload, TrustText.canonicalStringify, hrecord, canonicalData_object h]
  rfl

theorem exists_recordIdPayload (text : TrustText) (record : TrustRecord) {canonical : List (JsString × Json)}
    (h : canonicalFields record.metadata = .ok canonical) : ∃ payload, text.recordIdPayload record.value = .ok payload := by
  obtain ⟨canonical, hcanonical⟩ := exists_canonical_record record h
  obtain ⟨kept, hkept⟩ := canonicalFields_filter hcanonical fun field =>
    !([js "recordId", js "signature"].contains field.1)
  have hunsigned : unsignedRecordForId record.value = .object (record.unsignedFields.filter fun field =>
      !([js "recordId", js "signature"].contains field.1)) := by
    rw [unsignedRecordForId, TrustRecord.value, withoutKeys, List.filter_append,
      List.filter_cons_of_neg (by simp), List.filter_nil, List.append_nil]
  rw [TrustText.recordIdPayload, TrustText.canonicalStringify, hunsigned, canonicalData_object hkept]
  exact ⟨_, rfl⟩

theorem exists_canonical_of_signaturePayload {text : TrustText} {record : JsValue} {payload : JsString}
    {fields : List (JsString × JsValue)} (hrecord : unsignedRecordForSignature record = .object fields)
    (h : text.signaturePayload record = .ok payload) : ∃ canonical, canonicalFields fields = .ok canonical := by
  rw [TrustText.signaturePayload, TrustText.canonicalStringify, hrecord] at h
  cases hdata : canonicalData (.object fields) with
  | error err =>
      rw [hdata] at h
      cases h
  | ok data => exact exists_canonicalFields_of_data hdata

/-- The text checked is the text signed exactly for a record written as the schema writes it. -/
theorem signaturePayload_value_iff {text : TrustText} (hnumber : Json.PrintsNumbers text.number) {schema : TrustSchema} {raw : JsValue}
    {record : TrustRecord} (hparse : schema.safeParse raw = some record) {payload : JsString}
    (hpayload : text.signaturePayload raw = .ok payload) :
    text.signaturePayload record.value = .ok payload ↔ WrittenPlainly raw record := by
  obtain ⟨hreads, -⟩ := readsAs_of_safeParse hparse
  have hobject : raw.get (js "recordId") ≠ .undefined := by
    rw [hreads.recordId]
    nofun
  obtain ⟨fields, rfl⟩ := exists_fields_of_get hobject
  have hunsigned : unsignedRecordForSignature (.object fields) =
      .object (fields.filter fun field => !([js "signature"].contains field.1)) := rfl
  have hget : ∀ key, key ≠ js "signature" →
      (JsValue.object (fields.filter fun field => !([js "signature"].contains field.1))).get key =
        (JsValue.object fields).get key := by
    intro key hkey
    rw [get_filter_keys fun key => !([js "signature"].contains key)]
    simp [hkey]
  have hsignature :
      (JsValue.object (fields.filter fun field => !([js "signature"].contains field.1))).get (js "signature") =
        .undefined := by
    rw [get_filter_keys fun key => !([js "signature"].contains key)]
    simp
  obtain ⟨canonical, hcanonical⟩ := exists_canonical_of_signaturePayload hunsigned hpayload
  have hdata : ∀ key, key ≠ js "signature" → ∃ data, canonicalData ((JsValue.object fields).get key) = .ok data :=
    fun key hkey => hget key hkey ▸ exists_data_of_get hcanonical key
  have hmetadata := hdata (js "meta") (by decide)
  obtain ⟨data, hsubject⟩ := hdata (js "subject") (by decide)
  obtain ⟨metadata, hmeta⟩ := exists_canonical_metadata hreads.metadata hmetadata
  obtain ⟨canonical', hcanonical'⟩ := exists_canonical_record record hmeta
  have hsame : text.signaturePayload record.value = .ok payload ↔ canonical = canonical' := by
    rw [signaturePayload_of_canonical text hunsigned hcanonical, Except.ok.injEq] at hpayload
    subst hpayload
    rw [signaturePayload_of_canonical text (unsigned_value record) hcanonical', Except.ok.injEq,
      List.append_cancel_left_eq]
    constructor
    · intro hprint
      have hobject := Json.print_injective hnumber hprint
      exact (Json.object.inj hobject).symm
    · rintro rfl
      rfl
  rw [hsame, canonicalFields_eq_iff hcanonical hcanonical',
    fields_agree_iff _ (keys_unsignedFields record ▸ nodup_recordKeys)]
  have hsubjects := subject_agrees_iff hreads.subject hsubject
  have hmetadatas := metadata_agrees_iff hreads.metadata hmetadata
  constructor
  · rintro ⟨hknown, hagree⟩
    have hsubject' := hagree (js "subject", .object record.subject.fields) (by simp [TrustRecord.unsignedFields])
    have hmeta' := hagree (js "meta", .object record.metadata) (by simp [TrustRecord.unsignedFields])
    rw [hget _ (show js "subject" ≠ js "signature" by decide)] at hsubject'
    rw [hget _ (show js "meta" ≠ js "signature" by decide)] at hmeta'
    obtain ⟨hsubjectKnown, htrimmed⟩ := hsubjects.mp hsubject'
    refine ⟨fun key hdefined => ?_, hmetadatas.mp hmeta', hsubjectKnown, htrimmed⟩
    by_cases hkey : key = js "signature"
    · exact .inr hkey
    · exact .inl (hknown key (by rwa [hget key hkey]))
  · rintro ⟨hknown, hmeta', hsubjectKnown, htrimmed⟩
    refine ⟨fun key hdefined => ?_, fun field hfield => ?_⟩
    · have hkey : key ≠ js "signature" := by
        rintro rfl
        exact hdefined hsignature
      rw [hget key hkey] at hdefined
      exact (hknown key hdefined).resolve_right hkey
    · have hkey : field.1 ≠ js "signature" := fun heq =>
        signature_not_mem_recordKeys (heq ▸ keys_unsignedFields record ▸ List.mem_map_of_mem hfield)
      rw [hget _ hkey]
      simp only [TrustRecord.unsignedFields, List.mem_cons, List.not_mem_nil, or_false] at hfield
      rcases hfield with rfl | rfl | rfl | rfl | rfl | rfl | rfl | rfl
      · exact congrArg canonicalField hreads.version
      · exact congrArg canonicalField hreads.recordType
      · exact congrArg canonicalField hreads.recordId
      · exact congrArg canonicalField hreads.issuerKeyId
      · exact congrArg canonicalField hreads.issuedAt
      · exact congrArg canonicalField hreads.prev
      · exact hsubjects.mpr ⟨hsubjectKnown, htrimmed⟩
      · exact hmetadatas.mpr hmeta'

/-! ### Signatures -/

structure TrustCrypto where
  /-- `verifySignature` of Ed25519. -/
  verifySignature : JsString → JsString → JsString → Except JsError Bool
  computeKeyFingerprint : JsString → Except JsError JsString

/-- A signature verifies over one text only. -/
def TrustCrypto.Binding (crypto : TrustCrypto) : Prop :=
  ∀ publicKey publicKey' sig payload payload', crypto.verifySignature publicKey sig payload = .ok true →
    crypto.verifySignature publicKey' sig payload' = .ok true → payload = payload'

/-- The verifier that `evaluateTrust` hands to `buildState`. -/
def TrustCrypto.verify (crypto : TrustCrypto) (text : TrustText) (record : TrustRecord) (publicKey : JsString) :
    Except JsError Bool := do
  crypto.verifySignature publicKey record.sig (← text.signaturePayload record.value)

def TrustCrypto.options (crypto : TrustCrypto) (text : TrustText) : TrustBuildOptions :=
  ⟨some (crypto.verify text), some crypto.computeKeyFingerprint⟩

/-- The signature of a stored record is checked over what its signer printed: a signature over that text under the
issuer's key passes, and no record with another content verifies with the same signature. -/
structure CheckedAsSigned (schema : TrustSchema) (text : TrustText) (crypto : TrustCrypto) (raw : JsValue)
    (record : TrustRecord) (payload : JsString) : Prop where
  samePayload : text.signaturePayload record.value = .ok payload
  accepted : ∀ state publicKey, issuerPublicKey state record = some publicKey →
    crypto.verifySignature publicKey record.sig payload = .ok true →
    signatureError (crypto.options text) state record = none
  unshared : ∀ other record' publicKey publicKey', schema.safeParse other = some record' →
    text.verifyRecordId raw = .ok true → text.verifyRecordId other = .ok true →
    text.recordIdPayload raw ≠ text.recordIdPayload other → record.sig = record'.sig →
    ¬ (crypto.verify text record publicKey = .ok true ∧ crypto.verify text record' publicKey' = .ok true)

theorem signaturePayload_of_verify {crypto : TrustCrypto} {text : TrustText} {record : TrustRecord}
    {publicKey : JsString} (h : crypto.verify text record publicKey = .ok true) :
    ∃ payload, text.signaturePayload record.value = .ok payload ∧
      crypto.verifySignature publicKey record.sig payload = .ok true := by
  unfold TrustCrypto.verify at h
  cases hpayload : text.signaturePayload record.value with
  | error err =>
      rw [hpayload] at h
      cases h
  | ok payload =>
      rw [hpayload] at h
      exact ⟨payload, rfl, h⟩

theorem recordId_of_payload {text : TrustText} (hnumber : Json.PrintsNumbers text.number) {record record' : TrustRecord}
    {payload : JsString} (h : text.signaturePayload record.value = .ok payload)
    (h' : text.signaturePayload record'.value = .ok payload) : record.recordId = record'.recordId := by
  obtain ⟨canonical, hcanonical⟩ := exists_canonical_of_signaturePayload (unsigned_value record) h
  obtain ⟨canonical', hcanonical'⟩ := exists_canonical_of_signaturePayload (unsigned_value record') h'
  rw [signaturePayload_of_canonical text (unsigned_value record) hcanonical, Except.ok.injEq] at h
  rw [signaturePayload_of_canonical text (unsigned_value record') hcanonical', Except.ok.injEq, ← h,
    List.append_cancel_left_eq] at h'
  have hobject := Json.print_injective hnumber h'
  have hsame := (canonicalFields_eq_iff hcanonical' hcanonical).mp (Json.object.inj hobject) (js "recordId")
  have hread : ∀ record : TrustRecord, (JsValue.object record.unsignedFields).get (js "recordId") =
      .string record.recordId := by
    intro record
    rw [TrustRecord.unsignedFields, get_cons, if_neg (by decide), get_cons, if_neg (by decide), get_cons, if_pos rfl]
  rw [hread, hread] at hsame
  exact (canonicalField_string_inj.mp hsame).symm

theorem recordIdPayload_of_verifyRecordId {schema : TrustSchema} {text : TrustText} {raw : JsValue} {record : TrustRecord}
    (hparse : schema.safeParse raw = some record) (h : text.verifyRecordId raw = .ok true) :
    ∃ payload, text.recordIdPayload raw = .ok payload ∧ record.recordId = text.sha256 payload := by
  unfold TrustText.verifyRecordId TrustText.computeRecordId at h
  cases hpayload : text.recordIdPayload raw with
  | error err =>
      rw [hpayload] at h
      cases h
  | ok payload =>
      rw [hpayload, (readsAs_of_safeParse hparse).1.recordId] at h
      simp only [bind, Except.bind, pure, Except.pure, Except.ok.injEq, decide_eq_true_eq, asString,
        Option.some.injEq] at h
      exact ⟨payload, rfl, h⟩

theorem signatureError_of_verify {crypto : TrustCrypto} {text : TrustText} {state : TrustState} {record : TrustRecord}
    {publicKey : JsString} (hissuer : issuerPublicKey state record = some publicKey)
    (hverify : crypto.verify text record publicKey = .ok true) :
    signatureError (crypto.options text) state record = none := by
  simp only [signatureError, TrustCrypto.options, hissuer, hverify]

/-- The signature is checked over what was signed exactly for a record written as the schema writes it. -/
theorem checkedAsSigned_iff {schema : TrustSchema} {text : TrustText} {crypto : TrustCrypto} (hnumber : Json.PrintsNumbers text.number)
    (hhash : Function.Injective text.sha256) (hbinding : crypto.Binding) {raw : JsValue} {record : TrustRecord}
    (hparse : schema.safeParse raw = some record) {payload : JsString}
    (hpayload : text.signaturePayload raw = .ok payload) :
    CheckedAsSigned schema text crypto raw record payload ↔ WrittenPlainly raw record := by
  rw [← signaturePayload_value_iff hnumber hparse hpayload]
  constructor
  · exact fun h => h.samePayload
  · intro hsame
    refine ⟨hsame, fun state publicKey hissuer hsigned => signatureError_of_verify hissuer ?_, ?_⟩
    · rw [TrustCrypto.verify, hsame]
      exact hsigned
    · rintro other record' publicKey publicKey' hparse' hid hid' hdiffer hsig ⟨hverify, hverify'⟩
      obtain ⟨text1, htext1, hsigned⟩ := signaturePayload_of_verify hverify
      obtain ⟨text2, htext2, hsigned'⟩ := signaturePayload_of_verify hverify'
      rw [← hsig] at hsigned'
      have heq := hbinding _ _ _ _ _ hsigned hsigned'
      subst heq
      obtain ⟨idText, hidText, hrecordId⟩ := recordIdPayload_of_verifyRecordId hparse hid
      obtain ⟨idText', hidText', hrecordId'⟩ := recordIdPayload_of_verifyRecordId hparse' hid'
      have hids := recordId_of_payload hnumber htext1 htext2
      rw [hrecordId, hrecordId'] at hids
      rw [hidText, hidText', hhash hids] at hdiffer
      exact hdiffer rfl

/-! ### Records with and without `meta` -/

def rootKeyId : JsString :=
  js "ed25519:" ++ hexText 64 0x139e3940e64b5491722088d9a0d741628fc826e09475d341a780acde3c4b8070

def rootPublicKey : JsString := js "O2onvM62pC1io6jQKm8Nc2UyFXcd4kOmOsBIoYtZ2ik="

/-- The first record of a chain: the root key adds itself. -/
def rootRecord : TrustRecord where
  recordId := hexText 64 0x82e5b7b635ff6ebdd761c825a6e2b4af9871e56d410ba90f3a779d3dd22b0afa
  issuerKeyId := rootKeyId
  issuedAt := js "2026-01-01T00:00:00Z"
  prev := none
  subject := .keyAdd rootKeyId rootPublicKey
  metadata := []
  sig := js "1ZFLTrJLxnIKITFETSgXQOGozDi3RvtjFTU6prDKDdApKJ379IJ1lfVC/1ynOVLPl3tCyss+f5o6rXAZGJqCCA=="

/-- The root record as a signer stores it who writes no `meta`. -/
def bareRecord : TrustRecord :=
  { rootRecord with
    recordId := hexText 64 0x2321f3db1b713fc371a47c432825dc1473037193a205f2d724156cc205a62e71
    sig := js "199CEl3eK/BOedCk8M+QcRTPjvHbASDNgpFx2qtQAUM+E4orZZLsLvjINVnCxiD9EPuVJbiMNLu/K110bX64Bg==" }

def bareValue : JsValue := withoutKeys [js "meta"] bareRecord.value

def datetimeSchema : TrustSchema := ⟨fun text => text = js "2026-01-01T00:00:00Z", fun _ => js "Invalid input"⟩

theorem isRecordId_hexText (n : Nat) : isRecordId (hexText 64 n) = true := by
  rw [isRecordId, length_hexText, List.all_eq_true.mpr fun _ hc => isHexDigit_of_mem_hexText hc]
  rfl

theorem isKeyId_hexText (n : Nat) : isKeyId (js "ed25519:" ++ hexText 64 n) = true := by
  have hdrop : (js "ed25519:" ++ hexText 64 n).drop 8 = hexText 64 n := by
    rw [js_ofList]
    rfl
  rw [isKeyId, hdrop, length_hexText, List.all_eq_true.mpr fun _ hc => isHexDigit_of_mem_hexText hc]
  simp

theorem asSubject_rootKey : asSubject (js "KEY_ADD") (.object [(js "keyId", .string rootKeyId),
    (js "publicKey", .string rootPublicKey)]) = some (.keyAdd rootKeyId rootPublicKey) := by
  have hpublic : isNonEmpty rootPublicKey = true := by
    rw [rootPublicKey, js_ofList]
    rfl
  have hkey : isKeyId rootKeyId = true := isKeyId_hexText _
  rw [asSubject, if_pos rfl, get_cons, if_pos rfl, asStringThat_string hkey, get_cons, if_neg (by decide), get_cons,
    if_pos rfl, asStringThat_string hpublic]
  rfl

theorem asSignature_value {sig : JsString} (h : sig ≠ []) :
    asSignature (.object [(js "alg", .string (js "ed25519")), (js "sig", .string sig)]) = some sig := by
  have hsig : (JsValue.object [(js "alg", .string (js "ed25519")), (js "sig", .string sig)]).get (js "sig") =
      .string sig := by
    rw [get_cons, if_neg (by decide), get_cons, if_pos rfl]
  rw [asSignature, get_cons, if_pos rfl, hsig, asStringThat_string (decide_eq_true h)]
  rfl

theorem recordId_value (record : TrustRecord) : record.value.get (js "recordId") = .string record.recordId := rfl

theorem signature_value (record : TrustRecord) : record.value.get (js "signature") =
    .object [(js "alg", .string (js "ed25519")), (js "sig", .string record.sig)] := rfl

theorem readsAs_value {record : TrustRecord}
    (hsubject : asSubject record.subject.recordType (.object record.subject.fields) = some record.subject)
    (hmetadata : ∀ field ∈ record.metadata, field.1 ≠ protoKey) (hsig : record.sig ≠ []) :
    ReadsAs record.value record := by
  have hmeta : record.value.get (js "meta") = .object record.metadata := rfl
  have hkept : asMetadata (.object record.metadata) = some record.metadata :=
    congrArg some (List.filter_eq_self.mpr fun field hfield => decide_eq_true (hmetadata field hfield))
  refine ⟨rfl, recordId_value record, rfl, rfl, rfl, rfl, hsubject, ?_, ?_⟩
  · rw [hmeta, hkept]
  · rw [signature_value]
    exact asSignature_value hsig

theorem sig_rootRecord : rootRecord.sig ≠ [] := by
  dsimp only [rootRecord]
  rw [js_ofList]
  exact List.cons_ne_nil _ _

theorem readsAs_rootRecord : ReadsAs rootRecord.value rootRecord :=
  readsAs_value asSubject_rootKey (List.forall_mem_nil _) sig_rootRecord

theorem readsAs_bareValue : ReadsAs bareValue bareRecord := by
  have hsig : bareRecord.sig ≠ [] := by
    dsimp only [bareRecord]
    rw [js_ofList]
    exact List.cons_ne_nil _ _
  exact ⟨rfl, rfl, rfl, rfl, rfl, rfl, asSubject_rootKey, rfl, asSignature_value hsig⟩

theorem isDatetime_issuedAt : datetimeSchema.isDatetime rootRecord.issuedAt = true := by
  simp only [datetimeSchema, rootRecord, decide_true]

theorem valid_rootRecord : datetimeSchema.Valid rootRecord :=
  ⟨isRecordId_hexText _, isKeyId_hexText _, isDatetime_issuedAt, nofun⟩

theorem valid_bareRecord : datetimeSchema.Valid bareRecord :=
  ⟨isRecordId_hexText _, isKeyId_hexText _, isDatetime_issuedAt, nofun⟩

/-- Integers as `JSON.stringify` prints them; the text of another number tells it apart. -/
def integerText (value : Rat) : JsString :=
  if value.den = 1 then decimalInt value.num else decimalInt value.num ++ 69 :: decimal value.den

theorem isNumberUnit_of_mem_decimalInt {n : Int} {c : CodeUnit} (h : c ∈ decimalInt n) :
    Json.isNumberUnit c = true ∧ c ≠ 69 := by
  have hdigit : ∀ d, isDigit d = true → Json.isNumberUnit d = true ∧ d ≠ 69 := by
    intro d hd
    refine ⟨by rw [Json.isNumberUnit, hd, Bool.true_or], ?_⟩
    rintro rfl
    exact absurd hd (by decide)
  cases n with
  | ofNat n => exact hdigit c (isDigit_of_mem_decimal h)
  | negSucc n =>
      rcases List.mem_cons.mp h with rfl | h
      · decide
      · exact hdigit c (isDigit_of_mem_decimal h)

theorem integerText_printsNumbers : Json.PrintsNumbers integerText := by
  have hnot : ∀ n : Int, 69 ∉ decimalInt n := fun n h => (isNumberUnit_of_mem_decimalInt h).2 rfl
  have hint : ∀ n : Int, decimalInt n ≠ [] := by
    intro n
    cases n with
    | ofNat n => exact decimal_ne_nil n
    | negSucc n => exact List.cons_ne_nil _ _
  refine ⟨fun a b h => ?_, fun value => ?_, fun value c hc => ?_⟩
  · unfold integerText at h
    split at h
    · rename_i ha
      split at h
      · rename_i hb
        exact Rat.ext (decimalInt_injective h) (ha.trans hb.symm)
      · exact absurd (h ▸ List.mem_append_right _ List.mem_cons_self) (hnot a.num)
    · split at h
      · exact absurd (h ▸ List.mem_append_right _ List.mem_cons_self) (hnot b.num)
      · obtain ⟨hnum, hden⟩ := field_inj (hnot _) (hnot _) h
        exact Rat.ext (decimalInt_injective hnum) (decimal_injective hden)
  · unfold integerText
    split
    · exact hint value.num
    · exact List.append_ne_nil_of_left_ne_nil (hint value.num) _
  · unfold integerText at hc
    split at hc
    · exact (isNumberUnit_of_mem_decimalInt hc).1
    · rcases List.mem_append.mp hc with hc | hc
      · exact (isNumberUnit_of_mem_decimalInt hc).1
      · rcases List.mem_cons.mp hc with rfl | hc
        · decide
        · exact (isNumberUnit_of_mem_decimalInt (n := value.den) hc).1

/-- The text that is printed, where nothing is thrown. -/
def textOf (payload : Except JsError JsString) : JsString := payload.toOption.getD []

/-- What the id of a record is computed over. -/
def recordIdText (record : JsValue) : JsString :=
  textOf (({ number := integerText, sha256 := fun text => text } : TrustText).recordIdPayload record)

/-- Printing, with the digest of one record's text; other digests are longer. -/
def recordText (record : JsValue) (recordId : JsString) : TrustText :=
  { number := integerText
    sha256 := withValue (fun text => List.replicate 65 0 ++ text) (recordIdText record) recordId }

theorem recordText_sha256_injective (record : JsValue) {recordId : JsString} (h : isRecordId recordId = true) :
    Function.Injective (recordText record recordId).sha256 := by
  refine withValue_injective (fun text text' heq => List.append_cancel_left heq) fun text heq => ?_
  have hlength := congrArg List.length heq
  simp only [isRecordId, Bool.and_eq_true, decide_eq_true_eq] at h
  rw [List.length_append, List.length_replicate, h.1] at hlength
  omega

theorem verifyRecordId_of_digest {text : TrustText} (hnumber : text.number = integerText) {record : TrustRecord}
    {canonical : List (JsString × Json)} (h : canonicalFields record.metadata = .ok canonical)
    (hdigest : text.sha256 (recordIdText record.value) = record.recordId) :
    text.verifyRecordId record.value = .ok true := by
  obtain ⟨payload, hpayload⟩ := exists_recordIdPayload { number := integerText, sha256 := fun text => text } record h
  have hpayload' : text.recordIdPayload record.value = .ok payload := by
    rw [← hpayload, TrustText.recordIdPayload, TrustText.recordIdPayload, TrustText.canonicalStringify,
      TrustText.canonicalStringify, hnumber]
  rw [recordIdText, hpayload] at hdigest
  rw [TrustText.verifyRecordId, TrustText.computeRecordId, hpayload', recordId_value]
  simp only [bind, Except.bind, pure, Except.pure, show text.sha256 payload = record.recordId from hdigest, asString,
    decide_true]

theorem sha256_recordText (record : TrustRecord) :
    (recordText record.value record.recordId).sha256 (recordIdText record.value) = record.recordId :=
  withValue_self _ _ _

/-- The digest is that of the record's own text. -/
theorem verifyRecordId_recordText (record : TrustRecord) {canonical : List (JsString × Json)}
    (h : canonicalFields record.metadata = .ok canonical) :
    (recordText record.value record.recordId).verifyRecordId record.value = .ok true :=
  verifyRecordId_of_digest rfl h (sha256_recordText record)

/-- A verifier that knows one signature of the root key. -/
def oneSignature (sig payload : JsString) : TrustCrypto where
  verifySignature publicKey sig' payload' := .ok (publicKey = rootPublicKey && sig' = sig && payload' = payload)
  computeKeyFingerprint publicKey := if publicKey = rootPublicKey then .ok rootKeyId else thrown "Invalid key"

theorem oneSignature_binding (sig payload : JsString) : (oneSignature sig payload).Binding := by
  have hknown : ∀ publicKey sig' payload',
      (oneSignature sig payload).verifySignature publicKey sig' payload' = .ok true → payload' = payload := by
    intro publicKey sig' payload' h
    simp only [oneSignature, Except.ok.injEq, Bool.and_eq_true, decide_eq_true_eq] at h
    exact h.2
  intro publicKey publicKey' sig' payload1 payload2 h h'
  rw [hknown _ _ _ h, hknown _ _ _ h']

theorem signaturePayload_textOf {text : TrustText} {record : JsValue} {payload : JsString}
    (h : text.signaturePayload record = .ok payload) :
    text.signaturePayload record = .ok (textOf (text.signaturePayload record)) := by
  rw [h]
  rfl

theorem signaturePayload_rootRecord (text : TrustText) :
    text.signaturePayload rootRecord.value = .ok (textOf (text.signaturePayload rootRecord.value)) := by
  obtain ⟨canonical, hcanonical⟩ := exists_canonical_record rootRecord rfl
  exact signaturePayload_textOf (signaturePayload_of_canonical text (unsigned_value rootRecord) hcanonical)

theorem checkedAsSigned_rootRecord :
    let text := recordText rootRecord.value rootRecord.recordId
    let payload := textOf (text.signaturePayload rootRecord.value)
    CheckedAsSigned datetimeSchema text (oneSignature rootRecord.sig payload) rootRecord.value rootRecord payload ↔
      WrittenPlainly rootRecord.value rootRecord :=
  checkedAsSigned_iff integerText_printsNumbers (recordText_sha256_injective _ valid_rootRecord.recordId)
    (oneSignature_binding _ _) (safeParse_of_readsAs readsAs_rootRecord valid_rootRecord)
    (signaturePayload_rootRecord _)

/-- Every record of the schema is checked over what was signed. -/
def ChecksSignedText : Prop :=
  ∀ (schema : TrustSchema) (text : TrustText) (crypto : TrustCrypto), Json.PrintsNumbers text.number →
    Function.Injective text.sha256 → crypto.Binding → ∀ raw record payload, schema.safeParse raw = some record →
      text.signaturePayload raw = .ok payload → CheckedAsSigned schema text crypto raw record payload

theorem signaturePayload_bareValue (text : TrustText) :
    text.signaturePayload bareValue = .ok (textOf (text.signaturePayload bareValue)) := by
  obtain ⟨canonical, hcanonical⟩ := exists_canonical_record bareRecord rfl
  obtain ⟨kept, hkept⟩ := canonicalFields_filter hcanonical fun field => !([js "meta"].contains field.1)
  refine signaturePayload_textOf (signaturePayload_of_canonical text ?_ hkept)
  rfl

/-- The root key signs its record without `meta`. The signature is checked over a text with `"meta":{}`. -/
theorem not_checksSignedText : ¬ ChecksSignedText := by
  intro h
  have hchecked := h datetimeSchema (recordText bareValue bareRecord.recordId)
    (oneSignature bareRecord.sig (textOf ((recordText bareValue bareRecord.recordId).signaturePayload bareValue)))
    integerText_printsNumbers (recordText_sha256_injective _ valid_bareRecord.recordId) (oneSignature_binding _ _)
    bareValue bareRecord _ (safeParse_of_readsAs readsAs_bareValue valid_bareRecord) (signaturePayload_bareValue _)
  have hplain := (signaturePayload_value_iff integerText_printsNumbers
    (safeParse_of_readsAs readsAs_bareValue valid_bareRecord) (signaturePayload_bareValue _)).mp hchecked.samePayload
  exact hplain.hasMetadata.1 rfl

end GitWarp
