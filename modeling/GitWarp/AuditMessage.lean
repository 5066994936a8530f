import GitWarp.LibraryJsMap
import GitWarp.RefLayout

/-! The message of an audit commit: its trailers are written by `encodeAuditMessage` and read back, each with
its own check, by `decodeAuditMessage`. -/

namespace GitWarp
open Js ExceptLoops

/-- The codec of commit messages: a title and named trailers as one text. -/
structure TrailerCodec where
  encode : JsString → List (JsString × JsString) → Except JsError JsString
  decode : JsString → Except JsError (JsMap JsString JsString)

/-- The keys of `TRAILER_KEYS` that audit and patch messages use. -/
inductive TrailerKey where
  | kind
  | graph
  | writer
  | schema
  | dataCommit
  | opsDigest
  | lamport
  | patchOid
  | encrypted
  deriving DecidableEq

def TrailerKey.text : TrailerKey → String
  | .kind => "eg-kind"
  | .graph => "eg-graph"
  | .writer => "eg-writer"
  | .schema => "eg-schema"
  | .dataCommit => "eg-data-commit"
  | .opsDigest => "eg-ops-digest"
  | .lamport => "eg-lamport"
  | .patchOid => "eg-patch-oid"
  | .encrypted => "eg-encrypted"

def TrailerKey.key (key : TrailerKey) : JsString := js key.text

/-- `OID_PATTERN` -/
def isOidText (oid : JsString) : Bool := (oid.length = 40 || oid.length = 64) && oid.all isHexDigit

/-- `SHA256_PATTERN` -/
def isSha256Text (hash : JsString) : Bool := hash.length = 64 && hash.all isHexDigit

def validateOid (oid : JsString) (fieldName : String) : Except JsError Unit :=
  if isOidText oid then .ok ()
  else thrown s!"Invalid {fieldName}: must be a 40 or 64 character hex string, got '{toText oid}'"

def validateSha256 (hash : JsString) (fieldName : String) : Except JsError Unit :=
  if isSha256Text hash then .ok ()
  else thrown s!"Invalid {fieldName}: must be a 64 character hex string, got '{toText hash}'"

def requireTrailer (trailers : JsMap JsString JsString) (key : TrailerKey) (kind : String) : Except JsError JsString :=
  match trailers.get key.key with
  | none | some [] => thrown s!"Invalid {kind} message: missing required trailer {key.text}"
  | some value => .ok value

def parsePositiveIntTrailer (trailers : JsMap JsString JsString) (key : TrailerKey) (kind : String) :
    Except JsError Nat := do
  let str ← requireTrailer trailers key kind
  if str.all isDigit = false ∨ digitsValue str < 1 then
    thrown s!"Invalid {kind} message: {key.text} must be a positive integer, got '{toText str}'"
  else return digitsValue str

def validateKindDiscriminator (trailers : JsMap JsString JsString) (expected : String) : Except JsError Unit :=
  if trailers.get TrailerKey.kind.key = some (js expected) then .ok ()
  else
    let kind := (trailers.get TrailerKey.kind.key).getD (js "undefined")
    thrown s!"Invalid {expected} message: eg-kind must be '{expected}', got '{toText kind}'"

def rejectDuplicateTrailers : List JsString → JsSet JsString → Except JsError Unit
  | [], _ => .ok ()
  | key :: rest, seen =>
      if seen.has key then thrown s!"Duplicate trailer rejected: {toText key}"
      else rejectDuplicateTrailers rest (seen.add key)

structure AuditMessage where
  graph : JsString
  writer : JsString
  dataCommit : JsString
  opsDigest : JsString
  schema : Nat
  deriving DecidableEq

namespace TrailerCodec

def encodeAuditMessage (codec : TrailerCodec) (graph writer dataCommit opsDigest : JsString) :
    Except JsError JsString := do
  validateGraphName graph
  validateWriterId writer
  validateOid dataCommit "dataCommit"
  validateSha256 opsDigest "opsDigest"
  codec.encode (js "warp:audit")
    [(TrailerKey.dataCommit.key, dataCommit), (TrailerKey.graph.key, graph), (TrailerKey.kind.key, js "audit"),
      (TrailerKey.opsDigest.key, opsDigest), (TrailerKey.schema.key, js "1"), (TrailerKey.writer.key, writer)]

def decodeAuditMessage (codec : TrailerCodec) (message : JsString) : Except JsError AuditMessage := do
  let trailers ← codec.decode message
  rejectDuplicateTrailers trailers.keys JsSet.empty
  validateKindDiscriminator trailers "audit"
  let graph ← requireTrailer trailers .graph "audit"
  validateGraphName graph
  let writer ← requireTrailer trailers .writer "audit"
  validateWriterId writer
  let dataCommit ← requireTrailer trailers .dataCommit "audit"
  validateOid dataCommit "dataCommit"
  let opsDigest ← requireTrailer trailers .opsDigest "audit"
  validateSha256 opsDigest "opsDigest"
  let schema ← parsePositiveIntTrailer trailers .schema "audit"
  if 1 < schema then thrown s!"Unsupported audit schema version: {schema}"
  else return { graph, writer, dataCommit, opsDigest, schema }

end TrailerCodec

/-! ### Which messages decode -/

/-- The trailers of an audit message, each of its form. -/
structure IsAuditMessage (trailers : JsMap JsString JsString) (message : AuditMessage) : Prop where
  kind : trailers.get TrailerKey.kind.key = some (js "audit")
  graph : trailers.get TrailerKey.graph.key = some message.graph
  graphName : validateGraphName message.graph = .ok ()
  writer : trailers.get TrailerKey.writer.key = some message.writer
  writerId : validateWriterId message.writer = .ok ()
  dataCommit : trailers.get TrailerKey.dataCommit.key = some message.dataCommit
  oid : isOidText message.dataCommit = true
  opsDigest : trailers.get TrailerKey.opsDigest.key = some message.opsDigest
  digest : isSha256Text message.opsDigest = true
  numeral : ∃ str, trailers.get TrailerKey.schema.key = some str ∧ str.all isDigit = true ∧ digitsValue str = 1
  schema : message.schema = 1

theorem validateOid_ok_iff {oid : JsString} {fieldName : String} :
    validateOid oid fieldName = .ok () ↔ isOidText oid = true := by
  unfold validateOid
  split
  · rename_i hoid
    exact iff_of_true rfl hoid
  · rename_i hoid
    exact iff_of_false nofun hoid

theorem validateSha256_ok_iff {hash : JsString} {fieldName : String} :
    validateSha256 hash fieldName = .ok () ↔ isSha256Text hash = true := by
  unfold validateSha256
  split
  · rename_i hhash
    exact iff_of_true rfl hhash
  · rename_i hhash
    exact iff_of_false nofun hhash

theorem requireTrailer_ok_iff {trailers : JsMap JsString JsString} {key : TrailerKey} {kind : String} {value : JsString} :
    requireTrailer trailers key kind = .ok value ↔ trailers.get key.key = some value ∧ value ≠ [] := by
  unfold requireTrailer
  cases trailers.get key.key with
  | none => exact ⟨nofun, nofun⟩
  | some found =>
      cases found with
      | nil =>
          constructor
          · exact nofun
          · rintro ⟨hvalue, hne⟩
            exact absurd (Option.some.inj hvalue).symm hne
      | cons c rest =>
          constructor
          · rintro ⟨⟩
            exact ⟨rfl, List.cons_ne_nil _ _⟩
          · rintro ⟨⟨⟩, -⟩
            rfl

theorem validateKindDiscriminator_ok_iff {trailers : JsMap JsString JsString} {expected : String} :
    validateKindDiscriminator trailers expected = .ok () ↔ trailers.get TrailerKey.kind.key = some (js expected) := by
  unfold validateKindDiscriminator
  split
  · rename_i hkind
    exact iff_of_true rfl hkind
  · rename_i hkind
    exact iff_of_false nofun hkind

theorem parsePositiveIntTrailer_ok_iff {trailers : JsMap JsString JsString} {key : TrailerKey} {kind : String} {num : Nat} :
    parsePositiveIntTrailer trailers key kind = .ok num ↔
      ∃ str, trailers.get key.key = some str ∧ str ≠ [] ∧ str.all isDigit = true ∧ 1 ≤ num ∧ digitsValue str = num := by
  unfold parsePositiveIntTrailer
  rw [bind_ok_iff]
  refine exists_congr fun str => ?_
  rw [requireTrailer_ok_iff, and_assoc]
  refine and_congr_right fun _ => and_congr_right fun _ => ?_
  split
  · rename_i hbad
    refine iff_of_false nofun ?_
    rintro ⟨hdigits, hone, rfl⟩
    rcases hbad with hfalse | hzero
    · rw [hdigits] at hfalse
      cases hfalse
    · exact absurd hone (Nat.not_le_of_lt hzero)
  · rename_i hgood
    rw [not_or, Bool.not_eq_false, Nat.not_lt] at hgood
    constructor
    · rintro ⟨⟩
      exact ⟨hgood.1, hgood.2, rfl⟩
    · rintro ⟨-, -, rfl⟩
      rfl

/-- No object has a key twice. -/
theorem rejectDuplicateTrailers_ok {keys : List JsString} (hnodup : keys.Nodup) {seen : JsSet JsString}
    (hseen : ∀ key ∈ keys, key ∉ seen) : rejectDuplicateTrailers keys seen = .ok () := by
  induction keys generalizing seen with
  | nil => rfl
  | cons key rest ih =>
      rw [List.nodup_cons] at hnodup
      have hhas : ¬ seen.has key = true := fun hhas => hseen key List.mem_cons_self ((JsSet.has_iff seen key).mp hhas)
      rw [rejectDuplicateTrailers, if_neg hhas]
      refine ih hnodup.2 fun other hother hmem => ?_
      rcases (JsSet.mem_add seen key other).mp hmem with rfl | hold
      · exact hnodup.1 hother
      · exact hseen other (List.mem_cons_of_mem key hother) hold

theorem ne_nil_of_isOidText {oid : JsString} (h : isOidText oid = true) : oid ≠ [] := by
  rintro rfl
  cases h

theorem ne_nil_of_isSha256Text {hash : JsString} (h : isSha256Text hash = true) : hash ≠ [] := by
  rintro rfl
  cases h

/-- A message decodes exactly where its trailers are those of an audit message. -/
theorem decodeAuditMessage_ok_iff {codec : TrailerCodec} {text : JsString} {message : AuditMessage} :
    codec.decodeAuditMessage text = .ok message ↔
      ∃ trailers, codec.decode text = .ok trailers ∧ IsAuditMessage trailers message := by
  unfold TrailerCodec.decodeAuditMessage
  rw [bind_ok_iff]
  refine exists_congr fun trailers => and_congr_right fun _ => ?_
  have hkeys : rejectDuplicateTrailers trailers.keys JsSet.empty = .ok () :=
    rejectDuplicateTrailers_ok trailers.nodup fun key _ => JsSet.not_mem_empty key
  rw [hkeys]
  constructor
  · intro h
    obtain ⟨⟨⟩, -, h⟩ := bind_ok_iff.mp h
    obtain ⟨⟨⟩, hkind, h⟩ := bind_ok_iff.mp h
    obtain ⟨graph, hgraph, h⟩ := bind_ok_iff.mp h
    obtain ⟨⟨⟩, hgraphName, h⟩ := bind_ok_iff.mp h
    obtain ⟨writer, hwriter, h⟩ := bind_ok_iff.mp h
    obtain ⟨⟨⟩, hwriterId, h⟩ := bind_ok_iff.mp h
    obtain ⟨dataCommit, hdata, h⟩ := bind_ok_iff.mp h
    obtain ⟨⟨⟩, hoid, h⟩ := bind_ok_iff.mp h
    obtain ⟨opsDigest, hops, h⟩ := bind_ok_iff.mp h
    obtain ⟨⟨⟩, hdigest, h⟩ := bind_ok_iff.mp h
    obtain ⟨schema, hschema, h⟩ := bind_ok_iff.mp h
    obtain ⟨str, hstr, hne, hdigits, hone, hvalue⟩ := parsePositiveIntTrailer_ok_iff.mp hschema
    split at h
    · cases h
    · rename_i hsmall
      cases h
      have hschema : schema = 1 := Nat.le_antisymm (Nat.le_of_not_lt hsmall) hone
      exact ⟨validateKindDiscriminator_ok_iff.mp hkind, (requireTrailer_ok_iff.mp hgraph).1, hgraphName,
        (requireTrailer_ok_iff.mp hwriter).1, hwriterId, (requireTrailer_ok_iff.mp hdata).1,
        validateOid_ok_iff.mp hoid, (requireTrailer_ok_iff.mp hops).1, validateSha256_ok_iff.mp hdigest,
        ⟨str, hstr, hdigits, hvalue.trans hschema⟩, hschema⟩
  · intro h
    obtain ⟨str, hstr, hdigits, hvalue⟩ := h.numeral
    have hne : str ≠ [] := by
      rintro rfl
      cases hvalue
    refine bind_ok_iff.mpr ⟨(), rfl, bind_ok_iff.mpr ⟨(), validateKindDiscriminator_ok_iff.mpr h.kind, ?_⟩⟩
    refine bind_ok_iff.mpr ⟨_, requireTrailer_ok_iff.mpr ⟨h.graph, ne_nil_of_validateGraphName h.graphName⟩, ?_⟩
    refine bind_ok_iff.mpr ⟨(), h.graphName, ?_⟩
    refine bind_ok_iff.mpr ⟨_, requireTrailer_ok_iff.mpr ⟨h.writer, ne_nil_of_validateWriterId h.writerId⟩, ?_⟩
    refine bind_ok_iff.mpr ⟨(), h.writerId, ?_⟩
    refine bind_ok_iff.mpr ⟨_, requireTrailer_ok_iff.mpr ⟨h.dataCommit, ne_nil_of_isOidText h.oid⟩, ?_⟩
    refine bind_ok_iff.mpr ⟨(), validateOid_ok_iff.mpr h.oid, ?_⟩
    refine bind_ok_iff.mpr ⟨_, requireTrailer_ok_iff.mpr ⟨h.opsDigest, ne_nil_of_isSha256Text h.digest⟩, ?_⟩
    refine bind_ok_iff.mpr ⟨(), validateSha256_ok_iff.mpr h.digest, ?_⟩
    refine bind_ok_iff.mpr ⟨1, parsePositiveIntTrailer_ok_iff.mpr ⟨str, hstr, hne, hdigits, le_rfl, hvalue⟩, ?_⟩
    rw [if_neg (lt_irrefl 1), ← h.schema]
    rfl

end GitWarp
