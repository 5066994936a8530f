import GitWarp.CodecKey
import GitWarp.LibraryExceptLoops

/-! The names of refs: what a graph name and a writer id may hold, and the ref of an audit chain. -/

namespace GitWarp
open Js ExceptLoops

/-- `MAX_WRITER_ID_LENGTH` -/
def maxWriterIdLength : Nat := 64

/-- `[A-Za-z0-9._-]` -/
def isWriterIdUnit (c : CodeUnit) : Bool :=
  (65 ≤ c.val && c.val ≤ 90) || (97 ≤ c.val && c.val ≤ 122) || isDigit c || [46, 95, 45].contains c.val

def validateWriterId (id : JsString) : Except JsError Unit :=
  if id = [] then thrown "Invalid writer ID: cannot be empty"
  else if maxWriterIdLength < id.length then
    thrown s!"Invalid writer ID: exceeds maximum length of {maxWriterIdLength} characters: {id.length}"
  else if js ".." <:+: id then
    thrown s!"Invalid writer ID: contains path traversal sequence '..': {toText id}"
  else if 47 ∈ id then thrown s!"Invalid writer ID: contains forward slash: {toText id}"
  else if fieldSeparator ∈ id then thrown s!"Invalid writer ID: contains null byte: {toText id}"
  else if id.any isWhiteSpace then thrown s!"Invalid writer ID: contains whitespace: {toText id}"
  else if id.all isWriterIdUnit = false then
    thrown s!"Invalid writer ID: contains invalid characters (only [A-Za-z0-9._-] allowed): {toText id}"
  else .ok ()

theorem ne_nil_of_validateWriterId {id : JsString} (h : validateWriterId id = .ok ()) : id ≠ [] := by
  rintro rfl
  cases h

/-- `RESERVED_GRAPH_NAME_SEGMENTS` -/
def reservedGraphNameSegments : List JsString :=
  [js "writers", js "checkpoints", js "coverage", js "cursor", js "audit", js "trust", js "seek-cache"]

def validateGraphName (name : JsString) : Except JsError Unit :=
  if name = [] then thrown "Invalid graph name: cannot be empty"
  else if js ".." <:+: name then
    thrown s!"Invalid graph name: contains path traversal sequence '..': {toText name}"
  else if 59 ∈ name then thrown s!"Invalid graph name: contains semicolon: {toText name}"
  else if 32 ∈ name then thrown s!"Invalid graph name: contains space: {toText name}"
  else if fieldSeparator ∈ name then thrown s!"Invalid graph name: contains null byte: {toText name}"
  else
    match (name.splitOn 47).find? reservedGraphNameSegments.contains with
    | some seg =>
        thrown s!"Invalid graph name: segment '{toText seg}' is a reserved ref-layout keyword: {toText name}"
    | none => .ok ()

/-- `REF_PREFIX` -/
def refPrefix : JsString := js "refs/warp"

def buildAuditRef (graphName writerId : JsString) : Except JsError JsString := do
  validateGraphName graphName
  validateWriterId writerId
  return refPrefix ++ js "/" ++ graphName ++ js "/audit/" ++ writerId

theorem validated_of_buildAuditRef {graphName writerId ref : JsString} (h : buildAuditRef graphName writerId = .ok ref) :
    validateGraphName graphName = .ok () ∧ validateWriterId writerId = .ok () := by
  obtain ⟨⟨⟩, hgraph, hrest⟩ := bind_ok_iff.mp h
  obtain ⟨⟨⟩, hwriter, -⟩ := bind_ok_iff.mp hrest
  exact ⟨hgraph, hwriter⟩

theorem ne_nil_of_validateGraphName {name : JsString} (h : validateGraphName name = .ok ()) : name ≠ [] := by
  rintro rfl
  cases h

end GitWarp
