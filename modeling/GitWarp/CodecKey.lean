import GitWarp.LibraryJsText

/-! String keys: edges, node properties and edge properties are stored under their identifiers joined
by the field separator. The encodings are injective on identifiers without the separator, and the keys
of node and edge properties never meet. -/

namespace GitWarp
open Js

/-- `'\0'` -/
def fieldSeparator : CodeUnit := 0

/-- `'\x01'` -/
def edgePropPrefix : CodeUnit := 1

/-- An identifier that `_assertNoReservedBytes` lets through. -/
def NoReservedBytes (value : JsString) : Prop :=
  fieldSeparator ∉ value ∧ value.head? ≠ some edgePropPrefix

instance (value : JsString) : Decidable (NoReservedBytes value) :=
  inferInstanceAs (Decidable (_ ∧ _))

/-- The three identifiers of an edge. -/
structure EdgeRef where
  fromId : JsString
  toId : JsString
  label : JsString
  deriving DecidableEq

def encodeEdgeKey (fromId toId label : JsString) : JsString :=
  fromId ++ fieldSeparator :: (toId ++ fieldSeparator :: label)

/-- `key.split('\0')` and its first three segments. A segment that is missing reads as empty; no key
`encodeEdgeKey` returns has fewer than three. -/
def decodeEdgeKey (key : JsString) : EdgeRef :=
  let parts := key.splitOn fieldSeparator
  ⟨parts.getD 0 [], parts.getD 1 [], parts.getD 2 []⟩

def encodePropKey (nodeId propKey : JsString) : JsString := nodeId ++ fieldSeparator :: propKey

/-- `key.split('\0')` and its first two segments, as in `decodeEdgeKey`. -/
def decodePropKey (key : JsString) : JsString × JsString :=
  let parts := key.splitOn fieldSeparator
  (parts.getD 0 [], parts.getD 1 [])

def encodeEdgePropKey (fromId toId label propKey : JsString) : JsString :=
  edgePropPrefix :: (fromId ++ fieldSeparator :: (toId ++ fieldSeparator ::
    (label ++ fieldSeparator :: propKey)))

def isEdgePropKey (key : JsString) : Bool := key.head? = some edgePropPrefix

def encodeLegacyEdgePropNode (fromId toId label : JsString) : JsString :=
  edgePropPrefix :: encodeEdgeKey fromId toId label

def isLegacyEdgePropNode (node : JsString) : Bool := node.head? = some edgePropPrefix

def decodeLegacyEdgePropNode (node : JsString) : Except JsError EdgeRef :=
  if isLegacyEdgePropNode node = false then
    thrown "Invalid legacy edge-property node: missing \\x01 prefix"
  else
    match node.tail.splitOn fieldSeparator with
    | [fromId, toId, label] =>
        if fromId = [] ∨ toId = [] ∨ label = [] then
          thrown "Invalid legacy edge-property node: empty segment in decoded parts"
        else .ok ⟨fromId, toId, label⟩
    | parts =>
        thrown s!"Invalid legacy edge-property node: expected 3 segments, got {parts.length}"

/-- An edge's key, from its three identifiers. -/
def EdgeRef.key (edge : EdgeRef) : JsString := encodeEdgeKey edge.fromId edge.toId edge.label

/-- The identifiers of an edge contain no separator. -/
def EdgeRef.Clean (edge : EdgeRef) : Prop :=
  fieldSeparator ∉ edge.fromId ∧ fieldSeparator ∉ edge.toId ∧ fieldSeparator ∉ edge.label

instance (edge : EdgeRef) : Decidable edge.Clean := inferInstanceAs (Decidable (_ ∧ _ ∧ _))

/-! ### Round trips -/

theorem splitOn_clean {s : JsString} (h : fieldSeparator ∉ s) : s.splitOn fieldSeparator = [s] :=
  List.splitOn_eq_singleton h

theorem splitOn_field {s : JsString} (h : fieldSeparator ∉ s) (rest : JsString) :
    (s ++ fieldSeparator :: rest).splitOn fieldSeparator = s :: rest.splitOn fieldSeparator :=
  List.splitOn_append_cons_self_of_not_mem h rest

theorem decodeEdgeKey_key {edge : EdgeRef} (h : edge.Clean) : decodeEdgeKey edge.key = edge := by
  obtain ⟨hfrom, hto, hlabel⟩ := h
  simp only [decodeEdgeKey, EdgeRef.key, encodeEdgeKey, splitOn_field hfrom, splitOn_field hto,
    splitOn_clean hlabel]
  rfl

theorem decodePropKey_encodePropKey {nodeId propKey : JsString} (hnode : fieldSeparator ∉ nodeId)
    (hkey : fieldSeparator ∉ propKey) :
    decodePropKey (encodePropKey nodeId propKey) = (nodeId, propKey) := by
  simp only [decodePropKey, encodePropKey, splitOn_field hnode, splitOn_clean hkey]
  rfl

theorem encodePropKey_inj {n k n' k' : JsString} (hn : fieldSeparator ∉ n)
    (hn' : fieldSeparator ∉ n') (h : encodePropKey n k = encodePropKey n' k') : n = n' ∧ k = k' :=
  field_inj hn hn' h

theorem encodeEdgePropKey_inj {a b : EdgeRef} {k k' : JsString} (ha : a.Clean) (hb : b.Clean)
    (h : encodeEdgePropKey a.fromId a.toId a.label k = encodeEdgePropKey b.fromId b.toId b.label k') :
    a = b ∧ k = k' := by
  obtain ⟨hfrom, hrest⟩ := field_inj ha.1 hb.1 (List.cons.inj h).2
  obtain ⟨hto, hrest⟩ := field_inj ha.2.1 hb.2.1 hrest
  obtain ⟨hlabel, hname⟩ := field_inj ha.2.2 hb.2.2 hrest
  cases a
  cases b
  simp only at hfrom hto hlabel
  rw [hfrom, hto, hlabel]
  exact ⟨rfl, hname⟩

theorem EdgeRef.key_inj {a b : EdgeRef} (ha : a.Clean) (hb : b.Clean) (h : a.key = b.key) :
    a = b := by
  rw [← decodeEdgeKey_key ha, h, decodeEdgeKey_key hb]

end GitWarp
