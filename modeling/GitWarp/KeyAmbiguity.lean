import GitWarp.CascadeDelete

/-! The composite keys of all identifiers that a builder accepts, the empty one among them: each key is of one kind,
decodes to what it was made of, and is found for the nodes it names and for no other. -/

namespace GitWarp
open Js

/-- An identifier that `_assertNoReservedBytes` lets through. -/
abbrev Identifier := { value : JsString // NoReservedBytes value }

/-- The edge with the three identifiers. -/
def identifiedEdge (fromId toId label : Identifier) : EdgeRef := ⟨fromId, toId, label⟩

theorem identifiedEdge_noReservedBytes (fromId toId label : Identifier) :
    (identifiedEdge fromId toId label).NoReservedBytes :=
  ⟨fromId.property, toId.property, label.property⟩

theorem identifiedEdge_inj {fromId toId label fromId' toId' label' : Identifier}
    (h : identifiedEdge fromId toId label = identifiedEdge fromId' toId' label') :
    fromId = fromId' ∧ toId = toId' ∧ label = label' := by
  obtain ⟨hfrom, hto, hlabel⟩ := EdgeRef.mk.inj h
  exact ⟨Subtype.ext hfrom, Subtype.ext hto, Subtype.ext hlabel⟩

/-- What the encoders, the decoders and the text tests of `findAttachedData` say of each other. -/
structure KeysUnambiguous (V : Type) : Prop where
  decodeEdgeKey_encode : ∀ fromId toId label : Identifier,
    decodeEdgeKey (encodeEdgeKey fromId toId label) = ⟨fromId, toId, label⟩
  decodePropKey_encode : ∀ nodeId propKey : Identifier,
    decodePropKey (encodePropKey nodeId propKey) = (nodeId.val, propKey.val)
  decodeEdgePropKey_encode : ∀ fromId toId label propKey : Identifier,
    decodeEdgePropKey (encodeEdgePropKey fromId toId label propKey) = .ok (⟨fromId, toId, label⟩, propKey.val)
  decodeLegacyEdgePropNode_encode : ∀ fromId toId label : Identifier, fromId.val ≠ [] → toId.val ≠ [] → label.val ≠ [] →
    decodeLegacyEdgePropNode (encodeLegacyEdgePropNode fromId toId label) = .ok ⟨fromId, toId, label⟩
  encodeEdgeKey_inj : ∀ fromId toId label fromId' toId' label' : Identifier,
    encodeEdgeKey fromId toId label = encodeEdgeKey fromId' toId' label' →
      fromId = fromId' ∧ toId = toId' ∧ label = label'
  encodePropKey_inj : ∀ nodeId propKey nodeId' propKey' : Identifier,
    encodePropKey nodeId propKey = encodePropKey nodeId' propKey' → nodeId = nodeId' ∧ propKey = propKey'
  encodeEdgePropKey_inj : ∀ fromId toId label propKey fromId' toId' label' propKey' : Identifier,
    encodeEdgePropKey fromId toId label propKey = encodeEdgePropKey fromId' toId' label' propKey' →
      (fromId = fromId' ∧ toId = toId' ∧ label = label') ∧ propKey = propKey'
  encodeLegacyEdgePropNode_inj : ∀ fromId toId label fromId' toId' label' : Identifier,
    encodeLegacyEdgePropNode fromId toId label = encodeLegacyEdgePropNode fromId' toId' label' →
      fromId = fromId' ∧ toId = toId' ∧ label = label'
  /-- `isEdgePropKey` tells the two kinds of property keys apart. -/
  isEdgePropKey_iff : ∀ nodeId fromId toId label propKey propKey' : Identifier,
    isEdgePropKey (encodePropKey nodeId propKey) = false ∧
      isEdgePropKey (encodeEdgePropKey fromId toId label propKey') = true ∧
        encodePropKey nodeId propKey ≠ encodeEdgePropKey fromId toId label propKey'
  attachedEdges : ∀ (state : WarpStateV5 V) (nodeId fromId toId label : Identifier),
    encodeEdgeKey fromId toId label ∈ (findAttachedData state nodeId).edges ↔
      orsetContains state.edgeAlive (encodeEdgeKey fromId toId label) = true ∧
        ((decodeEdgeKey (encodeEdgeKey fromId toId label)).fromId = nodeId ∨
          (decodeEdgeKey (encodeEdgeKey fromId toId label)).toId = nodeId)
  attachedProps : ∀ (state : WarpStateV5 V) (nodeId owner propKey : Identifier),
    encodePropKey owner propKey ∈ (findAttachedData state nodeId).props ↔
      (state.prop.get (encodePropKey owner propKey)).isSome ∧ (decodePropKey (encodePropKey owner propKey)).1 = nodeId
  /-- No edge property is taken for a property of a node. -/
  attachedEdgeProps : ∀ (state : WarpStateV5 V) (nodeId fromId toId label propKey : Identifier),
    encodeEdgePropKey fromId toId label propKey ∉ (findAttachedData state nodeId).props

/-- A key is found by its prefix for the node that owns it. -/
theorem prefix_propKey_iff (nodeId owner propKey : Identifier) :
    nodeId.val ++ [fieldSeparator] <+: encodePropKey owner propKey ↔ owner.val = nodeId := by
  rw [encodePropKey, prefix_field_iff owner.property.1, eq_comm]
  refine or_iff_left ?_
  rintro ⟨m, -, hm⟩
  exact not_prefix_of_clean propKey.property.1 m hm

/-- The prefix of an identifier never is that of an edge property. -/
theorem not_prefix_edgePropKey (nodeId fromId toId label propKey : Identifier) :
    ¬ nodeId.val ++ [fieldSeparator] <+: encodeEdgePropKey fromId toId label propKey := by
  obtain ⟨value, hclean⟩ := nodeId
  cases value with
  | nil =>
      intro h
      rw [encodeEdgePropKey, List.nil_append, List.cons_prefix_cons] at h
      exact absurd h.1 (by decide)
  | cons unit value =>
      intro h
      rw [encodeEdgePropKey, List.cons_append, List.cons_prefix_cons] at h
      exact hclean.2 (congrArg some h.1)

/-- The text tests find an edge for its two ends. -/
theorem foundIn_identifiedEdge_iff (nodeId fromId toId label : Identifier) :
    FoundIn nodeId (encodeEdgeKey fromId toId label) ↔ fromId.val = nodeId ∨ toId.val = nodeId := by
  have hclean := (identifiedEdge_noReservedBytes fromId toId label).clean
  refine (foundIn_key_iff hclean nodeId).trans (or_congr_right (or_iff_left ?_))
  intro hends
  exact nodeId.property.1 (hends ▸ List.mem_append_right _ (List.mem_cons_self ..))

/-- Every key of identifiers can be read in one way only, and the passes that take keys apart find what belongs to an
element and nothing else. -/
theorem keys_unambiguous (V : Type) : KeysUnambiguous V := by
  have hedge : ∀ fromId toId label : Identifier,
      decodeEdgeKey (encodeEdgeKey fromId toId label) = identifiedEdge fromId toId label :=
    fun fromId toId label => decodeEdgeKey_key (identifiedEdge_noReservedBytes fromId toId label).clean
  have hprop : ∀ nodeId propKey : Identifier, decodePropKey (encodePropKey nodeId propKey) = (nodeId.val, propKey.val) :=
    fun nodeId propKey => decodePropKey_encodePropKey nodeId.property.1 propKey.property.1
  have hedgeInj : ∀ fromId toId label fromId' toId' label' : Identifier,
      encodeEdgeKey fromId toId label = encodeEdgeKey fromId' toId' label' →
        fromId = fromId' ∧ toId = toId' ∧ label = label' := by
    intro fromId toId label fromId' toId' label' h
    apply identifiedEdge_inj
    rw [← hedge, h, hedge]
  constructor
  case decodeEdgeKey_encode => exact hedge
  case decodePropKey_encode => exact hprop
  case decodeEdgePropKey_encode =>
    intro fromId toId label propKey
    exact decodeEdgePropKey_edgeKey (identifiedEdge_noReservedBytes fromId toId label) propKey.property
  case decodeLegacyEdgePropNode_encode =>
    intro fromId toId label hfrom hto hlabel
    have hnonempty : (identifiedEdge fromId toId label).Nonempty := ⟨hfrom, hto, hlabel⟩
    exact (decodeLegacyEdgePropNode_encode (identifiedEdge_noReservedBytes fromId toId label).clean).trans
      (if_pos hnonempty)
  case encodeEdgeKey_inj => exact hedgeInj
  case encodePropKey_inj =>
    intro nodeId propKey nodeId' propKey' h
    obtain ⟨hnode, hkey⟩ := encodePropKey_inj nodeId.property.1 nodeId'.property.1 h
    exact ⟨Subtype.ext hnode, Subtype.ext hkey⟩
  case encodeEdgePropKey_inj =>
    intro fromId toId label propKey fromId' toId' label' propKey' h
    obtain ⟨hends, hkey⟩ := encodeEdgePropKey_inj (identifiedEdge_noReservedBytes fromId toId label).clean
      (identifiedEdge_noReservedBytes fromId' toId' label').clean h
    exact ⟨identifiedEdge_inj hends, Subtype.ext hkey⟩
  case encodeLegacyEdgePropNode_inj =>
    intro fromId toId label fromId' toId' label' h
    exact hedgeInj _ _ _ _ _ _ (List.cons.inj h).2
  case isEdgePropKey_iff =>
    intro nodeId fromId toId label propKey propKey'
    have hnode := isEdgePropKey_nodeKey nodeId.property propKey
    refine ⟨hnode, rfl, fun h => ?_⟩
    rw [h] at hnode
    cases hnode
  case attachedEdges =>
    intro state nodeId fromId toId label
    rw [mem_attached_edges, foundIn_identifiedEdge_iff, hedge]
    rfl
  case attachedProps =>
    intro state nodeId owner propKey
    rw [mem_attached_props, prefix_propKey_iff, hprop]
  case attachedEdgeProps =>
    intro state nodeId fromId toId label propKey h
    exact not_prefix_edgePropKey nodeId fromId toId label propKey ((mem_attached_props _ _ _).mp h).2

end GitWarp
