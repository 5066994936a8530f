import GitWarp.BuilderRemoves
import GitWarp.ReducerReceipts
import GitWarp.RefLayout

/-! Whether the patch of a builder can be replayed. The builder refuses identifiers with reserved bytes; it lets
empty ones through, and these come back as errors when an edge property is read or a receipt is made. -/

namespace GitWarp
open Js ExceptLoops

variable {V : Type}

/-! ### Round trips -/

/-- No identifier of the edge is empty. -/
def EdgeRef.Nonempty (edge : EdgeRef) : Prop := edge.fromId ≠ [] ∧ edge.toId ≠ [] ∧ edge.label ≠ []

instance (edge : EdgeRef) : Decidable edge.Nonempty := inferInstanceAs (Decidable (_ ∧ _ ∧ _))

/-- The persisted form of an edge is read back unless an identifier is empty. -/
theorem decodeLegacyEdgePropNode_encode {edge : EdgeRef} (hclean : edge.Clean) :
    decodeLegacyEdgePropNode (encodeLegacyEdgePropNode edge.fromId edge.toId edge.label) =
      if edge.Nonempty then .ok edge
      else thrown "Invalid legacy edge-property node: empty segment in decoded parts" := by
  obtain ⟨hfrom, hto, hlabel⟩ := hclean
  have hparts : (encodeLegacyEdgePropNode edge.fromId edge.toId edge.label).tail.splitOn fieldSeparator =
      [edge.fromId, edge.toId, edge.label] := by
    rw [encodeLegacyEdgePropNode, List.tail_cons, encodeEdgeKey, splitOn_field hfrom, splitOn_field hto,
      splitOn_clean hlabel]
  have hlegacy : isLegacyEdgePropNode (encodeLegacyEdgePropNode edge.fromId edge.toId edge.label) = true := rfl
  unfold decodeLegacyEdgePropNode
  rw [hlegacy, hparts]
  have hempty : (edge.fromId = [] ∨ edge.toId = [] ∨ edge.label = []) ↔ ¬ edge.Nonempty := by
    unfold EdgeRef.Nonempty
    tauto
  simp only [Bool.true_eq_false, if_false, hempty, ite_not]

theorem normalize_lower_edgePropSet {edge : EdgeRef} (hclean : edge.Clean) (key : JsString)
    (value : Option V) : normalizeRawOp (lowerCanonicalOp (.edgePropSet edge key value)) =
      if edge.Nonempty then .ok (.edgePropSet edge key value)
      else thrown "Invalid legacy edge-property node: empty segment in decoded parts" := by
  have hlegacy : isLegacyEdgePropNode (encodeLegacyEdgePropNode edge.fromId edge.toId edge.label) = true := rfl
  rw [lowerCanonicalOp, normalizeRawOp, if_pos hlegacy, decodeLegacyEdgePropNode_encode hclean]
  split <;> rfl

/-- Whatever was persisted, an edge that is read back has no empty identifier. -/
theorem nonempty_of_decodeLegacyEdgePropNode {node : JsString} {edge : EdgeRef}
    (h : decodeLegacyEdgePropNode node = .ok edge) : edge.Nonempty := by
  unfold decodeLegacyEdgePropNode at h
  split at h
  · cases h
  · split at h
    · split at h
      · cases h
      · rename_i hempty
        cases h
        rw [not_or, not_or] at hempty
        exact hempty
    · cases h

theorem nonempty_of_roundTrip {edge : EdgeRef} {key : JsString} {value : Option V}
    (h : normalizeRawOp (lowerCanonicalOp (.edgePropSet edge key value)) = .ok (.edgePropSet edge key value)) :
    edge.Nonempty := by
  have hlegacy : isLegacyEdgePropNode (encodeLegacyEdgePropNode edge.fromId edge.toId edge.label) = true := rfl
  rw [lowerCanonicalOp, normalizeRawOp, if_pos hlegacy] at h
  cases hdecode : decodeLegacyEdgePropNode (encodeLegacyEdgePropNode edge.fromId edge.toId edge.label) with
  | error err => rw [hdecode] at h; cases h
  | ok decoded =>
      rw [hdecode] at h
      cases h
      exact nonempty_of_decodeLegacyEdgePropNode hdecode

theorem normalize_lower_nodePropSet {nodeId : JsString} (hnode : NoReservedBytes nodeId) (key : JsString)
    (value : Option V) : normalizeRawOp (lowerCanonicalOp (.nodePropSet nodeId key value)) =
      .ok (.nodePropSet nodeId key value) := by
  have hlegacy : ¬ isLegacyEdgePropNode nodeId = true := fun h => hnode.2 (of_decide_eq_true h)
  rw [lowerCanonicalOp, normalizeRawOp, if_neg hlegacy]
  rfl

/-- The call adds no node with an empty id, and sets no property of an edge with an empty identifier. -/
def BuilderCall.NoEmptyIds : BuilderCall V → Prop
  | .addNode nodeId => nodeId ≠ []
  | .setEdgeProperty edge _ _ => edge.Nonempty
  | .attachEdgeContent edge _ _ _ => edge.Nonempty
  | _ => True

/-- The operations of such calls. -/
def OpV2.NoEmptyIds : OpV2 V → Prop
  | .nodeAdd node _ => node ≠ []
  | .edgePropSet edge _ _ => edge.Nonempty
  | _ => True

section Calls

variable {state : Option (WarpStateV5 V)} {call : BuilderCall V} {ops : List (OpV2 V)}
  (h : CallOps state call ops)

include h

theorem noEmptyIds_of_callOps : (∀ op ∈ ops, op.NoEmptyIds) ↔ call.NoEmptyIds := by
  cases h with
  | cascade nodeId seen hseen =>
      refine iff_of_true (fun op hop => ?_) trivial
      rcases List.mem_append.mp hop with hop | hop
      · obtain ⟨key, -, rfl⟩ := List.mem_map.mp hop
        trivial
      · cases List.mem_singleton.mp hop
        trivial
  | attachContent nodeId oid size mime =>
      refine iff_of_true (fun op hop => ?_) trivial
      rcases List.mem_cons.mp hop with rfl | hop
      · trivial
      · rcases List.mem_pair.mp hop with rfl | rfl <;> trivial
  | attachEdgeContent edge oid size mime hedge =>
      constructor
      · exact fun h => h _ (List.mem_cons_self ..)
      · intro h op hop
        rcases List.mem_cons.mp hop with rfl | hop
        · exact h
        · rcases List.mem_pair.mp hop with rfl | rfl <;> exact h
  | _ =>
      constructor
      · exact fun h => h _ (List.mem_singleton_self _)
      · intro h op hop
        cases List.mem_singleton.mp hop
        exact h

/-- An operation comes back from its persisted form, or is an edge property with an empty identifier. -/
theorem roundTrip_of_callOps {op : OpV2 V} (hop : op ∈ ops) :
    normalizeRawOp (lowerCanonicalOp op) = .ok op ∨ ¬ op.NoEmptyIds ∧
      normalizeRawOp (lowerCanonicalOp op) =
        thrown "Invalid legacy edge-property node: empty segment in decoded parts" := by
  have hedgeProp : ∀ {edge : EdgeRef} {key : JsString} {value : Option V}, edge.NoReservedBytes →
      normalizeRawOp (lowerCanonicalOp (.edgePropSet edge key value)) = .ok (.edgePropSet edge key value) ∨
        ¬ (OpV2.edgePropSet edge key value).NoEmptyIds ∧
          normalizeRawOp (lowerCanonicalOp (.edgePropSet edge key value)) =
            thrown "Invalid legacy edge-property node: empty segment in decoded parts" := by
    intro edge key value hedge
    rw [normalize_lower_edgePropSet hedge.clean]
    by_cases hnonempty : edge.Nonempty
    · exact Or.inl (if_pos hnonempty)
    · exact Or.inr ⟨hnonempty, if_neg hnonempty⟩
  cases h with
  | cascade nodeId seen hseen =>
      rcases List.mem_append.mp hop with hop | hop
      · obtain ⟨key, -, rfl⟩ := List.mem_map.mp hop
        exact Or.inl rfl
      · cases List.mem_singleton.mp hop
        exact Or.inl rfl
  | setProperty nodeId key value hnode hkey =>
      cases List.mem_singleton.mp hop
      exact Or.inl (normalize_lower_nodePropSet hnode key value)
  | setEdgeProperty edge key value hedge hkey =>
      cases List.mem_singleton.mp hop
      exact hedgeProp hedge
  | attachContent nodeId oid size mime hnode =>
      rcases List.mem_cons.mp hop with rfl | hop
      · exact Or.inl (normalize_lower_nodePropSet hnode _ _)
      · rcases List.mem_pair.mp hop with rfl | rfl <;> exact Or.inl (normalize_lower_nodePropSet hnode _ _)
  | attachEdgeContent edge oid size mime hedge =>
      rcases List.mem_cons.mp hop with rfl | hop
      · exact hedgeProp hedge
      · rcases List.mem_pair.mp hop with rfl | rfl <;> exact hedgeProp hedge
  | _ =>
      cases List.mem_singleton.mp hop
      exact Or.inl rfl

end Calls

/-! ### What `commit()` lets through -/

/-- `commit()` writes the patch: there are operations, `buildWriterRef` takes the writer id and
`encodePatchMessage` the tick, and the version vector can be serialized. -/
structure Commits (builder : PatchBuilderV2 V) (lamport : Nat) (patch : PatchV2 V) : Prop where
  ops : builder.ops ≠ []
  writer : validateWriterId builder.writerId = .ok ()
  tick : 1 ≤ lamport
  patch : builder.toPatch lamport = .ok patch

/-- The operations come back from their persisted form, and the patch can be applied to every state in each of
the three ways. -/
structure Replayable [DecidableEq V] (ops : List (OpV2 V)) (patch : PatchV2 V) : Prop where
  roundTrip : ∀ op ∈ ops, normalizeRawOp (lowerCanonicalOp op) = .ok op
  applied : ∀ (state : WarpStateV5 V) (sha : JsString), isHexOid sha = true →
    (∃ state', applyFast state patch sha = .ok state') ∧
      (∃ result, applyWithDiff state patch sha = .ok result) ∧
        ∃ result, applyWithReceipt state patch sha = .ok result

/-- A record without negative counters is read. -/
theorem exists_vvDeserialize_ok {counters : List (JsString × Int)} (h : ∀ entry ∈ counters, 0 ≤ entry.2) :
    ∃ vv, vvDeserialize counters = .ok vv := by
  refine exists_foldlM_ok (fun vv entry hentry => ?_) createVersionVector
  simp only [if_neg (not_lt.mpr (h entry hentry))]
  split <;> exact ⟨_, rfl⟩

section Commit

variable {builder : PatchBuilderV2 V} {lamport : Nat} {patch : PatchV2 V} (h : Commits builder lamport patch)

include h

theorem Commits.context : ∃ vv, contextVV patch.context = .ok vv := by
  have hpatch := h.patch
  unfold PatchBuilderV2.toPatch at hpatch
  cases hcontext : vvSerialize builder.vv with
  | error err => rw [hcontext] at hpatch; cases hpatch
  | ok context =>
      rw [hcontext] at hpatch
      cases hpatch
      refine exists_vvDeserialize_ok fun entry hentry => ?_
      obtain ⟨pair, -, rfl⟩ := List.mem_map.mp hentry
      exact Int.natCast_nonneg _

/-- A committed patch whose operations come back is read. -/
theorem Commits.exists_readPatch (hroundTrip : ∀ op ∈ builder.ops, normalizeRawOp (lowerCanonicalOp op) = .ok op)
    {sha : JsString} (hsha : isHexOid sha = true) : ∃ read, readPatch ⟨patch, sha⟩ = .ok read := by
  obtain ⟨hwriter, hlamport, hops⟩ := PatchBuilderV2.toPatch_eq_ok h.patch
  have hevents : ∃ events, patch.ops.zipIdx.mapM (readOp patch sha) = .ok events := by
    refine exists_mapM_ok_iff.mpr fun item hitem => ?_
    obtain ⟨raw, i⟩ := item
    have hraw : raw ∈ patch.ops := List.fst_mem_of_mem_zipIdx hitem
    rw [hops] at hraw
    obtain ⟨op, hop, rfl⟩ := List.mem_map.mp hraw
    have hid : createEventId patch.lamport patch.writer sha i = .ok ⟨patch.lamport, patch.writer, sha, i⟩ := by
      unfold createEventId
      rw [if_neg (hlamport ▸ Nat.ne_of_gt h.tick), if_neg (hwriter ▸ ne_nil_of_validateWriterId h.writer),
        if_neg (by rw [hsha]; decide)]
    refine ⟨(op, ⟨patch.lamport, patch.writer, sha, i⟩), ?_⟩
    simp only [readOp, hid, hroundTrip op hop, bind, Except.bind, pure, Except.pure]
  obtain ⟨events, hevents⟩ := hevents
  obtain ⟨vv, hvv⟩ := h.context
  exact ⟨⟨events, vv, patch.writer, patch.lamport⟩, by simp only [readPatch, hevents, hvv]; rfl⟩

/-- What is read are the operations of the builder. -/
theorem Commits.exists_event_iff (hroundTrip : ∀ op ∈ builder.ops, normalizeRawOp (lowerCanonicalOp op) = .ok op)
    {sha : JsString} {read : ReadPatch V} (hread : readPatch ⟨patch, sha⟩ = .ok read) (op : OpV2 V) :
    (∃ eventId, (op, eventId) ∈ read.events) ↔ op ∈ builder.ops := by
  rw [GitWarp.exists_event_iff hread]
  show (∃ raw ∈ patch.ops, normalizeRawOp raw = .ok op) ↔ _
  rw [(PatchBuilderV2.toPatch_eq_ok h.patch).2.2]
  constructor
  · rintro ⟨raw, hraw, hnorm⟩
    obtain ⟨op', hop', rfl⟩ := List.mem_map.mp hraw
    rw [hroundTrip op' hop', Except.ok.injEq] at hnorm
    exact hnorm ▸ hop'
  · exact fun hop => ⟨_, List.mem_map_of_mem hop, hroundTrip op hop⟩

end Commit

/-! ### Replayable patches -/

/-- The patch that a builder commits can be replayed exactly if no call adds a node with an empty id or sets a
property of an edge with an empty identifier. -/
theorem replayable_iff [DecidableEq V] (start builder : OpenBuilder V) (calls : List (BuilderCall V))
    (lamport : Nat) (patch : PatchV2 V) (hfresh : start.Fresh) (hcalls : start.calls calls = some builder)
    (hcommits : Commits builder.toPatchBuilderV2 lamport patch) :
    Replayable builder.ops patch ↔ ∀ call ∈ calls, call.NoEmptyIds := by
  obtain ⟨opss, hopss, happended⟩ := OpenBuilder.exists_callsOps hcalls
  have hops : builder.ops = opss.flatten := by rw [happended.ops, hfresh.ops, List.nil_append]
  have hcond : (∀ call ∈ calls, call.NoEmptyIds) ↔ ∀ op ∈ builder.ops, op.NoEmptyIds := by
    rw [hops]
    clear hcalls hops happended
    induction hopss with
    | nil => simp
    | cons hhead _ ih =>
        rw [List.forall_mem_cons, List.flatten_cons, List.forall_mem_append, ih, noEmptyIds_of_callOps hhead]
  have hroundTrip : ∀ op ∈ builder.ops, normalizeRawOp (lowerCanonicalOp op) = .ok op ∨ ¬ op.NoEmptyIds ∧
      normalizeRawOp (lowerCanonicalOp op) =
        thrown "Invalid legacy edge-property node: empty segment in decoded parts" := by
    intro op hop
    rw [hops] at hop
    obtain ⟨call, -, ops, hcall, hop⟩ := exists_callOps_of_mem hopss hop
    exact roundTrip_of_callOps hcall hop
  have hwriter : patch.writer ≠ [] := by
    rw [(PatchBuilderV2.toPatch_eq_ok hcommits.patch).1]
    exact ne_nil_of_validateWriterId hcommits.writer
  rw [hcond]
  constructor
  · intro h op hop
    have hsha : isHexOid (js "aaaa") = true := by decide
    obtain ⟨read, hread⟩ := hcommits.exists_readPatch h.roundTrip hsha
    have hreceipt := (applyWithReceipt_ok_iff hread (show js "aaaa" ≠ [] by decide) hwriter createEmptyStateV5).mp
      (h.applied createEmptyStateV5 (js "aaaa") hsha).2.2
    obtain ⟨eventId, hevent⟩ := (hcommits.exists_event_iff h.roundTrip hread op).mpr hop
    cases op with
    | nodeAdd node dot =>
        rintro rfl
        exact hreceipt _ hevent dot rfl
    | edgePropSet edge key value => exact nonempty_of_roundTrip (h.roundTrip _ hop)
    | _ => trivial
  · intro h
    have hback : ∀ op ∈ builder.ops, normalizeRawOp (lowerCanonicalOp op) = .ok op := by
      intro op hop
      rcases hroundTrip op hop with hok | ⟨hempty, -⟩
      · exact hok
      · exact absurd (h op hop) hempty
    refine ⟨hback, fun state sha hsha => ?_⟩
    obtain ⟨read, hread⟩ := hcommits.exists_readPatch hback hsha
    refine ⟨⟨applyRead state read, ?_⟩, ⟨_, applyWithDiff_ok hread state⟩, ?_⟩
    · rw [show applyFast state patch sha = (readPatch ⟨patch, sha⟩).map (applyRead state) from
        applyFast_eq state ⟨patch, sha⟩, hread]
      rfl
    · refine (applyWithReceipt_ok_iff hread ?_ hwriter state).mpr fun event hevent dot heq => ?_
      · rintro rfl
        cases hsha
      · have hop := (hcommits.exists_event_iff hback hread event.1).mp ⟨event.2, hevent⟩
        have hnonempty := h event.1 hop
        rw [heq] at hnonempty
        exact hnonempty rfl

/-- A node, an edge from it, and a property of each. -/
def ordinaryCalls : List (BuilderCall Nat) :=
  [.addNode (js "m"), .addEdge ⟨js "m", js "n", js "to"⟩, .setProperty (js "m") (js "k") (some 1),
    .setEdgeProperty ⟨js "m", js "n", js "to"⟩ (js "k") (some 2)]

theorem replayable_ordinary : ∃ builder patch, (newBuilder (js "w") none .warn).calls ordinaryCalls = some builder ∧
    Commits builder.toPatchBuilderV2 1 patch ∧ Replayable builder.ops patch := by
  obtain ⟨builder, hcalls⟩ : ∃ builder, (newBuilder (js "w") none .warn).calls ordinaryCalls = some builder :=
    ⟨_, rfl⟩
  obtain ⟨patch, hpatch⟩ : ∃ patch, builder.toPatch 1 = .ok patch := by
    cases hcalls
    exact ⟨_, rfl⟩
  have hcommits : Commits builder.toPatchBuilderV2 1 patch := by
    cases hcalls
    exact ⟨by decide, by decide, le_rfl, hpatch⟩
  refine ⟨builder, patch, hcalls, hcommits, (replayable_iff _ builder ordinaryCalls 1 patch
    ⟨rfl, rfl, rfl, rfl⟩ hcalls hcommits).mpr ?_⟩
  intro call hcall
  simp only [ordinaryCalls, List.mem_cons, List.not_mem_nil, or_false] at hcall
  rcases hcall with rfl | rfl | rfl | rfl
  · exact List.cons_ne_nil _ _
  · trivial
  · trivial
  · exact ⟨List.cons_ne_nil _ _, List.cons_ne_nil _ _, List.cons_ne_nil _ _⟩

/-- An edge with an empty label, and a property of it. -/
def emptyLabelCalls : List (BuilderCall Nat) :=
  [.addEdge ⟨js "m", js "n", []⟩, .setEdgeProperty ⟨js "m", js "n", []⟩ (js "k") (some 1)]

/-- A node with an empty id. -/
def emptyNodeCalls : List (BuilderCall Nat) := [.addNode []]

/-- No builder call throws and the patches are committed, but the first cannot be read any more and no receipt can
be made of the second. -/
theorem not_replayable_empty :
    (∃ builder patch, (newBuilder (js "w") none .warn).calls emptyLabelCalls = some builder ∧
      Commits builder.toPatchBuilderV2 1 patch ∧ ¬ Replayable builder.ops patch) ∧
    ∃ builder patch, (newBuilder (js "w") none .warn).calls emptyNodeCalls = some builder ∧
      Commits builder.toPatchBuilderV2 1 patch ∧ ¬ Replayable builder.ops patch := by
  refine ⟨⟨_, _, rfl, ⟨by decide, by decide, le_rfl, rfl⟩, fun h => ?_⟩,
    ⟨_, _, rfl, ⟨by decide, by decide, le_rfl, rfl⟩, fun h => ?_⟩⟩
  · have hop := nonempty_of_roundTrip
      (h.roundTrip (.edgePropSet ⟨js "m", js "n", []⟩ (js "k") (some 1)) (by decide))
    exact hop.2.2 rfl
  · obtain ⟨-, -, result, hresult⟩ := h.applied createEmptyStateV5 (js "aaaa") (by decide)
    cases hresult

end GitWarp
