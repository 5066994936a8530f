import GitWarp.CascadeDelete
import GitWarp.LibraryWorklist
import GitWarp.TemporalQuery

/-! Replaying a slice. A builder records what it has read and written; the index finds the patches of a node by it,
and the patches of what these have read, and so on. The slice has all patches that name the node. It has not all
that remove its dots: where two nodes share a dot, removing one of them removes the other. -/

namespace GitWarp
open Js ExceptLoops

variable {V : Type}

/-! ### What a builder records -/

/-- A patch with the nodes and edges that it has read and written. -/
structure ProvenancedPatch (V : Type) extends PatchV2 V where
  reads : List JsString
  writes : List JsString
  deriving DecidableEq

/-- A builder that records what its calls read and write. -/
structure RecordingBuilder (V : Type) extends OpenBuilder V where
  observedOperands : JsSet JsString
  writes : JsSet JsString

/-- What a call adds to `_observedOperands`. -/
def OpenBuilder.observes (builder : OpenBuilder V) : BuilderCall V → List JsString
  | .addNode _ => []
  | .removeNode nodeId =>
      match builder.onDeleteWithData, builder.snapshotState with
      | .cascade, some state => (findAttachedData state nodeId).edges ++ [nodeId]
      | _, _ => [nodeId]
  | .addEdge edge => [edge.fromId, edge.toId]
  | .removeEdge edge => [edge.key]
  | .setProperty nodeId _ _ => [nodeId]
  | .setEdgeProperty edge _ _ => [edge.key]
  | .attachContent nodeId _ _ _ => [nodeId]
  | .attachEdgeContent edge _ _ _ => [edge.key]

/-- What a call adds to `_writes`. -/
def BuilderCall.writes : BuilderCall V → List JsString
  | .addNode nodeId => [nodeId]
  | .removeNode _ => []
  | .addEdge edge => [edge.key]
  | .removeEdge _ => []
  | .setProperty nodeId _ _ => [nodeId]
  | .setEdgeProperty edge _ _ => [edge.key]
  | .attachContent nodeId _ _ _ => [nodeId]
  | .attachEdgeContent edge _ _ _ => [edge.key]

namespace RecordingBuilder

def call (builder : RecordingBuilder V) (call : BuilderCall V) : Option (RecordingBuilder V) := do
  let edited ← builder.toOpenBuilder.call call
  return {
    toOpenBuilder := edited
    observedOperands := builder.observedOperands.addAll (builder.observes call)
    writes := builder.writes.addAll call.writes }

def calls (builder : RecordingBuilder V) (calls : List (BuilderCall V)) : Option (RecordingBuilder V) :=
  calls.foldlM call builder

def toPatch (builder : RecordingBuilder V) (lamport : Nat) : Except JsError (ProvenancedPatch V) := do
  let patch ← builder.toOpenBuilder.toPatch lamport
  return {
    toPatchV2 := patch
    reads := builder.observedOperands.elems.insertionSort (· ≤ ·)
    writes := builder.writes.elems.insertionSort (· ≤ ·) }

/-- A builder before its first call. -/
structure Fresh (builder : RecordingBuilder V) : Prop extends OpenBuilder.Fresh builder.toOpenBuilder where
  observedOperands : builder.observedOperands = JsSet.empty
  writes : builder.writes = JsSet.empty

end RecordingBuilder

/-- The patch is what a builder that looks at `state` makes of some calls. -/
def BuiltRecorded (state : Option (WarpStateV5 V)) (patch : ProvenancedPatch V) : Prop :=
  ∃ (start builder : RecordingBuilder V) (calls : List (BuilderCall V)) (lamport : Nat), start.Fresh ∧
    start.snapshotState = state ∧ start.calls calls = some builder ∧ builder.toPatch lamport = .ok patch

/-! ### The index and the cone -/

abbrev ProvenanceIndex := JsMap JsString (JsSet JsString)

namespace ProvenanceIndex

def addEntry (index : ProvenanceIndex) (entityId patchSha : JsString) : ProvenanceIndex :=
  index.set entityId (((index.get entityId).getD JsSet.empty).add patchSha)

def addPatch (index : ProvenanceIndex) (patchSha : JsString) (reads writes : List JsString) : ProvenanceIndex :=
  writes.foldl (fun index entityId => addEntry index entityId patchSha)
    (reads.foldl (fun index entityId => addEntry index entityId patchSha) index)

def patchesFor (index : ProvenanceIndex) (entityId : JsString) : List JsString :=
  match index.get entityId with
  | none => []
  | some shas => shas.elems.insertionSort (· ≤ ·)

/-- All patches of the index. -/
def shas (index : ProvenanceIndex) : List JsString := (index.entries.flatMap fun entry => entry.2.elems).dedup

end ProvenanceIndex

section Graph

variable (localeCompare : JsString → JsString → Int) (commits : JsString → ProvenancedPatch V)

/-- The patch of a commit, as it is replayed. -/
def entryOf (sha : JsString) : PatchEntry V := ⟨(commits sha).toPatchV2, sha⟩

/-- The index that `materialize` makes of the patches of the graph. -/
def provenanceIndexOf (shas : List JsString) : ProvenanceIndex :=
  shas.foldl (fun index sha => ProvenanceIndex.addPatch index sha (commits sha).reads (commits sha).writes) JsMap.empty

/-- `_computeBackwardCone`: the shas of the cone, in the order in which they are found. `commits` is
`_loadPatchBySha`. -/
def computeBackwardCone (index : ProvenanceIndex) (nodeId : JsString) : List JsString :=
  Worklist.search (ProvenanceIndex.patchesFor index) (fun sha => (commits sha).reads) (ProvenanceIndex.shas index) nodeId

def materializeSlice (index : ProvenanceIndex) (nodeId : JsString) : Except JsError (WarpStateV5 V) :=
  let cone := computeBackwardCone commits index nodeId
  if cone = [] then .ok createEmptyStateV5
  else reduceV5 (sortPatchesCausally localeCompare (cone.map (entryOf commits)))

end Graph

/-! ### What the slice should be -/

/-- The two states agree on whether the node is alive and on its properties. -/
structure SameNode (nodeId : JsString) (a b : WarpStateV5 V) : Prop where
  alive : orsetContains a.nodeAlive nodeId = orsetContains b.nodeAlive nodeId
  props : ∀ key, isEdgePropKey key = false → (decodePropKey key).1 = nodeId → a.prop.get key = b.prop.get key

/-- The patches that have read or written an entity. -/
def touching (commits : JsString → ProvenancedPatch V) (shas : List JsString) (entityId : JsString) : List JsString :=
  shas.filter fun sha => entityId ∈ (commits sha).reads ∨ entityId ∈ (commits sha).writes

/-- The patch has read or written the node, or something that a patch of the cone has read. -/
def InCone (commits : JsString → ProvenancedPatch V) (shas : List JsString) (nodeId sha : JsString) : Prop :=
  ∃ entityId, Worklist.Reached (touching commits shas) (fun sha => (commits sha).reads) nodeId entityId ∧
    sha ∈ touching commits shas entityId

/-- If the patches remove all dots that they add to the node, those of the cone do. -/
def RemovalsInCone (commits : JsString → ProvenancedPatch V) (shas : List JsString) (nodeId : JsString) : Prop :=
  (∀ encoded, (∃ sha ∈ shas, (entryOf commits sha).Adds false (nodeId, encoded)) →
    ∃ sha ∈ shas, (entryOf commits sha).Removes false encoded) →
  ∀ encoded, (∃ sha ∈ shas, (entryOf commits sha).Adds false (nodeId, encoded)) →
    ∃ sha, InCone commits shas nodeId sha ∧ (entryOf commits sha).Removes false encoded

/-! ### The records of a patch -/

theorem mem_observes_of_removes (builder : OpenBuilder V) {call : BuilderCall V} {nodeId : JsString}
    (h : call.removes false = some nodeId) : nodeId ∈ builder.observes call := by
  cases call with
  | removeNode node =>
      cases h
      simp only [OpenBuilder.observes]
      split
      · exact List.mem_append_right _ (List.mem_singleton_self _)
      · exact List.mem_singleton_self _
  | _ => cases h

/-- A recording builder is the builder with its records, which grow. -/
theorem recorded_calls {calls : List (BuilderCall V)} {start builder : RecordingBuilder V}
    (h : start.calls calls = some builder) : start.toOpenBuilder.calls calls = some builder.toOpenBuilder ∧
      (∀ x, x ∈ start.observedOperands ∨ (∃ call ∈ calls, call.removes false = some x) → x ∈ builder.observedOperands) ∧
        ∀ x, x ∈ start.writes ∨ (∃ call ∈ calls, x ∈ call.writes) → x ∈ builder.writes := by
  induction calls generalizing start with
  | nil =>
      cases h
      exact ⟨rfl, fun x hx => hx.resolve_right (by simp), fun x hx => hx.resolve_right (by simp)⟩
  | cons call rest ih =>
      rw [RecordingBuilder.calls, List.foldlM_cons, Option.bind_eq_bind, Option.bind_eq_some_iff] at h
      obtain ⟨middle, hmiddle, h⟩ := h
      obtain ⟨hcalls, hobserved, hwritten⟩ := ih h
      simp only [RecordingBuilder.call, Option.bind_eq_bind, Option.bind_eq_some_iff, Option.pure_def,
        Option.some.injEq] at hmiddle
      obtain ⟨edited, hedited, rfl⟩ := hmiddle
      refine ⟨?_, fun x hx => hobserved x ?_, fun x hx => hwritten x ?_⟩
      · rw [OpenBuilder.calls, List.foldlM_cons, hedited]
        exact hcalls
      · rw [JsSet.mem_addAll, or_assoc]
        rcases hx with hx | ⟨call', hcall', hremoves⟩
        · exact Or.inl hx
        · rcases List.mem_cons.mp hcall' with rfl | hcall'
          · exact Or.inr (Or.inl (mem_observes_of_removes _ hremoves))
          · exact Or.inr (Or.inr ⟨call', hcall', hremoves⟩)
      · rw [JsSet.mem_addAll, or_assoc]
        rcases hx with hx | ⟨call', hcall', hwrites⟩
        · exact Or.inl hx
        · rcases List.mem_cons.mp hcall' with rfl | hcall'
          · exact Or.inr (Or.inl hwrites)
          · exact Or.inr (Or.inr ⟨call', hcall', hwrites⟩)

/-! ### A patch names what it adds, removes and sets -/

theorem writes_of_addPair {state : Option (WarpStateV5 V)} {call : BuilderCall V} {ops : List (OpV2 V)}
    (h : CallOps state call ops) {op : OpV2 V} (hop : op ∈ ops) {nodeId encoded : JsString}
    (hadd : op.addPair false = some (nodeId, encoded)) : nodeId ∈ call.writes := by
  cases h with
  | addNode node dot =>
      cases List.mem_singleton.mp hop
      cases hadd
      exact List.mem_singleton_self _
  | cascade node seen =>
      rcases List.mem_append.mp hop with hop | hop
      · obtain ⟨key, -, rfl⟩ := List.mem_map.mp hop
        cases hadd
      · cases List.mem_singleton.mp hop
        cases hadd
  | attachContent node oid size mime =>
      rcases List.mem_cons.mp hop with rfl | hop
      · cases hadd
      · rcases List.mem_pair.mp hop with rfl | rfl <;> cases hadd
  | attachEdgeContent edge oid size mime =>
      rcases List.mem_cons.mp hop with rfl | hop
      · cases hadd
      · rcases List.mem_pair.mp hop with rfl | rfl <;> cases hadd
  | _ =>
      cases List.mem_singleton.mp hop
      cases hadd

theorem removes_of_removedElement {state : Option (WarpStateV5 V)} {call : BuilderCall V} {ops : List (OpV2 V)}
    (h : CallOps state call ops) {op : OpV2 V} (hop : op ∈ ops) {nodeId : JsString}
    (hremoved : op.removedElement false = some nodeId) : call.removes false = some nodeId := by
  cases h with
  | removeNode node =>
      cases List.mem_singleton.mp hop
      exact hremoved
  | cascade node seen =>
      rcases List.mem_append.mp hop with hop | hop
      · obtain ⟨key, -, rfl⟩ := List.mem_map.mp hop
        simp only [cascadeRemove, OpV2.removedElement] at hremoved
        split at hremoved
        · rename_i heq
          cases heq
        · cases hremoved
        · cases hremoved
      · cases List.mem_singleton.mp hop
        exact hremoved
  | attachContent node oid size mime =>
      rcases List.mem_cons.mp hop with rfl | hop
      · cases hremoved
      · rcases List.mem_pair.mp hop with rfl | rfl <;> cases hremoved
  | attachEdgeContent edge oid size mime =>
      rcases List.mem_cons.mp hop with rfl | hop
      · cases hremoved
      · rcases List.mem_pair.mp hop with rfl | rfl <;> cases hremoved
  | _ =>
      cases List.mem_singleton.mp hop
      cases hremoved

/-- The key of a property that a patch sets is that of a node which it writes, or of an edge. -/
theorem writes_of_write {state : Option (WarpStateV5 V)} {call : BuilderCall V} {ops : List (OpV2 V)}
    (h : CallOps state call ops) {op read : OpV2 V} (hop : op ∈ ops)
    (hread : normalizeRawOp (lowerCanonicalOp op) = .ok read) {key : JsString} {value : Option V}
    (hwrite : read.write = some (key, value)) :
    isEdgePropKey key = true ∨ (decodePropKey key).1 ∈ call.writes := by
  have hnode : ∀ node name value', NoReservedBytes node → NoReservedBytes name →
      op = .nodePropSet node name value' → (decodePropKey key).1 = node := by
    rintro node name value' hnode hname rfl
    have hlegacy : isLegacyEdgePropNode node = false := by
      unfold isLegacyEdgePropNode
      exact decide_eq_false hnode.2
    simp only [lowerCanonicalOp, normalizeRawOp, hlegacy] at hread
    cases hread
    cases hwrite
    rw [decodePropKey_encodePropKey hnode.1 hname.1]
  have hedge : ∀ edge name value', EdgeRef.NoReservedBytes edge → op = .edgePropSet edge name value' →
      isEdgePropKey key = true := by
    rintro edge name value' hedge rfl
    rw [normalize_lower_edgePropSet hedge.clean] at hread
    split at hread
    · cases hread
      cases hwrite
      rfl
    · cases hread
  have hnone : lowerCanonicalOp op = op → normalizeRawOp op = .ok op → op.write = none → False := by
    intro hlower hback hnothing
    rw [hlower, hback] at hread
    cases hread
    rw [hnothing] at hwrite
    cases hwrite
  cases h with
  | cascade node seen =>
      rcases List.mem_append.mp hop with hop | hop
      · obtain ⟨edgeKey, -, rfl⟩ := List.mem_map.mp hop
        exact (hnone rfl rfl rfl).elim
      · cases List.mem_singleton.mp hop
        exact (hnone rfl rfl rfl).elim
  | setProperty node name value' hclean hname =>
      exact Or.inr (hnode node name value' hclean hname (List.mem_singleton.mp hop) ▸ List.mem_singleton_self _)
  | setEdgeProperty edge name value' hclean =>
      exact Or.inl (hedge edge name value' hclean (List.mem_singleton.mp hop))
  | attachContent node oid size mime hclean =>
      refine Or.inr ?_
      have heq : (decodePropKey key).1 = node := by
        obtain ⟨hoid, hsize, hmime⟩ := noReservedBytes_content
        rcases List.mem_cons.mp hop with hop | hop
        · exact hnode node _ oid hclean hoid hop
        · rcases List.mem_pair.mp hop with hop | hop
          · exact hnode node _ size hclean hsize hop
          · exact hnode node _ mime hclean hmime hop
      exact heq ▸ List.mem_singleton_self _
  | attachEdgeContent edge oid size mime hclean =>
      refine Or.inl ?_
      rcases List.mem_cons.mp hop with hop | hop
      · exact hedge edge _ oid hclean hop
      · rcases List.mem_pair.mp hop with hop | hop
        · exact hedge edge _ size hclean hop
        · exact hedge edge _ mime hclean hop
  | _ =>
      cases List.mem_singleton.mp hop
      exact (hnone rfl rfl rfl).elim

namespace BuiltRecorded

variable {state : Option (WarpStateV5 V)} {patch : ProvenancedPatch V}

/-- An operation of a recorded patch comes from a call whose reads and writes are recorded. -/
theorem exists_call (h : BuiltRecorded state patch) : (∃ calls, BuiltBy state calls patch.toPatchV2) ∧
    ∀ raw ∈ patch.ops, ∃ call ops op, CallOps state call ops ∧ op ∈ ops ∧ raw = lowerCanonicalOp op ∧
      (∀ nodeId, call.removes false = some nodeId → nodeId ∈ patch.reads) ∧
        ∀ entityId ∈ call.writes, entityId ∈ patch.writes := by
  obtain ⟨start, builder, calls, lamport, hfresh, rfl, hcalls, hpatch⟩ := h
  obtain ⟨hopen, hobserved, hwritten⟩ := recorded_calls hcalls
  unfold RecordingBuilder.toPatch at hpatch
  obtain ⟨wire, hwire, hpatch⟩ := bind_ok_iff.mp hpatch
  cases hpatch
  have hbuilt : BuiltBy start.snapshotState calls wire :=
    ⟨start.toOpenBuilder, builder.toOpenBuilder, lamport, hfresh.toFresh, rfl, hopen, hwire⟩
  refine ⟨⟨calls, hbuilt⟩, fun raw hraw => ?_⟩
  obtain ⟨opss, hopss, hops⟩ := mem_ops_of_builtBy hbuilt
  have hraw' : raw ∈ opss.flatten.map lowerCanonicalOp := hops ▸ hraw
  obtain ⟨op, hop, rfl⟩ := List.mem_map.mp hraw'
  obtain ⟨call, hcall, ops, hcallOps, hop⟩ := exists_callOps_of_mem hopss hop
  refine ⟨call, ops, op, hcallOps, hop, rfl, fun nodeId hremoves => ?_, fun entityId hwrites => ?_⟩
  · exact (List.mem_insertionSort _).mpr (hobserved nodeId (Or.inr ⟨call, hcall, hremoves⟩))
  · exact (List.mem_insertionSort _).mpr (hwritten entityId (Or.inr ⟨call, hcall, hwrites⟩))

theorem mem_writes_of_adds (h : BuiltRecorded state patch) {sha nodeId encoded : JsString}
    (hadds : PatchEntry.Adds ⟨patch.toPatchV2, sha⟩ false (nodeId, encoded)) : nodeId ∈ patch.writes := by
  obtain ⟨raw, hraw, hadd⟩ := hadds
  obtain ⟨call, ops, op, hcallOps, hop, rfl, -, hwrites⟩ := h.exists_call.2 raw hraw
  rw [(lowerCanonicalOp_parts op false).1] at hadd
  exact hwrites nodeId (writes_of_addPair hcallOps hop hadd)

theorem mem_reads_of_removes (h : BuiltRecorded state patch) {raw : OpV2 V} (hraw : raw ∈ patch.ops) {nodeId : JsString}
    (hremoved : raw.removedElement false = some nodeId) : nodeId ∈ patch.reads := by
  obtain ⟨call, ops, op, hcallOps, hop, rfl, hreads, -⟩ := h.exists_call.2 raw hraw
  rw [(lowerCanonicalOp_parts op false).2.2] at hremoved
  exact hreads nodeId (removes_of_removedElement hcallOps hop hremoved)

theorem mem_writes_of_sets (h : BuiltRecorded state patch) {sha key : JsString} (hkind : isEdgePropKey key = false)
    (hsets : PatchEntry.Sets ⟨patch.toPatchV2, sha⟩ key) : (decodePropKey key).1 ∈ patch.writes := by
  obtain ⟨raw, hraw, read, value, hread, hwrite⟩ := hsets
  obtain ⟨call, ops, op, hcallOps, hop, rfl, -, hwrites⟩ := h.exists_call.2 raw hraw
  rcases writes_of_write hcallOps hop hread hwrite with hedge | hnode
  · rw [hkind] at hedge
    cases hedge
  · exact hwrites _ hnode

end BuiltRecorded

/-! ### The index and the cone -/

/-- The index has the patch under the entity. -/
def ProvenanceIndex.Indexed (index : ProvenanceIndex) (entityId sha : JsString) : Prop :=
  sha ∈ (index.get entityId).getD JsSet.empty

theorem indexed_foldl_addEntry (patchSha : JsString) (entityIds : List JsString) (index : ProvenanceIndex)
    (entityId sha : JsString) :
    (entityIds.foldl (fun index entityId => ProvenanceIndex.addEntry index entityId patchSha) index).Indexed entityId
      sha ↔ index.Indexed entityId sha ∨ (entityId ∈ entityIds ∧ sha = patchSha) := by
  induction entityIds generalizing index with
  | nil => simp
  | cons head rest ih =>
      have hentry : (ProvenanceIndex.addEntry index head patchSha).Indexed entityId sha ↔
          index.Indexed entityId sha ∨ (entityId = head ∧ sha = patchSha) := by
        unfold ProvenanceIndex.Indexed ProvenanceIndex.addEntry
        rw [JsMap.get_set]
        by_cases heq : entityId = head
        · subst heq
          rw [if_pos rfl, Option.getD_some, JsSet.mem_add, or_comm]
          simp
        · rw [if_neg heq]
          simp [heq]
      rw [List.foldl_cons, ih, hentry, List.mem_cons, or_assoc, or_and_right]

theorem indexed_foldl_addPatch (commits : JsString → ProvenancedPatch V) (shas : List JsString)
    (index : ProvenanceIndex) (entityId sha : JsString) :
    (shas.foldl (fun index sha => ProvenanceIndex.addPatch index sha (commits sha).reads (commits sha).writes)
      index).Indexed entityId sha ↔ index.Indexed entityId sha ∨ sha ∈ touching commits shas entityId := by
  induction shas generalizing index with
  | nil => simp [touching]
  | cons head rest ih =>
      have hpatch : (ProvenanceIndex.addPatch index head (commits head).reads (commits head).writes).Indexed entityId
          sha ↔ index.Indexed entityId sha ∨
            ((entityId ∈ (commits head).reads ∨ entityId ∈ (commits head).writes) ∧ sha = head) := by
        unfold ProvenanceIndex.addPatch
        rw [indexed_foldl_addEntry, indexed_foldl_addEntry, or_assoc, ← or_and_right]
      have htouching : sha ∈ touching commits (head :: rest) entityId ↔
          ((entityId ∈ (commits head).reads ∨ entityId ∈ (commits head).writes) ∧ sha = head) ∨
            sha ∈ touching commits rest entityId := by
        unfold touching
        rw [List.mem_filter, List.mem_filter, List.mem_cons, or_and_right, decide_eq_true_iff]
        refine or_congr_left ⟨fun ⟨heq, htouch⟩ => ?_, fun ⟨htouch, heq⟩ => ?_⟩
        · subst heq
          exact ⟨htouch, rfl⟩
        · subst heq
          exact ⟨rfl, htouch⟩
      rw [List.foldl_cons, ih, hpatch, htouching, or_assoc]

theorem mem_patchesFor_iff (commits : JsString → ProvenancedPatch V) (shas : List JsString) (entityId sha : JsString) :
    sha ∈ ProvenanceIndex.patchesFor (provenanceIndexOf commits shas) entityId ↔ sha ∈ touching commits shas entityId := by
  have hindexed : sha ∈ ProvenanceIndex.patchesFor (provenanceIndexOf commits shas) entityId ↔
      (provenanceIndexOf commits shas).Indexed entityId sha := by
    unfold ProvenanceIndex.patchesFor ProvenanceIndex.Indexed
    cases (provenanceIndexOf commits shas).get entityId with
    | none => exact iff_of_false List.not_mem_nil List.not_mem_nil
    | some set => exact List.mem_insertionSort _
  rw [hindexed]
  refine (indexed_foldl_addPatch commits shas JsMap.empty entityId sha).trans (or_iff_right ?_)
  exact List.not_mem_nil

/-- The cone is found by its definition. -/
theorem mem_computeBackwardCone (commits : JsString → ProvenancedPatch V) (shas : List JsString)
    (nodeId sha : JsString) :
    sha ∈ computeBackwardCone commits (provenanceIndexOf commits shas) nodeId ↔ InCone commits shas nodeId sha := by
  have hnodup : (ProvenanceIndex.shas (provenanceIndexOf commits shas)).Nodup := List.nodup_dedup _
  unfold computeBackwardCone
  rw [Worklist.mem_search_iff hnodup]
  · refine exists_congr fun entityId => ?_
    rw [mem_patchesFor_iff]
    exact and_congr_left fun _ => Worklist.reached_congr (fun entityId sha => mem_patchesFor_iff commits shas entityId sha)
  · intro entityId sha hsha
    unfold ProvenanceIndex.patchesFor at hsha
    split at hsha
    · cases hsha
    · rename_i set hget
      refine List.mem_dedup.mpr (List.mem_flatMap.mpr ⟨(entityId, set), ?_, (List.mem_insertionSort _).mp hsha⟩)
      exact (JsMap.get_eq_some_iff _ _ _).mp hget

theorem InCone.mem {commits : JsString → ProvenancedPatch V} {shas : List JsString} {nodeId sha : JsString}
    (h : InCone commits shas nodeId sha) : sha ∈ shas := by
  obtain ⟨entityId, -, hsha⟩ := h
  exact (List.mem_filter.mp hsha).1

theorem inCone_of_touches {commits : JsString → ProvenancedPatch V} {shas : List JsString} {nodeId sha : JsString}
    (hsha : sha ∈ shas) (h : nodeId ∈ (commits sha).reads ∨ nodeId ∈ (commits sha).writes) :
    InCone commits shas nodeId sha :=
  ⟨nodeId, .start, List.mem_filter.mpr ⟨hsha, decide_eq_true h⟩⟩

/-! ### The replay of the slice -/

/-- A patch that has an effect on a property sets it. -/
theorem sets_of_effect {entry : PatchEntry V} {read : ReadPatch V} (hread : readPatch entry = .ok read)
    {key : JsString} (h : read.effect.props key ≠ ⊥) : entry.Sets key := by
  have hreads : [entry].mapM readPatch = .ok [read] := by
    rw [List.mapM_cons, hread]
    rfl
  have hregister : (([read].foldl applyRead createEmptyStateV5).prop.get key).isSome := by
    have hlevel : propLevel ([read].foldl applyRead createEmptyStateV5).prop key = read.effect.props key := by
      show ([read].foldl applyRead createEmptyStateV5).view.props key = _
      rw [view_foldl_applyRead, view_createEmptyStateV5, bot_sup_eq, joinAll_cons, joinAll_nil, sup_bot_eq]
    cases hget : ([read].foldl applyRead createEmptyStateV5).prop.get key with
    | none =>
        rw [propLevel, hget] at hlevel
        exact absurd hlevel.symm h
    | some register => rfl
  obtain ⟨entry', hentry', hsets⟩ := sets_of_register hreads hregister
  cases List.mem_singleton.mp hentry'
  exact hsets

section Replay

variable {commits : JsString → ProvenancedPatch V} {shas : List JsString} {full : WarpStateV5 V}
  (hrecorded : ∀ sha ∈ shas, ∃ state, BuiltRecorded state (commits sha))
  (hfull : reduceV5 (shas.map (entryOf commits)) = .ok full) (nodeId : JsString)

include hfull in
/-- The slice is replayed as its patches are, in whatever order. -/
theorem exists_slice (localeCompare : JsString → JsString → Int) : ∃ patches slice,
    materializeSlice localeCompare commits (provenanceIndexOf commits shas) nodeId = .ok slice ∧
      reduceV5 patches = .ok slice ∧ ∀ entry, entry ∈ patches ↔ ∃ sha, InCone commits shas nodeId sha ∧
        entry = entryOf commits sha := by
  let cone := computeBackwardCone commits (provenanceIndexOf commits shas) nodeId
  have hmem : ∀ entry, entry ∈ sortPatchesCausally localeCompare (cone.map (entryOf commits)) ↔
      ∃ sha, InCone commits shas nodeId sha ∧ entry = entryOf commits sha := by
    intro entry
    unfold sortPatchesCausally
    rw [List.mem_insertionSort, List.mem_map]
    refine exists_congr fun sha => ?_
    rw [mem_computeBackwardCone, eq_comm]
  obtain ⟨reads, hreads, -⟩ := reduceV5_eq_ok_iff.mp hfull
  obtain ⟨reads', hreads'⟩ := exists_mapM_ok_iff.mpr fun entry hentry => by
    obtain ⟨sha, hsha, rfl⟩ := (hmem entry).mp hentry
    exact exists_mapM_ok_iff.mp ⟨reads, hreads⟩ _ (List.mem_map_of_mem hsha.mem)
  have hslice : reduceV5 (sortPatchesCausally localeCompare (cone.map (entryOf commits))) =
      .ok (reads'.foldl applyRead createEmptyStateV5) := reduceV5_eq_ok_iff.mpr ⟨reads', hreads', rfl⟩
  refine ⟨_, _, ?_, hslice, hmem⟩
  unfold materializeSlice
  by_cases hempty : cone = []
  · rw [if_pos hempty, ← hslice, hempty]
    rfl
  · rw [if_neg hempty, ← hslice]

include hrecorded

/-- The cone has every patch that adds the node, and every one that sets a property of it. -/
theorem exists_inCone_iff :
    (∀ encoded, (∃ sha ∈ shas, (entryOf commits sha).Adds false (nodeId, encoded)) ↔
      ∃ sha, InCone commits shas nodeId sha ∧ (entryOf commits sha).Adds false (nodeId, encoded)) ∧
    ∀ key, isEdgePropKey key = false → (decodePropKey key).1 = nodeId → ∀ sha ∈ shas,
      (entryOf commits sha).Sets key → InCone commits shas nodeId sha := by
  refine ⟨fun encoded => ⟨?_, fun ⟨sha, hcone, hadds⟩ => ⟨sha, hcone.mem, hadds⟩⟩, ?_⟩
  · rintro ⟨sha, hsha, hadds⟩
    obtain ⟨state, hrecord⟩ := hrecorded sha hsha
    exact ⟨sha, inCone_of_touches hsha (Or.inr (hrecord.mem_writes_of_adds hadds)), hadds⟩
  · rintro key hkind rfl sha hsha hsets
    obtain ⟨state, hrecord⟩ := hrecorded sha hsha
    exact inCone_of_touches hsha (Or.inr (hrecord.mem_writes_of_sets hkind hsets))

include hfull

variable {patches : List (PatchEntry V)} {slice : WarpStateV5 V} (hslice : reduceV5 patches = .ok slice)
  (hmem : ∀ entry, entry ∈ patches ↔ ∃ sha, InCone commits shas nodeId sha ∧ entry = entryOf commits sha)

include hslice hmem

/-- The registers of the node's properties are those of all patches. -/
theorem slice_props {key : JsString} (hkind : isEdgePropKey key = false) (hkey : (decodePropKey key).1 = nodeId) :
    slice.prop.get key = full.prop.get key := by
  obtain ⟨reads, hreads, rfl⟩ := reduceV5_eq_ok_iff.mp hfull
  obtain ⟨reads', hreads', rfl⟩ := reduceV5_eq_ok_iff.mp hslice
  have hsub : ∀ entry ∈ patches, entry ∈ shas.map (entryOf commits) := by
    intro entry hentry
    obtain ⟨sha, hcone, rfl⟩ := (hmem entry).mp hentry
    exact List.mem_map_of_mem hcone.mem
  have hshas : ConsistentShas (shas.map (entryOf commits)) := by
    intro entry hentry other hother hsame
    obtain ⟨sha, -, rfl⟩ := List.mem_map.mp hentry
    obtain ⟨sha', -, rfl⟩ := List.mem_map.mp hother
    exact congrArg (fun sha => (commits sha).toPatchV2) hsame
  have hlevel : (reads'.foldl applyRead (createEmptyStateV5 : WarpStateV5 V)).view.props key =
      (reads.foldl applyRead (createEmptyStateV5 : WarpStateV5 V)).view.props key := by
    rw [view_foldl_applyRead, view_foldl_applyRead, view_createEmptyStateV5, bot_sup_eq, bot_sup_eq]
    have hle : joinAll ReadPatch.effect reads' ≤ joinAll ReadPatch.effect reads := by
      refine (joinAll_le_iff _ _ _).mpr fun read hread => le_joinAll ReadPatch.effect ?_
      obtain ⟨entry, hentry, hok⟩ := (mem_of_mapM_ok hreads' read).mp hread
      exact (mem_of_mapM_ok hreads read).mpr ⟨entry, hsub entry hentry, hok⟩
    refine le_antisymm (hle.2.2.1 key) ?_
    by_contra hnot
    have hsup : ∀ a b : StateView, ¬ (a ⊔ b).props key ≤ (joinAll ReadPatch.effect reads').props key ↔
        ¬ a.props key ≤ (joinAll ReadPatch.effect reads').props key ∨
          ¬ b.props key ≤ (joinAll ReadPatch.effect reads').props key := by
      intro a b
      rw [StateView.sup_props, Pi.sup_apply, sup_le_iff, not_and_or]
    obtain ⟨read, hread, heffect⟩ := (joinAll_prime (P := fun v : StateView =>
      ¬ v.props key ≤ (joinAll ReadPatch.effect reads').props key) hsup (fun h => h bot_le) _ _).mp hnot
    obtain ⟨entry, hentry, hok⟩ := (mem_of_mapM_ok hreads read).mp hread
    obtain ⟨sha, hsha, rfl⟩ := List.mem_map.mp hentry
    have hsets : (entryOf commits sha).Sets key :=
      sets_of_effect hok fun hbot => heffect (by rw [hbot]; exact bot_le)
    have hcone := (exists_inCone_iff hrecorded nodeId).2 key hkind hkey sha hsha hsets
    have hread' : read ∈ reads' := (mem_of_mapM_ok hreads' read).mpr ⟨_, (hmem _).mpr ⟨sha, hcone, rfl⟩, hok⟩
    exact heffect ((le_joinAll ReadPatch.effect hread').2.2.1 key)
  exact ((replayed_of_reads hreads').mono hsub).prop_eq hshas (replayed_of_reads hreads) hlevel

/-- Whether the node is alive in the slice depends on the dots that the cone removes. -/
theorem slice_alive_iff :
    orsetContains slice.nodeAlive nodeId = orsetContains full.nodeAlive nodeId ↔ RemovalsInCone commits shas nodeId := by
  have hadds := (exists_inCone_iff hrecorded nodeId).1
  have hfullAlive : orsetContains full.nodeAlive nodeId = true ↔
      ∃ encoded, (∃ sha ∈ shas, (entryOf commits sha).Adds false (nodeId, encoded)) ∧
        ¬ ∃ sha ∈ shas, (entryOf commits sha).Removes false encoded := by
    refine (orsetContains_reduceV5 hfull false nodeId).trans (exists_congr fun encoded => ?_)
    constructor
    · rintro ⟨⟨entry, hentry, hadd⟩, hkept⟩
      obtain ⟨sha, hsha, rfl⟩ := List.mem_map.mp hentry
      exact ⟨⟨sha, hsha, hadd⟩, fun ⟨sha', hsha', hremoves⟩ => hkept _ (List.mem_map_of_mem hsha') hremoves⟩
    · rintro ⟨⟨sha, hsha, hadd⟩, hkept⟩
      refine ⟨⟨_, List.mem_map_of_mem hsha, hadd⟩, fun entry hentry hremoves => ?_⟩
      obtain ⟨sha', hsha', rfl⟩ := List.mem_map.mp hentry
      exact hkept ⟨sha', hsha', hremoves⟩
  have hsliceAlive : orsetContains slice.nodeAlive nodeId = true ↔
      ∃ encoded, (∃ sha ∈ shas, (entryOf commits sha).Adds false (nodeId, encoded)) ∧
        ¬ ∃ sha, InCone commits shas nodeId sha ∧ (entryOf commits sha).Removes false encoded := by
    refine (orsetContains_reduceV5 hslice false nodeId).trans (exists_congr fun encoded => and_congr ?_ ?_)
    · rw [hadds]
      constructor
      · rintro ⟨entry, hentry, hadd⟩
        obtain ⟨sha, hcone, rfl⟩ := (hmem entry).mp hentry
        exact ⟨sha, hcone, hadd⟩
      · rintro ⟨sha, hcone, hadd⟩
        exact ⟨_, (hmem _).mpr ⟨sha, hcone, rfl⟩, hadd⟩
    · constructor
      · rintro h ⟨sha, hcone, hremoves⟩
        exact h _ ((hmem _).mpr ⟨sha, hcone, rfl⟩) hremoves
      · rintro h entry hentry hremoves
        obtain ⟨sha, hcone, rfl⟩ := (hmem entry).mp hentry
        exact h ⟨sha, hcone, hremoves⟩
  rw [Bool.eq_iff_iff, hfullAlive, hsliceAlive]
  constructor
  · intro h hall encoded hadd
    by_contra hkept
    obtain ⟨encoded', hadd', hnot⟩ := h.mp ⟨encoded, hadd, hkept⟩
    exact hnot (hall encoded' hadd')
  · intro h
    constructor
    · rintro ⟨encoded, hadd, hkept⟩
      by_contra hdead
      refine hkept (h (fun encoded' hadd' => ?_) encoded hadd)
      by_contra hnot
      exact hdead ⟨encoded', hadd', hnot⟩
    · rintro ⟨encoded, hadd, hkept⟩
      exact ⟨encoded, hadd, fun ⟨sha, hcone, hremoves⟩ => hkept ⟨sha, hcone.mem, hremoves⟩⟩

end Replay

/-- The node removals that list a dot which the patches add to the node are removals of that node. -/
def RemovedByName (commits : JsString → ProvenancedPatch V) (shas : List JsString) (nodeId : JsString) : Prop :=
  ∀ sha ∈ shas, ∀ op ∈ (commits sha).ops, ∀ encoded ∈ op.removedDots false,
    (∃ adder ∈ shas, (entryOf commits adder).Adds false (nodeId, encoded)) → op.removedElement false = some nodeId

theorem RemovedByName.removalsInCone {commits : JsString → ProvenancedPatch V} {shas : List JsString} {nodeId : JsString}
    (h : RemovedByName commits shas nodeId) (hrecorded : ∀ sha ∈ shas, ∃ state, BuiltRecorded state (commits sha)) :
    RemovalsInCone commits shas nodeId := by
  intro hall encoded hadded
  obtain ⟨sha, hsha, op, hop, hlisted⟩ := hall encoded hadded
  obtain ⟨state, hrecord⟩ := hrecorded sha hsha
  have hnamed := h sha hsha op hop encoded hlisted hadded
  exact ⟨sha, inCone_of_touches hsha (Or.inl (hrecord.mem_reads_of_removes hop hnamed)), op, hop, hlisted⟩

/-- The slice of a node is as the replay of all patches has it, where no removal of another node takes one of its dots. -/
theorem materializeSlice_sound (localeCompare : JsString → JsString → Int)
    (commits : JsString → ProvenancedPatch V) (shas : List JsString) (full : WarpStateV5 V)
    (hrecorded : ∀ sha ∈ shas, ∃ state, BuiltRecorded state (commits sha))
    (hfull : reduceV5 (shas.map (entryOf commits)) = .ok full) (nodeId : JsString)
    (hnamed : RemovedByName commits shas nodeId) :
    ∃ slice, materializeSlice localeCompare commits (provenanceIndexOf commits shas) nodeId = .ok slice ∧
      SameNode nodeId slice full := by
  obtain ⟨patches, slice, hmaterialize, hslice, hmem⟩ := exists_slice hfull nodeId localeCompare
  have halive := (slice_alive_iff hrecorded hfull nodeId hslice hmem).mpr (hnamed.removalsInCone hrecorded)
  exact ⟨slice, hmaterialize, halive, fun key hkind hkey =>
    slice_props hrecorded hfull nodeId hslice hmem hkind hkey⟩

/-- A recording builder that has counted nothing yet. -/
def newRecorder (writerId : JsString) (state : Option (WarpStateV5 Nat)) : RecordingBuilder Nat where
  toOpenBuilder := newBuilder writerId state .warn
  observedOperands := JsSet.empty
  writes := JsSet.empty

theorem recorded_newRecorder (writerId : JsString) (calls : List (BuilderCall Nat)) (lamport : Nat)
    {state : Option (WarpStateV5 Nat)} {patch : ProvenancedPatch Nat} (h : ((newRecorder writerId state).calls calls).bind
      (fun builder => (builder.toPatch lamport).toOption) = some patch) : BuiltRecorded state patch := by
  obtain ⟨builder, hcalls, hpatch⟩ := Option.bind_eq_some_iff.mp h
  exact ⟨newRecorder writerId state, builder, calls, lamport, ⟨⟨rfl, rfl, rfl, rfl⟩, rfl, rfl⟩, rfl, hcalls,
    toOption_eq_some hpatch⟩

/-- The patch `aaaa` with which `w` adds the node `n`, and the patch `cccc` with which `v` removes it. -/
def addedThenRemoved (sha : JsString) : ProvenancedPatch Nat :=
  if sha = js "aaaa" then ⟨⟨2, js "w", 1, .record [(js "w", 1)], [.nodeAdd (js "n") ⟨js "w", 1⟩]⟩, [], [js "n"]⟩
  else ⟨⟨2, js "v", 2, .record [], [.nodeRemove (some (js "n")) [js "w:1"]]⟩, [js "n"], []⟩

theorem materializeSlice_sound_removed : ∃ full, reduceV5 ([js "aaaa", js "cccc"].map (entryOf addedThenRemoved)) =
    .ok full ∧ ∃ slice, materializeSlice (fun _ _ => 0) addedThenRemoved
      (provenanceIndexOf addedThenRemoved [js "aaaa", js "cccc"]) (js "n") = .ok slice ∧ SameNode (js "n") slice full := by
  obtain ⟨full, hfull⟩ : ∃ full, reduceV5 ([js "aaaa", js "cccc"].map (entryOf addedThenRemoved)) = .ok full :=
    ⟨_, rfl⟩
  obtain ⟨seen, hseen⟩ : ∃ seen, reduceV5 [entryOf addedThenRemoved (js "aaaa")] = .ok seen := ⟨_, rfl⟩
  have hrecorded : ∀ sha ∈ [js "aaaa", js "cccc"], ∃ state, BuiltRecorded state (addedThenRemoved sha) := by
    intro sha hsha
    rcases List.mem_pair.mp hsha with rfl | rfl
    · exact ⟨none, recorded_newRecorder (js "w") [.addNode (js "n")] 1 (by decide)⟩
    · refine ⟨some seen, recorded_newRecorder (js "v") [.removeNode (js "n")] 2 ?_⟩
      cases hseen
      decide
  refine ⟨full, hfull, materializeSlice_sound (fun _ _ => 0) addedThenRemoved [js "aaaa", js "cccc"] full
    hrecorded hfull (js "n") fun sha hsha op hop encoded hlisted _ => ?_⟩
  rcases List.mem_pair.mp hsha with rfl | rfl
  · cases List.mem_singleton.mp hop
    exact absurd hlisted List.not_mem_nil
  · cases List.mem_singleton.mp hop
    rfl

/-- The patches `aaaa` and `bbbb` with which `w` adds the nodes `n` and `m`, under one dot as it has counted nothing
either time, and the patch `cccc` with which `v` removes `m`. -/
def sharedDot (sha : JsString) : ProvenancedPatch Nat :=
  if sha = js "aaaa" then ⟨⟨2, js "w", 1, .record [(js "w", 1)], [.nodeAdd (js "n") ⟨js "w", 1⟩]⟩, [], [js "n"]⟩
  else if sha = js "bbbb" then
    ⟨⟨2, js "w", 2, .record [(js "w", 1)], [.nodeAdd (js "m") ⟨js "w", 1⟩]⟩, [], [js "m"]⟩
  else ⟨⟨2, js "v", 3, .record [], [.nodeRemove (some (js "m")) [js "w:1"]]⟩, [js "m"], []⟩

/-- The removal of `m` takes `n` away, but the slice of `n` does not have it. -/
theorem materializeSlice_misses_removal : ¬ ∀ (localeCompare : JsString → JsString → Int)
    (commits : JsString → ProvenancedPatch Nat) (shas : List JsString) (full : WarpStateV5 Nat),
    (∀ sha ∈ shas, ∃ (seen : List JsString) (state : WarpStateV5 Nat),
      (∀ other ∈ seen, other ∈ shas) ∧ reduceV5 (seen.map (entryOf commits)) = .ok state ∧
      BuiltRecorded (some state) (commits sha)) → reduceV5 (shas.map (entryOf commits)) = .ok full → ∀ nodeId,
        ∃ slice, materializeSlice localeCompare commits (provenanceIndexOf commits shas) nodeId = .ok slice ∧
          SameNode nodeId slice full := by
  intro h
  obtain ⟨full, hfull⟩ : ∃ full, reduceV5 ([js "aaaa", js "bbbb", js "cccc"].map (entryOf sharedDot)) = .ok full :=
    ⟨_, rfl⟩
  obtain ⟨seen, hseen⟩ : ∃ seen, reduceV5 ([js "aaaa", js "bbbb"].map (entryOf sharedDot)) = .ok seen := ⟨_, rfl⟩
  obtain ⟨empty, hempty⟩ : ∃ empty, reduceV5 (([] : List JsString).map (entryOf sharedDot)) = .ok empty := ⟨_, rfl⟩
  obtain ⟨slice, hslice, hsame⟩ := h (fun _ _ => 0) sharedDot [js "aaaa", js "bbbb", js "cccc"] full (by
    intro sha hsha
    simp only [List.mem_cons, List.not_mem_nil, or_false] at hsha
    rcases hsha with rfl | rfl | rfl
    · refine ⟨[], empty, nofun, hempty, recorded_newRecorder (js "w") [.addNode (js "n")] 1 ?_⟩
      cases hempty
      decide
    · refine ⟨[], empty, nofun, hempty, recorded_newRecorder (js "w") [.addNode (js "m")] 2 ?_⟩
      cases hempty
      decide
    · refine ⟨[js "aaaa", js "bbbb"], seen, by decide, hseen, recorded_newRecorder (js "v") [.removeNode (js "m")] 3 ?_⟩
      cases hseen
      decide) hfull (js "n")
  have hdead : orsetContains full.nodeAlive (js "n") = false := by
    cases hfull
    decide +kernel
  have halive : (materializeSlice (fun _ _ => 0) sharedDot
      (provenanceIndexOf sharedDot [js "aaaa", js "bbbb", js "cccc"]) (js "n")).map
        (fun state => orsetContains state.nodeAlive (js "n")) = .ok true := by decide +kernel
  rw [hslice] at halive
  cases halive.symm.trans (congrArg Except.ok (hsame.alive.trans hdead))

end GitWarp
