import GitWarp.BuilderReplay
import GitWarp.ReachableStates

/-! Deleting a node with what is attached to it. The edges of the node are found by the text of their keys, which
is right as long as the id of the node has no reserved byte; `removeNode` does not check that. -/

namespace GitWarp
open Js ExceptLoops

variable {V : Type}

/-- The edge that is stored under the key starts or ends at the node. -/
def Incident (nodeId key : JsString) : Prop :=
  (decodeEdgeKey key).fromId = nodeId ∨ (decodeEdgeKey key).toId = nodeId

/-- The key is that of an edge which is alive although one of its ends is not. -/
def Dangling (state : WarpStateV5 V) (key : JsString) : Prop :=
  orsetContains state.edgeAlive key = true ∧ (orsetContains state.nodeAlive (decodeEdgeKey key).fromId = false ∨
    orsetContains state.nodeAlive (decodeEdgeKey key).toId = false)

/-- The node has an edge that is alive, or a property. -/
def HasAttached (state : WarpStateV5 V) (nodeId : JsString) : Prop :=
  (∃ key, orsetContains state.edgeAlive key = true ∧ Incident nodeId key) ∨
    ∃ key, (state.prop.get key).isSome ∧ isEdgePropKey key = false ∧ (decodePropKey key).1 = nodeId

/-- `after` is `state` without the node and its edges, and otherwise the same. -/
structure WithoutNode (state : WarpStateV5 V) (nodeId : JsString) (after : WarpStateV5 V) : Prop where
  dead : orsetContains after.nodeAlive nodeId = false
  incident : ∀ key, orsetContains state.edgeAlive key = true → Incident nodeId key →
    orsetContains after.edgeAlive key = false
  nodes : ∀ other, other ≠ nodeId → orsetContains after.nodeAlive other = orsetContains state.nodeAlive other
  edges : ∀ key, ¬ (orsetContains state.edgeAlive key = true ∧ Incident nodeId key) →
    orsetContains after.edgeAlive key = orsetContains state.edgeAlive key
  dangling : ∀ key, Dangling after key → Dangling state key

/-- Every builder that cascades makes a patch which takes `state` to the state without the node. -/
def CascadeExact (state : WarpStateV5 V) (nodeId : JsString) : Prop :=
  ∀ builder : OpenBuilder V, builder.Fresh → builder.snapshotState = some state →
    builder.onDeleteWithData = .cascade → ∃ builder', builder.removeNode nodeId = some builder' ∧
      ∀ lamport patch sha, Commits builder'.toPatchBuilderV2 lamport patch → isHexOid sha = true →
        ∃ after, reduceV5From state [⟨patch, sha⟩] = .ok after ∧ WithoutNode state nodeId after

/-- Every builder that rejects throws if and only if something is attached to the node. -/
def RejectExact (state : WarpStateV5 V) (nodeId : JsString) : Prop :=
  ∀ builder : OpenBuilder V, builder.Fresh → builder.snapshotState = some state →
    builder.onDeleteWithData = .reject → (builder.removeNode nodeId = none ↔ HasAttached state nodeId)

/-- The text of no key is mistaken for one of the node, and what is not deleted has a dot of its own. -/
structure Deletable (state : WarpStateV5 V) (nodeId : JsString) : Prop where
  /-- The id is not that of the two ends of an edge with a separator between them. -/
  noEnds : ∀ key, orsetContains state.edgeAlive key = true →
    nodeId ≠ (decodeEdgeKey key).fromId ++ fieldSeparator :: (decodeEdgeKey key).toId
  /-- No key of an edge property goes on from the id. -/
  noEdgeProp : ∀ key, (state.prop.get key).isSome → isEdgePropKey key = true →
    ¬ nodeId ++ [fieldSeparator] <+: key
  nodeDots : ∀ other, other ≠ nodeId → orsetContains state.nodeAlive other = true →
    ∃ encoded ∈ orsetGetDots state.nodeAlive other, encoded ∉ orsetGetDots state.nodeAlive nodeId
  edgeDots : ∀ key, orsetContains state.edgeAlive key = true → ¬ Incident nodeId key →
    ∃ encoded ∈ orsetGetDots state.edgeAlive key, ∀ key', orsetContains state.edgeAlive key' = true →
      Incident nodeId key' → encoded ∉ orsetGetDots state.edgeAlive key'

/-! ### The text of a key -/

/-- The text tests of `findAttachedData` on the key of an edge. -/
def FoundIn (nodeId key : JsString) : Prop :=
  nodeId ++ [fieldSeparator] <+: key ∨ fieldSeparator :: (nodeId ++ [fieldSeparator]) <:+: key

theorem prefix_field_iff {s : JsString} (hs : fieldSeparator ∉ s) (n rest : JsString) :
    n ++ [fieldSeparator] <+: s ++ fieldSeparator :: rest ↔
      n = s ∨ ∃ m, n = s ++ fieldSeparator :: m ∧ m ++ [fieldSeparator] <+: rest := by
  constructor
  · rintro ⟨t, ht⟩
    rw [List.append_assoc, List.singleton_append, List.append_eq_append_iff] at ht
    rcases ht with ⟨a, hsplit, hrest⟩ | ⟨c, hsplit, hrest⟩
    · cases a with
      | nil =>
          rw [List.append_nil] at hsplit
          exact Or.inl hsplit.symm
      | cons unit a =>
          obtain ⟨rfl, -⟩ := List.cons.inj hrest
          exact absurd (hsplit ▸ List.mem_append_right n (List.mem_cons_self ..)) hs
    · cases c with
      | nil =>
          rw [List.append_nil] at hsplit
          exact Or.inl hsplit
      | cons unit m =>
          obtain ⟨rfl, hrest⟩ := List.cons.inj hrest
          refine Or.inr ⟨m, hsplit, t, ?_⟩
          rw [List.append_assoc, List.singleton_append]
          exact (List.cons.inj hrest).2.symm
  · rintro (rfl | ⟨m, rfl, t, rfl⟩)
    · exact ⟨rest, by rw [List.append_assoc, List.singleton_append]⟩
    · exact ⟨t, by simp⟩

theorem not_prefix_of_clean {s : JsString} (hs : fieldSeparator ∉ s) (n : JsString) :
    ¬ n ++ [fieldSeparator] <+: s :=
  fun h => hs (h.subset (List.mem_append_right n (List.mem_singleton_self _)))

theorem infix_field_iff {s : JsString} (hs : fieldSeparator ∉ s) (n rest : JsString) :
    fieldSeparator :: n <:+: s ++ fieldSeparator :: rest ↔ n <+: rest ∨ fieldSeparator :: n <:+: rest := by
  induction s with
  | nil =>
      rw [List.nil_append, List.infix_cons_iff, List.cons_prefix_cons]
      exact or_congr_left (and_iff_right rfl)
  | cons unit s ih =>
      rw [List.mem_cons, not_or] at hs
      rw [List.cons_append, List.infix_cons_iff, List.cons_prefix_cons, ih hs.2]
      exact or_iff_right fun h => hs.1 h.1

/-- The key of an edge is found for its ends, and for both of them as one. -/
theorem foundIn_key_iff {edge : EdgeRef} (hclean : edge.Clean) (nodeId : JsString) :
    FoundIn nodeId edge.key ↔ edge.fromId = nodeId ∨ edge.toId = nodeId ∨
      nodeId = edge.fromId ++ fieldSeparator :: edge.toId := by
  obtain ⟨hfrom, hto, hlabel⟩ := hclean
  have hrest : ∀ n : JsString, n ++ [fieldSeparator] <+: edge.toId ++ fieldSeparator :: edge.label ↔ n = edge.toId := by
    intro n
    rw [prefix_field_iff hto]
    exact or_iff_left fun ⟨m, _, hm⟩ => not_prefix_of_clean hlabel m hm
  have hinfix : ¬ fieldSeparator :: (nodeId ++ [fieldSeparator]) <:+: edge.toId ++ fieldSeparator :: edge.label := by
    rw [infix_field_iff hto]
    rintro (h | h)
    · exact not_prefix_of_clean hlabel nodeId h
    · exact hlabel (h.subset (List.mem_cons_self ..))
  unfold FoundIn EdgeRef.key encodeEdgeKey
  rw [prefix_field_iff hfrom, infix_field_iff hfrom, or_iff_left hinfix, hrest]
  constructor
  · rintro ((rfl | ⟨m, hnode, hm⟩) | rfl)
    · exact Or.inl rfl
    · rw [hrest] at hm
      exact Or.inr (Or.inr (hm ▸ hnode))
    · exact Or.inr (Or.inl rfl)
  · rintro (rfl | rfl | hnode)
    · exact Or.inl (Or.inl rfl)
    · exact Or.inr rfl
    · exact Or.inl (Or.inr ⟨edge.toId, hnode, (hrest _).mpr rfl⟩)

theorem mem_attached_edges (state : WarpStateV5 V) (nodeId key : JsString) :
    key ∈ (findAttachedData state nodeId).edges ↔ orsetContains state.edgeAlive key = true ∧ FoundIn nodeId key := by
  show key ∈ List.filter _ _ ↔ _
  rw [List.mem_filter, mem_orsetElements, Bool.or_eq_true, List.isPrefixOf_iff_prefix, decide_eq_true_iff]
  rfl

theorem mem_attached_props (state : WarpStateV5 V) (nodeId key : JsString) :
    key ∈ (findAttachedData state nodeId).props ↔
      (state.prop.get key).isSome ∧ nodeId ++ [fieldSeparator] <+: key := by
  show key ∈ List.filter _ _ ↔ _
  rw [List.mem_filter, JsMap.mem_keys_iff, List.isPrefixOf_iff_prefix]

section Found

variable {state : WarpStateV5 V} (hclean : CleanState state) {nodeId key : JsString}

include hclean

/-- The edges that are found for a node: its own and those between the halves of its id. -/
theorem foundIn_iff (halive : orsetContains state.edgeAlive key = true) :
    FoundIn nodeId key ↔ Incident nodeId key ∨
      nodeId = (decodeEdgeKey key).fromId ++ fieldSeparator :: (decodeEdgeKey key).toId := by
  obtain ⟨edge, hedge, rfl⟩ := hclean.edges key halive
  rw [foundIn_key_iff hedge.clean, Incident, decodeEdgeKey_key hedge.clean, or_assoc]

/-- An id that has something attached has no separator. -/
theorem clean_of_hasAttached (h : HasAttached state nodeId) : NoReservedBytes nodeId := by
  rcases h with ⟨key, halive, hincident⟩ | ⟨key, hkey, hnot, rfl⟩
  · obtain ⟨edge, hedge, rfl⟩ := hclean.edges key halive
    rw [Incident, decodeEdgeKey_key hedge.clean] at hincident
    rcases hincident with rfl | rfl
    · exact hedge.1
    · exact hedge.2.1
  · rcases hclean.props key hkey with ⟨node, name, hnode, hname, rfl⟩ | ⟨edge, name, _, _, rfl⟩
    · rw [decodePropKey_encodePropKey hnode.1 hname.1]
      exact hnode
    · rw [isEdgePropKey_edgeKey] at hnot
      cases hnot

/-- Apart from the keys of edge properties, the properties that are found are those of the node. -/
theorem prefix_nodeKey_iff (hkey : (state.prop.get key).isSome) (hnot : isEdgePropKey key = false) :
    nodeId ++ [fieldSeparator] <+: key ↔ (decodePropKey key).1 = nodeId := by
  rcases hclean.props key hkey with ⟨node, name, hnode, hname, rfl⟩ | ⟨edge, name, _, _, rfl⟩
  · rw [decodePropKey_encodePropKey hnode.1 hname.1, encodePropKey, prefix_field_iff hnode.1, eq_comm]
    refine or_iff_left ?_
    rintro ⟨m, -, hm⟩
    exact not_prefix_of_clean hname.1 m hm
  · rw [isEdgePropKey_edgeKey] at hnot
    cases hnot

end Found

/-! ### What a removal appends -/

/-- A builder that is open takes any operations that need no check. -/
theorem OpenBuilder.appendAll_eq {builder : OpenBuilder V} (hphase : builder.phase = .building)
    {ops : List (OpV2 V)} (hdotless : ∀ op ∈ ops, op.isDotless = true) :
    builder.appendAll ops = some (builder.edit { builder.toPatchBuilderV2 with ops := builder.ops ++ ops }) := by
  have hloop : ∀ edited : PatchBuilderV2 V, edited.phase = .building →
      ops.foldlM PatchBuilderV2.append edited = some { edited with ops := edited.ops ++ ops } := by
    induction ops with
    | nil =>
        intro edited _
        rw [List.append_nil]
        rfl
    | cons op rest ih =>
        intro edited hedited
        have hhead : edited.append op = some { edited with ops := edited.ops ++ [op] } := by
          unfold PatchBuilderV2.append PatchBuilderV2.isBuilding
          rw [hedited, hdotless op (List.mem_cons_self ..)]
          rfl
        have hrest := ih (fun op hop => hdotless op (List.mem_cons_of_mem _ hop))
          { edited with ops := edited.ops ++ [op] } hedited
        rw [List.foldlM_cons, hhead]
        refine hrest.trans ?_
        rw [List.append_assoc, List.singleton_append]
  rw [appendAll, hloop builder.toPatchBuilderV2 hphase, Option.map_some]

/-- The operations of a cascade. -/
def cascadeOps (state : WarpStateV5 V) (nodeId : JsString) : List (OpV2 V) :=
  (findAttachedData state nodeId).edges.map (cascadeRemove state) ++
    [.nodeRemove (some nodeId) (observedIn (some state) false nodeId)]

theorem mem_cascadeOps {state : WarpStateV5 V} {nodeId : JsString} {op : OpV2 V}
    (h : op ∈ cascadeOps state nodeId) : op.isDotless = true ∧ lowerCanonicalOp op = op ∧
      normalizeRawOp op = .ok op ∧ ∀ edges, op.addPair edges = none := by
  rcases List.mem_append.mp h with h | h
  · obtain ⟨key, -, rfl⟩ := List.mem_map.mp h
    exact ⟨rfl, rfl, rfl, fun edges => rfl⟩
  · cases List.mem_singleton.mp h
    exact ⟨rfl, rfl, rfl, fun edges => rfl⟩

section Calls

variable {state : WarpStateV5 V} {nodeId : JsString} {builder : OpenBuilder V} (hfresh : builder.Fresh)
  (hsnapshot : builder.snapshotState = some state)

include hfresh hsnapshot

theorem removeNode_cascade (hpolicy : builder.onDeleteWithData = .cascade) : builder.removeNode nodeId =
    some (builder.edit { builder.toPatchBuilderV2 with ops := cascadeOps state nodeId }) := by
  have hcall : builder.removeNode nodeId = builder.appendAll (cascadeOps state nodeId) := by
    simp only [OpenBuilder.removeNode, hsnapshot, hpolicy]
    rfl
  rw [hcall, OpenBuilder.appendAll_eq hfresh.phase fun op hop => (mem_cascadeOps hop).1, hfresh.ops, List.nil_append]

theorem removeNode_reject (hpolicy : builder.onDeleteWithData = .reject) :
    builder.removeNode nodeId = none ↔ (findAttachedData state nodeId).hasData = true := by
  have hdotless : ∀ op ∈ [(.nodeRemove (some nodeId) (observedIn (some state) false nodeId) : OpV2 V)],
      op.isDotless = true := by
    intro op hop
    cases List.mem_singleton.mp hop
    rfl
  have happend := OpenBuilder.appendAll_eq hfresh.phase hdotless
  simp only [OpenBuilder.removeNode, hsnapshot, hpolicy, happend]
  cases (findAttachedData state nodeId).hasData with
  | true => exact ⟨fun _ => rfl, fun _ => rfl⟩
  | false => exact ⟨nofun, nofun⟩

end Calls

theorem hasData_iff (state : WarpStateV5 V) (nodeId : JsString) :
    (findAttachedData state nodeId).hasData = true ↔
      (∃ key, orsetContains state.edgeAlive key = true ∧ FoundIn nodeId key) ∨
        ∃ key, (state.prop.get key).isSome ∧ nodeId ++ [fieldSeparator] <+: key := by
  unfold AttachedData.hasData
  rw [Bool.or_eq_true, decide_eq_true_iff, decide_eq_true_iff, List.length_pos_iff_exists_mem,
    List.length_pos_iff_exists_mem]
  exact or_congr (exists_congr fun key => mem_attached_edges state nodeId key)
    (exists_congr fun key => mem_attached_props state nodeId key)

/-! ### What a cascade removes -/

/-- The dots that a cascade removes from the nodes or, for `edges`, from the edges. -/
def DotRemoved (state : WarpStateV5 V) (nodeId : JsString) (edges : Bool) (encoded : JsString) : Prop :=
  match edges with
  | false => encoded ∈ orsetGetDots state.nodeAlive nodeId
  | true => ∃ key, orsetContains state.edgeAlive key = true ∧ FoundIn nodeId key ∧
      encoded ∈ orsetGetDots state.edgeAlive key

theorem exists_removes_iff (state : WarpStateV5 V) (nodeId : JsString) (edges : Bool) (encoded : JsString) :
    (∃ op ∈ cascadeOps state nodeId, encoded ∈ op.removedDots edges) ↔ DotRemoved state nodeId edges encoded := by
  constructor
  · rintro ⟨op, hop, hremoved⟩
    rcases List.mem_append.mp hop with hop | hop
    · obtain ⟨key, hkey, rfl⟩ := List.mem_map.mp hop
      obtain ⟨halive, hfound⟩ := (mem_attached_edges state nodeId key).mp hkey
      cases edges with
      | false => cases hremoved
      | true => exact ⟨key, halive, hfound, hremoved⟩
    · cases List.mem_singleton.mp hop
      cases edges with
      | false => exact hremoved
      | true => cases hremoved
  · intro h
    cases edges with
    | false => exact ⟨_, List.mem_append_right _ (List.mem_singleton_self _), h⟩
    | true =>
        obtain ⟨key, halive, hfound, hdot⟩ := h
        have hkey := (mem_attached_edges state nodeId key).mpr ⟨halive, hfound⟩
        exact ⟨_, List.mem_append_left _ (List.mem_map_of_mem hkey), hdot⟩

/-- The patch of a cascade is replayed, and what stays alive has a dot that the cascade does not remove. -/
theorem replay_cascade {state : WarpStateV5 V} {nodeId : JsString} {builder : PatchBuilderV2 V} {lamport : Nat}
    {patch : PatchV2 V} {sha : JsString} (hops : builder.ops = cascadeOps state nodeId)
    (hcommits : Commits builder lamport patch) (hsha : isHexOid sha = true) :
    ∃ after, reduceV5From state [⟨patch, sha⟩] = .ok after ∧ ∀ edges element,
      orsetContains (after.part edges) element = true ↔
        ∃ encoded ∈ orsetGetDots (state.part edges) element, ¬ DotRemoved state nodeId edges encoded := by
  have hpatch : patch.ops = cascadeOps state nodeId := by
    rw [(PatchBuilderV2.toPatch_eq_ok hcommits.patch).2.2, hops]
    calc (cascadeOps state nodeId).map lowerCanonicalOp
        = (cascadeOps state nodeId).map id := List.map_congr_left fun op hop => (mem_cascadeOps hop).2.1
      _ = cascadeOps state nodeId := List.map_id _
  obtain ⟨read, hread⟩ := hcommits.exists_readPatch (fun op hop => by
    rw [hops] at hop
    rw [(mem_cascadeOps hop).2.1]
    exact (mem_cascadeOps hop).2.2.1) hsha
  have hreduce : reduceV5From state [⟨patch, sha⟩] = .ok (applyRead state read) :=
    reduceV5From_eq_ok_iff.mpr ⟨[read], by rw [List.mapM_cons, hread]; rfl, rfl⟩
  refine ⟨_, hreduce, fun edges element => ?_⟩
  rw [orsetContains_iff, WarpStateV5.view_part]
  refine exists_congr fun encoded => ?_
  have hadds : ¬ ∃ entry ∈ [(⟨patch, sha⟩ : PatchEntry V)], entry.Adds edges (element, encoded) := by
    rintro ⟨entry, hentry, op, hop, hadd⟩
    cases List.mem_singleton.mp hentry
    rw [(mem_cascadeOps (hpatch ▸ hop)).2.2.2 edges] at hadd
    cases hadd
  have hremoves : (∃ entry ∈ [(⟨patch, sha⟩ : PatchEntry V)], entry.Removes edges encoded) ↔
      DotRemoved state nodeId edges encoded := by
    rw [← exists_removes_iff, ← hpatch]
    constructor
    · rintro ⟨entry, hentry, hop⟩
      cases List.mem_singleton.mp hentry
      exact hop
    · exact fun hop => ⟨_, List.mem_singleton_self _, hop⟩
  have hobserved : encoded ∈ orsetGetDots (state.part edges) element ↔ (element, encoded) ∈
      (state.view.part edges).adds ∧ encoded ∉ (state.view.part edges).tombs :=
    mem_observedIn_some state edges element encoded
  rw [mem_adds_reduceV5From hreduce, mem_tombs_reduceV5From hreduce, or_iff_left hadds, hremoves, not_or, hobserved,
    and_assoc]

/-! ### When a removal is exact -/

/-- Every state that can be deleted from is left without the node. -/
theorem Deletable.withoutNode {state after : WarpStateV5 V} {nodeId : JsString} (hclean : CleanState state)
    (h : Deletable state nodeId) (halive : ∀ edges element, orsetContains (after.part edges) element = true ↔
      ∃ encoded ∈ orsetGetDots (state.part edges) element, ¬ DotRemoved state nodeId edges encoded) :
    WithoutNode state nodeId after := by
  have hbefore : ∀ (edges : Bool) element encoded, encoded ∈ orsetGetDots (state.part edges) element →
      orsetContains (state.part edges) element = true := by
    intro edges element encoded hdot
    obtain ⟨hadd, htomb⟩ := (mem_orsetGetDots _ _ _).mp hdot
    rw [orsetContains_iff]
    exact ⟨encoded, (ORSet.mem_adds_view ..).mpr hadd, fun h => htomb ((ORSet.mem_tombs_view ..).mp h)⟩
  have hfound : ∀ key, orsetContains state.edgeAlive key = true → FoundIn nodeId key → Incident nodeId key :=
    fun key hkey hfound => ((foundIn_iff hclean hkey).mp hfound).resolve_right (h.noEnds key hkey)
  have hdead : orsetContains after.nodeAlive nodeId = false := by
    rw [← Bool.not_eq_true]
    intro hcontains
    obtain ⟨encoded, hdot, hkept⟩ := (halive false nodeId).mp hcontains
    exact hkept hdot
  have hincident : ∀ key, orsetContains state.edgeAlive key = true → Incident nodeId key →
      orsetContains after.edgeAlive key = false := by
    intro key hkey hinc
    rw [← Bool.not_eq_true]
    intro hcontains
    obtain ⟨encoded, hdot, hkept⟩ := (halive true key).mp hcontains
    exact hkept ⟨key, hkey, (foundIn_iff hclean hkey).mpr (Or.inl hinc), hdot⟩
  have hnodes : ∀ other, other ≠ nodeId →
      orsetContains after.nodeAlive other = orsetContains state.nodeAlive other := by
    intro other hother
    rw [Bool.eq_iff_iff]
    refine (halive false other).trans ⟨fun ⟨encoded, hdot, _⟩ => hbefore false other encoded hdot, fun hcontains => ?_⟩
    obtain ⟨encoded, hdot, hown⟩ := h.nodeDots other hother hcontains
    exact ⟨encoded, hdot, hown⟩
  have hedges : ∀ key, ¬ (orsetContains state.edgeAlive key = true ∧ Incident nodeId key) →
      orsetContains after.edgeAlive key = orsetContains state.edgeAlive key := by
    intro key hkey
    rw [Bool.eq_iff_iff]
    refine (halive true key).trans ⟨fun ⟨encoded, hdot, _⟩ => hbefore true key encoded hdot, fun hcontains => ?_⟩
    obtain ⟨encoded, hdot, hown⟩ := h.edgeDots key hcontains fun hinc => hkey ⟨hcontains, hinc⟩
    refine ⟨encoded, hdot, ?_⟩
    rintro ⟨key', hkey', hfound', hdot'⟩
    exact hown key' hkey' (hfound key' hkey' hfound') hdot'
  refine ⟨hdead, hincident, hnodes, hedges, fun key hdangling => ?_⟩
  obtain ⟨hkey, hends⟩ := hdangling
  by_cases hdeleted : orsetContains state.edgeAlive key = true ∧ Incident nodeId key
  · rw [hincident key hdeleted.1 hdeleted.2] at hkey
    cases hkey
  · rw [hedges key hdeleted] at hkey
    have hends' : (decodeEdgeKey key).fromId ≠ nodeId ∧ (decodeEdgeKey key).toId ≠ nodeId :=
      not_or.mp fun hinc => hdeleted ⟨hkey, hinc⟩
    rw [hnodes _ hends'.1, hnodes _ hends'.2] at hends
    exact ⟨hkey, hends⟩

theorem Deletable.cascadeExact {state : WarpStateV5 V} {nodeId : JsString} (hclean : CleanState state)
    (h : Deletable state nodeId) : CascadeExact state nodeId := by
  intro builder hfresh hsnapshot hpolicy
  refine ⟨_, removeNode_cascade hfresh hsnapshot hpolicy, fun lamport patch sha hcommits hsha => ?_⟩
  obtain ⟨after, hreduce, halive⟩ := replay_cascade rfl hcommits hsha
  exact ⟨after, hreduce, h.withoutNode hclean halive⟩

theorem Deletable.rejectExact {state : WarpStateV5 V} {nodeId : JsString} (hclean : CleanState state)
    (h : Deletable state nodeId) : RejectExact state nodeId := by
  intro builder hfresh hsnapshot hpolicy
  rw [removeNode_reject hfresh hsnapshot hpolicy, hasData_iff]
  refine or_congr (exists_congr fun key => and_congr_right fun hkey => ?_) (exists_congr fun key =>
    and_congr_right fun hkey => ?_)
  · rw [foundIn_iff hclean hkey]
    exact or_iff_left (h.noEnds key hkey)
  · cases hkind : isEdgePropKey key with
    | true => exact ⟨fun hprefix => absurd hprefix (h.noEdgeProp key hkey hkind), fun hprop => nomatch hprop.1⟩
    | false =>
        rw [prefix_nodeKey_iff hclean hkey hkind]
        exact (and_iff_right rfl).symm

/-- A builder of the writer `w` on the state. -/
def deleterOn (state : WarpStateV5 V) (policy : DeletePolicy) : OpenBuilder V where
  graph := 0
  writerId := js "w"
  lamport := 1
  vv := createVersionVector
  expectedParentSha := none
  ops := []
  phase := .building
  snapshotState := some state
  onDeleteWithData := policy
  nodesAdded := JsSet.empty
  edgesAdded := JsSet.empty

/-- Where a rejection is exact, no key is mistaken for one of the node. -/
theorem not_mistaken_of_rejectExact {state : WarpStateV5 V} {nodeId : JsString} (hclean : CleanState state)
    (h : RejectExact state nodeId) :
    (∀ key, orsetContains state.edgeAlive key = true →
      nodeId ≠ (decodeEdgeKey key).fromId ++ fieldSeparator :: (decodeEdgeKey key).toId) ∧
      ∀ key, (state.prop.get key).isSome → isEdgePropKey key = true → ¬ nodeId ++ [fieldSeparator] <+: key := by
  have hexact := h (deleterOn state .reject) ⟨rfl, rfl, rfl, rfl⟩ rfl rfl
  rw [removeNode_reject ⟨rfl, rfl, rfl, rfl⟩ rfl rfl, hasData_iff] at hexact
  constructor
  · intro key hkey heq
    have hattached := hexact.mp (Or.inl ⟨key, hkey, (foundIn_iff hclean hkey).mpr (Or.inr heq)⟩)
    refine (clean_of_hasAttached hclean hattached).1 ?_
    rw [heq]
    exact List.mem_append_right _ (List.mem_cons_self ..)
  · intro key hkey hkind hprefix
    have hattached := hexact.mp (Or.inr ⟨key, hkey, hprefix⟩)
    refine (clean_of_hasAttached hclean hattached).2 ?_
    obtain ⟨t, rfl⟩ := hprefix
    have hhead := of_decide_eq_true hkind
    cases nodeId with
    | nil => cases hhead
    | cons unit rest => exact hhead

/-- Where a cascade is exact, what stays has a dot that the cascade does not remove. -/
theorem exists_kept_of_cascadeExact {state : WarpStateV5 V} {nodeId : JsString} (h : CascadeExact state nodeId) :
    (∀ other, other ≠ nodeId → orsetContains state.nodeAlive other = true →
      ∃ encoded ∈ orsetGetDots state.nodeAlive other, ¬ DotRemoved state nodeId false encoded) ∧
      ∀ key, orsetContains state.edgeAlive key = true → ¬ Incident nodeId key →
        ∃ encoded ∈ orsetGetDots state.edgeAlive key, ¬ DotRemoved state nodeId true encoded := by
  have hcall : (deleterOn state .cascade).removeNode nodeId = _ := removeNode_cascade ⟨rfl, rfl, rfl, rfl⟩ rfl rfl
  obtain ⟨builder', hcall', hreplay⟩ := h (deleterOn state .cascade) ⟨rfl, rfl, rfl, rfl⟩ rfl rfl
  cases hcall'.symm.trans hcall
  have hops : cascadeOps state nodeId ≠ [] := List.append_ne_nil_of_right_ne_nil _ (List.cons_ne_nil _ _)
  have hsha : isHexOid (js "aaaa") = true := by decide
  have hwriter : validateWriterId (js "w") = .ok () := by decide
  obtain ⟨patch, hcommits⟩ : ∃ patch, Commits ((deleterOn state .cascade).edit
      { (deleterOn state .cascade).toPatchBuilderV2 with ops := cascadeOps state nodeId }).toPatchBuilderV2 1 patch :=
    ⟨_, hops, hwriter, le_rfl, rfl⟩
  obtain ⟨after, hreduce, hwithout⟩ := hreplay 1 patch (js "aaaa") hcommits hsha
  obtain ⟨after', hreduce', halive⟩ := replay_cascade rfl hcommits hsha
  cases hreduce'.symm.trans hreduce
  constructor
  · intro other hother hcontains
    exact (halive false other).mp ((hwithout.nodes other hother).trans hcontains)
  · intro key hkey hnot
    exact (halive true key).mp ((hwithout.edges key fun hboth => hnot hboth.2).trans hkey)

/-- A removal is exact under both policies if and only if no key is mistaken for one of the node and all that
stays has a dot of its own. -/
theorem removeNode_exact_iff (state : WarpStateV5 V) (hstate : Reachable state) (nodeId : JsString) :
    CascadeExact state nodeId ∧ RejectExact state nodeId ↔ Deletable state nodeId := by
  have hclean := hstate.cleanState
  refine ⟨fun ⟨hcascade, hreject⟩ => ?_, fun h => ⟨h.cascadeExact hclean, h.rejectExact hclean⟩⟩
  obtain ⟨hnoEnds, hnoEdgeProp⟩ := not_mistaken_of_rejectExact hclean hreject
  obtain ⟨hnodes, hedges⟩ := exists_kept_of_cascadeExact hcascade
  refine ⟨hnoEnds, hnoEdgeProp, hnodes, fun key hkey hnot => ?_⟩
  obtain ⟨encoded, hdot, hkept⟩ := hedges key hkey hnot
  refine ⟨encoded, hdot, fun key' hkey' hincident hdot' => hkept ?_⟩
  exact ⟨key', hkey', (foundIn_iff hclean hkey').mpr (Or.inl hincident), hdot'⟩

/-- The writer `w` adds the nodes `x` and `y` and an edge between them. -/
def pairSession : Session Nat :=
  ⟨js "w", 1, true, [.addNode (js "x"), .addNode (js "y"), .addEdge ⟨js "x", js "y", js "l"⟩], js "aaaa"⟩

/-- The edge goes with its node, and the other node stays. -/
theorem removeNode_exact_pair : ∃ state, runSessions [pairSession] = some state ∧
    CascadeExact state (js "x") ∧ RejectExact state (js "x") := by
  obtain ⟨state, hstate⟩ : ∃ state, runSessions [pairSession] = some state := ⟨_, rfl⟩
  refine ⟨state, hstate, (removeNode_exact_iff state (reachable_of_sessions hstate) (js "x")).mpr ?_⟩
  have hnodes : orsetElements state.nodeAlive = [js "x", js "y"] := by cases hstate; rfl
  have hedges : orsetElements state.edgeAlive = [EdgeRef.key ⟨js "x", js "y", js "l"⟩] := by cases hstate; rfl
  have hprops : state.prop.keys = [] := by cases hstate; rfl
  have hedge : ∀ key, orsetContains state.edgeAlive key = true → key = EdgeRef.key ⟨js "x", js "y", js "l"⟩ :=
    fun key hkey => List.mem_singleton.mp (hedges ▸ (mem_orsetElements _ _).mpr hkey)
  refine ⟨fun key hkey => ?_, fun key hkey => ?_, fun other hother halive => ?_, fun key hkey hnot => ?_⟩
  · cases hedge key hkey
    decide
  · have hmem := (JsMap.mem_keys_iff _ _).mpr hkey
    rw [hprops] at hmem
    cases hmem
  · have hmem := (mem_orsetElements _ _).mpr halive
    rw [hnodes] at hmem
    cases List.mem_pair.mp hmem with
    | inl heq => exact absurd heq hother
    | inr heq =>
        cases heq
        cases hstate
        exact ⟨js "w:2", by decide +kernel, by decide +kernel⟩
  · cases hedge key hkey
    exact absurd (Or.inl (by decide)) hnot

/-- `x\0y` is no node, but under a cascade its removal takes the edge from `x` to `y` away, and under `reject` it
throws. -/
theorem removeNode_takes_edge : ¬ ∀ (state : WarpStateV5 Nat), Reachable state → ∀ nodeId,
    CascadeExact state nodeId ∧ RejectExact state nodeId := by
  intro h
  obtain ⟨state, hstate⟩ : ∃ state, runSessions [pairSession] = some state := ⟨_, rfl⟩
  have hreachable := reachable_of_sessions hstate
  have hmistaken := (not_mistaken_of_rejectExact hreachable.cleanState
    (h state hreachable (js "x" ++ fieldSeparator :: js "y")).2).1
  refine hmistaken (EdgeRef.key ⟨js "x", js "y", js "l"⟩) ?_ ?_
  · cases hstate
    decide +kernel
  · decide

end GitWarp
