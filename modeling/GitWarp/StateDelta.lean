import GitWarp.LibraryLists
import GitWarp.ReachableStates
import GitWarp.StateDiff

/-! The diff of two states against what readers see of them. Nodes and edges are compared as readers see them, the
property registers as they are stored: a diff says nothing of the properties of a node that comes back, and it names
changes of registers that nobody sees. -/

namespace GitWarp
open Js ExceptLoops

namespace StateDiff

/-! ### Sorted lists -/

theorem compareEdges_le_iff (a b : EdgeRef) : compareEdges a b ≤ 0 ↔ a.sortKey ≤ b.sortKey := by
  unfold compareEdges EdgeRef.sortKey
  rw [Prod.Lex.toLex_le_toLex, Prod.Lex.toLex_le_toLex]
  by_cases hfrom : a.fromId = b.fromId
  · by_cases hto : a.toId = b.toId
    · by_cases hlabel : a.label = b.label
      · simp [hfrom, hto, hlabel]
      · by_cases hlt : a.label < b.label
        · simp [hfrom, hto, hlabel, hlt, hlt.le]
        · simp [hfrom, hto, hlabel, hlt, lt_of_le_of_ne (not_lt.mp hlt) (Ne.symm hlabel)]
    · by_cases hlt : a.toId < b.toId
      · simp [hfrom, hto, hlt]
      · simp [hfrom, hto, hlt]
  · by_cases hlt : a.fromId < b.fromId
    · simp [hfrom, hlt]
    · simp [hfrom, hlt]

theorem compareProps_le_iff (a b : JsString) : compareProps a b ≤ 0 ↔ a ≤ b := by
  unfold compareProps
  rcases lt_trichotomy a b with hlt | heq | hgt
  · simp [hlt, hlt.le]
  · simp [heq]
  · simp [hgt, hgt.not_gt, hgt.not_ge]

/-- Every list of a diff is sorted, and what it names is named once: nodes by their ids, edges by their ends and
labels, properties by their keys. -/
structure Ordered (diff : StateDiffResult) : Prop where
  nodesAdded : diff.nodesAdded.Pairwise (· < ·)
  nodesRemoved : diff.nodesRemoved.Pairwise (· < ·)
  edgesAdded : diff.edgesAdded.Pairwise fun a b => a.sortKey < b.sortKey
  edgesRemoved : diff.edgesRemoved.Pairwise fun a b => a.sortKey < b.sortKey
  propsSet : diff.propsSet.Pairwise fun a b => a.key < b.key
  propsRemoved : diff.propsRemoved.Pairwise fun a b => a.key < b.key

theorem EdgeRef.sortKey_injective : Function.Injective EdgeRef.sortKey := by
  intro a b h
  obtain ⟨source, target, label⟩ := a
  obtain ⟨source', target', label'⟩ := b
  simpa [EdgeRef.sortKey] using h

theorem pairwise_sortNodes {nodes : List JsString} (h : nodes.Nodup) : (nodes.insertionSort (· ≤ ·)).Pairwise (· < ·) :=
  Lists.pairwise_lt_insertionSort_key (· ≤ ·) id (fun _ _ h => h) (fun _ _ h => (not_le.mp h).le)
    (by rwa [List.map_id])

theorem pairwise_sortEdges {edges : List EdgeRef} (h : edges.Nodup) :
    (edges.insertionSort fun a b => compareEdges a b ≤ 0).Pairwise fun a b => a.sortKey < b.sortKey := by
  apply Lists.pairwise_lt_insertionSort_key (fun a b => compareEdges a b ≤ 0) EdgeRef.sortKey
  · exact fun a b hle => (compareEdges_le_iff a b).mp hle
  · intro a b hnot
    rw [compareEdges_le_iff, not_le] at hnot
    exact hnot.le
  · exact h.map EdgeRef.sortKey_injective

theorem pairwise_sortChanges {α : Type} (key : α → JsString) {changes : List α} (h : (changes.map key).Nodup) :
    (changes.insertionSort fun a b => compareProps (key a) (key b) ≤ 0).Pairwise fun a b => key a < key b := by
  apply Lists.pairwise_lt_insertionSort_key (fun a b => compareProps (key a) (key b) ≤ 0) key _ _ h
  · exact fun a b hle => (compareProps_le_iff _ _).mp hle
  · intro a b hnot
    rw [compareProps_le_iff, not_le] at hnot
    exact hnot.le

section Delta

variable {before : Option (WarpStateV5 JsValue)} {after : WarpStateV5 JsValue}

/-- The key of a change. -/
def changeKey : PropSet ⊕ PropRemoved → JsString
  | .inl change => change.key
  | .inr change => change.key

/-- Each key gives at most one change. -/
theorem nodup_changeKeys : ((diffProps before after).map changeKey).Nodup := by
  have hkey : ∀ key change, diffProp (beforeProps before) after.prop key = some change → changeKey change = key := by
    intro key change hchange
    obtain ⟨-, ⟨register, -, -, rfl⟩ | ⟨past, -, -, rfl⟩⟩ := diffProp_eq_some_iff.mp hchange
    · rfl
    · rfl
  have hsub : ∀ keys : List JsString,
      ((keys.filterMap (diffProp (beforeProps before) after.prop)).map changeKey).Sublist keys := by
    intro keys
    induction keys with
    | nil => exact List.Sublist.refl []
    | cons key rest ih =>
        cases hchange : diffProp (beforeProps before) after.prop key with
        | none =>
            rw [List.filterMap_cons_none hchange]
            exact ih.cons key
        | some change =>
            rw [List.filterMap_cons_some hchange, List.map_cons, hkey key change hchange]
            exact ih.cons_cons key
  exact (JsSet.nodup _).sublist (hsub _)

theorem nodup_setKeys : (((diffProps before after).filterMap Sum.getLeft?).map PropSet.key).Nodup := by
  have hsub : ∀ changes : List (PropSet ⊕ PropRemoved),
      ((changes.filterMap Sum.getLeft?).map PropSet.key).Sublist (changes.map changeKey) := by
    intro changes
    induction changes with
    | nil => exact List.Sublist.refl []
    | cons change rest ih =>
        cases change with
        | inl change => exact ih.cons_cons change.key
        | inr change => exact ih.cons change.key
  exact nodup_changeKeys.sublist (hsub _)

theorem nodup_removedKeys : (((diffProps before after).filterMap Sum.getRight?).map PropRemoved.key).Nodup := by
  have hsub : ∀ changes : List (PropSet ⊕ PropRemoved),
      ((changes.filterMap Sum.getRight?).map PropRemoved.key).Sublist (changes.map changeKey) := by
    intro changes
    induction changes with
    | nil => exact List.Sublist.refl []
    | cons change rest ih =>
        cases change with
        | inl change => exact ih.cons change.key
        | inr change => exact ih.cons_cons change.key
  exact nodup_changeKeys.sublist (hsub _)

theorem nodup_setAdded (before after : JsSet JsString) : (setAdded before after).Nodup := after.nodup.filter _

/-- Edges are named by their keys. -/
theorem nodup_edges {keys : List JsString} (hnodup : keys.Nodup)
    (hkeys : ∀ key ∈ keys, ∃ edge : EdgeRef, edge.NoReservedBytes ∧ key = edge.key) : (keys.map decodeEdgeKey).Nodup := by
  refine hnodup.map_on fun key hkey key' hkey' heq => ?_
  obtain ⟨edge, hedge, rfl⟩ := hkeys key hkey
  obtain ⟨edge', hedge', rfl⟩ := hkeys key' hkey'
  rw [decodeEdgeKey_key hedge.clean, decodeEdgeKey_key hedge'.clean] at heq
  rw [heq]

variable (hbefore : ∀ state, before = some state → CleanState state) (hafter : CleanState after)

include hbefore hafter

theorem ordered_diffStates : Ordered (diffStates before after) where
  nodesAdded := pairwise_sortNodes (nodup_setAdded _ _)
  nodesRemoved := pairwise_sortNodes (nodup_setAdded _ _)
  edgesAdded := by
    apply pairwise_sortEdges (nodup_edges (nodup_setAdded (edgesBefore before) _) _)
    exact fun key hkey => exists_edge_of_among hafter (mem_setAdded.mp hkey).1
  edgesRemoved := by
    apply pairwise_sortEdges (nodup_edges (nodup_setAdded _ (edgesBefore before)) _)
    exact fun key hkey => exists_edge_of_before hbefore (mem_setAdded.mp hkey).1
  propsSet := pairwise_sortChanges PropSet.key nodup_setKeys
  propsRemoved := pairwise_sortChanges PropRemoved.key nodup_removedKeys

end Delta

/-! ### A diff as a delta of what readers see -/

/-- What readers saw before; before the first state they saw nothing. -/
def visibleCopyBefore (before : Option (WarpStateV5 JsValue)) : Copy := (before.map visibleCopy).getD Copy.empty

/-- The changes of a diff made to what readers see, where a property is one of a node that is there. -/
noncomputable def Copy.apply (copy : Copy) (diff : StateDiffResult) : Copy := (copy.fold diff).shown

/-- The diff of two states turns what readers see of the first into what they see of the second; its lists are sorted
and without duplicates, and it is empty exactly where readers see the same. -/
structure CompleteDelta (before : Option (WarpStateV5 JsValue)) (after : WarpStateV5 JsValue) : Prop where
  complete : (visibleCopyBefore before).apply (diffStates before after) = visibleCopy after
  ordered : Ordered (diffStates before after)
  empty : isEmptyDiff (diffStates before after) = true ↔ visibleCopyBefore before = visibleCopy after

/-- The stored registers under a key are taken for unchanged. -/
def Unchanged (before : Option (WarpStateV5 JsValue)) (after : WarpStateV5 JsValue) (key : JsString) : Prop :=
  match (beforeProps before).get key, after.prop.get key with
  | none, none => True
  | some old, some new => deepEqual (registerValue (some old)) (registerValue (some new)) = true
  | _, _ => False

/-- What the registers must hold for the diff to be a delta. -/
structure RegistersVisible (before : Option (WarpStateV5 JsValue)) (after : WarpStateV5 JsValue) : Prop where
  /-- A register of a visible node that is taken for unchanged was visible before, with the same value. -/
  seen : ∀ node name old new, orsetContains after.nodeAlive node = true →
    (beforeProps before).get (encodePropKey node name) = some old →
    after.prop.get (encodePropKey node name) = some new →
    deepEqual (registerValue (some old)) (registerValue (some new)) = true →
      node ∈ (visibleCopyBefore before).nodes ∧ registerValue (some old) = registerValue (some new)
  /-- Where readers see no change, no register of a node changes, visible or not. -/
  quiet : visibleCopyBefore before = visibleCopy after → ∀ key, isEdgePropKey key = false → Unchanged before after key

section Visible

variable {before : Option (WarpStateV5 JsValue)} {after : WarpStateV5 JsValue}

theorem diffProp_eq_none_iff {key : JsString} (hkind : isEdgePropKey key = false) :
    diffProp (beforeProps before) after.prop key = none ↔ Unchanged before after key := by
  unfold diffProp Unchanged
  rw [hkind]
  cases hold : (beforeProps before).get key with
  | none => cases hnew : after.prop.get key <;> simp
  | some old =>
      cases hnew : after.prop.get key with
      | none => simp
      | some new =>
          cases hequal : deepEqual (registerValue (some old)) (registerValue (some new)) <;> simp [hequal]

/-- The diff is empty where the nodes and the edges are the same and no register changes. -/
theorem isEmptyDiff_iff {diff : StateDiffResult} : isEmptyDiff diff = true ↔
    ((diff.nodesAdded = [] ∧ diff.nodesRemoved = []) ∧ diff.edgesAdded = [] ∧ diff.edgesRemoved = []) ∧
      diff.propsSet = [] ∧ diff.propsRemoved = [] := by
  simp only [isEmptyDiff, Bool.and_eq_true, decide_eq_true_eq, List.length_eq_zero_iff]
  tauto

theorem unchanged_iff_no_props : (∀ key, isEdgePropKey key = false → Unchanged before after key) ↔
    (diffStates before after).propsSet = [] ∧ (diffStates before after).propsRemoved = [] := by
  have hset : (diffStates before after).propsSet = [] ↔ ∀ change, Sum.inl change ∉ diffProps before after := by
    rw [List.eq_nil_iff_forall_not_mem]
    exact forall_congr' fun change => not_congr inl_mem_diffProps
  have hremoved : (diffStates before after).propsRemoved = [] ↔ ∀ change, Sum.inr change ∉ diffProps before after := by
    rw [List.eq_nil_iff_forall_not_mem]
    exact forall_congr' fun change => not_congr inr_mem_diffProps
  rw [hset, hremoved]
  constructor
  · intro h
    have hnone : ∀ change, change ∉ diffProps before after := by
      intro change hmem
      obtain ⟨key, hchange⟩ := mem_diffProps_iff.mp hmem
      have hkind := (diffProp_eq_some_iff.mp hchange).1
      rw [(diffProp_eq_none_iff hkind).mpr (h key hkind)] at hchange
      cases hchange
    exact ⟨fun change => hnone _, fun change => hnone _⟩
  · intro h key hkind
    apply (diffProp_eq_none_iff hkind).mp
    cases hchange : diffProp (beforeProps before) after.prop key with
    | none => rfl
    | some change =>
        have hmem := mem_diffProps_iff.mpr ⟨key, hchange⟩
        cases change with
        | inl change => exact absurd hmem (h.1 change)
        | inr change => exact absurd hmem (h.2 change)

theorem visibleCopyBefore_nodes : (visibleCopyBefore before).nodes = (contentBefore before).nodes := by
  cases before with
  | none => rfl
  | some state =>
      ext node
      exact mem_orsetElements _ _

theorem visibleCopyBefore_edges : (visibleCopyBefore before).edges = (contentBefore before).edges := by
  cases before with
  | none => rfl
  | some state => rfl

variable (hbefore : ∀ state, before = some state → CleanState state) (hafter : CleanState after)

include hbefore in
theorem visibleCopyBefore_props {place : JsString × JsString} (hnode : place.1 ∈ (visibleCopyBefore before).nodes) :
    (visibleCopyBefore before).props place =
      ((beforeProps before).get (encodePropKey place.1 place.2)).map fun register => registerValue (some register) := by
  cases before with
  | none => exact absurd hnode (Set.notMem_empty _)
  | some state => exact visibleCopy_props (hbefore state rfl) ((mem_orsetElements _ _).mp hnode)

theorem visibleCopyBefore_props_dead {place : JsString × JsString}
    (hnode : place.1 ∉ (visibleCopyBefore before).nodes) : (visibleCopyBefore before).props place = none := by
  cases before with
  | none => rfl
  | some state => exact visibleCopy_props_dead fun halive => hnode ((mem_orsetElements _ _).mpr halive)

theorem shown_visibleCopyBefore : (visibleCopyBefore before).shown = visibleCopyBefore before := by
  refine Copy.ext rfl rfl (funext fun place => ?_)
  by_cases hnode : place.1 ∈ (visibleCopyBefore before).nodes
  · exact if_pos hnode
  · rw [visibleCopyBefore_props_dead hnode]
    exact if_neg hnode

include hbefore hafter

/-- After the changes the nodes and the edges are those that readers see. -/
theorem apply_nodes_edges :
    ((visibleCopyBefore before).apply (diffStates before after)).nodes = (visibleCopy after).nodes ∧
      ((visibleCopyBefore before).apply (diffStates before after)).edges = (visibleCopy after).edges := by
  constructor
  · ext node
    have hvisible : node ∈ (visibleCopy after).nodes ↔ node ∈ (contentOf after).nodes := mem_orsetElements _ _
    simp only [Copy.apply, Copy.shown, Copy.fold, Set.mem_ofPred_eq, mem_nodesAdded, mem_nodesRemoved,
      visibleCopyBefore_nodes, hvisible]
    tauto
  · ext edge
    have hvisible : edge ∈ (visibleCopy after).edges ↔ edge ∈ (contentOf after).edges := Iff.rfl
    simp only [Copy.apply, Copy.shown, Copy.fold, Set.mem_ofPred_eq, mem_edgesAdded hbefore hafter,
      mem_edgesRemoved hbefore hafter, visibleCopyBefore_edges, hvisible]
    tauto

/-- A visible node's property that is stored before or after has its place for the place of its key. -/
theorem decode_place {node name : JsString} (halive : orsetContains after.nodeAlive node = true)
    (hstored : ((beforeProps before).get (encodePropKey node name)).isSome ∨
      (after.prop.get (encodePropKey node name)).isSome) :
    decodePropKey (encodePropKey node name) = (node, name) := by
  have hnode := hafter.nodes node halive
  rcases hstored with hold | hnew
  · cases before with
    | none => cases hold
    | some state => exact (hbefore state rfl).decode_nodeKey hnode hold
  · exact hafter.decode_nodeKey hnode hnew

/-- At a place of a visible node the changes leave what readers saw, unless the register there changes. -/
theorem apply_props {node name : JsString} (halive : orsetContains after.nodeAlive node = true) :
    ((visibleCopyBefore before).apply (diffStates before after)).props (node, name) =
      match (beforeProps before).get (encodePropKey node name), after.prop.get (encodePropKey node name) with
      | _, none => none
      | none, some new => some (registerValue (some new))
      | some old, some new =>
          if deepEqual (registerValue (some old)) (registerValue (some new)) = true then
            (visibleCopyBefore before).props (node, name)
          else some (registerValue (some new)) := by
  have hkind : isEdgePropKey (encodePropKey node name) = false := isEdgePropKey_nodeKey (hafter.nodes node halive) name
  have hmem : node ∈ ((visibleCopyBefore before).fold (diffStates before after)).nodes := by
    have hnodes := (apply_nodes_edges hbefore hafter).1
    rw [show node ∈ ((visibleCopyBefore before).fold (diffStates before after)).nodes ↔
      node ∈ (visibleCopy after).nodes from Set.ext_iff.mp hnodes node]
    exact (mem_orsetElements _ _).mpr halive
  rw [Copy.apply, Copy.shown]
  simp only [if_pos hmem]
  simp only [Copy.fold]
  split
  · rename_i change hfind
    have hplace : (change.nodeId, change.propKey) = (node, name) := by simpa using List.find?_some hfind
    have hchange := List.mem_of_find?_eq_some hfind
    have hkey := key_of_propsSet hbefore hafter hchange
    obtain ⟨-, -, -, register, hnew, hvalue, hdiffers⟩ := mem_propsSet.mp hchange
    obtain ⟨rfl, rfl⟩ := Prod.mk.inj hplace
    rw [hkey] at hnew hdiffers
    rw [hnew, hvalue]
    cases hold : (beforeProps before).get (encodePropKey change.nodeId change.propKey) with
    | none => rfl
    | some old =>
        simp only
        rw [if_neg (Bool.eq_false_iff.mp (hdiffers old hold))]
  · rename_i hfind
    have hnone : ∀ change ∈ (diffStates before after).propsSet, (change.nodeId, change.propKey) ≠ (node, name) :=
      fun change hchange heq => List.find?_eq_none.mp hfind change hchange (decide_eq_true heq)
    have hremoved := @mem_removedPlaces_iff _ _ hbefore hafter (node, name)
    cases hnew : after.prop.get (encodePropKey node name) with
    | none =>
        cases hold : (beforeProps before).get (encodePropKey node name) with
        | none =>
            have hkept : (node, name) ∉ _ := fun hmem => by
              have hstored := (hremoved.mp hmem).2.2.2
              rw [hold] at hstored
              cases hstored
            rw [if_neg hkept]
            by_cases hseen : node ∈ (visibleCopyBefore before).nodes
            · rw [visibleCopyBefore_props hbefore hseen, hold]
              rfl
            · rw [visibleCopyBefore_props_dead hseen]
        | some old =>
            have hdecode := @decode_place _ _ hbefore hafter node name halive (Or.inl (by rw [hold]; rfl))
            rw [if_pos (hremoved.mpr ⟨hkind, hdecode, hnew, by rw [hold]; rfl⟩)]
    | some new =>
        have hdecode := @decode_place _ _ hbefore hafter node name halive (Or.inr (by rw [hnew]; rfl))
        obtain ⟨old, hold, hequal⟩ := exists_past_of_unchanged hnone hkind hdecode hnew
        have hkept : (node, name) ∉ _ := fun hmem => by
          have hstored := (hremoved.mp hmem).2.2.1
          rw [hnew] at hstored
          cases hstored
        rw [if_neg hkept, hold]
        simp only
        rw [if_pos hequal]

theorem CompleteDelta.registersVisible (h : CompleteDelta before after) : RegistersVisible before after := by
  refine ⟨fun node name old new halive hold hnew hequal => ?_, fun hsame => ?_⟩
  · have hprops := congrFun (congrArg Copy.props h.complete) (node, name)
    rw [apply_props hbefore hafter halive, hold, hnew, visibleCopy_props hafter halive, hnew] at hprops
    simp only [if_pos hequal, Option.map_some] at hprops
    by_cases hseen : node ∈ (visibleCopyBefore before).nodes
    · rw [visibleCopyBefore_props hbefore hseen, hold, Option.map_some] at hprops
      exact ⟨hseen, Option.some.inj hprops⟩
    · rw [visibleCopyBefore_props_dead hseen] at hprops
      cases hprops
  · exact unchanged_iff_no_props.mpr (isEmptyDiff_iff.mp (h.empty.mpr hsame)).2

theorem RegistersVisible.completeDelta (h : RegistersVisible before after) : CompleteDelta before after := by
  have hcomplete : (visibleCopyBefore before).apply (diffStates before after) = visibleCopy after := by
    obtain ⟨hnodes, hedges⟩ := apply_nodes_edges hbefore hafter
    refine Copy.ext hnodes hedges (funext fun place => ?_)
    obtain ⟨node, name⟩ := place
    by_cases halive : orsetContains after.nodeAlive node = true
    · rw [apply_props hbefore hafter halive, visibleCopy_props hafter halive]
      cases hnew : after.prop.get (encodePropKey node name) with
      | none => rfl
      | some new =>
          cases hold : (beforeProps before).get (encodePropKey node name) with
          | none => rfl
          | some old =>
              simp only
              split
              · rename_i hequal
                obtain ⟨hseen, hvalue⟩ := h.seen node name old new halive hold hnew hequal
                rw [visibleCopyBefore_props hbefore hseen, hold, Option.map_some, hvalue]
                rfl
              · rfl
    · have hdead : node ∉ ((visibleCopyBefore before).apply (diffStates before after)).nodes := by
        rw [hnodes]
        exact fun hmem => halive ((mem_orsetElements _ _).mp hmem)
      rw [visibleCopy_props_dead halive]
      exact if_neg hdead
  refine ⟨hcomplete, ordered_diffStates hbefore hafter, fun hempty => ?_, fun hsame => ?_⟩
  · rw [← hcomplete, Copy.apply, fold_of_empty hempty, shown_visibleCopyBefore]
  · have hnodes : (contentBefore before).nodes = (contentOf after).nodes := by
      rw [← visibleCopyBefore_nodes, hsame]
      ext node
      exact mem_orsetElements _ _
    have hedges : (contentBefore before).edges = (contentOf after).edges := by
      rw [← visibleCopyBefore_edges, hsame]
      rfl
    refine isEmptyDiff_iff.mpr ⟨⟨⟨?_, ?_⟩, ?_, ?_⟩, unchanged_iff_no_props.mp (h.quiet hsame)⟩
    · apply List.eq_nil_iff_forall_not_mem.mpr
      intro node hmem
      rw [mem_nodesAdded, hnodes] at hmem
      exact hmem.2 hmem.1
    · apply List.eq_nil_iff_forall_not_mem.mpr
      intro node hmem
      rw [mem_nodesRemoved, hnodes] at hmem
      exact hmem.2 hmem.1
    · apply List.eq_nil_iff_forall_not_mem.mpr
      intro edge hmem
      rw [mem_edgesAdded hbefore hafter, hedges] at hmem
      exact hmem.2 hmem.1
    · apply List.eq_nil_iff_forall_not_mem.mpr
      intro edge hmem
      rw [mem_edgesRemoved hbefore hafter, hedges] at hmem
      exact hmem.2 hmem.1

/-- The diff is a complete delta exactly where the registers hold what readers see. -/
theorem completeDelta_iff : CompleteDelta before after ↔ RegistersVisible before after :=
  ⟨CompleteDelta.registersVisible hbefore hafter, RegistersVisible.completeDelta hbefore hafter⟩

end Visible

namespace Example

def addsXWithStatus : Session JsValue :=
  ⟨js "alice", 1, true, [.addNode (js "x"), .setProperty (js "x") (js "status") (some (.string (js "new")))], js "aaaa"⟩

def addsX : Session JsValue := ⟨js "alice", 1, true, [.addNode (js "x")], js "aaaa"⟩

def removesX : Session JsValue := ⟨js "bob", 2, true, [.removeNode (js "x")], js "bbbb"⟩

def addsXAgain : Session JsValue := ⟨js "carol", 3, true, [.addNode (js "x")], js "cccc"⟩

/-- The register of `x` is stored while `x` is away; when `x` is back readers see its status, of which the diff says
nothing. -/
theorem diff_misses_status : ∃ before after, runSessions [addsXWithStatus, removesX] = some before ∧
    runSessions [addsXWithStatus, removesX, addsXAgain] = some after ∧
    (diffStates (some before) after).nodesAdded = [js "x"] ∧ (diffStates (some before) after).propsSet = [] ∧
    ¬ CompleteDelta (some before) after := by
  have hsome : (do
      let before ← runSessions [addsXWithStatus, removesX]
      let after ← runSessions [addsXWithStatus, removesX, addsXAgain]
      let old ← before.prop.get (encodePropKey (js "x") (js "status"))
      let new ← after.prop.get (encodePropKey (js "x") (js "status"))
      let diff := diffStates (some before) after
      return (!orsetContains before.nodeAlive (js "x") && orsetContains after.nodeAlive (js "x")) &&
        (deepEqual (registerValue (some old)) (registerValue (some new)) && diff.nodesAdded = [js "x"] &&
          diff.propsSet.length = 0) : Option Bool) = some true := by
    decide +kernel
  simp only [Option.bind_eq_bind, Option.bind_eq_some_iff, Option.pure_def, Option.some.injEq, Bool.and_eq_true,
    Bool.not_eq_true', decide_eq_true_eq] at hsome
  obtain ⟨before, hbefore, after, hafter, old, hold, new, hnew, ⟨hdead, halive⟩, ⟨hequal, hadded⟩, hset⟩ := hsome
  refine ⟨before, after, hbefore, hafter, hadded, List.length_eq_zero_iff.mp hset, fun h => ?_⟩
  have hclean : ∀ state, some before = some state → CleanState state := by
    intro state heq
    exact Option.some.inj heq ▸ (reachable_of_sessions hbefore).cleanState
  have hvisible := h.registersVisible hclean (reachable_of_sessions hafter).cleanState
  have hseen := (mem_orsetElements _ _).mp (hvisible.seen _ _ old new halive hold hnew hequal).1
  rw [hdead] at hseen
  cases hseen

/-- Without properties the removal of a node is told as it is seen. -/
theorem completeDelta_removal : ∃ before after, runSessions [addsX] = some before ∧
    runSessions [addsX, removesX] = some after ∧ CompleteDelta (some before) after := by
  have hsome : (do
      let before ← runSessions [addsX]
      let after ← runSessions [addsX, removesX]
      return (before.prop.entries.length, after.prop.entries.length) : Option (Nat × Nat)) = some (0, 0) := by
    decide +kernel
  simp only [Option.bind_eq_bind, Option.bind_eq_some_iff, Option.pure_def, Option.some.injEq, Prod.mk.injEq] at hsome
  obtain ⟨before, hbefore, after, hafter, hold, hnew⟩ := hsome
  have hclean : ∀ state, some before = some state → CleanState state := by
    intro state heq
    exact Option.some.inj heq ▸ (reachable_of_sessions hbefore).cleanState
  have hnone : ∀ state : WarpStateV5 JsValue, state.prop.entries.length = 0 → ∀ key, state.prop.get key = none := by
    intro state hempty key
    apply Option.eq_none_iff_forall_ne_some.mpr
    intro register hget
    have hmem := (JsMap.get_eq_some_iff state.prop key register).mp hget
    rw [List.length_eq_zero_iff.mp hempty] at hmem
    cases hmem
  refine ⟨before, after, hbefore, hafter, (completeDelta_iff hclean (reachable_of_sessions hafter).cleanState).mpr ?_⟩
  refine ⟨fun node name old new _ hget => ?_, fun _ key _ => ?_⟩
  · have hread : (beforeProps (some before)).get (encodePropKey node name) = none := hnone before hold _
    rw [hread] at hget
    cases hget
  · have hread : (beforeProps (some before)).get key = none := hnone before hold _
    unfold Unchanged
    rw [hread, hnone after hnew]
    trivial

end Example

end StateDiff

end GitWarp
