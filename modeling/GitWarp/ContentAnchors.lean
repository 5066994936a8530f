import GitWarp.KeyAmbiguity
import GitWarp.LibraryJsValue
import GitWarp.LibraryLists

/-! The entries by which the tree of a checkpoint keeps the blobs of contents. The values are collected in batches,
each of which is sorted and merged into the list of those before. -/

namespace GitWarp
open Js ExceptLoops

/-- `mergeSortedUniqueStrings`; the two lists are what is left from the places `i` and `j` on. -/
def mergeSortedUniqueStrings : List JsString → List JsString → List JsString
  | [], incoming => incoming
  | existing, [] => existing
  | left :: existing, right :: incoming =>
      if left = right then left :: mergeSortedUniqueStrings existing incoming
      else if left < right then left :: mergeSortedUniqueStrings existing (right :: incoming)
      else right :: mergeSortedUniqueStrings (left :: existing) incoming
  termination_by existing incoming => existing.length + incoming.length

/-- The property key that a key of the property map is decoded to. -/
def decodedPropKey (key : JsString) : Except JsError JsString :=
  if isEdgePropKey key then (decodeEdgePropKey key).map Prod.snd else .ok (decodePropKey key).2

/-- The value, where `typeof register.value === 'string'`. -/
def stringIn (register : LWWRegister JsValue) : Option JsString :=
  match register.value with
  | some (.string oid) => some oid
  | _ => none

/-- What an entry of the property map adds to the batch. -/
def anchoredOid (entry : JsString × LWWRegister JsValue) : Except JsError (Option JsString) := do
  let decodedKey ← decodedPropKey entry.1
  return if decodedKey = contentPropertyKey then stringIn entry.2 else none

def contentAnchorBatchSize : Nat := 256

structure AnchorCollector where
  sortedOids : List JsString
  batch : JsSet JsString

namespace AnchorCollector

def empty : AnchorCollector := ⟨[], JsSet.empty⟩

def flushBatch (c : AnchorCollector) : AnchorCollector :=
  if c.batch.size = 0 then c
  else ⟨mergeSortedUniqueStrings c.sortedOids (c.batch.elems.insertionSort (· ≤ ·)), JsSet.empty⟩

def take (batchSize : Nat) (c : AnchorCollector) : Option JsString → AnchorCollector
  | none => c
  | some oid =>
      let batch := c.batch.add oid
      if batchSize ≤ batch.size then flushBatch { c with batch := batch } else { c with batch := batch }

end AnchorCollector

/-- `_content_${oid}` -/
def anchorPath (oid : JsString) : JsString := js "_content_" ++ oid

/-- `100644 blob ${oid}\t_content_${oid}` -/
def anchorEntry (oid : JsString) : JsString := js "100644 blob " ++ (oid ++ (js "\t" ++ anchorPath oid))

def collectContentAnchorEntries (propMap : JsMap JsString (LWWRegister JsValue)) : Except JsError (List JsString) := do
  let collected ← propMap.entries.foldlM (fun c entry => do
    let oid ← anchoredOid entry
    return c.take contentAnchorBatchSize oid) AnchorCollector.empty
  return collected.flushBatch.sortedOids.map anchorEntry

/-- The string is the value of a property that is decoded to the key of contents. -/
def StoresContent (propMap : JsMap JsString (LWWRegister JsValue)) (oid : JsString) : Prop :=
  ∃ key register, propMap.get key = some register ∧ decodedPropKey key = .ok contentPropertyKey ∧
    register.value = some (.string oid)

/-- The string is the value of the content property of a node or of an edge. -/
def IsContent (propMap : JsMap JsString (LWWRegister JsValue)) (oid : JsString) : Prop :=
  (∃ (nodeId : Identifier) (register : LWWRegister JsValue), register.value = some (.string oid) ∧
      propMap.get (encodePropKey nodeId contentPropertyKey) = some register) ∨
    ∃ (fromId toId label : Identifier) (register : LWWRegister JsValue), register.value = some (.string oid) ∧
      propMap.get (encodeEdgePropKey fromId toId label contentPropertyKey) = some register

/-! ### Merging -/

theorem mem_mergeSortedUniqueStrings (existing incoming : List JsString) (oid : JsString) :
    oid ∈ mergeSortedUniqueStrings existing incoming ↔ oid ∈ existing ∨ oid ∈ incoming := by
  fun_induction mergeSortedUniqueStrings existing incoming with
  | case1 incoming => simp
  | case2 existing => simp
  | case3 left existing incoming ih =>
      simp only [List.mem_cons, ih]
      tauto
  | case4 left existing right incoming hne hlt ih =>
      simp only [List.mem_cons, ih]
      tauto
  | case5 left existing right incoming hne hlt ih =>
      simp only [List.mem_cons, ih]
      tauto

theorem pairwise_mergeSortedUniqueStrings {existing incoming : List JsString} (hexisting : existing.Pairwise (· < ·))
    (hincoming : incoming.Pairwise (· < ·)) : (mergeSortedUniqueStrings existing incoming).Pairwise (· < ·) := by
  fun_induction mergeSortedUniqueStrings existing incoming with
  | case1 incoming => exact hincoming
  | case2 existing => exact hexisting
  | case3 left existing incoming ih =>
      obtain ⟨hleft, hexisting⟩ := List.pairwise_cons.mp hexisting
      obtain ⟨hright, hincoming⟩ := List.pairwise_cons.mp hincoming
      refine List.pairwise_cons.mpr ⟨fun oid hoid => ?_, ih hexisting hincoming⟩
      rcases (mem_mergeSortedUniqueStrings _ _ _).mp hoid with hold | hnew
      · exact hleft oid hold
      · exact hright oid hnew
  | case4 left existing right incoming hne hlt ih =>
      obtain ⟨hleft, hexisting⟩ := List.pairwise_cons.mp hexisting
      refine List.pairwise_cons.mpr ⟨fun oid hoid => ?_, ih hexisting hincoming⟩
      rcases (mem_mergeSortedUniqueStrings _ _ _).mp hoid with hold | hnew
      · exact hleft oid hold
      · rcases List.mem_cons.mp hnew with rfl | hlater
        · exact hlt
        · exact hlt.trans ((List.pairwise_cons.mp hincoming).1 oid hlater)
  | case5 left existing right incoming hne hlt ih =>
      have hless : right < left := lt_of_le_of_ne (not_lt.mp hlt) (Ne.symm hne)
      obtain ⟨hright, hincoming⟩ := List.pairwise_cons.mp hincoming
      refine List.pairwise_cons.mpr ⟨fun oid hoid => ?_, ih hexisting hincoming⟩
      rcases (mem_mergeSortedUniqueStrings _ _ _).mp hoid with hold | hnew
      · rcases List.mem_cons.mp hold with rfl | hlater
        · exact hless
        · exact hless.trans ((List.pairwise_cons.mp hexisting).1 oid hlater)
      · exact hright oid hnew

/-! ### Batches -/

namespace AnchorCollector

/-- What is collected: the list and the batch that is not merged yet. -/
def Holds (c : AnchorCollector) (oid : JsString) : Prop := oid ∈ c.sortedOids ∨ oid ∈ c.batch

theorem holds_flushBatch (c : AnchorCollector) (oid : JsString) :
    oid ∈ c.flushBatch.sortedOids ↔ c.Holds oid := by
  unfold flushBatch Holds
  split
  · rename_i hsize
    exact (or_iff_left ((JsSet.size_eq_zero_iff _).mp hsize oid)).symm
  · rw [mem_mergeSortedUniqueStrings, List.mem_insertionSort, JsSet.mem_elems]

theorem flushBatch_holds (c : AnchorCollector) (oid : JsString) : c.flushBatch.Holds oid ↔ c.Holds oid := by
  rw [Holds, holds_flushBatch]
  refine or_iff_left_of_imp fun hbatch => ?_
  unfold flushBatch at hbatch
  split at hbatch
  · exact Or.inr hbatch
  · exact absurd hbatch (JsSet.not_mem_empty oid)

theorem sorted_flushBatch {c : AnchorCollector} (h : c.sortedOids.Pairwise (· < ·)) :
    c.flushBatch.sortedOids.Pairwise (· < ·) := by
  unfold flushBatch
  split
  · exact h
  · have hbatch := Lists.pairwise_lt_insertionSort_key (· ≤ ·) id (fun _ _ => id) (fun _ _ h => (not_le.mp h).le)
      ((List.map_id c.batch.elems).symm ▸ c.batch.nodup)
    exact pairwise_mergeSortedUniqueStrings h hbatch

theorem take_holds (batchSize : Nat) (c : AnchorCollector) (next : Option JsString) (oid : JsString) :
    (c.take batchSize next).Holds oid ↔ c.Holds oid ∨ next = some oid := by
  cases next with
  | none => simp [take]
  | some new =>
      have hadd : Holds { c with batch := c.batch.add new } oid ↔ c.Holds oid ∨ some new = some oid := by
        rw [Holds, Holds, JsSet.mem_add, Option.some.injEq, eq_comm (a := new)]
        tauto
      rw [take]
      split
      · rw [flushBatch_holds, hadd]
      · exact hadd

theorem sorted_take {c : AnchorCollector} (h : c.sortedOids.Pairwise (· < ·)) (batchSize : Nat)
    (next : Option JsString) : (c.take batchSize next).sortedOids.Pairwise (· < ·) := by
  cases next with
  | none => exact h
  | some new =>
      rw [take]
      split
      · exact sorted_flushBatch h
      · exact h

/-- Wherever the batches end, all that was taken is held once, in order. -/
theorem foldl_take (batchSize : Nat) (taken : List (Option JsString)) {c : AnchorCollector}
    (h : c.sortedOids.Pairwise (· < ·)) :
    (taken.foldl (take batchSize) c).sortedOids.Pairwise (· < ·) ∧
      ∀ oid, (taken.foldl (take batchSize) c).Holds oid ↔ c.Holds oid ∨ some oid ∈ taken := by
  induction taken generalizing c with
  | nil => exact ⟨h, fun oid => by simp⟩
  | cons next taken ih =>
      obtain ⟨hsorted, hholds⟩ := ih (sorted_take h batchSize next)
      refine ⟨hsorted, fun oid => ?_⟩
      rw [List.foldl_cons, hholds, take_holds, List.mem_cons, or_assoc, eq_comm]

end AnchorCollector

/-! ### Entries -/

theorem anchorPath_lt {oid later : JsString} (h : oid < later) : anchorPath oid < anchorPath later :=
  List.append_left_lt h

theorem anchorEntry_injective : Function.Injective anchorEntry := by
  intro oid other h
  have hrest := List.append_cancel_left h
  have hlength : oid.length = other.length := by
    have hsame := congrArg List.length hrest
    simp only [anchorPath, List.length_append] at hsame
    omega
  exact (List.append_inj hrest hlength).1

/-- A text goes before another one as soon as its continuation does not spoil it. -/
theorem append_lt_append_of_lt {a b rest rest' : JsString} {unit : CodeUnit} (h : a < b) (hb : ∀ u ∈ b, unit < u) :
    a ++ unit :: rest < b ++ unit :: rest' := by
  induction a generalizing b with
  | nil =>
      cases b with
      | nil => exact absurd h (lt_irrefl _)
      | cons u b => exact List.cons_lt_cons_iff.mpr (Or.inl (hb u List.mem_cons_self))
  | cons v a ih =>
      cases b with
      | nil => exact absurd h (List.not_lt_nil _)
      | cons u b =>
          rw [List.cons_append, List.cons_append, List.cons_lt_cons_iff]
          rcases List.cons_lt_cons_iff.mp h with hlt | ⟨rfl, hlt⟩
          · exact Or.inl hlt
          · exact Or.inr ⟨rfl, ih hlt fun w hw => hb w (List.mem_cons_of_mem _ hw)⟩

theorem anchorEntry_lt {oid later : JsString} (h : oid < later) (hunits : ∀ u ∈ later, (9 : CodeUnit) < u) :
    anchorEntry oid < anchorEntry later := by
  have htab : js "\t" = [9] := by decide +kernel
  unfold anchorEntry
  rw [htab]
  exact List.append_left_lt (append_lt_append_of_lt h hunits)

/-! ### What is collected -/

theorem decodedPropKey_encodePropKey (nodeId propKey : Identifier) :
    decodedPropKey (encodePropKey nodeId propKey) = .ok propKey.val := by
  rw [decodedPropKey, isEdgePropKey_nodeKey nodeId.property, decodePropKey_encodePropKey nodeId.property.1 propKey.property.1]
  rfl

theorem decodedPropKey_encodeEdgePropKey (fromId toId label propKey : Identifier) :
    decodedPropKey (encodeEdgePropKey fromId toId label propKey) = .ok propKey.val := by
  have hdecode := decodeEdgePropKey_edgeKey (identifiedEdge_noReservedBytes fromId toId label) propKey.property
  unfold decodedPropKey
  rw [show encodeEdgePropKey fromId toId label propKey = encodeEdgePropKey (identifiedEdge fromId toId label).fromId
    (identifiedEdge fromId toId label).toId (identifiedEdge fromId toId label).label propKey from rfl, hdecode]
  rfl

theorem stringIn_eq_some_iff {register : LWWRegister JsValue} {oid : JsString} :
    stringIn register = some oid ↔ register.value = some (.string oid) := by
  unfold stringIn
  split
  · rename_i value hvalue
    rw [hvalue, Option.some.injEq, Option.some.injEq, JsValue.string.injEq]
  · rename_i hother
    exact iff_of_false (by simp) fun h => hother oid h

theorem anchoredOid_eq_some_iff {entry : JsString × LWWRegister JsValue} {oid : JsString} :
    anchoredOid entry = .ok (some oid) ↔
      decodedPropKey entry.1 = .ok contentPropertyKey ∧ entry.2.value = some (.string oid) := by
  unfold anchoredOid
  rw [← stringIn_eq_some_iff]
  cases decodedPropKey entry.1 with
  | error err => simp [bind, Except.bind]
  | ok decodedKey =>
      rw [Except.ok.injEq]
      by_cases hkey : decodedKey = contentPropertyKey
      · simp [bind, Except.bind, pure, Except.pure, hkey]
      · simp [bind, Except.bind, pure, Except.pure, hkey]

/-- Whatever the number of the entries and their order, a map whose keys can be decoded is collected. -/
theorem exists_collected {propMap : JsMap JsString (LWWRegister JsValue)}
    (hkeys : ∀ key, (propMap.get key).isSome → ∃ decodedKey, decodedPropKey key = .ok decodedKey) :
    ∃ oids : List JsString, collectContentAnchorEntries propMap = .ok (oids.map anchorEntry) ∧
      oids.Pairwise (· < ·) ∧ ∀ oid, oid ∈ oids ↔ StoresContent propMap oid := by
  have hread : ∀ entry ∈ propMap.entries, ∃ next, anchoredOid entry = .ok next := by
    intro entry hentry
    have hget := (propMap.get_eq_some_iff entry.1 entry.2).mpr hentry
    obtain ⟨decodedKey, hkey⟩ := hkeys entry.1 (by rw [hget]; rfl)
    exact ⟨_, by rw [anchoredOid, hkey]; rfl⟩
  obtain ⟨taken, htaken⟩ := exists_mapM_ok_iff.mpr hread
  have hcollect := foldlM_eq_mapM_foldl anchoredOid (fun c entry => do
    let oid ← anchoredOid entry
    return AnchorCollector.take contentAnchorBatchSize c oid) (AnchorCollector.take contentAnchorBatchSize)
    (fun c entry => by cases anchoredOid entry <;> rfl) propMap.entries AnchorCollector.empty
  obtain ⟨hsorted, hholds⟩ := AnchorCollector.foldl_take contentAnchorBatchSize taken (c := AnchorCollector.empty)
    List.Pairwise.nil
  refine ⟨_, ?_, AnchorCollector.sorted_flushBatch hsorted, fun oid => ?_⟩
  · rw [collectContentAnchorEntries, hcollect, htaken]
    rfl
  · have hempty : ¬ AnchorCollector.empty.Holds oid := by simp [AnchorCollector.Holds, AnchorCollector.empty]
    rw [AnchorCollector.holds_flushBatch, hholds, or_iff_right hempty, mem_of_mapM_ok htaken]
    constructor
    · rintro ⟨entry, hentry, hnext⟩
      obtain ⟨hkey, hvalue⟩ := anchoredOid_eq_some_iff.mp hnext
      exact ⟨entry.1, entry.2, (propMap.get_eq_some_iff _ _).mpr hentry, hkey, hvalue⟩
    · rintro ⟨key, register, hget, hkey, hvalue⟩
      exact ⟨(key, register), (propMap.get_eq_some_iff _ _).mp hget, anchoredOid_eq_some_iff.mpr ⟨hkey, hvalue⟩⟩

theorem noReservedBytes_contentPropertyKey : NoReservedBytes contentPropertyKey := noReservedBytes_content.1

theorem decodedPropKey_of_property {key : JsString} (hkey : IsNodePropKey key ∨ IsEdgePropKey key) :
    (∃ nodeId propKey : Identifier, key = encodePropKey nodeId propKey ∧ decodedPropKey key = .ok propKey.val) ∨
      ∃ fromId toId label propKey : Identifier,
        key = encodeEdgePropKey fromId toId label propKey ∧ decodedPropKey key = .ok propKey.val := by
  rcases hkey with ⟨nodeId, propKey, hnode, hname, rfl⟩ | ⟨edge, propKey, hedge, hname, rfl⟩
  · exact Or.inl ⟨⟨nodeId, hnode⟩, ⟨propKey, hname⟩, rfl, decodedPropKey_encodePropKey ⟨nodeId, hnode⟩ ⟨propKey, hname⟩⟩
  · exact Or.inr ⟨⟨edge.fromId, hedge.1⟩, ⟨edge.toId, hedge.2.1⟩, ⟨edge.label, hedge.2.2⟩, ⟨propKey, hname⟩, rfl,
      decodedPropKey_encodeEdgePropKey ⟨edge.fromId, hedge.1⟩ ⟨edge.toId, hedge.2.1⟩ ⟨edge.label, hedge.2.2⟩
        ⟨propKey, hname⟩⟩

/-- On a map of node and edge properties, what decodes to the key of contents is stored under it. -/
theorem storesContent_iff {propMap : JsMap JsString (LWWRegister JsValue)}
    (hkeys : ∀ key, (propMap.get key).isSome → IsNodePropKey key ∨ IsEdgePropKey key) (oid : JsString) :
    StoresContent propMap oid ↔ IsContent propMap oid := by
  let content : Identifier := ⟨contentPropertyKey, noReservedBytes_contentPropertyKey⟩
  constructor
  · rintro ⟨key, register, hget, hcontent, hvalue⟩
    rcases decodedPropKey_of_property (hkeys key (by rw [hget]; rfl)) with
      ⟨nodeId, propKey, rfl, hdecoded⟩ | ⟨fromId, toId, label, propKey, rfl, hdecoded⟩
    · rw [hdecoded, Except.ok.injEq] at hcontent
      exact Or.inl ⟨nodeId, register, hvalue, hcontent ▸ hget⟩
    · rw [hdecoded, Except.ok.injEq] at hcontent
      exact Or.inr ⟨fromId, toId, label, register, hvalue, hcontent ▸ hget⟩
  · rintro (⟨nodeId, register, hvalue, hget⟩ | ⟨fromId, toId, label, register, hvalue, hget⟩)
    · exact ⟨_, register, hget, decodedPropKey_encodePropKey nodeId content, hvalue⟩
    · exact ⟨_, register, hget, decodedPropKey_encodeEdgePropKey fromId toId label content, hvalue⟩

/-- The entries are those of the contents, each one once, in the order of their paths; where no content has a unit up to
the tab, as no object id has, this is the order of the entries as well. -/
theorem contents_anchored_once (propMap : JsMap JsString (LWWRegister JsValue))
    (hkeys : ∀ key, (propMap.get key).isSome → ∃ decodedKey, decodedPropKey key = .ok decodedKey) :
    ∃ oids : List JsString, collectContentAnchorEntries propMap = .ok (oids.map anchorEntry) ∧
      (∀ oid, oid ∈ oids ↔ StoresContent propMap oid) ∧
      ((∀ key, (propMap.get key).isSome → IsNodePropKey key ∨ IsEdgePropKey key) →
        ∀ oid, oid ∈ oids ↔ IsContent propMap oid) ∧
      (oids.map anchorEntry).Nodup ∧ (oids.map anchorPath).Pairwise (· < ·) ∧
      ((∀ oid ∈ oids, ∀ u ∈ oid, (9 : CodeUnit) < u) → (oids.map anchorEntry).Pairwise (· < ·)) := by
  obtain ⟨oids, hcollect, hsorted, hmem⟩ := exists_collected hkeys
  refine ⟨oids, hcollect, hmem, fun hproperties oid => (hmem oid).trans (storesContent_iff hproperties oid), ?_, ?_,
    fun hunits => ?_⟩
  · exact (List.nodup_map_iff anchorEntry_injective).mpr (hsorted.imp fun hlt => hlt.ne)
  · exact hsorted.map anchorPath fun _ _ => anchorPath_lt
  · rw [List.pairwise_map]
    exact hsorted.imp_of_mem fun _ hlater hlt => anchorEntry_lt hlt (hunits _ hlater)

/-- One content of a node and of an edge. -/
def sharedContent : JsMap JsString (LWWRegister JsValue) :=
  ⟨[(encodePropKey (js "n") contentPropertyKey, ⟨⟨1, js "w", js "abcd", 0⟩, some (.string (js "beef"))⟩),
    (encodeEdgePropKey (js "n") (js "m") (js "l") contentPropertyKey, ⟨⟨2, js "w", js "abce", 0⟩, some (.string (js "beef"))⟩)],
    by decide +kernel⟩

theorem contents_anchored_once_shared :
    ∃ oids : List JsString, collectContentAnchorEntries sharedContent = .ok (oids.map anchorEntry) ∧
      (∀ oid, oid ∈ oids ↔ StoresContent sharedContent oid) ∧ (oids.map anchorEntry).Nodup := by
  have hkeys : ∀ key, (sharedContent.get key).isSome → ∃ decodedKey, decodedPropKey key = .ok decodedKey := by
    intro key hkey
    have hmem := (JsMap.mem_keys_iff sharedContent key).mpr hkey
    simp only [sharedContent, JsMap.keys, List.map_cons, List.map_nil, List.mem_cons, List.not_mem_nil, or_false] at hmem
    rcases hmem with rfl | rfl
    · exact ⟨contentPropertyKey, by decide +kernel⟩
    · exact ⟨contentPropertyKey, by decide +kernel⟩
  obtain ⟨oids, hcollect, hmem, -, hnodup, -⟩ := contents_anchored_once sharedContent hkeys
  exact ⟨oids, hcollect, hmem, hnodup⟩

end GitWarp
