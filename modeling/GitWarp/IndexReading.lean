import GitWarp.GitLogParser
import GitWarp.IndexContents
import GitWarp.LibraryLists

/-! Reading an index. Of any index of some calls, from either builder, the reader returns the names that the calls link
to a name: each once, in the order in which the calls first mention them. -/

namespace GitWarp
open Js ExceptLoops
open RoaringBitmap (toArray)

variable {Bitmap : Type} [RoaringBitmap Bitmap]

namespace BitmapIndexReader

section Reading

variable {ports : IndexPorts Bitmap} {table : IdTable} {linked : EdgeType → JsString → Nat → Prop} {index : IndexTree}

omit [RoaringBitmap Bitmap] in
theorem validateShard_wrapShard (ports : IndexPorts Bitmap) (data : ShardData) :
    validateShard ports (wrapShard ports data) = .ok data := by
  have hversion : SUPPORTED_SHARD_VERSIONS.contains (wrapShard ports data).version = true := rfl
  unfold validateShard
  rw [hversion, if_neg (Bool.noConfusion ·)]
  exact if_neg fun h => h rfl

/-! ### Numbers -/

theorem loadShard_ids (h : IsIndex ports table linked index) (shaPrefix : JsString) :
    loadShard ports index (.ids shaPrefix) = .ok (.ids (((shardBy table.shaToId.entries).get shaPrefix).getD .empty)) := by
  unfold loadShard
  rw [h.ids]
  cases (shardBy table.shaToId.entries).get shaPrefix with
  | none => rfl
  | some data => exact validateShard_wrapShard ports _

/-- The number of a name, in the shard of its prefix. -/
theorem get_idShard (table : IdTable) (shaPrefix sha : JsString) :
    (((shardBy table.shaToId.entries).get shaPrefix).getD .empty).props.get sha =
      if shardPrefix sha = shaPrefix ∧ sha ≠ protoKey then table.shaToId.get sha else none :=
  get_shardBy table.shaToId.nodup shaPrefix sha

theorem eq_of_number {sha sha' : JsString} {id : Nat} (h : table.shaToId.get sha = some id)
    (h' : table.shaToId.get sha' = some id) : sha = sha' := by
  rw [table.agree] at h h'
  exact Option.some.inj (h.symm.trans h')

theorem get_addNames {shard : PlainObject Nat}
    (hinj : ∀ sha sha' id, shard.props.get sha = some id → shard.props.get sha' = some id → sha = sha')
    (idToSha : JsMap Nat JsString) (id : Nat) (sha : JsString) :
    (addNames idToSha shard).get id = some sha ↔ shard.props.get sha = some id ∨
      ((∀ other, shard.props.get other ≠ some id) ∧ idToSha.get id = some sha) := by
  have hswap : addNames idToSha shard =
      (shard.entries.map Prod.swap).foldl (fun table entry => table.set entry.1 entry.2) idToSha := by
    rw [List.foldl_map]
    rfl
  have hnodup : ((shard.entries.map Prod.swap).map Prod.fst).Nodup := by
    rw [List.map_map]
    have hkeys : shard.entries.Pairwise fun a b => a.1 ≠ b.1 := List.pairwise_map.mp shard.props.nodup
    refine List.pairwise_map.mpr (hkeys.imp_of_mem fun {a b} ha hb hne hsame => hne ?_)
    have hbget : shard.props.get b.1 = some a.2 := (JsMap.get_eq_some_iff _ _ _).mpr (by rw [show a.2 = b.2 from hsame]; exact hb)
    exact hinj a.1 b.1 a.2 ((JsMap.get_eq_some_iff _ _ _).mpr ha) hbget
  have hlookup : ∀ other, JsMap.lookup (shard.entries.map Prod.swap) id = some other ↔ shard.props.get other = some id := by
    intro other
    rw [JsMap.lookup_eq_some_iff hnodup, List.mem_map, JsMap.get_eq_some_iff]
    constructor
    · rintro ⟨⟨name, number⟩, hmem, heq⟩
      obtain ⟨rfl, rfl⟩ := Prod.mk.inj heq
      exact hmem
    · exact fun hmem => ⟨_, hmem, rfl⟩
  rw [hswap, JsMap.get_foldl_set, JsMap.get_ofEntries_of_nodup _ hnodup, ← hlookup]
  cases hfound : JsMap.lookup (shard.entries.map Prod.swap) id with
  | some other =>
      rw [Option.some_or]
      refine (or_iff_left fun h => h.1 other ((hlookup other).mp hfound)).symm
  | none =>
      have hnone : ∀ other, shard.props.get other ≠ some id := by
        intro other hother
        rw [(hlookup other).mpr hother] at hfound
        cases hfound
      simp [hnone]

/-- The names that the reader puts by their numbers are those of the shards it has read. -/
theorem get_foldl_addNames (table : IdTable) (prefixes : List JsString) (id : Nat) (sha : JsString) :
    (prefixes.foldl (fun names shaPrefix =>
        addNames names (((shardBy table.shaToId.entries).get shaPrefix).getD .empty)) .empty).get id = some sha ↔
      shardPrefix sha ∈ prefixes ∧ sha ≠ protoKey ∧ table.shaToId.get sha = some id := by
  have hloop : ∀ (prefixes done : List JsString) (names : JsMap Nat JsString),
      (∀ id sha, names.get id = some sha ↔ shardPrefix sha ∈ done ∧ sha ≠ protoKey ∧ table.shaToId.get sha = some id) →
      ∀ id sha, (prefixes.foldl (fun names shaPrefix =>
        addNames names (((shardBy table.shaToId.entries).get shaPrefix).getD .empty)) names).get id = some sha ↔
          shardPrefix sha ∈ done ++ prefixes ∧ sha ≠ protoKey ∧ table.shaToId.get sha = some id := by
    intro prefixes
    induction prefixes with
    | nil =>
        intro done names hnames
        rwa [List.append_nil]
    | cons shaPrefix rest ih =>
        intro done names hnames
        rw [List.foldl_cons, ← List.singleton_append, ← List.append_assoc]
        refine ih (done ++ [shaPrefix]) _ fun id sha => ?_
        have hget : ∀ other, (((shardBy table.shaToId.entries).get shaPrefix).getD .empty).props.get other = some id ↔
            shardPrefix other = shaPrefix ∧ other ≠ protoKey ∧ table.shaToId.get other = some id := by
          intro other
          rw [get_idShard]
          split
          · rename_i hin
            exact ⟨fun hother => ⟨hin.1, hin.2, hother⟩, fun hother => hother.2.2⟩
          · rename_i hout
            exact iff_of_false (Option.some_ne_none _).symm fun hother => hout ⟨hother.1, hother.2.1⟩
        rw [get_addNames, hget, hnames, List.mem_append, List.mem_singleton]
        · simp only [Ne, hget]
          constructor
          · rintro (⟨hpre, hproto, hid⟩ | ⟨-, hdone, hproto, hid⟩)
            · exact ⟨.inr hpre, hproto, hid⟩
            · exact ⟨.inl hdone, hproto, hid⟩
          · rintro ⟨hdone | hpre, hproto, hid⟩
            · by_cases hpre : shardPrefix sha = shaPrefix
              · exact .inl ⟨hpre, hproto, hid⟩
              · refine .inr ⟨fun other hother => hpre ?_, hdone, hproto, hid⟩
                exact eq_of_number hid hother.2.2 ▸ hother.1
            · exact .inl ⟨hpre, hproto, hid⟩
        · intro name name' number hname hname'
          rw [get_idShard] at hname hname'
          split at hname <;> split at hname'
          · exact eq_of_number hname hname'
          · cases hname'
          · cases hname
          · cases hname
  exact hloop prefixes [] .empty (fun _ _ => by simp) id sha

theorem buildIdToShaMapping_spec (h : IsIndex ports table linked index) :
    ∃ names, buildIdToShaMapping ports index = .ok names ∧ ∀ id sha, names.get id = some sha ↔
      sha ≠ protoKey ∧ table.shaToId.get sha = some id := by
  refine ⟨_, foldlM_eq_foldl (f := fun names shaPrefix =>
    addNames names (((shardBy table.shaToId.entries).get shaPrefix).getD .empty)) (fun shaPrefix _ names => ?_) _,
    fun id sha => ?_⟩
  · rw [loadShard_ids h]
    rfl
  · rw [get_foldl_addNames]
    refine and_iff_right_of_imp fun hsha => ?_
    have hget := h.ids (shardPrefix sha)
    have hsome := (shardBy_isSome_iff table.shaToId.entries (shardPrefix sha)).mpr
      ⟨(sha, id), (JsMap.get_eq_some_iff _ _ _).mp hsha.2, rfl⟩
    obtain ⟨data, hdata⟩ := Option.isSome_iff_exists.mp hsome
    rw [hdata] at hget
    refine List.mem_filterMap.mpr ⟨.ids (shardPrefix sha), (JsMap.mem_keys_iff _ _).mpr ?_, rfl⟩
    rw [hget]
    rfl

/-! ### Bitmaps -/

theorem base64Encode_ne_nil {bytes : List UInt8} (h : bytes ≠ []) : Bytes.base64Encode bytes ≠ [] := by
  intro hnil
  have hdecoded := Bytes.base64Decode_base64Encode bytes
  rw [hnil] at hdecoded
  have hempty : Bytes.base64Decode [] = .ok [] := Bytes.base64Decode_base64Encode []
  rw [hempty, Except.ok.injEq] at hdecoded
  exact h hdecoded.symm

theorem exists_bitmap_of_linked {bitmaps : JsMap (EdgeType × JsString) Bitmap} {type : EdgeType} {sha : JsString}
    {id : Nat} (h : Linked bitmaps type sha id) :
    ∃ bitmap : Bitmap, toArray bitmap ≠ [] ∧ ∀ id', id' ∈ toArray bitmap ↔ Linked bitmaps type sha id' := by
  obtain ⟨bitmap, hget, hid⟩ := h
  refine ⟨bitmap, List.ne_nil_of_mem hid, fun id' => ⟨fun hid' => ⟨bitmap, hget, hid'⟩, ?_⟩⟩
  rintro ⟨other, hother, hid'⟩
  rw [hget, Option.some.injEq] at hother
  exact hother ▸ hid'

/-- The ids that a shard of a type has for a name are the ids that the name is linked to. -/
theorem encodedIds_spec [LawfulRoaringBitmap Bitmap] (hports : ports.Portable)
    {bitmaps : JsMap (EdgeType × JsString) Bitmap} {type : EdgeType}
    {shaPrefix : JsString} {data : PlainObject JsString} (hdata : Encodes ports (Linked bitmaps type) shaPrefix data)
    {sha : JsString}
    (hsha : sha ∉ PlainObject.inheritedNames) (hpre : shardPrefix sha = shaPrefix) :
    ∃ ids, encodedIds ports data sha = .ok ids ∧ (ids.getD []).Pairwise (· < ·) ∧
      ∀ id, id ∈ ids.getD [] ↔ Linked bitmaps type sha id := by
  have hproto : sha ≠ protoKey := by
    rintro rfl
    exact hsha (by simp [PlainObject.inheritedNames, protoKey])
  unfold encodedIds
  cases hget : data.props.get sha with
  | none =>
      have hread : data.read sha = .undefined := by
        rw [PlainObject.read, hget]
        exact if_neg fun h => hsha (List.contains_iff_mem.mp h)
      rw [hread]
      refine ⟨none, rfl, List.Pairwise.nil, fun id => iff_of_false List.not_mem_nil fun hlinked => ?_⟩
      obtain ⟨bitmap, hne, hids⟩ := exists_bitmap_of_linked hlinked
      rw [(hdata sha _).mpr ⟨⟨hpre, hproto⟩, bitmap, hne, hids, rfl⟩] at hget
      cases hget
  | some text =>
      have hread : data.read sha = .own text := (PlainObject.read_eq_own_iff data sha text).mpr hget
      obtain ⟨-, bitmap, -, hids, rfl⟩ := (hdata sha text).mp hget
      rw [hread]
      dsimp only
      rw [if_neg (base64Encode_ne_nil (hports.serialize_ne_nil bitmap)), Bytes.base64Decode_base64Encode]
      obtain ⟨read, hok, hread⟩ := hports.deserialize_serialize bitmap
      refine ⟨some (toArray read), ?_, LawfulRoaringBitmap.pairwise_toArray read, fun id => ?_⟩
      · dsimp only [bind, Except.bind]
        rw [hok]
        rfl
      · rw [← hids, ← hread]
        rfl

/-- The ids of a name, from the shard of its prefix or, where the index has none, no ids. -/
theorem exists_ids [LawfulRoaringBitmap Bitmap] (hports : ports.Portable) {builder : BitmapIndexBuilder Bitmap}
    (h : IsIndex ports builder.table (Linked builder.bitmaps) index) (type : EdgeType) {sha : JsString}
    (hsha : sha ∉ PlainObject.inheritedNames) :
    ∃ ids, (do encodedIds ports (← loadShard ports index (.edges type (shardPrefix sha))).asBitmaps sha) = .ok ids ∧
      (ids.getD []).Pairwise (· < ·) ∧ ∀ id, id ∈ ids.getD [] ↔ Linked builder.bitmaps type sha id := by
  cases hget : index.get (.edges type (shardPrefix sha)) with
  | some envelope =>
      obtain ⟨data, rfl, hdata⟩ := h.edges type (shardPrefix sha) envelope hget
      have hload : loadShard ports index (.edges type (shardPrefix sha)) = .ok (.bitmaps data) := by
        unfold loadShard
        rw [hget]
        exact validateShard_wrapShard ports _
      rw [hload]
      exact encodedIds_spec hports hdata hsha rfl
  | none =>
      have hload : loadShard ports index (.edges type (shardPrefix sha)) = .ok (.bitmaps .empty) := by
        unfold loadShard
        rw [hget]
        rfl
      have hnone := (h.isSome_iff type (shardPrefix sha)).not.mp (by rw [hget]; exact Bool.false_ne_true)
      have hread : (PlainObject.empty : PlainObject JsString).read sha = .undefined :=
        if_neg fun h => hsha (List.contains_iff_mem.mp h)
      refine ⟨none, ?_, List.Pairwise.nil, fun id => iff_of_false List.not_mem_nil fun hlinked => hnone ⟨sha, id, rfl, hlinked⟩⟩
      rw [hload]
      change encodedIds ports .empty sha = _
      unfold encodedIds
      rw [hread]
      rfl

/-- Ascending ids that are linked to a name are read as the names that the calls link to it. -/
theorem mapIds_eq_filter {calls : List IndexCall} {builder : BitmapIndexBuilder Bitmap}
    (hrecorded : RecordedCalls calls builder)
    (hnames : ∀ call ∈ calls, ∀ sha ∈ call.names, sha ∉ PlainObject.inheritedNames ∧ sha ≠ [])
    {idToSha : JsMap Nat JsString}
    (htable : ∀ id sha, idToSha.get id = some sha ↔ sha ≠ protoKey ∧ builder.table.shaToId.get sha = some id)
    {ids : List Nat} (hsorted : ids.Pairwise (· < ·)) {type : EdgeType} {sha : JsString}
    (hids : ∀ id, id ∈ ids ↔ Linked builder.bitmaps type sha id) :
    mapIds idToSha ids = (IndexCall.mentioned calls).elems.filter fun other => IndexCall.edge type sha other ∈ calls := by
  have hproto : ∀ other id, builder.table.shaToId.get other = some id → other ≠ protoKey ∧ other ≠ [] := by
    intro other id hother
    have hin : other ∈ IndexCall.mentioned calls := by
      rw [JsSet.mem_def, ← hrecorded.names]
      exact (builder.table.mem_idToSha_iff other).mpr ⟨id, hother⟩
    obtain ⟨call, hcall, hmem⟩ := (IndexCall.mem_mentioned calls other).mp hin
    obtain ⟨hplain, hne⟩ := hnames call hcall other hmem
    refine ⟨?_, hne⟩
    rintro rfl
    exact hplain (by simp [PlainObject.inheritedNames, protoKey])
  have hget : ∀ id, (idToSha.get id).filter (· ≠ []) = builder.table.idToSha[id]? := by
    intro id
    refine Option.ext fun other => ?_
    rw [Option.filter_eq_some_iff, htable, ← builder.table.agree]
    constructor
    · exact fun h => h.1.2
    · intro h
      obtain ⟨hplain, hne⟩ := hproto other id h
      exact ⟨⟨hplain, h⟩, decide_eq_true hne⟩
  rw [mapIds, ← hrecorded.names]
  simp only [hget]
  refine Lists.filterMap_getElem?_eq_filter hsorted fun id => ?_
  rw [hids, hrecorded.linked]
  simp only [builder.table.agree, decide_eq_true_eq]

/-- What is read of an index of some calls. -/
theorem getEdges_of_isIndex [LawfulRoaringBitmap Bitmap] (hports : ports.Portable) {calls : List IndexCall}
    {builder : BitmapIndexBuilder Bitmap}
    (hrecorded : RecordedCalls calls builder) (h : IsIndex ports builder.table (Linked builder.bitmaps) index)
    (hnames : ∀ call ∈ calls, ∀ sha ∈ call.names, sha ∉ PlainObject.inheritedNames ∧ sha ≠ [])
    (type : EdgeType) {sha : JsString} (hsha : sha ∉ PlainObject.inheritedNames) :
    getEdges ports index type sha =
      .ok ((IndexCall.mentioned calls).elems.filter fun other => IndexCall.edge type sha other ∈ calls) := by
  obtain ⟨ids, hok, hsorted, hids⟩ := exists_ids hports h type hsha
  obtain ⟨idToSha, hmapping, htable⟩ := buildIdToShaMapping_spec h
  have hnamesOf := mapIds_eq_filter hrecorded hnames htable hsorted hids
  rw [getEdges, ← bind_assoc, hok]
  cases ids with
  | none =>
      rw [← hnamesOf]
      rfl
  | some found =>
      change (do return mapIds (← buildIdToShaMapping ports index) found) = _
      rw [hmapping]
      exact congrArg Except.ok hnamesOf

/-- The number of a name is its place among the names in the order in which they are first mentioned. -/
theorem lookupId_of_isIndex {calls : List IndexCall} {builder : BitmapIndexBuilder Bitmap}
    (hrecorded : RecordedCalls calls builder)
    (h : IsIndex ports builder.table (Linked builder.bitmaps) index) {sha : JsString}
    (hsha : sha ∉ PlainObject.inheritedNames) :
    lookupId ports index sha = .ok (match (IndexCall.mentioned calls).elems.idxOf? sha with
      | some id => .own id
      | none => .undefined) := by
  have hproto : sha ≠ protoKey := by
    rintro rfl
    exact hsha (by simp [PlainObject.inheritedNames, protoKey])
  have hnumber : builder.table.shaToId.get sha = (IndexCall.mentioned calls).elems.idxOf? sha := by
    refine Option.ext fun id => ?_
    rw [builder.table.agree, ← hrecorded.names, List.idxOf?_eq_some_iff, List.getElem?_eq_some_iff]
    refine exists_congr fun hlt => ⟨fun hsame => ⟨hsame, fun j hji hother => ?_⟩, And.left⟩
    have hsame' := builder.table.nodup_idToSha.getElem_inj_iff.mp (hother.trans hsame.symm)
    omega
  unfold lookupId
  rw [loadShard_ids h]
  change Except.ok (PlainObject.read _ sha) = _
  rw [PlainObject.read, ShardData.asIds, get_idShard, if_pos ⟨rfl, hproto⟩, hnumber]
  cases (IndexCall.mentioned calls).elems.idxOf? sha with
  | some id => rfl
  | none => exact congrArg Except.ok (if_neg fun h => hsha (List.contains_iff_mem.mp h))

end Reading

end BitmapIndexReader

/-! ### Rebuilding an index -/

namespace IndexRebuildService

/-- The calls that a rebuild makes for the commits of a log. -/
def rebuildCalls (nodes : List GraphNode) : List IndexCall :=
  nodes.flatMap fun node => .registerNode node.sha :: node.parents.map fun parentSha => .addEdge parentSha node.sha

section Rebuild

variable {Oid : Type} (storage : IndexStorage Oid) (ports : IndexPorts Bitmap)

def persistIndex (builder : BitmapIndexBuilder Bitmap) : JsMap ShardPath Oid :=
  (builder.serialize ports).mapValues fun _ envelope => storage.writeBlob envelope

def rebuild (maxMemoryBytes : Option Nat) (nodes : List GraphNode) : Except JsError (JsMap ShardPath Oid) :=
  match maxMemoryBytes with
  | none => return persistIndex storage ports ((rebuildCalls nodes).foldl IndexCall.inMemory .new)
  | some maxMemoryBytes => do
      let builder ← StreamingBitmapIndexBuilder.new maxMemoryBytes
      ((rebuildCalls nodes).foldl (IndexCall.streaming storage ports) builder).finalize storage ports

end Rebuild

/-- The names of some commits, in the order in which the log first mentions them. -/
def mentioned (nodes : List GraphNode) : List JsString := (IndexCall.mentioned (rebuildCalls nodes)).elems

/-- The log has a commit with the parent. -/
def isParent (nodes : List GraphNode) (parentSha sha : JsString) : Bool :=
  nodes.any fun node => node.sha = sha ∧ parentSha ∈ node.parents

theorem isParent_iff (nodes : List GraphNode) (parentSha sha : JsString) :
    isParent nodes parentSha sha = decide (IndexCall.addEdge parentSha sha ∈ rebuildCalls nodes) := by
  rw [Bool.eq_iff_iff, decide_eq_true_eq, isParent, List.any_eq_true, rebuildCalls]
  simp only [List.mem_flatMap, List.mem_cons, List.mem_map, reduceCtorEq, false_or, IndexCall.addEdge.injEq, decide_eq_true_eq]
  refine exists_congr fun node => and_congr_right fun _ => ?_
  constructor
  · rintro ⟨rfl, hparent⟩
    exact ⟨parentSha, hparent, rfl, rfl⟩
  · rintro ⟨_, hparent, rfl, rfl⟩
    exact ⟨rfl, hparent⟩

theorem exists_node_of_names {nodes : List GraphNode} {call : IndexCall} (hcall : call ∈ rebuildCalls nodes) {sha : JsString}
    (hsha : sha ∈ call.names) : ∃ node ∈ nodes, sha = node.sha ∨ sha ∈ node.parents := by
  obtain ⟨node, hnode, hmem⟩ := List.mem_flatMap.mp hcall
  refine ⟨node, hnode, ?_⟩
  rcases List.mem_cons.mp hmem with rfl | hedge
  · exact .inl (List.mem_singleton.mp hsha)
  · obtain ⟨parentSha, hparent, rfl⟩ := List.mem_map.mp hedge
    rcases List.mem_cons.mp hsha with rfl | hsha
    · exact .inr hparent
    · exact .inl (List.mem_singleton.mp hsha)

/-- An index that is rebuilt, in memory or with any bound on the memory, reads back as the log: every commit has its
parents and its children, each once and in the order of the log, and its number is its place in that order. -/
theorem read_rebuild [LawfulRoaringBitmap Bitmap] {Oid : Type} {storage : IndexStorage Oid} {ports : IndexPorts Bitmap}
    (hstorage : storage.Keeps)
    (hports : ports.Portable) {maxMemoryBytes : Option Nat} (hmax : maxMemoryBytes ≠ some 0) {nodes : List GraphNode}
    (hnames : ∀ node ∈ nodes, ∀ sha, sha = node.sha ∨ sha ∈ node.parents → sha ∉ PlainObject.inheritedNames ∧ sha ≠ []) :
    ∃ tree index, rebuild storage ports maxMemoryBytes nodes = .ok tree ∧ readIndex storage tree = .ok index ∧
      ∀ sha, sha ∉ PlainObject.inheritedNames →
        BitmapIndexReader.getParents ports index sha =
          .ok ((mentioned nodes).filter fun other => isParent nodes other sha) ∧
        BitmapIndexReader.getChildren ports index sha =
          .ok ((mentioned nodes).filter fun other => isParent nodes sha other) ∧
        BitmapIndexReader.lookupId ports index sha = .ok (match (mentioned nodes).idxOf? sha with
          | some id => .own id
          | none => .undefined) := by
  have hcalls : ∀ call ∈ rebuildCalls nodes, ∀ sha ∈ call.names, sha ∉ PlainObject.inheritedNames ∧ sha ≠ [] := by
    intro call hcall sha hsha
    obtain ⟨node, hnode, hmem⟩ := exists_node_of_names hcall hsha
    exact hnames node hnode sha hmem
  have hrecorded : RecordedCalls (rebuildCalls nodes)
      ((rebuildCalls nodes).foldl IndexCall.inMemory (.new : BitmapIndexBuilder Bitmap)) := recordedCalls_run _
  have hindex : ∃ tree index, rebuild storage ports maxMemoryBytes nodes = .ok tree ∧ readIndex storage tree = .ok index ∧
      IsIndex ports ((rebuildCalls nodes).foldl IndexCall.inMemory (.new : BitmapIndexBuilder Bitmap)).table
        (Linked ((rebuildCalls nodes).foldl IndexCall.inMemory (.new : BitmapIndexBuilder Bitmap)).bitmaps) index := by
    cases maxMemoryBytes with
    | none => exact ⟨_, _, rfl, readIndex_mapValues hstorage _, isIndex_serialize hports hrecorded.filled⟩
    | some bytes =>
        obtain ⟨builder, hnew⟩ : ∃ builder : StreamingBitmapIndexBuilder Oid Bitmap,
            StreamingBitmapIndexBuilder.new bytes = .ok builder :=
          ⟨_, if_neg fun hzero => hmax (congrArg some hzero)⟩
        obtain ⟨index, hfinalize, hindex⟩ := finalize_spec hstorage hports hnew fun call hcall sha hsha =>
          (hcalls call hcall sha hsha).1
        refine ⟨_, index, ?_, readIndex_mapValues hstorage index, hindex⟩
        unfold rebuild
        dsimp only
        rw [hnew]
        exact hfinalize
  obtain ⟨tree, index, hrebuild, hread, h⟩ := hindex
  refine ⟨tree, index, hrebuild, hread, fun sha hsha => ⟨?_, ?_, ?_⟩⟩
  · rw [BitmapIndexReader.getParents, BitmapIndexReader.getEdges_of_isIndex hports hrecorded h hcalls .rev hsha]
    simp only [isParent_iff]
    rfl
  · rw [BitmapIndexReader.getChildren, BitmapIndexReader.getEdges_of_isIndex hports hrecorded h hcalls .fwd hsha]
    simp only [isParent_iff]
    rfl
  · exact BitmapIndexReader.lookupId_of_isIndex hrecorded h hsha

/-- Three commits: the second and the third have the first as a parent. -/
def threeCommits : List GraphNode :=
  [⟨[99, 51], [109], [97], [49], [[99, 50], [99, 49]], List.cons_ne_nil _ _, List.cons_ne_nil _ _⟩,
    ⟨[99, 50], [109], [97], [49], [[99, 49]], List.cons_ne_nil _ _, List.cons_ne_nil _ _⟩,
    ⟨[99, 49], [109], [97], [49], [], List.cons_ne_nil _ _, List.cons_ne_nil _ _⟩]

theorem read_rebuild_threeCommits :
    ∃ tree index, rebuild BitmapFormat.storage BitmapFormat.ports (some 100) threeCommits = .ok tree ∧
      readIndex BitmapFormat.storage tree = .ok index ∧ ∀ sha, sha ∉ PlainObject.inheritedNames →
        BitmapIndexReader.getParents BitmapFormat.ports index sha =
          .ok ((mentioned threeCommits).filter fun other => isParent threeCommits other sha) ∧
        BitmapIndexReader.getChildren BitmapFormat.ports index sha =
          .ok ((mentioned threeCommits).filter fun other => isParent threeCommits sha other) ∧
        BitmapIndexReader.lookupId BitmapFormat.ports index sha = .ok (match (mentioned threeCommits).idxOf? sha with
          | some id => .own id
          | none => .undefined) := by
  refine read_rebuild BitmapFormat.keeps_storage BitmapFormat.portable_ports (by decide) fun node hnode sha hsha => ?_
  have hlength : ∀ node ∈ threeCommits, ∀ sha, sha = node.sha ∨ sha ∈ node.parents → sha.length = 2 := by
    simp [threeCommits]
  have htwo := hlength node hnode sha hsha
  refine ⟨fun hin => ?_, fun hnil => ?_⟩
  · have hlong := PlainObject.length_of_mem_inheritedNames hin
    omega
  · rw [hnil] at htwo
    cases htwo

end IndexRebuildService

end GitWarp
