import GitWarp.StreamingRuns

/-! What an index holds. The tree that the streaming builder writes and the tree that the builder in memory serializes
have shards of the same names, and each two shards are the same up to the order of their fields. -/

namespace GitWarp
open Js ExceptLoops
open RoaringBitmap (toArray)

variable {Oid Bitmap : Type}

/-- The fields of a shard in the order of `canonicalStringify`. -/
def ShardData.sortedFields (data : ShardData) : List (JsString × Json) :=
  data.toJson.foldr (fun field fields => SortedFields.put field.1 field.2 fields) []

/-- Two shards that differ in the order of their fields at most. -/
structure Envelope.Same (envelope envelope' : Envelope) : Prop where
  version : envelope.version = envelope'.version
  checksum : envelope.checksum = envelope'.checksum
  sortedFields : envelope.data.sortedFields = envelope'.data.sortedFields

theorem ShardData.sortedFields_eq {data data' : ShardData}
    (h : ∀ name, JsMap.lookup data.toJson name = JsMap.lookup data'.toJson name) : data.sortedFields = data'.sortedFields := by
  have hloop : ∀ fields : List (JsString × Json),
      SortedFields.Sorted (fields.foldr (fun field fields => SortedFields.put field.1 field.2 fields) []) ∧
      ∀ name, JsMap.lookup (fields.foldr (fun field fields => SortedFields.put field.1 field.2 fields) []) name =
        JsMap.lookup fields name := by
    intro fields
    induction fields with
    | nil => exact ⟨List.Pairwise.nil, fun _ => rfl⟩
    | cons field rest ih =>
        refine ⟨ih.1.put field.1 field.2, fun name => ?_⟩
        rw [List.foldr_cons, SortedFields.lookup_put, ih.2, JsMap.lookup_cons]
  obtain ⟨hsorted, hfields⟩ := hloop data.toJson
  obtain ⟨hsorted', hfields'⟩ := hloop data'.toJson
  exact SortedFields.eq_of_lookup hsorted hsorted' fun name => (hfields name).trans ((h name).trans (hfields' name).symm)

/-- Shards of the same texts have the same checksum. -/
theorem same_wrapShard {ports : IndexPorts Bitmap} {data data' : PlainObject JsString}
    (h : ∀ sha, data.props.get sha = data'.props.get sha) :
    (wrapShard ports (.bitmaps data)).Same (wrapShard ports (.bitmaps data')) := by
  have hlookup : ∀ (texts : PlainObject JsString) (name : JsString),
      JsMap.lookup (ShardData.bitmaps texts).toJson name = (texts.props.get name).map Json.string := by
    intro texts name
    exact JsMap.get_mapValues (fun _ text => Json.string text) texts.props name
  have hsorted : (ShardData.bitmaps data).sortedFields = (ShardData.bitmaps data').sortedFields :=
    ShardData.sortedFields_eq fun name => by rw [hlookup, hlookup, h]
  refine ⟨rfl, ?_, hsorted⟩
  change ports.sha256 (Json.print ShardData.printNumber (.object (ShardData.bitmaps data).sortedFields)) =
    ports.sha256 (Json.print ShardData.printNumber (.object (ShardData.bitmaps data').sortedFields))
  rw [hsorted]

/-! ### The tree -/

/-- The shards of a tree as they are read from storage. -/
def readIndex (storage : IndexStorage Oid) (tree : JsMap ShardPath Oid) : Except JsError IndexTree := do
  return JsMap.ofEntries (← tree.entries.mapM fun entry => return (entry.1, ← storage.readBlob entry.2))

theorem ofEntries_entries {K V : Type} [DecidableEq K] (m : JsMap K V) : JsMap.ofEntries m.entries = m :=
  JsMap.eq_of_entries (JsMap.entries_foldl_set m.nodup fun _ _ => rfl)

theorem readIndex_mapValues {storage : IndexStorage Oid} (hstorage : storage.Keeps) (index : IndexTree) :
    readIndex storage (index.mapValues fun _ envelope => storage.writeBlob envelope) = .ok index := by
  have hread : (index.mapValues fun _ envelope => storage.writeBlob envelope).entries.mapM
      (fun entry => return (entry.1, ← storage.readBlob entry.2)) = (.ok index.entries : Except JsError _) := by
    have hmap : (index.mapValues fun _ envelope => storage.writeBlob envelope).entries =
        index.entries.map fun entry => (entry.1, storage.writeBlob entry.2) := rfl
    rw [hmap]
    induction index.entries with
    | nil => rfl
    | cons entry rest ih =>
        rw [List.map_cons, List.mapM_cons, hstorage, ih]
        rfl
  unfold readIndex
  rw [hread]
  exact congrArg Except.ok (ofEntries_entries index)

theorem mapValues_ofEntries {K V W : Type} [DecidableEq K] (f : V → W) (entries : List (K × V)) :
    JsMap.ofEntries (entries.map fun entry => (entry.1, f entry.2)) =
      (JsMap.ofEntries entries).mapValues fun _ value => f value := by
  have hloop : ∀ (entries : List (K × V)) (m : JsMap K V),
      (entries.map fun entry => (entry.1, f entry.2)).foldl (fun m entry => m.set entry.1 entry.2)
          (m.mapValues fun _ value => f value) =
        (entries.foldl (fun m entry => m.set entry.1 entry.2) m).mapValues fun _ value => f value := by
    intro entries
    induction entries with
    | nil => exact fun _ => rfl
    | cons entry rest ih =>
        intro m
        rw [List.map_cons, List.foldl_cons, List.foldl_cons, ← ih, JsMap.mapValues_set]
  exact hloop entries JsMap.empty

section Tree

variable {ports : IndexPorts Bitmap} {table : IdTable} {chunks : List (ShardPath × Envelope)}

/-- The shards of an index with the numbers of a table and with some shards of bitmaps. -/
def indexTree (ports : IndexPorts Bitmap) (table : IdTable) (chunks : List (ShardPath × Envelope)) : IndexTree :=
  JsMap.ofEntries (metaEntries ports table ++ chunks)

theorem serialize_eq_indexTree (ports : IndexPorts Bitmap) (builder : BitmapIndexBuilder Bitmap) :
    builder.serialize ports = indexTree ports builder.table
      (bitmapEntries ports builder.bitmaps .fwd ++ bitmapEntries ports builder.bitmaps .rev) := by
  rw [BitmapIndexBuilder.serialize, indexTree, List.append_assoc]

/-- Shards of bitmaps, one of a path. -/
structure BitmapShards (chunks : List (ShardPath × Envelope)) : Prop where
  nodup : (chunks.map Prod.fst).Nodup
  edges : ∀ path envelope, (path, envelope) ∈ chunks → ∃ type shaPrefix, path = .edges type shaPrefix

theorem bitmapShards_bitmapEntries (ports : IndexPorts Bitmap) (bitmaps : JsMap (EdgeType × JsString) Bitmap) :
    BitmapShards (bitmapEntries ports bitmaps .fwd ++ bitmapEntries ports bitmaps .rev) := by
  refine ⟨nodup_bitmapEntries ports bitmaps, fun path envelope h => ?_⟩
  rcases List.mem_append.mp h with hfwd | hrev
  · obtain ⟨shaPrefix, hpath, -⟩ := mem_bitmapEntries.mp hfwd
    exact ⟨.fwd, shaPrefix, hpath⟩
  · obtain ⟨shaPrefix, hpath, -⟩ := mem_bitmapEntries.mp hrev
    exact ⟨.rev, shaPrefix, hpath⟩

theorem get_indexTree (h : BitmapShards chunks) (path : ShardPath) :
    (indexTree ports table chunks).get path = match path with
      | .ids shaPrefix =>
          ((shardBy table.shaToId.entries).get shaPrefix).map fun data => wrapShard ports (.ids data)
      | .edges type shaPrefix => JsMap.lookup chunks (.edges type shaPrefix) := by
  have hmeta : ((metaEntries ports table).map Prod.fst).Nodup := by
    rw [metaEntries, List.map_map]
    have hkeys := List.pairwise_map.mp (shardBy table.shaToId.entries).nodup
    exact List.pairwise_map.mpr (hkeys.imp fun hne hsame => hne (ShardPath.ids.inj hsame))
  have hids : ∀ entry ∈ metaEntries ports table, ∃ shaPrefix, entry.1 = .ids shaPrefix := by
    intro entry hentry
    obtain ⟨shard, -, rfl⟩ := List.mem_map.mp hentry
    exact ⟨shard.1, rfl⟩
  have hall : ((metaEntries ports table ++ chunks).map Prod.fst).Nodup := by
    rw [List.map_append, List.nodup_append]
    refine ⟨hmeta, h.nodup, fun path hleft path' hright hsame => ?_⟩
    obtain ⟨entry, hentry, rfl⟩ := List.mem_map.mp hleft
    obtain ⟨⟨_, envelope⟩, hchunk, rfl⟩ := List.mem_map.mp hright
    obtain ⟨shaPrefix, hpath⟩ := hids entry hentry
    obtain ⟨type, shaPrefix', hpath'⟩ := h.edges _ envelope hchunk
    rw [hpath] at hsame
    cases hsame.trans hpath'
  rw [indexTree, JsMap.get_ofEntries_of_nodup _ hall]
  refine Option.ext fun envelope => ?_
  rw [JsMap.lookup_eq_some_iff hall, List.mem_append]
  cases path with
  | ids shaPrefix =>
      dsimp only
      rw [Option.map_eq_some_iff]
      have hchunk : (ShardPath.ids shaPrefix, envelope) ∉ chunks := by
        intro hmem
        obtain ⟨type, shaPrefix', hpath⟩ := h.edges _ envelope hmem
        cases hpath
      rw [or_iff_left hchunk, metaEntries, List.mem_map]
      constructor
      · rintro ⟨⟨shaPrefix', data⟩, hmem, hentry⟩
        obtain ⟨hpath, henvelope⟩ := Prod.mk.inj hentry
        cases ShardPath.ids.inj hpath
        exact ⟨data, (JsMap.get_eq_some_iff _ _ _).mpr hmem, henvelope⟩
      · rintro ⟨data, hget, rfl⟩
        exact ⟨_, (JsMap.get_eq_some_iff _ _ _).mp hget, rfl⟩
  | edges type shaPrefix =>
      dsimp only
      have hids : (ShardPath.edges type shaPrefix, envelope) ∉ metaEntries ports table := by
        intro hmem
        obtain ⟨shaPrefix', hpath⟩ := hids _ hmem
        cases hpath
      rw [or_iff_right hids, JsMap.lookup_eq_some_iff h.nodup]

end Tree

variable [RoaringBitmap Bitmap]

/-- The shards hold the numbers of a table and the bitmaps of the links between them. -/
structure IsIndex (ports : IndexPorts Bitmap) (table : IdTable) (linked : EdgeType → JsString → Nat → Prop)
    (index : IndexTree) : Prop where
  ids : ∀ shaPrefix, index.get (.ids shaPrefix) =
    ((shardBy table.shaToId.entries).get shaPrefix).map fun data => wrapShard ports (.ids data)
  edges : ∀ type shaPrefix envelope, index.get (.edges type shaPrefix) = some envelope →
    ∃ data, envelope = wrapShard ports (.bitmaps data) ∧ Encodes ports (linked type) shaPrefix data
  isSome_iff : ∀ type shaPrefix, (index.get (.edges type shaPrefix)).isSome = true ↔
    ∃ sha id, shardPrefix sha = shaPrefix ∧ linked type sha id

theorem IsIndex.same {ports : IndexPorts Bitmap} {table : IdTable} {linked : EdgeType → JsString → Nat → Prop}
    {index index' : IndexTree} (h : IsIndex ports table linked index) (h' : IsIndex ports table linked index')
    (path : ShardPath) : Option.Rel Envelope.Same (index.get path) (index'.get path) := by
  cases path with
  | ids shaPrefix =>
      rw [h.ids, h'.ids]
      cases (shardBy table.shaToId.entries).get shaPrefix with
      | none => exact .none
      | some numbers => exact .some ⟨rfl, rfl, rfl⟩
  | edges type shaPrefix =>
      have hsome := (h.isSome_iff type shaPrefix).trans (h'.isSome_iff type shaPrefix).symm
      cases hget : index.get (.edges type shaPrefix) with
      | none =>
          rw [hget] at hsome
          have hnone := Option.not_isSome_iff_eq_none.mp (mt hsome.mpr Bool.false_ne_true)
          rw [hnone]
          exact .none
      | some envelope =>
          rw [hget] at hsome
          obtain ⟨envelope', hget'⟩ := Option.isSome_iff_exists.mp (hsome.mp rfl)
          obtain ⟨data, rfl, hdata⟩ := h.edges type shaPrefix envelope hget
          obtain ⟨data', rfl, hdata'⟩ := h'.edges type shaPrefix envelope' hget'
          rw [hget']
          exact .some (same_wrapShard (hdata.get_eq hdata' fun _ _ => Iff.rfl))

theorem isIndex_indexTree {ports : IndexPorts Bitmap} {table : IdTable} {chunks : List (ShardPath × Envelope)}
    {linked : EdgeType → JsString → Nat → Prop} (hchunks : BitmapShards chunks)
    (hedges : ∀ type shaPrefix envelope, (.edges type shaPrefix, envelope) ∈ chunks →
      ∃ data, envelope = wrapShard ports (.bitmaps data) ∧ Encodes ports (linked type) shaPrefix data)
    (hsome : ∀ type shaPrefix, (∃ envelope, (.edges type shaPrefix, envelope) ∈ chunks) ↔
      ∃ sha id, shardPrefix sha = shaPrefix ∧ linked type sha id) :
    IsIndex ports table linked (indexTree ports table chunks) := by
  refine ⟨fun shaPrefix => ?_, fun type shaPrefix envelope => ?_, fun type shaPrefix => ?_⟩
  · rw [get_indexTree hchunks]
  · rw [get_indexTree hchunks]
    dsimp only
    rw [JsMap.lookup_eq_some_iff hchunks.nodup]
    exact hedges type shaPrefix envelope
  · rw [← hsome, get_indexTree hchunks, Option.isSome_iff_exists]
    exact exists_congr fun envelope => JsMap.lookup_eq_some_iff hchunks.nodup _ _

theorem isIndex_serialize [LawfulRoaringBitmap Bitmap] {ports : IndexPorts Bitmap} (hports : ports.Portable)
    {builder : BitmapIndexBuilder Bitmap} (hfilled : Filled builder.bitmaps) :
    IsIndex ports builder.table (Linked builder.bitmaps) (builder.serialize ports) := by
  have hmem : ∀ type shaPrefix envelope, (.edges type shaPrefix, envelope) ∈
      bitmapEntries ports builder.bitmaps .fwd ++ bitmapEntries ports builder.bitmaps .rev ↔
        ∃ data, chunkData ports builder.bitmaps (.edges type shaPrefix) = some data ∧
          wrapShard ports (.bitmaps data) = envelope := by
    intro type shaPrefix envelope
    rw [← JsMap.lookup_eq_some_iff (nodup_bitmapEntries ports builder.bitmaps), lookup_bitmapEntries, chunk,
      Option.map_eq_some_iff]
  rw [serialize_eq_indexTree]
  refine isIndex_indexTree (bitmapShards_bitmapEntries ports _) (fun type shaPrefix envelope h => ?_) fun type shaPrefix => ?_
  · obtain ⟨data, hdata, rfl⟩ := (hmem type shaPrefix envelope).mp h
    exact ⟨data, rfl, encodes_chunkData hports hfilled hdata⟩
  · rw [← chunkData_isSome_iff ports hfilled, Option.isSome_iff_exists]
    simp only [hmem]
    constructor
    · rintro ⟨-, data, hdata, -⟩
      exact ⟨data, hdata⟩
    · rintro ⟨data, hdata⟩
      exact ⟨_, data, hdata, rfl⟩

/-! ### What the calls record -/

namespace IdTable

theorem mem_idToSha_iff (table : IdTable) (sha : JsString) :
    sha ∈ table.idToSha ↔ ∃ id, table.shaToId.get sha = some id := by
  rw [List.mem_iff_getElem?]
  exact exists_congr fun id => (table.agree sha id).symm

theorem nodup_idToSha (table : IdTable) : table.idToSha.Nodup := by
  refine List.nodup_iff_getElem?_ne_getElem?.mpr fun i j hij hlength hsame => ?_
  obtain ⟨sha, hsha⟩ : ∃ sha, table.idToSha[j]? = some sha := ⟨_, List.getElem?_eq_getElem hlength⟩
  have hi := (table.agree sha i).mpr (hsame.trans hsha)
  rw [(table.agree sha j).mpr hsha, Option.some.injEq] at hi
  omega

theorem getOrCreateId_spec (table : IdTable) (sha : JsString) :
    (table.getOrCreateId sha).1.shaToId.get sha = some (table.getOrCreateId sha).2 ∧
      (∀ other id, table.shaToId.get other = some id → (table.getOrCreateId sha).1.shaToId.get other = some id) ∧
      (table.getOrCreateId sha).1.idToSha = ((⟨table.idToSha, table.nodup_idToSha⟩ : JsSet JsString).add sha).elems := by
  unfold getOrCreateId
  split
  · rename_i id hget
    have hin : sha ∈ (⟨table.idToSha, table.nodup_idToSha⟩ : JsSet JsString) := (table.mem_idToSha_iff sha).mpr ⟨id, hget⟩
    refine ⟨hget, fun other id h => h, ?_⟩
    have hadd : (⟨table.idToSha, table.nodup_idToSha⟩ : JsSet JsString).add sha = ⟨table.idToSha, table.nodup_idToSha⟩ :=
      dif_pos hin
    rw [hadd]
  · rename_i hget
    have hout : sha ∉ (⟨table.idToSha, table.nodup_idToSha⟩ : JsSet JsString) := by
      intro hin
      obtain ⟨id, hid⟩ := (table.mem_idToSha_iff sha).mp hin
      rw [hget] at hid
      cases hid
    refine ⟨JsMap.get_set_self _ _ _, fun other id h => ?_, ?_⟩
    · have hne : other ≠ sha := by
        rintro rfl
        rw [hget] at h
        cases h
      exact (JsMap.get_set_of_ne _ _ hne).trans h
    · rw [JsSet.elems_add hout]
      rfl

end IdTable

namespace IndexCall

/-- The names that a call gives numbers to. -/
def names : IndexCall → List JsString
  | .registerNode sha => [sha]
  | .addEdge srcSha tgtSha => [srcSha, tgtSha]
  | .flush => []

/-- The call for an edge between two names: from the first to the second, or for `rev` back. -/
def edge : EdgeType → JsString → JsString → IndexCall
  | .fwd, sha, other => .addEdge sha other
  | .rev, sha, other => .addEdge other sha

theorem mem_names_edge (type : EdgeType) (sha other : JsString) :
    sha ∈ (edge type sha other).names ∧ other ∈ (edge type sha other).names := by
  cases type with
  | fwd => exact ⟨List.mem_cons_self, List.mem_cons_of_mem _ List.mem_cons_self⟩
  | rev => exact ⟨List.mem_cons_of_mem _ List.mem_cons_self, List.mem_cons_self⟩

/-- The names of some calls, in the order in which they first come. -/
def mentioned (calls : List IndexCall) : JsSet JsString := JsSet.ofList (calls.flatMap names)

theorem mentioned_append (calls : List IndexCall) (call : IndexCall) :
    mentioned (calls ++ [call]) = (mentioned calls).addAll call.names := by
  unfold mentioned JsSet.ofList JsSet.addAll
  rw [List.flatMap_append, List.foldl_append, List.flatMap_cons, List.flatMap_nil, List.append_nil]

theorem mem_mentioned (calls : List IndexCall) (sha : JsString) :
    sha ∈ mentioned calls ↔ ∃ call ∈ calls, sha ∈ call.names := by
  rw [mentioned, JsSet.mem_ofList, List.mem_flatMap]

end IndexCall

/-- The builder in memory after some calls. -/
structure RecordedCalls (calls : List IndexCall) (builder : BitmapIndexBuilder Bitmap) : Prop where
  names : builder.table.idToSha = (IndexCall.mentioned calls).elems
  filled : Filled builder.bitmaps
  linked : ∀ type sha id, Linked builder.bitmaps type sha id ↔
    ∃ other, builder.table.shaToId.get other = some id ∧ IndexCall.edge type sha other ∈ calls

theorem RecordedCalls.exists_id {calls : List IndexCall} {builder : BitmapIndexBuilder Bitmap}
    (h : RecordedCalls calls builder)
    {call : IndexCall} (hcall : call ∈ calls) {sha : JsString} (hsha : sha ∈ call.names) :
    ∃ id, builder.table.shaToId.get sha = some id := by
  rw [← IdTable.mem_idToSha_iff, h.names]
  exact (IndexCall.mem_mentioned calls sha).mpr ⟨call, hcall, hsha⟩

theorem recordedCalls_step [LawfulRoaringBitmap Bitmap] {calls : List IndexCall} {builder : BitmapIndexBuilder Bitmap}
    (h : RecordedCalls calls builder)
    (call : IndexCall) : RecordedCalls (calls ++ [call]) (call.inMemory builder) := by
  have hset : (⟨builder.table.idToSha, builder.table.nodup_idToSha⟩ : JsSet JsString) = IndexCall.mentioned calls := by
    cases hmentioned : IndexCall.mentioned calls with
    | mk elems nodup =>
        have hnames := h.names
        rw [hmentioned] at hnames
        congr 1
  have hkept : ∀ table : IdTable, (∀ other id, builder.table.shaToId.get other = some id → table.shaToId.get other = some id) →
      ∀ type sha id, (∃ other, builder.table.shaToId.get other = some id ∧ IndexCall.edge type sha other ∈ calls) ↔
        ∃ other, table.shaToId.get other = some id ∧ IndexCall.edge type sha other ∈ calls := by
    intro table hkeeps type sha id
    refine exists_congr fun other => and_congr_left fun hedge => ⟨hkeeps other id, fun hnew => ?_⟩
    obtain ⟨id', hid'⟩ := h.exists_id hedge (IndexCall.mem_names_edge type sha other).2
    rw [hkeeps other id' hid', Option.some.injEq] at hnew
    exact hnew ▸ hid'
  cases call with
  | flush =>
      refine ⟨?_, h.filled, fun type sha id => ?_⟩
      · rw [IndexCall.mentioned_append]
        exact h.names
      · rw [IndexCall.inMemory, h.linked]
        cases type <;> simp [IndexCall.edge]
  | registerNode node =>
      obtain ⟨-, hkeeps, hids⟩ := builder.table.getOrCreateId_spec node
      refine ⟨?_, h.filled, fun type sha id => ?_⟩
      · rw [IndexCall.mentioned_append, ← hset]
        exact hids
      · refine (h.linked type sha id).trans ((hkept _ hkeeps type sha id).trans ?_)
        cases type <;> simp [IndexCall.edge, IndexCall.inMemory, BitmapIndexBuilder.registerNode]
  | addEdge srcSha tgtSha =>
      obtain ⟨hsrc, hkeeps, hids⟩ := builder.table.getOrCreateId_spec srcSha
      obtain ⟨htgt, hkeeps', hids'⟩ := (builder.table.getOrCreateId srcSha).1.getOrCreateId_spec tgtSha
      have hsrc' := hkeeps' _ _ hsrc
      refine ⟨?_, ?_, fun type sha id => ?_⟩
      · rw [IndexCall.mentioned_append, ← hset]
        refine hids'.trans ?_
        congr 2
        cases hadd : JsSet.add ⟨builder.table.idToSha, builder.table.nodup_idToSha⟩ srcSha with
        | mk elems nodup =>
            rw [hadd] at hids
            congr 1
      · exact filled_addToBitmap (filled_addToBitmap h.filled _ _ _) _ _ _
      · have hold := (h.linked type sha id).trans
          (hkept _ (fun other id' hid' => hkeeps' _ _ (hkeeps _ _ hid')) type sha id)
        refine (linked_addToBitmap _ _ _ _ _ _ _).trans ?_
        rw [linked_addToBitmap, hold]
        simp only [List.mem_append, List.mem_singleton, and_or_left, exists_or, or_assoc]
        refine or_congr_right ?_
        change _ ↔ ∃ other, ((builder.table.getOrCreateId srcSha).1.getOrCreateId tgtSha).1.shaToId.get other = some id ∧ _
        cases type with
        | fwd =>
            simp only [IndexCall.edge, IndexCall.addEdge.injEq, Prod.mk.injEq, true_and, reduceCtorEq, false_and, or_false]
            constructor
            · rintro ⟨rfl, rfl⟩
              exact ⟨tgtSha, htgt, rfl, rfl⟩
            · rintro ⟨other, hid, rfl, rfl⟩
              rw [htgt, Option.some.injEq] at hid
              exact ⟨rfl, hid.symm⟩
        | rev =>
            simp only [IndexCall.edge, IndexCall.addEdge.injEq, Prod.mk.injEq, true_and, reduceCtorEq, false_and, false_or]
            constructor
            · rintro ⟨rfl, rfl⟩
              exact ⟨srcSha, hsrc', rfl, rfl⟩
            · rintro ⟨other, hid, rfl, rfl⟩
              rw [hsrc', Option.some.injEq] at hid
              exact ⟨rfl, hid.symm⟩

theorem recordedCalls_run [LawfulRoaringBitmap Bitmap] (calls : List IndexCall) :
    RecordedCalls calls (calls.foldl IndexCall.inMemory (.new : BitmapIndexBuilder Bitmap)) := by
  have hloop : ∀ (later done : List IndexCall) (builder : BitmapIndexBuilder Bitmap), RecordedCalls done builder →
      RecordedCalls (done ++ later) (later.foldl IndexCall.inMemory builder) := by
    intro later
    induction later with
    | nil =>
        intro done builder h
        rwa [List.append_nil]
    | cons call rest ih =>
        intro done builder h
        have hrest := ih (done ++ [call]) (call.inMemory builder) (recordedCalls_step h call)
        rwa [List.append_assoc, List.singleton_append] at hrest
  refine hloop calls [] .new ⟨rfl, fun key bitmap hget => (by cases hget), fun type sha id => iff_of_false ?_ ?_⟩
  · rintro ⟨bitmap, hget, -⟩
    cases hget
  · rintro ⟨other, -, hedge⟩
    cases hedge

/-! ### A format and a storage -/

namespace BitmapFormat

/-- Each id as two bytes, the lower one first. -/
def writePairs (ids : List Nat) : List UInt8 := ids.flatMap fun id => [UInt8.ofNat id, UInt8.ofNat (id / 256)]

def readPairs : List UInt8 → List Nat
  | low :: high :: rest => (low.toNat + 256 * high.toNat) :: readPairs rest
  | _ => []

/-- Each id as so many ones before a zero. -/
def writeUnary (ids : List Nat) : List UInt8 := ids.flatMap fun id => List.replicate id 1 ++ [0]

def readUnary : Nat → List UInt8 → List Nat
  | _, [] => []
  | id, byte :: rest => if byte = 0 then id :: readUnary 0 rest else readUnary (id + 1) rest

/-- The portable format of a bitmap with one array of ids: the cookie, the number of arrays, the key and the size of the
array and where it begins. Other bitmaps have a format of their own here. -/
def serialize (bitmap : IdSet) : List UInt8 :=
  if bitmap.ids.all (· < 65536) then
    0x3A :: [0x30, 0, 0, 1, 0, 0, 0, 0, 0, UInt8.ofNat (bitmap.size - 1), UInt8.ofNat ((bitmap.size - 1) / 256), 16, 0, 0, 0] ++
      writePairs bitmap.ids
  else 0 :: writeUnary bitmap.ids

def deserialize : List UInt8 → Except JsError IdSet
  | [] => thrown "empty buffer"
  | cookie :: rest =>
      .ok ((if cookie = 0 then readUnary 0 rest else readPairs (rest.drop 15)).foldl IdSet.add .empty)

theorem readPairs_writePairs {ids : List Nat} (h : ∀ id ∈ ids, id < 65536) : readPairs (writePairs ids) = ids := by
  induction ids with
  | nil => rfl
  | cons id rest ih =>
      obtain ⟨hid, hrest⟩ := List.forall_mem_cons.mp h
      change (_ :: readPairs (writePairs rest)) = _
      rw [ih hrest]
      congr 1
      simp only [UInt8.toNat_ofNat']
      omega

theorem readUnary_writeUnary (ids : List Nat) : readUnary 0 (writeUnary ids) = ids := by
  have hones : ∀ n id rest, readUnary id (List.replicate n 1 ++ 0 :: rest) = (id + n) :: readUnary 0 rest := by
    intro n
    induction n with
    | zero => exact fun id rest => rfl
    | succ n ih =>
        intro id rest
        rw [List.replicate_succ, List.cons_append, readUnary, if_neg (by decide), ih]
        congr 1
        omega
  induction ids with
  | nil => rfl
  | cons id rest ih =>
      rw [writeUnary, List.flatMap_cons, List.append_assoc, List.singleton_append, hones, Nat.zero_add]
      exact congrArg _ ih

theorem foldl_add_ids (bitmap : IdSet) : bitmap.ids.foldl IdSet.add .empty = bitmap := by
  refine IdSet.eq_of_mem_iff fun id => ?_
  change id ∈ (IdSet.empty.orInPlace bitmap).ids ↔ _
  rw [IdSet.mem_orInPlace]
  exact or_iff_right List.not_mem_nil

def ports : IndexPorts IdSet := ⟨serialize, deserialize, fun text => text⟩

theorem deserialize_serialize (bitmap : IdSet) : deserialize (serialize bitmap) = .ok bitmap := by
  unfold serialize
  split
  · rename_i hsmall
    have hids : ∀ id ∈ bitmap.ids, id < 65536 := fun id hid => of_decide_eq_true (List.all_eq_true.mp hsmall id hid)
    change Except.ok ((readPairs (writePairs bitmap.ids)).foldl IdSet.add .empty) = _
    rw [readPairs_writePairs hids, foldl_add_ids]
  · change Except.ok ((readUnary 0 (writeUnary bitmap.ids)).foldl IdSet.add .empty) = _
    rw [readUnary_writeUnary, foldl_add_ids]

theorem portable_ports : ports.Portable := by
  refine ⟨fun bitmap => ⟨bitmap, deserialize_serialize bitmap, rfl⟩, fun bitmap other hids => ?_, fun bitmap => ?_⟩
  · exact congrArg serialize (IdSet.eq_of_mem_iff fun id => by rw [show bitmap.ids = other.ids from hids])
  · change serialize bitmap ≠ []
    unfold serialize
    split <;> exact List.cons_ne_nil _ _

/-- A storage that names a blob by its contents. -/
def storage : IndexStorage Envelope := ⟨fun envelope => envelope, fun oid => .ok oid⟩

theorem keeps_storage : storage.Keeps := fun _ => rfl

end BitmapFormat

/-! ### The finished index -/

section Finish

variable {storage : IndexStorage Oid} {ports : IndexPorts Bitmap}

theorem not_linked_flush (builder : StreamingBitmapIndexBuilder Oid Bitmap) (type : EdgeType) (sha : JsString)
    (id : Nat) :
    ¬ Linked (builder.flush storage ports).bitmaps type sha id := by
  unfold StreamingBitmapIndexBuilder.flush
  split
  · rename_i hsize
    rintro ⟨bitmap, hget, -⟩
    have hentry := (JsMap.get_eq_some_iff _ _ _).mp hget
    rw [List.length_eq_zero_iff.mp hsize] at hentry
    cases hentry
  · rintro ⟨bitmap, hget, -⟩
    cases hget

theorem chunkOids_ne_nil_iff (storage : IndexStorage Oid) (ports : IndexPorts Bitmap)
    {flushed : List (JsMap (EdgeType × JsString) Bitmap)} (hfilled : ∀ bitmaps ∈ flushed, Filled bitmaps)
    (type : EdgeType) (shaPrefix : JsString) : chunkOids storage ports (.edges type shaPrefix) flushed ≠ [] ↔
      ∃ sha id, shardPrefix sha = shaPrefix ∧ LinkedIn flushed type sha id := by
  have hchunk : ∀ bitmaps ∈ flushed,
      (chunk ports bitmaps (.edges type shaPrefix)).map storage.writeBlob ≠ none ↔
        ∃ sha id, shardPrefix sha = shaPrefix ∧ Linked bitmaps type sha id := by
    intro bitmaps hbitmaps
    rw [← chunkData_isSome_iff ports (hfilled bitmaps hbitmaps), Option.ne_none_iff_isSome, Option.isSome_map, chunk,
      Option.isSome_map]
  rw [chunkOids, Ne, List.filterMap_eq_nil_iff, not_forall]
  constructor
  · intro h
    obtain ⟨bitmaps, hnot⟩ := h
    obtain ⟨hmem, hne⟩ := Classical.not_imp.mp hnot
    obtain ⟨sha, id, hpre, hlinked⟩ := (hchunk bitmaps hmem).mp hne
    exact ⟨sha, id, hpre, bitmaps, hmem, hlinked⟩
  · rintro ⟨sha, id, hpre, bitmaps, hmem, hlinked⟩
    exact ⟨bitmaps, fun h => (hchunk bitmaps hmem).mpr ⟨sha, id, hpre, hlinked⟩ (h hmem)⟩

variable [LawfulRoaringBitmap Bitmap]

/-- Where one flush alone has written a chunk, the chunk holds what all flushes have. -/
theorem chunkOids_singleton (hports : ports.Portable) {type : EdgeType} {shaPrefix : JsString}
    {flushed : List (JsMap (EdgeType × JsString) Bitmap)} (hfilled : ∀ bitmaps ∈ flushed, Filled bitmaps) {oid : Oid}
    (hone : chunkOids storage ports (.edges type shaPrefix) flushed = [oid]) :
    ∃ data, oid = storage.writeBlob (wrapShard ports (.bitmaps data)) ∧
      Encodes ports (LinkedIn flushed type) shaPrefix data := by
  have hnone : ∀ bitmaps, Filled bitmaps → chunk ports bitmaps (.edges type shaPrefix) = none →
      ∀ sha id, shardPrefix sha = shaPrefix → ¬ Linked bitmaps type sha id := by
    intro bitmaps hbitmaps hchunk sha id hpre hlinked
    have hsome := (chunkData_isSome_iff ports hbitmaps type shaPrefix).mpr ⟨sha, id, hpre, hlinked⟩
    rw [Option.map_eq_none_iff.mp hchunk] at hsome
    cases hsome
  induction flushed with
  | nil => cases hone
  | cons bitmaps rest ih =>
      have hfirst := hfilled bitmaps List.mem_cons_self
      have hrest := fun b hb => hfilled b (List.mem_cons_of_mem bitmaps hb)
      rw [chunkOids, List.filterMap_cons] at hone
      cases hchunk : chunk ports bitmaps (.edges type shaPrefix) with
      | none =>
          rw [hchunk] at hone
          obtain ⟨data, hoid, hdata⟩ := ih hrest hone
          refine ⟨data, hoid, fun sha text => (hdata sha text).trans (and_congr_right fun hsha => ?_)⟩
          have hsame : ∀ id, LinkedIn rest type sha id ↔ LinkedIn (bitmaps :: rest) type sha id := by
            intro id
            rw [LinkedIn, LinkedIn, List.exists_mem_cons_iff, or_iff_right (hnone bitmaps hfirst hchunk sha id hsha.1)]
          simp only [hsame]
      | some envelope =>
          rw [hchunk] at hone
          dsimp only [Option.map_some] at hone
          obtain ⟨hoid, hnil⟩ := List.cons.inj hone
          obtain ⟨data, hdata, rfl⟩ := Option.map_eq_some_iff.mp hchunk
          refine ⟨data, hoid.symm, fun sha text => (encodes_chunkData hports hfirst hdata sha text).trans
            (and_congr_right fun hsha => ?_)⟩
          have hlater : ∀ id, ¬ LinkedIn rest type sha id := by
            rintro id ⟨b, hb, hlinked⟩
            refine hnone b (hrest b hb) ?_ sha id hsha.1 hlinked
            exact Option.map_eq_none_iff.mp (List.filterMap_eq_nil_iff.mp hnil b hb)
          have hsame : ∀ id, Linked bitmaps type sha id ↔ LinkedIn (bitmaps :: rest) type sha id := by
            intro id
            rw [LinkedIn, List.exists_mem_cons_iff]
            exact (or_iff_left (hlater id)).symm
          simp only [hsame]

/-- A shard of one chunk or of several ends as one chunk of what the flushes have written. -/
theorem processBitmapShard_spec (hstorage : storage.Keeps) (hports : ports.Portable)
    {flushed : List (JsMap (EdgeType × JsString) Bitmap)} (hfilled : ∀ bitmaps ∈ flushed, Filled bitmaps)
    (hplain : ∀ bitmaps ∈ flushed, ∀ type, PlainNames (Linked bitmaps type)) {path : ShardPath}
    (hne : chunkOids storage ports path flushed ≠ []) :
    ∃ data, StreamingBitmapIndexBuilder.processBitmapShard storage ports
        (path, chunkOids storage ports path flushed) =
          .ok (path, storage.writeBlob (wrapShard ports (.bitmaps data))) ∧
      ∃ type shaPrefix, path = .edges type shaPrefix ∧ Encodes ports (LinkedIn flushed type) shaPrefix data := by
  cases path with
  | ids shaPrefix =>
      refine absurd (List.filterMap_eq_nil_iff.mpr fun bitmaps _ => ?_) hne
      rfl
  | edges type shaPrefix =>
      unfold StreamingBitmapIndexBuilder.processBitmapShard
      dsimp only
      split
      · rename_i oid hone
        obtain ⟨data, rfl, hdata⟩ := chunkOids_singleton hports hfilled hone
        exact ⟨data, rfl, type, shaPrefix, rfl, hdata⟩
      · obtain ⟨data, hok, hdata⟩ := mergeChunks_spec hstorage hports hfilled fun bitmaps h => hplain bitmaps h type
        rw [hok]
        exact ⟨data, rfl, type, shaPrefix, rfl, hdata⟩

/-- The tree that `finalize` writes, for calls whose names no object inherits. -/
theorem finalize_spec (hstorage : storage.Keeps) (hports : ports.Portable) {maxMemoryBytes : Nat}
    {builder : StreamingBitmapIndexBuilder Oid Bitmap}
    (hnew : StreamingBitmapIndexBuilder.new maxMemoryBytes = .ok builder)
    {calls : List IndexCall} (hnames : ∀ call ∈ calls, ∀ sha ∈ call.names, sha ∉ PlainObject.inheritedNames) :
    ∃ index : IndexTree, (calls.foldl (IndexCall.streaming storage ports) builder).finalize storage ports =
        .ok (index.mapValues fun _ envelope => storage.writeBlob envelope) ∧
      IsIndex ports (calls.foldl IndexCall.inMemory (.new : BitmapIndexBuilder Bitmap)).table
        (Linked (calls.foldl IndexCall.inMemory (.new : BitmapIndexBuilder Bitmap)).bitmaps) index := by
  obtain ⟨before, hbefore⟩ := follows_run (follows_new hnew : Follows storage ports [] builder .new) calls
  obtain ⟨flushed, h⟩ := follows_flush hbefore
  have hrecorded : RecordedCalls calls (calls.foldl IndexCall.inMemory (.new : BitmapIndexBuilder Bitmap)) :=
    recordedCalls_run calls
  have hall : ∀ type sha id,
      Linked (calls.foldl IndexCall.inMemory (.new : BitmapIndexBuilder Bitmap)).bitmaps type sha id ↔
        LinkedIn flushed type sha id := by
    intro type sha id
    rw [h.linked, or_iff_right (not_linked_flush _ type sha id)]
  have hplain : ∀ bitmaps ∈ flushed, ∀ type, PlainNames (Linked bitmaps type) := by
    intro bitmaps hbitmaps type sha id hlinked
    obtain ⟨other, -, hedge⟩ := (hrecorded.linked type sha id).mp ((hall type sha id).mpr ⟨bitmaps, hbitmaps, hlinked⟩)
    exact hnames _ hedge sha (IndexCall.mem_names_edge type sha other).1
  generalize calls.foldl (IndexCall.streaming storage ports) builder = last at h
  generalize calls.foldl IndexCall.inMemory (.new : BitmapIndexBuilder Bitmap) = whole at h hall
  have hprocess : ∀ entry ∈ (last.flush storage ports).flushedChunks.entries,
      ∃ data, StreamingBitmapIndexBuilder.processBitmapShard storage ports entry =
          .ok (entry.1, storage.writeBlob (wrapShard ports (.bitmaps data))) ∧
        ∃ type shaPrefix, entry.1 = .edges type shaPrefix ∧ Encodes ports (LinkedIn flushed type) shaPrefix data := by
    rintro ⟨path, oids⟩ hentry
    obtain ⟨hne, rfl⟩ := (h.chunks path oids).mp ((JsMap.get_eq_some_iff _ _ _).mpr hentry)
    exact processBitmapShard_spec hstorage hports h.flushedFilled hplain hne
  have : Nonempty (PlainObject JsString) := ⟨.empty⟩
  choose! data hok hedges using hprocess
  let chunks : List (ShardPath × Envelope) := (last.flush storage ports).flushedChunks.entries.map fun entry =>
    (entry.1, wrapShard ports (.bitmaps (data entry)))
  have hchunks : BitmapShards chunks := by
    constructor
    · rw [List.map_map]
      exact (last.flush storage ports).flushedChunks.nodup
    · intro path envelope hmem
      obtain ⟨entry, hentry, heq⟩ := List.mem_map.mp hmem
      obtain ⟨type, shaPrefix, hpath, -⟩ := hedges entry hentry
      exact ⟨type, shaPrefix, (Prod.mk.inj heq).1 ▸ hpath⟩
  refine ⟨indexTree ports whole.table chunks, ?_, isIndex_indexTree hchunks ?_ ?_⟩
  · unfold StreamingBitmapIndexBuilder.finalize
    have hentries : (last.flush storage ports).flushedChunks.entries.mapM
        (StreamingBitmapIndexBuilder.processBitmapShard storage ports) =
          .ok (chunks.map fun entry => (entry.1, storage.writeBlob entry.2)) := by
      rw [mapM_of_ok hok, List.map_map]
      rfl
    dsimp only
    rw [hentries, h.table]
    change Except.ok (JsMap.ofEntries _) = _
    rw [← List.map_append, mapValues_ofEntries]
    rfl
  · intro type shaPrefix envelope hmem
    obtain ⟨entry, hentry, heq⟩ := List.mem_map.mp hmem
    obtain ⟨hpath, henvelope⟩ := Prod.mk.inj heq
    obtain ⟨type', shaPrefix', hpath', hdata⟩ := hedges entry hentry
    obtain ⟨rfl, rfl⟩ := ShardPath.edges.inj (hpath.symm.trans hpath')
    refine ⟨data entry, henvelope.symm, fun sha text => ?_⟩
    simp only [hall]
    exact hdata sha text
  · intro type shaPrefix
    simp only [hall]
    rw [← chunkOids_ne_nil_iff storage ports h.flushedFilled]
    constructor
    · rintro ⟨envelope, hmem⟩
      obtain ⟨⟨path, oids⟩, hentry, heq⟩ := List.mem_map.mp hmem
      cases (Prod.mk.inj heq).1
      obtain ⟨hne, rfl⟩ := (h.chunks _ oids).mp ((JsMap.get_eq_some_iff _ _ _).mpr hentry)
      exact hne
    · intro hne
      have hentry := (JsMap.get_eq_some_iff _ _ _).mp ((h.chunks (.edges type shaPrefix) _).mpr ⟨hne, rfl⟩)
      exact ⟨_, List.mem_map.mpr ⟨_, hentry, rfl⟩⟩

/-- The streaming builder and the builder in memory, given the same calls, make the same index: the tree that is written
has shards of the same names, with the same fields and checksums. -/
theorem finalize_same (hstorage : storage.Keeps) (hports : ports.Portable) {maxMemoryBytes : Nat}
    {builder : StreamingBitmapIndexBuilder Oid Bitmap}
    (hnew : StreamingBitmapIndexBuilder.new maxMemoryBytes = .ok builder)
    {calls : List IndexCall} (hnames : ∀ call ∈ calls, ∀ sha ∈ call.names, sha ∉ PlainObject.inheritedNames) :
    ∃ tree index, (calls.foldl (IndexCall.streaming storage ports) builder).finalize storage ports = .ok tree ∧
      readIndex storage tree = .ok index ∧
      ∀ path, Option.Rel Envelope.Same (index.get path)
        (((calls.foldl IndexCall.inMemory .new).serialize ports).get path) := by
  obtain ⟨index, hfinalize, hindex⟩ := finalize_spec hstorage hports hnew hnames
  exact ⟨_, index, hfinalize, readIndex_mapValues hstorage index,
    hindex.same (isIndex_serialize hports (recordedCalls_run calls).filled)⟩

end Finish

/-- With a bound of one byte every edge is flushed at once, and the chunks of a shard are merged. -/
theorem finalize_same_oneByte :
    ∃ tree index, ([.addEdge (js "a1") (js "a2"), .addEdge (js "a1") (js "a3")].foldl
        (IndexCall.streaming BitmapFormat.storage BitmapFormat.ports)
          ⟨1, .empty, .empty, 0, .empty, 0, 0⟩).finalize BitmapFormat.storage BitmapFormat.ports = .ok tree ∧
      readIndex BitmapFormat.storage tree = .ok index ∧
      ∀ path, Option.Rel Envelope.Same (index.get path)
        ((([.addEdge (js "a1") (js "a2"), .addEdge (js "a1") (js "a3")].foldl IndexCall.inMemory .new).serialize
          BitmapFormat.ports).get path) := by
  have hnew : StreamingBitmapIndexBuilder.new 1 =
      .ok (⟨1, .empty, .empty, 0, .empty, 0, 0⟩ : StreamingBitmapIndexBuilder Envelope IdSet) := rfl
  refine finalize_same BitmapFormat.keeps_storage BitmapFormat.portable_ports hnew ?_
  intro call hcall sha hsha hin
  have hlength : ∀ call ∈ ([.addEdge (js "a1") (js "a2"), .addEdge (js "a1") (js "a3")] : List IndexCall),
      ∀ sha ∈ call.names, sha.length = 2 := by
    rw [js_ofList, js_ofList, js_ofList]
    simp [IndexCall.names, utf16]
  have hlong := PlainObject.length_of_mem_inheritedNames hin
  rw [hlength call hcall sha hsha] at hlong
  omega

end GitWarp
