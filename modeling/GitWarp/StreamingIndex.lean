import GitWarp.BitmapIndex
import GitWarp.LibraryLists

/-! The streaming builder of the bitmap index. Bitmaps are flushed to storage when they take too much memory, and the
chunks of a shard are merged at the end. Whatever the bound on the memory is, what comes out is the index that the
builder in memory makes of the same calls. -/

namespace GitWarp
open Js ExceptLoops
open RoaringBitmap (toArray)

variable {Oid Bitmap : Type} [RoaringBitmap Bitmap]

/-- The blobs of the index storage. -/
structure IndexStorage (Oid : Type) where
  writeBlob : Envelope → Oid
  readBlob : Oid → Except JsError Envelope

/-- A blob that was written can be read. -/
def IndexStorage.Keeps (storage : IndexStorage Oid) : Prop :=
  ∀ envelope, storage.readBlob (storage.writeBlob envelope) = .ok envelope

def BITMAP_BASE_OVERHEAD : Nat := 64

structure StreamingBitmapIndexBuilder (Oid Bitmap : Type) where
  maxMemoryBytes : Nat
  table : IdTable
  /-- by type and name, the key `fwd_<sha>` or `rev_<sha>` -/
  bitmaps : JsMap (EdgeType × JsString) Bitmap
  estimatedBitmapBytes : Nat
  /-- The chunks of each shard, in the order of the flushes. -/
  flushedChunks : JsMap ShardPath (List Oid)
  totalFlushedBytes : Nat
  flushCount : Nat

namespace StreamingBitmapIndexBuilder

def new (maxMemoryBytes : Nat) : Except JsError (StreamingBitmapIndexBuilder Oid Bitmap) :=
  if maxMemoryBytes = 0 then thrown "maxMemoryBytes must be a positive number"
  else .ok ⟨maxMemoryBytes, .empty, .empty, 0, .empty, 0, 0⟩

def registerNode (builder : StreamingBitmapIndexBuilder Oid Bitmap) (sha : JsString) :
    StreamingBitmapIndexBuilder Oid Bitmap :=
  { builder with table := (builder.table.getOrCreateId sha).1 }

def addToBitmap (builder : StreamingBitmapIndexBuilder Oid Bitmap) (sha : JsString) (id : Nat) (type : EdgeType) :
    StreamingBitmapIndexBuilder Oid Bitmap :=
  let builder :=
    if builder.bitmaps.has (type, sha) then builder
    else { builder with
      bitmaps := builder.bitmaps.set (type, sha) RoaringBitmap.empty
      estimatedBitmapBytes := builder.estimatedBitmapBytes + BITMAP_BASE_OVERHEAD }
  match builder.bitmaps.get (type, sha) with
  | none => builder
  | some bitmap => { builder with
      bitmaps := builder.bitmaps.set (type, sha) (RoaringBitmap.add bitmap id)
      estimatedBitmapBytes := builder.estimatedBitmapBytes +
        if RoaringBitmap.size (RoaringBitmap.add bitmap id) > RoaringBitmap.size bitmap then 4 else 0 }

section Storage

variable (storage : IndexStorage Oid) (ports : IndexPorts Bitmap)

/-- Each shard of the bitmaps in memory becomes one more chunk of its path. -/
def writeShardsToStorage (builder : StreamingBitmapIndexBuilder Oid Bitmap) : JsMap ShardPath (List Oid) :=
  (bitmapEntries ports builder.bitmaps .fwd ++ bitmapEntries ports builder.bitmaps .rev).foldl (fun chunks entry =>
    chunks.set entry.1 ((chunks.get entry.1).getD [] ++ [storage.writeBlob entry.2])) builder.flushedChunks

def flush (builder : StreamingBitmapIndexBuilder Oid Bitmap) : StreamingBitmapIndexBuilder Oid Bitmap :=
  if builder.bitmaps.size = 0 then builder
  else { builder with
    flushedChunks := writeShardsToStorage storage ports builder
    bitmaps := .empty
    totalFlushedBytes := builder.totalFlushedBytes + builder.estimatedBitmapBytes
    estimatedBitmapBytes := 0
    flushCount := builder.flushCount + 1 }

def addEdge (builder : StreamingBitmapIndexBuilder Oid Bitmap) (srcSha tgtSha : JsString) :
    StreamingBitmapIndexBuilder Oid Bitmap :=
  let (table, srcId) := builder.table.getOrCreateId srcSha
  let (table, tgtId) := table.getOrCreateId tgtSha
  let builder := ({ builder with table := table }.addToBitmap srcSha tgtId .fwd).addToBitmap tgtSha srcId .rev
  if builder.estimatedBitmapBytes ≥ builder.maxMemoryBytes then builder.flush storage ports else builder

def loadAndValidateChunk (oid : Oid) : Except JsError (PlainObject JsString) := do
  let envelope ← storage.readBlob oid
  if envelope.version ≠ SHARD_VERSION then .error ⟨"ShardValidationError", "Shard version mismatch"⟩
  else if envelope.checksum ≠ computeChecksum ports envelope.data then
    .error ⟨"ShardCorruptionError", "Shard checksum mismatch"⟩
  else return envelope.data.asBitmaps

/-- What `merged[sha]` reads under an inherited name is no bitmap and has no `orInPlace`. -/
def mergeDeserializedBitmap (merged : PlainObject Bitmap) (sha base64Bitmap : JsString) :
    Except JsError (PlainObject Bitmap) :=
  match (Bytes.base64Decode base64Bitmap >>= ports.deserialize) with
  | .error _ => .error ⟨"ShardCorruptionError", "Failed to deserialize bitmap"⟩
  | .ok bitmap =>
      match merged.read sha with
      | .undefined => .ok (merged.assign sha bitmap)
      | .own other => .ok (merged.assign sha (RoaringBitmap.orInPlace other bitmap))
      | .inherited _ => .error ⟨"TypeError", "merged[sha].orInPlace is not a function"⟩

def mergeChunk (merged : PlainObject Bitmap) (oid : Oid) : Except JsError (PlainObject Bitmap) := do
  let chunk ← loadAndValidateChunk storage ports oid
  chunk.entries.foldlM (fun merged entry => mergeDeserializedBitmap ports merged entry.1 entry.2) merged

def mergeChunks (oids : List Oid) : Except JsError Oid := do
  let merged ← oids.foldlM (mergeChunk storage ports) .empty
  let result := merged.entries.foldl (fun result entry =>
    result.assign entry.1 (Bytes.base64Encode (ports.serialize entry.2))) PlainObject.empty
  return storage.writeBlob (wrapShard ports (.bitmaps result))

/-- A shard of one chunk is that chunk. -/
def processBitmapShard (entry : ShardPath × List Oid) : Except JsError (ShardPath × Oid) :=
  match entry.2 with
  | [oid] => .ok (entry.1, oid)
  | oids => (mergeChunks storage ports oids).map fun oid => (entry.1, oid)

/-- The entries of the tree that `finalize` writes. -/
def finalize (builder : StreamingBitmapIndexBuilder Oid Bitmap) : Except JsError (JsMap ShardPath Oid) := do
  let builder := builder.flush storage ports
  let bitmapEntries ← builder.flushedChunks.entries.mapM (processBitmapShard storage ports)
  return JsMap.ofEntries
    ((metaEntries ports builder.table).map (fun entry => (entry.1, storage.writeBlob entry.2)) ++ bitmapEntries)

end Storage

end StreamingBitmapIndexBuilder

/-- A call of either builder; the builder in memory has no `flush`. -/
inductive IndexCall where
  | registerNode (sha : JsString)
  | addEdge (srcSha tgtSha : JsString)
  | flush
  deriving DecidableEq

namespace IndexCall

def streaming (storage : IndexStorage Oid) (ports : IndexPorts Bitmap)
    (builder : StreamingBitmapIndexBuilder Oid Bitmap) :
    IndexCall → StreamingBitmapIndexBuilder Oid Bitmap
  | .registerNode sha => builder.registerNode sha
  | .addEdge srcSha tgtSha => builder.addEdge storage ports srcSha tgtSha
  | .flush => builder.flush storage ports

def inMemory (builder : BitmapIndexBuilder Bitmap) : IndexCall → BitmapIndexBuilder Bitmap
  | .registerNode sha => builder.registerNode sha
  | .addEdge srcSha tgtSha => builder.addEdge srcSha tgtSha
  | .flush => builder

end IndexCall

/-! ### What shards hold -/

section ShardBy

variable {V : Type}

theorem get_shardBy {entries : List (JsString × V)} (hnodup : (entries.map Prod.fst).Nodup) (shaPrefix sha : JsString) :
    (((shardBy entries).get shaPrefix).getD .empty).props.get sha =
      if shardPrefix sha = shaPrefix ∧ sha ≠ protoKey then JsMap.lookup entries sha else none := by
  have hloop : ∀ (entries : List (JsString × V)) (shards : JsMap JsString (PlainObject V)),
      (entries.map Prod.fst).Nodup →
      (((entries.foldl (fun shards entry => shards.set (shardPrefix entry.1)
          (((shards.get (shardPrefix entry.1)).getD .empty).assign entry.1 entry.2)) shards).get shaPrefix).getD
            .empty).props.get sha =
        if shardPrefix sha = shaPrefix ∧ sha ≠ protoKey then
          (JsMap.lookup entries sha).or (((shards.get shaPrefix).getD .empty).props.get sha)
        else ((shards.get shaPrefix).getD .empty).props.get sha := by
    intro entries
    induction entries with
    | nil =>
        intro shards _
        split <;> rfl
    | cons entry rest ih =>
        intro shards hnodup
        rw [List.map_cons, List.nodup_cons] at hnodup
        rw [List.foldl_cons, ih _ hnodup.2, JsMap.get_set, JsMap.lookup_cons]
        by_cases hkey : sha = entry.1
        · subst hkey
          have hrest : JsMap.lookup rest entry.1 = none := by
            by_contra hsome
            obtain ⟨value, hvalue⟩ := Option.ne_none_iff_exists'.mp hsome
            exact hnodup.1 (List.mem_map.mpr ⟨_, (JsMap.lookup_eq_some_iff hnodup.2 _ value).mp hvalue, rfl⟩)
          by_cases hpre : shardPrefix entry.1 = shaPrefix
          · subst hpre
            by_cases hproto : entry.1 = protoKey
            · simp [hproto, PlainObject.get_assign]
            · simp [hproto, hrest, PlainObject.get_assign]
          · simp [hpre, Ne.symm hpre]
        · by_cases hpre : shaPrefix = shardPrefix entry.1
          · subst hpre
            simp [hkey, PlainObject.get_assign]
          · simp [hkey, hpre]
  rw [shardBy, hloop entries _ hnodup, JsMap.get_empty]
  split
  · exact Option.or_none
  · rfl

theorem shardBy_isSome_iff (entries : List (JsString × V)) (shaPrefix : JsString) :
    ((shardBy entries).get shaPrefix).isSome = true ↔ ∃ entry ∈ entries, shardPrefix entry.1 = shaPrefix := by
  rw [shardBy, Lists.foldl_iff (P := fun shards : JsMap JsString (PlainObject V) => (shards.get shaPrefix).isSome = true)
    (R := fun entry : JsString × V => shardPrefix entry.1 = shaPrefix), JsMap.get_empty]
  · simp
  · intro shards entry
    rw [JsMap.get_set]
    by_cases hpre : shaPrefix = shardPrefix entry.1
    · simp [hpre]
    · simp [hpre, Ne.symm hpre]

end ShardBy

/-- The bitmap of a type and a name holds the id. -/
def Linked (bitmaps : JsMap (EdgeType × JsString) Bitmap) (type : EdgeType) (sha : JsString) (id : Nat) : Prop :=
  ∃ bitmap, bitmaps.get (type, sha) = some bitmap ∧ id ∈ toArray bitmap

/-- No bitmap is empty. -/
def Filled (bitmaps : JsMap (EdgeType × JsString) Bitmap) : Prop :=
  ∀ key bitmap, bitmaps.get key = some bitmap → toArray bitmap ≠ []

/-- A shard holds, for each of its names that is linked to something, a text for the ids that it is linked to. -/
def Encodes (ports : IndexPorts Bitmap) (linked : JsString → Nat → Prop) (shaPrefix : JsString)
    (data : PlainObject JsString) : Prop :=
  ∀ sha text, data.props.get sha = some text ↔ (shardPrefix sha = shaPrefix ∧ sha ≠ protoKey) ∧
    ∃ bitmap : Bitmap, toArray bitmap ≠ [] ∧ (∀ id, id ∈ toArray bitmap ↔ linked sha id) ∧
      text = Bytes.base64Encode (ports.serialize bitmap)

theorem Encodes.get_eq {ports : IndexPorts Bitmap} {linked linked' : JsString → Nat → Prop} {shaPrefix : JsString}
    {data data' : PlainObject JsString} (h : Encodes ports linked shaPrefix data)
    (h' : Encodes ports linked' shaPrefix data') (hsame : ∀ sha id, linked sha id ↔ linked' sha id) (sha : JsString) :
    data.props.get sha = data'.props.get sha := by
  refine Option.ext fun text => ?_
  rw [h, h']
  simp only [hsame]

/-- The texts of the bitmaps of one type, by their names. -/
def bitmapTexts (ports : IndexPorts Bitmap) (bitmaps : JsMap (EdgeType × JsString) Bitmap) (type : EdgeType) :
    List (JsString × JsString) :=
  (bitmaps.entries.filter fun entry => entry.1.1 = type).map fun entry =>
    (entry.1.2, Bytes.base64Encode (ports.serialize entry.2))

omit [RoaringBitmap Bitmap] in
theorem mem_bitmapTexts {ports : IndexPorts Bitmap} {bitmaps : JsMap (EdgeType × JsString) Bitmap} {type : EdgeType}
    {sha text : JsString} : (sha, text) ∈ bitmapTexts ports bitmaps type ↔
      ∃ bitmap, bitmaps.get (type, sha) = some bitmap ∧ text = Bytes.base64Encode (ports.serialize bitmap) := by
  simp only [bitmapTexts, List.mem_map, List.mem_filter, decide_eq_true_eq, Prod.mk.injEq, JsMap.get_eq_some_iff]
  constructor
  · rintro ⟨⟨⟨type', sha'⟩, bitmap⟩, ⟨hmem, rfl⟩, rfl, rfl⟩
    exact ⟨bitmap, hmem, rfl⟩
  · rintro ⟨bitmap, hmem, rfl⟩
    exact ⟨_, ⟨hmem, rfl⟩, rfl, rfl⟩

omit [RoaringBitmap Bitmap] in
theorem nodup_bitmapTexts (ports : IndexPorts Bitmap) (bitmaps : JsMap (EdgeType × JsString) Bitmap) (type : EdgeType) :
    ((bitmapTexts ports bitmaps type).map Prod.fst).Nodup := by
  have hkeys : bitmaps.entries.Pairwise fun a b => a.1 ≠ b.1 := List.pairwise_map.mp bitmaps.nodup
  rw [bitmapTexts, List.map_map]
  refine List.pairwise_map.mpr ((hkeys.filter _).imp_of_mem fun {a b} ha hb hne hsame => hne ?_)
  have hatype := of_decide_eq_true (List.mem_filter.mp ha).2
  have hbtype := of_decide_eq_true (List.mem_filter.mp hb).2
  exact Prod.ext (hatype.trans hbtype.symm) hsame

theorem encodes_bitmapShards [LawfulRoaringBitmap Bitmap] {ports : IndexPorts Bitmap} (hports : ports.Portable)
    {bitmaps : JsMap (EdgeType × JsString) Bitmap}
    (hfilled : Filled bitmaps) (type : EdgeType) (shaPrefix : JsString) :
    Encodes ports (Linked bitmaps type) shaPrefix (((bitmapShards ports bitmaps type).get shaPrefix).getD .empty) := by
  intro sha text
  change (((shardBy (bitmapTexts ports bitmaps type)).get shaPrefix).getD .empty).props.get sha = some text ↔ _
  rw [get_shardBy (nodup_bitmapTexts ports bitmaps type)]
  split
  · rename_i hin
    rw [JsMap.lookup_eq_some_iff (nodup_bitmapTexts ports bitmaps type), mem_bitmapTexts, and_iff_right hin]
    constructor
    · rintro ⟨bitmap, hget, htext⟩
      refine ⟨bitmap, hfilled _ _ hget, fun id => ⟨fun hid => ⟨bitmap, hget, hid⟩, ?_⟩, htext⟩
      rintro ⟨other, hother, hid⟩
      rw [hget, Option.some.injEq] at hother
      exact hother ▸ hid
    · rintro ⟨bitmap, hne, hids, htext⟩
      obtain ⟨id, hid⟩ := List.exists_mem_of_ne_nil _ hne
      obtain ⟨other, hget, -⟩ := (hids id).mp hid
      have hsame : toArray bitmap = toArray other := RoaringBitmap.toArray_eq_of_mem_iff fun id' => by
        rw [hids]
        refine ⟨?_, fun hid' => ⟨other, hget, hid'⟩⟩
        rintro ⟨third, hthird, hid'⟩
        rw [hget, Option.some.injEq] at hthird
        exact hthird ▸ hid'
      rw [hports.serialize_congr bitmap other hsame] at htext
      exact ⟨other, hget, htext⟩
  · rename_i hout
    exact iff_of_false (Option.some_ne_none _).symm fun h => hout h.1

theorem bitmapShards_isSome_iff {ports : IndexPorts Bitmap} {bitmaps : JsMap (EdgeType × JsString) Bitmap}
    (hfilled : Filled bitmaps) (type : EdgeType) (shaPrefix : JsString) :
    ((bitmapShards ports bitmaps type).get shaPrefix).isSome = true ↔
      ∃ sha id, shardPrefix sha = shaPrefix ∧ Linked bitmaps type sha id := by
  change ((shardBy (bitmapTexts ports bitmaps type)).get shaPrefix).isSome = true ↔ _
  rw [shardBy_isSome_iff]
  constructor
  · rintro ⟨⟨sha, text⟩, hmem, hpre⟩
    obtain ⟨bitmap, hget, -⟩ := mem_bitmapTexts.mp hmem
    obtain ⟨id, hid⟩ := List.exists_mem_of_ne_nil _ (hfilled _ _ hget)
    exact ⟨sha, id, hpre, bitmap, hget, hid⟩
  · rintro ⟨sha, id, hpre, bitmap, hget, -⟩
    exact ⟨_, mem_bitmapTexts.mpr ⟨bitmap, hget, rfl⟩, hpre⟩

/-- The chunk that a flush of the bitmaps writes for a shard. -/
def chunkData (ports : IndexPorts Bitmap) (bitmaps : JsMap (EdgeType × JsString) Bitmap) :
    ShardPath → Option (PlainObject JsString)
  | .ids _ => none
  | .edges type shaPrefix => (bitmapShards ports bitmaps type).get shaPrefix

def chunk (ports : IndexPorts Bitmap) (bitmaps : JsMap (EdgeType × JsString) Bitmap) (path : ShardPath) :
    Option Envelope :=
  (chunkData ports bitmaps path).map fun data => wrapShard ports (.bitmaps data)

theorem chunkData_isSome_iff (ports : IndexPorts Bitmap) {bitmaps : JsMap (EdgeType × JsString) Bitmap}
    (hfilled : Filled bitmaps) (type : EdgeType) (shaPrefix : JsString) :
    (chunkData ports bitmaps (.edges type shaPrefix)).isSome = true ↔
      ∃ sha id, shardPrefix sha = shaPrefix ∧ Linked bitmaps type sha id :=
  bitmapShards_isSome_iff hfilled type shaPrefix

theorem encodes_chunkData [LawfulRoaringBitmap Bitmap] {ports : IndexPorts Bitmap} (hports : ports.Portable)
    {bitmaps : JsMap (EdgeType × JsString) Bitmap}
    (hfilled : Filled bitmaps) {type : EdgeType} {shaPrefix : JsString} {data : PlainObject JsString}
    (hdata : chunkData ports bitmaps (.edges type shaPrefix) = some data) :
    Encodes ports (Linked bitmaps type) shaPrefix data := by
  have hencodes : Encodes ports _ _ _ := encodes_bitmapShards hports hfilled type shaPrefix
  change (bitmapShards ports bitmaps type).get shaPrefix = some data at hdata
  rw [hdata, Option.getD_some] at hencodes
  exact hencodes

omit [RoaringBitmap Bitmap] in
theorem mem_bitmapEntries {ports : IndexPorts Bitmap} {bitmaps : JsMap (EdgeType × JsString) Bitmap} {type : EdgeType}
    {path : ShardPath} {envelope : Envelope} : (path, envelope) ∈ bitmapEntries ports bitmaps type ↔
      ∃ shaPrefix, path = .edges type shaPrefix ∧ chunk ports bitmaps path = some envelope := by
  simp only [bitmapEntries, List.mem_map, Prod.mk.injEq, Prod.exists, ← JsMap.get_eq_some_iff]
  constructor
  · rintro ⟨shaPrefix, data, hget, rfl, rfl⟩
    refine ⟨shaPrefix, rfl, ?_⟩
    rw [chunk, chunkData, hget]
    rfl
  · rintro ⟨shaPrefix, rfl, hchunk⟩
    obtain ⟨data, hget, rfl⟩ := Option.map_eq_some_iff.mp hchunk
    exact ⟨shaPrefix, data, hget, rfl, rfl⟩

omit [RoaringBitmap Bitmap] in
theorem nodup_bitmapEntries (ports : IndexPorts Bitmap) (bitmaps : JsMap (EdgeType × JsString) Bitmap) :
    ((bitmapEntries ports bitmaps .fwd ++ bitmapEntries ports bitmaps .rev).map Prod.fst).Nodup := by
  have hone : ∀ type, ((bitmapEntries ports bitmaps type).map Prod.fst).Nodup := by
    intro type
    rw [bitmapEntries, List.map_map]
    have hkeys := List.pairwise_map.mp (bitmapShards ports bitmaps type).nodup
    exact List.pairwise_map.mpr (hkeys.imp fun hne hsame => hne (ShardPath.edges.inj hsame).2)
  rw [List.map_append, List.nodup_append]
  refine ⟨hone .fwd, hone .rev, ?_⟩
  intro path hfwd path' hrev hsame
  obtain ⟨⟨fwdPath, _⟩, hfwd, hpath⟩ := List.mem_map.mp hfwd
  obtain ⟨⟨revPath, _⟩, hrev, hpath'⟩ := List.mem_map.mp hrev
  obtain ⟨_, hfwdPath, -⟩ := mem_bitmapEntries.mp hfwd
  obtain ⟨_, hrevPath, -⟩ := mem_bitmapEntries.mp hrev
  have hboth : fwdPath = revPath := (hpath.trans hsame).trans hpath'.symm
  rw [hfwdPath, hrevPath] at hboth
  cases hboth

omit [RoaringBitmap Bitmap] in
/-- The entries of both types, looked up by their path. -/
theorem lookup_bitmapEntries (ports : IndexPorts Bitmap) (bitmaps : JsMap (EdgeType × JsString) Bitmap)
    (path : ShardPath) :
    JsMap.lookup (bitmapEntries ports bitmaps .fwd ++ bitmapEntries ports bitmaps .rev) path =
      chunk ports bitmaps path := by
  refine Option.ext fun envelope => ?_
  rw [JsMap.lookup_eq_some_iff (nodup_bitmapEntries ports bitmaps), List.mem_append, mem_bitmapEntries,
    mem_bitmapEntries]
  constructor
  · rintro (⟨_, -, hchunk⟩ | ⟨_, -, hchunk⟩)
    · exact hchunk
    · exact hchunk
  · intro hchunk
    cases path with
    | ids shaPrefix => cases hchunk
    | edges type shaPrefix =>
        cases type with
        | fwd => exact .inl ⟨shaPrefix, rfl, hchunk⟩
        | rev => exact .inr ⟨shaPrefix, rfl, hchunk⟩

/-! ### Merged chunks -/

/-- The bitmaps merged so far, by their names. -/
structure Merged (linked : JsString → Nat → Prop) (merged : PlainObject Bitmap) : Prop where
  linked_iff : ∀ sha, sha ≠ protoKey → ∀ id,
    (∃ bitmap, merged.props.get sha = some bitmap ∧ id ∈ toArray bitmap) ↔ linked sha id
  filled : ∀ sha bitmap, merged.props.get sha = some bitmap → toArray bitmap ≠ []

/-- No name is a property that every object inherits. -/
def PlainNames (linked : JsString → Nat → Prop) : Prop := ∀ sha id, linked sha id → sha ∉ PlainObject.inheritedNames

theorem mergeDeserializedBitmap_spec [LawfulRoaringBitmap Bitmap] {ports : IndexPorts Bitmap} (hports : ports.Portable)
    (merged : PlainObject Bitmap)
    {sha : JsString} (hsha : sha ∉ PlainObject.inheritedNames) (bitmap : Bitmap) :
    ∃ merged', StreamingBitmapIndexBuilder.mergeDeserializedBitmap ports merged sha
        (Bytes.base64Encode (ports.serialize bitmap)) = .ok merged' ∧
      (∀ other, other ≠ sha → merged'.props.get other = merged.props.get other) ∧
      ∃ joined, merged'.props.get sha = some joined ∧ ∀ id, id ∈ toArray joined ↔
        id ∈ toArray bitmap ∨ ∃ old, merged.props.get sha = some old ∧ id ∈ toArray old := by
  obtain ⟨read, hread, hids⟩ := hports.deserialize_serialize bitmap
  have hdecode : (Bytes.base64Decode (Bytes.base64Encode (ports.serialize bitmap)) >>= ports.deserialize) =
      .ok read := by
    rw [Bytes.base64Decode_base64Encode]
    exact hread
  have hproto : sha ≠ protoKey := by
    rintro rfl
    exact hsha (by simp [PlainObject.inheritedNames, protoKey])
  have hassign : ∀ joined : Bitmap, (∀ other, other ≠ sha →
      (merged.assign sha joined).props.get other = merged.props.get other) ∧
        (merged.assign sha joined).props.get sha = some joined := by
    intro joined
    constructor
    · intro other hother
      rw [PlainObject.get_assign, if_neg fun h => hother h.1]
    · rw [PlainObject.get_assign, if_pos ⟨rfl, hproto⟩]
  unfold StreamingBitmapIndexBuilder.mergeDeserializedBitmap
  rw [hdecode]
  dsimp only
  cases hget : merged.props.get sha with
  | none =>
      have hread : merged.read sha = .undefined := by
        rw [PlainObject.read, hget]
        exact if_neg fun h => hsha (List.contains_iff_mem.mp h)
      rw [hread]
      refine ⟨_, rfl, (hassign read).1, read, (hassign read).2, fun id => ?_⟩
      simp [hids]
  | some old =>
      have hread : merged.read sha = .own old := (PlainObject.read_eq_own_iff merged sha old).mpr hget
      rw [hread]
      refine ⟨_, rfl, (hassign _).1, _, (hassign _).2, fun id => ?_⟩
      rw [LawfulRoaringBitmap.mem_orInPlace, or_comm, hids]
      simp

theorem encode_injective {ports : IndexPorts Bitmap} (hports : ports.Portable) {bitmap other : Bitmap}
    (h : Bytes.base64Encode (ports.serialize bitmap) = Bytes.base64Encode (ports.serialize other)) :
    toArray bitmap = toArray other := by
  have hbytes : ports.serialize bitmap = ports.serialize other := by
    have hdecoded := Bytes.base64Decode_base64Encode (ports.serialize bitmap)
    rw [h, Bytes.base64Decode_base64Encode, Except.ok.injEq] at hdecoded
    exact hdecoded.symm
  obtain ⟨read, hread, hids⟩ := hports.deserialize_serialize bitmap
  obtain ⟨read', hread', hids'⟩ := hports.deserialize_serialize other
  rw [hbytes, hread', Except.ok.injEq] at hread
  rw [← hids, ← hids', hread]

/-- The id is in the bitmap that an entry holds for the name. -/
def Held (ports : IndexPorts Bitmap) (entries : List (JsString × JsString)) (sha : JsString) (id : Nat) : Prop :=
  ∃ bitmap : Bitmap, (sha, Bytes.base64Encode (ports.serialize bitmap)) ∈ entries ∧ id ∈ toArray bitmap

theorem mergeEntries_spec [LawfulRoaringBitmap Bitmap] {ports : IndexPorts Bitmap} (hports : ports.Portable)
    {entries : List (JsString × JsString)}
    (hentries : ∀ entry ∈ entries, entry.1 ∉ PlainObject.inheritedNames ∧
      ∃ bitmap : Bitmap, toArray bitmap ≠ [] ∧ entry.2 = Bytes.base64Encode (ports.serialize bitmap))
    {linked : JsString → Nat → Prop} {merged : PlainObject Bitmap} (hmerged : Merged linked merged) :
    ∃ merged', entries.foldlM (fun merged entry =>
        StreamingBitmapIndexBuilder.mergeDeserializedBitmap ports merged entry.1 entry.2) merged = .ok merged' ∧
      Merged (fun sha id => linked sha id ∨ Held ports entries sha id) merged' := by
  induction entries generalizing merged linked with
  | nil =>
      refine ⟨merged, rfl, fun sha hsha id => ?_, hmerged.filled⟩
      rw [hmerged.linked_iff sha hsha]
      simp [Held]
  | cons entry rest ih =>
      obtain ⟨sha, text⟩ := entry
      obtain ⟨hsha, bitmap, hne, htext⟩ := hentries _ List.mem_cons_self
      dsimp only at hsha htext
      subst htext
      obtain ⟨next, hnext, hothers, joined, hjoined, hids⟩ := mergeDeserializedBitmap_spec hports merged hsha bitmap
      have hstep : Merged (fun other id => linked other id ∨ (other = sha ∧ id ∈ toArray bitmap)) next := by
        constructor
        · intro other hother id
          by_cases hsame : other = sha
          · subst hsame
            rw [← hmerged.linked_iff other hother, hjoined]
            simp only [Option.some.injEq, exists_eq_left', hids, true_and, or_comm]
          · rw [hothers other hsame, hmerged.linked_iff other hother]
            simp [hsame]
        · intro other found hfound
          by_cases hsame : other = sha
          · subst hsame
            rw [hjoined, Option.some.injEq] at hfound
            obtain ⟨id, hid⟩ := List.exists_mem_of_ne_nil _ hne
            exact List.ne_nil_of_mem (hfound ▸ (hids id).mpr (.inl hid))
          · rw [hothers other hsame] at hfound
            exact hmerged.filled other found hfound
      obtain ⟨merged', hrest, hmerged'⟩ := ih (fun entry hentry => hentries entry (List.mem_cons_of_mem _ hentry)) hstep
      refine ⟨merged', ?_, fun other hother id => ?_, hmerged'.filled⟩
      · rw [List.foldlM_cons, hnext]
        exact hrest
      · rw [hmerged'.linked_iff other hother, or_assoc]
        refine or_congr_right ⟨?_, ?_⟩
        · rintro (⟨rfl, hid⟩ | ⟨found, hfound, hid⟩)
          · exact ⟨bitmap, List.mem_cons_self, hid⟩
          · exact ⟨found, List.mem_cons_of_mem _ hfound, hid⟩
        · rintro ⟨found, hfound, hid⟩
          rcases List.mem_cons.mp hfound with hfirst | hlater
          · obtain ⟨rfl, htext⟩ := Prod.mk.inj hfirst
            exact .inl ⟨rfl, encode_injective hports htext ▸ hid⟩
          · exact .inr ⟨found, hlater, hid⟩

/-- Of a filled set of bitmaps, a shard holds an entry for each linked name of its prefix. -/
theorem held_chunkData_iff [LawfulRoaringBitmap Bitmap] {ports : IndexPorts Bitmap} (hports : ports.Portable)
    {bitmaps : JsMap (EdgeType × JsString) Bitmap} (hfilled : Filled bitmaps) {type : EdgeType}
    {shaPrefix : JsString} {data : PlainObject JsString} (hdata : chunkData ports bitmaps (.edges type shaPrefix) = some data)
    {sha : JsString} (hsha : sha ≠ protoKey) (id : Nat) :
    Held ports data.entries sha id ↔ shardPrefix sha = shaPrefix ∧ Linked bitmaps type sha id := by
  have hencodes := encodes_chunkData hports hfilled hdata
  constructor
  · rintro ⟨bitmap, hentry, hid⟩
    obtain ⟨⟨hpre, -⟩, other, -, hids, htext⟩ := (hencodes sha _).mp ((data.props.get_eq_some_iff sha _).mpr hentry)
    exact ⟨hpre, (hids id).mp (encode_injective hports htext ▸ hid)⟩
  · rintro ⟨hpre, bitmap, hget, hid⟩
    refine ⟨bitmap, (data.props.get_eq_some_iff sha _).mp ((hencodes sha _).mpr ⟨⟨hpre, hsha⟩, bitmap, ?_, ?_, rfl⟩), hid⟩
    · exact hfilled _ _ hget
    · intro id'
      refine ⟨fun hid' => ⟨bitmap, hget, hid'⟩, ?_⟩
      rintro ⟨other, hother, hid'⟩
      rw [hget, Option.some.injEq] at hother
      exact hother ▸ hid'

/-- A chunk that was written is read back and joined to the bitmaps merged so far. -/
theorem mergeChunk_spec [LawfulRoaringBitmap Bitmap] {storage : IndexStorage Oid} {ports : IndexPorts Bitmap}
    (hstorage : storage.Keeps)
    (hports : ports.Portable) {linked : JsString → Nat → Prop} {merged : PlainObject Bitmap}
    (hmerged : Merged linked merged) {bitmaps : JsMap (EdgeType × JsString) Bitmap} (hfilled : Filled bitmaps)
    {type : EdgeType} (hplain : PlainNames (Linked bitmaps type)) {shaPrefix : JsString} {data : PlainObject JsString}
    (hdata : chunkData ports bitmaps (.edges type shaPrefix) = some data) :
    ∃ merged', StreamingBitmapIndexBuilder.mergeChunk storage ports merged
        (storage.writeBlob (wrapShard ports (.bitmaps data))) = .ok merged' ∧
      Merged (fun sha id => linked sha id ∨ (shardPrefix sha = shaPrefix ∧ Linked bitmaps type sha id)) merged' := by
  have hload : StreamingBitmapIndexBuilder.loadAndValidateChunk storage ports
      (storage.writeBlob (wrapShard ports (.bitmaps data))) = .ok data := by
    unfold StreamingBitmapIndexBuilder.loadAndValidateChunk
    rw [hstorage]
    simp only [bind, Except.bind, wrapShard, ne_eq, not_true, if_false]
    rfl
  have hencodes := encodes_chunkData hports hfilled hdata
  have hentries : ∀ entry ∈ data.entries, entry.1 ∉ PlainObject.inheritedNames ∧
      ∃ bitmap : Bitmap, toArray bitmap ≠ [] ∧ entry.2 = Bytes.base64Encode (ports.serialize bitmap) := by
    rintro ⟨sha, text⟩ hentry
    obtain ⟨-, bitmap, hne, hids, htext⟩ := (hencodes sha text).mp ((data.props.get_eq_some_iff sha text).mpr hentry)
    obtain ⟨id, hid⟩ := List.exists_mem_of_ne_nil _ hne
    exact ⟨hplain sha id ((hids id).mp hid), bitmap, hne, htext⟩
  obtain ⟨merged', hfold, hmerged'⟩ := mergeEntries_spec hports hentries hmerged
  refine ⟨merged', ?_, fun sha hsha id => ?_, hmerged'.filled⟩
  · unfold StreamingBitmapIndexBuilder.mergeChunk
    rw [hload]
    exact hfold
  · rw [hmerged'.linked_iff sha hsha, held_chunkData_iff hports hfilled hdata hsha]

/-- The blobs of the chunks of a shard, one for each flush that wrote one. -/
def chunkOids (storage : IndexStorage Oid) (ports : IndexPorts Bitmap) (path : ShardPath)
    (flushed : List (JsMap (EdgeType × JsString) Bitmap)) : List Oid :=
  flushed.filterMap fun bitmaps => (chunk ports bitmaps path).map storage.writeBlob

/-- The id is in the bitmap of the name in one of the flushes. -/
def LinkedIn (flushed : List (JsMap (EdgeType × JsString) Bitmap)) (type : EdgeType) (sha : JsString) (id : Nat) :
    Prop :=
  ∃ bitmaps ∈ flushed, Linked bitmaps type sha id

theorem foldlM_mergeChunk_spec [LawfulRoaringBitmap Bitmap] {storage : IndexStorage Oid} {ports : IndexPorts Bitmap}
    (hstorage : storage.Keeps)
    (hports : ports.Portable) {type : EdgeType} {shaPrefix : JsString}
    {flushed : List (JsMap (EdgeType × JsString) Bitmap)} (hfilled : ∀ bitmaps ∈ flushed, Filled bitmaps)
    (hplain : ∀ bitmaps ∈ flushed, PlainNames (Linked bitmaps type)) {linked : JsString → Nat → Prop}
    {merged : PlainObject Bitmap} (hmerged : Merged linked merged) :
    ∃ merged', (chunkOids storage ports (.edges type shaPrefix) flushed).foldlM
        (StreamingBitmapIndexBuilder.mergeChunk storage ports) merged = .ok merged' ∧
      Merged (fun sha id => linked sha id ∨ (shardPrefix sha = shaPrefix ∧ LinkedIn flushed type sha id)) merged' := by
  induction flushed generalizing linked merged with
  | nil =>
      refine ⟨merged, rfl, fun sha hsha id => ?_, hmerged.filled⟩
      rw [hmerged.linked_iff sha hsha]
      simp [LinkedIn]
  | cons bitmaps rest ih =>
      have hfirst := hfilled bitmaps List.mem_cons_self
      have hrest := fun b hb => hfilled b (List.mem_cons_of_mem bitmaps hb)
      have hplainRest := fun b hb => hplain b (List.mem_cons_of_mem bitmaps hb)
      cases hdata : chunkData ports bitmaps (.edges type shaPrefix) with
      | none =>
          obtain ⟨merged', hok, hmerged'⟩ := ih hrest hplainRest hmerged
          refine ⟨merged', ?_, fun sha hsha id => ?_, hmerged'.filled⟩
          · rw [chunkOids, List.filterMap_cons, chunk, hdata]
            exact hok
          · rw [hmerged'.linked_iff sha hsha, LinkedIn, LinkedIn, List.exists_mem_cons_iff]
            refine or_congr_right (and_congr_right fun hpre => ?_)
            have hnone : ¬ Linked bitmaps type sha id := by
              intro hlinked
              have hsome := (chunkData_isSome_iff ports hfirst type shaPrefix).mpr ⟨sha, id, hpre, hlinked⟩
              rw [hdata] at hsome
              cases hsome
            rw [or_iff_right hnone]
      | some data =>
          obtain ⟨next, hnext, hnextMerged⟩ := mergeChunk_spec hstorage hports hmerged hfirst
            (hplain bitmaps List.mem_cons_self) hdata
          obtain ⟨merged', hok, hmerged'⟩ := ih hrest hplainRest hnextMerged
          refine ⟨merged', ?_, fun sha hsha id => ?_, hmerged'.filled⟩
          · rw [chunkOids, List.filterMap_cons, chunk, hdata]
            dsimp only [Option.map_some]
            rw [List.foldlM_cons, hnext]
            exact hok
          · rw [hmerged'.linked_iff sha hsha, LinkedIn, LinkedIn, List.exists_mem_cons_iff, or_assoc, ← and_or_left]

/-- What several flushes have written for one shard is merged into one chunk. -/
theorem mergeChunks_spec [LawfulRoaringBitmap Bitmap] {storage : IndexStorage Oid} {ports : IndexPorts Bitmap}
    (hstorage : storage.Keeps)
    (hports : ports.Portable) {type : EdgeType} {shaPrefix : JsString}
    {flushed : List (JsMap (EdgeType × JsString) Bitmap)} (hfilled : ∀ bitmaps ∈ flushed, Filled bitmaps)
    (hplain : ∀ bitmaps ∈ flushed, PlainNames (Linked bitmaps type)) :
    ∃ data, StreamingBitmapIndexBuilder.mergeChunks storage ports
        (chunkOids storage ports (.edges type shaPrefix) flushed) =
          .ok (storage.writeBlob (wrapShard ports (.bitmaps data))) ∧
      Encodes ports (LinkedIn flushed type) shaPrefix data := by
  have hempty : Merged (fun _ _ => False) (PlainObject.empty : PlainObject Bitmap) := by
    refine ⟨fun sha _ id => iff_of_false ?_ not_false, fun sha bitmap h => by cases h⟩
    rintro ⟨bitmap, hget, -⟩
    cases hget
  obtain ⟨merged, hok, hmerged⟩ :=
    @foldlM_mergeChunk_spec _ _ _ _ _ _ hstorage hports type shaPrefix _ hfilled hplain _ _ hempty
  let encode : Bitmap → JsString := fun bitmap => Bytes.base64Encode (ports.serialize bitmap)
  refine ⟨merged.entries.foldl (fun result entry => result.assign entry.1 (encode entry.2)) .empty, ?_, ?_⟩
  · unfold StreamingBitmapIndexBuilder.mergeChunks
    rw [hok]
    rfl
  · intro sha text
    have hresult : merged.entries.foldl (fun result entry => result.assign entry.1 (encode entry.2)) PlainObject.empty =
        (merged.props.mapValues fun _ bitmap => encode bitmap).entries.foldl
          (fun result entry => result.assign entry.1 entry.2) PlainObject.empty := by
      have hentries : (merged.props.mapValues fun _ bitmap => encode bitmap).entries =
          merged.entries.map fun entry => (entry.1, encode entry.2) := rfl
      rw [hentries, List.foldl_map]
    have hlookup : JsMap.lookup (merged.props.mapValues fun _ bitmap => encode bitmap).entries sha =
        (merged.props.get sha).map encode :=
      JsMap.get_mapValues (fun _ bitmap => encode bitmap) merged.props sha
    have hempty : (PlainObject.empty : PlainObject JsString).props.get sha = none := rfl
    rw [hresult, PlainObject.get_foldl_assign _ (JsMap.nodup _), hlookup, hempty, Option.or_none]
    by_cases hproto : sha = protoKey
    · rw [if_pos hproto]
      exact iff_of_false (Option.some_ne_none _).symm fun h => h.1.2 hproto
    · rw [if_neg hproto, Option.map_eq_some_iff]
      have hiff : ∀ id, (∃ bitmap, merged.props.get sha = some bitmap ∧ id ∈ toArray bitmap) ↔
          shardPrefix sha = shaPrefix ∧ LinkedIn flushed type sha id := by
        intro id
        rw [hmerged.linked_iff sha hproto, false_or]
      constructor
      · rintro ⟨bitmap, hget, rfl⟩
        have hne := hmerged.filled sha bitmap hget
        obtain ⟨id, hid⟩ := List.exists_mem_of_ne_nil _ hne
        have hpre := ((hiff id).mp ⟨bitmap, hget, hid⟩).1
        refine ⟨⟨hpre, hproto⟩, bitmap, hne, fun id' => ?_, rfl⟩
        have hboth := hiff id'
        rw [and_iff_right hpre] at hboth
        rw [← hboth]
        simp [hget]
      · rintro ⟨⟨hpre, -⟩, bitmap, hne, hids, rfl⟩
        obtain ⟨id, hid⟩ := List.exists_mem_of_ne_nil _ hne
        obtain ⟨found, hget, -⟩ := (hiff id).mpr ⟨hpre, (hids id).mp hid⟩
        refine ⟨found, hget, ?_⟩
        have hsame : toArray found = toArray bitmap := RoaringBitmap.toArray_eq_of_mem_iff fun id' => by
          rw [hids]
          have hboth := hiff id'
          rw [and_iff_right hpre] at hboth
          rw [← hboth]
          simp [hget]
        dsimp only [encode]
        rw [hports.serialize_congr found bitmap hsame]

end GitWarp
