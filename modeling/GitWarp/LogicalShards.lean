import GitWarp.BitmapIndex
import GitWarp.LogicalIndex

/-! The shards of the logical index: a meta shard for each prefix of the node ids, the registry of the labels, and edge
shards with the bytes of the bitmaps. The index that is read back from them answers like the one that was written. -/

namespace GitWarp
open Js ExceptLoops RoaringBitmap

namespace LogicalIndex

variable {V Bitmap Buffer : Type} [RoaringBitmap Bitmap]

/-- The name of a shard: `meta_XX.cbor`, `labels.cbor`, `fwd_XX.cbor`, `rev_XX.cbor` or `receipt.cbor`. -/
inductive ShardName where
  | nodes (shard : Fin 256)
  | labels
  | edges (direction : EdgeDirection) (shard : Fin 256)
  | receipt

/-- What is encoded in a shard. The record of records of the bitmaps is listed by both keys, the bucket and the owner. -/
inductive ShardObject where
  | nodes (nodeToGlobal : List (JsString × Nat)) (nextLocalId : Nat) (alive : List UInt8)
  | labels (registry : List (JsString × Nat))
  | edges (bitmaps : List ((Option Nat × Nat) × List UInt8))
  | receipt (version nodeCount labelCount shardCount : Nat)

/-- The bitmap that the ids were added to. -/
def bitmapOf (ids : JsSet Nat) : Bitmap := ids.elems.foldl RoaringBitmap.add RoaringBitmap.empty

def idsOf (bitmap : Bitmap) : JsSet Nat := JsSet.ofList (toArray bitmap)

/-- The shard of a node is the high byte of its id. -/
def shardOf (globalId : Nat) : Fin 256 := Fin.ofNat 256 (globalId / maxLocalId)

section Shards

variable (ports : IndexPorts Bitmap) (codec : CodecPort ShardObject Buffer) (computeShardKey : JsString → Fin 256)

/-- The nodes of a shard with their ids, sorted. -/
def shardNodes (index : LogicalIndex) (shard : Fin 256) : List (JsString × Nat) :=
  (index.nodeToGlobal.entries.filter fun entry => computeShardKey entry.1 = shard).insertionSort fun a b => a.1 ≤ b.1

def metaShard (index : LogicalIndex) (shard : Fin 256) : ShardObject :=
  .nodes (shardNodes computeShardKey index shard) (index.nextLocal shard)
    (((index.aliveBitmaps.get shard).map fun ids => ports.serialize (bitmapOf ids)).getD [])

/-- The bitmaps of the owners in a shard. -/
def shardBitmaps (store : BitmapStore) (shard : Fin 256) : List ((Option Nat × Nat) × JsSet Nat) :=
  store.entries.filter fun entry => shardOf entry.1.2 = shard

def edgeShard (store : BitmapStore) (shard : Fin 256) : ShardObject :=
  .edges ((shardBitmaps store shard).map fun entry => (entry.1, ports.serialize (bitmapOf entry.2)))

/-- The shards in which a store has bitmaps. -/
def edgeShardKeys (store : BitmapStore) : List (Fin 256) :=
  (JsSet.ofList (store.entries.map fun entry => shardOf entry.1.2)).elems

/-- `_serializeEdgeShards` -/
def serializeEdgeShards (index : LogicalIndex) (direction : EdgeDirection) : List (ShardName × Buffer) :=
  (edgeShardKeys (index.store direction)).map fun shard =>
    (.edges direction shard, codec.encode (edgeShard ports (index.store direction) shard))

def serialize (index : LogicalIndex) : List (ShardName × Buffer) :=
  (index.shardNextLocal.keys.map fun shard => (.nodes shard, codec.encode (metaShard ports computeShardKey index shard))) ++
    (.labels, codec.encode (.labels index.labelToId.entries)) ::
    (serializeEdgeShards ports codec index .outgoing ++ serializeEdgeShards ports codec index .incoming ++
      [(.receipt, codec.encode
        (.receipt 1 index.nodeToGlobal.size index.labelToId.size index.shardNextLocal.keys.length))])

/-- A shard of another form, or none. -/
def malformed {α : Type} : Except JsError α := .error ⟨"TypeError", "object is not iterable"⟩

/-- `_decodeMeta` -/
def decodeMeta (nodes : JsMap JsString Nat × JsMap (Fin 256) (JsSet Nat)) (item : Fin 256 × Buffer) :
    Except JsError (JsMap JsString Nat × JsMap (Fin 256) (JsSet Nat)) := do
  match ← codec.decode item.2 with
  | some (.nodes nodeToGlobal _ alive) =>
      let known := nodeToGlobal.foldl (fun map entry => map.set entry.1 entry.2) nodes.1
      if alive = [] then return (known, nodes.2)
      else return (known, nodes.2.set item.1 (idsOf (← ports.deserialize alive)))
  | _ => malformed

/-- `_decodeLabels` -/
def decodeLabels (buf : Buffer) : Except JsError (JsMap JsString Nat) := do
  match ← codec.decode buf with
  | some (.labels registry) => return JsMap.ofEntries registry
  | _ => malformed

/-- `_decodeEdgeShard` -/
def decodeEdgeShard (store : BitmapStore) (buf : Buffer) : Except JsError BitmapStore := do
  match ← codec.decode buf with
  | some (.edges bitmaps) =>
      bitmaps.foldlM (fun store entry => do return store.set entry.1 (idsOf (← ports.deserialize entry.2))) store
  | _ => malformed

/-- `classifyShards`: the meta shards, the registry and the edge shards of a direction. -/
def metaShards (tree : List (ShardName × Buffer)) : List (Fin 256 × Buffer) :=
  tree.filterMap fun item => match item.1 with
    | .nodes shard => some (shard, item.2)
    | _ => none

def labelShard (tree : List (ShardName × Buffer)) : Option Buffer :=
  (tree.filterMap fun item => match item.1 with
    | .labels => some item.2
    | _ => none).getLast?

def edgeShards (tree : List (ShardName × Buffer)) (direction : EdgeDirection) : List Buffer :=
  tree.filterMap fun item => match item.1 with
    | .edges other _ => if other = direction then some item.2 else none
    | _ => none

/-- `loadFromTree`, the two directions one after the other. A reader counts no ids. -/
def loadFromTree (tree : List (ShardName × Buffer)) : Except JsError LogicalIndex := do
  let nodes ← (metaShards tree).foldlM (decodeMeta ports codec) (JsMap.empty, JsMap.empty)
  let labels ← (labelShard tree).elim (pure JsMap.empty) (decodeLabels codec)
  let fwd ← (edgeShards tree .outgoing).foldlM (decodeEdgeShard ports codec) JsMap.empty
  let rev ← (edgeShards tree .incoming).foldlM (decodeEdgeShard ports codec) JsMap.empty
  return ⟨nodes.1, JsMap.empty, nodes.2, labels, 0, fwd, rev⟩

end Shards

/-! ### Reading back what was written -/

theorem mem_idsOf_bitmapOf [LawfulRoaringBitmap Bitmap] (ids : JsSet Nat) (id : Nat) :
    id ∈ idsOf (bitmapOf ids : Bitmap) ↔ id ∈ ids := by
  have hloop : ∀ (elems : List Nat) (bitmap : Bitmap),
      id ∈ toArray (elems.foldl RoaringBitmap.add bitmap) ↔ id ∈ toArray bitmap ∨ id ∈ elems := by
    intro elems
    induction elems with
    | nil => simp
    | cons other elems ih =>
        intro bitmap
        rw [List.foldl_cons, ih, LawfulRoaringBitmap.mem_add, List.mem_cons, or_comm (a := id = other), or_assoc]
  rw [idsOf, JsSet.mem_ofList, bitmapOf, hloop, LawfulRoaringBitmap.toArray_empty, or_iff_right List.not_mem_nil]
  rfl

/-- A list is its parts by a key, one after the other. -/
theorem perm_parts {α β : Type} [DecidableEq β] (key : α → β) {xs : List α} (hxs : xs.Nodup) {keys : List β}
    (hkeys : keys.Nodup) (hall : ∀ x ∈ xs, key x ∈ keys) {part : β → List α}
    (hpart : ∀ k, (part k).Perm (xs.filter fun x => key x = k)) : (keys.flatMap part).Perm xs := by
  have hmem : ∀ k x, x ∈ part k ↔ x ∈ xs ∧ key x = k := fun k x => by
    rw [(hpart k).mem_iff, List.mem_filter, decide_eq_true_iff]
  refine (List.perm_ext_iff_of_nodup ?_ hxs).mpr fun x => ?_
  · refine List.nodup_flatMap.mpr ⟨fun k _ => (hpart k).nodup_iff.mpr (hxs.filter _), hkeys.imp fun hne => ?_⟩
    refine List.disjoint_left.mpr fun x hx hx' => hne ?_
    rw [← ((hmem _ x).mp hx).2, ((hmem _ x).mp hx').2]
  · rw [List.mem_flatMap]
    constructor
    · rintro ⟨k, -, hx⟩
      exact ((hmem k x).mp hx).1
    · exact fun hx => ⟨key x, hall x hx, (hmem _ x).mpr ⟨hx, rfl⟩⟩

/-- Setting the entries of a map in some order, changed by `change`, makes the map of the changed values. -/
theorem get_foldl_set_of_perm {K W X : Type} [DecidableEq K] {m : JsMap K W} {entries : List (K × W)}
    (hperm : entries.Perm m.entries) (change : W → X) (key : K) :
    (entries.foldl (fun map entry => map.set entry.1 (change entry.2)) JsMap.empty).get key = (m.get key).map change := by
  rw [← JsMap.get_mapValues fun _ => change,
    ← JsMap.get_ofEntries_of_perm (m := m.mapValues fun _ => change) (hperm.map fun entry => (entry.1, change entry.2)),
    JsMap.ofEntries, List.foldl_map]

section Loaded

variable {ports : IndexPorts Bitmap} {codec : CodecPort ShardObject Buffer}
  {computeShardKey : JsString → Fin 256} (hports : ports.Portable) (hcodec : codec.Inverts)

include hports

theorem deserialize_ids (ids : JsSet Nat) : ∃ read,
    ports.deserialize (ports.serialize (bitmapOf ids)) = .ok read ∧ idsOf read = idsOf (bitmapOf ids : Bitmap) := by
  obtain ⟨read, hread, hsame⟩ := hports.deserialize_serialize (bitmapOf ids)
  exact ⟨read, hread, congrArg JsSet.ofList hsame⟩

include hcodec

/-- A meta shard is read back with its nodes and its alive bitmap. -/
theorem decodeMeta_metaShard (index : LogicalIndex) (shard : Fin 256)
    (nodes : JsMap JsString Nat × JsMap (Fin 256) (JsSet Nat)) :
    decodeMeta ports codec nodes (shard, codec.encode (metaShard ports computeShardKey index shard)) =
      .ok ((shardNodes computeShardKey index shard).foldl (fun map entry => map.set entry.1 entry.2) nodes.1,
        ((index.aliveBitmaps.get shard).map fun ids => nodes.2.set shard (idsOf (bitmapOf ids : Bitmap))).getD nodes.2) := by
  rw [decodeMeta, hcodec]
  cases halive : index.aliveBitmaps.get shard with
  | none =>
      simp only [metaShard, halive]
      rfl
  | some ids =>
      obtain ⟨read, hread, hids⟩ := deserialize_ids hports ids
      simp only [metaShard, halive, Option.map_some, Option.getD_some, bind, Except.bind,
        if_neg (hports.serialize_ne_nil _), hread, hids]
      rfl

/-- An edge shard is read back with its bitmaps. -/
theorem decodeEdgeShard_edgeShard (store read : BitmapStore) (shard : Fin 256) :
    decodeEdgeShard ports codec read (codec.encode (edgeShard ports store shard)) =
      .ok ((shardBitmaps store shard).foldl
        (fun map entry => map.set entry.1 (idsOf (bitmapOf entry.2 : Bitmap))) read) := by
  rw [decodeEdgeShard, hcodec]
  show List.foldlM _ read ((shardBitmaps store shard).map _) = _
  rw [List.foldlM_map]
  refine foldlM_eq_foldl (fun entry _ map => ?_) read
  obtain ⟨bitmap, hread, hids⟩ := deserialize_ids hports entry.2
  simp only [hread, bind, Except.bind, hids]
  rfl

/-- All meta shards of some prefixes are read back. -/
theorem foldlM_decodeMeta (computeShardKey : JsString → Fin 256) (index : LogicalIndex) (shards : List (Fin 256)) :
    ∃ nodes, (shards.map fun shard => (shard, codec.encode (metaShard ports computeShardKey index shard))).foldlM
        (decodeMeta ports codec) (JsMap.empty, JsMap.empty) = .ok nodes ∧
      nodes.1 = (shards.flatMap (shardNodes computeShardKey index)).foldl (fun map entry => map.set entry.1 entry.2)
        JsMap.empty ∧
      ∀ shard ∈ shards, nodes.2.get shard =
        (index.aliveBitmaps.get shard).map fun ids => idsOf (bitmapOf ids : Bitmap) := by
  rw [List.foldlM_map, foldlM_eq_foldl fun shard _ nodes => decodeMeta_metaShard hports hcodec index shard nodes]
  have hloop : ∀ (shards : List (Fin 256)) (start : JsMap JsString Nat × JsMap (Fin 256) (JsSet Nat)),
      let nodes := shards.foldl (fun nodes shard =>
        ((shardNodes computeShardKey index shard).foldl (fun map entry => map.set entry.1 entry.2) nodes.1,
          ((index.aliveBitmaps.get shard).map fun ids => nodes.2.set shard (idsOf (bitmapOf ids : Bitmap))).getD nodes.2))
        start
      nodes.1 = (shards.flatMap (shardNodes computeShardKey index)).foldl (fun map entry => map.set entry.1 entry.2)
        start.1 ∧
      ∀ shard, nodes.2.get shard = if shard ∈ shards
        then ((index.aliveBitmaps.get shard).map fun ids => idsOf (bitmapOf ids : Bitmap)).or (start.2.get shard)
        else start.2.get shard := by
    intro shards
    induction shards with
    | nil => exact fun start => ⟨rfl, fun shard => rfl⟩
    | cons head shards ih =>
        intro start
        rw [List.foldl_cons]
        obtain ⟨hnodes, halive⟩ := ih ((shardNodes computeShardKey index head).foldl
            (fun map entry => map.set entry.1 entry.2) start.1,
          ((index.aliveBitmaps.get head).map fun ids => start.2.set head (idsOf (bitmapOf ids : Bitmap))).getD start.2)
        refine ⟨by rw [hnodes, List.flatMap_cons, List.foldl_append], fun shard => (halive shard).trans ?_⟩
        by_cases hhead : shard = head
        · subst hhead
          cases index.aliveBitmaps.get shard <;> simp
        · cases index.aliveBitmaps.get head <;> simp [hhead, JsMap.get_set_of_ne]
  obtain ⟨hnodes, halive⟩ := hloop shards (JsMap.empty, JsMap.empty)
  refine ⟨_, rfl, hnodes, fun shard hshard => ?_⟩
  rw [halive, if_pos hshard, JsMap.get_empty, Option.or_none]

/-- All edge shards of a direction are read back. -/
theorem foldlM_decodeEdgeShard (store : BitmapStore) :
    ∃ read, ((edgeShardKeys store).map fun shard => codec.encode (edgeShard ports store shard)).foldlM
        (decodeEdgeShard ports codec) JsMap.empty = .ok read ∧
      ∀ key, read.get key = (store.get key).map fun ids => idsOf (bitmapOf ids : Bitmap) := by
  rw [List.foldlM_map, foldlM_eq_foldl fun shard _ read => decodeEdgeShard_edgeShard hports hcodec store read shard]
  refine ⟨_, rfl, fun key => ?_⟩
  have hperm : ((edgeShardKeys store).flatMap (shardBitmaps store)).Perm store.entries := by
    refine perm_parts (fun entry => shardOf entry.1.2) store.nodup.of_map (JsSet.nodup _) (fun entry hentry => ?_)
      fun shard => List.Perm.refl _
    exact (JsSet.mem_ofList _ _).mpr (List.mem_map_of_mem hentry)
  rw [← get_foldl_set_of_perm hperm, List.foldl_flatMap]

end Loaded

section Classified

variable (ports : IndexPorts Bitmap) (codec : CodecPort ShardObject Buffer) (computeShardKey : JsString → Fin 256)
  (index : LogicalIndex)

theorem metaShards_serialize : metaShards (serialize ports codec computeShardKey index) =
    index.shardNextLocal.keys.map fun shard => (shard, codec.encode (metaShard ports computeShardKey index shard)) := by
  simp [metaShards, serialize, serializeEdgeShards, List.filterMap_append, List.filterMap_map]

theorem labelShard_serialize : labelShard (serialize ports codec computeShardKey index) =
    some (codec.encode (.labels index.labelToId.entries)) := by
  simp [labelShard, serialize, serializeEdgeShards, List.filterMap_append, List.filterMap_map]

theorem edgeShards_serialize (direction : EdgeDirection) :
    edgeShards (serialize ports codec computeShardKey index) direction =
      (edgeShardKeys (index.store direction)).map fun shard =>
        codec.encode (edgeShard ports (index.store direction) shard) := by
  cases direction <;>
    simp [edgeShards, serialize, serializeEdgeShards, List.filterMap_append, List.filterMap_map]

end Classified

/-- The index knows the prefix of every node that has an id. -/
def KnowsShards (computeShardKey : JsString → Fin 256) (index : LogicalIndex) : Prop :=
  ∀ node, (index.nodeToGlobal.get node).isSome = true → computeShardKey node ∈ index.shardNextLocal.keys

/-- Two indexes with the same ids and the same neighbours. -/
structure SameContents (computeShardKey : JsString → Fin 256) (a b : LogicalIndex) : Prop where
  nodes : ∀ node, a.nodeToGlobal.get node = b.nodeToGlobal.get node
  labels : ∀ label, a.labelToId.get label = b.labelToId.get label
  alive : ∀ node, isAlive computeShardKey a node = isAlive computeShardKey b node
  bitmaps : ∀ direction key id, InBitmap (a.store direction) key id ↔ InBitmap (b.store direction) key id

/-- The shards of an index are read back as an index with the same contents. -/
theorem loadFromTree_serialize [LawfulRoaringBitmap Bitmap] {ports : IndexPorts Bitmap}
    {codec : CodecPort ShardObject Buffer} (hports : ports.Portable) (hcodec : codec.Inverts)
    {computeShardKey : JsString → Fin 256} {index : LogicalIndex} (hknows : KnowsShards computeShardKey index) :
    ∃ loaded, loadFromTree ports codec (serialize ports codec computeShardKey index) = .ok loaded ∧
      SameContents computeShardKey loaded index := by
  obtain ⟨nodes, hnodes, hids, halive⟩ :=
    foldlM_decodeMeta hports hcodec computeShardKey index index.shardNextLocal.keys
  obtain ⟨fwd, hfwd, hfwdGet⟩ := foldlM_decodeEdgeShard hports hcodec (index.store .outgoing)
  obtain ⟨rev, hrev, hrevGet⟩ := foldlM_decodeEdgeShard hports hcodec (index.store .incoming)
  refine ⟨⟨nodes.1, JsMap.empty, nodes.2, JsMap.ofEntries index.labelToId.entries, 0, fwd, rev⟩, ?_, ?_⟩
  · rw [loadFromTree, metaShards_serialize, labelShard_serialize, edgeShards_serialize, edgeShards_serialize, hnodes,
      hfwd, hrev, Option.elim_some, decodeLabels, hcodec]
    rfl
  have hknown : ∀ node, nodes.1.get node = index.nodeToGlobal.get node := by
    intro node
    have hperm : (index.shardNextLocal.keys.flatMap (shardNodes computeShardKey index)).Perm index.nodeToGlobal.entries := by
      refine perm_parts (fun entry => computeShardKey entry.1) index.nodeToGlobal.nodup.of_map index.shardNextLocal.nodup
        (fun entry hentry => hknows entry.1 ?_) fun shard => by
          unfold shardNodes
          exact List.perm_insertionSort _ _
      rw [(JsMap.get_eq_some_iff _ _ _).mpr hentry]
      rfl
    rw [hids]
    exact (get_foldl_set_of_perm hperm (fun id => id) node).trans Option.map_id'
  refine ⟨hknown, fun label => JsMap.get_ofEntries_of_perm (List.Perm.refl _) label, fun node => ?_,
    fun direction key id => ?_⟩
  · unfold isAlive
    rw [hknown]
    cases hget : index.nodeToGlobal.get node with
    | none => rfl
    | some id =>
        have hshard := hknows node (by rw [hget]; rfl)
        dsimp only
        rw [halive _ hshard, Bool.eq_iff_iff, JsSet.has_iff, JsSet.has_iff]
        cases index.aliveBitmaps.get (computeShardKey node) with
        | none => rfl
        | some ids => exact mem_idsOf_bitmapOf ids id
  · have hstore : ∀ {read store : BitmapStore},
        (∀ key, read.get key = (store.get key).map fun ids => idsOf (bitmapOf ids : Bitmap)) →
        (InBitmap read key id ↔ InBitmap store key id) := by
      intro read store hread
      rw [InBitmap, InBitmap, hread]
      cases store.get key with
      | none => rfl
      | some ids => exact mem_idsOf_bitmapOf ids id
    cases direction with
    | outgoing => exact hstore hfwdGet
    | incoming => exact hstore hrevGet

/-! ### The shards of an index that was built -/

/-- An index with the contents of that of a state is that of the state. -/
theorem SameContents.indexOf {computeShardKey : JsString → Fin 256} {state : WarpStateV5 V} {a b : LogicalIndex}
    (h : SameContents computeShardKey a b) (hindex : IndexOf computeShardKey state b) :
    IndexOf computeShardKey state a where
  alive node := (h.alive node).trans (hindex.alive node)
  known node := by
    rw [h.nodes]
    exact hindex.known node
  nodes := by
    intro x y id hx hy
    rw [h.nodes] at hx hy
    exact hindex.nodes x y id hx hy
  labels := by
    intro x y id hx hy
    rw [h.labels] at hx hy
    exact hindex.labels x y id hx hy
  labelled edge hedge := by
    rw [h.labels]
    exact hindex.labelled edge hedge
  bitmaps direction labelId gid id := by
    rw [h.bitmaps, hindex.bitmaps]
    simp only [HasIds, h.labels, h.nodes]

/-- An index that is built knows the prefixes of its nodes. -/
theorem knowsShards_build {computeShardKey : JsString → Fin 256} {state : WarpStateV5 V} {index : LogicalIndex}
    (h : build computeShardKey state = .ok index) : KnowsShards computeShardKey index := by
  unfold build at h
  obtain ⟨registered, hregistered, h⟩ := bind_ok_iff.mp h
  cases h
  obtain ⟨nodes, hnodes, -⟩ := registered_empty.registerAll hregistered
  have hlabels : ∀ (labels : List JsString) (index : LogicalIndex),
      (labels.foldl registerLabel index).nodeToGlobal = index.nodeToGlobal ∧
        (labels.foldl registerLabel index).shardNextLocal = index.shardNextLocal := by
    intro labels
    induction labels with
    | nil => exact fun index => ⟨rfl, rfl⟩
    | cons label labels ih =>
        intro index
        rw [List.foldl_cons, (ih _).1, (ih _).2, registerLabel]
        split <;> exact ⟨rfl, rfl⟩
  have hedges : ∀ (edges : List EdgeRef) (index : LogicalIndex),
      (edges.foldl addEdge index).nodeToGlobal = index.nodeToGlobal ∧
        (edges.foldl addEdge index).shardNextLocal = index.shardNextLocal := by
    intro edges
    induction edges with
    | nil => exact fun index => ⟨rfl, rfl⟩
    | cons edge edges ih =>
        intro index
        rw [List.foldl_cons, (ih _).1, (ih _).2, addEdge]
        split <;> exact ⟨rfl, rfl⟩
  intro node hnode
  rw [(hedges _ _).1, (hlabels _ _).1] at hnode
  rw [(hedges _ _).2, (hlabels _ _).2, JsMap.mem_keys_iff]
  obtain ⟨id, hid⟩ := Option.isSome_iff_exists.mp hnode
  obtain ⟨n, hn, -⟩ := hnodes.place node id hid
  -- a prefix that has given out an id has a next one
  cases hnext : registered.shardNextLocal.get (computeShardKey node) with
  | none =>
      rw [nextLocal, hnext] at hn
      exact absurd hn (Nat.not_lt_zero n)
  | some next => rfl

/-- Indexes with the same contents give the same edges, up to their order. -/
theorem getEdges_perm {computeShardKey : JsString → Fin 256} {state : WarpStateV5 V} {a b : LogicalIndex}
    (h : SameContents computeShardKey a b) (hindex : IndexOf computeShardKey state b) (nodeId : JsString)
    (direction : EdgeDirection) {filterLabelIds : Option (List Nat)}
    (hnodup : ∀ labelIds, filterLabelIds = some labelIds → labelIds.Nodup) :
    (a.getEdges nodeId direction filterLabelIds).Perm (b.getEdges nodeId direction filterLabelIds) := by
  cases hgid : b.nodeToGlobal.get nodeId with
  | none =>
      have hgid' := (h.nodes nodeId).trans hgid
      unfold getEdges
      rw [hgid, hgid']
  | some gid =>
      have hgid' := (h.nodes nodeId).trans hgid
      cases filterLabelIds with
      | none =>
          obtain ⟨hb, hmem⟩ := getEdges_all hindex direction hgid
          obtain ⟨ha, hmem'⟩ := getEdges_all (h.indexOf hindex) direction hgid'
          exact (List.perm_ext_iff_of_nodup ha hb).mpr fun entry => (hmem' entry).trans (hmem entry).symm
      | some labelIds =>
          obtain ⟨hb, hmem⟩ := getEdges_labels hindex direction hgid (hnodup labelIds rfl)
          obtain ⟨ha, hmem'⟩ := getEdges_labels (h.indexOf hindex) direction hgid' (hnodup labelIds rfl)
          refine (List.perm_ext_iff_of_nodup ha hb).mpr fun entry => ?_
          rw [hmem', hmem]
          simp only [h.labels]

/-- The shards of the index of a state are read back as an index of the same state, which gives the same ids and, for
any node, the same neighbours. -/
theorem load_build [LawfulRoaringBitmap Bitmap] {ports : IndexPorts Bitmap} {codec : CodecPort ShardObject Buffer}
    (hports : ports.Portable) (hcodec : codec.Inverts) {computeShardKey : JsString → Fin 256} {state : WarpStateV5 V}
    {index : LogicalIndex} (h : build computeShardKey state = .ok index) :
    ∃ loaded, loadFromTree ports codec (serialize ports codec computeShardKey index) = .ok loaded ∧
      IndexOf computeShardKey state loaded ∧ SameContents computeShardKey loaded index ∧
      ∀ nodeId direction filterLabelIds, (∀ labelIds, filterLabelIds = some labelIds → labelIds.Nodup) →
        (loaded.getEdges nodeId direction filterLabelIds).Perm (index.getEdges nodeId direction filterLabelIds) := by
  obtain ⟨loaded, hloaded, hsame⟩ := loadFromTree_serialize hports hcodec (knowsShards_build h)
  have hindex := indexOf_build h
  exact ⟨loaded, hloaded, hsame.indexOf hindex, hsame, fun nodeId direction _ => getEdges_perm hsame hindex nodeId direction⟩

end LogicalIndex

end GitWarp
