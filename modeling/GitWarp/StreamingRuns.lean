import GitWarp.StreamingIndex

/-! Runs of the streaming builder beside the builder in memory: whatever calls are made and wherever the flushes fall,
both leave the same index, and the bitmaps in memory stay below the bound. -/

namespace GitWarp
open Js ExceptLoops
open RoaringBitmap (toArray)

variable {Oid Bitmap : Type} [RoaringBitmap Bitmap]

/-! ### A bitmap that takes an id -/

theorem get_addToBitmap (bitmaps : JsMap (EdgeType × JsString) Bitmap) (sha : JsString) (id : Nat)
    (type : EdgeType) (key : EdgeType × JsString) :
    (BitmapIndexBuilder.addToBitmap bitmaps sha id type).get key =
      if key = (type, sha) then some (RoaringBitmap.add ((bitmaps.get (type, sha)).getD RoaringBitmap.empty) id)
      else bitmaps.get key := by
  unfold BitmapIndexBuilder.addToBitmap
  cases hget : bitmaps.get (type, sha) with
  | none =>
      have hhas : bitmaps.has (type, sha) = false := by rw [JsMap.has, hget]; rfl
      simp only [hhas, Bool.false_eq_true, if_false, JsMap.get_set_self, JsMap.get_set, Option.getD_none]
      split <;> rfl
  | some bitmap =>
      have hhas : bitmaps.has (type, sha) = true := by rw [JsMap.has, hget]; rfl
      simp only [hhas, if_true, hget, JsMap.get_set, Option.getD_some]

theorem filled_addToBitmap [LawfulRoaringBitmap Bitmap] {bitmaps : JsMap (EdgeType × JsString) Bitmap}
    (hfilled : Filled bitmaps)
    (sha : JsString) (id : Nat) (type : EdgeType) : Filled (BitmapIndexBuilder.addToBitmap bitmaps sha id type) := by
  intro key bitmap hget
  rw [get_addToBitmap] at hget
  split at hget
  · rw [Option.some.injEq] at hget
    exact List.ne_nil_of_mem (hget ▸ (LawfulRoaringBitmap.mem_add _ _ _).mpr (.inl rfl))
  · exact hfilled key bitmap hget

theorem linked_addToBitmap [LawfulRoaringBitmap Bitmap] (bitmaps : JsMap (EdgeType × JsString) Bitmap) (sha : JsString)
    (id : Nat)
    (type : EdgeType) (type' : EdgeType) (sha' : JsString) (id' : Nat) :
    Linked (BitmapIndexBuilder.addToBitmap bitmaps sha id type) type' sha' id' ↔
      Linked bitmaps type' sha' id' ∨ ((type', sha') = (type, sha) ∧ id' = id) := by
  rw [Linked, get_addToBitmap]
  by_cases hkey : (type', sha') = (type, sha)
  · obtain ⟨rfl, rfl⟩ := Prod.mk.inj hkey
    rw [if_pos rfl]
    simp only [Option.some.injEq, exists_eq_left', LawfulRoaringBitmap.mem_add, true_and]
    rw [or_comm, Linked]
    cases hget : bitmaps.get (type', sha') with
    | none => simp [LawfulRoaringBitmap.toArray_empty]
    | some bitmap => simp
  · rw [if_neg hkey, Linked]
    simp [hkey]

/-- What the bitmaps in memory are estimated to take. -/
def bitmapBytes (bitmaps : JsMap (EdgeType × JsString) Bitmap) : Nat :=
  (bitmaps.values.map fun bitmap => BITMAP_BASE_OVERHEAD + 4 * RoaringBitmap.size bitmap).sum

/-- A value that is set takes the place of the one before it in the sum. -/
theorem sum_setEntry {K V : Type} [DecidableEq K] (weight : V → Nat) (entries : List (K × V)) (key : K) (value : V) :
    ((JsMap.setEntry entries key value).map fun entry => weight entry.2).sum +
        ((JsMap.lookup entries key).map weight).getD 0 =
      (entries.map fun entry => weight entry.2).sum + weight value := by
  induction entries with
  | nil => simp [JsMap.setEntry, JsMap.lookup]
  | cons entry rest ih =>
      obtain ⟨k, v⟩ := entry
      rw [JsMap.setEntry, JsMap.lookup_cons]
      split
      · rename_i hkey
        rw [if_pos (by rw [hkey])]
        simp only [List.map_cons, List.sum_cons, Option.map_some, Option.getD_some]
        omega
      · rename_i hkey
        rw [if_neg (Ne.symm hkey)]
        simp only [List.map_cons, List.sum_cons]
        omega

theorem bitmapBytes_set (bitmaps : JsMap (EdgeType × JsString) Bitmap) (key : EdgeType × JsString)
    (bitmap : Bitmap) :
    bitmapBytes (bitmaps.set key bitmap) +
        ((bitmaps.get key).map fun bitmap => BITMAP_BASE_OVERHEAD + 4 * RoaringBitmap.size bitmap).getD 0 =
      bitmapBytes bitmaps + (BITMAP_BASE_OVERHEAD + 4 * RoaringBitmap.size bitmap) := by
  have hsum := sum_setEntry (fun bitmap : Bitmap => BITMAP_BASE_OVERHEAD + 4 * RoaringBitmap.size bitmap)
    bitmaps.entries key bitmap
  simp only [bitmapBytes, JsMap.values, List.map_map]
  exact hsum

variable [LawfulRoaringBitmap Bitmap]

namespace StreamingBitmapIndexBuilder

/-- The estimate grows as the bitmaps do. -/
theorem addToBitmap_eq (builder : StreamingBitmapIndexBuilder Oid Bitmap) (sha : JsString) (id : Nat)
    (type : EdgeType) :
    ∃ bytes, builder.addToBitmap sha id type = { builder with
        bitmaps := BitmapIndexBuilder.addToBitmap builder.bitmaps sha id type
        estimatedBitmapBytes := bytes } ∧
      bytes + bitmapBytes builder.bitmaps = builder.estimatedBitmapBytes +
        bitmapBytes (BitmapIndexBuilder.addToBitmap builder.bitmaps sha id type) := by
  unfold addToBitmap BitmapIndexBuilder.addToBitmap
  cases hget : builder.bitmaps.get (type, sha) with
  | none =>
      have hhas : builder.bitmaps.has (type, sha) = false := by rw [JsMap.has, hget]; rfl
      simp only [hhas, Bool.false_eq_true, if_false, JsMap.get_set_self]
      refine ⟨_, rfl, ?_⟩
      have hfirst := bitmapBytes_set builder.bitmaps (type, sha) RoaringBitmap.empty
      have hsecond := bitmapBytes_set (builder.bitmaps.set (type, sha) RoaringBitmap.empty) (type, sha)
        (RoaringBitmap.add RoaringBitmap.empty id)
      rw [hget] at hfirst
      rw [JsMap.get_set_self] at hsecond
      have hempty : RoaringBitmap.size (RoaringBitmap.empty : Bitmap) = 0 := RoaringBitmap.size_empty
      have hone : RoaringBitmap.size (RoaringBitmap.add (RoaringBitmap.empty : Bitmap) id) = 1 := by
        rw [RoaringBitmap.size_add, LawfulRoaringBitmap.toArray_empty, if_neg List.not_mem_nil, hempty]
      simp only [hempty, hone, Option.map_none, Option.getD_none, Option.map_some, Option.getD_some] at hfirst hsecond
      rw [hempty, hone, if_pos Nat.zero_lt_one]
      omega
  | some bitmap =>
      have hhas : builder.bitmaps.has (type, sha) = true := by rw [JsMap.has, hget]; rfl
      simp only [hhas, if_true, hget]
      refine ⟨_, rfl, ?_⟩
      have hset := bitmapBytes_set builder.bitmaps (type, sha) (RoaringBitmap.add bitmap id)
      rw [hget, Option.map_some, Option.getD_some, RoaringBitmap.size_add] at hset
      rw [RoaringBitmap.size_add]
      split at hset <;> rename_i hmem <;> simp only [hmem, if_true, if_false] <;> split <;> omega

end StreamingBitmapIndexBuilder

/-! ### The bound on the memory -/

/-- The estimate counts the bitmaps in memory and is below the bound. -/
structure Accounts (builder : StreamingBitmapIndexBuilder Oid Bitmap) : Prop where
  bytes : builder.estimatedBitmapBytes = bitmapBytes builder.bitmaps
  below : builder.estimatedBitmapBytes < builder.maxMemoryBytes

section Storage

variable {storage : IndexStorage Oid} {ports : IndexPorts Bitmap}

omit [LawfulRoaringBitmap Bitmap] in
theorem accounts_flush {builder : StreamingBitmapIndexBuilder Oid Bitmap} (hmax : 0 < builder.maxMemoryBytes)
    (hbytes : builder.estimatedBitmapBytes = bitmapBytes builder.bitmaps) :
    Accounts (builder.flush storage ports) := by
  unfold StreamingBitmapIndexBuilder.flush
  split
  · rename_i hsize
    refine ⟨hbytes, ?_⟩
    have hnone : builder.bitmaps.entries = [] := List.length_eq_zero_iff.mp hsize
    rw [hbytes, bitmapBytes, JsMap.values, hnone]
    exact hmax
  · exact ⟨rfl, hmax⟩

/-- An edge goes into two bitmaps, and then the bitmaps may be flushed. -/
theorem addEdge_cases (storage : IndexStorage Oid) (ports : IndexPorts Bitmap)
    (builder : StreamingBitmapIndexBuilder Oid Bitmap)
    (srcSha tgtSha : JsString) :
    ∃ bytes, bytes + bitmapBytes builder.bitmaps = builder.estimatedBitmapBytes +
        bitmapBytes ((BitmapIndexBuilder.mk builder.table builder.bitmaps).addEdge srcSha tgtSha).bitmaps ∧
      builder.addEdge storage ports srcSha tgtSha =
        let added := { builder with
          table := ((BitmapIndexBuilder.mk builder.table builder.bitmaps).addEdge srcSha tgtSha).table
          bitmaps := ((BitmapIndexBuilder.mk builder.table builder.bitmaps).addEdge srcSha tgtSha).bitmaps
          estimatedBitmapBytes := bytes }
        if bytes ≥ builder.maxMemoryBytes then added.flush storage ports else added := by
  let srcId := (builder.table.getOrCreateId srcSha).2
  let tgtId := ((builder.table.getOrCreateId srcSha).1.getOrCreateId tgtSha).2
  let registered : StreamingBitmapIndexBuilder Oid Bitmap :=
    { builder with table := ((builder.table.getOrCreateId srcSha).1.getOrCreateId tgtSha).1 }
  obtain ⟨middle, hfwd, hmiddle⟩ := StreamingBitmapIndexBuilder.addToBitmap_eq registered srcSha tgtId .fwd
  obtain ⟨bytes, hrev, hbytes⟩ := StreamingBitmapIndexBuilder.addToBitmap_eq
    (registered.addToBitmap srcSha tgtId .fwd) tgtSha srcId .rev
  rw [hfwd] at hrev hbytes
  refine ⟨bytes, ?_, ?_⟩
  · change bytes + bitmapBytes builder.bitmaps = builder.estimatedBitmapBytes + bitmapBytes (BitmapIndexBuilder.addToBitmap
      (BitmapIndexBuilder.addToBitmap builder.bitmaps srcSha tgtId .fwd) tgtSha srcId .rev)
    dsimp only [registered] at hmiddle hbytes
    omega
  · have hadded : builder.addEdge storage ports srcSha tgtSha =
        (if ((registered.addToBitmap srcSha tgtId .fwd).addToBitmap tgtSha srcId .rev).estimatedBitmapBytes ≥
            ((registered.addToBitmap srcSha tgtId .fwd).addToBitmap tgtSha srcId .rev).maxMemoryBytes then
          ((registered.addToBitmap srcSha tgtId .fwd).addToBitmap tgtSha srcId .rev).flush storage ports
        else (registered.addToBitmap srcSha tgtId .fwd).addToBitmap tgtSha srcId .rev) := rfl
    rw [hadded, hfwd, hrev]
    rfl

theorem accounts_step {builder : StreamingBitmapIndexBuilder Oid Bitmap} (h : Accounts builder) (call : IndexCall) :
    Accounts (call.streaming storage ports builder) ∧
      (call.streaming storage ports builder).maxMemoryBytes = builder.maxMemoryBytes := by
  have hmax := Nat.zero_lt_of_lt h.below
  have hflush : ∀ b : StreamingBitmapIndexBuilder Oid Bitmap,
      (b.flush storage ports).maxMemoryBytes = b.maxMemoryBytes := by
    intro b
    unfold StreamingBitmapIndexBuilder.flush
    split <;> rfl
  cases call with
  | registerNode sha => exact ⟨⟨h.bytes, h.below⟩, rfl⟩
  | flush => exact ⟨accounts_flush hmax h.bytes, hflush builder⟩
  | addEdge srcSha tgtSha =>
      obtain ⟨bytes, hbytes, hadded⟩ := addEdge_cases storage ports builder srcSha tgtSha
      have hcount := h.bytes
      rw [IndexCall.streaming, hadded]
      dsimp only
      split
      · exact ⟨accounts_flush hmax (by dsimp only; omega), hflush _⟩
      · exact ⟨⟨by dsimp only; omega, by dsimp only; omega⟩, rfl⟩

/-- After every call of a run the bitmaps in memory are counted and take less than the bound. -/
theorem accounts_run {maxMemoryBytes : Nat} {builder : StreamingBitmapIndexBuilder Oid Bitmap}
    (hnew : StreamingBitmapIndexBuilder.new maxMemoryBytes = .ok builder) (calls : List IndexCall) :
    let last := calls.foldl (IndexCall.streaming storage ports) builder
    last.estimatedBitmapBytes = bitmapBytes last.bitmaps ∧ last.estimatedBitmapBytes < maxMemoryBytes := by
  have hstart : Accounts builder ∧ builder.maxMemoryBytes = maxMemoryBytes := by
    unfold StreamingBitmapIndexBuilder.new at hnew
    split at hnew
    · cases hnew
    · rename_i hmax
      cases hnew
      exact ⟨⟨rfl, Nat.pos_of_ne_zero hmax⟩, rfl⟩
  have hrun : Accounts (calls.foldl (IndexCall.streaming storage ports) builder) ∧
      (calls.foldl (IndexCall.streaming storage ports) builder).maxMemoryBytes = maxMemoryBytes := by
    clear hnew
    induction calls generalizing builder with
    | nil => exact hstart
    | cons call rest ih =>
        obtain ⟨hstep, hsame⟩ := accounts_step hstart.1 call
        exact ih ⟨hstep, hsame.trans hstart.2⟩
  exact ⟨hrun.1.bytes, hrun.2 ▸ hrun.1.below⟩

theorem accounts_run_flush :
    let last := [IndexCall.addEdge [97] [98], .addEdge [97] [99]].foldl
      (IndexCall.streaming (⟨id, .ok⟩ : IndexStorage Envelope)
        (⟨fun _ => [], fun _ => .ok IdSet.empty, id⟩ : IndexPorts IdSet))
      ⟨150, .empty, .empty, 0, .empty, 0, 0⟩
    last.estimatedBitmapBytes = bitmapBytes last.bitmaps ∧ last.estimatedBitmapBytes < 150 :=
  accounts_run (show StreamingBitmapIndexBuilder.new 150 = .ok ⟨150, .empty, .empty, 0, .empty, 0, 0⟩ from rfl)
    [.addEdge [97] [98], .addEdge [97] [99]]

end Storage

/-! ### Beside the builder in memory -/

section Follows

variable {storage : IndexStorage Oid} {ports : IndexPorts Bitmap}

omit [RoaringBitmap Bitmap] [LawfulRoaringBitmap Bitmap] in
/-- Each shard that a flush writes one chunk more of. -/
theorem get_writeShardsToStorage (builder : StreamingBitmapIndexBuilder Oid Bitmap) (path : ShardPath) :
    (StreamingBitmapIndexBuilder.writeShardsToStorage storage ports builder).get path =
      match chunk ports builder.bitmaps path with
      | none => builder.flushedChunks.get path
      | some envelope => some ((builder.flushedChunks.get path).getD [] ++ [storage.writeBlob envelope]) := by
  have hloop := JsMap.get_foldl_mergeEntry
    (fun (old : Option (List Oid)) (envelope : Envelope) => some (old.getD [] ++ [storage.writeBlob envelope]))
    _ (nodup_bitmapEntries ports builder.bitmaps) builder.flushedChunks path
  rw [lookup_bitmapEntries] at hloop
  refine Eq.trans ?_ (hloop.trans ?_)
  · rfl
  · cases chunk ports builder.bitmaps path <;> rfl

/-- The bitmaps flushed so far and those in memory are together the bitmaps of the builder in memory. -/
structure Follows (storage : IndexStorage Oid) (ports : IndexPorts Bitmap)
    (flushed : List (JsMap (EdgeType × JsString) Bitmap)) (builder : StreamingBitmapIndexBuilder Oid Bitmap)
    (whole : BitmapIndexBuilder Bitmap) : Prop where
  table : builder.table = whole.table
  chunks : ∀ path oids, builder.flushedChunks.get path = some oids ↔
    oids ≠ [] ∧ oids = chunkOids storage ports path flushed
  flushedFilled : ∀ bitmaps ∈ flushed, Filled bitmaps
  filled : Filled builder.bitmaps
  wholeFilled : Filled whole.bitmaps
  linked : ∀ type sha id, Linked whole.bitmaps type sha id ↔
    Linked builder.bitmaps type sha id ∨ LinkedIn flushed type sha id

omit [LawfulRoaringBitmap Bitmap] in
theorem follows_new {maxMemoryBytes : Nat} {builder : StreamingBitmapIndexBuilder Oid Bitmap}
    (hnew : StreamingBitmapIndexBuilder.new maxMemoryBytes = .ok builder) :
    Follows storage ports [] builder .new := by
  unfold StreamingBitmapIndexBuilder.new at hnew
  split at hnew
  · cases hnew
  · cases hnew
    refine ⟨rfl, fun path oids => iff_of_false (fun h => by cases h) fun h => h.1 h.2, ?_, ?_, ?_, fun type sha id => ?_⟩
    · intro bitmaps h
      cases h
    · intro key bitmap h
      cases h
    · intro key bitmap h
      cases h
    · refine (or_iff_left ?_).symm
      rintro ⟨bitmaps, h, -⟩
      cases h

omit [LawfulRoaringBitmap Bitmap] in
theorem follows_flush {flushed : List (JsMap (EdgeType × JsString) Bitmap)}
    {builder : StreamingBitmapIndexBuilder Oid Bitmap} {whole : BitmapIndexBuilder Bitmap}
    (h : Follows storage ports flushed builder whole) :
    ∃ flushed', Follows storage ports flushed' (builder.flush storage ports) whole := by
  unfold StreamingBitmapIndexBuilder.flush
  split
  · exact ⟨flushed, h⟩
  · refine ⟨flushed ++ [builder.bitmaps], h.table, ?_, ?_, ?_, h.wholeFilled, ?_⟩
    · intro path oids
      dsimp only
      rw [get_writeShardsToStorage, chunkOids, List.filterMap_append, List.filterMap_cons, List.filterMap_nil]
      cases hchunk : chunk ports builder.bitmaps path with
      | none =>
          dsimp only [Option.map_none]
          rw [List.append_nil]
          exact h.chunks path oids
      | some envelope =>
          dsimp only [Option.map_some]
          have hold : (builder.flushedChunks.get path).getD [] = chunkOids storage ports path flushed := by
            cases hget : builder.flushedChunks.get path with
            | some old => exact ((h.chunks path old).mp hget).2
            | none =>
                by_contra hne
                have hsome := (h.chunks path _).mpr ⟨Ne.symm hne, rfl⟩
                rw [hget] at hsome
                cases hsome
          rw [hold, Option.some.injEq]
          constructor
          · rintro rfl
            exact ⟨List.append_ne_nil_of_right_ne_nil _ (List.cons_ne_nil _ _), rfl⟩
          · exact fun hoids => hoids.2.symm
    · intro bitmaps hbitmaps
      rcases List.mem_append.mp hbitmaps with hold | hlast
      · exact h.flushedFilled bitmaps hold
      · exact List.mem_singleton.mp hlast ▸ h.filled
    · intro key bitmap hget
      cases hget
    · intro type sha id
      have hnone : ¬ Linked (JsMap.empty : JsMap (EdgeType × JsString) Bitmap) type sha id := by
        rintro ⟨bitmap, hget, -⟩
        cases hget
      rw [h.linked, or_iff_right hnone, LinkedIn, LinkedIn, or_comm]
      simp only [List.mem_append, List.mem_singleton, or_and_right, exists_or, exists_eq_left]

/-- One call of both builders. -/
theorem follows_step {flushed : List (JsMap (EdgeType × JsString) Bitmap)}
    {builder : StreamingBitmapIndexBuilder Oid Bitmap} {whole : BitmapIndexBuilder Bitmap}
    (h : Follows storage ports flushed builder whole) (call : IndexCall) :
    ∃ flushed', Follows storage ports flushed' (call.streaming storage ports builder) (call.inMemory whole) := by
  cases call with
  | flush => exact follows_flush h
  | registerNode sha =>
      refine ⟨flushed, ?_, h.chunks, h.flushedFilled, h.filled, h.wholeFilled, h.linked⟩
      change (builder.table.getOrCreateId sha).1 = (whole.table.getOrCreateId sha).1
      rw [h.table]
  | addEdge srcSha tgtSha =>
      obtain ⟨bytes, -, hadded⟩ := addEdge_cases storage ports builder srcSha tgtSha
      have htable : BitmapIndexBuilder.mk builder.table builder.bitmaps = ⟨whole.table, builder.bitmaps⟩ := by rw [h.table]
      have hfollows : Follows storage ports flushed { builder with
          table := (whole.addEdge srcSha tgtSha).table
          bitmaps := ((BitmapIndexBuilder.mk whole.table builder.bitmaps).addEdge srcSha tgtSha).bitmaps
          estimatedBitmapBytes := bytes } (whole.addEdge srcSha tgtSha) := by
        refine ⟨rfl, h.chunks, h.flushedFilled, ?_, ?_, fun type sha id => ?_⟩
        · exact filled_addToBitmap (filled_addToBitmap h.filled _ _ _) _ _ _
        · exact filled_addToBitmap (filled_addToBitmap h.wholeFilled _ _ _) _ _ _
        · unfold BitmapIndexBuilder.addEdge
          simp only [linked_addToBitmap, h.linked]
          tauto
      rw [IndexCall.streaming, IndexCall.inMemory, hadded, htable]
      dsimp only
      split
      · exact follows_flush hfollows
      · exact ⟨flushed, hfollows⟩

theorem follows_run {flushed : List (JsMap (EdgeType × JsString) Bitmap)}
    {builder : StreamingBitmapIndexBuilder Oid Bitmap} {whole : BitmapIndexBuilder Bitmap}
    (h : Follows storage ports flushed builder whole) (calls : List IndexCall) :
    ∃ flushed', Follows storage ports flushed' (calls.foldl (IndexCall.streaming storage ports) builder)
      (calls.foldl IndexCall.inMemory whole) := by
  induction calls generalizing flushed builder whole with
  | nil => exact ⟨flushed, h⟩
  | cons call rest ih =>
      obtain ⟨flushed', hstep⟩ := follows_step h call
      exact ih hstep

end Follows

end GitWarp
