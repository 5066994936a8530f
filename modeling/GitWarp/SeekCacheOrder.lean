import GitWarp.LibraryLruCache
import GitWarp.SeekCacheRuns

/-! Calls of the cache one after another. With a clock that moves on they return what an LRU cache of the same size
returns, though the one orders its entries by their times and the other by a `Map`. -/

namespace GitWarp
open Js

/-- A call whose steps all come through, at a time, before the next call. -/
structure TimedCall (Buffer : Type) where
  call : SeekCall Buffer
  now : JsString

def TimedCall.acts {Buffer : Type} (timed : TimedCall Buffer) : List SeekAct :=
  [.readIndex .reads timed.now, .restore true, .store (some 0), .readIndex .reads timed.now, .writeIndex false,
    .deleteRef false]

/-- The steps of calls one after another, the first of which is the `n`-th of the world. -/
def sequentially {Buffer : Type} : Nat → List (TimedCall Buffer) → List (SeekEvent Buffer)
  | _, [] => []
  | n, timed :: rest => .call timed.call :: (timed.acts.map (.act n) ++ sequentially (n + 1) rest)

/-- The same calls of an LRU cache that keeps a buffer and the index tree with it. -/
def lruCall {Buffer : Type} (cache : LruCache JsString (Buffer × Option JsString)) :
    SeekCall Buffer → SeekResult Buffer × LruCache JsString (Buffer × Option JsString)
  | .get key =>
      match cache.get key with
      | (none, cache) => (.null, cache)
      | (some stored, cache) => (.found stored.1 stored.2, cache)
  | .set key buffer indexTreeOid => (.done, cache.set key (buffer, indexTreeOid.filter (· ≠ [])))
  | .delete key => (.existed (cache.delete key).1, (cache.delete key).2)
  | .clear => (.done, cache.clear)

def lruCalls {Buffer : Type} (cache : LruCache JsString (Buffer × Option JsString)) :
    List (TimedCall Buffer) → List (SeekResult Buffer)
  | [] => []
  | timed :: rest => (lruCall cache timed.call).1 :: lruCalls (lruCall cache timed.call).2 rest

namespace SeekWorld

variable {Buffer : Type} {adapter : CasSeekCacheAdapter Buffer}

/-! ### The steps of one call -/

/-- The last call of a world takes its steps. -/
theorem run_last (acts : List SeekAct) (ref : Option SeekCacheIndex)
    (calls : List (SeekCall Buffer × SeekPhase Buffer)) (call : SeekCall Buffer) (phase : SeekPhase Buffer) :
    run adapter (acts.map (.act calls.length)) ⟨ref, calls ++ [(call, phase)]⟩ =
      ⟨(acts.foldl (fun current act => adapter.advance current.1 call current.2 act) (ref, phase)).1,
        calls ++ [(call, (acts.foldl (fun current act => adapter.advance current.1 call current.2 act) (ref, phase)).2)]⟩ := by
  induction acts generalizing ref phase with
  | nil => rfl
  | cons act rest ih =>
      have hlast : (calls ++ [(call, phase)])[calls.length]? = some (call, phase) := by
        rw [List.getElem?_append_right (le_refl _), Nat.sub_self]
        rfl
      have hstep : step adapter ⟨ref, calls ++ [(call, phase)]⟩ (.act calls.length act) =
          ⟨(adapter.advance ref call phase act).1, calls ++ [(call, (adapter.advance ref call phase act).2)]⟩ := by
        simp only [step, hlast]
        rw [List.set_append_right _ _ (le_refl _), Nat.sub_self]
        rfl
      rw [List.map_cons, run, List.foldl_cons, hstep]
      exact ih _ _

/-- What is read of a ref. -/
def indexOf (ref : Option SeekCacheIndex) : SeekCacheIndex := CasSeekCacheAdapter.readIndex ref .reads

/-- What the steps of one call lead to. -/
def callOnce (adapter : CasSeekCacheAdapter Buffer) (ref : Option SeekCacheIndex) (timed : TimedCall Buffer) :
    Option SeekCacheIndex × SeekPhase Buffer :=
  timed.acts.foldl (fun current act => adapter.advance current.1 timed.call current.2 act)
    (ref, CasSeekCacheAdapter.begin timed.call)

variable {ref : Option SeekCacheIndex} {now : JsString}

theorem callOnce_get_missing {key : JsString} (hkey : key ∉ PlainObject.inheritedNames)
    (hget : (indexOf ref).entries.props.get key = none) :
    callOnce adapter ref ⟨.get key, now⟩ = (ref, .returned .null) := by
  have hread : (CasSeekCacheAdapter.readIndex ref .reads).entries.read key = .undefined := by
    unfold indexOf at hget
    unfold PlainObject.read
    rw [hget]
    simp [hkey]
  have hfirst : adapter.advance ref (.get key) .started (.readIndex .reads now) = (ref, .returned .null) := by
    simp [CasSeekCacheAdapter.advance, hread]
  simp only [callOnce, TimedCall.acts, CasSeekCacheAdapter.begin, List.foldl_cons, hfirst]
  rfl

theorem callOnce_get_found {key : JsString} {entry : SeekIndexEntry} {buffer : Buffer}
    (hget : (indexOf ref).entries.props.get key = some entry) (hbuffer : adapter.restore entry.treeOid = some buffer) :
    callOnce adapter ref ⟨.get key, now⟩ =
      (some ((IndexChange.touch key).apply adapter.maxEntries now (indexOf ref)),
        .returned (.found buffer entry.indexTreeOid)) := by
  have hread : (CasSeekCacheAdapter.readIndex ref .reads).entries.read key = .own entry :=
    (PlainObject.read_eq_own_iff _ _ _).mpr hget
  have hfirst : adapter.advance ref (.get key) .started (.readIndex .reads now) = (ref, .restoring (some entry)) := by
    simp [CasSeekCacheAdapter.advance, hread]
  have hsecond : adapter.advance ref (.get key) (.restoring (some entry)) (.restore true) =
      (ref, .changing (.touch key) 0 none (.found buffer entry.indexTreeOid)) := by
    simp [CasSeekCacheAdapter.advance, Option.filter, hbuffer]
  simp only [callOnce, TimedCall.acts, CasSeekCacheAdapter.begin, List.foldl_cons, hfirst, hsecond]
  rfl

theorem callOnce_set {key : JsString} {buffer : Buffer} {indexTreeOid : Option JsString} :
    callOnce adapter ref ⟨.set key buffer indexTreeOid, now⟩ =
      (some ((IndexChange.put key (adapter.createTree key buffer 0) (adapter.byteLength buffer) indexTreeOid).apply
        adapter.maxEntries now (indexOf ref)), .returned .done) := rfl

theorem callOnce_delete {key : JsString} (hkey : key ∉ PlainObject.inheritedNames) :
    callOnce adapter ref ⟨.delete key, now⟩ =
      (some ((IndexChange.remove key).apply adapter.maxEntries now (indexOf ref)),
        .returned (.existed ((indexOf ref).entries.props.has key))) := by
  have hread : decide ((indexOf ref).entries.read key ≠ .undefined) = (indexOf ref).entries.props.has key := by
    unfold PlainObject.read JsMap.has
    cases (indexOf ref).entries.props.get key with
    | none => simp [hkey]
    | some entry => simp
  rw [← hread]
  rfl

theorem callOnce_clear : callOnce adapter ref ⟨.clear, now⟩ = (none, .returned .done) := rfl

/-! ### The two caches -/

/-- The index has what the LRU cache has, and its times are in the order of the LRU cache and none is after `last`. -/
structure Mirrors (adapter : CasSeekCacheAdapter Buffer) (last : JsString) (index : SeekCacheIndex)
    (cache : LruCache JsString (Buffer × Option JsString)) : Prop where
  version : index.schemaVersion = SeekCacheIndex.indexSchemaVersion
  values : ∀ key, (index.entries.props.get key).map (fun entry => (adapter.restore entry.treeOid, entry.indexTreeOid)) =
    (cache.cache.get key).map fun stored => (some stored.1, stored.2)
  order : cache.cache.keys.Pairwise fun a b => index.timeOf a < index.timeOf b
  recent : ∀ key ∈ cache.cache.keys, index.timeOf key ≤ last

section Mirror

variable {last : JsString} {index : SeekCacheIndex} {cache : LruCache JsString (Buffer × Option JsString)}

theorem mirrors_empty (maxSize : Nat) : Mirrors adapter [] .empty (LruCache.new maxSize) where
  version := rfl
  values _ := rfl
  order := List.Pairwise.nil
  recent _ h := absurd h List.not_mem_nil

variable (h : Mirrors adapter last index cache)

include h

theorem Mirrors.mem_keys_iff (key : JsString) : key ∈ index.entries.props.keys ↔ key ∈ cache.cache.keys := by
  have hvalues := congrArg Option.isSome (h.values key)
  rw [Option.isSome_map, Option.isSome_map] at hvalues
  rw [JsMap.mem_keys_iff, JsMap.mem_keys_iff, hvalues]

theorem Mirrors.size_eq : index.entries.props.size = cache.cache.size := by
  have hperm := (List.perm_ext_iff_of_nodup index.entries.props.nodup cache.cache.nodup).mpr h.mem_keys_iff
  have hlength := hperm.length_eq
  rwa [List.length_map, List.length_map] at hlength

/-- The order by times is that of the LRU cache. -/
theorem Mirrors.keysByTime_eq : index.keysByTime = cache.cache.keys := by
  have hperm := (List.perm_ext_iff_of_nodup index.entries.props.nodup cache.cache.nodup).mpr h.mem_keys_iff
  refine (index.perm_keysByTime.trans hperm).eq_of_pairwise (fun a b ha hb hab hba => ?_) index.pairwise_keysByTime
    (h.order.imp le_of_lt)
  have hdiffer : (cache.cache.keys.map index.timeOf).Nodup := List.pairwise_map.mpr (h.order.imp ne_of_lt)
  exact List.inj_on_of_nodup_map hdiffer ((index.perm_keysByTime.trans hperm).mem_iff.mp ha) hb (le_antisymm hab hba)

/-- A key whose entry is new or has been read now comes last. -/
theorem Mirrors.moveLast {now : JsString} (hnow : last < now) {index' : SeekCacheIndex}
    {cache' : LruCache JsString (Buffer × Option JsString)} {key : JsString} {entry : SeekIndexEntry}
    {stored : Buffer × Option JsString} (hversion : index'.schemaVersion = index.schemaVersion)
    (htime : entry.time = now) (hrestore : adapter.restore entry.treeOid = some stored.1)
    (htree : entry.indexTreeOid = stored.2)
    (hindex : ∀ other, index'.entries.props.get other = if other = key then some entry else index.entries.props.get other)
    (hcache : cache'.cache.entries = (cache.cache.entries.filter fun other => other.1 ≠ key) ++ [(key, stored)]) :
    Mirrors adapter now index' cache' := by
  have hget : ∀ other, cache'.cache.get other = if other = key then some stored else cache.cache.get other := by
    intro other
    refine Option.ext fun value => ?_
    rw [JsMap.get_eq_some_iff, hcache, List.mem_append, List.mem_filter, List.mem_singleton, Prod.mk.injEq,
      decide_eq_true_eq, ← JsMap.get_eq_some_iff]
    split
    · rename_i hother
      simp [hother, eq_comm]
    · rename_i hother
      simp [hother]
  have htimes : ∀ other, index'.timeOf other = if other = key then now else index.timeOf other := by
    intro other
    unfold SeekCacheIndex.timeOf
    rw [hindex]
    split
    · exact htime
    · rfl
  have hkeys : cache'.cache.keys = (cache.cache.keys.filter fun other => other ≠ key) ++ [key] := by
    unfold JsMap.keys
    rw [hcache, List.map_append, List.filter_map]
    rfl
  have hold : ∀ other ∈ cache.cache.keys.filter fun other => other ≠ key,
      index'.timeOf other = index.timeOf other ∧ index.timeOf other < now := by
    intro other hother
    obtain ⟨hmem, hne⟩ := List.mem_filter.mp hother
    rw [htimes, if_neg (of_decide_eq_true hne)]
    exact ⟨rfl, (h.recent other hmem).trans_lt hnow⟩
  have hlast : index'.timeOf key = now := by rw [htimes, if_pos rfl]
  refine ⟨hversion.trans h.version, fun other => ?_, ?_, fun other hother => ?_⟩
  · rw [hindex, hget]
    split
    · rw [Option.map_some, Option.map_some, hrestore, htree]
    · exact h.values other
  · rw [hkeys]
    refine List.pairwise_append.mpr ⟨(h.order.filter _).imp_of_mem fun {a b} ha hb hlt => ?_, List.pairwise_singleton _ _,
      fun a ha b hb => ?_⟩
    · rw [(hold a ha).1, (hold b hb).1]
      exact hlt
    · rw [List.mem_singleton.mp hb, hlast, (hold a ha).1]
      exact (hold a ha).2
  · rw [hkeys] at hother
    rcases List.mem_append.mp hother with hother | hother
    · rw [(hold other hother).1]
      exact (hold other hother).2.le
    · rw [List.mem_singleton.mp hother, hlast]

/-- The same keys are gone from both. -/
theorem Mirrors.without {index' : SeekCacheIndex} {cache' : LruCache JsString (Buffer × Option JsString)}
    (gone : List JsString) (hversion : index'.schemaVersion = index.schemaVersion)
    (hindex : ∀ key entry, index'.entries.props.get key = some entry ↔
      index.entries.props.get key = some entry ∧ key ∉ gone)
    (hcache : cache'.cache.entries = cache.cache.entries.filter fun entry => entry.1 ∉ gone) :
    Mirrors adapter last index' cache' := by
  have hindexGet : ∀ key, index'.entries.props.get key = if key ∈ gone then none else index.entries.props.get key := by
    intro key
    refine Option.ext fun entry => ?_
    rw [hindex]
    split <;> simp [*]
  have hcacheGet : ∀ key, cache'.cache.get key = if key ∈ gone then none else cache.cache.get key := by
    intro key
    refine Option.ext fun stored => ?_
    rw [JsMap.get_eq_some_iff, hcache, List.mem_filter, ← JsMap.get_eq_some_iff, decide_eq_true_eq]
    split <;> simp [*]
  have hkeys : cache'.cache.keys = cache.cache.keys.filter fun key => key ∉ gone := by
    unfold JsMap.keys
    rw [hcache, List.filter_map]
    rfl
  have hkept : ∀ key ∈ cache.cache.keys.filter fun key => key ∉ gone, index'.timeOf key = index.timeOf key := by
    intro key hkey
    have hnot : key ∉ gone := of_decide_eq_true (List.mem_filter.mp hkey).2
    unfold SeekCacheIndex.timeOf
    rw [hindexGet, if_neg hnot]
  refine ⟨hversion.trans h.version, fun key => ?_, ?_, fun key hkey => ?_⟩
  · rw [hindexGet, hcacheGet]
    split
    · rfl
    · exact h.values key
  · rw [hkeys]
    refine (h.order.filter _).imp_of_mem fun {a b} ha hb hlt => ?_
    rw [hkept a ha, hkept b hb]
    exact hlt
  · rw [hkeys] at hkey
    rw [hkept key hkey]
    exact h.recent key (List.mem_filter.mp hkey).1

/-- The entry that goes is the first one of the LRU cache. -/
theorem Mirrors.evict (hsize : cache.cache.size ≤ adapter.maxEntries + 1) (hmax : cache.maxSize = adapter.maxEntries) :
    Mirrors adapter last (index.enforceMaxEntries adapter.maxEntries)
      { cache with cache := if cache.cache.size > cache.maxSize then LruCache.deleteOldest cache.cache else cache.cache } := by
  have hget : ∀ key entry, (index.enforceMaxEntries adapter.maxEntries).entries.props.get key = some entry ↔
      index.entries.props.get key = some entry ∧
        key ∉ cache.cache.keys.take (cache.cache.size - adapter.maxEntries) := by
    intro key entry
    rw [SeekCacheIndex.get_enforceMaxEntries, h.size_eq, h.keysByTime_eq]
  refine h.without _ (SeekCacheIndex.enforceMaxEntries_schemaVersion _ _) hget ?_
  dsimp only
  rw [hmax]
  split
  · rename_i hfull
    have hone : cache.cache.size - adapter.maxEntries = 1 := by omega
    rw [hone]
    unfold LruCache.deleteOldest
    cases hkeys : cache.cache.keys with
    | nil => simp
    | cons first rest =>
        change cache.cache.entries.filter (fun entry => entry.1 ≠ first) = _
        simp
  · rename_i hroom
    have hnone : cache.cache.size - adapter.maxEntries = 0 := by omega
    rw [hnone, List.take_zero]
    simp

theorem Mirrors.later {now : JsString} (hnow : last ≤ now) : Mirrors adapter now index cache :=
  ⟨h.version, h.values, h.order, fun key hkey => (h.recent key hkey).trans hnow⟩

theorem Mirrors.indexOf_some : indexOf (some index) = index := by
  unfold indexOf CasSeekCacheAdapter.readIndex
  simp [h.version]

end Mirror

/-! ### One call after another -/

/-- The key of a call is not one that every object inherits. -/
def PlainKey : SeekCall Buffer → Prop
  | .get key | .set key _ _ | .delete key => key ∉ PlainObject.inheritedNames
  | .clear => True

/-- The caches mirror one another and have the same bound. -/
structure InStep (adapter : CasSeekCacheAdapter Buffer) (last : JsString) (ref : Option SeekCacheIndex)
    (cache : LruCache JsString (Buffer × Option JsString)) : Prop where
  mirrors : Mirrors adapter last (indexOf ref) cache
  maxSize : cache.maxSize = adapter.maxEntries
  size : cache.cache.size ≤ adapter.maxEntries

section OneCall

variable {last : JsString} {cache : LruCache JsString (Buffer × Option JsString)} (h : InStep adapter last ref cache)
  (hnow : last < now)

include h hnow

theorem InStep.get {key : JsString} (hkey : key ∉ PlainObject.inheritedNames) :
    ∃ ref', callOnce adapter ref ⟨.get key, now⟩ = (ref', .returned (lruCall cache (.get key)).1) ∧
      InStep adapter now ref' (lruCall cache (.get key)).2 := by
  have hvalues := h.mirrors.values key
  cases hstored : cache.cache.get key with
  | none =>
      rw [hstored, Option.map_none, Option.map_eq_none_iff] at hvalues
      have hlru : lruCall cache (.get key : SeekCall Buffer) = (.null, cache) := by
        simp only [lruCall, LruCache.get, hstored]
      rw [hlru]
      exact ⟨ref, callOnce_get_missing hkey hvalues, h.mirrors.later hnow.le, h.maxSize, h.size⟩
  | some stored =>
      rw [hstored, Option.map_some, Option.map_eq_some_iff] at hvalues
      obtain ⟨entry, hentry, hpair⟩ := hvalues
      obtain ⟨hrestore, htree⟩ := Prod.mk.inj hpair
      have hlru : lruCall cache (.get key : SeekCall Buffer) = (.found stored.1 stored.2, (cache.get key).2) := by
        simp only [lruCall, LruCache.get, hstored]
      have hproto : key ≠ protoKey := by
        rintro rfl
        rw [(indexOf ref).entries.noProto] at hentry
        cases hentry
      have hne : now ≠ [] := fun hnil => List.not_lt_nil last (hnil ▸ hnow)
      have hentries := LruCache.entries_get hstored
      have hmoved : Mirrors adapter now ((IndexChange.touch key).apply adapter.maxEntries now (indexOf ref))
          (cache.get key).2 := by
        rw [CasSeekCacheAdapter.touch_of_some hentry]
        refine @Mirrors.moveLast _ _ _ _ _ h.mirrors now hnow _ _ _ { entry with lastAccessedAt := some now } _ rfl ?_
          hrestore htree (fun other => ?_) (LruCache.entries_get hstored)
        · simp only [SeekIndexEntry.time, if_neg hne]
        · simp only [PlainObject.get_assign, hproto, ne_eq, not_false_eq_true, and_true]
      refine ⟨some ((IndexChange.touch key).apply adapter.maxEntries now (indexOf ref)), ?_, ?_⟩
      · rw [hlru, ← htree]
        exact callOnce_get_found hentry hrestore
      · rw [hlru]
        refine ⟨hmoved.indexOf_some.symm ▸ hmoved, ?_, ?_⟩
        · simp only [LruCache.get, hstored]
          exact h.maxSize
        · rw [← hmoved.size_eq, CasSeekCacheAdapter.size_touch, h.mirrors.size_eq]
          exact h.size

theorem InStep.set (hrestores : adapter.Restores) {key : JsString} (hkey : key ∉ PlainObject.inheritedNames)
    (buffer : Buffer) (indexTreeOid : Option JsString) :
    ∃ ref', callOnce adapter ref ⟨.set key buffer indexTreeOid, now⟩ =
        (ref', .returned (lruCall cache (.set key buffer indexTreeOid)).1) ∧
      InStep adapter now ref' (lruCall cache (.set key buffer indexTreeOid)).2 := by
  have hproto : key ≠ protoKey := by
    rintro rfl
    exact hkey (by decide)
  let stored : Buffer × Option JsString := (buffer, indexTreeOid.filter (· ≠ []))
  let grown : LruCache JsString (Buffer × Option JsString) :=
    { cache with cache := (if cache.cache.has key then cache.cache.delete key else cache.cache).set key stored }
  have hgrown : grown.cache.entries = (cache.cache.entries.filter fun entry => entry.1 ≠ key) ++ [(key, stored)] :=
    LruCache.entries_deleteSet cache.cache key stored
  have hsize : grown.cache.size ≤ adapter.maxEntries + 1 := by
    have hfilter := List.length_filter_le (fun entry => entry.1 ≠ key) cache.cache.entries
    have hold : cache.cache.entries.length ≤ adapter.maxEntries := h.size
    unfold JsMap.size
    rw [hgrown, List.length_append, List.length_singleton]
    omega
  let entry : SeekIndexEntry :=
    { treeOid := adapter.createTree key buffer 0, createdAt := now, ceiling := (parseSeekKey key).1
      frontierHash := (parseSeekKey key).2, sizeBytes := adapter.byteLength buffer, codec := js "cbor-v1"
      schemaVersion := SeekCacheIndex.indexSchemaVersion, lastAccessedAt := none
      indexTreeOid := indexTreeOid.filter (· ≠ []) }
  have hmoved : Mirrors adapter now { indexOf ref with entries := (indexOf ref).entries.assign key entry } grown := by
    refine @Mirrors.moveLast _ _ _ _ _ h.mirrors now hnow _ _ _ entry stored rfl rfl (hrestores key buffer 0) rfl
      (fun other => ?_) hgrown
    simp only [PlainObject.get_assign, hproto, ne_eq, not_false_eq_true, and_true]
  have hevicted := hmoved.evict hsize h.maxSize
  refine ⟨_, callOnce_set, hevicted.indexOf_some.symm ▸ hevicted, h.maxSize, ?_⟩
  have hbound := SeekCacheIndex.size_enforceMaxEntries
    { indexOf ref with entries := (indexOf ref).entries.assign key entry } adapter.maxEntries
  rw [hevicted.size_eq] at hbound
  exact hbound

theorem InStep.delete {key : JsString} (hkey : key ∉ PlainObject.inheritedNames) :
    ∃ ref', callOnce adapter ref ⟨.delete key, now⟩ = (ref', .returned (lruCall cache (.delete key)).1) ∧
      InStep adapter now ref' (lruCall cache (.delete key : SeekCall Buffer)).2 := by
  have hhas : (indexOf ref).entries.props.has key = cache.cache.has key := by
    rw [Bool.eq_iff_iff, JsMap.has_iff_mem_keys, JsMap.has_iff_mem_keys]
    exact h.mirrors.mem_keys_iff key
  have hrest : Mirrors adapter last { indexOf ref with entries := (indexOf ref).entries.delete key }
      (cache.delete key).2 := by
    refine h.mirrors.without [key] rfl (fun other entry => ?_) ?_
    · change ((indexOf ref).entries.props.delete key).get other = some entry ↔ _
      rw [JsMap.get_delete, List.mem_singleton]
      split <;> simp [*]
    · refine List.filter_congr fun entry _ => decide_eq_decide.mpr ?_
      rw [List.mem_singleton]
  refine ⟨_, (callOnce_delete hkey).trans ?_, hrest.indexOf_some.symm ▸ hrest.later hnow.le, h.maxSize,
    (List.length_filter_le _ _).trans h.size⟩
  rw [hhas]
  rfl

theorem InStep.call (hrestores : adapter.Restores) {call : SeekCall Buffer} (hplain : PlainKey call) :
    ∃ ref', callOnce adapter ref ⟨call, now⟩ = (ref', .returned (lruCall cache call).1) ∧
      InStep adapter now ref' (lruCall cache call).2 := by
  cases call with
  | get key => exact h.get hnow hplain
  | set key buffer indexTreeOid => exact h.set hnow hrestores hplain buffer indexTreeOid
  | delete key => exact h.delete hnow hplain
  | clear =>
      refine ⟨none, callOnce_clear, ⟨rfl, fun _ => rfl, List.Pairwise.nil, fun key hkey => ?_⟩, h.maxSize, Nat.zero_le _⟩
      exact absurd hkey List.not_mem_nil

end OneCall

/-- The clock moves on between calls. -/
def ClockMovesOn : JsString → List (TimedCall Buffer) → Prop
  | _, [] => True
  | last, timed :: rest => last < timed.now ∧ ClockMovesOn timed.now rest

theorem run_sequentially (hrestores : adapter.Restores) {timedCalls : List (TimedCall Buffer)}
    (hplain : ∀ timed ∈ timedCalls, PlainKey timed.call) {last : JsString} (hclock : ClockMovesOn last timedCalls)
    {ref : Option SeekCacheIndex} {cache : LruCache JsString (Buffer × Option JsString)}
    (h : InStep adapter last ref cache) (calls : List (SeekCall Buffer × SeekPhase Buffer)) :
    (run adapter (sequentially calls.length timedCalls) ⟨ref, calls⟩).calls =
      calls ++ (timedCalls.map TimedCall.call).zip ((lruCalls cache timedCalls).map SeekPhase.returned) := by
  induction timedCalls generalizing last ref cache calls with
  | nil => exact (List.append_nil calls).symm
  | cons timed rest ih =>
      obtain ⟨hnow, hlater⟩ := hclock
      obtain ⟨ref', honce, hstep⟩ := h.call hnow hrestores (hplain timed List.mem_cons_self)
      have hrun := @run_last Buffer adapter timed.acts ref calls timed.call (CasSeekCacheAdapter.begin timed.call)
      change run adapter _ _ = ⟨(callOnce adapter ref timed).1, calls ++ [(timed.call, (callOnce adapter ref timed).2)]⟩ at hrun
      rw [honce] at hrun
      have hrest := ih (fun other hother => hplain other (List.mem_cons_of_mem _ hother)) hlater hstep
        (calls ++ [(timed.call, .returned (lruCall cache timed.call).1)])
      rw [List.length_append, List.length_singleton] at hrest
      have hfirst : run adapter (sequentially calls.length (timed :: rest)) ⟨ref, calls⟩ =
          run adapter (sequentially (calls.length + 1) rest)
            (run adapter (timed.acts.map (.act calls.length))
              ⟨ref, calls ++ [(timed.call, CasSeekCacheAdapter.begin timed.call)]⟩) := by
        rw [sequentially, run, List.foldl_cons, List.foldl_append]
        rfl
      rw [hfirst, hrun, hrest, List.append_assoc]
      rfl

/-- Called one after another while the clock moves on, the cache over the content store returns what an LRU cache of its
size returns. -/
theorem returns_as_lru_cache (hrestores : adapter.Restores) (timedCalls : List (TimedCall Buffer))
    (hplain : ∀ timed ∈ timedCalls, PlainKey timed.call) (hclock : ClockMovesOn [] timedCalls) :
    (run adapter (sequentially 0 timedCalls) empty).calls =
      (timedCalls.map TimedCall.call).zip ((lruCalls (LruCache.new adapter.maxEntries) timedCalls).map SeekPhase.returned) :=
  run_sequentially hrestores hplain hclock ⟨mirrors_empty adapter.maxEntries, rfl, Nat.zero_le _⟩ []

/-- Two entries may stay; `a` is read before a third one comes. -/
def twoEntries : CasSeekCacheAdapter JsString := ⟨2, fun _ buffer _ => buffer, some, List.length⟩

def rereadCalls : List (TimedCall JsString) :=
  [⟨.set (js "a") (js "A") none, js "1"⟩, ⟨.set (js "b") (js "B") none, js "2"⟩, ⟨.get (js "a"), js "3"⟩,
    ⟨.set (js "c") (js "C") (some (js "tree")), js "4"⟩, ⟨.get (js "b"), js "5"⟩, ⟨.get (js "a"), js "6"⟩]

theorem returns_as_lru_cache_reread :
    (run twoEntries (sequentially 0 rereadCalls) empty).calls = (rereadCalls.map TimedCall.call).zip
      ([.done, .done, .found (js "A") none, .done, .null, .found (js "A") none].map SeekPhase.returned) := by
  have hrestores : twoEntries.Restores := fun _ _ _ => rfl
  refine (returns_as_lru_cache hrestores rereadCalls (fun timed htimed => ?_) ?_).trans rfl
  · simp only [rereadCalls, List.mem_cons, List.not_mem_nil, or_false] at htimed
    have hshort : ∀ key : JsString, key.length < 7 → key ∉ PlainObject.inheritedNames := by
      intro key hlength hmem
      exact absurd (PlainObject.length_of_mem_inheritedNames hmem) hlength.not_ge
    rcases htimed with rfl | rfl | rfl | rfl | rfl | rfl <;> exact hshort _ (by decide)
  · exact ⟨by decide, by decide, by decide, by decide, by decide, by decide, trivial⟩

end SeekWorld

end GitWarp
