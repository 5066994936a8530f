import GitWarp.BytesBase64
import GitWarp.LibraryJson
import GitWarp.LibraryJsObject
import GitWarp.LibrarySortedFields

/-! Bitmap indexes of the edges between names. Every name has a number; the numbers of a name's parents and
children are kept as bitmaps, and numbers and bitmaps are written in shards by the first two characters of the
name. A builder fills the shards in memory and a reader looks them up. -/

namespace GitWarp
open Js ExceptLoops

/-- The bitmaps of the roaring package. -/
class RoaringBitmap (Bitmap : Type) where
  empty : Bitmap
  add : Bitmap → Nat → Bitmap
  orInPlace : Bitmap → Bitmap → Bitmap
  size : Bitmap → Nat
  toArray : Bitmap → List Nat

open RoaringBitmap (toArray)

/-- A bitmap is a set of ids, which it lists in ascending order. -/
class LawfulRoaringBitmap (Bitmap : Type) [RoaringBitmap Bitmap] : Prop where
  pairwise_toArray : ∀ bitmap : Bitmap, (toArray bitmap).Pairwise (· < ·)
  toArray_empty : toArray (RoaringBitmap.empty : Bitmap) = []
  mem_add : ∀ (bitmap : Bitmap) (id other : Nat),
    other ∈ toArray (RoaringBitmap.add bitmap id) ↔ other = id ∨ other ∈ toArray bitmap
  mem_orInPlace : ∀ (bitmap other : Bitmap) (id : Nat),
    id ∈ toArray (RoaringBitmap.orInPlace bitmap other) ↔ id ∈ toArray bitmap ∨ id ∈ toArray other
  size_eq : ∀ bitmap : Bitmap, RoaringBitmap.size bitmap = (toArray bitmap).length

namespace RoaringBitmap

variable {Bitmap : Type} [RoaringBitmap Bitmap] [LawfulRoaringBitmap Bitmap]

/-- A set has one list of its ids. -/
theorem toArray_eq_of_mem_iff {bitmap other : Bitmap} (h : ∀ id, id ∈ toArray bitmap ↔ id ∈ toArray other) :
    toArray bitmap = toArray other := by
  have hsorted := LawfulRoaringBitmap.pairwise_toArray bitmap
  have hsorted' := LawfulRoaringBitmap.pairwise_toArray other
  have hperm : (toArray bitmap).Perm (toArray other) :=
    (List.perm_ext_iff_of_nodup (hsorted.imp Nat.ne_of_lt) (hsorted'.imp Nat.ne_of_lt)).mpr h
  exact hperm.eq_of_pairwise (fun a b _ _ hab hba => absurd (hab.trans hba) (Nat.lt_irrefl a)) hsorted hsorted'

theorem size_empty : size (empty : Bitmap) = 0 := by
  rw [LawfulRoaringBitmap.size_eq, LawfulRoaringBitmap.toArray_empty, List.length_nil]

theorem size_add (bitmap : Bitmap) (id : Nat) :
    size (add bitmap id) = if id ∈ toArray bitmap then size bitmap else size bitmap + 1 := by
  have hnodup : ∀ bitmap : Bitmap, (toArray bitmap).Nodup :=
    fun bitmap => (LawfulRoaringBitmap.pairwise_toArray bitmap).imp Nat.ne_of_lt
  rw [LawfulRoaringBitmap.size_eq, LawfulRoaringBitmap.size_eq]
  split
  · rename_i hmem
    refine ((List.perm_ext_iff_of_nodup (hnodup _) (hnodup bitmap)).mpr fun other => ?_).length_eq
    rw [LawfulRoaringBitmap.mem_add]
    exact or_iff_right_of_imp fun heq => heq ▸ hmem
  · rename_i hnot
    rw [← List.length_cons (a := id)]
    have hcons : (id :: toArray bitmap).Nodup := List.nodup_cons.mpr ⟨hnot, hnodup bitmap⟩
    refine ((List.perm_ext_iff_of_nodup (hnodup _) hcons).mpr fun other => ?_).length_eq
    rw [LawfulRoaringBitmap.mem_add, List.mem_cons]

end RoaringBitmap

/-! ### Sets as sorted lists -/

/-- Ids in ascending order. -/
structure IdSet where
  ids : List Nat
  sorted : ids.Pairwise (· < ·)
  deriving DecidableEq

namespace IdSet

def empty : IdSet := ⟨[], List.Pairwise.nil⟩

def size (bitmap : IdSet) : Nat := bitmap.ids.length

def insertId (id : Nat) : List Nat → List Nat
  | [] => [id]
  | first :: rest =>
      if id < first then id :: first :: rest
      else if id = first then first :: rest
      else first :: insertId id rest

theorem mem_insertId {id other : Nat} {ids : List Nat} : other ∈ insertId id ids ↔ other = id ∨ other ∈ ids := by
  induction ids with
  | nil => simp [insertId]
  | cons first rest ih =>
      rw [insertId]
      split
      · rw [List.mem_cons]
      · split
        · rename_i heq
          rw [heq, List.mem_cons]
          exact ⟨fun h => Or.inr h, fun h => h.elim Or.inl fun h => h⟩
        · rw [List.mem_cons, ih, List.mem_cons]
          exact or_left_comm

theorem pairwise_insertId {ids : List Nat} (h : ids.Pairwise (· < ·)) (id : Nat) : (insertId id ids).Pairwise (· < ·) := by
  induction ids with
  | nil => exact List.pairwise_singleton _ _
  | cons first rest ih =>
      obtain ⟨hfirst, hrest⟩ := List.pairwise_cons.mp h
      rw [insertId]
      split
      · rename_i hlt
        refine List.pairwise_cons.mpr ⟨fun other hother => ?_, h⟩
        rcases List.mem_cons.mp hother with rfl | hother
        · exact hlt
        · exact hlt.trans (hfirst other hother)
      · rename_i hge
        split
        · exact h
        · rename_i hne
          refine List.pairwise_cons.mpr ⟨fun other hother => ?_, ih hrest⟩
          rcases mem_insertId.mp hother with rfl | hother
          · omega
          · exact hfirst other hother

def add (bitmap : IdSet) (id : Nat) : IdSet :=
  ⟨insertId id bitmap.ids, pairwise_insertId bitmap.sorted id⟩

def orInPlace (bitmap other : IdSet) : IdSet := other.ids.foldl add bitmap

@[simp] theorem mem_add {bitmap : IdSet} {id other : Nat} :
    other ∈ (bitmap.add id).ids ↔ other = id ∨ other ∈ bitmap.ids := mem_insertId

@[simp] theorem mem_orInPlace {bitmap other : IdSet} {id : Nat} :
    id ∈ (bitmap.orInPlace other).ids ↔ id ∈ bitmap.ids ∨ id ∈ other.ids := by
  have hloop : ∀ (ids : List Nat) (b : IdSet), id ∈ (ids.foldl add b).ids ↔ id ∈ b.ids ∨ id ∈ ids := by
    intro ids
    induction ids with
    | nil => simp
    | cons first rest ih =>
        intro b
        rw [List.foldl_cons, ih, mem_add, List.mem_cons]
        tauto
  exact hloop other.ids bitmap

/-- A set has one list of its ids. -/
theorem eq_of_mem_iff {bitmap other : IdSet} (h : ∀ id, id ∈ bitmap.ids ↔ id ∈ other.ids) : bitmap = other := by
  have hperm : bitmap.ids.Perm other.ids :=
    (List.perm_ext_iff_of_nodup (bitmap.sorted.imp Nat.ne_of_lt) (other.sorted.imp Nat.ne_of_lt)).mpr h
  have hids : bitmap.ids = other.ids :=
    hperm.eq_of_pairwise (fun a b _ _ hab hba => absurd (hab.trans hba) (Nat.lt_irrefl a)) bitmap.sorted other.sorted
  cases bitmap
  cases other
  cases hids
  rfl

end IdSet

instance : RoaringBitmap IdSet := ⟨IdSet.empty, IdSet.add, IdSet.orInPlace, IdSet.size, IdSet.ids⟩

instance : LawfulRoaringBitmap IdSet where
  pairwise_toArray := IdSet.sorted
  toArray_empty := rfl
  mem_add _ _ _ := IdSet.mem_add
  mem_orInPlace _ _ _ := IdSet.mem_orInPlace
  size_eq _ := rfl

/-! ### Shards -/

variable {Bitmap : Type} [RoaringBitmap Bitmap]

/-- The bitmap format and the hash that an index is built with. -/
structure IndexPorts (Bitmap : Type) where
  serialize : Bitmap → List UInt8
  deserialize : List UInt8 → Except JsError Bitmap
  sha256 : JsString → JsString

/-- A bitmap is read back as the set that was written; equal sets are written alike, and after a header. -/
structure IndexPorts.Portable (ports : IndexPorts Bitmap) : Prop where
  deserialize_serialize : ∀ bitmap, ∃ read, ports.deserialize (ports.serialize bitmap) = .ok read ∧
    toArray read = toArray bitmap
  serialize_congr : ∀ bitmap other, toArray bitmap = toArray other → ports.serialize bitmap = ports.serialize other
  serialize_ne_nil : ∀ bitmap, ports.serialize bitmap ≠ []

inductive EdgeType where
  | fwd
  | rev
  deriving DecidableEq

/-- The name of a shard: `meta_XX.json`, `shards_fwd_XX.json` or `shards_rev_XX.json`. -/
inductive ShardPath where
  | ids (shaPrefix : JsString)
  | edges (type : EdgeType) (shaPrefix : JsString)
  deriving DecidableEq

/-- `sha.substring(0, 2)` -/
def shardPrefix (sha : JsString) : JsString := sha.take 2

/-- What a shard holds: the numbers of names, or their bitmaps as base64 texts. -/
inductive ShardData where
  | ids (data : PlainObject Nat)
  | bitmaps (data : PlainObject JsString)
  deriving DecidableEq

namespace ShardData

/-- The data of a meta shard, which always maps a name to its number. -/
def asIds : ShardData → PlainObject Nat
  | .ids data => data
  | .bitmaps _ => .empty

/-- The data of a bitmap shard, which always maps a name to a base64 text. -/
def asBitmaps : ShardData → PlainObject JsString
  | .ids _ => .empty
  | .bitmaps data => data

/-- The data of a shard as JSON, its fields in their own order. -/
def toJson : ShardData → List (JsString × Json)
  | .ids data => data.entries.map fun entry => (entry.1, .number entry.2)
  | .bitmaps data => data.entries.map fun entry => (entry.1, .string entry.2)

def printNumber (number : Rat) : JsString := decimal number.num.toNat

def stringify (data : ShardData) : JsString := Json.print printNumber (.object data.toJson)

def canonicalStringify (data : ShardData) : JsString :=
  Json.print printNumber
    (.object (data.toJson.foldr (fun field fields => SortedFields.put field.1 field.2 fields) []))

end ShardData

def SHARD_VERSION : Nat := 2

structure Envelope where
  version : Nat
  checksum : JsString
  data : ShardData
  deriving DecidableEq

def computeChecksum (ports : IndexPorts Bitmap) (data : ShardData) : JsString := ports.sha256 data.canonicalStringify

def wrapShard (ports : IndexPorts Bitmap)
    (data : ShardData) : Envelope := ⟨SHARD_VERSION, computeChecksum ports data, data⟩

/-- The shards of an index by their names, as `JSON.parse` reads them back. -/
abbrev IndexTree := JsMap ShardPath Envelope

/-! ### The builder -/

/-- The numbers of names, in both directions. -/
structure IdTable where
  shaToId : JsMap JsString Nat
  idToSha : List JsString
  agree : ∀ sha id, shaToId.get sha = some id ↔ idToSha[id]? = some sha

namespace IdTable

def empty : IdTable := ⟨.empty, [], fun _ _ => by simp⟩

/-- A new name takes the number of the names before it. -/
def register (table : IdTable) (sha : JsString) (hnew : table.shaToId.get sha = none) : IdTable where
  shaToId := table.shaToId.set sha table.idToSha.length
  idToSha := table.idToSha ++ [sha]
  agree other id := by
    rw [JsMap.get_set, List.getElem?_append]
    by_cases hid : id < table.idToSha.length
    · rw [if_pos hid, ← table.agree]
      split
      · rename_i heq
        rw [heq, hnew]
        exact iff_of_false (fun h => hid.ne (Option.some.inj h).symm) nofun
      · rfl
    · rw [if_neg hid]
      have hnone : table.shaToId.get other ≠ some id := by
        rw [Ne, table.agree]
        exact fun h => hid (List.getElem?_eq_some_iff.mp h).1
      rw [List.getElem?_singleton]
      split
      · rename_i heq
        subst heq
        split
        · rename_i hzero
          exact iff_of_true (by congr 1; omega) rfl
        · rename_i hzero
          exact iff_of_false (fun h => hzero (by rw [Option.some.inj h, Nat.sub_self])) nofun
      · rename_i hne
        refine iff_of_false hnone ?_
        split
        · exact fun h => hne (Option.some.inj h).symm
        · exact nofun

def getOrCreateId (table : IdTable) (sha : JsString) : IdTable × Nat :=
  match hget : table.shaToId.get sha with
  | some id => (table, id)
  | none => (table.register sha hget, table.idToSha.length)

end IdTable

structure BitmapIndexBuilder (Bitmap : Type) where
  table : IdTable
  /-- by type and name, the key `fwd_<sha>` or `rev_<sha>` -/
  bitmaps : JsMap (EdgeType × JsString) Bitmap

namespace BitmapIndexBuilder

def new : BitmapIndexBuilder Bitmap := ⟨.empty, .empty⟩

def registerNode (builder : BitmapIndexBuilder Bitmap) (sha : JsString) : BitmapIndexBuilder Bitmap :=
  { builder with table := (builder.table.getOrCreateId sha).1 }

def addToBitmap (bitmaps : JsMap (EdgeType × JsString) Bitmap) (sha : JsString) (id : Nat) (type : EdgeType) :
    JsMap (EdgeType × JsString) Bitmap :=
  let bitmaps := if bitmaps.has (type, sha) then bitmaps else bitmaps.set (type, sha) RoaringBitmap.empty
  match bitmaps.get (type, sha) with
  | some bitmap => bitmaps.set (type, sha) (RoaringBitmap.add bitmap id)
  | none => bitmaps

def addEdge (builder : BitmapIndexBuilder Bitmap) (srcSha tgtSha : JsString) : BitmapIndexBuilder Bitmap :=
  let (table, srcId) := builder.table.getOrCreateId srcSha
  let (table, tgtId) := table.getOrCreateId tgtSha
  ⟨table, addToBitmap (addToBitmap builder.bitmaps srcSha tgtId .fwd) tgtSha srcId .rev⟩

end BitmapIndexBuilder

/-- Entries in objects by the prefix of their names. A prefix has at most two characters, which no inherited
name has. -/
def shardBy {V : Type} (entries : List (JsString × V)) : JsMap JsString (PlainObject V) :=
  entries.foldl (fun shards entry =>
    shards.set (shardPrefix entry.1) (((shards.get (shardPrefix entry.1)).getD .empty).assign entry.1 entry.2)) .empty

/-- The bitmaps of one type as base64 texts by prefix. -/
def bitmapShards (ports : IndexPorts Bitmap) (bitmaps : JsMap (EdgeType × JsString) Bitmap) (type : EdgeType) :
    JsMap JsString (PlainObject JsString) :=
  shardBy ((bitmaps.entries.filter fun entry => entry.1.1 = type).map fun entry =>
    (entry.1.2, Bytes.base64Encode (ports.serialize entry.2)))

def metaEntries (ports : IndexPorts Bitmap) (table : IdTable) : List (ShardPath × Envelope) :=
  (shardBy table.shaToId.entries).entries.map fun entry => (.ids entry.1, wrapShard ports (.ids entry.2))

def bitmapEntries (ports : IndexPorts Bitmap) (bitmaps : JsMap (EdgeType × JsString) Bitmap) (type : EdgeType) :
    List (ShardPath × Envelope) :=
  (bitmapShards ports bitmaps type).entries.map fun entry =>
    (.edges type entry.1, wrapShard ports (.bitmaps entry.2))

def BitmapIndexBuilder.serialize (ports : IndexPorts Bitmap) (builder : BitmapIndexBuilder Bitmap) : IndexTree :=
  JsMap.ofEntries (metaEntries ports builder.table ++ bitmapEntries ports builder.bitmaps .fwd ++
    bitmapEntries ports builder.bitmaps .rev)

/-! ### The reader -/

namespace BitmapIndexReader

def SUPPORTED_SHARD_VERSIONS : List Nat := [1, 2]

/-- The checksum of a shard of a version. -/
def shardChecksum (ports : IndexPorts Bitmap) (data : ShardData) (version : Nat) : JsString :=
  ports.sha256 (if version = 1 then data.stringify else data.canonicalStringify)

def validateShard (ports : IndexPorts Bitmap) (envelope : Envelope) : Except JsError ShardData :=
  if SUPPORTED_SHARD_VERSIONS.contains envelope.version = false then .error ⟨"ShardValidationError", "Unsupported version"⟩
  else if envelope.checksum ≠ shardChecksum ports envelope.data envelope.version then
    .error ⟨"ShardValidationError", "Checksum mismatch"⟩
  else return envelope.data

/-- `{}`, read as the data of a path. -/
def emptyShard : ShardPath → ShardData
  | .ids _ => .ids .empty
  | .edges _ _ => .bitmaps .empty

/-- What an object or a function of `Object.prototype` is as a text. -/
def inheritedText (name : JsString) : String :=
  if name = protoKey then "[object Object]"
  else if name = js "constructor" then "function Object() \x7b [native code] \x7d"
  else s!"function {toText name}() \x7b [native code] \x7d"

/-- The ids of a name in a bitmap shard; none where the shard has no text for it. -/
def encodedIds (ports : IndexPorts Bitmap) (shard : PlainObject JsString) (sha : JsString) : Except JsError
    (Option (List Nat)) :=
  match shard.read sha with
  | .undefined => return none
  | .inherited name => .error ⟨"RangeError", s!"Invalid base64 string: {inheritedText name}"⟩
  | .own encoded =>
      if encoded = [] then return none
      else do
        let buffer ← Bytes.base64Decode encoded
        match ports.deserialize buffer with
        | .ok bitmap => return some (toArray bitmap)
        | .error _ => .error ⟨"ShardCorruptionError", "Failed to deserialize bitmap"⟩

/-- The table of names by their numbers, with the names of a meta shard. -/
def addNames (idToSha : JsMap Nat JsString) (shard : PlainObject Nat) : JsMap Nat JsString :=
  shard.entries.foldl (fun table entry => table.set entry.2 entry.1) idToSha

/-- `ids.map(id => idToSha[id]).filter(Boolean)` -/
def mapIds (idToSha : JsMap Nat JsString) (ids : List Nat) : List JsString :=
  ids.filterMap fun id => (idToSha.get id).filter (· ≠ [])

section Reading

variable (ports : IndexPorts Bitmap) (tree : IndexTree)

/-- A shard that is read from storage or, where the index has none of its name, empty. -/
def loadShard (path : ShardPath) : Except JsError ShardData :=
  match tree.get path with
  | some envelope => validateShard ports envelope
  | none => return emptyShard path

def lookupId (sha : JsString) : Except JsError (PlainObject.PropertyRead Nat) := do
  return (← loadShard ports tree (.ids (shardPrefix sha))).asIds.read sha

/-- The prefixes of the meta shards, in the order of the tree. -/
def metaPrefixes : List JsString :=
  tree.keys.filterMap fun path => match path with
    | .ids shaPrefix => some shaPrefix
    | .edges _ _ => none

def buildIdToShaMapping : Except JsError (JsMap Nat JsString) :=
  (metaPrefixes tree).foldlM (fun table shaPrefix => do
    return addNames table (← loadShard ports tree (.ids shaPrefix)).asIds) .empty

def getEdges (type : EdgeType) (sha : JsString) : Except JsError (List JsString) := do
  match ← encodedIds ports (← loadShard ports tree (.edges type (shardPrefix sha))).asBitmaps sha with
  | none => return []
  | some ids => return mapIds (← buildIdToShaMapping ports tree) ids

def getParents (sha : JsString) : Except JsError (List JsString) := getEdges ports tree .rev sha

def getChildren (sha : JsString) : Except JsError (List JsString) := getEdges ports tree .fwd sha

end Reading

end BitmapIndexReader

end GitWarp
