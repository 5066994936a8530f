import GitWarp.BoundaryRecord
import GitWarp.GitLogParser
import GitWarp.LogicalIndex
import Mathlib.Logic.Relation

/-! The ids of nodes and labels over any number of index builds. Each build starts from the shards that the one before it
wrote; an id is never changed and never given away. -/

namespace GitWarp
open Js

/-! ### Shard keys -/

def fnv1aBytes (bytes : List UInt8) : UInt32 :=
  bytes.foldl (fun hash byte => (hash ^^^ byte.toUInt32) * 0x01000193) 0x811c9dc5

/-- `HEX_RE.test(id)` -/
def isHexSha (id : JsString) : Bool :=
  (id.length = 40 || id.length = 64) && id.all fun c => (Boundary.hexDigitValue c).isSome

def computeShardKey (id : JsString) : JsString :=
  if isHexSha id then toLowerCase (id.take 2) else hexText 2 ((fnv1aBytes (textEncode id)).toNat % 256)

/-- `parseInt(shardKey, 16)` -/
def shardByte (shardKey : JsString) : Nat := ((Boundary.parseHexInt shardKey).getD 0).toNat

theorem isHexDigit_lowerUnit {c : CodeUnit} (h : (Boundary.hexDigitValue c).isSome = true) :
    isHexDigit (lowerUnit c) = true := by
  have hunit : (lowerUnit c).val = if 65 ≤ c.val ∧ c.val ≤ 90 then c.val + 32 else c.val := by
    unfold lowerUnit
    split
    · rw [Fin.val_ofNat]
      omega
    · rfl
  have hrange : (48 ≤ c.val ∧ c.val ≤ 57) ∨ (97 ≤ c.val ∧ c.val ≤ 102) ∨ (65 ≤ c.val ∧ c.val ≤ 70) := by
    by_contra hnone
    have hvalue : Boundary.hexDigitValue c = none := by
      rw [not_or, not_or] at hnone
      have hdigit : isDigit c = false := by simpa [isDigit] using hnone.1
      rw [Boundary.hexDigitValue, hdigit, if_neg (by decide), if_neg hnone.2.1, if_neg hnone.2.2]
    rw [hvalue] at h
    cases h
  simp only [isHexDigit, isDigit, Bool.or_eq_true, Bool.and_eq_true, decide_eq_true_eq, hunit]
  split
  · omega
  · omega

/-- A shard key is the text of a byte. -/
theorem exists_shardByte (id : JsString) :
    ∃ byte : UInt8, computeShardKey id = hexText 2 byte.toNat ∧ shardByte (computeShardKey id) = byte.toNat := by
  have htext : ∃ byte : UInt8, computeShardKey id = hexText 2 byte.toNat := by
    unfold computeShardKey
    by_cases hsha : isHexSha id = true
    · rw [if_pos hsha]
      simp only [isHexSha, Bool.and_eq_true, Bool.or_eq_true, decide_eq_true_eq] at hsha
      obtain ⟨hlength, hall⟩ := hsha
      match id, hlength, hall with
      | hi :: lo :: rest, _, hall =>
          rw [List.all_cons, List.all_cons, Bool.and_eq_true, Bool.and_eq_true] at hall
          obtain ⟨byte, hbyte, -⟩ := Boundary.exists_byte (isHexDigit_lowerUnit hall.1) (isHexDigit_lowerUnit hall.2.1)
          exact ⟨byte, hbyte.symm⟩
      | [], hlength, _ => simp at hlength
      | [_], hlength, _ => simp at hlength
    · rw [if_neg hsha]
      refine ⟨UInt8.ofNat ((fnv1aBytes (textEncode id)).toNat % 256), ?_⟩
      rw [UInt8.toNat_ofNat', Nat.mod_mod]
  obtain ⟨byte, htext⟩ := htext
  obtain ⟨hi, lo, hdigits, hparse⟩ := Boundary.exists_digits byte
  refine ⟨byte, htext, ?_⟩
  rw [shardByte, htext, hdigits, hparse]
  rfl

/-- Nodes whose shards have the same byte are in the same shard. -/
theorem computeShardKey_of_byte {a b : JsString} (h : shardByte (computeShardKey a) = shardByte (computeShardKey b)) :
    computeShardKey a = computeShardKey b := by
  obtain ⟨byte, htext, hbyte⟩ := exists_shardByte a
  obtain ⟨byte', htext', hbyte'⟩ := exists_shardByte b
  rw [htext, htext', ← hbyte, ← hbyte', h]

theorem shardByte_lt (id : JsString) : shardByte (computeShardKey id) < 256 := by
  obtain ⟨byte, -, hbyte⟩ := exists_shardByte id
  rw [hbyte]
  exact byte.toNat_lt

/-! ### Global ids -/

/-- `((shardByte << 24) | nextLocal) >>> 0` -/
def globalIdOf (byte localId : Nat) : Nat := ((byte <<< 24) ||| localId) % 2 ^ 32

theorem globalIdOf_eq {byte localId : Nat} (hbyte : byte < 256) (hlocal : localId < maxLocalId) :
    globalIdOf byte localId = byte * maxLocalId + localId := by
  unfold maxLocalId at hlocal ⊢
  rw [globalIdOf, ← Nat.shiftLeft_add_eq_or_of_lt hlocal, Nat.shiftLeft_eq, Nat.mod_eq_of_lt (by omega)]

theorem globalIdOf_inj {byte byte' localId localId' : Nat} (hbyte : byte < 256) (hbyte' : byte' < 256)
    (hlocal : localId < maxLocalId) (hlocal' : localId' < maxLocalId)
    (h : globalIdOf byte localId = globalIdOf byte' localId') : byte = byte' ∧ localId = localId' := by
  rw [globalIdOf_eq hbyte hlocal, globalIdOf_eq hbyte' hlocal'] at h
  unfold maxLocalId at hlocal hlocal' h
  exact ⟨by omega, by omega⟩

/-! ### The builder -/

/-- `Array<[string, number]>|Record<string, number>` -/
inductive IdPairs where
  | array (pairs : List (JsString × Nat))
  | record (fields : PlainObject Nat)

def IdPairs.entries : IdPairs → List (JsString × Nat)
  | .array pairs => pairs
  | .record fields => fields.entries

/-- What a shard with ids is decoded to. -/
inductive IdShard where
  | nodes (nodeToGlobal : IdPairs) (nextLocalId : Nat)
  | labels (registry : IdPairs)

/-- `meta_XX.cbor` or `labels.cbor` -/
inductive IdShardName where
  | nodes (shardKey : JsString)
  | labels

/-- The fields of `LogicalBitmapIndexBuilder` that ids depend on. -/
structure LogicalBitmapIndexBuilder where
  nodeToGlobal : JsMap JsString Nat
  globalToNode : JsMap JsString JsString
  shardNextLocal : JsMap JsString Nat
  labelToId : JsMap JsString Nat
  nextLabelId : Nat
  shardNodes : JsMap JsString (List (JsString × Nat))

namespace LogicalBitmapIndexBuilder

def new : LogicalBitmapIndexBuilder := ⟨JsMap.empty, JsMap.empty, JsMap.empty, JsMap.empty, 0, JsMap.empty⟩

def nextLocal (b : LogicalBitmapIndexBuilder) (shardKey : JsString) : Nat := (b.shardNextLocal.get shardKey).getD 0

def shardList (b : LogicalBitmapIndexBuilder) (shardKey : JsString) : List (JsString × Nat) :=
  (b.shardNodes.get shardKey).getD []

def registerNode (b : LogicalBitmapIndexBuilder) (nodeId : JsString) :
    Except JsError (Nat × LogicalBitmapIndexBuilder) :=
  match b.nodeToGlobal.get nodeId with
  | some existing => .ok (existing, b)
  | none =>
      let shardKey := computeShardKey nodeId
      let nextLocal := b.nextLocal shardKey
      if maxLocalId ≤ nextLocal then
        .error ⟨"ShardIdOverflowError", s!"Shard '{toText shardKey}' exceeded max local ID ({maxLocalId})"⟩
      else
        let globalId := globalIdOf (shardByte shardKey) nextLocal
        .ok (globalId, { b with
          nodeToGlobal := b.nodeToGlobal.set nodeId globalId
          globalToNode := b.globalToNode.set (decimal globalId) nodeId
          shardNextLocal := b.shardNextLocal.set shardKey (nextLocal + 1)
          shardNodes := b.shardNodes.set shardKey (b.shardList shardKey ++ [(nodeId, globalId)]) })

def registerLabel (b : LogicalBitmapIndexBuilder) (label : JsString) : Nat × LogicalBitmapIndexBuilder :=
  match b.labelToId.get label with
  | some existing => (existing, b)
  | none => (b.nextLabelId, { b with
      labelToId := b.labelToId.set label b.nextLabelId
      nextLabelId := b.nextLabelId + 1 })

def loadExistingMeta (b : LogicalBitmapIndexBuilder) (shardKey : JsString) (nodeToGlobal : IdPairs)
    (nextLocalId : Nat) : LogicalBitmapIndexBuilder :=
  { b with
    nodeToGlobal := nodeToGlobal.entries.foldl (fun ids entry => ids.set entry.1 entry.2) b.nodeToGlobal
    globalToNode := nodeToGlobal.entries.foldl (fun nodes entry => nodes.set (decimal entry.2) entry.1) b.globalToNode
    shardNodes := b.shardNodes.set shardKey (b.shardList shardKey ++ nodeToGlobal.entries)
    shardNextLocal :=
      if b.nextLocal shardKey < nextLocalId then b.shardNextLocal.set shardKey nextLocalId else b.shardNextLocal }

def loadExistingLabels (b : LogicalBitmapIndexBuilder) (registry : IdPairs) : LogicalBitmapIndexBuilder :=
  { b with
    labelToId := registry.entries.foldl (fun ids entry => ids.set entry.1 entry.2) b.labelToId
    nextLabelId := registry.entries.foldl (fun maxId entry => if maxId ≤ entry.2 then entry.2 + 1 else maxId)
      b.nextLabelId }

variable {Buffer : Type} (codec : CodecPort IdShard Buffer)

/-- The shards with ids that `serialize` writes. -/
def serialize (b : LogicalBitmapIndexBuilder) : List (IdShardName × Buffer) :=
  (b.shardNextLocal.keys.map fun shardKey =>
    let nodeToGlobal := (b.shardList shardKey).insertionSort fun pair other => pair.1 ≤ other.1
    (.nodes shardKey, codec.encode (.nodes (.array nodeToGlobal) (b.nextLocal shardKey)))) ++
      [(.labels, codec.encode (.labels (.array b.labelToId.entries)))]

end LogicalBitmapIndexBuilder

/-- A call by which a build starts from what was written. -/
inductive Seed where
  | existingMeta (shardKey : JsString) (nodeToGlobal : IdPairs) (nextLocalId : Nat)
  | existingLabels (registry : IdPairs)

namespace LogicalBitmapIndexBuilder

variable {Buffer : Type} (codec : CodecPort IdShard Buffer)

def load (b : LogicalBitmapIndexBuilder) : Seed → LogicalBitmapIndexBuilder
  | .existingMeta shardKey nodeToGlobal nextLocalId => b.loadExistingMeta shardKey nodeToGlobal nextLocalId
  | .existingLabels registry => b.loadExistingLabels registry

/-- The builder from which a build starts. -/
def seeded (seeds : List Seed) : LogicalBitmapIndexBuilder := seeds.foldl load new

/-- The call for a shard of a tree. -/
def seedOf (shard : IdShardName × Buffer) : Option Seed :=
  match shard.1, codec.decode shard.2 with
  | .nodes shardKey, .ok (some (.nodes nodeToGlobal nextLocalId)) => some (.existingMeta shardKey nodeToGlobal nextLocalId)
  | .labels, .ok (some (.labels registry)) => some (.existingLabels registry)
  | _, _ => none

/-- The calls for the shards of a tree, in any order, each at least once. -/
def Reads (tree : List (IdShardName × Buffer)) (seeds : List Seed) : Prop :=
  ∀ seed, seed ∈ seeds ↔ seed ∈ tree.filterMap (seedOf codec)

/-- A call that registers, or a new builder that starts from what this one has written. A call that throws leaves the
builder as it is. -/
inductive Step : LogicalBitmapIndexBuilder → LogicalBitmapIndexBuilder → Prop
  | registerNode {b b' : LogicalBitmapIndexBuilder} (nodeId : JsString) (globalId : Nat)
      (h : b.registerNode nodeId = .ok (globalId, b')) : Step b b'
  | registerLabel (b : LogicalBitmapIndexBuilder) (label : JsString) : Step b (b.registerLabel label).2
  | rebuild (b : LogicalBitmapIndexBuilder) (seeds : List Seed) (h : Reads codec (b.serialize codec) seeds) :
      Step b (seeded seeds)

/-- The builders of all sequences of builds. -/
def Reachable (b : LogicalBitmapIndexBuilder) : Prop := Relation.ReflTransGen (Step codec) new b

end LogicalBitmapIndexBuilder

/-! ### Filling from pairs that agree -/

/-- Pairs that agree with a function fill a map that agrees with it. -/
theorem JsMap.foldl_set_agrees {K V : Type} [DecidableEq K] {target : K → Option V} {entries : List (K × V)}
    (hentries : ∀ entry ∈ entries, target entry.1 = some entry.2) {m : JsMap K V}
    (hm : ∀ key value, m.get key = some value → target key = some value) :
    let filled := entries.foldl (fun m entry => m.set entry.1 entry.2) m
    (∀ key value, filled.get key = some value → target key = some value) ∧
      (∀ key value, m.get key = some value → filled.get key = some value) ∧
        ∀ entry ∈ entries, filled.get entry.1 = some entry.2 := by
  induction entries generalizing m with
  | nil => exact ⟨hm, fun _ _ => id, fun _ hentry => absurd hentry List.not_mem_nil⟩
  | cons head rest ih =>
      rw [List.forall_mem_cons] at hentries
      have hnext : ∀ key value, (m.set head.1 head.2).get key = some value → target key = some value := by
        intro key value hget
        rw [JsMap.get_set] at hget
        split at hget
        · rename_i heq
          cases hget
          exact heq ▸ hentries.1
        · exact hm key value hget
      have hold : ∀ key value, m.get key = some value → (m.set head.1 head.2).get key = some value := by
        intro key value hget
        rw [JsMap.get_set]
        split
        · rename_i heq
          rw [← hm key value hget, heq, hentries.1]
        · exact hget
      obtain ⟨hagree, hkept, hfilled⟩ := ih hentries.2 hnext
      refine ⟨hagree, fun key value hget => hkept key value (hold key value hget), ?_⟩
      rw [List.forall_mem_cons]
      exact ⟨hkept head.1 head.2 (JsMap.get_set_self _ _ _), hfilled⟩

/-- The next id is above the one there was and above those of the pairs, and no higher than they make it. -/
theorem foldl_maxId (entries : List (JsString × Nat)) (start : Nat) :
    let maxId := entries.foldl (fun maxId entry => if maxId ≤ entry.2 then entry.2 + 1 else maxId) start
    start ≤ maxId ∧ (∀ entry ∈ entries, entry.2 < maxId) ∧
      ∀ bound, start ≤ bound → (∀ entry ∈ entries, entry.2 < bound) → maxId ≤ bound := by
  induction entries generalizing start with
  | nil => exact ⟨le_rfl, fun _ hentry => absurd hentry List.not_mem_nil, fun _ hstart _ => hstart⟩
  | cons head rest ih =>
      obtain ⟨hstart, hrest, hleast⟩ := ih (if start ≤ head.2 then head.2 + 1 else start)
      have hnext : start ≤ (if start ≤ head.2 then head.2 + 1 else start) ∧
          head.2 < (if start ≤ head.2 then head.2 + 1 else start) := by
        split
        · omega
        · omega
      refine ⟨hnext.1.trans hstart, ?_, fun bound hbound hentries => ?_⟩
      · rw [List.forall_mem_cons]
        exact ⟨hnext.2.trans_le hstart, hrest⟩
      · rw [List.forall_mem_cons] at hentries
        refine hleast bound ?_ hentries.2
        split
        · exact hentries.1
        · exact hbound

namespace LogicalBitmapIndexBuilder

/-! ### The invariant -/

/-- Every id has its place, in the list of its shard and below the counter of its shard, and every place below the
counter is taken. -/
structure WellNumbered (b : LogicalBitmapIndexBuilder) : Prop where
  listed : ∀ node id, b.nodeToGlobal.get node = some id → (node, id) ∈ b.shardList (computeShardKey node)
  pairs : ∀ shardKey pair, pair ∈ b.shardList shardKey →
    computeShardKey pair.1 = shardKey ∧ b.nodeToGlobal.get pair.1 = some pair.2
  place : ∀ node id, b.nodeToGlobal.get node = some id →
    ∃ n, n < b.nextLocal (computeShardKey node) ∧ id = globalIdOf (shardByte (computeShardKey node)) n
  taken : ∀ shardKey n, n < b.nextLocal shardKey →
    ∃ node, computeShardKey node = shardKey ∧ b.nodeToGlobal.get node = some (globalIdOf (shardByte shardKey) n)
  bound : ∀ shardKey, b.nextLocal shardKey ≤ maxLocalId
  inverse : ∀ node id, b.nodeToGlobal.get node = some id → b.globalToNode.get (decimal id) = some node
  inverse_of : ∀ text node, b.globalToNode.get text = some node → ∃ id, text = decimal id ∧ b.nodeToGlobal.get node = some id
  label_lt : ∀ label id, b.labelToId.get label = some id → id < b.nextLabelId
  label_taken : ∀ id, id < b.nextLabelId → ∃ label, b.labelToId.get label = some id
  label_inj : LogicalIndex.Injective b.labelToId

theorem WellNumbered.injective {b : LogicalBitmapIndexBuilder} (h : b.WellNumbered) :
    LogicalIndex.Injective b.nodeToGlobal := by
  intro node other id hnode hother
  have hinverse := h.inverse node id hnode
  rw [h.inverse other id hother] at hinverse
  exact (Option.some.inj hinverse).symm

/-- The next local id of a shard is that of no node. -/
theorem WellNumbered.fresh {b : LogicalBitmapIndexBuilder} (h : b.WellNumbered) {nodeId : JsString}
    (hroom : b.nextLocal (computeShardKey nodeId) < maxLocalId) (node : JsString) :
    b.nodeToGlobal.get node ≠
      some (globalIdOf (shardByte (computeShardKey nodeId)) (b.nextLocal (computeShardKey nodeId))) := by
  intro hnode
  obtain ⟨n, hn, hid⟩ := h.place node _ hnode
  obtain ⟨hbyte, hlocal⟩ := globalIdOf_inj (shardByte_lt nodeId) (shardByte_lt node) hroom (hn.trans_le (h.bound _)) hid
  rw [← computeShardKey_of_byte hbyte, ← hlocal] at hn
  exact lt_irrefl _ hn

theorem wellNumbered_new : new.WellNumbered where
  listed node id h := by cases h
  pairs shardKey pair h := by cases h
  place node id h := by cases h
  taken shardKey n h := absurd h (Nat.not_lt_zero n)
  bound shardKey := Nat.zero_le _
  inverse node id h := by cases h
  inverse_of text node h := by cases h
  label_lt label id h := by cases h
  label_taken id h := absurd h (Nat.not_lt_zero id)
  label_inj a c id h := by cases h

/-- What the first builder has, the second one has. -/
structure PartOf (p b : LogicalBitmapIndexBuilder) : Prop where
  nodes : ∀ node id, p.nodeToGlobal.get node = some id → b.nodeToGlobal.get node = some id
  inverse : ∀ text node, p.globalToNode.get text = some node → b.globalToNode.get text = some node
  pairs : ∀ shardKey pair, pair ∈ p.shardList shardKey → pair ∈ b.shardList shardKey
  next : ∀ shardKey, p.nextLocal shardKey ≤ b.nextLocal shardKey
  labels : ∀ label id, p.labelToId.get label = some id → b.labelToId.get label = some id
  nextLabel : p.nextLabelId ≤ b.nextLabelId

theorem PartOf.refl (b : LogicalBitmapIndexBuilder) : PartOf b b :=
  ⟨fun _ _ => id, fun _ _ => id, fun _ _ => id, fun _ => le_rfl, fun _ _ => id, le_rfl⟩

theorem PartOf.trans {p q b : LogicalBitmapIndexBuilder} (hpq : PartOf p q) (hqb : PartOf q b) : PartOf p b where
  nodes node id h := hqb.nodes node id (hpq.nodes node id h)
  inverse text node h := hqb.inverse text node (hpq.inverse text node h)
  pairs shardKey pair h := hqb.pairs shardKey pair (hpq.pairs shardKey pair h)
  next shardKey := (hpq.next shardKey).trans (hqb.next shardKey)
  labels label id h := hqb.labels label id (hpq.labels label id h)
  nextLabel := hpq.nextLabel.trans hqb.nextLabel

theorem partOf_new (b : LogicalBitmapIndexBuilder) : PartOf new b where
  nodes node id h := by cases h
  inverse text node h := by cases h
  pairs shardKey pair h := by cases h
  next shardKey := Nat.zero_le _
  labels label id h := by cases h
  nextLabel := Nat.zero_le _

/-- A builder that has the same is numbered as well. -/
theorem WellNumbered.of_same {b p : LogicalBitmapIndexBuilder} (h : b.WellNumbered) (hpb : PartOf p b) (hbp : PartOf b p) :
    p.WellNumbered where
  listed node id hnode := hbp.pairs _ _ (h.listed node id (hpb.nodes node id hnode))
  pairs shardKey pair hpair := by
    obtain ⟨hkey, hget⟩ := h.pairs shardKey pair (hpb.pairs shardKey pair hpair)
    exact ⟨hkey, hbp.nodes _ _ hget⟩
  place node id hnode := by
    obtain ⟨n, hn, hid⟩ := h.place node id (hpb.nodes node id hnode)
    exact ⟨n, hn.trans_le (hbp.next _), hid⟩
  taken shardKey n hn := by
    obtain ⟨node, hkey, hget⟩ := h.taken shardKey n (hn.trans_le (hpb.next shardKey))
    exact ⟨node, hkey, hbp.nodes _ _ hget⟩
  bound shardKey := (hpb.next shardKey).trans (h.bound shardKey)
  inverse node id hnode := hbp.inverse _ _ (h.inverse node id (hpb.nodes node id hnode))
  inverse_of text node htext := by
    obtain ⟨id, hid, hget⟩ := h.inverse_of text node (hpb.inverse text node htext)
    exact ⟨id, hid, hbp.nodes _ _ hget⟩
  label_lt label id hlabel := (h.label_lt label id (hpb.labels label id hlabel)).trans_le hbp.nextLabel
  label_taken id hid := by
    obtain ⟨label, hget⟩ := h.label_taken id (hid.trans_le hpb.nextLabel)
    exact ⟨label, hbp.labels _ _ hget⟩
  label_inj label other id hlabel hother := h.label_inj label other id (hpb.labels _ _ hlabel) (hpb.labels _ _ hother)

/-! ### Registering -/

/-- The builder with a new node under the next id of its shard. -/
def withNode (b : LogicalBitmapIndexBuilder) (nodeId : JsString) : LogicalBitmapIndexBuilder :=
  let shardKey := computeShardKey nodeId
  let globalId := globalIdOf (shardByte shardKey) (b.nextLocal shardKey)
  { b with
    nodeToGlobal := b.nodeToGlobal.set nodeId globalId
    globalToNode := b.globalToNode.set (decimal globalId) nodeId
    shardNextLocal := b.shardNextLocal.set shardKey (b.nextLocal shardKey + 1)
    shardNodes := b.shardNodes.set shardKey (b.shardList shardKey ++ [(nodeId, globalId)]) }

theorem registerNode_of_known {b : LogicalBitmapIndexBuilder} {nodeId : JsString} {id : Nat}
    (h : b.nodeToGlobal.get nodeId = some id) : b.registerNode nodeId = .ok (id, b) := by
  unfold registerNode
  rw [h]

theorem registerNode_of_full {b : LogicalBitmapIndexBuilder} {nodeId : JsString} (h : b.nodeToGlobal.get nodeId = none)
    (hfull : maxLocalId ≤ b.nextLocal (computeShardKey nodeId)) :
    b.registerNode nodeId = .error ⟨"ShardIdOverflowError",
      s!"Shard '{toText (computeShardKey nodeId)}' exceeded max local ID ({maxLocalId})"⟩ := by
  unfold registerNode
  rw [h]
  exact if_pos hfull

theorem registerNode_of_room {b : LogicalBitmapIndexBuilder} {nodeId : JsString} (h : b.nodeToGlobal.get nodeId = none)
    (hroom : b.nextLocal (computeShardKey nodeId) < maxLocalId) :
    b.registerNode nodeId =
      .ok (globalIdOf (shardByte (computeShardKey nodeId)) (b.nextLocal (computeShardKey nodeId)), b.withNode nodeId) := by
  unfold registerNode
  rw [h]
  exact if_neg (not_le.mpr hroom)

theorem registerNode_cases {b b' : LogicalBitmapIndexBuilder} {nodeId : JsString} {id : Nat}
    (h : b.registerNode nodeId = .ok (id, b')) :
    b.nodeToGlobal.get nodeId = some id ∧ b' = b ∨
      b.nodeToGlobal.get nodeId = none ∧ b.nextLocal (computeShardKey nodeId) < maxLocalId ∧
        id = globalIdOf (shardByte (computeShardKey nodeId)) (b.nextLocal (computeShardKey nodeId)) ∧
          b' = b.withNode nodeId := by
  cases hget : b.nodeToGlobal.get nodeId with
  | some existing =>
      rw [registerNode_of_known hget, Except.ok.injEq, Prod.mk.injEq] at h
      exact Or.inl ⟨congrArg some h.1, h.2.symm⟩
  | none =>
      by_cases hroom : b.nextLocal (computeShardKey nodeId) < maxLocalId
      · rw [registerNode_of_room hget hroom, Except.ok.injEq, Prod.mk.injEq] at h
        exact Or.inr ⟨rfl, hroom, h.1.symm, h.2.symm⟩
      · rw [registerNode_of_full hget (not_lt.mp hroom)] at h
        cases h

section WithNode

variable {b : LogicalBitmapIndexBuilder} (nodeId : JsString)

theorem get_withNode (node : JsString) : (b.withNode nodeId).nodeToGlobal.get node =
    if node = nodeId then some (globalIdOf (shardByte (computeShardKey nodeId)) (b.nextLocal (computeShardKey nodeId)))
    else b.nodeToGlobal.get node :=
  JsMap.get_set _ _ _ _

theorem nextLocal_withNode (shardKey : JsString) : (b.withNode nodeId).nextLocal shardKey =
    if shardKey = computeShardKey nodeId then b.nextLocal shardKey + 1 else b.nextLocal shardKey := by
  unfold withNode nextLocal
  rw [JsMap.get_set]
  split
  · rename_i heq
    rw [heq]
    rfl
  · rfl

theorem shardList_withNode (shardKey : JsString) : (b.withNode nodeId).shardList shardKey =
    if shardKey = computeShardKey nodeId then b.shardList shardKey ++
      [(nodeId, globalIdOf (shardByte (computeShardKey nodeId)) (b.nextLocal (computeShardKey nodeId)))]
    else b.shardList shardKey := by
  unfold withNode shardList
  rw [JsMap.get_set]
  split
  · rename_i heq
    rw [heq]
    rfl
  · rfl

theorem mem_shardList_withNode {shardKey : JsString} {pair : JsString × Nat}
    (h : pair ∈ (b.withNode nodeId).shardList shardKey) : pair ∈ b.shardList shardKey ∨
      shardKey = computeShardKey nodeId ∧
        pair = (nodeId, globalIdOf (shardByte (computeShardKey nodeId)) (b.nextLocal (computeShardKey nodeId))) := by
  rw [shardList_withNode] at h
  split at h
  · rename_i heq
    rcases List.mem_append.mp h with hold | hnew
    · exact Or.inl hold
    · exact Or.inr ⟨heq, List.mem_singleton.mp hnew⟩
  · exact Or.inl h

variable {nodeId} (h : b.WellNumbered) (hnew : b.nodeToGlobal.get nodeId = none)
  (hroom : b.nextLocal (computeShardKey nodeId) < maxLocalId)
include h hnew hroom

theorem WellNumbered.partOf_withNode : PartOf b (b.withNode nodeId) where
  nodes node id hnode := by
    rw [get_withNode, if_neg, hnode]
    rintro rfl
    rw [hnew] at hnode
    cases hnode
  inverse text node htext := by
    obtain ⟨id, rfl, hnode⟩ := h.inverse_of text node htext
    have hne : decimal id ≠ decimal (globalIdOf (shardByte (computeShardKey nodeId)) (b.nextLocal (computeShardKey nodeId))) :=
      fun heq => h.fresh hroom node (decimal_injective heq ▸ hnode)
    exact (JsMap.get_set_of_ne _ _ hne).trans htext
  pairs shardKey pair hpair := by
    rw [shardList_withNode]
    split
    · exact List.mem_append_left _ hpair
    · exact hpair
  next shardKey := by
    rw [nextLocal_withNode]
    split
    · exact Nat.le_succ _
    · exact le_rfl
  labels label id hlabel := hlabel
  nextLabel := le_rfl

theorem WellNumbered.withNode : (b.withNode nodeId).WellNumbered := by
  have hkept := h.partOf_withNode hnew hroom
  have hself : (b.withNode nodeId).nodeToGlobal.get nodeId =
      some (globalIdOf (shardByte (computeShardKey nodeId)) (b.nextLocal (computeShardKey nodeId))) := by
    rw [get_withNode, if_pos rfl]
  constructor
  case listed =>
    intro node id hnode
    rw [get_withNode] at hnode
    split at hnode
    · rename_i heq
      cases hnode
      rw [heq, shardList_withNode, if_pos rfl]
      exact List.mem_append_right _ (List.mem_singleton_self _)
    · exact hkept.pairs _ _ (h.listed node id hnode)
  case pairs =>
    intro shardKey pair hpair
    rcases mem_shardList_withNode nodeId hpair with hold | ⟨rfl, rfl⟩
    · obtain ⟨hkey, hget⟩ := h.pairs shardKey pair hold
      exact ⟨hkey, hkept.nodes _ _ hget⟩
    · exact ⟨rfl, hself⟩
  case place =>
    intro node id hnode
    rw [get_withNode] at hnode
    split at hnode
    · rename_i heq
      cases hnode
      refine ⟨b.nextLocal (computeShardKey nodeId), ?_, by rw [heq]⟩
      rw [heq, nextLocal_withNode, if_pos rfl]
      exact Nat.lt_succ_self _
    · obtain ⟨n, hn, hid⟩ := h.place node id hnode
      exact ⟨n, hn.trans_le (hkept.next _), hid⟩
  case taken =>
    intro shardKey n hn
    rw [nextLocal_withNode] at hn
    by_cases hold : n < b.nextLocal shardKey
    · obtain ⟨node, hkey, hget⟩ := h.taken shardKey n hold
      exact ⟨node, hkey, hkept.nodes _ _ hget⟩
    · split at hn
      · rename_i heq
        have hlast : n = b.nextLocal shardKey := by omega
        refine ⟨nodeId, heq.symm, ?_⟩
        rw [hself, heq, hlast, heq]
      · exact absurd hn hold
  case bound =>
    intro shardKey
    rw [nextLocal_withNode]
    split
    · rename_i heq
      rw [heq]
      exact hroom
    · exact h.bound shardKey
  case inverse =>
    intro node id hnode
    rw [get_withNode] at hnode
    split at hnode
    · rename_i heq
      cases hnode
      rw [heq]
      exact JsMap.get_set_self _ _ _
    · exact hkept.inverse _ _ (h.inverse node id hnode)
  case inverse_of =>
    intro text node htext
    have hset : (b.withNode nodeId).globalToNode.get text = _ := JsMap.get_set _ _ _ _
    rw [hset] at htext
    split at htext
    · rename_i heq
      cases htext
      exact ⟨_, heq, hself⟩
    · obtain ⟨id, hid, hget⟩ := h.inverse_of text node htext
      exact ⟨id, hid, hkept.nodes _ _ hget⟩
  case label_lt => exact h.label_lt
  case label_taken => exact h.label_taken
  case label_inj => exact h.label_inj

end WithNode

theorem WellNumbered.registerLabel {b : LogicalBitmapIndexBuilder} (h : b.WellNumbered) (label : JsString) :
    PartOf b (b.registerLabel label).2 ∧ (b.registerLabel label).2.WellNumbered := by
  unfold LogicalBitmapIndexBuilder.registerLabel
  cases hlabel : b.labelToId.get label with
  | some existing => exact ⟨PartOf.refl b, h⟩
  | none =>
      have hget : ∀ other, (b.labelToId.set label b.nextLabelId).get other =
          if other = label then some b.nextLabelId else b.labelToId.get other := fun other => JsMap.get_set _ _ _ _
      have hold : ∀ other id, b.labelToId.get other = some id →
          (b.labelToId.set label b.nextLabelId).get other = some id := by
        intro other id hother
        rw [hget, if_neg, hother]
        rintro rfl
        rw [hlabel] at hother
        cases hother
      refine ⟨⟨fun _ _ => id, fun _ _ => id, fun _ _ => id, fun _ => le_rfl, hold, Nat.le_succ _⟩,
        ⟨h.listed, h.pairs, h.place, h.taken, h.bound, h.inverse, h.inverse_of, ?_, ?_, ?_⟩⟩
      · intro other id hother
        rw [hget] at hother
        split at hother
        · cases hother
          exact Nat.lt_succ_self _
        · exact (h.label_lt other id hother).trans (Nat.lt_succ_self _)
      · intro id hid
        rcases Nat.lt_succ_iff_lt_or_eq.mp hid with hless | rfl
        · obtain ⟨other, hother⟩ := h.label_taken id hless
          exact ⟨other, hold other id hother⟩
        · exact ⟨label, JsMap.get_set_self _ _ _⟩
      · intro first second id hfirst hsecond
        rw [hget] at hfirst hsecond
        split at hfirst
        · rename_i heq
          cases hfirst
          split at hsecond
          · rename_i heq'
            rw [heq, heq']
          · exact absurd (h.label_lt second _ hsecond) (lt_irrefl _)
        · split at hsecond
          · cases hsecond
            exact absurd (h.label_lt first _ hfirst) (lt_irrefl _)
          · exact h.label_inj first second id hfirst hsecond

/-! ### Loading what was written -/

/-- What the call says of ids, the builder says. -/
def OfBuilder (b : LogicalBitmapIndexBuilder) : Seed → Prop
  | .existingMeta shardKey nodeToGlobal nextLocalId =>
      (∀ pair, pair ∈ nodeToGlobal.entries ↔ pair ∈ b.shardList shardKey) ∧ nextLocalId = b.nextLocal shardKey
  | .existingLabels registry => registry.entries = b.labelToId.entries

/-- What the call says of ids was loaded. -/
def Loaded (p : LogicalBitmapIndexBuilder) : Seed → Prop
  | .existingMeta shardKey nodeToGlobal nextLocalId =>
      (∀ pair ∈ nodeToGlobal.entries, p.nodeToGlobal.get pair.1 = some pair.2 ∧
        p.globalToNode.get (decimal pair.2) = some pair.1 ∧ pair ∈ p.shardList shardKey) ∧
          nextLocalId ≤ p.nextLocal shardKey
  | .existingLabels registry =>
      ∀ entry ∈ registry.entries, p.labelToId.get entry.1 = some entry.2 ∧ entry.2 < p.nextLabelId

theorem Loaded.mono {p q : LogicalBitmapIndexBuilder} (hpq : PartOf p q) {seed : Seed} (h : p.Loaded seed) :
    q.Loaded seed := by
  cases seed with
  | existingMeta shardKey nodeToGlobal nextLocalId =>
      refine ⟨fun pair hpair => ?_, h.2.trans (hpq.next shardKey)⟩
      obtain ⟨hnode, hinverse, hlisted⟩ := h.1 pair hpair
      exact ⟨hpq.nodes _ _ hnode, hpq.inverse _ _ hinverse, hpq.pairs _ _ hlisted⟩
  | existingLabels registry =>
      intro entry hentry
      obtain ⟨hlabel, hless⟩ := h entry hentry
      exact ⟨hpq.labels _ _ hlabel, hless.trans_le hpq.nextLabel⟩

theorem nextLocal_loadExistingMeta (p : LogicalBitmapIndexBuilder) (shardKey : JsString) (nodeToGlobal : IdPairs)
    (nextLocalId : Nat) (other : JsString) :
    (p.loadExistingMeta shardKey nodeToGlobal nextLocalId).nextLocal other =
      if other = shardKey then max (p.nextLocal other) nextLocalId else p.nextLocal other := by
  have hread : (p.loadExistingMeta shardKey nodeToGlobal nextLocalId).nextLocal other =
      ((if p.nextLocal shardKey < nextLocalId then p.shardNextLocal.set shardKey nextLocalId
        else p.shardNextLocal).get other).getD 0 := rfl
  rw [hread]
  by_cases heq : other = shardKey
  · subst heq
    rw [if_pos rfl]
    split
    · rename_i hless
      rw [JsMap.get_set_self, Option.getD_some, max_eq_right hless.le]
    · rename_i hnot
      rw [max_eq_left (not_lt.mp hnot)]
      rfl
  · rw [if_neg heq]
    split
    · rw [JsMap.get_set_of_ne _ _ heq]
      rfl
    · rfl

theorem mem_shardList_loadExistingMeta (p : LogicalBitmapIndexBuilder) (shardKey : JsString) (nodeToGlobal : IdPairs)
    (nextLocalId : Nat) (other : JsString) (pair : JsString × Nat) :
    pair ∈ (p.loadExistingMeta shardKey nodeToGlobal nextLocalId).shardList other ↔
      pair ∈ p.shardList other ∨ other = shardKey ∧ pair ∈ nodeToGlobal.entries := by
  have hread : (p.loadExistingMeta shardKey nodeToGlobal nextLocalId).shardList other =
      ((p.shardNodes.set shardKey (p.shardList shardKey ++ nodeToGlobal.entries)).get other).getD [] := rfl
  rw [hread, JsMap.get_set]
  by_cases heq : other = shardKey
  · rw [if_pos heq, Option.getD_some, List.mem_append, heq, and_iff_right rfl]
  · rw [if_neg heq, or_iff_left fun h => heq h.1]
    rfl

section Load

variable {b p : LogicalBitmapIndexBuilder} (h : b.WellNumbered) (hpart : PartOf p b)
include h hpart

theorem WellNumbered.load_meta {shardKey : JsString} {nodeToGlobal : IdPairs} {nextLocalId : Nat}
    (hseed : b.OfBuilder (.existingMeta shardKey nodeToGlobal nextLocalId)) :
    PartOf (p.loadExistingMeta shardKey nodeToGlobal nextLocalId) b ∧
      PartOf p (p.loadExistingMeta shardKey nodeToGlobal nextLocalId) ∧
        (p.loadExistingMeta shardKey nodeToGlobal nextLocalId).Loaded
          (.existingMeta shardKey nodeToGlobal nextLocalId) := by
  obtain ⟨hpairs, hnext⟩ := hseed
  have hids : ∀ pair ∈ nodeToGlobal.entries, b.nodeToGlobal.get pair.1 = some pair.2 := fun pair hpair =>
    (h.pairs shardKey pair ((hpairs pair).mp hpair)).2
  obtain ⟨hnodes, hnodesKept, hnodesFilled⟩ := JsMap.foldl_set_agrees hids hpart.nodes
  have hback : ∀ entry ∈ nodeToGlobal.entries.map fun pair => (decimal pair.2, pair.1),
      b.globalToNode.get entry.1 = some entry.2 := by
    intro entry hentry
    obtain ⟨pair, hpair, rfl⟩ := List.mem_map.mp hentry
    exact h.inverse _ _ (hids pair hpair)
  obtain ⟨hinverse, hinverseKept, hinverseFilled⟩ := JsMap.foldl_set_agrees hback hpart.inverse
  rw [List.foldl_map] at hinverse hinverseKept hinverseFilled
  refine ⟨⟨hnodes, hinverse, fun other pair hpair => ?_, fun other => ?_, hpart.labels, hpart.nextLabel⟩,
    ⟨hnodesKept, hinverseKept, fun other pair hpair => ?_, fun other => ?_, fun _ _ => id, le_rfl⟩,
    fun pair hpair => ⟨hnodesFilled pair hpair, hinverseFilled _ (List.mem_map_of_mem hpair), ?_⟩, ?_⟩
  · rcases (mem_shardList_loadExistingMeta ..).mp hpair with hold | ⟨rfl, hread⟩
    · exact hpart.pairs other pair hold
    · exact (hpairs pair).mp hread
  · rw [nextLocal_loadExistingMeta]
    split
    · rename_i heq
      exact max_le (hpart.next other) (by rw [hnext, heq])
    · exact hpart.next other
  · exact (mem_shardList_loadExistingMeta ..).mpr (Or.inl hpair)
  · rw [nextLocal_loadExistingMeta]
    split
    · exact le_max_left _ _
    · exact le_rfl
  · exact (mem_shardList_loadExistingMeta ..).mpr (Or.inr ⟨rfl, hpair⟩)
  · rw [nextLocal_loadExistingMeta, if_pos rfl]
    exact le_max_right _ _

theorem WellNumbered.load_labels {registry : IdPairs} (hseed : b.OfBuilder (.existingLabels registry)) :
    PartOf (p.loadExistingLabels registry) b ∧ PartOf p (p.loadExistingLabels registry) ∧
      (p.loadExistingLabels registry).Loaded (.existingLabels registry) := by
  have hids : ∀ entry ∈ registry.entries, b.labelToId.get entry.1 = some entry.2 := by
    intro entry hentry
    exact (JsMap.get_eq_some_iff _ _ _).mpr (hseed ▸ hentry)
  obtain ⟨hlabels, hkept, hfilled⟩ := JsMap.foldl_set_agrees hids hpart.labels
  obtain ⟨hstart, habove, hleast⟩ := foldl_maxId registry.entries p.nextLabelId
  have hbound := hleast b.nextLabelId hpart.nextLabel fun entry hentry => h.label_lt _ _ (hids entry hentry)
  exact ⟨⟨hpart.nodes, hpart.inverse, hpart.pairs, hpart.next, hlabels, hbound⟩,
    ⟨fun _ _ => id, fun _ _ => id, fun _ _ => id, fun _ => le_rfl, hkept, hstart⟩,
    fun entry hentry => ⟨hfilled entry hentry, habove entry hentry⟩⟩

theorem WellNumbered.load {seed : Seed} (hseed : b.OfBuilder seed) :
    PartOf (p.load seed) b ∧ PartOf p (p.load seed) ∧ (p.load seed).Loaded seed := by
  cases seed with
  | existingMeta shardKey nodeToGlobal nextLocalId => exact h.load_meta hpart hseed
  | existingLabels registry => exact h.load_labels hpart hseed

/-- Whatever the order of the calls, all of what they say is loaded, and nothing else. -/
theorem WellNumbered.loadAll {seeds : List Seed} (hseeds : ∀ seed ∈ seeds, b.OfBuilder seed) :
    PartOf (seeds.foldl LogicalBitmapIndexBuilder.load p) b ∧
      PartOf p (seeds.foldl LogicalBitmapIndexBuilder.load p) ∧
        ∀ seed ∈ seeds, (seeds.foldl LogicalBitmapIndexBuilder.load p).Loaded seed := by
  induction seeds generalizing p with
  | nil => exact ⟨hpart, PartOf.refl p, fun _ hseed => absurd hseed List.not_mem_nil⟩
  | cons seed seeds ih =>
      rw [List.forall_mem_cons] at hseeds
      obtain ⟨hbelow, hkept, hloaded⟩ := h.load hpart hseeds.1
      obtain ⟨hall, hlater, hrest⟩ := ih hbelow hseeds.2
      refine ⟨hall, hkept.trans hlater, ?_⟩
      rw [List.forall_mem_cons]
      exact ⟨hloaded.mono hlater, hrest⟩

end Load

/-! ### A rebuild -/

section Rebuild

variable {Buffer : Type} {codec : CodecPort IdShard Buffer} (hcodec : codec.Inverts)
include hcodec

/-- The calls for what a builder writes: one for each shard with a counter, and one for the labels. -/
theorem mem_seeds_iff (b : LogicalBitmapIndexBuilder) (seed : Seed) :
    seed ∈ (b.serialize codec).filterMap (seedOf codec) ↔
      (∃ shardKey ∈ b.shardNextLocal.keys, seed = .existingMeta shardKey
        (.array ((b.shardList shardKey).insertionSort fun pair other => pair.1 ≤ other.1)) (b.nextLocal shardKey)) ∨
      seed = .existingLabels (.array b.labelToId.entries) := by
  rw [serialize, List.filterMap_append, List.mem_append, List.filterMap_map, List.mem_filterMap]
  refine or_congr (exists_congr fun shardKey => and_congr_right fun _ => ?_) ?_
  · simp only [Function.comp_apply, seedOf, hcodec _, Option.some.injEq, eq_comm]
  · simp only [List.filterMap_cons, List.filterMap_nil, seedOf, hcodec _, List.mem_singleton]

theorem WellNumbered.rebuild {b : LogicalBitmapIndexBuilder} (h : b.WellNumbered) {seeds : List Seed}
    (hseeds : Reads codec (b.serialize codec) seeds) :
    PartOf b (seeded seeds) ∧ (seeded seeds).WellNumbered := by
  have hread : ∀ seed ∈ seeds, b.OfBuilder seed := by
    intro seed hseed
    rcases (mem_seeds_iff hcodec b seed).mp ((hseeds seed).mp hseed) with ⟨shardKey, -, rfl⟩ | rfl
    · exact ⟨fun pair => List.mem_insertionSort _, rfl⟩
    · exact rfl
  obtain ⟨hbelow, -, hloaded⟩ : PartOf (seeded seeds) b ∧ _ ∧ _ := h.loadAll (partOf_new b) hread
  have hshard : ∀ shardKey, 0 < b.nextLocal shardKey → (seeded seeds).Loaded (.existingMeta shardKey
      (.array ((b.shardList shardKey).insertionSort fun pair other => pair.1 ≤ other.1)) (b.nextLocal shardKey)) := by
    intro shardKey hpos
    refine hloaded _ ((hseeds _).mpr ((mem_seeds_iff hcodec b _).mpr (Or.inl ⟨shardKey, ?_, rfl⟩)))
    rw [JsMap.mem_keys_iff]
    by_contra hnone
    rw [nextLocal, Option.not_isSome_iff_eq_none.mp hnone] at hpos
    exact lt_irrefl _ hpos
  have hlabels : (seeded seeds).Loaded (.existingLabels (.array b.labelToId.entries)) :=
    hloaded _ ((hseeds _).mpr ((mem_seeds_iff hcodec b _).mpr (Or.inr rfl)))
  have hpair : ∀ node id, b.nodeToGlobal.get node = some id →
      (seeded seeds).nodeToGlobal.get node = some id ∧
        (seeded seeds).globalToNode.get (decimal id) = some node ∧
          (node, id) ∈ (seeded seeds).shardList (computeShardKey node) := by
    intro node id hnode
    obtain ⟨n, hn, -⟩ := h.place node id hnode
    exact (hshard _ (Nat.zero_lt_of_lt hn)).1 (node, id) ((List.mem_insertionSort _).mpr (h.listed node id hnode))
  have hlabel : ∀ label id, b.labelToId.get label = some id →
      (seeded seeds).labelToId.get label = some id ∧ id < (seeded seeds).nextLabelId :=
    fun label id hget => hlabels (label, id) ((JsMap.get_eq_some_iff _ _ _).mp hget)
  have habove : PartOf b (seeded seeds) := by
    constructor
    case nodes => exact fun node id hnode => (hpair node id hnode).1
    case inverse =>
      intro text node htext
      obtain ⟨id, rfl, hnode⟩ := h.inverse_of text node htext
      exact (hpair node id hnode).2.1
    case pairs =>
      intro shardKey pair hmem
      obtain ⟨rfl, hget⟩ := h.pairs shardKey pair hmem
      exact (hpair pair.1 pair.2 hget).2.2
    case next =>
      intro shardKey
      rcases Nat.eq_zero_or_pos (b.nextLocal shardKey) with hzero | hpos
      · rw [hzero]
        exact Nat.zero_le _
      · exact (hshard shardKey hpos).2
    case labels => exact fun label id hget => (hlabel label id hget).1
    case nextLabel =>
      -- the last id that was given is that of a label
      by_contra hless
      obtain ⟨label, hget⟩ := h.label_taken _ (not_le.mp hless)
      exact lt_irrefl _ (hlabel label _ hget).2
  exact ⟨habove, h.of_same hbelow habove⟩

/-! ### Any builds -/

theorem WellNumbered.step {b b' : LogicalBitmapIndexBuilder} (h : b.WellNumbered) (hstep : Step codec b b') :
    PartOf b b' ∧ b'.WellNumbered := by
  cases hstep with
  | registerNode nodeId globalId hregister =>
      rcases registerNode_cases hregister with ⟨-, rfl⟩ | ⟨hnew, hroom, -, rfl⟩
      · exact ⟨PartOf.refl b', h⟩
      · exact ⟨h.partOf_withNode hnew hroom, h.withNode hnew hroom⟩
  | registerLabel label => exact h.registerLabel label
  | rebuild seeds hseeds => exact h.rebuild hcodec hseeds

theorem WellNumbered.run {b b' : LogicalBitmapIndexBuilder} (h : b.WellNumbered)
    (hrun : Relation.ReflTransGen (Step codec) b b') : PartOf b b' ∧ b'.WellNumbered := by
  induction hrun with
  | refl => exact ⟨PartOf.refl b, h⟩
  | tail _ hstep ih =>
      obtain ⟨hkept, hnumbered⟩ := ih.2.step hcodec hstep
      exact ⟨ih.1.trans hkept, hnumbered⟩

theorem Reachable.wellNumbered {b : LogicalBitmapIndexBuilder} (hb : Reachable codec b) : b.WellNumbered :=
  (wellNumbered_new.run hcodec hb).2

end Rebuild

/-- A node that has no id gets none exactly when its shard has given all of its local ids. -/
theorem WellNumbered.overflow_iff {b : LogicalBitmapIndexBuilder} (h : b.WellNumbered) {nodeId : JsString}
    (hnew : b.nodeToGlobal.get nodeId = none) :
    (∃ message, b.registerNode nodeId = .error ⟨"ShardIdOverflowError", message⟩) ↔
      ∀ n, n < maxLocalId → ∃ other, computeShardKey other = computeShardKey nodeId ∧
        b.nodeToGlobal.get other = some (globalIdOf (shardByte (computeShardKey nodeId)) n) := by
  constructor
  · rintro ⟨message, herror⟩ n hn
    refine h.taken _ n (hn.trans_le ?_)
    by_contra hroom
    rw [registerNode_of_room hnew (not_le.mp hroom)] at herror
    cases herror
  · intro htaken
    have hfull : maxLocalId ≤ b.nextLocal (computeShardKey nodeId) := by
      by_contra hroom
      obtain ⟨other, -, hget⟩ := htaken _ (not_le.mp hroom)
      exact h.fresh (not_le.mp hroom) other hget
    exact ⟨_, registerNode_of_full hnew hfull⟩

/-! ### The service -/

section Service

open ExceptLoops

variable {V : Type}

/-- The labels of the visible edges, as `build` registers them. -/
def labelsOf (state : WarpStateV5 V) : List JsString :=
  let visible := (visibleEdges state).insertionSort fun a b => compareEdges a b ≤ 0
  (JsSet.ofList (visible.map EdgeRef.label)).elems.insertionSort (· ≤ ·)

/-- `build(state, { existingMeta, existingLabels })`, as far as ids go. -/
def buildIds (seeds : List Seed) (state : WarpStateV5 V) : Except JsError LogicalBitmapIndexBuilder := do
  let aliveNodes := (orsetElements state.nodeAlive).insertionSort (· ≤ ·)
  let registered ← aliveNodes.foldlM (fun b nodeId => do
    let result ← b.registerNode nodeId
    return result.2) (seeded seeds)
  return (labelsOf state).foldl (fun b label => (b.registerLabel label).2) registered

/-- A build that is given what the build before it wrote goes on with its ids. -/
theorem run_buildIds {Buffer : Type} (codec : CodecPort IdShard Buffer) {b b' : LogicalBitmapIndexBuilder}
    {seeds : List Seed} (hseeds : Reads codec (b.serialize codec) seeds) {state : WarpStateV5 V}
    (hbuild : buildIds seeds state = .ok b') : Relation.ReflTransGen (Step codec) b b' := by
  obtain ⟨registered, hregistered, hlabels⟩ := bind_ok_iff.mp hbuild
  cases hlabels
  have hnodes : ∀ (nodes : List JsString) (start : LogicalBitmapIndexBuilder),
      nodes.foldlM (fun b nodeId => do
        let result ← b.registerNode nodeId
        return result.2) start = .ok registered → Relation.ReflTransGen (Step codec) start registered := by
    intro nodes
    induction nodes with
    | nil =>
        intro start h
        cases h
        exact Relation.ReflTransGen.refl
    | cons nodeId nodes ih =>
        intro start h
        rw [List.foldlM_cons] at h
        obtain ⟨next, hnext, hrest⟩ := bind_ok_iff.mp h
        obtain ⟨result, hresult, heq⟩ := bind_ok_iff.mp hnext
        cases heq
        exact Relation.ReflTransGen.head (Step.registerNode nodeId result.1 hresult) (ih result.2 hrest)
  have hlabelled : ∀ (labels : List JsString) (start : LogicalBitmapIndexBuilder),
      Relation.ReflTransGen (Step codec) start (labels.foldl (fun b label => (b.registerLabel label).2) start) := by
    intro labels
    induction labels with
    | nil => exact fun start => Relation.ReflTransGen.refl
    | cons label labels ih => exact fun start => Relation.ReflTransGen.head (Step.registerLabel start label) (ih _)
  exact (Relation.ReflTransGen.head (Step.rebuild b seeds hseeds) (hnodes _ _ hregistered)).trans (hlabelled _ _)

end Service

/-- What `registerLabel` returns is recorded, and is the id of the label already or that of no label. -/
theorem WellNumbered.registerLabel_returns {b : LogicalBitmapIndexBuilder} (h : b.WellNumbered) {label : JsString}
    {id : Nat} {after : LogicalBitmapIndexBuilder} (hregister : b.registerLabel label = (id, after)) :
    after.labelToId.get label = some id ∧
      (b.labelToId.get label = some id ∨ ∀ other, b.labelToId.get other ≠ some id) := by
  unfold LogicalBitmapIndexBuilder.registerLabel at hregister
  cases hlabel : b.labelToId.get label with
  | some existing =>
      rw [hlabel] at hregister
      cases hregister
      exact ⟨hlabel, Or.inl rfl⟩
  | none =>
      rw [hlabel] at hregister
      cases hregister
      exact ⟨JsMap.get_set_self _ _ _, Or.inr fun other hother => lt_irrefl _ (h.label_lt other _ hother)⟩

/-- Over any builds, the maps stay injective, an id that was given stays that of its node or label and becomes that of no
other, and a shard that is full throws: an id that is returned is recorded, and it is new or that of the node or label. A
`build` of a state from what was written keeps all of them. -/
theorem ids_stable {Buffer V : Type} (codec : CodecPort IdShard Buffer) (hcodec : codec.Inverts)
    {b b' : LogicalBitmapIndexBuilder} (hb : Reachable codec b) (hrun : Relation.ReflTransGen (Step codec) b b')
    (state : WarpStateV5 V) :
    (∀ node id, b.nodeToGlobal.get node = some id →
        b'.nodeToGlobal.get node = some id ∧ ∀ other, b'.nodeToGlobal.get other = some id → other = node) ∧
      (∀ label id, b.labelToId.get label = some id →
        b'.labelToId.get label = some id ∧ ∀ other, b'.labelToId.get other = some id → other = label) ∧
      LogicalIndex.Injective b'.nodeToGlobal ∧ LogicalIndex.Injective b'.labelToId ∧
      (∀ node id after, b'.registerNode node = .ok (id, after) → after.nodeToGlobal.get node = some id ∧
        (b'.nodeToGlobal.get node = some id ∨ ∀ other, b'.nodeToGlobal.get other ≠ some id)) ∧
      (∀ label id after, b'.registerLabel label = (id, after) → after.labelToId.get label = some id ∧
        (b'.labelToId.get label = some id ∨ ∀ other, b'.labelToId.get other ≠ some id)) ∧
      (∀ seeds after, Reads codec (b'.serialize codec) seeds → buildIds seeds state = .ok after →
        (∀ node id, b'.nodeToGlobal.get node = some id → after.nodeToGlobal.get node = some id) ∧
          ∀ label id, b'.labelToId.get label = some id → after.labelToId.get label = some id) ∧
      ∀ node, b'.nodeToGlobal.get node = none →
        ((∃ message, b'.registerNode node = .error ⟨"ShardIdOverflowError", message⟩) ↔
          ∀ n, n < maxLocalId → ∃ other, computeShardKey other = computeShardKey node ∧
            b'.nodeToGlobal.get other = some (globalIdOf (shardByte (computeShardKey node)) n)) := by
  obtain ⟨hkept, hnumbered⟩ := (Reachable.wellNumbered hcodec hb).run hcodec hrun
  refine ⟨fun node id hnode => ?_, fun label id hlabel => ?_, hnumbered.injective, hnumbered.label_inj, ?_,
    fun label id after hregister => hnumbered.registerLabel_returns hregister, ?_,
    fun node hnew => hnumbered.overflow_iff hnew⟩
  · have hnow := hkept.nodes node id hnode
    exact ⟨hnow, fun other hother => hnumbered.injective other node id hother hnow⟩
  · have hnow := hkept.labels label id hlabel
    exact ⟨hnow, fun other hother => hnumbered.label_inj other label id hother hnow⟩
  · intro node id after hregister
    rcases registerNode_cases hregister with ⟨hknown, rfl⟩ | ⟨hnew, hroom, rfl, rfl⟩
    · exact ⟨hknown, Or.inl hknown⟩
    · refine ⟨?_, Or.inr (hnumbered.fresh hroom)⟩
      rw [get_withNode, if_pos rfl]
  · intro seeds after hseeds hbuild
    have hlater := (hnumbered.run hcodec (run_buildIds codec hseeds hbuild)).1
    exact ⟨hlater.nodes, hlater.labels⟩

/-- A codec that keeps the data as it is. -/
def plainCodec : CodecPort IdShard IdShard := ⟨id, fun shard => .ok (some shard)⟩

/-- A build with two nodes and two labels. -/
def firstBuild : LogicalBitmapIndexBuilder :=
  ((((new.withNode (js "n")).withNode (js "m")).registerLabel (js "l")).2.registerLabel (js "k")).2

/-- The build after it, which starts from what it wrote. -/
def secondBuild : LogicalBitmapIndexBuilder :=
  seeded ((firstBuild.serialize plainCodec).filterMap (seedOf plainCodec))

theorem reachable_firstBuild : Reachable plainCodec firstBuild := by
  have hroom : new.nextLocal (computeShardKey (js "n")) < maxLocalId := Nat.two_pow_pos 24
  have hroom' : (new.withNode (js "n")).nextLocal (computeShardKey (js "m")) < maxLocalId := by
    have hone : 1 < maxLocalId := Nat.one_lt_two_pow (by decide)
    rw [nextLocal_withNode]
    split
    · exact hone
    · exact Nat.two_pow_pos 24
  have hnew : (new.withNode (js "n")).nodeToGlobal.get (js "m") = none := by
    rw [get_withNode, if_neg (by decide)]
    rfl
  have hfirst : Step plainCodec new (new.withNode (js "n")) :=
    Step.registerNode (js "n") _ (registerNode_of_room rfl hroom)
  have hsecond : Step plainCodec (new.withNode (js "n")) ((new.withNode (js "n")).withNode (js "m")) :=
    Step.registerNode (js "m") _ (registerNode_of_room hnew hroom')
  exact (((Relation.ReflTransGen.single hfirst).tail hsecond).tail (Step.registerLabel _ (js "l"))).tail
    (Step.registerLabel _ (js "k"))

/-- The second build has the ids of both nodes and both labels, and gives the third label an id of its own. -/
theorem ids_stable_rebuilt :
    (∀ node ∈ [js "n", js "m"], ∃ id, firstBuild.nodeToGlobal.get node = some id ∧
        secondBuild.nodeToGlobal.get node = some id) ∧
      (∀ label ∈ [js "l", js "k"], ∃ id, firstBuild.labelToId.get label = some id ∧
        secondBuild.labelToId.get label = some id) ∧
      secondBuild.nodeToGlobal.get (js "n") ≠ secondBuild.nodeToGlobal.get (js "m") ∧
      ∀ other, secondBuild.labelToId.get other ≠ some (secondBuild.registerLabel (js "j")).1 := by
  have hsecond : Relation.ReflTransGen (Step plainCodec) firstBuild secondBuild :=
    Relation.ReflTransGen.single (Step.rebuild _ _ fun _ => Iff.rfl)
  obtain ⟨hnodes, hlabels, hinjective, -, -, hreturns, -⟩ :=
    ids_stable plainCodec (fun _ => rfl) reachable_firstBuild hsecond (createEmptyStateV5 : WarpStateV5 Nat)
  have hn : ∃ id, firstBuild.nodeToGlobal.get (js "n") = some id :=
    ⟨_, (get_withNode _ _).trans ((if_neg (by decide)).trans ((get_withNode _ _).trans (if_pos rfl)))⟩
  have hm : ∃ id, firstBuild.nodeToGlobal.get (js "m") = some id := ⟨_, (get_withNode _ _).trans (if_pos rfl)⟩
  obtain ⟨idN, hidN⟩ := hn
  obtain ⟨idM, hidM⟩ := hm
  have hl : firstBuild.labelToId.get (js "l") = some 0 := rfl
  have hk : firstBuild.labelToId.get (js "k") = some 1 := rfl
  refine ⟨?_, ?_, fun heq => ?_, ?_⟩
  · rw [List.forall_mem_cons, List.forall_mem_singleton]
    exact ⟨⟨idN, hidN, (hnodes _ _ hidN).1⟩, ⟨idM, hidM, (hnodes _ _ hidM).1⟩⟩
  · rw [List.forall_mem_cons, List.forall_mem_singleton]
    exact ⟨⟨0, hl, (hlabels _ _ hl).1⟩, ⟨1, hk, (hlabels _ _ hk).1⟩⟩
  · rw [(hnodes _ _ hidN).1] at heq
    exact absurd (hinjective _ _ _ (hnodes _ _ hidN).1 heq.symm) (by decide)
  · have hj : secondBuild.labelToId.get (js "j") = none := rfl
    rcases (hreturns (js "j") _ _ rfl).2 with hknown | hfresh
    · rw [hj] at hknown
      cases hknown
    · exact hfresh

end LogicalBitmapIndexBuilder

end GitWarp
