import GitWarp.StateSerializer

/-! The logical bitmap index. Nodes get global ids, labels get label ids, and a bitmap for a label and a node holds
the ids of its neighbours. The shards are kept as the data that they are decoded to, a bitmap as the set of its ids. -/

namespace GitWarp
open Js ExceptLoops

variable {V : Type}

/-- `'outgoing' | 'incoming'` -/
inductive EdgeDirection where
  | outgoing
  | incoming
  deriving DecidableEq

/-- The bitmaps by bucket and owner; the bucket `none` is `all`. -/
abbrev BitmapStore := JsMap (Option Nat × Nat) (JsSet Nat)

structure LogicalIndex where
  nodeToGlobal : JsMap JsString Nat
  shardNextLocal : JsMap (Fin 256) Nat
  aliveBitmaps : JsMap (Fin 256) (JsSet Nat)
  labelToId : JsMap JsString Nat
  nextLabelId : Nat
  fwdBitmaps : BitmapStore
  revBitmaps : BitmapStore

/-- `MAX_LOCAL_ID` -/
def maxLocalId : Nat := 2 ^ 24

namespace LogicalIndex

def empty : LogicalIndex := ⟨JsMap.empty, JsMap.empty, JsMap.empty, JsMap.empty, 0, JsMap.empty, JsMap.empty⟩

section Build

variable (computeShardKey : JsString → Fin 256)

def nextLocal (index : LogicalIndex) (shard : Fin 256) : Nat := (index.shardNextLocal.get shard).getD 0

def registerNode (index : LogicalIndex) (nodeId : JsString) : Except JsError LogicalIndex :=
  if index.nodeToGlobal.has nodeId then .ok index
  else
    let shard := computeShardKey nodeId
    let localId := index.nextLocal shard
    if maxLocalId ≤ localId then thrown s!"Shard '{shard}' exceeded max local ID ({maxLocalId})"
    else .ok { index with
      nodeToGlobal := index.nodeToGlobal.set nodeId (shard * maxLocalId + localId)
      shardNextLocal := index.shardNextLocal.set shard (localId + 1) }

def markAlive (index : LogicalIndex) (nodeId : JsString) : LogicalIndex :=
  match index.nodeToGlobal.get nodeId with
  | none => index
  | some globalId =>
      let shard := computeShardKey nodeId
      { index with
        aliveBitmaps := index.aliveBitmaps.set shard (((index.aliveBitmaps.get shard).getD JsSet.empty).add globalId) }

def registerLabel (index : LogicalIndex) (label : JsString) : LogicalIndex :=
  if index.labelToId.has label then index
  else { index with
    labelToId := index.labelToId.set label index.nextLabelId
    nextLabelId := index.nextLabelId + 1 }

def addToBitmap (store : BitmapStore) (key : Option Nat × Nat) (target : Nat) : BitmapStore :=
  store.set key (((store.get key).getD JsSet.empty).add target)

def addEdge (index : LogicalIndex) (edge : EdgeRef) : LogicalIndex :=
  match index.nodeToGlobal.get edge.fromId, index.nodeToGlobal.get edge.toId, index.labelToId.get edge.label with
  | some fromGlobal, some toGlobal, some labelId =>
      { index with
        fwdBitmaps := addToBitmap (addToBitmap index.fwdBitmaps (none, fromGlobal) toGlobal)
          (some labelId, fromGlobal) toGlobal
        revBitmaps := addToBitmap (addToBitmap index.revBitmaps (none, toGlobal) fromGlobal)
          (some labelId, toGlobal) fromGlobal }
  | _, _, _ => index

/-- `build(state)`; what is loaded from its shards has the same contents. -/
def build (state : WarpStateV5 V) : Except JsError LogicalIndex := do
  let aliveNodes := (orsetElements state.nodeAlive).insertionSort (· ≤ ·)
  let registered ← aliveNodes.foldlM (fun index nodeId => do
    let index ← registerNode computeShardKey index nodeId
    return markAlive computeShardKey index nodeId) empty
  let visible := (visibleEdges state).insertionSort fun a b => compareEdges a b ≤ 0
  let uniqueLabels := (JsSet.ofList (visible.map EdgeRef.label)).elems.insertionSort (· ≤ ·)
  return visible.foldl addEdge (uniqueLabels.foldl registerLabel registered)

end Build

/-- The key under which a map holds a value, as `_globalToNode` and `_idToLabel` have it. -/
def keyOf (map : JsMap JsString Nat) (id : Nat) : Option JsString :=
  (map.entries.find? fun entry => entry.2 = id).map Prod.fst

def isAlive (computeShardKey : JsString → Fin 256) (index : LogicalIndex) (nodeId : JsString) : Bool :=
  match index.nodeToGlobal.get nodeId with
  | none => false
  | some globalId => ((index.aliveBitmaps.get (computeShardKey nodeId)).getD JsSet.empty).has globalId

/-- The neighbours in a bitmap; `if (neighborId)` passes over an empty id. -/
def expandBitmap (index : LogicalIndex) (bitmap : JsSet Nat) (label : JsString) : List NeighborEntry :=
  bitmap.elems.filterMap fun neighborGid =>
    match keyOf index.nodeToGlobal neighborGid with
    | none => none
    | some neighborId => if neighborId = [] then none else some ⟨neighborId, label⟩

def store (index : LogicalIndex) : EdgeDirection → BitmapStore
  | .outgoing => index.fwdBitmaps
  | .incoming => index.revBitmaps

/-- `resolveAllLabels`: the buckets of labels that the node owns. -/
def resolveAllLabels (index : LogicalIndex) (direction : EdgeDirection) (gid : Nat) : List NeighborEntry :=
  (index.store direction).entries.flatMap fun entry =>
    match entry.1 with
    | (some labelId, owner) =>
        if owner = gid then index.expandBitmap entry.2 ((keyOf index.labelToId labelId).getD []) else []
    | (none, _) => []

def getEdges (index : LogicalIndex) (nodeId : JsString) (direction : EdgeDirection)
    (filterLabelIds : Option (List Nat)) : List NeighborEntry :=
  match index.nodeToGlobal.get nodeId with
  | none => []
  | some gid =>
      match filterLabelIds with
      | none => index.resolveAllLabels direction gid
      | some labelIds => labelIds.flatMap fun labelId =>
          match (index.store direction).get (some labelId, gid) with
          | none => []
          | some bitmap => index.expandBitmap bitmap ((keyOf index.labelToId labelId).getD [])

/-- `_getLogicalNeighbors` in one direction, with the labels that are asked for. -/
def getNeighbors (index : LogicalIndex) (nodeId : JsString) (direction : EdgeDirection)
    (labels : Option (List JsString)) : List NeighborEntry :=
  match labels with
  | none => sortNeighbors (index.getEdges nodeId direction none)
  | some labels =>
      let labelIds := labels.filterMap index.labelToId.get
      if labelIds = [] then [] else sortNeighbors (index.getEdges nodeId direction (some labelIds))

end LogicalIndex

/-! ### What a built index holds -/

namespace LogicalIndex

/-- The index has the target in the bitmap under the key. -/
def InBitmap (store : BitmapStore) (key : Option Nat × Nat) (target : Nat) : Prop :=
  target ∈ (store.get key).getD JsSet.empty

/-- A bitmap takes what is added to it, and the others stay as they are. -/
theorem mem_set_add {K : Type} [DecidableEq K] (bitmaps : JsMap K (JsSet Nat)) (key key' : K) (target target' : Nat) :
    target' ∈ ((bitmaps.set key (((bitmaps.get key).getD JsSet.empty).add target)).get key').getD JsSet.empty ↔
      target' ∈ (bitmaps.get key').getD JsSet.empty ∨ (key' = key ∧ target' = target) := by
  rw [JsMap.get_set]
  by_cases heq : key' = key
  · subst heq
    rw [if_pos rfl, Option.getD_some, JsSet.mem_add, or_comm, and_iff_right rfl]
  · rw [if_neg heq]
    exact (or_iff_left fun h => heq h.1).symm

theorem inBitmap_addToBitmap (store : BitmapStore) (key key' : Option Nat × Nat) (target target' : Nat) :
    InBitmap (addToBitmap store key target) key' target' ↔
      InBitmap store key' target' ∨ (key' = key ∧ target' = target) :=
  mem_set_add store key key' target target'

/-- Different keys have different values. -/
def Injective (map : JsMap JsString Nat) : Prop :=
  ∀ a b id, map.get a = some id → map.get b = some id → a = b

theorem keyOf_eq_some_iff {map : JsMap JsString Nat} (hinj : Injective map) (id : Nat) (key : JsString) :
    keyOf map id = some key ↔ map.get key = some id := by
  unfold keyOf
  constructor
  · intro h
    obtain ⟨⟨key', id'⟩, hfind, rfl⟩ := Option.map_eq_some_iff.mp h
    have hfound := List.find?_some hfind
    have hid : id' = id := of_decide_eq_true hfound
    rw [JsMap.get_eq_some_iff, ← hid]
    exact List.mem_of_find?_eq_some hfind
  · intro h
    have hmem : (key, id) ∈ map.entries := (JsMap.get_eq_some_iff _ _ _).mp h
    have hsome : (map.entries.find? fun entry => entry.2 = id).isSome :=
      List.find?_isSome.mpr ⟨(key, id), hmem, decide_eq_true rfl⟩
    obtain ⟨⟨key', id'⟩, hfind⟩ := Option.isSome_iff_exists.mp hsome
    have hfound := List.find?_some hfind
    have hid : id' = id := of_decide_eq_true hfound
    have hget : map.get key' = some id' := (JsMap.get_eq_some_iff _ _ _).mpr (List.mem_of_find?_eq_some hfind)
    rw [hid] at hget
    rw [hfind, Option.map_some, hinj key' key id hget h]

section Nodes

variable {computeShardKey : JsString → Fin 256}

/-- What the registration of some nodes has made. -/
structure Registered (computeShardKey : JsString → Fin 256) (index : LogicalIndex) (nodes : List JsString) : Prop where
  known : ∀ node, (index.nodeToGlobal.get node).isSome ↔ node ∈ nodes
  place : ∀ node id, index.nodeToGlobal.get node = some id →
    ∃ n, n < index.nextLocal (computeShardKey node) ∧ id = computeShardKey node * maxLocalId + n
  bound : ∀ shard, index.nextLocal shard ≤ maxLocalId
  injective : Injective index.nodeToGlobal
  alive : ∀ node id, index.nodeToGlobal.get node = some id →
    id ∈ (index.aliveBitmaps.get (computeShardKey node)).getD JsSet.empty
  labels : index.labelToId = JsMap.empty
  bitmaps : index.fwdBitmaps = JsMap.empty ∧ index.revBitmaps = JsMap.empty

theorem registered_empty : Registered computeShardKey empty [] where
  known _ := iff_of_false nofun List.not_mem_nil
  place := nofun
  bound _ := Nat.zero_le _
  injective := nofun
  alive := nofun
  labels := rfl
  bitmaps := ⟨rfl, rfl⟩

theorem place_inj {s s' : Fin 256} {n n' : Nat} (hn : n < maxLocalId) (hn' : n' < maxLocalId)
    (h : s * maxLocalId + n = s' * maxLocalId + n') : s = s' ∧ n = n' := by
  unfold maxLocalId at hn hn' h
  exact ⟨Fin.ext (by omega), by omega⟩

/-- The next id of a shard is that of no node. -/
theorem Registered.fresh {index : LogicalIndex} {nodes : List JsString} (h : Registered computeShardKey index nodes)
    {shard : Fin 256} (hroom : index.nextLocal shard < maxLocalId) (node : JsString) :
    index.nodeToGlobal.get node ≠ some (shard * maxLocalId + index.nextLocal shard) := by
  intro hnode
  obtain ⟨n, hn, hid⟩ := h.place node _ hnode
  obtain ⟨hshard, hsame⟩ := place_inj hroom (hn.trans_le (h.bound _)) hid
  rw [← hshard, ← hsame] at hn
  exact lt_irrefl _ hn

/-- A node that is registered is marked once more. -/
theorem Registered.mark {index : LogicalIndex} {nodes : List JsString} (h : Registered computeShardKey index nodes)
    {node : JsString} {id : Nat} (hid : index.nodeToGlobal.get node = some id) :
    Registered computeShardKey (markAlive computeShardKey index node) (node :: nodes) := by
  have hknown : node ∈ nodes := (h.known node).mp (Option.isSome_iff_exists.mpr ⟨id, hid⟩)
  unfold markAlive
  rw [hid]
  refine ⟨fun other => ?_, h.place, h.bound, h.injective, fun other id' hother => ?_, h.labels, h.bitmaps⟩
  · rw [h.known, List.mem_cons]
    exact (or_iff_right_of_imp fun heq => heq ▸ hknown).symm
  · exact (mem_set_add ..).mpr (.inl (h.alive other id' hother))

/-- A node that is new takes the next local id of its shard. -/
theorem Registered.register {index index' : LogicalIndex} {nodes : List JsString}
    (h : Registered computeShardKey index nodes) {node : JsString}
    (hregister : registerNode computeShardKey index node = .ok index') :
    Registered computeShardKey (markAlive computeShardKey index' node) (node :: nodes) := by
  unfold registerNode at hregister
  split at hregister
  · rename_i hhas
    cases hregister
    have hsome : (index.nodeToGlobal.get node).isSome := by rwa [JsMap.has_iff_mem_keys, JsMap.mem_keys_iff] at hhas
    obtain ⟨id, hid⟩ := Option.isSome_iff_exists.mp hsome
    exact h.mark hid
  · dsimp only at hregister
    split at hregister
    · cases hregister
    · rename_i hroom
      cases hregister
      let shard := computeShardKey node
      let id := shard * maxLocalId + index.nextLocal shard
      have hget : ∀ other, (index.nodeToGlobal.set node id).get other =
          if other = node then some id else index.nodeToGlobal.get other := fun other => JsMap.get_set _ _ _ _
      have hnext : ∀ s, ((index.shardNextLocal.set shard (index.nextLocal shard + 1)).get s).getD 0 =
          if s = shard then index.nextLocal shard + 1 else index.nextLocal s := by
        intro s
        rw [JsMap.get_set]
        split <;> rfl
      have hfresh : ∀ other, index.nodeToGlobal.get other ≠ some id := h.fresh (not_le.mp hroom)
      have hmark : markAlive computeShardKey { index with
          nodeToGlobal := index.nodeToGlobal.set node id
          shardNextLocal := index.shardNextLocal.set shard (index.nextLocal shard + 1) } node = { index with
          nodeToGlobal := index.nodeToGlobal.set node id
          shardNextLocal := index.shardNextLocal.set shard (index.nextLocal shard + 1)
          aliveBitmaps := index.aliveBitmaps.set shard (((index.aliveBitmaps.get shard).getD JsSet.empty).add id) } := by
        unfold markAlive
        rw [hget, if_pos rfl]
      show Registered computeShardKey (markAlive computeShardKey { index with
          nodeToGlobal := index.nodeToGlobal.set node id
          shardNextLocal := index.shardNextLocal.set shard (index.nextLocal shard + 1) } node) (node :: nodes)
      rw [hmark]
      refine ⟨fun other => ?_, fun other id' hother => ?_, fun s => ?_, fun a b id' ha hb => ?_, fun other id' hother => ?_,
        h.labels, h.bitmaps⟩
      · rw [hget, List.mem_cons]
        split
        · rename_i heq
          exact iff_of_true rfl (Or.inl heq)
        · rename_i hne
          rw [h.known]
          exact (or_iff_right hne).symm
      · rw [hget] at hother
        show ∃ n, n < ((index.shardNextLocal.set shard _).get _).getD 0 ∧ _
        rw [hnext]
        split at hother
        · rename_i heq
          cases hother
          rw [heq, if_pos rfl]
          exact ⟨index.nextLocal shard, Nat.lt_succ_self _, rfl⟩
        · obtain ⟨n, hn, hid⟩ := h.place other id' hother
          refine ⟨n, ?_, hid⟩
          split
          · rename_i hshard
            rw [hshard] at hn
            omega
          · exact hn
      · show ((index.shardNextLocal.set shard _).get s).getD 0 ≤ _
        rw [hnext]
        split
        · exact not_le.mp hroom
        · exact h.bound s
      · rw [hget] at ha hb
        split at ha
        · rename_i heq
          cases ha
          split at hb
          · rename_i heq'
            rw [heq, heq']
          · exact absurd hb (hfresh b)
        · split at hb
          · cases hb
            exact absurd ha (hfresh a)
          · exact h.injective a b id' ha hb
      · rw [hget] at hother
        refine (mem_set_add ..).mpr ?_
        split at hother
        · rename_i heq
          cases hother
          exact .inr ⟨congrArg computeShardKey heq, rfl⟩
        · exact .inl (h.alive other id' hother)

/-- All nodes of a list are registered. -/
theorem Registered.registerAll {index index' : LogicalIndex} {nodes : List JsString}
    (h : Registered computeShardKey index nodes) {more : List JsString} (hall : more.foldlM (fun index nodeId => do
      let index ← registerNode computeShardKey index nodeId
      return markAlive computeShardKey index nodeId) index = .ok index') :
    ∃ nodes', Registered computeShardKey index' nodes' ∧ ∀ node, node ∈ nodes' ↔ node ∈ nodes ∨ node ∈ more := by
  induction more generalizing index nodes with
  | nil =>
      cases hall
      exact ⟨nodes, h, fun node => by simp⟩
  | cons node more ih =>
      rw [List.foldlM_cons] at hall
      obtain ⟨marked, hmarked, hrest⟩ := bind_ok_iff.mp hall
      obtain ⟨registered, hregister, hmarked⟩ := bind_ok_iff.mp hmarked
      cases hmarked
      obtain ⟨nodes', hnodes', hmem⟩ := ih (h.register hregister) hrest
      refine ⟨nodes', hnodes', fun other => ?_⟩
      rw [hmem, List.mem_cons, List.mem_cons, or_assoc, or_left_comm]

end Nodes

/-- What the registration of some labels has made of an index. -/
structure Labelled (before index : LogicalIndex) (labels : List JsString) : Prop where
  known : ∀ label ∈ labels, (index.labelToId.get label).isSome
  below : ∀ label id, index.labelToId.get label = some id → id < index.nextLabelId
  injective : Injective index.labelToId
  frame : index.nodeToGlobal = before.nodeToGlobal ∧ index.aliveBitmaps = before.aliveBitmaps ∧
    index.fwdBitmaps = before.fwdBitmaps ∧ index.revBitmaps = before.revBitmaps

theorem Labelled.register {before index : LogicalIndex} {labels : List JsString} (h : Labelled before index labels)
    (label : JsString) : Labelled before (registerLabel index label) (label :: labels) := by
  unfold registerLabel
  split
  · rename_i hhas
    rw [JsMap.has_iff_mem_keys, JsMap.mem_keys_iff] at hhas
    exact ⟨fun other hother => (List.mem_cons.mp hother).elim (fun heq => heq ▸ hhas) (h.known other), h.below,
      h.injective, h.frame⟩
  · have hget : ∀ other, (index.labelToId.set label index.nextLabelId).get other =
        if other = label then some index.nextLabelId else index.labelToId.get other := fun other => JsMap.get_set _ _ _ _
    refine ⟨fun other hother => ?_, fun other id hid => ?_, fun a b id ha hb => ?_, h.frame⟩
    · show ((index.labelToId.set label index.nextLabelId).get other).isSome
      rw [hget]
      split
      · rfl
      · rename_i hne
        exact h.known other ((List.mem_cons.mp hother).resolve_left hne)
    · show id < index.nextLabelId + 1
      rw [hget] at hid
      split at hid
      · cases hid
        exact Nat.lt_succ_self _
      · exact (h.below other id hid).trans (Nat.lt_succ_self _)
    · rw [hget] at ha hb
      split at ha
      · rename_i heq
        cases ha
        split at hb
        · rename_i heq'
          rw [heq, heq']
        · exact absurd (h.below b _ hb) (lt_irrefl _)
      · split at hb
        · cases hb
          exact absurd (h.below a _ ha) (lt_irrefl _)
        · exact h.injective a b id ha hb

theorem Labelled.registerAll {before index : LogicalIndex} {labels : List JsString} (h : Labelled before index labels)
    (more : List JsString) : ∃ labels', Labelled before (more.foldl registerLabel index) labels' ∧
      ∀ label, label ∈ labels ∨ label ∈ more → label ∈ labels' := by
  induction more generalizing index labels with
  | nil => exact ⟨labels, h, fun label hlabel => hlabel.resolve_right List.not_mem_nil⟩
  | cons head more ih =>
      obtain ⟨labels', hlabels', hmem⟩ := ih (h.register head)
      refine ⟨labels', hlabels', fun label hlabel => hmem label ?_⟩
      rw [List.mem_cons] at hlabel ⊢
      rwa [or_assoc, or_left_comm]

/-! ### The bitmaps -/

/-- The end of an edge that owns its entry in the bitmaps of a direction. -/
def owner (direction : EdgeDirection) (edge : EdgeRef) : JsString :=
  match direction with
  | .outgoing => edge.fromId
  | .incoming => edge.toId

/-- The end of an edge that is in the bitmaps of a direction. -/
def target (direction : EdgeDirection) (edge : EdgeRef) : JsString :=
  match direction with
  | .outgoing => edge.toId
  | .incoming => edge.fromId

/-- The ids of the label and the ends of an edge. -/
def HasIds (index : LogicalIndex) (direction : EdgeDirection) (edge : EdgeRef) (labelId gid id : Nat) : Prop :=
  index.labelToId.get edge.label = some labelId ∧ index.nodeToGlobal.get (owner direction edge) = some gid ∧
    index.nodeToGlobal.get (target direction edge) = some id

theorem addEdge_frame (index : LogicalIndex) (edge : EdgeRef) : (addEdge index edge).nodeToGlobal = index.nodeToGlobal ∧
    (addEdge index edge).aliveBitmaps = index.aliveBitmaps ∧ (addEdge index edge).labelToId = index.labelToId := by
  unfold addEdge
  split <;> exact ⟨rfl, rfl, rfl⟩

/-- The bucket `all` is not that of a label. -/
theorem inBitmap_addBoth (store : BitmapStore) (labelId labelId' gid gid' id id' : Nat) :
    InBitmap (addToBitmap (addToBitmap store (none, gid) id) (some labelId, gid) id) (some labelId', gid') id' ↔
      InBitmap store (some labelId', gid') id' ∨ (labelId' = labelId ∧ gid' = gid ∧ id' = id) := by
  have hall : ¬ ((some labelId', gid') = ((none : Option Nat), gid) ∧ id' = id) := nofun
  rw [inBitmap_addToBitmap, inBitmap_addToBitmap, or_iff_left hall, Prod.mk.injEq, Option.some.injEq, and_assoc]

theorem inBitmap_addEdge (index : LogicalIndex) (edge : EdgeRef) (direction : EdgeDirection) (labelId gid id : Nat) :
    InBitmap ((addEdge index edge).store direction) (some labelId, gid) id ↔
      InBitmap (index.store direction) (some labelId, gid) id ∨ HasIds index direction edge labelId gid id := by
  unfold addEdge
  split
  · rename_i fromGlobal toGlobal label hfrom hto hlabel
    have hids : HasIds index direction edge labelId gid id ↔ labelId = label ∧
        gid = (match direction with | .outgoing => fromGlobal | .incoming => toGlobal) ∧
          id = (match direction with | .outgoing => toGlobal | .incoming => fromGlobal) := by
      cases direction <;>
        simp only [HasIds, owner, target, hfrom, hto, hlabel, Option.some.injEq, eq_comm]
    rw [hids]
    cases direction with
    | outgoing => exact inBitmap_addBoth index.fwdBitmaps label labelId fromGlobal gid toGlobal id
    | incoming => exact inBitmap_addBoth index.revBitmaps label labelId toGlobal gid fromGlobal id
  · rename_i hmissing
    refine (or_iff_left ?_).symm
    rintro ⟨hlabel, howner, htarget⟩
    cases direction with
    | outgoing => exact hmissing _ _ _ howner htarget hlabel
    | incoming => exact hmissing _ _ _ htarget howner hlabel

/-- The bitmaps hold the edges that were added. -/
theorem inBitmap_addAll (edges : List EdgeRef) (index : LogicalIndex) (direction : EdgeDirection) (labelId gid id : Nat) :
    InBitmap ((edges.foldl addEdge index).store direction) (some labelId, gid) id ↔
      InBitmap (index.store direction) (some labelId, gid) id ∨
        ∃ edge ∈ edges, HasIds index direction edge labelId gid id := by
  induction edges generalizing index with
  | nil => simp
  | cons edge edges ih =>
      have hids : ∀ other, HasIds (addEdge index edge) direction other labelId gid id ↔
          HasIds index direction other labelId gid id := by
        intro other
        obtain ⟨hnodes, -, hlabels⟩ := addEdge_frame index edge
        unfold HasIds
        rw [hnodes, hlabels]
      rw [List.foldl_cons, ih, inBitmap_addEdge, or_assoc, List.exists_mem_cons_iff]
      simp only [hids]

theorem addAll_frame (edges : List EdgeRef) (index : LogicalIndex) :
    (edges.foldl addEdge index).nodeToGlobal = index.nodeToGlobal ∧
      (edges.foldl addEdge index).aliveBitmaps = index.aliveBitmaps ∧
        (edges.foldl addEdge index).labelToId = index.labelToId := by
  induction edges generalizing index with
  | nil => exact ⟨rfl, rfl, rfl⟩
  | cons edge edges ih =>
      obtain ⟨hnodes, halive, hlabels⟩ := addEdge_frame index edge
      obtain ⟨hnodes', halive', hlabels'⟩ := ih (addEdge index edge)
      exact ⟨hnodes'.trans hnodes, halive'.trans halive, hlabels'.trans hlabels⟩

/-- The index is that of the visible graph of a state. -/
structure IndexOf (computeShardKey : JsString → Fin 256) (state : WarpStateV5 V) (index : LogicalIndex) : Prop where
  alive : ∀ node, index.isAlive computeShardKey node = orsetContains state.nodeAlive node
  known : ∀ node, (index.nodeToGlobal.get node).isSome ↔ orsetContains state.nodeAlive node = true
  nodes : Injective index.nodeToGlobal
  labels : Injective index.labelToId
  labelled : ∀ edge ∈ visibleEdges state, (index.labelToId.get edge.label).isSome
  bitmaps : ∀ direction labelId gid id, InBitmap (index.store direction) (some labelId, gid) id ↔
    ∃ edge ∈ visibleEdges state, HasIds index direction edge labelId gid id

/-- An index that is built is that of the visible graph. -/
theorem indexOf_build {computeShardKey : JsString → Fin 256} {state : WarpStateV5 V} {index : LogicalIndex}
    (h : build computeShardKey state = .ok index) : IndexOf computeShardKey state index := by
  unfold build at h
  obtain ⟨registered, hregistered, h⟩ := bind_ok_iff.mp h
  cases h
  obtain ⟨nodes, hnodes, hmem⟩ := registered_empty.registerAll hregistered
  let visible := (visibleEdges state).insertionSort fun a b => compareEdges a b ≤ 0
  let uniqueLabels := (JsSet.ofList (visible.map EdgeRef.label)).elems.insertionSort (· ≤ ·)
  have hstart : Labelled registered registered [] := by
    refine ⟨nofun, fun label id hid => ?_, fun a b id ha => ?_, rfl, rfl, rfl, rfl⟩
    · rw [hnodes.labels] at hid
      cases hid
    · rw [hnodes.labels] at ha
      cases ha
  obtain ⟨labels, hlabels, hknown⟩ := hstart.registerAll uniqueLabels
  obtain ⟨hnodeFrame, haliveFrame, hlabelFrame⟩ := addAll_frame visible (uniqueLabels.foldl registerLabel registered)
  obtain ⟨hnodeFrame', haliveFrame', hfwd, hrev⟩ := hlabels.frame
  have hget : (visible.foldl addEdge (uniqueLabels.foldl registerLabel registered)).nodeToGlobal =
      registered.nodeToGlobal := hnodeFrame.trans hnodeFrame'
  have hknownNode : ∀ node, (registered.nodeToGlobal.get node).isSome ↔ orsetContains state.nodeAlive node = true := by
    intro node
    rw [hnodes.known, hmem, List.mem_insertionSort, mem_orsetElements]
    exact or_iff_right List.not_mem_nil
  refine ⟨fun node => ?_, fun node => ?_, ?_, ?_, fun edge hedge => ?_, fun direction labelId gid id => ?_⟩
  · show isAlive computeShardKey (visible.foldl addEdge (uniqueLabels.foldl registerLabel registered)) node = _
    unfold isAlive
    rw [hget, haliveFrame, haliveFrame', Bool.eq_iff_iff, ← hknownNode]
    cases hid : registered.nodeToGlobal.get node with
    | none => exact iff_of_false nofun nofun
    | some id => exact iff_of_true ((JsSet.has_iff _ _).mpr (hnodes.alive node id hid)) rfl
  · exact hget ▸ hknownNode node
  · exact hget ▸ hnodes.injective
  · exact hlabelFrame ▸ hlabels.injective
  · show ((visible.foldl addEdge (uniqueLabels.foldl registerLabel registered)).labelToId.get edge.label).isSome
    rw [hlabelFrame]
    refine hlabels.known _ (hknown _ (Or.inr ((List.mem_insertionSort _).mpr ((JsSet.mem_ofList _ _).mpr ?_))))
    exact List.mem_map_of_mem ((List.mem_insertionSort _).mpr hedge)
  · show InBitmap ((visible.foldl addEdge (uniqueLabels.foldl registerLabel registered)).store direction) _ _ ↔ _
    have hnothing : ¬ InBitmap ((uniqueLabels.foldl registerLabel registered).store direction) (some labelId, gid) id := by
      cases direction with
      | outgoing =>
          show ¬ InBitmap (uniqueLabels.foldl registerLabel registered).fwdBitmaps _ _
          rw [hfwd, hnodes.bitmaps.1]
          exact List.not_mem_nil
      | incoming =>
          show ¬ InBitmap (uniqueLabels.foldl registerLabel registered).revBitmaps _ _
          rw [hrev, hnodes.bitmaps.2]
          exact List.not_mem_nil
    rw [inBitmap_addAll, or_iff_right hnothing]
    refine exists_congr fun edge => and_congr (List.mem_insertionSort _) ?_
    show HasIds _ _ _ _ _ _ ↔ HasIds (visible.foldl addEdge (uniqueLabels.foldl registerLabel registered)) _ _ _ _ _
    unfold HasIds
    rw [hnodeFrame, hlabelFrame]

/-! ### Reading the index -/

/-- A visible edge leads from the node to the neighbour in the direction. -/
def Leads (state : WarpStateV5 V) (direction : EdgeDirection) (nodeId : JsString) (entry : NeighborEntry) : Prop :=
  ∃ edge ∈ visibleEdges state, owner direction edge = nodeId ∧ target direction edge = entry.neighborId ∧
    edge.label = entry.label

theorem ends_of_visible {state : WarpStateV5 V} {edge : EdgeRef} (h : edge ∈ visibleEdges state) :
    orsetContains state.nodeAlive edge.fromId = true ∧ orsetContains state.nodeAlive edge.toId = true := by
  obtain ⟨key, hkey, rfl⟩ := List.mem_map.mp h
  have hvisible := (List.mem_filter.mp hkey).2
  unfold edgeVisibleV5 at hvisible
  split at hvisible
  · cases hvisible
  · exact (Bool.and_eq_true _ _).mp hvisible

section Reads

variable {computeShardKey : JsString → Fin 256} {state : WarpStateV5 V} {index : LogicalIndex}
  (h : IndexOf computeShardKey state index)

include h

theorem mem_expandBitmap (bitmap : JsSet Nat) (label : JsString) (entry : NeighborEntry) :
    entry ∈ index.expandBitmap bitmap label ↔ entry.label = label ∧ entry.neighborId ≠ [] ∧
      ∃ id ∈ bitmap, index.nodeToGlobal.get entry.neighborId = some id := by
  unfold expandBitmap
  rw [List.mem_filterMap]
  constructor
  · rintro ⟨id, hid, hsome⟩
    split at hsome
    · cases hsome
    · rename_i neighborId hkey
      split at hsome
      · cases hsome
      · rename_i hne
        cases hsome
        exact ⟨rfl, hne, id, hid, (keyOf_eq_some_iff h.nodes id neighborId).mp hkey⟩
  · rintro ⟨rfl, hne, id, hid, hget⟩
    refine ⟨id, hid, ?_⟩
    rw [(keyOf_eq_some_iff h.nodes id entry.neighborId).mpr hget]
    exact if_neg hne

theorem nodup_expandBitmap (bitmap : JsSet Nat) (label : JsString) : (index.expandBitmap bitmap label).Nodup := by
  refine List.Nodup.filterMap (fun id id' entry hid hid' => ?_) bitmap.nodup
  have hget : ∀ id : Nat, entry ∈ (match keyOf index.nodeToGlobal id with
      | none => none
      | some neighborId => if neighborId = [] then none else some (⟨neighborId, label⟩ : NeighborEntry)) →
      index.nodeToGlobal.get entry.neighborId = some id := by
    intro id hsome
    split at hsome
    · cases hsome
    · rename_i neighborId hkey
      split at hsome
      · cases hsome
      · cases hsome
        exact (keyOf_eq_some_iff h.nodes id neighborId).mp hkey
  exact Option.some.inj ((hget id hid).symm.trans (hget id' hid'))

/-- What a bitmap of the node's expands to are its edges with the label. -/
theorem mem_expand_iff {direction : EdgeDirection} {nodeId : JsString} {labelId gid : Nat}
    (hgid : index.nodeToGlobal.get nodeId = some gid) {bitmap : JsSet Nat}
    (hbitmap : (index.store direction).get (some labelId, gid) = some bitmap) (entry : NeighborEntry) :
    entry ∈ index.expandBitmap bitmap ((keyOf index.labelToId labelId).getD []) ↔
      entry.neighborId ≠ [] ∧ index.labelToId.get entry.label = some labelId ∧ Leads state direction nodeId entry := by
  have hin : ∀ id, id ∈ bitmap ↔ ∃ edge ∈ visibleEdges state, HasIds index direction edge labelId gid id := by
    intro id
    rw [← h.bitmaps, InBitmap, hbitmap]
    rfl
  rw [mem_expandBitmap h]
  constructor
  · rintro ⟨hlabel, hne, id, hid, hneighbor⟩
    obtain ⟨edge, hedge, hlabelId, howner, htarget⟩ := (hin id).mp hid
    rw [(keyOf_eq_some_iff h.labels labelId edge.label).mpr hlabelId, Option.getD_some] at hlabel
    refine ⟨hne, hlabel ▸ hlabelId, edge, hedge, h.nodes _ _ gid howner hgid, h.nodes _ _ id htarget hneighbor, hlabel.symm⟩
  · rintro ⟨hne, hlabelId, edge, hedge, howner, htarget, hlabel⟩
    refine ⟨?_, hne, ?_⟩
    · rw [(keyOf_eq_some_iff h.labels labelId entry.label).mpr hlabelId, Option.getD_some]
    · have hends := ends_of_visible hedge
      obtain ⟨id, hid⟩ := Option.isSome_iff_exists.mp ((h.known (target direction edge)).mpr (by
        cases direction with
        | outgoing => exact hends.2
        | incoming => exact hends.1))
      refine ⟨id, (hin id).mpr ⟨edge, hedge, ?_, ?_, hid⟩, htarget ▸ hid⟩
      · rw [hlabel]
        exact hlabelId
      · rw [howner]
        exact hgid

/-- A visible edge of the node has a bitmap. -/
theorem exists_bitmap {direction : EdgeDirection} {nodeId : JsString} {gid : Nat}
    (hgid : index.nodeToGlobal.get nodeId = some gid) {entry : NeighborEntry}
    (hleads : Leads state direction nodeId entry) : ∃ labelId bitmap, index.labelToId.get entry.label = some labelId ∧
      (index.store direction).get (some labelId, gid) = some bitmap := by
  obtain ⟨edge, hedge, howner, htarget, hlabel⟩ := hleads
  obtain ⟨labelId, hlabelId⟩ := Option.isSome_iff_exists.mp (h.labelled edge hedge)
  have hends := ends_of_visible hedge
  obtain ⟨id, hid⟩ := Option.isSome_iff_exists.mp ((h.known (target direction edge)).mpr (by
    cases direction with
    | outgoing => exact hends.2
    | incoming => exact hends.1))
  have hin : InBitmap (index.store direction) (some labelId, gid) id :=
    (h.bitmaps direction labelId gid id).mpr ⟨edge, hedge, hlabelId, by rw [howner]; exact hgid, hid⟩
  cases hbitmap : (index.store direction).get (some labelId, gid) with
  | none =>
      rw [InBitmap, hbitmap] at hin
      exact absurd hin List.not_mem_nil
  | some bitmap => exact ⟨labelId, bitmap, hlabel ▸ hlabelId, hbitmap⟩

/-- Without a filter the index has the edges of the node whose neighbour has an id that is not empty, once each. -/
theorem getEdges_all (direction : EdgeDirection) {nodeId : JsString} {gid : Nat}
    (hgid : index.nodeToGlobal.get nodeId = some gid) : (index.getEdges nodeId direction none).Nodup ∧
      ∀ entry, entry ∈ index.getEdges nodeId direction none ↔
        entry.neighborId ≠ [] ∧ Leads state direction nodeId entry := by
  have hedges : index.getEdges nodeId direction none = index.resolveAllLabels direction gid := by
    unfold getEdges
    rw [hgid]
  have hpart : ∀ stored ∈ (index.store direction).entries, ∀ entry, (entry ∈ (match stored.1 with
      | (some labelId, owner) =>
          if owner = gid then index.expandBitmap stored.2 ((keyOf index.labelToId labelId).getD []) else []
      | (none, _) => [])) → ∃ labelId, stored.1 = (some labelId, gid) ∧
        (index.store direction).get (some labelId, gid) = some stored.2 ∧
        entry ∈ index.expandBitmap stored.2 ((keyOf index.labelToId labelId).getD []) := by
    rintro ⟨⟨bucket, owner⟩, bitmap⟩ hstored entry hentry
    cases bucket with
    | none => cases hentry
    | some labelId =>
        by_cases howner : owner = gid
        · subst howner
          exact ⟨labelId, rfl, (JsMap.get_eq_some_iff _ _ _).mpr hstored, by simpa using hentry⟩
        · simp [howner] at hentry
  rw [hedges]
  refine ⟨?_, fun entry => ?_⟩
  · refine List.nodup_flatMap.mpr ⟨fun stored hstored => ?_, ?_⟩
    · split
      · split
        · exact nodup_expandBitmap h _ _
        · exact List.nodup_nil
      · exact List.nodup_nil
    · have hkeys : (index.store direction).entries.Pairwise fun a b => a.1 ≠ b.1 :=
        List.pairwise_map.mp (index.store direction).nodup
      refine hkeys.imp_of_mem fun {a b} ha hb hne => List.disjoint_left.mpr fun entry hentry hentry' => hne ?_
      obtain ⟨labelId, hkey, hbitmap, hmem⟩ := hpart a ha entry hentry
      obtain ⟨labelId', hkey', hbitmap', hmem'⟩ := hpart b hb entry hentry'
      have hlabel := ((mem_expand_iff h hgid hbitmap entry).mp hmem).2.1
      have hlabel' := ((mem_expand_iff h hgid hbitmap' entry).mp hmem').2.1
      rw [hkey, hkey', Option.some.inj (hlabel.symm.trans hlabel')]
  · unfold resolveAllLabels
    rw [List.mem_flatMap]
    constructor
    · rintro ⟨stored, hstored, hentry⟩
      obtain ⟨labelId, -, hbitmap, hmem⟩ := hpart stored hstored entry hentry
      obtain ⟨hne, -, hleads⟩ := (mem_expand_iff h hgid hbitmap entry).mp hmem
      exact ⟨hne, hleads⟩
    · rintro ⟨hne, hleads⟩
      obtain ⟨labelId, bitmap, hlabelId, hbitmap⟩ := exists_bitmap h hgid hleads
      refine ⟨((some labelId, gid), bitmap), (JsMap.get_eq_some_iff _ _ _).mp hbitmap, ?_⟩
      show entry ∈ if gid = gid then _ else _
      rw [if_pos rfl]
      exact (mem_expand_iff h hgid hbitmap entry).mpr ⟨hne, hlabelId, hleads⟩

/-- With some labels the index has the edges with one of them. -/
theorem getEdges_labels (direction : EdgeDirection) {nodeId : JsString} {gid : Nat} {labelIds : List Nat}
    (hgid : index.nodeToGlobal.get nodeId = some gid) (hnodup : labelIds.Nodup) :
    (index.getEdges nodeId direction (some labelIds)).Nodup ∧
      ∀ entry, entry ∈ index.getEdges nodeId direction (some labelIds) ↔ entry.neighborId ≠ [] ∧
        Leads state direction nodeId entry ∧ ∃ labelId ∈ labelIds, index.labelToId.get entry.label = some labelId := by
  let part (labelId : Nat) : List NeighborEntry :=
    match (index.store direction).get (some labelId, gid) with
    | none => []
    | some bitmap => index.expandBitmap bitmap ((keyOf index.labelToId labelId).getD [])
  have hedges : index.getEdges nodeId direction (some labelIds) = labelIds.flatMap part := by
    simp only [getEdges, hgid, part]
  have hpart : ∀ labelId entry, entry ∈ part labelId ↔ entry.neighborId ≠ [] ∧
      index.labelToId.get entry.label = some labelId ∧ Leads state direction nodeId entry := by
    intro labelId entry
    cases hbitmap : (index.store direction).get (some labelId, gid) with
    | none =>
        simp only [part, hbitmap]
        refine iff_of_false List.not_mem_nil ?_
        rintro ⟨-, hlabel, hleads⟩
        obtain ⟨labelId', bitmap, hlabel', hbitmap'⟩ := exists_bitmap h hgid hleads
        cases hlabel.symm.trans hlabel'
        cases hbitmap.symm.trans hbitmap'
    | some bitmap =>
        simp only [part, hbitmap]
        exact mem_expand_iff h hgid hbitmap entry
  rw [hedges]
  refine ⟨List.nodup_flatMap.mpr ⟨fun labelId _ => ?_, hnodup.imp fun hne => ?_⟩, fun entry => ?_⟩
  · simp only [part]
    split
    · exact List.nodup_nil
    · exact nodup_expandBitmap h _ _
  · refine List.disjoint_left.mpr fun entry hentry hentry' => hne ?_
    exact Option.some.inj (((hpart _ entry).mp hentry).2.1.symm.trans ((hpart _ entry).mp hentry').2.1)
  · rw [List.mem_flatMap]
    constructor
    · rintro ⟨labelId, hlabelId, hentry⟩
      obtain ⟨hne, hlabel, hleads⟩ := (hpart labelId entry).mp hentry
      exact ⟨hne, hleads, labelId, hlabelId, hlabel⟩
    · rintro ⟨hne, hleads, labelId, hlabelId, hlabel⟩
      exact ⟨labelId, hlabelId, (hpart labelId entry).mpr ⟨hne, hlabel, hleads⟩⟩

/-- With a label the index has the edges with the label. -/
theorem getEdges_label (direction : EdgeDirection) {nodeId label : JsString} {gid labelId : Nat}
    (hgid : index.nodeToGlobal.get nodeId = some gid) (hlabelId : index.labelToId.get label = some labelId) :
    (index.getEdges nodeId direction (some [labelId])).Nodup ∧
      ∀ entry, entry ∈ index.getEdges nodeId direction (some [labelId]) ↔
        entry.neighborId ≠ [] ∧ Leads state direction nodeId entry ∧ entry.label = label := by
  obtain ⟨hnodup, hmem⟩ := getEdges_labels h direction hgid (List.nodup_singleton labelId)
  refine ⟨hnodup, fun entry => (hmem entry).trans ?_⟩
  refine and_congr_right fun _ => and_congr_right fun _ => ⟨?_, ?_⟩
  · rintro ⟨other, hother, hlabel⟩
    rw [List.mem_singleton.mp hother] at hlabel
    exact h.labels _ _ labelId hlabel hlabelId
  · rintro rfl
    exact ⟨labelId, List.mem_singleton_self _, hlabelId⟩

end Reads

end LogicalIndex

end GitWarp
