import GitWarp.GraphTraversal
import GitWarp.NeighborQueries

/-! The two providers of a logical graph: sorted adjacency lists that are merged for both directions, and the bitmaps
of the index, whose neighbours are sorted when they are asked for. They give the same lists as long as no neighbour
has the empty id, which `expandBitmap` passes over. -/

namespace GitWarp
open Js ExceptLoops

variable {V : Type}

/-! ### Lists of edges -/

def edgeCmp (a b : NeighborEntry) : Int :=
  if a.neighborId < b.neighborId then -1
  else if b.neighborId < a.neighborId then 1
  else if a.label < b.label then -1
  else if b.label < a.label then 1
  else 0

/-- `edges.sort(edgeCmp)`, which `sortEdges` writes out. -/
def sortNeighborEdges (edges : List NeighborEntry) : List NeighborEntry :=
  edges.insertionSort fun a b => edgeCmp a b ≤ 0

/-- An edge is kept if it differs from the one that was kept last. -/
def dedupSorted (edges : List NeighborEntry) : List NeighborEntry :=
  edges.destutter fun prev edge => edge.neighborId ≠ prev.neighborId ∨ edge.label ≠ prev.label

def filterByLabels (edges : List NeighborEntry) (labels : Option (JsSet JsString)) : List NeighborEntry :=
  match labels with
  | none => edges
  | some labels => edges.filter fun edge => labels.has edge.label

def mergeSorted : List NeighborEntry → List NeighborEntry → List NeighborEntry
  | [], b => b
  | a, [] => a
  | edge :: a, other :: b =>
      if edgeCmp edge other < 0 then edge :: mergeSorted a (other :: b)
      else if 0 < edgeCmp edge other then other :: mergeSorted (edge :: a) b
      else edge :: mergeSorted a b
termination_by a b => a.length + b.length

/-! ### The providers -/

structure AdjacencyNeighborProvider where
  outgoing : JsMap JsString (List NeighborEntry)
  incoming : JsMap JsString (List NeighborEntry)
  aliveNodes : JsSet JsString

namespace AdjacencyNeighborProvider

def sortAdjacencyMap (adjMap : JsMap JsString (List NeighborEntry)) : JsMap JsString (List NeighborEntry) :=
  adjMap.mapValues fun _ edges => sortNeighborEdges edges

/-- The provider that `_prepareEngine` makes of the materialized graph. -/
def ofState (state : WarpStateV5 V) : AdjacencyNeighborProvider where
  outgoing := sortAdjacencyMap (buildAdjacency state).outgoing
  incoming := sortAdjacencyMap (buildAdjacency state).incoming
  aliveNodes := JsSet.ofList (orsetElements state.nodeAlive)

def getNeighbors (provider : AdjacencyNeighborProvider) (nodeId : JsString) (direction : Direction)
    (labels : Option (JsSet JsString)) : List NeighborEntry :=
  let outEdges := filterByLabels ((provider.outgoing.get nodeId).getD []) labels
  let inEdges := filterByLabels ((provider.incoming.get nodeId).getD []) labels
  match direction with
  | .out => outEdges
  | .in => inEdges
  | .both => mergeSorted outEdges inEdges

def hasNode (provider : AdjacencyNeighborProvider) (nodeId : JsString) : Bool := provider.aliveNodes.has nodeId

end AdjacencyNeighborProvider

namespace BitmapNeighborProvider

/-- `_getLogicalNeighbors`; a label that the registry does not know has no id. -/
def getNeighbors (logical : LogicalIndex) (nodeId : JsString) (direction : Direction)
    (labels : Option (JsSet JsString)) : List NeighborEntry :=
  let labelIds := labels.map fun labels => labels.elems.filterMap logical.labelToId.get
  if labelIds = some [] then []
  else
    match direction with
    | .both => dedupSorted (sortNeighborEdges
        (logical.getEdges nodeId .outgoing labelIds ++ logical.getEdges nodeId .incoming labelIds))
    | .out => sortNeighborEdges (logical.getEdges nodeId .outgoing labelIds)
    | .in => sortNeighborEdges (logical.getEdges nodeId .incoming labelIds)

def hasNode (computeShardKey : JsString → Fin 256) (logical : LogicalIndex) (nodeId : JsString) : Bool :=
  logical.isAlive computeShardKey nodeId

end BitmapNeighborProvider

/-! ### The order of neighbours -/

/-- What neighbours are ordered by. -/
def NeighborEntry.sortKey (entry : NeighborEntry) : JsString ×ₗ JsString := toLex (entry.neighborId, entry.label)

theorem NeighborEntry.sortKey_injective : Function.Injective NeighborEntry.sortKey := by
  intro a b h
  obtain ⟨neighborId, label⟩ := a
  obtain ⟨neighborId', label'⟩ := b
  simpa [NeighborEntry.sortKey] using h

theorem edgeCmp_neg_iff (a b : NeighborEntry) : edgeCmp a b < 0 ↔ a.sortKey < b.sortKey := by
  unfold edgeCmp NeighborEntry.sortKey
  rw [Prod.Lex.toLex_lt_toLex]
  rcases lt_trichotomy a.neighborId b.neighborId with hlt | heq | hgt
  · simp [hlt]
  · rcases lt_trichotomy a.label b.label with hlt | hsame | hgt
    · simp [heq, hlt]
    · simp [heq, hsame]
    · simp [heq, hgt, hgt.not_gt]
  · simp [hgt, hgt.not_gt, hgt.ne']

theorem edgeCmp_pos_iff (a b : NeighborEntry) : 0 < edgeCmp a b ↔ b.sortKey < a.sortKey := by
  unfold edgeCmp NeighborEntry.sortKey
  rw [Prod.Lex.toLex_lt_toLex]
  rcases lt_trichotomy a.neighborId b.neighborId with hlt | heq | hgt
  · simp [hlt, hlt.not_gt, hlt.ne']
  · rcases lt_trichotomy a.label b.label with hlt | hsame | hgt
    · simp [heq, hlt, hlt.not_gt]
    · simp [heq, hsame]
    · simp [heq, hgt, hgt.not_gt]
  · simp [hgt, hgt.not_gt]

theorem edgeCmp_le_iff (a b : NeighborEntry) : edgeCmp a b ≤ 0 ↔ a.sortKey ≤ b.sortKey := by
  rw [← not_lt, edgeCmp_pos_iff, not_lt]

theorem sortKey_le_of_not {a b : NeighborEntry} (h : ¬ edgeCmp a b ≤ 0) : b.sortKey ≤ a.sortKey := by
  rw [edgeCmp_le_iff, not_le] at h
  exact h.le

/-- The neighbours are in order, and none is there twice. -/
def Ascending (edges : List NeighborEntry) : Prop := edges.Pairwise fun a b => a.sortKey < b.sortKey

theorem ascending_sort {edges : List NeighborEntry} (h : edges.Nodup) : Ascending (sortNeighborEdges edges) := by
  apply Lists.pairwise_lt_insertionSort_key (fun a b => edgeCmp a b ≤ 0) NeighborEntry.sortKey
  · exact fun a b hle => (edgeCmp_le_iff a b).mp hle
  · exact fun a b hnot => sortKey_le_of_not hnot
  · exact h.map NeighborEntry.sortKey_injective

theorem mem_sort (edges : List NeighborEntry) (entry : NeighborEntry) : entry ∈ sortNeighborEdges edges ↔ entry ∈ edges :=
  List.mem_insertionSort _

theorem ascending_dedup (edges : List NeighborEntry) : Ascending (dedupSorted (sortNeighborEdges edges)) := by
  apply Lists.pairwise_lt_destutter NeighborEntry.sortKey
  · intro a b hne heq
    obtain rfl := NeighborEntry.sortKey_injective heq
    exact hne.elim (fun h => h rfl) fun h => h rfl
  · apply Lists.pairwise_insertionSort_key (fun a b => edgeCmp a b ≤ 0) NeighborEntry.sortKey
    · exact fun a b hle => (edgeCmp_le_iff a b).mp hle
    · exact fun a b hnot => sortKey_le_of_not hnot

theorem mem_dedup (edges : List NeighborEntry) (entry : NeighborEntry) : entry ∈ dedupSorted edges ↔ entry ∈ edges := by
  apply Lists.mem_destutter
  intro a b hsame
  obtain ⟨hid, hlabel⟩ := not_or.mp hsame
  obtain ⟨neighborId, label⟩ := a
  obtain ⟨neighborId', label'⟩ := b
  rw [NeighborEntry.mk.injEq]
  exact ⟨(not_not.mp hid).symm, (not_not.mp hlabel).symm⟩

theorem mem_filterByLabels (edges : List NeighborEntry) (labels : Option (JsSet JsString)) (entry : NeighborEntry) :
    entry ∈ filterByLabels edges labels ↔ entry ∈ edges ∧ ∀ set, labels = some set → entry.label ∈ set := by
  cases labels with
  | none => exact (and_iff_left nofun).symm
  | some set =>
      refine List.mem_filter.trans (and_congr_right fun _ => ((JsSet.has_iff set entry.label).trans ?_))
      exact ⟨fun h other heq => Option.some.inj heq ▸ h, fun h => h set rfl⟩

theorem ascending_filter {edges : List NeighborEntry} (h : Ascending edges) (labels : Option (JsSet JsString)) :
    Ascending (filterByLabels edges labels) := by
  cases labels with
  | none => exact h
  | some set => exact List.Pairwise.filter _ h

theorem mem_mergeSorted (a b : List NeighborEntry) (entry : NeighborEntry) :
    entry ∈ mergeSorted a b ↔ entry ∈ a ∨ entry ∈ b := by
  fun_induction mergeSorted a b with
  | case1 b => simp
  | case2 a => simp
  | case3 edge a other b _ ih => simp only [List.mem_cons, ih, or_assoc]
  | case4 edge a other b _ _ ih =>
      simp only [List.mem_cons, ih]
      exact or_left_comm
  | case5 edge a other b hlt hgt ih =>
      rw [edgeCmp_neg_iff, not_lt] at hlt
      rw [edgeCmp_pos_iff, not_lt] at hgt
      have hsame : edge = other := NeighborEntry.sortKey_injective (le_antisymm hgt hlt)
      rw [List.mem_cons, ih, List.mem_cons, List.mem_cons, hsame]
      tauto

/-- What comes first in both lists comes first when they are merged. -/
theorem ascending_mergeSorted {a b : List NeighborEntry} (ha : Ascending a) (hb : Ascending b) :
    Ascending (mergeSorted a b) := by
  fun_induction mergeSorted a b with
  | case1 b => exact hb
  | case2 a => exact ha
  | case3 edge a other b hlt ih =>
      obtain ⟨hhead, htail⟩ := List.pairwise_cons.mp ha
      refine List.pairwise_cons.mpr ⟨fun entry hentry => ?_, ih htail hb⟩
      rw [edgeCmp_neg_iff] at hlt
      rcases (mem_mergeSorted _ _ _).mp hentry with hmem | hmem
      · exact hhead entry hmem
      · rcases List.mem_cons.mp hmem with rfl | hmem
        · exact hlt
        · exact hlt.trans ((List.pairwise_cons.mp hb).1 entry hmem)
  | case4 edge a other b _ hgt ih =>
      obtain ⟨hhead, htail⟩ := List.pairwise_cons.mp hb
      refine List.pairwise_cons.mpr ⟨fun entry hentry => ?_, ih ha htail⟩
      rw [edgeCmp_pos_iff] at hgt
      rcases (mem_mergeSorted _ _ _).mp hentry with hmem | hmem
      · rcases List.mem_cons.mp hmem with rfl | hmem
        · exact hgt
        · exact hgt.trans ((List.pairwise_cons.mp ha).1 entry hmem)
      · exact hhead entry hmem
  | case5 edge a other b hlt hgt ih =>
      obtain ⟨hheadA, htailA⟩ := List.pairwise_cons.mp ha
      obtain ⟨hheadB, htailB⟩ := List.pairwise_cons.mp hb
      refine List.pairwise_cons.mpr ⟨fun entry hentry => ?_, ih htailA htailB⟩
      rw [edgeCmp_pos_iff, not_lt] at hgt
      rcases (mem_mergeSorted _ _ _).mp hentry with hmem | hmem
      · exact hheadA entry hmem
      · exact hgt.trans_lt (hheadB entry hmem)

/-! ### What the providers give -/

/-- The directions of edges that a direction of a walk covers. -/
def Direction.sides : Direction → List EdgeDirection
  | .out => [.outgoing]
  | .in => [.incoming]
  | .both => [.outgoing, .incoming]

theorem Direction.exists_side (p : EdgeDirection → Prop) :
    ((∃ side ∈ Direction.out.sides, p side) ↔ p .outgoing) ∧ ((∃ side ∈ Direction.in.sides, p side) ↔ p .incoming) ∧
      ((∃ side ∈ Direction.both.sides, p side) ↔ p .outgoing ∨ p .incoming) := by
  simp [Direction.sides, or_and_right, exists_or]

/-- A visible edge of the node, in the direction and with one of the labels, leads to the neighbour. -/
def Asked (state : WarpStateV5 V) (nodeId : JsString) (direction : Direction) (labels : Option (JsSet JsString))
    (entry : NeighborEntry) : Prop :=
  (∃ side ∈ direction.sides, LogicalIndex.Leads state side nodeId entry) ∧
    ∀ set, labels = some set → entry.label ∈ set

/-- The providers give the same list of neighbours, and agree on the node. -/
def ProvidersAgree (computeShardKey : JsString → Fin 256) (state : WarpStateV5 V) (logical : LogicalIndex)
    (nodeId : JsString) (direction : Direction) (labels : Option (JsSet JsString)) : Prop :=
  (AdjacencyNeighborProvider.ofState state).getNeighbors nodeId direction labels =
      BitmapNeighborProvider.getNeighbors logical nodeId direction labels ∧
    (AdjacencyNeighborProvider.ofState state).hasNode nodeId =
      BitmapNeighborProvider.hasNode computeShardKey logical nodeId

namespace AdjacencyNeighborProvider

/-- A list of the maps holds the edges of its node, in the order in which they are pushed. -/
theorem get_foldl_push (edges : List EdgeRef) (maps : Adjacency) (nodeId : JsString) :
    (((edges.foldl Adjacency.push maps).outgoing.get nodeId).getD [] = ((maps.outgoing.get nodeId).getD []) ++
      (edges.filter fun edge => edge.fromId = nodeId).map fun edge => ⟨edge.toId, edge.label⟩) ∧
    (((edges.foldl Adjacency.push maps).incoming.get nodeId).getD [] = ((maps.incoming.get nodeId).getD []) ++
      (edges.filter fun edge => edge.toId = nodeId).map fun edge => ⟨edge.fromId, edge.label⟩) := by
  induction edges generalizing maps with
  | nil => simp
  | cons edge rest ih =>
      obtain ⟨hout, hin⟩ := ih (maps.push edge)
      rw [List.foldl_cons, hout, hin]
      simp only [Adjacency.push, JsMap.get_set]
      constructor
      · by_cases hfrom : edge.fromId = nodeId
        · subst hfrom
          simp
        · simp [hfrom, Ne.symm hfrom]
      · by_cases hto : edge.toId = nodeId
        · subst hto
          simp
        · simp [hto, Ne.symm hto]

/-- The loop over the edges that are alive passes over those that are not visible. -/
theorem buildAdjacency_eq (state : WarpStateV5 V) :
    buildAdjacency state = ((visibleEdges state).foldl Adjacency.push ⟨JsMap.empty, JsMap.empty⟩).sorted := by
  unfold buildAdjacency visibleEdges
  rw [List.foldl_map, List.foldl_filter]
  refine congrArg Adjacency.sorted ?_
  refine List.foldl_ext _ _ _ fun maps key hkey => ?_
  have halive := (mem_orsetElements _ _).mp hkey
  simp only [edgeVisibleV5, nodeVisibleV5, halive, Bool.true_eq_false, if_false]
  cases orsetContains state.nodeAlive (decodeEdgeKey key).fromId <;>
    cases orsetContains state.nodeAlive (decodeEdgeKey key).toId <;> rfl

/-- The sorted list of a node in a map. -/
def listOf (provider : AdjacencyNeighborProvider) (side : EdgeDirection) (nodeId : JsString) : List NeighborEntry :=
  match side with
  | .outgoing => (provider.outgoing.get nodeId).getD []
  | .incoming => (provider.incoming.get nodeId).getD []

/-- A list of a map holds what is sorted of the edges of its node. -/
theorem listOf_eq (state : WarpStateV5 V) (side : EdgeDirection) (nodeId : JsString) :
    (ofState state).listOf side nodeId = sortNeighborEdges (sortNeighbors
      (((visibleEdges state).filter fun edge => LogicalIndex.owner side edge = nodeId).map fun edge =>
        ⟨LogicalIndex.target side edge, edge.label⟩)) := by
  obtain ⟨hout, hin⟩ := get_foldl_push (visibleEdges state) ⟨JsMap.empty, JsMap.empty⟩ nodeId
  have hsorted : ∀ lists : JsMap JsString (List NeighborEntry),
      ((sortAdjacencyMap (lists.mapValues fun _ list => sortNeighbors list)).get nodeId).getD [] =
        sortNeighborEdges (sortNeighbors ((lists.get nodeId).getD [])) := by
    intro lists
    unfold sortAdjacencyMap
    rw [JsMap.get_mapValues, JsMap.get_mapValues]
    cases lists.get nodeId <;> rfl
  unfold ofState
  rw [buildAdjacency_eq]
  cases side with
  | outgoing => exact (hsorted _).trans (congrArg (fun list => sortNeighborEdges (sortNeighbors list)) hout)
  | incoming => exact (hsorted _).trans (congrArg (fun list => sortNeighborEdges (sortNeighbors list)) hin)

theorem mem_listOf (state : WarpStateV5 V) (side : EdgeDirection) (nodeId : JsString) (entry : NeighborEntry) :
    entry ∈ (ofState state).listOf side nodeId ↔ LogicalIndex.Leads state side nodeId entry := by
  rw [listOf_eq, mem_sort, sortNeighbors, List.mem_insertionSort, List.mem_map]
  unfold LogicalIndex.Leads
  refine exists_congr fun edge => ?_
  rw [List.mem_filter, decide_eq_true_eq, and_assoc]
  refine and_congr_right fun _ => and_congr_right fun _ => ?_
  obtain ⟨neighborId, label⟩ := entry
  exact NeighborEntry.mk.injEq _ _ _ _ ▸ Iff.rfl

/-- An edge leads to one neighbour of its owner. -/
theorem ascending_listOf {state : WarpStateV5 V} (hclean : CleanState state) (side : EdgeDirection) (nodeId : JsString) :
    Ascending ((ofState state).listOf side nodeId) := by
  rw [listOf_eq]
  apply ascending_sort
  rw [sortNeighbors, (List.perm_insertionSort _ _).nodup_iff]
  refine List.Nodup.map_on (fun edge hedge other hother heq => ?_) (hclean.nodup_visibleEdges.filter _)
  have howner := of_decide_eq_true (List.mem_filter.mp hedge).2
  have howner' := of_decide_eq_true (List.mem_filter.mp hother).2
  obtain ⟨fromId, toId, label⟩ := edge
  obtain ⟨fromId', toId', label'⟩ := other
  obtain ⟨htarget, hlabel⟩ := NeighborEntry.mk.inj heq
  cases side with
  | outgoing => rw [EdgeRef.mk.injEq]; exact ⟨howner.trans howner'.symm, htarget, hlabel⟩
  | incoming => rw [EdgeRef.mk.injEq]; exact ⟨htarget, howner.trans howner'.symm, hlabel⟩

/-- The lists give what is asked for, in order. -/
theorem getNeighbors_spec {state : WarpStateV5 V} (hclean : CleanState state) (nodeId : JsString)
    (direction : Direction) (labels : Option (JsSet JsString)) :
    Ascending ((ofState state).getNeighbors nodeId direction labels) ∧
      ∀ entry, entry ∈ (ofState state).getNeighbors nodeId direction labels ↔
        Asked state nodeId direction labels entry := by
  have hside : ∀ side, Ascending (filterByLabels ((ofState state).listOf side nodeId) labels) :=
    fun side => ascending_filter (ascending_listOf hclean side nodeId) labels
  have hmem : ∀ side entry, entry ∈ filterByLabels ((ofState state).listOf side nodeId) labels ↔
      LogicalIndex.Leads state side nodeId entry ∧ ∀ set, labels = some set → entry.label ∈ set := by
    intro side entry
    rw [mem_filterByLabels, mem_listOf]
  unfold Asked
  cases direction with
  | out =>
      refine ⟨hside .outgoing, fun entry => (hmem .outgoing entry).trans (and_congr_left fun _ => ?_)⟩
      exact (Direction.exists_side fun side => LogicalIndex.Leads state side nodeId entry).1.symm
  | «in» =>
      refine ⟨hside .incoming, fun entry => (hmem .incoming entry).trans (and_congr_left fun _ => ?_)⟩
      exact (Direction.exists_side fun side => LogicalIndex.Leads state side nodeId entry).2.1.symm
  | both =>
      refine ⟨ascending_mergeSorted (hside .outgoing) (hside .incoming), fun entry => ?_⟩
      refine (mem_mergeSorted _ _ entry).trans ((or_congr (hmem .outgoing entry) (hmem .incoming entry)).trans ?_)
      rw [← or_and_right, (Direction.exists_side _).2.2]

end AdjacencyNeighborProvider

namespace BitmapNeighborProvider

variable {computeShardKey : JsString → Fin 256} {state : WarpStateV5 V} {logical : LogicalIndex}

/-- The node of an edge that leads somewhere is known to the index. -/
theorem known_of_leads (h : LogicalIndex.IndexOf computeShardKey state logical) {side : EdgeDirection}
    {nodeId : JsString} {entry : NeighborEntry} (hleads : LogicalIndex.Leads state side nodeId entry) :
    (logical.nodeToGlobal.get nodeId).isSome := by
  obtain ⟨edge, hedge, rfl, -, -⟩ := hleads
  have hends := LogicalIndex.ends_of_visible hedge
  rw [h.known]
  cases side with
  | outgoing => exact hends.1
  | incoming => exact hends.2

/-- What the index gives in one direction for the ids of the labels: the edges with one of them whose neighbour has
an id that is not empty. -/
theorem getEdges_spec (h : LogicalIndex.IndexOf computeShardKey state logical) (nodeId : JsString)
    (side : EdgeDirection) (labels : Option (JsSet JsString)) :
    (logical.getEdges nodeId side (labels.map fun set => set.elems.filterMap logical.labelToId.get)).Nodup ∧
      ∀ entry, entry ∈ logical.getEdges nodeId side
          (labels.map fun set => set.elems.filterMap logical.labelToId.get) ↔
        entry.neighborId ≠ [] ∧ LogicalIndex.Leads state side nodeId entry ∧
          ∀ set, labels = some set → entry.label ∈ set := by
  cases hgid : logical.nodeToGlobal.get nodeId with
  | none =>
      have hempty : ∀ labelIds, logical.getEdges nodeId side labelIds = [] := by
        intro labelIds
        rw [LogicalIndex.getEdges, hgid]
      rw [hempty]
      refine ⟨List.nodup_nil, fun entry => iff_of_false List.not_mem_nil ?_⟩
      rintro ⟨-, hleads, -⟩
      have hknown := known_of_leads h hleads
      rw [hgid] at hknown
      cases hknown
  | some gid =>
      cases labels with
      | none =>
          obtain ⟨hnodup, hmem⟩ := LogicalIndex.getEdges_all h side hgid
          refine ⟨hnodup, fun entry => (hmem entry).trans (and_congr_right fun _ => ?_)⟩
          refine (and_iff_left fun set heq => ?_).symm
          cases heq
      | some set =>
          have hids : (set.elems.filterMap logical.labelToId.get).Nodup :=
            set.nodup.filterMap fun a b id ha hb => h.labels a b id ha hb
          obtain ⟨hnodup, hmem⟩ := LogicalIndex.getEdges_labels h side hgid hids
          refine ⟨hnodup, fun entry => (hmem entry).trans ?_⟩
          refine and_congr_right fun _ => and_congr_right fun hleads => ⟨?_, fun hset => ?_⟩
          · rintro ⟨labelId, hlabelId, hlabel⟩ other heq
            obtain ⟨label, hmemLabel, hget⟩ := List.mem_filterMap.mp hlabelId
            rw [h.labels _ _ labelId hlabel hget, ← Option.some.inj heq]
            exact hmemLabel
          · obtain ⟨edge, hedge, -, -, hlabel⟩ := hleads
            obtain ⟨labelId, hlabelId⟩ := Option.isSome_iff_exists.mp (h.labelled edge hedge)
            rw [hlabel] at hlabelId
            exact ⟨labelId, List.mem_filterMap.mpr ⟨entry.label, hset set rfl, hlabelId⟩, hlabelId⟩

/-- The index gives what is asked for, in order, but for the neighbour with the empty id. -/
theorem getNeighbors_spec (h : LogicalIndex.IndexOf computeShardKey state logical) (nodeId : JsString)
    (direction : Direction) (labels : Option (JsSet JsString)) :
    Ascending (getNeighbors logical nodeId direction labels) ∧
      ∀ entry, entry ∈ getNeighbors logical nodeId direction labels ↔
        entry.neighborId ≠ [] ∧ Asked state nodeId direction labels entry := by
  let labelIds := labels.map fun set => set.elems.filterMap logical.labelToId.get
  have hspec := fun side => getEdges_spec h nodeId side labels
  have hlist : getNeighbors logical nodeId direction labels =
      match direction with
      | .both => dedupSorted (sortNeighborEdges
          (logical.getEdges nodeId .outgoing labelIds ++ logical.getEdges nodeId .incoming labelIds))
      | .out => sortNeighborEdges (logical.getEdges nodeId .outgoing labelIds)
      | .in => sortNeighborEdges (logical.getEdges nodeId .incoming labelIds) := by
    unfold getNeighbors
    by_cases hnone : labelIds = some []
    · have hempty : ∀ side, logical.getEdges nodeId side labelIds = [] := by
        intro side
        rw [hnone, LogicalIndex.getEdges]
        split <;> rfl
      rw [if_pos hnone]
      simp only [hempty]
      cases direction <;> rfl
    · rw [if_neg hnone]
  rw [hlist]
  unfold Asked
  cases direction with
  | out =>
      refine ⟨ascending_sort (hspec .outgoing).1, fun entry => (mem_sort _ entry).trans ?_⟩
      rw [(Direction.exists_side _).1]
      exact (hspec .outgoing).2 entry
  | «in» =>
      refine ⟨ascending_sort (hspec .incoming).1, fun entry => (mem_sort _ entry).trans ?_⟩
      rw [(Direction.exists_side _).2.1]
      exact (hspec .incoming).2 entry
  | both =>
      refine ⟨ascending_dedup _, fun entry => (mem_dedup _ entry).trans ((mem_sort _ entry).trans (List.mem_append.trans
        ((or_congr ((hspec .outgoing).2 entry) ((hspec .incoming).2 entry)).trans ?_)))⟩
      rw [← and_or_left, ← or_and_right, (Direction.exists_side _).2.2]

end BitmapNeighborProvider

/-- The providers give the same lists, and agree on the nodes, if and only if nothing that is asked for leads to the
node with the empty id. -/
theorem providers_agree_iff (computeShardKey : JsString → Fin 256) (state : WarpStateV5 V) (hstate : Reachable state)
    (logical : LogicalIndex) (hbuilt : LogicalIndex.build computeShardKey state = .ok logical) (nodeId : JsString)
    (direction : Direction) (labels : Option (JsSet JsString)) :
    ProvidersAgree computeShardKey state logical nodeId direction labels ↔
      ∀ entry, Asked state nodeId direction labels entry → entry.neighborId ≠ [] := by
  have hindex := LogicalIndex.indexOf_build hbuilt
  obtain ⟨hlists, hmemLists⟩ := AdjacencyNeighborProvider.getNeighbors_spec hstate.cleanState nodeId direction labels
  obtain ⟨hbitmaps, hmemBitmaps⟩ := BitmapNeighborProvider.getNeighbors_spec hindex nodeId direction labels
  have hnode : (AdjacencyNeighborProvider.ofState state).hasNode nodeId =
      BitmapNeighborProvider.hasNode computeShardKey logical nodeId := by
    show (JsSet.ofList (orsetElements state.nodeAlive)).has nodeId = logical.isAlive computeShardKey nodeId
    rw [hindex.alive, Bool.eq_iff_iff, JsSet.has_iff, JsSet.mem_ofList, mem_orsetElements]
  constructor
  · intro hagree entry hasked
    have hentry := (hmemLists entry).mpr hasked
    rw [hagree.1] at hentry
    exact ((hmemBitmaps entry).mp hentry).1
  · intro hnonempty
    refine ⟨Lists.eq_of_mem_iff_key NeighborEntry.sortKey hlists hbitmaps fun entry => ?_, hnode⟩
    rw [hmemLists, hmemBitmaps]
    exact ⟨fun hasked => ⟨hnonempty entry hasked, hasked⟩, fun hasked => hasked.2⟩

/-- `w` adds a node and the node with the empty id, and an edge from the one to the other. -/
def joinsEmptyId : Session Nat :=
  ⟨js "w", 1, true, [.addNode (js "x"), .addNode [], .addEdge ⟨js "x", [], js "l"⟩], js "aaaa"⟩

/-- With an edge between two nodes that have ids the providers agree. -/
theorem providers_agree_joined : ∃ state logical, runSessions [joinsXY] = some state ∧
    LogicalIndex.build (fun _ => 0) state = .ok logical ∧
      ProvidersAgree (fun _ => 0) state logical (js "x") .both (some (JsSet.ofList [js "l", js "m"])) := by
  obtain ⟨state, hstate⟩ : ∃ state, runSessions [joinsXY] = some state := ⟨_, rfl⟩
  obtain ⟨logical, hbuilt⟩ : ∃ logical, LogicalIndex.build (fun _ => 0) state = .ok logical := by
    cases hstate
    exact ⟨_, rfl⟩
  have hedges : visibleEdges state = [⟨js "x", js "y", js "l"⟩] := by
    cases hstate
    decide +kernel
  refine ⟨state, logical, hstate, hbuilt, (providers_agree_iff (fun _ => 0) state (reachable_of_sessions hstate)
    logical hbuilt (js "x") .both _).mpr ?_⟩
  rintro ⟨neighborId, label⟩ ⟨⟨side, -, edge, hedge, -, htarget, -⟩, -⟩ rfl
  rw [hedges, List.mem_singleton] at hedge
  subst hedge
  cases side with
  | outgoing => exact absurd htarget (show js "y" ≠ [] by decide)
  | incoming => exact absurd htarget (show js "x" ≠ [] by decide)

/-- The adjacency lists give the node with the empty id as a neighbour, the bitmaps do not. -/
theorem providers_differ_at_empty_id : ¬ ∀ (computeShardKey : JsString → Fin 256) (state : WarpStateV5 Nat),
    Reachable state → ∀ logical, LogicalIndex.build computeShardKey state = .ok logical →
      ∀ nodeId direction labels, ProvidersAgree computeShardKey state logical nodeId direction labels := by
  intro h
  obtain ⟨state, hstate⟩ : ∃ state, runSessions [joinsEmptyId] = some state := ⟨_, rfl⟩
  obtain ⟨logical, hbuilt⟩ : ∃ logical, LogicalIndex.build (fun _ => 0) state = .ok logical := by
    cases hstate
    exact ⟨_, rfl⟩
  have hedges : visibleEdges state = [⟨js "x", [], js "l"⟩] := by
    cases hstate
    decide +kernel
  have hreachable := reachable_of_sessions hstate
  have hagree := h (fun _ => 0) state hreachable logical hbuilt (js "x") .out none
  have hasked : Asked state (js "x") .out none ⟨[], js "l"⟩ := by
    refine ⟨⟨.outgoing, List.mem_singleton_self _, ⟨js "x", [], js "l"⟩, ?_, rfl, rfl, rfl⟩, nofun⟩
    rw [hedges]
    exact List.mem_singleton_self _
  have hlisted := ((AdjacencyNeighborProvider.getNeighbors_spec hreachable.cleanState (js "x") .out none).2 _).mpr hasked
  rw [hagree.1] at hlisted
  exact ((BitmapNeighborProvider.getNeighbors_spec (LogicalIndex.indexOf_build hbuilt) (js "x") .out none).2 _).mp
    hlisted |>.1 rfl

end GitWarp
