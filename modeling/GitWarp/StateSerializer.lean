import GitWarp.GraphReaders

/-! The canonical bytes of the visible graph. They are the same for two states exactly if these show the same
nodes, node properties and edges. The properties of edges are not part of them: their keys decode to a node
that no graph has. -/

namespace GitWarp
open Js ExceptLoops

variable {V Buffer : Type}

def edgeVisibleV5 (state : WarpStateV5 V) (edgeKey : JsString) : Bool :=
  if orsetContains state.edgeAlive edgeKey = false then false
  else
    let edge := decodeEdgeKey edgeKey
    nodeVisibleV5 state edge.fromId && nodeVisibleV5 state edge.toId

structure VisibleProp (V : Type) where
  node : JsString
  key : JsString
  value : Option V
  deriving DecidableEq

/-- The object that is encoded. -/
@[ext] structure VisibleProjection (V : Type) where
  nodes : List JsString
  edges : List EdgeRef
  props : List (VisibleProp V)
  deriving DecidableEq

/-- The order of edges in the projection. -/
def compareEdges (a b : EdgeRef) : Int :=
  if a.fromId ≠ b.fromId then if a.fromId < b.fromId then -1 else 1
  else if a.toId ≠ b.toId then if a.toId < b.toId then -1 else 1
  else if a.label < b.label then -1 else if b.label < a.label then 1 else 0

/-- The order of properties in the projection. -/
def compareProps (a b : VisibleProp V) : Int :=
  if a.node ≠ b.node then if a.node < b.node then -1 else 1
  else if a.key < b.key then -1 else if b.key < a.key then 1 else 0

def visibleEdges (state : WarpStateV5 V) : List EdgeRef :=
  ((orsetElements state.edgeAlive).filter (edgeVisibleV5 state)).map decodeEdgeKey

def visibleProps (state : WarpStateV5 V) : List (VisibleProp V) :=
  state.prop.entries.filterMap fun entry =>
    let decoded := decodePropKey entry.1
    if nodeVisibleV5 state decoded.1 then some ⟨decoded.1, decoded.2, entry.2.value⟩ else none

def visibleProjection (state : WarpStateV5 V) : VisibleProjection V where
  nodes := (orsetElements state.nodeAlive).insertionSort (· ≤ ·)
  edges := (visibleEdges state).insertionSort fun a b => compareEdges a b ≤ 0
  props := (visibleProps state).insertionSort fun a b => compareProps a b ≤ 0

def serializeStateV5 (codec : CodecPort (VisibleProjection V) Buffer) (state : WarpStateV5 V) : Buffer :=
  codec.encode (visibleProjection state)

/-! ### The orders -/

def EdgeRef.sortKey (edge : EdgeRef) : JsString ×ₗ JsString ×ₗ JsString :=
  toLex (edge.fromId, toLex (edge.toId, edge.label))

def VisibleProp.sortKey (prop : VisibleProp V) : JsString ×ₗ JsString := toLex (prop.node, prop.key)

theorem compareEdges_le_iff (a b : EdgeRef) : compareEdges a b ≤ 0 ↔ a.sortKey ≤ b.sortKey := by
  unfold compareEdges EdgeRef.sortKey
  rw [Prod.Lex.toLex_le_toLex, Prod.Lex.toLex_le_toLex]
  by_cases hfrom : a.fromId = b.fromId
  · by_cases hto : a.toId = b.toId
    · rcases lt_trichotomy a.label b.label with hlt | heq | hgt
      · simp [hfrom, hto, hlt, hlt.le]
      · simp [hfrom, hto, heq]
      · simp [hfrom, hto, hgt, hgt.not_gt, hgt.not_ge]
    · by_cases hlt : a.toId < b.toId
      · simp [hfrom, hto, hlt]
      · simp [hfrom, hto, hlt]
  · by_cases hlt : a.fromId < b.fromId
    · simp [hfrom, hlt]
    · simp [hfrom, hlt]

theorem compareProps_le_iff (a b : VisibleProp V) : compareProps a b ≤ 0 ↔ a.sortKey ≤ b.sortKey := by
  unfold compareProps VisibleProp.sortKey
  rw [Prod.Lex.toLex_le_toLex]
  by_cases hnode : a.node = b.node
  · rcases lt_trichotomy a.key b.key with hlt | heq | hgt
    · simp [hnode, hlt, hlt.le]
    · simp [hnode, heq]
    · simp [hnode, hgt, hgt.not_gt, hgt.not_ge]
  · by_cases hlt : a.node < b.node
    · simp [hnode, hlt]
    · simp [hnode, hlt]

/-! ### What is collected -/

theorem mem_visibleEdges (state : WarpStateV5 V) (edge : EdgeRef) :
    edge ∈ visibleEdges state ↔ EdgeShown state edge := by
  unfold visibleEdges
  rw [List.mem_map]
  constructor
  · rintro ⟨key, hkey, rfl⟩
    obtain ⟨hmem, hvisible⟩ := List.mem_filter.mp hkey
    have halive := (mem_orsetElements _ _).mp hmem
    simp only [edgeVisibleV5, halive, Bool.true_eq_false, if_false, Bool.and_eq_true] at hvisible
    exact ⟨key, halive, rfl, hvisible⟩
  · rintro ⟨key, halive, rfl, hends⟩
    refine ⟨key, List.mem_filter.mpr ⟨(mem_orsetElements _ _).mpr halive, ?_⟩, rfl⟩
    simp only [edgeVisibleV5, halive, Bool.true_eq_false, if_false, Bool.and_eq_true]
    exact hends

theorem nodup_orsetElements (set : ORSet) : (orsetElements set).Nodup := set.entries.nodup.filter _

section Clean

variable {state : WarpStateV5 V} (hclean : CleanState state)

include hclean

theorem CleanState.nodup_visibleEdges : (visibleEdges state).Nodup := by
  refine List.Nodup.map_on (fun key hkey key' hkey' heq => ?_) ((nodup_orsetElements _).filter _)
  obtain ⟨edge, hedge, rfl⟩ := hclean.edges key ((mem_orsetElements _ _).mp (List.mem_filter.mp hkey).1)
  obtain ⟨edge', hedge', rfl⟩ := hclean.edges key' ((mem_orsetElements _ _).mp (List.mem_filter.mp hkey').1)
  rw [decodeEdgeKey_key hedge.clean, decodeEdgeKey_key hedge'.clean] at heq
  rw [heq]

/-- The properties that readers see. -/
theorem CleanState.mem_visibleProps (prop : VisibleProp V) :
    prop ∈ visibleProps state ↔ orsetContains state.nodeAlive prop.node = true ∧
      ∃ register, state.prop.get (encodePropKey prop.node prop.key) = some register ∧
        register.value = prop.value := by
  unfold visibleProps nodeVisibleV5
  rw [List.mem_filterMap]
  constructor
  · rintro ⟨⟨key, register⟩, hentry, hsome⟩
    simp only [Option.ite_none_right_eq_some, Option.some.injEq] at hsome
    obtain ⟨halive, rfl⟩ := hsome
    have hget := (state.prop.get_eq_some_iff key register).mpr hentry
    have hkey := hclean.nodeKey_of_decode (by rw [hget]; rfl) (hclean.nodes _ halive) rfl
    exact ⟨halive, register, hkey ▸ hget, rfl⟩
  · rintro ⟨halive, register, hget, hvalue⟩
    have hdecoded := hclean.decode_nodeKey (hclean.nodes _ halive) (by rw [hget]; rfl)
    refine ⟨_, (state.prop.get_eq_some_iff _ register).mp hget, ?_⟩
    simp only [hdecoded, halive, if_true, hvalue]

theorem CleanState.eq_of_sortKey {a b : VisibleProp V} (ha : a ∈ visibleProps state)
    (hb : b ∈ visibleProps state) (h : a.sortKey = b.sortKey) : a = b := by
  obtain ⟨-, register, hget, hvalue⟩ := (hclean.mem_visibleProps a).mp ha
  obtain ⟨-, register', hget', hvalue'⟩ := (hclean.mem_visibleProps b).mp hb
  obtain ⟨hnode, hkey⟩ := Prod.mk.inj (toLex.injective h)
  rw [hnode, hkey, hget', Option.some.injEq] at hget
  subst hget
  cases a
  cases b
  simp only at hnode hkey hvalue hvalue'
  rw [hnode, hkey, ← hvalue, ← hvalue']

theorem CleanState.nodup_visibleProps : (visibleProps state).Nodup := by
  have hkeys : state.prop.entries.Pairwise fun a b => a.1 ≠ b.1 := List.pairwise_map.mp state.prop.nodup
  refine List.pairwise_filterMap.mpr (hkeys.imp_of_mem ?_)
  rintro ⟨key, register⟩ ⟨key', register'⟩ ha hb hne p hp q hq rfl
  simp only [Option.ite_none_right_eq_some, Option.some.injEq] at hp hq
  obtain ⟨halive, rfl⟩ := hp
  obtain ⟨-, hsame⟩ := hq
  have hget := (state.prop.get_eq_some_iff key register).mpr ha
  have hget' := (state.prop.get_eq_some_iff key' register').mpr hb
  obtain ⟨hnode, hname, -⟩ := VisibleProp.mk.inj hsame
  have hclear := hclean.nodes _ halive
  refine hne ?_
  rw [hclean.nodeKey_of_decode (by rw [hget]; rfl) hclear rfl,
    hclean.nodeKey_of_decode (by rw [hget']; rfl) hclear hnode, hname]

end Clean

/-! ### The projection as a value -/

theorem nodes_eq_iff (s t : WarpStateV5 V) : (visibleProjection s).nodes = (visibleProjection t).nodes ↔
    ∀ node, node ∈ getNodes s ↔ node ∈ getNodes t :=
  Lists.insertionSort_eq_iff (· ≤ ·) id (fun _ _ h => h) (fun _ _ h => (not_le.mp h).le)
    (nodup_orsetElements _) (nodup_orsetElements _) fun _ _ _ _ h => h

theorem edges_eq_iff {s t : WarpStateV5 V} (hs : CleanState s) (ht : CleanState t) :
    (visibleProjection s).edges = (visibleProjection t).edges ↔ ∀ edge, EdgeShown s edge ↔ EdgeShown t edge := by
  simp only [← mem_visibleEdges]
  refine Lists.insertionSort_eq_iff (fun a b => compareEdges a b ≤ 0) EdgeRef.sortKey
    (fun a b h => (compareEdges_le_iff a b).mp h) (fun a b h => ?_) hs.nodup_visibleEdges ht.nodup_visibleEdges ?_
  · rw [compareEdges_le_iff, not_le] at h
    exact h.le
  · intro a _ b _ h
    obtain ⟨hfrom, hrest⟩ := Prod.mk.inj (toLex.injective h)
    obtain ⟨hto, hlabel⟩ := Prod.mk.inj (toLex.injective hrest)
    cases a
    cases b
    simp only at hfrom hto hlabel
    rw [hfrom, hto, hlabel]

theorem props_eq_iff {s t : WarpStateV5 V} (hs : CleanState s) (ht : CleanState t) :
    (visibleProjection s).props = (visibleProjection t).props ↔
      ∀ prop, prop ∈ visibleProps s ↔ prop ∈ visibleProps t := by
  refine Lists.insertionSort_eq_iff (fun a b => compareProps a b ≤ 0) VisibleProp.sortKey
    (fun a b h => (compareProps_le_iff a b).mp h) (fun a b h => ?_) hs.nodup_visibleProps ht.nodup_visibleProps
    fun a ha b hb h => hs.eq_of_sortKey ha hb h
  rw [compareProps_le_iff, not_le] at h
  exact h.le

/-! ### Readers -/

/-- `getNodes` and `getNodeProps` show the same. -/
structure NodesAgree (s t : WarpStateV5 V) : Prop where
  nodes : ∀ node, node ∈ getNodes s ↔ node ∈ getNodes t
  props : ∀ node props props', getNodeProps s node = some props → getNodeProps t node = some props' →
    ∀ name, props.get name = props'.get name

/-- Two lists of edges have the same edges. -/
def SameEdges (edges edges' : List (GraphEdge V)) : Prop :=
  ∀ edge, edge ∈ edges.map GraphEdge.edge ↔ edge ∈ edges'.map GraphEdge.edge

/-- An edge of both lists has the same properties in both. -/
def SameEdgeProps (edges edges' : List (GraphEdge V)) : Prop :=
  ∀ listed ∈ edges, ∀ listed' ∈ edges', listed.edge = listed'.edge →
    ∀ name, listed.props.get name = listed'.props.get name

/-- All readers show the same. -/
def ReadersAgree (s t : WarpStateV5 V) : Prop :=
  NodesAgree s t ∧ ∃ edges edges', getEdges s = .ok edges ∧ getEdges t = .ok edges' ∧
    SameEdges edges edges' ∧ SameEdgeProps edges edges'

/-- The readers show the same but for a property of an edge. -/
def DifferInEdgePropsOnly (s t : WarpStateV5 V) : Prop :=
  NodesAgree s t ∧ ∃ edges edges', getEdges s = .ok edges ∧ getEdges t = .ok edges' ∧
    SameEdges edges edges' ∧ ¬ SameEdgeProps edges edges'

/-- The bytes of the states are equal exactly if readers see the same. -/
def HashIdentifies (codec : CodecPort (VisibleProjection V) Buffer) (s t : WarpStateV5 V) : Prop :=
  serializeStateV5 codec s = serializeStateV5 codec t ↔ ReadersAgree s t

theorem nodesAgree_iff {s t : WarpStateV5 V} (hs : CleanState s) (ht : CleanState t) :
    NodesAgree s t ↔ (visibleProjection s).nodes = (visibleProjection t).nodes ∧
      (visibleProjection s).props = (visibleProjection t).props := by
  rw [nodes_eq_iff, props_eq_iff hs ht]
  simp only [hs.mem_visibleProps, ht.mem_visibleProps]
  constructor
  · intro h
    have halive : ∀ node, orsetContains s.nodeAlive node = true ↔ orsetContains t.nodeAlive node = true :=
      fun node => by rw [← mem_orsetElements, ← mem_orsetElements]; exact h.nodes node
    refine ⟨h.nodes, fun prop => ?_⟩
    rw [halive prop.node]
    refine and_congr_right fun hnode => ?_
    obtain ⟨props, hprops, hget⟩ := hs.getNodeProps_eq ((halive prop.node).mpr hnode)
    obtain ⟨props', hprops', hget'⟩ := ht.getNodeProps_eq hnode
    rw [← hget, ← hget', h.props _ _ _ hprops hprops']
  · rintro ⟨hnodes, hprops⟩
    refine ⟨hnodes, fun node props props' hs' ht' name => ?_⟩
    have hsome : ∀ {state : WarpStateV5 V} {props}, getNodeProps state node = some props →
        orsetContains state.nodeAlive node = true := by
      intro state props h
      unfold getNodeProps nodeVisibleV5 at h
      split at h
      · assumption
      · cases h
    obtain ⟨found, hfound, hget⟩ := hs.getNodeProps_eq (hsome hs')
    obtain ⟨found', hfound', hget'⟩ := ht.getNodeProps_eq (hsome ht')
    rw [hfound, Option.some.injEq] at hs'
    rw [hfound', Option.some.injEq] at ht'
    subst hs' ht'
    refine Option.ext fun value => ?_
    have hprop := hprops ⟨node, name, value⟩
    rw [hget, hget']
    simpa only [hsome hfound, hsome hfound', true_and] using hprop

/-- Equal bytes mean equal nodes, properties of nodes and edges. -/
theorem serializeStateV5_eq_iff {codec : CodecPort (VisibleProjection V) Buffer}
    (hcodec : Function.Injective codec.encode) {s t : WarpStateV5 V} (hs : CleanState s) (ht : CleanState t)
    {edges edges' : List (GraphEdge V)} (hedges : getEdges s = .ok edges) (hedges' : getEdges t = .ok edges') :
    serializeStateV5 codec s = serializeStateV5 codec t ↔ NodesAgree s t ∧ SameEdges edges edges' := by
  have hsplit : visibleProjection s = visibleProjection t ↔
      ((visibleProjection s).nodes = (visibleProjection t).nodes ∧
        (visibleProjection s).props = (visibleProjection t).props) ∧
      (visibleProjection s).edges = (visibleProjection t).edges := by
    rw [VisibleProjection.ext_iff]
    constructor
    · rintro ⟨hnodes, hedges, hprops⟩
      exact ⟨⟨hnodes, hprops⟩, hedges⟩
    · rintro ⟨⟨hnodes, hprops⟩, hedges⟩
      exact ⟨hnodes, hedges, hprops⟩
  obtain ⟨found, hfound, hshown, -⟩ := hs.getEdges_eq
  obtain ⟨found', hfound', hshown', -⟩ := ht.getEdges_eq
  rw [hedges, Except.ok.injEq] at hfound
  rw [hedges', Except.ok.injEq] at hfound'
  subst hfound hfound'
  unfold serializeStateV5 SameEdges
  rw [hcodec.eq_iff, hsplit, nodesAgree_iff hs ht, edges_eq_iff hs ht]
  simp only [hshown, hshown']

/-- The bytes identify the graph that readers see for exactly those pairs of replayed states that do not
differ in the properties of edges alone. -/
theorem hashIdentifies_iff (codec : CodecPort (VisibleProjection V) Buffer)
    (hcodec : Function.Injective codec.encode) (P Q : List (PatchEntry V)) (s t : WarpStateV5 V)
    (hP : ∀ entry ∈ P, ∃ seen calls, BuiltBy seen calls entry.patch)
    (hQ : ∀ entry ∈ Q, ∃ seen calls, BuiltBy seen calls entry.patch) (hs : reduceV5 P = .ok s)
    (ht : reduceV5 Q = .ok t) : HashIdentifies codec s t ↔ ¬ DifferInEdgePropsOnly s t := by
  have hcleanS := cleanState_reduceV5 hP hs
  have hcleanT := cleanState_reduceV5 hQ ht
  obtain ⟨edges, hedges, -⟩ := hcleanS.getEdges_eq
  obtain ⟨edges', hedges', -⟩ := hcleanT.getEdges_eq
  have hreaders : ReadersAgree s t ↔ (NodesAgree s t ∧ SameEdges edges edges') ∧ SameEdgeProps edges edges' := by
    simp [ReadersAgree, hedges, hedges', and_assoc]
  have hdiffer : DifferInEdgePropsOnly s t ↔
      (NodesAgree s t ∧ SameEdges edges edges') ∧ ¬ SameEdgeProps edges edges' := by
    simp [DifferInEdgePropsOnly, hedges, hedges', and_assoc]
  unfold HashIdentifies
  rw [serializeStateV5_eq_iff hcodec hcleanS hcleanT hedges hedges', hreaders, hdiffer,
    iff_self_and, not_and_not_right]

/-! Two graphs that differ in the weight of an edge have the same bytes. -/

/-- A codec that keeps objects as they are. -/
def plainCodec : CodecPort (VisibleProjection Nat) (VisibleProjection Nat) := ⟨id, fun obj => .ok (some obj)⟩

/-- The edge of the example. -/
def exampleEdge : EdgeRef := ⟨js "a", js "b", js "l"⟩

/-- Adds two nodes and an edge with a weight. -/
def weightCalls (weight : Nat) : List (BuilderCall Nat) :=
  [.addNode (js "a"), .addNode (js "b"), .addEdge exampleEdge, .setEdgeProperty exampleEdge (js "k") (some weight)]

/-- The patch of these calls. -/
def weightPatch (weight : Nat) : PatchEntry Nat :=
  ⟨⟨3, js "w", 1, .record [(js "w", 3)], [.nodeAdd (js "a") ⟨js "w", 1⟩, .nodeAdd (js "b") ⟨js "w", 2⟩,
    .edgeAdd exampleEdge ⟨js "w", 3⟩, .propSet (encodeLegacyEdgePropNode (js "a") (js "b") (js "l")) (js "k")
      (some weight)]⟩, js "aaaa"⟩

/-- Adds the first node only. -/
def lonePatch : PatchEntry Nat :=
  ⟨⟨2, js "w", 1, .record [(js "w", 1)], [.nodeAdd (js "a") ⟨js "w", 1⟩]⟩, js "aaaa"⟩

theorem hashIdentifies_lone : ∃ s t, reduceV5 [weightPatch 7] = .ok s ∧ reduceV5 [lonePatch] = .ok t ∧
    HashIdentifies plainCodec s t := by
  obtain ⟨s, hs⟩ : ∃ s, reduceV5 [weightPatch 7] = .ok s := ⟨_, rfl⟩
  obtain ⟨t, ht⟩ : ∃ t, reduceV5 [lonePatch] = .ok t := ⟨_, rfl⟩
  refine ⟨s, t, hs, ht, (hashIdentifies_iff plainCodec Function.injective_id [weightPatch 7] [lonePatch] s t
    ?_ ?_ hs ht).mpr ?_⟩
  · intro entry hentry
    cases List.mem_singleton.mp hentry
    exact ⟨none, weightCalls 7, builtBy_newBuilder (js "w") .warn (by decide)⟩
  · intro entry hentry
    cases List.mem_singleton.mp hentry
    exact ⟨none, [.addNode (js "a")], builtBy_newBuilder (js "w") .warn (by decide)⟩
  · rintro ⟨⟨hnodes, -⟩, -⟩
    cases hs
    cases ht
    exact absurd ((hnodes (js "b")).mp (by decide)) (by decide)

theorem not_hashIdentifies_weight : BuiltBy none (weightCalls 7) (weightPatch 7).patch ∧
    BuiltBy none (weightCalls 8) (weightPatch 8).patch ∧
    ∃ s t, reduceV5 [weightPatch 7] = .ok s ∧ reduceV5 [weightPatch 8] = .ok t ∧
      ¬ HashIdentifies plainCodec s t := by
  refine ⟨builtBy_newBuilder (js "w") .warn (by decide), builtBy_newBuilder (js "w") .warn (by decide),
    _, _, rfl, rfl, fun hident => ?_⟩
  obtain ⟨-, edges, edges', hedges, hedges', -, hprops⟩ := hident.mp (by decide +kernel)
  cases hedges
  cases hedges'
  have hvalue := hprops _ (List.mem_singleton_self _) _ (List.mem_singleton_self _) rfl (js "k")
  revert hvalue
  decide

end GitWarp
