import GitWarp.BuilderReplay

/-! What readers see of a materialized state: the linear scans behind `getNodes`, `getNodeProps` and
`getEdges`. On the states that patches of builders replay to, each of them is read off the state key by key. -/

namespace GitWarp
open Js ExceptLoops

variable {V : Type}

/-- `decodeEdgePropKey` -/
def decodeEdgePropKey (encoded : JsString) : Except JsError (EdgeRef × JsString) :=
  if isEdgePropKey encoded = false then thrown "Invalid edge property key: missing prefix"
  else
    match encoded.tail.splitOn fieldSeparator with
    | [fromId, toId, label, propKey] => .ok (⟨fromId, toId, label⟩, propKey)
    | _ => thrown "Invalid edge property key: expected 4 segments"

def nodeVisibleV5 (state : WarpStateV5 V) (nodeId : JsString) : Bool := orsetContains state.nodeAlive nodeId

/-! ### The readers -/

def getNodes (state : WarpStateV5 V) : List JsString := orsetElements state.nodeAlive

def getNodeProps (state : WarpStateV5 V) (nodeId : JsString) : Option (JsMap JsString (Option V)) :=
  if nodeVisibleV5 state nodeId then
    some (state.prop.entries.foldl (fun props entry =>
      let decoded := decodePropKey entry.1
      if decoded.1 = nodeId then props.set decoded.2 entry.2.value else props) JsMap.empty)
  else none

/-- An edge as `getEdges` lists it. -/
structure GraphEdge (V : Type) where
  edge : EdgeRef
  props : JsMap JsString (Option V)

/-- A register of an edge property is older than the edge. -/
def isBeforeBirth (state : WarpStateV5 V) (edgeKey : JsString) (register : LWWRegister V) : Bool :=
  match state.edgeBirthEvent.get edgeKey with
  | some birthEvent => compareEventIds register.eventId birthEvent < 0
  | none => false

def getEdges (state : WarpStateV5 V) : Except JsError (List (GraphEdge V)) := do
  let edgePropsByKey ← state.prop.entries.foldlM (fun bags entry =>
    if isEdgePropKey entry.1 then do
      let decoded ← decodeEdgePropKey entry.1
      let ek := decoded.1.key
      if isBeforeBirth state ek entry.2 then return bags
      else return bags.set ek (((bags.get ek).getD JsMap.empty).set decoded.2 entry.2.value)
    else return bags) JsMap.empty
  return (orsetElements state.edgeAlive).filterMap fun edgeKey =>
    let edge := decodeEdgeKey edgeKey
    if nodeVisibleV5 state edge.fromId && nodeVisibleV5 state edge.toId then
      some ⟨edge, (edgePropsByKey.get edgeKey).getD JsMap.empty⟩
    else none

def getEdgeProps (state : WarpStateV5 V) (edge : EdgeRef) : Except JsError (Option (JsMap JsString (Option V))) := do
  if orsetContains state.edgeAlive edge.key = false then return none
  else if !orsetContains state.nodeAlive edge.fromId || !orsetContains state.nodeAlive edge.toId then return none
  else
    let props ← state.prop.entries.foldlM (fun props entry =>
      if isEdgePropKey entry.1 then do
        let decoded ← decodeEdgePropKey entry.1
        if decoded.1 = edge then
          if isBeforeBirth state edge.key entry.2 then return props
          else return props.set decoded.2 entry.2.value
        else return props
      else return props) JsMap.empty
    return some props

structure NeighborEntry where
  neighborId : JsString
  label : JsString
  deriving DecidableEq

structure Adjacency where
  outgoing : JsMap JsString (List NeighborEntry)
  incoming : JsMap JsString (List NeighborEntry)

def compareNeighbors (a b : NeighborEntry) : Int :=
  if a.neighborId ≠ b.neighborId then if a.neighborId < b.neighborId then -1 else 1
  else if a.label < b.label then -1 else if b.label < a.label then 1 else 0

def sortNeighbors (list : List NeighborEntry) : List NeighborEntry :=
  list.insertionSort fun a b => compareNeighbors a b ≤ 0

/-- The edge with these endpoints is put into both maps. -/
def Adjacency.push (maps : Adjacency) (edge : EdgeRef) : Adjacency where
  outgoing := maps.outgoing.set edge.fromId
    ((maps.outgoing.get edge.fromId).getD [] ++ [⟨edge.toId, edge.label⟩])
  incoming := maps.incoming.set edge.toId
    ((maps.incoming.get edge.toId).getD [] ++ [⟨edge.fromId, edge.label⟩])

def Adjacency.sorted (maps : Adjacency) : Adjacency where
  outgoing := maps.outgoing.mapValues fun _ list => sortNeighbors list
  incoming := maps.incoming.mapValues fun _ list => sortNeighbors list

def buildAdjacency (state : WarpStateV5 V) : Adjacency :=
  let maps := (orsetElements state.edgeAlive).foldl (fun (maps : Adjacency) edgeKey =>
    let edge := decodeEdgeKey edgeKey
    if !orsetContains state.nodeAlive edge.fromId || !orsetContains state.nodeAlive edge.toId then maps
    else maps.push edge) ⟨JsMap.empty, JsMap.empty⟩
  maps.sorted

/-! ### Clean states -/

/-- A key under which the property of a node is stored. -/
def IsNodePropKey (key : JsString) : Prop :=
  ∃ node name, NoReservedBytes node ∧ NoReservedBytes name ∧ key = encodePropKey node name

/-- A key under which the property of an edge is stored. -/
def IsEdgePropKey (key : JsString) : Prop :=
  ∃ edge name, EdgeRef.NoReservedBytes edge ∧ NoReservedBytes name ∧
    key = encodeEdgePropKey edge.fromId edge.toId edge.label name

/-- No identifier in the state has a reserved byte. -/
structure CleanState (state : WarpStateV5 V) : Prop where
  nodes : ∀ node, orsetContains state.nodeAlive node = true → NoReservedBytes node
  edges : ∀ key, orsetContains state.edgeAlive key = true → ∃ edge, EdgeRef.NoReservedBytes edge ∧ key = edge.key
  props : ∀ key, (state.prop.get key).isSome → IsNodePropKey key ∨ IsEdgePropKey key

/-- What an operation of a builder adds or sets has clean identifiers. -/
structure CleanOp (op : OpV2 V) : Prop where
  node : ∀ element encoded, op.addPair false = some (element, encoded) → NoReservedBytes element
  edge : ∀ element encoded, op.addPair true = some (element, encoded) →
    ∃ edge, EdgeRef.NoReservedBytes edge ∧ element = edge.key
  prop : ∀ key value, op.write = some (key, value) → IsNodePropKey key ∨ IsEdgePropKey key

theorem noReservedBytes_content : NoReservedBytes contentPropertyKey ∧ NoReservedBytes contentSizePropertyKey ∧
    NoReservedBytes contentMimePropertyKey := by decide

theorem cleanOp_nodePropSet {node name : JsString} (value : Option V) (hnode : NoReservedBytes node)
    (hname : NoReservedBytes name) : CleanOp (.nodePropSet node name value) where
  node := nofun
  edge := nofun
  prop _ _ h := by
    cases h
    exact Or.inl ⟨node, name, hnode, hname, rfl⟩

theorem cleanOp_edgePropSet {edge : EdgeRef} {name : JsString} (value : Option V) (hedge : edge.NoReservedBytes)
    (hname : NoReservedBytes name) : CleanOp (.edgePropSet edge name value) where
  node := nofun
  edge := nofun
  prop _ _ h := by
    cases h
    exact Or.inr ⟨edge, name, hedge, hname, rfl⟩

theorem cleanOp_of_callOps {state : Option (WarpStateV5 V)} {call : BuilderCall V} {ops : List (OpV2 V)}
    (h : CallOps state call ops) {op : OpV2 V} (hop : op ∈ ops) : CleanOp op := by
  have hremove : ∀ node dots, CleanOp (.nodeRemove node dots : OpV2 V) := fun _ _ => ⟨nofun, nofun, nofun⟩
  have hedgeRemove : ∀ f t l dots, CleanOp (.edgeRemove f t l dots : OpV2 V) :=
    fun _ _ _ _ => ⟨nofun, nofun, nofun⟩
  obtain ⟨hcontent, hsize, hmime⟩ := noReservedBytes_content
  cases h with
  | addNode nodeId dot hclean =>
      cases List.mem_singleton.mp hop
      exact ⟨fun _ _ h => by cases h; exact hclean, nofun, nofun⟩
  | addEdge edge dot hclean =>
      cases List.mem_singleton.mp hop
      exact ⟨nofun, fun _ _ h => by cases h; exact ⟨edge, hclean, rfl⟩, nofun⟩
  | removeNode nodeId =>
      cases List.mem_singleton.mp hop
      exact hremove _ _
  | cascade nodeId seen hseen =>
      rcases List.mem_append.mp hop with hop | hop
      · obtain ⟨key, -, rfl⟩ := List.mem_map.mp hop
        exact hedgeRemove _ _ _ _
      · cases List.mem_singleton.mp hop
        exact hremove _ _
  | removeEdge edge =>
      cases List.mem_singleton.mp hop
      exact hedgeRemove _ _ _ _
  | setProperty nodeId key value hnode hkey =>
      cases List.mem_singleton.mp hop
      exact cleanOp_nodePropSet value hnode hkey
  | setEdgeProperty edge key value hedge hkey =>
      cases List.mem_singleton.mp hop
      exact cleanOp_edgePropSet value hedge hkey
  | attachContent nodeId oid size mime hnode =>
      simp only [List.mem_cons, List.not_mem_nil, or_false] at hop
      rcases hop with rfl | rfl | rfl
      · exact cleanOp_nodePropSet oid hnode hcontent
      · exact cleanOp_nodePropSet size hnode hsize
      · exact cleanOp_nodePropSet mime hnode hmime
  | attachEdgeContent edge oid size mime hedge =>
      simp only [List.mem_cons, List.not_mem_nil, or_false] at hop
      rcases hop with rfl | rfl | rfl
      · exact cleanOp_edgePropSet oid hedge hcontent
      · exact cleanOp_edgePropSet size hedge hsize
      · exact cleanOp_edgePropSet mime hedge hmime

/-- A patch of a builder adds clean identifiers. -/
theorem cleanOp_of_adds {seen : Option (WarpStateV5 V)} {calls : List (BuilderCall V)} {entry : PatchEntry V}
    (hbuilt : BuiltBy seen calls entry.patch) {edges : Bool} {pair : JsString × JsString} (h : entry.Adds edges pair) :
    ∃ op : OpV2 V, CleanOp op ∧ op.addPair edges = some pair := by
  obtain ⟨raw, hraw, hadd⟩ := h
  obtain ⟨call, ops, op, hcall, hop, rfl⟩ := hbuilt.exists_canonical hraw
  rw [(lowerCanonicalOp_parts op edges).1] at hadd
  exact ⟨op, cleanOp_of_callOps hcall hop, hadd⟩

/-- A patch of a builder sets properties under clean keys. -/
theorem cleanKey_of_sets {seen : Option (WarpStateV5 V)} {calls : List (BuilderCall V)} {entry : PatchEntry V}
    (hbuilt : BuiltBy seen calls entry.patch) {key : JsString} (h : entry.Sets key) :
    IsNodePropKey key ∨ IsEdgePropKey key := by
  obtain ⟨raw, hraw, op, value, hnorm, hwrite⟩ := h
  obtain ⟨call, ops, op', hcall, hop, rfl⟩ := hbuilt.exists_canonical hraw
  rcases roundTrip_of_callOps hcall hop with hback | ⟨-, hthrown⟩
  · rw [hback, Except.ok.injEq] at hnorm
    subst hnorm
    exact (cleanOp_of_callOps hcall hop).prop key value hwrite
  · rw [hthrown] at hnorm
    cases hnorm

/-- The states that patches of builders replay to are clean. -/
theorem cleanState_reduceV5 {entries : List (PatchEntry V)} {state : WarpStateV5 V}
    (hbuilt : ∀ entry ∈ entries, ∃ seen calls, BuiltBy seen calls entry.patch) (h : reduceV5 entries = .ok state) :
    CleanState state := by
  have hadds : ∀ edges element, orsetContains (state.part edges) element = true →
      ∃ op : OpV2 V, CleanOp op ∧ ∃ encoded, op.addPair edges = some (element, encoded) := by
    intro edges element halive
    obtain ⟨encoded, ⟨entry, hentry, hadd⟩, -⟩ := (orsetContains_reduceV5 h edges element).mp halive
    obtain ⟨seen, calls, hpatch⟩ := hbuilt entry hentry
    obtain ⟨op, hclean, hop⟩ := cleanOp_of_adds hpatch hadd
    exact ⟨op, hclean, encoded, hop⟩
  refine ⟨fun node halive => ?_, fun key halive => ?_, fun key hkey => ?_⟩
  · obtain ⟨op, hclean, encoded, hadd⟩ := hadds false node halive
    exact hclean.node node encoded hadd
  · obtain ⟨op, hclean, encoded, hadd⟩ := hadds true key halive
    exact hclean.edge key encoded hadd
  · obtain ⟨reads, hreads, rfl⟩ := reduceV5_eq_ok_iff.mp h
    obtain ⟨entry, hentry, hsets⟩ := sets_of_register hreads hkey
    obtain ⟨seen, calls, hpatch⟩ := hbuilt entry hentry
    exact cleanKey_of_sets hpatch hsets

/-! ### Keys of clean properties -/

theorem decodePropKey_edgeKey {edge : EdgeRef} (hedge : edge.NoReservedBytes) (name : JsString) :
    (decodePropKey (encodeEdgePropKey edge.fromId edge.toId edge.label name)).1 = edgePropPrefix :: edge.fromId := by
  have hfrom : fieldSeparator ∉ edgePropPrefix :: edge.fromId := by
    rw [List.mem_cons, not_or]
    exact ⟨by decide, hedge.1.1⟩
  rw [decodePropKey, encodeEdgePropKey, ← List.cons_append, splitOn_field hfrom]
  rfl

theorem isEdgePropKey_nodeKey {node : JsString} (hnode : NoReservedBytes node) (name : JsString) :
    isEdgePropKey (encodePropKey node name) = false := by
  refine decide_eq_false ?_
  unfold encodePropKey
  cases node with
  | nil => exact fun h => absurd (Option.some.inj h) (by decide)
  | cons c rest => exact hnode.2

theorem isEdgePropKey_edgeKey (edge : EdgeRef) (name : JsString) :
    isEdgePropKey (encodeEdgePropKey edge.fromId edge.toId edge.label name) = true := rfl

theorem decodeEdgePropKey_edgeKey {edge : EdgeRef} (hedge : edge.NoReservedBytes) {name : JsString}
    (hname : NoReservedBytes name) :
    decodeEdgePropKey (encodeEdgePropKey edge.fromId edge.toId edge.label name) = .ok (edge, name) := by
  have hparts : (encodeEdgePropKey edge.fromId edge.toId edge.label name).tail.splitOn fieldSeparator =
      [edge.fromId, edge.toId, edge.label, name] := by
    rw [encodeEdgePropKey, List.tail_cons, splitOn_field hedge.1.1, splitOn_field hedge.2.1.1,
      splitOn_field hedge.2.2.1, splitOn_clean hname.1]
  unfold decodeEdgePropKey
  rw [isEdgePropKey_edgeKey, hparts]
  rfl

section Clean

variable {state : WarpStateV5 V} (hclean : CleanState state)

include hclean

/-- A register that is found under a decoded node property is the one under its key. -/
theorem CleanState.nodeKey_of_decode {key node : JsString} (hkey : (state.prop.get key).isSome)
    (hnode : NoReservedBytes node) (hdecoded : (decodePropKey key).1 = node) :
    key = encodePropKey node (decodePropKey key).2 := by
  rcases hclean.props key hkey with ⟨n, name, hn, hname, rfl⟩ | ⟨edge, name, hedge, hname, rfl⟩
  · rw [decodePropKey_encodePropKey hn.1 hname.1] at hdecoded ⊢
    rw [← hdecoded]
  · rw [decodePropKey_edgeKey hedge] at hdecoded
    subst hdecoded
    exact absurd rfl hnode.2

theorem CleanState.decode_nodeKey {node name : JsString} (hnode : NoReservedBytes node)
    (hkey : (state.prop.get (encodePropKey node name)).isSome) :
    decodePropKey (encodePropKey node name) = (node, name) := by
  rcases hclean.props _ hkey with ⟨n, k, hn, hk, heq⟩ | ⟨edge, k, hedge, -, heq⟩
  · obtain ⟨rfl, rfl⟩ := encodePropKey_inj hnode.1 hn.1 heq
    exact decodePropKey_encodePropKey hn.1 hk.1
  · have hhead := isEdgePropKey_nodeKey hnode name
    rw [heq, isEdgePropKey_edgeKey] at hhead
    cases hhead

/-- What `getNodeProps` lists for an alive node. -/
theorem CleanState.getNodeProps_eq {node : JsString} (halive : orsetContains state.nodeAlive node = true) :
    ∃ props, getNodeProps state node = some props ∧ ∀ name value, props.get name = some value ↔
      ∃ register, state.prop.get (encodePropKey node name) = some register ∧ register.value = value := by
  have hnode := hclean.nodes node halive
  let pick (entry : JsString × LWWRegister V) : Option (JsString × Option V) :=
    if (decodePropKey entry.1).1 = node then some ((decodePropKey entry.1).2, entry.2.value) else none
  have hpick : ∀ {key register p}, state.prop.get key = some register → (pick (key, register) = some p ↔
      key = encodePropKey node p.1 ∧ register.value = p.2) := by
    intro key register p hget
    have hsome : (state.prop.get key).isSome := by rw [hget]; rfl
    constructor
    · intro hp
      simp only [pick] at hp
      split at hp
      · rename_i hdecoded
        cases hp
        exact ⟨hclean.nodeKey_of_decode hsome hnode hdecoded, rfl⟩
      · cases hp
    · rintro ⟨rfl, hvalue⟩
      simp only [pick, hclean.decode_nodeKey hnode hsome, if_true, hvalue]
  refine ⟨state.prop.entries.foldl (fun props entry => (pick entry).elim props fun p => props.set p.1 p.2)
    JsMap.empty, ?_, fun name value => ?_⟩
  · unfold getNodeProps nodeVisibleV5
    rw [halive, if_pos rfl]
    congr 2
    funext props entry
    simp only [pick]
    split <;> rfl
  · rw [JsMap.get_collect_iff]
    · constructor
      · rintro ⟨key, register, hget, hp⟩
        obtain ⟨rfl, hvalue⟩ := (hpick hget).mp hp
        exact ⟨register, hget, hvalue⟩
      · rintro ⟨register, hget, hvalue⟩
        exact ⟨_, register, hget, (hpick hget).mpr ⟨rfl, hvalue⟩⟩
    · intro a ha b hb p q hp hq hsame
      have ha' := (state.prop.get_eq_some_iff a.1 a.2).mpr ha
      have hb' := (state.prop.get_eq_some_iff b.1 b.2).mpr hb
      rw [((hpick ha').mp hp).1, ((hpick hb').mp hq).1, hsame]

/-- The edges that readers see. -/
def EdgeShown (state : WarpStateV5 V) (edge : EdgeRef) : Prop :=
  ∃ key, orsetContains state.edgeAlive key = true ∧ decodeEdgeKey key = edge ∧
    orsetContains state.nodeAlive edge.fromId = true ∧ orsetContains state.nodeAlive edge.toId = true

theorem CleanState.edgeShown_iff {edge : EdgeRef} : EdgeShown state edge ↔ edge.NoReservedBytes ∧
    orsetContains state.edgeAlive edge.key = true ∧ orsetContains state.nodeAlive edge.fromId = true ∧
      orsetContains state.nodeAlive edge.toId = true := by
  constructor
  · rintro ⟨key, halive, rfl, hends⟩
    obtain ⟨edge, hedge, rfl⟩ := hclean.edges key halive
    rw [decodeEdgeKey_key hedge.clean] at hends ⊢
    exact ⟨hedge, halive, hends⟩
  · rintro ⟨hedge, halive, hends⟩
    exact ⟨edge.key, halive, decodeEdgeKey_key hedge.clean, hends⟩

/-- What an entry of `prop` adds to the properties of edges: the key of the edge, the name and the value. -/
def edgePropOf (state : WarpStateV5 V) (entry : JsString × LWWRegister V) :
    Option (JsString × JsString × Option V) :=
  if isEdgePropKey entry.1 then
    match decodeEdgePropKey entry.1 with
    | .ok decoded =>
        if isBeforeBirth state decoded.1.key entry.2 then none
        else some (decoded.1.key, decoded.2, entry.2.value)
    | .error _ => none
  else none

/-- `edgePropsByKey` after the loop of `getEdges`. -/
def edgeBags (state : WarpStateV5 V) : JsMap JsString (JsMap JsString (Option V)) :=
  state.prop.entries.foldl (fun bags entry => (edgePropOf state entry).elim bags fun p =>
    bags.set p.1 (((bags.get p.1).getD JsMap.empty).set p.2.1 p.2.2)) JsMap.empty

theorem CleanState.edgePropOf_iff {key : JsString} {register : LWWRegister V}
    (hget : state.prop.get key = some register) {outer name : JsString} {value : Option V} :
    edgePropOf state (key, register) = some (outer, name, value) ↔ ∃ edge, EdgeRef.NoReservedBytes edge ∧
      outer = edge.key ∧ key = encodeEdgePropKey edge.fromId edge.toId edge.label name ∧
      isBeforeBirth state edge.key register = false ∧ register.value = value := by
  have hsome : (state.prop.get key).isSome := by rw [hget]; rfl
  unfold edgePropOf
  rcases hclean.props key hsome with ⟨n, k, hn, hk, rfl⟩ | ⟨e, k, he, hk, rfl⟩
  · have hhead := isEdgePropKey_nodeKey hn k
    simp only [hhead, Bool.false_eq_true, if_false]
    refine iff_of_false nofun ?_
    rintro ⟨edge, -, -, heq, -⟩
    rw [heq, isEdgePropKey_edgeKey] at hhead
    cases hhead
  · simp only [isEdgePropKey_edgeKey, if_true, decodeEdgePropKey_edgeKey he hk]
    constructor
    · intro h
      split at h
      · cases h
      · rename_i hbirth
        cases h
        exact ⟨e, he, rfl, rfl, Bool.eq_false_of_not_eq_true hbirth, rfl⟩
    · rintro ⟨edge, hedge, rfl, heq, hbirth, rfl⟩
      obtain ⟨rfl, rfl⟩ := encodeEdgePropKey_inj he.clean hedge.clean heq
      rw [if_neg (Bool.not_eq_true _ ▸ hbirth)]

theorem CleanState.get_edgeBags_iff {edge : EdgeRef} (hedge : edge.NoReservedBytes) (name : JsString)
    (value : Option V) : (((edgeBags state).get edge.key).getD JsMap.empty).get name = some value ↔
      ∃ register, state.prop.get (encodeEdgePropKey edge.fromId edge.toId edge.label name) = some register ∧
        isBeforeBirth state edge.key register = false ∧ register.value = value := by
  unfold edgeBags
  rw [JsMap.get_collectBags_iff]
  · constructor
    · rintro ⟨key, register, hget, hp⟩
      obtain ⟨e, he, hkey, rfl, hbirth, hvalue⟩ := (hclean.edgePropOf_iff hget).mp hp
      obtain rfl := EdgeRef.key_inj hedge.clean he.clean hkey
      exact ⟨register, hget, hbirth, hvalue⟩
    · rintro ⟨register, hget, hbirth, hvalue⟩
      exact ⟨_, register, hget, (hclean.edgePropOf_iff hget).mpr ⟨edge, hedge, rfl, rfl, hbirth, hvalue⟩⟩
  · rintro ⟨key, register⟩ ha ⟨key', register'⟩ hb ⟨o, n, v⟩ ⟨o', n', v'⟩ hp hq hsame
    have hget := (state.prop.get_eq_some_iff _ _).mpr ha
    have hget' := (state.prop.get_eq_some_iff _ _).mpr hb
    obtain ⟨e, he, rfl, rfl, -⟩ := (hclean.edgePropOf_iff hget).mp hp
    obtain ⟨e', he', rfl, rfl, -⟩ := (hclean.edgePropOf_iff hget').mp hq
    obtain ⟨hkeys, hnames⟩ := Prod.mk.inj hsame
    obtain rfl := EdgeRef.key_inj he.clean he'.clean hkeys
    exact congrArg (encodeEdgePropKey e.fromId e.toId e.label) hnames

/-- No key of the state makes `getEdges` throw. -/
theorem CleanState.getEdges_ok : getEdges state = .ok ((orsetElements state.edgeAlive).filterMap fun edgeKey =>
    let edge := decodeEdgeKey edgeKey
    if nodeVisibleV5 state edge.fromId && nodeVisibleV5 state edge.toId then
      some ⟨edge, ((edgeBags state).get edgeKey).getD JsMap.empty⟩
    else none) := by
  unfold getEdges
  rw [foldlM_eq_foldl (f := fun bags entry => (edgePropOf state entry).elim bags fun p =>
    bags.set p.1 (((bags.get p.1).getD JsMap.empty).set p.2.1 p.2.2))]
  · rfl
  · intro entry hentry bags
    have hsome : (state.prop.get entry.1).isSome := by
      rw [(state.prop.get_eq_some_iff entry.1 entry.2).mpr hentry]
      rfl
    unfold edgePropOf
    rcases hclean.props entry.1 hsome with ⟨n, k, hn, hk, heq⟩ | ⟨e, k, he, hk, heq⟩
    · rw [heq, isEdgePropKey_nodeKey hn]
      rfl
    · rw [heq, decodeEdgePropKey_edgeKey he hk, isEdgePropKey_edgeKey, if_pos rfl, if_pos rfl]
      simp only [bind, Except.bind]
      split <;> rfl

/-- What `getEdges` lists: the visible edges, each with its properties that are not older than itself. -/
theorem CleanState.getEdges_eq : ∃ edges, getEdges state = .ok edges ∧
    (∀ edge, edge ∈ edges.map GraphEdge.edge ↔ EdgeShown state edge) ∧
    ∀ listed ∈ edges, ∀ name value, listed.props.get name = some value ↔
      ∃ register, state.prop.get
          (encodeEdgePropKey listed.edge.fromId listed.edge.toId listed.edge.label name) = some register ∧
        isBeforeBirth state listed.edge.key register = false ∧ register.value = value := by
  refine ⟨_, hclean.getEdges_ok, fun edge => ?_, fun listed hlisted name value => ?_⟩
  · rw [List.mem_map]
    constructor
    · rintro ⟨listed, hlisted, rfl⟩
      obtain ⟨key, halive, hsome⟩ := List.mem_filterMap.mp hlisted
      simp only [Option.ite_none_right_eq_some, Bool.and_eq_true, Option.some.injEq] at hsome
      obtain ⟨hends, rfl⟩ := hsome
      exact ⟨key, (mem_orsetElements _ _).mp halive, rfl, hends⟩
    · rintro ⟨key, halive, rfl, hends⟩
      refine ⟨_, List.mem_filterMap.mpr ⟨key, (mem_orsetElements _ _).mpr halive, if_pos ?_⟩, rfl⟩
      rw [Bool.and_eq_true]
      exact hends
  · obtain ⟨key, halive, hsome⟩ := List.mem_filterMap.mp hlisted
    simp only [Option.ite_none_right_eq_some, Option.some.injEq] at hsome
    obtain ⟨-, rfl⟩ := hsome
    obtain ⟨edge, hedge, rfl⟩ := hclean.edges key ((mem_orsetElements _ _).mp halive)
    simp only [decodeEdgeKey_key hedge.clean]
    exact hclean.get_edgeBags_iff hedge name value

/-- What `getEdgeProps` returns for a visible edge: its properties that are not older than itself. -/
theorem CleanState.getEdgeProps_eq {edge : EdgeRef} (hshown : EdgeShown state edge) :
    ∃ props, getEdgeProps state edge = .ok (some props) ∧ ∀ name value, props.get name = some value ↔
      ∃ register, state.prop.get (encodeEdgePropKey edge.fromId edge.toId edge.label name) = some register ∧
        isBeforeBirth state edge.key register = false ∧ register.value = value := by
  obtain ⟨key, halive, hdecode, hfrom, hto⟩ := hshown
  obtain ⟨e, hedge, rfl⟩ := hclean.edges key halive
  rw [decodeEdgeKey_key hedge.clean] at hdecode
  subst hdecode
  let pick (entry : JsString × LWWRegister V) : Option (JsString × Option V) :=
    (edgePropOf state entry).bind fun p => if p.1 = e.key then some p.2 else none
  have hpick : ∀ {key register name value}, state.prop.get key = some register →
      (pick (key, register) = some (name, value) ↔ key = encodeEdgePropKey e.fromId e.toId e.label name ∧
        isBeforeBirth state e.key register = false ∧ register.value = value) := by
    intro key register name value hget
    simp only [pick, Option.bind_eq_some_iff, Option.ite_none_right_eq_some, Option.some.injEq]
    constructor
    · rintro ⟨⟨outer, n, v⟩, hp, houter, hvalue⟩
      obtain ⟨e', he', rfl, hkey, hbirth, hregister⟩ := (hclean.edgePropOf_iff hget).mp hp
      obtain rfl := EdgeRef.key_inj he'.clean hedge.clean houter
      obtain ⟨rfl, rfl⟩ := Prod.mk.inj hvalue
      exact ⟨hkey, hbirth, hregister⟩
    · rintro ⟨hkey, hbirth, hregister⟩
      exact ⟨_, (hclean.edgePropOf_iff hget).mpr ⟨e, hedge, rfl, hkey, hbirth, hregister⟩, rfl, rfl⟩
  have hround : ∀ entry ∈ state.prop.entries, ∀ props : JsMap JsString (Option V),
      (if isEdgePropKey entry.1 then do
        let decoded ← decodeEdgePropKey entry.1
        if decoded.1 = e then
          if isBeforeBirth state e.key entry.2 then return props
          else return props.set decoded.2 entry.2.value
        else return props
      else return props) = (.ok ((pick entry).elim props fun p => props.set p.1 p.2) : Except JsError _) := by
    intro entry hentry props
    have hsome : (state.prop.get entry.1).isSome := by
      rw [(state.prop.get_eq_some_iff entry.1 entry.2).mpr hentry]
      rfl
    simp only [pick, edgePropOf]
    rcases hclean.props entry.1 hsome with ⟨n, k, hn, hk, heq⟩ | ⟨e', k, he', hk, heq⟩
    · rw [heq, isEdgePropKey_nodeKey hn]
      rfl
    · rw [heq, decodeEdgePropKey_edgeKey he' hk, isEdgePropKey_edgeKey, if_pos rfl, if_pos rfl]
      simp only [bind, Except.bind]
      by_cases hsame : e' = e
      · subst hsame
        rw [if_pos rfl]
        split <;> simp [*] <;> rfl
      · have hkeys : e'.key ≠ e.key := fun h => hsame (EdgeRef.key_inj he'.clean hedge.clean h)
        rw [if_neg hsame]
        split <;> simp [hkeys] <;> rfl
  refine ⟨state.prop.entries.foldl (fun props entry => (pick entry).elim props fun p => props.set p.1 p.2) JsMap.empty,
    ?_, fun name value => ?_⟩
  · unfold getEdgeProps
    rw [if_neg (by rw [halive]; exact Bool.true_eq_false.mp), if_neg (by rw [hfrom, hto]; exact Bool.false_ne_true),
      foldlM_eq_foldl hround]
    rfl
  · rw [JsMap.get_collect_iff]
    · constructor
      · rintro ⟨key, register, hget, hp⟩
        obtain ⟨rfl, hbirth, hvalue⟩ := (hpick hget).mp hp
        exact ⟨register, hget, hbirth, hvalue⟩
      · rintro ⟨register, hget, hbirth, hvalue⟩
        exact ⟨_, register, hget, (hpick hget).mpr ⟨rfl, hbirth, hvalue⟩⟩
    · intro a ha b hb p q hp hq hsame
      have ha' := (state.prop.get_eq_some_iff a.1 a.2).mpr ha
      have hb' := (state.prop.get_eq_some_iff b.1 b.2).mpr hb
      rw [((hpick ha').mp hp).1, ((hpick hb').mp hq).1, hsame]

end Clean

/-! ### Adjacency -/

/-- The edges that the outgoing lists name. -/
def Adjacency.outgoingEdges (maps : Adjacency) : Set EdgeRef :=
  {edge | ∃ list, maps.outgoing.get edge.fromId = some list ∧ ⟨edge.toId, edge.label⟩ ∈ list}

/-- The edges that the incoming lists name. -/
def Adjacency.incomingEdges (maps : Adjacency) : Set EdgeRef :=
  {edge | ∃ list, maps.incoming.get edge.toId = some list ∧ ⟨edge.fromId, edge.label⟩ ∈ list}

theorem mem_push (lists : JsMap JsString (List NeighborEntry)) (key key' : JsString) (entry entry' : NeighborEntry) :
    (∃ list, (lists.set key ((lists.get key).getD [] ++ [entry])).get key' = some list ∧ entry' ∈ list) ↔
      (∃ list, lists.get key' = some list ∧ entry' ∈ list) ∨ key' = key ∧ entry' = entry := by
  rw [JsMap.get_set]
  by_cases hkey : key' = key
  · subst hkey
    cases lists.get key' with
    | none => simp
    | some list => simp
  · simp [hkey]

theorem Adjacency.mem_outgoing_foldl (edges : List EdgeRef) (maps : Adjacency) (edge : EdgeRef) :
    edge ∈ (edges.foldl push maps).outgoingEdges ↔ edge ∈ maps.outgoingEdges ∨ edge ∈ edges := by
  induction edges generalizing maps with
  | nil => simp
  | cons e rest ih =>
      have hpush : edge ∈ (maps.push e).outgoingEdges ↔ edge ∈ maps.outgoingEdges ∨ edge = e := by
        refine (mem_push maps.outgoing e.fromId edge.fromId _ _).trans (or_congr_right ?_)
        rw [NeighborEntry.mk.injEq, ← and_assoc]
        exact ⟨fun h => by cases edge; cases e; simp_all, fun h => by rw [h]; exact ⟨⟨rfl, rfl⟩, rfl⟩⟩
      rw [List.foldl_cons, ih, hpush, List.mem_cons, or_assoc]

theorem Adjacency.mem_incoming_foldl (edges : List EdgeRef) (maps : Adjacency) (edge : EdgeRef) :
    edge ∈ (edges.foldl push maps).incomingEdges ↔ edge ∈ maps.incomingEdges ∨ edge ∈ edges := by
  induction edges generalizing maps with
  | nil => simp
  | cons e rest ih =>
      have hpush : edge ∈ (maps.push e).incomingEdges ↔ edge ∈ maps.incomingEdges ∨ edge = e := by
        refine (mem_push maps.incoming e.toId edge.toId _ _).trans (or_congr_right ?_)
        rw [NeighborEntry.mk.injEq, ← and_assoc]
        exact ⟨fun h => by cases edge; cases e; simp_all, fun h => by rw [h]; exact ⟨⟨rfl, rfl⟩, rfl⟩⟩
      rw [List.foldl_cons, ih, hpush, List.mem_cons, or_assoc]

theorem exists_sorted_iff (lists : JsMap JsString (List NeighborEntry)) (key : JsString) (entry : NeighborEntry) :
    (∃ list, (lists.mapValues fun _ list => sortNeighbors list).get key = some list ∧ entry ∈ list) ↔
      ∃ list, lists.get key = some list ∧ entry ∈ list := by
  rw [JsMap.get_mapValues]
  cases lists.get key with
  | none => simp
  | some list => simp [sortNeighbors]

/-- The edges that `_buildAdjacency` puts into its maps. -/
theorem mem_buildAdjacency (state : WarpStateV5 V) (edge : EdgeRef) :
    (edge ∈ (buildAdjacency state).outgoingEdges ↔ EdgeShown state edge) ∧
      (edge ∈ (buildAdjacency state).incomingEdges ↔ EdgeShown state edge) := by
  let pick (edgeKey : JsString) : Option EdgeRef :=
    let edge := decodeEdgeKey edgeKey
    if !orsetContains state.nodeAlive edge.fromId || !orsetContains state.nodeAlive edge.toId then none else some edge
  have hloop : buildAdjacency state =
      (((orsetElements state.edgeAlive).filterMap pick).foldl Adjacency.push ⟨JsMap.empty, JsMap.empty⟩).sorted := by
    rw [List.foldl_filterMap]
    refine congrArg Adjacency.sorted (congrArg (fun step => List.foldl step _ _) ?_)
    funext maps key
    simp only [pick]
    split <;> rfl
  have hpick : edge ∈ (orsetElements state.edgeAlive).filterMap pick ↔ EdgeShown state edge := by
    simp only [List.mem_filterMap, pick, mem_orsetElements, Option.ite_none_left_eq_some, Option.some.injEq,
      Bool.or_eq_true, Bool.not_eq_true', not_or, Bool.not_eq_false]
    constructor
    · rintro ⟨key, halive, hends, rfl⟩
      exact ⟨key, halive, rfl, hends⟩
    · rintro ⟨key, halive, rfl, hends⟩
      exact ⟨key, halive, hends, rfl⟩
  have hempty : edge ∉ (⟨JsMap.empty, JsMap.empty⟩ : Adjacency).outgoingEdges ∧
      edge ∉ (⟨JsMap.empty, JsMap.empty⟩ : Adjacency).incomingEdges :=
    ⟨fun ⟨_, h, _⟩ => (nomatch h), fun ⟨_, h, _⟩ => (nomatch h)⟩
  rw [hloop]
  constructor
  · refine (exists_sorted_iff _ _ _).trans ((Adjacency.mem_outgoing_foldl _ _ _).trans ?_)
    rw [hpick, or_iff_right hempty.1]
  · refine (exists_sorted_iff _ _ _).trans ((Adjacency.mem_incoming_foldl _ _ _).trans ?_)
    rw [hpick, or_iff_right hempty.2]

end GitWarp
