import GitWarp.ObserverView
import GitWarp.StateDiff

/-! The server of live graphs: what it makes of a state for its clients. -/

namespace GitWarp
open Js ExceptLoops

namespace WarpServe

variable {V : Type}

/-- A node as it is sent to clients. -/
structure PlainNode (V : Type) where
  id : JsString
  props : PlainObject (Option V)

structure SerializedState (V : Type) where
  graph : JsString
  nodes : List (PlainNode V)
  edges : List (PlainEdge V)
  frontier : PlainObject Nat

/-- `nodePropsMap` and `edgePropsMap`. -/
structure PropMaps (V : Type) where
  nodes : JsMap JsString (PlainObject (Option V))
  edges : JsMap JsString (PlainObject (Option V))

/-- `props = map.get(owner) ?? {}; props[name] = value` -/
def assignIn (map : JsMap JsString (PlainObject (Option V))) (owner name : JsString) (value : Option V) :
    JsMap JsString (PlainObject (Option V)) :=
  map.set owner (((map.get owner).getD PlainObject.empty).assign name value)

def collectProp (maps : PropMaps V) (entry : JsString × LWWRegister V) : Except JsError (PropMaps V) :=
  if isEdgePropKey entry.1 then do
    let decoded ← decodeEdgePropKey entry.1
    return { maps with edges := assignIn maps.edges decoded.1.key decoded.2 (lwwValue (some entry.2)) }
  else
    let decoded := decodePropKey entry.1
    .ok { maps with nodes := assignIn maps.nodes decoded.1 decoded.2 (lwwValue (some entry.2)) }

def serializeState (graphName : JsString) (state : WarpStateV5 V) : Except JsError (SerializedState V) := do
  let maps ← state.prop.entries.foldlM collectProp ⟨JsMap.empty, JsMap.empty⟩
  return {
    graph := graphName
    nodes := (orsetElements state.nodeAlive).map fun nodeId => ⟨nodeId, (maps.nodes.get nodeId).getD PlainObject.empty⟩
    edges := (orsetElements state.edgeAlive).map fun edgeKey =>
      ⟨decodeEdgeKey edgeKey, (maps.edges.get edgeKey).getD PlainObject.empty⟩
    frontier := state.observedFrontier.entries.foldl (fun frontier entry => frontier.assign entry.1 entry.2)
      PlainObject.empty }

/-! ### What is sent of a clean state -/

/-- What an entry of `prop` adds to the properties of nodes. -/
def sentNodeProp (entry : JsString × LWWRegister V) : Option (JsString × JsString × Option V) :=
  if isEdgePropKey entry.1 then none else some ((decodePropKey entry.1).1, (decodePropKey entry.1).2, entry.2.value)

/-- What an entry of `prop` adds to the properties of edges. -/
def sentEdgeProp (entry : JsString × LWWRegister V) : Option (JsString × JsString × Option V) :=
  if isEdgePropKey entry.1 then
    (decodeEdgePropKey entry.1).toOption.map fun decoded => (decoded.1.key, decoded.2, entry.2.value)
  else none

section Clean

variable {state : WarpStateV5 V} (hclean : CleanState state)

include hclean

theorem collectProp_ok {entry : JsString × LWWRegister V} (hentry : entry ∈ state.prop.entries) (maps : PropMaps V) :
    collectProp maps entry = .ok
      ⟨(sentNodeProp entry).elim maps.nodes fun p => assignIn maps.nodes p.1 p.2.1 p.2.2,
        (sentEdgeProp entry).elim maps.edges fun p => assignIn maps.edges p.1 p.2.1 p.2.2⟩ := by
  have hsome : (state.prop.get entry.1).isSome := by
    rw [(state.prop.get_eq_some_iff entry.1 entry.2).mpr hentry]
    rfl
  unfold collectProp sentNodeProp sentEdgeProp
  rcases hclean.props entry.1 hsome with ⟨n, k, hn, -, heq⟩ | ⟨e, k, he, hk, heq⟩
  · rw [heq, isEdgePropKey_nodeKey hn]
    rfl
  · rw [heq, isEdgePropKey_edgeKey, decodeEdgePropKey_edgeKey he hk]
    rfl

theorem sentEdgeProp_iff {key : JsString} {register : LWWRegister V} (hget : state.prop.get key = some register)
    {outer name : JsString} {value : Option V} : sentEdgeProp (key, register) = some (outer, name, value) ↔
      ∃ edge, EdgeRef.NoReservedBytes edge ∧ outer = edge.key ∧
        key = encodeEdgePropKey edge.fromId edge.toId edge.label name ∧ register.value = value := by
  have hsome : (state.prop.get key).isSome := by rw [hget]; rfl
  unfold sentEdgeProp
  rcases hclean.props key hsome with ⟨n, k, hn, hk, rfl⟩ | ⟨e, k, he, hk, rfl⟩
  · have hhead := isEdgePropKey_nodeKey hn k
    simp only [hhead, Bool.false_eq_true, if_false]
    refine iff_of_false nofun ?_
    rintro ⟨edge, -, -, heq, -⟩
    rw [heq, isEdgePropKey_edgeKey] at hhead
    cases hhead
  · simp only [isEdgePropKey_edgeKey, if_true, decodeEdgePropKey_edgeKey he hk, Except.toOption, Option.map_some,
      Option.some.injEq, Prod.mk.injEq]
    constructor
    · rintro ⟨rfl, rfl, rfl⟩
      exact ⟨e, he, rfl, rfl, rfl⟩
    · rintro ⟨edge, hedge, rfl, heq, rfl⟩
      obtain ⟨rfl, rfl⟩ := encodeEdgePropKey_inj he.clean hedge.clean heq
      exact ⟨rfl, rfl, rfl⟩

theorem sentNodeProp_iff {key : JsString} {register : LWWRegister V} (hget : state.prop.get key = some register)
    {node name : JsString} (hnode : NoReservedBytes node) {value : Option V} :
    sentNodeProp (key, register) = some (node, name, value) ↔ key = encodePropKey node name ∧ register.value = value := by
  have hsome : (state.prop.get key).isSome := by rw [hget]; rfl
  unfold sentNodeProp
  rcases hclean.props key hsome with ⟨n, k, hn, hk, rfl⟩ | ⟨e, k, he, hk, rfl⟩
  · simp only [isEdgePropKey_nodeKey hn k, Bool.false_eq_true, if_false, decodePropKey_encodePropKey hn.1 hk.1,
      Option.some.injEq, Prod.mk.injEq]
    constructor
    · rintro ⟨rfl, rfl, rfl⟩
      exact ⟨rfl, rfl⟩
    · rintro ⟨heq, rfl⟩
      obtain ⟨rfl, rfl⟩ := encodePropKey_inj hn.1 hnode.1 heq
      exact ⟨rfl, rfl, rfl⟩
  · simp only [isEdgePropKey_edgeKey, if_true]
    refine iff_of_false nofun ?_
    rintro ⟨heq, -⟩
    have hhead := isEdgePropKey_nodeKey hnode name
    rw [← heq, isEdgePropKey_edgeKey] at hhead
    cases hhead

omit hclean in
/-- The two maps are filled each on its own. -/
theorem foldl_propMaps (entries : List (JsString × LWWRegister V)) (maps : PropMaps V) :
    entries.foldl (fun maps entry => (⟨(sentNodeProp entry).elim maps.nodes fun p => assignIn maps.nodes p.1 p.2.1 p.2.2,
        (sentEdgeProp entry).elim maps.edges fun p => assignIn maps.edges p.1 p.2.1 p.2.2⟩ : PropMaps V)) maps =
      ⟨entries.foldl (fun bags entry => (sentNodeProp entry).elim bags fun p => assignIn bags p.1 p.2.1 p.2.2) maps.nodes,
        entries.foldl (fun bags entry => (sentEdgeProp entry).elim bags fun p => assignIn bags p.1 p.2.1 p.2.2)
          maps.edges⟩ := by
  induction entries generalizing maps with
  | nil => rfl
  | cons entry rest ih => rw [List.foldl_cons, ih, List.foldl_cons, List.foldl_cons]

theorem serializeState_ok (graphName : JsString) : serializeState graphName state = .ok
    { graph := graphName
      nodes := (orsetElements state.nodeAlive).map fun nodeId =>
        ⟨nodeId, ((state.prop.entries.foldl (fun bags entry => (sentNodeProp entry).elim bags fun p =>
          assignIn bags p.1 p.2.1 p.2.2) JsMap.empty).get nodeId).getD PlainObject.empty⟩
      edges := (orsetElements state.edgeAlive).map fun edgeKey =>
        ⟨decodeEdgeKey edgeKey, ((state.prop.entries.foldl (fun bags entry => (sentEdgeProp entry).elim bags fun p =>
          assignIn bags p.1 p.2.1 p.2.2) JsMap.empty).get edgeKey).getD PlainObject.empty⟩
      frontier := state.observedFrontier.entries.foldl (fun frontier entry => frontier.assign entry.1 entry.2)
        PlainObject.empty } := by
  unfold serializeState
  rw [foldlM_eq_foldl fun entry hentry maps => collectProp_ok hclean hentry maps, foldl_propMaps]
  rfl

/-- What `serializeState` sends of the edges: the alive ones, each with all its properties but `__proto__`. -/
theorem serializeState_edges (graphName : JsString) : ∃ sent, serializeState graphName state = .ok sent ∧
    (∀ edge, edge ∈ sent.edges.map PlainEdge.edge ↔ edge.NoReservedBytes ∧
      orsetContains state.edgeAlive edge.key = true) ∧
    ∀ item ∈ sent.edges, ∀ name, item.props.props.get name = if name = protoKey then none else
      (state.prop.get (encodeEdgePropKey item.edge.fromId item.edge.toId item.edge.label name)).map
        LWWRegister.value := by
  refine ⟨_, serializeState_ok hclean graphName, fun edge => ?_, fun item hitem name => ?_⟩
  · simp only [List.map_map, List.mem_map, mem_orsetElements, Function.comp_apply]
    constructor
    · rintro ⟨key, halive, rfl⟩
      obtain ⟨edge, hedge, rfl⟩ := hclean.edges key halive
      rw [decodeEdgeKey_key hedge.clean]
      exact ⟨hedge, halive⟩
    · rintro ⟨hedge, halive⟩
      exact ⟨edge.key, halive, decodeEdgeKey_key hedge.clean⟩
  · obtain ⟨key, hkey, rfl⟩ := List.mem_map.mp hitem
    obtain ⟨edge, hedge, rfl⟩ := hclean.edges key ((mem_orsetElements _ _).mp hkey)
    simp only [decodeEdgeKey_key hedge.clean]
    refine (PlainObject.get_foldl_bags sentEdgeProp _ _ _).trans (if_congr Iff.rfl rfl (Option.ext fun value => ?_))
    rw [JsMap.get_collectBags_iff, Option.map_eq_some_iff]
    · constructor
      · rintro ⟨key, register, hget, hp⟩
        obtain ⟨e, he, hkey, rfl, hvalue⟩ := (sentEdgeProp_iff hclean hget).mp hp
        obtain rfl := EdgeRef.key_inj hedge.clean he.clean hkey
        exact ⟨register, hget, hvalue⟩
      · rintro ⟨register, hget, hvalue⟩
        exact ⟨_, register, hget, (sentEdgeProp_iff hclean hget).mpr ⟨edge, hedge, rfl, rfl, hvalue⟩⟩
    · rintro ⟨key, register⟩ ha ⟨key', register'⟩ hb ⟨o, n, v⟩ ⟨o', n', v'⟩ hp hq hsame
      obtain ⟨e, he, rfl, rfl, -⟩ := (sentEdgeProp_iff hclean ((state.prop.get_eq_some_iff _ _).mpr ha)).mp hp
      obtain ⟨e', he', rfl, rfl, -⟩ := (sentEdgeProp_iff hclean ((state.prop.get_eq_some_iff _ _).mpr hb)).mp hq
      obtain ⟨hkeys, hnames⟩ := Prod.mk.inj hsame
      obtain rfl := EdgeRef.key_inj he.clean he'.clean hkeys
      exact congrArg (encodeEdgePropKey e.fromId e.toId e.label) hnames

/-- What `serializeState` sends of the nodes: the alive ones, each with all its properties but `__proto__`. -/
theorem serializeState_nodes (graphName : JsString) : ∃ sent, serializeState graphName state = .ok sent ∧
    (∀ node, node ∈ sent.nodes.map PlainNode.id ↔ orsetContains state.nodeAlive node = true) ∧
    ∀ item ∈ sent.nodes, ∀ name, item.props.props.get name = if name = protoKey then none else
      (state.prop.get (encodePropKey item.id name)).map LWWRegister.value := by
  refine ⟨_, serializeState_ok hclean graphName, fun node => ?_, fun item hitem name => ?_⟩
  · simp only [List.map_map, List.mem_map, Function.comp_apply, exists_eq_right, mem_orsetElements]
  · obtain ⟨node, hmem, rfl⟩ := List.mem_map.mp hitem
    have hnode := hclean.nodes node ((mem_orsetElements _ _).mp hmem)
    refine (PlainObject.get_foldl_bags sentNodeProp _ _ _).trans (if_congr Iff.rfl rfl (Option.ext fun value => ?_))
    rw [JsMap.get_collectBags_iff, Option.map_eq_some_iff]
    · constructor
      · rintro ⟨key, register, hget, hp⟩
        obtain ⟨rfl, hvalue⟩ := (sentNodeProp_iff hclean hget hnode).mp hp
        exact ⟨register, hget, hvalue⟩
      · rintro ⟨register, hget, hvalue⟩
        exact ⟨_, register, hget, (sentNodeProp_iff hclean hget hnode).mpr ⟨rfl, hvalue⟩⟩
    · rintro ⟨key, register⟩ ha ⟨key', register'⟩ hb ⟨o, n, v⟩ ⟨o', n', v'⟩ hp hq hsame
      have hkey : ∀ {key register p}, sentNodeProp (key, register) = some p →
          state.prop.get key = some register → key = encodePropKey (p : JsString × JsString × Option V).1 p.2.1 := by
        intro key register p hp hget
        have hsome : (state.prop.get key).isSome := by rw [hget]; rfl
        simp only [sentNodeProp, Option.ite_none_left_eq_some, Option.some.injEq] at hp
        rcases hclean.props key hsome with ⟨n, k, hn, hk, rfl⟩ | ⟨e, k, -, -, rfl⟩
        · rw [← hp.2, decodePropKey_encodePropKey hn.1 hk.1]
        · exact absurd (isEdgePropKey_edgeKey e k) hp.1
      rw [hkey hp ((state.prop.get_eq_some_iff _ _).mpr ha), hkey hq ((state.prop.get_eq_some_iff _ _).mpr hb)]
      obtain ⟨hnodes, hnames⟩ := Prod.mk.inj hsame
      exact congrArg₂ encodePropKey hnodes hnames

end Clean

/-! ### What a client reads of a message -/

open JsValue StateDiff

structure WireNode where
  id : JsString
  props : JsMap JsString JsValue

structure WireEdge where
  edge : EdgeRef
  props : JsMap JsString JsValue

/-- A `state` message as its receiver parses it. -/
structure WireState where
  nodes : List WireNode
  edges : List WireEdge

/-- Properties that have been through JSON. -/
def wireProps (props : PlainObject (Option JsValue)) : Except JsError (JsMap JsString JsValue) :=
  props.entries.foldlM (fun read entry => do
    let value ← reparse (entry.2.getD .undefined)
    return if value.isUndefined then read else read.set entry.1 value) JsMap.empty

def nodeOverWire (node : PlainNode JsValue) : Except JsError WireNode := do
  let props ← wireProps node.props
  return ⟨node.id, props⟩

def edgeOverWire (item : PlainEdge JsValue) : Except JsError WireEdge := do
  let props ← wireProps item.props
  return ⟨item.edge, props⟩

def stateOverWire (sent : SerializedState JsValue) : Except JsError WireState := do
  let nodes ← sent.nodes.mapM nodeOverWire
  let edges ← sent.edges.mapM edgeOverWire
  return ⟨nodes, edges⟩

def setOverWire (change : PropSet) : Except JsError PropSet := do
  let oldValue ← reparse change.oldValue
  let newValue ← reparse change.newValue
  return { change with oldValue := oldValue, newValue := newValue }

def removedOverWire (change : PropRemoved) : Except JsError PropRemoved := do
  let oldValue ← reparse change.oldValue
  return { change with oldValue := oldValue }

/-- A `diff` message as its receiver parses it; a value that JSON leaves out reads as `undefined`. -/
def diffOverWire (diff : StateDiffResult) : Except JsError StateDiffResult := do
  let propsSet ← diff.propsSet.mapM setOverWire
  let propsRemoved ← diff.propsRemoved.mapM removedOverWire
  return { diff with propsSet := propsSet, propsRemoved := propsRemoved }

/-- A property with this value comes through JSON as it is. -/
def SurvivesJson (value : JsValue) : Prop := reparse value = .ok value ∧ value.isUndefined = false

theorem wireProps_ok {props : PlainObject (Option JsValue)}
    (h : ∀ name value, props.props.get name = some value → SurvivesJson (value.getD .undefined)) :
    ∃ read, wireProps props = .ok read ∧
      ∀ name, read.get name = (props.props.get name).map fun value => value.getD .undefined := by
  have hround : ∀ entry ∈ props.entries, ∀ read : JsMap JsString JsValue,
      (do
        let value ← reparse (entry.2.getD .undefined)
        return if value.isUndefined then read else read.set entry.1 value : Except JsError _) =
      .ok (read.set entry.1 (entry.2.getD .undefined)) := by
    intro entry hentry read
    obtain ⟨hsame, hdefined⟩ := h entry.1 entry.2 ((props.props.get_eq_some_iff _ _).mpr hentry)
    rw [hsame]
    simp only [bind, Except.bind, hdefined, Bool.false_eq_true, if_false]
    rfl
  refine ⟨_, foldlM_eq_foldl hround JsMap.empty, fun name => Option.ext fun value => ?_⟩
  have hcollect := JsMap.get_collect_iff props.props (fun entry => some (entry.1, entry.2.getD JsValue.undefined))
    (fun a _ b _ p q hp hq hsame => by cases hp; cases hq; exact hsame) name value
  refine hcollect.trans ?_
  rw [Option.map_eq_some_iff]
  constructor
  · rintro ⟨key, held, hget, hp⟩
    cases hp
    exact ⟨held, hget, rfl⟩
  · rintro ⟨held, hget, rfl⟩
    exact ⟨name, held, hget, rfl⟩

end WarpServe

end GitWarp
