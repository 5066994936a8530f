import GitWarp.EdgeProjections
import GitWarp.Subscriptions

/-! Clients of the server of a live graph: a client replaces its copy at each `state` message and folds each later
`diff` message. Its copy is exact after every broadcast where each state that is sent is the one of the last broadcast
and comes through as readers see it, and where a diff can say all that changed. -/

namespace GitWarp
open Js ExceptLoops StateDiff JsValue

namespace WarpServe

/-- The copy of the graph that a client keeps. -/
@[ext] structure ClientCopy where
  graph : Copy
  edgeProps : EdgeRef → JsString → Option JsValue

namespace ClientCopy

def ofState (wire : WireState) : ClientCopy where
  graph :=
    { nodes := {node | ∃ item ∈ wire.nodes, item.id = node}
      edges := {edge | ∃ item ∈ wire.edges, item.edge = edge}
      props := fun place => (wire.nodes.find? fun item => item.id = place.1).bind fun item => item.props.get place.2 }
  edgeProps edge name := (wire.edges.find? fun item => item.edge = edge).bind fun item => item.props.get name

/-- An edge that a diff adds has no properties. -/
def fold (copy : ClientCopy) (diff : StateDiffResult) : ClientCopy where
  graph := copy.graph.fold diff
  edgeProps edge := if edge ∈ diff.edgesAdded ++ diff.edgesRemoved then fun _ => none else copy.edgeProps edge

/-- What the copy shows: properties of its nodes and of its edges. -/
noncomputable def shown (copy : ClientCopy) : ClientCopy where
  graph := copy.graph.shown
  edgeProps := open Classical in fun edge => if edge ∈ copy.graph.edges then copy.edgeProps edge else fun _ => none

/-- Each change that the diff tells is new to the copy. -/
structure Fresh (copy : ClientCopy) (diff : StateDiffResult) : Prop where
  nodesAdded : ∀ node ∈ diff.nodesAdded, node ∉ copy.graph.nodes
  nodesRemoved : ∀ node ∈ diff.nodesRemoved, node ∈ copy.graph.nodes
  edgesAdded : ∀ edge ∈ diff.edgesAdded, edge ∉ copy.graph.edges
  edgesRemoved : ∀ edge ∈ diff.edgesRemoved, edge ∈ copy.graph.edges
  propsSet : ∀ change ∈ diff.propsSet, copy.graph.props (change.nodeId, change.propKey) ≠ some change.newValue

end ClientCopy

/-- What readers see of a state. -/
noncomputable def visibleGraph (state : WarpStateV5 JsValue) : ClientCopy where
  graph := visibleCopy state
  edgeProps := open Classical in fun edge =>
    if EdgeShown state edge then fun name => (freshProps state edge name).map fun value => value.getD .undefined
    else fun _ => none

inductive Message where
  | state (wire : WireState)
  | diff (diff : StateDiffResult)

/-- A session, and the messages about the graph that its client got. -/
structure Client where
  id : Nat
  opened : Bool
  inbox : List Message

/-- The copy after one more message; there is none before the first `state`. -/
def receive (copy : Option ClientCopy) : Message → Option ClientCopy
  | .state wire => some (.ofState wire)
  | .diff diff => copy.map fun copy => copy.fold diff

def Client.copy (client : Client) : Option ClientCopy := client.inbox.foldl receive none

structure Server where
  graphName : JsString
  /-- `_lastNotifiedState` of the served graph. -/
  lastNotifiedState : Option (WarpStateV5 JsValue)
  clients : List Client

inductive Event where
  | connect (id : Nat)
  | close (id : Nat)
  /-- The end of a `materialize()` of the graph without a ceiling, whoever asked for it. -/
  | finish (state : WarpStateV5 JsValue)
  /-- `_handleOpen` goes on with what `materialize()` returned, as it is by then. -/
  | openWith (id : Nat) (state : WarpStateV5 JsValue)
  /-- `_handleSeek` goes on with what `materialize` returned, at a ceiling or at the head. -/
  | seekWith (id : Nat) (state : WarpStateV5 JsValue)

/-- The `state` message as it arrives. -/
def stateMessage (graphName : JsString) (state : WarpStateV5 JsValue) : Except JsError WireState := do
  let sent ← serializeState graphName state
  stateOverWire sent

def Client.send (client : Client) (message : Message) : Client :=
  { client with inbox := client.inbox ++ [message] }

/-- The client gets the state unless it cannot be serialized. -/
def Client.sendState (client : Client) (graphName : JsString) (state : WarpStateV5 JsValue) : Client :=
  match stateMessage graphName state with
  | .ok wire => client.send (.state wire)
  | .error _ => client

namespace Server

def start (graphName : JsString) : Server := ⟨graphName, none, []⟩

def withClient (server : Server) (id : Nat) (update : Client → Client) : Server :=
  { server with clients := server.clients.map fun client => if client.id = id then update client else client }

/-- `_broadcastDiff`; a diff that cannot be serialized reaches nobody. -/
def broadcastDiff (server : Server) (diff : StateDiffResult) : Server :=
  match diffOverWire diff with
  | .ok wire =>
      { server with
        clients := server.clients.map fun client => if client.opened then client.send (.diff wire) else client }
  | .error _ => server

def finish (server : Server) (state : WarpStateV5 JsValue) : Server :=
  let stateDelta := diffStates server.lastNotifiedState state
  { (if isEmptyDiff stateDelta then server else server.broadcastDiff stateDelta) with lastNotifiedState := some state }

/-- One event. A client that seeks has opened the graph. -/
def step (server : Server) : Event → Option Server
  | .connect id =>
      if server.clients.any (fun client => client.id = id) then none
      else some { server with clients := server.clients ++ [⟨id, false, []⟩] }
  | .close id => some { server with clients := server.clients.filter fun client => client.id ≠ id }
  | .finish state => some (server.finish state)
  | .openWith id state =>
      some (server.withClient id fun client => { client with opened := true }.sendState server.graphName state)
  | .seekWith id state =>
      if server.clients.any (fun client => client.id = id && client.opened) then
        some (server.withClient id fun client => client.sendState server.graphName state)
      else none

end Server

/-! ### What is told of a state -/

def ClientCopy.empty : ClientCopy := ⟨Copy.empty, fun _ _ => none⟩

noncomputable def visibleBefore (last : Option (WarpStateV5 JsValue)) : ClientCopy :=
  (last.map visibleGraph).getD ClientCopy.empty

/-- A state that is sent as readers see it: its edges are exposed alike, no property is named `__proto__`, and JSON
keeps the values. -/
structure Sendable (state : WarpStateV5 JsValue) : Prop where
  alike : ExposesAlike state
  names : ∀ node, orsetContains state.nodeAlive node = true → state.prop.get (encodePropKey node protoKey) = none
  nodeValues : ∀ node, orsetContains state.nodeAlive node = true → ∀ name register,
    state.prop.get (encodePropKey node name) = some register → SurvivesJson (registerValue (some register))
  edgeValues : ∀ edge, EdgeShown state edge → ∀ name register, name ≠ protoKey →
    state.prop.get (encodeEdgePropKey edge.fromId edge.toId edge.label name) = some register →
      SurvivesJson (registerValue (some register))

/-- A diff that tells all: values are compared exactly and come through JSON, and no visible edge has other properties
than before. -/
structure TellsAll (last : Option (WarpStateV5 JsValue)) (state : WarpStateV5 JsValue) : Prop where
  exact : ComparesExactly last state
  setValues : ∀ change ∈ (diffStates last state).propsSet,
    reparse change.newValue = .ok change.newValue ∧ ∃ value, reparse change.oldValue = .ok value
  removedValues : ∀ change ∈ (diffStates last state).propsRemoved, ∃ value, reparse change.oldValue = .ok value
  edgeProps : ∀ edge, EdgeShown state edge → (visibleGraph state).edgeProps edge = (visibleBefore last).edgeProps edge

/-- Of the nodes that become alive, the copy already holds the properties that were there before. -/
def HoldsRevived (last : Option (WarpStateV5 JsValue)) (state : WarpStateV5 JsValue) (copy : ClientCopy) : Prop :=
  ∀ place, orsetContains state.nodeAlive place.1 = true → place.1 ∉ (contentBefore last).nodes →
    (contentOf state).props place = (contentBefore last).props place →
      copy.graph.props place = (contentOf state).props place

theorem visibleGraph_edgeProps {state : WarpStateV5 JsValue} {edge : EdgeRef} (hshown : EdgeShown state edge) :
    (visibleGraph state).edgeProps edge =
      fun name => (freshProps state edge name).map fun value => value.getD .undefined := if_pos hshown

theorem visibleGraph_edgeProps_hidden {state : WarpStateV5 JsValue} {edge : EdgeRef} (hhidden : ¬ EdgeShown state edge) :
    (visibleGraph state).edgeProps edge = fun _ => none := if_neg hhidden

theorem find_bind_eq {α β : Type} {items : List α} {p : α → Prop} [DecidablePred p] {f : α → Option β}
    {value : Option β} (hall : ∀ item ∈ items, p item → f item = value)
    (hnone : (∀ item ∈ items, ¬ p item) → value = none) : (items.find? fun item => p item).bind f = value := by
  cases hfind : items.find? fun item => p item with
  | none => exact (hnone fun item hitem hp => List.find?_eq_none.mp hfind item hitem (decide_eq_true hp)).symm
  | some item =>
      have hp : p item := by simpa using List.find?_some hfind
      exact hall item (List.mem_of_find?_eq_some hfind) hp

/-- A state that can be sent arrives as readers see it. -/
theorem stateMessage_ok {state : WarpStateV5 JsValue} (hclean : CleanState state) (hsendable : Sendable state)
    (graphName : JsString) : ∃ wire, stateMessage graphName state = .ok wire ∧
      ClientCopy.ofState wire = visibleGraph state := by
  obtain ⟨sent, hsent, hnodes, hnodeProps⟩ := serializeState_nodes hclean graphName
  obtain ⟨sent', hsent', hedges, hedgeProps⟩ := serializeState_edges hclean graphName
  cases hsent.symm.trans hsent'
  have hends : ∀ edge, edge ∈ sent.edges.map PlainEdge.edge ↔ EdgeShown state edge := fun edge =>
    (hedges edge).trans (exposed_iff_of_ends hclean hsendable.alike.endpoints)
  have hnodeRead : ∀ item ∈ sent.nodes, ∃ read, wireProps item.props = .ok read ∧ ∀ name, read.get name =
      (state.prop.get (encodePropKey item.id name)).map fun register => registerValue (some register) := by
    intro item hitem
    have halive := (hnodes item.id).mp (List.mem_map_of_mem hitem)
    have hown : ∀ name, item.props.props.get name =
        (state.prop.get (encodePropKey item.id name)).map LWWRegister.value := by
      intro name
      rw [hnodeProps item hitem name]
      split
      · rename_i hname
        rw [hname, hsendable.names item.id halive]
        rfl
      · rfl
    obtain ⟨read, hread, hget⟩ := wireProps_ok fun name value hvalue => by
      rw [hown name, Option.map_eq_some_iff] at hvalue
      obtain ⟨register, hregister, rfl⟩ := hvalue
      exact hsendable.nodeValues item.id halive name register hregister
    refine ⟨read, hread, fun name => ?_⟩
    rw [hget name, hown name, Option.map_map]
    rfl
  have hedgeRead : ∀ item ∈ sent.edges, ∃ read, wireProps item.props = .ok read ∧
      (fun name => read.get name) = (visibleGraph state).edgeProps item.edge := by
    intro item hitem
    have hshown := (hends item.edge).mp (List.mem_map_of_mem hitem)
    have hown : item.props.props.get = freshProps state item.edge := by
      rw [← (sentProps_eq_iff item.edge).mpr (hsendable.alike.props item.edge hshown)]
      exact funext fun name => hedgeProps item hitem name
    obtain ⟨read, hread, hget⟩ := wireProps_ok fun name value hvalue => by
      have hsent := hvalue
      rw [hown, ← (sentProps_eq_iff item.edge).mpr (hsendable.alike.props item.edge hshown), sentProps,
        Option.ite_none_left_eq_some, Option.map_eq_some_iff] at hsent
      obtain ⟨hname, register, hregister, rfl⟩ := hsent
      exact hsendable.edgeValues item.edge hshown name register hname hregister
    refine ⟨read, hread, funext fun name => ?_⟩
    rw [hget name, hown, visibleGraph_edgeProps hshown]
  have hnodeItem : ∀ item ∈ sent.nodes, ∃ wire, nodeOverWire item = .ok wire ∧ wire.id = item.id ∧
      ∀ name, wire.props.get name =
        (state.prop.get (encodePropKey item.id name)).map fun register => registerValue (some register) := by
    intro item hitem
    obtain ⟨read, hread, hget⟩ := hnodeRead item hitem
    exact ⟨⟨item.id, read⟩, bind_ok_iff.mpr ⟨read, hread, rfl⟩, rfl, hget⟩
  have hedgeItem : ∀ item ∈ sent.edges, ∃ wire, edgeOverWire item = .ok wire ∧ wire.edge = item.edge ∧
      (fun name => wire.props.get name) = (visibleGraph state).edgeProps item.edge := by
    intro item hitem
    obtain ⟨read, hread, hget⟩ := hedgeRead item hitem
    exact ⟨⟨item.edge, read⟩, bind_ok_iff.mpr ⟨read, hread, rfl⟩, rfl, hget⟩
  obtain ⟨wireNodes, hwireNodes⟩ := exists_mapM_ok_iff.mpr fun item hitem =>
    (hnodeItem item hitem).imp fun _ h => h.1
  obtain ⟨wireEdges, hwireEdges⟩ := exists_mapM_ok_iff.mpr fun item hitem =>
    (hedgeItem item hitem).imp fun _ h => h.1
  have hnodeOf : ∀ wire ∈ wireNodes, orsetContains state.nodeAlive wire.id = true ∧ ∀ name, wire.props.get name =
      (state.prop.get (encodePropKey wire.id name)).map fun register => registerValue (some register) := by
    intro wire hwire
    obtain ⟨item, hitem, hread⟩ := (mem_of_mapM_ok hwireNodes wire).mp hwire
    obtain ⟨wire', hread', hid, hget⟩ := hnodeItem item hitem
    cases hread.symm.trans hread'
    rw [hid]
    exact ⟨(hnodes item.id).mp (List.mem_map_of_mem hitem), hget⟩
  have hedgeOf : ∀ wire ∈ wireEdges, EdgeShown state wire.edge ∧
      (fun name => wire.props.get name) = (visibleGraph state).edgeProps wire.edge := by
    intro wire hwire
    obtain ⟨item, hitem, hread⟩ := (mem_of_mapM_ok hwireEdges wire).mp hwire
    obtain ⟨wire', hread', hedge, hget⟩ := hedgeItem item hitem
    cases hread.symm.trans hread'
    rw [hedge]
    exact ⟨(hends item.edge).mp (List.mem_map_of_mem hitem), hget⟩
  have hnodeIn : ∀ node, orsetContains state.nodeAlive node = true → ∃ wire ∈ wireNodes, wire.id = node := by
    intro node halive
    obtain ⟨item, hitem, rfl⟩ := List.mem_map.mp ((hnodes node).mpr halive)
    obtain ⟨wire, hread, hid, -⟩ := hnodeItem item hitem
    exact ⟨wire, (mem_of_mapM_ok hwireNodes wire).mpr ⟨item, hitem, hread⟩, hid⟩
  have hedgeIn : ∀ edge, EdgeShown state edge → ∃ wire ∈ wireEdges, wire.edge = edge := by
    intro edge hshown
    obtain ⟨item, hitem, rfl⟩ := List.mem_map.mp ((hends edge).mpr hshown)
    obtain ⟨wire, hread, hedge, -⟩ := hedgeItem item hitem
    exact ⟨wire, (mem_of_mapM_ok hwireEdges wire).mpr ⟨item, hitem, hread⟩, hedge⟩
  refine ⟨⟨wireNodes, wireEdges⟩, bind_ok_iff.mpr ⟨sent, hsent, bind_ok_iff.mpr ⟨wireNodes, hwireNodes,
    bind_ok_iff.mpr ⟨wireEdges, hwireEdges, rfl⟩⟩⟩, ClientCopy.ext (Copy.ext ?_ ?_ ?_) ?_⟩
  · refine Set.ext fun node => Iff.trans ⟨?_, hnodeIn node⟩ (mem_orsetElements _ _).symm
    rintro ⟨wire, hwire, rfl⟩
    exact (hnodeOf wire hwire).1
  · refine Set.ext fun edge => ⟨?_, hedgeIn edge⟩
    rintro ⟨wire, hwire, rfl⟩
    exact (hedgeOf wire hwire).1
  · refine funext fun place => find_bind_eq (fun wire hwire hid => ?_) fun hnone => ?_
    · obtain ⟨halive, hget⟩ := hnodeOf wire hwire
      rw [hid] at halive hget
      rw [hget place.2]
      exact (visibleCopy_props hclean halive).symm
    · refine visibleCopy_props_dead fun halive => ?_
      obtain ⟨wire, hwire, hid⟩ := hnodeIn place.1 halive
      exact hnone wire hwire hid
  · refine funext fun edge => funext fun name => find_bind_eq (fun wire hwire hedge => ?_) fun hnone => ?_
    · rw [← hedge]
      exact congrFun (hedgeOf wire hwire).2 name
    · refine congrFun (visibleGraph_edgeProps_hidden fun hshown => ?_) name
      obtain ⟨wire, hwire, hedge⟩ := hedgeIn edge hshown
      exact hnone wire hwire hedge

/-! ### What a client holds -/

/-- What the copy of a client that has opened the graph holds after a broadcast of `last`; of dead nodes it may know
less. -/
structure Holds (last : Option (WarpStateV5 JsValue)) (copy : ClientCopy) : Prop where
  nodes : copy.graph.nodes = (contentBefore last).nodes
  edges : copy.graph.edges = (contentBefore last).edges
  held : ∀ place value, copy.graph.props place = some value → (contentBefore last).props place = some value
  props : ∀ place, place.1 ∈ (contentBefore last).nodes → copy.graph.props place = (contentBefore last).props place
  edgeProps : ∀ edge ∈ copy.graph.edges, copy.edgeProps edge = (visibleBefore last).edgeProps edge

theorem holds_visibleBefore {last : Option (WarpStateV5 JsValue)}
    (hclean : ∀ state, last = some state → CleanState state) : Holds last (visibleBefore last) := by
  cases last with
  | none => exact ⟨rfl, rfl, fun _ _ h => h, fun _ _ => rfl, fun _ _ => rfl⟩
  | some state =>
      have hstate := hclean state rfl
      have hgraph : (visibleBefore (some state)).graph = (contentOf state).shown := (shown_contentOf hstate).symm
      refine ⟨?_, ?_, fun place value h => ?_, fun place halive => ?_, fun _ _ => rfl⟩
      · rw [hgraph]
        rfl
      · rw [hgraph]
        rfl
      · rw [hgraph] at h
        by_cases halive : place.1 ∈ (contentOf state).nodes
        · exact (if_pos halive).symm.trans h
        · exact absurd ((if_neg halive).symm.trans h) nofun
      · rw [hgraph]
        exact if_pos halive

/-- At one place a diff gives the same for two copies, or leaves both as they are. -/
theorem fold_props_or (copy other : Copy) (diff : StateDiffResult) (place : JsString × JsString) :
    (copy.fold diff).props place = (other.fold diff).props place ∨
      (copy.fold diff).props place = copy.props place ∧ (other.fold diff).props place = other.props place := by
  simp only [Copy.fold]
  split
  · exact Or.inl rfl
  · split
    · exact Or.inl rfl
    · exact Or.inr ⟨rfl, rfl⟩

section Step

variable {last : Option (WarpStateV5 JsValue)} {state : WarpStateV5 JsValue}
  (hlast : ∀ before, last = some before → CleanState before) (hclean : CleanState state)

include hlast hclean

theorem holds_fold {copy : ClientCopy} (hholds : Holds last copy) (htells : TellsAll last state)
    (hrevived : HoldsRevived last state copy) : Holds (some state) (copy.fold (diffStates last state)) := by
  have hfold := fold_diffStates hlast hclean htells.exact
  have hnodes : (copy.fold (diffStates last state)).graph.nodes = (contentOf state).nodes := by
    rw [← hfold]
    simp only [ClientCopy.fold, Copy.fold, hholds.nodes]
  have hedges : (copy.fold (diffStates last state)).graph.edges = (contentOf state).edges := by
    rw [← hfold]
    simp only [ClientCopy.fold, Copy.fold, hholds.edges]
  have hor : ∀ place, (copy.fold (diffStates last state)).graph.props place = (contentOf state).props place ∨
      (copy.fold (diffStates last state)).graph.props place = copy.graph.props place ∧
        (contentOf state).props place = (contentBefore last).props place := by
    intro place
    rw [← hfold]
    exact fold_props_or copy.graph (contentBefore last) (diffStates last state) place
  refine ⟨hnodes, hedges, fun place value hvalue => ?_, fun place halive => ?_, fun edge hedge => ?_⟩
  · rcases hor place with hsame | ⟨hkept, hunchanged⟩
    · exact hsame.symm.trans hvalue
    · exact hunchanged.trans (hholds.held place value (hkept.symm.trans hvalue))
  · rcases hor place with hsame | ⟨hkept, hunchanged⟩
    · exact hsame
    · rw [hkept]
      by_cases hbefore : place.1 ∈ (contentBefore last).nodes
      · exact (hholds.props place hbefore).trans hunchanged.symm
      · exact hrevived place halive hbefore hunchanged
  · rw [hedges] at hedge
    have hshown : EdgeShown state edge := hedge
    refine Eq.trans ?_ (htells.edgeProps edge hshown).symm
    simp only [ClientCopy.fold]
    split
    · rename_i hchanged
      rcases List.mem_append.mp hchanged with hadded | hremoved
      · have hnew := ((mem_edgesAdded hlast hclean).mp hadded).2
        cases last with
        | none => rfl
        | some before => exact (visibleGraph_edgeProps_hidden hnew).symm
      · exact absurd hedge ((mem_edgesRemoved hlast hclean).mp hremoved).2
    · rename_i hkept
      refine hholds.edgeProps edge ?_
      rw [hholds.edges]
      by_contra hnew
      exact hkept (List.mem_append_left _ ((mem_edgesAdded hlast hclean).mpr ⟨hedge, hnew⟩))

theorem fresh_of_holds {copy : ClientCopy} (hholds : Holds last copy) (hexact : ComparesExactly last state) :
    copy.Fresh (diffStates last state) := by
  have hfresh := fresh_diffStates hlast hclean hexact
  refine ⟨?_, ?_, ?_, ?_, fun change hchange hheld => ?_⟩
  · rw [hholds.nodes]
    exact hfresh.nodesAdded
  · rw [hholds.nodes]
    exact hfresh.nodesRemoved
  · rw [hholds.edges]
    exact hfresh.edgesAdded
  · rw [hholds.edges]
    exact hfresh.edgesRemoved
  · exact hfresh.propsSet change hchange (hholds.held _ _ hheld)

omit hlast

/-- A copy that holds a state shows it. -/
theorem shown_of_holds {copy : ClientCopy} (hholds : Holds (some state) copy) : copy.shown = visibleGraph state := by
  have hgraph : copy.graph.shown = (contentOf state).shown := by
    refine Copy.ext hholds.nodes hholds.edges (funext fun place => ?_)
    simp only [Copy.shown]
    rw [hholds.nodes]
    split
    · rename_i halive
      exact (hholds.props place halive).trans (if_pos halive).symm
    · rename_i hdead
      exact (if_neg hdead).symm
  refine ClientCopy.ext (hgraph.trans (shown_contentOf hclean)) (funext fun edge => ?_)
  simp only [ClientCopy.shown]
  split
  · rename_i hedge
    exact hholds.edgeProps edge hedge
  · rename_i hhidden
    rw [hholds.edges] at hhidden
    exact (visibleGraph_edgeProps_hidden hhidden).symm

end Step

theorem clientFold_of_empty {diff : StateDiffResult} (h : isEmptyDiff diff = true) (copy : ClientCopy) :
    copy.fold diff = copy := by
  have hgraph := fold_of_empty h copy.graph
  simp only [isEmptyDiff, Bool.and_eq_true, decide_eq_true_eq, List.length_eq_zero_iff] at h
  refine ClientCopy.ext hgraph (funext fun edge => ?_)
  simp [ClientCopy.fold, h.1.1.1.2, h.1.1.2]

/-- What a copy takes from a property that is set. -/
def PropSetTold (change : PropSet) : (JsString × JsString) × JsValue := ((change.nodeId, change.propKey), change.newValue)

/-- A copy takes from a diff the nodes and edges, what is set where, and where something is removed. -/
theorem fold_congr {diff diff' : StateDiffResult} (hadded : diff.nodesAdded = diff'.nodesAdded)
    (hremoved : diff.nodesRemoved = diff'.nodesRemoved) (hedges : diff.edgesAdded = diff'.edgesAdded)
    (hcut : diff.edgesRemoved = diff'.edgesRemoved) (hset : diff.propsSet.map PropSetTold = diff'.propsSet.map PropSetTold)
    (hunset : diff.propsRemoved.map (fun change => (change.nodeId, change.propKey)) =
      diff'.propsRemoved.map fun change => (change.nodeId, change.propKey)) (copy : ClientCopy) :
    copy.fold diff = copy.fold diff' := by
  have hfound : ∀ (changes : List PropSet) (place : JsString × JsString),
      (changes.find? fun change => (change.nodeId, change.propKey) = place).map PropSet.newValue =
        ((changes.map PropSetTold).find? fun told => told.1 = place).map Prod.snd := by
    intro changes place
    rw [List.find?_map, Option.map_map]
    rfl
  have hprops : ∀ (diff : StateDiffResult) (place : JsString × JsString), (copy.graph.fold diff).props place =
      (((diff.propsSet.map PropSetTold).find? fun told => told.1 = place).map Prod.snd).or
        (if place ∈ diff.propsRemoved.map (fun change => (change.nodeId, change.propKey)) then none
        else copy.graph.props place) := by
    intro diff place
    rw [← hfound]
    simp only [Copy.fold]
    cases diff.propsSet.find? fun change => (change.nodeId, change.propKey) = place with
    | none => rfl
    | some change => rfl
  refine ClientCopy.ext (Copy.ext ?_ ?_ (funext fun place => ?_)) ?_
  · simp only [ClientCopy.fold, Copy.fold, hadded, hremoved]
  · simp only [ClientCopy.fold, Copy.fold, hedges, hcut]
  · simp only [ClientCopy.fold, hprops, hset, hunset]
  · simp only [ClientCopy.fold, hedges, hcut]

/-- A diff whose new values come through JSON is folded as it was made. -/
theorem diffOverWire_ok {diff : StateDiffResult}
    (hset : ∀ change ∈ diff.propsSet, reparse change.newValue = .ok change.newValue ∧
      ∃ value, reparse change.oldValue = .ok value)
    (hremoved : ∀ change ∈ diff.propsRemoved, ∃ value, reparse change.oldValue = .ok value) :
    ∃ wire, diffOverWire diff = .ok wire ∧ (∀ copy : ClientCopy, copy.fold wire = copy.fold diff) ∧
      ∀ copy : ClientCopy, copy.Fresh diff → copy.Fresh wire := by
  obtain ⟨propsSet, hpropsSet⟩ : ∃ propsSet, diff.propsSet.mapM setOverWire = .ok propsSet := by
    refine exists_mapM_ok_iff.mpr fun change hchange => ?_
    obtain ⟨hnew, value, hold⟩ := hset change hchange
    exact ⟨_, bind_ok_iff.mpr ⟨value, hold, bind_ok_iff.mpr ⟨_, hnew, rfl⟩⟩⟩
  obtain ⟨propsRemoved, hpropsRemoved⟩ : ∃ propsRemoved, diff.propsRemoved.mapM removedOverWire = .ok propsRemoved := by
    refine exists_mapM_ok_iff.mpr fun change hchange => ?_
    obtain ⟨value, hold⟩ := hremoved change hchange
    exact ⟨_, bind_ok_iff.mpr ⟨value, hold, rfl⟩⟩
  have htold : propsSet.map PropSetTold = diff.propsSet.map PropSetTold := by
    refine map_of_mapM_ok hpropsSet fun change hchange wire hwire => ?_
    obtain ⟨oldValue, -, hrest⟩ := bind_ok_iff.mp hwire
    obtain ⟨newValue, hnew, heq⟩ := bind_ok_iff.mp hrest
    cases heq
    cases (hset change hchange).1.symm.trans hnew
    rfl
  have hplaces : propsRemoved.map (fun change => (change.nodeId, change.propKey)) =
      diff.propsRemoved.map fun change => (change.nodeId, change.propKey) := by
    refine map_of_mapM_ok hpropsRemoved fun change _ wire hwire => ?_
    obtain ⟨oldValue, -, heq⟩ := bind_ok_iff.mp hwire
    cases heq
    rfl
  refine ⟨_, bind_ok_iff.mpr ⟨propsSet, hpropsSet, bind_ok_iff.mpr ⟨propsRemoved, hpropsRemoved, rfl⟩⟩,
    fold_congr rfl rfl rfl rfl htold hplaces, fun copy hfresh => ?_⟩
  refine ⟨hfresh.nodesAdded, hfresh.nodesRemoved, hfresh.edgesAdded, hfresh.edgesRemoved, fun change hchange => ?_⟩
  have hmem : PropSetTold change ∈ diff.propsSet.map PropSetTold := by
    rw [← htold]
    exact List.mem_map_of_mem hchange
  obtain ⟨made, hmade, heq⟩ := List.mem_map.mp hmem
  have hnew := hfresh.propsSet made hmade
  obtain ⟨hplace, hvalue⟩ := Prod.mk.inj heq
  rwa [hplace, hvalue] at hnew

/-! ### Runs -/

/-- Each diff the client got was new to the copy it had. -/
def Client.ToldOnce (client : Client) : Prop :=
  ∀ told diff later, client.inbox = told ++ .diff diff :: later →
    ∃ copy, told.foldl receive none = some copy ∧ copy.Fresh diff

/-- What is known of a client: it was told nothing twice, and if it has opened the graph, it holds what was broadcast
last. -/
structure InStep (last : Option (WarpStateV5 JsValue)) (client : Client) : Prop where
  holds : client.opened = true → ∃ copy, client.copy = some copy ∧ Holds last copy
  once : client.ToldOnce

structure Settled (server : Server) : Prop where
  clean : ∀ last, server.lastNotifiedState = some last → CleanState last
  inStep : ∀ client ∈ server.clients, InStep server.lastNotifiedState client

/-- The condition on one event. What a client is sent is what was broadcast last, and as readers see it; a broadcast to
clients that have opened the graph can tell all. -/
def Matches (server : Server) : Event → Prop
  | .connect _ | .close _ => True
  | .openWith id state | .seekWith id state => (∃ client ∈ server.clients, client.id = id) →
      visibleGraph state = visibleBefore server.lastNotifiedState ∧ Sendable state
  | .finish state => ∀ client ∈ server.clients, client.opened = true →
      TellsAll server.lastNotifiedState state ∧
        ∀ copy, client.copy = some copy → HoldsRevived server.lastNotifiedState state copy

def Event.state : Event → Option (WarpStateV5 JsValue)
  | .finish state | .openWith _ state | .seekWith _ state => some state
  | _ => none

theorem copy_send (client : Client) (message : Message) : (client.send message).copy = receive client.copy message :=
  List.foldl_concat ..

theorem toldOnce_send {client : Client} {message : Message} (h : client.ToldOnce)
    (hfresh : ∀ diff, message = .diff diff → ∃ copy, client.copy = some copy ∧ copy.Fresh diff) :
    (client.send message).ToldOnce := by
  intro told diff later hinbox
  rcases List.eq_nil_or_concat later with rfl | ⟨rest, last, rfl⟩
  · obtain ⟨rfl, heq⟩ := List.append_inj' hinbox rfl
    exact hfresh diff (List.cons.inj heq).1
  · refine h told diff rest ?_
    have hlonger : client.inbox ++ [message] = told ++ .diff diff :: rest.concat last := hinbox
    rw [List.concat_eq_append, ← List.cons_append, ← List.append_assoc] at hlonger
    exact (List.append_inj' hlonger rfl).1

section Invariant

variable {server : Server} {state : WarpStateV5 JsValue} (hsettled : Settled server) (hclean : CleanState state)

include hsettled hclean

/-- A client that is sent what was broadcast last is in step, whatever it had before. -/
theorem inStep_sendState {client : Client} (honce : client.ToldOnce)
    (hsame : visibleGraph state = visibleBefore server.lastNotifiedState) (hsendable : Sendable state) :
    InStep server.lastNotifiedState (client.sendState server.graphName state) := by
  obtain ⟨wire, hwire, hcopy⟩ := stateMessage_ok hclean hsendable server.graphName
  unfold Client.sendState
  rw [hwire]
  refine ⟨fun _ => ⟨.ofState wire, copy_send _ _, ?_⟩, toldOnce_send honce nofun⟩
  rw [hcopy, hsame]
  exact holds_visibleBefore hsettled.clean

theorem settled_withClient {id : Nat} (prepare : Client → Client)
    (hprepare : ∀ client, (prepare client).inbox = client.inbox)
    (hsent : (∃ client ∈ server.clients, client.id = id) →
      visibleGraph state = visibleBefore server.lastNotifiedState ∧ Sendable state) :
    Settled (server.withClient id fun client => (prepare client).sendState server.graphName state) := by
  refine ⟨hsettled.clean, fun client hmem => ?_⟩
  obtain ⟨before, hbefore, rfl⟩ := List.mem_map.mp hmem
  have hstep := hsettled.inStep before hbefore
  by_cases hid : before.id = id
  · obtain ⟨hsame, hsendable⟩ := hsent ⟨before, hbefore, hid⟩
    have honce : (prepare before).ToldOnce := by
      unfold Client.ToldOnce
      rw [hprepare]
      exact hstep.once
    rw [if_pos hid]
    exact inStep_sendState hsettled hclean honce hsame hsendable
  · rw [if_neg hid]
    exact hstep

theorem settled_finish (hmatches : Matches server (.finish state)) : Settled (server.finish state) := by
  refine ⟨fun last hlast => ?_, fun client hmem => ?_⟩
  · cases hlast
    exact hclean
  · have hopened : ∀ client ∈ server.clients, client.opened = true → ∃ copy, client.copy = some copy ∧
        copy.Fresh (diffStates server.lastNotifiedState state) ∧
        Holds (some state) (copy.fold (diffStates server.lastNotifiedState state)) := by
      intro client hclient hopen
      obtain ⟨copy, hcopy, hholds⟩ := (hsettled.inStep client hclient).holds hopen
      obtain ⟨htells, hrevived⟩ := hmatches client hclient hopen
      exact ⟨copy, hcopy, fresh_of_holds hsettled.clean hclean hholds htells.exact,
        holds_fold hsettled.clean hclean hholds htells (hrevived copy hcopy)⟩
    have hsame : client ∈ server.clients → (client.opened = true → isEmptyDiff (diffStates server.lastNotifiedState
        state) = true) → InStep (some state) client := by
      intro hclient hempty
      refine ⟨fun hopen => ?_, (hsettled.inStep client hclient).once⟩
      obtain ⟨copy, hcopy, -, hholds⟩ := hopened client hclient hopen
      rw [clientFold_of_empty (hempty hopen)] at hholds
      exact ⟨copy, hcopy, hholds⟩
    simp only [Server.finish] at hmem
    split at hmem
    · rename_i hempty
      exact hsame hmem fun _ => hempty
    · unfold Server.broadcastDiff at hmem
      split at hmem
      · rename_i wire hwire
        obtain ⟨before, hbefore, rfl⟩ := List.mem_map.mp hmem
        by_cases hopen : before.opened = true
        · rw [if_pos hopen]
          obtain ⟨copy, hcopy, hfresh, hholds⟩ := hopened before hbefore hopen
          obtain ⟨htells, -⟩ := hmatches before hbefore hopen
          obtain ⟨wire', hwire', hfold, hfreshWire⟩ := diffOverWire_ok htells.setValues htells.removedValues
          cases hwire.symm.trans hwire'
          refine ⟨fun _ => ⟨copy.fold wire, ?_, ?_⟩, toldOnce_send (hsettled.inStep before hbefore).once ?_⟩
          · rw [copy_send, hcopy]
            rfl
          · rw [hfold]
            exact hholds
          · intro diff heq
            cases heq
            exact ⟨copy, hcopy, hfreshWire copy hfresh⟩
        · rw [if_neg hopen]
          exact ⟨fun h => absurd h hopen, (hsettled.inStep before hbefore).once⟩
      · rename_i err hwire
        refine hsame hmem fun hopen => ?_
        obtain ⟨htells, -⟩ := hmatches client hmem hopen
        obtain ⟨wire, hok, -⟩ := diffOverWire_ok htells.setValues htells.removedValues
        cases hwire.symm.trans hok

end Invariant

theorem settled_step {server server' : Server} {event : Event} (h : Settled server)
    (hclean : ∀ state, event.state = some state → CleanState state) (hmatches : Matches server event)
    (hstep : server.step event = some server') : Settled server' := by
  cases event with
  | connect id =>
      simp only [Server.step, Option.ite_none_left_eq_some, Option.some.injEq] at hstep
      obtain ⟨-, rfl⟩ := hstep
      refine ⟨h.clean, fun client hmem => ?_⟩
      rcases List.mem_append.mp hmem with hold | hnew
      · exact h.inStep client hold
      · cases List.mem_singleton.mp hnew
        refine ⟨nofun, fun told diff later hinbox => ?_⟩
        exact absurd hinbox.symm (List.append_ne_nil_of_right_ne_nil _ (List.cons_ne_nil _ _))
  | close id =>
      cases hstep
      exact ⟨h.clean, fun client hmem => h.inStep client (List.mem_of_mem_filter hmem)⟩
  | finish state =>
      cases hstep
      exact settled_finish h (hclean state rfl) hmatches
  | openWith id state =>
      cases hstep
      exact settled_withClient h (hclean state rfl) (fun client => { client with opened := true }) (fun _ => rfl) hmatches
  | seekWith id state =>
      simp only [Server.step, Option.ite_none_right_eq_some, Option.some.injEq] at hstep
      obtain ⟨-, rfl⟩ := hstep
      exact settled_withClient h (hclean state rfl) (fun client => client) (fun _ => rfl) hmatches

/-- A client shows the state that was broadcast, and was told nothing twice. -/
structure Mirrors (client : Client) (state : WarpStateV5 JsValue) : Prop where
  shown : ∃ copy, client.copy = some copy ∧ copy.shown = visibleGraph state
  once : client.ToldOnce

/-- In every run in which each state that is sent is the one broadcast last, as readers see it, and each diff can tell
all that changed, the clients that have opened the graph show each state that is broadcast. -/
theorem clients_mirror {graphName : JsString} {events : List Event} {state : WarpStateV5 JsValue} {server : Server}
    (hreachable : ∀ event ∈ events ++ [.finish state], ∀ state', event.state = some state' → Reachable state')
    (hmatches : Runs.Meets Server.step Matches (Server.start graphName) (events ++ [.finish state]))
    (hrun : Runs.run Server.step (Server.start graphName) (events ++ [.finish state]) = some server) :
    ∀ client ∈ server.clients, client.opened = true → Mirrors client state := by
  have hstart : Settled (Server.start graphName) := ⟨nofun, nofun⟩
  have hclean : ∀ event ∈ events ++ [.finish state], ∀ state', event.state = some state' → CleanState state' :=
    fun event hevent state' h => (hreachable event hevent state' h).cleanState
  have hsettled := Runs.invariant_of_run (fun _ _ _ hsettled hboth hstep => settled_step hsettled hboth.2 hboth.1 hstep)
    hstart (hmatches.and (Runs.meets_of_forall (fun event hevent _ => hclean event hevent) (Server.start graphName))) hrun
  obtain ⟨middle, -, hlast⟩ := Runs.run_append_eq_some.mp hrun
  have hfinish : server = middle.finish state := (Option.some.inj hlast).symm
  intro client hmem hopen
  obtain ⟨hholds, honce⟩ := hsettled.inStep client hmem
  obtain ⟨copy, hcopy, hcopyHolds⟩ := hholds hopen
  have hnotified : server.lastNotifiedState = some state := by
    rw [hfinish]
    rfl
  rw [hnotified] at hcopyHolds
  exact ⟨⟨copy, hcopy, shown_of_holds (hclean _ (List.mem_append_right _ (List.mem_singleton_self _)) state rfl)
    hcopyHolds⟩, honce⟩

namespace Example

def xy : EdgeRef := ⟨js "x", js "y", js "l"⟩

def addsEdge : Session JsValue :=
  ⟨js "alice", 1, true, [.addNode (js "x"), .addNode (js "y"), .addEdge xy], js "aaaa"⟩

/-- The edge is left without its endpoint. -/
def removesY : Session JsValue := ⟨js "bob", 2, true, [.removeNode (js "y")], js "bbbb"⟩

def addsZ : Session JsValue := ⟨js "alice", 3, true, [.addNode (js "z")], js "cccc"⟩

/-- The client was sent the edge, and no diff has removed it. -/
def keepsEdge (client : Client) : Bool :=
  match client.inbox with
  | [.state wire, .diff diff] =>
      client.opened && wire.edges.any (fun item => item.edge = xy) && !diff.edgesRemoved.contains xy
  | _ => false

/-- A client that opens the graph gets the edge that readers do not see, and keeps it. -/
theorem client_keeps_dangling : ∃ events state server,
    (∀ event ∈ events ++ [.finish state], ∀ state', Event.state event = some state' → Reachable state') ∧
      Runs.run Server.step (.start (js "g")) (events ++ [.finish state]) = some server ∧
      ∃ client ∈ server.clients, client.opened = true ∧ ¬ Mirrors client state := by
  have hsome : (do
      let dangling ← runSessions [addsEdge, removesY]
      let later ← runSessions [addsEdge, removesY, addsZ]
      let server ← Runs.run Server.step (.start (js "g"))
        ([.connect 0, .finish dangling, .openWith 0 dangling] ++ [.finish later])
      return server.clients.any keepsEdge && !orsetContains later.nodeAlive (js "y") : Option Bool) = some true := by
    decide +kernel
  simp only [Option.bind_eq_bind, Option.bind_eq_some_iff, Option.pure_def, Option.some.injEq, Bool.and_eq_true,
    List.any_eq_true, Bool.not_eq_true'] at hsome
  obtain ⟨dangling, hdangling, later, hlater, server, hrun, ⟨client, hclient, hkeeps⟩, hdead⟩ := hsome
  have hreachable := reachable_of_sessions hlater
  refine ⟨_, later, server, ?_, hrun, client, hclient, ?_⟩
  · intro event hevent state' hstate'
    simp only [List.cons_append, List.nil_append, List.mem_cons, List.not_mem_nil, or_false] at hevent
    rcases hevent with rfl | rfl | rfl | rfl <;> cases hstate'
    · exact reachable_of_sessions hdangling
    · exact reachable_of_sessions hdangling
    · exact hreachable
  · unfold keepsEdge at hkeeps
    split at hkeeps
    · rename_i wire diff hinbox
      simp only [Bool.and_eq_true, List.any_eq_true, decide_eq_true_eq, Bool.not_eq_true', List.contains_eq_mem,
        decide_eq_false_iff_not] at hkeeps
      obtain ⟨⟨hopen, hsent⟩, hkept⟩ := hkeeps
      refine ⟨hopen, fun hmirrors => ?_⟩
      obtain ⟨copy, hcopy, hshown⟩ := hmirrors.shown
      have hfold : client.copy = some ((ClientCopy.ofState wire).fold diff) := by
        rw [Client.copy, hinbox]
        rfl
      cases hfold.symm.trans hcopy
      have hedge : xy ∈ (((ClientCopy.ofState wire).fold diff).shown).graph.edges := Or.inr ⟨hsent, hkept⟩
      rw [hshown] at hedge
      have hends := (hreachable.cleanState.edgeShown_iff.mp hedge).2.2.2
      rw [show xy.toId = js "y" from rfl, hdead] at hends
      cases hends
    · cases hkeeps

/-- A state without edges and properties can be sent. -/
theorem sendable_of_bare {state : WarpStateV5 JsValue} (hedges : orsetElements state.edgeAlive = [])
    (hprops : state.prop.entries = []) : Sendable state := by
  have hnone : ∀ key register, state.prop.get key ≠ some register := by
    intro key register hget
    have hmem := (JsMap.get_eq_some_iff state.prop key register).mp hget
    rw [hprops] at hmem
    cases hmem
  refine ⟨⟨fun key halive => ?_, fun _ _ _ register hget => absurd hget (hnone _ register)⟩, fun node _ => ?_,
    fun _ _ _ register hget => absurd hget (hnone _ register),
    fun _ _ _ register _ hget => absurd hget (hnone _ register)⟩
  · have hmem := (mem_orsetElements _ _).mpr halive
    rw [hedges] at hmem
    cases hmem
  · exact Option.eq_none_iff_forall_ne_some.mpr (hnone _)

open Subscriptions.Example (addsX removesX)

/-- A client opens the graph with one node, which is then removed. -/
theorem clients_mirror_small : ∃ added removed server, runSessions [addsX] = some added ∧
    runSessions [addsX, removesX] = some removed ∧
    Runs.run Server.step (.start (js "g")) ([.connect 0, .finish added, .openWith 0 added] ++ [.finish removed]) =
      some server ∧
    ∀ client ∈ server.clients, client.opened = true → Mirrors client removed := by
  have hsome : (do
      let added ← runSessions [addsX]
      let removed ← runSessions [addsX, removesX]
      let server ← Runs.run Server.step (.start (js "g"))
        ([.connect 0, .finish added, .openWith 0 added] ++ [.finish removed])
      return server.clients.length = 1 && (orsetElements added.edgeAlive).isEmpty && added.prop.entries.isEmpty &&
        (orsetElements removed.edgeAlive).isEmpty && removed.prop.entries.isEmpty &&
        (orsetElements removed.nodeAlive).isEmpty : Option Bool) = some true := by
    decide +kernel
  simp only [Option.bind_eq_bind, Option.bind_eq_some_iff, Option.pure_def, Option.some.injEq, Bool.and_eq_true,
    List.isEmpty_iff, decide_eq_true_eq] at hsome
  obtain ⟨added, hadded, removed, hremoved, server, hrun, ⟨⟨⟨⟨⟨-, hedges⟩, hprops⟩, hedges'⟩, hprops'⟩, hnodes'⟩⟩ := hsome
  refine ⟨added, removed, server, hadded, hremoved, hrun, clients_mirror ?_ ?_ hrun⟩
  · intro event hevent state' hstate'
    simp only [List.cons_append, List.nil_append, List.mem_cons, List.not_mem_nil, or_false] at hevent
    rcases hevent with rfl | rfl | rfl | rfl <;> cases hstate'
    · exact reachable_of_sessions hadded
    · exact reachable_of_sessions hadded
    · exact reachable_of_sessions hremoved
  · have hnone : ∀ key register, removed.prop.get key ≠ some register := by
      intro key register hget
      have hmem := (JsMap.get_eq_some_iff removed.prop key register).mp hget
      rw [hprops'] at hmem
      cases hmem
    have hnone' : ∀ key register, added.prop.get key ≠ some register := by
      intro key register hget
      have hmem := (JsMap.get_eq_some_iff added.prop key register).mp hget
      rw [hprops] at hmem
      cases hmem
    have htells : TellsAll (some added) removed := by
      refine ⟨fun key old new _ hold => absurd hold (hnone' key old), fun change hchange => ?_, fun change hchange => ?_,
        fun edge hshown => ?_⟩
      · obtain ⟨-, -, -, register, hget, -⟩ := mem_propsSet.mp hchange
        exact absurd hget (hnone _ _)
      · obtain ⟨-, -, -, register, hget, -⟩ := mem_propsRemoved.mp hchange
        exact absurd hget (hnone' _ _)
      · obtain ⟨key, halive, -⟩ := hshown
        have hmem := (mem_orsetElements _ _).mpr halive
        rw [hedges'] at hmem
        cases hmem
    have hrevived : ∀ copy, HoldsRevived (some added) removed copy := by
      intro copy place halive
      have hmem := (mem_orsetElements _ _).mpr halive
      rw [hnodes'] at hmem
      cases hmem
    refine ⟨trivial, fun _ h => ?_⟩
    cases h
    refine ⟨fun client hclient hopen => ?_, fun _ h => ?_⟩
    · cases List.mem_singleton.mp hclient
      cases hopen
    cases h
    refine ⟨fun _ => ⟨rfl, sendable_of_bare hedges hprops⟩, fun _ h => ?_⟩
    cases h
    exact ⟨fun _ _ _ => ⟨htells, fun copy _ => hrevived copy⟩, fun _ _ => trivial⟩

end Example

end WarpServe

end GitWarp
