import GitWarp.ReachableStates
import GitWarp.WarpServe

/-! The projections of the edges of one state: `getEdges`, `getEdgeProps`, an observer that matches everything, what
the server sends, the adjacency, and the diff from nothing. They agree exactly on the states where no edge dangles
and where of the properties of an edge those named `__proto__` are the old ones. -/

namespace GitWarp
open Js ExceptLoops StateDiff

/-- The observer that sees every node and every property. -/
def observesAll : ObserverConfig := ⟨.one [star], none, none⟩

/-- An edge with the property map that a projection exposes for it. -/
abbrev ExposedEdge := EdgeRef × (JsString → Option (Option JsValue))

def exposedByReader (edges : List (GraphEdge JsValue)) : Set ExposedEdge :=
  {exposed | ∃ item ∈ edges, exposed = (item.edge, item.props.get)}

def exposedToOthers (edges : List (PlainEdge JsValue)) : Set ExposedEdge :=
  {exposed | ∃ item ∈ edges, exposed = (item.edge, item.props.props.get)}

/-- All projections of the edges agree. -/
structure EdgesAgree (state : WarpStateV5 JsValue) (listed : List (GraphEdge JsValue))
    (observed : List (PlainEdge JsValue)) (sent : WarpServe.SerializedState JsValue) : Prop where
  observer : exposedToOthers observed = exposedByReader listed
  server : exposedToOthers sent.edges = exposedByReader listed
  single : ∀ item ∈ listed, ∃ props, getEdgeProps state item.edge = .ok (some props) ∧ props.get = item.props.get
  outgoing : ∀ edge, edge ∈ (buildAdjacency state).outgoingEdges ↔ edge ∈ listed.map GraphEdge.edge
  incoming : ∀ edge, edge ∈ (buildAdjacency state).incomingEdges ↔ edge ∈ listed.map GraphEdge.edge
  diff : ∀ edge, edge ∈ (diffStates none state).edgesAdded ↔ edge ∈ listed.map GraphEdge.edge

def EdgeProjectionsAgree (graphName : JsString) (state : WarpStateV5 JsValue) : Prop :=
  ∃ listed observed sent, getEdges state = .ok listed ∧ ObserverView.getEdges observesAll state = .ok observed ∧
    WarpServe.serializeState graphName state = .ok sent ∧ EdgesAgree state listed observed sent

/-- No alive edge has a dead endpoint, and the registers of a visible edge that are older than the edge are those of
properties named `__proto__`. -/
structure ExposesAlike (state : WarpStateV5 JsValue) : Prop where
  endpoints : ∀ key, orsetContains state.edgeAlive key = true →
    orsetContains state.nodeAlive (decodeEdgeKey key).fromId = true ∧
      orsetContains state.nodeAlive (decodeEdgeKey key).toId = true
  props : ∀ edge, EdgeShown state edge → ∀ name register,
    state.prop.get (encodeEdgePropKey edge.fromId edge.toId edge.label name) = some register →
      (isBeforeBirth state edge.key register = true ↔ name = protoKey)

/-- The properties of an edge that are not older than itself. -/
def freshProps (state : WarpStateV5 JsValue) (edge : EdgeRef) (name : JsString) : Option (Option JsValue) :=
  (state.prop.get (encodeEdgePropKey edge.fromId edge.toId edge.label name)).bind fun register =>
    if isBeforeBirth state edge.key register then none else some register.value

/-- All properties of an edge but `__proto__`. -/
def sentProps (state : WarpStateV5 JsValue) (edge : EdgeRef) (name : JsString) : Option (Option JsValue) :=
  if name = protoKey then none
  else (state.prop.get (encodeEdgePropKey edge.fromId edge.toId edge.label name)).map LWWRegister.value

theorem freshProps_eq_some_iff {state : WarpStateV5 JsValue} {edge : EdgeRef} {name : JsString}
    {value : Option JsValue} : freshProps state edge name = some value ↔
      ∃ register, state.prop.get (encodeEdgePropKey edge.fromId edge.toId edge.label name) = some register ∧
        isBeforeBirth state edge.key register = false ∧ register.value = value := by
  simp [freshProps, Option.bind_eq_some_iff]

section Clean

variable {state : WarpStateV5 JsValue} (hclean : CleanState state)

include hclean

theorem exposedByReader_eq : ∃ listed, getEdges state = .ok listed ∧
    (∀ item ∈ listed, item.props.get = freshProps state item.edge) ∧
    (∀ edge, edge ∈ listed.map GraphEdge.edge ↔ EdgeShown state edge) ∧
    exposedByReader listed = {exposed | EdgeShown state exposed.1 ∧ exposed.2 = freshProps state exposed.1} := by
  obtain ⟨listed, hlisted, hedges, hprops⟩ := hclean.getEdges_eq
  have hget : ∀ item ∈ listed, item.props.get = freshProps state item.edge := fun item hitem =>
    funext fun name => Option.ext fun value => (hprops item hitem name value).trans freshProps_eq_some_iff.symm
  refine ⟨listed, hlisted, hget, hedges, Set.ext fun exposed => ?_⟩
  constructor
  · rintro ⟨item, hitem, rfl⟩
    exact ⟨(hedges item.edge).mp (List.mem_map_of_mem hitem), hget item hitem⟩
  · rintro ⟨hshown, hown⟩
    obtain ⟨item, hitem, hedge⟩ := List.mem_map.mp ((hedges exposed.1).mpr hshown)
    refine ⟨item, hitem, Prod.ext hedge.symm ?_⟩
    rw [hown, hget item hitem, hedge]

theorem exposed_observed : ∃ observed, ObserverView.getEdges observesAll state = .ok observed ∧
    exposedToOthers observed = {exposed | EdgeShown state exposed.1 ∧
      exposed.2 = fun name => if name = protoKey then none else freshProps state exposed.1 name} := by
  obtain ⟨listed, hlisted, hget, hedges, -⟩ := exposedByReader_eq hclean
  have hall : ObserverView.getEdges observesAll state =
      .ok (listed.map fun e => ⟨e.edge, filterProps e.props none none⟩) := by
    unfold ObserverView.getEdges
    rw [hlisted]
    exact congrArg (fun items => Except.ok (List.map _ items)) (List.filter_eq_self.mpr fun e _ => rfl)
  have hown : ∀ item ∈ listed, (filterProps item.props none none).props.get =
      fun name => if name = protoKey then none else freshProps state item.edge name := by
    intro item hitem
    funext name
    rw [get_filterProps, hget item hitem]
    rfl
  refine ⟨_, hall, Set.ext fun exposed => ?_⟩
  constructor
  · rintro ⟨plain, hplain, rfl⟩
    obtain ⟨item, hitem, rfl⟩ := List.mem_map.mp hplain
    exact ⟨(hedges item.edge).mp (List.mem_map_of_mem hitem), hown item hitem⟩
  · rintro ⟨hshown, hprops⟩
    obtain ⟨item, hitem, hedge⟩ := List.mem_map.mp ((hedges exposed.1).mpr hshown)
    refine ⟨_, List.mem_map_of_mem hitem, Prod.ext hedge.symm ?_⟩
    rw [hprops, hown item hitem, hedge]

theorem exposed_sent (graphName : JsString) : ∃ sent, WarpServe.serializeState graphName state = .ok sent ∧
    exposedToOthers sent.edges = {exposed | (exposed.1.NoReservedBytes ∧
      orsetContains state.edgeAlive exposed.1.key = true) ∧ exposed.2 = sentProps state exposed.1} := by
  obtain ⟨sent, hsent, hedges, hprops⟩ := WarpServe.serializeState_edges hclean graphName
  refine ⟨sent, hsent, Set.ext fun exposed => ?_⟩
  constructor
  · rintro ⟨item, hitem, rfl⟩
    exact ⟨(hedges item.edge).mp (List.mem_map_of_mem hitem), funext (hprops item hitem)⟩
  · rintro ⟨halive, hown⟩
    obtain ⟨item, hitem, hedge⟩ := List.mem_map.mp ((hedges exposed.1).mpr halive)
    refine ⟨item, hitem, Prod.ext hedge.symm (hown.trans (funext fun name => ?_))⟩
    rw [← hedge]
    exact (hprops item hitem name).symm

omit hclean

/-- The property maps that are sent are the fresh ones exactly where `__proto__` names the old registers. -/
theorem sentProps_eq_iff (edge : EdgeRef) : sentProps state edge = freshProps state edge ↔ ∀ name register,
    state.prop.get (encodeEdgePropKey edge.fromId edge.toId edge.label name) = some register →
      (isBeforeBirth state edge.key register = true ↔ name = protoKey) := by
  constructor
  · intro h name register hget
    have hname := congrFun h name
    simp only [sentProps, freshProps, hget, Option.bind_some, Option.map_some] at hname
    split at hname <;> split at hname <;> simp_all
  · intro h
    funext name
    unfold sentProps freshProps
    cases hget : state.prop.get (encodeEdgePropKey edge.fromId edge.toId edge.label name) with
    | none => simp
    | some register =>
        rw [Option.bind_some, Option.map_some]
        exact if_congr (h name register hget).symm rfl rfl

/-- An observer keeps the property maps where no fresh property is named `__proto__`. -/
theorem freshProps_eq_of {edge : EdgeRef} (h : sentProps state edge = freshProps state edge) :
    (fun name => if name = protoKey then none else freshProps state edge name) = freshProps state edge := by
  funext name
  split
  · rename_i hname
    rw [← h, sentProps, if_pos hname]
  · rfl

theorem exposed_iff_of_ends {edge : EdgeRef} (hclean : CleanState state) (hends : ∀ key,
    orsetContains state.edgeAlive key = true → orsetContains state.nodeAlive (decodeEdgeKey key).fromId = true ∧
      orsetContains state.nodeAlive (decodeEdgeKey key).toId = true) :
    (edge.NoReservedBytes ∧ orsetContains state.edgeAlive edge.key = true) ↔ EdgeShown state edge := by
  rw [hclean.edgeShown_iff]
  refine and_congr_right fun hedge => (and_iff_left_of_imp fun halive => ?_).symm
  have h := hends edge.key halive
  rwa [decodeEdgeKey_key hedge.clean] at h

include hclean

theorem edgesAgree_iff (graphName : JsString) : EdgeProjectionsAgree graphName state ↔ ExposesAlike state := by
  obtain ⟨listed, hlisted, hget, hedges, hreader⟩ := exposedByReader_eq hclean
  obtain ⟨observed, hobserved, hobserver⟩ := exposed_observed hclean
  obtain ⟨sent, hsent, hserver⟩ := exposed_sent hclean graphName
  constructor
  · rintro ⟨listed', observed', sent', hlisted', -, hsent', hagree⟩
    cases hlisted.symm.trans hlisted'
    cases hsent.symm.trans hsent'
    have hsame := hagree.server
    rw [hserver, hreader] at hsame
    have hexposed : ∀ edge : EdgeRef, edge.NoReservedBytes → orsetContains state.edgeAlive edge.key = true →
        EdgeShown state edge ∧ sentProps state edge = freshProps state edge := fun edge hedge halive =>
      (Set.ext_iff.mp hsame (edge, sentProps state edge)).mp ⟨⟨hedge, halive⟩, rfl⟩
    refine ⟨fun key halive => ?_, fun edge hshown => ?_⟩
    · obtain ⟨edge, hedge, rfl⟩ := hclean.edges key halive
      rw [decodeEdgeKey_key hedge.clean]
      exact (hclean.edgeShown_iff.mp (hexposed edge hedge halive).1).2.2
    · obtain ⟨hedge, halive, -⟩ := hclean.edgeShown_iff.mp hshown
      exact (sentProps_eq_iff edge).mp (hexposed edge hedge halive).2
  · intro halike
    have hprops : ∀ edge, EdgeShown state edge → sentProps state edge = freshProps state edge := fun edge hshown =>
      (sentProps_eq_iff edge).mpr (halike.props edge hshown)
    refine ⟨listed, observed, sent, hlisted, hobserved, hsent, ?_, ?_, fun item hitem => ?_, fun edge => ?_,
      fun edge => ?_, fun edge => ?_⟩
    · rw [hobserver, hreader]
      refine Set.ext fun exposed => and_congr_right fun hshown => ?_
      rw [freshProps_eq_of (hprops _ hshown)]
    · rw [hserver, hreader]
      refine Set.ext fun exposed => (and_congr_left' (exposed_iff_of_ends hclean halike.endpoints)).trans ?_
      exact and_congr_right fun hshown => by rw [hprops _ hshown]
    · obtain ⟨props, hok, hown⟩ := hclean.getEdgeProps_eq ((hedges item.edge).mp (List.mem_map_of_mem hitem))
      refine ⟨props, hok, ?_⟩
      rw [hget item hitem]
      exact funext fun name => Option.ext fun value => (hown name value).trans freshProps_eq_some_iff.symm
    · exact (mem_buildAdjacency state edge).1.trans (hedges edge).symm
    · exact (mem_buildAdjacency state edge).2.trans (hedges edge).symm
    · have hnone : ∀ before : WarpStateV5 JsValue, none = some before → CleanState before := fun _ h => nomatch h
      rw [mem_edgesAdded hnone hclean, hedges edge]
      exact and_iff_left (Set.notMem_empty edge)

end Clean

/-- On every reachable state the projections of the edges agree exactly where no edge dangles and no property of a
visible edge is old unless it is named `__proto__`, and none so named is fresh. -/
theorem edgeProjectionsAgree_iff {state : WarpStateV5 JsValue} (hreachable : Reachable state) (graphName : JsString) :
    EdgeProjectionsAgree graphName state ↔ ExposesAlike state := edgesAgree_iff hreachable.cleanState graphName

namespace EdgeProjections

def xy : EdgeRef := ⟨js "x", js "y", js "l"⟩

/-- Two nodes and an edge. -/
def addsEdge : Session JsValue :=
  ⟨js "alice", 1, true, [.addNode (js "x"), .addNode (js "y"), .addEdge xy], js "aaaa"⟩

/-- A property of the edge. -/
def setsWeight : Session JsValue := ⟨js "alice", 2, true, [.setEdgeProperty xy (js "w") (some (JsValue.ofInt 7))], js "bbbb"⟩

/-- The edge once more. -/
def readdsEdge : Session JsValue := ⟨js "bob", 3, true, [.removeEdge xy, .addEdge xy], js "cccc"⟩

/-- The edge was added again after its property was set. -/
theorem edgeProjections_disagree : ∃ state, Reachable state ∧ ¬ EdgeProjectionsAgree (js "g") state := by
  have hsome : ((runSessions [addsEdge, setsWeight, readdsEdge]).map fun state =>
      orsetContains state.edgeAlive xy.key && orsetContains state.nodeAlive xy.fromId &&
        orsetContains state.nodeAlive xy.toId &&
        (state.prop.get (encodeEdgePropKey xy.fromId xy.toId xy.label (js "w"))).any
          (isBeforeBirth state xy.key)) = some true := by
    decide +kernel
  obtain ⟨state, hstate, hchecks⟩ := Option.map_eq_some_iff.mp hsome
  have hreachable := reachable_of_sessions hstate
  simp only [Bool.and_eq_true, Option.any_eq_true] at hchecks
  obtain ⟨⟨⟨halive, hfrom⟩, hto⟩, register, hget, hold⟩ := hchecks
  refine ⟨state, hreachable, fun hagree => ?_⟩
  have halike := (edgesAgree_iff hreachable.cleanState (js "g")).mp hagree
  have hshown : EdgeShown state xy :=
    hreachable.cleanState.edgeShown_iff.mpr ⟨by decide, halive, hfrom, hto⟩
  exact absurd ((halike.props xy hshown (js "w") register hget).mp hold) (by decide)

/-- The projections agree on an edge whose property was set after it was added. -/
theorem edgeProjectionsAgree_small : ∃ state, runSessions [addsEdge, setsWeight] = some state ∧
    EdgeProjectionsAgree (js "g") state := by
  have hsome : ((runSessions [addsEdge, setsWeight]).map fun state =>
      (orsetElements state.edgeAlive).all (fun key => orsetContains state.nodeAlive (decodeEdgeKey key).fromId &&
        orsetContains state.nodeAlive (decodeEdgeKey key).toId) &&
      state.prop.entries.all fun entry =>
        entry.1 = encodeEdgePropKey xy.fromId xy.toId xy.label (js "w") && !isBeforeBirth state xy.key entry.2) =
      some true := by
    decide +kernel
  obtain ⟨state, hstate, hchecks⟩ := Option.map_eq_some_iff.mp hsome
  simp only [Bool.and_eq_true, List.all_eq_true, decide_eq_true_eq, Bool.not_eq_true'] at hchecks
  have hclean := (reachable_of_sessions hstate).cleanState
  refine ⟨state, hstate, (edgeProjectionsAgree_iff (reachable_of_sessions hstate) (js "g")).mpr ⟨?_, ?_⟩⟩
  · exact fun key halive => hchecks.1 key ((mem_orsetElements _ _).mpr halive)
  · intro edge hshown name register hget
    obtain ⟨hkey, hfresh⟩ := hchecks.2 _ ((JsMap.get_eq_some_iff state.prop _ register).mp hget)
    obtain ⟨rfl, rfl⟩ := encodeEdgePropKey_inj (hclean.edgeShown_iff.mp hshown).1.clean
      (by decide : xy.NoReservedBytes).clean hkey
    rw [hfresh]
    decide

end EdgeProjections

end GitWarp
