import GitWarp.LibraryJsValue
import GitWarp.StateSerializer

/-! The diff of two states that subscribers get, and the copy of the graph that folding diffs keeps. Folding the diff
of two states turns the content of the first into that of the second, where the comparison of property values is
exact. -/

namespace GitWarp
open Js ExceptLoops JsValue

namespace StateDiff

structure PropSet where
  key : JsString
  nodeId : JsString
  propKey : JsString
  oldValue : JsValue
  newValue : JsValue
  deriving DecidableEq

structure PropRemoved where
  key : JsString
  nodeId : JsString
  propKey : JsString
  oldValue : JsValue
  deriving DecidableEq

structure StateDiffResult where
  nodesAdded : List JsString
  nodesRemoved : List JsString
  edgesAdded : List EdgeRef
  edgesRemoved : List EdgeRef
  propsSet : List PropSet
  propsRemoved : List PropRemoved
  deriving DecidableEq

def compareEdges (a b : EdgeRef) : Int :=
  if a.fromId ≠ b.fromId then if a.fromId < b.fromId then -1 else 1
  else if a.toId ≠ b.toId then if a.toId < b.toId then -1 else 1
  else if a.label ≠ b.label then if a.label < b.label then -1 else 1
  else 0

/-- The order of keys; `compareProps` compares the keys of two changes. -/
def compareProps (a b : JsString) : Int := if a < b then -1 else if b < a then 1 else 0

/-! ### Comparing values -/

/-- `a === b` of values that are no objects. -/
def strictEqual : JsValue → JsValue → Bool
  | .number .nan, _ => false
  | a, b => !a.isObject && decide (a = b)

/-- The properties that `Object.keys` of an object that is no array lists. -/
def ownFields : JsValue → List (JsString × JsValue)
  | .object fields => fields
  | .bytes data => bytesFields data
  | _ => []

def isArray : JsValue → Bool
  | .array _ => true
  | _ => false

/-- `b[key]` where `b` has the property. -/
def ownField (b : JsValue) (key : JsString) : Option JsValue :=
  ((ownFields b).find? fun field => field.1 = key).map Prod.snd

mutual

/-- Objects are compared by their data: that one reference equals itself is not seen. -/
def deepEqual : JsValue → JsValue → Bool
  | .array items, .array others => arraysEqual items others
  | .object fields, b => b.isObject && !isArray b && fields.length = (ownFields b).length && objectsEqual fields b
  | .bytes data, b =>
      b.isObject && !isArray b && data.length = (ownFields b).length &&
        (bytesFields data).all fun field => (ownField b field.1).any (strictEqual field.2)
  | .map _, b => b.isObject && !isArray b && (ownFields b).isEmpty
  | .builtin _ _, b => b.isObject && !isArray b && (ownFields b).isEmpty
  | a, b => strictEqual a b

def arraysEqual : List JsValue → List JsValue → Bool
  | [], [] => true
  | item :: rest, other :: others => deepEqual item other && arraysEqual rest others
  | _, _ => false

def objectsEqual : List (JsString × JsValue) → JsValue → Bool
  | [], _ => true
  | (key, value) :: rest, b =>
      (match ownField b key with
        | some other => deepEqual value other
        | none => false) && objectsEqual rest b

end

/-! ### Diffs -/

def setAdded (before after : JsSet JsString) : List JsString := after.elems.filter fun item => !before.has item

def aliveNodes (state : WarpStateV5 JsValue) : JsSet JsString := JsSet.ofList (orsetElements state.nodeAlive)

/-- The keys of the alive edges with both endpoints among the nodes. -/
def edgesAmong (nodes : JsSet JsString) (state : WarpStateV5 JsValue) : JsSet JsString :=
  JsSet.ofList ((orsetElements state.edgeAlive).filter fun edgeKey =>
    let edge := decodeEdgeKey edgeKey
    nodes.has edge.fromId && nodes.has edge.toId)

/-- `diffNodesAndEdges`: the nodes added and removed, and the edges added and removed. -/
def diffNodesAndEdges (before : Option (WarpStateV5 JsValue)) (after : WarpStateV5 JsValue) :
    (List JsString × List JsString) × List EdgeRef × List EdgeRef :=
  let beforeNodes := (before.map aliveNodes).getD JsSet.empty
  let afterNodes := aliveNodes after
  let beforeEdges := (before.map (edgesAmong beforeNodes)).getD JsSet.empty
  let afterEdges := edgesAmong afterNodes after
  ((setAdded beforeNodes afterNodes, setAdded afterNodes beforeNodes),
    (setAdded beforeEdges afterEdges).map decodeEdgeKey, (setAdded afterEdges beforeEdges).map decodeEdgeKey)

/-- The value of a register, if there is one. -/
def registerValue (register : Option (LWWRegister JsValue)) : JsValue := (lwwValue register).getD .undefined

/-- What one key gives. -/
def diffProp (before after : JsMap JsString (LWWRegister JsValue)) (key : JsString) : Option (PropSet ⊕ PropRemoved) :=
  if isEdgePropKey key then none
  else
    let beforeReg := before.get key
    let afterReg := after.get key
    let beforeValue := registerValue beforeReg
    let afterValue := registerValue afterReg
    let decoded := decodePropKey key
    if afterReg.isSome && beforeReg.isNone then
      some (.inl ⟨key, decoded.1, decoded.2, .undefined, afterValue⟩)
    else if afterReg.isNone && beforeReg.isSome then some (.inr ⟨key, decoded.1, decoded.2, beforeValue⟩)
    else if afterReg.isSome && !deepEqual beforeValue afterValue then
      some (.inl ⟨key, decoded.1, decoded.2, beforeValue, afterValue⟩)
    else none

def beforeProps (before : Option (WarpStateV5 JsValue)) : JsMap JsString (LWWRegister JsValue) :=
  (before.map WarpStateV5.prop).getD JsMap.empty

/-- The changes in the order in which `diffProps` finds them. -/
def diffProps (before : Option (WarpStateV5 JsValue)) (after : WarpStateV5 JsValue) : List (PropSet ⊕ PropRemoved) :=
  (JsSet.ofList ((beforeProps before).keys ++ after.prop.keys)).elems.filterMap (diffProp (beforeProps before) after.prop)

def diffStates (before : Option (WarpStateV5 JsValue)) (after : WarpStateV5 JsValue) : StateDiffResult :=
  let changes := diffNodesAndEdges before after
  let props := diffProps before after
  { nodesAdded := changes.1.1.insertionSort (· ≤ ·)
    nodesRemoved := changes.1.2.insertionSort (· ≤ ·)
    edgesAdded := changes.2.1.insertionSort fun a b => compareEdges a b ≤ 0
    edgesRemoved := changes.2.2.insertionSort fun a b => compareEdges a b ≤ 0
    propsSet := (props.filterMap Sum.getLeft?).insertionSort fun a b => compareProps a.key b.key ≤ 0
    propsRemoved := (props.filterMap Sum.getRight?).insertionSort fun a b => compareProps a.key b.key ≤ 0 }

def isEmptyDiff (diff : StateDiffResult) : Bool :=
  diff.nodesAdded.length = 0 && diff.nodesRemoved.length = 0 && diff.edgesAdded.length = 0 &&
    diff.edgesRemoved.length = 0 && diff.propsSet.length = 0 && diff.propsRemoved.length = 0

/-! ### What a diff holds -/

/-- What a copy of the graph holds: nodes, edges, and the properties of nodes. -/
@[ext] structure Copy where
  nodes : Set JsString
  edges : Set EdgeRef
  props : JsString × JsString → Option JsValue

namespace Copy

def empty : Copy := ⟨∅, ∅, fun _ => none⟩

/-- The copy after the changes of a diff. -/
def fold (copy : Copy) (diff : StateDiffResult) : Copy where
  nodes := {node | node ∈ diff.nodesAdded ∨ node ∈ copy.nodes ∧ node ∉ diff.nodesRemoved}
  edges := {edge | edge ∈ diff.edgesAdded ∨ edge ∈ copy.edges ∧ edge ∉ diff.edgesRemoved}
  props place :=
    match diff.propsSet.find? fun change => (change.nodeId, change.propKey) = place with
    | some change => some change.newValue
    | none =>
        if place ∈ diff.propsRemoved.map fun change => (change.nodeId, change.propKey) then none
        else copy.props place

/-- What the copy shows: of the properties, those of its nodes. -/
noncomputable def shown (copy : Copy) : Copy :=
  open Classical in { copy with props := fun place => if place.1 ∈ copy.nodes then copy.props place else none }

end Copy

/-- What a state holds for its subscribers, with the properties of nodes that are not alive. -/
def contentOf (state : WarpStateV5 JsValue) : Copy where
  nodes := {node | orsetContains state.nodeAlive node = true}
  edges := {edge | EdgeShown state edge}
  props place :=
    let key := encodePropKey place.1 place.2
    if isEdgePropKey key = false ∧ decodePropKey key = place then
      (state.prop.get key).map fun register => registerValue (some register)
    else none

def contentBefore (before : Option (WarpStateV5 JsValue)) : Copy := (before.map contentOf).getD Copy.empty

/-- Of two values of one property, `deepEqual` takes exactly the equal ones for equal. -/
def ComparesExactly (before : Option (WarpStateV5 JsValue)) (after : WarpStateV5 JsValue) : Prop :=
  ∀ key old new, isEdgePropKey key = false → (beforeProps before).get key = some old → after.prop.get key = some new →
    (deepEqual (registerValue (some old)) (registerValue (some new)) = true ↔
      registerValue (some old) = registerValue (some new))

theorem mem_setAdded {before after : JsSet JsString} {item : JsString} :
    item ∈ setAdded before after ↔ item ∈ after ∧ item ∉ before := by
  unfold setAdded
  rw [List.mem_filter, Bool.not_eq_true', JsSet.has_eq_false_iff]
  exact Iff.rfl

theorem mem_aliveNodes {state : WarpStateV5 JsValue} {node : JsString} :
    node ∈ aliveNodes state ↔ orsetContains state.nodeAlive node = true := by
  rw [aliveNodes, JsSet.mem_ofList, mem_orsetElements]

theorem mem_edgesAmong {state : WarpStateV5 JsValue} {key : JsString} :
    key ∈ edgesAmong (aliveNodes state) state ↔ orsetContains state.edgeAlive key = true ∧
      orsetContains state.nodeAlive (decodeEdgeKey key).fromId = true ∧
      orsetContains state.nodeAlive (decodeEdgeKey key).toId = true := by
  rw [edgesAmong, JsSet.mem_ofList, List.mem_filter, mem_orsetElements, Bool.and_eq_true, JsSet.has_iff, JsSet.has_iff,
    mem_aliveNodes, mem_aliveNodes]

theorem exists_edge_of_among {state : WarpStateV5 JsValue} (hclean : CleanState state) {key : JsString}
    (h : key ∈ edgesAmong (aliveNodes state) state) : ∃ edge : EdgeRef, edge.NoReservedBytes ∧ key = edge.key :=
  hclean.edges key (mem_edgesAmong.mp h).1

theorem edgeShown_iff_among {state : WarpStateV5 JsValue} (hclean : CleanState state) {edge : EdgeRef} :
    EdgeShown state edge ↔ edge.NoReservedBytes ∧ edge.key ∈ edgesAmong (aliveNodes state) state := by
  rw [hclean.edgeShown_iff, mem_edgesAmong]
  refine and_congr_right fun hedge => ?_
  rw [decodeEdgeKey_key hedge.clean]

section Diff

variable {before : Option (WarpStateV5 JsValue)} {after : WarpStateV5 JsValue}

theorem mem_nodesBefore {node : JsString} :
    node ∈ (before.map aliveNodes).getD JsSet.empty ↔ node ∈ (contentBefore before).nodes := by
  cases before with
  | none => exact iff_of_false (JsSet.not_mem_empty node) (Set.notMem_empty node)
  | some state => exact mem_aliveNodes

theorem mem_nodesAdded {node : JsString} : node ∈ (diffStates before after).nodesAdded ↔
    node ∈ (contentOf after).nodes ∧ node ∉ (contentBefore before).nodes := by
  have h : node ∈ (diffStates before after).nodesAdded ↔ node ∈ setAdded _ _ := List.mem_insertionSort _
  rw [h, mem_setAdded, mem_aliveNodes, mem_nodesBefore]
  exact Iff.rfl

theorem mem_nodesRemoved {node : JsString} : node ∈ (diffStates before after).nodesRemoved ↔
    node ∈ (contentBefore before).nodes ∧ node ∉ (contentOf after).nodes := by
  have h : node ∈ (diffStates before after).nodesRemoved ↔ node ∈ setAdded _ _ := List.mem_insertionSort _
  rw [h, mem_setAdded, mem_aliveNodes, mem_nodesBefore]
  exact Iff.rfl

variable (hbefore : ∀ state, before = some state → CleanState state) (hafter : CleanState after)

/-- `beforeEdges` -/
def edgesBefore (before : Option (WarpStateV5 JsValue)) : JsSet JsString :=
  (before.map (edgesAmong ((before.map aliveNodes).getD JsSet.empty))).getD JsSet.empty

include hbefore

theorem exists_edge_of_before {key : JsString} (h : key ∈ edgesBefore before) :
    ∃ edge : EdgeRef, edge.NoReservedBytes ∧ key = edge.key := by
  cases before with
  | none => exact absurd h (JsSet.not_mem_empty key)
  | some state => exact exists_edge_of_among (hbefore state rfl) h

theorem mem_contentBefore_edges {edge : EdgeRef} :
    edge ∈ (contentBefore before).edges ↔ edge.NoReservedBytes ∧ edge.key ∈ edgesBefore before := by
  cases before with
  | none => exact iff_of_false (Set.notMem_empty edge) fun h => JsSet.not_mem_empty edge.key h.2
  | some state => exact edgeShown_iff_among (hbefore state rfl)

include hafter

theorem mem_edgesAdded {edge : EdgeRef} : edge ∈ (diffStates before after).edgesAdded ↔
    edge ∈ (contentOf after).edges ∧ edge ∉ (contentBefore before).edges := by
  have h : edge ∈ (diffStates before after).edgesAdded ↔
      edge ∈ (setAdded (edgesBefore before) (edgesAmong (aliveNodes after) after)).map decodeEdgeKey :=
    List.mem_insertionSort _
  have hshown : edge ∈ (contentOf after).edges ↔ EdgeShown after edge := Iff.rfl
  rw [h, List.mem_map, hshown, edgeShown_iff_among hafter, mem_contentBefore_edges hbefore]
  constructor
  · rintro ⟨key, hkey, rfl⟩
    obtain ⟨hmem, hnew⟩ := mem_setAdded.mp hkey
    obtain ⟨edge, hedge, rfl⟩ := exists_edge_of_among hafter hmem
    rw [decodeEdgeKey_key hedge.clean]
    exact ⟨⟨hedge, hmem⟩, fun hold => hnew hold.2⟩
  · rintro ⟨⟨hedge, hmem⟩, hnew⟩
    exact ⟨edge.key, mem_setAdded.mpr ⟨hmem, fun hold => hnew ⟨hedge, hold⟩⟩, decodeEdgeKey_key hedge.clean⟩

theorem mem_edgesRemoved {edge : EdgeRef} : edge ∈ (diffStates before after).edgesRemoved ↔
    edge ∈ (contentBefore before).edges ∧ edge ∉ (contentOf after).edges := by
  have h : edge ∈ (diffStates before after).edgesRemoved ↔
      edge ∈ (setAdded (edgesAmong (aliveNodes after) after) (edgesBefore before)).map decodeEdgeKey :=
    List.mem_insertionSort _
  have hshown : edge ∈ (contentOf after).edges ↔ EdgeShown after edge := Iff.rfl
  rw [h, List.mem_map, hshown, edgeShown_iff_among hafter, mem_contentBefore_edges hbefore]
  constructor
  · rintro ⟨key, hkey, rfl⟩
    obtain ⟨hmem, hgone⟩ := mem_setAdded.mp hkey
    obtain ⟨edge, hedge, rfl⟩ := exists_edge_of_before hbefore hmem
    rw [decodeEdgeKey_key hedge.clean]
    exact ⟨⟨hedge, hmem⟩, fun hstill => hgone hstill.2⟩
  · rintro ⟨⟨hedge, hmem⟩, hgone⟩
    exact ⟨edge.key, mem_setAdded.mpr ⟨hmem, fun hstill => hgone ⟨hedge, hstill⟩⟩, decodeEdgeKey_key hedge.clean⟩

omit hafter

/-- A register that is no property of an edge is found under the key of its place. -/
theorem key_of_place (hafter : CleanState after) {key : JsString} (hkind : isEdgePropKey key = false)
    (hkey : ((beforeProps before).get key).isSome ∨ (after.prop.get key).isSome) :
    encodePropKey (decodePropKey key).1 (decodePropKey key).2 = key := by
  have hname : IsNodePropKey key ∨ IsEdgePropKey key := by
    rcases hkey with hold | hnew
    · cases before with
      | none => cases hold
      | some state => exact (hbefore state rfl).props key hold
    · exact hafter.props key hnew
  rcases hname with ⟨node, name, hnode, hname, rfl⟩ | ⟨edge, name, -, -, rfl⟩
  · rw [decodePropKey_encodePropKey hnode.1 hname.1]
  · cases hkind

omit hbefore

theorem contentBefore_props (place : JsString × JsString) : (contentBefore before).props place =
    if isEdgePropKey (encodePropKey place.1 place.2) = false ∧ decodePropKey (encodePropKey place.1 place.2) = place then
      ((beforeProps before).get (encodePropKey place.1 place.2)).map fun register => registerValue (some register)
    else none := by
  cases before with
  | none =>
      have hnone : (beforeProps none).get (encodePropKey place.1 place.2) = none := rfl
      rw [hnone]
      split <;> rfl
  | some state => rfl

/-- What a key gives: a change where the new state has a register with another value, a removal where it has none. -/
theorem diffProp_eq_some_iff {old new : JsMap JsString (LWWRegister JsValue)} {key : JsString}
    {change : PropSet ⊕ PropRemoved} : diffProp old new key = some change ↔ isEdgePropKey key = false ∧
      ((∃ register, new.get key = some register ∧
          (∀ past, old.get key = some past → deepEqual (registerValue (some past)) (registerValue (some register)) = false) ∧
          change = .inl ⟨key, (decodePropKey key).1, (decodePropKey key).2, registerValue (old.get key),
            registerValue (some register)⟩) ∨
        ∃ past, new.get key = none ∧ old.get key = some past ∧
          change = .inr ⟨key, (decodePropKey key).1, (decodePropKey key).2, registerValue (some past)⟩) := by
  unfold diffProp
  cases hkind : isEdgePropKey key with
  | true => simp
  | false =>
      cases hnew : new.get key with
      | none =>
          cases hold : old.get key with
          | none => simp
          | some past => simp [@eq_comm _ change]
      | some register =>
          cases hold : old.get key with
          | none =>
              have hundefined : registerValue none = .undefined := rfl
              simp [@eq_comm _ change, hundefined]
          | some past =>
              cases hequal : deepEqual (registerValue (some past)) (registerValue (some register)) with
              | true => simp [hequal]
              | false => simp [hequal, @eq_comm _ change]

theorem mem_diffProps_iff {change : PropSet ⊕ PropRemoved} :
    change ∈ diffProps before after ↔ ∃ key, diffProp (beforeProps before) after.prop key = some change := by
  unfold diffProps
  rw [List.mem_filterMap]
  constructor
  · rintro ⟨key, -, hchange⟩
    exact ⟨key, hchange⟩
  · rintro ⟨key, hchange⟩
    refine ⟨key, ?_, hchange⟩
    rw [JsSet.mem_elems, JsSet.mem_ofList, List.mem_append, JsMap.mem_keys_iff, JsMap.mem_keys_iff]
    rcases (diffProp_eq_some_iff.mp hchange).2 with ⟨register, hnew, -⟩ | ⟨past, -, hold, -⟩
    · exact Or.inr (by rw [hnew]; rfl)
    · exact Or.inl (by rw [hold]; rfl)

theorem inl_mem_diffProps {change : PropSet} :
    change ∈ (diffStates before after).propsSet ↔ Sum.inl change ∈ diffProps before after := by
  refine (List.mem_insertionSort _).trans (List.mem_filterMap.trans ⟨?_, fun hmem => ⟨_, hmem, rfl⟩⟩)
  rintro ⟨item, hmem, hitem⟩
  rw [Sum.getLeft?_eq_some_iff] at hitem
  rwa [← hitem]

theorem inr_mem_diffProps {change : PropRemoved} :
    change ∈ (diffStates before after).propsRemoved ↔ Sum.inr change ∈ diffProps before after := by
  refine (List.mem_insertionSort _).trans (List.mem_filterMap.trans ⟨?_, fun hmem => ⟨_, hmem, rfl⟩⟩)
  rintro ⟨item, hmem, hitem⟩
  rw [Sum.getRight?_eq_some_iff] at hitem
  rwa [← hitem]

theorem mem_propsSet {change : PropSet} : change ∈ (diffStates before after).propsSet ↔
    isEdgePropKey change.key = false ∧ (change.nodeId, change.propKey) = decodePropKey change.key ∧
      change.oldValue = registerValue ((beforeProps before).get change.key) ∧
      ∃ register, after.prop.get change.key = some register ∧ change.newValue = registerValue (some register) ∧
        ∀ past, (beforeProps before).get change.key = some past →
          deepEqual (registerValue (some past)) (registerValue (some register)) = false := by
  rw [inl_mem_diffProps, mem_diffProps_iff]
  constructor
  · rintro ⟨key, hchange⟩
    obtain ⟨hkind, ⟨register, hnew, hdiffers, heq⟩ | ⟨past, -, -, heq⟩⟩ := diffProp_eq_some_iff.mp hchange
    · cases heq
      exact ⟨hkind, rfl, rfl, register, hnew, rfl, hdiffers⟩
    · cases heq
  · obtain ⟨key, nodeId, propKey, oldValue, newValue⟩ := change
    rintro ⟨hkind, hplace, hold, register, hnew, hvalue, hdiffers⟩
    refine ⟨key, diffProp_eq_some_iff.mpr ⟨hkind, Or.inl ⟨register, hnew, hdiffers, ?_⟩⟩⟩
    simp only at hplace hold hvalue
    rw [hold, hvalue, ← hplace]

theorem mem_propsRemoved {change : PropRemoved} : change ∈ (diffStates before after).propsRemoved ↔
    isEdgePropKey change.key = false ∧ (change.nodeId, change.propKey) = decodePropKey change.key ∧
      after.prop.get change.key = none ∧ ∃ past, (beforeProps before).get change.key = some past ∧
        change.oldValue = registerValue (some past) := by
  rw [inr_mem_diffProps, mem_diffProps_iff]
  constructor
  · rintro ⟨key, hchange⟩
    obtain ⟨hkind, ⟨register, -, -, heq⟩ | ⟨past, hnew, hold, heq⟩⟩ := diffProp_eq_some_iff.mp hchange
    · cases heq
    · cases heq
      exact ⟨hkind, rfl, hnew, past, hold, rfl⟩
  · obtain ⟨key, nodeId, propKey, oldValue⟩ := change
    rintro ⟨hkind, hplace, hnew, past, hold, hvalue⟩
    refine ⟨key, diffProp_eq_some_iff.mpr ⟨hkind, Or.inr ⟨past, hnew, hold, ?_⟩⟩⟩
    simp only at hplace hvalue
    rw [hvalue, ← hplace]

/-- The diff changes what the copy holds at every place it names: it adds what is not there and removes what is. -/
structure Copy.Fresh (copy : Copy) (diff : StateDiffResult) : Prop where
  nodesAdded : ∀ node ∈ diff.nodesAdded, node ∉ copy.nodes
  nodesRemoved : ∀ node ∈ diff.nodesRemoved, node ∈ copy.nodes
  edgesAdded : ∀ edge ∈ diff.edgesAdded, edge ∉ copy.edges
  edgesRemoved : ∀ edge ∈ diff.edgesRemoved, edge ∈ copy.edges
  propsSet : ∀ change ∈ diff.propsSet, copy.props (change.nodeId, change.propKey) ≠ some change.newValue
  propsRemoved : ∀ change ∈ diff.propsRemoved, copy.props (change.nodeId, change.propKey) = some change.oldValue

section Fold

include hbefore hafter

/-- A change at a place is one under the key of the place. -/
theorem key_of_propsSet {change : PropSet} (h : change ∈ (diffStates before after).propsSet) :
    change.key = encodePropKey change.nodeId change.propKey := by
  obtain ⟨hkind, hplace, -, register, hnew, -⟩ := mem_propsSet.mp h
  have hkey := key_of_place hbefore hafter hkind (Or.inr (by rw [hnew]; rfl))
  rw [← hplace] at hkey
  exact hkey.symm

theorem key_of_propsRemoved {change : PropRemoved} (h : change ∈ (diffStates before after).propsRemoved) :
    change.key = encodePropKey change.nodeId change.propKey := by
  obtain ⟨hkind, hplace, -, past, hold, -⟩ := mem_propsRemoved.mp h
  have hkey := key_of_place hbefore hafter hkind (Or.inl (by rw [hold]; rfl))
  rw [← hplace] at hkey
  exact hkey.symm

omit hbefore hafter in
/-- Without a change at a place, a register there has a value that is taken for the old one. -/
theorem exists_past_of_unchanged {place : JsString × JsString}
    (hnone : ∀ change ∈ (diffStates before after).propsSet, (change.nodeId, change.propKey) ≠ place)
    (hkind : isEdgePropKey (encodePropKey place.1 place.2) = false)
    (hdecode : decodePropKey (encodePropKey place.1 place.2) = place) {register : LWWRegister JsValue}
    (hnew : after.prop.get (encodePropKey place.1 place.2) = some register) :
    ∃ past, (beforeProps before).get (encodePropKey place.1 place.2) = some past ∧
      deepEqual (registerValue (some past)) (registerValue (some register)) = true := by
  by_contra hno
  refine hnone ⟨encodePropKey place.1 place.2, place.1, place.2,
    registerValue ((beforeProps before).get (encodePropKey place.1 place.2)), registerValue (some register)⟩ ?_ rfl
  refine mem_propsSet.mpr ⟨hkind, hdecode.symm, rfl, register, hnew, rfl, fun past hpast => ?_⟩
  rw [Bool.eq_false_iff]
  exact fun hequal => hno ⟨past, hpast, hequal⟩

theorem mem_removedPlaces_iff {place : JsString × JsString} :
    place ∈ (diffStates before after).propsRemoved.map (fun change => (change.nodeId, change.propKey)) ↔
      isEdgePropKey (encodePropKey place.1 place.2) = false ∧ decodePropKey (encodePropKey place.1 place.2) = place ∧
        after.prop.get (encodePropKey place.1 place.2) = none ∧
        ((beforeProps before).get (encodePropKey place.1 place.2)).isSome := by
  rw [List.mem_map]
  constructor
  · rintro ⟨change, hmem, rfl⟩
    have hkey := key_of_propsRemoved hbefore hafter hmem
    obtain ⟨hkind, hplace, hnew, past, hold, -⟩ := mem_propsRemoved.mp hmem
    simp only [← hkey]
    exact ⟨hkind, hplace.symm, hnew, by rw [hold]; rfl⟩
  · rintro ⟨hkind, hdecode, hnew, hold⟩
    obtain ⟨past, hpast⟩ := Option.isSome_iff_exists.mp hold
    exact ⟨⟨_, place.1, place.2, registerValue (some past)⟩,
      mem_propsRemoved.mpr ⟨hkind, hdecode.symm, hnew, past, hpast, rfl⟩, rfl⟩

/-- Folding the diff of two states into the content of the first gives the content of the second. -/
theorem fold_diffStates (hexact : ComparesExactly before after) :
    (contentBefore before).fold (diffStates before after) = contentOf after := by
  refine Copy.ext (Set.ext fun node => ?_) (Set.ext fun edge => ?_) (funext fun place => ?_)
  · simp only [Copy.fold, Set.mem_ofPred_eq, mem_nodesAdded, mem_nodesRemoved]
    tauto
  · simp only [Copy.fold, Set.mem_ofPred_eq, mem_edgesAdded hbefore hafter, mem_edgesRemoved hbefore hafter]
    tauto
  · have hcontent : (contentOf after).props place =
        if isEdgePropKey (encodePropKey place.1 place.2) = false ∧
            decodePropKey (encodePropKey place.1 place.2) = place then
          (after.prop.get (encodePropKey place.1 place.2)).map fun register => registerValue (some register)
        else none := rfl
    rw [hcontent]
    simp only [Copy.fold]
    split
    · rename_i change hfind
      have hplace : (change.nodeId, change.propKey) = place := by simpa using List.find?_some hfind
      have hmem := List.mem_of_find?_eq_some hfind
      have hkey := key_of_propsSet hbefore hafter hmem
      obtain ⟨hkind, hdecode, -, register, hnew, hvalue, -⟩ := mem_propsSet.mp hmem
      cases hplace
      simp only [← hkey]
      rw [if_pos ⟨hkind, hdecode.symm⟩, hnew, hvalue]
      rfl
    · rename_i hfind
      have hnone : ∀ change ∈ (diffStates before after).propsSet, (change.nodeId, change.propKey) ≠ place :=
        fun change hmem heq => List.find?_eq_none.mp hfind change hmem (decide_eq_true heq)
      simp only [contentBefore_props, mem_removedPlaces_iff hbefore hafter]
      by_cases hguard : isEdgePropKey (encodePropKey place.1 place.2) = false ∧
          decodePropKey (encodePropKey place.1 place.2) = place
      · rw [if_pos hguard, if_pos hguard]
        cases hnew : after.prop.get (encodePropKey place.1 place.2) with
        | none =>
            cases hold : (beforeProps before).get (encodePropKey place.1 place.2) with
            | none => simp
            | some past => simp [hguard]
        | some register =>
            obtain ⟨past, hpast, hequal⟩ := exists_past_of_unchanged hnone hguard.1 hguard.2 hnew
            rw [if_neg (fun h => nomatch h.2.2.1), hpast, Option.map_some, Option.map_some,
              (hexact _ past register hguard.1 hpast hnew).mp hequal]
      · rw [if_neg hguard, if_neg hguard, ite_self]

/-- The diff of two states changes what the first holds at every place it names. -/
theorem fresh_diffStates (hexact : ComparesExactly before after) :
    (contentBefore before).Fresh (diffStates before after) where
  nodesAdded _ h := (mem_nodesAdded.mp h).2
  nodesRemoved _ h := (mem_nodesRemoved.mp h).1
  edgesAdded _ h := ((mem_edgesAdded hbefore hafter).mp h).2
  edgesRemoved _ h := ((mem_edgesRemoved hbefore hafter).mp h).1
  propsSet change h := by
    have hkey := key_of_propsSet hbefore hafter h
    obtain ⟨hkind, hdecode, -, register, hnew, hvalue, hdiffers⟩ := mem_propsSet.mp h
    rw [contentBefore_props]
    simp only [← hkey]
    rw [if_pos ⟨hkind, hdecode.symm⟩, hvalue]
    intro hsame
    obtain ⟨past, hpast, heq⟩ := Option.map_eq_some_iff.mp hsame
    have hequal := (hexact _ past register hkind hpast hnew).mpr heq
    rw [hdiffers past hpast] at hequal
    cases hequal
  propsRemoved change h := by
    have hkey := key_of_propsRemoved hbefore hafter h
    obtain ⟨hkind, hdecode, -, past, hpast, hvalue⟩ := mem_propsRemoved.mp h
    rw [contentBefore_props]
    simp only [← hkey]
    rw [if_pos ⟨hkind, hdecode.symm⟩, hpast, hvalue]
    rfl

end Fold

end Diff

theorem comparesExactly_none (state : WarpStateV5 JsValue) : ComparesExactly none state :=
  fun _ _ _ _ hold _ => nomatch hold

/-- A diff that says nothing leaves a copy as it is. -/
theorem fold_of_empty {diff : StateDiffResult} (h : isEmptyDiff diff = true) (copy : Copy) : copy.fold diff = copy := by
  simp only [isEmptyDiff, Bool.and_eq_true, decide_eq_true_eq, List.length_eq_zero_iff] at h
  obtain ⟨⟨⟨⟨⟨hadded, hremoved⟩, hedges⟩, hcut⟩, hset⟩, hunset⟩ := h
  refine Copy.ext (Set.ext fun node => ?_) (Set.ext fun edge => ?_) (funext fun place => ?_)
  · simp [Copy.fold, hadded, hremoved]
  · simp [Copy.fold, hedges, hcut]
  · simp [Copy.fold, hset, hunset]

/-! ### What readers see -/

/-- What readers see of a state: nodes, edges, and the properties of nodes. -/
def visibleCopy (state : WarpStateV5 JsValue) : Copy where
  nodes := {node | node ∈ getNodes state}
  edges := {edge | EdgeShown state edge}
  props place := ((getNodeProps state place.1).bind fun props => props.get place.2).map fun value =>
    value.getD .undefined

theorem visibleCopy_props {state : WarpStateV5 JsValue} (hclean : CleanState state) {place : JsString × JsString}
    (halive : orsetContains state.nodeAlive place.1 = true) : (visibleCopy state).props place =
      (state.prop.get (encodePropKey place.1 place.2)).map fun register => registerValue (some register) := by
  obtain ⟨props, hprops, hvalues⟩ := hclean.getNodeProps_eq halive
  simp only [visibleCopy, hprops, Option.bind_some]
  cases hget : state.prop.get (encodePropKey place.1 place.2) with
  | none =>
      have hnone : props.get place.2 = none := by
        rw [Option.eq_none_iff_forall_ne_some]
        intro value hvalue
        obtain ⟨register, hregister, -⟩ := (hvalues _ _).mp hvalue
        rw [hget] at hregister
        cases hregister
      rw [hnone]
      rfl
  | some register =>
      rw [(hvalues _ _).mpr ⟨register, hget, rfl⟩]
      rfl

theorem visibleCopy_props_dead {state : WarpStateV5 JsValue} {place : JsString × JsString}
    (hdead : orsetContains state.nodeAlive place.1 ≠ true) : (visibleCopy state).props place = none := by
  have hnone : getNodeProps state place.1 = none := if_neg hdead
  simp only [visibleCopy, hnone]
  rfl

theorem contentOf_props {state : WarpStateV5 JsValue} (hclean : CleanState state) {place : JsString × JsString}
    (halive : orsetContains state.nodeAlive place.1 = true) : (contentOf state).props place =
      (state.prop.get (encodePropKey place.1 place.2)).map fun register => registerValue (some register) := by
  have hnode := hclean.nodes place.1 halive
  simp only [contentOf]
  cases hget : state.prop.get (encodePropKey place.1 place.2) with
  | none => exact ite_self none
  | some register =>
      exact if_pos ⟨isEdgePropKey_nodeKey hnode place.2, hclean.decode_nodeKey hnode (by rw [hget]; rfl)⟩

/-- Of the content of a state readers see all but the properties of dead nodes. -/
theorem shown_contentOf {state : WarpStateV5 JsValue} (hclean : CleanState state) :
    (contentOf state).shown = visibleCopy state := by
  refine Copy.ext (Set.ext fun node => (mem_orsetElements _ _).symm) rfl (funext fun place => ?_)
  by_cases halive : orsetContains state.nodeAlive place.1 = true
  · rw [visibleCopy_props hclean halive, ← contentOf_props hclean halive]
    exact if_pos halive
  · rw [visibleCopy_props_dead halive]
    exact if_neg halive

end StateDiff

end GitWarp
