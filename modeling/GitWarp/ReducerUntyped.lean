import GitWarp.LibraryJsValue
import GitWarp.ReducerReceipts

/-! The reducers on operations as they come: an operation is any value, and `validateOp` decides what it is taken
for. What passes is applied by the typed reducer. Values among the observed dots that are no strings are removed
like dots; as no dot equals them, they are kept aside. -/

namespace GitWarp
open Js ExceptLoops

namespace Untyped
open JsValue

/-- The parts of the language that an operation of an unexpected form meets. -/
structure Language where
  /-- `${value}` -/
  template : JsValue → Except JsError JsString
  /-- `${value}` of a number that is no integer -/
  numberText : JsNumber → JsString
  /-- `JSON.stringify` in the text of an error -/
  stringify : JsValue → String
  /-- What a builtin instance yields when it is iterated, if it can be. -/
  members : JsString → Option (List JsValue)

variable (L : Language)

/-- `[...value]` of an object that can be iterated. -/
def iterate : JsValue → Option (List JsValue)
  | .array items => some items
  | .map entries => some (entries.map fun entry => .array [.string entry.1, entry.2])
  | .bytes data => some (data.map fun b => ofInt b.toNat)
  | .builtin held _ => L.members held
  | _ => none

/-- A `dot` that passed `requireDot`: its counter is a number, not yet an integer. -/
structure DotObject where
  object : JsValue
  writerId : JsString
  counter : JsNumber
  deriving DecidableEq

/-- An operation that passed `validateOp`: the fields that are used afterwards. -/
inductive CheckedOp where
  | nodeAdd (node : JsString) (dot : DotObject)
  | nodeRemove (node : JsValue) (observedDots : List JsValue)
  | edgeAdd (edge : EdgeRef) (dot : DotObject)
  | edgeRemove (fromId toId label : JsValue) (observedDots : List JsValue)
  | propSet (node key : JsString) (value : JsValue)
  | nodePropSet (node key : JsString) (value : JsValue)
  | edgePropSet (edge : EdgeRef) (key : JsString) (value : JsValue)
  /-- `BlobValue` and the types that are not known. -/
  | other (type : JsString) (node oid : JsValue)
  deriving DecidableEq

/-- `op.type` -/
def opType (op : JsValue) : JsString := (op.get (js "type")).text

def refused {α : Type} (op : JsValue) (field expected : String) (actual : JsValue) : Except JsError α :=
  let type := toText (opType op)
  let actual := typeOf actual
  .error ⟨"PatchError", s!"{type} op requires '{field}' to be {expected}, got {actual}"⟩

def requireString (op : JsValue) (field : String) : Except JsError JsString :=
  match op.get (js field) with
  | .string s => .ok s
  | actual => refused op field "a string" actual

def requireIterable (op : JsValue) (field : String) : Except JsError (List JsValue) :=
  match iterate L (op.get (js field)) with
  | some items => .ok items
  | none => refused op field "iterable" (op.get (js field))

def requireDot (op : JsValue) : Except JsError DotObject :=
  let dot := op.get (js "dot")
  if dot.isObject = false then refused op "dot" "an object" dot
  else
    match dot.get (js "writerId") with
    | .string writerId =>
        match dot.get (js "counter") with
        | .number counter => .ok ⟨dot, writerId, counter⟩
        | actual => refused op "dot.counter" "a number" actual
    | actual => refused op "dot.writerId" "a string" actual

def requireEdge (op : JsValue) : Except JsError EdgeRef := do
  let fromId ← requireString op "from"
  let toId ← requireString op "to"
  let label ← requireString op "label"
  return ⟨fromId, toId, label⟩

/-- What stands for the value in the text about an operation without a type. -/
def typelessText (op : JsValue) : String :=
  match op with
  | .null => "null"
  | .undefined => "undefined"
  | op => typeOf (op.get (js "type"))

/-- The checks of `validateOp` on an operation of this type. -/
def checkFields (type : JsString) (op : JsValue) : Except JsError CheckedOp :=
  if type = js "NodeAdd" then do
    let node ← requireString op "node"
    return .nodeAdd node (← requireDot op)
  else if type = js "NodeRemove" then do
    return .nodeRemove (op.get (js "node")) (← requireIterable L op "observedDots")
  else if type = js "EdgeAdd" then do
    let edge ← requireEdge op
    return .edgeAdd edge (← requireDot op)
  else if type = js "EdgeRemove" then do
    return .edgeRemove (op.get (js "from")) (op.get (js "to")) (op.get (js "label"))
      (← requireIterable L op "observedDots")
  else if type = js "PropSet" then do
    let node ← requireString op "node"
    return .propSet node (← requireString op "key") (op.get (js "value"))
  else if type = js "NodePropSet" then do
    let node ← requireString op "node"
    return .nodePropSet node (← requireString op "key") (op.get (js "value"))
  else if type = js "EdgePropSet" then do
    let edge ← requireEdge op
    return .edgePropSet edge (← requireString op "key") (op.get (js "value"))
  else return .other type (op.get (js "node")) (op.get (js "oid"))

def validateOp (op : JsValue) : Except JsError CheckedOp :=
  match op.get (js "type") with
  | .string type => checkFields L type op
  | _ =>
      let actual := typelessText op
      .error ⟨"PatchError", s!"Invalid op: expected object with string 'type', got {actual}"⟩

def createNodePropSetV2 (node key value : JsValue) : JsValue :=
  .object [(js "key", key), (js "node", node), (js "type", .string (js "NodePropSet")), (js "value", value)]

def createEdgePropSetV2 (edge : EdgeRef) (key value : JsValue) : JsValue :=
  .object [(js "from", .string edge.fromId), (js "key", key), (js "label", .string edge.label),
    (js "to", .string edge.toId), (js "type", .string (js "EdgePropSet")), (js "value", value)]

def normalizeRawOp (rawOp : JsValue) : Except JsError JsValue :=
  if rawOp.get (js "type") ≠ .string (js "PropSet") then .ok rawOp
  else
    let node := rawOp.get (js "node")
    if isLegacyEdgePropNode node.text then do
      let edge ← decodeLegacyEdgePropNode node.text
      return createEdgePropSetV2 edge (rawOp.get (js "key")) (rawOp.get (js "value"))
    else .ok (createNodePropSetV2 node (rawOp.get (js "key")) (rawOp.get (js "value")))

/-! ### The state -/

/-- The strings among the observed dots. -/
def strings (items : List JsValue) : List JsString :=
  items.filterMap fun item => match item with
    | .string s => some s
    | _ => none

def strays (items : List JsValue) : List JsValue := items.filter fun item => !item.isText

/-- A state, with the removed values that are no strings in the order of their removal. -/
structure UntypedState where
  state : WarpStateV5 JsValue
  nodeStrays : List JsValue
  edgeStrays : List JsValue
  deriving DecidableEq

/-- `undefined` is a register's value `none`. -/
def valueOf (value : JsValue) : Option JsValue := if value.isUndefined then none else some value

/-- The check of `orsetAdd`. -/
def DotObject.checked (dot : DotObject) : Except JsError Dot :=
  match asInteger (.number dot.counter) with
  | some counter => .ok ⟨dot.writerId, counter⟩
  | none =>
      let actual := L.stringify dot.object
      thrown s!"orsetAdd: invalid dot -- expected \x7bwriterId: string, counter: integer\x7d, got {actual}"

/-- What is applied to the sets and maps of the state. -/
def CheckedOp.typed : CheckedOp → Except JsError (OpV2 JsValue)
  | .nodeAdd node dot => do return .nodeAdd node (← dot.checked L)
  | .nodeRemove node observedDots =>
      return .nodeRemove (if node.isText then some node.text else none) (strings observedDots)
  | .edgeAdd edge dot => do return .edgeAdd edge (← dot.checked L)
  | .edgeRemove fromId toId label observedDots =>
      let name := fun (value : JsValue) => if value.isText then some value.text else none
      return .edgeRemove (name fromId) (name toId) (name label) (strings observedDots)
  | .propSet node key value => return .propSet node key (valueOf value)
  | .nodePropSet node key value => return .nodePropSet node key (valueOf value)
  | .edgePropSet edge key value => return .edgePropSet edge key (valueOf value)
  | .other type _ _ => return .unknown type

def CheckedOp.nodeStrays : CheckedOp → List JsValue
  | .nodeRemove _ observedDots => strays observedDots
  | _ => []

def CheckedOp.edgeStrays : CheckedOp → List JsValue
  | .edgeRemove _ _ _ observedDots => strays observedDots
  | _ => []

def applyOpV2 (state : UntypedState) (op : JsValue) (eventId : EventId) : Except JsError UntypedState := do
  let checked ← validateOp L op
  let next ← GitWarp.applyOpV2 state.state (← checked.typed L) eventId
  return ⟨next, state.nodeStrays ++ checked.nodeStrays, state.edgeStrays ++ checked.edgeStrays⟩

/-- A patch whose operations are not looked at yet. -/
structure UntypedPatch where
  writer : JsString
  lamport : Int
  context : PatchContext
  ops : List JsValue
  deriving DecidableEq

/-- A lamport that is not positive is refused like `0`. -/
def UntypedPatch.createEventId (patch : UntypedPatch) (patchSha : JsString) (opIndex : Nat) :
    Except JsError EventId := GitWarp.createEventId patch.lamport.toNat patch.writer patchSha opIndex

/-- A lamport that is not positive is above no counter. -/
def updateFrontierFromPatch (state : UntypedState) (patch : UntypedPatch) : Except JsError UntypedState := do
  let contextVV ← contextVV patch.context
  let observedFrontier :=
    foldPatchDot (vvMerge state.state.observedFrontier contextVV) patch.writer patch.lamport.toNat
  return { state with state := { state.state with observedFrontier := observedFrontier } }

def applyFast (state : UntypedState) (patch : UntypedPatch) (patchSha : JsString) : Except JsError UntypedState := do
  let state ← patch.ops.zipIdx.foldlM (fun state item => do
    let eventId ← patch.createEventId patchSha item.2
    let op ← normalizeRawOp item.1
    applyOpV2 L state op eventId) state
  updateFrontierFromPatch state patch

/-! ### The diff -/

/-- `targetDots.size`: of the values that are no strings, objects are told apart by identity. -/
def targetSize (observedDots : List JsValue) : Nat :=
  let rest := strays observedDots
  (JsSet.ofList (strings observedDots)).size + (rest.filter isObject).length +
    (rest.filter fun item => !item.isObject).dedup.length

def buildDotToElement (orset : ORSet) (observedDots : List JsValue) : JsMap JsString JsString :=
  ((orset.entries.entries.flatMap fun entry => entry.2.elems.map fun d => (entry.1, d)).foldl
    (scanPair (JsSet.ofList (strings observedDots))) (JsMap.empty, targetSize observedDots)).1

def aliveElementsForDots (orset : ORSet) (observedDots : List JsValue) : JsSet JsString :=
  let dotToElement := buildDotToElement orset observedDots
  (JsSet.ofList (strings observedDots)).elems.foldl (fun result d =>
    match dotToElement.get d with
    | none => result
    | some element =>
        if result.has element = false ∧ orsetContains orset element then result.add element
        else result) JsSet.empty

def snapshotBeforeOp (state : WarpStateV5 JsValue) : CheckedOp → SnapshotBeforeOp JsValue
  | .nodeAdd node _ => { nodeWasAlive := orsetContains state.nodeAlive node }
  | .nodeRemove _ observedDots => { aliveBeforeNodes := aliveElementsForDots state.nodeAlive observedDots }
  | .edgeAdd edge _ =>
      { edgeWasAlive := orsetContains state.edgeAlive edge.key
        edgeKey := edge.key }
  | .edgeRemove _ _ _ observedDots => { aliveBeforeEdges := aliveElementsForDots state.edgeAlive observedDots }
  | .propSet node key _ | .nodePropSet node key _ =>
      { prevPropValue := lwwValue (state.prop.get (encodePropKey node key))
        propKey := encodePropKey node key }
  | .edgePropSet edge key _ =>
      let propKey := encodeEdgePropKey edge.fromId edge.toId edge.label key
      { prevPropValue := lwwValue (state.prop.get propKey)
        propKey := propKey }
  | .other _ _ _ => {}

/-- Values are compared as data. -/
def accumulateOpDiff (diff : PatchDiff JsValue) (state : UntypedState) (op : CheckedOp)
    (before : SnapshotBeforeOp JsValue) : PatchDiff JsValue :=
  match op.typed L with
  | .ok typed => GitWarp.accumulateOpDiff diff state.state typed before
  | .error _ => diff

def applyWithDiff (state : UntypedState) (patch : UntypedPatch) (patchSha : JsString) :
    Except JsError (UntypedState × PatchDiff JsValue) := do
  let acc ← patch.ops.zipIdx.foldlM (fun (acc : UntypedState × PatchDiff JsValue) item => do
    let canonOp ← normalizeRawOp item.1
    let checked ← validateOp L canonOp
    let eventId ← patch.createEventId patchSha item.2
    let before := snapshotBeforeOp acc.1.state checked
    let state ← applyOpV2 L acc.1 canonOp eventId
    return (state, accumulateOpDiff L acc.2 state checked before)) (state, createEmptyDiff)
  let state ← updateFrontierFromPatch acc.1 patch
  return (state, acc.2)

/-! ### The receipt -/

structure UntypedOutcome where
  target : JsValue
  result : OutcomeResult
  reason : Option String

structure UntypedOpOutcome where
  op : ReceiptOpType
  target : JsValue
  result : OutcomeResult
  reason : Option String

def UntypedOutcome.ofOutcome (outcome : Outcome) : UntypedOutcome :=
  ⟨.string outcome.target, outcome.result, outcome.reason⟩

def encodeDot (dot : DotObject) : JsString :=
  match asInteger (.number dot.counter) with
  | some counter => GitWarp.encodeDot ⟨dot.writerId, counter⟩
  | none => dot.writerId ++ dotSeparator :: L.numberText dot.counter

def addOutcome (orset : ORSet) (element : JsString) (dot : DotObject) : UntypedOutcome :=
  if (orset.dotsOf element).has (encodeDot L dot) then ⟨.string element, .redundant, none⟩
  else ⟨.string element, .applied, none⟩

def removeResult (orset : ORSet) (observedDots : List JsValue) : OutcomeResult :=
  let dotToElement := buildDotToElement orset observedDots
  let effective := (JsSet.ofList (strings observedDots)).elems.any fun encodedDot =>
    !orset.tombstones.has encodedDot && dotToElement.has encodedDot
  if effective then .applied else .redundant

/-- `'*'` -/
def anyValue : JsValue := .string anyTarget

def edgeRemoveTarget (fromId toId label : JsValue) : Except JsError JsValue :=
  if fromId.truthy && toId.truthy && label.truthy then do
    let source ← L.template fromId
    let target ← L.template toId
    let name ← L.template label
    return .string (encodeEdgeKey source target name)
  else return anyValue

/-- What becomes of an operation, seen from the state before it. -/
def opOutcome (state : WarpStateV5 JsValue) (op : CheckedOp) (eventId : EventId) : Except JsError UntypedOutcome :=
  match op with
  | .nodeAdd node dot => return addOutcome L state.nodeAlive node dot
  | .nodeRemove node observedDots =>
      return ⟨node.orElse anyValue, removeResult state.nodeAlive observedDots, none⟩
  | .edgeAdd edge dot => return addOutcome L state.edgeAlive edge.key dot
  | .edgeRemove fromId toId label observedDots => do
      let target ← edgeRemoveTarget L fromId toId label
      return ⟨target, removeResult state.edgeAlive observedDots, none⟩
  | .propSet node key _ | .nodePropSet node key _ =>
      return .ofOutcome (propOutcomeForKey state.prop (encodePropKey node key) eventId)
  | .edgePropSet edge key _ =>
      return .ofOutcome
        (propOutcomeForKey state.prop (encodeEdgePropKey edge.fromId edge.toId edge.label key) eventId)
  | .other _ node oid => return ⟨node.orElse (oid.orElse anyValue), .applied, none⟩

/-- The type under which an operation is in a receipt; `none` if it is left out. -/
def receiptOpType : CheckedOp → Option ReceiptOpType
  | .nodeAdd _ _ => some .nodeAdd
  | .nodeRemove _ _ => some .nodeTombstone
  | .edgeAdd _ _ => some .edgeAdd
  | .edgeRemove _ _ _ _ => some .edgeTombstone
  | .propSet _ _ _ => some .propSet
  | .nodePropSet _ _ _ => some .nodePropSet
  | .edgePropSet _ _ _ => some .edgePropSet
  | .other type _ _ =>
      if type = js "BlobValue" then some .blobValue
      else if type = js "NodeTombstone" then some .nodeTombstone
      else if type = js "EdgeTombstone" then some .edgeTombstone
      else none

def receiptEntry (op : CheckedOp) (outcome : UntypedOutcome) : List UntypedOpOutcome :=
  match receiptOpType op with
  | none => []
  | some type => [⟨type, outcome.target, outcome.result, outcome.reason⟩]

/-- A target that is no string is refused like the empty one. -/
def createTickReceipt (patchSha writer : JsString) (lamport : Int) (ops : List UntypedOpOutcome) :
    Except JsError TickReceipt :=
  if patchSha = [] then thrown "patchSha must be a non-empty string"
  else if writer = [] then thrown "writer must be a non-empty string"
  else if lamport < 0 then thrown "lamport must be a non-negative integer"
  else
    match ops.findIdx? fun entry => entry.target.text.isEmpty with
    | some i => thrown s!"ops[{i}].target must be a non-empty string"
    | none =>
        .ok ⟨patchSha, writer, lamport.toNat,
          ops.map fun entry => ⟨entry.op, entry.target.text, entry.result, entry.reason⟩⟩

def applyWithReceipt (state : UntypedState) (patch : UntypedPatch) (patchSha : JsString) :
    Except JsError (UntypedState × TickReceipt) := do
  let acc ← patch.ops.zipIdx.foldlM (fun (acc : UntypedState × List UntypedOpOutcome) item => do
    let canonOp ← normalizeRawOp item.1
    let checked ← validateOp L canonOp
    let eventId ← patch.createEventId patchSha item.2
    -- the outcome is that in the state before the operation
    let outcome ← opOutcome L acc.1.state checked eventId
    let state ← applyOpV2 L acc.1 canonOp eventId
    return (state, acc.2 ++ receiptEntry checked outcome)) (state, [])
  let state ← updateFrontierFromPatch acc.1 patch
  let receipt ← createTickReceipt patchSha patch.writer patch.lamport acc.2
  return (state, receipt)

end Untyped

end GitWarp
