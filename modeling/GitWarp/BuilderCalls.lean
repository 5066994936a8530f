import GitWarp.CommitSteps
import GitWarp.ReducerContents

/-! The calls of a patch builder, with the snapshot of the state that its removals and checks look at. A call
that throws has no result. Seen as a builder of the world, every call is a series of its edits. -/

namespace GitWarp
open Js ExceptLoops

variable {V : Type}

/-- `onDeleteWithData` -/
inductive DeletePolicy where
  | reject
  | cascade
  | warn
  deriving DecidableEq

/-- A builder that takes calls. -/
structure OpenBuilder (V : Type) extends PatchBuilderV2 V where
  /-- What `_getCurrentState()` returns on the first use; `none` is `null`. -/
  snapshotState : Option (WarpStateV5 V)
  onDeleteWithData : DeletePolicy
  nodesAdded : JsSet JsString
  edgesAdded : JsSet JsString

structure AttachedData where
  edges : List JsString
  props : List JsString

def AttachedData.hasData (attached : AttachedData) : Bool :=
  0 < attached.edges.length || 0 < attached.props.length

/-- The edges from and to a node, found by the prefix `${nodeId}\0` and the infix `\0${nodeId}\0` of their keys,
and its properties. -/
def findAttachedData (state : WarpStateV5 V) (nodeId : JsString) : AttachedData where
  edges := (orsetElements state.edgeAlive).filter fun key =>
    (nodeId ++ [fieldSeparator]).isPrefixOf key ||
      decide (fieldSeparator :: (nodeId ++ [fieldSeparator]) <:+: key)
  props := state.prop.keys.filter fun key => (nodeId ++ [fieldSeparator]).isPrefixOf key

/-- The removal that a cascade makes for an attached edge. -/
def cascadeRemove (state : WarpStateV5 V) (edgeKey : JsString) : OpV2 V :=
  let parts := edgeKey.splitOn fieldSeparator
  .edgeRemove parts[0]? parts[1]? parts[2]? (orsetGetDots state.edgeAlive edgeKey).elems

/-- The dots of a node or, for `edges`, of an edge that a removal observes. -/
def observedIn (state : Option (WarpStateV5 V)) (edges : Bool) (element : JsString) : List JsString :=
  match state with
  | none => []
  | some state => (orsetGetDots (state.part edges) element).elems

/-- `'_content'` -/
def contentPropertyKey : JsString := js "_content"

/-- `'_content.size'` -/
def contentSizePropertyKey : JsString := js "_content.size"

/-- `'_content.mime'` -/
def contentMimePropertyKey : JsString := js "_content.mime"

namespace OpenBuilder

/-- Goes on with what a call has made of the underlying builder. -/
def edit (builder : OpenBuilder V) (edited : PatchBuilderV2 V) : OpenBuilder V :=
  { builder with toPatchBuilderV2 := edited }

def appendAll (builder : OpenBuilder V) (ops : List (OpV2 V)) : Option (OpenBuilder V) :=
  (ops.foldlM PatchBuilderV2.append builder.toPatchBuilderV2).map builder.edit

def addNode (builder : OpenBuilder V) (nodeId : JsString) : Option (OpenBuilder V) := do
  let edited ← builder.toPatchBuilderV2.addNode nodeId
  return { builder.edit edited with nodesAdded := builder.nodesAdded.add nodeId }

def addEdge (builder : OpenBuilder V) (edge : EdgeRef) : Option (OpenBuilder V) := do
  let edited ← builder.toPatchBuilderV2.addEdge edge
  return { builder.edit edited with edgesAdded := builder.edgesAdded.add edge.key }

def removeNode (builder : OpenBuilder V) (nodeId : JsString) : Option (OpenBuilder V) :=
  let remove := .nodeRemove (some nodeId) (observedIn builder.snapshotState false nodeId)
  match builder.snapshotState with
  | none => builder.appendAll [remove]
  | some state =>
      let attached := findAttachedData state nodeId
      match builder.onDeleteWithData with
      | .cascade => builder.appendAll (attached.edges.map (cascadeRemove state) ++ [remove])
      | .reject => if attached.hasData then none else builder.appendAll [remove]
      -- attached data is only logged
      | .warn => builder.appendAll [remove]

def removeEdge (builder : OpenBuilder V) (edge : EdgeRef) : Option (OpenBuilder V) :=
  builder.appendAll [.edgeRemove (some edge.fromId) (some edge.toId) (some edge.label)
    (observedIn builder.snapshotState true edge.key)]

def setProperty (builder : OpenBuilder V) (nodeId key : JsString) (value : Option V) :
    Option (OpenBuilder V) := builder.appendAll [.nodePropSet nodeId key value]

/-- `_assertEdgeExists` passes. -/
def edgeExists (builder : OpenBuilder V) (edge : EdgeRef) : Bool :=
  builder.edgesAdded.has edge.key ||
    match builder.snapshotState with
    | none => false
    | some state => orsetContains state.edgeAlive edge.key

/-- `_assertNodeExistsForContent` passes. -/
def nodeExistsForContent (builder : OpenBuilder V) (nodeId : JsString) : Bool :=
  builder.nodesAdded.has nodeId ||
    match builder.snapshotState with
    | none => false
    | some state => orsetContains state.nodeAlive nodeId

def setEdgeProperty (builder : OpenBuilder V) (edge : EdgeRef) (key : JsString) (value : Option V) :
    Option (OpenBuilder V) :=
  if builder.edgeExists edge then builder.appendAll [.edgePropSet edge key value] else none

/-- The content is stored before; `oid`, `size` and `mime` are what is known of it then. -/
def attachContent (builder : OpenBuilder V) (nodeId : JsString) (oid size mime : Option V) :
    Option (OpenBuilder V) :=
  if builder.nodeExistsForContent nodeId then
    ((builder.setProperty nodeId contentPropertyKey oid).bind
      (setProperty · nodeId contentSizePropertyKey size)).bind
        (setProperty · nodeId contentMimePropertyKey mime)
  else none

def attachEdgeContent (builder : OpenBuilder V) (edge : EdgeRef) (oid size mime : Option V) :
    Option (OpenBuilder V) :=
  ((builder.setEdgeProperty edge contentPropertyKey oid).bind
    (setEdgeProperty · edge contentSizePropertyKey size)).bind
      (setEdgeProperty · edge contentMimePropertyKey mime)

end OpenBuilder

/-- A call of one of the builder's mutators. -/
inductive BuilderCall (V : Type) where
  | addNode (nodeId : JsString)
  | removeNode (nodeId : JsString)
  | addEdge (edge : EdgeRef)
  | removeEdge (edge : EdgeRef)
  | setProperty (nodeId key : JsString) (value : Option V)
  | setEdgeProperty (edge : EdgeRef) (key : JsString) (value : Option V)
  | attachContent (nodeId : JsString) (oid size mime : Option V)
  | attachEdgeContent (edge : EdgeRef) (oid size mime : Option V)

namespace OpenBuilder

def call (builder : OpenBuilder V) : BuilderCall V → Option (OpenBuilder V)
  | .addNode nodeId => builder.addNode nodeId
  | .removeNode nodeId => builder.removeNode nodeId
  | .addEdge edge => builder.addEdge edge
  | .removeEdge edge => builder.removeEdge edge
  | .setProperty nodeId key value => builder.setProperty nodeId key value
  | .setEdgeProperty edge key value => builder.setEdgeProperty edge key value
  | .attachContent nodeId oid size mime => builder.attachContent nodeId oid size mime
  | .attachEdgeContent edge oid size mime => builder.attachEdgeContent edge oid size mime

def calls (builder : OpenBuilder V) (calls : List (BuilderCall V)) : Option (OpenBuilder V) :=
  calls.foldlM call builder

/-- A builder before its first call. -/
structure Fresh (builder : OpenBuilder V) : Prop where
  ops : builder.ops = []
  phase : builder.phase = .building
  nodesAdded : builder.nodesAdded = JsSet.empty
  edgesAdded : builder.edgesAdded = JsSet.empty

end OpenBuilder

/-! ### What a call appends -/

/-- The operations that a call appends when the builder looks at `state`. -/
inductive CallOps (state : Option (WarpStateV5 V)) : BuilderCall V → List (OpV2 V) → Prop
  | addNode (nodeId : JsString) (dot : Dot) (hclean : NoReservedBytes nodeId) :
      CallOps state (.addNode nodeId) [.nodeAdd nodeId dot]
  | removeNode (nodeId : JsString) :
      CallOps state (.removeNode nodeId) [.nodeRemove (some nodeId) (observedIn state false nodeId)]
  | cascade (nodeId : JsString) (seen : WarpStateV5 V) (hseen : state = some seen) :
      CallOps state (.removeNode nodeId) ((findAttachedData seen nodeId).edges.map (cascadeRemove seen) ++
        [.nodeRemove (some nodeId) (observedIn state false nodeId)])
  | addEdge (edge : EdgeRef) (dot : Dot) (hclean : edge.NoReservedBytes) :
      CallOps state (.addEdge edge) [.edgeAdd edge dot]
  | removeEdge (edge : EdgeRef) :
      CallOps state (.removeEdge edge) [.edgeRemove (some edge.fromId) (some edge.toId) (some edge.label)
        (observedIn state true edge.key)]
  | setProperty (nodeId key : JsString) (value : Option V) (hnode : NoReservedBytes nodeId)
      (hkey : NoReservedBytes key) :
      CallOps state (.setProperty nodeId key value) [.nodePropSet nodeId key value]
  | setEdgeProperty (edge : EdgeRef) (key : JsString) (value : Option V) (hedge : edge.NoReservedBytes)
      (hkey : NoReservedBytes key) :
      CallOps state (.setEdgeProperty edge key value) [.edgePropSet edge key value]
  | attachContent (nodeId : JsString) (oid size mime : Option V) (hnode : NoReservedBytes nodeId) :
      CallOps state (.attachContent nodeId oid size mime)
        [.nodePropSet nodeId contentPropertyKey oid, .nodePropSet nodeId contentSizePropertyKey size,
          .nodePropSet nodeId contentMimePropertyKey mime]
  | attachEdgeContent (edge : EdgeRef) (oid size mime : Option V) (hedge : edge.NoReservedBytes) :
      CallOps state (.attachEdgeContent edge oid size mime)
        [.edgePropSet edge contentPropertyKey oid, .edgePropSet edge contentSizePropertyKey size,
          .edgePropSet edge contentMimePropertyKey mime]

namespace OpenBuilder

/-- `builder'` is `builder` with `ops` appended; the version vector and the sets of additions may have grown. -/
structure Appended (builder : OpenBuilder V) (ops : List (OpV2 V)) (builder' : OpenBuilder V) : Prop where
  ops : builder'.ops = builder.ops ++ ops
  snapshotState : builder'.snapshotState = builder.snapshotState
  writerId : builder'.writerId = builder.writerId
  edits : Relation.ReflTransGen PatchBuilderV2.Edit builder.toPatchBuilderV2 builder'.toPatchBuilderV2

theorem Appended.trans {builder middle builder' : OpenBuilder V} {ops ops' : List (OpV2 V)}
    (h : builder.Appended ops middle) (h' : middle.Appended ops' builder') :
    builder.Appended (ops ++ ops') builder' where
  ops := by rw [h'.ops, h.ops, List.append_assoc]
  snapshotState := h'.snapshotState.trans h.snapshotState
  writerId := h'.writerId.trans h.writerId
  edits := h.edits.trans h'.edits

theorem foldlM_append {ops : List (OpV2 V)} {edited edited' : PatchBuilderV2 V}
    (h : ops.foldlM PatchBuilderV2.append edited = some edited') :
    edited'.ops = edited.ops ++ ops ∧ edited'.writerId = edited.writerId ∧
      (∀ op ∈ ops, op.isDotless = true) ∧ Relation.ReflTransGen PatchBuilderV2.Edit edited edited' := by
  induction ops generalizing edited with
  | nil =>
      cases h
      exact ⟨(List.append_nil _).symm, rfl, nofun, .refl⟩
  | cons op rest ih =>
      rw [List.foldlM_cons, Option.bind_eq_bind, Option.bind_eq_some_iff] at h
      obtain ⟨middle, hmiddle, h⟩ := h
      obtain ⟨hops, hwriter, hdotless, hedits⟩ := ih h
      have hedit := PatchBuilderV2.edit_append hmiddle
      unfold PatchBuilderV2.append at hmiddle
      split at hmiddle
      · rename_i hguard
        cases hmiddle
        rw [Bool.and_eq_true] at hguard
        refine ⟨by rw [hops, List.append_assoc, List.singleton_append], hwriter, ?_, .head hedit hedits⟩
        exact List.forall_mem_cons.mpr ⟨hguard.2, hdotless⟩
      · cases hmiddle

theorem appended_appendAll {builder builder' : OpenBuilder V} {ops : List (OpV2 V)}
    (h : builder.appendAll ops = some builder') :
    builder.Appended ops builder' ∧ ∀ op ∈ ops, op.isDotless = true := by
  obtain ⟨edited, hedited, rfl⟩ := Option.map_eq_some_iff.mp h
  obtain ⟨hops, hwriter, hdotless, hedits⟩ := foldlM_append hedited
  exact ⟨⟨hops, rfl, hwriter, hedits⟩, hdotless⟩

theorem addWithDot_ops {edited edited' : PatchBuilderV2 V} {op : Dot → OpV2 V}
    (h : edited.addWithDot op = some edited') :
    ∃ dot, edited'.ops = edited.ops ++ [op dot] ∧ edited'.writerId = edited.writerId := by
  unfold PatchBuilderV2.addWithDot at h
  split at h
  · split at h
    · cases h
      exact ⟨_, rfl, rfl⟩
    · cases h
  · cases h

theorem appended_addNode {builder builder' : OpenBuilder V} {nodeId : JsString}
    (h : builder.addNode nodeId = some builder') :
    ∃ dot, NoReservedBytes nodeId ∧ builder.Appended [.nodeAdd nodeId dot] builder' := by
  simp only [addNode, Option.bind_eq_bind, Option.bind_eq_some_iff, Option.pure_def,
    Option.some.injEq] at h
  obtain ⟨edited, hedited, rfl⟩ := h
  have hedit := PatchBuilderV2.edit_addNode hedited
  unfold PatchBuilderV2.addNode at hedited
  split at hedited
  · rename_i hclean
    obtain ⟨dot, hops, hwriter⟩ := addWithDot_ops hedited
    exact ⟨dot, hclean, hops, rfl, hwriter, .single hedit⟩
  · cases hedited

theorem appended_addEdge {builder builder' : OpenBuilder V} {edge : EdgeRef}
    (h : builder.addEdge edge = some builder') :
    ∃ dot, edge.NoReservedBytes ∧ builder.Appended [.edgeAdd edge dot] builder' := by
  simp only [addEdge, Option.bind_eq_bind, Option.bind_eq_some_iff, Option.pure_def,
    Option.some.injEq] at h
  obtain ⟨edited, hedited, rfl⟩ := h
  have hedit := PatchBuilderV2.edit_addEdge hedited
  unfold PatchBuilderV2.addEdge at hedited
  split at hedited
  · rename_i hclean
    obtain ⟨dot, hops, hwriter⟩ := addWithDot_ops hedited
    exact ⟨dot, hclean, hops, rfl, hwriter, .single hedit⟩
  · cases hedited

theorem appended_setProperty {builder builder' : OpenBuilder V} {nodeId key : JsString}
    {value : Option V} (h : builder.setProperty nodeId key value = some builder') :
    builder.Appended [.nodePropSet nodeId key value] builder' ∧ NoReservedBytes nodeId ∧
      NoReservedBytes key := by
  obtain ⟨happended, hdotless⟩ := appended_appendAll h
  exact ⟨happended, of_decide_eq_true (hdotless _ (List.mem_singleton_self _))⟩

theorem appended_setEdgeProperty {builder builder' : OpenBuilder V} {edge : EdgeRef} {key : JsString}
    {value : Option V} (h : builder.setEdgeProperty edge key value = some builder') :
    builder.Appended [.edgePropSet edge key value] builder' ∧ edge.NoReservedBytes ∧
      NoReservedBytes key := by
  unfold setEdgeProperty at h
  split at h
  · obtain ⟨happended, hdotless⟩ := appended_appendAll h
    exact ⟨happended, of_decide_eq_true (hdotless _ (List.mem_singleton_self _))⟩
  · cases h

/-- What a call appends. -/
theorem exists_callOps {builder builder' : OpenBuilder V} {call : BuilderCall V}
    (h : builder.call call = some builder') :
    ∃ ops, CallOps builder.snapshotState call ops ∧ builder.Appended ops builder' := by
  cases call with
  | addNode nodeId =>
      obtain ⟨dot, hclean, happended⟩ := appended_addNode h
      exact ⟨_, .addNode nodeId dot hclean, happended⟩
  | removeNode nodeId =>
      have h : builder.removeNode nodeId = some builder' := h
      unfold removeNode at h
      cases hsnapshot : builder.snapshotState with
      | none =>
          simp only [hsnapshot] at h
          exact ⟨_, .removeNode nodeId, (appended_appendAll h).1⟩
      | some seen =>
          simp only [hsnapshot] at h
          split at h
          · exact ⟨_, .cascade nodeId seen rfl, (appended_appendAll h).1⟩
          · split at h
            · cases h
            · exact ⟨_, .removeNode nodeId, (appended_appendAll h).1⟩
          · exact ⟨_, .removeNode nodeId, (appended_appendAll h).1⟩
  | addEdge edge =>
      obtain ⟨dot, hclean, happended⟩ := appended_addEdge h
      exact ⟨_, .addEdge edge dot hclean, happended⟩
  | removeEdge edge => exact ⟨_, .removeEdge edge, (appended_appendAll h).1⟩
  | setProperty nodeId key value =>
      obtain ⟨happended, hnode, hkey⟩ := appended_setProperty h
      exact ⟨_, .setProperty nodeId key value hnode hkey, happended⟩
  | setEdgeProperty edge key value =>
      obtain ⟨happended, hedge, hkey⟩ := appended_setEdgeProperty h
      exact ⟨_, .setEdgeProperty edge key value hedge hkey, happended⟩
  | attachContent nodeId oid size mime =>
      have h : builder.attachContent nodeId oid size mime = some builder' := h
      unfold attachContent at h
      split at h
      · rw [Option.bind_eq_some_iff] at h
        obtain ⟨second, hsecond, h⟩ := h
        obtain ⟨first, hfirst, hsecond⟩ := Option.bind_eq_some_iff.mp hsecond
        obtain ⟨hoid, hnode, -⟩ := appended_setProperty hfirst
        exact ⟨_, .attachContent nodeId oid size mime hnode,
          (hoid.trans (appended_setProperty hsecond).1).trans (appended_setProperty h).1⟩
      · cases h
  | attachEdgeContent edge oid size mime =>
      obtain ⟨second, hsecond, h⟩ := Option.bind_eq_some_iff.mp
        (show builder.attachEdgeContent edge oid size mime = some builder' from h)
      obtain ⟨first, hfirst, hsecond⟩ := Option.bind_eq_some_iff.mp hsecond
      obtain ⟨hoid, hedge, -⟩ := appended_setEdgeProperty hfirst
      exact ⟨_, .attachEdgeContent edge oid size mime hedge,
        (hoid.trans (appended_setEdgeProperty hsecond).1).trans (appended_setEdgeProperty h).1⟩

/-- What a series of calls appends: the operations of its calls, one call after the other. -/
theorem exists_callsOps {calls : List (BuilderCall V)} {builder builder' : OpenBuilder V}
    (h : builder.calls calls = some builder') :
    ∃ opss, List.Forall₂ (CallOps builder.snapshotState) calls opss ∧ builder.Appended opss.flatten builder' := by
  induction calls generalizing builder with
  | nil =>
      cases h
      exact ⟨[], .nil, ⟨(List.append_nil _).symm, rfl, rfl, .refl⟩⟩
  | cons call rest ih =>
      rw [OpenBuilder.calls, List.foldlM_cons, Option.bind_eq_bind, Option.bind_eq_some_iff] at h
      obtain ⟨middle, hmiddle, h⟩ := h
      obtain ⟨ops, hops, happended⟩ := exists_callOps hmiddle
      obtain ⟨opss, hopss, hrest⟩ := ih h
      rw [happended.snapshotState] at hopss
      exact ⟨ops :: opss, .cons hops hopss, happended.trans hrest⟩

end OpenBuilder

end GitWarp
