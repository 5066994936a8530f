import GitWarp.ReducerState

/-! The reducer as a join semilattice. A `StateView` is what a state says, free of insertion orders and
of the values of registers: two add-wins sets and, for each key, the greatest event, birth or tick seen.
Every operation joins a fixed effect to the view, a patch joins the effects of its operations and of its
context, and `joinStates` joins the two views. -/

namespace GitWarp
open Js ExceptLoops

@[ext]
structure StateView where
  nodes : AddWins JsString JsString
  edges : AddWins JsString JsString
  props : JsString → WithBot EventId
  frontier : JsString → WithBot Nat
  births : JsString → WithBot EventId

namespace StateView

def toTuple (v : StateView) :
    AddWins JsString JsString × AddWins JsString JsString × (JsString → WithBot EventId) ×
      (JsString → WithBot Nat) × (JsString → WithBot EventId) :=
  (v.nodes, v.edges, v.props, v.frontier, v.births)

theorem toTuple_injective : Function.Injective toTuple := by
  intro v w h
  simp only [toTuple, Prod.mk.injEq] at h
  obtain ⟨hnodes, hedges, hprops, hfrontier, hbirths⟩ := h
  exact StateView.ext hnodes hedges hprops hfrontier hbirths

instance : LE StateView := ⟨fun v w => v.toTuple ≤ w.toTuple⟩

instance : LT StateView := ⟨fun v w => v.toTuple < w.toTuple⟩

instance : Max StateView :=
  ⟨fun v w => ⟨v.nodes ⊔ w.nodes, v.edges ⊔ w.edges, v.props ⊔ w.props, v.frontier ⊔ w.frontier,
    v.births ⊔ w.births⟩⟩

instance : SemilatticeSup StateView :=
  toTuple_injective.semilatticeSup toTuple Iff.rfl Iff.rfl fun _ _ => rfl

instance : OrderBot StateView where
  bot := ⟨⊥, ⊥, ⊥, ⊥, ⊥⟩
  bot_le v := show (⊥ : _ × _ × _ × _ × _) ≤ v.toTuple from bot_le

@[simp] theorem sup_nodes (v w : StateView) : (v ⊔ w).nodes = v.nodes ⊔ w.nodes := rfl

@[simp] theorem sup_edges (v w : StateView) : (v ⊔ w).edges = v.edges ⊔ w.edges := rfl

@[simp] theorem sup_props (v w : StateView) : (v ⊔ w).props = v.props ⊔ w.props := rfl

@[simp] theorem sup_frontier (v w : StateView) : (v ⊔ w).frontier = v.frontier ⊔ w.frontier := rfl

@[simp] theorem sup_births (v w : StateView) : (v ⊔ w).births = v.births ⊔ w.births := rfl

@[simp] theorem bot_nodes : (⊥ : StateView).nodes = ⊥ := rfl

@[simp] theorem bot_edges : (⊥ : StateView).edges = ⊥ := rfl

@[simp] theorem bot_props : (⊥ : StateView).props = ⊥ := rfl

@[simp] theorem bot_frontier : (⊥ : StateView).frontier = ⊥ := rfl

@[simp] theorem bot_births : (⊥ : StateView).births = ⊥ := rfl

end StateView

variable {V : Type}

/-- The event that last wrote a property, per key. -/
def propLevel (prop : JsMap JsString (LWWRegister V)) (key : JsString) : WithBot EventId :=
  registerLevel (prop.get key)

def WarpStateV5.view (state : WarpStateV5 V) : StateView where
  nodes := state.nodeAlive.view
  edges := state.edgeAlive.view
  props := propLevel state.prop
  frontier := state.observedFrontier.level
  births := state.edgeBirthEvent.level

/-- The function that is `x` at `key` and bottom elsewhere. -/
def levelAt {α : Type} (key : JsString) (x : WithBot α) : JsString → WithBot α :=
  fun key' => if key' = key then x else ⊥

/-- What a canonical property operation writes, and under which key. -/
def OpV2.write : OpV2 V → Option (JsString × Option V)
  | .nodePropSet node key value => some (encodePropKey node key, value)
  | .edgePropSet edge key value =>
      some (encodeEdgePropKey edge.fromId edge.toId edge.label key, value)
  | .propSet node key value =>
      if node.head? = some edgePropPrefix then none else some (encodePropKey node key, value)
  | _ => none

/-- The property part of an operation's effect. -/
def OpV2.propEffect (op : OpV2 V) (eventId : EventId) : JsString → WithBot EventId :=
  match op.write with
  | some (key, _) => levelAt key eventId
  | none => ⊥

/-- What an operation adds to any view. -/
def OpV2.effect (op : OpV2 V) (eventId : EventId) : StateView :=
  match op with
  | .nodeAdd node dot => { (⊥ : StateView) with nodes := AddWins.added node (encodeDot dot) }
  | .nodeRemove _ observedDots =>
      { (⊥ : StateView) with nodes := AddWins.removed {d | d ∈ observedDots} }
  | .edgeAdd edge dot =>
      { (⊥ : StateView) with
        edges := AddWins.added edge.key (encodeDot dot)
        births := levelAt edge.key eventId }
  | .edgeRemove _ _ _ observedDots =>
      { (⊥ : StateView) with edges := AddWins.removed {d | d ∈ observedDots} }
  | op => { (⊥ : StateView) with props := op.propEffect eventId }

def frontierEffect (read : ReadPatch V) : StateView :=
  { (⊥ : StateView) with
    frontier := read.context.level ⊔
      levelAt read.writer (if read.lamport = 0 then ⊥ else WithBot.some read.lamport) }

def ReadPatch.effect (read : ReadPatch V) : StateView :=
  joinAll (fun event : OpV2 V × EventId => event.1.effect event.2) read.events ⊔ frontierEffect read

theorem frontier_effect (op : OpV2 V) (eventId : EventId) : (op.effect eventId).frontier = ⊥ := by
  cases op <;> rfl

theorem frontier_joinAll_events (events : List (OpV2 V × EventId)) :
    (joinAll (fun event : OpV2 V × EventId => event.1.effect event.2) events).frontier = ⊥ := by
  induction events with
  | nil => rfl
  | cons event rest ih => rw [joinAll_cons, StateView.sup_frontier, frontier_effect, ih, sup_bot_eq]

/-- The frontier part of a patch's effect. -/
theorem frontier_readEffect (read : ReadPatch V) :
    read.effect.frontier = read.context.level ⊔
      levelAt read.writer (if read.lamport = 0 then ⊥ else WithBot.some read.lamport) := by
  rw [ReadPatch.effect, StateView.sup_frontier, frontier_joinAll_events, bot_sup_eq]
  rfl

/-! ### Every loop of the reducer joins effects -/

theorem get_setRegister (prop : JsMap JsString (LWWRegister V)) (key key' : JsString)
    (eventId : EventId) (value : Option V) :
    (setRegister prop key eventId value).get key' =
      if key' = key then lwwMax (prop.get key) (some (lwwSet eventId value)) else prop.get key' := by
  obtain ⟨register, hmax, -⟩ := lwwMax_some (prop.get key) (lwwSet eventId value)
  unfold setRegister
  rw [hmax, JsMap.get_set]

theorem propLevel_setRegister (prop : JsMap JsString (LWWRegister V)) (key : JsString)
    (eventId : EventId) (value : Option V) :
    propLevel (setRegister prop key eventId value) = propLevel prop ⊔ levelAt key eventId := by
  funext key'
  rw [Pi.sup_apply, propLevel, propLevel, get_setRegister, levelAt]
  by_cases hkey : key' = key
  · subst hkey
    rw [if_pos rfl, if_pos rfl, registerLevel_lwwMax]
    rfl
  · rw [if_neg hkey, if_neg hkey, sup_bot_eq]

theorem level_setBirthEvent (births : JsMap JsString EventId) (edgeKey : JsString)
    (eventId : EventId) :
    (setBirthEvent births edgeKey eventId).level = births.level ⊔ levelAt edgeKey eventId := by
  funext key
  rw [Pi.sup_apply]
  unfold setBirthEvent levelAt
  cases hget : births.get edgeKey with
  | none =>
      simp only [JsMap.level_set]
      by_cases hkey : key = edgeKey
      · subst hkey
        simp [JsMap.level_of_get_none hget]
      · simp [hkey]
  | some prev =>
      by_cases hcmp : 0 < compareEventIds eventId prev
      · simp only [if_pos hcmp, JsMap.level_set]
        rw [compareEventIds_pos_iff] at hcmp
        by_cases hkey : key = edgeKey
        · subst hkey
          simp [JsMap.level_of_get_some hget, hcmp.le]
        · simp [hkey]
      · simp only [if_neg hcmp]
        rw [compareEventIds_pos_iff, not_lt] at hcmp
        by_cases hkey : key = edgeKey
        · subst hkey
          simp [JsMap.level_of_get_some hget, hcmp]
        · simp [hkey]

theorem level_foldPatchDot (frontier : VersionVector) (writer : JsString) (lamport : Nat) :
    (foldPatchDot frontier writer lamport).level =
      frontier.level ⊔ levelAt writer (if lamport = 0 then ⊥ else WithBot.some lamport) := by
  funext key
  rw [Pi.sup_apply]
  unfold foldPatchDot levelAt VersionVector.counter
  by_cases hlt : (frontier.get writer).getD 0 < lamport
  · simp only [if_pos hlt, JsMap.level_set]
    have hpos : lamport ≠ 0 := by omega
    by_cases hkey : key = writer
    · subst hkey
      cases hget : frontier.get key with
      | none => simp [JsMap.level_of_get_none hget, hpos]
      | some n =>
          simp only [hget, Option.getD_some] at hlt
          simp [JsMap.level_of_get_some hget, hpos, hlt.le]
    · simp [hkey]
  · simp only [if_neg hlt]
    by_cases hkey : key = writer
    · subst hkey
      by_cases hzero : lamport = 0
      · simp [hzero]
      · cases hget : frontier.get key with
        | none => simp only [hget, Option.getD_none] at hlt; omega
        | some n =>
            simp only [hget, Option.getD_some] at hlt
            have hle : lamport ≤ n := by omega
            simp [JsMap.level_of_get_some hget, hzero, hle]
    · simp [hkey]

theorem view_applyEvent (state : WarpStateV5 V) (event : OpV2 V × EventId) :
    (applyEvent state event).view = state.view ⊔ event.1.effect event.2 := by
  obtain ⟨op, eventId⟩ := event
  cases op with
  | nodeAdd node dot =>
      apply StateView.ext <;>
        simp [applyEvent, applyOpV2, pure, Except.pure, WarpStateV5.view, OpV2.effect, view_orsetAdd]
  | nodeRemove node observedDots =>
      apply StateView.ext <;>
        simp [applyEvent, applyOpV2, pure, Except.pure, WarpStateV5.view, OpV2.effect,
          view_orsetRemove]
  | edgeAdd edge dot =>
      apply StateView.ext <;>
        simp [applyEvent, applyOpV2, pure, Except.pure, WarpStateV5.view, OpV2.effect, view_orsetAdd,
          level_setBirthEvent]
  | edgeRemove fromId toId label observedDots =>
      apply StateView.ext <;>
        simp [applyEvent, applyOpV2, pure, Except.pure, WarpStateV5.view, OpV2.effect,
          view_orsetRemove]
  | propSet node key value =>
      by_cases hnode : node.head? = some edgePropPrefix
      · apply StateView.ext <;>
          simp [applyEvent, applyOpV2, WarpStateV5.view, OpV2.effect, OpV2.propEffect, OpV2.write,
            hnode]
      · apply StateView.ext <;>
          simp [applyEvent, applyOpV2, pure, Except.pure, WarpStateV5.view, OpV2.effect,
            OpV2.propEffect, OpV2.write, hnode, propLevel_setRegister]
  | nodePropSet node key value =>
      apply StateView.ext <;>
        simp [applyEvent, applyOpV2, pure, Except.pure, WarpStateV5.view, OpV2.effect,
          OpV2.propEffect, OpV2.write, propLevel_setRegister]
  | edgePropSet edge key value =>
      apply StateView.ext <;>
        simp [applyEvent, applyOpV2, pure, Except.pure, WarpStateV5.view, OpV2.effect,
          OpV2.propEffect, OpV2.write, propLevel_setRegister]
  | blobValue node oid =>
      apply StateView.ext <;>
        simp [applyEvent, applyOpV2, pure, Except.pure, WarpStateV5.view, OpV2.effect,
          OpV2.propEffect, OpV2.write]
  | unknown type =>
      apply StateView.ext <;>
        simp [applyEvent, applyOpV2, pure, Except.pure, WarpStateV5.view, OpV2.effect,
          OpV2.propEffect, OpV2.write]

theorem view_applyRead (state : WarpStateV5 V) (read : ReadPatch V) :
    (applyRead state read).view = state.view ⊔ read.effect := by
  have hops := view_foldl WarpStateV5.view view_applyEvent read.events state
  have hview : (applyRead state read).view =
      (read.events.foldl applyEvent state).view ⊔ frontierEffect read := by
    apply StateView.ext
    · simp [applyRead, WarpStateV5.view, frontierEffect]
    · simp [applyRead, WarpStateV5.view, frontierEffect]
    · simp [applyRead, WarpStateV5.view, frontierEffect]
    · funext writerId
      simp only [applyRead, WarpStateV5.view, frontierEffect, level_foldPatchDot, StateView.sup_frontier,
        Pi.sup_apply, level_vvMerge, sup_assoc]
    · simp [applyRead, WarpStateV5.view, frontierEffect]
  rw [hview, hops, ReadPatch.effect, sup_assoc]

theorem view_foldl_applyRead (reads : List (ReadPatch V)) (state : WarpStateV5 V) :
    (reads.foldl applyRead state).view = state.view ⊔ joinAll ReadPatch.effect reads :=
  view_foldl WarpStateV5.view view_applyRead reads state

theorem view_createEmptyStateV5 : (createEmptyStateV5 : WarpStateV5 V).view = ⊥ := by
  apply StateView.ext
  · exact view_createORSet
  · exact view_createORSet
  · rfl
  · rfl
  · rfl

theorem get_mergeProps (a b : JsMap JsString (LWWRegister V)) (key : JsString) :
    (mergeProps a b).get key = lwwMax (a.get key) (b.get key) := by
  unfold mergeProps
  rw [JsMap.get_mergeWith]
  cases a.get key <;> cases b.get key <;> simp [JsMap.mergedValue, lwwMax]

theorem propLevel_mergeProps (a b : JsMap JsString (LWWRegister V)) :
    propLevel (mergeProps a b) = propLevel a ⊔ propLevel b := by
  funext key
  rw [Pi.sup_apply, propLevel, get_mergeProps, registerLevel_lwwMax]
  rfl

theorem level_mergeEdgeBirthEvent (a b : JsMap JsString EventId) :
    (mergeEdgeBirthEvent a b).level = a.level ⊔ b.level := by
  funext key
  rw [Pi.sup_apply]
  unfold JsMap.level mergeEdgeBirthEvent
  rw [JsMap.get_mergeWith]
  cases ha : a.get key with
  | none => cases b.get key <;> simp [JsMap.mergedValue]
  | some known =>
      cases hb : b.get key with
      | none => simp [JsMap.mergedValue]
      | some eventId =>
          simp only [JsMap.mergedValue]
          by_cases hcmp : 0 < compareEventIds eventId known
          · rw [if_pos hcmp]
            rw [compareEventIds_pos_iff] at hcmp
            simp [hcmp.le]
          · rw [if_neg hcmp]
            rw [compareEventIds_pos_iff, not_lt] at hcmp
            simp [hcmp]

theorem view_joinStates (a b : WarpStateV5 V) : (joinStates a b).view = a.view ⊔ b.view := by
  apply StateView.ext
  · exact view_orsetJoin a.nodeAlive b.nodeAlive
  · exact view_orsetJoin a.edgeAlive b.edgeAlive
  · exact propLevel_mergeProps a.prop b.prop
  · funext writerId
    exact level_vvMerge a.observedFrontier b.observedFrontier writerId
  · exact level_mergeEdgeBirthEvent a.edgeBirthEvent b.edgeBirthEvent

/-! ### Nodes and edges alike -/

/-- The nodes or, for `edges`, the edges of a view. -/
def StateView.part (view : StateView) (edges : Bool) : AddWins JsString JsString :=
  if edges then view.edges else view.nodes

/-- The node set or, for `edges`, the edge set of a state. -/
def WarpStateV5.part (state : WarpStateV5 V) (edges : Bool) : ORSet :=
  if edges then state.edgeAlive else state.nodeAlive

theorem WarpStateV5.view_part (state : WarpStateV5 V) (edges : Bool) :
    (state.part edges).view = state.view.part edges := by
  cases edges <;> rfl

theorem StateView.part_sup (v w : StateView) (edges : Bool) :
    (v ⊔ w).part edges = v.part edges ⊔ w.part edges := by
  cases edges <;> rfl

theorem StateView.part_bot (edges : Bool) : (⊥ : StateView).part edges = ⊥ := by
  cases edges <;> rfl

end GitWarp
