import GitWarp.GraphInstance
import GitWarp.ReducerAgreement

/-! The eager application of a committed patch. The reducer changes the cached state in place, operation by operation;
when one throws, the hook ends there and the builder swallows what is thrown. The cached state is what it was exactly
where the operations before are contained in it. -/

namespace GitWarp
open Js ExceptLoops

variable {V T Hash Buffer Op : Type}

/-! ### Loops that change a state in place -/

/-- What is left of the state when a round throws, and what is thrown. -/
def runInPlace {σ α ε : Type} (step : σ → α → Except ε σ) : σ → List α → σ × Option ε
  | state, [] => (state, none)
  | state, item :: rest =>
      match step state item with
      | .ok state => runInPlace step state rest
      | .error err => (state, some err)

theorem runInPlace_of_error {σ α ε : Type} {step : σ → α → Except ε σ} {before : List α} {item : α} {err : ε}
    {state left : σ} (hbefore : before.foldlM step state = .ok left) (hitem : step left item = .error err)
    (after : List α) : runInPlace step state (before ++ item :: after) = (left, some err) := by
  induction before generalizing state with
  | nil =>
      cases hbefore
      rw [List.nil_append, runInPlace, hitem]
  | cons first rest ih =>
      rw [List.foldlM_cons] at hbefore
      obtain ⟨next, hfirst, hrest⟩ := bind_ok_iff.mp hbefore
      rw [List.cons_append, runInPlace, hfirst]
      exact ih hrest

theorem runInPlace_of_ok {σ α ε : Type} {step : σ → α → Except ε σ} {items : List α} {state left : σ}
    (h : items.foldlM step state = .ok left) : runInPlace step state items = (left, none) := by
  induction items generalizing state with
  | nil =>
      cases h
      rfl
  | cons first rest ih =>
      rw [List.foldlM_cons] at h
      obtain ⟨next, hfirst, hrest⟩ := bind_ok_iff.mp h
      rw [runInPlace, hfirst]
      exact ih hrest

namespace EagerApply

/-! ### The reducers -/

/-- How an operation of a committed patch is read: normalized, and checked or refused. -/
structure OpReader (Op V : Type) where
  read : Op → Except JsError (OpV2 V)
  canonical : ∀ raw op, read raw = .ok op → ∀ node key value, op ≠ .propSet node key value

structure CommittedPatch (Op : Type) where
  writer : JsString
  lamport : Nat
  context : PatchContext
  ops : List Op

section Reducers

variable [DecidableEq V] (reader : OpReader Op V) (patch : CommittedPatch Op) (patchSha : JsString)

/-- The operation and its event, or why the round throws before it changes anything. -/
def readRound (item : Op × Nat) : Except JsError (OpV2 V × EventId) := do
  let canonOp ← reader.read item.1
  let eventId ← createEventId patch.lamport patch.writer patchSha item.2
  return (canonOp, eventId)

def diffRound (acc : WarpStateV5 V × PatchDiff V) (item : Op × Nat) : Except JsError (WarpStateV5 V × PatchDiff V) := do
  let (canonOp, eventId) ← readRound reader patch patchSha item
  let before := snapshotBeforeOp acc.1 canonOp
  let state ← applyOpV2 acc.1 canonOp eventId
  return (state, accumulateOpDiff acc.2 state canonOp before)

def receiptRound (acc : WarpStateV5 V × List OpOutcome) (item : Op × Nat) :
    Except JsError (WarpStateV5 V × List OpOutcome) := do
  let (canonOp, eventId) ← readRound reader patch patchSha item
  let entry := receiptEntry acc.1 canonOp eventId
  let state ← applyOpV2 acc.1 canonOp eventId
  return (state, acc.2 ++ entry)

def updateFrontierFromPatch (state : WarpStateV5 V) : Except JsError (WarpStateV5 V) := do
  let contextVV ← contextVV patch.context
  return { state with
    observedFrontier := foldPatchDot (vvMerge state.observedFrontier contextVV) patch.writer patch.lamport }

/-- The cached state after `applyWithDiff`, and its diff or what it throws. -/
def applyWithDiff (state : WarpStateV5 V) : WarpStateV5 V × Except JsError (PatchDiff V) :=
  match runInPlace (diffRound reader patch patchSha) (state, createEmptyDiff) patch.ops.zipIdx with
  | (acc, some err) => (acc.1, .error err)
  | (acc, none) =>
      match updateFrontierFromPatch patch acc.1 with
      | .error err => (acc.1, .error err)
      | .ok state => (state, .ok acc.2)

/-- The cached state after `applyWithReceipt`, and its receipt or what it throws. -/
def applyWithReceipt (state : WarpStateV5 V) : WarpStateV5 V × Except JsError TickReceipt :=
  match runInPlace (receiptRound reader patch patchSha) (state, []) patch.ops.zipIdx with
  | (acc, some err) => (acc.1, .error err)
  | (acc, none) =>
      match updateFrontierFromPatch patch acc.1 with
      | .error err => (acc.1, .error err)
      | .ok state => (state, createTickReceipt patchSha patch.writer patch.lamport acc.2)

/-- What the hook applies: with a receipt where there is an audit service, else with a diff. -/
def applyCommitted (audited : Bool) (state : WarpStateV5 V) : WarpStateV5 V × Except JsError (Option (PatchDiff V)) :=
  if audited then
    let result := applyWithReceipt reader patch patchSha state
    (result.1, result.2.map fun _ => none)
  else
    let result := applyWithDiff reader patch patchSha state
    (result.1, result.2.map some)

/-! ### The hook -/

variable [DecidableEq Hash] (services : GraphServices V T Hash Buffer)

/-- `_onPatchCommitted`: the instance afterwards, and what is thrown. -/
def onPatchCommitted (graph : WarpGraph V T Hash) (writerId : JsString) : WarpGraph V T Hash × Option JsError :=
  match vvIncrement graph.versionVector writerId with
  | .error err => (graph, some err)
  | .ok incremented =>
      let graph := { graph with
        versionVectors := graph.versionVectors.dropLast ++ [incremented.1]
        maxObservedLamport := max graph.maxObservedLamport patch.lamport }
      match graph.cachedState, graph.stateDirty with
      | some cachedState, false =>
          match applyCommitted reader patch patchSha graph.audited cachedState with
          | (state, .error err) => ({ graph with cachedState := some state }, some err)
          | (state, .ok diff) =>
              let graph := graph.setMaterializedState services state diff
              ({ graph with lastFrontier := graph.lastFrontier.map fun frontier => frontier.set writerId patchSha }, none)
      | _, _ => ({ graph with stateDirty := true, cachedViewHash := none }, none)

/-- The last turn of the builder's `commit`: what the hook throws is logged. -/
def notifyCommit (graph : WarpGraph V T Hash) (writerId : JsString) : WarpGraph V T Hash :=
  (onPatchCommitted reader patch patchSha services graph writerId).1

end Reducers

/-! ### What a state contains -/

section Contained

/-- The operation has nothing to add: the dot of an add is there, and of an edge a birth at least as late; the dots of a
remove are tombstones; the register of a write is of an event at least as late. -/
def Contains (state : WarpStateV5 V) (op : OpV2 V) (eventId : EventId) : Prop :=
  match op with
  | .nodeAdd node dot => encodeDot dot ∈ state.nodeAlive.dotsOf node
  | .nodeRemove _ observedDots => ∀ d ∈ observedDots, d ∈ state.nodeAlive.tombstones
  | .edgeAdd edge dot => encodeDot dot ∈ state.edgeAlive.dotsOf edge.key ∧
      ∃ birth, state.edgeBirthEvent.get edge.key = some birth ∧ eventId ≤ birth
  | .edgeRemove _ _ _ observedDots => ∀ d ∈ observedDots, d ∈ state.edgeAlive.tombstones
  | op => ∀ key value, op.write = some (key, value) →
      ∃ register, state.prop.get key = some register ∧ eventId ≤ register.eventId

theorem set_of_get {K W : Type} [DecidableEq K] {m : JsMap K W} {key : K} {value : W} (h : m.get key = some value) :
    m.set key value = m := by
  refine JsMap.eq_of_entries ?_
  have hloop : ∀ entries : List (K × W), JsMap.lookup entries key = some value →
      JsMap.setEntry entries key value = entries := by
    intro entries
    induction entries with
    | nil => exact nofun
    | cons entry rest ih =>
        intro hlookup
        rw [JsMap.lookup_cons] at hlookup
        rw [JsMap.setEntry]
        split
        · rename_i hkey
          rw [if_pos hkey.symm, Option.some.injEq] at hlookup
          rw [← hlookup]
        · rename_i hkey
          rw [if_neg (Ne.symm hkey)] at hlookup
          rw [ih hlookup]
  exact hloop m.entries h

theorem orsetAdd_eq_self {set : ORSet} {element : JsString} {dot : Dot} (h : encodeDot dot ∈ set.dotsOf element) :
    orsetAdd set element dot = set := by
  have hadd : (set.dotsOf element).add (encodeDot dot) = set.dotsOf element := by
    exact dif_pos ((JsSet.mem_elems _ _).mpr h)
  have hget : set.entries.get element = some (set.dotsOf element) := by
    unfold ORSet.dotsOf at h ⊢
    cases hget : set.entries.get element with
    | none =>
        rw [hget] at h
        cases h
    | some dots => rfl
  rw [orsetAdd, hadd, set_of_get hget]

theorem orsetRemove_eq_self {set : ORSet} {observedDots : List JsString} (h : ∀ d ∈ observedDots, d ∈ set.tombstones) :
    orsetRemove set observedDots = set := by
  have hall : set.tombstones.addAll observedDots = set.tombstones := by
    unfold JsSet.addAll
    induction observedDots with
    | nil => rfl
    | cons d rest ih =>
        have hadd : set.tombstones.add d = set.tombstones := dif_pos ((JsSet.mem_elems _ _).mpr (h d List.mem_cons_self))
        rw [List.foldl_cons, hadd]
        exact ih fun e he => h e (List.mem_cons_of_mem _ he)
  rw [orsetRemove, hall]

theorem setRegister_eq_self {prop : JsMap JsString (LWWRegister V)} {key : JsString} {eventId : EventId}
    {value : Option V} {register : LWWRegister V} (hget : prop.get key = some register)
    (hle : eventId ≤ register.eventId) : setRegister prop key eventId value = prop := by
  have hcmp : 0 ≤ compareEventIds register.eventId (lwwSet eventId value).eventId :=
    (compareEventIds_nonneg_iff _ _).mpr hle
  rw [setRegister, hget, lwwMax, if_pos hcmp]
  exact set_of_get hget

theorem setBirthEvent_eq_self {births : JsMap JsString EventId} {edgeKey : JsString} {eventId birth : EventId}
    (hget : births.get edgeKey = some birth) (hle : eventId ≤ birth) : setBirthEvent births edgeKey eventId = births := by
  have hcmp : ¬ 0 < compareEventIds eventId birth := by
    rw [compareEventIds_pos_iff]
    exact not_lt.mpr hle
  rw [setBirthEvent, hget]
  exact if_neg hcmp

theorem Contains.applyEvent {state : WarpStateV5 V} {op : OpV2 V} {eventId : EventId} (h : Contains state op eventId) :
    GitWarp.applyEvent state (op, eventId) = state := by
  cases op with
  | nodeAdd node dot =>
      rw [GitWarp.applyEvent, applyOpV2]
      simp only [pure, Except.pure]
      rw [orsetAdd_eq_self h]
  | nodeRemove node observedDots =>
      rw [GitWarp.applyEvent, applyOpV2]
      simp only [pure, Except.pure]
      rw [orsetRemove_eq_self h]
  | edgeAdd edge dot =>
      obtain ⟨hdot, birth, hbirth, hle⟩ := h
      rw [GitWarp.applyEvent, applyOpV2]
      simp only [pure, Except.pure]
      rw [orsetAdd_eq_self hdot, setBirthEvent_eq_self hbirth hle]
  | edgeRemove fromId toId label observedDots =>
      rw [GitWarp.applyEvent, applyOpV2]
      simp only [pure, Except.pure]
      rw [orsetRemove_eq_self h]
  | nodePropSet node key value =>
      obtain ⟨register, hget, hle⟩ := h _ _ rfl
      rw [GitWarp.applyEvent, applyOpV2]
      simp only [pure, Except.pure]
      rw [setRegister_eq_self hget hle]
  | edgePropSet edge key value =>
      obtain ⟨register, hget, hle⟩ := h _ _ rfl
      rw [GitWarp.applyEvent, applyOpV2]
      simp only [pure, Except.pure]
      rw [setRegister_eq_self hget hle]
  | propSet node key value =>
      rw [GitWarp.applyEvent, applyOpV2]
      by_cases hnode : node.head? = some edgePropPrefix
      · rw [if_pos hnode]
      · obtain ⟨register, hget, hle⟩ := h (encodePropKey node key) value (by rw [OpV2.write, if_neg hnode])
        rw [if_neg hnode]
        simp only [pure, Except.pure]
        rw [setRegister_eq_self hget hle]
  | blobValue node oid => rfl
  | unknown type => rfl

theorem le_of_levelAt_le {props : JsString → WithBot EventId} {key : JsString} {eventId : EventId}
    (h : levelAt key eventId ≤ props) : (eventId : WithBot EventId) ≤ props key := by
  have hkey := h key
  rwa [levelAt, if_pos rfl] at hkey

theorem contains_of_effect_le {state : WarpStateV5 V} {op : OpV2 V} {eventId : EventId}
    (h : op.effect eventId ≤ state.view) : Contains state op eventId := by
  obtain ⟨hnodes, hedges, hprops, -, hbirths⟩ := h
  have hwrite : ∀ key value, op.write = some (key, value) → op.propEffect eventId ≤ propLevel state.prop →
      ∃ register, state.prop.get key = some register ∧ eventId ≤ register.eventId := by
    intro key value hop hle
    rw [OpV2.propEffect, hop] at hle
    have hlevel := le_of_levelAt_le hle
    unfold propLevel registerLevel at hlevel
    cases hget : state.prop.get key with
    | none =>
        rw [hget] at hlevel
        exact absurd hlevel (WithBot.not_coe_le_bot _)
    | some register =>
        rw [hget] at hlevel
        exact ⟨register, rfl, WithBot.coe_le_coe.mp hlevel⟩
  cases op with
  | nodeAdd node dot => exact hnodes.1 rfl
  | nodeRemove node observedDots => exact fun d hd => hnodes.2 hd
  | edgeAdd edge dot =>
      refine ⟨hedges.1 rfl, ?_⟩
      have hlevel : (eventId : WithBot EventId) ≤ state.edgeBirthEvent.level edge.key := le_of_levelAt_le hbirths
      cases hget : state.edgeBirthEvent.get edge.key with
      | none =>
          rw [JsMap.level_of_get_none hget] at hlevel
          exact absurd hlevel (WithBot.not_coe_le_bot _)
      | some birth =>
          rw [JsMap.level_of_get_some hget] at hlevel
          exact ⟨birth, rfl, WithBot.coe_le_coe.mp hlevel⟩
  | edgeRemove fromId toId label observedDots => exact fun d hd => hedges.2 hd
  | nodePropSet node key value => exact fun key' value' hop => hwrite key' value' hop hprops
  | edgePropSet edge key value => exact fun key' value' hop => hwrite key' value' hop hprops
  | propSet node key value => exact fun key' value' hop => hwrite key' value' hop hprops
  | blobValue node oid =>
      intro key value hop
      cases hop
  | unknown type =>
      intro key value hop
      cases hop

theorem observedFrontier_applyEvent (state : WarpStateV5 V) (event : OpV2 V × EventId) :
    (applyEvent state event).observedFrontier = state.observedFrontier := by
  obtain ⟨op, eventId⟩ := event
  cases op with
  | propSet node key value =>
      rw [applyEvent, applyOpV2]
      by_cases hnode : node.head? = some edgePropPrefix
      · rw [if_pos hnode]
      · rw [if_neg hnode]
        rfl
  | _ => rfl

theorem observedFrontier_foldl_applyEvent (events : List (OpV2 V × EventId)) (state : WarpStateV5 V) :
    (events.foldl applyEvent state).observedFrontier = state.observedFrontier := by
  induction events generalizing state with
  | nil => rfl
  | cons event rest ih => rw [List.foldl_cons, ih, observedFrontier_applyEvent]

/-- Operations leave a state as it is exactly where it contains each of them. -/
theorem foldl_applyEvent_eq_self_iff (events : List (OpV2 V × EventId)) (state : WarpStateV5 V) :
    events.foldl applyEvent state = state ↔ ∀ event ∈ events, Contains state event.1 event.2 := by
  constructor
  · intro h event hevent
    have hview := view_foldl WarpStateV5.view view_applyEvent events state
    rw [h] at hview
    have hle : joinAll (fun event : OpV2 V × EventId => event.1.effect event.2) events ≤ state.view :=
      hview ▸ le_sup_right
    exact contains_of_effect_le ((le_joinAll _ hevent).trans hle)
  · intro h
    induction events with
    | nil => rfl
    | cons event rest ih =>
        rw [List.foldl_cons, (h event List.mem_cons_self).applyEvent]
        exact ih fun e he => h e (List.mem_cons_of_mem _ he)

end Contained

/-! ### An operation that throws -/

section Throws

variable [DecidableEq V] (reader : OpReader Op V) (patch : CommittedPatch Op) (patchSha : JsString)

variable {reader patch patchSha}

omit [DecidableEq V] in
theorem applyOpV2_of_readRound {item : Op × Nat} {event : OpV2 V × EventId}
    (h : readRound reader patch patchSha item = .ok event) (state : WarpStateV5 V) :
    applyOpV2 state event.1 event.2 = .ok (applyEvent state event) := by
  obtain ⟨op, hop, hrest⟩ := bind_ok_iff.mp h
  obtain ⟨eventId, -, heq⟩ := bind_ok_iff.mp hrest
  cases heq
  cases op with
  | propSet node key value => exact absurd rfl (reader.canonical item.1 _ hop node key value)
  | _ => rfl

omit [DecidableEq V] in
/-- A loop over operations that can be read changes the state by each of them. -/
theorem exists_foldlM_round {σ : Type} (round : WarpStateV5 V × σ → Op × Nat → Except JsError (WarpStateV5 V × σ))
    (hround : ∀ acc item event, readRound reader patch patchSha item = .ok event →
      ∃ next, round acc item = .ok next ∧ next.1 = applyEvent acc.1 event)
    {items : List (Op × Nat)} {events : List (OpV2 V × EventId)}
    (hevents : items.mapM (readRound reader patch patchSha) = .ok events) (acc : WarpStateV5 V × σ) :
    ∃ left, items.foldlM round acc = .ok left ∧ left.1 = events.foldl applyEvent acc.1 := by
  induction items generalizing events acc with
  | nil =>
      cases hevents
      exact ⟨acc, rfl, rfl⟩
  | cons item rest ih =>
      obtain ⟨event, restEvents, hevent, hrest, rfl⟩ := mapM_cons_ok_iff.mp hevents
      obtain ⟨next, hnext, hstate⟩ := hround acc item event hevent
      obtain ⟨left, hleft, hleftState⟩ := ih hrest next
      refine ⟨left, ?_, ?_⟩
      · rw [List.foldlM_cons, hnext]
        exact hleft
      · rw [hleftState, hstate, List.foldl_cons]

theorem exists_diffRound {acc : WarpStateV5 V × PatchDiff V} {item : Op × Nat} {event : OpV2 V × EventId}
    (h : readRound reader patch patchSha item = .ok event) :
    ∃ next, diffRound reader patch patchSha acc item = .ok next ∧ next.1 = applyEvent acc.1 event := by
  unfold diffRound
  rw [h]
  simp only [bind, Except.bind, applyOpV2_of_readRound h, pure, Except.pure]
  exact ⟨_, rfl, rfl⟩

omit [DecidableEq V] in
theorem exists_receiptRound {acc : WarpStateV5 V × List OpOutcome} {item : Op × Nat} {event : OpV2 V × EventId}
    (h : readRound reader patch patchSha item = .ok event) :
    ∃ next, receiptRound reader patch patchSha acc item = .ok next ∧ next.1 = applyEvent acc.1 event := by
  unfold receiptRound
  rw [h]
  simp only [bind, Except.bind, applyOpV2_of_readRound h, pure, Except.pure]
  exact ⟨_, rfl, rfl⟩

/-- The operation at which the application of a patch throws, after those that were read. -/
def ThrowsAfter (reader : OpReader Op V) (patch : CommittedPatch Op) (patchSha : JsString)
    (events : List (OpV2 V × EventId)) (err : JsError) : Prop :=
  ∃ before item after, patch.ops.zipIdx = before ++ item :: after ∧
    before.mapM (readRound reader patch patchSha) = .ok events ∧ readRound reader patch patchSha item = .error err

/-- The operations before the one that throws were applied. -/
theorem ThrowsAfter.applyCommitted {events : List (OpV2 V × EventId)} {err : JsError}
    (h : ThrowsAfter reader patch patchSha events err) (audited : Bool) (state : WarpStateV5 V) :
    applyCommitted reader patch patchSha audited state = (events.foldl applyEvent state, .error err) := by
  obtain ⟨before, item, after, hops, hevents, hitem⟩ := h
  cases audited with
  | true =>
      obtain ⟨left, hleft, hstate⟩ := exists_foldlM_round (receiptRound reader patch patchSha)
        (fun acc item event hread => exists_receiptRound hread) hevents (state, [])
      have hthrown : receiptRound reader patch patchSha left item = .error err := by
        rw [receiptRound, hitem]
        rfl
      rw [EagerApply.applyCommitted, if_pos rfl, applyWithReceipt, hops, runInPlace_of_error hleft hthrown, ← hstate]
      rfl
  | false =>
      obtain ⟨left, hleft, hstate⟩ := exists_foldlM_round (diffRound reader patch patchSha)
        (fun acc item event hread => exists_diffRound hread) hevents (state, createEmptyDiff)
      have hthrown : diffRound reader patch patchSha left item = .error err := by
        rw [diffRound, hitem]
        rfl
      rw [EagerApply.applyCommitted, if_neg Bool.false_ne_true, applyWithDiff, hops, runInPlace_of_error hleft hthrown,
        ← hstate]
      rfl

/-- Where every operation was read, what throws is the context, before the frontier is merged, or the receipt, after. -/
theorem applyCommitted_of_read {events : List (OpV2 V × EventId)} {err : JsError} {audited : Bool} {state : WarpStateV5 V}
    (hevents : patch.ops.zipIdx.mapM (readRound reader patch patchSha) = .ok events)
    (hthrown : (applyCommitted reader patch patchSha audited state).2 = .error err) :
    (contextVV patch.context = .error err ∧
      (applyCommitted reader patch patchSha audited state).1 = events.foldl applyEvent state) ∨
    ∃ vv, contextVV patch.context = .ok vv ∧ (applyCommitted reader patch patchSha audited state).1 =
      { events.foldl applyEvent state with
        observedFrontier := foldPatchDot (vvMerge state.observedFrontier vv) patch.writer patch.lamport } := by
  have hkept : (events.foldl applyEvent state).observedFrontier = state.observedFrontier :=
    observedFrontier_foldl_applyEvent events state
  cases audited with
  | true =>
      obtain ⟨left, hleft, hstate⟩ := exists_foldlM_round (receiptRound reader patch patchSha)
        (fun acc item event hread => exists_receiptRound hread) hevents (state, [])
      simp only [applyCommitted, if_true, applyWithReceipt, runInPlace_of_ok hleft] at hthrown ⊢
      rw [hstate] at hthrown ⊢
      cases hcontext : contextVV patch.context with
      | error err' =>
          simp only [updateFrontierFromPatch, hcontext, bind, Except.bind, Except.map, Except.error.injEq] at hthrown ⊢
          exact Or.inl ⟨hthrown, trivial⟩
      | ok vv =>
          simp only [updateFrontierFromPatch, hcontext, bind, Except.bind, pure, Except.pure, hkept]
          exact Or.inr ⟨vv, rfl, rfl⟩
  | false =>
      obtain ⟨left, hleft, hstate⟩ := exists_foldlM_round (diffRound reader patch patchSha)
        (fun acc item event hread => exists_diffRound hread) hevents (state, createEmptyDiff)
      simp only [applyCommitted, Bool.false_eq_true, if_false, applyWithDiff, runInPlace_of_ok hleft] at hthrown ⊢
      rw [hstate] at hthrown ⊢
      cases hcontext : contextVV patch.context with
      | error err' =>
          simp only [updateFrontierFromPatch, hcontext, bind, Except.bind, Except.map, Except.error.injEq] at hthrown ⊢
          exact Or.inl ⟨hthrown, trivial⟩
      | ok vv =>
          simp only [updateFrontierFromPatch, hcontext, bind, Except.bind, pure, Except.pure, Except.map] at hthrown
          cases hthrown

variable [DecidableEq Hash] (services : GraphServices V T Hash Buffer)

/-- Where an operation throws, the instance keeps the state that it had cached, or is dirty, exactly where that state
contains every operation before. -/
theorem notifyCommit_iff {graph : WarpGraph V T Hash} {state : WarpStateV5 V} (hcached : graph.cachedState = some state)
    (hclean : graph.stateDirty = false) {writerId : JsString}
    (hcounted : ∃ incremented, vvIncrement graph.versionVector writerId = .ok incremented)
    {events : List (OpV2 V × EventId)} {err : JsError} (hthrows : ThrowsAfter reader patch patchSha events err) :
    ((notifyCommit reader patch patchSha services graph writerId).cachedState = some state ∨
      (notifyCommit reader patch patchSha services graph writerId).stateDirty = true) ↔
      ∀ event ∈ events, Contains state event.1 event.2 := by
  obtain ⟨incremented, hcounted⟩ := hcounted
  have hleft : (notifyCommit reader patch patchSha services graph writerId).cachedState =
      some (events.foldl applyEvent state) ∧
      (notifyCommit reader patch patchSha services graph writerId).stateDirty = false := by
    unfold notifyCommit onPatchCommitted
    simp only [hcounted, hcached, hclean, hthrows.applyCommitted graph.audited state, and_self]
  rw [hleft.1, hleft.2, Option.some.injEq, foldl_applyEvent_eq_self_iff]
  simp

/-- Where something throws after the last operation, the instance keeps the state that it had cached, or is dirty, exactly
where that state contains every operation and counts what the context and the patch count, if the context could be read. -/
theorem notifyCommit_late_iff {graph : WarpGraph V T Hash} {state : WarpStateV5 V}
    (hcached : graph.cachedState = some state) (hclean : graph.stateDirty = false) {writerId : JsString}
    (hcounted : ∃ incremented, vvIncrement graph.versionVector writerId = .ok incremented)
    {events : List (OpV2 V × EventId)} {err : JsError}
    (hevents : patch.ops.zipIdx.mapM (readRound reader patch patchSha) = .ok events)
    (hthrown : (applyCommitted reader patch patchSha graph.audited state).2 = .error err) :
    ((notifyCommit reader patch patchSha services graph writerId).cachedState = some state ∨
      (notifyCommit reader patch patchSha services graph writerId).stateDirty = true) ↔
      (∀ event ∈ events, Contains state event.1 event.2) ∧ ∀ vv, contextVV patch.context = .ok vv →
        foldPatchDot (vvMerge state.observedFrontier vv) patch.writer patch.lamport = state.observedFrontier := by
  obtain ⟨incremented, hcounted⟩ := hcounted
  have happlied : applyCommitted reader patch patchSha graph.audited state =
      ((applyCommitted reader patch patchSha graph.audited state).1, .error err) := by rw [← hthrown]
  have hleft : (notifyCommit reader patch patchSha services graph writerId).cachedState =
      some (applyCommitted reader patch patchSha graph.audited state).1 ∧
      (notifyCommit reader patch patchSha services graph writerId).stateDirty = false := by
    unfold notifyCommit onPatchCommitted
    simp only [hcounted, hcached, hclean]
    rw [happlied]
    exact ⟨rfl, rfl⟩
  rw [hleft.1, hleft.2, Option.some.injEq, ← foldl_applyEvent_eq_self_iff]
  have hkept : (events.foldl applyEvent state).observedFrontier = state.observedFrontier :=
    observedFrontier_foldl_applyEvent events state
  rcases applyCommitted_of_read hevents hthrown with ⟨hcontext, hstate⟩ | ⟨vv, hcontext, hstate⟩
  · rw [hstate, hcontext]
    simp
  · rw [hstate, hcontext]
    constructor
    · rintro (heq | hdirty)
      · have hfrontier := congrArg WarpStateV5.observedFrontier heq
        dsimp only at hfrontier
        rw [hfrontier, ← hkept] at heq
        refine ⟨heq, fun vv' hvv' => ?_⟩
        cases hvv'
        exact hfrontier
      · cases hdirty
    · rintro ⟨hsame, hfrontier⟩
      rw [hfrontier vv rfl, hsame]
      exact Or.inl rfl

/-! ### Operations that are not looked at -/

/-- Any value as an operation. -/
def untypedReader (L : Untyped.Language) : OpReader JsValue JsValue where
  read raw := do
    let canonOp ← Untyped.normalizeRawOp raw
    let checked ← Untyped.validateOp L canonOp
    checked.typed L
  canonical := by
    intro raw op h
    obtain ⟨canonOp, hcanon, h⟩ := bind_ok_iff.mp h
    obtain ⟨checked, hchecked, htyped⟩ := bind_ok_iff.mp h
    exact Untyped.typed_ne_propSet hcanon hchecked htyped

end Throws

namespace Example

def services : GraphServices JsValue Unit Unit (FullStateObject JsValue) where
  codec := identityCodec
  computeStateHash _ := ()
  build _ := some ()
  applyDiff _ _ _ := some ()

def addsNode (node : String) : JsValue :=
  .object [(js "dot", .object [(js "counter", JsValue.ofInt 1), (js "writerId", .string (js "w"))]),
    (js "node", .string (js node)), (js "type", .string (js "NodeAdd"))]

/-- An operation without a dot, which is refused. -/
def addsNodeWithoutDot : JsValue := .object [(js "node", .string (js "y")), (js "type", .string (js "NodeAdd"))]

def patchOf (ops : List JsValue) : CommittedPatch JsValue := ⟨js "w", 1, .record [], ops⟩

/-- A clean instance of the empty graph. -/
def graph : WarpGraph JsValue Unit Unit :=
  let opened : WarpGraph JsValue Unit Unit := .opened (js "w") false
  { opened with cachedState := some createEmptyStateV5 }

def stateWithNode : WarpStateV5 JsValue :=
  { createEmptyStateV5 with nodeAlive := orsetAdd createORSet (js "x") ⟨js "w", 1⟩ }

/-- A clean instance that has the node of the dot that the next patch adds. -/
def graphWithNode : WarpGraph JsValue Unit Unit := { graph with cachedState := some stateWithNode }

end Example

/-- The first operation stays applied, and the instance is clean. -/
theorem notifyCommit_leaves_prefix :
    (onPatchCommitted (untypedReader Untyped.plainLanguage) (Example.patchOf [Example.addsNode "x", Example.addsNodeWithoutDot])
      (js "abcd") Example.services Example.graph (js "w")).2.isSome = true ∧
    (notifyCommit (untypedReader Untyped.plainLanguage) (Example.patchOf [Example.addsNode "x", Example.addsNodeWithoutDot])
      (js "abcd") Example.services Example.graph (js "w")).stateDirty = false ∧
    ((notifyCommit (untypedReader Untyped.plainLanguage) (Example.patchOf [Example.addsNode "x", Example.addsNodeWithoutDot])
      (js "abcd") Example.services Example.graph (js "w")).cachedState.map fun state =>
        orsetContains state.nodeAlive (js "x")) = some true := by
  decide +kernel

/-- Where the node of the first operation is there already, the state is kept. -/
theorem notifyCommit_keeps_state :
    (notifyCommit (untypedReader Untyped.plainLanguage) (Example.patchOf [Example.addsNode "x", Example.addsNodeWithoutDot])
      (js "abcd") Example.services Example.graphWithNode (js "w")).cachedState = some Example.stateWithNode ∨
    (notifyCommit (untypedReader Untyped.plainLanguage) (Example.patchOf [Example.addsNode "x", Example.addsNodeWithoutDot])
      (js "abcd") Example.services Example.graphWithNode (js "w")).stateDirty = true := by
  have hthrows : ThrowsAfter (untypedReader Untyped.plainLanguage)
      (Example.patchOf [Example.addsNode "x", Example.addsNodeWithoutDot]) (js "abcd")
      [(.nodeAdd (js "x") ⟨js "w", 1⟩, ⟨1, js "w", js "abcd", 0⟩)]
      ⟨"PatchError", "NodeAdd op requires 'dot' to be an object, got undefined"⟩ :=
    ⟨[(Example.addsNode "x", 0)], (Example.addsNodeWithoutDot, 1), [], rfl, by decide +kernel, by decide +kernel⟩
  refine (notifyCommit_iff Example.services rfl rfl ⟨_, rfl⟩ hthrows).mpr fun event hevent => ?_
  cases List.mem_singleton.mp hevent
  exact (by decide +kernel : encodeDot ⟨js "w", 1⟩ ∈ Example.stateWithNode.nodeAlive.dotsOf (js "x"))

end EagerApply

end GitWarp
