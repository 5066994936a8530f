import GitWarp.ReducerView

/-! Strong convergence. Replaying two lists of patches one after the other is joining the states they
replay to, and the state a list replays to depends on its members only. Registers need one fact beyond
the view: an event id determines the value it wrote, because it names the patch and the place in it. -/

namespace GitWarp
open Js ExceptLoops

variable {V : Type}

/-- Equality of states component by component, as sets and maps. -/
structure WarpStateV5.Same (a b : WarpStateV5 V) : Prop where
  nodeAlive : a.nodeAlive.Same b.nodeAlive
  edgeAlive : a.edgeAlive.Same b.edgeAlive
  prop : ∀ key, a.prop.get key = b.prop.get key
  observedFrontier : ∀ writerId, a.observedFrontier.get writerId = b.observedFrontier.get writerId
  edgeBirthEvent : ∀ key, a.edgeBirthEvent.get key = b.edgeBirthEvent.get key

/-- Both calls throw, or both return and the states are the same. -/
def SameOutcome : Except JsError (WarpStateV5 V) → Except JsError (WarpStateV5 V) → Prop
  | .ok a, .ok b => a.Same b
  | .error _, .error _ => True
  | _, _ => False

/-- Entries with the same sha carry the same patch. -/
def ConsistentShas (entries : List (PatchEntry V)) : Prop :=
  ∀ entry ∈ entries, ∀ other ∈ entries, entry.sha = other.sha → entry.patch = other.patch

/-! ### Where registers come from -/

/-- The registers that the operations of a list of patches write. -/
def writtenRegisters (entries : List (PatchEntry V)) : Set (LWWRegister V) :=
  {register | ∃ entry ∈ entries, ∃ read, readPatch entry = .ok read ∧ ∃ op key,
    (op, register.eventId) ∈ read.events ∧ op.write = some (key, register.value)}

/-- Every register of the state is one of `W`. -/
def RegistersIn (W : Set (LWWRegister V)) (state : WarpStateV5 V) : Prop :=
  ∀ key register, state.prop.get key = some register → register ∈ W

theorem prop_applyEvent (state : WarpStateV5 V) (event : OpV2 V × EventId) :
    (applyEvent state event).prop =
      match event.1.write with
      | some (key, value) => setRegister state.prop key event.2 value
      | none => state.prop := by
  obtain ⟨op, eventId⟩ := event
  cases op with
  | propSet node key value =>
      by_cases hnode : node.head? = some edgePropPrefix
      · simp [applyEvent, applyOpV2, OpV2.write, hnode]
      · simp [applyEvent, applyOpV2, OpV2.write, hnode, pure, Except.pure]
  | _ => rfl

theorem registersIn_applyEvent {W : Set (LWWRegister V)} {state : WarpStateV5 V}
    {event : OpV2 V × EventId} (hstate : RegistersIn W state)
    (hwrite : ∀ key value, event.1.write = some (key, value) → ⟨event.2, value⟩ ∈ W) :
    RegistersIn W (applyEvent state event) := by
  intro key register hget
  rw [prop_applyEvent] at hget
  cases hop : event.1.write with
  | none =>
      rw [hop] at hget
      exact hstate key register hget
  | some target =>
      obtain ⟨key', value⟩ := target
      simp only [hop, get_setRegister] at hget
      split at hget
      · obtain ⟨r, hmax, hr⟩ := lwwMax_some (state.prop.get key') (lwwSet event.2 value)
        rw [hmax, Option.some.injEq] at hget
        subst hget
        rcases hr with hold | hnew
        · exact hstate key' r hold.symm
        · rw [hnew]
          exact hwrite key' value hop
      · exact hstate key register hget

theorem registersIn_foldl_applyRead {W : Set (LWWRegister V)} {reads : List (ReadPatch V)}
    (hwrites : ∀ read ∈ reads, ∀ op eventId, (op, eventId) ∈ read.events → ∀ key value,
      op.write = some (key, value) → ⟨eventId, value⟩ ∈ W)
    {state : WarpStateV5 V} (hstate : RegistersIn W state) :
    RegistersIn W (reads.foldl applyRead state) := by
  refine List.foldlRecOn (motive := RegistersIn W) reads applyRead hstate fun s hs read hread => ?_
  show RegistersIn W (read.events.foldl applyEvent s)
  exact List.foldlRecOn (motive := RegistersIn W) read.events applyEvent hs fun s' hs' event hevent =>
    registersIn_applyEvent hs' (hwrites read hread event.1 event.2 hevent)

theorem registersIn_joinStates {W : Set (LWWRegister V)} {a b : WarpStateV5 V}
    (ha : RegistersIn W a) (hb : RegistersIn W b) : RegistersIn W (joinStates a b) := by
  intro key register hget
  have hmax : lwwMax (a.prop.get key) (b.prop.get key) = some register := by
    rw [← get_mergeProps]
    exact hget
  cases hregB : b.prop.get key with
  | none =>
      rw [hregB] at hmax
      cases hregA : a.prop.get key with
      | none => rw [hregA] at hmax; cases hmax
      | some regA =>
          rw [hregA] at hmax
          cases hmax
          exact ha key _ hregA
  | some regB =>
      obtain ⟨r, hr, hor⟩ := lwwMax_some (a.prop.get key) regB
      rw [hregB, hr, Option.some.injEq] at hmax
      subst hmax
      rcases hor with hold | hnew
      · exact ha key r hold.symm
      · rw [hnew]
        exact hb key regB hregB

/-- The event ids of a patch name its sha and the place of each operation. -/
theorem mem_events_of_readPatch {entry : PatchEntry V} {read : ReadPatch V}
    (hread : readPatch entry = .ok read) {op : OpV2 V} {eventId : EventId}
    (hmem : (op, eventId) ∈ read.events) :
    eventId.patchSha = entry.sha ∧
      ∃ raw, entry.patch.ops[eventId.opIndex]? = some raw ∧ normalizeRawOp raw = .ok op := by
  obtain ⟨events, context, hevents, -, rfl⟩ := readPatch_eq_ok hread
  obtain ⟨⟨raw, i⟩, hitem, hop⟩ := (mem_of_mapM_ok hevents _).mp hmem
  unfold readOp at hop
  cases hid : createEventId entry.patch.lamport entry.patch.writer entry.sha i with
  | error err => rw [hid] at hop; cases hop
  | ok e =>
      rw [hid] at hop
      simp only [bind, Except.bind, pure, Except.pure] at hop
      cases hnorm : normalizeRawOp raw with
      | error err => rw [hnorm] at hop; cases hop
      | ok canon =>
          rw [hnorm] at hop
          cases hop
          rw [createEventId_eq_ok hid]
          exact ⟨rfl, raw, List.mem_zipIdx_iff_getElem?.mp hitem, hnorm⟩

/-- With one patch per sha, an event id determines the register it wrote. -/
theorem writtenRegisters_functional {entries : List (PatchEntry V)} (hshas : ConsistentShas entries) :
    ∀ r ∈ writtenRegisters entries, ∀ r' ∈ writtenRegisters entries,
      r.eventId = r'.eventId → r = r' := by
  rintro r ⟨entry, hentry, read, hread, op, key, hmem, hwrite⟩
    r' ⟨entry', hentry', read', hread', op', key', hmem', hwrite'⟩ hid
  obtain ⟨hsha, raw, hraw, hnorm⟩ := mem_events_of_readPatch hread hmem
  obtain ⟨hsha', raw', hraw', hnorm'⟩ := mem_events_of_readPatch hread' hmem'
  have hpatch : entry.patch = entry'.patch :=
    hshas entry hentry entry' hentry' (by rw [← hsha, ← hsha', hid])
  rw [hpatch, hid, hraw', Option.some.injEq] at hraw
  subst hraw
  rw [hnorm', Except.ok.injEq] at hnorm
  subst hnorm
  rw [hwrite', Option.some.injEq, Prod.mk.injEq] at hwrite
  cases r
  cases r'
  simp only at hid hwrite
  rw [hid, hwrite.2]

/-! ### States with equal views -/

/-- What the reducer guarantees of the states it builds from `entries`. -/
structure Replayed (entries : List (PatchEntry V)) (state : WarpStateV5 V) : Prop where
  nodes : state.nodeAlive.Filled
  edges : state.edgeAlive.Filled
  registers : RegistersIn (writtenRegisters entries) state

theorem filled_applyEvent {state : WarpStateV5 V} (event : OpV2 V × EventId)
    (hfilled : state.nodeAlive.Filled ∧ state.edgeAlive.Filled) :
    (applyEvent state event).nodeAlive.Filled ∧ (applyEvent state event).edgeAlive.Filled := by
  obtain ⟨hnodes, hedges⟩ := hfilled
  obtain ⟨op, eventId⟩ := event
  cases op with
  | nodeAdd node dot => exact ⟨filled_orsetAdd hnodes node dot, hedges⟩
  | nodeRemove node observedDots => exact ⟨filled_orsetRemove hnodes observedDots, hedges⟩
  | edgeAdd edge dot => exact ⟨hnodes, filled_orsetAdd hedges edge.key dot⟩
  | edgeRemove fromId toId label observedDots =>
      exact ⟨hnodes, filled_orsetRemove hedges observedDots⟩
  | propSet node key value =>
      by_cases hnode : node.head? = some edgePropPrefix
      · simpa [applyEvent, applyOpV2, hnode] using ⟨hnodes, hedges⟩
      · simpa [applyEvent, applyOpV2, hnode, pure, Except.pure] using ⟨hnodes, hedges⟩
  | nodePropSet node key value => exact ⟨hnodes, hedges⟩
  | edgePropSet edge key value => exact ⟨hnodes, hedges⟩
  | blobValue node oid => exact ⟨hnodes, hedges⟩
  | unknown type => exact ⟨hnodes, hedges⟩

theorem filled_foldl_applyRead (reads : List (ReadPatch V)) (state : WarpStateV5 V)
    (hfilled : state.nodeAlive.Filled ∧ state.edgeAlive.Filled) :
    (reads.foldl applyRead state).nodeAlive.Filled ∧
      (reads.foldl applyRead state).edgeAlive.Filled := by
  let Filled (s : WarpStateV5 V) := s.nodeAlive.Filled ∧ s.edgeAlive.Filled
  refine List.foldlRecOn (motive := Filled) reads applyRead hfilled fun s hs read _ => ?_
  show Filled (read.events.foldl applyEvent s)
  exact List.foldlRecOn (motive := Filled) read.events applyEvent hs fun s' hs' event _ =>
    filled_applyEvent event hs'

theorem replayed_of_reads {entries : List (PatchEntry V)} {reads : List (ReadPatch V)}
    (hreads : entries.mapM readPatch = .ok reads) :
    Replayed entries (reads.foldl applyRead createEmptyStateV5) := by
  obtain ⟨hnodes, hedges⟩ := filled_foldl_applyRead reads
    (createEmptyStateV5 : WarpStateV5 V) ⟨filled_createORSet, filled_createORSet⟩
  refine ⟨hnodes, hedges, registersIn_foldl_applyRead ?_ fun key register hget => ?_⟩
  · intro read hread op eventId hmem key value hwrite
    obtain ⟨entry, hentry, hok⟩ := (mem_of_mapM_ok hreads read).mp hread
    exact ⟨entry, hentry, read, hok, op, key, hmem, hwrite⟩
  · cases hget

theorem Replayed.mono {entries entries' : List (PatchEntry V)} {state : WarpStateV5 V}
    (h : Replayed entries state) (hsub : ∀ entry ∈ entries, entry ∈ entries') :
    Replayed entries' state where
  nodes := h.nodes
  edges := h.edges
  registers key register hget := by
    obtain ⟨entry, hentry, rest⟩ := h.registers key register hget
    exact ⟨entry, hsub entry hentry, rest⟩

theorem Replayed.joinStates {entries : List (PatchEntry V)} {a b : WarpStateV5 V}
    (ha : Replayed entries a) (hb : Replayed entries b) : Replayed entries (joinStates a b) where
  nodes := filled_orsetJoin ha.nodes hb.nodes
  edges := filled_orsetJoin ha.edges hb.edges
  registers := registersIn_joinStates ha.registers hb.registers

/-- Over one consistent set of patches the last event that wrote a property determines its register. -/
theorem Replayed.prop_eq {entries : List (PatchEntry V)} {a b : WarpStateV5 V}
    (ha : Replayed entries a) (hshas : ConsistentShas entries) (hb : Replayed entries b) {key : JsString}
    (hlevel : a.view.props key = b.view.props key) : a.prop.get key = b.prop.get key := by
  have hlevel : registerLevel (a.prop.get key) = registerLevel (b.prop.get key) := hlevel
  cases hregA : a.prop.get key with
  | none =>
      cases hregB : b.prop.get key with
      | none => rfl
      | some regB =>
          rw [hregA, hregB] at hlevel
          exact absurd hlevel.symm (WithBot.coe_ne_bot)
  | some regA =>
      cases hregB : b.prop.get key with
      | none =>
          rw [hregA, hregB] at hlevel
          exact absurd hlevel (WithBot.coe_ne_bot)
      | some regB =>
          rw [hregA, hregB] at hlevel
          rw [writtenRegisters_functional hshas regA (ha.registers key regA hregA) regB
            (hb.registers key regB hregB) (WithBot.coe_injective hlevel)]

/-- Over one consistent set of patches the view determines the state. -/
theorem Replayed.same_of_view_eq {entries : List (PatchEntry V)} (hshas : ConsistentShas entries)
    {a b : WarpStateV5 V} (ha : Replayed entries a) (hb : Replayed entries b)
    (hview : a.view = b.view) : a.Same b where
  nodeAlive := ORSet.Same.of_view_eq ha.nodes hb.nodes (congrArg StateView.nodes hview)
  edgeAlive := ORSet.Same.of_view_eq ha.edges hb.edges (congrArg StateView.edges hview)
  prop key := ha.prop_eq hshas hb (congrFun (congrArg StateView.props hview) key)
  observedFrontier writerId :=
    JsMap.get_eq_of_level_eq (congrFun (congrArg StateView.frontier hview) writerId)
  edgeBirthEvent key :=
    JsMap.get_eq_of_level_eq (congrFun (congrArg StateView.births hview) key)

/-! ### Convergence -/

theorem reduceV5_append_same {P Q : List (PatchEntry V)} (hshas : ConsistentShas (P ++ Q))
    {readsP readsQ : List (ReadPatch V)} (hP : P.mapM readPatch = .ok readsP)
    (hQ : Q.mapM readPatch = .ok readsQ) :
    ((readsP ++ readsQ).foldl applyRead createEmptyStateV5).Same
      (joinStates (readsP.foldl applyRead createEmptyStateV5)
        (readsQ.foldl applyRead createEmptyStateV5)) := by
  have hPQ : (P ++ Q).mapM readPatch = .ok (readsP ++ readsQ) := by
    rw [List.mapM_append, hP, hQ]
    rfl
  have hleft : Replayed (P ++ Q) (readsP.foldl applyRead createEmptyStateV5) :=
    (replayed_of_reads hP).mono fun _ h => List.mem_append_left Q h
  have hright : Replayed (P ++ Q) (readsQ.foldl applyRead createEmptyStateV5) :=
    (replayed_of_reads hQ).mono fun _ h => List.mem_append_right P h
  refine (replayed_of_reads hPQ).same_of_view_eq hshas (hleft.joinStates hright) ?_
  rw [view_joinStates, view_foldl_applyRead, view_foldl_applyRead, view_foldl_applyRead,
    view_createEmptyStateV5, joinAll_append]
  simp only [bot_sup_eq]

theorem sameOutcome_of_same_members {P Q : List (PatchEntry V)} (hshas : ConsistentShas P)
    (hmem : ∀ entry, entry ∈ P ↔ entry ∈ Q) : SameOutcome (reduceV5 P) (reduceV5 Q) := by
  have hiff : (∃ reads, P.mapM readPatch = .ok reads) ↔ ∃ reads, Q.mapM readPatch = .ok reads := by
    rw [exists_mapM_ok_iff, exists_mapM_ok_iff]
    simp only [hmem]
  unfold reduceV5
  rw [reduceV5From_eq, reduceV5From_eq]
  cases hP : P.mapM readPatch with
  | error errP =>
      cases hQ : Q.mapM readPatch with
      | error errQ => trivial
      | ok readsQ =>
          rw [hP] at hiff
          exact nomatch hiff.mpr ⟨readsQ, hQ⟩
  | ok readsP =>
      cases hQ : Q.mapM readPatch with
      | error errQ =>
          rw [hQ] at hiff
          exact nomatch hiff.mp ⟨readsP, hP⟩
      | ok readsQ =>
          have hright : Replayed P (readsQ.foldl applyRead createEmptyStateV5) :=
            (replayed_of_reads hQ).mono fun entry h => (hmem entry).mpr h
          refine (replayed_of_reads hP).same_of_view_eq hshas hright ?_
          rw [view_foldl_applyRead, view_foldl_applyRead]
          congr 1
          refine joinAll_congr _ fun read => ?_
          rw [mem_of_mapM_ok hP, mem_of_mapM_ok hQ]
          simp only [hmem]

/-- Replaying `P ++ Q` is joining the two replays, and lists with the same members, in whatever order
and however often, replay to the same state. -/
theorem reduceV5_converges (P Q : List (PatchEntry V)) (hshas : ConsistentShas (P ++ Q)) :
    SameOutcome (reduceV5 (P ++ Q))
      (do let a ← reduceV5 P
          let b ← reduceV5 Q
          return joinStates a b) ∧
    ∀ R : List (PatchEntry V), (∀ entry, entry ∈ P ↔ entry ∈ R) →
      SameOutcome (reduceV5 P) (reduceV5 R) := by
  refine ⟨?_, fun R hmem => sameOutcome_of_same_members (fun entry h other h' =>
    hshas entry (List.mem_append_left Q h) other (List.mem_append_left Q h')) hmem⟩
  have hPQ : (P ++ Q).mapM readPatch = (do
      let readsP ← P.mapM readPatch
      let readsQ ← Q.mapM readPatch
      return readsP ++ readsQ) := List.mapM_append
  unfold reduceV5
  rw [reduceV5From_eq, reduceV5From_eq, reduceV5From_eq, hPQ]
  cases hP : P.mapM readPatch with
  | error err => trivial
  | ok readsP =>
      cases hQ : Q.mapM readPatch with
      | error err => trivial
      | ok readsQ => exact reduceV5_append_same hshas hP hQ

/-! A remove that arrives before the add it observes still wins over it, in either order. -/

/-- Writer `b` removes the node that writer `a` adds. -/
def addThenRemove : List (PatchEntry Nat) :=
  [⟨⟨2, js "a", 1, .map JsMap.empty, [.nodeAdd (js "n") ⟨js "a", 1⟩]⟩, js "aaaa"⟩,
    ⟨⟨2, js "b", 2, .map JsMap.empty, [.nodeRemove none [js "a:1"], .propSet (js "n") (js "k") (some 7)]⟩,
      js "bbbb"⟩]

theorem addThenRemove_consistent : ConsistentShas (addThenRemove ++ addThenRemove.reverse) := by
  unfold ConsistentShas
  decide

theorem addThenRemove_converges :
    (reduceV5 addThenRemove).map (fun s => orsetContains s.nodeAlive (js "n")) = .ok false ∧
      SameOutcome (reduceV5 addThenRemove) (reduceV5 addThenRemove.reverse) :=
  ⟨by decide +kernel,
    (reduceV5_converges addThenRemove addThenRemove.reverse addThenRemove_consistent).2
      addThenRemove.reverse fun _ => List.mem_reverse.symm⟩

end GitWarp
