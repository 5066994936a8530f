import GitWarp.GraphCheckpoints
import GitWarp.GraphReaders

/-! The states that an instance can hold: what patches of builders, merges, collections and reloads of a checkpoint
make of the empty state. Their keys are clean. -/

namespace GitWarp
open Js ExceptLoops

variable {V : Type}

inductive Reachable : WarpStateV5 V → Prop where
  | empty : Reachable createEmptyStateV5
  | patch {state next : WarpStateV5 V} {seen : Option (WarpStateV5 V)} {calls : List (BuilderCall V)}
      {entry : PatchEntry V} (hstate : Reachable state) (hbuilt : BuiltBy seen calls entry.patch)
      (happly : applyFast state entry.patch entry.sha = .ok next) : Reachable next
  | join {a b : WarpStateV5 V} (ha : Reachable a) (hb : Reachable b) : Reachable (joinStates a b)
  | collect {state : WarpStateV5 V} {result : WarpStateV5 V × GCExecuteResult} (hstate : Reachable state)
      (hgc : runGC state = .ok result) : Reachable result.1
  | reload {Buffer : Type} {codec : CodecPort (FullStateObject V) Buffer} (hcodec : codec.Inverts)
      {state loaded : WarpStateV5 V} (hstate : Reachable state) (hload : reloadCheckpoint codec state = .ok loaded) :
      Reachable loaded

/-- No identifier that the state holds, alive or not, has a reserved byte. -/
structure CleanKeys (state : WarpStateV5 V) : Prop where
  nodes : ∀ pair ∈ (state.view.part false).adds, NoReservedBytes pair.1
  edges : ∀ pair ∈ (state.view.part true).adds, ∃ edge, EdgeRef.NoReservedBytes edge ∧ pair.1 = edge.key
  props : ∀ key, (state.prop.get key).isSome → IsNodePropKey key ∨ IsEdgePropKey key

theorem CleanKeys.cleanState {state : WarpStateV5 V} (h : CleanKeys state) : CleanState state := by
  have hadds : ∀ edges element, orsetContains (state.part edges) element = true →
      ∃ encoded, (element, encoded) ∈ (state.view.part edges).adds := by
    intro edges element halive
    obtain ⟨encoded, hadd, -⟩ := (orsetContains_iff _ _).mp halive
    rw [← WarpStateV5.view_part]
    exact ⟨encoded, hadd⟩
  refine ⟨fun node halive => ?_, fun key halive => ?_, h.props⟩
  · obtain ⟨encoded, hadd⟩ := hadds false node halive
    exact h.nodes _ hadd
  · obtain ⟨encoded, hadd⟩ := hadds true key halive
    exact h.edges _ hadd

theorem cleanKeys_patch {state next : WarpStateV5 V} {seen : Option (WarpStateV5 V)} {calls : List (BuilderCall V)}
    {entry : PatchEntry V} (hstate : CleanKeys state) (hbuilt : BuiltBy seen calls entry.patch)
    (happly : applyFast state entry.patch entry.sha = .ok next) : CleanKeys next := by
  have hreduce : reduceV5From state [entry] = .ok next := by
    unfold reduceV5From
    rw [List.foldlM_cons, happly]
    rfl
  have hadds : ∀ edges pair, pair ∈ (next.view.part edges).adds →
      pair ∈ (state.view.part edges).adds ∨ ∃ op : OpV2 V, CleanOp op ∧ op.addPair edges = some pair := by
    intro edges pair hmem
    rcases (mem_adds_reduceV5From hreduce edges pair).mp hmem with hold | ⟨entry', hentry, hadd⟩
    · exact Or.inl hold
    · cases List.mem_singleton.mp hentry
      exact Or.inr (cleanOp_of_adds hbuilt hadd)
  refine ⟨fun pair hmem => ?_, fun pair hmem => ?_, fun key hkey => ?_⟩
  · rcases hadds false pair hmem with hold | ⟨op, hclean, hadd⟩
    · exact hstate.nodes pair hold
    · exact hclean.node pair.1 pair.2 hadd
  · rcases hadds true pair hmem with hold | ⟨op, hclean, hadd⟩
    · exact hstate.edges pair hold
    · exact hclean.edge pair.1 pair.2 hadd
  · obtain ⟨reads, hreads, rfl⟩ := reduceV5From_eq_ok_iff.mp hreduce
    rcases register_or_sets hreads state hkey with hold | ⟨entry', hentry, hsets⟩
    · exact hstate.props key hold
    · cases List.mem_singleton.mp hentry
      exact cleanKey_of_sets hbuilt hsets

theorem cleanKeys_join {a b : WarpStateV5 V} (ha : CleanKeys a) (hb : CleanKeys b) : CleanKeys (joinStates a b) := by
  have hadds : ∀ edges pair, pair ∈ ((joinStates a b).view.part edges).adds →
      pair ∈ (a.view.part edges).adds ∨ pair ∈ (b.view.part edges).adds := by
    intro edges pair hmem
    rw [view_joinStates, StateView.part_sup, AddWins.mem_adds_sup] at hmem
    exact hmem
  refine ⟨fun pair hmem => ?_, fun pair hmem => ?_, fun key hkey => ?_⟩
  · exact (hadds false pair hmem).elim (ha.nodes pair) (hb.nodes pair)
  · exact (hadds true pair hmem).elim (ha.edges pair) (hb.edges pair)
  · have hget : (joinStates a b).prop.get key = lwwMax (a.prop.get key) (b.prop.get key) :=
      get_mergeProps a.prop b.prop key
    rw [hget] at hkey
    cases hsome : a.prop.get key with
    | some register => exact ha.props key (by rw [hsome]; rfl)
    | none =>
        rw [hsome] at hkey
        refine hb.props key ?_
        cases hother : b.prop.get key with
        | some register => rfl
        | none =>
            rw [hother] at hkey
            cases hkey

theorem cleanKeys_collect {state : WarpStateV5 V} {result : WarpStateV5 V × GCExecuteResult} (hstate : CleanKeys state)
    (hgc : runGC state = .ok result) : CleanKeys result.1 := by
  unfold runGC at hgc
  obtain ⟨appliedVV, -, hexecute⟩ := bind_ok_iff.mp hgc
  unfold executeGC at hexecute
  cases hnodes : orsetCompact state.nodeAlive appliedVV with
  | error err =>
      rw [hnodes] at hexecute
      cases hexecute
  | ok nodes =>
      cases hedges : orsetCompact state.edgeAlive appliedVV with
      | error err =>
          rw [hnodes, hedges] at hexecute
          cases hexecute
      | ok edges =>
          rw [hnodes, hedges] at hexecute
          cases hexecute
          refine ⟨fun pair hmem => hstate.nodes pair ?_, fun pair hmem => hstate.edges pair ?_, hstate.props⟩
          · have hview : pair ∈ nodes.view.adds := hmem
            rw [view_orsetCompact hnodes] at hview
            exact hview.1
          · have hview : pair ∈ edges.view.adds := hmem
            rw [view_orsetCompact hedges] at hview
            exact hview.1

theorem cleanKeys_reload {Buffer : Type} {codec : CodecPort (FullStateObject V) Buffer} (hcodec : codec.Inverts)
    {state loaded : WarpStateV5 V} (hstate : CleanKeys state) (hload : reloadCheckpoint codec state = .ok loaded) :
    CleanKeys loaded := by
  obtain ⟨vv, hviews, hprop, -⟩ := reloadCheckpoint_eq_ok hcodec hload
  have hadds : ∀ edges pair, pair ∈ (loaded.view.part edges).adds → pair ∈ (state.view.part edges).adds := by
    intro edges pair hmem
    rw [← WarpStateV5.view_part, hviews] at hmem
    rw [← WarpStateV5.view_part]
    exact hmem.1
  refine ⟨fun pair hmem => hstate.nodes pair (hadds false pair hmem),
    fun pair hmem => hstate.edges pair (hadds true pair hmem), fun key hkey => hstate.props key ?_⟩
  rw [← hprop]
  exact hkey

theorem Reachable.cleanKeys {state : WarpStateV5 V} (h : Reachable state) : CleanKeys state := by
  induction h with
  | empty => exact ⟨fun pair hmem => absurd hmem (not_mem_adds_empty false pair),
      fun pair hmem => absurd hmem (not_mem_adds_empty true pair), nofun⟩
  | patch _ hbuilt happly ih => exact cleanKeys_patch ih hbuilt happly
  | join _ _ iha ihb => exact cleanKeys_join iha ihb
  | collect _ hgc ih => exact cleanKeys_collect ih hgc
  | reload hcodec _ hload ih => exact cleanKeys_reload hcodec ih hload

theorem Reachable.cleanState {state : WarpStateV5 V} (h : Reachable state) : CleanState state := h.cleanKeys.cleanState

/-! ### States that sessions of builders make -/

/-- What one writer does with one builder, which has read the state before it or none. -/
structure Session (V : Type) where
  writerId : JsString
  lamport : Nat
  sees : Bool
  calls : List (BuilderCall V)
  sha : JsString

def Session.builder (session : Session V) (state : WarpStateV5 V) : OpenBuilder V where
  graph := 0
  writerId := session.writerId
  lamport := session.lamport
  vv := if session.sees then state.observedFrontier else createVersionVector
  expectedParentSha := none
  ops := []
  phase := .building
  snapshotState := if session.sees then some state else none
  onDeleteWithData := .warn
  nodesAdded := JsSet.empty
  edgesAdded := JsSet.empty

def Session.run (state : WarpStateV5 V) (session : Session V) : Option (WarpStateV5 V) := do
  let builder ← (session.builder state).calls session.calls
  let patch ← (builder.toPatch session.lamport).toOption
  (applyFast state patch session.sha).toOption

/-- The state after the sessions, one on top of the other. -/
def runSessions (sessions : List (Session V)) : Option (WarpStateV5 V) :=
  sessions.foldlM Session.run createEmptyStateV5

theorem Reachable.run {state next : WarpStateV5 V} (hstate : Reachable state) {session : Session V}
    (h : session.run state = some next) : Reachable next := by
  simp only [Session.run, Option.bind_eq_bind, Option.bind_eq_some_iff] at h
  obtain ⟨builder, hcalls, patch, hpatch, happly⟩ := h
  have hbuilt : BuiltBy (session.builder state).snapshotState session.calls patch :=
    ⟨session.builder state, builder, session.lamport, ⟨rfl, rfl, rfl, rfl⟩, rfl, hcalls, toOption_eq_some hpatch⟩
  let entry : PatchEntry V := ⟨patch, session.sha⟩
  have hentry : applyFast state entry.patch entry.sha = .ok next := toOption_eq_some happly
  exact .patch hstate hbuilt hentry

theorem reachable_of_sessions {sessions : List (Session V)} {state : WarpStateV5 V}
    (h : runSessions sessions = some state) : Reachable state := by
  have hloop : ∀ {sessions : List (Session V)} {start : WarpStateV5 V}, Reachable start →
      sessions.foldlM Session.run start = some state → Reachable state := by
    intro sessions
    induction sessions with
    | nil =>
        intro start hstart h
        cases h
        exact hstart
    | cons session rest ih =>
        intro start hstart h
        rw [List.foldlM_cons, Option.bind_eq_bind, Option.bind_eq_some_iff] at h
        obtain ⟨next, hnext, hrest⟩ := h
        exact ih (hstart.run hnext) hrest
  exact hloop .empty h

end GitWarp
