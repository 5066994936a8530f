import GitWarp.CheckpointSerializer
import GitWarp.ReducerContents

/-! Incremental materialization. A checkpoint stores the state compacted at the vector of all dots in it;
replaying further patches on top of the state read back simulates replaying everything. Compaction only
drops removed dots, which later patches do not add again; of the rest, serialization loses the frontier
entry of a writer named `__proto__` and nothing else. -/

namespace GitWarp
open Js ExceptLoops

variable {V Buffer : Type}

/-- The state that `createV5` stores. -/
def checkpointState (state : WarpStateV5 V) : Except JsError (WarpStateV5 V) := do
  let appliedVV ← computeAppliedVV state
  let nodeAlive ← orsetCompact state.nodeAlive appliedVV
  let edgeAlive ← orsetCompact state.edgeAlive appliedVV
  return { state with nodeAlive := nodeAlive, edgeAlive := edgeAlive }

/-- Storing a state in a checkpoint and loading it again. -/
def reloadCheckpoint (codec : CodecPort (FullStateObject V) Buffer) (state : WarpStateV5 V) :
    Except JsError (WarpStateV5 V) := do
  let stored ← checkpointState state
  let buffer ← serializeFullStateV5 codec stored
  deserializeFullStateV5 codec (some buffer)

/-- A patch as the builder makes them: the reducer accepts it, its removes name dots, and its context
has no zero counter. -/
structure PatchEntry.WellFormed (entry : PatchEntry V) : Prop where
  readable : ∃ read, readPatch entry = .ok read
  adds : ∀ op ∈ entry.patch.ops, ∀ dot, op.addDot = some dot → dot.Valid
  removes : ∀ op ∈ entry.patch.ops, ∀ encoded ∈ op.observedDots, EncodesDot encoded
  context : ∀ vv, contextVV entry.patch.context = .ok vv → vv.Positive

/-- Equality of what materialization returns: alive nodes and edges, registers, births and frontier. -/
structure SameMaterialization (a b : WarpStateV5 V) : Prop where
  nodes : ∀ node, orsetContains a.nodeAlive node = orsetContains b.nodeAlive node
  edges : ∀ edge, orsetContains a.edgeAlive edge = orsetContains b.edgeAlive edge
  prop : ∀ key, a.prop.get key = b.prop.get key
  births : ∀ key, a.edgeBirthEvent.get key = b.edgeBirthEvent.get key
  frontier : ∀ writerId, a.observedFrontier.get writerId = b.observedFrontier.get writerId

/-! ### What reloading changes -/

/-- What a state needs for the checkpoint code not to throw. -/
structure WarpStateV5.Storable (state : WarpStateV5 V) : Prop where
  dots : ∀ edges, (state.part edges).Decodable
  frontier : state.observedFrontier.Positive

theorem exists_scanORSet_ok {orset : ORSet}
    (hdots : ∀ element, ∀ encoded ∈ orset.dotsOf element, ∃ dot, decodeDot encoded = .ok dot)
    (vv : VersionVector) : ∃ vv', scanORSet vv orset = .ok vv' := by
  refine exists_foldlM_ok (fun vv dots hmem => ?_) vv
  refine exists_foldlM_ok (fun vv encoded hencoded => ?_) vv
  obtain ⟨⟨element, dots'⟩, hentry, rfl⟩ := List.mem_map.mp hmem
  have hget := (orset.entries.get_eq_some_iff element dots').mpr hentry
  obtain ⟨dot, hdot⟩ := hdots element encoded ((orset.mem_dotsOf_iff _ _).mpr ⟨_, hget, hencoded⟩)
  rw [hdot]
  exact ⟨_, rfl⟩

theorem exists_computeAppliedVV_ok {state : WarpStateV5 V} (h : ∀ edges, (state.part edges).Decodable) :
    ∃ vv, computeAppliedVV state = .ok vv := by
  obtain ⟨vv, hvv⟩ := exists_scanORSet_ok (h false).1 createVersionVector
  obtain ⟨vv', hvv'⟩ := exists_scanORSet_ok (h true).1 vv
  refine ⟨vv', ?_⟩
  unfold computeAppliedVV
  rw [show state.nodeAlive = state.part false from rfl, hvv]
  exact hvv'

/-- Dropping dots keeps every dot that is left decodable. -/
theorem decodable_of_view_drop {set set' : ORSet} {F : Set JsString} (h : set.Decodable)
    (hview : set'.view = set.view.drop F) : set'.Decodable := by
  constructor
  · intro element encoded hmem
    rw [← ORSet.mem_adds_view, hview] at hmem
    exact h.1 element encoded hmem.1
  · intro encoded hmem
    rw [← ORSet.mem_tombs_view, hview] at hmem
    exact h.2 encoded hmem.1

/-- The stored state is the old one with removed dots dropped. -/
theorem checkpointState_ok {state : WarpStateV5 V} (h : ∀ edges, (state.part edges).Decodable) :
    ∃ stored vv, checkpointState state = .ok stored ∧ computeAppliedVV state = .ok vv ∧
      (∀ edges, (stored.part edges).view =
        (state.part edges).view.drop ((state.part edges).compactable vv)) ∧
      stored.prop = state.prop ∧ stored.observedFrontier = state.observedFrontier ∧
      stored.edgeBirthEvent = state.edgeBirthEvent := by
  obtain ⟨vv, hvv⟩ := exists_computeAppliedVV_ok h
  obtain ⟨nodes, hnodes⟩ := exists_orsetCompact_ok (h false).1 vv
  obtain ⟨edges, hedges⟩ := exists_orsetCompact_ok (h true).1 vv
  refine ⟨{ state with nodeAlive := nodes, edgeAlive := edges }, vv, ?_, hvv, ?_, rfl, rfl, rfl⟩
  · unfold checkpointState
    rw [hvv]
    simp only [bind, Except.bind]
    rw [show state.nodeAlive = state.part false from rfl, hnodes]
    simp only
    rw [show state.edgeAlive = state.part true from rfl, hedges]
    rfl
  · intro part
    cases part with
    | false => exact view_orsetCompact hnodes
    | true => exact view_orsetCompact hedges

/-- Writing a state and reading it back keeps its sets and maps, but for `__proto__` in the frontier. -/
theorem reload_fullState {codec : CodecPort (FullStateObject V) Buffer} (hcodec : codec.Inverts)
    {state : WarpStateV5 V} (h : state.Storable) :
    ∃ loaded, (do let buffer ← serializeFullStateV5 codec state
                  deserializeFullStateV5 codec (some buffer)) = .ok loaded ∧
      (∀ edges, (loaded.part edges).view = (state.part edges).view) ∧
      (∀ key, loaded.prop.get key = state.prop.get key) ∧
      (∀ key, loaded.edgeBirthEvent.get key = state.edgeBirthEvent.get key) ∧
      ∀ writerId, loaded.observedFrontier.get writerId =
        if writerId = protoKey then none else state.observedFrontier.get writerId := by
  obtain ⟨nodes, hnodes⟩ := exists_orsetSerialize_ok (h.dots false)
  obtain ⟨edges, hedges⟩ := exists_orsetSerialize_ok (h.dots true)
  obtain ⟨frontier, hfrontier, hget⟩ := vvSerialize_ok h.frontier
  have hobject : ∃ obj, fullStateObject state = .ok obj ∧ obj.version = some "full-v5" ∧
      obj.nodeAlive = some nodes ∧ obj.edgeAlive = some edges ∧
      obj.prop = some (state.prop.entries.insertionSort fun a b => a.1 ≤ b.1) ∧
      obj.observedFrontier = some (frontier.entries.map fun entry => (entry.1, (entry.2 : Int))) ∧
      obj.edgeBirthEvent = some ((state.edgeBirthEvent.entries.insertionSort
        fun a b => a.1 ≤ b.1).map fun entry => (entry.1, .eventId entry.2)) := by
    unfold fullStateObject
    rw [show state.nodeAlive = state.part false from rfl, hnodes]
    simp only [bind, Except.bind]
    rw [show state.edgeAlive = state.part true from rfl, hedges]
    simp only [hfrontier]
    exact ⟨_, rfl, rfl, rfl, rfl, rfl, rfl, rfl⟩
  obtain ⟨obj, hobj, hversion, hobjNodes, hobjEdges, hobjProp, hobjFrontier, hobjBirths⟩ := hobject
  have hpositive : ∀ entry ∈ frontier.entries, 0 < entry.2 := by
    intro entry hentry
    have hvalue := (frontier.props.get_eq_some_iff entry.1 entry.2).mpr hentry
    rw [hget] at hvalue
    split at hvalue
    · cases hvalue
    · refine Nat.pos_of_ne_zero fun hzero => h.frontier entry.1 ?_
      rw [hvalue, hzero]
  have hloaded : (do let buffer ← serializeFullStateV5 codec state
                     deserializeFullStateV5 codec (some buffer)) =
      .ok { nodeAlive := orsetDeserialize nodes
            edgeAlive := orsetDeserialize edges
            prop := deserializeProps obj.prop
            observedFrontier := JsMap.ofEntries frontier.entries
            edgeBirthEvent := deserializeEdgeBirthEvent obj } := by
    have hread := vvDeserialize_ok hpositive
    simp only [serializeFullStateV5, deserializeFullStateV5, hobj, bind, Except.bind, pure, Except.pure,
      hcodec obj, stateOfObject, hversion, hobjNodes, hobjEdges, hobjFrontier, ne_eq, not_true,
      if_false, Option.getD_some, hread]
  refine ⟨_, hloaded, ?_, ?_, ?_, ?_⟩
  · intro part
    cases part with
    | false => exact view_orsetDeserialize hnodes
    | true => exact view_orsetDeserialize hedges
  · intro key
    rw [hobjProp]
    exact JsMap.get_ofEntries_of_perm (List.perm_insertionSort _ _) key
  · intro key
    have hmap : ((obj.edgeBirthEvent.or obj.edgeBirthLamport).getD []).map
        (fun entry => (entry.1, deserializeBirth entry.2)) =
        state.edgeBirthEvent.entries.insertionSort fun a b => a.1 ≤ b.1 := by
      rw [hobjBirths, Option.some_or, Option.getD_some, List.map_map]
      exact List.map_id _
    unfold deserializeEdgeBirthEvent
    rw [hmap]
    exact JsMap.get_ofEntries_of_perm (List.perm_insertionSort _ _) key
  · intro writerId
    rw [← hget]
    exact JsMap.get_ofEntries_of_perm (List.Perm.refl _) writerId

theorem reloadCheckpoint_ok {codec : CodecPort (FullStateObject V) Buffer} (hcodec : codec.Inverts)
    {state : WarpStateV5 V} (h : state.Storable) :
    ∃ loaded vv, reloadCheckpoint codec state = .ok loaded ∧
      (∀ edges, (loaded.part edges).view =
        (state.part edges).view.drop ((state.part edges).compactable vv)) ∧
      (∀ key, loaded.prop.get key = state.prop.get key) ∧
      (∀ key, loaded.edgeBirthEvent.get key = state.edgeBirthEvent.get key) ∧
      ∀ writerId, loaded.observedFrontier.get writerId =
        if writerId = protoKey then none else state.observedFrontier.get writerId := by
  obtain ⟨stored, vv, hstored, -, hviews, hprop, hfrontier, hbirths⟩ := checkpointState_ok h.dots
  have hstorable : stored.Storable :=
    ⟨fun edges => decodable_of_view_drop (h.dots edges) (hviews edges), by
      rw [hfrontier]
      exact h.frontier⟩
  obtain ⟨loaded, hloaded, hviews', hprop', hbirths', hfrontier'⟩ := reload_fullState hcodec hstorable
  refine ⟨loaded, vv, ?_, fun edges => (hviews' edges).trans (hviews edges), ?_, ?_, ?_⟩
  · unfold reloadCheckpoint
    rw [hstored]
    exact hloaded
  · intro key
    rw [hprop', hprop]
  · intro key
    rw [hbirths', hbirths]
  · intro writerId
    rw [hfrontier', hfrontier]

/-! ### Replaying on top of two states that agree -/

/-- Registers are replayed from what is under their own key. -/
theorem prop_foldl_applyRead_congr (reads : List (ReadPatch V)) {a b : WarpStateV5 V}
    (h : ∀ key, a.prop.get key = b.prop.get key) (key : JsString) :
    (reads.foldl applyRead a).prop.get key = (reads.foldl applyRead b).prop.get key := by
  have hevents : ∀ (events : List (OpV2 V × EventId)) (a b : WarpStateV5 V),
      (∀ key, a.prop.get key = b.prop.get key) → ∀ key,
      (events.foldl applyEvent a).prop.get key = (events.foldl applyEvent b).prop.get key := by
    intro events
    induction events with
    | nil => exact fun _ _ h => h
    | cons event rest ih =>
        intro a b h
        refine ih _ _ fun key => ?_
        rw [prop_applyEvent, prop_applyEvent]
        cases event.1.write with
        | none => exact h key
        | some target =>
            obtain ⟨key', value⟩ := target
            simp only [get_setRegister, h]
  induction reads generalizing a b with
  | nil => exact h key
  | cons read rest ih => exact ih (hevents read.events a b h)

/-! ### Ticks in the frontier -/

/-- The tick of a writer that a patch carries, in its context or as its own. -/
def PatchV2.tickOf (patch : PatchV2 V) (writerId : JsString) : Nat :=
  max (match contextVV patch.context with
    | .ok vv => vv.counter writerId
    | .error _ => 0) (if patch.writer = writerId then patch.lamport else 0)

/-- A tick as a level of the frontier; zero is no tick. -/
def tickLevel (n : Nat) : WithBot Nat := if n = 0 then ⊥ else WithBot.some n

theorem tickLevel_max (m n : Nat) : tickLevel (max m n) = tickLevel m ⊔ tickLevel n := by
  unfold tickLevel
  rcases Nat.eq_zero_or_pos m with rfl | hm
  · simp
  · rcases Nat.eq_zero_or_pos n with rfl | hn
    · simp
    · have hmax : max m n ≠ 0 := by omega
      rw [if_neg hmax, if_neg hm.ne', if_neg hn.ne']
      exact WithBot.coe_max m n

theorem tickLevel_le_iff {m n : Nat} (hm : 0 < m) : tickLevel m ≤ tickLevel n ↔ m ≤ n := by
  unfold tickLevel
  rw [if_neg hm.ne']
  by_cases hn : n = 0
  · subst hn
    rw [if_pos rfl, le_bot_iff]
    exact iff_of_false WithBot.coe_ne_bot (by omega)
  · rw [if_neg hn]
    exact WithBot.coe_le_coe

theorem level_eq_tickLevel {vv : VersionVector} (hpos : vv.Positive) (writerId : JsString) :
    vv.level writerId = tickLevel (vv.counter writerId) := by
  unfold JsMap.level VersionVector.counter tickLevel
  cases hget : vv.get writerId with
  | none => rfl
  | some n =>
      have hn : n ≠ 0 := fun hzero => hpos writerId (by rw [hget, hzero])
      rw [Option.getD_some, if_neg hn]

theorem frontier_of_readPatch {entry : PatchEntry V} {read : ReadPatch V}
    (hread : readPatch entry = .ok read)
    (hpos : ∀ vv, contextVV entry.patch.context = .ok vv → vv.Positive) (writerId : JsString) :
    read.effect.frontier writerId = tickLevel (entry.patch.tickOf writerId) := by
  obtain ⟨events, context, -, hcontext, rfl⟩ := readPatch_eq_ok hread
  rw [frontier_readEffect]
  simp only [Pi.sup_apply, PatchV2.tickOf, hcontext, tickLevel_max, levelAt]
  rw [level_eq_tickLevel (hpos context hcontext)]
  congr 1
  by_cases hw : writerId = entry.patch.writer
  · subst hw
    rw [if_pos rfl, if_pos rfl]
    rfl
  · rw [if_neg hw, if_neg fun h => hw h.symm]
    rfl

/-- The frontier entry of `writerId` after one list is covered by that of another list exactly when
each of its ticks is. -/
theorem frontier_joinAll_le_iff {P Q : List (PatchEntry V)} {readsP readsQ : List (ReadPatch V)}
    (hreadsP : P.mapM readPatch = .ok readsP) (hreadsQ : Q.mapM readPatch = .ok readsQ)
    (hpos : ∀ entry ∈ P ++ Q, ∀ vv, contextVV entry.patch.context = .ok vv → vv.Positive)
    (writerId : JsString) :
    (joinAll ReadPatch.effect readsP).frontier writerId ≤
        (joinAll ReadPatch.effect readsQ).frontier writerId ↔
      ∀ entry ∈ P, 0 < entry.patch.tickOf writerId →
        ∃ later ∈ Q, entry.patch.tickOf writerId ≤ later.patch.tickOf writerId := by
  have hlevel : ∀ entry ∈ P ++ Q, ∀ read, readPatch entry = .ok read →
      read.effect.frontier writerId = tickLevel (entry.patch.tickOf writerId) := by
    intro entry hentry read hread
    exact frontier_of_readPatch hread (hpos entry hentry) writerId
  have hle : ∀ (reads : List (ReadPatch V)) (bound : WithBot Nat),
      (joinAll ReadPatch.effect reads).frontier writerId ≤ bound ↔
        ∀ read ∈ reads, read.effect.frontier writerId ≤ bound := by
    intro reads bound
    induction reads with
    | nil => simp
    | cons read rest ih =>
        rw [joinAll_cons, StateView.sup_frontier, Pi.sup_apply, sup_le_iff, ih, List.forall_mem_cons]
  have hprime : ∀ n, 0 < n →
      (tickLevel n ≤ (joinAll ReadPatch.effect readsQ).frontier writerId ↔
        ∃ read ∈ readsQ, tickLevel n ≤ read.effect.frontier writerId) := by
    intro n hn
    refine joinAll_prime (P := fun v : StateView => tickLevel n ≤ v.frontier writerId) (fun a b => ?_) ?_ _ _
    · rw [StateView.sup_frontier, Pi.sup_apply, le_sup_iff]
    · rw [StateView.bot_frontier, Pi.bot_apply, le_bot_iff, tickLevel, if_neg hn.ne']
      exact WithBot.coe_ne_bot
  rw [hle]
  constructor
  · intro hall entry hentry htick
    obtain ⟨read, hread⟩ := exists_mapM_ok_iff.mp ⟨readsP, hreadsP⟩ entry hentry
    have hbound := hall read ((mem_of_mapM_ok hreadsP read).mpr ⟨entry, hentry, hread⟩)
    rw [hlevel entry (List.mem_append_left Q hentry) read hread, hprime _ htick] at hbound
    obtain ⟨read', hmem', hbound'⟩ := hbound
    obtain ⟨later, hlater, hread'⟩ := (mem_of_mapM_ok hreadsQ read').mp hmem'
    rw [hlevel later (List.mem_append_right P hlater) read' hread', tickLevel_le_iff htick] at hbound'
    exact ⟨later, hlater, hbound'⟩
  · intro hall read hmem
    obtain ⟨entry, hentry, hread⟩ := (mem_of_mapM_ok hreadsP read).mp hmem
    rw [hlevel entry (List.mem_append_left Q hentry) read hread]
    rcases Nat.eq_zero_or_pos (entry.patch.tickOf writerId) with hzero | htick
    · rw [hzero]
      exact bot_le
    · obtain ⟨later, hlater, hbound⟩ := hall entry hentry htick
      obtain ⟨read', hread'⟩ := exists_mapM_ok_iff.mp ⟨readsQ, hreadsQ⟩ later hlater
      refine (hprime _ htick).mpr ⟨read', (mem_of_mapM_ok hreadsQ read').mpr ⟨later, hlater, hread'⟩, ?_⟩
      rw [hlevel later (List.mem_append_right P hlater) read' hread', tickLevel_le_iff htick]
      exact hbound

/-! ### Replayed states can be stored -/

theorem removedDots_subset (op : OpV2 V) (edges : Bool) {encoded : JsString}
    (h : encoded ∈ op.removedDots edges) : encoded ∈ op.observedDots := by
  cases op <;> cases edges <;> simp_all [OpV2.removedDots, OpV2.observedDots]

theorem positive_of_replay {entries : List (PatchEntry V)} {state : WarpStateV5 V}
    (hwell : ∀ entry ∈ entries, entry.WellFormed) (h : reduceV5 entries = .ok state) :
    state.observedFrontier.Positive := by
  obtain ⟨reads, hreads, hview⟩ := view_reduceV5From h
  have hnonzero : ∀ rs : List (ReadPatch V), (∀ read ∈ rs, read ∈ reads) → ∀ writerId,
      (joinAll ReadPatch.effect rs).frontier writerId ≠ WithBot.some 0 := by
    intro rs
    induction rs with
    | nil => exact fun _ _ => WithBot.bot_ne_coe
    | cons read rest ih =>
        intro hsub writerId
        obtain ⟨entry, hentry, hread⟩ :=
          (mem_of_mapM_ok hreads read).mp (hsub read List.mem_cons_self)
        have htick : read.effect.frontier writerId ≠ WithBot.some 0 := by
          rw [frontier_of_readPatch hread (hwell entry hentry).context, tickLevel]
          split
          · exact WithBot.bot_ne_coe
          · rename_i hne
            exact fun heq => hne (WithBot.coe_injective heq)
        have hrest := ih (fun r hr => hsub r (List.mem_cons_of_mem read hr)) writerId
        rw [joinAll_cons, StateView.sup_frontier, Pi.sup_apply]
        rcases le_total (read.effect.frontier writerId)
          ((joinAll ReadPatch.effect rest).frontier writerId) with hle | hle
        · rwa [sup_eq_right.mpr hle]
        · rwa [sup_eq_left.mpr hle]
  intro writerId hzero
  have hlevel : state.observedFrontier.level writerId =
      (joinAll ReadPatch.effect reads).frontier writerId := by
    have hfrontier := congrFun (congrArg StateView.frontier hview) writerId
    rwa [view_createEmptyStateV5, bot_sup_eq] at hfrontier
  exact hnonzero reads (fun _ hread => hread) writerId
    (hlevel.symm.trans (JsMap.level_of_get_some hzero))

theorem storable_of_replay {entries : List (PatchEntry V)} {state : WarpStateV5 V}
    (hwell : ∀ entry ∈ entries, entry.WellFormed) (h : reduceV5 entries = .ok state) :
    state.Storable := by
  refine ⟨fun edges => ⟨fun element encoded hmem => ?_, fun encoded hmem => ?_⟩,
    positive_of_replay hwell h⟩
  · rw [← ORSet.mem_adds_view, WarpStateV5.view_part, mem_adds_reduceV5From h] at hmem
    obtain hempty | ⟨entry, hentry, op, hop, hpair⟩ := hmem
    · exact absurd hempty (not_mem_adds_empty edges _)
    · obtain ⟨dot, hdot, hencoded⟩ := addPair_dot hpair
      have hdecode := decodeDot_encodeDot ((hwell entry hentry).adds op hop dot hdot)
      rw [hencoded] at hdecode
      exact ⟨dot, hdecode⟩
  · rw [← ORSet.mem_tombs_view, WarpStateV5.view_part, mem_tombs_reduceV5From h] at hmem
    obtain hempty | ⟨entry, hentry, op, hop, hremoved⟩ := hmem
    · exact absurd hempty (not_mem_tombs_empty edges _)
    · obtain ⟨dot, -, -, hdecode⟩ := EncodesDot.decode
        ((hwell entry hentry).removes op hop encoded (removedDots_subset op edges hremoved))
      exact ⟨dot, hdecode⟩

theorem exists_reads_of_wellFormed {entries : List (PatchEntry V)}
    (hwell : ∀ entry ∈ entries, entry.WellFormed) : ∃ reads, entries.mapM readPatch = .ok reads :=
  exists_mapM_ok_iff.mpr fun entry hentry => (hwell entry hentry).readable

/-- No patch of `Q` adds a dot that compaction dropped from the replay of `P`. -/
theorem fresh_joinAll {P Q : List (PatchEntry V)} (hdots : (addDots (P ++ Q)).Nodup)
    {state : WarpStateV5 V} (hP : reduceV5 P = .ok state) {readsQ : List (ReadPatch V)}
    (hreadsQ : Q.mapM readPatch = .ok readsQ) (vv : VersionVector) (edges : Bool) :
    ∀ d ∈ ((joinAll ReadPatch.effect readsQ).part edges).dots,
      d ∉ (state.part edges).compactable vv := by
  rintro d ⟨e, hadd⟩ hcompact
  obtain ⟨e', hpresent⟩ := compactable_subset_dots _ _ hcompact
  rw [WarpStateV5.view_part, mem_adds_reduceV5From hP] at hpresent
  obtain hempty | ⟨entry, hentry, hadds⟩ := hpresent
  · exact not_mem_adds_empty edges _ hempty
  · obtain ⟨read, hread, hmem⟩ := (mem_adds_joinAll _ _ _ _).mp hadd
    obtain ⟨later, hlater, hok⟩ := (mem_of_mapM_ok hreadsQ read).mp hread
    exact fresh_of_nodup hdots hentry hlater hadds ((mem_adds_effect_of_readPatch hok edges _).mp hmem)

/-! ### Incremental against full replay -/

/-- Replaying `Q` on top of the reloaded checkpoint of `P` materializes what replaying both does. -/
def IncrementalAgrees (codec : CodecPort (FullStateObject V) Buffer) (P Q : List (PatchEntry V)) :
    Prop :=
  ∃ atCheckpoint full loaded incremental,
    reduceV5 P = .ok atCheckpoint ∧ reduceV5 (P ++ Q) = .ok full ∧
    reloadCheckpoint codec atCheckpoint = .ok loaded ∧
    reduceV5From loaded Q = .ok incremental ∧ SameMaterialization incremental full

/-- Of the two replays everything but the frontier entry of `__proto__` agrees. -/
theorem incremental_parts {codec : CodecPort (FullStateObject V) Buffer} (hcodec : codec.Inverts)
    {P Q : List (PatchEntry V)} (hwell : ∀ entry ∈ P ++ Q, entry.WellFormed)
    (hdots : (addDots (P ++ Q)).Nodup) {readsP readsQ : List (ReadPatch V)}
    (hreadsP : P.mapM readPatch = .ok readsP) (hreadsQ : Q.mapM readPatch = .ok readsQ) :
    ∃ loaded, reloadCheckpoint codec (readsP.foldl applyRead createEmptyStateV5) = .ok loaded ∧
      (∀ edges x, orsetContains ((readsQ.foldl applyRead loaded).part edges) x =
        orsetContains (((readsP ++ readsQ).foldl applyRead createEmptyStateV5).part edges) x) ∧
      (∀ key, (readsQ.foldl applyRead loaded).prop.get key =
        ((readsP ++ readsQ).foldl applyRead createEmptyStateV5).prop.get key) ∧
      (∀ key, (readsQ.foldl applyRead loaded).edgeBirthEvent.get key =
        ((readsP ++ readsQ).foldl applyRead createEmptyStateV5).edgeBirthEvent.get key) ∧
      ∀ writerId, (readsQ.foldl applyRead loaded).observedFrontier.get writerId =
          ((readsP ++ readsQ).foldl applyRead createEmptyStateV5).observedFrontier.get writerId ↔
        writerId = protoKey → (joinAll ReadPatch.effect readsP).frontier writerId ≤
          (joinAll ReadPatch.effect readsQ).frontier writerId := by
  have hP : reduceV5 P = .ok (readsP.foldl applyRead createEmptyStateV5) :=
    reduceV5_eq_ok_iff.mpr ⟨readsP, hreadsP, rfl⟩
  have hstorable := storable_of_replay (fun entry h => hwell entry (List.mem_append_left Q h)) hP
  obtain ⟨loaded, vv, hloaded, hviews, hprop, hbirths, hfrontier⟩ :=
    reloadCheckpoint_ok hcodec hstorable
  have hviewP := view_foldl_applyRead readsP (createEmptyStateV5 : WarpStateV5 V)
  rw [view_createEmptyStateV5, bot_sup_eq] at hviewP
  refine ⟨loaded, hloaded, ?_, ?_, ?_, ?_⟩
  · intro edges x
    have hforgets := (AddWins.forgetsDots_drop (compactable_subset_tombs _ vv)).sup
      ((joinAll ReadPatch.effect readsQ).part edges) (fresh_joinAll hdots hP hreadsQ vv edges)
    apply orsetContains_eq_of_view
    rw [List.foldl_append, WarpStateV5.view_part, WarpStateV5.view_part, view_foldl_applyRead,
      view_foldl_applyRead, StateView.part_sup, StateView.part_sup, ← WarpStateV5.view_part,
      ← WarpStateV5.view_part, hviews]
    exact hforgets.alive_iff x
  · intro key
    rw [List.foldl_append]
    exact prop_foldl_applyRead_congr readsQ hprop key
  · intro key
    apply JsMap.get_eq_of_level_eq
    have hleft := congrFun (congrArg StateView.births (view_foldl_applyRead readsQ loaded)) key
    have hright := congrFun (congrArg StateView.births (view_foldl_applyRead readsQ
      (readsP.foldl applyRead (createEmptyStateV5 : WarpStateV5 V)))) key
    have hsame : loaded.edgeBirthEvent.level key =
        (readsP.foldl applyRead (createEmptyStateV5 : WarpStateV5 V)).edgeBirthEvent.level key := by
      unfold JsMap.level
      rw [hbirths]
    rw [List.foldl_append]
    refine hleft.trans (Eq.trans ?_ hright.symm)
    exact congrArg (· ⊔ (joinAll ReadPatch.effect readsQ).births key) hsame
  · intro writerId
    have hleft : (readsQ.foldl applyRead loaded).observedFrontier.level writerId =
        loaded.observedFrontier.level writerId ⊔ (joinAll ReadPatch.effect readsQ).frontier writerId :=
      congrFun (congrArg StateView.frontier (view_foldl_applyRead readsQ loaded)) writerId
    have hright : ((readsP ++ readsQ).foldl applyRead
          (createEmptyStateV5 : WarpStateV5 V)).observedFrontier.level writerId =
        (joinAll ReadPatch.effect readsP).frontier writerId ⊔
          (joinAll ReadPatch.effect readsQ).frontier writerId := by
      have hview := view_foldl_applyRead (readsP ++ readsQ) (createEmptyStateV5 : WarpStateV5 V)
      rw [view_createEmptyStateV5, bot_sup_eq, joinAll_append] at hview
      exact congrFun (congrArg StateView.frontier hview) writerId
    have hgetlevel : (readsQ.foldl applyRead loaded).observedFrontier.get writerId =
          ((readsP ++ readsQ).foldl applyRead createEmptyStateV5).observedFrontier.get writerId ↔
        loaded.observedFrontier.level writerId ⊔ (joinAll ReadPatch.effect readsQ).frontier writerId =
          (joinAll ReadPatch.effect readsP).frontier writerId ⊔
            (joinAll ReadPatch.effect readsQ).frontier writerId := by
      rw [← hleft, ← hright]
      refine ⟨fun h => ?_, JsMap.get_eq_of_level_eq⟩
      unfold JsMap.level
      rw [h]
    rw [hgetlevel]
    by_cases hproto : writerId = protoKey
    · have hnone : loaded.observedFrontier.level writerId = ⊥ :=
        JsMap.level_of_get_none (by rw [hfrontier, if_pos hproto])
      rw [hnone, bot_sup_eq, eq_comm, sup_eq_right]
      exact ⟨fun hle _ => hle, fun h => h hproto⟩
    · have hsame : loaded.observedFrontier.level writerId =
          (joinAll ReadPatch.effect readsP).frontier writerId := by
        have hlevel := congrFun (congrArg StateView.frontier hviewP) writerId
        refine Eq.trans ?_ hlevel
        show loaded.observedFrontier.level writerId = JsMap.level _ writerId
        unfold JsMap.level
        rw [hfrontier, if_neg hproto]
      rw [hsame]
      exact iff_of_true rfl fun h => absurd h hproto

/-- Incremental materialization equals full replay exactly when every tick of a writer named
`__proto__` before the checkpoint is reached again after it. -/
theorem incrementalAgrees_iff (codec : CodecPort (FullStateObject V) Buffer) (hcodec : codec.Inverts)
    (P Q : List (PatchEntry V)) (hwell : ∀ entry ∈ P ++ Q, entry.WellFormed)
    (hdots : (addDots (P ++ Q)).Nodup) :
    IncrementalAgrees codec P Q ↔
      ∀ entry ∈ P, 0 < entry.patch.tickOf protoKey →
        ∃ later ∈ Q, entry.patch.tickOf protoKey ≤ later.patch.tickOf protoKey := by
  obtain ⟨readsP, hreadsP⟩ :=
    exists_reads_of_wellFormed fun entry h => hwell entry (List.mem_append_left Q h)
  obtain ⟨readsQ, hreadsQ⟩ :=
    exists_reads_of_wellFormed fun entry h => hwell entry (List.mem_append_right P h)
  have hreads : (P ++ Q).mapM readPatch = .ok (readsP ++ readsQ) := by
    rw [List.mapM_append, hreadsP, hreadsQ]
    rfl
  obtain ⟨loaded, hloaded, halive, hprop, hbirths, hfrontier⟩ :=
    incremental_parts hcodec hwell hdots hreadsP hreadsQ
  rw [← frontier_joinAll_le_iff hreadsP hreadsQ (fun entry h => (hwell entry h).context) protoKey]
  constructor
  · rintro ⟨atCheckpoint, full, loaded', incremental, hP, hPQ, hloaded', hincremental, hsame⟩
    obtain ⟨readsP', hreadsP', rfl⟩ := reduceV5_eq_ok_iff.mp hP
    obtain ⟨reads', hreads', rfl⟩ := reduceV5_eq_ok_iff.mp hPQ
    obtain ⟨readsQ', hreadsQ', rfl⟩ := reduceV5From_eq_ok_iff.mp hincremental
    rw [hreadsP, Except.ok.injEq] at hreadsP'
    rw [hreadsQ, Except.ok.injEq] at hreadsQ'
    rw [hreads, Except.ok.injEq] at hreads'
    subst hreadsP' hreadsQ' hreads'
    rw [hloaded, Except.ok.injEq] at hloaded'
    subst hloaded'
    exact (hfrontier protoKey).mp (hsame.frontier protoKey) rfl
  · intro hcovered
    refine ⟨_, _, loaded, _, reduceV5_eq_ok_iff.mpr ⟨readsP, hreadsP, rfl⟩,
      reduceV5_eq_ok_iff.mpr ⟨_, hreads, rfl⟩, hloaded,
      reduceV5From_eq_ok_iff.mpr ⟨readsQ, hreadsQ, rfl⟩, ?_⟩
    exact ⟨halive false, halive true, hprop, hbirths, fun writerId =>
      (hfrontier writerId).mpr fun hproto => hproto ▸ hcovered⟩

/-! Losing the tick of `__proto__` is observable, and it is the only loss. -/

/-- A codec that keeps objects as they are. -/
def identityCodec : CodecPort (FullStateObject V) (FullStateObject V) := ⟨id, fun obj => .ok (some obj)⟩

/-- The first patch of a writer, which adds one node. -/
def firstPatch (writer : JsString) : PatchEntry Nat :=
  ⟨⟨2, writer, 1, .map JsMap.empty, [.nodeAdd (js "n") ⟨writer, 1⟩]⟩, js "aaaa"⟩

/-- The second patch of the writer `a`, which removes the node again. -/
def secondPatch : PatchEntry Nat :=
  ⟨⟨2, js "a", 2, .map JsMap.empty, [.nodeRemove none [js "a:1"]]⟩, js "bbbb"⟩

/-- A patch of the writer `b`, which removes the node once more and adds it anew. -/
def thirdPatch : PatchEntry Nat :=
  ⟨⟨2, js "b", 1, .map JsMap.empty, [.nodeRemove none [js "a:1"], .nodeAdd (js "n") ⟨js "b", 1⟩]⟩, js "cccc"⟩

theorem wellFormed_firstPatch {writer : JsString} (hwriter : writer ≠ []) :
    (firstPatch writer).WellFormed where
  readable := by
    simp only [readPatch, firstPatch, List.zipIdx_cons, List.zipIdx_nil, List.mapM_cons, List.mapM_nil,
      readOp, createEventId, if_neg hwriter]
    exact ⟨_, rfl⟩
  adds op hop dot hdot := by
    simp only [firstPatch, List.mem_singleton] at hop
    subst hop
    cases hdot
    exact ⟨hwriter, Int.one_pos⟩
  removes op hop encoded hencoded := by
    simp only [firstPatch, List.mem_singleton] at hop
    subst hop
    cases hencoded
  context vv hvv := by
    cases hvv
    intro writerId
    simp

theorem wellFormed_secondPatch : secondPatch.WellFormed where
  readable := ⟨_, rfl⟩
  adds op hop dot hdot := by
    simp only [secondPatch, List.mem_singleton] at hop
    subst hop
    cases hdot
  removes op hop encoded hencoded := by
    simp only [secondPatch, List.mem_singleton] at hop
    subst hop
    simp only [OpV2.observedDots, List.mem_singleton] at hencoded
    subst hencoded
    exact ⟨⟨js "a", 1⟩, by decide, by decide⟩
  context vv hvv := by
    cases hvv
    intro writerId
    simp

theorem wellFormed_thirdPatch : thirdPatch.WellFormed where
  readable := ⟨_, rfl⟩
  adds op hop dot hdot := by
    simp only [thirdPatch, List.mem_cons, List.not_mem_nil, or_false] at hop
    rcases hop with rfl | rfl
    · cases hdot
    · cases hdot
      exact ⟨by decide, Int.one_pos⟩
  removes op hop encoded hencoded := by
    simp only [thirdPatch, List.mem_cons, List.not_mem_nil, or_false] at hop
    rcases hop with rfl | rfl
    · simp only [OpV2.observedDots, List.mem_singleton] at hencoded
      subst hencoded
      exact ⟨⟨js "a", 1⟩, by decide, by decide⟩
    · cases hencoded
  context vv hvv := by
    cases hvv
    intro writerId
    simp

/-- The checkpoint forgets the node that was removed before it, and its remove comes once more. -/
theorem incrementalAgrees_removed_node :
    (∀ entry ∈ [firstPatch (js "a"), secondPatch] ++ [thirdPatch], entry.WellFormed) ∧
      IncrementalAgrees identityCodec [firstPatch (js "a"), secondPatch] [thirdPatch] := by
  have hwell : ∀ entry ∈ [firstPatch (js "a"), secondPatch] ++ [thirdPatch], entry.WellFormed := by
    simp only [List.cons_append, List.nil_append, List.forall_mem_cons]
    exact ⟨wellFormed_firstPatch (by decide), wellFormed_secondPatch, wellFormed_thirdPatch, by simp⟩
  exact ⟨hwell, (incrementalAgrees_iff identityCodec (fun _ => rfl) [firstPatch (js "a"), secondPatch] [thirdPatch]
    hwell (by decide)).mpr (by decide)⟩

/-- A writer may be named `__proto__`; its tick does not survive the checkpoint. -/
theorem not_incrementalAgrees_proto :
    (∀ entry ∈ [firstPatch protoKey] ++ [], entry.WellFormed) ∧
      (addDots ([firstPatch protoKey] ++ [])).Nodup ∧
      ¬ IncrementalAgrees identityCodec [firstPatch protoKey] [] := by
  refine ⟨?_, by decide, ?_⟩
  · intro entry hentry
    rw [List.append_nil, List.mem_singleton] at hentry
    subst hentry
    exact wellFormed_firstPatch (by decide)
  · rintro ⟨atCheckpoint, full, loaded, incremental, hP, hPQ, hloaded, hincremental, hsame⟩
    have hfull : (reduceV5 ([firstPatch protoKey] ++ [])).map
        (fun s => s.observedFrontier.get protoKey) = .ok (some 1) := by decide +kernel
    have hlost : (do let s ← reduceV5 [firstPatch protoKey]
                     let c ← reloadCheckpoint identityCodec s
                     let r ← reduceV5From c []
                     return r.observedFrontier.get protoKey : Except JsError _) = .ok none := by
      decide +kernel
    have hframe := hsame.frontier protoKey
    simp only [hPQ, Except.map] at hfull
    simp only [hP, hloaded, hincremental, bind, Except.bind, pure, Except.pure] at hlost
    rw [Except.ok.inj hlost, Except.ok.inj hfull] at hframe
    cases hframe

end GitWarp
