import GitWarp.BoundaryRecord
import GitWarp.ReachableStates
import GitWarp.StateSerializer
import GitWarp.SyncCheckpoints

/-! Boundary transition records of graph states. A record is made of a state and a payload of patches; read back, it
verifies, and its replay gives the state that the payload gives, except for a counter of the writer `__proto__`, which
the embedded state loses. -/

namespace GitWarp
open Js ExceptLoops

variable {V Buffer Bytes Message : Type}

namespace Boundary

/-! ### Payloads -/

/-- What the property `P` of a record can be: absent, an array of entries, or no array. -/
inductive SerializedPayload (V : Type) where
  | undefined
  | patches (entries : List (PatchEntry V))
  | other
  deriving DecidableEq

namespace ProvenancePayload

/-- `ProvenancePayload.fromJSON(json)` -/
def fromJSON : SerializedPayload V → Except JsError (List (PatchEntry V))
  | .undefined => return []
  | .patches entries => return entries
  | .other => .error ⟨"TypeError", "ProvenancePayload requires an array of patches"⟩

def toJSON (patches : List (PatchEntry V)) : SerializedPayload V := .patches patches

/-- `payload.replay(initialState)`; a clone is the state itself. -/
def replay (patches : List (PatchEntry V)) (initialState : WarpStateV5 V) : Except JsError (WarpStateV5 V) :=
  match patches with
  | [] => return initialState
  | patches => reduceV5From initialState patches

theorem replay_eq (patches : List (PatchEntry V)) (initialState : WarpStateV5 V) :
    replay patches initialState = reduceV5From initialState patches := by
  cases patches <;> rfl

end ProvenancePayload

/-! ### Making a record -/

/-- The codec, listed by what it encodes, and the crypto port. -/
structure BoundaryPorts (V Buffer Bytes Message : Type) where
  stateCodec : CodecPort (FullStateObject V) Buffer
  visibleCodec : CodecPort (VisibleProjection V) Bytes
  recordCodec : CodecPort (BTRObject (Option Buffer) (SerializedPayload V)) Message
  hash : Bytes → JsString
  hmac : HmacKey → Message → List UInt8
  timingSafeEqual : List UInt8 → List UInt8 → Bool
  template : JsValue → Except JsError String

variable (ports : BoundaryPorts V Buffer Bytes Message)

def computeStateHashV5 (state : WarpStateV5 V) : JsString := ports.hash (serializeStateV5 ports.visibleCodec state)

def BoundaryPorts.services : BTRServices (Option Buffer) (SerializedPayload V) (WarpStateV5 V) Message where
  codec := ports.recordCodec
  hmac := ports.hmac
  timingSafeEqual := ports.timingSafeEqual
  deserializeFullStateV5 := deserializeFullStateV5 ports.stateCodec
  replay json initialState := do
    let payload ← ProvenancePayload.fromJSON json
    ProvenancePayload.replay payload initialState
  computeStateHashV5 := computeStateHashV5 ports
  template := ports.template

/-- A record with the tag over its fields. -/
def signed (services : BTRServices (Option Buffer) (SerializedPayload V) (WarpStateV5 V) Message)
    (fields : BTR (Option Buffer) (SerializedPayload V)) (key : HmacKey) : BTR (Option Buffer) (SerializedPayload V) :=
  { fields with kappa := .string (computeHmac services fields key) }

def createBTR (initialState : WarpStateV5 V) (payload : List (PatchEntry V)) (key : HmacKey) (timestamp : JsString) :
    Except JsError (BTR (Option Buffer) (SerializedPayload V)) :=
  if key.isEmpty then thrown "Invalid HMAC key: key must not be empty"
  else do
    let hIn := computeStateHashV5 ports initialState
    let initial ← serializeFullStateV5 ports.stateCodec initialState
    let finalState ← ProvenancePayload.replay payload initialState
    let hOut := computeStateHashV5 ports finalState
    return signed ports.services {
      version := btrVersion
      hIn := .string hIn
      hOut := .string hOut
      initial := some initial
      payload := ProvenancePayload.toJSON payload
      timestamp := .string timestamp
      kappa := .undefined } key

/-! ### States that were embedded and read back -/

/-- The loaded state is the stored one without the counter of `__proto__`. -/
structure ReloadOf (loaded state : WarpStateV5 V) : Prop where
  views : ∀ edges, (loaded.part edges).view = (state.part edges).view
  prop : ∀ key, loaded.prop.get key = state.prop.get key
  births : ∀ key, loaded.edgeBirthEvent.get key = state.edgeBirthEvent.get key
  frontier : ∀ writerId, loaded.observedFrontier.get writerId =
    if writerId = protoKey then none else state.observedFrontier.get writerId

theorem exists_reload {codec : CodecPort (FullStateObject V) Buffer} (hcodec : codec.Inverts) {state : WarpStateV5 V}
    {buffer : Buffer} (hbuffer : serializeFullStateV5 codec state = .ok buffer) :
    ∃ loaded, deserializeFullStateV5 codec (some buffer) = .ok loaded ∧ ReloadOf loaded state := by
  obtain ⟨obj, hobj, -⟩ := bind_ok_iff.mp hbuffer
  obtain ⟨loaded, hloaded, hviews, hprop, hbirths, hfrontier⟩ := reload_fullState hcodec (storable_of_serialize hobj)
  rw [hbuffer] at hloaded
  exact ⟨loaded, hloaded, hviews, hprop, hbirths, hfrontier⟩

theorem ReloadOf.cleanKeys {loaded state : WarpStateV5 V} (h : ReloadOf loaded state) (hstate : CleanKeys state) :
    CleanKeys loaded := by
  have hadds : ∀ edges, (loaded.view.part edges).adds = (state.view.part edges).adds := by
    intro edges
    rw [← WarpStateV5.view_part, ← WarpStateV5.view_part, h.views]
  refine ⟨fun pair hmem => hstate.nodes pair (hadds false ▸ hmem), fun pair hmem => hstate.edges pair (hadds true ▸ hmem),
    fun key hkey => hstate.props key ?_⟩
  rw [← h.prop]
  exact hkey

/-- Replayed from the two states, a payload gives the same but for that counter. -/
theorem ReloadOf.replay {loaded state : WarpStateV5 V} (h : ReloadOf loaded state) (reads : List (ReadPatch V)) :
    (∀ edges, ((reads.foldl applyRead loaded).part edges).view = ((reads.foldl applyRead state).part edges).view) ∧
      (∀ key, (reads.foldl applyRead loaded).prop.get key = (reads.foldl applyRead state).prop.get key) ∧
      (∀ key, (reads.foldl applyRead loaded).edgeBirthEvent.get key =
        (reads.foldl applyRead state).edgeBirthEvent.get key) ∧
      ((∀ writerId, (reads.foldl applyRead loaded).observedFrontier.get writerId =
          (reads.foldl applyRead state).observedFrontier.get writerId) ↔
        state.observedFrontier.level protoKey ≤ (joinAll ReadPatch.effect reads).frontier protoKey) := by
  have hlevel : ∀ start : WarpStateV5 V, ∀ writerId, (reads.foldl applyRead start).observedFrontier.level writerId =
      start.observedFrontier.level writerId ⊔ (joinAll ReadPatch.effect reads).frontier writerId :=
    fun start writerId => congrFun (congrArg StateView.frontier (view_foldl_applyRead reads start)) writerId
  refine ⟨fun edges => ?_, prop_foldl_applyRead_congr reads h.prop, fun key => ?_, ?_⟩
  · rw [WarpStateV5.view_part, WarpStateV5.view_part, view_foldl_applyRead, view_foldl_applyRead, StateView.part_sup,
      StateView.part_sup, ← WarpStateV5.view_part, ← WarpStateV5.view_part, h.views]
  · have hbirths : ∀ start : WarpStateV5 V, (reads.foldl applyRead start).edgeBirthEvent.level key =
        start.edgeBirthEvent.level key ⊔ (joinAll ReadPatch.effect reads).births key :=
      fun start => congrFun (congrArg StateView.births (view_foldl_applyRead reads start)) key
    apply JsMap.get_eq_of_level_eq
    rw [hbirths, hbirths]
    unfold JsMap.level
    rw [h.births]
  · have hproto : loaded.observedFrontier.level protoKey = ⊥ :=
      JsMap.level_of_get_none (by rw [h.frontier, if_pos rfl])
    constructor
    · intro hsame
      have hboth : (reads.foldl applyRead loaded).observedFrontier.level protoKey =
          (reads.foldl applyRead state).observedFrontier.level protoKey := by
        unfold JsMap.level
        rw [hsame]
      rw [hlevel, hlevel, hproto, bot_sup_eq] at hboth
      rw [hboth]
      exact le_sup_left
    · intro hcovered writerId
      apply JsMap.get_eq_of_level_eq
      rw [hlevel, hlevel]
      by_cases hwriter : writerId = protoKey
      · rw [hwriter, hproto, bot_sup_eq, sup_eq_right.mpr hcovered]
      · unfold JsMap.level
        rw [h.frontier, if_neg hwriter]

/-- States with the same sets and registers show the same graph. -/
theorem visibleProjection_congr {a b : WarpStateV5 V} (ha : CleanState a) (hb : CleanState b)
    (hviews : ∀ edges, (a.part edges).view = (b.part edges).view) (hprop : ∀ key, a.prop.get key = b.prop.get key) :
    visibleProjection a = visibleProjection b := by
  have halive : ∀ edges element, orsetContains (a.part edges) element = orsetContains (b.part edges) element :=
    fun edges element => orsetContains_eq_of_view (by rw [hviews])
  have hnodes : ∀ node, orsetContains a.nodeAlive node = orsetContains b.nodeAlive node := halive false
  have hedges : ∀ key, orsetContains a.edgeAlive key = orsetContains b.edgeAlive key := halive true
  refine VisibleProjection.ext ((nodes_eq_iff a b).mpr fun node => ?_) ((edges_eq_iff ha hb).mpr fun edge => ?_)
    ((props_eq_iff ha hb).mpr fun prop => ?_)
  · unfold getNodes
    rw [mem_orsetElements, mem_orsetElements, hnodes]
  · unfold EdgeShown
    simp only [hnodes, hedges]
  · rw [ha.mem_visibleProps, hb.mem_visibleProps, hnodes, hprop]

/-! ### Reachable states -/

theorem filled_deleteDot {set : ORSet} (hfilled : set.Filled) (target : JsString × JsString) :
    (deleteDot set target).Filled := by
  intro element dots hget
  unfold deleteDot at hget
  cases hold : set.entries.get target.1 with
  | none =>
      simp only [hold] at hget
      exact hfilled element dots hget
  | some old =>
      simp only [hold] at hget
      by_cases hsize : (old.delete target.2).size = 0
      · rw [if_pos hsize, JsMap.get_delete] at hget
        split at hget
        · cases hget
        · exact hfilled element dots hget
      · rw [if_neg hsize, JsMap.get_set] at hget
        split at hget
        · cases hget
          rw [JsSet.size_eq_zero_iff] at hsize
          push Not at hsize
          exact hsize
        · exact hfilled element dots hget

theorem filled_orsetCompact {set compacted : ORSet} {vv : VersionVector} (hfilled : set.Filled)
    (h : orsetCompact set vv = .ok compacted) : compacted.Filled := by
  unfold orsetCompact at h
  obtain ⟨targets, -, h⟩ := bind_ok_iff.mp h
  cases h
  exact List.foldlRecOn (motive := ORSet.Filled) targets deleteDot hfilled fun set hset target _ =>
    filled_deleteDot hset target

theorem filled_compacted {state : WarpStateV5 V} {vv : VersionVector} {nodes edges : ORSet}
    (hfilled : state.nodeAlive.Filled ∧ state.edgeAlive.Filled) (hnodes : orsetCompact state.nodeAlive vv = .ok nodes)
    (hedges : orsetCompact state.edgeAlive vv = .ok edges) : nodes.Filled ∧ edges.Filled :=
  ⟨filled_orsetCompact hfilled.1 hnodes, filled_orsetCompact hfilled.2 hedges⟩

/-- No element of a reachable state is kept without a dot. -/
theorem filled_of_reachable {state : WarpStateV5 V} (h : Reachable state) :
    state.nodeAlive.Filled ∧ state.edgeAlive.Filled := by
  induction h with
  | empty => exact ⟨filled_createORSet, filled_createORSet⟩
  | @patch state next seen calls entry hstate hbuilt happly ih =>
      have hreduce : reduceV5From state [entry] = .ok next := by
        unfold reduceV5From
        rw [List.foldlM_cons, happly]
        rfl
      obtain ⟨reads, -, rfl⟩ := reduceV5From_eq_ok_iff.mp hreduce
      exact filled_foldl_applyRead reads _ ih
  | join _ _ iha ihb => exact ⟨filled_orsetJoin iha.1 ihb.1, filled_orsetJoin iha.2 ihb.2⟩
  | collect _ hgc ih =>
      unfold runGC at hgc
      obtain ⟨vv, -, hexecute⟩ := bind_ok_iff.mp hgc
      unfold executeGC at hexecute
      split at hexecute
      · cases hexecute
      · rename_i nodes hnodes
        split at hexecute
        · cases hexecute
        · rename_i edges hedges
          cases hexecute
          exact filled_compacted ih hnodes hedges
  | reload hcodec _ hload ih =>
      unfold reloadCheckpoint at hload
      obtain ⟨stored, hstored, hload⟩ := bind_ok_iff.mp hload
      obtain ⟨buffer, hbuffer, hloaded⟩ := bind_ok_iff.mp hload
      unfold checkpointState at hstored
      obtain ⟨vv, -, hstored⟩ := bind_ok_iff.mp hstored
      obtain ⟨nodes, hnodes, hstored⟩ := bind_ok_iff.mp hstored
      obtain ⟨edges, hedges, hstored⟩ := bind_ok_iff.mp hstored
      cases hstored
      exact filled_of_reload hcodec hbuffer hloaded (filled_compacted ih hnodes hedges)

/-! ### Payloads of builders -/

theorem cleanKeys_replay {payload : List (PatchEntry V)} (hbuilt : ∀ entry ∈ payload, ∃ seen calls,
    BuiltBy seen calls entry.patch) {start final : WarpStateV5 V} (hstart : CleanKeys start)
    (h : reduceV5From start payload = .ok final) : CleanKeys final := by
  induction payload generalizing start with
  | nil =>
      cases h
      exact hstart
  | cons entry rest ih =>
      obtain ⟨next, hnext, hrest⟩ := bind_ok_iff.mp h
      obtain ⟨seen, calls, hentry⟩ := hbuilt entry List.mem_cons_self
      exact ih (fun other hother => hbuilt other (List.mem_cons_of_mem entry hother))
        (cleanKeys_patch hstart hentry hnext) hrest

/-- The context of a built patch is a plain object, which has no key `__proto__`. -/
theorem level_context_of_builtBy {seen : Option (WarpStateV5 V)} {calls : List (BuilderCall V)} {patch : PatchV2 V}
    (hbuilt : BuiltBy seen calls patch) {vv : VersionVector} (h : contextVV patch.context = .ok vv) :
    vv.level protoKey = ⊥ := by
  obtain ⟨start, builder, lamport, -, -, -, hpatch⟩ := hbuilt
  obtain ⟨context, hcontext, hpatch⟩ := bind_ok_iff.mp hpatch
  cases hpatch
  obtain ⟨context', hcontext', hget⟩ := vvSerialize_ok (positive_of_vvSerialize hcontext)
  rw [hcontext, Except.ok.injEq] at hcontext'
  subst hcontext'
  have hpositive : ∀ entry ∈ context.entries, 0 < entry.2 := by
    intro entry hentry
    have hvalue := (context.props.get_eq_some_iff entry.1 entry.2).mpr hentry
    rw [hget] at hvalue
    split at hvalue
    · cases hvalue
    · refine Nat.pos_of_ne_zero fun hzero => positive_of_vvSerialize hcontext entry.1 ?_
      rw [hvalue, hzero]
  rw [contextVV, vvDeserialize_ok hpositive, Except.ok.injEq] at h
  subst h
  have hnone : (JsMap.ofEntries context.entries).get protoKey = none :=
    (JsMap.get_ofEntries_of_perm (List.Perm.refl _) protoKey).trans (PlainObject.noProto context)
  exact JsMap.level_of_get_none hnone

/-- A payload of built patches brings a counter of `__proto__` only as the tick of a patch of that writer. -/
theorem covers_iff {payload : List (PatchEntry V)} (hbuilt : ∀ entry ∈ payload, ∃ seen calls,
    BuiltBy seen calls entry.patch) {reads : List (ReadPatch V)} (hreads : payload.mapM readPatch = .ok reads)
    {vv : VersionVector} (hpositive : vv.Positive) :
    vv.level protoKey ≤ (joinAll ReadPatch.effect reads).frontier protoKey ↔
      ∀ tick, vv.get protoKey = some tick →
        ∃ entry ∈ payload, entry.patch.writer = protoKey ∧ tick ≤ entry.patch.lamport := by
  have hpatch : ∀ tick : Nat, 0 < tick → ∀ entry ∈ payload, ∀ read, readPatch entry = .ok read →
      (WithBot.some tick ≤ read.effect.frontier protoKey ↔
        entry.patch.writer = protoKey ∧ tick ≤ entry.patch.lamport) := by
    intro tick htick entry hentry read hread
    obtain ⟨seen, calls, hcalls⟩ := hbuilt entry hentry
    obtain ⟨events, context, -, hcontext, rfl⟩ := readPatch_eq_ok hread
    rw [frontier_readEffect, Pi.sup_apply, level_context_of_builtBy hcalls hcontext, bot_sup_eq]
    simp only [levelAt, @eq_comm _ protoKey]
    by_cases hwriter : entry.patch.writer = protoKey
    · rw [if_pos hwriter]
      by_cases hlamport : entry.patch.lamport = 0
      · rw [if_pos hlamport, le_bot_iff]
        exact iff_of_false WithBot.coe_ne_bot fun h => by omega
      · rw [if_neg hlamport]
        exact WithBot.coe_le_coe.trans ⟨fun h => ⟨hwriter, h⟩, And.right⟩
    · rw [if_neg hwriter, le_bot_iff]
      exact iff_of_false WithBot.coe_ne_bot fun h => hwriter h.1
  have hprime : ∀ tick : Nat, 0 < tick → (WithBot.some tick ≤ (joinAll ReadPatch.effect reads).frontier protoKey ↔
      ∃ entry ∈ payload, entry.patch.writer = protoKey ∧ tick ≤ entry.patch.lamport) := by
    intro tick htick
    rw [joinAll_prime (P := fun v : StateView => WithBot.some tick ≤ v.frontier protoKey)
      (fun a b => by rw [StateView.sup_frontier, Pi.sup_apply, le_sup_iff])
      (by rw [StateView.bot_frontier, Pi.bot_apply, le_bot_iff]; exact WithBot.coe_ne_bot)]
    constructor
    · rintro ⟨read, hmem, hle⟩
      obtain ⟨entry, hentry, hread⟩ := (mem_of_mapM_ok hreads read).mp hmem
      exact ⟨entry, hentry, (hpatch tick htick entry hentry read hread).mp hle⟩
    · rintro ⟨entry, hentry, hle⟩
      obtain ⟨read, hread⟩ := exists_mapM_ok_iff.mp ⟨reads, hreads⟩ entry hentry
      exact ⟨read, (mem_of_mapM_ok hreads read).mpr ⟨entry, hentry, hread⟩,
        (hpatch tick htick entry hentry read hread).mpr hle⟩
  cases hget : vv.get protoKey with
  | none =>
      rw [JsMap.level_of_get_none hget]
      refine iff_of_true bot_le fun tick htick => ?_
      cases htick
  | some tick =>
      have htick : 0 < tick := Nat.pos_of_ne_zero fun hzero => hpositive protoKey (by rw [hget, hzero])
      rw [JsMap.level_of_get_some hget, hprime tick htick]
      simp only [Option.some.injEq, forall_eq']

/-! ### Records come back -/

/-- The codec inverts its encoding, and bytes are compared. -/
structure BoundaryPorts.Lawful : Prop where
  states : ports.stateCodec.Inverts
  records : ports.recordCodec.Inverts
  bytes : ports.services.ComparesBytes

/-- The record survives its serialization, it verifies with its replay, and the replay gives the state that the
payload gives, under the recorded hash. -/
structure RecordComplete (initialState : WarpStateV5 V) (payload : List (PatchEntry V)) (key : HmacKey)
    (record : BTR (Option Buffer) (SerializedPayload V)) : Prop where
  survives : deserializeBTR ports.services (serializeBTR ports.services record) = .ok record
  verifies : Accepts ports.services (some record.toObject) key true
  replays : ∃ replayed hash final, replayBTR ports.services record = .ok (replayed, hash) ∧
    ProvenancePayload.replay payload initialState = .ok final ∧ record.hOut = .string hash ∧ replayed.Same final

variable {ports}

theorem createBTR_eq_ok {initialState : WarpStateV5 V} {payload : List (PatchEntry V)} {key : HmacKey}
    {timestamp : JsString} {record : BTR (Option Buffer) (SerializedPayload V)}
    (h : createBTR ports initialState payload key timestamp = .ok record) :
    ∃ buffer final fields, serializeFullStateV5 ports.stateCodec initialState = .ok buffer ∧
      reduceV5From initialState payload = .ok final ∧ record = signed ports.services fields key ∧
      fields.version = btrVersion ∧ fields.hOut = .string (computeStateHashV5 ports final) ∧
      fields.initial = some buffer ∧ fields.payload = .patches payload := by
  unfold createBTR at h
  split at h
  · cases h
  obtain ⟨buffer, hbuffer, h⟩ := bind_ok_iff.mp h
  obtain ⟨final, hfinal, h⟩ := bind_ok_iff.mp h
  cases h
  rw [ProvenancePayload.replay_eq] at hfinal
  exact ⟨buffer, final, _, hbuffer, hfinal, rfl, rfl, rfl, rfl, rfl⟩

/-- A record of a reachable state and of patches of builders is complete exactly if the state has no counter of
`__proto__` that the payload does not reach again. -/
theorem recordComplete_iff (hports : ports.Lawful) {initialState : WarpStateV5 V} (hreachable : Reachable initialState)
    {payload : List (PatchEntry V)} (hbuilt : ∀ entry ∈ payload, ∃ seen calls, BuiltBy seen calls entry.patch)
    {key : HmacKey} {timestamp : JsString} {record : BTR (Option Buffer) (SerializedPayload V)}
    (hcreate : createBTR ports initialState payload key timestamp = .ok record) :
    RecordComplete ports initialState payload key record ↔
      ∀ tick, initialState.observedFrontier.get protoKey = some tick →
        ∃ entry ∈ payload, entry.patch.writer = protoKey ∧ tick ≤ entry.patch.lamport := by
  obtain ⟨buffer, final, fields, hbuffer, hfinal, rfl, hversion, hhash, hinitial, hpayload⟩ := createBTR_eq_ok hcreate
  obtain ⟨loaded, hloaded, hreload⟩ := exists_reload hports.states hbuffer
  obtain ⟨reads, hreads, hfold⟩ := reduceV5From_eq_ok_iff.mp hfinal
  have hreplayed : reduceV5From loaded payload = .ok (reads.foldl applyRead loaded) :=
    reduceV5From_eq_ok_iff.mpr ⟨reads, hreads, rfl⟩
  obtain ⟨hviews, hprop, hbirths, hfrontier⟩ := hreload.replay reads
  rw [hfold] at hviews hprop hbirths hfrontier
  -- the two replays show the same graph, so their hashes agree
  have hsameHash : computeStateHashV5 ports (reads.foldl applyRead loaded) = computeStateHashV5 ports final := by
    unfold computeStateHashV5 serializeStateV5
    rw [visibleProjection_congr (cleanKeys_replay hbuilt (hreload.cleanKeys hreachable.cleanKeys) hreplayed).cleanState
      (cleanKeys_replay hbuilt hreachable.cleanKeys hfinal).cleanState hviews hprop]
  have hreplay : replayBTR ports.services (signed ports.services fields key) =
      .ok (reads.foldl applyRead loaded, computeStateHashV5 ports final) := by
    simp only [replayBTR, signed, BoundaryPorts.services, hinitial, hpayload, ProvenancePayload.fromJSON,
      ProvenancePayload.replay_eq, hloaded, hreplayed, hsameHash, bind, Except.bind, pure, Except.pure]
  have hfilled := filled_of_reachable hreachable
  have hloadedFilled := filled_of_reload hports.states hbuffer hloaded hfilled
  have hpositive : initialState.observedFrontier.Positive := by
    obtain ⟨obj, hobj, -⟩ := bind_ok_iff.mp hbuffer
    exact (storable_of_serialize hobj).frontier
  rw [← covers_iff hbuilt hreads hpositive, ← hfrontier]
  constructor
  · rintro ⟨-, -, replayed, hash, final', hrun, hrun', -, hsame⟩
    rw [hreplay, Except.ok.injEq, Prod.mk.injEq] at hrun
    rw [ProvenancePayload.replay_eq, hfinal, Except.ok.injEq] at hrun'
    obtain ⟨rfl, rfl⟩ := hrun
    subst hrun'
    exact hsame.observedFrontier
  · intro hcovered
    refine ⟨?_, ?_, _, _, final, hreplay, ?_, hhash, ?_⟩
    · simp only [deserializeBTR, serializeBTR, BoundaryPorts.services, hports.records _, bind, Except.bind]
      rw [requiredFields_eq_ok_iff.mpr rfl]
      rfl
    · refine (accepts_iff hports.bytes).mpr ⟨_, ⟨rfl, hversion⟩, hexToUint8Array_hmac _ _, fun _ => ?_⟩
      exact ⟨_, _, hreplay, hhash⟩
    · rw [ProvenancePayload.replay_eq, hfinal]
    · have hreplayedFilled := filled_foldl_applyRead reads loaded hloadedFilled
      have hfinalFilled := hfold ▸ filled_foldl_applyRead reads initialState hfilled
      exact ⟨ORSet.Same.of_view_eq hreplayedFilled.1 hfinalFilled.1 (hviews false),
        ORSet.Same.of_view_eq hreplayedFilled.2 hfinalFilled.2 (hviews true), hprop, hcovered, hbirths⟩

namespace Example

/-- A codec that keeps objects as they are, and a hash of the number of nodes. -/
def plainPorts (hmac : HmacKey → BTRObject (Option (FullStateObject Nat)) (SerializedPayload Nat) → List UInt8) :
    BoundaryPorts Nat (FullStateObject Nat) (VisibleProjection Nat)
      (BTRObject (Option (FullStateObject Nat)) (SerializedPayload Nat)) where
  stateCodec := identityCodec
  visibleCodec := plainCodec
  recordCodec := ⟨id, fun obj => .ok (some obj)⟩
  hash projection := hexText 64 projection.nodes.length
  hmac := hmac
  timingSafeEqual a b := a = b
  template value := .ok (toText value.text)

theorem lawful_plainPorts (hmac : HmacKey → BTRObject (Option (FullStateObject Nat)) (SerializedPayload Nat) → List UInt8) :
    (plainPorts hmac).Lawful :=
  ⟨fun _ => rfl, fun _ => rfl, fun _ _ _ => decide_eq_true_iff⟩

def hmac (_ : HmacKey) (_ : BTRObject (Option (FullStateObject Nat)) (SerializedPayload Nat)) : List UInt8 :=
  List.replicate 32 171

def key : HmacKey := .text (js "secret-key")

def timestamp : JsString := js "2025-01-15T12:00:00.000Z"

def addsX (writerId : JsString) : Session Nat := ⟨writerId, 1, true, [.addNode (js "x")], js "aaaa"⟩

def removesX : Session Nat := ⟨js "bob", 2, true, [.removeNode (js "x")], js "bbbb"⟩

/-- The state is the work of a writer named `__proto__`; its record replays without the counter of that writer. -/
theorem replay_loses_tick : ∃ state record, runSessions [addsX protoKey] = some state ∧
    createBTR (plainPorts hmac) state [] key timestamp = .ok record ∧
    ¬ RecordComplete (plainPorts hmac) state [] key record := by
  have hsome : (do
      let state ← runSessions [addsX protoKey]
      let record ← (createBTR (plainPorts hmac) state [] key timestamp).toOption
      let result ← (replayBTR (plainPorts hmac).services record).toOption
      return (result.1.observedFrontier.get protoKey, state.observedFrontier.get protoKey) :
        Option (Option Nat × Option Nat)) = some (none, some 1) := by
    decide +kernel
  simp only [Option.bind_eq_bind, Option.bind_eq_some_iff, Option.pure_def, Option.some.injEq, Prod.mk.injEq] at hsome
  obtain ⟨state, hstate, record, hrecord, ⟨replayed, hash⟩, hreplay, hlost, hkept⟩ := hsome
  refine ⟨state, record, hstate, toOption_eq_some hrecord, fun hcomplete => ?_⟩
  obtain ⟨replayed', hash', final, hreplay', hfinal, -, hsame⟩ := hcomplete.replays
  rw [toOption_eq_some hreplay, Except.ok.injEq, Prod.mk.injEq] at hreplay'
  obtain ⟨rfl, rfl⟩ := hreplay'
  cases hfinal
  have hboth := hsame.observedFrontier protoKey
  rw [hlost, hkept] at hboth
  cases hboth

/-- A record of the node that alice added and of the patch of bob that removes it again. -/
theorem recordComplete_small : ∃ state entry record, runSessions [addsX (js "alice")] = some state ∧
    createBTR (plainPorts hmac) state [entry] key timestamp = .ok record ∧ record.hIn ≠ record.hOut ∧
    RecordComplete (plainPorts hmac) state [entry] key record := by
  have hsome : (do
      let state ← runSessions [addsX (js "alice")]
      let builder ← (removesX.builder state).calls removesX.calls
      let patch ← (builder.toPatch removesX.lamport).toOption
      let record ← (createBTR (plainPorts hmac) state [⟨patch, removesX.sha⟩] key timestamp).toOption
      return (state.observedFrontier.get protoKey, decide (record.hIn = record.hOut)) : Option (Option Nat × Bool)) =
      some (none, false) := by
    decide +kernel
  simp only [Option.bind_eq_bind, Option.bind_eq_some_iff, Option.pure_def, Option.some.injEq, Prod.mk.injEq] at hsome
  obtain ⟨state, hstate, builder, hcalls, patch, hpatch, record, hrecord, hnone, hdiffer⟩ := hsome
  have hbuilt : BuiltBy (removesX.builder state).snapshotState removesX.calls patch :=
    ⟨removesX.builder state, builder, removesX.lamport, ⟨rfl, rfl, rfl, rfl⟩, rfl, hcalls, toOption_eq_some hpatch⟩
  refine ⟨state, ⟨patch, removesX.sha⟩, record, hstate, toOption_eq_some hrecord, of_decide_eq_false hdiffer,
    (recordComplete_iff (lawful_plainPorts hmac) (reachable_of_sessions hstate) (fun entry hentry => ?_)
      (toOption_eq_some hrecord)).mpr fun tick htick => ?_⟩
  · cases List.mem_singleton.mp hentry
    exact ⟨_, _, hbuilt⟩
  · rw [hnone] at htick
    cases htick

end Example

end Boundary

end GitWarp
