import GitWarp.GraphCheckpoints
import GitWarp.SyncFrontiers
import GitWarp.SyncReplicas

/-! Checkpoints of a state that came in through sync responses. The schema of a response and the checks of the
reducer let through dots that cannot be decoded, counters that cannot be stored, and a writer named
`__proto__`; without these, the state is stored and comes back the same. -/

namespace GitWarp
open Js ExceptLoops

variable {V Buffer : Type}

/-! ### Responses and their schema -/

structure SyncPayloadLimits where
  maxWritersInFrontier : Nat
  maxPatches : Nat
  maxOpsPerPatch : Nat
  maxStringBytes : Nat

def defaultLimits : SyncPayloadLimits := ⟨10000, 100000, 50000, 4096⟩

/-- `frontierSchema` -/
def frontierSchema (limits : SyncPayloadLimits) (frontier : PlainObject Sha) : Bool :=
  (frontier.entries.all fun entry => entry.1.length ≤ 256) &&
    frontier.entries.length ≤ limits.maxWritersInFrontier

/-- `patchSchema`; ticks are not negative by their type. -/
def patchSchema (limits : SyncPayloadLimits) (patch : PatchV2 V) : Bool :=
  1 ≤ patch.schema && patch.writer.length ≤ limits.maxStringBytes && patch.ops.length ≤ limits.maxOpsPerPatch

/-- `patchEntrySchema` -/
def patchEntrySchema (limits : SyncPayloadLimits) (entry : SyncPatch V) : Bool :=
  entry.writerId.length ≤ limits.maxStringBytes && patchSchema limits entry.patch

/-- `validateSyncResponse(payload, limits).ok` -/
def validateSyncResponse (limits : SyncPayloadLimits) (response : SyncResponse V) : Bool :=
  frontierSchema limits response.frontier && response.patches.all (patchEntrySchema limits) &&
    response.patches.length ≤ limits.maxPatches

/-- Responses applied one after the other, from the empty state. -/
def applySyncResponses (responses : List (SyncResponse V)) : Except JsError (ApplySyncResult V) :=
  responses.foldlM (fun result response => applySyncResponse response.patches result.state result.frontier)
    ⟨createEmptyStateV5, JsMap.empty, 0⟩

/-! ### When a state can be checkpointed -/

theorem decodeDot_encodeDot_iff (dot : Dot) :
    (∃ decoded, decodeDot (encodeDot dot) = .ok decoded) ↔ dot.Valid := by
  constructor
  · rintro ⟨decoded, h⟩
    rw [decodeDot, splitAtLast_encodeDot] at h
    simp only [parseInt_decimalInt] at h
    split at h
    · cases h
    · rename_i hwriter
      split at h
      · cases h
      · rename_i hcounter
        exact ⟨hwriter, not_le.mp hcounter⟩
  · exact fun h => ⟨dot, decodeDot_encodeDot h⟩

theorem filled_orsetDeserialize {set : ORSet} (hfilled : set.Filled) {obj : ORSetObject}
    (h : orsetSerialize set = .ok obj) : (orsetDeserialize obj).Filled := by
  unfold orsetSerialize at h
  cases hentries : set.entries.entries.mapM (fun entry =>
      (do return (entry.1, ← sortedDots entry.2.elems) : Except JsError _)) with
  | error err => rw [hentries] at h; cases h
  | ok array =>
      rw [hentries] at h
      cases htombs : sortedDots set.tombstones.elems with
      | error err => rw [htombs] at h; cases h
      | ok tombs =>
          rw [htombs] at h
          cases h
          intro element dots hget
          obtain ⟨⟨e, ds⟩, hmem, heq⟩ := List.mem_map.mp (JsMap.mem_of_get_ofEntries hget)
          cases heq
          rw [Option.getD_some, List.mem_insertionSort, mem_of_mapM_ok hentries] at hmem
          obtain ⟨⟨e', dots⟩, hentry, hds⟩ := hmem
          cases hsorted : sortedDots dots.elems with
          | error err => rw [hsorted] at hds; cases hds
          | ok sorted =>
              rw [hsorted] at hds
              cases hds
              obtain ⟨d, hd⟩ := hfilled e' dots ((JsMap.get_eq_some_iff _ _ _).mpr hentry)
              exact ⟨d, (JsSet.mem_ofList _ _).mpr ((mem_sortedDots hsorted d).mpr hd)⟩

/-- What is loaded has no empty entries if the state had none. -/
theorem filled_of_reload {codec : CodecPort (FullStateObject V) Buffer} (hcodec : codec.Inverts)
    {state loaded : WarpStateV5 V} {buffer : Buffer} (hbuffer : serializeFullStateV5 codec state = .ok buffer)
    (hloaded : deserializeFullStateV5 codec (some buffer) = .ok loaded)
    (hfilled : state.nodeAlive.Filled ∧ state.edgeAlive.Filled) :
    loaded.nodeAlive.Filled ∧ loaded.edgeAlive.Filled := by
  unfold serializeFullStateV5 fullStateObject at hbuffer
  cases hnodes : orsetSerialize state.nodeAlive with
  | error err => rw [hnodes] at hbuffer; cases hbuffer
  | ok nodes =>
      cases hedges : orsetSerialize state.edgeAlive with
      | error err => simp only [hnodes, hedges, bind, Except.bind] at hbuffer; cases hbuffer
      | ok edges =>
          cases hfrontier : vvSerialize state.observedFrontier with
          | error err => simp only [hnodes, hedges, hfrontier, bind, Except.bind] at hbuffer; cases hbuffer
          | ok frontier =>
              simp only [hnodes, hedges, hfrontier, bind, Except.bind, pure, Except.pure,
                Except.ok.injEq] at hbuffer
              subst hbuffer
              simp only [deserializeFullStateV5, hcodec _, bind, Except.bind, stateOfObject, ne_eq,
                not_true_eq_false, if_false, pure, Except.pure] at hloaded
              split at hloaded
              · cases hloaded
              · cases hloaded
                exact ⟨filled_orsetDeserialize hfilled.1 hnodes, filled_orsetDeserialize hfilled.2 hedges⟩

/-- A state without empty entries, whose frontier is kept apart, is given back if its dots can be decoded. -/
theorem exists_restored {state : WarpStateV5 V} (hfilled : state.nodeAlive.Filled ∧ state.edgeAlive.Filled)
    (hapart : state.observedFrontier = createVersionVector) (hdots : ∀ edges, (state.part edges).Decodable) :
    ∃ obj loaded, fullStateObject state = .ok obj ∧ stateOfObject obj = .ok loaded ∧ loaded.Same state := by
  have hstorable : state.Storable := ⟨hdots, hapart ▸ nofun⟩
  obtain ⟨loaded, hloaded, hviews, hprop, hbirths, hfrontier⟩ :=
    reload_fullState (show identityCodec.Inverts from fun _ => rfl) hstorable
  cases hobj : fullStateObject state with
  | error err =>
      rw [serializeFullStateV5, hobj] at hloaded
      cases hloaded
  | ok obj =>
      have hbuffer : serializeFullStateV5 identityCodec state = .ok obj := by
        rw [serializeFullStateV5, hobj]
        rfl
      rw [hbuffer] at hloaded
      have hparts := filled_of_reload (show identityCodec.Inverts from fun _ => rfl) hbuffer hloaded hfilled
      refine ⟨obj, loaded, rfl, hloaded, ⟨?_, ?_, hprop, fun writerId => ?_, hbirths⟩⟩
      · exact ORSet.Same.of_view_eq hparts.1 hfilled.1 (hviews false)
      · exact ORSet.Same.of_view_eq hparts.2 hfilled.2 (hviews true)
      · rw [hfrontier, hapart]
        exact ite_self _

/-! ### What the responses leave in the state -/

namespace WarpStateV5.IsReplayOf

variable {S : PatchEntry V → Prop} {state : WarpStateV5 V}

/-- Applying a response replays its patches on top. -/
theorem response (h : state.IsReplayOf S) {patches : List (SyncPatch V)} {frontier : Frontier}
    {result : ApplySyncResult V} (hresult : GitWarp.applySyncResponse patches state frontier = .ok result) :
    result.state.IsReplayOf fun entry => S entry ∨ ∃ p ∈ patches, entry = ⟨p.patch, p.sha⟩ := by
  obtain ⟨reads, hreads, hreadable, rfl⟩ := h
  obtain ⟨applied, happlied, hstate⟩ := applySyncResponse_state hresult
  refine ⟨reads ++ applied, fun read => ?_, ?_, by rw [hstate, List.foldl_append]⟩
  · rw [List.mem_append, hreads, mem_of_mapM_ok happlied]
    simp only [mem_appliedOrder, or_and_right, exists_or]
  · rintro entry (hentry | hentry)
    · exact hreadable entry hentry
    · exact exists_mapM_ok_iff.mp ⟨applied, happlied⟩ entry ((mem_appliedOrder patches entry).mpr hentry)

theorem filled (h : state.IsReplayOf S) : state.nodeAlive.Filled ∧ state.edgeAlive.Filled := by
  obtain ⟨reads, -, -, rfl⟩ := h
  exact filled_foldl_applyRead reads createEmptyStateV5 ⟨filled_createORSet, filled_createORSet⟩

/-- A replay has what its patches have, for whatever a join has exactly if one side has it. -/
theorem view_prime (h : state.IsReplayOf S) {P : StateView → Prop} (hsup : ∀ a b, P (a ⊔ b) ↔ P a ∨ P b)
    (hbot : ¬ P ⊥) :
    P state.view ↔ ∃ entry read, S entry ∧ readPatch entry = .ok read ∧ P read.effect := by
  obtain ⟨reads, hreads, hreadable, rfl⟩ := h
  rw [view_foldl_applyRead, view_createEmptyStateV5, bot_sup_eq, joinAll_prime hsup hbot]
  constructor
  · rintro ⟨read, hread, hP⟩
    obtain ⟨entry, hentry, hok⟩ := (hreads read).mp hread
    exact ⟨entry, read, hentry, hok, hP⟩
  · rintro ⟨entry, read, hentry, hok, hP⟩
    exact ⟨read, (hreads read).mpr ⟨entry, hentry, hok⟩, hP⟩

theorem exists_read (h : state.IsReplayOf S) {entry : PatchEntry V} (hentry : S entry) :
    ∃ read, readPatch entry = .ok read := by
  obtain ⟨-, -, hreadable, -⟩ := h
  exact hreadable entry hentry

theorem mem_adds (h : state.IsReplayOf S) (edges : Bool) (pair : JsString × JsString) :
    pair ∈ (state.view.part edges).adds ↔ ∃ entry, S entry ∧ entry.Adds edges pair := by
  rw [h.view_prime (P := fun v => pair ∈ (v.part edges).adds)
    (fun a b => by rw [StateView.part_sup, AddWins.mem_adds_sup]) (by rw [StateView.part_bot]; exact AddWins.not_mem_adds_bot pair)]
  constructor
  · rintro ⟨entry, read, hentry, hok, hmem⟩
    exact ⟨entry, hentry, (mem_adds_effect_of_readPatch hok edges pair).mp hmem⟩
  · rintro ⟨entry, hentry, hadds⟩
    obtain ⟨read, hok⟩ := h.exists_read hentry
    exact ⟨entry, read, hentry, hok, (mem_adds_effect_of_readPatch hok edges pair).mpr hadds⟩

theorem mem_tombs (h : state.IsReplayOf S) (edges : Bool) (encoded : JsString) :
    encoded ∈ (state.view.part edges).tombs ↔ ∃ entry, S entry ∧ entry.Removes edges encoded := by
  rw [h.view_prime (P := fun v => encoded ∈ (v.part edges).tombs)
    (fun a b => by rw [StateView.part_sup, AddWins.mem_tombs_sup]) (by rw [StateView.part_bot]; exact AddWins.not_mem_tombs_bot encoded)]
  constructor
  · rintro ⟨entry, read, hentry, hok, hmem⟩
    exact ⟨entry, hentry, (mem_tombs_effect_of_readPatch hok edges encoded).mp hmem⟩
  · rintro ⟨entry, hentry, hremoves⟩
    obtain ⟨read, hok⟩ := h.exists_read hentry
    exact ⟨entry, read, hentry, hok, (mem_tombs_effect_of_readPatch hok edges encoded).mpr hremoves⟩

end WarpStateV5.IsReplayOf

theorem mem_observedDots_iff (op : OpV2 V) (encoded : JsString) :
    encoded ∈ op.observedDots ↔ ∃ edges, encoded ∈ op.removedDots edges := by
  cases op <;> simp [OpV2.observedDots, OpV2.removedDots]

section Replay

variable {S : PatchEntry V → Prop} {state : WarpStateV5 V} (h : state.IsReplayOf S)

include h

theorem decodable_iff : (∀ edges, (state.part edges).Decodable) ↔
    (∀ entry, S entry → ∀ op ∈ entry.patch.ops, ∀ dot, op.addDot = some dot → dot.Valid) ∧
      ∀ entry, S entry → ∀ op ∈ entry.patch.ops, ∀ encoded ∈ op.observedDots,
        ∃ dot, decodeDot encoded = .ok dot := by
  have hadds : (∀ edges element, ∀ encoded ∈ (state.part edges).dotsOf element,
      ∃ dot, decodeDot encoded = .ok dot) ↔
        ∀ entry, S entry → ∀ op ∈ entry.patch.ops, ∀ dot, op.addDot = some dot → dot.Valid := by
    constructor
    · intro hdots entry hentry op hop dot hdot
      obtain ⟨edges, element, hpair⟩ : ∃ edges element, op.addPair edges = some (element, encodeDot dot) := by
        cases op <;> cases hdot
        · exact ⟨false, _, rfl⟩
        · exact ⟨true, _, rfl⟩
      refine (decodeDot_encodeDot_iff dot).mp (hdots edges element _ ?_)
      rw [← ORSet.mem_adds_view, state.view_part, h.mem_adds]
      exact ⟨entry, hentry, op, hop, hpair⟩
    · intro hvalid edges element encoded hmem
      rw [← ORSet.mem_adds_view, state.view_part, h.mem_adds] at hmem
      obtain ⟨entry, hentry, op, hop, hpair⟩ := hmem
      obtain ⟨dot, hdot, hencoded⟩ := addPair_dot hpair
      subst hencoded
      exact (decodeDot_encodeDot_iff dot).mpr (hvalid entry hentry op hop dot hdot)
  have htombs : (∀ edges, ∀ encoded ∈ (state.part edges).tombstones, ∃ dot, decodeDot encoded = .ok dot) ↔
      ∀ entry, S entry → ∀ op ∈ entry.patch.ops, ∀ encoded ∈ op.observedDots,
        ∃ dot, decodeDot encoded = .ok dot := by
    constructor
    · intro hdots entry hentry op hop encoded hencoded
      obtain ⟨edges, hremoved⟩ := (mem_observedDots_iff op encoded).mp hencoded
      refine hdots edges encoded ?_
      rw [← ORSet.mem_tombs_view, state.view_part, h.mem_tombs]
      exact ⟨entry, hentry, op, hop, hremoved⟩
    · intro hdecodes edges encoded hmem
      rw [← ORSet.mem_tombs_view, state.view_part, h.mem_tombs] at hmem
      obtain ⟨entry, hentry, op, hop, hremoved⟩ := hmem
      exact hdecodes entry hentry op hop encoded ((mem_observedDots_iff op encoded).mpr ⟨edges, hremoved⟩)
  rw [← hadds, ← htombs]
  exact ⟨fun hall => ⟨fun edges => (hall edges).1, fun edges => (hall edges).2⟩,
    fun hall edges => ⟨hall.1 edges, hall.2 edges⟩⟩

end Replay

theorem isReplayOf_empty : (createEmptyStateV5 : WarpStateV5 V).IsReplayOf fun _ => False :=
  ⟨[], fun _ => ⟨nofun, fun ⟨_, h, _⟩ => h.elim⟩, fun _ h => h.elim, rfl⟩

/-- The state that responses lead to is a replay of all their patches. -/
theorem isReplayOf_applySyncResponses {responses : List (SyncResponse V)} {result : ApplySyncResult V}
    (h : applySyncResponses responses = .ok result) :
    result.state.IsReplayOf fun entry =>
      ∃ p ∈ responses.flatMap SyncResponse.patches, entry = ⟨p.patch, p.sha⟩ := by
  have hloop : ∀ (responses : List (SyncResponse V)) (start : ApplySyncResult V) (S : PatchEntry V → Prop),
      start.state.IsReplayOf S →
      responses.foldlM (fun result response =>
        applySyncResponse response.patches result.state result.frontier) start = .ok result →
      result.state.IsReplayOf fun entry =>
        S entry ∨ ∃ p ∈ responses.flatMap SyncResponse.patches, entry = ⟨p.patch, p.sha⟩ := by
    intro responses
    induction responses with
    | nil =>
        intro start S hstart hok
        cases hok
        exact hstart.congr fun entry => by simp
    | cons response rest ih =>
        intro start S hstart hok
        rw [List.foldlM_cons] at hok
        cases hfirst : applySyncResponse response.patches start.state start.frontier with
        | error err => rw [hfirst] at hok; cases hok
        | ok middle =>
            rw [hfirst] at hok
            refine (ih middle _ (hstart.response hfirst) hok).congr fun entry => ?_
            simp only [List.flatMap_cons, List.mem_append, or_and_right, exists_or, or_assoc]
  exact (hloop responses _ _ isReplayOf_empty h).congr fun entry => by simp

/-! ### Responses as they arrive -/

structure WireEntry (V : Type) where
  writerId : JsString
  sha : JsString
  patch : WirePatch V

structure WireResponse (V : Type) where
  frontier : PlainObject Sha
  patches : List (WireEntry V)

/-- `patchSchema` of a patch that may lack fields. -/
def WirePatch.passes (limits : SyncPayloadLimits) (patch : WirePatch V) : Bool :=
  patch.schema.all (1 ≤ ·) && patch.writer.all (fun writer => writer.length ≤ limits.maxStringBytes) &&
    patch.ops.length ≤ limits.maxOpsPerPatch

/-- `validateSyncResponse(payload, limits).ok` of such patches. -/
def WireResponse.passes (limits : SyncPayloadLimits) (response : WireResponse V) : Bool :=
  frontierSchema limits response.frontier &&
    response.patches.all (fun entry => entry.writerId.length ≤ limits.maxStringBytes && entry.patch.passes limits) &&
    response.patches.length ≤ limits.maxPatches

/-- The patch as its operations are applied: `createEventId` refuses a missing writer or tick as it refuses an empty
writer or the tick 0. No operation reads the frontier, so the context is left to `updateFrontier`. -/
def WirePatch.read (patch : WirePatch V) : PatchV2 V where
  schema := patch.schema.getD 1
  writer := patch.writer.getD []
  lamport := patch.lamport.getD 0
  context := .record []
  ops := patch.ops

def WireResponse.read (response : WireResponse V) : SyncResponse V :=
  ⟨response.frontier, response.patches.map fun entry => ⟨entry.writerId, entry.sha, entry.patch.read⟩, []⟩

/-- The patches in the order in which they are applied: by writer, writers in the order of their first patch. -/
def WireResponse.applied (response : WireResponse V) : List (WirePatch V) :=
  (response.patches.foldl (fun groups entry =>
    groups.set entry.writerId ((groups.get entry.writerId).getD [] ++ [entry.patch])) JsMap.empty).entries.flatMap
    Prod.snd

/-- A state with its frontier kept apart. -/
structure WireState (V : Type) where
  state : WarpStateV5 V
  frontier : WireFrontier

/-- Responses applied one after the other, from the empty state. -/
def applyWireResponses (responses : List (WireResponse V)) : Except JsError (WireState V × Frontier) := do
  let result ← applySyncResponses (responses.map WireResponse.read)
  let frontier ← (responses.flatMap WireResponse.applied).foldlM (fun frontier patch => patch.updateFrontier frontier)
    JsMap.empty
  return (⟨{ result.state with observedFrontier := createVersionVector }, frontier⟩, result.frontier)

/-- The object that is encoded, with its frontier kept apart. -/
structure WireStateObject (V : Type) where
  state : FullStateObject V
  observedFrontier : List (JsString × JsNumber)

/-- `stateOfObject` -/
def WireStateObject.read (obj : WireStateObject V) : Except JsError (WarpStateV5 V) := do
  let state ← stateOfObject obj.state
  let observedFrontier ← WireFrontier.vvDeserialize obj.observedFrontier
  return { state with observedFrontier := observedFrontier }

namespace WireState

def serializeFullStateV5 (codec : CodecPort (WireStateObject V) Buffer) (wire : WireState V) :
    Except JsError Buffer := do
  let state ← fullStateObject wire.state
  let observedFrontier ← wire.frontier.vvSerialize
  return codec.encode ⟨state, observedFrontier.entries⟩

def deserializeFullStateV5 (codec : CodecPort (WireStateObject V) Buffer) (buffer : Buffer) :
    Except JsError (WarpStateV5 V) := do
  match ← codec.decode buffer with
  | none => return createEmptyStateV5
  | some obj => obj.read

/-- The checkpoint code does not throw on the state, and gives it back. -/
structure Checkpointable (codec : CodecPort (WireStateObject V) Buffer) (wire : WireState V) : Prop where
  applied : ∃ vv, computeAppliedVV wire.state = .ok vv
  restored : ∃ buffer loaded, wire.serializeFullStateV5 codec = .ok buffer ∧
    deserializeFullStateV5 codec buffer = .ok loaded ∧
    { loaded with observedFrontier := createVersionVector }.Same wire.state ∧ wire.frontier.Same loaded.observedFrontier

end WireState

/-- The dots of the patches can be decoded. What they count, by their contexts or by ticks above zero, are counters of
strings other than `__proto__`, and for each the greatest number since the last NaN is a positive whole number. -/
structure StorableResponses (responses : List (WireResponse V)) : Prop where
  adds : ∀ entry ∈ responses.flatMap WireResponse.patches, ∀ op ∈ entry.patch.ops, ∀ dot,
    op.addDot = some dot → dot.Valid
  removes : ∀ entry ∈ responses.flatMap WireResponse.patches, ∀ op ∈ entry.patch.ops, ∀ encoded ∈ op.observedDots,
    ∃ dot, decodeDot encoded = .ok dot
  counted : ∀ key, ((responses.flatMap WireResponse.applied).flatMap fun patch => patch.counters key) ≠ [] →
    (∃ writerId, key = .named writerId ∧ writerId ≠ protoKey) ∧
      JsNumber.CountsWhole ((responses.flatMap WireResponse.applied).flatMap fun patch => patch.counters key)

/-- The two parts of a state are given back one by one. -/
theorem WireState.checkpointable_iff_parts {codec : CodecPort (WireStateObject V) Buffer} (hcodec : codec.Inverts)
    {wire : WireState V} (hfilled : wire.state.nodeAlive.Filled ∧ wire.state.edgeAlive.Filled)
    (hapart : wire.state.observedFrontier = createVersionVector) :
    wire.Checkpointable codec ↔ (∀ edges, (wire.state.part edges).Decodable) ∧ wire.frontier.Storable := by
  constructor
  · rintro ⟨-, buffer, loaded, hbuffer, hloaded, hsame, hfrontier⟩
    obtain ⟨obj, hobj, hrest⟩ := bind_ok_iff.mp hbuffer
    obtain ⟨counters, hcounters, hencoded⟩ := bind_ok_iff.mp hrest
    cases hencoded
    rw [deserializeFullStateV5, hcodec] at hloaded
    obtain ⟨state, -, hread⟩ := bind_ok_iff.mp (show WireStateObject.read _ = _ from hloaded)
    obtain ⟨vv, hvv, heq⟩ := bind_ok_iff.mp hread
    cases heq
    exact ⟨(storable_of_serialize hobj).dots, wire.frontier.restored_iff.mp ⟨counters, vv, hcounters, hvv, hfrontier⟩⟩
  · rintro ⟨hdots, hstorable⟩
    obtain ⟨obj, loaded, hobj, hloaded, hsame⟩ := exists_restored hfilled hapart hdots
    obtain ⟨counters, vv, hcounters, hvv, hfrontier⟩ := wire.frontier.restored_iff.mpr hstorable
    refine ⟨exists_computeAppliedVV_ok hdots, codec.encode ⟨obj, counters.entries⟩,
      { loaded with observedFrontier := vv }, ?_, ?_, ?_, hfrontier⟩
    · rw [serializeFullStateV5, hobj, hcounters]
      rfl
    · rw [deserializeFullStateV5, hcodec]
      show WireStateObject.read _ = _
      rw [WireStateObject.read, hloaded]
      show Except.bind (WireFrontier.vvDeserialize counters.entries) _ = _
      rw [hvv]
      rfl
    · exact ⟨hsame.nodeAlive, hsame.edgeAlive, hsame.prop, fun writerId => by rw [hapart], hsame.edgeBirthEvent⟩

/-- A state that came in through sync responses can be checkpointed exactly if their patches can be stored. -/
theorem checkpointable_iff (codec : CodecPort (WireStateObject V) Buffer) (responses : List (WireResponse V))
    (wire : WireState V) (frontier : Frontier) (hcodec : codec.Inverts)
    (happlied : applyWireResponses responses = .ok (wire, frontier)) :
    wire.Checkpointable codec ↔ StorableResponses responses := by
  obtain ⟨result, hresult, hrest⟩ := bind_ok_iff.mp happlied
  obtain ⟨counted, hcounted, heq⟩ := bind_ok_iff.mp hrest
  cases heq
  have hreplay := isReplayOf_applySyncResponses hresult
  have hpatches : (responses.map WireResponse.read).flatMap SyncResponse.patches =
      (responses.flatMap WireResponse.patches).map fun entry => ⟨entry.writerId, entry.sha, entry.patch.read⟩ := by
    rw [List.flatMap_map, List.map_flatMap]
    rfl
  have hentries : ∀ P : PatchEntry V → Prop,
      (∀ entry, (∃ p ∈ (responses.map WireResponse.read).flatMap SyncResponse.patches, entry = ⟨p.patch, p.sha⟩) →
        P entry) ↔ ∀ entry ∈ responses.flatMap WireResponse.patches, P ⟨entry.patch.read, entry.sha⟩ := by
    intro P
    rw [hpatches]
    constructor
    · exact fun h entry hentry => h _ ⟨_, List.mem_map_of_mem hentry, rfl⟩
    · rintro h entry ⟨p, hp, rfl⟩
      obtain ⟨sent, hsent, rfl⟩ := List.mem_map.mp hp
      exact h sent hsent
  have hdots := decodable_iff hreplay
  rw [hentries, hentries] at hdots
  rw [WireState.checkpointable_iff_parts hcodec hreplay.filled rfl, WirePatch.storable_iff hcounted]
  constructor
  · rintro ⟨hdecodable, hcounts⟩
    obtain ⟨hadds, hremoves⟩ := hdots.mp hdecodable
    exact ⟨hadds, hremoves, hcounts⟩
  · rintro ⟨hadds, hremoves, hcounts⟩
    exact ⟨hdots.mpr ⟨hadds, hremoves⟩, hcounts⟩

/-- A codec that gives back the very object. -/
def wireCodec : CodecPort (WireStateObject V) (WireStateObject V) := ⟨id, fun obj => .ok (some obj)⟩

/-- A response with one patch of a chain of the writer `w`. -/
def singleResponse (patch : WirePatch Nat) : WireResponse Nat := ⟨PlainObject.empty, [⟨js "w", js "aaaa", patch⟩]⟩

/-- A context that arrives as a `Map` and counts the writer `w`. -/
def mapContext (counter : JsNumber) : WireContext := .map (JsMap.empty.set (.named (js "w")) counter)

/-- Adds a node and removes it again, in a context that does not count. -/
def addAndRemove : WirePatch Nat :=
  ⟨some 2, some (js "w"), some 1, some (mapContext .nan),
    [.nodeAdd (js "n") ⟨js "w", 1⟩, .nodeRemove (some (js "n")) [js "w:1"]]⟩

/-- Removes a dot that is none. -/
def removeGarbage : WirePatch Nat := ⟨some 2, some (js "w"), some 1, none, [.nodeRemove (some (js "n")) [js "x"]]⟩

/-- Adds a node under a dot that counts zero. -/
def addUncounted : WirePatch Nat := ⟨some 2, some (js "w"), some 1, none, [.nodeAdd (js "n") ⟨js "w", 0⟩]⟩

/-- A property written by `__proto__`. -/
def writtenByProto : WirePatch Nat := ⟨some 2, some protoKey, some 1, none, [.propSet (js "n") (js "k") (some 1)]⟩

/-- A tick without a writer. -/
def writtenByNobody : WirePatch Nat := ⟨none, none, some 1, none, []⟩

/-- A context that counts to infinity. -/
def countedForever : WirePatch Nat := ⟨some 2, some (js "w"), some 1, some (mapContext (.infinite false)), []⟩

theorem checkpointable_addAndRemove : ∃ wire frontier,
    applyWireResponses [singleResponse addAndRemove] = .ok (wire, frontier) ∧ wire.Checkpointable wireCodec := by
  obtain ⟨wire, frontier, hwire⟩ :
    ∃ wire frontier, applyWireResponses [singleResponse addAndRemove] = .ok (wire, frontier) := ⟨_, _, rfl⟩
  refine ⟨wire, frontier, hwire, (checkpointable_iff wireCodec [singleResponse addAndRemove] wire frontier
    (fun _ => rfl) hwire).mpr ⟨?_, ?_, ?_⟩⟩
  · intro entry hentry op hop dot hdot
    cases List.mem_singleton.mp hentry
    rcases List.mem_pair.mp hop with rfl | rfl
    · cases hdot
      decide
    · cases hdot
  · intro entry hentry op hop encoded hencoded
    cases List.mem_singleton.mp hentry
    rcases List.mem_pair.mp hop with rfl | rfl
    · cases hencoded
    · cases List.mem_singleton.mp hencoded
      exact ⟨⟨js "w", 1⟩, by decide⟩
  · intro key hcounted
    by_cases hkey : key = .named (js "w")
    · subst hkey
      exact ⟨⟨js "w", rfl, by decide⟩, 1, Nat.one_pos, by decide +kernel, by decide +kernel⟩
    · have hcontext : ((JsMap.empty.set (.named (js "w")) .nan : WireFrontier).get key).toList = [] := by
        rw [JsMap.get_set_of_ne _ _ hkey]
        rfl
      have htick : addAndRemove.tickUnder key = [] := if_neg fun h => hkey h.1
      refine absurd ?_ hcounted
      show (_ ++ addAndRemove.tickUnder key) ++ [] = []
      rw [htick, List.append_nil, List.append_nil]
      exact hcontext

/-- Every check lets the patch through, and the state that it leads to has no checkpoint. -/
def SlipsThrough (patch : WirePatch Nat) : Prop :=
  (singleResponse patch).passes defaultLimits = true ∧ ∃ wire frontier,
    applyWireResponses [singleResponse patch] = .ok (wire, frontier) ∧ ¬ wire.Checkpointable wireCodec

theorem not_checkpointable_accepted :
    SlipsThrough removeGarbage ∧ SlipsThrough addUncounted ∧ SlipsThrough writtenByProto ∧
      SlipsThrough writtenByNobody ∧ SlipsThrough countedForever := by
  refine ⟨⟨by decide, _, _, rfl, ?_⟩, ⟨by decide, _, _, rfl, ?_⟩, ⟨by decide, _, _, rfl, ?_⟩,
    ⟨by decide, _, _, rfl, ?_⟩, by decide, _, _, rfl, ?_⟩
  · rintro ⟨-, buffer, loaded, hbuffer, -⟩
    cases hbuffer
  · rintro ⟨-, buffer, loaded, hbuffer, -⟩
    cases hbuffer
  · rintro ⟨-, buffer, loaded, hbuffer, hloaded, -, hfrontier⟩
    cases hbuffer
    cases hloaded
    cases hfrontier (.named protoKey)
  · rintro ⟨-, buffer, loaded, -, -, -, hfrontier⟩
    cases hfrontier .undefined
  · rintro ⟨-, buffer, loaded, hbuffer, hloaded, -⟩
    cases hbuffer
    cases hloaded

end GitWarp
