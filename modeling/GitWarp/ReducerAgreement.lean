import GitWarp.ReducerUntyped

/-! The three reducers on one patch. Whether they accept its operations is the same question for all of them, and
where they do they return one state; but the receipt is checked at the end, and an operation whose target is no
string, or an empty one, fails there alone. -/

namespace GitWarp.Untyped
open Js JsValue ExceptLoops

variable (L : Language)

/-- The reducers all throw, or all return the same state. -/
def ReducersAgree (state : UntypedState) (patch : UntypedPatch) (patchSha : JsString) : Prop :=
  ((∃ err, applyFast L state patch patchSha = .error err) ∧
      (∃ err, applyWithDiff L state patch patchSha = .error err) ∧
      ∃ err, applyWithReceipt L state patch patchSha = .error err) ∨
    ∃ next, applyFast L state patch patchSha = .ok next ∧
      (applyWithDiff L state patch patchSha).map Prod.fst = .ok next ∧
      (applyWithReceipt L state patch patchSha).map Prod.fst = .ok next

/-! ### Reading an operation -/

/-- An operation after all its checks, and what is applied for it. -/
def readRawOp (raw : JsValue) : Except JsError (CheckedOp × OpV2 JsValue) := do
  let checked ← validateOp L (← normalizeRawOp raw)
  return (checked, ← checked.typed L)

def readOp (patch : UntypedPatch) (patchSha : JsString) (item : JsValue × Nat) :
    Except JsError ((CheckedOp × OpV2 JsValue) × EventId) := do
  let read ← readRawOp L item.1
  return (read, ← patch.createEventId patchSha item.2)

/-- The state after an operation that was read. -/
def applyReadOp (state : UntypedState) (read : (CheckedOp × OpV2 JsValue) × EventId) : UntypedState :=
  ⟨applyEvent state.state (read.1.2, read.2), state.nodeStrays ++ read.1.1.nodeStrays,
    state.edgeStrays ++ read.1.1.edgeStrays⟩

variable {L}

theorem type_of_checkFields {type : JsString} {op : JsValue} {node key : JsString} {value : JsValue}
    (h : checkFields L type op = .ok (.propSet node key value)) : type = js "PropSet" := by
  unfold checkFields at h
  by_contra hne
  simp only [if_neg hne] at h
  repeat' split at h
  all_goals
    simp only [bind_ok_iff, pure, Except.pure, Except.ok.injEq, reduceCtorEq, and_false, exists_false] at h

/-- No operation is a raw `PropSet` after it was normalized. -/
theorem normalized_ne_propSet {raw canon : JsValue} (h : normalizeRawOp raw = .ok canon) :
    canon.get (js "type") ≠ .string (js "PropSet") := by
  unfold normalizeRawOp at h
  split at h
  · rename_i htype
    cases h
    exact htype
  · dsimp only at h
    split at h
    · obtain ⟨edge, -, hcanon⟩ := bind_ok_iff.mp h
      cases hcanon
      exact (by decide : (JsValue.string (js "EdgePropSet")) ≠ .string (js "PropSet"))
    · cases h
      exact (by decide : (JsValue.string (js "NodePropSet")) ≠ .string (js "PropSet"))

theorem typed_ne_propSet {raw canon : JsValue} {checked : CheckedOp} {typed : OpV2 JsValue}
    (hcanon : normalizeRawOp raw = .ok canon) (hchecked : validateOp L canon = .ok checked)
    (htyped : checked.typed L = .ok typed) (node key : JsString) (value : Option JsValue) :
    typed ≠ .propSet node key value := by
  rintro rfl
  cases checked with
  | propSet node' key' value' =>
      unfold validateOp at hchecked
      split at hchecked
      · rename_i type htype
        rw [type_of_checkFields hchecked] at htype
        exact normalized_ne_propSet hcanon htype
      · cases hchecked
  | nodeAdd node' dot =>
      obtain ⟨dot', -, h⟩ := bind_ok_iff.mp htyped
      cases h
  | edgeAdd edge dot =>
      obtain ⟨dot', -, h⟩ := bind_ok_iff.mp htyped
      cases h
  | _ => cases htyped

theorem normalizeRawOp_typed {raw canon : JsValue} {checked : CheckedOp} {typed : OpV2 JsValue}
    (hcanon : normalizeRawOp raw = .ok canon) (hchecked : validateOp L canon = .ok checked)
    (htyped : checked.typed L = .ok typed) : GitWarp.normalizeRawOp typed = .ok typed := by
  cases typed with
  | propSet node key value => exact absurd rfl (typed_ne_propSet hcanon hchecked htyped node key value)
  | _ => rfl

/-- Applying a normalized operation throws only where it cannot be read. -/
theorem applyOpV2_ok_iff {raw canon : JsValue} (hcanon : normalizeRawOp raw = .ok canon) (state next : UntypedState)
    (eventId : EventId) :
    applyOpV2 L state canon eventId = .ok next ↔
      ∃ checked typed, validateOp L canon = .ok checked ∧ checked.typed L = .ok typed ∧
        applyReadOp state ((checked, typed), eventId) = next := by
  unfold applyOpV2
  simp only [bind_ok_iff, pure, Except.pure, Except.ok.injEq]
  constructor
  · rintro ⟨checked, hchecked, typed, htyped, next', hnext, rfl⟩
    refine ⟨checked, typed, hchecked, htyped, ?_⟩
    unfold applyReadOp applyEvent
    rw [hnext]
  · rintro ⟨checked, typed, hchecked, htyped, rfl⟩
    refine ⟨checked, hchecked, typed, htyped, applyEvent state.state (typed, eventId), ?_, rfl⟩
    exact applyOpV2_normalized (normalizeRawOp_typed hcanon hchecked htyped) state.state eventId

theorem readOp_ok_iff {patch : UntypedPatch} {patchSha : JsString} {item : JsValue × Nat}
    {read : (CheckedOp × OpV2 JsValue) × EventId} :
    readOp L patch patchSha item = .ok read ↔
      ∃ canon, normalizeRawOp item.1 = .ok canon ∧ validateOp L canon = .ok read.1.1 ∧
        read.1.1.typed L = .ok read.1.2 ∧ patch.createEventId patchSha item.2 = .ok read.2 := by
  unfold readOp readRawOp
  simp only [bind_ok_iff, pure, Except.pure, Except.ok.injEq]
  constructor
  · rintro ⟨_, ⟨canon, hcanon, checked, hchecked, typed, htyped, rfl⟩, eventId, hid, rfl⟩
    exact ⟨canon, hcanon, hchecked, htyped, hid⟩
  · rintro ⟨canon, hcanon, hchecked, htyped, hid⟩
    exact ⟨_, ⟨canon, hcanon, _, hchecked, _, htyped, rfl⟩, _, hid, rfl⟩

theorem readRawOp_of_readOp {patch : UntypedPatch} {patchSha : JsString} {item : JsValue × Nat}
    {read : (CheckedOp × OpV2 JsValue) × EventId} (h : readOp L patch patchSha item = .ok read) :
    readRawOp L item.1 = .ok read.1 := by
  unfold readOp at h
  simp only [bind_ok_iff] at h
  obtain ⟨read', hread, eventId, -, hpair⟩ := h
  cases hpair
  exact hread

/-! ### The loops -/

variable (L)

/-- What the three reducers return for a patch that was read. -/
def applyReads (state : UntypedState) (patch : UntypedPatch) (reads : List ((CheckedOp × OpV2 JsValue) × EventId))
    (context : VersionVector) : UntypedState :=
  let state := reads.foldl applyReadOp state
  { state with
    state := { state.state with
      observedFrontier :=
        foldPatchDot (vvMerge state.state.observedFrontier context) patch.writer patch.lamport.toNat } }

/-- The patch is read, and this is the state it leads to. -/
def LeadsTo (state : UntypedState) (patch : UntypedPatch) (patchSha : JsString) (next : UntypedState) : Prop :=
  ∃ reads context, patch.ops.zipIdx.mapM (readOp L patch patchSha) = .ok reads ∧
    contextVV patch.context = .ok context ∧ applyReads state patch reads context = next

variable {L}

theorem updateFrontierFromPatch_ok_iff {state next : UntypedState} {patch : UntypedPatch} :
    updateFrontierFromPatch state patch = .ok next ↔
      ∃ context, contextVV patch.context = .ok context ∧ applyReads state patch [] context = next := by
  unfold updateFrontierFromPatch
  simp only [bind_ok_iff, pure, Except.pure, Except.ok.injEq]
  rfl

theorem applyFast_ok_iff {state next : UntypedState} {patch : UntypedPatch} {patchSha : JsString} :
    applyFast L state patch patchSha = .ok next ↔ LeadsTo L state patch patchSha next := by
  have hloop := foldlM_part_ok_iff id (readOp L patch patchSha) (fun state item => do
      let eventId ← patch.createEventId patchSha item.2
      let op ← normalizeRawOp item.1
      applyOpV2 L state op eventId) applyReadOp
    (by
      intro s item t h
      simp only [bind_ok_iff] at h
      obtain ⟨eventId, hid, canon, hcanon, happly⟩ := h
      obtain ⟨checked, typed, hchecked, htyped, rfl⟩ := (applyOpV2_ok_iff hcanon s t eventId).mp happly
      exact ⟨((checked, typed), eventId), readOp_ok_iff.mpr ⟨canon, hcanon, hchecked, htyped, hid⟩, rfl⟩)
    (by
      intro s item read h
      obtain ⟨canon, hcanon, hchecked, htyped, hid⟩ := readOp_ok_iff.mp h
      simp only [bind_ok_iff]
      exact ⟨_, _, hid, canon, hcanon, (applyOpV2_ok_iff hcanon s _ _).mpr ⟨_, _, hchecked, htyped, rfl⟩⟩)
    patch.ops.zipIdx state
  unfold applyFast
  simp only [bind_ok_iff, updateFrontierFromPatch_ok_iff]
  constructor
  · rintro ⟨s, hs, context, hcontext, rfl⟩
    obtain ⟨reads, hreads, hfold⟩ := (hloop s).mp ⟨s, hs, rfl⟩
    cases hfold
    exact ⟨reads, context, hreads, hcontext, rfl⟩
  · rintro ⟨reads, context, hreads, hcontext, rfl⟩
    obtain ⟨s, hs, hfold⟩ := (hloop _).mpr ⟨reads, hreads, rfl⟩
    cases hfold
    exact ⟨_, hs, context, hcontext, rfl⟩

theorem map_fst_ok_iff {α β : Type} {x : Except JsError (α × β)} {a : α} :
    x.map Prod.fst = .ok a ↔ ∃ b, x = .ok (a, b) := by
  cases x with
  | error err => simp [Except.map]
  | ok pair =>
      obtain ⟨a', b⟩ := pair
      simp [Except.map]

/-- The log reads the states and leaves them as they are. -/
theorem applyWithDiff_ok_iff {state next : UntypedState} {patch : UntypedPatch} {patchSha : JsString} :
    (applyWithDiff L state patch patchSha).map Prod.fst = .ok next ↔ LeadsTo L state patch patchSha next := by
  have hloop := foldlM_part_ok_iff Prod.fst (readOp L patch patchSha)
    (fun (acc : UntypedState × PatchDiff JsValue) item => do
      let canonOp ← normalizeRawOp item.1
      let checked ← validateOp L canonOp
      let eventId ← patch.createEventId patchSha item.2
      let before := snapshotBeforeOp acc.1.state checked
      let state ← applyOpV2 L acc.1 canonOp eventId
      return (state, accumulateOpDiff L acc.2 state checked before)) applyReadOp
    (by
      intro acc item t h
      simp only [bind_ok_iff] at h
      obtain ⟨canon, hcanon, checked, hchecked, eventId, hid, s, happly, hpair⟩ := h
      obtain ⟨checked', typed, hchecked', htyped, rfl⟩ := (applyOpV2_ok_iff hcanon acc.1 s eventId).mp happly
      cases hchecked.symm.trans hchecked'
      cases hpair
      exact ⟨((checked, typed), eventId), readOp_ok_iff.mpr ⟨canon, hcanon, hchecked, htyped, hid⟩, rfl⟩)
    (by
      intro acc item read h
      obtain ⟨canon, hcanon, hchecked, htyped, hid⟩ := readOp_ok_iff.mp h
      simp only [bind_ok_iff]
      exact ⟨_, canon, hcanon, _, hchecked, _, hid, _,
        (applyOpV2_ok_iff hcanon acc.1 _ _).mpr ⟨_, _, hchecked, htyped, rfl⟩, rfl⟩)
    patch.ops.zipIdx (state, createEmptyDiff)
  rw [map_fst_ok_iff]
  unfold applyWithDiff
  simp only [bind_ok_iff, updateFrontierFromPatch_ok_iff]
  constructor
  · rintro ⟨diff, acc, hacc, s, ⟨context, hcontext, rfl⟩, hpair⟩
    obtain ⟨reads, hreads, hfold⟩ := (hloop acc.1).mp ⟨acc, hacc, rfl⟩
    cases hpair
    rw [← hfold]
    exact ⟨reads, context, hreads, hcontext, rfl⟩
  · rintro ⟨reads, context, hreads, hcontext, rfl⟩
    obtain ⟨acc, hacc, hfold⟩ := (hloop _).mpr ⟨reads, hreads, rfl⟩
    refine ⟨acc.2, acc, hacc, _, ⟨context, hcontext, rfl⟩, ?_⟩
    rw [hfold]
    rfl

theorem state_foldl_applyReadOp (reads : List ((CheckedOp × OpV2 JsValue) × EventId)) (state : UntypedState) :
    (reads.foldl applyReadOp state).state =
      (reads.map fun read => (read.1.2, read.2)).foldl applyEvent state.state := by
  induction reads generalizing state with
  | nil => rfl
  | cons read rest ih => exact ih _

/-- The operations as they are read are operations of the typed reducer, which reads them under the same ids. -/
theorem mapM_readOp_typed {patch : UntypedPatch} {patchSha : JsString} {ops : List JsValue} {k : Nat}
    {reads : List ((CheckedOp × OpV2 JsValue) × EventId)} {typedPatch : PatchV2 JsValue}
    (hlamport : typedPatch.lamport = patch.lamport.toNat) (hwriter : typedPatch.writer = patch.writer)
    (h : (ops.zipIdx k).mapM (readOp L patch patchSha) = .ok reads) :
    ops.mapM (fun op => (readRawOp L op).map Prod.snd) = .ok (reads.map fun read => read.1.2) ∧
      ((reads.map fun read => read.1.2).zipIdx k).mapM (GitWarp.readOp typedPatch patchSha) =
        .ok (reads.map fun read => (read.1.2, read.2)) := by
  induction ops generalizing k reads with
  | nil =>
      cases h
      exact ⟨rfl, rfl⟩
  | cons op rest ih =>
      obtain ⟨read, restReads, hread, hrest, rfl⟩ := mapM_cons_ok_iff.mp h
      obtain ⟨hops, htyped⟩ := ih hrest
      obtain ⟨canon, hcanon, hchecked, htypedOp, hid⟩ := readOp_ok_iff.mp hread
      have hraw : readRawOp L op = .ok read.1 := readRawOp_of_readOp hread
      have hnormal := normalizeRawOp_typed hcanon hchecked htypedOp
      refine ⟨mapM_cons_ok_iff.mpr ⟨_, _, by rw [hraw]; rfl, hops, rfl⟩,
        mapM_cons_ok_iff.mpr ⟨_, _, ?_, htyped, rfl⟩⟩
      unfold GitWarp.readOp
      simp only [bind_ok_iff, hlamport, hwriter]
      exact ⟨read.2, hid, _, hnormal, rfl⟩

/-- What the reducers make of an untyped patch is what the typed one makes of the operations it is read as. -/
theorem applyFast_typed {state next : UntypedState} {patch : UntypedPatch} {patchSha : JsString}
    (h : LeadsTo L state patch patchSha next) (schema : Nat) :
    ∃ ops, patch.ops.mapM (fun op => (readRawOp L op).map Prod.snd) = .ok ops ∧
      GitWarp.applyFast state.state ⟨schema, patch.writer, patch.lamport.toNat, patch.context, ops⟩ patchSha =
        .ok next.state := by
  obtain ⟨reads, context, hreads, hcontext, rfl⟩ := h
  let typedPatch : PatchV2 JsValue :=
    ⟨schema, patch.writer, patch.lamport.toNat, patch.context, reads.map fun read => read.1.2⟩
  obtain ⟨hops, htyped⟩ := mapM_readOp_typed (show typedPatch.lamport = _ from rfl) rfl hreads
  have hread : readPatch ⟨typedPatch, patchSha⟩ =
      .ok ⟨reads.map fun read => (read.1.2, read.2), context, patch.writer, patch.lamport.toNat⟩ := by
    unfold readPatch
    simp only [bind_ok_iff]
    exact ⟨_, htyped, _, hcontext, rfl⟩
  refine ⟨_, hops, (applyFast_eq state.state ⟨typedPatch, patchSha⟩).trans ?_⟩
  rw [hread]
  simp only [Except.map, applyRead, applyReads, state_foldl_applyReadOp]

/-! ### The receipt -/

variable (L)

/-- The target of an operation's entry. -/
def CheckedOp.target : CheckedOp → Except JsError JsValue
  | .nodeAdd node _ => .ok (.string node)
  | .nodeRemove node _ => .ok (node.orElse anyValue)
  | .edgeAdd edge _ => .ok (.string edge.key)
  | .edgeRemove fromId toId label _ => edgeRemoveTarget L fromId toId label
  | .propSet node key _ | .nodePropSet node key _ => .ok (.string (encodePropKey node key))
  | .edgePropSet edge key _ =>
      .ok (.string (encodeEdgePropKey edge.fromId edge.toId edge.label key))
  | .other _ node oid => .ok (node.orElse (oid.orElse anyValue))

/-- The fields that name the target of an entry name one. -/
def CheckedOp.HasTarget : CheckedOp → Prop
  | .nodeAdd node _ => node ≠ []
  | .nodeRemove node _ => node.truthy = true → node.isText = true
  | .edgeRemove fromId toId label _ =>
      fromId.truthy = true ∧ toId.truthy = true ∧ label.truthy = true →
        (∃ text, L.template fromId = .ok text) ∧ (∃ text, L.template toId = .ok text) ∧
          ∃ text, L.template label = .ok text
  | .other type node oid =>
      type = js "BlobValue" ∨ type = js "NodeTombstone" ∨ type = js "EdgeTombstone" →
        (node.orElse oid).truthy = true → (node.orElse oid).isText = true
  | _ => True

variable {L}

theorem text_orElse_ne_nil_iff (value : JsValue) :
    (value.orElse anyValue).text ≠ [] ↔ (value.truthy = true → value.isText = true) := by
  unfold orElse
  cases htruthy : value.truthy with
  | false => exact iff_of_true (List.cons_ne_nil _ _) nofun
  | true =>
      cases value with
      | string s =>
          cases s with
          | nil => cases htruthy
          | cons c s => exact iff_of_true nofun fun _ => rfl
      | _ => exact iff_of_false (fun h => h rfl) fun h => Bool.false_ne_true (h rfl)

theorem orElse_assoc (a b c : JsValue) : a.orElse (b.orElse c) = (a.orElse b).orElse c := by
  unfold orElse
  cases ha : a.truthy with
  | true => simp [ha]
  | false => simp

/-- An entry gets a target exactly where the fields of its operation name one. -/
theorem target_iff (op : CheckedOp) :
    (∃ target, op.target L = .ok target ∧ ((receiptOpType op).isSome = true → target.text ≠ [])) ↔
      op.HasTarget L := by
  have hpure : ∀ (target : JsValue) (p : Prop), (receiptOpType op).isSome = true → (target.text ≠ [] ↔ p) →
      ((∃ t, (Except.ok target : Except JsError JsValue) = .ok t ∧
        ((receiptOpType op).isSome = true → t.text ≠ [])) ↔ p) := by
    intro target p htype hp
    constructor
    · rintro ⟨t, ht, htext⟩
      cases ht
      exact hp.mp (htext htype)
    · exact fun h => ⟨target, rfl, fun _ => hp.mpr h⟩
  cases op with
  | nodeAdd node dot => exact hpure _ _ rfl Iff.rfl
  | nodeRemove node observedDots => exact hpure _ _ rfl (text_orElse_ne_nil_iff node)
  | edgeAdd edge dot => exact hpure _ _ rfl (iff_true_intro (by simp [text, EdgeRef.key, encodeEdgeKey]))
  | edgeRemove fromId toId label observedDots =>
      simp only [CheckedOp.target, edgeRemoveTarget, CheckedOp.HasTarget]
      by_cases hall : (fromId.truthy && toId.truthy && label.truthy) = true
      · rw [if_pos hall]
        rw [Bool.and_eq_true, Bool.and_eq_true, and_assoc] at hall
        simp only [bind_ok_iff, pure, Except.pure, Except.ok.injEq]
        constructor
        · rintro ⟨target, ⟨source, hsource, destination, hdestination, name, hname, rfl⟩, -⟩ -
          exact ⟨⟨source, hsource⟩, ⟨destination, hdestination⟩, name, hname⟩
        · intro h
          obtain ⟨⟨source, hsource⟩, ⟨destination, hdestination⟩, name, hname⟩ := h hall
          exact ⟨_, ⟨source, hsource, destination, hdestination, name, hname, rfl⟩,
            fun _ => by simp [text, encodeEdgeKey]⟩
      · rw [if_neg hall]
        rw [Bool.and_eq_true, Bool.and_eq_true, and_assoc] at hall
        exact hpure _ _ rfl (iff_of_true (List.cons_ne_nil _ _) fun h => absurd h hall)
  | propSet node key value => exact hpure _ _ rfl (iff_true_intro (by simp [text, encodePropKey]))
  | nodePropSet node key value => exact hpure _ _ rfl (iff_true_intro (by simp [text, encodePropKey]))
  | edgePropSet edge key value => exact hpure _ _ rfl (iff_true_intro (List.cons_ne_nil _ _))
  | other type node oid =>
      by_cases htype : type = js "BlobValue" ∨ type = js "NodeTombstone" ∨ type = js "EdgeTombstone"
      · have hsome : (receiptOpType (.other type node oid)).isSome = true := by
          rcases htype with rfl | rfl | rfl <;> rfl
        refine hpure _ _ hsome ?_
        rw [orElse_assoc, text_orElse_ne_nil_iff]
        exact ⟨fun h _ => h, fun h => h htype⟩
      · have hnone : receiptOpType (.other type node oid) = none := by
          rw [not_or, not_or] at htype
          rw [receiptOpType, if_neg htype.1, if_neg htype.2.1, if_neg htype.2.2]
        refine iff_of_true ⟨_, rfl, fun h => ?_⟩ fun h => absurd h htype
        rw [hnone] at h
        cases h

/-- The target of an outcome depends on the operation alone. -/
theorem opOutcome_target (state : WarpStateV5 JsValue) (op : CheckedOp) (eventId : EventId) :
    (opOutcome L state op eventId).map UntypedOutcome.target = op.target L := by
  have hadd : ∀ (orset : ORSet) (element : JsString) (dot : DotObject),
      (addOutcome L orset element dot).target = .string element := by
    intro orset element dot
    unfold addOutcome
    split <;> rfl
  have hprop : ∀ (key : JsString), (propOutcomeForKey state.prop key eventId).target = key := by
    intro key
    unfold propOutcomeForKey
    cases state.prop.get key with
    | none => rfl
    | some current =>
        dsimp only
        split
        · rfl
        · split <;> rfl
  cases op with
  | nodeAdd node dot => exact congrArg Except.ok (hadd _ node dot)
  | nodeRemove node observedDots => rfl
  | edgeAdd edge dot => exact congrArg Except.ok (hadd _ edge.key dot)
  | edgeRemove fromId toId label observedDots =>
      simp only [opOutcome, CheckedOp.target]
      cases edgeRemoveTarget L fromId toId label <;> rfl
  | propSet node key value => exact congrArg (fun target => Except.ok (JsValue.string target)) (hprop _)
  | nodePropSet node key value => exact congrArg (fun target => Except.ok (JsValue.string target)) (hprop _)
  | edgePropSet edge key value => exact congrArg (fun target => Except.ok (JsValue.string target)) (hprop _)
  | other type node oid => rfl

/-- The targets that an operation adds to the receipt. -/
def entryTargets (op : CheckedOp) (target : JsValue) : List JsValue :=
  if (receiptOpType op).isSome then [target] else []

theorem map_target_receiptEntry (op : CheckedOp) (outcome : UntypedOutcome) :
    (receiptEntry op outcome).map UntypedOpOutcome.target = entryTargets op outcome.target := by
  unfold receiptEntry entryTargets
  cases receiptOpType op <;> rfl

theorem createTickReceipt_ok_iff {patchSha writer : JsString} {lamport : Int} {ops : List UntypedOpOutcome} :
    (∃ receipt, createTickReceipt patchSha writer lamport ops = .ok receipt) ↔
      patchSha ≠ [] ∧ writer ≠ [] ∧ 0 ≤ lamport ∧ ∀ target ∈ ops.map UntypedOpOutcome.target, target.text ≠ [] := by
  unfold createTickReceipt
  by_cases hsha : patchSha = []
  · simp [hsha, thrown]
  by_cases hwriter : writer = []
  · simp [hsha, hwriter, thrown]
  by_cases hlamport : lamport < 0
  · rw [if_neg hsha, if_neg hwriter, if_pos hlamport]
    refine iff_of_false ?_ fun h => absurd hlamport (not_lt.mpr h.2.2.1)
    rintro ⟨receipt, h⟩
    cases h
  rw [if_neg hsha, if_neg hwriter, if_neg hlamport]
  have hnone : (ops.findIdx? fun entry => entry.target.text.isEmpty) = none ↔
      ∀ target ∈ ops.map UntypedOpOutcome.target, target.text ≠ [] := by
    rw [List.findIdx?_eq_none_iff, List.forall_mem_map]
    simp only [List.isEmpty_eq_false_iff]
  cases hfind : ops.findIdx? fun entry => entry.target.text.isEmpty with
  | none => exact iff_of_true ⟨_, rfl⟩ ⟨hsha, hwriter, not_lt.mp hlamport, hnone.mp hfind⟩
  | some i =>
      refine iff_of_false ?_ fun h => ?_
      · rintro ⟨receipt, h⟩
        cases h
      · rw [hnone.mpr h.2.2.2] at hfind
        cases hfind

variable (L) in
/-- An operation with the target of its entry. -/
def readReceiptOp (patch : UntypedPatch) (patchSha : JsString) (item : JsValue × Nat) :
    Except JsError (((CheckedOp × OpV2 JsValue) × EventId) × JsValue) := do
  let read ← readOp L patch patchSha item
  return (read, ← read.1.1.target L)

/-- The state and the targets after an operation that was read. -/
def receiptReadOp (acc : UntypedState × List JsValue) (read : ((CheckedOp × OpV2 JsValue) × EventId) × JsValue) :
    UntypedState × List JsValue :=
  (applyReadOp acc.1 read.1, acc.2 ++ entryTargets read.1.1.1 read.2)

theorem foldl_receiptReadOp (reads : List (((CheckedOp × OpV2 JsValue) × EventId) × JsValue))
    (acc : UntypedState × List JsValue) :
    reads.foldl receiptReadOp acc = ((reads.map Prod.fst).foldl applyReadOp acc.1,
      acc.2 ++ reads.flatMap fun read => entryTargets read.1.1.1 read.2) := by
  induction reads generalizing acc with
  | nil => simp
  | cons read rest ih => simp [ih, receiptReadOp]

/-- The receipt needs, beyond what the others need, a target for every entry. -/
theorem applyWithReceipt_ok_iff {state next : UntypedState} {patch : UntypedPatch} {patchSha : JsString} :
    (applyWithReceipt L state patch patchSha).map Prod.fst = .ok next ↔
      ∃ reads context, patch.ops.zipIdx.mapM (readReceiptOp L patch patchSha) = .ok reads ∧
        contextVV patch.context = .ok context ∧ applyReads state patch (reads.map Prod.fst) context = next ∧
        patchSha ≠ [] ∧ patch.writer ≠ [] ∧ 0 ≤ patch.lamport ∧
        ∀ target ∈ reads.flatMap fun read => entryTargets read.1.1.1 read.2, target.text ≠ [] := by
  have hloop := foldlM_part_ok_iff
    (fun acc : UntypedState × List UntypedOpOutcome => (acc.1, acc.2.map UntypedOpOutcome.target))
    (readReceiptOp L patch patchSha) (fun (acc : UntypedState × List UntypedOpOutcome) item => do
      let canonOp ← normalizeRawOp item.1
      let checked ← validateOp L canonOp
      let eventId ← patch.createEventId patchSha item.2
      let outcome ← opOutcome L acc.1.state checked eventId
      let state ← applyOpV2 L acc.1 canonOp eventId
      return (state, acc.2 ++ receiptEntry checked outcome)) receiptReadOp
    (by
      intro acc item t h
      simp only [bind_ok_iff] at h
      obtain ⟨canon, hcanon, checked, hchecked, eventId, hid, outcome, houtcome, s, happly, hpair⟩ := h
      obtain ⟨checked', typed, hchecked', htyped, rfl⟩ := (applyOpV2_ok_iff hcanon acc.1 s eventId).mp happly
      cases hchecked.symm.trans hchecked'
      cases hpair
      have htarget : _ = checked.target L := opOutcome_target acc.1.state checked eventId
      rw [houtcome] at htarget
      refine ⟨(((checked, typed), eventId), outcome.target), ?_, ?_⟩
      · unfold readReceiptOp
        simp only [bind_ok_iff]
        exact ⟨_, readOp_ok_iff.mpr ⟨canon, hcanon, hchecked, htyped, hid⟩, _, htarget.symm, rfl⟩
      · rw [List.map_append, map_target_receiptEntry]
        rfl)
    (by
      intro acc item read h
      unfold readReceiptOp at h
      simp only [bind_ok_iff] at h
      obtain ⟨read', hread, target, htarget, hpair⟩ := h
      obtain ⟨canon, hcanon, hchecked, htyped, hid⟩ := readOp_ok_iff.mp hread
      rw [← opOutcome_target acc.1.state read'.1.1 read'.2] at htarget
      simp only [bind_ok_iff]
      cases houtcome : opOutcome L acc.1.state read'.1.1 read'.2 with
      | error err =>
          rw [houtcome] at htarget
          cases htarget
      | ok outcome =>
          exact ⟨_, canon, hcanon, _, hchecked, _, hid, outcome, houtcome, _,
            (applyOpV2_ok_iff hcanon acc.1 _ _).mpr ⟨_, _, hchecked, htyped, rfl⟩, rfl⟩)
    patch.ops.zipIdx (state, [])
  rw [map_fst_ok_iff]
  unfold applyWithReceipt
  simp only [bind_ok_iff, updateFrontierFromPatch_ok_iff]
  constructor
  · rintro ⟨receipt, acc, hacc, s, ⟨context, hcontext, rfl⟩, receipt', hreceipt, hpair⟩
    obtain ⟨reads, hreads, hfold⟩ := (hloop _).mp ⟨acc, hacc, rfl⟩
    rw [foldl_receiptReadOp, Prod.mk.injEq] at hfold
    obtain ⟨hsha, hwriter, hlamport, htargets⟩ := createTickReceipt_ok_iff.mp ⟨receipt', hreceipt⟩
    cases hpair
    rw [← hfold.1]
    rw [← hfold.2] at htargets
    exact ⟨reads, context, hreads, hcontext, rfl, hsha, hwriter, hlamport, htargets⟩
  · rintro ⟨reads, context, hreads, hcontext, rfl, hsha, hwriter, hlamport, htargets⟩
    obtain ⟨acc, hacc, hfold⟩ := (hloop _).mpr ⟨reads, hreads, rfl⟩
    rw [foldl_receiptReadOp, Prod.mk.injEq] at hfold
    obtain ⟨receipt, hreceipt⟩ := createTickReceipt_ok_iff.mpr
      ⟨hsha, hwriter, hlamport, fun target htarget => htargets target (by rw [hfold.2] at htarget; exact htarget)⟩
    refine ⟨receipt, acc, hacc, _, ⟨context, hcontext, rfl⟩, receipt, hreceipt, ?_⟩
    rw [hfold.1]
    rfl

/-! ### When the reducers agree -/

variable (L)

/-- An operation that `normalizeRawOp`, `validateOp` and `orsetAdd` let through. -/
def AcceptedOp (op : JsValue) : Prop := ∃ read, readRawOp L op = .ok read

/-- Nothing about the patch is refused by the checks that the three reducers share. -/
structure Accepted (patch : UntypedPatch) (patchSha : JsString) : Prop where
  eventIds : patch.ops ≠ [] → 0 < patch.lamport ∧ patch.writer ≠ [] ∧ isHexOid patchSha = true
  ops : ∀ op ∈ patch.ops, AcceptedOp L op
  context : ∃ vv, contextVV patch.context = .ok vv

/-- What a receipt is refused without: the names in its head, and a target for each entry. -/
structure ReceiptReady (patch : UntypedPatch) (patchSha : JsString) : Prop where
  patchSha : patchSha ≠ []
  writer : patch.writer ≠ []
  lamport : 0 ≤ patch.lamport
  targets : ∀ op ∈ patch.ops, ∀ read, readRawOp L op = .ok read → read.1.HasTarget L

variable {L}

theorem createEventId_ok_iff {patch : UntypedPatch} {patchSha : JsString} (opIndex : Nat) :
    (∃ eventId, patch.createEventId patchSha opIndex = .ok eventId) ↔
      0 < patch.lamport ∧ patch.writer ≠ [] ∧ isHexOid patchSha = true := by
  unfold UntypedPatch.createEventId GitWarp.createEventId
  by_cases hlamport : patch.lamport.toNat = 0
  · rw [if_pos hlamport]
    exact iff_of_false (fun h => nomatch h) fun h => by omega
  by_cases hwriter : patch.writer = []
  · rw [if_neg hlamport, if_pos hwriter]
    exact iff_of_false (fun h => nomatch h) fun h => h.2.1 hwriter
  rw [if_neg hlamport, if_neg hwriter]
  cases hsha : isHexOid patchSha with
  | false => exact iff_of_false (fun h => nomatch h) fun h => Bool.false_ne_true h.2.2
  | true => exact iff_of_true ⟨_, rfl⟩ ⟨by omega, hwriter, rfl⟩

theorem exists_readOp_iff {patch : UntypedPatch} {patchSha : JsString} {item : JsValue × Nat} :
    (∃ read, readOp L patch patchSha item = .ok read) ↔
      AcceptedOp L item.1 ∧ 0 < patch.lamport ∧ patch.writer ≠ [] ∧ isHexOid patchSha = true := by
  rw [← createEventId_ok_iff item.2]
  unfold readOp AcceptedOp
  simp only [bind_ok_iff, pure, Except.pure, Except.ok.injEq]
  constructor
  · rintro ⟨_, read, hread, eventId, hid, rfl⟩
    exact ⟨⟨read, hread⟩, eventId, hid⟩
  · rintro ⟨⟨read, hread⟩, eventId, hid⟩
    exact ⟨_, read, hread, eventId, hid, rfl⟩

theorem exists_leadsTo_iff (state : UntypedState) {patch : UntypedPatch} {patchSha : JsString} :
    (∃ next, LeadsTo L state patch patchSha next) ↔ Accepted L patch patchSha := by
  have hreads : (∃ reads, patch.ops.zipIdx.mapM (readOp L patch patchSha) = .ok reads) ↔
      ∀ op ∈ patch.ops, AcceptedOp L op ∧ 0 < patch.lamport ∧ patch.writer ≠ [] ∧ isHexOid patchSha = true := by
    rw [exists_mapM_ok_iff]
    simp only [exists_readOp_iff]
    conv_rhs => rw [← List.zipIdx_map_fst 0 patch.ops, List.forall_mem_map]
  constructor
  · rintro ⟨next, reads, context, hops, hcontext, rfl⟩
    have hall := hreads.mp ⟨reads, hops⟩
    refine ⟨fun hne => ?_, fun op hop => (hall op hop).1, context, hcontext⟩
    obtain ⟨op, hop⟩ := List.exists_mem_of_ne_nil _ hne
    exact (hall op hop).2
  · rintro ⟨hids, hops, context, hcontext⟩
    obtain ⟨reads, hok⟩ := hreads.mpr fun op hop => ⟨hops op hop, hids (List.ne_nil_of_mem hop)⟩
    exact ⟨_, reads, context, hok, hcontext, rfl⟩

theorem readReceiptOp_ok_iff {patch : UntypedPatch} {patchSha : JsString} {item : JsValue × Nat}
    {read : ((CheckedOp × OpV2 JsValue) × EventId) × JsValue} :
    readReceiptOp L patch patchSha item = .ok read ↔
      readOp L patch patchSha item = .ok read.1 ∧ read.1.1.1.target L = .ok read.2 := by
  unfold readReceiptOp
  simp only [bind_ok_iff, pure, Except.pure, Except.ok.injEq]
  constructor
  · rintro ⟨read', hread, target, htarget, rfl⟩
    exact ⟨hread, htarget⟩
  · rintro ⟨hread, htarget⟩
    exact ⟨_, hread, _, htarget, rfl⟩

theorem exists_error_of_ne_ok {α : Type} {x : Except JsError α} (h : ∀ a, x ≠ .ok a) : ∃ err, x = .error err := by
  cases x with
  | error err => exact ⟨err, rfl⟩
  | ok a => exact absurd rfl (h a)

theorem mem_entryTargets {op : CheckedOp} {target t : JsValue} :
    t ∈ entryTargets op target ↔ (receiptOpType op).isSome = true ∧ t = target := by
  unfold entryTargets
  split
  · rename_i hsome
    simp [hsome]
  · rename_i hnone
    simp [hnone]

/-- The receipt follows the two others on every patch that none refuses, exactly when it can be made. -/
theorem applyWithReceipt_leadsTo_iff {state next : UntypedState} {patch : UntypedPatch} {patchSha : JsString} :
    (applyWithReceipt L state patch patchSha).map Prod.fst = .ok next ↔
      LeadsTo L state patch patchSha next ∧ ReceiptReady L patch patchSha := by
  rw [applyWithReceipt_ok_iff]
  constructor
  · rintro ⟨reads, context, hreads, hcontext, rfl, hsha, hwriter, hlamport, htargets⟩
    have hplain := mapM_map_of_ok hreads fun item read hread =>
      (readReceiptOp_ok_iff.mp hread).1
    refine ⟨⟨_, context, hplain, hcontext, rfl⟩, hsha, hwriter, hlamport, fun op hop read hread => ?_⟩
    obtain ⟨item, hitem, rfl⟩ : ∃ item ∈ patch.ops.zipIdx, item.1 = op := by
      rw [← List.zipIdx_map_fst 0 patch.ops] at hop
      exact List.mem_map.mp hop
    obtain ⟨full, hfull⟩ := exists_mapM_ok_iff.mp ⟨reads, hreads⟩ item hitem
    obtain ⟨hfullRead, hfullTarget⟩ := readReceiptOp_ok_iff.mp hfull
    have hsame : full.1.1 = read := Except.ok.inj ((readRawOp_of_readOp hfullRead).symm.trans hread)
    rw [← hsame]
    refine (target_iff full.1.1.1).mp ⟨full.2, hfullTarget, fun hsome => htargets full.2 ?_⟩
    exact List.mem_flatMap.mpr ⟨full, (mem_of_mapM_ok hreads full).mpr ⟨item, hitem, hfull⟩,
      mem_entryTargets.mpr ⟨hsome, rfl⟩⟩
  · rintro ⟨⟨reads, context, hreads, hcontext, rfl⟩, hready⟩
    have hops : ∀ item ∈ patch.ops.zipIdx, item.1 ∈ patch.ops := by
      intro item hitem
      rw [← List.zipIdx_map_fst 0 patch.ops]
      exact List.mem_map_of_mem hitem
    have hfull : ∀ item ∈ patch.ops.zipIdx, ∃ full, readReceiptOp L patch patchSha item = .ok full := by
      intro item hitem
      obtain ⟨read, hread⟩ := exists_mapM_ok_iff.mp ⟨reads, hreads⟩ item hitem
      obtain ⟨target, htarget, -⟩ := (target_iff read.1.1).mpr
        (hready.targets item.1 (hops item hitem) read.1 (readRawOp_of_readOp hread))
      exact ⟨(read, target), readReceiptOp_ok_iff.mpr ⟨hread, htarget⟩⟩
    obtain ⟨fulls, hfulls⟩ := exists_mapM_ok_iff.mpr hfull
    have hplain := mapM_map_of_ok hfulls fun item read hread =>
      (readReceiptOp_ok_iff.mp hread).1
    cases hreads.symm.trans hplain
    refine ⟨fulls, context, hfulls, hcontext, rfl, hready.patchSha, hready.writer, hready.lamport, ?_⟩
    intro target htarget
    obtain ⟨full, hmem, htarget⟩ := List.mem_flatMap.mp htarget
    obtain ⟨hsome, rfl⟩ := mem_entryTargets.mp htarget
    obtain ⟨item, hitem, hread⟩ := (mem_of_mapM_ok hfulls full).mp hmem
    obtain ⟨hplainRead, htargetRead⟩ := readReceiptOp_ok_iff.mp hread
    obtain ⟨target, htarget, htext⟩ := (target_iff full.1.1.1).mpr
      (hready.targets item.1 (hops item hitem) full.1.1 (readRawOp_of_readOp hplainRead))
    cases htarget.symm.trans htargetRead
    exact htext hsome

/-- The three reducers agree on a patch exactly if it is one that they refuse, or one that a receipt can be made of: the
receipt is all that one of them does and the other two do not. -/
theorem reducersAgree_iff (state : UntypedState) (patch : UntypedPatch) (patchSha : JsString) :
    ReducersAgree L state patch patchSha ↔ (Accepted L patch patchSha → ReceiptReady L patch patchSha) := by
  constructor
  · intro hagree haccepted
    obtain ⟨next, hnext⟩ := (exists_leadsTo_iff state).mpr haccepted
    rcases hagree with ⟨⟨err, herr⟩, -⟩ | ⟨next', -, -, hreceipt⟩
    · rw [applyFast_ok_iff.mpr hnext] at herr
      cases herr
    · exact (applyWithReceipt_leadsTo_iff.mp hreceipt).2
  · intro hready
    by_cases haccepted : Accepted L patch patchSha
    · obtain ⟨next, hnext⟩ := (exists_leadsTo_iff state).mpr haccepted
      exact Or.inr ⟨next, applyFast_ok_iff.mpr hnext, applyWithDiff_ok_iff.mpr hnext,
        applyWithReceipt_leadsTo_iff.mpr ⟨hnext, hready haccepted⟩⟩
    · have hnone : ∀ next, ¬ LeadsTo L state patch patchSha next :=
        fun next hnext => haccepted ((exists_leadsTo_iff state).mp ⟨next, hnext⟩)
      refine Or.inl ⟨exists_error_of_ne_ok fun next h => hnone next (applyFast_ok_iff.mp h),
        exists_error_of_ne_ok fun out h => hnone out.1 (applyWithDiff_ok_iff.mp ?_),
        exists_error_of_ne_ok fun out h => hnone out.1 (applyWithReceipt_leadsTo_iff.mp ?_).1⟩
      · rw [h]
        rfl
      · rw [h]
        rfl

/-- The language as far as operations of plain data need it. -/
def plainLanguage : Language where
  template
    | .string s => .ok s
    | _ => .ok (js "[object Object]")
  numberText _ := js "NaN"
  stringify _ := "\x7b\x7d"
  members _ := none

def emptyUntyped : UntypedState := ⟨createEmptyStateV5, [], []⟩

/-- Adds the node whose name is the empty string. -/
def addsUnnamed : UntypedPatch where
  writer := js "w"
  lamport := 1
  context := .record []
  ops := [.object [(js "dot", .object [(js "counter", ofInt 1), (js "writerId", .string (js "w"))]),
    (js "node", .string []), (js "type", .string (js "NodeAdd"))]]

theorem reducers_disagree : ¬ ReducersAgree plainLanguage emptyUntyped addsUnnamed (js "abcd") := by
  rintro (⟨⟨err, herr⟩, -⟩ | ⟨next, -, -, hreceipt⟩)
  · have hfast : (applyFast plainLanguage emptyUntyped addsUnnamed (js "abcd")).isOk = true := by decide +kernel
    rw [herr] at hfast
    cases hfast
  · have hfails : ((applyWithReceipt plainLanguage emptyUntyped addsUnnamed (js "abcd")).map Prod.fst).isOk = false := by
      decide +kernel
    rw [hreceipt] at hfails
    cases hfails

end GitWarp.Untyped
