import GitWarp.ReducerDiffAlive
import GitWarp.ReducerReceipts

/-! What a receipt says of the operations, against what they did: the outcome of an operation is decided before it
is applied, by code of its own. -/

namespace GitWarp
open Js ExceptLoops

variable {V : Type}

/-- The dots that keep an element alive. -/
def ORSet.liveDots (set : ORSet) (element : JsString) : Set JsString :=
  {d | d ∈ set.dotsOf element ∧ d ∉ set.tombstones}

/-- Some node or edge has other live dots, or some property another register. -/
def Differs (before after : WarpStateV5 V) : Prop :=
  (∃ node, after.nodeAlive.liveDots node ≠ before.nodeAlive.liveDots node) ∨
    (∃ edge, after.edgeAlive.liveDots edge ≠ before.edgeAlive.liveDots edge) ∨
      ∃ key, after.prop.get key ≠ before.prop.get key

/-- Applying the operation makes a difference. -/
def Effective (before : WarpStateV5 V) (op : OpV2 V) (eventId : EventId) : Prop :=
  ∃ after, applyOpV2 before op eventId = .ok after ∧ Differs before after

/-- The register that a property operation writes to. -/
def registerKey : OpV2 V → Option JsString
  | .propSet node key _ | .nodePropSet node key _ => some (encodePropKey node key)
  | .edgePropSet edge key _ => some (encodeEdgePropKey edge.fromId edge.toId edge.label key)
  | _ => none

/-- A property operation that leaves its register as it is, because that was written by a greater event. -/
def Outranked (before : WarpStateV5 V) (op : OpV2 V) (eventId : EventId) : Prop :=
  ∃ key current after, registerKey op = some key ∧ before.prop.get key = some current ∧
    applyOpV2 before op eventId = .ok after ∧ after.prop.get key = some current ∧ eventId < current.eventId

/-- The outcome is `applied` where the operation counts, `superseded` where it is outranked, and `redundant` in
all other cases. -/
structure Tells (counts : WarpStateV5 V → OpV2 V → EventId → Prop) (before : WarpStateV5 V) (op : OpV2 V)
    (eventId : EventId) (result : OutcomeResult) : Prop where
  applied : result = .applied ↔ counts before op eventId
  superseded : result = .superseded ↔ Outranked before op eventId
  redundant : result = .redundant ↔ ¬ counts before op eventId ∧ ¬ Outranked before op eventId

/-- What counts as applied: an add that brings its element a new dot, even one that was removed already; a remove
or a property that makes a difference; and every `BlobValue`. -/
def Counts (before : WarpStateV5 V) (op : OpV2 V) (eventId : EventId) : Prop :=
  match op with
  | .nodeAdd node dot => encodeDot dot ∉ before.nodeAlive.dotsOf node
  | .edgeAdd edge dot => encodeDot dot ∉ before.edgeAlive.dotsOf edge.key
  | .blobValue _ _ => True
  | op => Effective before op eventId

/-- None of the dots is a dot of two elements. -/
def ORSet.Unshared (set : ORSet) (dots : List JsString) : Prop :=
  ∀ d ∈ dots, ∀ x y, d ∈ set.dotsOf x → d ∈ set.dotsOf y → x = y

/-- The operation is of a known type, and no dot that it removes is a dot of two elements. -/
def Plain (before : WarpStateV5 V) : OpV2 V → Prop
  | .nodeRemove _ observedDots => before.nodeAlive.Unshared observedDots
  | .edgeRemove _ _ _ observedDots => before.edgeAlive.Unshared observedDots
  | .unknown _ => False
  | _ => True

/-- The state that `applyFast` has reached before the operation at `index`. -/
def stateBefore (state : WarpStateV5 V) (patch : PatchV2 V) (patchSha : JsString) (index : Nat) :
    Except JsError (WarpStateV5 V) :=
  (patch.ops.zipIdx.take index).foldlM (fun state item => do
    let eventId ← createEventId patch.lamport patch.writer patchSha item.2
    let op ← normalizeRawOp item.1
    applyOpV2 state op eventId) state

/-- Whether an operation has an entry in the receipt. -/
def hasEntry (raw : OpV2 V) : Bool :=
  match normalizeRawOp raw with
  | .ok op => (receiptOpType op).isSome
  | .error _ => false

/-- The entry is of this operation's type, and `tells` of it in the state before it. -/
def EntryTells (tells : WarpStateV5 V → OpV2 V → EventId → OutcomeResult → Prop) (state : WarpStateV5 V)
    (patch : PatchV2 V) (patchSha : JsString) (item : OpV2 V × Nat) (entry : OpOutcome) : Prop :=
  ∃ op eventId before, normalizeRawOp item.1 = .ok op ∧
    createEventId patch.lamport patch.writer patchSha item.2 = .ok eventId ∧
    stateBefore state patch patchSha item.2 = .ok before ∧ receiptOpType op = some entry.op ∧
    tells before op eventId entry.result

/-- One entry for each operation that has one, in their order, and each tells of its operation. -/
def ReceiptTells (tells : WarpStateV5 V → OpV2 V → EventId → OutcomeResult → Prop) (state : WarpStateV5 V)
    (patch : PatchV2 V) (patchSha : JsString) (receipt : TickReceipt) : Prop :=
  List.Forall₂ (EntryTells tells state patch patchSha) (patch.ops.zipIdx.filter fun item => hasEntry item.1)
    receipt.ops

/-! ### Removes -/

theorem liveDots_orsetRemove (set : ORSet) (observedDots : List JsString) (element : JsString) :
    (orsetRemove set observedDots).liveDots element = {d ∈ set.liveDots element | d ∉ observedDots} := by
  ext d
  simp only [ORSet.liveDots, orsetRemove, ORSet.dotsOf, Set.mem_ofPred_eq, JsSet.mem_addAll, not_or, and_assoc]

/-- Some observed dot keeps an element alive. -/
theorem orsetRemove_changes_iff (set : ORSet) (observedDots : List JsString) :
    (∃ element, (orsetRemove set observedDots).liveDots element ≠ set.liveDots element) ↔
      ∃ d ∈ observedDots, d ∉ set.tombstones ∧ ∃ element, d ∈ set.dotsOf element := by
  constructor
  · rintro ⟨element, hne⟩
    rw [liveDots_orsetRemove] at hne
    by_contra hnone
    refine hne (Set.ext fun d => ⟨And.left, fun hlive => ⟨hlive, fun hobserved => ?_⟩⟩)
    exact hnone ⟨d, hobserved, hlive.2, element, hlive.1⟩
  · rintro ⟨d, hobserved, htomb, element, hdot⟩
    refine ⟨element, fun heq => ?_⟩
    have hmem : d ∈ set.liveDots element := ⟨hdot, htomb⟩
    rw [← heq, liveDots_orsetRemove] at hmem
    exact hmem.2 hobserved

/-- What the scan finds are owners. -/
theorem mem_of_foldl_scanPair {targetDots : JsSet JsString} {pairs : List (JsString × JsString)}
    {acc : JsMap JsString JsString × Nat} {d x : JsString}
    (h : (pairs.foldl (scanPair targetDots) acc).1.get d = some x) : acc.1.get d = some x ∨ (x, d) ∈ pairs := by
  induction pairs generalizing acc with
  | nil => exact Or.inl h
  | cons pair rest ih =>
      rcases ih h with hacc | hrest
      · unfold scanPair at hacc
        split at hacc
        · exact Or.inl hacc
        · split at hacc
          · rw [JsMap.get_set] at hacc
            split at hacc
            · rename_i hd
              cases hacc
              exact Or.inr (by rw [hd]; exact List.mem_cons_self)
            · exact Or.inl hacc
          · exact Or.inl hacc
      · exact Or.inr (List.mem_cons_of_mem _ hrest)

/-- The scan passes over the dots that are not looked for. -/
theorem foldl_scanPair_filter (targetDots : JsSet JsString) (pairs : List (JsString × JsString))
    (acc : JsMap JsString JsString × Nat) :
    pairs.foldl (scanPair targetDots) acc =
      (pairs.filter fun pair => targetDots.has pair.2).foldl (scanPair targetDots) acc := by
  induction pairs generalizing acc with
  | nil => rfl
  | cons pair rest ih =>
      rw [List.foldl_cons, List.filter_cons, ih]
      cases htarget : targetDots.has pair.2 with
      | true => rfl
      | false =>
          have hskip : scanPair targetDots acc pair = acc := by
            unfold scanPair
            rw [htarget]
            split <;> rfl
          rw [hskip]
          rfl

/-- The scan finds every dot that is looked for and has an owner, if none has two. -/
theorem get_buildDotToElement_unshared {set : ORSet} {targetDots : JsSet JsString}
    (hunshared : set.Unshared targetDots.elems) (d x : JsString) :
    (buildDotToElement set targetDots).get d = some x ↔ d ∈ set.dotsOf x ∧ d ∈ targetDots := by
  have hnodup : ((set.pairs.filter fun pair => targetDots.has pair.2).map Prod.snd).Nodup := by
    refine ((nodup_pairs set).filter _).map_on fun p hp q hq hsnd => ?_
    obtain ⟨x, d⟩ := p
    obtain ⟨y, d'⟩ := q
    simp only at hsnd
    subst hsnd
    rw [List.mem_filter, mem_pairs, JsSet.has_iff] at hp hq
    rw [hunshared d hp.2 x y hp.1 hq.1]
  have hscan := get_foldl_scanPair targetDots _ hnodup JsMap.empty targetDots.size [] List.nodup_nil (by simp) (by simp)
    (by simp) d x
  rw [← foldl_scanPair_filter] at hscan
  simp only [JsMap.get_empty, reduceCtorEq, false_and, false_or, List.mem_filter, mem_pairs, JsSet.has_iff] at hscan
  exact hscan.trans ⟨fun h => ⟨h.1.1, h.2⟩, fun h => ⟨⟨h.1, h.2⟩, h.2⟩⟩

theorem removeIsEffective_iff (set : ORSet) (observedDots : List JsString) :
    removeIsEffective set observedDots = true ↔
      ∃ d ∈ observedDots, d ∉ set.tombstones ∧
        ∃ x, (buildDotToElement set (JsSet.ofList observedDots)).get d = some x := by
  unfold removeIsEffective
  simp only [List.any_eq_true, Bool.and_eq_true, Bool.not_eq_true', JsMap.has, Option.isSome_iff_exists]
  refine exists_congr fun d => and_congr (JsSet.mem_ofList observedDots d) (and_congr ?_ Iff.rfl)
  rw [← JsSet.has_iff, Bool.not_eq_true]

theorem changes_of_removeIsEffective {set : ORSet} {observedDots : List JsString}
    (h : removeIsEffective set observedDots = true) :
    ∃ element, (orsetRemove set observedDots).liveDots element ≠ set.liveDots element := by
  obtain ⟨d, hd, htomb, x, hx⟩ := (removeIsEffective_iff set observedDots).mp h
  rcases mem_of_foldl_scanPair hx with hempty | hpair
  · cases hempty
  · exact (orsetRemove_changes_iff set observedDots).mpr ⟨d, hd, htomb, x, (mem_pairs set x d).mp hpair⟩

theorem removeIsEffective_of_changes {set : ORSet} {observedDots : List JsString}
    (hunshared : set.Unshared observedDots)
    (h : ∃ element, (orsetRemove set observedDots).liveDots element ≠ set.liveDots element) :
    removeIsEffective set observedDots = true := by
  obtain ⟨d, hd, htomb, x, hx⟩ := (orsetRemove_changes_iff set observedDots).mp h
  refine (removeIsEffective_iff set observedDots).mpr ⟨d, hd, htomb, x, ?_⟩
  have htargets : set.Unshared (JsSet.ofList observedDots).elems :=
    fun e he => hunshared e ((JsSet.mem_ofList observedDots e).mp he)
  exact (get_buildDotToElement_unshared htargets d x).mpr ⟨hx, (JsSet.mem_ofList observedDots d).mpr hd⟩

/-! ### Properties -/

/-- A write changes its register unless the one that is there is of the same or a greater event. -/
theorem setRegister_changes_iff (prop : JsMap JsString (LWWRegister V)) (key : JsString) (eventId : EventId)
    (value : Option V) :
    (∃ key', (setRegister prop key eventId value).get key' ≠ prop.get key') ↔
      ∀ current, prop.get key = some current → current.eventId < eventId := by
  constructor
  · rintro ⟨key', hne⟩ current hcurrent
    rw [get_setRegister] at hne
    split at hne
    · rename_i hkey
      rw [hkey, hcurrent] at hne
      refine not_le.mp fun hle => hne ?_
      have hcmp : 0 ≤ compareEventIds current.eventId (lwwSet eventId value).eventId :=
        (compareEventIds_nonneg_iff _ _).mpr hle
      rw [lwwMax, if_pos hcmp]
    · exact absurd rfl hne
  · intro hbelow
    refine ⟨key, fun heq => ?_⟩
    rw [get_setRegister, if_pos rfl] at heq
    cases hcurrent : prop.get key with
    | none =>
        rw [hcurrent] at heq
        cases heq
    | some current =>
        have hlt := hbelow current hcurrent
        have hcmp : ¬ 0 ≤ compareEventIds current.eventId (lwwSet eventId value).eventId :=
          fun h => not_le.mpr hlt ((compareEventIds_nonneg_iff _ _).mp h)
        rw [hcurrent, lwwMax, if_neg hcmp, Option.some.injEq] at heq
        rw [← heq] at hlt
        exact lt_irrefl _ hlt

/-- The outcome of a write, from the register that is there. -/
theorem propOutcomeForKey_result (prop : JsMap JsString (LWWRegister V)) (key : JsString) (eventId : EventId) :
    ((propOutcomeForKey prop key eventId).result = .applied ↔
        ∀ current, prop.get key = some current → current.eventId < eventId) ∧
      ((propOutcomeForKey prop key eventId).result = .superseded ↔
        ∃ current, prop.get key = some current ∧ eventId < current.eventId) := by
  unfold propOutcomeForKey
  cases hcurrent : prop.get key with
  | none => simp
  | some current =>
      simp only [Option.some.injEq, forall_eq', exists_eq_left', compareEventIds_pos_iff]
      rcases lt_trichotomy current.eventId eventId with hlt | heq | hgt
      · simp [hlt, hlt.not_gt]
      · subst heq
        simp [compareEventIds]
      · have hcmp : compareEventIds eventId current.eventId < 0 :=
          not_le.mp fun h => not_le.mpr hgt ((compareEventIds_nonneg_iff _ _).mp h)
        simp [hgt, hgt.not_gt, hcmp]

/-! ### One operation -/

/-- Two verdicts settle the third. -/
theorem tells_of {counts : WarpStateV5 V → OpV2 V → EventId → Prop} {before : WarpStateV5 V} {op : OpV2 V}
    {eventId : EventId} {result : OutcomeResult} (happlied : result = .applied ↔ counts before op eventId)
    (hsuperseded : result = .superseded ↔ Outranked before op eventId) : Tells counts before op eventId result := by
  refine ⟨happlied, hsuperseded, ?_⟩
  rw [← happlied, ← hsuperseded]
  cases result <;> simp

/-- An operation that writes no register is applied or redundant. -/
theorem tells_of_no_register {counts : WarpStateV5 V → OpV2 V → EventId → Prop} {before : WarpStateV5 V} {op : OpV2 V}
    {eventId : EventId} {result : OutcomeResult} (hkey : registerKey op = none)
    (happlied : result = .applied ↔ counts before op eventId) (hresult : result ≠ .superseded) :
    Tells counts before op eventId result := by
  refine tells_of happlied (iff_of_false hresult ?_)
  rintro ⟨key, current, after, hkey', -⟩
  rw [hkey] at hkey'
  cases hkey'

theorem addOutcome_result (orset : ORSet) (element : JsString) (dot : Dot) :
    ((addOutcome orset element dot).result = .applied ↔ encodeDot dot ∉ orset.dotsOf element) ∧
      (addOutcome orset element dot).result ≠ .superseded := by
  unfold addOutcome
  rw [← JsSet.has_iff]
  cases (orset.dotsOf element).has (encodeDot dot) <;> simp

theorem removeOutcome_result (orset : ORSet) (observedDots : List JsString) (target : JsString) :
    ((removeOutcome orset observedDots target).result = .applied ↔ removeIsEffective orset observedDots = true) ∧
      (removeOutcome orset observedDots target).result ≠ .superseded := by
  unfold removeOutcome
  cases removeIsEffective orset observedDots <;> simp

theorem effective_nodeRemove_iff (before : WarpStateV5 V) (node : Option JsString) (observedDots : List JsString)
    (eventId : EventId) :
    Effective before (.nodeRemove node observedDots) eventId ↔
      ∃ element, (orsetRemove before.nodeAlive observedDots).liveDots element ≠ before.nodeAlive.liveDots element := by
  simp [Effective, Differs, applyOpV2, pure, Except.pure]

theorem effective_edgeRemove_iff (before : WarpStateV5 V) (fromId toId label : Option JsString)
    (observedDots : List JsString) (eventId : EventId) :
    Effective before (.edgeRemove fromId toId label observedDots) eventId ↔
      ∃ element, (orsetRemove before.edgeAlive observedDots).liveDots element ≠ before.edgeAlive.liveDots element := by
  simp [Effective, Differs, applyOpV2, pure, Except.pure]

/-- A write to a register is told of by the event that wrote the register last. -/
theorem tells_setRegister {before : WarpStateV5 V} {op : OpV2 V} {eventId : EventId} {key : JsString} {value : Option V}
    (hkey : registerKey op = some key)
    (happly : applyOpV2 before op eventId = .ok { before with prop := setRegister before.prop key eventId value }) :
    Tells Effective before op eventId (propOutcomeForKey before.prop key eventId).result := by
  obtain ⟨happlied, hsuperseded⟩ := propOutcomeForKey_result before.prop key eventId
  refine tells_of (happlied.trans ?_) (hsuperseded.trans ?_)
  · rw [← setRegister_changes_iff before.prop key eventId value]
    simp [Effective, Differs, happly]
  · constructor
    · rintro ⟨current, hcurrent, hlt⟩
      refine ⟨key, current, _, hkey, hcurrent, happly, ?_, hlt⟩
      by_contra hne
      have hchanged := (setRegister_changes_iff before.prop key eventId value).mp ⟨key, by rw [hcurrent]; exact hne⟩
      exact lt_asymm hlt (hchanged current hcurrent)
    · rintro ⟨key', current, after, hkey', hcurrent, -, -, hlt⟩
      cases hkey.symm.trans hkey'
      exact ⟨current, hcurrent, hlt⟩

/-- The types that the reducer knows. -/
def Known : OpV2 V → Prop
  | .unknown _ => False
  | _ => True

/-- What the entry of an operation says in any state. -/
structure EntryTruth (before : WarpStateV5 V) (op : OpV2 V) (eventId : EventId) (result : OutcomeResult) : Prop where
  tells : Plain before op → Tells Counts before op eventId result
  sound : Known op → result = .applied → Counts before op eventId

theorem entryTruth_of_tells {before : WarpStateV5 V} {op : OpV2 V} {eventId : EventId} {result : OutcomeResult}
    (h : Tells Counts before op eventId result) : EntryTruth before op eventId result :=
  ⟨fun _ => h, fun _ => h.applied.mp⟩

theorem entryTruth_opOutcome {raw op : OpV2 V} (hop : normalizeRawOp raw = .ok op) (before : WarpStateV5 V)
    (eventId : EventId) : EntryTruth before op eventId (opOutcome before op eventId).result := by
  cases op with
  | nodeAdd node dot =>
      obtain ⟨happlied, hresult⟩ := addOutcome_result before.nodeAlive node dot
      exact entryTruth_of_tells (tells_of_no_register rfl happlied hresult)
  | edgeAdd edge dot =>
      obtain ⟨happlied, hresult⟩ := addOutcome_result before.edgeAlive edge.key dot
      exact entryTruth_of_tells (tells_of_no_register rfl happlied hresult)
  | nodeRemove node observedDots =>
      obtain ⟨happlied, hresult⟩ := removeOutcome_result before.nodeAlive observedDots (orAnyTarget node)
      have heffective := effective_nodeRemove_iff before node observedDots eventId
      refine ⟨fun hunshared => tells_of_no_register rfl (happlied.trans ⟨fun h => ?_, fun h => ?_⟩) hresult,
        fun _ h => ?_⟩
      · exact heffective.mpr (changes_of_removeIsEffective h)
      · exact removeIsEffective_of_changes hunshared (heffective.mp h)
      · exact heffective.mpr (changes_of_removeIsEffective (happlied.mp h))
  | edgeRemove fromId toId label observedDots =>
      obtain ⟨happlied, hresult⟩ := removeOutcome_result before.edgeAlive observedDots
        (edgeRemoveOutcome before.edgeAlive fromId toId label observedDots).target
      have heffective := effective_edgeRemove_iff before fromId toId label observedDots eventId
      refine ⟨fun hunshared => tells_of_no_register rfl (happlied.trans ⟨fun h => ?_, fun h => ?_⟩) hresult,
        fun _ h => ?_⟩
      · exact heffective.mpr (changes_of_removeIsEffective h)
      · exact removeIsEffective_of_changes hunshared (heffective.mp h)
      · exact heffective.mpr (changes_of_removeIsEffective (happlied.mp h))
  | propSet node key value => exact absurd rfl (normalizeRawOp_ne_propSet hop node key value)
  | nodePropSet node key value =>
      have htells : Tells Effective before (.nodePropSet node key value) eventId _ := tells_setRegister rfl rfl
      exact entryTruth_of_tells ⟨htells.applied, htells.superseded, htells.redundant⟩
  | edgePropSet edge key value =>
      have htells : Tells Effective before (.edgePropSet edge key value) eventId _ := tells_setRegister rfl rfl
      exact entryTruth_of_tells ⟨htells.applied, htells.superseded, htells.redundant⟩
  | blobValue node oid => exact entryTruth_of_tells (tells_of_no_register rfl (iff_of_true rfl trivial) nofun)
  | unknown type => exact ⟨fun h => absurd h id, fun h => absurd h id⟩

/-! ### The receipt of a patch -/

theorem receipt_ops {patchSha writer : JsString} {lamport : Nat} {ops : List OpOutcome} {receipt : TickReceipt}
    (h : createTickReceipt patchSha writer lamport ops = .ok receipt) : receipt.ops = ops := by
  unfold createTickReceipt at h
  split at h
  · cases h
  · split at h
    · cases h
    · split at h
      · cases h
      · cases h
        rfl

theorem readOp_ok_iff {patch : PatchV2 V} {patchSha : JsString} {item : OpV2 V × Nat} {event : OpV2 V × EventId} :
    readOp patch patchSha item = .ok event ↔
      normalizeRawOp item.1 = .ok event.1 ∧ createEventId patch.lamport patch.writer patchSha item.2 = .ok event.2 := by
  unfold readOp
  simp only [bind_ok_iff, pure, Except.pure, Except.ok.injEq]
  constructor
  · rintro ⟨eventId, hid, op, hop, rfl⟩
    exact ⟨hop, hid⟩
  · rintro ⟨hop, hid⟩
    exact ⟨_, hid, _, hop, rfl⟩

theorem applyWithReceipt_ok {state next : WarpStateV5 V} {patch : PatchV2 V} {patchSha : JsString}
    {receipt : TickReceipt} (h : applyWithReceipt state patch patchSha = .ok (next, receipt)) :
    ∃ events, patch.ops.zipIdx.mapM (readOp patch patchSha) = .ok events ∧ receipt.ops = receiptOps state events := by
  unfold applyWithReceipt at h
  simp only [bind_ok_iff] at h
  obtain ⟨acc, hloop, frontier, -, receipt', hreceipt, hpair⟩ := h
  have hread : ∀ (acc : WarpStateV5 V × List OpOutcome) (item : OpV2 V × Nat) (out : WarpStateV5 V × List OpOutcome),
      (do let canonOp ← normalizeRawOp item.1
          let eventId ← createEventId patch.lamport patch.writer patchSha item.2
          let entry := receiptEntry acc.1 canonOp eventId
          let state ← applyOpV2 acc.1 canonOp eventId
          return (state, acc.2 ++ entry)) = Except.ok out →
        ∃ event, readOp patch patchSha item = .ok event ∧ receiptEvent acc event = out := by
    intro acc item out hout
    simp only [bind_ok_iff] at hout
    obtain ⟨op, hop, eventId, hid, s, happly, hpair⟩ := hout
    rw [applyOpV2_normalized hop] at happly
    cases happly
    cases hpair
    exact ⟨(op, eventId), readOp_ok_iff.mpr ⟨hop, hid⟩, rfl⟩
  have hround : ∀ (acc : WarpStateV5 V × List OpOutcome) (item : OpV2 V × Nat) (event : OpV2 V × EventId),
      readOp patch patchSha item = .ok event →
        ∃ out, (do
          let canonOp ← normalizeRawOp item.1
          let eventId ← createEventId patch.lamport patch.writer patchSha item.2
          let entry := receiptEntry acc.1 canonOp eventId
          let state ← applyOpV2 acc.1 canonOp eventId
          return (state, acc.2 ++ entry)) = Except.ok out := by
    intro acc item event hevent
    obtain ⟨hop, hid⟩ := readOp_ok_iff.mp hevent
    simp only [bind_ok_iff]
    exact ⟨_, _, hop, _, hid, _, applyOpV2_normalized hop acc.1 event.2, rfl⟩
  obtain ⟨events, hevents, hfold⟩ :=
    (foldlM_part_ok_iff id (readOp patch patchSha) _ receiptEvent hread hround _ _ _).mp ⟨acc, hloop, rfl⟩
  refine ⟨events, hevents, ?_⟩
  cases hpair
  rw [receipt_ops hreceipt, ← show receiptOps state events = acc.2 from congrArg Prod.snd hfold]

/-- The entries of the rest of a patch, in the state that its first operations lead to. -/
theorem entries_tell {state : WarpStateV5 V} {patch : PatchV2 V} {patchSha : JsString}
    (first rest : List (OpV2 V × Nat)) (hitems : patch.ops.zipIdx = first ++ rest) (acc : WarpStateV5 V × List OpOutcome)
    (hbefore : stateBefore state patch patchSha first.length = .ok acc.1) {events : List (OpV2 V × EventId)}
    (hevents : rest.mapM (readOp patch patchSha) = .ok events) :
    ∃ entries, (events.foldl receiptEvent acc).2 = acc.2 ++ entries ∧
      List.Forall₂ (EntryTells EntryTruth state patch patchSha) (rest.filter fun item => hasEntry item.1) entries := by
  induction rest generalizing first acc events with
  | nil =>
      cases hevents
      exact ⟨[], (List.append_nil _).symm, List.Forall₂.nil⟩
  | cons item rest ih =>
      obtain ⟨event, restEvents, hevent, hrest, rfl⟩ := mapM_cons_ok_iff.mp hevents
      obtain ⟨hop, hid⟩ := readOp_ok_iff.mp hevent
      have hsplit : patch.ops.zipIdx = (first ++ [item]) ++ rest := by
        rw [hitems, List.append_assoc]
        rfl
      have hindex : item.2 = first.length := by
        have hget : patch.ops.zipIdx[first.length]? = some item := by
          rw [hitems, List.getElem?_append_right le_rfl, Nat.sub_self]
          rfl
        rw [List.getElem?_zipIdx, Option.map_eq_some_iff] at hget
        obtain ⟨op, -, rfl⟩ := hget
        exact Nat.zero_add _
      have hnext : stateBefore state patch patchSha (first ++ [item]).length = .ok (receiptEvent acc event).1 := by
        unfold stateBefore at hbefore ⊢
        rw [hitems, List.take_left] at hbefore
        rw [hsplit, List.take_left, List.foldlM_append, hbefore]
        simp only [List.foldlM_cons, bind, Except.bind, hid, hop, applyOpV2_normalized hop]
        rfl
      obtain ⟨entries, hfold, htell⟩ := ih (first ++ [item]) hsplit (receiptEvent acc event) hnext hrest
      rw [List.foldl_cons, hfold, List.filter_cons]
      have hentry : hasEntry item.1 = (receiptOpType event.1).isSome := by
        unfold hasEntry
        rw [hop]
      rw [hentry]
      unfold receiptEvent receiptEntry
      cases htype : receiptOpType event.1 with
      | none => exact ⟨entries, by rw [List.append_nil], htell⟩
      | some type =>
          refine ⟨_ :: entries, List.append_assoc .., List.Forall₂.cons ?_ htell⟩
          rw [← hindex] at hbefore
          exact ⟨event.1, event.2, acc.1, hop, hid, hbefore, htype, entryTruth_opOutcome hop acc.1 event.2⟩

/-- The receipt tells, of every operation, what it did in the state before it. -/
theorem receipt_tells {state next : WarpStateV5 V} {patch : PatchV2 V} {patchSha : JsString} {receipt : TickReceipt}
    (h : applyWithReceipt state patch patchSha = .ok (next, receipt)) :
    ReceiptTells EntryTruth state patch patchSha receipt := by
  obtain ⟨events, hevents, hops⟩ := applyWithReceipt_ok h
  obtain ⟨entries, hfold, htell⟩ := entries_tell [] patch.ops.zipIdx rfl (state, []) rfl hevents
  unfold ReceiptTells
  rw [hops, receiptOps, hfold, List.nil_append]
  exact htell

/-! ### Where `applied` is said of more, or of less, than what makes a difference -/

theorem not_effective_blobValue (before : WarpStateV5 V) (node oid : JsString) (eventId : EventId) :
    ¬ Effective before (.blobValue node oid) eventId := by
  rintro ⟨after, happly, hdiffers⟩
  cases happly
  rcases hdiffers with ⟨_, h⟩ | ⟨_, h⟩ | ⟨_, h⟩ <;> exact h rfl

/-- Adding a dot that was removed before makes no difference. -/
theorem not_effective_nodeAdd {before : WarpStateV5 V} {dot : Dot} (hremoved : encodeDot dot ∈ before.nodeAlive.tombstones)
    (node : JsString) (eventId : EventId) : ¬ Effective before (.nodeAdd node dot) eventId := by
  rintro ⟨after, happly, hdiffers⟩
  cases happly
  rcases hdiffers with ⟨element, h⟩ | ⟨_, h⟩ | ⟨_, h⟩
  · refine h (Set.ext fun d => ?_)
    simp only [ORSet.liveDots, Set.mem_ofPred_eq, dotsOf_orsetAdd]
    split
    · rename_i helement
      rw [JsSet.mem_add, helement]
      exact ⟨fun hd => ⟨hd.1.resolve_left fun heq => hd.2 (heq ▸ hremoved), hd.2⟩, fun hd => ⟨Or.inr hd.1, hd.2⟩⟩
    · exact Iff.rfl
  · exact h rfl
  · exact h rfl

/-- One entry that says `applied` where the operation makes no difference, or does not where it makes one. -/
theorem misleads {state : WarpStateV5 V} {patch : PatchV2 V} {patchSha : JsString} {results : List OutcomeResult}
    (hresults : ((applyWithReceipt state patch patchSha).map fun out => out.2.ops.map OpOutcome.result).toOption =
      some results)
    {i : Nat} {item : OpV2 V × Nat} (hitem : (patch.ops.zipIdx.filter fun item => hasEntry item.1)[i]? = some item)
    {result : OutcomeResult} (hresult : results[i]? = some result) {op : OpV2 V} (hop : normalizeRawOp item.1 = .ok op)
    {before : WarpStateV5 V} (hbefore : (stateBefore state patch patchSha item.2).toOption = some before)
    (hwrong : ∀ eventId, ¬ (result = .applied ↔ Effective before op eventId)) :
    ∃ next receipt, applyWithReceipt state patch patchSha = .ok (next, receipt) ∧
      ¬ ReceiptTells (Tells Effective) state patch patchSha receipt := by
  cases happly : applyWithReceipt state patch patchSha with
  | error err =>
      rw [happly] at hresults
      cases hresults
  | ok out =>
      rw [happly] at hresults
      refine ⟨out.1, out.2, rfl, fun htells => ?_⟩
      cases hresults
      rw [List.getElem?_map, Option.map_eq_some_iff] at hresult
      obtain ⟨entry, hentry, rfl⟩ := hresult
      obtain ⟨hi, rfl⟩ := List.getElem?_eq_some_iff.mp hitem
      obtain ⟨hj, rfl⟩ := List.getElem?_eq_some_iff.mp hentry
      obtain ⟨op', eventId, before', hop', -, hbefore', -, htell⟩ := (List.forall₂_iff_get.mp htells).2 i hi hj
      rw [List.get_eq_getElem] at hop' hbefore'
      cases hop.symm.trans hop'
      cases (toOption_eq_some hbefore).symm.trans hbefore'
      exact hwrong eventId htell.applied

namespace Misleading

def patchOf (ops : List (OpV2 Nat)) : PatchV2 Nat := ⟨2, js "w", 1, .record [], ops⟩

def storesBlob : PatchV2 Nat := patchOf [.blobValue (js "n") (js "oid")]

/-- An add whose dot was removed by the operation before it. -/
def addsRemoved : PatchV2 Nat := patchOf [.nodeRemove none [js "w:1"], .nodeAdd (js "n") ⟨js "w", 1⟩]

/-- A remove of two dots, the first of which, removed before, is a dot of two nodes. -/
def removesShared : PatchV2 Nat :=
  patchOf [.nodeAdd (js "a") ⟨js "w", 1⟩, .nodeAdd (js "b") ⟨js "w", 1⟩, .nodeRemove none [js "w:1"],
    .nodeAdd (js "c") ⟨js "w", 2⟩, .nodeRemove none [js "w:1", js "w:2"]]

/-- The state before the last operation of `addsRemoved`. -/
def beforeAdd : WarpStateV5 Nat := { createEmptyStateV5 with nodeAlive := orsetRemove createORSet [js "w:1"] }

/-- The state before the last operation of `removesShared`. -/
def beforeRemove : WarpStateV5 Nat :=
  { createEmptyStateV5 with
    nodeAlive := orsetAdd (orsetRemove (orsetAdd (orsetAdd createORSet (js "a") ⟨js "w", 1⟩) (js "b") ⟨js "w", 1⟩)
      [js "w:1"]) (js "c") ⟨js "w", 2⟩ }

/-- A receipt that is wrong about a blob, one that is wrong about an add, and one that is wrong about a remove. -/
theorem receipts_mislead :
    (∃ next receipt, applyWithReceipt createEmptyStateV5 storesBlob (js "abcd") = .ok (next, receipt) ∧
        ¬ ReceiptTells (Tells Effective) createEmptyStateV5 storesBlob (js "abcd") receipt) ∧
      (∃ next receipt, applyWithReceipt createEmptyStateV5 addsRemoved (js "abcd") = .ok (next, receipt) ∧
        ¬ ReceiptTells (Tells Effective) createEmptyStateV5 addsRemoved (js "abcd") receipt) ∧
      ∃ next receipt, applyWithReceipt createEmptyStateV5 removesShared (js "abcd") = .ok (next, receipt) ∧
        ¬ ReceiptTells (Tells Effective) createEmptyStateV5 removesShared (js "abcd") receipt := by
  refine ⟨?_, ?_, ?_⟩
  · refine misleads (show _ = some [OutcomeResult.applied] by decide +kernel) (i := 0) rfl rfl rfl
      (show _ = some (createEmptyStateV5 : WarpStateV5 Nat) by decide +kernel) fun eventId h => ?_
    exact not_effective_blobValue _ _ _ _ (h.mp rfl)
  · refine misleads (show _ = some [OutcomeResult.redundant, .applied] by decide +kernel) (i := 1) rfl rfl rfl
      (show _ = some beforeAdd by decide +kernel) fun eventId h => ?_
    exact not_effective_nodeAdd (by decide +kernel) _ _ (h.mp rfl)
  · refine misleads (show _ = some [OutcomeResult.applied, .applied, .applied, .applied, .redundant] by decide +kernel)
      (i := 4) rfl rfl rfl (show _ = some beforeRemove by decide +kernel) fun eventId h => ?_
    have heffective := (effective_nodeRemove_iff beforeRemove none [js "w:1", js "w:2"] eventId).mpr
      ((orsetRemove_changes_iff _ _).mpr ⟨js "w:2", by decide +kernel, by decide +kernel, js "c", by decide +kernel⟩)
    cases h.mpr heffective

/-- The receipt of the removed add: `redundant` for the remove, which observed nothing, and `applied` for the add. -/
theorem receipt_tells_addsRemoved :
    ∃ next receipt, applyWithReceipt createEmptyStateV5 addsRemoved (js "abcd") = .ok (next, receipt) ∧
      ReceiptTells EntryTruth createEmptyStateV5 addsRemoved (js "abcd") receipt := by
  have hok : (applyWithReceipt createEmptyStateV5 addsRemoved (js "abcd")).isOk = true := by decide +kernel
  cases happly : applyWithReceipt createEmptyStateV5 addsRemoved (js "abcd") with
  | error err =>
      rw [happly] at hok
      cases hok
  | ok out => exact ⟨out.1, out.2, rfl, receipt_tells happly⟩

end Misleading

end GitWarp
