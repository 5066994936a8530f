import GitWarp.ReducerContents
import GitWarp.ReducerConvergence

/-! Replays that differ in the values written and in the contexts only. The state then differs in the registers
whose last write has another value and in the counters that no tick of a patch reaches. -/

namespace GitWarp
open Js ExceptLoops

variable {V : Type}

/-- The value that an operation writes. -/
def OpV2.value : OpV2 V → Option V
  | .propSet _ _ value => value
  | .nodePropSet _ _ value => value
  | .edgePropSet _ _ value => value
  | _ => none

def OpV2.mapValue (f : V → V) : OpV2 V → OpV2 V
  | .propSet node key value => .propSet node key (value.map f)
  | .nodePropSet node key value => .nodePropSet node key (value.map f)
  | .edgePropSet edge key value => .edgePropSet edge key (value.map f)
  | op => op

/-- The patch with an empty context and its values rewritten. -/
def PatchV2.rewritten (f : V → V) (patch : PatchV2 V) : PatchV2 V :=
  { patch with context := .record [], ops := patch.ops.map (OpV2.mapValue f) }

def ReadPatch.rewritten (f : V → V) (read : ReadPatch V) : ReadPatch V :=
  { read with
    events := read.events.map fun event => (event.1.mapValue f, event.2)
    context := createVersionVector }

/-! ### Reading a rewritten patch -/

theorem normalizeRawOp_mapValue (f : V → V) (op : OpV2 V) :
    normalizeRawOp (op.mapValue f) = (normalizeRawOp op).map (OpV2.mapValue f) := by
  cases op with
  | propSet node key value =>
      simp only [OpV2.mapValue, normalizeRawOp]
      split
      · cases decodeLegacyEdgePropNode node <;> rfl
      · rfl
  | _ => rfl

theorem write_mapValue (f : V → V) (op : OpV2 V) :
    (op.mapValue f).write = op.write.map fun target => (target.1, target.2.map f) := by
  cases op with
  | propSet node key value =>
      simp only [OpV2.mapValue, OpV2.write]
      split <;> rfl
  | _ => rfl

/-- The patch of an entry with a version vector as context reads as before, rewritten. -/
theorem readPatch_rewritten (f : V → V) {entry : PatchEntry V} {vv : VersionVector}
    (hcontext : entry.patch.context = .map vv) :
    readPatch ⟨entry.patch.rewritten f, entry.sha⟩ = (readPatch entry).map (ReadPatch.rewritten f) := by
  have hop : ∀ item ∈ entry.patch.ops.zipIdx,
      readOp (entry.patch.rewritten f) entry.sha (Prod.map (OpV2.mapValue f) id item) =
        (readOp entry.patch entry.sha item).map fun event => (event.1.mapValue f, event.2) := by
    intro item _
    unfold readOp
    rw [Prod.map_fst, normalizeRawOp_mapValue]
    show (do
      let eventId ← createEventId entry.patch.lamport entry.patch.writer entry.sha item.2
      let op ← (normalizeRawOp item.1).map (OpV2.mapValue f)
      return (op, eventId) : Except JsError (OpV2 V × EventId)) = _
    cases createEventId entry.patch.lamport entry.patch.writer entry.sha item.2 with
    | error err => rfl
    | ok eventId => cases normalizeRawOp item.1 <;> rfl
  unfold readPatch
  show (do
    let events ← (entry.patch.ops.map (OpV2.mapValue f)).zipIdx.mapM (readOp (entry.patch.rewritten f) entry.sha)
    let context ← contextVV (.record [])
    return ⟨events, context, entry.patch.writer, entry.patch.lamport⟩ : Except JsError (ReadPatch V)) = _
  rw [List.zipIdx_map, mapM_map_eq hop, hcontext]
  cases entry.patch.ops.zipIdx.mapM (readOp entry.patch entry.sha) <;> rfl

/-! ### Values -/

/-- Some patch writes the register under the key. -/
def Writes (reads : List (ReadPatch V)) (key : JsString) (register : LWWRegister V) : Prop :=
  ∃ read ∈ reads, ∃ op, (op, register.eventId) ∈ read.events ∧ op.write = some (key, register.value)

/-- `t` is `s` with rewritten values in the registers that were written since `start`. -/
structure Shadows (f : V → V) (W : JsString → LWWRegister V → Prop) (start s t : WarpStateV5 V) : Prop where
  nodeAlive : t.nodeAlive = s.nodeAlive
  edgeAlive : t.edgeAlive = s.edgeAlive
  edgeBirthEvent : t.edgeBirthEvent = s.edgeBirthEvent
  prop : ∀ key, (s.prop.get key = start.prop.get key ∧ t.prop.get key = start.prop.get key) ∨
    ∃ register, W key register ∧ s.prop.get key = some register ∧
      t.prop.get key = some ⟨register.eventId, register.value.map f⟩

theorem lwwMax_shadows {f : V → V} {a b : Option (LWWRegister V)} (register : LWWRegister V)
    (h : a = b ∨ ∃ old, a = some old ∧ b = some ⟨old.eventId, old.value.map f⟩) :
    (lwwMax a (some register) = a ∧ lwwMax b (some ⟨register.eventId, register.value.map f⟩) = b) ∨
      (lwwMax a (some register) = some register ∧
        lwwMax b (some ⟨register.eventId, register.value.map f⟩) =
          some ⟨register.eventId, register.value.map f⟩) := by
  rcases h with rfl | ⟨old, rfl, rfl⟩
  · cases a with
    | none => exact Or.inr ⟨rfl, rfl⟩
    | some old =>
        simp only [lwwMax]
        split
        · exact Or.inl ⟨rfl, rfl⟩
        · exact Or.inr ⟨rfl, rfl⟩
  · simp only [lwwMax]
    split
    · exact Or.inl ⟨rfl, rfl⟩
    · exact Or.inr ⟨rfl, rfl⟩

section Shadows

variable {f : V → V} {W : JsString → LWWRegister V → Prop} {start s t : WarpStateV5 V}

theorem shadows_applyEvent (h : Shadows f W start s t) {event : OpV2 V × EventId}
    (hwrite : ∀ key value, event.1.write = some (key, value) → W key ⟨event.2, value⟩) :
    Shadows f W start (applyEvent s event) (applyEvent t (event.1.mapValue f, event.2)) := by
  have hrest : (applyEvent t (event.1.mapValue f, event.2)).nodeAlive = (applyEvent s event).nodeAlive ∧
      (applyEvent t (event.1.mapValue f, event.2)).edgeAlive = (applyEvent s event).edgeAlive ∧
      (applyEvent t (event.1.mapValue f, event.2)).edgeBirthEvent = (applyEvent s event).edgeBirthEvent := by
    obtain ⟨op, eventId⟩ := event
    cases op with
    | propSet node key value =>
        by_cases hnode : node.head? = some edgePropPrefix <;>
          simp [applyEvent, applyOpV2, OpV2.mapValue, hnode, pure, Except.pure, h.nodeAlive, h.edgeAlive,
            h.edgeBirthEvent]
    | _ =>
        simp [applyEvent, applyOpV2, OpV2.mapValue, pure, Except.pure, h.nodeAlive, h.edgeAlive, h.edgeBirthEvent]
  refine ⟨hrest.1, hrest.2.1, hrest.2.2, fun key => ?_⟩
  rw [prop_applyEvent, prop_applyEvent, write_mapValue]
  cases hop : event.1.write with
  | none => exact h.prop key
  | some target =>
      obtain ⟨key', value⟩ := target
      simp only [Option.map_some, get_setRegister]
      by_cases hkey : key = key'
      · subst hkey
        rw [if_pos rfl, if_pos rfl]
        have hnew : W key ⟨event.2, value⟩ := hwrite key value hop
        rcases h.prop key with ⟨hs, ht⟩ | ⟨old, hold, hs, ht⟩
        · rcases lwwMax_shadows (f := f) ⟨event.2, value⟩ (Or.inl (hs.trans ht.symm)) with hkeep | hnow
          · exact Or.inl ⟨hkeep.1.trans hs, hkeep.2.trans ht⟩
          · exact Or.inr ⟨_, hnew, hnow⟩
        · rcases lwwMax_shadows ⟨event.2, value⟩ (Or.inr ⟨old, hs, ht⟩) with hkeep | hnow
          · exact Or.inr ⟨old, hold, hkeep.1.trans hs, hkeep.2.trans ht⟩
          · exact Or.inr ⟨_, hnew, hnow⟩
      · rw [if_neg hkey, if_neg hkey]
        exact h.prop key

theorem shadows_applyRead (h : Shadows f W start s t) {read : ReadPatch V}
    (hwrite : ∀ event ∈ read.events, ∀ key value, event.1.write = some (key, value) → W key ⟨event.2, value⟩) :
    Shadows f W start (applyRead s read) (applyRead t (read.rewritten f)) := by
  have hevents : ∀ (events : List (OpV2 V × EventId)) (s t : WarpStateV5 V),
      (∀ event ∈ events, ∀ key value, event.1.write = some (key, value) → W key ⟨event.2, value⟩) →
      Shadows f W start s t → Shadows f W start (events.foldl applyEvent s)
        ((events.map fun event => (event.1.mapValue f, event.2)).foldl applyEvent t) := by
    intro events
    induction events with
    | nil => exact fun s t _ hshadows => hshadows
    | cons event rest ih =>
        intro s t hwrites hshadows
        exact ih _ _ (fun other hother => hwrites other (List.mem_cons_of_mem _ hother))
          (shadows_applyEvent hshadows (hwrites event (List.mem_cons_self ..)))
  have hread := hevents read.events s t hwrite h
  exact ⟨hread.nodeAlive, hread.edgeAlive, hread.edgeBirthEvent, hread.prop⟩

end Shadows

theorem shadows_foldl_applyRead (f : V → V) (reads : List (ReadPatch V)) (start : WarpStateV5 V) :
    Shadows f (Writes reads) start (reads.foldl applyRead start)
      ((reads.map (ReadPatch.rewritten f)).foldl applyRead start) := by
  have hloop : ∀ (rest : List (ReadPatch V)) (s t : WarpStateV5 V), (∀ read ∈ rest, read ∈ reads) →
      Shadows f (Writes reads) start s t → Shadows f (Writes reads) start (rest.foldl applyRead s)
        ((rest.map (ReadPatch.rewritten f)).foldl applyRead t) := by
    intro rest
    induction rest with
    | nil => exact fun s t _ hshadows => hshadows
    | cons read rest ih =>
        intro s t hsub hshadows
        refine ih _ _ (fun other hother => hsub other (List.mem_cons_of_mem _ hother))
          (shadows_applyRead hshadows fun event hevent key value hwrite => ?_)
        exact ⟨read, hsub read (List.mem_cons_self ..), event.1, hevent, hwrite⟩
  exact hloop reads start start (fun _ h => h) ⟨rfl, rfl, rfl, fun key => Or.inl ⟨rfl, rfl⟩⟩

/-- Every write of a value that `f` changes is overwritten. -/
def ChangesOverwritten (f : V → V) (reads : List (ReadPatch V)) : Prop :=
  ∀ key register, Writes reads key register → register.value.map f ≠ register.value →
    ∃ later, Writes reads key later ∧ register.eventId < later.eventId

theorem prop_rewritten_iff {f : V → V} {reads : List (ReadPatch V)}
    (hfun : ∀ key register key' register', Writes reads key register → Writes reads key' register' →
      register.eventId = register'.eventId → register = register') :
    (∀ (start : WarpStateV5 V) key, ((reads.map (ReadPatch.rewritten f)).foldl applyRead start).prop.get key =
      (reads.foldl applyRead start).prop.get key) ↔ ChangesOverwritten f reads := by
  constructor
  · intro h key register hwrites hchange
    by_contra hnone
    have hlast : ∀ later, Writes reads key later → later.eventId ≤ register.eventId := fun later hlater =>
      not_lt.mp fun hlt => hnone ⟨later, hlater, hlt⟩
    obtain ⟨read, hread, op, hevent, hwrite⟩ := hwrites
    obtain ⟨winner, hwinner, hle⟩ := le_register_of_write hread hevent hwrite createEmptyStateV5
    rcases (shadows_foldl_applyRead f reads createEmptyStateV5).prop key with ⟨hs, -⟩ | ⟨later, hlater, hs, ht⟩
    · rw [hwinner] at hs
      cases hs
    · rw [hwinner, Option.some.injEq] at hs
      subst hs
      have heq := hfun _ _ _ _ hlater ⟨read, hread, op, hevent, hwrite⟩ (le_antisymm (hlast winner hlater) hle)
      subst heq
      have hsame := h createEmptyStateV5 key
      rw [ht, hwinner, Option.some.injEq] at hsame
      exact hchange (congrArg LWWRegister.value hsame)
  · intro h start key
    rcases (shadows_foldl_applyRead f reads start).prop key with ⟨hs, ht⟩ | ⟨winner, hwrites, hs, ht⟩
    · rw [hs, ht]
    · rw [hs, ht]
      by_cases hchange : winner.value.map f = winner.value
      · rw [hchange]
      · obtain ⟨later, ⟨read, hread, op, hevent, hwrite⟩, hlt⟩ := h key winner hwrites hchange
        obtain ⟨register, hregister, hle⟩ := le_register_of_write hread hevent hwrite start
        rw [hs, Option.some.injEq] at hregister
        subst hregister
        exact absurd (hlt.trans_le hle) (lt_irrefl _)

/-! ### Counters -/

/-- Every counter of a context is reached by a tick of its writer. -/
def CountersReached (reads : List (ReadPatch V)) : Prop :=
  ∀ read ∈ reads, ∀ writerId count, read.context.get writerId = some count →
    ∃ tick ∈ reads, tick.writer = writerId ∧ 0 < tick.lamport ∧ count ≤ tick.lamport

theorem le_levelAt_tick_iff (read : ReadPatch V) (writerId : JsString) (count : Nat) :
    WithBot.some count ≤ levelAt read.writer (if read.lamport = 0 then ⊥ else WithBot.some read.lamport) writerId ↔
      read.writer = writerId ∧ 0 < read.lamport ∧ count ≤ read.lamport := by
  unfold levelAt
  by_cases hwriter : writerId = read.writer
  · by_cases hzero : read.lamport = 0
    · simp [hwriter, hzero]
    · simp [hwriter, hzero, Nat.pos_of_ne_zero hzero]
  · simp [hwriter, Ne.symm hwriter]

/-- Levels are equal when they reach the same counts. -/
theorem eq_of_coe_le_iff {a b : WithBot Nat} (h : ∀ n : Nat, WithBot.some n ≤ a ↔ WithBot.some n ≤ b) : a = b := by
  have hle : ∀ {a b : WithBot Nat}, (∀ n : Nat, WithBot.some n ≤ a → WithBot.some n ≤ b) → a ≤ b := by
    intro a b h
    cases a with
    | bot => exact bot_le
    | coe n => exact h n le_rfl
  exact le_antisymm (hle fun n => (h n).mp) (hle fun n => (h n).mpr)

theorem le_frontier_joinAll_iff (reads : List (ReadPatch V)) (writerId : JsString) (count : Nat) :
    WithBot.some count ≤ (joinAll ReadPatch.effect reads).frontier writerId ↔
      ∃ read ∈ reads, WithBot.some count ≤ read.effect.frontier writerId :=
  joinAll_prime (P := fun v : StateView => WithBot.some count ≤ v.frontier writerId)
    (fun a b => by rw [StateView.sup_frontier, Pi.sup_apply, le_sup_iff]) (fun hbot => by simp at hbot) _ _

theorem frontier_rewritten (f : V → V) (read : ReadPatch V) :
    (read.rewritten f).effect.frontier =
      levelAt read.writer (if read.lamport = 0 then ⊥ else WithBot.some read.lamport) := by
  rw [frontier_readEffect]
  exact bot_sup_eq _

theorem counters_rewritten_iff (f : V → V) (reads : List (ReadPatch V)) :
    (∀ (start : WarpStateV5 V) writerId,
      ((reads.map (ReadPatch.rewritten f)).foldl applyRead start).observedFrontier.get writerId =
        (reads.foldl applyRead start).observedFrontier.get writerId) ↔ CountersReached reads := by
  have hlevel : ∀ (start : WarpStateV5 V) (reads : List (ReadPatch V)) writerId,
      (reads.foldl applyRead start).observedFrontier.level writerId =
        start.observedFrontier.level writerId ⊔ (joinAll ReadPatch.effect reads).frontier writerId :=
    fun start reads writerId =>
      congrFun (congrArg StateView.frontier (view_foldl_applyRead reads start)) writerId
  have htick : ∀ writerId count,
      WithBot.some count ≤ (joinAll ReadPatch.effect (reads.map (ReadPatch.rewritten f))).frontier writerId ↔
        ∃ tick ∈ reads, tick.writer = writerId ∧ 0 < tick.lamport ∧ count ≤ tick.lamport := by
    intro writerId count
    rw [le_frontier_joinAll_iff]
    simp only [List.mem_map, exists_exists_and_eq_and, frontier_rewritten, le_levelAt_tick_iff]
  have heffect : ∀ (read : ReadPatch V) writerId count, WithBot.some count ≤ read.effect.frontier writerId ↔
      WithBot.some count ≤ read.context.level writerId ∨
        read.writer = writerId ∧ 0 < read.lamport ∧ count ≤ read.lamport := by
    intro read writerId count
    rw [frontier_readEffect, Pi.sup_apply, le_sup_iff, le_levelAt_tick_iff]
  constructor
  · intro h read hread writerId count hget
    have hsame := h createEmptyStateV5 writerId
    have hjoin : (joinAll ReadPatch.effect (reads.map (ReadPatch.rewritten f))).frontier writerId =
        (joinAll ReadPatch.effect reads).frontier writerId := by
      have hempty : (createEmptyStateV5 : WarpStateV5 V).observedFrontier.level writerId = ⊥ := rfl
      have hleft := hlevel createEmptyStateV5 (reads.map (ReadPatch.rewritten f)) writerId
      have hright := hlevel createEmptyStateV5 reads writerId
      rw [hempty, bot_sup_eq] at hleft hright
      rw [← hleft, ← hright, JsMap.level, JsMap.level, hsame]
    rw [← htick, hjoin, le_frontier_joinAll_iff]
    refine ⟨read, hread, (heffect read writerId count).mpr (Or.inl ?_)⟩
    rw [JsMap.level_of_get_some hget]
  · intro h start writerId
    refine JsMap.get_eq_of_level_eq ?_
    rw [hlevel, hlevel]
    congr 1
    refine eq_of_coe_le_iff fun count => ?_
    rw [htick, le_frontier_joinAll_iff]
    simp only [heffect]
    constructor
    · rintro ⟨tick, htickMem, hreached⟩
      exact ⟨tick, htickMem, Or.inr hreached⟩
    · rintro ⟨read, hread, hcontext | hreached⟩
      · cases hget : read.context.get writerId with
        | none =>
            rw [JsMap.level_of_get_none hget] at hcontext
            exact absurd hcontext (WithBot.not_coe_le_bot count)
        | some reachable =>
            rw [JsMap.level_of_get_some hget, WithBot.coe_le_coe] at hcontext
            obtain ⟨tick, htickMem, hwriter, hpos, hle⟩ := h read hread writerId reachable hget
            exact ⟨tick, htickMem, hwriter, hpos, hcontext.trans hle⟩
      · exact ⟨read, hread, hreached⟩

end GitWarp
