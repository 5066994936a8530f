import GitWarp.ReducerConvergence
import GitWarp.LibraryLists

/-! What is in a replayed state, in terms of the operations of the patches: a dot is present where an add
operation put it and tombstoned where a remove operation named it. -/

namespace GitWarp
open Js ExceptLoops

variable {V : Type}

/-- The dot of an add operation. -/
def OpV2.addDot : OpV2 V → Option Dot
  | .nodeAdd _ dot => some dot
  | .edgeAdd _ dot => some dot
  | _ => none

/-- The encoded dots a remove operation names. -/
def OpV2.observedDots : OpV2 V → List JsString
  | .nodeRemove _ observedDots => observedDots
  | .edgeRemove _ _ _ observedDots => observedDots
  | _ => []

def PatchV2.addDots (patch : PatchV2 V) : List Dot := patch.ops.filterMap OpV2.addDot

/-- The dots that a list of patches adds, in order. -/
def addDots (entries : List (PatchEntry V)) : List Dot :=
  entries.flatMap fun entry => entry.patch.addDots

/-- The pair that an operation adds to the nodes or, for `edges`, to the edges. -/
def OpV2.addPair (edges : Bool) : OpV2 V → Option (JsString × JsString)
  | .nodeAdd node dot => if edges then none else some (node, encodeDot dot)
  | .edgeAdd edge dot => if edges then some (edge.key, encodeDot dot) else none
  | _ => none

/-- The dots that an operation removes from the nodes or, for `edges`, from the edges. -/
def OpV2.removedDots (edges : Bool) : OpV2 V → List JsString
  | .nodeRemove _ observedDots => if edges then [] else observedDots
  | .edgeRemove _ _ _ observedDots => if edges then observedDots else []
  | _ => []

theorem mem_adds_effect (op : OpV2 V) (eventId : EventId) (edges : Bool) (pair : JsString × JsString) :
    pair ∈ ((op.effect eventId).part edges).adds ↔ op.addPair edges = some pair := by
  cases op <;> cases edges <;>
    simp [StateView.part, OpV2.effect, OpV2.addPair, AddWins.added, AddWins.removed, eq_comm]

theorem mem_tombs_effect (op : OpV2 V) (eventId : EventId) (edges : Bool) (encoded : JsString) :
    encoded ∈ ((op.effect eventId).part edges).tombs ↔ encoded ∈ op.removedDots edges := by
  cases op <;> cases edges <;>
    simp [StateView.part, OpV2.effect, OpV2.removedDots, AddWins.added, AddWins.removed]

theorem frontierEffect_part (read : ReadPatch V) (edges : Bool) :
    (frontierEffect read).part edges = ⊥ := by
  cases edges <;> rfl

theorem mem_adds_joinAll {β : Type} (effect : β → StateView) (ys : List β) (edges : Bool)
    (pair : JsString × JsString) :
    pair ∈ ((joinAll effect ys).part edges).adds ↔ ∃ y ∈ ys, pair ∈ ((effect y).part edges).adds := by
  refine joinAll_prime (P := fun v => pair ∈ (v.part edges).adds) (fun a b => ?_) ?_ effect ys
  · rw [StateView.part_sup, AddWins.mem_adds_sup]
  · rw [StateView.part_bot]
    exact AddWins.not_mem_adds_bot pair

theorem mem_tombs_joinAll {β : Type} (effect : β → StateView) (ys : List β) (edges : Bool)
    (encoded : JsString) :
    encoded ∈ ((joinAll effect ys).part edges).tombs ↔
      ∃ y ∈ ys, encoded ∈ ((effect y).part edges).tombs := by
  refine joinAll_prime (P := fun v => encoded ∈ (v.part edges).tombs) (fun a b => ?_) ?_ effect ys
  · rw [StateView.part_sup, AddWins.mem_tombs_sup]
  · rw [StateView.part_bot]
    exact AddWins.not_mem_tombs_bot encoded

theorem mem_adds_readEffect (read : ReadPatch V) (edges : Bool) (pair : JsString × JsString) :
    pair ∈ (read.effect.part edges).adds ↔
      ∃ event ∈ read.events, event.1.addPair edges = some pair := by
  rw [ReadPatch.effect, StateView.part_sup, frontierEffect_part, sup_bot_eq, mem_adds_joinAll]
  simp only [mem_adds_effect]

theorem mem_tombs_readEffect (read : ReadPatch V) (edges : Bool) (encoded : JsString) :
    encoded ∈ (read.effect.part edges).tombs ↔
      ∃ event ∈ read.events, encoded ∈ event.1.removedDots edges := by
  rw [ReadPatch.effect, StateView.part_sup, frontierEffect_part, sup_bot_eq, mem_tombs_joinAll]
  simp only [mem_tombs_effect]

/-! ### Back to the operations of the patch -/

theorem exists_event_iff {entry : PatchEntry V} {read : ReadPatch V}
    (hread : readPatch entry = .ok read) (op : OpV2 V) :
    (∃ eventId, (op, eventId) ∈ read.events) ↔
      ∃ raw ∈ entry.patch.ops, normalizeRawOp raw = .ok op := by
  constructor
  · rintro ⟨eventId, hmem⟩
    obtain ⟨-, raw, hraw, hnorm⟩ := mem_events_of_readPatch hread hmem
    exact ⟨raw, List.mem_of_getElem? hraw, hnorm⟩
  · rintro ⟨raw, hraw, hnorm⟩
    obtain ⟨events, context, hevents, -, rfl⟩ := readPatch_eq_ok hread
    obtain ⟨i, hi⟩ := List.mem_iff_getElem?.mp hraw
    have hitem : (raw, i) ∈ entry.patch.ops.zipIdx := List.mem_zipIdx_iff_getElem?.mpr hi
    obtain ⟨event, hevent⟩ := exists_mapM_ok_iff.mp ⟨events, hevents⟩ _ hitem
    have hfst : event.1 = op := by
      unfold readOp at hevent
      cases hid : createEventId entry.patch.lamport entry.patch.writer entry.sha i with
      | error err => rw [hid] at hevent; cases hevent
      | ok eventId =>
          simp only [hid, hnorm, bind, Except.bind, pure, Except.pure] at hevent
          cases hevent
          rfl
    refine ⟨event.2, (mem_of_mapM_ok hevents _).mpr ⟨(raw, i), hitem, ?_⟩⟩
    rw [hevent, ← hfst]

/-- Normalization only touches property operations. -/
theorem normalizeRawOp_adds {raw op : OpV2 V} (h : normalizeRawOp raw = .ok op) (edges : Bool) :
    op.addPair edges = raw.addPair edges ∧ op.removedDots edges = raw.removedDots edges := by
  cases raw with
  | propSet node key value =>
      simp only [normalizeRawOp] at h
      split at h
      · cases hedge : decodeLegacyEdgePropNode node with
        | error err => rw [hedge] at h; cases h
        | ok edge => rw [hedge] at h; cases h; exact ⟨rfl, rfl⟩
      · cases h
        exact ⟨rfl, rfl⟩
  | _ =>
      cases h
      exact ⟨rfl, rfl⟩

theorem normalizeRawOp_ok_of_add {raw : OpV2 V} (edges : Bool)
    (h : raw.addPair edges ≠ none ∨ raw.removedDots edges ≠ []) : normalizeRawOp raw = .ok raw := by
  cases raw <;> first | rfl | simp [OpV2.addPair, OpV2.removedDots] at h

/-- The patch adds `pair` to the nodes or, for `edges`, to the edges. -/
def PatchEntry.Adds (entry : PatchEntry V) (edges : Bool) (pair : JsString × JsString) : Prop :=
  ∃ op ∈ entry.patch.ops, op.addPair edges = some pair

/-- The patch removes the dot `encoded` from the nodes or, for `edges`, from the edges. -/
def PatchEntry.Removes (entry : PatchEntry V) (edges : Bool) (encoded : JsString) : Prop :=
  ∃ op ∈ entry.patch.ops, encoded ∈ op.removedDots edges

theorem mem_adds_effect_of_readPatch {entry : PatchEntry V} {read : ReadPatch V}
    (hread : readPatch entry = .ok read) (edges : Bool) (pair : JsString × JsString) :
    pair ∈ (read.effect.part edges).adds ↔ entry.Adds edges pair := by
  rw [mem_adds_readEffect]
  constructor
  · rintro ⟨⟨op, eventId⟩, hmem, hpair⟩
    obtain ⟨raw, hraw, hnorm⟩ := (exists_event_iff hread op).mp ⟨eventId, hmem⟩
    exact ⟨raw, hraw, by rw [← (normalizeRawOp_adds hnorm edges).1, hpair]⟩
  · rintro ⟨raw, hraw, hpair⟩
    have hnorm : normalizeRawOp raw = .ok raw :=
      normalizeRawOp_ok_of_add edges (Or.inl (by rw [hpair]; exact Option.some_ne_none _))
    obtain ⟨eventId, hmem⟩ := (exists_event_iff hread raw).mpr ⟨raw, hraw, hnorm⟩
    exact ⟨(raw, eventId), hmem, hpair⟩

theorem mem_tombs_effect_of_readPatch {entry : PatchEntry V} {read : ReadPatch V}
    (hread : readPatch entry = .ok read) (edges : Bool) (encoded : JsString) :
    encoded ∈ (read.effect.part edges).tombs ↔ entry.Removes edges encoded := by
  rw [mem_tombs_readEffect]
  constructor
  · rintro ⟨⟨op, eventId⟩, hmem, hdot⟩
    obtain ⟨raw, hraw, hnorm⟩ := (exists_event_iff hread op).mp ⟨eventId, hmem⟩
    exact ⟨raw, hraw, by rw [← (normalizeRawOp_adds hnorm edges).2]; exact hdot⟩
  · rintro ⟨raw, hraw, hdot⟩
    have hnorm : normalizeRawOp raw = .ok raw :=
      normalizeRawOp_ok_of_add edges (Or.inr (List.ne_nil_of_mem hdot))
    obtain ⟨eventId, hmem⟩ := (exists_event_iff hread raw).mpr ⟨raw, hraw, hnorm⟩
    exact ⟨(raw, eventId), hmem, hdot⟩

/-- What a list of patches adds to a view. -/
theorem view_reduceV5From {initialState state : WarpStateV5 V} {entries : List (PatchEntry V)}
    (h : reduceV5From initialState entries = .ok state) :
    ∃ reads, entries.mapM readPatch = .ok reads ∧
      state.view = initialState.view ⊔ joinAll ReadPatch.effect reads := by
  obtain ⟨reads, hreads, rfl⟩ := reduceV5From_eq_ok_iff.mp h
  exact ⟨reads, hreads, view_foldl_applyRead reads initialState⟩

theorem mem_adds_reduceV5From {initialState state : WarpStateV5 V} {entries : List (PatchEntry V)}
    (h : reduceV5From initialState entries = .ok state) (edges : Bool) (pair : JsString × JsString) :
    pair ∈ (state.view.part edges).adds ↔
      pair ∈ (initialState.view.part edges).adds ∨ ∃ entry ∈ entries, entry.Adds edges pair := by
  obtain ⟨reads, hreads, hview⟩ := view_reduceV5From h
  rw [hview, StateView.part_sup, AddWins.mem_adds_sup, mem_adds_joinAll]
  refine or_congr_right ?_
  constructor
  · rintro ⟨read, hread, hmem⟩
    obtain ⟨entry, hentry, hok⟩ := (mem_of_mapM_ok hreads read).mp hread
    exact ⟨entry, hentry, (mem_adds_effect_of_readPatch hok edges pair).mp hmem⟩
  · rintro ⟨entry, hentry, hadds⟩
    obtain ⟨read, hok⟩ := exists_mapM_ok_iff.mp ⟨reads, hreads⟩ entry hentry
    exact ⟨read, (mem_of_mapM_ok hreads read).mpr ⟨entry, hentry, hok⟩,
      (mem_adds_effect_of_readPatch hok edges pair).mpr hadds⟩

theorem mem_tombs_reduceV5From {initialState state : WarpStateV5 V} {entries : List (PatchEntry V)}
    (h : reduceV5From initialState entries = .ok state) (edges : Bool) (encoded : JsString) :
    encoded ∈ (state.view.part edges).tombs ↔
      encoded ∈ (initialState.view.part edges).tombs ∨ ∃ entry ∈ entries, entry.Removes edges encoded := by
  obtain ⟨reads, hreads, hview⟩ := view_reduceV5From h
  rw [hview, StateView.part_sup, AddWins.mem_tombs_sup, mem_tombs_joinAll]
  refine or_congr_right ?_
  constructor
  · rintro ⟨read, hread, hmem⟩
    obtain ⟨entry, hentry, hok⟩ := (mem_of_mapM_ok hreads read).mp hread
    exact ⟨entry, hentry, (mem_tombs_effect_of_readPatch hok edges encoded).mp hmem⟩
  · rintro ⟨entry, hentry, hremoves⟩
    obtain ⟨read, hok⟩ := exists_mapM_ok_iff.mp ⟨reads, hreads⟩ entry hentry
    exact ⟨read, (mem_of_mapM_ok hreads read).mpr ⟨entry, hentry, hok⟩,
      (mem_tombs_effect_of_readPatch hok edges encoded).mpr hremoves⟩

theorem not_mem_adds_empty (edges : Bool) (pair : JsString × JsString) :
    pair ∉ ((createEmptyStateV5 : WarpStateV5 V).view.part edges).adds := by
  rw [view_createEmptyStateV5, StateView.part_bot]
  exact AddWins.not_mem_adds_bot pair

theorem not_mem_tombs_empty (edges : Bool) (encoded : JsString) :
    encoded ∉ ((createEmptyStateV5 : WarpStateV5 V).view.part edges).tombs := by
  rw [view_createEmptyStateV5, StateView.part_bot]
  exact AddWins.not_mem_tombs_bot encoded

/-! ### Registers -/

/-- The patch writes the property `key`. -/
def PatchEntry.Sets (entry : PatchEntry V) (key : JsString) : Prop :=
  ∃ raw ∈ entry.patch.ops, ∃ op value, normalizeRawOp raw = .ok op ∧ op.write = some (key, value)

theorem EventId.lamport_le {a b : EventId} (h : a ≤ b) : a.lamport ≤ b.lamport := by
  have hrank : EventId.rank a ≤ EventId.rank b := h
  rcases (Prod.Lex.toLex_le_toLex.mp hrank) with hlt | ⟨heq, -⟩
  · exact hlt.le
  · exact heq.le

/-- The event ids of a patch have its tick. -/
theorem lamport_of_readPatch {entry : PatchEntry V} {read : ReadPatch V} (hread : readPatch entry = .ok read)
    {op : OpV2 V} {eventId : EventId} (hmem : (op, eventId) ∈ read.events) :
    eventId.lamport = entry.patch.lamport := by
  obtain ⟨events, context, hevents, -, rfl⟩ := readPatch_eq_ok hread
  obtain ⟨⟨raw, i⟩, -, hop⟩ := (mem_of_mapM_ok hevents _).mp hmem
  unfold readOp at hop
  cases hid : createEventId entry.patch.lamport entry.patch.writer entry.sha i with
  | error err => rw [hid] at hop; cases hop
  | ok e =>
      rw [hid] at hop
      simp only [bind, Except.bind, pure, Except.pure] at hop
      cases hnorm : normalizeRawOp raw with
      | error err => rw [hnorm] at hop; cases hop
      | ok canon =>
          rw [hnorm] at hop
          cases hop
          rw [createEventId_eq_ok hid]

/-- A register is not older than any event that wrote its key. -/
theorem le_register_of_write {reads : List (ReadPatch V)} {read : ReadPatch V} (hread : read ∈ reads)
    {op : OpV2 V} {eventId : EventId} (hevent : (op, eventId) ∈ read.events) {key : JsString} {value : Option V}
    (hwrite : op.write = some (key, value)) (state : WarpStateV5 V) :
    ∃ register, (reads.foldl applyRead state).prop.get key = some register ∧ eventId ≤ register.eventId := by
  have hop : op.effect eventId ≤ read.effect :=
    (le_joinAll (fun event : OpV2 V × EventId => event.1.effect event.2) hevent).trans le_sup_left
  have hstate : read.effect ≤ (reads.foldl applyRead state).view := by
    rw [view_foldl_applyRead]
    exact (le_joinAll ReadPatch.effect hread).trans le_sup_right
  have hprops : (op.effect eventId).props key ≤ (reads.foldl applyRead state).view.props key :=
    (hop.trans hstate).2.2.1 key
  have hlevel : (op.effect eventId).props key = (eventId : WithBot EventId) := by
    have heffect : (op.effect eventId).props = op.propEffect eventId := by
      cases op <;> rfl
    rw [heffect, OpV2.propEffect, hwrite]
    exact if_pos rfl
  rw [hlevel] at hprops
  have hregister : (eventId : WithBot EventId) ≤ registerLevel ((reads.foldl applyRead state).prop.get key) :=
    hprops
  cases hget : (reads.foldl applyRead state).prop.get key with
  | none =>
      rw [hget] at hregister
      exact absurd hregister (WithBot.not_coe_le_bot eventId)
  | some register =>
      rw [hget] at hregister
      exact ⟨register, rfl, WithBot.coe_le_coe.mp hregister⟩

/-- The register of a property is not older than any patch that sets it. -/
theorem exists_register_of_sets {entries : List (PatchEntry V)} {state : WarpStateV5 V}
    (h : reduceV5 entries = .ok state) {entry : PatchEntry V} (hentry : entry ∈ entries) {key : JsString}
    (hsets : entry.Sets key) :
    ∃ register, state.prop.get key = some register ∧ entry.patch.lamport ≤ register.eventId.lamport := by
  obtain ⟨reads, hreads, rfl⟩ := reduceV5_eq_ok_iff.mp h
  obtain ⟨read, hread⟩ := exists_mapM_ok_iff.mp ⟨reads, hreads⟩ entry hentry
  obtain ⟨raw, hraw, op, value, hnorm, hwrite⟩ := hsets
  obtain ⟨eventId, hevent⟩ := (exists_event_iff hread op).mpr ⟨raw, hraw, hnorm⟩
  obtain ⟨register, hregister, hle⟩ := le_register_of_write ((mem_of_mapM_ok hreads read).mpr
    ⟨entry, hentry, hread⟩) hevent hwrite createEmptyStateV5
  refine ⟨register, hregister, ?_⟩
  rw [← lamport_of_readPatch hread hevent]
  exact EventId.lamport_le hle

/-- A register under a key was there before, or was written by a patch that sets it. -/
theorem register_or_sets {entries : List (PatchEntry V)} {reads : List (ReadPatch V)}
    (hreads : entries.mapM readPatch = .ok reads) (state : WarpStateV5 V) {key : JsString}
    (h : ((reads.foldl applyRead state).prop.get key).isSome) :
    (state.prop.get key).isSome ∨ ∃ entry ∈ entries, entry.Sets key := by
  have hlevel : ∀ s : WarpStateV5 V, s.view.props key ≠ ⊥ ↔ (s.prop.get key).isSome := by
    intro s
    show registerLevel (s.prop.get key) ≠ ⊥ ↔ _
    cases s.prop.get key with
    | none => exact iff_of_false (fun hbot => hbot rfl) nofun
    | some register => exact iff_of_true WithBot.coe_ne_bot rfl
  have hsup : ∀ a b : StateView, (a ⊔ b).props key ≠ ⊥ ↔ a.props key ≠ ⊥ ∨ b.props key ≠ ⊥ := by
    intro a b
    rw [StateView.sup_props, Pi.sup_apply, ne_eq, sup_eq_bot_iff, not_and_or]
  rw [← hlevel, view_foldl_applyRead, hsup, hlevel] at h
  refine h.imp_right fun hjoin => ?_
  obtain ⟨read, hread, heffect⟩ :=
    (joinAll_prime (P := fun v : StateView => v.props key ≠ ⊥) hsup (fun hbot => hbot rfl) _ _).mp hjoin
  obtain ⟨entry, hentry, hok⟩ := (mem_of_mapM_ok hreads read).mp hread
  rw [ReadPatch.effect, hsup, or_iff_left (fun hframe => hframe rfl),
    joinAll_prime (P := fun v : StateView => v.props key ≠ ⊥) hsup (fun hbot => hbot rfl)] at heffect
  obtain ⟨⟨op, eventId⟩, hevent, hop⟩ := heffect
  obtain ⟨raw, hraw, hnorm⟩ := (exists_event_iff hok op).mp ⟨eventId, hevent⟩
  have hprops : (op.effect eventId).props = op.propEffect eventId := by
    cases op <;> rfl
  rw [hprops, OpV2.propEffect] at hop
  cases hwrite : op.write with
  | none =>
      rw [hwrite] at hop
      exact absurd rfl hop
  | some target =>
      obtain ⟨key', value⟩ := target
      simp only [hwrite, levelAt] at hop
      by_cases hkey : key = key'
      · subst hkey
        exact ⟨entry, hentry, raw, hraw, op, value, hnorm, hwrite⟩
      · rw [if_neg hkey] at hop
        exact absurd rfl hop

theorem sets_of_register {entries : List (PatchEntry V)} {reads : List (ReadPatch V)}
    (hreads : entries.mapM readPatch = .ok reads) {key : JsString}
    (h : ((reads.foldl applyRead createEmptyStateV5).prop.get key).isSome) : ∃ entry ∈ entries, entry.Sets key :=
  (register_or_sets hreads createEmptyStateV5 h).resolve_left nofun

/-! ### Distinct dots -/

theorem addPair_dot {op : OpV2 V} {edges : Bool} {pair : JsString × JsString}
    (h : op.addPair edges = some pair) : ∃ dot, op.addDot = some dot ∧ encodeDot dot = pair.2 := by
  cases op <;> cases edges <;> simp [OpV2.addPair] at h
  · subst h
    exact ⟨_, rfl, rfl⟩
  · subst h
    exact ⟨_, rfl, rfl⟩

theorem PatchEntry.Adds.mem_addDots {entry : PatchEntry V} {edges : Bool}
    {pair : JsString × JsString} (h : entry.Adds edges pair) :
    ∃ dot ∈ entry.patch.addDots, encodeDot dot = pair.2 := by
  obtain ⟨op, hop, hpair⟩ := h
  obtain ⟨dot, hdot, hencoded⟩ := addPair_dot hpair
  exact ⟨dot, List.mem_filterMap.mpr ⟨op, hop, hdot⟩, hencoded⟩

/-- Among patches with distinct dots, the dot tells the add operation. -/
theorem eq_of_addDot {P : List (PatchEntry V)} (hdots : (addDots P).Nodup)
    {entry entry' : PatchEntry V} {op op' : OpV2 V} {dot : Dot}
    (hentry : entry ∈ P) (hop : op ∈ entry.patch.ops) (hdot : op.addDot = some dot)
    (hentry' : entry' ∈ P) (hop' : op' ∈ entry'.patch.ops) (hdot' : op'.addDot = some dot) : op = op' := by
  have hops : addDots P = (P.flatMap fun entry => entry.patch.ops).filterMap OpV2.addDot := by
    rw [List.filterMap_flatMap]
    rfl
  rw [hops] at hdots
  have hmem : op ∈ P.flatMap fun entry => entry.patch.ops := List.mem_flatMap.mpr ⟨entry, hentry, hop⟩
  have hmem' : op' ∈ P.flatMap fun entry => entry.patch.ops :=
    List.mem_flatMap.mpr ⟨entry', hentry', hop'⟩
  obtain ⟨i, hi⟩ := List.mem_iff_getElem?.mp hmem
  obtain ⟨j, hj⟩ := List.mem_iff_getElem?.mp hmem'
  have hplace : i = j := Lists.place_of_filterMap_nodup hdots hi hj hdot hdot'
  rw [hplace, hj] at hi
  exact (Option.some.inj hi).symm

/-- A dot that a list of patches adds is not added by the patches of another list with other dots. -/
theorem fresh_of_nodup {P Q : List (PatchEntry V)} (hdots : (addDots (P ++ Q)).Nodup)
    {entry later : PatchEntry V} (hentry : entry ∈ P) (hlater : later ∈ Q) {edges edges' : Bool}
    {e e' d : JsString} (hadds : entry.Adds edges (e, d)) (hadds' : later.Adds edges' (e', d)) :
    False := by
  obtain ⟨dot, hdot, hencoded⟩ := hadds.mem_addDots
  obtain ⟨dot', hdot', hencoded'⟩ := hadds'.mem_addDots
  have heq : dot = dot' := encodeDot_injective (hencoded.trans hencoded'.symm)
  subst heq
  rw [addDots, List.flatMap_append, List.nodup_append] at hdots
  exact hdots.2.2 dot (List.mem_flatMap.mpr ⟨entry, hentry, hdot⟩) dot
    (List.mem_flatMap.mpr ⟨later, hlater, hdot'⟩) rfl

end GitWarp
