import GitWarp.BuilderReplay
import GitWarp.SyncApplied
import GitWarp.SyncJsonResponses

/-! Sync over HTTP against direct sync. What arrives lacks the contexts of the patches, since these are `Map`s
when the response is printed, and every value that JSON cannot hold; a BigInt lets the printing throw. -/

namespace GitWarp
open Js ExceptLoops JsValue

variable {V : Type}

/-! ### Loaded patches -/

/-- The patch is that of its commit, with a version vector as context. -/
def LoadedFrom (store : ObjectStore V) (entry : PatchEntry V) : Prop :=
  (∃ vv, entry.patch.context = .map vv) ∧
    ∃ commit patch, store.get entry.sha = some commit ∧ commit.content = .patch patch ∧
      normalizePatch patch = .ok entry.patch

theorem LoadedFrom.patch_eq {store : ObjectStore V} {entry other : PatchEntry V} (h : LoadedFrom store entry)
    (h' : LoadedFrom store other) (hsha : entry.sha = other.sha) : entry.patch = other.patch := by
  obtain ⟨-, commit, patch, hget, hcontent, hnorm⟩ := h
  obtain ⟨-, commit', patch', hget', hcontent', hnorm'⟩ := h'
  rw [hsha, hget', Option.some.injEq] at hget
  subst hget
  rw [hcontent', CommitContent.patch.injEq] at hcontent
  subst hcontent
  rw [hnorm', Except.ok.injEq] at hnorm
  exact hnorm.symm

theorem exists_context_normalizePatch {patch normalized : PatchV2 V} (h : normalizePatch patch = .ok normalized) :
    ∃ vv, normalized.context = .map vv := by
  unfold normalizePatch at h
  cases hcontext : patch.context with
  | map vv =>
      rw [hcontext] at h
      cases h
      exact ⟨vv, hcontext⟩
  | record counters =>
      rw [hcontext] at h
      cases hvv : vvDeserialize counters with
      | error err => simp only [hvv] at h; cases h
      | ok vv => simp only [hvv] at h; cases h; exact ⟨vv, rfl⟩

theorem loaded_of_collectRange {store : ObjectStore V} {fromSha : Option Sha} {objects : List (Sha × Commit V)}
    (hobjects : ∀ object ∈ objects, object ∈ store.objects) {cur : Sha} {result : List (PatchEntry V) × Bool}
    (h : collectRange fromSha objects cur = .ok result) : ∀ entry ∈ result.1, LoadedFrom store entry := by
  induction objects generalizing cur result with
  | nil =>
      rw [collectRange] at h
      split at h
      · cases h
        exact List.forall_mem_nil _
      · cases h
  | cons object older ih =>
      obtain ⟨objectSha, commit⟩ := object
      have hbelow := fun o ho => hobjects o (List.mem_cons_of_mem _ ho)
      rw [collectRange] at h
      split at h
      · cases h
        exact List.forall_mem_nil _
      · split at h
        · rename_i hcur
          subst hcur
          cases hcontent : commit.content with
          | patch patch =>
              simp only [hcontent] at h
              cases hnorm : normalizePatch patch with
              | error err => rw [hnorm] at h; cases h
              | ok normalized =>
                  have hloaded : LoadedFrom store ⟨normalized, cur⟩ :=
                    ⟨exists_context_normalizePatch hnorm, commit, patch,
                      (store.get_eq_some_iff cur commit).mpr (hobjects _ (List.mem_cons_self ..)), hcontent, hnorm⟩
                  rw [hnorm] at h
                  cases hparent : commit.parents.head? with
                  | none =>
                      rw [hparent] at h
                      cases h
                      exact List.forall_mem_singleton.mpr hloaded
                  | some parent =>
                      rw [hparent] at h
                      cases hrest : collectRange fromSha older parent with
                      | error err => simp only [hrest, bind, Except.bind] at h; cases h
                      | ok rest =>
                          simp only [hrest, bind, Except.bind, pure, Except.pure] at h
                          cases h
                          intro entry hentry
                          rcases List.mem_append.mp hentry with hold | hnew
                          · exact ih hbelow hrest entry hold
                          · rw [List.mem_singleton.mp hnew]
                            exact hloaded
          | _ => simp only [hcontent] at h; cases h
        · exact ih hbelow h

theorem loaded_of_loadPatchRange {persistence : SyncPersistence V} {writerId : JsString} {fromSha : Option Sha}
    {toSha : Sha} {patches : List (PatchEntry V)}
    (h : loadPatchRange persistence writerId fromSha toSha = .ok patches) :
    ∀ entry ∈ patches, LoadedFrom persistence.store entry := by
  unfold loadPatchRange at h
  cases hwalk : collectRange fromSha persistence.store.objects toSha with
  | error err => rw [hwalk] at h; cases h
  | ok walked =>
      rw [hwalk] at h
      dsimp only at h
      split at h
      · cases h
      · cases h
        exact loaded_of_collectRange (fun _ ho => ho) hwalk

theorem loaded_of_loadWriterRange {persistence : SyncPersistence V} {needed : JsString × SyncRange}
    {result : List (SyncPatch V) × List SkippedWriter} (h : loadWriterRange persistence needed = .ok result) :
    ∀ p ∈ result.1, LoadedFrom persistence.store ⟨p.patch, p.sha⟩ := by
  rcases patches_of_loadWriterRange h with hskipped | ⟨patches, hload, hpatches⟩
  · rw [hskipped]
    exact List.forall_mem_nil _
  · rw [hpatches]
    intro p hp
    obtain ⟨entry, hentry, rfl⟩ := List.mem_map.mp hp
    exact loaded_of_loadPatchRange hload entry hentry

theorem loaded_of_processSyncRequest {request : SyncRequest} {localFrontier : Frontier}
    {persistence : SyncPersistence V} {response : SyncResponse V}
    (h : processSyncRequest request localFrontier persistence = .ok response) :
    ∀ p ∈ response.patches, LoadedFrom persistence.store ⟨p.patch, p.sha⟩ := by
  unfold processSyncRequest at h
  cases hloaded : (computeSyncDelta (objectToFrontier request.frontier) localFrontier).needFromRemote.entries.mapM
      (loadWriterRange persistence) with
  | error err => simp only [hloaded] at h; cases h
  | ok loaded =>
      simp only [hloaded] at h
      cases h
      intro p hp
      obtain ⟨ranges, hranges, hmem⟩ := List.mem_flatMap.mp hp
      obtain ⟨needed, -, hok⟩ := (mem_of_mapM_ok hloaded ranges).mp hranges
      exact loaded_of_loadWriterRange hok p hmem

/-! ### Applying rewritten patches -/

/-- Both throw, or both return the same state, component by component, and the same frontier. -/
def SameSync : Except JsError (ApplySyncResult V) → Except JsError (ApplySyncResult V) → Prop
  | .ok a, .ok b => a.state.Same b.state ∧ ∀ writerId, a.frontier.get writerId = b.frontier.get writerId
  | .error _, .error _ => True
  | _, _ => False

theorem isKnownRawOp_mapValue (f : V → V) (op : OpV2 V) : isKnownRawOp (op.mapValue f) = isKnownRawOp op := by
  cases op <;> rfl

def PatchEntry.rewritten (f : V → V) (entry : PatchEntry V) : PatchEntry V :=
  ⟨entry.patch.rewritten f, entry.sha⟩

theorem groupByWriter_rewritten (f : V → V) (patches : List (SyncPatch V)) :
    groupByWriter (patches.map (SyncPatch.rewritten f)) =
      (groupByWriter patches).mapValues fun _ entries => entries.map (PatchEntry.rewritten f) := by
  induction patches using List.reverseRecOn with
  | nil => rfl
  | append_singleton patches p ih =>
      have hgroup : ∀ (patches : List (SyncPatch V)) p, groupByWriter (patches ++ [p]) =
          (groupByWriter patches).set p.writerId
            (((groupByWriter patches).get p.writerId).getD [] ++ [⟨p.patch, p.sha⟩]) := by
        intro patches p
        unfold groupByWriter
        rw [List.foldl_append, List.foldl_cons, List.foldl_nil]
      rw [List.map_append, List.map_singleton, hgroup, hgroup, JsMap.mapValues_set, ih, JsMap.get_mapValues,
        show (SyncPatch.rewritten f p).writerId = p.writerId from rfl]
      cases (groupByWriter patches).get p.writerId with
      | none => rfl
      | some entries =>
          rw [Option.map_some, Option.getD_some, Option.getD_some, List.map_append]
          rfl

theorem appliedOrder_rewritten (f : V → V) (patches : List (SyncPatch V)) :
    appliedOrder (patches.map (SyncPatch.rewritten f)) = (appliedOrder patches).map (PatchEntry.rewritten f) := by
  rw [appliedOrder, groupByWriter_rewritten, appliedOrder, List.map_flatMap]
  show List.flatMap Prod.snd ((groupByWriter patches).entries.map fun group =>
    (group.1, group.2.map (PatchEntry.rewritten f))) = _
  rw [List.flatMap_map]

section Rewritten

variable {patches : List (SyncPatch V)} (hcontext : ∀ p ∈ patches, ∃ vv, p.patch.context = .map vv)

include hcontext

theorem applicable_rewritten_iff (f : V → V) :
    Applicable (patches.map (SyncPatch.rewritten f)) ↔ Applicable patches := by
  unfold Applicable
  rw [List.forall_mem_map]
  refine forall₂_congr fun p hp => and_congr ?_ ?_
  · show (∀ op ∈ p.patch.ops.map (OpV2.mapValue f), isKnownRawOp op = true) ↔ _
    rw [List.forall_mem_map]
    simp only [isKnownRawOp_mapValue]
    rfl
  · obtain ⟨vv, hvv⟩ := hcontext p hp
    have hread := @readPatch_rewritten V f ⟨p.patch, p.sha⟩ vv hvv
    show (∃ read, readPatch ⟨p.patch.rewritten f, p.sha⟩ = .ok read) ↔ _
    rw [hread]
    cases readPatch ⟨p.patch, p.sha⟩ <;> simp [Except.map]

/-- Applying the rewritten patches folds the rewritten reads. -/
theorem applySyncResponse_rewritten (f : V → V) {reads : List (ReadPatch V)}
    (hreads : (appliedOrder patches).mapM readPatch = .ok reads) {state : WarpStateV5 V} {frontier : Frontier}
    {result result' : ApplySyncResult V} (h : applySyncResponse patches state frontier = .ok result)
    (h' : applySyncResponse (patches.map (SyncPatch.rewritten f)) state frontier = .ok result') :
    result.state = reads.foldl applyRead state ∧
      result'.state = (reads.map (ReadPatch.rewritten f)).foldl applyRead state ∧
      ∀ writerId, result'.frontier.get writerId = result.frontier.get writerId := by
  obtain ⟨reads₁, hreads₁, hstate₁⟩ := applySyncResponse_state h
  obtain ⟨reads₂, hreads₂, hstate₂⟩ := applySyncResponse_state h'
  rw [hreads, Except.ok.injEq] at hreads₁
  subst hreads₁
  have hentry : ∀ entry ∈ appliedOrder patches, readPatch (PatchEntry.rewritten f entry) =
      (readPatch entry).map (ReadPatch.rewritten f) := by
    intro entry hmem
    obtain ⟨p, hp, rfl⟩ := (mem_appliedOrder patches entry).mp hmem
    obtain ⟨vv, hvv⟩ := hcontext p hp
    exact readPatch_rewritten f hvv
  rw [appliedOrder_rewritten, mapM_map_eq hentry, hreads] at hreads₂
  cases hreads₂
  refine ⟨hstate₁, hstate₂, fun writerId => ?_⟩
  rw [applySyncResponse_frontier h', applySyncResponse_frontier h, groupByWriter_rewritten, JsMap.get_mapValues]
  congr 1
  cases (groupByWriter patches).get writerId with
  | none => rfl
  | some entries =>
      rw [Option.map_some, Option.bind_some, Option.bind_some, List.getLast?_map]
      cases entries.getLast? <;> rfl

/-- The rewritten patches do the same everywhere exactly when what they lack is made up for. -/
theorem sameSync_rewritten_iff (f : V → V) {reads : List (ReadPatch V)}
    (hreads : (appliedOrder patches).mapM readPatch = .ok reads) (happlicable : Applicable patches)
    (hfun : ∀ key register key' register', Writes reads key register → Writes reads key' register' →
      register.eventId = register'.eventId → register = register') :
    (∀ state frontier, SameSync (applySyncResponse (patches.map (SyncPatch.rewritten f)) state frontier)
      (applySyncResponse patches state frontier)) ↔ CountersReached reads ∧ ChangesOverwritten f reads := by
  have happly : ∀ state frontier, ∃ result result', applySyncResponse patches state frontier = .ok result ∧
      applySyncResponse (patches.map (SyncPatch.rewritten f)) state frontier = .ok result' ∧
      result.state = reads.foldl applyRead state ∧
      result'.state = (reads.map (ReadPatch.rewritten f)).foldl applyRead state ∧
      ∀ writerId, result'.frontier.get writerId = result.frontier.get writerId := by
    intro state frontier
    obtain ⟨result, hresult⟩ := (exists_applySyncResponse_iff patches state frontier).mpr happlicable
    obtain ⟨result', hresult'⟩ := (exists_applySyncResponse_iff (patches.map (SyncPatch.rewritten f)) state
      frontier).mpr ((applicable_rewritten_iff hcontext f).mpr happlicable)
    exact ⟨result, result', hresult, hresult', applySyncResponse_rewritten hcontext f hreads hresult hresult'⟩
  rw [← counters_rewritten_iff f, ← prop_rewritten_iff hfun]
  constructor
  · intro h
    refine ⟨fun start writerId => ?_, fun start key => ?_⟩
    all_goals
      obtain ⟨result, result', hresult, hresult', hstate, hstate', -⟩ := happly start JsMap.empty
      have hsame := h start JsMap.empty
      rw [hresult, hresult'] at hsame
      rw [← hstate, ← hstate']
    · exact hsame.1.observedFrontier writerId
    · exact hsame.1.prop key
  · rintro ⟨hcounters, hprops⟩ state frontier
    obtain ⟨result, result', hresult, hresult', hstate, hstate', hfrontier⟩ := happly state frontier
    have hshadow := shadows_foldl_applyRead f reads state
    rw [hresult, hresult']
    refine ⟨?_, hfrontier⟩
    rw [hstate, hstate']
    constructor
    · rw [hshadow.nodeAlive]
      exact ORSet.Same.refl _
    · rw [hshadow.edgeAlive]
      exact ORSet.Same.refl _
    · exact hprops state
    · exact hcounters state
    · intro key
      rw [hshadow.edgeBirthEvent]

end Rewritten

/-! ### Over HTTP -/

/-- Whenever the parsed body passes the schema, applying it does the same as applying the response, and it
passes the schema whenever the response does. -/
def HttpEqualsDirect (limits : SyncPayloadLimits) (response : SyncResponse JsData) : Prop :=
  (∀ body, overHttp (responseValue response) = .ok body → ∀ received, asResponse body = some received →
    validateSyncResponse limits received = true → ∀ state frontier,
      SameSync (applySyncResponse received.patches state frontier)
        (applySyncResponse response.patches state frontier)) ∧
  (validateSyncResponse limits response = true → ∃ body, overHttp (responseValue response) = .ok body ∧
    ∃ received, asResponse body = some received ∧ validateSyncResponse limits received = true)

/-- The registers that the patches write under a key. -/
def writtenUnder (patches : List (SyncPatch V)) (key : JsString) : Set (LWWRegister V) :=
  {register | ∃ p ∈ patches, ∃ read, readPatch ⟨p.patch, p.sha⟩ = .ok read ∧ ∃ op,
    (op, register.eventId) ∈ read.events ∧ op.write = some (key, register.value)}

/-- What HTTP loses of the patches is made up for by the patches. -/
structure SurvivesHttp (patches : List (SyncPatch JsData)) : Prop where
  /-- Every counter of a context is reached by the tick of a patch of its writer. -/
  counters : ∀ p ∈ patches, ∀ vv, p.patch.context = .map vv → ∀ writerId count, vv.get writerId = some count →
    ∃ tick ∈ patches, tick.patch.writer = writerId ∧ 0 < tick.patch.lamport ∧ count ≤ tick.patch.lamport
  /-- Every value that JSON cannot hold is overwritten. -/
  values : ∀ key, ∀ register ∈ writtenUnder patches key, ∀ data, register.value = some data →
    isJson data.1 = false → ∃ later ∈ writtenUnder patches key, register.eventId < later.eventId

theorem validate_received (limits : SyncPayloadLimits) (response : SyncResponse JsData) :
    validateSyncResponse limits response.received = validateSyncResponse limits response := by
  have hentry : ∀ entry : SyncPatch JsData,
      patchEntrySchema limits (entry.rewritten carried) = patchEntrySchema limits entry := by
    intro entry
    have hlength : (entry.rewritten carried).patch.ops.length = entry.patch.ops.length := List.length_map _
    rw [patchEntrySchema, patchEntrySchema, patchSchema, patchSchema, hlength]
    rfl
  simp only [validateSyncResponse, SyncResponse.received, List.all_map, List.length_map]
  congr 3
  funext entry
  exact hentry entry

theorem carried_eq_iff {data : JsData} (h : hasBigInt data.1 = false) :
    carried data = data ↔ isJson data.1 = true := by
  rw [← overHttp_eq_self_iff data.1 data.2, overHttp_data h, Except.ok.injEq, Subtype.ext_iff]

theorem value_of_write {raw op : OpV2 V} (h : normalizeRawOp raw = .ok op) {key : JsString} {value : Option V}
    (hwrite : op.write = some (key, value)) : raw.value = value := by
  cases raw with
  | propSet node k v =>
      simp only [normalizeRawOp] at h
      split at h
      · cases hedge : decodeLegacyEdgePropNode node with
        | error err => rw [hedge] at h; cases h
        | ok edge =>
            rw [hedge] at h
            cases h
            cases hwrite
            rfl
      · cases h
        cases hwrite
        rfl
  | _ =>
      cases h
      cases hwrite <;> rfl

theorem writes_iff {patches : List (SyncPatch V)} {reads : List (ReadPatch V)}
    (hreads : (appliedOrder patches).mapM readPatch = .ok reads) (key : JsString) (register : LWWRegister V) :
    Writes reads key register ↔ register ∈ writtenUnder patches key := by
  constructor
  · rintro ⟨read, hread, hwrite⟩
    obtain ⟨p, hp, hok⟩ := (mem_reads_iff hreads read).mp hread
    exact ⟨p, hp, read, hok, hwrite⟩
  · rintro ⟨p, hp, read, hok, hwrite⟩
    exact ⟨read, (mem_reads_iff hreads read).mpr ⟨p, hp, hok⟩, hwrite⟩

/-- An event id names the commit and the place in it, so it tells the register written. -/
theorem writes_functional {store : ObjectStore V} {patches : List (SyncPatch V)} {reads : List (ReadPatch V)}
    (hreads : (appliedOrder patches).mapM readPatch = .ok reads)
    (hloaded : ∀ p ∈ patches, LoadedFrom store ⟨p.patch, p.sha⟩) {key key' : JsString}
    {register register' : LWWRegister V} (h : Writes reads key register) (h' : Writes reads key' register')
    (hid : register.eventId = register'.eventId) : register = register' := by
  have hshas : ConsistentShas (appliedOrder patches) := by
    intro entry hentry other hother hsha
    obtain ⟨p, hp, rfl⟩ := (mem_appliedOrder patches entry).mp hentry
    obtain ⟨q, hq, rfl⟩ := (mem_appliedOrder patches other).mp hother
    exact (hloaded p hp).patch_eq (hloaded q hq) hsha
  have hmem : ∀ key register, Writes reads key register → register ∈ writtenRegisters (appliedOrder patches) := by
    rintro key register ⟨read, hread, op, hevent, hwrite⟩
    obtain ⟨entry, hentry, hok⟩ := (mem_of_mapM_ok hreads read).mp hread
    exact ⟨entry, hentry, read, hok, op, key, hevent, hwrite⟩
  exact writtenRegisters_functional hshas _ (hmem _ _ h) _ (hmem _ _ h') hid

/-- The losses are those of the reads. -/
theorem survivesHttp_iff {patches : List (SyncPatch JsData)} {reads : List (ReadPatch JsData)}
    (hreads : (appliedOrder patches).mapM readPatch = .ok reads)
    (hcontext : ∀ p ∈ patches, ∃ vv, p.patch.context = .map vv)
    (hbig : ∀ p ∈ patches, ¬ p.patch.HasBigInt) :
    CountersReached reads ∧ ChangesOverwritten carried reads ↔ SurvivesHttp patches := by
  have hread : ∀ p ∈ patches, ∀ read, readPatch ⟨p.patch, p.sha⟩ = .ok read →
      p.patch.context = .map read.context ∧ read.writer = p.patch.writer ∧ read.lamport = p.patch.lamport := by
    intro p hp read hread
    obtain ⟨events, context, -, hvv, rfl⟩ := readPatch_eq_ok hread
    obtain ⟨vv, hmap⟩ := hcontext p hp
    rw [hmap] at hvv
    cases hvv
    exact ⟨hmap, rfl, rfl⟩
  have hexists : ∀ p ∈ patches, ∃ read, readPatch ⟨p.patch, p.sha⟩ = .ok read := fun p hp =>
    exists_mapM_ok_iff.mp ⟨reads, hreads⟩ _ ((mem_appliedOrder patches _).mpr ⟨p, hp, rfl⟩)
  have hclean : ∀ key, ∀ register ∈ writtenUnder patches key, ∀ data, register.value = some data →
      hasBigInt data.1 = false := by
    rintro key register ⟨p, hp, read, hok, op, hevent, hwrite⟩ data hdata
    obtain ⟨raw, hraw, hnorm⟩ := (exists_event_iff hok op).mp ⟨register.eventId, hevent⟩
    by_contra htrue
    exact hbig p hp ⟨raw, hraw, data, (value_of_write hnorm hwrite).trans hdata, eq_true_of_ne_false htrue⟩
  have hchange : ∀ key, ∀ register ∈ writtenUnder patches key, (register.value.map carried ≠ register.value ↔
      ∃ data, register.value = some data ∧ isJson data.1 = false) := by
    intro key register hregister
    cases hvalue : register.value with
    | none => simp
    | some data =>
        have hiff := carried_eq_iff (hclean key register hregister data hvalue)
        rw [Option.map_some, ne_eq, Option.some.injEq, hiff, Bool.not_eq_true]
        constructor
        · exact fun hnot => ⟨data, rfl, hnot⟩
        · rintro ⟨data', heq, hnot⟩
          cases heq
          exact hnot
  constructor
  · rintro ⟨hcounters, hvalues⟩
    refine ⟨fun p hp vv hvv writerId count hget => ?_, fun key register hregister data hdata hnot => ?_⟩
    · obtain ⟨read, hok⟩ := hexists p hp
      obtain ⟨hmap, -, -⟩ := hread p hp read hok
      rw [hvv, PatchContext.map.injEq] at hmap
      obtain ⟨tick, htick, hwriter, hpos, hle⟩ := hcounters read ((mem_reads_iff hreads read).mpr ⟨p, hp, hok⟩)
        writerId count (hmap ▸ hget)
      obtain ⟨q, hq, hqok⟩ := (mem_reads_iff hreads tick).mp htick
      obtain ⟨-, hqwriter, hqlamport⟩ := hread q hq tick hqok
      rw [hqwriter] at hwriter
      rw [hqlamport] at hpos hle
      exact ⟨q, hq, hwriter, hpos, hle⟩
    · obtain ⟨later, hlater, hlt⟩ := hvalues key register ((writes_iff hreads key register).mpr hregister)
        ((hchange key register hregister).mpr ⟨data, hdata, hnot⟩)
      exact ⟨later, (writes_iff hreads key later).mp hlater, hlt⟩
  · intro h
    refine ⟨fun read hmem writerId count hget => ?_, fun key register hregister hne => ?_⟩
    · obtain ⟨p, hp, hok⟩ := (mem_reads_iff hreads read).mp hmem
      obtain ⟨q, hq, hwriter, hpos, hle⟩ := h.counters p hp _ (hread p hp read hok).1 writerId count hget
      obtain ⟨tick, hqok⟩ := hexists q hq
      obtain ⟨-, hqwriter, hqlamport⟩ := hread q hq tick hqok
      rw [← hqwriter] at hwriter
      rw [← hqlamport] at hpos hle
      exact ⟨tick, (mem_reads_iff hreads tick).mpr ⟨q, hq, hqok⟩, hwriter, hpos, hle⟩
    · have hwritten := (writes_iff hreads key register).mp hregister
      obtain ⟨data, hdata, hnot⟩ := (hchange key register hwritten).mp hne
      obtain ⟨later, hlater, hlt⟩ := h.values key register hwritten data hdata hnot
      exact ⟨later, (writes_iff hreads key later).mpr hlater, hlt⟩

/-- Without BigInts what matters is what is lost. -/
theorem httpEqualsDirect_iff_survives {limits : SyncPayloadLimits} {store : ObjectStore JsData}
    {response : SyncResponse JsData} (hloaded : ∀ p ∈ response.patches, LoadedFrom store ⟨p.patch, p.sha⟩)
    (hbig : ∀ entry ∈ response.patches, ¬ entry.patch.HasBigInt) :
    HttpEqualsDirect limits response ↔ (validateSyncResponse limits response = true →
      Applicable response.patches → SurvivesHttp response.patches) := by
  have hcontext : ∀ p ∈ response.patches, ∃ vv, p.patch.context = .map vv := fun p hp => (hloaded p hp).1
  obtain ⟨body, hbody, hreceived⟩ := asResponse_overHttp hcontext hbig
  have hdirect : HttpEqualsDirect limits response ↔ (validateSyncResponse limits response = true →
      ∀ state frontier, SameSync (applySyncResponse response.received.patches state frontier)
        (applySyncResponse response.patches state frontier)) := by
    rw [← validate_received]
    constructor
    · exact fun hequal hvalid => hequal.1 body hbody _ hreceived hvalid
    · refine fun hsame => ⟨fun body' hbody' received hread hvalid => ?_, fun hvalid => ?_⟩
      · rw [hbody, Except.ok.injEq] at hbody'
        subst hbody'
        rw [hreceived, Option.some.injEq] at hread
        subst hread
        exact hsame hvalid
      · rw [← validate_received] at hvalid
        exact ⟨body, hbody, _, hreceived, hvalid⟩
  rw [hdirect]
  refine forall_congr' fun _ => ?_
  by_cases happlicable : Applicable response.patches
  · obtain ⟨reads, hreads⟩ := mapM_readPatch_appliedOrder happlicable
    rw [forall_prop_of_true happlicable, ← survivesHttp_iff hreads hcontext hbig]
    exact sameSync_rewritten_iff hcontext carried hreads happlicable
      fun _ _ _ _ hw hw' hid => writes_functional hreads hloaded hw hw' hid
  · refine iff_of_true (fun state frontier => ?_) fun happ => absurd happ happlicable
    have hthrows : ∀ patches : List (SyncPatch JsData), ¬ Applicable patches →
        ∃ err, applySyncResponse patches state frontier = .error err := by
      intro patches hnot
      rw [← exists_applySyncResponse_iff patches state frontier] at hnot
      cases happly : applySyncResponse patches state frontier with
      | error err => exact ⟨err, rfl⟩
      | ok result => exact absurd ⟨result, happly⟩ hnot
    obtain ⟨err, herr⟩ := hthrows _ happlicable
    obtain ⟨err', herr'⟩ := hthrows _ ((applicable_rewritten_iff hcontext carried).not.mpr happlicable)
    show SameSync (applySyncResponse (response.patches.map (SyncPatch.rewritten carried)) state frontier) _
    rw [herr, herr']
    trivial

/-- A response that passes the schema does the same over HTTP exactly when it holds no BigInt and, where it can
be applied, all that HTTP loses of it is made up for. -/
theorem httpEqualsDirect_iff {limits : SyncPayloadLimits} {request : SyncRequest} {localFrontier : Frontier}
    {persistence : SyncPersistence JsData} {response : SyncResponse JsData}
    (h : processSyncRequest request localFrontier persistence = .ok response) :
    HttpEqualsDirect limits response ↔ (validateSyncResponse limits response = true →
      (∀ entry ∈ response.patches, ¬ entry.patch.HasBigInt) ∧
        (Applicable response.patches → SurvivesHttp response.patches)) := by
  by_cases hbig : ∀ entry ∈ response.patches, ¬ entry.patch.HasBigInt
  · rw [httpEqualsDirect_iff_survives (loaded_of_processSyncRequest h) hbig]
    simp only [and_iff_right hbig]
  · have hthrows : ¬ ∃ body, overHttp (responseValue response) = .ok body := by
      rw [exists_overHttp_iff, Bool.not_eq_false, hasBigInt_responseValue]
      simpa using hbig
    constructor
    · intro hequal hvalid
      obtain ⟨body, hbody, -⟩ := hequal.2 hvalid
      exact absurd ⟨body, hbody⟩ hthrows
    · exact fun hcond => ⟨fun body hbody => absurd ⟨body, hbody⟩ hthrows,
        fun hvalid => absurd (hcond hvalid).1 hbig⟩

/-- The first patch of a writer, which adds the nodes. -/
def addsNodes (nodes : List String) : PatchV2 JsData :=
  ⟨2, js "w", 1, .record [(js "w", nodes.length)],
    nodes.zipIdx.map fun item => .nodeAdd (js item.1) ⟨js "w", item.2 + 1⟩⟩

def storeOf (patch : PatchV2 JsData) : ObjectStore JsData :=
  ⟨[(js "aaaa", ⟨[], .patch patch⟩)], ⟨⟨List.not_mem_nil, nofun⟩, trivial⟩⟩

/-- What a requester without patches gets of the store. -/
def firstResponse (patch : PatchV2 JsData) : Except JsError (SyncResponse JsData) :=
  processSyncRequest ⟨PlainObject.empty⟩ (JsMap.ofEntries [(js "w", js "aaaa")]) ⟨storeOf patch, none⟩

/-- The loaded patch. -/
def addsResponse (nodes : List String) : SyncResponse JsData where
  frontier := frontierToObject (JsMap.ofEntries [(js "w", js "aaaa")])
  patches := [⟨js "w", js "aaaa",
    { addsNodes nodes with context := .map (JsMap.ofEntries [(js "w", nodes.length)]) }⟩]
  skippedWriters := []

theorem not_hasBigInt_addsResponse (nodes : List String) :
    ∀ entry ∈ (addsResponse nodes).patches, ¬ entry.patch.HasBigInt := by
  intro entry hentry
  cases List.mem_singleton.mp hentry
  rintro ⟨op, hop, data, hdata, -⟩
  obtain ⟨item, -, rfl⟩ := List.mem_map.mp hop
  cases hdata

theorem httpEqualsDirect_oneNode : HttpEqualsDirect defaultLimits (addsResponse ["m"]) := by
  have hresponse : firstResponse (addsNodes ["m"]) = .ok (addsResponse ["m"]) := rfl
  refine (httpEqualsDirect_iff hresponse).mpr fun _ => ⟨not_hasBigInt_addsResponse ["m"], fun _ => ⟨?_, ?_⟩⟩
  · intro p hp vv hvv writerId count hget
    cases List.mem_singleton.mp hp
    cases hvv
    rw [JsMap.get_eq_some_iff] at hget
    cases List.mem_singleton.mp hget
    exact ⟨_, List.mem_singleton_self _, rfl, by decide, by decide⟩
  · rintro key register ⟨p, hp, read, hread, op, hevent, hwrite⟩
    cases List.mem_singleton.mp hp
    obtain ⟨raw, hraw, hnorm⟩ := (exists_event_iff hread op).mp ⟨_, hevent⟩
    cases List.mem_singleton.mp hraw
    cases hnorm
    cases hwrite

/-- A builder of `w` before its first patch. -/
def firstBuilder : OpenBuilder JsData where
  graph := 0
  writerId := js "w"
  lamport := 1
  vv := createVersionVector
  expectedParentSha := none
  ops := []
  phase := .building
  snapshotState := none
  onDeleteWithData := .warn
  nodesAdded := JsSet.empty
  edgesAdded := JsSet.empty

/-- A patch of two added nodes counts its writer to two, at tick one. -/
theorem not_httpEqualsDirect_twoNodes :
    (∃ builder, firstBuilder.calls [.addNode (js "m"), .addNode (js "n")] = some builder ∧
      Commits builder.toPatchBuilderV2 1 (addsNodes ["m", "n"])) ∧
    firstResponse (addsNodes ["m", "n"]) = .ok (addsResponse ["m", "n"]) ∧
      ¬ HttpEqualsDirect defaultLimits (addsResponse ["m", "n"]) := by
  have hresponse : firstResponse (addsNodes ["m", "n"]) = .ok (addsResponse ["m", "n"]) := rfl
  refine ⟨⟨_, rfl, by decide, by decide, le_rfl, rfl⟩, hresponse, fun h => ?_⟩
  have happlicable : Applicable (addsResponse ["m", "n"]).patches := by
    intro p hp
    cases List.mem_singleton.mp hp
    refine ⟨?_, _, rfl⟩
    show ∀ op ∈ (addsNodes ["m", "n"]).ops, isKnownRawOp op = true
    decide
  have hcounters := ((httpEqualsDirect_iff_survives (loaded_of_processSyncRequest hresponse)
    (not_hasBigInt_addsResponse ["m", "n"])).mp h (by decide) happlicable).counters
  obtain ⟨tick, htick, -, -, hle⟩ := hcounters _ (List.mem_singleton_self _) _ rfl (js "w") 2 (by decide)
  cases List.mem_singleton.mp htick
  exact absurd hle (by decide)

end GitWarp
