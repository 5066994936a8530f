import GitWarp.ReducerContents

/-! Applying a sync response: its patches are grouped by writer, checked one by one and joined into the
state, and the frontier moves to the last patch of each writer. -/

namespace GitWarp
open Js ExceptLoops

variable {V : Type}

/-- A frontier: the tip of each writer's chain. -/
abbrev Frontier := JsMap JsString JsString

/-- A patch of a sync response, under the writer whose chain it was loaded from. -/
structure SyncPatch (V : Type) where
  writerId : JsString
  sha : JsString
  patch : PatchV2 V
  deriving DecidableEq

structure ApplySyncResult (V : Type) where
  state : WarpStateV5 V
  frontier : Frontier
  applied : Nat

/-- The context of a patch as a version vector. -/
def normalizePatch (patch : PatchV2 V) : Except JsError (PatchV2 V) := do
  match patch.context with
  | .map _ => return patch
  | .record counters => return { patch with context := .map (← vvDeserialize counters) }

/-- The type of an operation, as on the wire. -/
def OpV2.type : OpV2 V → JsString
  | .nodeAdd _ _ => js "NodeAdd"
  | .nodeRemove _ _ => js "NodeRemove"
  | .edgeAdd _ _ => js "EdgeAdd"
  | .edgeRemove _ _ _ _ => js "EdgeRemove"
  | .propSet _ _ _ => js "PropSet"
  | .nodePropSet _ _ _ => js "NodePropSet"
  | .edgePropSet _ _ _ => js "EdgePropSet"
  | .blobValue _ _ => js "BlobValue"
  | .unknown type => type

def rawKnownOps : List JsString :=
  [js "NodeAdd", js "NodeRemove", js "EdgeAdd", js "EdgeRemove", js "PropSet", js "BlobValue"]

def isKnownRawOp (op : OpV2 V) : Bool := rawKnownOps.contains op.type

/-- Patches by writer, writers in the order of their first patch. -/
def groupByWriter (patches : List (SyncPatch V)) : JsMap JsString (List (PatchEntry V)) :=
  patches.foldl (fun groups p =>
    groups.set p.writerId ((groups.get p.writerId).getD [] ++ [⟨p.patch, p.sha⟩])) JsMap.empty

/-- Checks one patch of a response and joins it. -/
def applySyncPatch (state : WarpStateV5 V) (entry : PatchEntry V) : Except JsError (WarpStateV5 V) := do
  let patch ← normalizePatch entry.patch
  match patch.ops.find? fun op => !isKnownRawOp op with
  | some op =>
      .error ⟨"SchemaUnsupportedError",
        s!"Patch {toText entry.sha} contains unknown op type: {toText op.type}"⟩
  | none => join state patch entry.sha

def applySyncResponse (patches : List (SyncPatch V)) (state : WarpStateV5 V) (frontier : Frontier) :
    Except JsError (ApplySyncResult V) :=
  (groupByWriter patches).entries.foldlM (fun result group => do
    let state ← group.2.foldlM applySyncPatch result.state
    return {
      state := state
      frontier :=
        match group.2.getLast? with
        | some last => result.frontier.set group.1 last.sha
        | none => result.frontier
      applied := result.applied + group.2.length }) ⟨state, frontier, 0⟩

/-! ### A response is replayed like any other list of patches -/

/-- The patches in the order in which the response is applied. -/
def appliedOrder (patches : List (SyncPatch V)) : List (PatchEntry V) :=
  (groupByWriter patches).entries.flatMap Prod.snd

theorem mem_appliedOrder (patches : List (SyncPatch V)) (entry : PatchEntry V) :
    entry ∈ appliedOrder patches ↔ ∃ p ∈ patches, entry = ⟨p.patch, p.sha⟩ := by
  have hget : ∀ (patches : List (SyncPatch V)) (groups : JsMap JsString (List (PatchEntry V))),
      (∃ writer list, (patches.foldl (fun groups p =>
          groups.set p.writerId ((groups.get p.writerId).getD [] ++ [⟨p.patch, p.sha⟩]))
          groups).get writer = some list ∧ entry ∈ list) ↔
        (∃ writer list, groups.get writer = some list ∧ entry ∈ list) ∨
          ∃ p ∈ patches, entry = ⟨p.patch, p.sha⟩ := by
    intro patches
    induction patches with
    | nil => simp
    | cons p rest ih =>
        intro groups
        rw [List.foldl_cons, ih, List.exists_mem_cons_iff, ← or_assoc]
        refine or_congr_left ?_
        constructor
        · rintro ⟨writer, list, hlist, hmem⟩
          rw [JsMap.get_set] at hlist
          split at hlist
          · cases hlist
            rw [List.mem_append, List.mem_singleton] at hmem
            rcases hmem with hold | hnew
            · cases hgroup : groups.get p.writerId with
              | none => rw [hgroup] at hold; cases hold
              | some old =>
                  rw [hgroup] at hold
                  exact Or.inl ⟨p.writerId, old, hgroup, hold⟩
            · exact Or.inr hnew
          · exact Or.inl ⟨writer, list, hlist, hmem⟩
        · rintro (⟨writer, list, hlist, hmem⟩ | hnew)
          · by_cases hwriter : writer = p.writerId
            · subst hwriter
              refine ⟨p.writerId, _, JsMap.get_set_self _ _ _, List.mem_append_left _ ?_⟩
              rw [hlist]
              exact hmem
            · exact ⟨writer, list, by rw [JsMap.get_set_of_ne _ _ hwriter, hlist], hmem⟩
          · refine ⟨p.writerId, _, JsMap.get_set_self _ _ _, List.mem_append_right _ ?_⟩
            exact List.mem_singleton.mpr hnew
  have hmap := hget patches JsMap.empty
  simp only [JsMap.get_empty, reduceCtorEq, false_and, exists_false, false_or] at hmap
  rw [← hmap, appliedOrder, List.mem_flatMap]
  constructor
  · rintro ⟨⟨writer, list⟩, hentry, hmem⟩
    exact ⟨writer, list, (JsMap.get_eq_some_iff _ _ _).mpr hentry, hmem⟩
  · rintro ⟨writer, list, hlist, hmem⟩
    exact ⟨(writer, list), (JsMap.get_eq_some_iff _ _ _).mp hlist, hmem⟩

/-- Normalizing the context first changes neither what is read nor whether it throws. -/
theorem readPatch_normalize {entry : PatchEntry V} {patch : PatchV2 V}
    (h : normalizePatch entry.patch = .ok patch) : readPatch ⟨patch, entry.sha⟩ = readPatch entry := by
  obtain ⟨⟨schema, writer, lamport, context, ops⟩, sha⟩ := entry
  cases context with
  | map vv =>
      cases h
      rfl
  | record counters =>
      simp only [normalizePatch] at h
      cases hvv : vvDeserialize counters with
      | error err => rw [hvv] at h; cases h
      | ok vv =>
          rw [hvv] at h
          cases h
          simp only [readPatch, contextVV, hvv]
          rfl

/-- A patch of the wire operations only. -/
def PatchV2.WireOps (patch : PatchV2 V) : Prop := ∀ op ∈ patch.ops, isKnownRawOp op = true

theorem normalizePatch_ops {patch normalized : PatchV2 V} (h : normalizePatch patch = .ok normalized) :
    normalized.ops = patch.ops := by
  unfold normalizePatch at h
  cases hcontext : patch.context with
  | map vv => rw [hcontext] at h; cases h; rfl
  | record counters =>
      rw [hcontext] at h
      cases hvv : vvDeserialize counters with
      | error err => simp only [hvv] at h; cases h
      | ok vv => simp only [hvv] at h; cases h; rfl

/-- A patch that passes the checks of the response is joined as the reducer reads it. -/
theorem applySyncPatch_eq_ok {state state' : WarpStateV5 V} {entry : PatchEntry V}
    (h : applySyncPatch state entry = .ok state') :
    ∃ read, readPatch entry = .ok read ∧ state' = applyRead state read := by
  unfold applySyncPatch at h
  cases hnorm : normalizePatch entry.patch with
  | error err => rw [hnorm] at h; cases h
  | ok patch =>
      rw [hnorm] at h
      simp only [bind, Except.bind] at h
      split at h
      · cases h
      · rw [join, show applyFast state patch entry.sha =
          applyFast state (PatchEntry.mk patch entry.sha).patch (PatchEntry.mk patch entry.sha).sha
          from rfl, applyFast_eq, readPatch_normalize hnorm] at h
        cases hread : readPatch entry with
        | error err => rw [hread] at h; cases h
        | ok read =>
            rw [hread] at h
            cases h
            exact ⟨read, rfl, rfl⟩

theorem applySyncPatch_ok {entry : PatchEntry V} {read : ReadPatch V}
    (hread : readPatch entry = .ok read) (hwire : entry.patch.WireOps) (state : WarpStateV5 V) :
    applySyncPatch state entry = .ok (applyRead state read) := by
  have hnorm : ∃ patch, normalizePatch entry.patch = .ok patch := by
    obtain ⟨events, context, -, hcontext, -⟩ := readPatch_eq_ok hread
    unfold normalizePatch
    cases hc : entry.patch.context with
    | map vv => exact ⟨_, rfl⟩
    | record counters =>
        rw [hc, contextVV] at hcontext
        simp only [hcontext]
        exact ⟨_, rfl⟩
  obtain ⟨patch, hpatch⟩ := hnorm
  have hfind : patch.ops.find? (fun op => !isKnownRawOp op) = none := by
    rw [List.find?_eq_none, normalizePatch_ops hpatch]
    intro op hop
    simp [hwire op hop]
  have happly := applyFast_eq state ⟨patch, entry.sha⟩
  rw [readPatch_normalize hpatch, hread] at happly
  unfold applySyncPatch
  rw [hpatch]
  simp only [bind, Except.bind, hfind, join]
  exact happly

/-- The state a response leaves is the replay of its patches on top of the old one. -/
theorem applySyncResponse_state {patches : List (SyncPatch V)} {state : WarpStateV5 V}
    {frontier : Frontier} {result : ApplySyncResult V}
    (h : applySyncResponse patches state frontier = .ok result) :
    ∃ reads, (appliedOrder patches).mapM readPatch = .ok reads ∧
      result.state = reads.foldl applyRead state := by
  have hpatches : ∀ (entries : List (PatchEntry V)) (s t : WarpStateV5 V),
      entries.foldlM applySyncPatch s = .ok t →
      ∃ reads, entries.mapM readPatch = .ok reads ∧ t = reads.foldl applyRead s := by
    intro entries
    induction entries with
    | nil => exact fun s t ht => ⟨[], rfl, (Except.ok.inj ht).symm⟩
    | cons entry rest ih =>
        intro s t ht
        rw [List.foldlM_cons] at ht
        cases hone : applySyncPatch s entry with
        | error err => rw [hone] at ht; cases ht
        | ok m =>
            rw [hone] at ht
            obtain ⟨read, hread, rfl⟩ := applySyncPatch_eq_ok hone
            obtain ⟨reads, hreads, rfl⟩ := ih _ _ ht
            exact ⟨read :: reads, mapM_cons_ok_iff.mpr ⟨read, reads, hread, hreads, rfl⟩, rfl⟩
  have hgroups : ∀ (groups : List (JsString × List (PatchEntry V))) (start result : ApplySyncResult V),
      groups.foldlM (fun result group => do
        let state ← group.2.foldlM applySyncPatch result.state
        return {
          state := state
          frontier :=
            match group.2.getLast? with
            | some last => result.frontier.set group.1 last.sha
            | none => result.frontier
          applied := result.applied + group.2.length : ApplySyncResult V }) start =
        (.ok result : Except JsError (ApplySyncResult V)) →
      ∃ reads, (groups.flatMap Prod.snd).mapM readPatch = .ok reads ∧
        result.state = reads.foldl applyRead start.state := by
    intro groups
    induction groups with
    | nil => exact fun start result hr => ⟨[], rfl, by cases hr; rfl⟩
    | cons group rest ih =>
        intro start result hr
        rw [List.foldlM_cons] at hr
        cases hone : group.2.foldlM applySyncPatch start.state with
        | error err => rw [hone] at hr; cases hr
        | ok m =>
            rw [hone] at hr
            obtain ⟨reads, hreads, rfl⟩ := hpatches _ _ _ hone
            obtain ⟨reads', hreads', hstate⟩ := ih _ _ hr
            refine ⟨reads ++ reads', ?_, ?_⟩
            · rw [List.flatMap_cons, List.mapM_append, hreads, hreads']
              rfl
            · rw [hstate, List.foldl_append]
  exact hgroups _ _ _ h

/-- The frontier moves to the last patch of each writer in the response. -/
theorem applySyncResponse_frontier {patches : List (SyncPatch V)} {state : WarpStateV5 V}
    {frontier : Frontier} {result : ApplySyncResult V}
    (h : applySyncResponse patches state frontier = .ok result) (writerId : JsString) :
    result.frontier.get writerId =
      ((((groupByWriter patches).get writerId).bind List.getLast?).map PatchEntry.sha).or
        (frontier.get writerId) := by
  have hgroups : ∀ (groups : List (JsString × List (PatchEntry V))) (start result : ApplySyncResult V),
      (groups.map Prod.fst).Nodup →
      groups.foldlM (fun result group => do
        let state ← group.2.foldlM applySyncPatch result.state
        return {
          state := state
          frontier :=
            match group.2.getLast? with
            | some last => result.frontier.set group.1 last.sha
            | none => result.frontier
          applied := result.applied + group.2.length : ApplySyncResult V }) start =
        (.ok result : Except JsError (ApplySyncResult V)) →
      result.frontier.get writerId =
        (((JsMap.lookup groups writerId).bind List.getLast?).map PatchEntry.sha).or
          (start.frontier.get writerId) := by
    intro groups
    induction groups with
    | nil =>
        intro start result _ hr
        cases hr
        rfl
    | cons group rest ih =>
        intro start result hnodup hr
        rw [List.map_cons, List.nodup_cons] at hnodup
        rw [List.foldlM_cons] at hr
        cases hone : group.2.foldlM applySyncPatch start.state with
        | error err => rw [hone] at hr; cases hr
        | ok m =>
            rw [hone] at hr
            rw [ih _ _ hnodup.2 hr, JsMap.lookup_cons]
            by_cases hwriter : writerId = group.1
            · subst hwriter
              have habsent : JsMap.lookup rest group.1 = none := by
                rw [Option.eq_none_iff_forall_not_mem]
                intro list hlist
                have hmem := (JsMap.lookup_eq_some_iff hnodup.2 _ _).mp hlist
                exact hnodup.1 (List.mem_map.mpr ⟨(group.1, list), hmem, rfl⟩)
              rw [habsent]
              cases hlast : group.2.getLast? <;> simp [hlast]
            · cases hlast : group.2.getLast? <;>
                simp [hwriter, JsMap.get_set_of_ne]
  exact hgroups _ _ _ (groupByWriter patches).nodup h

/-- Readable patches of wire operations are applied without an error. -/
theorem exists_applySyncResponse_ok {patches : List (SyncPatch V)}
    (hreadable : ∀ p ∈ patches, ∃ read, readPatch ⟨p.patch, p.sha⟩ = .ok read)
    (hwire : ∀ p ∈ patches, p.patch.WireOps) (state : WarpStateV5 V) (frontier : Frontier) :
    ∃ result, applySyncResponse patches state frontier = .ok result := by
  refine exists_foldlM_ok (fun result group hgroup => ?_) _
  have hloop : ∃ t, group.2.foldlM applySyncPatch result.state = .ok t := by
    refine exists_foldlM_ok (fun s entry hentry => ?_) result.state
    have hmem : entry ∈ appliedOrder patches := List.mem_flatMap.mpr ⟨group, hgroup, hentry⟩
    obtain ⟨p, hp, rfl⟩ := (mem_appliedOrder patches entry).mp hmem
    obtain ⟨read, hread⟩ := hreadable p hp
    exact ⟨_, applySyncPatch_ok hread (hwire p hp) s⟩
  obtain ⟨t, ht⟩ := hloop
  rw [ht]
  exact ⟨_, rfl⟩

end GitWarp
