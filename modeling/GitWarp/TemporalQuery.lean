import GitWarp.SyncReplicas

/-! Temporal queries. `always` and `eventually` replay the sorted history and test a predicate on the
snapshots of one node at the ticks from `since` on. Started from a checkpoint they skip every patch up to
the greatest tick in the checkpoint's frontier, which is taken for the tick up to which the checkpoint is
complete. The answers agree when it is, and when that tick is no boundary that other patches share. -/

namespace GitWarp
open Js ExceptLoops

variable {V Buffer : Type}

/-! ### Snapshots -/

/-- What a predicate is given: the properties as `props` was assigned them. -/
structure NodeSnapshot (V : Type) where
  id : JsString
  «exists» : Bool
  props : JsMap JsString (Option V)

/-- Removes the envelope of an inline value; `inline` reads its `value` where a value is one. -/
def unwrapValue (inline : V → Option (Option V)) : Option V → Option V
  | some value =>
      match inline value with
      | some inner => inner
      | none => some value
  | none => none

def extractNodeSnapshot (inline : V → Option (Option V)) (state : WarpStateV5 V) (nodeId : JsString) :
    NodeSnapshot V :=
  let found := orsetContains state.nodeAlive nodeId
  let keyPrefix := nodeId ++ [fieldSeparator]
  ⟨nodeId, found,
    if found then
      state.prop.entries.foldl (fun props entry =>
        if keyPrefix.isPrefixOf entry.1 then
          props.set (decodePropKey entry.1).2 (unwrapValue inline entry.2.value)
        else props) JsMap.empty
    else JsMap.empty⟩

/-! ### Queries -/

/-- `_sortPatchesCausally` -/
def sortPatchesCausally (localeCompare : JsString → JsString → Int) (patches : List (PatchEntry V)) :
    List (PatchEntry V) :=
  patches.insertionSort fun a b =>
    a.patch.lamport < b.patch.lamport ∨ a.patch.lamport = b.patch.lamport ∧
      (localeCompare a.patch.writer b.patch.writer < 0 ∨ localeCompare a.patch.writer b.patch.writer = 0 ∧
        localeCompare a.sha b.sha ≤ 0)

/-- `_maxLamportFromState` -/
def maxLamportFromState (state : WarpStateV5 V) : Nat :=
  state.observedFrontier.values.foldl (fun max v => if max < v then v else max) 0

/-- What `loadCheckpoint` returns. -/
structure TemporalCheckpoint (V : Type) where
  state : WarpStateV5 V
  maxLamport : Nat

/-- What the two loaders of a query return. -/
structure TemporalQuery (V : Type) where
  loadAllPatches : List (PatchEntry V)
  loadCheckpoint : Option (TemporalCheckpoint V)

/-- Where a replay starts. -/
structure ResolvedStart (V : Type) where
  state : WarpStateV5 V
  startIdx : Nat
  checkpointMaxLamport : Option Nat

/-- `_resolveStart` -/
def resolveStart (query : TemporalQuery V) (since : Int) : ResolvedStart V :=
  let fromEmpty : ResolvedStart V := ⟨createEmptyStateV5, 0, none⟩
  if 0 < since then
    match query.loadCheckpoint with
    | some ck =>
        if (ck.maxLamport : Int) ≤ since then
          ⟨ck.state, query.loadAllPatches.findIdx fun entry => ck.maxLamport < entry.patch.lamport,
            some ck.maxLamport⟩
        else fromEmpty
    | none => fromEmpty
  else fromEmpty

section Loops

variable (inline : V → Option (Option V)) (nodeId : JsString) (predicate : NodeSnapshot V → Bool) (since : Int)

structure AlwaysBoundary where
  nodeEverExisted : Bool
  shouldReturn : Bool
  returnValue : Bool

def evaluateAlwaysCheckpointBoundary (state : WarpStateV5 V) (checkpointMaxLamport : Option Nat) :
    AlwaysBoundary :=
  if checkpointMaxLamport.map Int.ofNat ≠ some since then ⟨false, false, false⟩
  else
    let snapshot := extractNodeSnapshot inline state nodeId
    if snapshot.exists = false then ⟨false, false, false⟩
    else if predicate snapshot = false then ⟨true, true, false⟩
    else ⟨true, false, false⟩

def evaluateEventuallyCheckpointBoundary (state : WarpStateV5 V) (checkpointMaxLamport : Option Nat) : Bool :=
  if checkpointMaxLamport.map Int.ofNat ≠ some since then false
  else
    let snapshot := extractNodeSnapshot inline state nodeId
    snapshot.exists && predicate snapshot

/-- The loop of `always`. -/
def alwaysFrom : WarpStateV5 V → Bool → List (PatchEntry V) → Except JsError Bool
  | _, nodeEverExisted, [] => return nodeEverExisted
  | state, nodeEverExisted, entry :: rest => do
      let state ← join state entry.patch entry.sha
      if (entry.patch.lamport : Int) < since then alwaysFrom state nodeEverExisted rest
      else
        let snapshot := extractNodeSnapshot inline state nodeId
        if snapshot.exists then
          if predicate snapshot then alwaysFrom state true rest else return false
        else alwaysFrom state nodeEverExisted rest

/-- The loop of `eventually`. -/
def eventuallyFrom : WarpStateV5 V → List (PatchEntry V) → Except JsError Bool
  | _, [] => return false
  | state, entry :: rest => do
      let state ← join state entry.patch entry.sha
      if (entry.patch.lamport : Int) < since then eventuallyFrom state rest
      else
        let snapshot := extractNodeSnapshot inline state nodeId
        if snapshot.exists && predicate snapshot then return true else eventuallyFrom state rest

def TemporalQuery.always (query : TemporalQuery V) : Except JsError Bool :=
  let start := resolveStart query since
  let boundary :=
    evaluateAlwaysCheckpointBoundary inline nodeId predicate since start.state start.checkpointMaxLamport
  if boundary.shouldReturn then return boundary.returnValue
  else
    alwaysFrom inline nodeId predicate since start.state boundary.nodeEverExisted
      (query.loadAllPatches.drop start.startIdx)

def TemporalQuery.eventually (query : TemporalQuery V) : Except JsError Bool :=
  let start := resolveStart query since
  if evaluateEventuallyCheckpointBoundary inline nodeId predicate since start.state start.checkpointMaxLamport
  then return true
  else
    eventuallyFrom inline nodeId predicate since start.state (query.loadAllPatches.drop start.startIdx)

end Loops

/-! ### What the loops see

Both answers are read off the snapshots of the existing node that a query comes by. -/

section Seen

variable (inline : V → Option (Option V)) (nodeId : JsString) (predicate : NodeSnapshot V → Bool) (since : Int)

/-- The snapshot in a state, where the node exists. -/
def snapshotsOf (state : WarpStateV5 V) : List (NodeSnapshot V) :=
  if (extractNodeSnapshot inline state nodeId).exists then [extractNodeSnapshot inline state nodeId] else []

/-- The snapshots after the patches from tick `since` on. -/
def seenFrom : WarpStateV5 V → List (PatchEntry V) → Except JsError (List (NodeSnapshot V))
  | _, [] => return []
  | state, entry :: rest => do
      let state ← join state entry.patch entry.sha
      let later ← seenFrom state rest
      return (if (entry.patch.lamport : Int) < since then [] else snapshotsOf inline nodeId state) ++ later

/-- The snapshots that a query comes by. -/
def TemporalQuery.seen (query : TemporalQuery V) : Except JsError (List (NodeSnapshot V)) := do
  let start := resolveStart query since
  let later ← seenFrom inline nodeId since start.state (query.loadAllPatches.drop start.startIdx)
  return (if start.checkpointMaxLamport.map Int.ofNat = some since then snapshotsOf inline nodeId start.state
    else []) ++ later

variable {inline nodeId since}

theorem alwaysFrom_of_seen {entries : List (PatchEntry V)} {state : WarpStateV5 V}
    {snapshots : List (NodeSnapshot V)} (h : seenFrom inline nodeId since state entries = .ok snapshots)
    (nodeEverExisted : Bool) :
    alwaysFrom inline nodeId predicate since state nodeEverExisted entries =
      .ok ((nodeEverExisted || !snapshots.isEmpty) && snapshots.all predicate) := by
  induction entries generalizing state snapshots nodeEverExisted with
  | nil =>
      cases h
      simp [alwaysFrom, pure, Except.pure]
  | cons entry rest ih =>
      unfold seenFrom at h
      unfold alwaysFrom
      cases hjoin : join state entry.patch entry.sha with
      | error err => rw [hjoin] at h; cases h
      | ok next =>
          rw [hjoin] at h
          simp only [bind, Except.bind] at h ⊢
          cases hlater : seenFrom inline nodeId since next rest with
          | error err => rw [hlater] at h; cases h
          | ok later =>
              rw [hlater] at h
              cases h
              split
              · rw [ih hlater]
                simp
              · unfold snapshotsOf
                split
                · rename_i hfound
                  rw [ih hlater]
                  by_cases hholds : predicate (extractNodeSnapshot inline next nodeId) = true
                  · simp [hholds]
                  · simp [hholds, pure, Except.pure]
                · rw [ih hlater]
                  simp

theorem eventuallyFrom_of_seen {entries : List (PatchEntry V)} {state : WarpStateV5 V}
    {snapshots : List (NodeSnapshot V)} (h : seenFrom inline nodeId since state entries = .ok snapshots) :
    eventuallyFrom inline nodeId predicate since state entries = .ok (snapshots.any predicate) := by
  induction entries generalizing state snapshots with
  | nil =>
      cases h
      rfl
  | cons entry rest ih =>
      unfold seenFrom at h
      unfold eventuallyFrom
      cases hjoin : join state entry.patch entry.sha with
      | error err => rw [hjoin] at h; cases h
      | ok next =>
          rw [hjoin] at h
          simp only [bind, Except.bind] at h ⊢
          cases hlater : seenFrom inline nodeId since next rest with
          | error err => rw [hlater] at h; cases h
          | ok later =>
              rw [hlater] at h
              cases h
              split
              · rw [ih hlater]
                simp
              · unfold snapshotsOf
                cases hfound : (extractNodeSnapshot inline next nodeId).exists with
                | false => simp [ih hlater]
                | true =>
                    by_cases hholds : predicate (extractNodeSnapshot inline next nodeId) = true
                    · simp [hholds, pure, Except.pure]
                    · simp [hholds, ih hlater]

theorem always_of_seen {query : TemporalQuery V} {snapshots : List (NodeSnapshot V)}
    (h : query.seen inline nodeId since = .ok snapshots) :
    query.always inline nodeId predicate since = .ok (!snapshots.isEmpty && snapshots.all predicate) := by
  unfold TemporalQuery.seen at h
  unfold TemporalQuery.always evaluateAlwaysCheckpointBoundary
  cases hlater : seenFrom inline nodeId since (resolveStart query since).state
      (query.loadAllPatches.drop (resolveStart query since).startIdx) with
  | error err => simp only [hlater, bind, Except.bind] at h; cases h
  | ok later =>
      simp only [hlater, bind, Except.bind] at h
      cases h
      have hloop := alwaysFrom_of_seen predicate hlater
      by_cases hboundary : (resolveStart query since).checkpointMaxLamport.map Int.ofNat = some since
      · simp only [hboundary, ne_eq, not_true, if_false, if_true, snapshotsOf]
        cases hfound : (extractNodeSnapshot inline (resolveStart query since).state nodeId).exists with
        | false => simp [hloop]
        | true =>
            by_cases hholds : predicate (extractNodeSnapshot inline (resolveStart query since).state nodeId) = true
            · simp [hholds, hloop]
            · simp [hholds, pure, Except.pure]
      · simp [hboundary, hloop]

theorem eventually_of_seen {query : TemporalQuery V} {snapshots : List (NodeSnapshot V)}
    (h : query.seen inline nodeId since = .ok snapshots) :
    query.eventually inline nodeId predicate since = .ok (snapshots.any predicate) := by
  unfold TemporalQuery.seen at h
  unfold TemporalQuery.eventually evaluateEventuallyCheckpointBoundary
  cases hlater : seenFrom inline nodeId since (resolveStart query since).state
      (query.loadAllPatches.drop (resolveStart query since).startIdx) with
  | error err => simp only [hlater, bind, Except.bind] at h; cases h
  | ok later =>
      simp only [hlater, bind, Except.bind] at h
      cases h
      have hloop := eventuallyFrom_of_seen predicate hlater
      by_cases hboundary : (resolveStart query since).checkpointMaxLamport.map Int.ofNat = some since
      · simp only [hboundary, ne_eq, not_true, if_false, if_true, snapshotsOf]
        cases hfound : (extractNodeSnapshot inline (resolveStart query since).state nodeId).exists with
        | false => simp [hloop]
        | true =>
            by_cases hholds : predicate (extractNodeSnapshot inline (resolveStart query since).state nodeId) = true
            · simp [hholds, pure, Except.pure]
            · simp [hholds, hloop]
      · simp [hboundary, hloop]

theorem join_of_read {entry : PatchEntry V} {read : ReadPatch V} (hread : readPatch entry = .ok read)
    (state : WarpStateV5 V) : join state entry.patch entry.sha = .ok (applyRead state read) := by
  unfold join
  rw [applyFast_eq, hread]
  rfl

/-- Patches before tick `since` are only replayed. -/
theorem seenFrom_skip {skipped rest : List (PatchEntry V)} {reads : List (ReadPatch V)}
    (hreads : skipped.mapM readPatch = .ok reads)
    (hearly : ∀ entry ∈ skipped, (entry.patch.lamport : Int) < since) (state : WarpStateV5 V) :
    seenFrom inline nodeId since state (skipped ++ rest) =
      seenFrom inline nodeId since (reads.foldl applyRead state) rest := by
  induction skipped generalizing state reads with
  | nil =>
      cases hreads
      rfl
  | cons entry skipped ih =>
      obtain ⟨read, reads', hread, hreads', rfl⟩ := mapM_cons_ok_iff.mp hreads
      rw [List.cons_append, seenFrom, join_of_read hread]
      simp only [bind, Except.bind]
      rw [ih hreads' (fun e he => hearly e (List.mem_cons_of_mem entry he)),
        if_pos (hearly entry List.mem_cons_self), List.foldl_cons]
      cases seenFrom inline nodeId since (reads'.foldl applyRead (applyRead state read)) rest <;> rfl

end Seen

/-! ### States that show the same -/

/-- The same node with the same properties, whatever the order in which they were assigned. -/
structure NodeSnapshot.Alike (a b : NodeSnapshot V) : Prop where
  id : a.id = b.id
  «exists» : a.exists = b.exists
  props : ∀ name, a.props.get name = b.props.get name

/-- A key of the node's properties. -/
def IsPropKeyOf (nodeId key : JsString) : Prop := (nodeId ++ [fieldSeparator]).isPrefixOf key = true

/-- Two states show the same of a node, and each of its properties under a name of its own. -/
structure ShowSame (nodeId : JsString) (a b : WarpStateV5 V) : Prop where
  alive : orsetContains a.nodeAlive nodeId = orsetContains b.nodeAlive nodeId
  prop : ∀ key, a.prop.get key = b.prop.get key
  names : ∀ key key', (a.prop.get key).isSome → (a.prop.get key').isSome → IsPropKeyOf nodeId key →
    IsPropKeyOf nodeId key' → (decodePropKey key).2 = (decodePropKey key').2 → key = key'

theorem get_snapshotProps (inline : V → Option (Option V)) {nodeId : JsString} {state : WarpStateV5 V}
    (hnames : ∀ key key', (state.prop.get key).isSome → (state.prop.get key').isSome →
      IsPropKeyOf nodeId key → IsPropKeyOf nodeId key' →
      (decodePropKey key).2 = (decodePropKey key').2 → key = key')
    (halive : orsetContains state.nodeAlive nodeId = true) (name : JsString) (value : Option V) :
    (extractNodeSnapshot inline state nodeId).props.get name = some value ↔
      ∃ key register, state.prop.get key = some register ∧ IsPropKeyOf nodeId key ∧
        (decodePropKey key).2 = name ∧ unwrapValue inline register.value = value := by
  let assigned (entry : JsString × LWWRegister V) : Option (JsString × Option V) :=
    if (nodeId ++ [fieldSeparator]).isPrefixOf entry.1 then
      some ((decodePropKey entry.1).2, unwrapValue inline entry.2.value)
    else none
  have hprops : (extractNodeSnapshot inline state nodeId).props =
      state.prop.entries.foldl (fun props entry => (assigned entry).elim props fun p => props.set p.1 p.2)
        JsMap.empty := by
    simp only [extractNodeSnapshot, halive, if_true]
    congr 1
    funext props entry
    simp only [assigned]
    split <;> rfl
  have hassigned : ∀ {entry p}, assigned entry = some p → IsPropKeyOf nodeId entry.1 ∧
      (decodePropKey entry.1).2 = p.1 ∧ unwrapValue inline entry.2.value = p.2 := by
    intro entry p hp
    simp only [assigned] at hp
    split at hp
    · rename_i hkey
      cases hp
      exact ⟨hkey, rfl, rfl⟩
    · cases hp
  rw [hprops, JsMap.get_collect_iff]
  · refine exists_congr fun key => exists_congr fun register => and_congr_right fun _ => ?_
    refine ⟨hassigned, ?_⟩
    rintro ⟨hkey, rfl, rfl⟩
    exact if_pos hkey
  · intro a ha b hb p q hp hq hsame
    obtain ⟨hkeyA, hnameA, -⟩ := hassigned hp
    obtain ⟨hkeyB, hnameB, -⟩ := hassigned hq
    refine hnames a.1 b.1 ?_ ?_ hkeyA hkeyB (by rw [hnameA, hnameB, hsame])
    · rw [(state.prop.get_eq_some_iff a.1 a.2).mpr ha]
      rfl
    · rw [(state.prop.get_eq_some_iff b.1 b.2).mpr hb]
      rfl

theorem extractNodeSnapshot_alike (inline : V → Option (Option V)) {nodeId : JsString} {a b : WarpStateV5 V}
    (h : ShowSame nodeId a b) :
    (extractNodeSnapshot inline a nodeId).Alike (extractNodeSnapshot inline b nodeId) where
  id := rfl
  «exists» := h.alive
  props name := by
    cases halive : orsetContains a.nodeAlive nodeId with
    | false =>
        have halive' := h.alive.symm.trans halive
        simp [extractNodeSnapshot, halive, halive']
    | true =>
        have halive' := h.alive.symm.trans halive
        apply Option.ext
        intro value
        rw [get_snapshotProps inline h.names halive, get_snapshotProps inline ?_ halive']
        · simp only [h.prop]
        · simpa only [h.prop] using h.names

theorem snapshotsOf_alike (inline : V → Option (Option V)) {nodeId : JsString} {a b : WarpStateV5 V}
    (h : ShowSame nodeId a b) :
    List.Forall₂ NodeSnapshot.Alike (snapshotsOf inline nodeId a) (snapshotsOf inline nodeId b) := by
  have halike := extractNodeSnapshot_alike inline h
  unfold snapshotsOf
  rw [← halike.exists]
  split
  · exact List.Forall₂.cons halike List.Forall₂.nil
  · exact List.Forall₂.nil

/-- Replays that show the same at every point come by the same snapshots. -/
theorem seenFrom_alike (inline : V → Option (Option V)) {nodeId : JsString} (since : Int)
    {entries : List (PatchEntry V)} {reads : List (ReadPatch V)} (hreads : entries.mapM readPatch = .ok reads)
    {a b : WarpStateV5 V}
    (h : ∀ k, ShowSame nodeId ((reads.take k).foldl applyRead a) ((reads.take k).foldl applyRead b)) :
    ∃ seenA seenB, seenFrom inline nodeId since a entries = .ok seenA ∧
      seenFrom inline nodeId since b entries = .ok seenB ∧ List.Forall₂ NodeSnapshot.Alike seenA seenB := by
  induction entries generalizing reads a b with
  | nil => exact ⟨[], [], rfl, rfl, List.Forall₂.nil⟩
  | cons entry rest ih =>
      obtain ⟨read, reads', hread, hreads', rfl⟩ := mapM_cons_ok_iff.mp hreads
      obtain ⟨laterA, laterB, hlaterA, hlaterB, hlater⟩ := ih hreads' fun k => h (k + 1)
      have hhere := snapshotsOf_alike inline (h 1)
      simp only [List.take_succ_cons, List.take_zero, List.foldl_cons, List.foldl_nil] at hhere
      unfold seenFrom
      simp only [join_of_read hread, bind, Except.bind, hlaterA, hlaterB]
      refine ⟨_, _, rfl, rfl, ?_⟩
      split
      · exact hlater
      · exact List.rel_append hhere hlater

/-- A predicate that asks for properties by their names. -/
def AsksByName (predicate : NodeSnapshot V → Bool) : Prop := ∀ a b, a.Alike b → predicate a = predicate b

theorem answers_alike {predicate : NodeSnapshot V → Bool} (hpredicate : AsksByName predicate)
    {seenA seenB : List (NodeSnapshot V)} (h : List.Forall₂ NodeSnapshot.Alike seenA seenB) :
    seenA.isEmpty = seenB.isEmpty ∧ seenA.all predicate = seenB.all predicate ∧
      seenA.any predicate = seenB.any predicate := by
  induction h with
  | nil => exact ⟨rfl, rfl, rfl⟩
  | cons halike _ ih =>
      obtain ⟨-, hall, hany⟩ := ih
      rw [List.all_cons, List.all_cons, List.any_cons, List.any_cons, hpredicate _ _ halike, hall, hany]
      exact ⟨rfl, rfl, rfl⟩

/-- What `loadCheckpoint` of `WarpGraph.temporal` returns after `createCheckpoint` on the given patches. -/
def temporalCheckpoint (codec : CodecPort (FullStateObject V) Buffer) (earlier : List (PatchEntry V)) :
    Except JsError (TemporalCheckpoint V) := do
  let state ← reduceV5 earlier
  let loaded ← reloadCheckpoint codec state
  return ⟨loaded, maxLamportFromState loaded⟩

/-- Both queries give the same answer with the checkpoint of `earlier` and without one. -/
def TemporalAgrees (codec : CodecPort (FullStateObject V) Buffer) (localeCompare : JsString → JsString → Int)
    (inline : V → Option (Option V)) (earlier history : List (PatchEntry V)) (nodeId : JsString)
    (predicate : NodeSnapshot V → Bool) (since : Int) : Prop :=
  ∃ ck, temporalCheckpoint codec earlier = .ok ck ∧
    TemporalQuery.always inline nodeId predicate since ⟨sortPatchesCausally localeCompare history, some ck⟩ =
      TemporalQuery.always inline nodeId predicate since ⟨sortPatchesCausally localeCompare history, none⟩ ∧
    TemporalQuery.eventually inline nodeId predicate since ⟨sortPatchesCausally localeCompare history, some ck⟩ =
      TemporalQuery.eventually inline nodeId predicate since ⟨sortPatchesCausally localeCompare history, none⟩

end GitWarp
