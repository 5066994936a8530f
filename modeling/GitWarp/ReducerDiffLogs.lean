import GitWarp.ReducerDiffAlive

/-! The logs of nodes and edges over a whole replay. Each operation logs every element it raises or lowers,
once; so the log of a patch counts the changes in it, and the merged log of the replay is the one that
cancelling leaves. -/

namespace GitWarp
open Js ExceptLoops

variable {V : Type}

/-- Whether a node or, for `edges`, an edge is alive. -/
def WarpStateV5.aliveIn (edges : Bool) (x : JsString) (state : WarpStateV5 V) : Bool :=
  orsetContains (state.part edges) x

/-- The keys of the nodes or, for `edges`, of the edges that a diff lists as added. -/
def PatchDiff.added (diff : PatchDiff V) (edges : Bool) : List JsString :=
  if edges then diff.edgesAdded.map EdgeRef.key else diff.nodesAdded

/-- The keys of the nodes or, for `edges`, of the edges that a diff lists as removed. -/
def PatchDiff.removed (diff : PatchDiff V) (edges : Bool) : List JsString :=
  if edges then diff.edgesRemoved.map EdgeRef.key else diff.nodesRemoved

/-- What the log of a diff says about one element. -/
def PatchDiff.logOf (edges : Bool) (x : JsString) (diff : PatchDiff V) : Flips.Log :=
  ⟨(diff.added edges).count x, (diff.removed edges).count x⟩

/-! ### Where the logs are exact -/

/-- The dots in play, by element: every dot has one owner, and edges have clean keys. -/
structure TrackedDots (A : Bool → Set (JsString × JsString)) : Prop where
  owner : ∀ edges x y d, (x, d) ∈ A edges → (y, d) ∈ A edges → x = y
  edgeKeys : ∀ x d, (x, d) ∈ A true → ∃ edge : EdgeRef, edge.Clean ∧ edge.key = x

/-- The state holds no dots but those of `A`. -/
def WarpStateV5.DotsIn (A : Bool → Set (JsString × JsString)) (state : WarpStateV5 V) : Prop :=
  ∀ edges x d, d ∈ (state.part edges).dotsOf x → (x, d) ∈ A edges

theorem TrackedDots.owned {A : Bool → Set (JsString × JsString)} (hA : TrackedDots A)
    {state : WarpStateV5 V} (hstate : state.DotsIn A) (edges : Bool) : (state.part edges).Owned :=
  fun x y d hx hy => hA.owner edges x y d (hstate edges x d hx) (hstate edges y d hy)

theorem dotsIn_applyEvent {A : Bool → Set (JsString × JsString)} {state : WarpStateV5 V}
    (hstate : state.DotsIn A) {event : OpV2 V × EventId}
    (hevent : ∀ edges pair, event.1.addPair edges = some pair → pair ∈ A edges) :
    (applyEvent state event).DotsIn A := by
  intro edges x d hmem
  rw [← ORSet.mem_adds_view, WarpStateV5.view_part, view_applyEvent, StateView.part_sup,
    AddWins.mem_adds_sup, mem_adds_effect] at hmem
  rcases hmem with hold | hnew
  · rw [← WarpStateV5.view_part] at hold
    exact hstate edges x d hold
  · exact hevent edges (x, d) hnew

theorem dotsIn_foldl_applyEvent {A : Bool → Set (JsString × JsString)} {state : WarpStateV5 V}
    (hstate : state.DotsIn A) {events : List (OpV2 V × EventId)}
    (hevents : ∀ event ∈ events, ∀ edges pair, event.1.addPair edges = some pair → pair ∈ A edges) :
    (events.foldl applyEvent state).DotsIn A :=
  List.foldlRecOn (motive := WarpStateV5.DotsIn A) events applyEvent hstate fun _ hs event hevent =>
    dotsIn_applyEvent hs (hevents event hevent)

variable [JsReferences V]

/-! ### One operation -/

theorem count_append_singleton (l : List JsString) (x y : JsString) :
    (l ++ [y]).count x = l.count x + if x = y then 1 else 0 := by
  rw [List.count_append, List.count_singleton]
  by_cases h : x = y
  · simp [h]
  · have h' : y ≠ x := fun heq => h heq.symm
    simp [h, h']

/-- Adding under one element raises at most that element. -/
theorem raised_by_orsetAdd (set : ORSet) (element : JsString) (dot : Dot) (l : List JsString)
    (x : JsString) :
    (if orsetContains set element = false ∧ orsetContains (orsetAdd set element dot) element = true
      then l ++ [element] else l).count x =
      l.count x + if orsetContains set x = false ∧ orsetContains (orsetAdd set element dot) x = true
        then 1 else 0 := by
  by_cases hx : x = element
  · subst hx
    split
    · rw [count_append_singleton, if_pos rfl]
    · rfl
  · rw [orsetContains_orsetAdd set element dot hx]
    have hsame : ¬ (orsetContains set x = false ∧ orsetContains set x = true) := by
      rintro ⟨hf, ht⟩
      rw [hf] at ht
      cases ht
    rw [if_neg hsame]
    split
    · rw [count_append_singleton, if_neg hx]
    · rfl

theorem not_raised_by_orsetRemove (set : ORSet) (observedDots : List JsString) (x : JsString) :
    ¬ (orsetContains set x = false ∧ orsetContains (orsetRemove set observedDots) x = true) := by
  rintro ⟨hdead, halive⟩
  rw [orsetContains_of_orsetRemove halive] at hdead
  cases hdead

theorem not_lowered_by_orsetAdd (set : ORSet) (element : JsString) (dot : Dot) (x : JsString) :
    ¬ (orsetContains set x = true ∧ orsetContains (orsetAdd set element dot) x = false) := by
  rintro ⟨halive, hdead⟩
  rw [orsetContains_orsetAdd_of_contains halive] at hdead
  cases hdead

theorem not_flipped_same (b : Bool) : ¬ (b = false ∧ b = true) ∧ ¬ (b = true ∧ b = false) := by
  cases b <;> decide

omit [JsReferences V] in
theorem aliveIn_propSet (state : WarpStateV5 V) (node key : JsString) (value : Option V)
    (eventId : EventId) (edges : Bool) (x : JsString) :
    (applyEvent state (.propSet node key value, eventId)).aliveIn edges x = state.aliveIn edges x := by
  unfold applyEvent applyOpV2
  by_cases hnode : node.head? = some edgePropPrefix <;> cases edges <;>
    simp [hnode, pure, Except.pure, WarpStateV5.aliveIn, WarpStateV5.part]

theorem pushPropChange_lists (diff : PatchDiff V) (state : WarpStateV5 V) (nodeId key : JsString)
    (before : SnapshotBeforeOp V) (edges : Bool) :
    (pushPropChange diff state nodeId key before).added edges = diff.added edges ∧
      (pushPropChange diff state nodeId key before).removed edges = diff.removed edges := by
  unfold pushPropChange
  simp only
  split <;> exact ⟨rfl, rfl⟩

/-- The log of one operation has one entry for each element it raises. -/
theorem count_added_diffEvent (acc : WarpStateV5 V × PatchDiff V) (event : OpV2 V × EventId)
    (edges : Bool) (x : JsString) :
    ((diffEvent acc event).2.added edges).count x = (acc.2.added edges).count x +
      if acc.1.aliveIn edges x = false ∧ (applyEvent acc.1 event).aliveIn edges x = true then 1
      else 0 := by
  obtain ⟨state, diff⟩ := acc
  obtain ⟨op, eventId⟩ := event
  have hquiet : (diffEvent (state, diff) (op, eventId)).2.added edges = diff.added edges →
      ¬ (state.aliveIn edges x = false ∧ (applyEvent state (op, eventId)).aliveIn edges x = true) →
      ((diffEvent (state, diff) (op, eventId)).2.added edges).count x = (diff.added edges).count x +
        if state.aliveIn edges x = false ∧ (applyEvent state (op, eventId)).aliveIn edges x = true then 1
        else 0 := by
    intro hlist hflag
    rw [hlist, if_neg hflag, Nat.add_zero]
  cases op with
  | nodeAdd node dot =>
      by_cases hraised : orsetContains state.nodeAlive node = false ∧
          orsetContains (orsetAdd state.nodeAlive node dot) node = true
      · cases edges with
        | false =>
            have hcount := raised_by_orsetAdd state.nodeAlive node dot diff.nodesAdded x
            rw [if_pos hraised] at hcount
            refine Eq.trans ?_ hcount
            simp [diffEvent, accumulateOpDiff, snapshotBeforeOp, applyEvent, applyOpV2, pure,
              Except.pure, hraised, PatchDiff.added]
        | true =>
            refine hquiet ?_ (not_flipped_same (state.aliveIn true x)).1
            simp [diffEvent, accumulateOpDiff, snapshotBeforeOp, applyEvent, applyOpV2, pure,
              Except.pure, hraised, PatchDiff.added]
      · have hlist : (diffEvent (state, diff) (.nodeAdd node dot, eventId)).2 = diff := if_neg hraised
        cases edges with
        | false =>
            have hcount := raised_by_orsetAdd state.nodeAlive node dot diff.nodesAdded x
            rw [if_neg hraised] at hcount
            rw [hlist]
            exact hcount
        | true => exact hquiet (by rw [hlist]) (not_flipped_same (state.aliveIn true x)).1
  | edgeAdd edge dot =>
      by_cases hraised : orsetContains state.edgeAlive edge.key = false ∧
          orsetContains (orsetAdd state.edgeAlive edge.key dot) edge.key = true
      · cases edges with
        | true =>
            have hcount := raised_by_orsetAdd state.edgeAlive edge.key dot
              (diff.edgesAdded.map EdgeRef.key) x
            rw [if_pos hraised] at hcount
            refine Eq.trans ?_ hcount
            simp [diffEvent, accumulateOpDiff, snapshotBeforeOp, applyEvent, applyOpV2, pure,
              Except.pure, hraised, PatchDiff.added]
        | false =>
            refine hquiet ?_ (not_flipped_same (state.aliveIn false x)).1
            simp [diffEvent, accumulateOpDiff, snapshotBeforeOp, applyEvent, applyOpV2, pure,
              Except.pure, hraised, PatchDiff.added]
      · have hlist : (diffEvent (state, diff) (.edgeAdd edge dot, eventId)).2 = diff := if_neg hraised
        cases edges with
        | true =>
            have hcount := raised_by_orsetAdd state.edgeAlive edge.key dot
              (diff.edgesAdded.map EdgeRef.key) x
            rw [if_neg hraised] at hcount
            rw [hlist]
            exact hcount
        | false => exact hquiet (by rw [hlist]) (not_flipped_same (state.aliveIn false x)).1
  | nodeRemove node observedDots =>
      refine hquiet rfl ?_
      cases edges with
      | false => exact not_raised_by_orsetRemove state.nodeAlive observedDots x
      | true => exact (not_flipped_same (state.aliveIn true x)).1
  | edgeRemove fromId toId label observedDots =>
      refine hquiet rfl ?_
      cases edges with
      | true => exact not_raised_by_orsetRemove state.edgeAlive observedDots x
      | false => exact (not_flipped_same (state.aliveIn false x)).1
  | propSet node key value =>
      refine hquiet (pushPropChange_lists _ _ _ _ _ edges).1 ?_
      rw [aliveIn_propSet]
      exact (not_flipped_same _).1
  | nodePropSet node key value =>
      refine hquiet (pushPropChange_lists _ _ _ _ _ edges).1 ?_
      cases edges <;> exact (not_flipped_same _).1
  | edgePropSet edge key value =>
      refine hquiet (pushPropChange_lists _ _ _ _ _ edges).1 ?_
      cases edges <;> exact (not_flipped_same _).1
  | blobValue node oid => exact hquiet rfl (not_flipped_same (state.aliveIn edges x)).1
  | unknown type => exact hquiet rfl (not_flipped_same (state.aliveIn edges x)).1

/-- The log of one operation has one entry for each element it lowers. -/
theorem count_removed_diffEvent {A : Bool → Set (JsString × JsString)} (hA : TrackedDots A)
    (acc : WarpStateV5 V × PatchDiff V) (hstate : acc.1.DotsIn A) (event : OpV2 V × EventId)
    (edges : Bool) (x : JsString) :
    ((diffEvent acc event).2.removed edges).count x = (acc.2.removed edges).count x +
      if acc.1.aliveIn edges x = true ∧ (applyEvent acc.1 event).aliveIn edges x = false then 1
      else 0 := by
  obtain ⟨state, diff⟩ := acc
  obtain ⟨op, eventId⟩ := event
  have hquiet : (diffEvent (state, diff) (op, eventId)).2.removed edges = diff.removed edges →
      ¬ (state.aliveIn edges x = true ∧ (applyEvent state (op, eventId)).aliveIn edges x = false) →
      ((diffEvent (state, diff) (op, eventId)).2.removed edges).count x =
        (diff.removed edges).count x +
        if state.aliveIn edges x = true ∧ (applyEvent state (op, eventId)).aliveIn edges x = false then 1
        else 0 := by
    intro hlist hflag
    rw [hlist, if_neg hflag, Nat.add_zero]
  cases op with
  | nodeAdd node dot =>
      refine hquiet ?_ ?_
      · by_cases hraised : orsetContains state.nodeAlive node = false ∧
            orsetContains (orsetAdd state.nodeAlive node dot) node = true
        · cases edges <;>
            simp [diffEvent, accumulateOpDiff, snapshotBeforeOp, applyEvent, applyOpV2, pure,
              Except.pure, hraised, PatchDiff.removed]
        · exact congrArg (PatchDiff.removed · edges) (if_neg hraised)
      · cases edges with
        | false => exact not_lowered_by_orsetAdd state.nodeAlive node dot x
        | true => exact (not_flipped_same (state.aliveIn true x)).2
  | edgeAdd edge dot =>
      refine hquiet ?_ ?_
      · by_cases hraised : orsetContains state.edgeAlive edge.key = false ∧
            orsetContains (orsetAdd state.edgeAlive edge.key dot) edge.key = true
        · cases edges <;>
            simp [diffEvent, accumulateOpDiff, snapshotBeforeOp, applyEvent, applyOpV2, pure,
              Except.pure, hraised, PatchDiff.removed]
        · exact congrArg (PatchDiff.removed · edges) (if_neg hraised)
      · cases edges with
        | true => exact not_lowered_by_orsetAdd state.edgeAlive edge.key dot x
        | false => exact (not_flipped_same (state.aliveIn false x)).2
  | nodeRemove node observedDots =>
      cases edges with
      | false =>
          have hcount := count_diedSince (hA.owned hstate false) observedDots x
          refine Eq.trans ?_ (congrArg (diff.nodesRemoved.count x + ·) hcount)
          exact List.count_append
      | true => exact hquiet rfl (not_flipped_same (state.aliveIn true x)).2
  | edgeRemove fromId toId label observedDots =>
      cases edges with
      | true =>
          have hcount := count_diedSince (hA.owned hstate true) observedDots x
          refine Eq.trans ?_ (congrArg ((diff.edgesRemoved.map EdgeRef.key).count x + ·) hcount)
          rw [← List.count_append]
          refine congrArg (List.count x) ?_
          show (diff.edgesRemoved ++ (diedSince _ _).map decodeEdgeKey).map EdgeRef.key = _
          rw [List.map_append, List.map_map]
          refine congrArg (_ ++ ·) ?_
          -- the keys that died were keys of clean edges, so decoding and encoding them is the identity
          refine (List.map_congr_left fun key hkey => ?_).trans (List.map_id _)
          have hmem := (mem_aliveElementsForDots (hA.owned hstate true) _ key).mp
            (List.mem_of_mem_filter hkey)
          obtain ⟨-, d, -, hd⟩ := hmem
          obtain ⟨edge, hclean, rfl⟩ := hA.edgeKeys key d (hstate true key d hd)
          rw [Function.comp_apply, decodeEdgeKey_key hclean]
          rfl
      | false => exact hquiet rfl (not_flipped_same (state.aliveIn false x)).2
  | propSet node key value =>
      refine hquiet (pushPropChange_lists _ _ _ _ _ edges).2 ?_
      rw [aliveIn_propSet]
      exact (not_flipped_same _).2
  | nodePropSet node key value =>
      refine hquiet (pushPropChange_lists _ _ _ _ _ edges).2 ?_
      cases edges <;> exact (not_flipped_same _).2
  | edgePropSet edge key value =>
      refine hquiet (pushPropChange_lists _ _ _ _ _ edges).2 ?_
      cases edges <;> exact (not_flipped_same _).2
  | blobValue node oid => exact hquiet rfl (not_flipped_same (state.aliveIn edges x)).2
  | unknown type => exact hquiet rfl (not_flipped_same (state.aliveIn edges x)).2

/-! ### One patch, then all of them -/

theorem logOf_foldl_diffEvent {A : Bool → Set (JsString × JsString)} (hA : TrackedDots A)
    (events : List (OpV2 V × EventId))
    (hevents : ∀ event ∈ events, ∀ edges pair, event.1.addPair edges = some pair → pair ∈ A edges)
    (acc : WarpStateV5 V × PatchDiff V) (hstate : acc.1.DotsIn A) (edges : Bool) (x : JsString) :
    (events.foldl diffEvent acc).2.logOf edges x =
      ⟨(acc.2.added edges).count x +
          Flips.ups applyEvent (WarpStateV5.aliveIn edges x) acc.1 events,
        (acc.2.removed edges).count x +
          Flips.downs applyEvent (WarpStateV5.aliveIn edges x) acc.1 events⟩ := by
  induction events generalizing acc with
  | nil => rfl
  | cons event rest ih =>
      have hnext : (diffEvent acc event).1.DotsIn A :=
        dotsIn_applyEvent hstate (hevents event List.mem_cons_self)
      rw [List.foldl_cons, ih (fun e he => hevents e (List.mem_cons_of_mem event he)) _ hnext,
        count_added_diffEvent, count_removed_diffEvent hA acc hstate, Flips.ups, Flips.downs,
        Nat.add_assoc, Nat.add_assoc]
      rfl

theorem logOf_readDiff {A : Bool → Set (JsString × JsString)} (hA : TrackedDots A)
    {read : ReadPatch V}
    (hread : ∀ event ∈ read.events, ∀ edges pair, event.1.addPair edges = some pair → pair ∈ A edges)
    {state : WarpStateV5 V} (hstate : state.DotsIn A) (edges : Bool) (x : JsString) :
    (readDiff state read).logOf edges x =
      Flips.batchLog applyEvent ReadPatch.events (WarpStateV5.aliveIn edges x) state read := by
  rw [readDiff, logOf_foldl_diffEvent hA read.events hread (state, createEmptyDiff) hstate]
  cases edges <;> simp [PatchDiff.added, PatchDiff.removed, createEmptyDiff, Flips.batchLog]

theorem count_filter_not_has (l l' : List JsString) (x : JsString) :
    (l.filter fun id => !(JsSet.ofList l').has id).count x = if 0 < l'.count x then 0 else l.count x := by
  by_cases hx : x ∈ l'
  · rw [if_pos (List.count_pos_iff.mpr hx)]
    refine List.count_eq_zero.mpr fun hmem => ?_
    have hnot := (List.mem_filter.mp hmem).2
    simp [hx] at hnot
  · rw [if_neg fun h => hx (List.count_pos_iff.mp h)]
    exact List.count_filter (by simp [hx])

omit [JsReferences V] in
/-- `mergeDiffs` merges the logs of every element. -/
theorem logOf_mergeDiffs (a b : PatchDiff V) (edges : Bool) (x : JsString) :
    (mergeDiffs a b).logOf edges x = (a.logOf edges x).merge (b.logOf edges x) := by
  have hfilter : ∀ (l : List EdgeRef) (keys : JsSet JsString),
      (l.filter fun e => !keys.has e.key).map EdgeRef.key =
        (l.map EdgeRef.key).filter fun key => !keys.has key := by
    intro l keys
    rw [List.filter_map]
    rfl
  cases edges with
  | false =>
      simp only [PatchDiff.logOf, PatchDiff.added, PatchDiff.removed, mergeDiffs, Flips.Log.merge,
        Bool.false_eq_true, if_false, count_filter_not_has, List.count_append]
  | true =>
      simp only [PatchDiff.logOf, PatchDiff.added, PatchDiff.removed, mergeDiffs, Flips.Log.merge,
        if_true, hfilter, count_filter_not_has, List.map_append, List.count_append]

omit [JsReferences V] in
theorem aliveIn_applyRead (edges : Bool) (x : JsString) (state : WarpStateV5 V) (read : ReadPatch V) :
    (applyRead state read).aliveIn edges x = (read.events.foldl applyEvent state).aliveIn edges x := by
  cases edges <;> rfl

theorem logOf_trackReads {A : Bool → Set (JsString × JsString)} (hA : TrackedDots A)
    (reads : List (ReadPatch V))
    (hreads : ∀ read ∈ reads, ∀ event ∈ read.events, ∀ edges pair,
      event.1.addPair edges = some pair → pair ∈ A edges)
    (acc : WarpStateV5 V × PatchDiff V) (hstate : acc.1.DotsIn A) (edges : Bool) (x : JsString) :
    (trackReads acc reads).2.logOf edges x =
      Flips.mergedLog applyEvent ReadPatch.events applyRead (WarpStateV5.aliveIn edges x)
        (acc.2.logOf edges x) acc.1 reads := by
  induction reads generalizing acc with
  | nil => rfl
  | cons read rest ih =>
      have hread := hreads read List.mem_cons_self
      have hnext : (applyRead acc.1 read).DotsIn A := by
        have hevents := dotsIn_foldl_applyEvent hstate hread
        intro part
        cases part with
        | false => exact hevents false
        | true => exact hevents true
      show (trackReads (applyRead acc.1 read, mergeDiffs acc.2 (readDiff acc.1 read)) rest).2.logOf
        edges x = _
      rw [ih (fun r hr => hreads r (List.mem_cons_of_mem read hr)) _ hnext, logOf_mergeDiffs,
        logOf_readDiff hA hread hstate, Flips.mergedLog]

end GitWarp
