import GitWarp.ReducerDiffProps

/-! When the tracked diff is the net diff. A patch that raises and lowers the same element wipes what
`mergeDiffs` knows about it, so its aliveness before the replay is forgotten; a register that is written
away from its value and back keeps an entry. -/

namespace GitWarp
open Js ExceptLoops

variable {V : Type}

/-- The dots in play in a replay: those of the state it starts from and those its patches add. -/
def dotsOfRun (state : WarpStateV5 V) (patches : List (PatchEntry V)) (edges : Bool) :
    Set (JsString × JsString) :=
  {pair | pair.2 ∈ (state.part edges).dotsOf pair.1 ∨ ∃ entry ∈ patches, entry.Adds edges pair}

/-- A patch that the reducer accepts and whose properties are named without separators. -/
structure PatchEntry.CleanProps (entry : PatchEntry V) : Prop where
  readable : ∃ read, readPatch entry = .ok read
  props : ∀ raw ∈ entry.patch.ops, ∀ op, normalizeRawOp raw = .ok op → op.CleanProp

/-- The two values hold the same data, or both registers are missing. -/
def sameData [JsReferences V] : Option V → Option V → Bool
  | some a, some b => JsReferences.sameData a b
  | none, none => true
  | _, _ => false

theorem sameData_self [JsReferences V] (value : Option V) : sameData value value = true := by
  cases value with
  | none => rfl
  | some value => exact JsReferences.sameData_self value

/-- The diff says exactly what differs between two states. -/
structure NetDiff [JsReferences V] (before after : WarpStateV5 V) (diff : PatchDiff V) : Prop where
  nodesAdded : ∀ node, diff.nodesAdded.count node =
    if orsetContains before.nodeAlive node = false ∧ orsetContains after.nodeAlive node = true then 1 else 0
  nodesRemoved : ∀ node, diff.nodesRemoved.count node =
    if orsetContains before.nodeAlive node = true ∧ orsetContains after.nodeAlive node = false then 1 else 0
  edgesAdded : ∀ key, (diff.edgesAdded.map EdgeRef.key).count key =
    if orsetContains before.edgeAlive key = false ∧ orsetContains after.edgeAlive key = true then 1 else 0
  edgesRemoved : ∀ key, (diff.edgesRemoved.map EdgeRef.key).count key =
    if orsetContains before.edgeAlive key = true ∧ orsetContains after.edgeAlive key = false then 1 else 0
  propsChanged : ∀ key, (diff.propsChanged.filter fun entry => entry.propKey = key).map
      PropDiffEntry.value =
    if sameData (before.valueOf key) (after.valueOf key) = false then [after.valueOf key] else []

/-- The tracked replay returns the state of the plain one and the net diff. -/
def TracksNetDiff [JsReferences V] (state : WarpStateV5 V) (patches : List (PatchEntry V)) : Prop :=
  ∃ after diff, reduceV5TrackDiff state patches = .ok (after, diff) ∧
    reduceV5From state patches = .ok after ∧ NetDiff state after diff

/-- Right after the last patch that both raises and lowers it, every node and edge is as alive as in
`state`; and no value that some operation changes, as `!==` tells changes, ends as the data it started as. -/
def ChangesLast [JsReferences V] (state : WarpStateV5 V) (patches : List (PatchEntry V)) : Prop :=
  ∀ reads, patches.mapM readPatch = .ok reads →
    (∀ edges x, Flips.settled applyEvent ReadPatch.events applyRead (WarpStateV5.aliveIn edges x)
      (state.aliveIn edges x) state reads = state.aliveIn edges x) ∧
    ∀ key, Flips.changesIn applyEvent ReadPatch.events applyRead (changesValue key) state reads →
      sameData (state.valueOf key) ((reads.foldl applyRead state).valueOf key) = false

/-! ### Where the dots come from -/

/-- A replayed state and further patches: if the dots of all add operations differ and edges are named
without separators, then every dot in play has one owner. -/
theorem trackedDots_of_replay (earlier : List (PatchEntry V)) {patches : List (PatchEntry V)}
    {state : WarpStateV5 V}
    (hstate : reduceV5 earlier = .ok state) (hdots : (addDots (earlier ++ patches)).Nodup)
    (hclean : ∀ entry ∈ earlier ++ patches, ∀ edge dot, .edgeAdd edge dot ∈ entry.patch.ops → edge.Clean) :
    TrackedDots (dotsOfRun state patches) := by
  have hadds : ∀ edges pair, pair ∈ dotsOfRun state patches edges →
      ∃ entry ∈ earlier ++ patches, entry.Adds edges pair := by
    intro edges pair hpair
    rcases hpair with hold | ⟨entry, hentry, hnew⟩
    · rw [← ORSet.mem_adds_view, WarpStateV5.view_part, mem_adds_reduceV5From hstate] at hold
      obtain ⟨entry, hentry, hadds⟩ := hold.resolve_left (not_mem_adds_empty edges _)
      exact ⟨entry, List.mem_append_left _ hentry, hadds⟩
    · exact ⟨entry, List.mem_append_right _ hentry, hnew⟩
  refine ⟨fun edges x y d hx hy => ?_, fun x d hx => ?_⟩
  · obtain ⟨entry, hentry, op, hop, hpair⟩ := hadds edges _ hx
    obtain ⟨entry', hentry', op', hop', hpair'⟩ := hadds edges _ hy
    obtain ⟨dot, hdot, hencoded⟩ := addPair_dot hpair
    obtain ⟨dot', hdot', hencoded'⟩ := addPair_dot hpair'
    have hsame : dot = dot' := encodeDot_injective (hencoded.trans hencoded'.symm)
    have hops : op = op' := eq_of_addDot hdots hentry hop hdot hentry' hop' (hsame ▸ hdot')
    rw [hops, hpair'] at hpair
    cases hpair
    rfl
  · obtain ⟨entry, hentry, op, hop, hpair⟩ := hadds true _ hx
    cases op with
    | edgeAdd edge dot =>
        cases hpair
        exact ⟨edge, hclean entry hentry edge dot hop, rfl⟩
    | _ => cases hpair

theorem dotsIn_dotsOfRun (state : WarpStateV5 V) (patches : List (PatchEntry V)) :
    state.DotsIn (dotsOfRun state patches) := fun _ _ _ hmem => Or.inl hmem

/-- What the operations of the patches add is in play. -/
theorem addPair_mem_dotsOfRun {state : WarpStateV5 V} {patches : List (PatchEntry V)}
    {reads : List (ReadPatch V)} (hreads : patches.mapM readPatch = .ok reads) :
    ∀ read ∈ reads, ∀ event ∈ read.events, ∀ edges pair, event.1.addPair edges = some pair →
      pair ∈ dotsOfRun state patches edges := by
  intro read hread event hevent edges pair hpair
  obtain ⟨entry, hentry, hok⟩ := (mem_of_mapM_ok hreads read).mp hread
  have hmem : pair ∈ (read.effect.part edges).adds :=
    (mem_adds_readEffect read edges pair).mpr ⟨event, hevent, hpair⟩
  exact Or.inr ⟨entry, hentry, (mem_adds_effect_of_readPatch hok edges pair).mp hmem⟩

theorem cleanProp_of_reads {patches : List (PatchEntry V)} (hclean : ∀ entry ∈ patches, entry.CleanProps)
    {reads : List (ReadPatch V)} (hreads : patches.mapM readPatch = .ok reads) :
    ∀ read ∈ reads, ∀ event ∈ read.events, event.1.CleanProp := by
  intro read hread event hevent
  obtain ⟨entry, hentry, hok⟩ := (mem_of_mapM_ok hreads read).mp hread
  obtain ⟨raw, hraw, hnorm⟩ := (exists_event_iff hok event.1).mp ⟨event.2, hevent⟩
  exact (hclean entry hentry).props raw hraw event.1 hnorm

/-! ### The net diff -/

variable [JsReferences V]

/-- The part of the diff about nodes or about edges is the net change exactly when every one of them
settled at its first aliveness. -/
theorem logOf_net_iff {state : WarpStateV5 V} {patches : List (PatchEntry V)}
    (hdots : TrackedDots (dotsOfRun state patches)) {reads : List (ReadPatch V)}
    (hreads : patches.mapM readPatch = .ok reads) (edges : Bool) (x : JsString) :
    (trackReads (state, createEmptyDiff) reads).2.logOf edges x =
        Flips.Log.net (state.aliveIn edges x) ((reads.foldl applyRead state).aliveIn edges x) ↔
      Flips.settled applyEvent ReadPatch.events applyRead (WarpStateV5.aliveIn edges x)
        (state.aliveIn edges x) state reads = state.aliveIn edges x := by
  have hempty : (createEmptyDiff (V := V)).logOf edges x = ⟨0, 0⟩ := by cases edges <;> rfl
  rw [logOf_trackReads hdots reads (addPair_mem_dotsOfRun hreads) _ (dotsIn_dotsOfRun state patches),
    hempty]
  exact Flips.mergedLog_eq_net_iff (aliveIn_applyRead edges x) state reads

omit [JsReferences V] in
theorem valueOf_applyRead (key : JsString) (state : WarpStateV5 V) (read : ReadPatch V) :
    (applyRead state read).valueOf key = (read.events.foldl applyEvent state).valueOf key := rfl

theorem netDiff_iff (before after : WarpStateV5 V) (diff : PatchDiff V) :
    NetDiff before after diff ↔
      (∀ edges x, diff.logOf edges x =
        Flips.Log.net (before.aliveIn edges x) (after.aliveIn edges x)) ∧
      ∀ key, (diff.propsChanged.filter fun entry => entry.propKey = key).map PropDiffEntry.value =
        if sameData (before.valueOf key) (after.valueOf key) = false then [after.valueOf key] else [] := by
  constructor
  · intro hnet
    refine ⟨fun edges x => ?_, hnet.propsChanged⟩
    cases edges with
    | false => exact congrArg₂ Flips.Log.mk (hnet.nodesAdded x) (hnet.nodesRemoved x)
    | true => exact congrArg₂ Flips.Log.mk (hnet.edgesAdded x) (hnet.edgesRemoved x)
  · rintro ⟨hlogs, hprops⟩
    exact ⟨fun node => congrArg Flips.Log.ups (hlogs false node),
      fun node => congrArg Flips.Log.downs (hlogs false node),
      fun key => congrArg Flips.Log.ups (hlogs true key),
      fun key => congrArg Flips.Log.downs (hlogs true key), hprops⟩

omit [JsReferences V] in
/-- A list with one value if `changed` is the list with one value if the value is not the `same`, exactly when
`changed` makes it differ. -/
theorem singleton_if_iff {changed same : Bool} {new : Option V} (hchanged : same = false → changed = true) :
    (if changed = true then [new] else []) = (if same = false then [new] else []) ↔
      (changed = true → same = false) := by
  cases same with
  | false => simp [hchanged rfl]
  | true => cases changed <;> simp

/-- The writer `a` adds the node `n`. -/
def addingPatch : PatchEntry Nat :=
  ⟨⟨2, js "a", 1, .map JsMap.empty, [.nodeAdd (js "n") ⟨js "a", 1⟩]⟩, js "aaaa"⟩

/-- The writer `a` removes the node `n` and adds it again. -/
def readdingPatch : PatchEntry Nat :=
  ⟨⟨2, js "a", 2, .map JsMap.empty, [.nodeRemove none [js "a:1"], .nodeAdd (js "n") ⟨js "a", 2⟩]⟩,
    js "bbbb"⟩

theorem cleanProps_addingPatch : addingPatch.CleanProps := by
  refine ⟨⟨_, rfl⟩, fun raw hraw op hop => ?_⟩
  simp only [addingPatch, List.mem_singleton] at hraw
  subst hraw
  cases hop
  trivial

theorem cleanProps_readdingPatch : readdingPatch.CleanProps := by
  refine ⟨⟨_, rfl⟩, fun raw hraw op hop => ?_⟩
  simp only [readdingPatch, List.mem_cons, List.not_mem_nil, or_false] at hraw
  rcases hraw with rfl | rfl
  · cases hop
    trivial
  · cases hop
    trivial

end GitWarp
