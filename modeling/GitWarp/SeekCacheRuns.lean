import GitWarp.SeekCache

/-! Calls of the cache in any interleaving. What a `get` returns is what one `set` of its key was given, and the index
never has more entries than it may. -/

namespace GitWarp
open Js

/-! ### Eviction -/

namespace SeekCacheIndex

theorem props_deleteAll (keys : List JsString) (obj : PlainObject SeekIndexEntry) :
    (keys.foldl PlainObject.delete obj).props.entries = obj.props.entries.filter fun entry => entry.1 ∉ keys := by
  induction keys generalizing obj with
  | nil => simp
  | cons key rest ih =>
      rw [List.foldl_cons, ih]
      change List.filter _ (obj.props.entries.filter fun entry => entry.1 ≠ key) = _
      rw [List.filter_filter]
      refine List.filter_congr fun entry _ => ?_
      rw [← Bool.decide_and]
      exact decide_eq_decide.mpr (by rw [List.mem_cons, not_or, and_comm])

theorem get_deleteAll (keys : List JsString) (obj : PlainObject SeekIndexEntry) (key : JsString)
    (entry : SeekIndexEntry) : (keys.foldl PlainObject.delete obj).props.get key = some entry ↔
      obj.props.get key = some entry ∧ key ∉ keys := by
  rw [JsMap.get_eq_some_iff, JsMap.get_eq_some_iff, props_deleteAll, List.mem_filter, decide_eq_true_eq]

variable (index : SeekCacheIndex) (maxEntries : Nat)

/-- The time by which a key is ordered for eviction. -/
def timeOf (key : JsString) : JsString := (index.entries.props.get key).elim [] SeekIndexEntry.time

def keysByTime : List JsString :=
  index.entries.props.keys.insertionSort fun a b => index.timeOf a ≤ index.timeOf b

theorem perm_keysByTime : index.keysByTime.Perm index.entries.props.keys := List.perm_insertionSort _ _

theorem pairwise_keysByTime : index.keysByTime.Pairwise fun a b => index.timeOf a ≤ index.timeOf b :=
  List.pairwise_insertionSort (fun a b => index.timeOf a ≤ index.timeOf b) _

/-- The entries that go are the first ones in the order of their times, as many as are too many. -/
theorem enforceMaxEntries_entries : (index.enforceMaxEntries maxEntries).entries =
    (index.keysByTime.take (index.entries.props.size - maxEntries)).foldl PlainObject.delete index.entries := by
  have hsize : index.entries.props.keys.length = index.entries.props.size := List.length_map _
  unfold enforceMaxEntries
  dsimp only
  rw [hsize]
  split
  · rename_i hroom
    rw [Nat.sub_eq_zero_of_le hroom, List.take_zero]
    rfl
  · rfl

@[simp] theorem enforceMaxEntries_schemaVersion :
    (index.enforceMaxEntries maxEntries).schemaVersion = index.schemaVersion := by
  unfold enforceMaxEntries
  dsimp only
  split <;> rfl

theorem get_enforceMaxEntries (key : JsString) (entry : SeekIndexEntry) :
    (index.enforceMaxEntries maxEntries).entries.props.get key = some entry ↔
      index.entries.props.get key = some entry ∧
        key ∉ index.keysByTime.take (index.entries.props.size - maxEntries) := by
  rw [enforceMaxEntries_entries, get_deleteAll]

/-- The keys that stay are the last ones in the order of their times. -/
theorem perm_keys_enforceMaxEntries : (index.enforceMaxEntries maxEntries).entries.props.keys.Perm
    (index.keysByTime.drop (index.entries.props.size - maxEntries)) := by
  have hnodup : index.keysByTime.Nodup := index.perm_keysByTime.nodup_iff.mpr index.entries.props.nodup
  generalize hcut : index.entries.props.size - maxEntries = cut
  have hkeys : (index.enforceMaxEntries maxEntries).entries.props.keys =
      index.entries.props.keys.filter fun key => key ∉ index.keysByTime.take cut := by
    rw [enforceMaxEntries_entries, hcut]
    unfold JsMap.keys
    rw [props_deleteAll, List.filter_map]
    rfl
  rw [hkeys]
  refine (index.perm_keysByTime.filter _).symm.trans ?_
  conv_lhs =>
    arg 2
    rw [← List.take_append_drop cut index.keysByTime]
  rw [List.filter_append]
  have hgone : (index.keysByTime.take cut).filter (fun key => key ∉ index.keysByTime.take cut) = [] := by
    refine List.filter_eq_nil_iff.mpr fun key hkey => ?_
    rw [decide_eq_true_eq]
    exact fun hnot => hnot hkey
  have hstay : (index.keysByTime.drop cut).filter (fun key => key ∉ index.keysByTime.take cut) =
      index.keysByTime.drop cut := by
    refine List.filter_eq_self.mpr fun key hkey => ?_
    rw [decide_eq_true_eq]
    intro htaken
    rw [← List.take_append_drop cut index.keysByTime] at hnodup
    exact (List.disjoint_of_nodup_append hnodup) htaken hkey
  rw [hgone, hstay, List.nil_append]

theorem size_enforceMaxEntries : (index.enforceMaxEntries maxEntries).entries.props.size ≤ maxEntries := by
  have hlength := (index.perm_keys_enforceMaxEntries maxEntries).length_eq
  rw [List.length_drop, index.perm_keysByTime.length_eq, JsMap.keys, JsMap.keys, List.length_map, List.length_map] at hlength
  unfold JsMap.size at hlength ⊢
  omega

end SeekCacheIndex

/-! ### What holds in the middle of a run -/

namespace CasSeekCacheAdapter

variable {Buffer : Type} (adapter : CasSeekCacheAdapter Buffer) (asked : List (SeekCall Buffer))

/-- A `set` of the key was asked for with this buffer and this index tree. -/
def WasSet (key : JsString) (buffer : Buffer) (indexTreeOid : Option JsString) : Prop :=
  ∃ given, SeekCall.set key buffer given ∈ asked ∧ indexTreeOid = given.filter (· ≠ [])

def EntryHolds (key : JsString) (entry : SeekIndexEntry) : Prop :=
  ∃ buffer, adapter.restore entry.treeOid = some buffer ∧ WasSet asked key buffer entry.indexTreeOid

def IndexHolds (index : SeekCacheIndex) : Prop :=
  ∀ key entry, index.entries.props.get key = some entry → EntryHolds adapter asked key entry

def ChangeHolds : IndexChange → Prop
  | .put key treeOid _ indexTreeOid =>
      ∃ buffer, adapter.restore treeOid = some buffer ∧ SeekCall.set key buffer indexTreeOid ∈ asked
  | _ => True

/-- What a `get` is about to return was set under its key. -/
def NextHolds (call : SeekCall Buffer) : AfterChange Buffer → Prop
  | .found buffer indexTreeOid => ∀ key, call = .get key → WasSet asked key buffer indexTreeOid
  | _ => True

def ResultHolds (call : SeekCall Buffer) : SeekResult Buffer → Prop
  | .found buffer indexTreeOid => ∀ key, call = .get key → WasSet asked key buffer indexTreeOid
  | _ => True

def PhaseHolds (call : SeekCall Buffer) : SeekPhase Buffer → Prop
  | .restoring entry => ∀ key, call = .get key → ∀ e, entry = some e → EntryHolds adapter asked key e
  | .changing change _ held next => ChangeHolds adapter asked change ∧
      (∀ index existed, held = some (index, existed) → IndexHolds adapter asked index) ∧ NextHolds asked call next
  | .returned result => ResultHolds asked call result
  | _ => True

/-- The assets of what was set restore. -/
def RestoresSet : Prop :=
  ∀ key buffer indexTreeOid, SeekCall.set key buffer indexTreeOid ∈ asked →
    ∀ slug nonce, adapter.restore (adapter.createTree slug buffer nonce) = some buffer

variable {adapter asked}

theorem Restores.set (h : adapter.Restores) (asked : List (SeekCall Buffer)) : adapter.RestoresSet asked :=
  fun _ buffer _ _ slug nonce => h slug buffer nonce

theorem RestoresSet.mono {asked' : List (SeekCall Buffer)} (h : adapter.RestoresSet asked') (hless : asked ⊆ asked') :
    adapter.RestoresSet asked :=
  fun key buffer indexTreeOid hset => h key buffer indexTreeOid (hless hset)

theorem WasSet.mono {key : JsString} {buffer : Buffer} {indexTreeOid : Option JsString}
    (h : WasSet asked key buffer indexTreeOid) {asked' : List (SeekCall Buffer)} (hmore : asked ⊆ asked') :
    WasSet asked' key buffer indexTreeOid := by
  obtain ⟨given, hgiven, hsame⟩ := h
  exact ⟨given, hmore hgiven, hsame⟩

theorem EntryHolds.mono {key : JsString} {entry : SeekIndexEntry} (h : EntryHolds adapter asked key entry)
    {asked' : List (SeekCall Buffer)} (hmore : asked ⊆ asked') : EntryHolds adapter asked' key entry := by
  obtain ⟨buffer, hrestore, hset⟩ := h
  exact ⟨buffer, hrestore, hset.mono hmore⟩

theorem IndexHolds.mono {index : SeekCacheIndex} (h : IndexHolds adapter asked index)
    {asked' : List (SeekCall Buffer)} (hmore : asked ⊆ asked') : IndexHolds adapter asked' index :=
  fun key entry hentry => (h key entry hentry).mono hmore

theorem PhaseHolds.mono {call : SeekCall Buffer} {phase : SeekPhase Buffer} (h : PhaseHolds adapter asked call phase)
    {asked' : List (SeekCall Buffer)} (hmore : asked ⊆ asked') : PhaseHolds adapter asked' call phase := by
  cases phase with
  | started => trivial
  | restoring entry => exact fun key hkey e he => (h key hkey e he).mono hmore
  | changing change attempt held next =>
      obtain ⟨hchange, hheld, hnext⟩ := h
      refine ⟨?_, fun index existed hsome => (hheld index existed hsome).mono hmore, ?_⟩
      · cases change with
        | touch key => trivial
        | remove key => trivial
        | put key treeOid sizeBytes indexTreeOid =>
            obtain ⟨buffer, hrestore, hset⟩ := hchange
            exact ⟨buffer, hrestore, hmore hset⟩
      · cases next with
        | found buffer indexTreeOid => exact fun key hkey => (hnext key hkey).mono hmore
        | missed => trivial
        | stored => trivial
        | deleted => trivial
  | returned result =>
      cases result with
      | found buffer indexTreeOid => exact fun key hkey => (h key hkey).mono hmore
      | null => trivial
      | existed _ => trivial
      | done => trivial
  | threw => trivial

/-- What is read is the index under the ref, or an empty one. -/
theorem of_readIndex {P : SeekCacheIndex → Prop} (hempty : P .empty) {ref : Option SeekCacheIndex}
    (h : ∀ index, ref = some index → P index) (outcome : ReadOutcome) : P (readIndex ref outcome) := by
  unfold readIndex
  cases ref with
  | none => exact hempty
  | some index =>
      dsimp only
      split
      · exact hempty
      · split
        · exact hempty
        · exact h index rfl

theorem indexHolds_empty : IndexHolds adapter asked .empty := by
  intro key entry h
  cases h

theorem touch_of_some {index : SeekCacheIndex} {key : JsString} {entry : SeekIndexEntry}
    (hentry : index.entries.props.get key = some entry) (maxEntries : Nat) (now : JsString) :
    (IndexChange.touch key).apply maxEntries now index =
      { index with entries := index.entries.assign key { entry with lastAccessedAt := some now } } := by
  simp only [IndexChange.apply, hentry]

theorem touch_of_none {index : SeekCacheIndex} {key : JsString} (hentry : index.entries.props.get key = none)
    (maxEntries : Nat) (now : JsString) : (IndexChange.touch key).apply maxEntries now index = index := by
  simp only [IndexChange.apply, hentry]

theorem size_touch (index : SeekCacheIndex) (key : JsString) (maxEntries : Nat) (now : JsString) :
    ((IndexChange.touch key).apply maxEntries now index).entries.props.size = index.entries.props.size := by
  cases hentry : index.entries.props.get key with
  | none => rw [touch_of_none hentry]
  | some entry =>
      have hne : key ≠ protoKey := by
        rintro rfl
        rw [index.entries.noProto] at hentry
        cases hentry
      have hmem : key ∈ index.entries.props.entries.map Prod.fst :=
        (JsMap.mem_keys_iff _ _).mpr (Option.isSome_iff_exists.mpr ⟨entry, hentry⟩)
      rw [touch_of_some hentry]
      unfold PlainObject.assign
      rw [dif_neg hne]
      have hkeys := congrArg List.length
        (JsMap.keys_setEntry index.entries.props.entries key { entry with lastAccessedAt := some now })
      rw [if_pos hmem, List.length_map, List.length_map] at hkeys
      exact hkeys

/-- A change leaves an index that has no more entries than it may. -/
theorem size_apply {index : SeekCacheIndex} {maxEntries : Nat} (h : index.entries.props.size ≤ maxEntries)
    (change : IndexChange) (now : JsString) : (change.apply maxEntries now index).entries.props.size ≤ maxEntries := by
  cases change with
  | touch key => exact (size_touch index key _ now).trans_le h
  | remove key => exact le_trans (List.length_filter_le _ _) h
  | put key treeOid sizeBytes indexTreeOid =>
      unfold IndexChange.apply
      exact SeekCacheIndex.size_enforceMaxEntries _ _

/-- A change leaves an index that holds what was set. -/
theorem IndexHolds.apply {index : SeekCacheIndex} (h : IndexHolds adapter asked index) {change : IndexChange}
    (hchange : ChangeHolds adapter asked change) (now : JsString) :
    IndexHolds adapter asked (change.apply adapter.maxEntries now index) := by
  cases change with
  | touch key =>
      intro key' entry' hget
      cases hentry : index.entries.props.get key with
      | none =>
          rw [touch_of_none hentry] at hget
          exact h key' entry' hget
      | some entry =>
          rw [touch_of_some hentry, PlainObject.get_assign] at hget
          split at hget
          · rename_i hkey
            cases hget
            rw [hkey.1]
            exact h key entry hentry
          · exact h key' entry' hget
  | remove key =>
      intro key' entry' hget
      change (index.entries.props.delete key).get key' = some entry' at hget
      rw [JsMap.get_delete] at hget
      split at hget
      · cases hget
      · exact h key' entry' hget
  | put key treeOid sizeBytes indexTreeOid =>
      obtain ⟨buffer, hrestore, hset⟩ := hchange
      unfold IndexChange.apply
      intro key' entry' hget
      have hassigned := ((SeekCacheIndex.get_enforceMaxEntries _ _ key' entry').mp hget).1
      dsimp only at hassigned
      rw [PlainObject.get_assign] at hassigned
      split at hassigned
      · rename_i hkey
        cases hassigned
        rw [hkey.1]
        exact ⟨buffer, hrestore, indexTreeOid, hset, rfl⟩
      · exact h key' entry' hassigned

theorem phaseHolds_heal (call : SeekCall Buffer) (key : JsString) : PhaseHolds adapter asked call (heal key) :=
  ⟨trivial, fun index existed h => (by cases h), trivial⟩

theorem phaseHolds_giveUp (call : SeekCall Buffer) (key : JsString) (next : AfterChange Buffer) :
    PhaseHolds adapter asked call (giveUp key next) := by
  cases next with
  | found buffer indexTreeOid => exact phaseHolds_heal call key
  | missed => trivial
  | stored => trivial
  | deleted => trivial

theorem phaseHolds_begin (call : SeekCall Buffer) : PhaseHolds adapter asked call (begin call) := by
  cases call with
  | delete key => exact ⟨trivial, fun index existed h => (by cases h), trivial⟩
  | get key => trivial
  | set key buffer indexTreeOid => trivial
  | clear => trivial

/-- One step of a call keeps what holds of the index and of the call. -/
theorem advance_holds (hrestores : adapter.RestoresSet asked) {ref : Option SeekCacheIndex}
    (href : ∀ index, ref = some index → IndexHolds adapter asked index) {call : SeekCall Buffer} (hcall : call ∈ asked)
    {phase : SeekPhase Buffer} (hphase : PhaseHolds adapter asked call phase) (act : SeekAct) :
    (∀ index, (adapter.advance ref call phase act).1 = some index → IndexHolds adapter asked index) ∧
      PhaseHolds adapter asked call (adapter.advance ref call phase act).2 := by
  fun_cases CasSeekCacheAdapter.advance adapter ref call phase act
  case case2 outcome now key houtcome entry hread =>
    -- `get` has read an entry of the index
    refine ⟨href, fun key' hkey e he => ?_⟩
    cases hkey
    cases he
    exact of_readIndex indexHolds_empty href outcome key entry ((PlainObject.read_eq_own_iff _ _ _).mp hread)
  case case3 =>
    refine ⟨href, fun key' hkey e he => ?_⟩
    cases he
  case case6 key buffer indexTreeOid nonce =>
    -- `set` has stored its buffer
    refine ⟨href, ⟨buffer, hrestores key buffer indexTreeOid hcall key nonce, hcall⟩, fun index existed hheld => ?_, trivial⟩
    cases hheld
  case case9 fails =>
    refine ⟨fun index hindex => ?_, trivial⟩
    dsimp only at hindex
    split at hindex
    · exact href index hindex
    · cases hindex
  case case11 stored available key entry hentry buffer hbuffer =>
    -- `get` has restored the asset of the entry
    have hstored : stored = some entry := (Option.filter_eq_some_iff.mp hentry).1
    obtain ⟨buffer', hbuffer', hset⟩ := hphase key rfl entry hstored
    rw [hbuffer] at hbuffer'
    cases hbuffer'
    refine ⟨href, trivial, fun index existed hheld => ?_, fun key' hkey => ?_⟩
    · cases hheld
    · cases hkey
      exact hset
  case case12 => exact ⟨href, phaseHolds_heal _ _⟩
  case case13 => exact ⟨href, phaseHolds_heal _ _⟩
  case case15 => exact ⟨href, phaseHolds_giveUp _ _ _⟩
  case case16 change attempt next outcome now houtcome index existed =>
    -- the index is read and changed
    refine ⟨href, hphase.1, fun index' existed' hheld => ?_, hphase.2.2⟩
    cases hheld
    exact (of_readIndex indexHolds_empty href outcome).apply hphase.1 now
  case case17 => exact ⟨href, phaseHolds_giveUp _ _ _⟩
  case case18 =>
    refine ⟨href, hphase.1, fun index existed hheld => ?_, hphase.2.2⟩
    cases hheld
  case case19 change attempt index existed next fails hfails =>
    -- the changed index is written
    refine ⟨fun index' hindex => ?_, ?_⟩
    · cases hindex
      exact hphase.2.1 index existed rfl
    · cases next with
      | found buffer indexTreeOid => exact hphase.2.2
      | missed => trivial
      | stored => trivial
      | deleted => trivial
  case case1 => exact ⟨href, trivial⟩
  case case4 => exact ⟨href, trivial⟩
  case case5 => exact ⟨href, trivial⟩
  case case7 => exact ⟨href, trivial⟩
  case case8 => exact ⟨href, trivial⟩
  case case10 => exact ⟨href, trivial⟩
  case case14 => exact ⟨href, hphase⟩
  case case20 => exact ⟨href, hphase⟩

/-- The changed index that a call is about to write has no more entries than it may. -/
def Fits (adapter : CasSeekCacheAdapter Buffer) (phase : SeekPhase Buffer) : Prop := ∀ change attempt index existed next,
  phase = .changing change attempt (some (index, existed)) next → index.entries.props.size ≤ adapter.maxEntries

theorem fits_giveUp (key : JsString) (next : AfterChange Buffer) : Fits adapter (giveUp key next) := by
  intro change attempt index existed next' h
  cases next with
  | found buffer indexTreeOid => cases h
  | missed => cases h
  | stored => cases h
  | deleted => cases h

/-- One step of a call keeps the bound, whatever the assets restore to. -/
theorem advance_fits {ref : Option SeekCacheIndex}
    (href : ∀ index, ref = some index → index.entries.props.size ≤ adapter.maxEntries) {call : SeekCall Buffer}
    {phase : SeekPhase Buffer} (hphase : Fits adapter phase) (act : SeekAct) :
    (∀ index, (adapter.advance ref call phase act).1 = some index → index.entries.props.size ≤ adapter.maxEntries) ∧
      Fits adapter (adapter.advance ref call phase act).2 := by
  fun_cases CasSeekCacheAdapter.advance adapter ref call phase act
  case case9 fails =>
    refine ⟨fun index hindex => ?_, fun _ _ _ _ _ h => (by cases h)⟩
    dsimp only at hindex
    split at hindex
    · exact href index hindex
    · cases hindex
  case case16 change attempt next outcome now houtcome index existed =>
    refine ⟨href, fun _ _ changed _ _ h => ?_⟩
    cases h
    exact size_apply (of_readIndex (Nat.zero_le _) href outcome) change now
  case case19 change attempt index existed next fails hfails =>
    refine ⟨fun index' hindex => ?_, fun _ _ _ _ _ h => (by cases h)⟩
    cases hindex
    exact hphase change attempt index existed next rfl
  case case15 => exact ⟨href, fits_giveUp _ _⟩
  case case17 => exact ⟨href, fits_giveUp _ _⟩
  case case14 => exact ⟨href, hphase⟩
  case case20 => exact ⟨href, hphase⟩
  -- the other steps leave the ref as it is, and hold no changed index
  all_goals exact ⟨href, fun _ _ _ _ _ h => (by cases h)⟩

end CasSeekCacheAdapter

namespace SeekWorld

variable {Buffer : Type} {adapter : CasSeekCacheAdapter Buffer}

/-- The calls that have been made. -/
def asked (world : SeekWorld Buffer) : List (SeekCall Buffer) := world.calls.map Prod.fst

theorem step_act {world : SeekWorld Buffer} {i : Nat} {call : SeekCall Buffer} {phase : SeekPhase Buffer}
    (hcall : world.calls[i]? = some (call, phase)) (act : SeekAct) :
    world.step adapter (.act i act) = ⟨(adapter.advance world.ref call phase act).1,
      world.calls.set i (call, (adapter.advance world.ref call phase act).2)⟩ := by
  simp only [SeekWorld.step, hcall]

@[simp] theorem asked_call (world : SeekWorld Buffer) (call : SeekCall Buffer) :
    (world.step adapter (.call call)).asked = world.asked ++ [call] := by
  unfold asked SeekWorld.step
  rw [List.map_append]
  rfl

@[simp] theorem asked_act (world : SeekWorld Buffer) (i : Nat) (act : SeekAct) :
    (world.step adapter (.act i act)).asked = world.asked := by
  cases hcall : world.calls[i]? with
  | none => simp only [SeekWorld.step, hcall]
  | some pair =>
      rw [step_act hcall]
      exact Lists.map_fst_set hcall _

/-- What holds of the ref and of every call at any time. -/
structure Holds (adapter : CasSeekCacheAdapter Buffer) (world : SeekWorld Buffer) : Prop where
  ref : ∀ index, world.ref = some index → adapter.IndexHolds world.asked index
  calls : ∀ pair ∈ world.calls, adapter.PhaseHolds world.asked pair.1 pair.2

theorem holds_empty : Holds adapter (empty : SeekWorld Buffer) where
  ref index h := by cases h
  calls pair h := by cases h

theorem Holds.step {world : SeekWorld Buffer} (h : Holds adapter world) (hrestores : adapter.RestoresSet world.asked)
    (event : SeekEvent Buffer) : Holds adapter (world.step adapter event) := by
  cases event with
  | call call =>
      have hmore : world.asked ⊆ (world.step adapter (.call call)).asked := by
        rw [asked_call]
        exact List.subset_append_left _ _
      refine ⟨fun index hindex => (h.ref index hindex).mono hmore, fun pair hpair => ?_⟩
      rcases List.mem_append.mp hpair with hold | hnew
      · exact (h.calls pair hold).mono hmore
      · rw [List.mem_singleton.mp hnew]
        exact CasSeekCacheAdapter.phaseHolds_begin call
  | act i act =>
      cases hcall : world.calls[i]? with
      | none =>
          have hsame : world.step adapter (.act i act) = world := by simp only [SeekWorld.step, hcall]
          rw [hsame]
          exact h
      | some pair =>
          obtain ⟨call, phase⟩ := pair
          have hmem := List.mem_of_getElem? hcall
          obtain ⟨href, hphase⟩ := CasSeekCacheAdapter.advance_holds hrestores h.ref
            (List.mem_map_of_mem hmem) (h.calls _ hmem) act
          refine ⟨fun index hindex => ?_, fun pair hpair => ?_⟩
          · rw [asked_act]
            rw [step_act hcall] at hindex
            exact href index hindex
          · rw [asked_act]
            rw [step_act hcall] at hpair
            rcases List.mem_or_eq_of_mem_set hpair with hold | rfl
            · exact h.calls pair hold
            · exact hphase

theorem holds_run (hrestores : adapter.Restores) (events : List (SeekEvent Buffer)) {world : SeekWorld Buffer}
    (h : Holds adapter world) : Holds adapter (run adapter events world) := by
  induction events generalizing world with
  | nil => exact h
  | cons event rest ih => exact ih (h.step (hrestores.set world.asked) event)

/-- Whatever the calls do beside each other, a `get` that returns a buffer returns one that a `set` of its key was given,
with the index tree of the same `set`. -/
theorem get_returns_what_was_set (hrestores : adapter.Restores) (events : List (SeekEvent Buffer)) {i : Nat}
    {key : JsString} {buffer : Buffer} {indexTreeOid : Option JsString}
    (hget : (run adapter events empty).calls[i]? = some (.get key, .returned (.found buffer indexTreeOid))) :
    ∃ (j : Nat) (given : Option JsString) (phase : SeekPhase Buffer),
      (run adapter events empty).calls[j]? = some (.set key buffer given, phase) ∧ indexTreeOid = given.filter (· ≠ []) := by
  have hholds := (holds_run hrestores events holds_empty).calls _ (List.mem_of_getElem? hget)
  obtain ⟨given, hgiven, hsame⟩ := hholds key rfl
  obtain ⟨⟨call, phase⟩, hpair, rfl⟩ := List.mem_map.mp hgiven
  obtain ⟨j, hj⟩ := List.getElem?_of_mem hpair
  exact ⟨j, given, phase, hj, hsame⟩

/-- A store whose assets are named by what they hold. -/
def echoAdapter : CasSeekCacheAdapter JsString := ⟨1, fun _ buffer _ => buffer, some, List.length⟩

theorem restores_echoAdapter : echoAdapter.Restores := fun _ _ _ => rfl

/-- Two calls set one key, and the first one to read the index is the last one to write it. -/
def racingSets : List (SeekEvent JsString) :=
  [.call (.set (js "k") (js "one") none), .call (.set (js "k") (js "two") (some (js "tree"))),
    .act 0 (.store (some 0)), .act 1 (.store (some 0)), .act 0 (.readIndex .reads (js "1")),
    .act 1 (.readIndex .unreadable (js "2")), .act 1 (.writeIndex false), .act 0 (.writeIndex true),
    .act 0 (.readIndex .reads (js "3")), .act 0 (.writeIndex false),
    .call (.get (js "k")), .act 2 (.readIndex .reads (js "4")), .act 2 (.restore true), .act 2 (.readIndex .reads (js "5")),
    .act 2 (.writeIndex false)]

theorem get_returns_what_was_set_racing :
    (run echoAdapter racingSets empty).calls[2]? = some (.get (js "k"), .returned (.found (js "one") none)) ∧
      ∃ (j : Nat) (given : Option JsString) (phase : SeekPhase JsString),
        (run echoAdapter racingSets empty).calls[j]? = some (.set (js "k") (js "one") given, phase) ∧
          none = given.filter (· ≠ []) := by
  have hget : (run echoAdapter racingSets empty).calls[2]? =
      some (.get (js "k"), .returned (.found (js "one") none)) := by rfl
  exact ⟨hget, get_returns_what_was_set restores_echoAdapter racingSets hget⟩

/-- No index, under the ref or about to be written, has more entries than it may. -/
structure Bounded (adapter : CasSeekCacheAdapter Buffer) (world : SeekWorld Buffer) : Prop where
  ref : ∀ index, world.ref = some index → index.entries.props.size ≤ adapter.maxEntries
  calls : ∀ pair ∈ world.calls, adapter.Fits pair.2

theorem Bounded.step {world : SeekWorld Buffer} (h : Bounded adapter world) (event : SeekEvent Buffer) :
    Bounded adapter (world.step adapter event) := by
  cases event with
  | call call =>
      refine ⟨h.ref, fun pair hpair => ?_⟩
      rcases List.mem_append.mp hpair with hold | hnew
      · exact h.calls pair hold
      · rw [List.mem_singleton.mp hnew]
        intro change attempt index existed next hphase
        cases call with
        | delete key => cases hphase
        | get key => cases hphase
        | set key buffer indexTreeOid => cases hphase
        | clear => cases hphase
  | act i act =>
      cases hcall : world.calls[i]? with
      | none =>
          have hsame : world.step adapter (.act i act) = world := by simp only [SeekWorld.step, hcall]
          rw [hsame]
          exact h
      | some pair =>
          obtain ⟨href, hphase⟩ := CasSeekCacheAdapter.advance_fits h.ref (h.calls _ (List.mem_of_getElem? hcall)) act
          rw [step_act hcall]
          refine ⟨href, fun pair' hpair => ?_⟩
          rcases List.mem_or_eq_of_mem_set hpair with hold | rfl
          · exact h.calls pair' hold
          · exact hphase

theorem bounded_run (events : List (SeekEvent Buffer)) {world : SeekWorld Buffer} (h : Bounded adapter world) :
    Bounded adapter (run adapter events world) := by
  induction events generalizing world with
  | nil => exact h
  | cons event rest ih => exact ih (h.step event)

/-- The index under the ref and the indexes that calls are about to write never have more entries than they may. -/
theorem index_stays_bounded (adapter : CasSeekCacheAdapter Buffer) (events : List (SeekEvent Buffer)) :
    (∀ index, (run adapter events empty).ref = some index → index.entries.props.size ≤ adapter.maxEntries) ∧
      ∀ call change attempt index existed next,
        (call, .changing change attempt (some (index, existed)) next) ∈ (run adapter events empty).calls →
          index.entries.props.size ≤ adapter.maxEntries := by
  have hbounded : Bounded adapter (run adapter events empty) :=
    bounded_run events ⟨fun index h => (by cases h), fun pair h => absurd h List.not_mem_nil⟩
  exact ⟨hbounded.ref, fun call change attempt index existed next hcall =>
    hbounded.calls _ hcall change attempt index existed next rfl⟩

end SeekWorld

end GitWarp
