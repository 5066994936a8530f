import GitWarp.ReducerConvergence

/-! The full-state serializer of checkpoints. A state becomes a plain tree of arrays and records in a
fixed order, which a codec turns into bytes. Reading it back gives the same sets and maps, except for a
counter kept under the writer id `__proto__`, which the record of the frontier cannot hold. -/

namespace GitWarp
open Js ExceptLoops

variable {V : Type}

/-- A serialized OR-Set; a field that is absent or no array is `none`. -/
structure ORSetObject where
  entries : Option (List (JsString × List JsString))
  tombstones : Option (List JsString)
  deriving DecidableEq

/-- Dots with their decoding, in the order of the decodings. -/
def sortedDots (encoded : List JsString) : Except JsError (List JsString) := do
  let pairs ← encoded.mapM fun e => do return (e, ← decodeDot e)
  return (pairs.insertionSort fun a b => compareDots a.2 b.2 ≤ 0).map Prod.fst

def orsetSerialize (set : ORSet) : Except JsError ORSetObject := do
  let entriesArray ← set.entries.entries.mapM fun entry => do
    return (entry.1, ← sortedDots entry.2.elems)
  let sortedTombstones ← sortedDots set.tombstones.elems
  return ⟨some (entriesArray.insertionSort fun a b => a.1 ≤ b.1), some sortedTombstones⟩

def orsetDeserialize (obj : ORSetObject) : ORSet where
  entries := JsMap.ofEntries ((obj.entries.getD []).map fun entry => (entry.1, JsSet.ofList entry.2))
  tombstones := JsSet.ofList (obj.tombstones.getD [])

/-- A serialized birth: the bare lamport of older checkpoints, or an event id. -/
inductive BirthObject where
  | lamport (lamport : Nat)
  | eventId (eventId : EventId)
  deriving DecidableEq

/-- The object that the codec encodes. A record of numbers is listed by its own properties. -/
structure FullStateObject (V : Type) where
  version : Option String
  nodeAlive : Option ORSetObject
  edgeAlive : Option ORSetObject
  prop : Option (List (JsString × LWWRegister V))
  observedFrontier : Option (List (JsString × Int))
  edgeBirthEvent : Option (List (JsString × BirthObject))
  edgeBirthLamport : Option (List (JsString × BirthObject))

/-- The injected codec; decoding may give `null`. -/
structure CodecPort (Obj Buffer : Type) where
  encode : Obj → Buffer
  decode : Buffer → Except JsError (Option Obj)

/-- Decoding inverts encoding. -/
def CodecPort.Inverts {Obj Buffer : Type} (codec : CodecPort Obj Buffer) : Prop :=
  ∀ obj, codec.decode (codec.encode obj) = .ok (some obj)

variable {Buffer : Type}

/-- The object that `serializeFullStateV5` hands to the codec. -/
def fullStateObject (state : WarpStateV5 V) : Except JsError (FullStateObject V) := do
  let nodeAliveObj ← orsetSerialize state.nodeAlive
  let edgeAliveObj ← orsetSerialize state.edgeAlive
  let propArray := state.prop.entries.insertionSort fun a b => a.1 ≤ b.1
  let observedFrontierObj ← vvSerialize state.observedFrontier
  let edgeBirthArray := state.edgeBirthEvent.entries.insertionSort fun a b => a.1 ≤ b.1
  return {
    version := some "full-v5"
    nodeAlive := some nodeAliveObj
    edgeAlive := some edgeAliveObj
    prop := some propArray
    observedFrontier := some (observedFrontierObj.entries.map fun entry => (entry.1, (entry.2 : Int)))
    edgeBirthEvent := some (edgeBirthArray.map fun entry => (entry.1, .eventId entry.2))
    edgeBirthLamport := none }

def serializeFullStateV5 (codec : CodecPort (FullStateObject V) Buffer) (state : WarpStateV5 V) :
    Except JsError Buffer := do
  return codec.encode (← fullStateObject state)

def deserializeProps (propArray : Option (List (JsString × LWWRegister V))) :
    JsMap JsString (LWWRegister V) := JsMap.ofEntries (propArray.getD [])

/-- Reads births; a bare lamport gets an event id with sentinels for what it lacks. -/
def deserializeBirth : BirthObject → EventId
  | .lamport lamport => ⟨lamport, js "", js "0000", 0⟩
  | .eventId eventId => eventId

def deserializeEdgeBirthEvent (obj : FullStateObject V) : JsMap JsString EventId :=
  JsMap.ofEntries (((obj.edgeBirthEvent.or obj.edgeBirthLamport).getD []).map fun entry =>
    (entry.1, deserializeBirth entry.2))

/-- The state that a decoded object stands for. -/
def stateOfObject (obj : FullStateObject V) : Except JsError (WarpStateV5 V) := do
  match obj.version with
  | some version =>
      if version ≠ "full-v5" then
        thrown s!"Unsupported full state version: expected 'full-v5', got '{version}'"
  | none => pure ()
  let observedFrontier ← vvDeserialize (obj.observedFrontier.getD [])
  return {
    nodeAlive := orsetDeserialize (obj.nodeAlive.getD ⟨none, none⟩)
    edgeAlive := orsetDeserialize (obj.edgeAlive.getD ⟨none, none⟩)
    prop := deserializeProps obj.prop
    observedFrontier := observedFrontier
    edgeBirthEvent := deserializeEdgeBirthEvent obj }

def deserializeFullStateV5 (codec : CodecPort (FullStateObject V) Buffer) (buffer : Option Buffer) :
    Except JsError (WarpStateV5 V) :=
  match buffer with
  | none => return createEmptyStateV5
  | some buffer => do
      match ← codec.decode buffer with
      | none => return createEmptyStateV5
      | some obj => stateOfObject obj

/-- Adds the dots of an OR-Set, removed ones included, to the vector of what was applied. -/
def scanORSet (vv : VersionVector) (orset : ORSet) : Except JsError VersionVector :=
  orset.entries.values.foldlM (fun vv dots =>
    dots.elems.foldlM (fun vv encodedDot => do
      let dot ← decodeDot encodedDot
      return if (vv.counter dot.writerId : Int) < dot.counter then
          vv.set dot.writerId dot.counter.toNat
        else vv) vv) vv

def computeAppliedVV (state : WarpStateV5 V) : Except JsError VersionVector := do
  let vv ← scanORSet createVersionVector state.nodeAlive
  scanORSet vv state.edgeAlive

/-! ### Sets and maps survive serialization -/

theorem mem_sortedDots {encoded sorted : List JsString} (h : sortedDots encoded = .ok sorted)
    (e : JsString) : e ∈ sorted ↔ e ∈ encoded := by
  unfold sortedDots at h
  cases hread : encoded.mapM fun e => (do return (e, ← decodeDot e) : Except JsError _) with
  | error err => rw [hread] at h; cases h
  | ok pairs =>
      rw [hread] at h
      cases h
      simp only [List.mem_map, List.mem_insertionSort, mem_of_mapM_ok hread]
      constructor
      · rintro ⟨pair, ⟨e', he', hpair⟩, rfl⟩
        cases hdot : decodeDot e' with
        | error err => rw [hdot] at hpair; cases hpair
        | ok dot => rw [hdot] at hpair; cases hpair; exact he'
      · intro he
        obtain ⟨pair, hpair⟩ := exists_mapM_ok_iff.mp ⟨pairs, hread⟩ e he
        refine ⟨pair, ⟨e, he, hpair⟩, ?_⟩
        cases hdot : decodeDot e with
        | error err => rw [hdot] at hpair; cases hpair
        | ok dot => rw [hdot] at hpair; cases hpair; rfl

theorem exists_sortedDots_ok {encoded : List JsString}
    (hdots : ∀ e ∈ encoded, ∃ dot, decodeDot e = .ok dot) :
    ∃ sorted, sortedDots encoded = .ok sorted := by
  have hread : ∃ pairs,
      encoded.mapM (fun e => (do return (e, ← decodeDot e) : Except JsError _)) = .ok pairs := by
    refine exists_mapM_ok_iff.mpr fun e he => ?_
    obtain ⟨dot, hdot⟩ := hdots e he
    rw [hdot]
    exact ⟨_, rfl⟩
  obtain ⟨pairs, hpairs⟩ := hread
  unfold sortedDots
  rw [hpairs]
  exact ⟨_, rfl⟩

/-- Every dot of the set, present or tombstoned, can be decoded. -/
def ORSet.Decodable (set : ORSet) : Prop :=
  (∀ element, ∀ encoded ∈ set.dotsOf element, ∃ dot, decodeDot encoded = .ok dot) ∧
    ∀ encoded ∈ set.tombstones, ∃ dot, decodeDot encoded = .ok dot

theorem exists_orsetSerialize_ok {set : ORSet} (h : set.Decodable) :
    ∃ obj, orsetSerialize set = .ok obj := by
  have hentries : ∃ entriesArray, set.entries.entries.mapM (fun entry =>
      (do return (entry.1, ← sortedDots entry.2.elems) : Except JsError _)) = .ok entriesArray := by
    refine exists_mapM_ok_iff.mpr fun entry hentry => ?_
    have hget := (JsMap.get_eq_some_iff set.entries entry.1 entry.2).mpr hentry
    obtain ⟨sorted, hsorted⟩ := exists_sortedDots_ok fun e he =>
      h.1 entry.1 e ((set.mem_dotsOf_iff _ _).mpr ⟨_, hget, he⟩)
    rw [hsorted]
    exact ⟨_, rfl⟩
  obtain ⟨entriesArray, hentriesArray⟩ := hentries
  obtain ⟨tombs, htombs⟩ := exists_sortedDots_ok h.2
  unfold orsetSerialize
  rw [hentriesArray]
  simp only [bind, Except.bind, htombs]
  exact ⟨_, rfl⟩

theorem view_orsetDeserialize {set : ORSet} {obj : ORSetObject} (h : orsetSerialize set = .ok obj) :
    (orsetDeserialize obj).view = set.view := by
  unfold orsetSerialize at h
  cases hentries : set.entries.entries.mapM (fun entry =>
      (do return (entry.1, ← sortedDots entry.2.elems) : Except JsError _)) with
  | error err => rw [hentries] at h; cases h
  | ok array =>
      rw [hentries] at h
      cases htombs : sortedDots set.tombstones.elems with
      | error err => rw [htombs] at h; cases h
      | ok tombs =>
          rw [htombs] at h
          cases h
          -- the pairs read back are the entries with their dots rearranged
          have hpairs : ∀ e ds, (e, ds) ∈ array ↔
              ∃ dots, (e, dots) ∈ set.entries.entries ∧ sortedDots dots.elems = .ok ds := by
            intro e ds
            rw [mem_of_mapM_ok hentries]
            constructor
            · rintro ⟨⟨e', dots⟩, hentry, hds⟩
              cases hsorted : sortedDots dots.elems with
              | error err => rw [hsorted] at hds; cases hds
              | ok sorted =>
                  rw [hsorted] at hds
                  cases hds
                  exact ⟨dots, hentry, hsorted⟩
            · rintro ⟨dots, hentry, hds⟩
              refine ⟨(e, dots), hentry, ?_⟩
              rw [hds]
              rfl
          have hkeys : array.map Prod.fst = set.entries.entries.map Prod.fst := by
            refine (map_of_mapM_ok hentries fun entry _ pair hpair => ?_)
            cases hsorted : sortedDots entry.2.elems with
            | error err => rw [hsorted] at hpair; cases hpair
            | ok sorted => rw [hsorted] at hpair; cases hpair; rfl
          have hnodup : (((array.insertionSort fun a b => a.1 ≤ b.1).map
              fun entry => (entry.1, JsSet.ofList entry.2)).map Prod.fst).Nodup := by
            rw [List.map_map]
            have hperm := (List.perm_insertionSort (fun a b => a.1 ≤ b.1) array).map Prod.fst
            refine (hperm.nodup_iff).mpr ?_
            rw [hkeys]
            exact set.entries.nodup
          apply AddWins.ext
          · ext ⟨element, encoded⟩
            rw [ORSet.mem_adds_view, ORSet.mem_adds_view, ORSet.mem_dotsOf_iff, ORSet.mem_dotsOf_iff]
            simp only [orsetDeserialize, Option.getD_some, JsMap.get_ofEntries_of_nodup _ hnodup,
              JsMap.lookup_eq_some_iff hnodup, List.mem_map, Prod.mk.injEq, List.mem_insertionSort,
              JsMap.get_eq_some_iff]
            constructor
            · rintro ⟨dots, ⟨⟨e, ds⟩, hpair, rfl, rfl⟩, hmem⟩
              obtain ⟨dots, hentry, hds⟩ := (hpairs e ds).mp hpair
              exact ⟨dots, hentry, (mem_sortedDots hds _).mp ((JsSet.mem_ofList _ _).mp hmem)⟩
            · rintro ⟨dots, hentry, hmem⟩
              obtain ⟨pair, hpair⟩ := exists_mapM_ok_iff.mp ⟨array, hentries⟩ _ hentry
              cases hsorted : sortedDots dots.elems with
              | error err => rw [hsorted] at hpair; cases hpair
              | ok sorted =>
                  refine ⟨JsSet.ofList sorted, ⟨(element, sorted), ?_, rfl, rfl⟩, ?_⟩
                  · exact (hpairs element sorted).mpr ⟨dots, hentry, hsorted⟩
                  · exact (JsSet.mem_ofList _ _).mpr ((mem_sortedDots hsorted _).mpr hmem)
          · ext encoded
            simp only [ORSet.mem_tombs_view, orsetDeserialize, Option.getD_some, JsSet.mem_ofList,
              mem_sortedDots htombs, JsSet.mem_elems]

/-! ### Version vectors survive but for `__proto__` -/

/-- No counter of the vector is zero. -/
def VersionVector.Positive (vv : VersionVector) : Prop := ∀ writerId, vv.get writerId ≠ some 0

theorem vvSerialize_ok {vv : VersionVector} (hpos : vv.Positive) :
    ∃ obj, vvSerialize vv = .ok obj ∧ ∀ writerId,
      obj.props.get writerId = if writerId = protoKey then none else vv.get writerId := by
  obtain ⟨step, hserialize, hstep⟩ : ∃ step : PlainObject Nat → JsString → Except JsError (PlainObject Nat),
      vvSerialize vv = vv.sortedKeys.foldlM step PlainObject.empty ∧
        ∀ obj key n, vv.get key = some (n + 1) → step obj key = .ok (obj.assign key (n + 1)) := by
    refine ⟨_, rfl, fun obj key n hget => ?_⟩
    rw [hget]
    rfl
  have hloop : ∀ (keys : List JsString), (∀ key ∈ keys, key ∈ vv.keys) → ∀ obj : PlainObject Nat,
      keys.foldlM step obj = .ok ((keys.map fun key => (key, vv.counter key)).foldl
        (fun o entry => o.assign entry.1 entry.2) obj) := by
    intro keys
    induction keys with
    | nil => exact fun _ _ => rfl
    | cons key rest ih =>
        intro hkeys obj
        obtain ⟨n, hn⟩ := Option.isSome_iff_exists.mp
          ((vv.mem_keys_iff key).mp (hkeys key List.mem_cons_self))
        obtain ⟨m, rfl⟩ : ∃ m, n = m + 1 :=
          Nat.exists_eq_succ_of_ne_zero fun hzero => hpos key (by rw [hn, hzero])
        have hrest := ih (fun k hk => hkeys k (List.mem_cons_of_mem key hk)) (obj.assign key (m + 1))
        rw [List.foldlM_cons, hstep _ _ _ hn, List.map_cons, List.foldl_cons, VersionVector.counter, hn,
          Option.getD_some]
        exact hrest
  have hperm : vv.sortedKeys.Perm vv.keys := List.perm_insertionSort _ _
  refine ⟨_, hserialize.trans (hloop vv.sortedKeys (fun key hkey => hperm.mem_iff.mp hkey) _), fun writerId => ?_⟩
  have hmap : (vv.sortedKeys.map fun key => (key, vv.counter key)).map Prod.fst = vv.sortedKeys := by
    rw [List.map_map]
    exact List.map_id _
  have hnodup : ((vv.sortedKeys.map fun key => (key, vv.counter key)).map Prod.fst).Nodup := by
    rw [hmap]
    exact hperm.nodup_iff.mpr vv.nodup
  rw [PlainObject.get_foldl_assign _ hnodup]
  split
  · rfl
  · apply Option.ext
    intro n
    rw [show (PlainObject.empty : PlainObject Nat).props.get writerId = none from rfl, Option.or_none,
      JsMap.lookup_eq_some_iff hnodup, List.mem_map]
    constructor
    · rintro ⟨key, hkey, heq⟩
      obtain ⟨rfl, rfl⟩ := Prod.mk.inj heq
      obtain ⟨n, hn⟩ := Option.isSome_iff_exists.mp
        ((vv.mem_keys_iff key).mp (hperm.mem_iff.mp hkey))
      rw [VersionVector.counter, hn]
      rfl
    · intro hget
      refine ⟨writerId, hperm.mem_iff.mpr ((vv.mem_keys_iff writerId).mpr (by rw [hget]; rfl)), ?_⟩
      rw [VersionVector.counter, hget]
      rfl

/-- A record of positive counters, no key twice, reads back as the vector it lists. -/
theorem vvDeserialize_ok {entries : List (JsString × Nat)} (hpos : ∀ entry ∈ entries, 0 < entry.2) :
    vvDeserialize (entries.map fun entry => (entry.1, (entry.2 : Int))) =
      .ok (JsMap.ofEntries entries) := by
  have hloop : ∀ (entries : List (JsString × Nat)), (∀ entry ∈ entries, 0 < entry.2) →
      ∀ vv : VersionVector,
      (entries.map fun entry => (entry.1, (entry.2 : Int))).foldlM (fun vv entry =>
        if entry.2 < 0 then
          thrown s!"Invalid counter for writerId \"{toText entry.1}\": {toText (decimalInt entry.2)}"
        else if 0 < entry.2 then return vv.set entry.1 entry.2.toNat
        else return vv) vv =
        (.ok (entries.foldl (fun m entry => m.set entry.1 entry.2) vv) :
          Except JsError VersionVector) := by
    intro entries
    induction entries with
    | nil => exact fun _ _ => rfl
    | cons entry rest ih =>
        intro hpos vv
        have hentry : (0 : Int) < entry.2 := by exact_mod_cast hpos entry List.mem_cons_self
        rw [List.map_cons, List.foldlM_cons, if_neg (not_lt.mpr hentry.le), if_pos hentry]
        exact ih (fun e he => hpos e (List.mem_cons_of_mem entry he)) _
  exact hloop entries hpos createVersionVector

end GitWarp
