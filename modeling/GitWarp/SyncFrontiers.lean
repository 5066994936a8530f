import GitWarp.CheckpointSerializer
import GitWarp.LibraryDoubles

/-! Frontiers as a response can make them. The schema of a patch leaves its context unchecked, so one that arrives as a
`Map` brings any keys and counters into the frontier of the state. Such a frontier is stored and read back exactly if
its keys are strings other than `__proto__` and its counters positive whole numbers. -/

namespace GitWarp
open Js ExceptLoops JsNumber

/-- A key of a frontier: a string, a symbol, or another value with its identity and the string that it is converted to,
where it can be. -/
inductive FrontierKey where
  | named (key : JsString)
  | symbol (id : Nat)
  | other (id : Nat) (string : Option JsString)
  deriving DecidableEq

namespace FrontierKey

def undefined : FrontierKey := other 0 (some (js "undefined"))

/-- The string that sorting and the texts of errors take a key for. -/
def text : FrontierKey → Except JsError JsString
  | named key => return key
  | symbol _ => .error ⟨"TypeError", "Cannot convert a Symbol value to a string"⟩
  | other _ (some string) => return string
  | other _ none => .error ⟨"TypeError", "Cannot convert object to primitive value"⟩

/-- What a vector of strings counts under the key. -/
def counterIn (vv : VersionVector) : FrontierKey → Option JsNumber
  | named key => (vv.get key).map fun counter : Nat => ofInt counter
  | _ => none

end FrontierKey

abbrev WireFrontier := JsMap FrontierKey JsNumber

namespace WireFrontier

def vvMerge (a b : WireFrontier) : WireFrontier :=
  a.mergeWith (fun existing counter => some (mathMax (orZero existing) counter)) b

/-- A comparison with a missing tick is false. -/
def foldPatchDot (frontier : WireFrontier) (writer : FrontierKey) (lamport : Option Nat) : WireFrontier :=
  match lamport with
  | some lamport =>
      if (orZero (frontier.get writer)).lessThan (ofInt lamport) then frontier.set writer (ofInt lamport) else frontier
  | none => frontier

/-- The keys in the order `[...vv.keys()].sort()` gives: `undefined` is last and compared with nothing. -/
def sortedKeys (frontier : WireFrontier) : Except JsError (List FrontierKey) := do
  let compared := frontier.keys.filter (· ≠ .undefined)
  let texts ← compared.mapM fun key => do
    return (key, ← (if compared.length ≤ 1 then pure [] else key.text))
  return (texts.insertionSort fun a b => a.2 ≤ b.2).map Prod.fst ++ frontier.keys.filter (· = .undefined)

/-- `obj[key] = value`; what is stored under a symbol is not enumerated. -/
def assignKey (obj : PlainObject JsNumber) (key : FrontierKey) (value : JsNumber) :
    Except JsError (PlainObject JsNumber) :=
  match key with
  | .symbol _ => return obj
  | key => do return obj.assign (← key.text) value

def vvSerialize (frontier : WireFrontier) : Except JsError (PlainObject JsNumber) := do
  (← frontier.sortedKeys).foldlM (fun obj key =>
    match frontier.get key with
    | none => return obj
    | some val =>
        if val = ofInt 0 then do
          thrown (s!"vvSerialize: zero counter for writerId \"{toText (← key.text)}\" — " ++
            "VersionVector must not contain zero counters")
        else assignKey obj key val) PlainObject.empty

/-- `Number.isInteger(counter) && counter >= 0`, and then the counter. -/
def wholeCount : JsNumber → Option Nat
  | .finite value => if value.den = 1 ∧ 0 ≤ value then some value.num.toNat else none
  | _ => none

/-- Reads a record of numbers back, without the zeros. The text of the error goes on with the number. -/
def vvDeserialize (obj : List (JsString × JsNumber)) : Except JsError VersionVector := do
  let counters ← obj.mapM fun entry =>
    match wholeCount entry.2 with
    | some counter => return (entry.1, counter)
    | none => thrown s!"Invalid counter for writerId \"{toText entry.1}\""
  return JsMap.ofEntries (counters.filter (0 < ·.2))

/-- The vector counts the same under the same keys. -/
def Same (frontier : WireFrontier) (vv : VersionVector) : Prop := ∀ key, frontier.get key = key.counterIn vv

/-- A vector of strings and natural numbers. -/
def ofVector (vv : VersionVector) : WireFrontier :=
  JsMap.ofEntries (vv.entries.map fun entry => (.named entry.1, ofInt entry.2))

/-! ### Which frontiers survive -/

/-- Strings other than `__proto__` are counted, by positive whole numbers. -/
def Storable (frontier : WireFrontier) : Prop :=
  ∀ key n, frontier.get key = some n →
    ∃ writerId, ∃ count : ℕ, key = .named writerId ∧ writerId ≠ protoKey ∧ 0 < count ∧ n = ofInt count

@[simp] theorem wholeCount_ofInt (count : ℕ) : wholeCount (ofInt count) = some count := by
  simp [wholeCount, ofInt]

/-- What is read back is positive and was listed. -/
theorem vvDeserialize_get {obj : List (JsString × JsNumber)} {vv : VersionVector} (h : vvDeserialize obj = .ok vv)
    {writerId : JsString} {count : ℕ} (hget : vv.get writerId = some count) :
    0 < count ∧ writerId ∈ obj.map Prod.fst := by
  obtain ⟨counters, hcounters, hvv⟩ := bind_ok_iff.mp h
  cases hvv
  obtain ⟨hmem, hpos⟩ := List.mem_filter.mp (JsMap.mem_of_get_ofEntries hget)
  obtain ⟨entry, hentry, hread⟩ := (mem_of_mapM_ok hcounters _).mp hmem
  refine ⟨of_decide_eq_true hpos, List.mem_map.mpr ⟨entry, hentry, ?_⟩⟩
  cases hwhole : wholeCount entry.2 with
  | none =>
      rw [hwhole] at hread
      cases hread
  | some counter =>
      rw [hwhole] at hread
      cases hread
      rfl

/-- A record of positive whole numbers is read back. -/
theorem vvDeserialize_ok {obj : PlainObject JsNumber}
    (hobj : ∀ writerId n, obj.props.get writerId = some n → ∃ count : ℕ, 0 < count ∧ n = ofInt count) :
    ∃ vv, vvDeserialize obj.entries = .ok vv ∧
      ∀ writerId, obj.props.get writerId = (FrontierKey.named writerId).counterIn vv := by
  have hentry : ∀ entry ∈ obj.entries, ∃ count : ℕ, 0 < count ∧ entry.2 = ofInt count := fun entry hmem =>
    hobj entry.1 entry.2 ((JsMap.get_eq_some_iff _ _ _).mpr hmem)
  let count (n : JsNumber) : ℕ := (wholeCount n).getD 0
  have hread : obj.entries.mapM (fun entry =>
      match wholeCount entry.2 with
      | some counter => return (entry.1, counter)
      | none => thrown s!"Invalid counter for writerId \"{toText entry.1}\"") =
      (.ok (obj.entries.map fun entry => (entry.1, count entry.2)) : Except JsError (List (JsString × ℕ))) := by
    refine mapM_of_ok fun entry hmem => ?_
    obtain ⟨counter, -, hcounter⟩ := hentry entry hmem
    simp only [hcounter, wholeCount_ofInt, count, Option.getD_some]
    rfl
  have hall : (obj.entries.map fun entry => (entry.1, count entry.2)).filter (0 < ·.2) =
      (obj.props.mapValues fun _ n => count n).entries := by
    refine List.filter_eq_self.mpr fun pair hpair => ?_
    obtain ⟨entry, hmem, rfl⟩ := List.mem_map.mp hpair
    obtain ⟨counter, hpos, hcounter⟩ := hentry entry hmem
    simpa only [hcounter, wholeCount_ofInt, count, Option.getD_some, decide_eq_true_eq] using hpos
  refine ⟨_, by rw [vvDeserialize, hread]; rfl, fun writerId => ?_⟩
  rw [hall, FrontierKey.counterIn, JsMap.get_ofEntries_of_perm (List.Perm.refl _), JsMap.get_mapValues]
  cases hget : obj.props.get writerId with
  | none => rfl
  | some n =>
      obtain ⟨counter, -, rfl⟩ := hobj writerId n hget
      simp only [Option.map_some, count, wholeCount_ofInt, Option.getD_some]

/-- Strings are sorted without an error. -/
theorem sortedKeys_ok {frontier : WireFrontier} (hnamed : ∀ key ∈ frontier.keys, ∃ name, key = .named name) :
    ∃ sorted, sorted.Perm frontier.keys ∧ frontier.sortedKeys = .ok sorted := by
  have hcompared : frontier.keys.filter (· ≠ .undefined) = frontier.keys := by
    refine List.filter_eq_self.mpr fun key hkey => ?_
    obtain ⟨name, rfl⟩ := hnamed key hkey
    rfl
  have hundefined : frontier.keys.filter (· = .undefined) = [] := by
    refine List.filter_eq_nil_iff.mpr fun key hkey => ?_
    obtain ⟨name, rfl⟩ := hnamed key hkey
    nofun
  obtain ⟨texts, htexts⟩ : ∃ texts, frontier.keys.mapM (fun key => do
      return (key, ← (if frontier.keys.length ≤ 1 then pure [] else key.text))) = (.ok texts : Except JsError (List (FrontierKey × JsString))) := by
    refine exists_mapM_ok_iff.mpr fun key hkey => ?_
    obtain ⟨name, rfl⟩ := hnamed key hkey
    split
    · exact ⟨_, rfl⟩
    · exact ⟨_, rfl⟩
  have hkeys : texts.map Prod.fst = frontier.keys := by
    refine (map_of_mapM_ok (p := id) htexts fun key hkey pair hpair => ?_).trans (List.map_id _)
    obtain ⟨text, -, heq⟩ := bind_ok_iff.mp hpair
    cases heq
    rfl
  refine ⟨(texts.insertionSort fun a b => a.2 ≤ b.2).map Prod.fst, ?_, ?_⟩
  · rw [← hkeys]
    exact (List.perm_insertionSort _ texts).map Prod.fst
  · simp only [sortedKeys, hcompared, hundefined, htexts, List.append_nil]
    rfl

/-- A frontier that can be stored is serialized with all its counters. -/
theorem vvSerialize_ok {frontier : WireFrontier} (h : frontier.Storable) :
    ∃ obj, frontier.vvSerialize = .ok obj ∧ ∀ writerId, obj.props.get writerId = frontier.get (.named writerId) := by
  have hkeys : ∀ key ∈ frontier.keys, ∃ writerId, ∃ count : ℕ, key = .named writerId ∧ writerId ≠ protoKey ∧
      0 < count ∧ frontier.get key = some (ofInt count) := by
    intro key hkey
    obtain ⟨n, hn⟩ := Option.isSome_iff_exists.mp ((frontier.mem_keys_iff key).mp hkey)
    obtain ⟨writerId, count, hname, hproto, hpos, rfl⟩ := h key n hn
    exact ⟨writerId, count, hname, hproto, hpos, hn⟩
  obtain ⟨sorted, hperm, hsorted⟩ := sortedKeys_ok fun key hkey => by
    obtain ⟨writerId, -, hname, -⟩ := hkeys key hkey
    exact ⟨writerId, hname⟩
  let entry (key : FrontierKey) : JsString × JsNumber := (key.text.toOption.getD [], (frontier.get key).getD .nan)
  have hloop : frontier.vvSerialize =
      .ok ((sorted.map entry).foldl (fun obj entry => obj.assign entry.1 entry.2) PlainObject.empty) := by
    rw [vvSerialize, hsorted, List.foldl_map]
    refine foldlM_eq_foldl (fun key hkey obj => ?_) _
    obtain ⟨writerId, count, rfl, -, hpos, hget⟩ := hkeys key (hperm.mem_iff.mp hkey)
    have hne : ofInt count ≠ ofInt 0 := fun heq => by
      have := ofInt_injective heq
      omega
    simp only [hget, if_neg hne, entry]
    rfl
  have hnodup : ((sorted.map entry).map Prod.fst).Nodup := by
    rw [List.map_map]
    refine (hperm.nodup_iff.mpr frontier.nodup).map_on fun key hkey key' hkey' heq => ?_
    obtain ⟨writerId, -, rfl, -⟩ := hkeys key (hperm.mem_iff.mp hkey)
    obtain ⟨writerId', -, rfl, -⟩ := hkeys key' (hperm.mem_iff.mp hkey')
    exact congrArg _ heq
  refine ⟨_, hloop, fun writerId => ?_⟩
  rw [PlainObject.get_foldl_assign _ hnodup]
  split
  · rename_i hproto
    cases hget : frontier.get (.named writerId) with
    | none => rfl
    | some n =>
        obtain ⟨name, -, hname, hne, -⟩ := h _ n hget
        exact absurd hproto (FrontierKey.named.inj hname ▸ hne)
  · apply Option.ext
    intro n
    rw [show (PlainObject.empty : PlainObject JsNumber).props.get writerId = none from rfl, Option.or_none,
      JsMap.lookup_eq_some_iff hnodup, List.mem_map]
    constructor
    · rintro ⟨key, hkey, heq⟩
      obtain ⟨name, count, rfl, -, -, hget⟩ := hkeys key (hperm.mem_iff.mp hkey)
      obtain ⟨rfl, rfl⟩ := Prod.mk.inj heq
      rw [hget]
      exact hget
    · intro hget
      refine ⟨.named writerId, hperm.mem_iff.mpr ((frontier.mem_keys_iff _).mpr (by rw [hget]; rfl)), ?_⟩
      simp only [entry, hget]
      rfl

/-- Storing a frontier and reading it back succeeds and gives the same counters exactly if it counts strings other than
`__proto__` by positive whole numbers. -/
theorem restored_iff (frontier : WireFrontier) :
    (∃ obj vv, frontier.vvSerialize = .ok obj ∧ vvDeserialize obj.entries = .ok vv ∧ frontier.Same vv) ↔
      frontier.Storable := by
  constructor
  · rintro ⟨obj, vv, -, hread, hsame⟩ key n hget
    have hcounter := (hsame key).symm.trans hget
    cases key with
    | named writerId =>
        obtain ⟨count, hcount, rfl⟩ := Option.map_eq_some_iff.mp hcounter
        obtain ⟨hpos, hlisted⟩ := vvDeserialize_get hread hcount
        refine ⟨writerId, count, rfl, ?_, hpos, rfl⟩
        rintro rfl
        have hsome := (obj.props.mem_keys_iff protoKey).mp hlisted
        rw [obj.noProto] at hsome
        cases hsome
    | symbol id => cases hcounter
    | other id text => cases hcounter
  · intro h
    obtain ⟨obj, hobj, hget⟩ := vvSerialize_ok h
    have hwhole : ∀ writerId n, obj.props.get writerId = some n → ∃ count : ℕ, 0 < count ∧ n = ofInt count := by
      intro writerId n hn
      obtain ⟨-, count, -, -, hpos, hcount⟩ := h _ n ((hget writerId).symm.trans hn)
      exact ⟨count, hpos, hcount⟩
    obtain ⟨vv, hvv, hcounters⟩ := vvDeserialize_ok hwhole
    refine ⟨obj, vv, hobj, hvv, fun key => ?_⟩
    cases key with
    | named writerId => rw [← hcounters, hget]
    | symbol id =>
        cases hother : frontier.get (.symbol id) with
        | none => rfl
        | some n =>
            obtain ⟨_, _, hname, _⟩ := h _ n hother
            cases hname
    | other id text =>
        cases hother : frontier.get (.other id text) with
        | none => rfl
        | some n =>
            obtain ⟨_, _, hname, _⟩ := h _ n hother
            cases hname

end WireFrontier

/-! ### What patches count -/

/-- The context of a patch: a `Map`, with the numbers that `Math.max` takes its values for, or an object, listed by
`Object.entries`. A response with a value that `Math.max` refuses is not applied. -/
inductive WireContext where
  | map (counters : WireFrontier)
  | record (counters : List (JsString × Int))

/-- A patch as its schema lets it through, with no writer, tick, schema or context where it has none. -/
structure WirePatch (V : Type) where
  schema : Option Nat
  writer : Option JsString
  lamport : Option Nat
  context : Option WireContext
  ops : List (OpV2 V)

variable {V : Type}

/-- `normalizePatch` -/
def WireContext.vector : WireContext → Except JsError WireFrontier
  | map counters => return counters
  | record counters => return WireFrontier.ofVector (← vvDeserialize counters)

namespace WirePatch

/-- The context, where a missing one counts nothing. -/
def contextVV (patch : WirePatch V) : Except JsError WireFrontier := (patch.context.getD (.record [])).vector

/-- The key under which the patch's own tick is counted. -/
def writerKey (patch : WirePatch V) : FrontierKey := patch.writer.elim .undefined .named

/-- The frontier part of `updateFrontierFromPatch` -/
def updateFrontier (frontier : WireFrontier) (patch : WirePatch V) : Except JsError WireFrontier := do
  return (frontier.vvMerge (← patch.contextVV)).foldPatchDot patch.writerKey patch.lamport

/-- The patch's own tick, if it is above zero and counted under the key. -/
def tickUnder (patch : WirePatch V) (key : FrontierKey) : List JsNumber :=
  if key = patch.writerKey ∧ 0 < patch.lamport.getD 0 then [ofInt (patch.lamport.getD 0)] else []

/-- The numbers that the patch counts under a key: that of its context, then its tick. -/
def counters (patch : WirePatch V) (key : FrontierKey) : List JsNumber :=
  (patch.contextVV.toOption.bind (·.get key)).toList ++ patch.tickUnder key

section Raised

variable {frontier : WireFrontier} {key : FrontierKey} {seen : List JsNumber} (hseen : frontier.get key = raised seen)

include hseen

/-- Merging a context raises the counters that it has. -/
theorem get_vvMerge (context : WireFrontier) :
    (frontier.vvMerge context).get key = raised (seen ++ (context.get key).toList) := by
  rw [WireFrontier.vvMerge, JsMap.get_mergeWith, hseen]
  cases context.get key with
  | none => rw [Option.toList_none, List.append_nil]; rfl
  | some n => rw [Option.toList_some, raised_concat]; rfl

/-- Folding a tick in raises the counter of its writer. -/
theorem get_foldPatchDot (patch : WirePatch V) :
    (frontier.foldPatchDot patch.writerKey patch.lamport).get key = raised (seen ++ patch.tickUnder key) := by
  unfold WireFrontier.foldPatchDot tickUnder
  cases patch.lamport with
  | none => simp [hseen]
  | some lamport =>
      rw [Option.getD_some]
      by_cases hkey : key = patch.writerKey
      · subst hkey
        by_cases hpos : 0 < lamport
        · have hzero : (ofInt 0).lessThan (ofInt lamport) = true := by simpa using hpos
          rw [if_pos ⟨rfl, hpos⟩, raised_concat_of_pos hzero, ← hseen]
          dsimp only
          split
          · exact JsMap.get_set_self _ _ _
          · rfl
        · obtain rfl : lamport = 0 := by omega
          have hnot : (orZero (raised seen)).lessThan (ofInt (0 : ℕ)) = false := not_lessThan_zero seen
          rw [if_neg (fun h => hpos h.2), List.append_nil, ← hseen]
          dsimp only
          rw [hseen, hnot, if_neg Bool.false_ne_true, hseen]
      · rw [if_neg (fun h => hkey h.1), List.append_nil, ← hseen]
        dsimp only
        split
        · exact JsMap.get_set_of_ne _ _ hkey
        · rfl

/-- A patch raises a counter by the numbers that it counts. -/
theorem get_updateFrontier {patch : WirePatch V} {frontier' : WireFrontier}
    (h : patch.updateFrontier frontier = .ok frontier') : frontier'.get key = raised (seen ++ patch.counters key) := by
  obtain ⟨context, hcontext, heq⟩ := bind_ok_iff.mp h
  cases heq
  rw [get_foldPatchDot (get_vvMerge hseen context), List.append_assoc, counters, hcontext]
  rfl

end Raised

/-- After all patches a counter is raised by the numbers of all. -/
theorem get_foldlM_updateFrontier {patches : List (WirePatch V)} {frontier : WireFrontier}
    (h : patches.foldlM (fun frontier patch => patch.updateFrontier frontier) JsMap.empty = .ok frontier)
    (key : FrontierKey) : frontier.get key = raised (patches.flatMap fun patch => patch.counters key) := by
  have hloop : ∀ (patches : List (WirePatch V)) (start : WireFrontier) (seen : List JsNumber),
      start.get key = raised seen →
      patches.foldlM (fun frontier patch => patch.updateFrontier frontier) start = .ok frontier →
      frontier.get key = raised (seen ++ patches.flatMap fun patch => patch.counters key) := by
    intro patches
    induction patches with
    | nil =>
        intro start seen hseen hok
        cases hok
        rw [List.flatMap_nil, List.append_nil, hseen]
    | cons patch rest ih =>
        intro start seen hseen hok
        rw [List.foldlM_cons] at hok
        obtain ⟨next, hnext, hrest⟩ := bind_ok_iff.mp hok
        rw [List.flatMap_cons, ← List.append_assoc]
        exact ih next _ (get_updateFrontier hseen hnext) hrest
  exact hloop patches JsMap.empty [] rfl h

/-- The frontier that patches lead to can be stored exactly if what they count under any key are counters of a string
other than `__proto__`, of which the greatest since the last NaN is a positive whole number. -/
theorem storable_iff {patches : List (WirePatch V)} {frontier : WireFrontier}
    (h : patches.foldlM (fun frontier patch => patch.updateFrontier frontier) JsMap.empty = .ok frontier) :
    frontier.Storable ↔ ∀ key, (patches.flatMap fun patch => patch.counters key) ≠ [] →
      (∃ writerId, key = .named writerId ∧ writerId ≠ protoKey) ∧
        CountsWhole (patches.flatMap fun patch => patch.counters key) := by
  have hget := get_foldlM_updateFrontier h
  constructor
  · intro hstorable key hcounted
    have hsome : frontier.get key ≠ none := by
      rw [hget, ne_eq, raised_eq_none_iff]
      exact hcounted
    obtain ⟨n, hn⟩ := Option.ne_none_iff_exists'.mp hsome
    obtain ⟨writerId, count, hname, hproto, hpos, rfl⟩ := hstorable key n hn
    exact ⟨⟨writerId, hname, hproto⟩, (countsWhole_iff _).mpr ⟨count, hpos, (hget key).symm.trans hn⟩⟩
  · intro hcounted key n hn
    have hne : (patches.flatMap fun patch => patch.counters key) ≠ [] := by
      rw [ne_eq, ← raised_eq_none_iff, ← hget, hn]
      nofun
    obtain ⟨⟨writerId, hname, hproto⟩, hwhole⟩ := hcounted key hne
    obtain ⟨count, hpos, hraised⟩ := (countsWhole_iff _).mp hwhole
    exact ⟨writerId, count, hname, hproto, hpos, Option.some.inj (hn.symm.trans ((hget key).trans hraised))⟩

end WirePatch

end GitWarp
