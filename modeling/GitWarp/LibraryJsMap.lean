import Mathlib.Data.List.Nodup
import Mathlib.Data.List.Basic
import Mathlib.Order.WithBot

/-! Insertion-ordered maps and sets, the `Map` and `Set` of JavaScript. A key is stored once: writing
an existing key keeps its place, writing a new key appends it, and the type carries the proof that no
key occurs twice. Reading is by key; the order only matters to a caller that iterates. -/

namespace GitWarp

/-- A `Map`: its entries in insertion order, no key twice. -/
structure JsMap (K V : Type) where
  entries : List (K × V)
  nodup : (entries.map Prod.fst).Nodup
  deriving DecidableEq

namespace JsMap

variable {K V W : Type} [DecidableEq K]

omit [DecidableEq K] in
theorem eq_of_entries {m m' : JsMap K V} (h : m.entries = m'.entries) : m = m' := by
  cases m
  cases m'
  cases h
  rfl

def empty : JsMap K V := ⟨[], List.nodup_nil⟩

instance : Inhabited (JsMap K V) := ⟨empty⟩

def keys (m : JsMap K V) : List K := m.entries.map Prod.fst

def values (m : JsMap K V) : List V := m.entries.map Prod.snd

def size (m : JsMap K V) : Nat := m.entries.length

/-- The value under a key of an entry list. -/
def lookup : List (K × V) → K → Option V
  | [], _ => none
  | (k, v) :: rest, key => if key = k then some v else lookup rest key

def get (m : JsMap K V) (key : K) : Option V := lookup m.entries key

def has (m : JsMap K V) (key : K) : Bool := (m.get key).isSome

/-- Writes a key of an entry list in place, or at the end when it is new. -/
def setEntry : List (K × V) → K → V → List (K × V)
  | [], key, value => [(key, value)]
  | (k, v) :: rest, key, value =>
      if k = key then (k, value) :: rest else (k, v) :: setEntry rest key value

theorem keys_setEntry (entries : List (K × V)) (key : K) (value : V) :
    (setEntry entries key value).map Prod.fst =
      if key ∈ entries.map Prod.fst then entries.map Prod.fst
      else entries.map Prod.fst ++ [key] := by
  induction entries with
  | nil => rfl
  | cons entry rest ih =>
      obtain ⟨k, v⟩ := entry
      by_cases hk : k = key
      · subst hk
        simp [setEntry]
      · have hk' : key ≠ k := fun h => hk h.symm
        by_cases hrest : key ∈ rest.map Prod.fst
        · rw [if_pos hrest] at ih
          simp only [setEntry, if_neg hk, List.map_cons, ih, List.mem_cons, hrest, or_true, if_true]
        · rw [if_neg hrest] at ih
          simp only [setEntry, if_neg hk, List.map_cons, ih, List.mem_cons, hk', hrest, or_self,
            if_false, List.cons_append]

theorem nodup_setEntry {entries : List (K × V)} (hnodup : (entries.map Prod.fst).Nodup)
    (key : K) (value : V) : ((setEntry entries key value).map Prod.fst).Nodup := by
  rw [keys_setEntry]
  split
  · exact hnodup
  · rename_i hkey
    exact hnodup.append (List.nodup_singleton key) (by simpa using hkey)

def set (m : JsMap K V) (key : K) (value : V) : JsMap K V :=
  ⟨setEntry m.entries key value, nodup_setEntry m.nodup key value⟩

def delete (m : JsMap K V) (key : K) : JsMap K V :=
  ⟨m.entries.filter fun entry => entry.1 ≠ key,
    m.nodup.sublist (List.filter_sublist.map Prod.fst)⟩

/-- `new Map(entries)`: later entries of a key overwrite earlier ones. -/
def ofEntries (entries : List (K × V)) : JsMap K V :=
  entries.foldl (fun m entry => m.set entry.1 entry.2) empty

/-- The map with the same keys in the same order and every value rewritten. -/
def mapValues (f : K → V → W) (m : JsMap K V) : JsMap K W :=
  ⟨m.entries.map fun entry => (entry.1, f entry.1 entry.2), by
    have hkeys : (m.entries.map fun entry => (entry.1, f entry.1 entry.2)).map Prod.fst =
        m.entries.map Prod.fst := by simp
    rw [hkeys]
    exact m.nodup⟩

theorem lookup_cons (k key : K) (v : V) (rest : List (K × V)) :
    lookup ((k, v) :: rest) key = if key = k then some v else lookup rest key := rfl

theorem lookup_eq_some_iff {entries : List (K × V)} (hnodup : (entries.map Prod.fst).Nodup)
    (key : K) (value : V) : lookup entries key = some value ↔ (key, value) ∈ entries := by
  induction entries with
  | nil => simp [lookup]
  | cons entry rest ih =>
      obtain ⟨k, v⟩ := entry
      simp only [List.map_cons, List.nodup_cons] at hnodup
      by_cases hk : key = k
      · subst hk
        have hout : ∀ w, (key, w) ∉ rest := fun w hw =>
          hnodup.1 (List.mem_map.mpr ⟨(key, w), hw, rfl⟩)
        simp [lookup_cons, hout, eq_comm]
      · rw [lookup_cons, if_neg hk, ih hnodup.2]
        simp [hk]

theorem get_eq_some_iff (m : JsMap K V) (key : K) (value : V) :
    m.get key = some value ↔ (key, value) ∈ m.entries :=
  lookup_eq_some_iff m.nodup key value

theorem mem_values_iff (m : JsMap K V) (v : V) : v ∈ m.values ↔ ∃ key, m.get key = some v := by
  unfold values
  simp only [List.mem_map, get_eq_some_iff, Prod.exists, exists_eq_right]

theorem mem_keys_iff (m : JsMap K V) (key : K) : key ∈ m.keys ↔ (m.get key).isSome = true := by
  rw [Option.isSome_iff_exists]
  constructor
  · intro h
    obtain ⟨⟨k, v⟩, hmem, rfl⟩ := List.mem_map.mp h
    exact ⟨v, (m.get_eq_some_iff k v).mpr hmem⟩
  · rintro ⟨v, hv⟩
    exact List.mem_map.mpr ⟨(key, v), (m.get_eq_some_iff key v).mp hv, rfl⟩

theorem has_iff_mem_keys (m : JsMap K V) (key : K) : m.has key = true ↔ key ∈ m.keys :=
  (m.mem_keys_iff key).symm

@[simp] theorem get_empty (key : K) : (empty : JsMap K V).get key = none := rfl

theorem lookup_setEntry (entries : List (K × V)) (key key' : K) (value : V) :
    lookup (setEntry entries key value) key' =
      if key' = key then some value else lookup entries key' := by
  induction entries with
  | nil => rw [setEntry, lookup_cons]
  | cons entry rest ih =>
      obtain ⟨k, v⟩ := entry
      rw [setEntry]
      split
      · rename_i hk
        subst hk
        rw [lookup_cons, lookup_cons]
        split <;> rfl
      · rename_i hk
        rw [lookup_cons, lookup_cons, ih]
        by_cases h : key' = k
        · subst h
          simp [hk]
        · simp [h]

theorem get_set (m : JsMap K V) (key key' : K) (value : V) :
    (m.set key value).get key' = if key' = key then some value else m.get key' :=
  lookup_setEntry m.entries key key' value

@[simp] theorem get_set_self (m : JsMap K V) (key : K) (value : V) :
    (m.set key value).get key = some value := by
  rw [get_set, if_pos rfl]

theorem entries_set_of_get_none {m : JsMap K V} {key : K} (h : m.get key = none) (value : V) :
    (m.set key value).entries = m.entries ++ [(key, value)] := by
  have hloop : ∀ entries : List (K × V), lookup entries key = none →
      setEntry entries key value = entries ++ [(key, value)] := by
    intro entries
    induction entries with
    | nil => exact fun _ => rfl
    | cons entry rest ih =>
        obtain ⟨k, v⟩ := entry
        intro hnone
        rw [lookup_cons] at hnone
        split at hnone
        · cases hnone
        · rename_i hne
          rw [setEntry, if_neg (fun heq => hne heq.symm), ih hnone, List.cons_append]
  exact hloop m.entries h

theorem get_set_of_ne (m : JsMap K V) {key key' : K} (value : V) (hne : key' ≠ key) :
    (m.set key value).get key' = m.get key' := by
  rw [get_set, if_neg hne]

/-- New keys are appended in the order in which they are set. -/
theorem entries_foldl_set {entries : List (K × V)} (hnodup : (entries.map Prod.fst).Nodup) {m : JsMap K V}
    (hfresh : ∀ entry ∈ entries, m.get entry.1 = none) :
    (entries.foldl (fun m entry => m.set entry.1 entry.2) m).entries = m.entries ++ entries := by
  induction entries generalizing m with
  | nil => exact (List.append_nil _).symm
  | cons entry rest ih =>
      rw [List.map_cons, List.nodup_cons] at hnodup
      have hrest : ∀ other ∈ rest, (m.set entry.1 entry.2).get other.1 = none := by
        intro other hother
        have hne : other.1 ≠ entry.1 := fun heq => hnodup.1 (heq ▸ List.mem_map_of_mem hother)
        rw [get_set_of_ne _ _ hne]
        exact hfresh other (List.mem_cons_of_mem _ hother)
      rw [List.foldl_cons, ih hnodup.2 hrest, entries_set_of_get_none (hfresh entry (List.mem_cons_self ..)),
        List.append_assoc, List.singleton_append]

theorem get_delete (m : JsMap K V) (key key' : K) :
    (m.delete key).get key' = if key' = key then none else m.get key' := by
  apply Option.ext
  intro value
  rw [get_eq_some_iff]
  by_cases h : key' = key
  · simp [delete, h]
  · simp [delete, h, get_eq_some_iff]

theorem get_mapValues (f : K → V → W) (m : JsMap K V) (key : K) :
    (m.mapValues f).get key = (m.get key).map (f key) := by
  apply Option.ext
  intro value
  rw [get_eq_some_iff, Option.map_eq_some_iff]
  constructor
  · intro h
    obtain ⟨⟨k, v⟩, hmem, heq⟩ := List.mem_map.mp h
    obtain ⟨rfl, rfl⟩ := Prod.mk.inj heq
    exact ⟨v, (m.get_eq_some_iff k v).mpr hmem, rfl⟩
  · rintro ⟨v, hv, rfl⟩
    exact List.mem_map.mpr ⟨(key, v), (m.get_eq_some_iff key v).mp hv, rfl⟩

theorem mapValues_set (f : K → V → W) (m : JsMap K V) (key : K) (value : V) :
    (m.set key value).mapValues f = (m.mapValues f).set key (f key value) := by
  have hloop : ∀ entries : List (K × V),
      (setEntry entries key value).map (fun entry => (entry.1, f entry.1 entry.2)) =
        setEntry (entries.map fun entry => (entry.1, f entry.1 entry.2)) key (f key value) := by
    intro entries
    induction entries with
    | nil => rfl
    | cons entry rest ih =>
        obtain ⟨k, v⟩ := entry
        rw [setEntry, List.map_cons, setEntry]
        split
        · rename_i hkey
          rw [hkey]
          rfl
        · rw [List.map_cons, ih]
  exact eq_of_entries (hloop m.entries)

/-- The value under a key, with a missing key below every value. -/
def level (m : JsMap K V) (key : K) : WithBot V :=
  match m.get key with
  | none => ⊥
  | some value => (value : WithBot V)

theorem level_of_get_none {m : JsMap K V} {key : K} (h : m.get key = none) : m.level key = ⊥ := by
  rw [level, h]

theorem level_of_get_some {m : JsMap K V} {key : K} {value : V} (h : m.get key = some value) :
    m.level key = value := by
  rw [level, h]

theorem get_eq_of_level_eq {m m' : JsMap K V} {key : K} (h : m.level key = m'.level key) :
    m.get key = m'.get key := by
  unfold level at h
  cases hm : m.get key <;> cases hm' : m'.get key <;> simp_all

theorem level_set (m : JsMap K V) (key key' : K) (value : V) :
    (m.set key value).level key' = if key' = key then (value : WithBot V) else m.level key' := by
  unfold level
  rw [get_set]
  by_cases h : key' = key <;> simp [h]

/-! ### Loops over the entries of a second map

A merge of two maps is a loop over the entries of the second one that reads and may write the key it
is at. Since no key occurs twice, each key of the result depends on the two old values only. -/

/-- One turn of such a loop: `merge` says what to write, or `none` to leave the key alone. -/
def mergeEntry (merge : Option V → W → Option V) (m : JsMap K V) (entry : K × W) : JsMap K V :=
  match merge (m.get entry.1) entry.2 with
  | some value => m.set entry.1 value
  | none => m

/-- What a merge loop leaves under a key. -/
def mergedValue (merge : Option V → W → Option V) (old : Option V) : Option W → Option V
  | none => old
  | some incoming => (merge old incoming).or old

theorem get_mergeEntry (merge : Option V → W → Option V) (m : JsMap K V) (entry : K × W) (key : K) :
    (mergeEntry merge m entry).get key =
      mergedValue merge (m.get key) (if key = entry.1 then some entry.2 else none) := by
  by_cases hkey : key = entry.1
  · subst hkey
    simp only [mergeEntry, if_true, mergedValue]
    cases merge (m.get entry.1) entry.2 with
    | none => simp
    | some value => simp
  · simp only [mergeEntry, if_neg hkey, mergedValue]
    cases merge (m.get entry.1) entry.2 with
    | none => rfl
    | some value => exact get_set_of_ne m value hkey

theorem get_foldl_mergeEntry (merge : Option V → W → Option V) (entries : List (K × W))
    (hnodup : (entries.map Prod.fst).Nodup) (m : JsMap K V) (key : K) :
    (entries.foldl (mergeEntry merge) m).get key =
      mergedValue merge (m.get key) (lookup entries key) := by
  induction entries generalizing m with
  | nil => rfl
  | cons entry rest ih =>
      obtain ⟨k, w⟩ := entry
      simp only [List.map_cons, List.nodup_cons] at hnodup
      rw [List.foldl_cons, ih hnodup.2, get_mergeEntry, lookup_cons]
      by_cases hkey : key = k
      · subst hkey
        have hnone : lookup rest key = none := by
          cases hlookup : lookup rest key with
          | none => rfl
          | some v =>
              exact absurd (List.mem_map.mpr ⟨_, (lookup_eq_some_iff hnodup.2 key v).mp hlookup, rfl⟩)
                hnodup.1
        simp [hnone, mergedValue]
      · simp [hkey, mergedValue]

/-- Merging `other` into `m`, entry by entry. -/
def mergeWith (merge : Option V → W → Option V) (m : JsMap K V) (other : JsMap K W) : JsMap K V :=
  other.entries.foldl (mergeEntry merge) m

theorem get_mergeWith (merge : Option V → W → Option V) (m : JsMap K V) (other : JsMap K W)
    (key : K) :
    (mergeWith merge m other).get key = mergedValue merge (m.get key) (other.get key) :=
  get_foldl_mergeEntry merge other.entries other.nodup m key

theorem get_ofEntries_of_nodup (entries : List (K × V)) (hnodup : (entries.map Prod.fst).Nodup)
    (key : K) : (ofEntries entries).get key = lookup entries key := by
  have hfold := get_foldl_mergeEntry (V := V) (fun _ value => some value) entries hnodup empty key
  have hstep : (fun (m : JsMap K V) (entry : K × V) => m.set entry.1 entry.2) =
      mergeEntry fun _ value => some value := rfl
  rw [ofEntries, hstep, hfold]
  cases lookup entries key <;> rfl

theorem get_foldl_set (entries : List (K × V)) (m : JsMap K V) (key : K) :
    (entries.foldl (fun m entry => m.set entry.1 entry.2) m).get key =
      ((ofEntries entries).get key).or (m.get key) := by
  induction entries generalizing m with
  | nil => rfl
  | cons entry rest ih =>
      rw [ofEntries, List.foldl_cons, List.foldl_cons, ih, ih (empty.set entry.1 entry.2), get_set,
        get_set, get_empty]
      cases (ofEntries rest).get key with
      | some value => rfl
      | none => by_cases h : key = entry.1 <;> simp [h]

theorem mem_of_get_ofEntries {entries : List (K × V)} {key : K} {value : V}
    (h : (ofEntries entries).get key = some value) : (key, value) ∈ entries := by
  induction entries with
  | nil => cases h
  | cons entry rest ih =>
      rw [ofEntries, List.foldl_cons, get_foldl_set, get_set] at h
      cases hrest : (ofEntries rest).get key with
      | some found =>
          rw [hrest, Option.some_or, Option.some.injEq] at h
          subst h
          exact List.mem_cons_of_mem _ (ih hrest)
      | none =>
          rw [hrest, Option.none_or] at h
          split at h
          · rename_i hkey
            cases h
            subst hkey
            exact List.mem_cons_self ..
          · cases h

/-- Of two lists of entries the second one decides. -/
theorem get_ofEntries_append (entries entries' : List (K × V)) (key : K) :
    (ofEntries (entries ++ entries')).get key =
      ((ofEntries entries').get key).or ((ofEntries entries).get key) := by
  rw [ofEntries, List.foldl_append, get_foldl_set]
  rfl

/-- A map built from any rearrangement of the entries of a map reads the same. -/
theorem get_ofEntries_of_perm {m : JsMap K V} {entries : List (K × V)}
    (hperm : entries.Perm m.entries) (key : K) : (ofEntries entries).get key = m.get key := by
  have hnodup : (entries.map Prod.fst).Nodup := (hperm.map Prod.fst).nodup_iff.mpr m.nodup
  rw [get_ofEntries_of_nodup entries hnodup]
  apply Option.ext
  intro value
  rw [lookup_eq_some_iff hnodup, get_eq_some_iff, hperm.mem_iff]

/-! ### Maps filled from the entries of a map -/

section Collect

variable {N W : Type} [DecidableEq N]

/-- A map filled from the entries that are picked, when no two are picked under one name. -/
theorem get_collect_iff (m : JsMap K V) (pick : K × V → Option (N × W))
    (hpick : ∀ a ∈ m.entries, ∀ b ∈ m.entries, ∀ p q, pick a = some p → pick b = some q → p.1 = q.1 → a.1 = b.1)
    (name : N) (value : W) :
    (m.entries.foldl (fun acc entry => (pick entry).elim acc fun p => acc.set p.1 p.2) empty).get name =
        some value ↔
      ∃ key v, m.get key = some v ∧ pick (key, v) = some (name, value) := by
  have hfold : m.entries.foldl (fun (acc : JsMap N W) entry =>
      (pick entry).elim acc fun p => acc.set p.1 p.2) empty = ofEntries (m.entries.filterMap pick) := by
    rw [ofEntries, List.foldl_filterMap]
    congr 1
    funext acc entry
    cases pick entry <;> rfl
  have hnodup : ((m.entries.filterMap pick).map Prod.fst).Nodup := by
    have hkeys : m.entries.Pairwise fun a b => a.1 ≠ b.1 := List.pairwise_map.mp m.nodup
    refine List.pairwise_map.mpr (List.pairwise_filterMap.mpr (hkeys.imp_of_mem ?_))
    exact fun ha hb hne p hp q hq hsame => hne (hpick _ ha _ hb p q hp hq hsame)
  rw [hfold, get_ofEntries_of_nodup _ hnodup, lookup_eq_some_iff hnodup, List.mem_filterMap]
  simp only [Prod.exists, get_eq_some_iff]

/-- Maps in a map, filled from the entries that are picked. -/
theorem get_collectBags_iff {O : Type} [DecidableEq O] (m : JsMap K V) (pick : K × V → Option (O × N × W))
    (hpick : ∀ a ∈ m.entries, ∀ b ∈ m.entries, ∀ p q, pick a = some p → pick b = some q →
      (p.1, p.2.1) = (q.1, q.2.1) → a.1 = b.1) (outer : O) (name : N) (value : W) :
    (((m.entries.foldl (fun bags entry => (pick entry).elim bags fun p =>
      bags.set p.1 (((bags.get p.1).getD empty).set p.2.1 p.2.2)) empty).get outer).getD empty).get name =
        some value ↔
      ∃ key v, m.get key = some v ∧ pick (key, v) = some (outer, name, value) := by
  let flatten (p : O × N × W) : (O × N) × W := ((p.1, p.2.1), p.2.2)
  have hloop : ∀ (entries : List (K × V)) (bags : JsMap O (JsMap N W)) (flat : JsMap (O × N) W),
      (∀ o n, ((bags.get o).getD empty).get n = flat.get (o, n)) → ∀ o n,
      (((entries.foldl (fun bags entry => (pick entry).elim bags fun p =>
        bags.set p.1 (((bags.get p.1).getD empty).set p.2.1 p.2.2)) bags).get o).getD empty).get n =
      (entries.foldl (fun acc entry => ((pick entry).map flatten).elim acc fun p => acc.set p.1 p.2) flat).get
        (o, n) := by
    intro entries
    induction entries with
    | nil => exact fun _ _ h => h
    | cons entry rest ih =>
        intro bags flat h
        rw [List.foldl_cons, List.foldl_cons]
        refine ih _ _ fun o n => ?_
        cases hp : pick entry with
        | none => exact h o n
        | some p =>
            simp only [Option.map_some, Option.elim_some, flatten, get_set, Prod.mk.injEq]
            by_cases ho : o = p.1
            · subst ho
              by_cases hn : n = p.2.1
              · simp [hn]
              · simp [hn, get_set, h]
            · simp [ho, h]
  rw [hloop m.entries empty empty (fun _ _ => rfl), get_collect_iff m (fun entry => (pick entry).map flatten)]
  · refine exists_congr fun key => exists_congr fun v => and_congr_right fun _ => ?_
    cases pick (key, v) with
    | none => simp
    | some p =>
        obtain ⟨o, n, w⟩ := p
        simp [flatten, and_assoc]
  · intro a ha b hb p q hp hq hsame
    obtain ⟨p', hp', rfl⟩ := Option.map_eq_some_iff.mp hp
    obtain ⟨q', hq', rfl⟩ := Option.map_eq_some_iff.mp hq
    exact hpick a ha b hb p' q' hp' hq' hsame

end Collect

end JsMap

/-- A `Set`: its elements in insertion order, none twice. -/
structure JsSet (α : Type) where
  elems : List α
  nodup : elems.Nodup
  deriving DecidableEq

namespace JsSet

variable {α : Type}

def empty : JsSet α := ⟨[], List.nodup_nil⟩

instance : Inhabited (JsSet α) := ⟨empty⟩

instance : Membership α (JsSet α) := ⟨fun s x => x ∈ s.elems⟩

theorem mem_def (s : JsSet α) (x : α) : x ∈ s ↔ x ∈ s.elems := Iff.rfl

@[simp] theorem mem_elems (s : JsSet α) (x : α) : x ∈ s.elems ↔ x ∈ s := Iff.rfl

@[simp] theorem not_mem_empty (x : α) : x ∉ (empty : JsSet α) := List.not_mem_nil

def size (s : JsSet α) : Nat := s.elems.length

theorem size_eq_zero_iff (s : JsSet α) : s.size = 0 ↔ ∀ x, x ∉ s := by
  simp [size, -mem_elems, mem_def, List.eq_nil_iff_forall_not_mem]

variable [DecidableEq α]

instance (x : α) (s : JsSet α) : Decidable (x ∈ s) := inferInstanceAs (Decidable (x ∈ s.elems))

def has (s : JsSet α) (x : α) : Bool := decide (x ∈ s)

def add (s : JsSet α) (x : α) : JsSet α :=
  if h : x ∈ s.elems then s
  else ⟨s.elems ++ [x], s.nodup.append (List.nodup_singleton x) (by simpa using h)⟩

def delete (s : JsSet α) (x : α) : JsSet α :=
  ⟨s.elems.filter fun y => y ≠ x, s.nodup.filter _⟩

/-- The loop `for (const x of xs) s.add(x)`. -/
def addAll (s : JsSet α) (xs : List α) : JsSet α := xs.foldl add s

/-- `new Set(xs)`. -/
def ofList (xs : List α) : JsSet α := empty.addAll xs

/-- `new Set([...s].filter(p))`. -/
def filter (p : α → Bool) (s : JsSet α) : JsSet α := ⟨s.elems.filter p, s.nodup.filter p⟩

@[simp] theorem has_iff (s : JsSet α) (x : α) : s.has x = true ↔ x ∈ s := decide_eq_true_iff

@[simp] theorem has_eq_false_iff (s : JsSet α) (x : α) : s.has x = false ↔ x ∉ s := by
  rw [← Bool.not_eq_true, has_iff]

@[simp] theorem mem_add (s : JsSet α) (x y : α) : y ∈ s.add x ↔ y = x ∨ y ∈ s := by
  simp only [mem_def, add]
  split
  · rename_i h
    constructor
    · exact Or.inr
    · rintro (rfl | hy)
      · exact h
      · exact hy
  · simp [or_comm]

theorem elems_add {s : JsSet α} {x : α} (h : x ∉ s) : (s.add x).elems = s.elems ++ [x] := by
  rw [mem_def] at h
  rw [add, dif_neg h]

@[simp] theorem mem_delete (s : JsSet α) (x y : α) : y ∈ s.delete x ↔ y ∈ s ∧ y ≠ x := by
  simp [-mem_elems, mem_def, delete]

omit [DecidableEq α] in
@[simp] theorem mem_filter (p : α → Bool) (s : JsSet α) (y : α) :
    y ∈ s.filter p ↔ y ∈ s ∧ p y = true := by
  simp [-mem_elems, mem_def, filter]

@[simp] theorem mem_addAll (s : JsSet α) (xs : List α) (y : α) :
    y ∈ s.addAll xs ↔ y ∈ s ∨ y ∈ xs := by
  unfold addAll
  induction xs generalizing s with
  | nil => simp
  | cons x xs ih =>
      rw [List.foldl_cons, ih, mem_add, List.mem_cons]
      tauto

@[simp] theorem mem_ofList (xs : List α) (y : α) : y ∈ ofList xs ↔ y ∈ xs := by
  simp [ofList]

theorem ofList_append (xs ys : List α) : ofList (xs ++ ys) = (ofList xs).addAll ys := List.foldl_append

theorem elems_addAll {s : JsSet α} {xs : List α} (h : (s.elems ++ xs).Nodup) : (s.addAll xs).elems = s.elems ++ xs := by
  unfold addAll
  induction xs generalizing s with
  | nil => exact (List.append_nil _).symm
  | cons x rest ih =>
      have hnew : x ∉ s := fun hx => (List.nodup_append.mp h).2.2 x hx x List.mem_cons_self rfl
      have helems := elems_add hnew
      rw [List.append_cons, ← helems] at h
      rw [List.foldl_cons, ih h, helems, List.append_assoc]
      rfl

theorem ofList_elems (s : JsSet α) : ofList s.elems = s := by
  have helems : (ofList s.elems).elems = s.elems := elems_addAll (s := empty) s.nodup
  cases hs : ofList s.elems
  cases s
  rw [hs] at helems
  congr

theorem prefix_addAll (s : JsSet α) (xs : List α) : s.elems <+: (s.addAll xs).elems := by
  unfold addAll
  induction xs generalizing s with
  | nil => exact List.prefix_refl _
  | cons x rest ih =>
      refine List.IsPrefix.trans ?_ (ih (s.add x))
      rw [add]
      split
      · exact List.prefix_refl _
      · exact List.prefix_append _ _

end JsSet

end GitWarp
