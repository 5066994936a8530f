import GitWarp.LibraryJsMap

/-! A bounded cache over the insertion order of a `Map`: what exceeds the bound is the oldest entry. -/

namespace GitWarp

structure LruCache (K V : Type) where
  maxSize : Nat
  cache : JsMap K V

namespace LruCache

variable {K V : Type} [DecidableEq K]

def new (maxSize : Nat) : LruCache K V := ⟨maxSize, JsMap.empty⟩

def has (c : LruCache K V) (key : K) : Bool := c.cache.has key

/-- A key that is found comes last: it is deleted and set again. -/
def get (c : LruCache K V) (key : K) : Option V × LruCache K V :=
  match c.cache.get key with
  | none => (none, c)
  | some value => (some value, { c with cache := (c.cache.delete key).set key value })

/-- The map without its first entry. -/
def deleteOldest (m : JsMap K V) : JsMap K V :=
  match m.keys.head? with
  | some oldestKey => m.delete oldestKey
  | none => m

def set (c : LruCache K V) (key : K) (value : V) : LruCache K V :=
  let cache := if c.cache.has key then c.cache.delete key else c.cache
  let cache := cache.set key value
  { c with cache := if cache.size > c.maxSize then deleteOldest cache else cache }

def delete (c : LruCache K V) (key : K) : Bool × LruCache K V :=
  (c.cache.has key, { c with cache := c.cache.delete key })

def clear (c : LruCache K V) : LruCache K V := { c with cache := JsMap.empty }

theorem has_iff (c : LruCache K V) (key : K) : c.has key = true ↔ key ∈ c.cache.keys :=
  c.cache.has_iff_mem_keys key

@[simp] theorem maxSize_set (c : LruCache K V) (key : K) (value : V) : (c.set key value).maxSize = c.maxSize := rfl

theorem entries_deleteOldest (m : JsMap K V) : (deleteOldest m).entries = m.entries.tail := by
  obtain ⟨entries, hnodup⟩ := m
  cases entries with
  | nil => rfl
  | cons entry rest =>
      rw [List.map_cons, List.nodup_cons] at hnodup
      have hkept : ∀ other ∈ rest, decide (other.1 ≠ entry.1) = true := by
        intro other hother
        rw [decide_eq_true_eq]
        intro heq
        exact hnodup.1 (heq ▸ List.mem_map_of_mem hother)
      change ((entry :: rest).filter fun other => decide (other.1 ≠ entry.1)) = rest
      rw [List.filter_cons_of_neg (by simp), List.filter_eq_self.mpr hkept]

/-- A new entry comes last, and the first one leaves where the bound is exceeded. -/
theorem entries_set {c : LruCache K V} {key : K} (h : c.cache.get key = none) (value : V) :
    (c.set key value).cache.entries =
      if c.cache.entries.length + 1 > c.maxSize then (c.cache.entries ++ [(key, value)]).tail
      else c.cache.entries ++ [(key, value)] := by
  have hentries := JsMap.entries_set_of_get_none h value
  have hsize : (c.cache.set key value).size = c.cache.entries.length + 1 := by
    rw [JsMap.size, hentries, List.length_append, List.length_singleton]
  have hfalse : c.cache.has key = false := by rw [JsMap.has, h, Option.isSome_none]
  simp only [set, hfalse, Bool.false_eq_true, if_false, hsize]
  split
  · rw [entries_deleteOldest, hentries]
  · exact hentries

theorem keys_set {c : LruCache K V} {key : K} (h : c.has key = false) (value : V) :
    (c.set key value).cache.keys =
      if c.cache.keys.length + 1 > c.maxSize then (c.cache.keys ++ [key]).tail else c.cache.keys ++ [key] := by
  have hnone : c.cache.get key = none := by
    rw [has, JsMap.has, Option.isSome_eq_false_iff, Option.isNone_iff_eq_none] at h
    exact h
  rw [JsMap.keys, entries_set hnone, JsMap.keys, List.length_map]
  split
  · rw [List.map_tail, List.map_append]
    rfl
  · rw [List.map_append]
    rfl

/-- A key that is deleted where it is there and set comes last. -/
theorem entries_deleteSet (m : JsMap K V) (key : K) (value : V) :
    ((if m.has key then m.delete key else m).set key value).entries =
      (m.entries.filter fun entry => entry.1 ≠ key) ++ [(key, value)] := by
  cases hhas : m.has key with
  | true =>
      rw [if_pos rfl]
      refine JsMap.entries_set_of_get_none ?_ value
      rw [JsMap.get_delete, if_pos rfl]
  | false =>
      have hnone : m.get key = none := Option.not_isSome_iff_eq_none.mp (ne_true_of_eq_false hhas)
      rw [if_neg Bool.false_ne_true, JsMap.entries_set_of_get_none hnone value]
      congr 1
      refine (List.filter_eq_self.mpr fun entry hentry => ?_).symm
      rw [decide_eq_true_eq]
      intro hkey
      have hget := (JsMap.get_eq_some_iff m entry.1 entry.2).mpr hentry
      rw [hkey, hnone] at hget
      cases hget

/-- An entry that is found moves to the end. -/
theorem entries_get {c : LruCache K V} {key : K} {value : V} (h : c.cache.get key = some value) :
    (c.get key).2.cache.entries = (c.cache.entries.filter fun entry => entry.1 ≠ key) ++ [(key, value)] := by
  have hnone : (c.cache.delete key).get key = none := by rw [JsMap.get_delete, if_pos rfl]
  rw [get, h]
  exact JsMap.entries_set_of_get_none hnone value

/-- The cache holds the last keys of a log, as many as its bound allows. -/
def HoldsLast (c : LruCache K V) (log : List K) : Prop := c.cache.keys = log.drop (log.length - c.maxSize)

omit [DecidableEq K] in
theorem holdsLast_new (maxSize : Nat) : (new maxSize : LruCache K V).HoldsLast [] := List.drop_nil.symm

theorem HoldsLast.set {c : LruCache K V} {log : List K} (h : c.HoldsLast log) {key : K} (hkey : c.has key = false)
    (value : V) : (c.set key value).HoldsLast (log ++ [key]) := by
  unfold HoldsLast at h ⊢
  have hlength : c.cache.keys.length = log.length - (log.length - c.maxSize) := by
    rw [h, List.length_drop]
  rw [keys_set hkey, maxSize_set, List.length_append, List.length_singleton]
  split
  · rename_i hfull
    have hbound : log.length + 1 - c.maxSize = log.length - c.maxSize + 1 := by omega
    have hcut : log.length - c.maxSize ≤ log.length := Nat.sub_le _ _
    rw [h, hbound, ← List.drop_append_of_le_length hcut, List.tail_drop]
  · rename_i hroom
    have hall : log.length + 1 - c.maxSize = 0 := by omega
    have hall' : log.length - c.maxSize = 0 := by omega
    rw [h, hall, hall', List.drop_zero, List.drop_zero]

/-- A key that is not among those last ones has left the cache. -/
theorem HoldsLast.has_eq_false {c : LruCache K V} {log : List K} (h : c.HoldsLast log) {key : K}
    (hkey : key ∉ log.drop (log.length - c.maxSize)) : c.has key = false := by
  rw [Bool.eq_false_iff, ne_eq, has_iff, h]
  exact hkey

end LruCache

end GitWarp
