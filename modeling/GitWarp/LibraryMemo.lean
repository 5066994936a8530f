import GitWarp.LibraryLruCache
import Mathlib.Data.List.Dedup

/-! A memoized function over a bounded cache: it is the function itself exactly where calls that share a key share an answer. -/

namespace GitWarp
namespace Memo

section Recency

variable {K V : Type} [DecidableEq K]

/-- The last entry of each key of a log, in the order of the log. -/
def recency : List (K × V) → List (K × V)
  | [] => []
  | entry :: later => if entry.1 ∈ later.map Prod.fst then recency later else entry :: recency later

theorem keys_recency (log : List (K × V)) : (recency log).map Prod.fst = (log.map Prod.fst).dedup := by
  induction log with
  | nil => rfl
  | cons entry later ih =>
      rw [recency, List.map_cons]
      split
      · rename_i hmem
        rw [List.dedup_cons_of_mem hmem, ih]
      · rename_i hmem
        rw [List.dedup_cons_of_notMem hmem, List.map_cons, ih]

theorem nodup_recency (log : List (K × V)) : ((recency log).map Prod.fst).Nodup :=
  keys_recency log ▸ List.nodup_dedup _

theorem recency_append (log later : List (K × V)) :
    recency (log ++ later) = ((recency log).filter fun entry => entry.1 ∉ later.map Prod.fst) ++ recency later := by
  induction log with
  | nil => rfl
  | cons entry rest ih =>
      rw [List.cons_append, recency, recency, ih, List.map_append]
      by_cases hrest : entry.1 ∈ rest.map Prod.fst
      · rw [if_pos (List.mem_append_left _ hrest), if_pos hrest]
      · by_cases hlater : entry.1 ∈ later.map Prod.fst
        · rw [if_pos (List.mem_append_right _ hlater), if_neg hrest, List.filter_cons_of_neg (by simpa using hlater)]
        · rw [if_neg (List.not_mem_append hrest hlater), if_neg hrest, List.filter_cons_of_pos (by simpa using hlater),
            List.cons_append]

theorem recency_concat (log : List (K × V)) (key : K) (value : V) :
    recency (log ++ [(key, value)]) = ((recency log).filter fun entry => entry.1 ≠ key) ++ [(key, value)] := by
  rw [recency_append]
  congr 1
  apply List.filter_congr
  intro entry _
  simp

/-- What is recent is the last entry of its key. -/
theorem mem_recency_iff {log : List (K × V)} {key : K} {value : V} :
    (key, value) ∈ recency log ↔ ∃ before after, log = before ++ (key, value) :: after ∧ key ∉ after.map Prod.fst := by
  constructor
  · intro h
    induction log with
    | nil => cases h
    | cons entry later ih =>
        rw [recency] at h
        have hlater : (key, value) ∈ recency later →
            ∃ before after, entry :: later = before ++ (key, value) :: after ∧ key ∉ after.map Prod.fst := by
          intro hmem
          obtain ⟨before, after, heq, hnew⟩ := ih hmem
          exact ⟨entry :: before, after, heq ▸ rfl, hnew⟩
        split at h
        · exact hlater h
        · rename_i hnew
          rcases List.mem_cons.mp h with rfl | h
          · exact ⟨[], later, rfl, hnew⟩
          · exact hlater h
  · intro h
    obtain ⟨before, after, rfl, hnew⟩ := h
    rw [recency_append, recency, if_neg hnew]
    exact List.mem_append_right _ List.mem_cons_self

/-- The last entries of a log, one for each key, as many as the bound allows. -/
def lastEntries (maxSize : Nat) (log : List (K × V)) : List (K × V) :=
  (recency log).drop ((recency log).length - maxSize)

theorem mem_drop_iff {α : Type} {front back : List α} {x : α} (hnodup : (front ++ x :: back).Nodup) (n : Nat) :
    x ∈ (front ++ x :: back).drop n ↔ n ≤ front.length := by
  rw [List.drop_append]
  by_cases hle : n ≤ front.length
  · rw [Nat.sub_eq_zero_of_le hle, List.drop_zero]
    exact iff_of_true (List.mem_append_right _ List.mem_cons_self) hle
  · obtain ⟨-, hback, hapart⟩ := List.nodup_append.mp hnodup
    refine iff_of_false (fun h => ?_) hle
    obtain ⟨k, hk⟩ : ∃ k, n - front.length = k + 1 := ⟨n - front.length - 1, by omega⟩
    rw [hk, List.drop_succ_cons] at h
    rcases List.mem_append.mp h with h | h
    · exact hapart x (List.mem_of_mem_drop h) x List.mem_cons_self rfl
    · exact (List.nodup_cons.mp hback).1 (List.mem_of_mem_drop h)

/-- An entry is still there where fewer other keys than the bound follow it. -/
theorem mem_lastEntries_iff {maxSize : Nat} {log : List (K × V)} {key : K} {value : V} :
    (key, value) ∈ lastEntries maxSize log ↔ ∃ before after, log = before ++ (key, value) :: after ∧
      key ∉ after.map Prod.fst ∧ (after.map Prod.fst).dedup.length < maxSize := by
  have hbound : ∀ before after, log = before ++ (key, value) :: after → key ∉ after.map Prod.fst →
      ((key, value) ∈ lastEntries maxSize log ↔ (after.map Prod.fst).dedup.length < maxSize) := by
    intro before after hlog hnew
    have hrecency := recency_append before ((key, value) :: after)
    rw [recency, if_neg hnew, ← hlog] at hrecency
    have hnodup := (nodup_recency log).of_map _
    rw [hrecency] at hnodup
    rw [lastEntries, hrecency, mem_drop_iff hnodup, ← keys_recency, List.length_map, List.length_append, List.length_cons]
    omega
  constructor
  · intro h
    obtain ⟨before, after, hlog, hnew⟩ := mem_recency_iff.mp (List.mem_of_mem_drop h)
    exact ⟨before, after, hlog, hnew, (hbound before after hlog hnew).mp h⟩
  · intro h
    obtain ⟨before, after, hlog, hnew, hfew⟩ := h
    exact (hbound before after hlog hnew).mpr hfew

/-- The cache in the middle of a run holds the last entries of the log. -/
structure Holds (c : LruCache K V) (maxSize : Nat) (log : List (K × V)) : Prop where
  maxSize_eq : c.maxSize = maxSize
  entries : c.cache.entries = lastEntries maxSize log

theorem Holds.new (maxSize : Nat) : Holds (LruCache.new maxSize : LruCache K V) maxSize [] :=
  ⟨rfl, List.drop_nil.symm⟩

theorem Holds.get_iff {c : LruCache K V} {maxSize : Nat} {log : List (K × V)} (h : Holds c maxSize log) {key : K}
    {value : V} : c.cache.get key = some value ↔ ∃ before after, log = before ++ (key, value) :: after ∧
      key ∉ after.map Prod.fst ∧ (after.map Prod.fst).dedup.length < maxSize := by
  rw [JsMap.get_eq_some_iff, h.entries, mem_lastEntries_iff]

theorem filter_ne_of_notMem {entries : List (K × V)} {key : K} (h : key ∉ entries.map Prod.fst) :
    (entries.filter fun entry => entry.1 ≠ key) = entries := by
  apply List.filter_eq_self.mpr
  intro entry hentry
  rw [decide_eq_true_eq]
  intro heq
  exact h (heq ▸ List.mem_map_of_mem hentry)

theorem length_filter_ne {entries : List (K × V)} (hnodup : (entries.map Prod.fst).Nodup) {key : K}
    (h : key ∈ entries.map Prod.fst) : (entries.filter fun entry => entry.1 ≠ key).length + 1 = entries.length := by
  induction entries with
  | nil => cases h
  | cons entry rest ih =>
      obtain ⟨hnew, hrest⟩ := List.nodup_cons.mp hnodup
      by_cases heq : entry.1 = key
      · rw [List.filter_cons_of_neg (by simpa using heq), filter_ne_of_notMem (heq ▸ hnew), List.length_cons]
      · rw [List.filter_cons_of_pos (by simpa using heq), List.length_cons, List.length_cons,
          ih hrest ((List.mem_cons.mp h).resolve_left fun hkey => heq hkey.symm)]

/-- The log splits into what has left the cache and what is in it. -/
theorem exists_split (maxSize : Nat) (log : List (K × V)) :
    ∃ front, recency log = front ++ lastEntries maxSize log ∧ front.length = (recency log).length - maxSize ∧
      ((front ++ lastEntries maxSize log).map Prod.fst).Nodup := by
  have hsplit := List.take_append_drop ((recency log).length - maxSize) (recency log)
  refine ⟨_, hsplit.symm, ?_, ?_⟩
  · rw [List.length_take]
    omega
  · rw [lastEntries, hsplit]
    exact nodup_recency log

/-- A key that is found again moves to the end of the log. -/
theorem Holds.get {c : LruCache K V} {maxSize : Nat} {log : List (K × V)} (h : Holds c maxSize log) {key : K} {value : V}
    (hget : c.cache.get key = some value) : Holds (c.get key).2 maxSize (log ++ [(key, value)]) := by
  refine ⟨?_, ?_⟩
  · rw [LruCache.get, hget]
    exact h.maxSize_eq
  · have hmem : (key, value) ∈ lastEntries maxSize log := h.entries ▸ (c.cache.get_eq_some_iff key value).mp hget
    obtain ⟨front, hsplit, hlength, hnodup⟩ := exists_split maxSize log
    have hkeys := nodup_recency log
    rw [List.map_append, List.nodup_append] at hnodup
    have hfront : key ∉ front.map Prod.fst := fun hkey => hnodup.2.2 key hkey key (List.mem_map_of_mem hmem) rfl
    have hin : key ∈ (recency log).map Prod.fst := by
      rw [hsplit]
      exact List.mem_map_of_mem (List.mem_append_right _ hmem)
    have hfewer := length_filter_ne hkeys hin
    rw [LruCache.entries_get hget, h.entries, lastEntries.eq_1 maxSize (log ++ _), recency_concat, List.length_append,
      List.length_singleton, hfewer, ← hlength, hsplit, List.filter_append, filter_ne_of_notMem hfront, List.append_assoc,
      List.drop_left]

/-- A key that is new to the cache comes last, and pushes the oldest entry out where the cache is full. -/
theorem Holds.set {c : LruCache K V} {maxSize : Nat} {log : List (K × V)} (h : Holds c maxSize log) {key : K} (value : V)
    (hget : c.cache.get key = none) : Holds (c.set key value) maxSize (log ++ [(key, value)]) := by
  refine ⟨h.maxSize_eq, ?_⟩
  obtain ⟨front, hsplit, hlength, hnodup⟩ := exists_split maxSize log
  have hback : key ∉ (lastEntries maxSize log).map Prod.fst := by
    intro hkey
    obtain ⟨⟨_, other⟩, hentry, rfl⟩ := List.mem_map.mp hkey
    have hsome := (c.cache.get_eq_some_iff _ other).mpr (h.entries ▸ hentry)
    cases hget.symm.trans hsome
  have htotal : (recency log).length = front.length + (lastEntries maxSize log).length := by
    rw [hsplit, List.length_append]
  rw [LruCache.entries_set hget, h.entries, h.maxSize_eq, lastEntries.eq_1 maxSize (log ++ _), recency_concat]
  by_cases hfront : key ∈ front.map Prod.fst
  · have hfewer := length_filter_ne (List.nodup_append.mp (List.map_append ▸ hnodup)).1 hfront
    have hsome : 0 < front.length := by omega
    rw [hsplit, List.filter_append, filter_ne_of_notMem hback, List.append_assoc, if_pos (by omega)]
    generalize (front.filter fun entry => entry.1 ≠ key) = kept at hfewer ⊢
    have hcut : (kept ++ (lastEntries maxSize log ++ [(key, value)])).length - maxSize = kept.length + 1 := by
      simp only [List.length_append, List.length_singleton]
      omega
    rw [hcut, ← List.drop_drop, List.drop_left, List.drop_one]
  · have hall : key ∉ (recency log).map Prod.fst := by
      rw [hsplit, List.map_append]
      exact List.not_mem_append hfront hback
    rw [filter_ne_of_notMem hall, List.length_append, List.length_singleton]
    by_cases hfull : (lastEntries maxSize log).length + 1 > maxSize
    · have hcut : (recency log).length + 1 - maxSize = front.length + 1 := by omega
      rw [if_pos hfull, hcut, hsplit, List.append_assoc, ← List.drop_drop, List.drop_left, List.drop_one]
    · rw [if_neg hfull, show (recency log).length + 1 - maxSize = 0 by omega, List.drop_zero, hsplit,
        List.length_eq_zero_iff.mp (show front.length = 0 by omega), List.nil_append]

end Recency

section Calls

variable {Q K V E : Type} [DecidableEq K] (key : Q → K) (answer : Q → Except E V)

/-- A call that finds its key in the cache returns what is there. Failures are not kept. -/
def call (c : LruCache K V) (q : Q) : Except E V × LruCache K V :=
  match c.get (key q) with
  | (some value, c) => (.ok value, c)
  | (none, c) =>
      match answer q with
      | .ok value => (.ok value, c.set (key q) value)
      | .error err => (.error err, c)

/-- What a sequence of calls returns. -/
def results : LruCache K V → List Q → List (Except E V)
  | _, [] => []
  | c, q :: rest => (call key answer c q).1 :: results (call key answer c q).2 rest

def logEntry (q : Q) : Option (K × V) :=
  match answer q with
  | .ok value => some (key q, value)
  | .error _ => none

/-- The keys of the calls of a sequence that succeed. -/
def answeredKeys (qs : List Q) : List K := (qs.filterMap (logEntry key answer)).map Prod.fst

/-- Two calls share a key, none between them that succeeds has it, and fewer other keys than the bound occur between them. -/
structure Recalls (maxSize : Nat) (earlier : Q) (between : List Q) (later : Q) : Prop where
  key_eq : key earlier = key later
  fresh : key later ∉ answeredKeys key answer between
  few : (answeredKeys key answer between).dedup.length < maxSize

/-- Calls that share a key while it is in the cache share their answer. -/
def Consistent (maxSize : Nat) (qs : List Q) : Prop :=
  ∀ before earlier between later after, qs = before ++ earlier :: between ++ later :: after →
    Recalls key answer maxSize earlier between later → ∀ value, answer earlier = .ok value → answer later = .ok value

variable {key answer} {maxSize : Nat}

omit [DecidableEq K] in
theorem logEntry_eq_some_iff {q : Q} {entry : K × V} :
    logEntry key answer q = some entry ↔ entry.1 = key q ∧ answer q = .ok entry.2 := by
  obtain ⟨k, v⟩ := entry
  unfold logEntry
  cases answer q with
  | error err => simp
  | ok value => simp [eq_comm]

/-- What the cache knows of a key is the answer of the last call that recalls. -/
theorem get_iff_of_holds {c : LruCache K V} {qs : List Q}
    (h : Holds c maxSize (qs.filterMap (logEntry key answer))) {later : Q} {value : V} :
    c.cache.get (key later) = some value ↔ ∃ before earlier between, qs = before ++ earlier :: between ∧
      Recalls key answer maxSize earlier between later ∧ answer earlier = .ok value := by
  rw [h.get_iff]
  constructor
  · intro hmem
    obtain ⟨before, after, hlog, hfresh, hfew⟩ := hmem
    obtain ⟨front, rest, rfl, -, hrest⟩ := List.filterMap_eq_append_iff.mp hlog
    obtain ⟨skipped, earlier, between, rfl, -, hentry, rfl⟩ := List.filterMap_eq_cons_iff.mp hrest
    obtain ⟨hkey, hvalue⟩ := logEntry_eq_some_iff.mp hentry
    exact ⟨front ++ skipped, earlier, between, (List.append_assoc ..).symm, ⟨hkey.symm, hfresh, hfew⟩, hvalue⟩
  · intro hcall
    obtain ⟨before, earlier, between, rfl, hrecalls, hvalue⟩ := hcall
    refine ⟨before.filterMap (logEntry key answer), between.filterMap (logEntry key answer), ?_, hrecalls.fresh, hrecalls.few⟩
    have hentry : logEntry key answer earlier = some (key later, value) :=
      logEntry_eq_some_iff.mpr ⟨hrecalls.key_eq.symm, hvalue⟩
    rw [List.filterMap_append, List.filterMap_cons_some hentry]

/-- A call returns its answer exactly where the cache knows no other one for its key, and the cache holds it afterwards. -/
theorem call_spec {c : LruCache K V} {qs : List Q} (h : Holds c maxSize (qs.filterMap (logEntry key answer))) (q : Q) :
    ((call key answer c q).1 = answer q ↔ ∀ value, c.cache.get (key q) = some value → answer q = .ok value) ∧
      ((call key answer c q).1 = answer q →
        Holds (call key answer c q).2 maxSize ((qs ++ [q]).filterMap (logEntry key answer))) := by
  rw [List.filterMap_append]
  unfold call
  cases hget : c.cache.get (key q) with
  | some known =>
      have hfound : c.get (key q) = (some known, (c.get (key q)).2) := by rw [LruCache.get, hget]
      rw [hfound]
      dsimp only
      constructor
      · constructor
        · intro hanswer value hvalue
          cases hvalue
          exact hanswer.symm
        · exact fun hall => (hall known rfl).symm
      · intro hanswer
        have hentry : logEntry key answer q = some (key q, known) := logEntry_eq_some_iff.mpr ⟨rfl, hanswer.symm⟩
        rw [List.filterMap_cons_some hentry]
        exact h.get hget
  | none =>
      have hmissed : c.get (key q) = (none, c) := by rw [LruCache.get, hget]
      have hnever : ∀ {P : V → Prop} (value : V), (none : Option V) = some value → P value := by
        intro P value hvalue
        cases hvalue
      rw [hmissed]
      dsimp only
      cases hanswer : answer q with
      | error err =>
          have hentry : logEntry key answer q = none := by rw [logEntry, hanswer]
          rw [List.filterMap_cons_none hentry, List.filterMap_nil, List.append_nil]
          exact ⟨iff_of_true rfl hnever, fun _ => h⟩
      | ok value =>
          have hentry : logEntry key answer q = some (key q, value) := logEntry_eq_some_iff.mpr ⟨rfl, hanswer⟩
          rw [List.filterMap_cons_some hentry]
          exact ⟨iff_of_true rfl hnever, fun _ => h.set value hget⟩

/-- The last call of a sequence has nothing else to recall. -/
def LastConsistent (key : Q → K) (answer : Q → Except E V) (maxSize : Nat) (qs : List Q) (later : Q) : Prop :=
  ∀ before earlier between, qs = before ++ earlier :: between → Recalls key answer maxSize earlier between later →
    ∀ value, answer earlier = .ok value → answer later = .ok value

theorem call_eq_iff {c : LruCache K V} {qs : List Q} (h : Holds c maxSize (qs.filterMap (logEntry key answer))) (q : Q) :
    (call key answer c q).1 = answer q ↔ LastConsistent key answer maxSize qs q := by
  rw [(call_spec h q).1]
  constructor
  · intro hknown before earlier between hqs hrecalls value hvalue
    exact hknown value ((get_iff_of_holds h).mpr ⟨before, earlier, between, hqs, hrecalls, hvalue⟩)
  · intro hlast value hget
    obtain ⟨before, earlier, between, hqs, hrecalls, hvalue⟩ := (get_iff_of_holds h).mp hget
    exact hlast before earlier between hqs hrecalls value hvalue

theorem results_eq_iff {c : LruCache K V} {qs : List Q} (h : Holds c maxSize (qs.filterMap (logEntry key answer)))
    (rest : List Q) : results key answer c rest = rest.map answer ↔
      ∀ middle later after, rest = middle ++ later :: after → LastConsistent key answer maxSize (qs ++ middle) later := by
  induction rest generalizing c qs with
  | nil => exact iff_of_true rfl fun middle later after h => absurd h.symm (by simp)
  | cons q rest ih =>
      rw [results, List.map_cons, List.cons.injEq, call_eq_iff h]
      have hnext : LastConsistent key answer maxSize qs q → (results key answer (call key answer c q).2 rest =
          rest.map answer ↔ ∀ middle later after, rest = middle ++ later :: after →
            LastConsistent key answer maxSize (qs ++ [q] ++ middle) later) :=
        fun hlast => ih ((call_spec h q).2 ((call_eq_iff h q).mpr hlast))
      constructor
      · intro hboth middle later after hsplit
        cases middle with
        | nil =>
            cases hsplit
            rw [List.append_nil]
            exact hboth.1
        | cons head middle =>
            cases hsplit
            have hlater := (hnext hboth.1).mp hboth.2 middle later after rfl
            rwa [List.append_assoc] at hlater
      · intro hall
        have hfirst := hall [] q rest rfl
        rw [List.append_nil] at hfirst
        refine ⟨hfirst, (hnext hfirst).mpr fun middle later after hsplit => ?_⟩
        rw [List.append_assoc]
        exact hall (q :: middle) later after (hsplit ▸ rfl)

/-- A sequence of calls returns the answers exactly where the calls that recall another share its answer. -/
theorem results_new_eq_iff (qs : List Q) :
    results key answer (LruCache.new maxSize) qs = qs.map answer ↔ Consistent key answer maxSize qs := by
  have hnew : Holds (LruCache.new maxSize : LruCache K V) maxSize (([] : List Q).filterMap (logEntry key answer)) :=
    .new maxSize
  rw [results_eq_iff hnew]
  constructor
  · intro hall before earlier between later after hqs
    exact hall (before ++ earlier :: between) later after hqs before earlier between rfl
  · intro hall middle later after hqs before earlier between hmiddle hrecalls
    rw [List.nil_append] at hmiddle
    exact hall before earlier between later after (by rw [hqs, hmiddle]) hrecalls

end Calls

end Memo
end GitWarp
