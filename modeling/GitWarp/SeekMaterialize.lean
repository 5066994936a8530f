import GitWarp.BoundaryReplay
import GitWarp.CommitTicks
import GitWarp.SeekCacheRuns

/-! Reads at a ceiling that go through the cache of states. A read takes the tips of the writers and asks the cache;
without an answer it loads the patches of one writer after another, and the tips may move on meanwhile. What it has
replayed goes into the cache under the tips that it began with. -/

namespace GitWarp
open Js ExceptLoops

variable {V Buffer : Type}

/-- Where a read is. -/
inductive SeekReadPhase (V Buffer : Type) where
  /-- It waits for its `get`, the call of the cache with that number. -/
  | asking (call : Nat)
  /-- The buffer was unreadable; it waits for its `delete`. -/
  | removing (call : Nat)
  | loading (writerIds : List JsString) (allPatches : List (PatchEntry V))
  /-- `unsaved` is what the cache gets as soon as the index tree is written or has failed. -/
  | returned (state : WarpStateV5 V) (unsaved : Option Buffer)
  | threw

/-- What a read is of. -/
structure SeekTarget where
  ceiling : Int
  frontier : Frontier
  deriving DecidableEq

structure SeekPorts (V Buffer : Type) where
  codec : CodecPort (FullStateObject V) Buffer
  hash : JsString → JsString
  adapter : CasSeekCacheAdapter Buffer

/-- The repository, the cache and the reads so far. -/
structure SeekSystem (V Buffer : Type) where
  repo : Repository V
  cache : SeekWorld Buffer
  reads : List (SeekTarget × SeekReadPhase V Buffer)

def SeekTarget.key (target : SeekTarget) (hash : JsString → JsString) : JsString :=
  buildSeekCacheKey hash target.ceiling target.frontier

/-- What a call of the cache comes to, once it has; what it throws is caught and is a miss. -/
def SeekWorld.settled (cache : SeekWorld Buffer) (call : Nat) : Option (SeekResult Buffer) :=
  match cache.calls[call]? with
  | some (_, .returned result) => some result
  | some (_, .threw) => some .null
  | _ => none

/-- The next step of `_materializeWithCeiling`: what it asks the cache for, if anything, and where it is then. -/
def SeekTarget.resume (target : SeekTarget) (ports : SeekPorts V Buffer) (repo : Repository V) (cache : SeekWorld Buffer) :
    SeekReadPhase V Buffer → Option (SeekCall Buffer) × SeekReadPhase V Buffer
  | .asking call =>
      match cache.settled call with
      | none => (none, .asking call)
      | some (.found buffer _) =>
          match deserializeFullStateV5 ports.codec (some buffer) with
          | .ok state => (none, .returned state none)
          | .error _ => (some (.delete (target.key ports.hash)), .removing cache.calls.length)
      | some _ => (none, .loading target.frontier.keys [])
  | .removing call =>
      match cache.settled call with
      | none => (none, .removing call)
      | some _ => (none, .loading target.frontier.keys [])
  | .loading (writerId :: writerIds) allPatches =>
      let writerPatches := repo.loadWriterPatches writerId none
      (none, .loading writerIds (allPatches ++ writerPatches.filter fun entry => (entry.patch.lamport : Int) ≤ target.ceiling))
  | .loading [] allPatches =>
      if allPatches.isEmpty then (none, .returned createEmptyStateV5 none)
      else
        match reduceV5 allPatches with
        | .ok state => (none, .returned state (serializeFullStateV5 ports.codec state).toOption)
        | .error _ => (none, .threw)
  | phase => (none, phase)

namespace SeekSystem

def targets (system : SeekSystem V Buffer) : List SeekTarget := system.reads.map Prod.fst

/-- The steps of the reads and of the cache. -/
inductive Event where
  | materialize (ceiling : Int)
  | resume (i : Nat)
  | persist (i : Nat) (indexTreeOid : Option JsString)
  | act (call : Nat) (act : SeekAct)

def apply (ports : SeekPorts V Buffer) (system : SeekSystem V Buffer) : Event → SeekSystem V Buffer
  | .materialize ceiling =>
      let target : SeekTarget := ⟨ceiling, system.repo.getFrontier⟩
      if target.frontier.keys.isEmpty ∨ ceiling ≤ 0 then
        { system with reads := system.reads ++ [(target, .returned createEmptyStateV5 none)] }
      else
        { system with
          cache := system.cache.step ports.adapter (.call (.get (target.key ports.hash)))
          reads := system.reads ++ [(target, .asking system.cache.calls.length)] }
  | .resume i =>
      match system.reads[i]? with
      | none => system
      | some (target, phase) =>
          let next := target.resume ports system.repo system.cache phase
          { system with
            cache := next.1.elim system.cache fun call => system.cache.step ports.adapter (.call call)
            reads := system.reads.set i (target, next.2) }
  | .persist i indexTreeOid =>
      match system.reads[i]? with
      | some (target, .returned state (some buffer)) =>
          { system with
            cache := system.cache.step ports.adapter (.call (.set (target.key ports.hash) buffer indexTreeOid))
            reads := system.reads.set i (target, .returned state none) }
      | _ => system
  | .act call act => { system with cache := system.cache.step ports.adapter (.act call act) }

end SeekSystem

/-! ### Moving on -/

namespace Repository

/-- A later repository: new commits are written, and a writer's tip moves to one above it. -/
structure MovesOn (repo repo' : Repository V) : Prop where
  store : repo'.store.Extends repo.store
  refs : ∀ writerId tip, repo.refs.get writerId = some tip →
    ∃ tip', repo'.refs.get writerId = some tip' ∧ repo'.store.Reaches tip' tip

/-- Only refs with a valid writer id are found, and commits have hexadecimal names. -/
structure ReadableRefs (repo : Repository V) : Prop where
  writers : ∀ writerId tip, repo.refs.get writerId = some tip → validateWriterId writerId = .ok ()
  tips : ∀ writerId tip, repo.refs.get writerId = some tip → ∀ c ∈ tip, isHexDigit c = true

end Repository

/-- The system takes a step of its own, the writers move on, or someone else uses the cache without writing to it. -/
inductive SeekSystem.Step (ports : SeekPorts V Buffer) (system : SeekSystem V Buffer) : SeekSystem V Buffer → Prop
  | apply (event : SeekSystem.Event) : Step ports system (system.apply ports event)
  | moveOn {repo' : Repository V} (hmoves : system.repo.MovesOn repo') (hreadable : repo'.ReadableRefs) :
      Step ports system { system with repo := repo' }
  | call {call : SeekCall Buffer} (hcall : ∀ key buffer indexTreeOid, call ≠ .set key buffer indexTreeOid) :
      Step ports system { system with cache := system.cache.step ports.adapter (.call call) }

namespace ObjectStore

variable {store : ObjectStore V}

theorem Reaches.trans {tip sha older : Sha} (h : store.Reaches tip sha) (h' : store.Reaches sha older) :
    store.Reaches tip older := by
  induction h with
  | refl => exact h'
  | parent hget hparent _ ih => exact .parent hget hparent (ih h')

theorem Reaches.of_extends {store' : ObjectStore V} (hstore : store'.Extends store) {tip sha : Sha}
    (h : store.Reaches tip sha) : store'.Reaches tip sha := by
  induction h with
  | refl => exact .refl _
  | parent hget hparent _ ih => exact .parent (hstore.get hget) hparent ih

theorem Reaches.eq_or_rank_lt {tip sha : Sha} (h : store.Reaches tip sha) :
    tip = sha ∨ store.rank tip < store.rank sha := by
  induction h with
  | refl => exact Or.inl rfl
  | parent hget hparent _ ih =>
      have hlt := rank_lt_of_parent hget hparent
      rcases ih with rfl | hrank
      · exact Or.inr hlt
      · exact Or.inr (hlt.trans hrank)

theorem Reaches.antisymm {tip sha : Sha} (h : store.Reaches tip sha) (h' : store.Reaches sha tip) : tip = sha := by
  rcases h.eq_or_rank_lt with heq | hlt
  · exact heq
  · rcases h'.eq_or_rank_lt with heq | hlt'
    · exact heq.symm
    · omega

end ObjectStore

namespace Repository

theorem MovesOn.refl (repo : Repository V) : repo.MovesOn repo :=
  ⟨.refl _, fun _ tip htip => ⟨tip, htip, .refl tip⟩⟩

theorem MovesOn.trans {a b c : Repository V} (hab : a.MovesOn b) (hbc : b.MovesOn c) : a.MovesOn c := by
  refine ⟨hbc.store.trans hab.store, fun writerId tip htip => ?_⟩
  obtain ⟨tip', htip', hreaches⟩ := hab.refs writerId tip htip
  obtain ⟨tip'', htip'', hreaches'⟩ := hbc.refs writerId tip' htip'
  exact ⟨tip'', htip'', hreaches'.trans (hreaches.of_extends hbc.store)⟩

theorem getFrontier_congr {repo repo' : Repository V} (h : ∀ writerId, repo.refs.get writerId = repo'.refs.get writerId) :
    repo.getFrontier = repo'.getFrontier := by
  have hwriters : repo.discoverWriters = repo'.discoverWriters := by
    refine (Lists.insertionSort_eq_iff (· ≤ ·) id (fun _ _ h => h) (fun _ _ h => (not_le.mp h).le) repo.refs.nodup
      repo'.refs.nodup fun _ _ _ _ h => h).mpr fun writerId => ?_
    change writerId ∈ repo.refs.keys ↔ writerId ∈ repo'.refs.keys
    rw [JsMap.mem_keys_iff, JsMap.mem_keys_iff, h]
  unfold getFrontier readRef
  rw [hwriters]
  simp only [h]

theorem getFrontier_eq_iff {repo repo' : Repository V} :
    repo.getFrontier = repo'.getFrontier ↔ ∀ writerId, repo.refs.get writerId = repo'.refs.get writerId := by
  refine ⟨fun h writerId => ?_, getFrontier_congr⟩
  rw [← get_getFrontier, h, get_getFrontier]

/-- Tips that are the same in the end were so all the time. -/
theorem MovesOn.getFrontier_eq {past repo repo' : Repository V} (hpast : past.MovesOn repo) (h : repo.MovesOn repo')
    (hsame : past.getFrontier = repo'.getFrontier) : past.getFrontier = repo.getFrontier := by
  rw [getFrontier_eq_iff] at hsame ⊢
  intro writerId
  cases htip : past.refs.get writerId with
  | some tip =>
      obtain ⟨middle, hmiddle, hup⟩ := hpast.refs writerId tip htip
      obtain ⟨last, hlast, hup'⟩ := h.refs writerId middle hmiddle
      rw [← hsame, htip, Option.some.injEq] at hlast
      subst hlast
      rw [hmiddle, hup'.antisymm (hup.of_extends h.store)]
  | none =>
      cases hmiddle : repo.refs.get writerId with
      | none => rfl
      | some middle =>
          obtain ⟨last, hlast, -⟩ := h.refs writerId middle hmiddle
          rw [← hsame, htip] at hlast
          cases hlast

theorem MovesOn.loadWriterPatches_eq {repo repo' : Repository V} (h : repo.MovesOn repo')
    (hsame : repo.getFrontier = repo'.getFrontier) (writerId : JsString) :
    repo'.loadWriterPatches writerId none = repo.loadWriterPatches writerId none :=
  loadWriterPatches_of_extends h.store (getFrontier_eq_iff.mp hsame writerId).symm none

theorem MovesOn.patchesUpTo_eq {repo repo' : Repository V} (h : repo.MovesOn repo')
    (hsame : repo.getFrontier = repo'.getFrontier) (ceiling : Int) :
    repo'.patchesUpTo ceiling = repo.patchesUpTo ceiling := by
  unfold patchesUpTo
  rw [← hsame]
  simp only [h.loadWriterPatches_eq hsame]

end Repository

/-! ### Keys -/

/-- What the hash of a key is of. -/
def SeekTarget.payload (target : SeekTarget) : JsString :=
  [10].intercalate ((target.frontier.entries.insertionSort fun a b => a.1 ≤ b.1).map fun entry => entry.1 ++ 58 :: entry.2)

theorem not_mem_of_validateWriterId {id : JsString} (h : validateWriterId id = .ok ()) {c : CodeUnit}
    (hc : isWriterIdUnit c = false) : c ∉ id := by
  unfold validateWriterId thrown at h
  split_ifs at h with _ _ _ _ _ _ hall
  rw [Bool.not_eq_false] at hall
  intro hmem
  rw [List.all_eq_true.mp hall c hmem] at hc
  cases hc

theorem Repository.ReadableRefs.not_mem_lines {repo : Repository V} (h : repo.ReadableRefs) {entry : JsString × JsString}
    (hentry : entry ∈ repo.getFrontier.entries) : 58 ∉ entry.1 ∧ 10 ∉ entry.1 ++ 58 :: entry.2 := by
  have hget : repo.refs.get entry.1 = some entry.2 := by
    rw [← Repository.get_getFrontier]
    exact (JsMap.get_eq_some_iff _ _ _).mpr hentry
  have hwriter := h.writers _ _ hget
  have htip : 10 ∉ entry.2 := by
    intro hmem
    have hhex := h.tips _ _ hget 10 hmem
    cases hhex
  refine ⟨not_mem_of_validateWriterId hwriter (by decide), ?_⟩
  rw [List.mem_append, List.mem_cons]
  rintro (hmem | hmem | hmem)
  · exact not_mem_of_validateWriterId hwriter (by decide) hmem
  · cases hmem
  · exact htip hmem

theorem Repository.ReadableRefs.lines_payload {repo : Repository V} (h : repo.ReadableRefs) {target : SeekTarget}
    (hfrontier : target.frontier = repo.getFrontier) : (target.payload.splitOn 10).filter (fun line => line ≠ []) =
      (repo.getFrontier.entries.insertionSort fun a b => a.1 ≤ b.1).map fun entry => entry.1 ++ 58 :: entry.2 := by
  unfold SeekTarget.payload
  rw [hfrontier]
  have hlines : ∀ line ∈ (repo.getFrontier.entries.insertionSort fun a b => a.1 ≤ b.1).map
      fun entry => entry.1 ++ 58 :: entry.2, 10 ∉ line ∧ line ≠ [] := by
    intro line hline
    obtain ⟨entry, hentry, rfl⟩ := List.mem_map.mp hline
    exact ⟨(h.not_mem_lines ((List.mem_insertionSort _).mp hentry)).2, List.append_ne_nil_of_right_ne_nil _ (List.cons_ne_nil _ _)⟩
  generalize (repo.getFrontier.entries.insertionSort fun a b => a.1 ≤ b.1).map
    (fun entry => entry.1 ++ 58 :: entry.2) = lines at hlines ⊢
  by_cases hnil : lines = []
  · rw [hnil]
    rfl
  · rw [List.splitOn_intercalate 10 (fun line hline => (hlines line hline).1) hnil]
    exact List.filter_eq_self.mpr fun line hline => decide_eq_true (hlines line hline).2

/-- The payload of a frontier tells what the tips are. -/
theorem Repository.ReadableRefs.getFrontier_eq_of_payload {repo repo' : Repository V} (h : repo.ReadableRefs)
    (h' : repo'.ReadableRefs) {target target' : SeekTarget} (hfrontier : target.frontier = repo.getFrontier)
    (hfrontier' : target'.frontier = repo'.getFrontier) (hsame : target.payload = target'.payload) :
    repo.getFrontier = repo'.getFrontier := by
  have hlines := h.lines_payload hfrontier
  rw [hsame, h'.lines_payload hfrontier'] at hlines
  have hsubset : ∀ {a b : Repository V}, a.ReadableRefs → b.ReadableRefs →
      (b.getFrontier.entries.insertionSort fun x y => x.1 ≤ y.1).map (fun entry => entry.1 ++ 58 :: entry.2) =
        (a.getFrontier.entries.insertionSort fun x y => x.1 ≤ y.1).map (fun entry => entry.1 ++ 58 :: entry.2) →
      ∀ entry ∈ a.getFrontier.entries, entry ∈ b.getFrontier.entries := by
    intro a b ha hb hab entry hentry
    have hline := List.mem_map_of_mem (f := fun entry : JsString × JsString => entry.1 ++ 58 :: entry.2)
      ((List.mem_insertionSort fun x y : JsString × JsString => x.1 ≤ y.1).mpr hentry)
    rw [← hab] at hline
    obtain ⟨entry', hentry', heq⟩ := List.mem_map.mp hline
    rw [List.mem_insertionSort] at hentry'
    obtain ⟨hwriter, htip⟩ := field_inj (hb.not_mem_lines hentry').1 (ha.not_mem_lines hentry).1 heq
    rwa [← Prod.ext hwriter htip]
  refine Repository.getFrontier_congr fun writerId => ?_
  rw [← Repository.get_getFrontier, ← Repository.get_getFrontier]
  refine Option.ext fun tip => ?_
  rw [JsMap.get_eq_some_iff, JsMap.get_eq_some_iff]
  exact ⟨hsubset h h' hlines _, hsubset h' h hlines.symm _⟩

theorem decimalInt_of_pos {ceiling : Int} (h : 0 < ceiling) : decimalInt ceiling = decimal ceiling.toNat := by
  obtain ⟨n, rfl⟩ := Int.eq_ofNat_of_zero_le h.le
  rfl

/-- Keys are of one ceiling, and of frontiers with one hash. -/
theorem SeekTarget.of_key_eq {hash : JsString → JsString} {target target' : SeekTarget} (hceiling : 0 < target.ceiling)
    (hceiling' : 0 < target'.ceiling) (h : target.key hash = target'.key hash) :
    target.ceiling = target'.ceiling ∧ hash target.payload = hash target'.payload := by
  have hkey : ∀ t : SeekTarget, t.key hash = js "v1:t" ++ decimalInt t.ceiling ++ 45 :: hash t.payload := fun _ => rfl
  have hdash : ∀ {t : SeekTarget}, 0 < t.ceiling → (45 : CodeUnit) ∉ decimalInt t.ceiling := by
    intro t ht
    rw [decimalInt_of_pos ht]
    exact not_mem_decimal (by decide)
  rw [hkey, hkey, List.append_assoc, List.append_assoc, List.append_cancel_left_eq] at h
  obtain ⟨hdigits, hhash⟩ := field_inj (hdash hceiling) (hdash hceiling') h
  exact ⟨decimalInt_injective hdigits, hhash⟩

end GitWarp
