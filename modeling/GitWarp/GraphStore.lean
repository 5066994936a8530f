import GitWarp.SyncProtocol

/-! The object store and the refs of a repository. Commits are immutable and written after their parents;
a writer's chain is read by walking first parents from the tip that its ref points to. -/

namespace GitWarp
open Js

variable {V : Type}

abbrev Sha := JsString

/-- What a commit carries, by the kind of its message. A checkpoint is kept as it loads back. -/
inductive CommitContent (V : Type) where
  | patch (patch : PatchV2 V)
  | checkpoint (schema : Nat) (state : WarpStateV5 V) (frontier : Frontier)
  | anchor
  deriving DecidableEq

structure Commit (V : Type) where
  parents : List Sha
  content : CommitContent V
  deriving DecidableEq

/-- Newest first: every object is new when it is written and its parents are there already. -/
def Closed : List (Sha × Commit V) → Prop
  | [] => True
  | object :: older =>
      (object.1 ∉ older.map Prod.fst ∧ ∀ p ∈ object.2.parents, p ∈ older.map Prod.fst) ∧ Closed older

structure ObjectStore (V : Type) where
  objects : List (Sha × Commit V)
  closed : Closed objects

/-- The loop that walks from `sha` to the root, a non-patch commit or `stopAtSha`; oldest patch first. -/
def walkFrom (stopAtSha : Option Sha) : List (Sha × Commit V) → Sha → List (PatchEntry V)
  | [], _ => []
  | (objectSha, commit) :: older, sha =>
      if sha = objectSha then
        if some sha = stopAtSha then []
        else match commit.content with
          | .patch patch =>
              (match commit.parents.head? with
                | some parent => walkFrom stopAtSha older parent
                | none => []) ++ [⟨patch, sha⟩]
          | _ => []
      else walkFrom stopAtSha older sha

theorem nodup_of_closed {objects : List (Sha × Commit V)} (h : Closed objects) :
    (objects.map Prod.fst).Nodup := by
  induction objects with
  | nil => exact List.nodup_nil
  | cons object older ih => exact List.nodup_cons.mpr ⟨h.1.1, ih h.2⟩

theorem closed_of_suffix {objects older : List (Sha × Commit V)} (hsuffix : older <:+ objects)
    (h : Closed objects) : Closed older := by
  obtain ⟨newer, rfl⟩ := hsuffix
  induction newer with
  | nil => exact h
  | cons object rest ih => exact ih h.2

/-- Newer objects do not matter for a walk that starts at an older one. -/
theorem walkFrom_append {newer older : List (Sha × Commit V)} (h : Closed (newer ++ older))
    (stopAtSha : Option Sha) {sha : Sha} (hsha : sha ∈ older.map Prod.fst) :
    walkFrom stopAtSha (newer ++ older) sha = walkFrom stopAtSha older sha := by
  induction newer with
  | nil => rfl
  | cons object rest ih =>
      have hne : sha ≠ object.1 := by
        rintro rfl
        exact h.1.1 (List.map_append ▸ List.mem_append_right _ hsha)
      rw [List.cons_append, walkFrom, if_neg hne]
      exact ih h.2

namespace ObjectStore

def empty : ObjectStore V := ⟨[], trivial⟩

def shas (store : ObjectStore V) : List Sha := store.objects.map Prod.fst

def get (store : ObjectStore V) (sha : Sha) : Option (Commit V) := JsMap.lookup store.objects sha

/-- Writes a commit object. Objects are content addressed: a known sha is the same commit again. -/
def put [DecidableEq V] (store : ObjectStore V) (sha : Sha) (commit : Commit V) :
    Option (ObjectStore V) :=
  if h : sha ∉ store.shas ∧ ∀ p ∈ commit.parents, p ∈ store.shas then
    some ⟨(sha, commit) :: store.objects, h, store.closed⟩
  else if store.get sha = some commit then some store else none

/-- The patches from `stopAtSha`, exclusive, to `sha`. -/
def walk (store : ObjectStore V) (stopAtSha : Option Sha) (sha : Sha) : List (PatchEntry V) :=
  walkFrom stopAtSha store.objects sha

theorem get_eq_some_iff (store : ObjectStore V) (sha : Sha) (commit : Commit V) :
    store.get sha = some commit ↔ (sha, commit) ∈ store.objects :=
  JsMap.lookup_eq_some_iff (nodup_of_closed store.closed) sha commit

theorem mem_shas_of_get {store : ObjectStore V} {sha : Sha} {commit : Commit V}
    (h : store.get sha = some commit) : sha ∈ store.shas :=
  List.mem_map_of_mem ((store.get_eq_some_iff sha commit).mp h)

theorem exists_get {store : ObjectStore V} {sha : Sha} (h : sha ∈ store.shas) :
    ∃ commit, store.get sha = some commit := by
  obtain ⟨⟨sha', commit⟩, hmem, rfl⟩ := List.mem_map.mp h
  exact ⟨commit, (store.get_eq_some_iff sha' commit).mpr hmem⟩

/-- The objects of a store and those below one of them. -/
theorem split_of_get {store : ObjectStore V} {sha : Sha} {commit : Commit V}
    (h : store.get sha = some commit) :
    ∃ newer older, store.objects = newer ++ (sha, commit) :: older ∧
      ∀ p ∈ commit.parents, p ∈ older.map Prod.fst := by
  obtain ⟨newer, older, hsplit⟩ := List.append_of_mem ((store.get_eq_some_iff sha commit).mp h)
  have hclosed : Closed ((sha, commit) :: older) :=
    closed_of_suffix ⟨newer, hsplit.symm⟩ store.closed
  exact ⟨newer, older, hsplit, hclosed.1.2⟩

theorem mem_shas_of_parent {store : ObjectStore V} {sha parent : Sha} {commit : Commit V}
    (h : store.get sha = some commit) (hparent : parent ∈ commit.parents) : parent ∈ store.shas := by
  obtain ⟨newer, older, hsplit, hparents⟩ := split_of_get h
  unfold shas
  rw [hsplit, List.map_append, List.map_cons]
  exact List.mem_append_right _ (List.mem_cons_of_mem _ (hparents parent hparent))

/-- The walk is the loop of the source: it stops at `stopAtSha`, at a commit that is no patch and at a
root, and goes on with the first parent. -/
theorem walk_eq {store : ObjectStore V} {sha : Sha} {commit : Commit V}
    (h : store.get sha = some commit) (stopAtSha : Option Sha) :
    store.walk stopAtSha sha =
      if some sha = stopAtSha then []
      else match commit.content with
        | .patch patch =>
            (match commit.parents.head? with
              | some parent => store.walk stopAtSha parent
              | none => []) ++ [⟨patch, sha⟩]
        | _ => [] := by
  obtain ⟨newer, older, hsplit, hparents⟩ := split_of_get h
  have hclosed := store.closed
  rw [hsplit] at hclosed
  unfold walk
  rw [hsplit, walkFrom_append hclosed stopAtSha (List.mem_cons_self ..), walkFrom, if_pos rfl]
  split
  · rfl
  · cases commit.content with
    | patch patch =>
        cases hhead : commit.parents.head? with
        | none => rfl
        | some parent =>
            have hparent := hparents parent (List.mem_of_head? hhead)
            have hclosed' : Closed ((newer ++ [(sha, commit)]) ++ older) := by
              rw [List.append_assoc]
              exact hclosed
            have hwalk := walkFrom_append hclosed' stopAtSha hparent
            rw [List.append_assoc, List.singleton_append] at hwalk
            simp only [hwalk]
    | _ => rfl

/-- What holds of a commit as soon as it holds of its parents holds of every commit. -/
theorem parents_induction {store : ObjectStore V} {P : Sha → Prop}
    (hstep : ∀ sha commit, store.get sha = some commit → (∀ p ∈ commit.parents, P p) → P sha) :
    ∀ sha ∈ store.shas, P sha := by
  have hsuffix : ∀ older, older <:+ store.objects → ∀ sha ∈ older.map Prod.fst, P sha := by
    intro older
    induction older with
    | nil => exact fun _ sha hsha => nomatch hsha
    | cons object rest ih =>
        intro hsuffix sha hsha
        have hrest := ih ((List.suffix_cons object rest).trans hsuffix)
        rcases List.mem_cons.mp hsha with rfl | hmem
        · have hget : store.get object.1 = some object.2 :=
            (store.get_eq_some_iff _ _).mpr (hsuffix.subset (List.mem_cons_self ..))
          have hclosed := closed_of_suffix hsuffix store.closed
          exact hstep object.1 object.2 hget fun p hp => hrest p (hclosed.1.2 p hp)
        · exact hrest sha hmem
  exact hsuffix store.objects List.suffix_rfl

/-- A walk yields patch commits of the store. -/
theorem get_of_mem_walk {store : ObjectStore V} {stopAtSha : Option Sha} {sha : Sha}
    (hsha : sha ∈ store.shas) {entry : PatchEntry V} (hentry : entry ∈ store.walk stopAtSha sha) :
    ∃ parents, store.get entry.sha = some ⟨parents, .patch entry.patch⟩ := by
  revert hentry
  refine parents_induction (P := fun sha => entry ∈ store.walk stopAtSha sha → _)
    (fun sha commit hget ih hentry => ?_) sha hsha
  rw [walk_eq hget] at hentry
  split at hentry
  · cases hentry
  · obtain ⟨parents, content⟩ := commit
    cases content with
    | patch patch =>
        rcases List.mem_append.mp hentry with hmem | hlast
        · cases parents with
          | nil => cases hmem
          | cons parent rest => exact ih parent (List.mem_cons_self ..) hmem
        · rw [List.mem_singleton.mp hlast]
          exact ⟨parents, hget⟩
    | _ => cases hentry

/-- Where an object stands; older objects stand further back. -/
def rank (store : ObjectStore V) (sha : Sha) : Nat := store.shas.idxOf sha

theorem rank_lt_of_parent {store : ObjectStore V} {sha parent : Sha} {commit : Commit V}
    (h : store.get sha = some commit) (hparent : parent ∈ commit.parents) :
    store.rank sha < store.rank parent := by
  obtain ⟨newer, older, hsplit, hparents⟩ := split_of_get h
  have hnodup := nodup_of_closed store.closed
  have hshas : store.shas = newer.map Prod.fst ++ sha :: older.map Prod.fst := by
    unfold shas
    rw [hsplit, List.map_append, List.map_cons]
  have hdisjoint : ∀ x ∈ sha :: older.map Prod.fst, x ∉ newer.map Prod.fst := by
    have hnodup' : store.shas.Nodup := hnodup
    rw [hshas, List.nodup_append] at hnodup'
    exact fun x hx hmem => hnodup'.2.2 x hmem x hx rfl
  have hne : sha ≠ parent := by
    rintro rfl
    have hnodup' : store.shas.Nodup := hnodup
    rw [hshas, List.nodup_append, List.nodup_cons] at hnodup'
    exact hnodup'.2.1.1 (hparents sha hparent)
  unfold rank
  rw [hshas, List.idxOf_append_of_notMem (hdisjoint sha (List.mem_cons_self ..)),
    List.idxOf_append_of_notMem (hdisjoint parent (List.mem_cons_of_mem _ (hparents parent hparent))),
    List.idxOf_cons_self, List.idxOf_cons_ne _ hne]
  omega

theorem rank_le_of_mem_walk {store : ObjectStore V} {stopAtSha : Option Sha} {sha : Sha}
    (hsha : sha ∈ store.shas) {entry : PatchEntry V} (hentry : entry ∈ store.walk stopAtSha sha) :
    store.rank sha ≤ store.rank entry.sha := by
  revert hentry
  refine parents_induction
    (P := fun sha => entry ∈ store.walk stopAtSha sha → store.rank sha ≤ store.rank entry.sha)
    (fun sha commit hget ih hentry => ?_) sha hsha
  rw [walk_eq hget] at hentry
  split at hentry
  · cases hentry
  · obtain ⟨parents, content⟩ := commit
    cases content with
    | patch patch =>
        rcases List.mem_append.mp hentry with hmem | hlast
        · cases parents with
          | nil => cases hmem
          | cons parent rest =>
              have hparent : parent ∈ parent :: rest := List.mem_cons_self ..
              exact (rank_lt_of_parent hget hparent).le.trans (ih parent hparent hmem)
        · rw [List.mem_singleton.mp hlast]
    | _ => cases hentry

/-- A commit is not among the patches below its parents. -/
theorem not_mem_walk_parent {store : ObjectStore V} {sha parent : Sha} {commit : Commit V}
    (h : store.get sha = some commit) (hparent : parent ∈ commit.parents) {stopAtSha : Option Sha}
    {entry : PatchEntry V} (hentry : entry ∈ store.walk stopAtSha parent) : entry.sha ≠ sha := by
  rintro rfl
  have hle := rank_le_of_mem_walk (mem_shas_of_parent h hparent) hentry
  have hlt := rank_lt_of_parent h hparent
  omega

/-! ### Growing -/

/-- `store'` has the objects of `store` and newer ones. -/
def Extends (store' store : ObjectStore V) : Prop := store.objects <:+ store'.objects

theorem Extends.refl (store : ObjectStore V) : store.Extends store := List.suffix_rfl

theorem Extends.trans {a b c : ObjectStore V} (hab : a.Extends b) (hbc : b.Extends c) : a.Extends c :=
  List.IsSuffix.trans hbc hab

theorem Extends.mem_shas {store store' : ObjectStore V} (h : store'.Extends store) {sha : Sha}
    (hsha : sha ∈ store.shas) : sha ∈ store'.shas :=
  List.map_subset Prod.fst h.subset hsha

theorem Extends.get {store store' : ObjectStore V} (h : store'.Extends store) {sha : Sha}
    {commit : Commit V} (hget : store.get sha = some commit) : store'.get sha = some commit :=
  (store'.get_eq_some_iff sha commit).mpr (h.subset ((store.get_eq_some_iff sha commit).mp hget))

theorem Extends.walk {store store' : ObjectStore V} (h : store'.Extends store) (stopAtSha : Option Sha)
    {sha : Sha} (hsha : sha ∈ store.shas) : store'.walk stopAtSha sha = store.walk stopAtSha sha := by
  obtain ⟨newer, hnewer⟩ := h
  have hclosed := store'.closed
  rw [← hnewer] at hclosed
  unfold ObjectStore.walk
  rw [← hnewer]
  exact walkFrom_append hclosed stopAtSha hsha

section

variable [DecidableEq V]

theorem put_eq_some {store store' : ObjectStore V} {sha : Sha} {commit : Commit V}
    (h : store.put sha commit = some store') :
    store'.Extends store ∧ store'.get sha = some commit ∧
      (store' = store ∨ (sha ∉ store.shas ∧ store'.objects = (sha, commit) :: store.objects)) := by
  unfold put at h
  split at h
  · rename_i hnew
    cases h
    refine ⟨List.suffix_cons _ _, ?_, Or.inr ⟨hnew.1, rfl⟩⟩
    exact (get_eq_some_iff _ sha commit).mpr (List.mem_cons_self ..)
  · split at h
    · rename_i hsame
      cases h
      exact ⟨Extends.refl store, hsame, Or.inl rfl⟩
    · cases h

/-- Writing a commit adds no other object. -/
theorem get_of_put {store store' : ObjectStore V} {sha : Sha} {commit : Commit V}
    (h : store.put sha commit = some store') {other : Sha} {commit' : Commit V}
    (hget : store'.get other = some commit') : store.get other = some commit' ∨ commit' = commit := by
  obtain ⟨-, -, rfl | ⟨-, hobjects⟩⟩ := put_eq_some h
  · exact Or.inl hget
  · rw [get_eq_some_iff, hobjects] at hget
    rcases List.mem_cons.mp hget with hnew | hold
    · exact Or.inr (Prod.mk.inj hnew).2
    · exact Or.inl ((store.get_eq_some_iff other commit').mpr hold)

end

end ObjectStore

/-! ### Refs -/

/-- A repository: its objects, the ref of each writer and the ref of the latest checkpoint. Refs point to
objects that exist. -/
structure Repository (V : Type) where
  store : ObjectStore V
  refs : Frontier
  checkpointRef : Option Sha
  refsExist : ∀ writerId tip, refs.get writerId = some tip → tip ∈ store.shas
  checkpointExists : ∀ sha, checkpointRef = some sha → sha ∈ store.shas

namespace Repository

def empty : Repository V := ⟨ObjectStore.empty, JsMap.empty, none, fun _ _ h => (nomatch h), nofun⟩

def readRef (repo : Repository V) (writerId : JsString) : Option Sha := repo.refs.get writerId

/-- The sorted writers of the refs. -/
def discoverWriters (repo : Repository V) : List JsString := repo.refs.keys.insertionSort (· ≤ ·)

/-- The tips of all writers. -/
def getFrontier (repo : Repository V) : Frontier :=
  repo.discoverWriters.foldl (fun frontier writerId =>
    match repo.readRef writerId with
    | some tip => frontier.set writerId tip
    | none => frontier) JsMap.empty

/-- The patches of a writer's chain after `stopAtSha`. -/
def loadWriterPatches (repo : Repository V) (writerId : JsString) (stopAtSha : Option Sha) :
    List (PatchEntry V) :=
  match repo.readRef writerId with
  | some tip => repo.store.walk stopAtSha tip
  | none => []

/-- The commit a sha names. -/
def showNode (repo : Repository V) (sha : Sha) : Option (Commit V) := repo.store.get sha

/-- Moves a writer's ref, whatever it pointed to. -/
def updateRef (repo : Repository V) (writerId : JsString) (sha : Sha) : Option (Repository V) :=
  if h : sha ∈ repo.store.shas then
    some { repo with
      refs := repo.refs.set writerId sha
      refsExist := by
        intro writerId' tip htip
        rw [JsMap.get_set] at htip
        split at htip
        · cases htip
          exact h
        · exact repo.refsExist writerId' tip htip }
  else none

def updateCheckpointRef (repo : Repository V) (sha : Sha) : Option (Repository V) :=
  if h : sha ∈ repo.store.shas then
    some { repo with
      checkpointRef := some sha
      checkpointExists := fun _ heq => Option.some.inj heq ▸ h }
  else none

/-- Writes a commit object. -/
def commitNode [DecidableEq V] (repo : Repository V) (sha : Sha) (commit : Commit V) :
    Option (Repository V) :=
  match h : repo.store.put sha commit with
  | some store =>
      some { repo with
        store := store
        refsExist := fun writerId tip htip =>
          (ObjectStore.put_eq_some h).1.mem_shas (repo.refsExist writerId tip htip)
        checkpointExists := fun sha' hsha' =>
          (ObjectStore.put_eq_some h).1.mem_shas (repo.checkpointExists sha' hsha') }
  | none => none

theorem get_getFrontier (repo : Repository V) (writerId : JsString) :
    repo.getFrontier.get writerId = repo.refs.get writerId := by
  have hloop : ∀ (writers : List JsString) (frontier : Frontier),
      (writers.foldl (fun frontier writerId =>
        match repo.readRef writerId with
        | some tip => frontier.set writerId tip
        | none => frontier) frontier).get writerId =
      if writerId ∈ writers then (repo.refs.get writerId).or (frontier.get writerId)
      else frontier.get writerId := by
    intro writers
    induction writers with
    | nil => exact fun frontier => rfl
    | cons writer rest ih =>
        intro frontier
        rw [List.foldl_cons, ih]
        have hread : repo.readRef writer = repo.refs.get writer := rfl
        by_cases hwriter : writerId = writer
        · subst hwriter
          cases htip : repo.refs.get writerId <;> simp [hread, htip]
        · have hne : ∀ tip, (frontier.set writer tip).get writerId = frontier.get writerId :=
            fun tip => JsMap.get_set_of_ne frontier tip hwriter
          cases htip : repo.refs.get writer <;> simp [hread, htip, hwriter, hne]
  unfold getFrontier
  rw [hloop]
  have hmem : writerId ∈ repo.discoverWriters ↔ (repo.refs.get writerId).isSome = true := by
    unfold discoverWriters
    rw [List.mem_insertionSort, JsMap.mem_keys_iff]
  cases htip : repo.refs.get writerId <;> simp [hmem, htip]

theorem updateRef_eq_some {repo repo' : Repository V} {writerId : JsString} {sha : Sha}
    (h : repo.updateRef writerId sha = some repo') :
    sha ∈ repo.store.shas ∧ repo'.store = repo.store ∧ repo'.refs = repo.refs.set writerId sha ∧
      repo'.checkpointRef = repo.checkpointRef := by
  unfold updateRef at h
  split at h
  · rename_i hmem
    cases h
    exact ⟨hmem, rfl, rfl, rfl⟩
  · cases h

theorem updateCheckpointRef_eq_some {repo repo' : Repository V} {sha : Sha}
    (h : repo.updateCheckpointRef sha = some repo') :
    repo'.store = repo.store ∧ repo'.refs = repo.refs ∧ repo'.checkpointRef = some sha := by
  unfold updateCheckpointRef at h
  split at h
  · cases h
    exact ⟨rfl, rfl, rfl⟩
  · cases h

theorem commitNode_eq_some [DecidableEq V] {repo repo' : Repository V} {sha : Sha} {commit : Commit V}
    (h : repo.commitNode sha commit = some repo') :
    repo.store.put sha commit = some repo'.store ∧ repo'.refs = repo.refs ∧
      repo'.checkpointRef = repo.checkpointRef := by
  unfold commitNode at h
  split at h
  · rename_i store hput
    cases h
    exact ⟨hput, rfl, rfl⟩
  · cases h

end Repository

end GitWarp
