import GitWarp.LibraryBisection
import GitWarp.LibraryExceptLoops
import GitWarp.ReducerState

/-! Bisection of a writer's chain. Between a good and a bad patch it finds one that fails the test after one that passes. -/

namespace GitWarp
open Js ExceptLoops Bisection

variable {V : Type}

namespace Bisect

/-- What the service uses of a graph. -/
structure BisectGraph (V : Type) where
  getWriterPatches : JsString → Except JsError (List (PatchEntry V))
  /-- `materialize({ ceiling })` -/
  materialize : Nat → Except JsError (WarpStateV5 V)

inductive BisectResult where
  | found (firstBadPatch writerId : JsString) (lamport steps totalCandidates : Nat)
  | rangeError (message : String)
  deriving DecidableEq

def foundResult (writerId : JsString) (entry : PatchEntry V) (steps totalCandidates : Nat) : BisectResult :=
  .found entry.sha writerId entry.patch.lamport steps totalCandidates

/-- `patches.findIndex(p => p.sha === sha)` -/
def findSha (patches : List (PatchEntry V)) (sha : JsString) : Option Nat := patches.findIdx? fun p => p.sha = sha

def resolveCandidates (patches : List (PatchEntry V)) (good bad : JsString) : Except String (List (PatchEntry V)) :=
  match findSha patches good, findSha patches bad with
  | some goodIdx, some badIdx =>
      if goodIdx ≥ badIdx then .error "good is not an ancestor of bad"
      else .ok ((patches.take (badIdx + 1)).drop (goodIdx + 1))
  | _, _ => .error "good or bad SHA not found in writer chain"

/-- Where a search ends, and the commits that were tested on the way. -/
structure Search where
  index : Nat
  steps : Nat
  tested : List JsString

/-- `candidates[index]`, whose fields are read next. -/
def candidateAt (candidates : List (PatchEntry V)) (index : Nat) : Except JsError (PatchEntry V) :=
  match candidates[index]? with
  | some candidate => .ok candidate
  | none => .error ⟨"TypeError", "Cannot read properties of undefined"⟩

section Runs

variable (graph : BisectGraph V) (testFn : WarpStateV5 V → JsString → Bool)

def binarySearch (candidates : List (PatchEntry V)) (lo hi steps : Nat) (tested : List JsString) :
    Except JsError Search :=
  if lo < hi then do
    let mid := (lo + hi) / 2
    let candidate ← candidateAt candidates mid
    let state ← graph.materialize candidate.patch.lamport
    if testFn state candidate.sha then binarySearch candidates (mid + 1) hi (steps + 1) (tested ++ [candidate.sha])
    else binarySearch candidates lo mid (steps + 1) (tested ++ [candidate.sha])
  else return ⟨lo, steps, tested⟩
termination_by hi - lo

/-- The result for the candidates, and the commits that were tested. A single candidate is not tested. -/
def searchCandidates (writerId : JsString) : List (PatchEntry V) → Except JsError (BisectResult × List JsString)
  | [entry] => return (foundResult writerId entry 0 1, [])
  | candidates => do
      let search ← binarySearch graph testFn candidates 0 (candidates.length - 1) 0 []
      return (foundResult writerId (← candidateAt candidates search.index) search.steps candidates.length, search.tested)

def run (good bad writerId : JsString) : Except JsError (BisectResult × List JsString) :=
  if good = bad then return (.rangeError "good and bad SHAs are the same", [])
  else do
    let patches ← graph.getWriterPatches writerId
    match resolveCandidates patches good bad with
    | .error message => return (.rangeError message, [])
    | .ok candidates => searchCandidates graph testFn writerId candidates

end Runs

/-! ### The search -/

section Search

variable {graph : BisectGraph V} {testFn : WarpStateV5 V → JsString → Bool} {stateAt : Nat → WarpStateV5 V}

/-- The test on the state at a patch's tick. -/
def passes (testFn : WarpStateV5 V → JsString → Bool) (stateAt : Nat → WarpStateV5 V) (entry : PatchEntry V) : Bool :=
  testFn (stateAt entry.patch.lamport) entry.sha

/-- The test at the places of a chain from a start on. -/
def passesFrom (testFn : WarpStateV5 V → JsString → Bool) (stateAt : Nat → WarpStateV5 V) (patches : List (PatchEntry V))
    (start n : Nat) : Bool :=
  (patches[start + n]?).any (passes testFn stateAt)

theorem candidateAt_eq {candidates : List (PatchEntry V)} {index : Nat} {entry : PatchEntry V}
    (h : candidates[index]? = some entry) : candidateAt candidates index = .ok entry := by
  rw [candidateAt, h]

theorem binarySearch_turn {candidates : List (PatchEntry V)} {lo hi : Nat} (hlt : lo < hi) {entry : PatchEntry V}
    (hget : candidates[(lo + hi) / 2]? = some entry)
    (hmaterialize : graph.materialize entry.patch.lamport = .ok (stateAt entry.patch.lamport))
    (steps : Nat) (tested : List JsString) :
    binarySearch graph testFn candidates lo hi steps tested =
      if passes testFn stateAt entry then
        binarySearch graph testFn candidates ((lo + hi) / 2 + 1) hi (steps + 1) (tested ++ [entry.sha])
      else binarySearch graph testFn candidates lo ((lo + hi) / 2) (steps + 1) (tested ++ [entry.sha]) := by
  rw [binarySearch, if_pos hlt]
  dsimp only [bind, Except.bind]
  rw [candidateAt_eq hget]
  dsimp only
  rw [hmaterialize]
  rfl

/-- The candidates up to an index are the places of a chain after a start, where the graph gives the states. -/
def Candidates (graph : BisectGraph V) (stateAt : Nat → WarpStateV5 V) (patches candidates : List (PatchEntry V))
    (start hi : Nat) : Prop :=
  ∀ n ≤ hi, ∃ entry, candidates[n]? = some entry ∧ patches[start + (n + 1)]? = some entry ∧
    graph.materialize entry.patch.lamport = .ok (stateAt entry.patch.lamport)

variable (testFn) in
/-- The search over the candidates reads the test at the places of the chain after the good patch. -/
theorem binarySearch_eq {patches candidates : List (PatchEntry V)} {start lo hi : Nat}
    (hcandidates : Candidates graph stateAt patches candidates start hi) (steps : Nat) (tested : List JsString) :
    ∃ shas, shas.length = (bisect (passesFrom testFn stateAt patches start) lo hi).2.length ∧
      binarySearch graph testFn candidates lo hi steps tested =
        .ok ⟨(bisect (passesFrom testFn stateAt patches start) lo hi).1, steps + shas.length, tested ++ shas⟩ := by
  induction lo, hi using bisect.induct (passesFrom testFn stateAt patches start) generalizing steps tested with
  | case1 lo hi hlt mid hmid ih =>
      obtain ⟨entry, hget, hplace, hmaterialize⟩ := hcandidates mid (by omega)
      have hpasses : passes testFn stateAt entry = true := by simpa [passesFrom, hplace] using hmid
      obtain ⟨shas, hlength, hrest⟩ := ih hcandidates (steps + 1) (tested ++ [entry.sha])
      rw [binarySearch_turn hlt hget hmaterialize, if_pos hpasses, hrest, bisect.eq_def _ lo hi, if_pos hlt, if_pos hmid]
      refine ⟨entry.sha :: shas, by rw [List.length_cons, List.length_cons, hlength], ?_⟩
      rw [List.append_assoc, List.length_cons, Nat.add_right_comm, Nat.add_assoc]
      rfl
  | case2 lo hi hlt mid hmid ih =>
      obtain ⟨entry, hget, hplace, hmaterialize⟩ := hcandidates mid (by omega)
      have hfails : ¬ passes testFn stateAt entry = true := by simpa [passesFrom, hplace] using hmid
      obtain ⟨shas, hlength, hrest⟩ := ih (fun n hn => hcandidates n (by omega)) (steps + 1) (tested ++ [entry.sha])
      rw [binarySearch_turn hlt hget hmaterialize, if_neg hfails, hrest, bisect.eq_def _ lo hi, if_pos hlt, if_neg hmid]
      refine ⟨entry.sha :: shas, by rw [List.length_cons, List.length_cons, hlength], ?_⟩
      rw [List.append_assoc, List.length_cons, Nat.add_right_comm, Nat.add_assoc]
      rfl
  | case3 lo hi hge =>
      rw [binarySearch, if_neg hge, bisect, if_neg hge]
      refine ⟨[], rfl, ?_⟩
      rw [List.append_nil]
      rfl

end Search

/-! ### The result -/

/-- A SHA is first found at a place of the chain. -/
def Place (patches : List (PatchEntry V)) (sha : JsString) (place : Nat) : Prop :=
  (∃ entry, patches[place]? = some entry ∧ entry.sha = sha) ∧ ∀ i < place, ∀ entry, patches[i]? = some entry → entry.sha ≠ sha

theorem findSha_of_place {patches : List (PatchEntry V)} {sha : JsString} {place : Nat} (h : Place patches sha place) :
    findSha patches sha = some place := by
  obtain ⟨⟨entry, hget, hsha⟩, hbefore⟩ := h
  rw [findSha, List.findIdx?_eq_some_iff_getElem]
  obtain ⟨hlt, rfl⟩ := List.getElem?_eq_some_iff.mp hget
  refine ⟨hlt, decide_eq_true hsha, fun k hk hfound => ?_⟩
  exact hbefore k hk _ (List.getElem?_eq_getElem _) (of_decide_eq_true hfound)

theorem resolveCandidates_of_places {patches : List (PatchEntry V)} {good bad : JsString} {i j : Nat}
    (hgood : Place patches good i) (hbad : Place patches bad j) (hij : i < j) :
    resolveCandidates patches good bad = .ok ((patches.take (j + 1)).drop (i + 1)) := by
  rw [resolveCandidates, findSha_of_place hgood, findSha_of_place hbad]
  exact if_neg (by omega)

/-- What bisection reports: a patch after the good one and not after the bad one that fails the test, where the patch
before it passes; and how many tests were made. -/
structure Transition (testFn : WarpStateV5 V → JsString → Bool) (stateAt : Nat → WarpStateV5 V)
    (patches : List (PatchEntry V)) (i j : Nat) (writerId : JsString) (result : BisectResult) (tested : List JsString)
    (k : Nat) (previous entry : PatchEntry V) : Prop where
  after_good : i < k
  upto_bad : k ≤ j
  previous_place : patches[k - 1]? = some previous
  entry_place : patches[k]? = some entry
  reported : result = .found entry.sha writerId entry.patch.lamport tested.length (j - i)
  previous_passes : passes testFn stateAt previous = true
  entry_fails : passes testFn stateAt entry = false
  tests : tested.length ≤ Nat.clog 2 (j - i)

/-- Once a patch fails the test, all later ones do. -/
def Monotone (testFn : WarpStateV5 V → JsString → Bool) (stateAt : Nat → WarpStateV5 V) (patches : List (PatchEntry V)) : Prop :=
  patches.Pairwise fun earlier later => passes testFn stateAt earlier = false → passes testFn stateAt later = false

theorem passesFrom_eq {testFn : WarpStateV5 V → JsString → Bool} {stateAt : Nat → WarpStateV5 V}
    {patches : List (PatchEntry V)} {start n : Nat} {entry : PatchEntry V} (h : patches[start + n]? = some entry) :
    passesFrom testFn stateAt patches start n = passes testFn stateAt entry := by
  rw [passesFrom, h]
  rfl

theorem candidates_of_places {graph : BisectGraph V} {stateAt : Nat → WarpStateV5 V} {patches : List (PatchEntry V)} {i j : Nat}
    (hmaterialize : ∀ entry ∈ patches, graph.materialize entry.patch.lamport = .ok (stateAt entry.patch.lamport))
    (hj : j < patches.length) (hij : i < j) :
    Candidates graph stateAt patches ((patches.take (j + 1)).drop (i + 1)) i (j - i - 1) := by
  intro n hn
  have hlt : i + (n + 1) < patches.length := by omega
  refine ⟨patches[i + (n + 1)], ?_, List.getElem?_eq_getElem hlt, hmaterialize _ (List.getElem_mem hlt)⟩
  rw [List.getElem?_drop, List.getElem?_take_of_lt (by omega), Nat.add_right_comm, Nat.add_assoc]
  exact List.getElem?_eq_getElem hlt

/-- The candidate at which the search ends is reported, and as many steps as tests were made. -/
theorem searchCandidates_eq {graph : BisectGraph V} {testFn : WarpStateV5 V → JsString → Bool}
    {stateAt : Nat → WarpStateV5 V} {patches candidates : List (PatchEntry V)} {start n : Nat} (writerId : JsString)
    (hcandidates : Candidates graph stateAt patches candidates start n) (hlength : candidates.length = n + 1)
    {entry : PatchEntry V} (hentry : candidates[(bisect (passesFrom testFn stateAt patches start) 0 n).1]? = some entry) :
    ∃ tested, tested.length = (bisect (passesFrom testFn stateAt patches start) 0 n).2.length ∧
      searchCandidates graph testFn writerId candidates =
        .ok (.found entry.sha writerId entry.patch.lamport tested.length (n + 1), tested) := by
  unfold searchCandidates
  split
  · rename_i only
    -- one candidate: the search makes no turn
    have hn : n = 0 := by simpa using hlength.symm
    subst hn
    have hend : bisect (passesFrom testFn stateAt patches start) 0 0 = (0, []) := by rw [bisect, if_neg (Nat.lt_irrefl 0)]
    rw [hend] at hentry ⊢
    have hsame : only = entry := by simpa using hentry
    rw [hsame]
    exact ⟨[], rfl, rfl⟩
  · obtain ⟨tested, htested, hsearch⟩ := binarySearch_eq testFn hcandidates 0 []
    refine ⟨tested, htested, ?_⟩
    rw [hlength, Nat.add_sub_cancel, hsearch]
    dsimp only [bind, Except.bind]
    rw [candidateAt_eq hentry, Nat.zero_add]
    rfl

theorem run_of_places {graph : BisectGraph V} {testFn : WarpStateV5 V → JsString → Bool} {patches : List (PatchEntry V)}
    {good bad writerId : JsString} {i j : Nat} (hpatches : graph.getWriterPatches writerId = .ok patches)
    (hgood : Place patches good i) (hbad : Place patches bad j) (hij : i < j) :
    run graph testFn good bad writerId = searchCandidates graph testFn writerId ((patches.take (j + 1)).drop (i + 1)) := by
  have hne : good ≠ bad := by
    rintro rfl
    obtain ⟨⟨first, hfirst, hsha⟩, -⟩ := hgood
    exact hbad.2 i hij first hfirst hsha
  have hresolved := resolveCandidates_of_places hgood hbad hij
  rw [run, if_neg hne, hpatches]
  dsimp only [bind, Except.bind]
  rw [hresolved]

/-- The search reports a transition. -/
theorem run_transition {graph : BisectGraph V} {testFn : WarpStateV5 V → JsString → Bool} {stateAt : Nat → WarpStateV5 V}
    {patches : List (PatchEntry V)} {good bad writerId : JsString} {i j : Nat}
    (hpatches : graph.getWriterPatches writerId = .ok patches)
    (hmaterialize : ∀ entry ∈ patches, graph.materialize entry.patch.lamport = .ok (stateAt entry.patch.lamport))
    (hgood : Place patches good i) (hbad : Place patches bad j) (hij : i < j)
    (hpass : ∀ entry, patches[i]? = some entry → passes testFn stateAt entry = true)
    (hfail : ∀ entry, patches[j]? = some entry → passes testFn stateAt entry = false) :
    ∃ result tested k previous entry, run graph testFn good bad writerId = .ok (result, tested) ∧
      Transition testFn stateAt patches i j writerId result tested k previous entry := by
  obtain ⟨⟨first, hfirst, -⟩, ⟨last, hlast, -⟩⟩ := And.intro hgood.1 hbad.1
  have hj := (List.getElem?_eq_some_iff.mp hlast).1
  obtain ⟨n, hn⟩ : ∃ n, j = i + (n + 1) := ⟨j - i - 1, by omega⟩
  have hcandidates := candidates_of_places hmaterialize hj hij
  have hlength : ((patches.take (j + 1)).drop (i + 1)).length = n + 1 := by
    rw [List.length_drop, List.length_take]
    omega
  have hlast' : j - i - 1 = n := by omega
  rw [hlast'] at hcandidates
  -- the range starts with the good patch below it and ends with the bad one
  have hlow : passesFrom testFn stateAt patches i 0 = true := by rw [passesFrom_eq hfirst, hpass first hfirst]
  have hhigh : passesFrom testFn stateAt patches i (n + 1) = false := by
    rw [hn] at hlast hfail
    rw [passesFrom_eq hlast, hfail last hlast]
  obtain ⟨-, hrange, hbelow, habove⟩ := bisect_turns (Nat.zero_le n) hlow hhigh
  have htests := length_bisect_le (passesFrom testFn stateAt patches i) 0 n
  obtain ⟨entry, hchosen, hentry, -⟩ := hcandidates _ hrange
  obtain ⟨tested, htested, hrun⟩ := searchCandidates_eq writerId hcandidates hlength hchosen
  obtain ⟨previous, hprevious, hprevious_passes⟩ := (Option.any_eq_true _ _).mp hbelow
  rw [passesFrom_eq hentry] at habove
  refine ⟨_, tested, i + ((bisect (passesFrom testFn stateAt patches i) 0 n).1 + 1), previous, entry,
    (run_of_places hpatches hgood hbad hij).trans hrun, ?_⟩
  exact {
    after_good := by omega
    upto_bad := by omega
    previous_place := by simpa [Nat.add_assoc] using hprevious
    entry_place := hentry
    reported := by rw [hn, Nat.add_sub_cancel_left]
    previous_passes := hprevious_passes
    entry_fails := habove
    tests := by
      rw [hn, Nat.add_sub_cancel_left, htested]
      exact htests }

/-- Where failing is kept, all patches before a transition pass. -/
theorem Transition.first_bad {testFn : WarpStateV5 V → JsString → Bool} {stateAt : Nat → WarpStateV5 V}
    {patches : List (PatchEntry V)} {i j k : Nat} {writerId : JsString} {result : BisectResult} {tested : List JsString}
    {previous entry : PatchEntry V} (h : Transition testFn stateAt patches i j writerId result tested k previous entry)
    (hmonotone : Monotone testFn stateAt patches) {l : Nat} (hl : l < k) {earlier : PatchEntry V}
    (hearlier : patches[l]? = some earlier) : passes testFn stateAt earlier = true := by
  by_contra hfails
  rw [Bool.not_eq_true] at hfails
  have hpasses := h.previous_passes
  have hplace := h.previous_place
  rcases Nat.lt_or_ge l (k - 1) with hlt | hge
  · obtain ⟨hlen, hget⟩ := List.getElem?_eq_some_iff.mp hearlier
    obtain ⟨hlen', hget'⟩ := List.getElem?_eq_some_iff.mp hplace
    have hkept := List.pairwise_iff_getElem.mp hmonotone l (k - 1) hlen hlen' hlt (by rw [hget]; exact hfails)
    rw [hget', hpasses] at hkept
    exact absurd hkept (by decide)
  · have hl : l = k - 1 := by omega
    rw [hl, hplace] at hearlier
    rw [← Option.some.inj hearlier, hpasses] at hfails
    exact absurd hfails (by decide)

/-- Bisection between a patch that passes the test and a later one that fails it reports a real transition, within the
logarithm of the number of candidates, and the first bad patch where the test is monotone. -/
theorem run_finds_transition {graph : BisectGraph V} {testFn : WarpStateV5 V → JsString → Bool}
    {stateAt : Nat → WarpStateV5 V} {patches : List (PatchEntry V)} {good bad writerId : JsString} {i j : Nat}
    (hpatches : graph.getWriterPatches writerId = .ok patches)
    (hmaterialize : ∀ entry ∈ patches, graph.materialize entry.patch.lamport = .ok (stateAt entry.patch.lamport))
    (hgood : Place patches good i) (hbad : Place patches bad j) (hij : i < j)
    (hpass : ∀ entry, patches[i]? = some entry → passes testFn stateAt entry = true)
    (hfail : ∀ entry, patches[j]? = some entry → passes testFn stateAt entry = false) :
    ∃ result tested k previous entry, run graph testFn good bad writerId = .ok (result, tested) ∧
      Transition testFn stateAt patches i j writerId result tested k previous entry ∧
      (Monotone testFn stateAt patches → ∀ l < k, ∀ earlier, patches[l]? = some earlier →
        passes testFn stateAt earlier = true) := by
  obtain ⟨result, tested, k, previous, entry, hrun, htransition⟩ :=
    run_transition hpatches hmaterialize hgood hbad hij hpass hfail
  refine ⟨result, tested, k, previous, entry, hrun, htransition, ?_⟩
  intro hmonotone l hl earlier hearlier
  exact htransition.first_bad hmonotone hl hearlier

/-- A chain of three patches, each of which adds a node. -/
def chainOfThree : List (PatchEntry Nat) :=
  [⟨⟨2, js "w", 1, .record [(js "w", 1)], [.nodeAdd (js "x") ⟨js "w", 1⟩]⟩, js "aaaa"⟩,
    ⟨⟨2, js "w", 2, .record [(js "w", 2)], [.nodeAdd (js "y") ⟨js "w", 2⟩]⟩, js "bbbb"⟩,
    ⟨⟨2, js "w", 3, .record [(js "w", 3)], [.nodeAdd (js "z") ⟨js "w", 3⟩]⟩, js "cccc"⟩]

/-- A graph with this chain, which is replayed up to a tick. -/
def graphOfThree : BisectGraph Nat :=
  ⟨fun _ => .ok chainOfThree, fun tick => reduceV5 (chainOfThree.filter fun entry => entry.patch.lamport ≤ tick)⟩

def stateOfThree (tick : Nat) : WarpStateV5 Nat := (graphOfThree.materialize tick).toOption.getD createEmptyStateV5

/-- The second node is not there. -/
def lacksSecond (state : WarpStateV5 Nat) (_ : JsString) : Bool := !orsetContains state.nodeAlive (js "y")

theorem run_finds_transition_three :
    ∃ result tested k previous entry,
      run graphOfThree lacksSecond (js "aaaa") (js "cccc") (js "w") = .ok (result, tested) ∧
      Transition lacksSecond stateOfThree chainOfThree 0 2 (js "w") result tested k previous entry ∧
      ∀ l < k, ∀ earlier, chainOfThree[l]? = some earlier → passes lacksSecond stateOfThree earlier = true := by
  have hgood : Place chainOfThree (js "aaaa") 0 := ⟨⟨_, rfl, rfl⟩, fun i hi => absurd hi (Nat.not_lt_zero i)⟩
  have hbad : Place chainOfThree (js "cccc") 2 := by
    refine ⟨⟨_, rfl, rfl⟩, ?_⟩
    intro i hi entry hentry
    have hbefore : entry.sha = js "aaaa" ∨ entry.sha = js "bbbb" := by
      obtain rfl | rfl : i = 0 ∨ i = 1 := by omega
      · exact Or.inl (Option.some.inj hentry ▸ rfl)
      · exact Or.inr (Option.some.inj hentry ▸ rfl)
    rcases hbefore with h | h <;> rw [h] <;> decide
  have hmaterialize : ∀ entry ∈ chainOfThree,
      graphOfThree.materialize entry.patch.lamport = .ok (stateOfThree entry.patch.lamport) := by
    have hok : ∀ entry ∈ chainOfThree, (graphOfThree.materialize entry.patch.lamport).isOk = true := by decide
    intro entry hentry
    have hread := hok entry hentry
    cases hstate : graphOfThree.materialize entry.patch.lamport with
    | error err =>
        rw [hstate] at hread
        cases hread
    | ok state =>
        rw [stateOfThree, hstate]
        rfl
  have hpatches : graphOfThree.getWriterPatches (js "w") = .ok chainOfThree := rfl
  have hpass : ∀ entry, chainOfThree[0]? = some entry → passes lacksSecond stateOfThree entry = true := by
    intro entry hentry
    rw [← Option.some.inj hentry]
    decide
  have hfail : ∀ entry, chainOfThree[2]? = some entry → passes lacksSecond stateOfThree entry = false := by
    intro entry hentry
    rw [← Option.some.inj hentry]
    decide
  have hmonotone : Monotone lacksSecond stateOfThree chainOfThree := by
    unfold Monotone
    decide
  obtain ⟨result, tested, k, previous, entry, hrun, htransition, hfirst⟩ :=
    run_finds_transition hpatches hmaterialize hgood hbad (by decide) hpass hfail
  exact ⟨result, tested, k, previous, entry, hrun, htransition, hfirst hmonotone⟩

end Bisect

end GitWarp
