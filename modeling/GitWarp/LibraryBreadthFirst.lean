import GitWarp.LibraryDepthFirst
import GitWarp.LibraryWalks
import GitWarp.LibraryWhile
import Mathlib.Data.List.TakeWhile

/-! Breadth-first orders with a bound on the depth. The next visit is the first unvisited neighbor of the earliest visit
that has one. The depth of a visit is its distance from the start. -/

namespace GitWarp.BreadthFirst

open Layers DepthFirst

variable {α : Type} [DecidableEq α]

section Definitions

variable (next : α → List α) (start : α) (bound : Nat)

/-- What may be visited next, those of the earliest visit first. -/
def candidates (visits : List (α × Nat)) : List (α × Nat) :=
  visits.flatMap (unvisited next bound (visits.map Prod.fst))

def visitNext (visits : List (α × Nat)) : Option (List (α × Nat)) :=
  (candidates next bound visits).head?.map fun visit => visits ++ [visit]

/-- The start and the visits after it, at most as many as the count. -/
def order (count : Nat) : List (α × Nat) := While.loop (visitNext next bound) count [(start, 0)]

end Definitions

variable {next : α → List α} {start : α} {bound : Nat}

theorem mem_candidates {visits : List (α × Nat)} {v : α} {depth : Nat} : (v, depth) ∈ candidates next bound visits ↔
    ∃ visit ∈ visits, visit.2 < bound ∧ depth = visit.2 + 1 ∧ v ∈ next visit.1 ∧ v ∉ visits.map Prod.fst := by
  rw [candidates, List.mem_flatMap]
  exact exists_congr fun visit => and_congr_right fun _ => mem_unvisited

/-- A new visit is no candidate any more and brings its unvisited neighbors. -/
theorem candidates_concat (visits : List (α × Nat)) (visit : α × Nat) :
    candidates next bound (visits ++ [visit]) =
      fresh Prod.fst ((visits ++ [visit]).map Prod.fst) (candidates next bound visits) ++
        unvisited next bound ((visits ++ [visit]).map Prod.fst) visit := by
  rw [candidates, List.flatMap_append, List.flatMap_singleton, candidates, fresh, List.filter_flatMap]
  congr 2
  funext earlier
  refine (fresh_unvisited (fun v hv => ?_) earlier).symm
  rw [List.map_append]
  exact List.mem_append_left _ hv

/-! ### The depth of a visit -/

/-- Visits so far: each at its distance, in the order of the distances, and none that is left is nearer. -/
structure Layered (next : α → List α) (start : α) (bound : Nat) (visits : List (α × Nat)) : Prop where
  head : ∃ rest, visits = (start, 0) :: rest
  nodup : (visits.map Prod.fst).Nodup
  distance : ∀ visit ∈ visits, visit.2 ≤ bound ∧ Distance (fun u v => v ∈ next u) {v | v = start} visit.2 visit.1
  sorted : visits.Pairwise fun visit later => visit.2 ≤ later.2
  nearer : ∀ n v, Distance (fun u v => v ∈ next u) {v | v = start} n v → v ∉ visits.map Prod.fst →
    ∀ visit ∈ visits, visit.2 ≤ n

omit [DecidableEq α] in
theorem Layered.start_visits (bound : Nat) : Layered next start bound [(start, 0)] := by
  refine ⟨⟨[], rfl⟩, List.nodup_singleton _, fun visit hvisit => ?_, List.pairwise_singleton _ _,
    fun n v _ _ visit hvisit => ?_⟩
  · rw [List.mem_singleton.mp hvisit]
    exact ⟨Nat.zero_le _, distance_zero_iff.mpr rfl⟩
  · rw [List.mem_singleton.mp hvisit]
    exact Nat.zero_le n

omit [DecidableEq α] in
theorem Layered.start_mem {visits : List (α × Nat)} (h : Layered next start bound visits) : (start, 0) ∈ visits := by
  obtain ⟨rest, rfl⟩ := h.head
  exact List.mem_cons_self

omit [DecidableEq α] in
theorem Layered.depth_eq {visits : List (α × Nat)} (h : Layered next start bound visits) {v : α} {n m : Nat}
    (hvisit : (v, n) ∈ visits) (hdistance : Distance (fun u v => v ∈ next u) {v | v = start} m v) : n = m :=
  (h.distance _ hvisit).2.unique hdistance

/-- The way to a node within the bound that is not visited leads through a candidate that is no further. -/
theorem Layered.exists_candidate {visits : List (α × Nat)} (h : Layered next start bound visits) {n : Nat} {v : α}
    (hdistance : Distance (fun u v => v ∈ next u) {v | v = start} n v) (hbound : n ≤ bound)
    (hnew : v ∉ visits.map Prod.fst) : ∃ w m, m ≤ n ∧ (w, m) ∈ candidates next bound visits := by
  induction n generalizing v with
  | zero =>
      have hv : v ∈ {v | v = start} := distance_zero_iff.mp hdistance
      rw [show v = start from hv] at hnew
      exact absurd (List.mem_map_of_mem h.start_mem) hnew
  | succ n ih =>
      obtain ⟨⟨u, hu, hstep⟩, -⟩ := distance_succ_iff.mp hdistance
      by_cases hvisited : u ∈ visits.map Prod.fst
      · obtain ⟨⟨_, m⟩, hvisit, rfl⟩ := List.mem_map.mp hvisited
        obtain rfl := h.depth_eq hvisit hu
        exact ⟨v, m + 1, le_rfl, mem_candidates.mpr ⟨_, hvisit, hbound, rfl, hstep, hnew⟩⟩
      · obtain ⟨w, m, hm, hmem⟩ := ih hu (by omega) hvisited
        exact ⟨w, m, by omega, hmem⟩

/-- The candidates come in the order of their depths. -/
theorem Layered.candidates_sorted {visits : List (α × Nat)} (h : Layered next start bound visits) :
    (candidates next bound visits).Pairwise fun visit later => visit.2 ≤ later.2 := by
  rw [candidates, List.pairwise_flatMap]
  have hdepth : ∀ visit entry, entry ∈ unvisited next bound (visits.map Prod.fst) visit → entry.2 = visit.2 + 1 :=
    fun visit entry hentry => (mem_unvisited.mp hentry).2.1
  constructor
  · intro visit _
    refine List.pairwise_of_forall_mem_list fun entry hentry later hlater => ?_
    rw [hdepth visit entry hentry, hdepth visit later hlater]
  · refine h.sorted.imp fun hle entry hentry later hlater => ?_
    rw [hdepth _ entry hentry, hdepth _ later hlater]
    omega

/-- The first candidate is no further than any node that is not visited. -/
theorem Layered.visit {visits rest : List (α × Nat)} {visit : α × Nat} (h : Layered next start bound visits)
    (hcandidates : candidates next bound visits = visit :: rest) : Layered next start bound (visits ++ [visit]) := by
  obtain ⟨v, depth⟩ := visit
  have hmem : (v, depth) ∈ candidates next bound visits := hcandidates ▸ List.mem_cons_self
  obtain ⟨u, hu, hdepth, rfl, hv, hnew⟩ := mem_candidates.mp hmem
  have hfirst : ∀ n w, Distance (fun u v => v ∈ next u) {v | v = start} n w → w ∉ visits.map Prod.fst → u.2 + 1 ≤ n := by
    intro n w hdistance hfree
    by_contra hless
    obtain ⟨x, m, hm, hx⟩ := h.exists_candidate hdistance (by omega) hfree
    have hsorted := h.candidates_sorted
    rw [hcandidates, List.pairwise_cons] at hsorted
    rw [hcandidates] at hx
    rcases List.mem_cons.mp hx with heq | hx
    · obtain ⟨-, rfl⟩ := Prod.mk.inj heq
      omega
    · have hle := hsorted.1 (x, m) hx
      dsimp only at hle
      omega
  have hdistance : Distance (fun u v => v ∈ next u) {v | v = start} (u.2 + 1) v := by
    obtain ⟨m, hm, hdistance⟩ := (StepsTo.step (h.distance u hu).2.1 hv).exists_distance
    obtain rfl : m = u.2 + 1 := le_antisymm hm (hfirst m v hdistance hnew)
    exact hdistance
  refine ⟨?_, ?_, fun visit hvisit => ?_, ?_, fun n w hw hfree visit hvisit => ?_⟩
  · obtain ⟨tail, rfl⟩ := h.head
    exact ⟨tail ++ [(v, u.2 + 1)], rfl⟩
  · rw [List.map_append]
    exact h.nodup.append (List.nodup_singleton _) (by simpa using hnew)
  · rcases List.mem_append.mp hvisit with hvisit | hvisit
    · exact h.distance visit hvisit
    · rw [List.mem_singleton.mp hvisit]
      exact ⟨hdepth, hdistance⟩
  · rw [List.pairwise_append]
    refine ⟨h.sorted, List.pairwise_singleton _ _, fun visit hvisit later hlater => ?_⟩
    rw [List.mem_singleton.mp hlater]
    exact h.nearer _ v hdistance hnew visit hvisit
  · rw [List.map_append, List.mem_append, not_or] at hfree
    rcases List.mem_append.mp hvisit with hvisit | hvisit
    · exact h.nearer n w hw hfree.1 visit hvisit
    · rw [List.mem_singleton.mp hvisit]
      exact hfirst n w hw hfree.1

/-- Where nothing is left to visit, all nodes within the bound are visited. -/
theorem Layered.complete {visits : List (α × Nat)} (h : Layered next start bound visits)
    (hcandidates : candidates next bound visits = []) {n : Nat} {v : α} (hbound : n ≤ bound)
    (hdistance : Distance (fun u v => v ∈ next u) {v | v = start} n v) : v ∈ visits.map Prod.fst := by
  by_contra hnew
  obtain ⟨w, m, -, hmem⟩ := h.exists_candidate hdistance hbound hnew
  rw [hcandidates] at hmem
  cases hmem

/-! ### The order -/

theorem visitNext_of_candidates {visits rest : List (α × Nat)} {visit : α × Nat}
    (h : candidates next bound visits = visit :: rest) : visitNext next bound visits = some (visits ++ [visit]) := by
  rw [visitNext, h]
  rfl

theorem layered_order (count : Nat) : Layered next start bound (order next start bound count) := by
  apply While.loop_invariant _ count (Layered.start_visits bound)
  intro visits visits' h hnext
  unfold visitNext at hnext
  cases hcandidates : candidates next bound visits with
  | nil =>
      rw [hcandidates] at hnext
      cases hnext
  | cons visit rest =>
      rw [hcandidates] at hnext
      cases hnext
      exact h.visit hcandidates

/-- One more visit where there is a candidate. -/
theorem order_succ {count : Nat} {rest : List (α × Nat)} {visit : α × Nat}
    (h : candidates next bound (order next start bound count) = visit :: rest) :
    order next start bound (count + 1) = order next start bound count ++ [visit] := by
  rw [order, While.loop_add, While.loop, ← order, visitNext_of_candidates h]
  rfl

/-- The order goes on from what is visited. -/
theorem order_prefix {count more : Nat} (hle : count ≤ more) : order next start bound count <+: order next start bound more := by
  obtain ⟨extra, rfl⟩ := Nat.exists_eq_add_of_le hle
  rw [order, order, While.loop_add]
  apply While.loop_invariant _ extra (List.prefix_refl _)
  intro visits visits' h hnext
  obtain ⟨visit, -, rfl⟩ := Option.map_eq_some_iff.mp hnext
  exact h.trans (List.prefix_append _ _)

/-- As many visits as there are nodes make the whole order. -/
theorem order_prefix_of_nodes {nodes : List α} (hstart : start ∈ nodes) (hnext : ∀ u, ∀ v ∈ next u, v ∈ nodes) (count : Nat) :
    order next start bound count <+: order next start bound nodes.length := by
  rcases Nat.le_total count nodes.length with hle | hle
  · exact order_prefix hle
  · let P : List (α × Nat) → Prop := fun visits =>
      (visits.map Prod.fst).Nodup ∧ (∀ v ∈ visits.map Prod.fst, v ∈ nodes)
    have hturn : ∀ visits visits', P visits → visitNext next bound visits = some visits' →
        P visits' ∧ nodes.length - visits'.length < nodes.length - visits.length := by
      intro visits visits' h hvisit
      obtain ⟨⟨v, depth⟩, hhead, rfl⟩ := Option.map_eq_some_iff.mp hvisit
      obtain ⟨u, -, -, -, hv, hnew⟩ := mem_candidates.mp (List.mem_of_head? hhead)
      have hnodup : ((visits ++ [(v, depth)]).map Prod.fst).Nodup := by
        rw [List.map_append]
        exact h.1.append (List.nodup_singleton _) (by simpa using hnew)
      have hnodes : ∀ w ∈ (visits ++ [(v, depth)]).map Prod.fst, w ∈ nodes := by
        rw [List.map_append]
        intro w hw
        rcases List.mem_append.mp hw with hw | hw
        · exact h.2 w hw
        · exact List.mem_singleton.mp hw ▸ hnext u.1 v hv
      have hlength := (List.subperm_of_subset hnodup hnodes).length_le
      rw [List.length_map, List.length_append, List.length_singleton] at hlength
      refine ⟨⟨hnodup, hnodes⟩, ?_⟩
      rw [List.length_append, List.length_singleton]
      omega
    have hfirst : P [(start, 0)] :=
      ⟨List.nodup_singleton _, fun v hv => List.mem_singleton.mp hv ▸ hstart⟩
    have hstop := While.loop_stops hturn hfirst (Nat.sub_le nodes.length 1)
    obtain ⟨extra, rfl⟩ := Nat.exists_eq_add_of_le hle
    rw [order, While.loop_add, While.loop_of_stopped hstop]
    exact List.prefix_refl _

/-! ### The last parent -/

section LastParent

variable (next start)

/-- The last node before a node, in the order of the visits, that leads to it. -/
def lastParent (visits : List (α × Nat)) (v : α) : Option α :=
  ((visits.map Prod.fst).takeWhile (· ≠ v)).reverse.find? fun u => v ∈ next u

/-- The way back over the last parents comes one nearer to the start with every step. -/
inductive Straight (visits : List (α × Nat)) : α → Prop
  | start : Straight visits start
  | next {u v : α} {n : Nat} : lastParent next visits v = some u → (u, n) ∈ visits → (v, n + 1) ∈ visits →
      Straight visits u → Straight visits v

variable {next start}

theorem takeWhile_append_of_notMem {nodes : List α} {v : α} (h : v ∉ nodes) (more : List α) :
    (nodes ++ more).takeWhile (· ≠ v) = nodes ++ more.takeWhile (· ≠ v) := by
  apply List.takeWhile_append_of_pos
  intro u hu
  rw [decide_eq_true_eq]
  exact fun heq => h (heq ▸ hu)

theorem takeWhile_append_of_mem {nodes : List α} {v : α} (h : v ∈ nodes) (more : List α) :
    (nodes ++ more).takeWhile (· ≠ v) = nodes.takeWhile (· ≠ v) := by
  induction nodes with
  | nil => cases h
  | cons u rest ih =>
      by_cases heq : u = v
      · rw [List.cons_append, List.takeWhile_cons_of_neg (by simpa using heq), List.takeWhile_cons_of_neg (by simpa using heq)]
      · rw [List.cons_append, List.takeWhile_cons_of_pos (by simpa using heq), List.takeWhile_cons_of_pos (by simpa using heq),
          ih (List.mem_of_ne_of_mem (Ne.symm heq) h)]

/-- A visit makes a parent of what it leads to, less what is visited. -/
theorem lastParent_concat (visits : List (α × Nat)) (visit : α × Nat) (v : α) :
    lastParent next (visits ++ [visit]) v =
      if v ∈ next visit.1 ∧ v ∉ (visits ++ [visit]).map Prod.fst then some visit.1 else lastParent next visits v := by
  unfold lastParent
  rw [List.map_append, List.map_singleton]
  by_cases hvisited : v ∈ visits.map Prod.fst
  · rw [if_neg fun h => h.2 (List.mem_append_left _ hvisited), takeWhile_append_of_mem hvisited]
  · have hall := takeWhile_append_of_notMem hvisited []
    rw [List.append_nil, List.takeWhile_nil, List.append_nil] at hall
    rw [hall, takeWhile_append_of_notMem hvisited]
    by_cases hself : visit.1 = v
    · rw [if_neg fun h => h.2 (List.mem_append_right _ (hself ▸ List.mem_singleton_self _)),
        List.takeWhile_cons_of_neg (by simpa using hself), List.append_nil]
    · rw [List.takeWhile_cons_of_pos (by simpa using hself), List.takeWhile_nil, List.reverse_concat]
      by_cases hstep : v ∈ next visit.1
      · rw [List.find?_cons_of_pos (by simpa using hstep), if_pos ⟨hstep, by simp [hvisited, Ne.symm hself]⟩]
      · rw [List.find?_cons_of_neg (by simpa using hstep), if_neg fun h => hstep h.1]

/-- What is visited later is no parent of what is visited. -/
theorem lastParent_mono {visits more : List (α × Nat)} (h : visits <+: more) {v : α} (hv : v ∈ visits.map Prod.fst) :
    lastParent next more v = lastParent next visits v := by
  obtain ⟨rest, rfl⟩ := h
  rw [lastParent, List.map_append, takeWhile_append_of_mem hv, lastParent]

theorem lastParent_eq_some {visits : List (α × Nat)} {u v : α}
    (h : lastParent next visits v = some u) : v ∈ next u ∧ u ∈ visits.map Prod.fst ∧
      (visits.map Prod.fst).idxOf u < (visits.map Prod.fst).idxOf v := by
  have hstep : v ∈ next u := of_decide_eq_true (List.find?_some (p := fun u => decide (v ∈ next u)) h)
  have hbefore : u ∈ (visits.map Prod.fst).takeWhile (· ≠ v) := List.mem_reverse.mp (List.mem_of_find?_eq_some h)
  have hsplit := List.takeWhile_append_dropWhile (p := fun u => decide (u ≠ v)) (l := visits.map Prod.fst)
  have hnot : v ∉ (visits.map Prod.fst).takeWhile (· ≠ v) := by
    intro hmem
    simpa using List.mem_takeWhile_imp hmem
  refine ⟨hstep, (List.takeWhile_prefix _).subset hbefore, ?_⟩
  rw [← hsplit, List.idxOf_append_of_mem hbefore, List.idxOf_append_of_notMem hnot]
  exact Nat.lt_add_right _ (List.idxOf_lt_length_of_mem hbefore)

theorem Layered.lastParent_start {visits : List (α × Nat)} (h : Layered next start bound visits) :
    lastParent next visits start = none := by
  obtain ⟨rest, rfl⟩ := h.head
  rw [lastParent, List.map_cons, List.takeWhile_cons_of_neg (by simp)]
  rfl

/-- Every other visit has a parent before it, and is at most one step further than that. -/
theorem Layered.exists_lastParent {visits : List (α × Nat)} (h : Layered next start bound visits) {v : α} {n : Nat}
    (hv : (v, n) ∈ visits) (hne : v ≠ start) : ∃ u m, lastParent next visits v = some u ∧ (u, m) ∈ visits := by
  cases n with
  | zero => exact absurd (distance_zero_iff.mp (h.distance _ hv).2) hne
  | succ n =>
      obtain ⟨⟨u, hu, hstep⟩, -⟩ := distance_succ_iff.mp (h.distance _ hv).2
      have hvisited : u ∈ visits.map Prod.fst := by
        by_contra hnew
        have hle := h.nearer n u hu hnew _ hv
        dsimp only at hle
        omega
      obtain ⟨⟨x, m⟩, humem, heq⟩ := List.mem_map.mp hvisited
      obtain rfl : x = u := heq
      obtain rfl := h.depth_eq humem hu
      obtain ⟨before, after, rfl⟩ := List.append_of_mem hv
      have hnodup := h.nodup
      rw [List.map_append, List.map_cons] at hnodup
      have hfresh : v ∉ before.map Prod.fst := fun hmem =>
        (List.nodup_append.mp hnodup).2.2 v hmem v List.mem_cons_self rfl
      have hbefore : (before ++ (v, m + 1) :: after |>.map Prod.fst).takeWhile (· ≠ v) = before.map Prod.fst := by
        rw [List.map_append, takeWhile_append_of_notMem hfresh, List.map_cons, List.takeWhile_cons_of_neg (by simp),
          List.append_nil]
      have hearly : x ∈ before.map Prod.fst := by
        rcases List.mem_append.mp humem with hmem | hmem
        · exact List.mem_map_of_mem hmem
        · rcases List.mem_cons.mp hmem with heq | hmem
          · have hdepth := congrArg Prod.snd heq
            dsimp only at hdepth
            omega
          · have hle := (List.pairwise_cons.mp (List.pairwise_append.mp h.sorted).2.1).1 _ hmem
            dsimp only at hle
            omega
      obtain ⟨w, hw⟩ : ∃ w, lastParent next (before ++ (v, m + 1) :: after) v = some w := by
        rw [← Option.isSome_iff_exists, lastParent, hbefore, List.find?_isSome]
        exact ⟨x, List.mem_reverse.mpr hearly, decide_eq_true hstep⟩
      obtain ⟨⟨_, k⟩, hwmem, rfl⟩ := List.mem_map.mp (lastParent_eq_some hw).2.1
      exact ⟨_, k, hw, hwmem⟩

variable (next) in
/-- A step from the last parent, with the difference of the depths. -/
def ParentArc (visits : List (α × Nat)) (u v : α) (w : Int) : Prop :=
  lastParent next visits v = some u ∧ ∃ n m, (u, n) ∈ visits ∧ (v, m) ∈ visits ∧ (m : Int) = n + w

theorem Layered.arc_le {visits : List (α × Nat)} (h : Layered next start bound visits) {u v : α} {w : Int}
    (harc : ParentArc next visits u v w) : w ≤ 1 := by
  obtain ⟨hparent, n, m, hu, hv, hdepth⟩ := harc
  have hle : m ≤ n + 1 := (h.distance _ hv).2.2 (StepsTo.step (h.distance _ hu).2.1 (lastParent_eq_some hparent).1)
  omega

/-- A walk over last parents is as short as its weight exactly where it is straight. -/
theorem Layered.straight_iff {visits : List (α × Nat)} (h : Layered next start bound visits) {u t : α} {path : List α}
    {c : Int} (hwalk : IsWalk (ParentArc next visits) u t path c) :
    c + 1 ≤ path.length ∧ (Straight next start visits u → (path.length : Int) = c + 1 → Straight next start visits t) ∧
      (Straight next start visits t → Straight next start visits u ∧ (path.length : Int) = c + 1) := by
  induction hwalk with
  | nil v => exact ⟨le_rfl, fun hstraight _ => hstraight, fun hstraight => ⟨hstraight, rfl⟩⟩
  | @cons u v t path w c harc hwalk ih =>
      obtain ⟨hle, hforward, hback⟩ := ih
      have hone := h.arc_le harc
      obtain ⟨hparent, n, m, hu, hv, hdepth⟩ := harc
      rw [List.length_cons, Int.natCast_succ]
      refine ⟨by omega, fun hstraight hlength => ?_, fun hstraight => ?_⟩
      · obtain rfl : m = n + 1 := by omega
        exact hforward (.next hparent hu hv hstraight) (by omega)
      · obtain ⟨hv', hlength⟩ := hback hstraight
        cases hv' with
        | start => cases h.lastParent_start.symm.trans hparent
        | @next u' _ k hparent' hu' hv' hstraight' =>
            obtain rfl : u' = u := Option.some.inj (hparent'.symm.trans hparent)
            have hn : k = n := h.depth_eq hu' (h.distance _ hu).2
            have hm : k + 1 = m := h.depth_eq hv' (h.distance _ hv).2
            exact ⟨hstraight', by omega⟩

end LastParent

end GitWarp.BreadthFirst
