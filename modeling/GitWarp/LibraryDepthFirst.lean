import GitWarp.LibraryLayers
import Mathlib.Algebra.Order.BigOperators.Group.List
import Mathlib.Algebra.Order.Ring.Nat
import Mathlib.Data.List.Nodup

/-! Depth-first orders with a bound on the depth. The next visit is the first unvisited neighbor of the latest visit
that has one and lies above the bound. Such an order may come to a node by a longer way than it needs. -/

namespace GitWarp.DepthFirst

open Layers

variable {α : Type} [DecidableEq α]

/-! ### What is not visited -/

/-- The entries whose nodes are not visited. -/
def fresh {β : Type} (node : β → α) (visited : List α) (entries : List β) : List β :=
  entries.filter fun entry => node entry ∉ visited

section Fresh

variable {β : Type} (node : β → α) {visited visited' : List α} {entries : List β}

theorem mem_fresh {entry : β} : entry ∈ fresh node visited entries ↔ entry ∈ entries ∧ node entry ∉ visited := by
  rw [fresh, List.mem_filter, decide_eq_true_eq]

theorem fresh_cons_of_mem {entry : β} (h : node entry ∈ visited) :
    fresh node visited (entry :: entries) = fresh node visited entries :=
  List.filter_cons_of_neg (by simpa using h)

theorem fresh_cons_of_not_mem {entry : β} (h : node entry ∉ visited) :
    fresh node visited (entry :: entries) = entry :: fresh node visited entries :=
  List.filter_cons_of_pos (by simpa using h)

theorem fresh_append (entries entries' : List β) :
    fresh node visited (entries ++ entries') = fresh node visited entries ++ fresh node visited entries' :=
  List.filter_append ..

theorem length_fresh_le : (fresh node visited entries).length ≤ entries.length := List.length_filter_le ..

theorem fresh_eq_self (h : ∀ entry ∈ entries, node entry ∉ visited) : fresh node visited entries = entries :=
  List.filter_eq_self.mpr fun entry hentry => decide_eq_true (h entry hentry)

theorem fresh_fresh (hmore : ∀ v ∈ visited, v ∈ visited') :
    fresh node visited' (fresh node visited entries) = fresh node visited' entries := by
  rw [fresh, fresh, List.filter_filter]
  apply List.filter_congr
  intro entry _
  rw [← Bool.decide_and]
  exact decide_eq_decide.mpr ⟨fun h => h.1, fun h => ⟨h, fun hmem => h (hmore _ hmem)⟩⟩

end Fresh

/-- The weights of the nodes that are not visited. -/
def unseen (weight : α → Nat) (nodes visited : List α) : Nat := (nodes.map fun u => if u ∈ visited then 0 else weight u).sum

/-- A visit takes its weight off. -/
theorem unseen_visit (weight : α → Nat) {nodes visited : List α} {v : α} (hv : v ∈ nodes) (hnew : v ∉ visited) :
    unseen weight nodes (visited ++ [v]) + weight v ≤ unseen weight nodes visited := by
  have hle : ∀ nodes : List α, unseen weight nodes (visited ++ [v]) ≤ unseen weight nodes visited := by
    intro nodes
    apply List.sum_le_sum
    intro u _
    by_cases hu : u ∈ visited
    · simp [hu]
    · by_cases huv : u = v
      · simp [huv]
      · simp [hu, huv]
  induction nodes with
  | nil => cases hv
  | cons u rest ih =>
      unfold unseen at ih ⊢
      rw [List.map_cons, List.map_cons, List.sum_cons, List.sum_cons]
      by_cases huv : u = v
      · subst huv
        have hrest := hle rest
        unfold unseen at hrest
        rw [if_pos (List.mem_append_right _ (List.mem_singleton_self _)), if_neg hnew]
        omega
      · have hrest := ih (List.mem_of_ne_of_mem (Ne.symm huv) hv)
        by_cases hu : u ∈ visited
        · rw [if_pos (List.mem_append_left _ hu), if_pos hu]
          omega
        · rw [if_neg (by simp [hu, huv]), if_neg hu]
          omega

variable (next : α → List α) (start : α) (bound : Nat)

/-- The unvisited neighbors of a visit above the bound, with the depth of their visit. -/
def unvisited (visited : List α) (visit : α × Nat) : List (α × Nat) :=
  if visit.2 < bound then (fresh id visited (next visit.1)).map (·, visit.2 + 1) else []

/-- What may be visited next, those of the latest visit first. -/
def candidates (visits : List (α × Nat)) : List (α × Nat) :=
  visits.reverse.flatMap (unvisited next bound (visits.map Prod.fst))

inductive Visits : List (α × Nat) → Prop
  | start : Visits [(start, 0)]
  | next {visits rest : List (α × Nat)} {visit : α × Nat} : Visits visits →
      candidates next bound visits = visit :: rest → Visits (visits ++ [visit])

/-- Visits that go on until there is nothing left to visit. -/
structure Order (visits : List (α × Nat)) : Prop where
  made : Visits next start bound visits
  complete : candidates next bound visits = []

variable {next start bound}

theorem mem_unvisited {visited : List α} {visit : α × Nat} {v : α} {depth : Nat} :
    (v, depth) ∈ unvisited next bound visited visit ↔
      visit.2 < bound ∧ depth = visit.2 + 1 ∧ v ∈ next visit.1 ∧ v ∉ visited := by
  unfold unvisited
  split
  · rename_i hlt
    simp only [List.mem_map, mem_fresh, Prod.mk.injEq, id_eq]
    constructor
    · intro h
      obtain ⟨w, hw, rfl, rfl⟩ := h
      exact ⟨hlt, rfl, hw⟩
    · intro h
      exact ⟨v, h.2.2, rfl, h.2.1.symm⟩
  · rename_i hge
    exact iff_of_false List.not_mem_nil fun h => hge h.1

theorem mem_candidates {visits : List (α × Nat)} {v : α} {depth : Nat} : (v, depth) ∈ candidates next bound visits ↔
    ∃ visit ∈ visits, visit.2 < bound ∧ depth = visit.2 + 1 ∧ v ∈ next visit.1 ∧ v ∉ visits.map Prod.fst := by
  rw [candidates, List.mem_flatMap]
  refine exists_congr fun visit => ?_
  rw [List.mem_reverse, mem_unvisited]

theorem fresh_unvisited {visited visited' : List α} (hmore : ∀ v ∈ visited, v ∈ visited') (visit : α × Nat) :
    fresh Prod.fst visited' (unvisited next bound visited visit) = unvisited next bound visited' visit := by
  unfold unvisited
  split
  · rw [← fresh_fresh id hmore, fresh, List.filter_map]
    rfl
  · rfl

/-- A new visit brings its unvisited neighbors and is no candidate any more. -/
theorem candidates_concat (visits : List (α × Nat)) (visit : α × Nat) :
    candidates next bound (visits ++ [visit]) = unvisited next bound ((visits ++ [visit]).map Prod.fst) visit ++
      fresh Prod.fst ((visits ++ [visit]).map Prod.fst) (candidates next bound visits) := by
  rw [candidates, List.reverse_concat, List.flatMap_cons, candidates, fresh, List.filter_flatMap]
  congr 2
  funext earlier
  refine (fresh_unvisited (fun v hv => ?_) earlier).symm
  rw [List.map_append]
  exact List.mem_append_left _ hv

/-- Where nothing is left to visit, the neighbors above the bound are visited. -/
theorem Order.closed {visits : List (α × Nat)} (h : Order next start bound visits) {u v : α} {depth : Nat}
    (hu : (u, depth) ∈ visits) (hdepth : depth < bound) (hv : v ∈ next u) : v ∈ visits.map Prod.fst := by
  by_contra hnew
  have hmem : (v, depth + 1) ∈ candidates next bound visits :=
    mem_candidates.mpr ⟨(u, depth), hu, hdepth, rfl, hv, hnew⟩
  rw [h.complete] at hmem
  cases hmem

/-- What holds of the start, and of a neighbor of a visit above the bound, holds of every visit. -/
theorem Visits.induct {visits : List (α × Nat)} (h : Visits next start bound visits) {P : α × Nat → Prop}
    (hstart : P (start, 0)) (hnext : ∀ visit ∈ visits, P visit → visit.2 < bound → ∀ v ∈ next visit.1, P (v, visit.2 + 1)) :
    ∀ visit ∈ visits, P visit := by
  induction h with
  | start =>
      intro visit hvisit
      exact List.mem_singleton.mp hvisit ▸ hstart
  | @next visits rest visit hvisits hcandidates ih =>
      have hbefore := ih fun u hu => hnext u (List.mem_append_left _ hu)
      intro u hu
      rcases List.mem_append.mp hu with hu | hu
      · exact hbefore u hu
      · obtain ⟨v, depth⟩ := visit
        have hmem : (v, depth) ∈ candidates next bound visits := hcandidates ▸ List.mem_cons_self
        obtain ⟨w, hw, hdepth, rfl, hv, -⟩ := mem_candidates.mp hmem
        exact List.mem_singleton.mp hu ▸ hnext w (List.mem_append_left _ hw) (hbefore w hw) hdepth v hv

theorem Visits.start_mem {visits : List (α × Nat)} (h : Visits next start bound visits) : (start, 0) ∈ visits := by
  induction h with
  | start => exact List.mem_singleton_self _
  | next _ _ ih => exact List.mem_append_left _ ih

/-- The depth of a visit counts the steps of a way to it. -/
theorem Visits.steps {visits : List (α × Nat)} (h : Visits next start bound visits) :
    ∀ visit ∈ visits, visit.2 ≤ bound ∧ StepsTo (fun u v => v ∈ next u) {v | v = start} visit.2 visit.1 := by
  refine h.induct (P := fun visit => visit.2 ≤ bound ∧ StepsTo (fun u v => v ∈ next u) {v | v = start} visit.2 visit.1)
    ?_ ?_
  · exact ⟨Nat.zero_le _, .start rfl⟩
  · intro visit _ hvisit hdepth v hv
    exact ⟨hdepth, .step hvisit.2 hv⟩

/-- Every visit but the first comes from one above the bound. -/
theorem Visits.predecessor {visits : List (α × Nat)} (h : Visits next start bound visits) {v : α}
    (hv : v ∈ visits.map Prod.fst) : v = start ∨ ∃ visit ∈ visits, visit.2 < bound ∧ v ∈ next visit.1 := by
  obtain ⟨visit, hvisit, rfl⟩ := List.mem_map.mp hv
  exact h.induct (P := fun visit => visit.1 = start ∨ ∃ u ∈ visits, u.2 < bound ∧ visit.1 ∈ next u.1)
    (.inl rfl) (fun u hu _ hdepth v hv => .inr ⟨u, hu, hdepth, hv⟩) visit hvisit

/-! ### The order is unique -/

theorem Visits.length_pos {visits : List (α × Nat)} (h : Visits next start bound visits) : 0 < visits.length :=
  List.length_pos_of_mem h.start_mem

theorem Visits.unique {visits visits' : List (α × Nat)} (h : Visits next start bound visits)
    (h' : Visits next start bound visits') (hlength : visits.length = visits'.length) : visits = visits' := by
  induction h generalizing visits' with
  | start =>
      cases h' with
      | start => rfl
      | next hvisits _ =>
          have hpos := hvisits.length_pos
          rw [List.length_append, List.length_singleton, List.length_singleton] at hlength
          omega
  | next hvisits hcandidates ih =>
      cases h' with
      | start =>
          have hpos := hvisits.length_pos
          rw [List.length_append, List.length_singleton, List.length_singleton] at hlength
          omega
      | next hvisits' hcandidates' =>
          rw [List.length_append, List.length_append, List.length_singleton, List.length_singleton] at hlength
          obtain rfl := ih hvisits' (by omega)
          rw [hcandidates] at hcandidates'
          rw [(List.cons.inj hcandidates').1]

theorem Visits.exists_of_length {visits : List (α × Nat)} (h : Visits next start bound visits) {length : Nat}
    (hpos : 0 < length) (hless : length < visits.length) :
    ∃ earlier, Visits next start bound earlier ∧ earlier.length = length ∧ candidates next bound earlier ≠ [] := by
  induction h with
  | start =>
      rw [List.length_singleton] at hless
      omega
  | @next visits rest visit hvisits hcandidates ih =>
      rw [List.length_append, List.length_singleton] at hless
      rcases Nat.lt_or_eq_of_le (Nat.le_of_lt_succ hless) with hless | rfl
      · exact ih hless
      · exact ⟨visits, hvisits, rfl, by simp [hcandidates]⟩

theorem Order.unique {visits visits' : List (α × Nat)} (h : Order next start bound visits)
    (h' : Order next start bound visits') : visits = visits' := by
  rcases Nat.lt_trichotomy visits.length visits'.length with hless | heq | hless
  · obtain ⟨earlier, hearlier, hlength, hmore⟩ := h'.made.exists_of_length h.made.length_pos hless
    exact absurd (hearlier.unique h.made hlength ▸ h.complete) hmore
  · exact h.made.unique h'.made heq
  · obtain ⟨earlier, hearlier, hlength, hmore⟩ := h.made.exists_of_length h'.made.length_pos hless
    exact absurd (hearlier.unique h'.made hlength ▸ h'.complete) hmore

/-! ### What the order comes to -/

/-- A node within the bound. -/
def Within (next : α → List α) (start : α) (bound : Nat) (v : α) : Prop :=
  ∃ n, n ≤ bound ∧ Distance (fun u v => v ∈ next u) {v | v = start} n v

/-- No node that is met at the bound, though it is nearer, hides a neighbor: each is the start or the neighbor of a
node that is met above the bound. -/
def HidesNothing (next : α → List α) (start : α) (bound : Nat) (visits : List (α × Nat)) : Prop :=
  ∀ u n, (u, bound) ∈ visits → n < bound → Distance (fun u v => v ∈ next u) {v | v = start} n u →
    ∀ v ∈ next u, v = start ∨ ∃ visit ∈ visits, visit.2 < bound ∧ v ∈ next visit.1

theorem Visits.within {visits : List (α × Nat)} (h : Visits next start bound visits) {v : α}
    (hv : v ∈ visits.map Prod.fst) : Within next start bound v := by
  obtain ⟨visit, hvisit, rfl⟩ := List.mem_map.mp hv
  obtain ⟨hdepth, hsteps⟩ := h.steps visit hvisit
  obtain ⟨n, hn, hdistance⟩ := hsteps.exists_distance
  exact ⟨n, hn.trans hdepth, hdistance⟩

/-- The order comes to every node within the bound exactly where it hides nothing. -/
theorem Order.covers_iff {visits : List (α × Nat)} (h : Order next start bound visits) :
    (∀ v, v ∈ visits.map Prod.fst ↔ Within next start bound v) ↔ HidesNothing next start bound visits := by
  constructor
  · intro hall u n _ hn hdistance v hv
    obtain ⟨m, hm, hdistance'⟩ := (StepsTo.step hdistance.1 hv).exists_distance
    exact h.made.predecessor ((hall v).mpr ⟨m, by omega, hdistance'⟩)
  · intro hhides v
    refine ⟨h.made.within, fun hwithin => ?_⟩
    obtain ⟨n, hn, hdistance⟩ := hwithin
    have hstart : start ∈ visits.map Prod.fst := List.mem_map_of_mem h.made.start_mem
    induction n generalizing v with
    | zero =>
        have hv : v ∈ {v | v = start} := distance_zero_iff.mp hdistance
        rw [show v = start from hv]
        exact hstart
    | succ n ih =>
        obtain ⟨⟨u, hu, hstep⟩, -⟩ := distance_succ_iff.mp hdistance
        obtain ⟨⟨w, depth⟩, hvisit, rfl⟩ := List.mem_map.mp (ih u (by omega) hu)
        have hdepth : depth ≤ bound := (h.made.steps _ hvisit).1
        rcases Nat.lt_or_eq_of_le hdepth with hless | rfl
        · exact h.closed hvisit hless hstep
        · rcases hhides w n hvisit (by omega) hu v hstep with rfl | ⟨visit, hmem, hless, hv⟩
          · exact hstart
          · exact h.closed hmem hless hv

end GitWarp.DepthFirst
