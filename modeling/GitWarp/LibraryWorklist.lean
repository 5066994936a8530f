import GitWarp.LibraryWhile
import Mathlib.Algebra.BigOperators.Group.List.Basic
import Mathlib.Algebra.GroupWithZero.Nat
import Mathlib.Data.List.Nodup
import Mathlib.Order.Nat

/-! A search with a queue. Places are taken from the queue; what is found at a place leads to further places. The
search ends, and what it has found is all that is at places which can be reached. -/

namespace GitWarp.Worklist

variable {β γ : Type}

structure Search (β γ : Type) where
  queue : List β
  visited : List β
  found : List γ

/-- The places that a search from `b` comes to. -/
inductive Reached (finds : β → List γ) (leads : γ → List β) (b : β) : β → Prop
  | start : Reached finds leads b b
  | step {place next : β} {g : γ} (hplace : Reached finds leads b place) (hfound : g ∈ finds place)
      (hlead : next ∈ leads g) : Reached finds leads b next

theorem reached_of_subset {finds finds' : β → List γ} {leads : γ → List β} (h : ∀ b, ∀ g ∈ finds b, g ∈ finds' b)
    {b place : β} (hplace : Reached finds leads b place) : Reached finds' leads b place := by
  induction hplace with
  | start => exact .start
  | step _ hfound hlead ih => exact ih.step (h _ _ hfound) hlead

/-- What is reached depends on what is at each place, not on its order. -/
theorem reached_congr {finds finds' : β → List γ} {leads : γ → List β} (h : ∀ b g, g ∈ finds b ↔ g ∈ finds' b)
    {b place : β} : Reached finds leads b place ↔ Reached finds' leads b place :=
  ⟨reached_of_subset fun b g => (h b g).mp, reached_of_subset fun b g => (h b g).mpr⟩

section Definitions

variable [DecidableEq β] [DecidableEq γ] (finds : β → List γ) (leads : γ → List β)

/-- Something is found; the places that it leads to are queued unless they have been visited. -/
def take (search : Search β γ) (g : γ) : Search β γ :=
  if g ∈ search.found then search
  else { search with
    queue := search.queue ++ (leads g).filter (· ∉ search.visited)
    found := search.found ++ [g] }

/-- A turn of the search; without a queue there is none. -/
def turn (search : Search β γ) : Option (Search β γ) :=
  match search.queue with
  | [] => none
  | b :: rest =>
      if b ∈ search.visited then some { search with queue := rest }
      else some ((finds b).foldl (take leads) { search with queue := rest, visited := search.visited ++ [b] })

/-- The number of places that the things not found yet lead to, and of those in the queue. -/
def remaining (all : List γ) (search : Search β γ) : Nat :=
  search.queue.length + ((all.filter (· ∉ search.found)).map fun g => (leads g).length).sum

def start (b : β) : Search β γ := ⟨[b], [], []⟩

/-- All that a search from `b` finds, in order. -/
def search (all : List γ) (b : β) : List γ :=
  (While.loop (turn finds leads) (remaining leads all (start b)) (start b)).found

end Definitions

variable {finds : β → List γ} {leads : γ → List β}

/-- What a series of finds does to a search. -/
structure Takes (leads : γ → List β) (search : Search β γ) (gs : List γ) (search' : Search β γ) : Prop where
  visited : search'.visited = search.visited
  found : ∀ g, g ∈ search'.found ↔ g ∈ search.found ∨ g ∈ gs
  kept : ∀ b ∈ search.queue, b ∈ search'.queue
  queued : ∀ b ∈ search'.queue, b ∈ search.queue ∨ ∃ g ∈ gs, b ∈ leads g
  leads : ∀ g ∈ search'.found, g ∉ search.found → ∀ b ∈ leads g, b ∈ search'.queue ∨ b ∈ search'.visited

/-- What holds of a search from `b` after every turn. -/
structure Explored (finds : β → List γ) (leads : γ → List β) (b : β) (search : Search β γ) : Prop where
  reached : ∀ place, place ∈ search.queue ∨ place ∈ search.visited → Reached finds leads b place
  start : b ∈ search.queue ∨ b ∈ search.visited
  sound : ∀ g ∈ search.found, ∃ place, Reached finds leads b place ∧ g ∈ finds place
  complete : ∀ place ∈ search.visited, ∀ g ∈ finds place, g ∈ search.found
  leads : ∀ g ∈ search.found, ∀ next ∈ leads g, next ∈ search.queue ∨ next ∈ search.visited

theorem explored_start (b : β) : Explored finds leads b (start b) where
  reached place h := by
    rcases h with h | h
    · cases List.mem_singleton.mp h
      exact .start
    · cases h
  start := Or.inl (List.mem_singleton_self b)
  sound := nofun
  complete := nofun
  leads := nofun

section Turns

variable [DecidableEq β] [DecidableEq γ]

theorem takes_foldl (gs : List γ) (search : Search β γ) : Takes leads search gs (gs.foldl (take leads) search) := by
  induction gs generalizing search with
  | nil => exact ⟨rfl, fun g => by simp, fun b h => h, fun b h => Or.inl h, fun g h hnot => absurd h hnot⟩
  | cons g gs ih =>
      have hrest := ih (take leads search g)
      by_cases hknown : g ∈ search.found
      · rw [take, if_pos hknown] at hrest
        rw [List.foldl_cons, take, if_pos hknown]
        refine ⟨hrest.visited, fun g' => ?_, hrest.kept, fun b hb => ?_, hrest.leads⟩
        · rw [hrest.found, List.mem_cons]
          constructor
          · exact fun h => h.imp_right Or.inr
          · rintro (h | rfl | h)
            · exact Or.inl h
            · exact Or.inl hknown
            · exact Or.inr h
        · exact (hrest.queued b hb).imp_right fun ⟨g', hg', hlead⟩ => ⟨g', List.mem_cons_of_mem _ hg', hlead⟩
      · rw [take, if_neg hknown] at hrest
        rw [List.foldl_cons, take, if_neg hknown]
        refine ⟨hrest.visited, fun g' => ?_, fun b hb => hrest.kept b (List.mem_append_left _ hb), fun b hb => ?_,
          fun g' hg' hnew b hlead => ?_⟩
        · rw [hrest.found, List.mem_append, List.mem_singleton, List.mem_cons, or_assoc]
        · rcases hrest.queued b hb with hqueued | ⟨g', hg', hlead⟩
          · rcases List.mem_append.mp hqueued with hqueued | hlead
            · exact Or.inl hqueued
            · exact Or.inr ⟨g, List.mem_cons_self .., (List.mem_filter.mp hlead).1⟩
          · exact Or.inr ⟨g', List.mem_cons_of_mem _ hg', hlead⟩
        · by_cases hhead : g' ∈ search.found ++ [g]
          · obtain rfl := List.mem_singleton.mp ((List.mem_append.mp hhead).resolve_left hnew)
            by_cases hvisited : b ∈ search.visited
            · exact Or.inr (by rw [hrest.visited]; exact hvisited)
            · refine Or.inl (hrest.kept b (List.mem_append_right _ ?_))
              exact List.mem_filter.mpr ⟨hlead, decide_eq_true hvisited⟩
          · exact hrest.leads g' hg' hhead b hlead

theorem Explored.turn {b : β} {search search' : Search β γ} (h : Explored finds leads b search)
    (hturn : turn finds leads search = some search') : Explored finds leads b search' := by
  unfold Worklist.turn at hturn
  split at hturn
  · cases hturn
  · rename_i place rest hqueue
    have hplace : Reached finds leads b place := h.reached place (Or.inl (by rw [hqueue]; exact List.mem_cons_self ..))
    have hrest : ∀ next, next ∈ search.queue ∨ next ∈ search.visited →
        next = place ∨ next ∈ rest ∨ next ∈ search.visited := by
      intro next hnext
      rw [hqueue, List.mem_cons, or_assoc] at hnext
      exact hnext
    split at hturn
    · rename_i hvisited
      cases hturn
      have hstays : ∀ next, next ∈ search.queue ∨ next ∈ search.visited → next ∈ rest ∨ next ∈ search.visited := by
        intro next hnext
        rcases hrest next hnext with rfl | hnext
        · exact Or.inr hvisited
        · exact hnext
      refine ⟨fun next hnext => h.reached next ?_, hstays b h.start, h.sound, h.complete,
        fun g hg next hlead => hstays next (h.leads g hg next hlead)⟩
      exact hnext.imp_left fun hin => by rw [hqueue]; exact List.mem_cons_of_mem _ hin
    · cases hturn
      have htakes : Takes leads { search with queue := rest, visited := search.visited ++ [place] } (finds place) _ :=
        takes_foldl (finds place) { search with queue := rest, visited := search.visited ++ [place] }
      have hstays : ∀ next, next ∈ search.queue ∨ next ∈ search.visited →
          next ∈ ((finds place).foldl (take leads)
            { search with queue := rest, visited := search.visited ++ [place] }).queue ∨
          next ∈ ((finds place).foldl (take leads)
            { search with queue := rest, visited := search.visited ++ [place] }).visited := by
        intro next hnext
        rw [htakes.visited]
        rcases hrest next hnext with rfl | hnext | hnext
        · exact Or.inr (List.mem_append_right _ (List.mem_singleton_self _))
        · exact Or.inl (htakes.kept next hnext)
        · exact Or.inr (List.mem_append_left _ hnext)
      refine ⟨fun next hnext => ?_, hstays b h.start, fun g hg => ?_, fun next hnext g hg => ?_,
        fun g hg next hlead => ?_⟩
      · rcases hnext with hnext | hnext
        · rcases htakes.queued next hnext with hnext | ⟨g, hg, hlead⟩
          · exact h.reached next (Or.inl (by rw [hqueue]; exact List.mem_cons_of_mem _ hnext))
          · exact hplace.step hg hlead
        · rw [htakes.visited] at hnext
          rcases List.mem_append.mp hnext with hnext | hnext
          · exact h.reached next (Or.inr hnext)
          · exact List.mem_singleton.mp hnext ▸ hplace
      · rcases (htakes.found g).mp hg with hg | hg
        · exact h.sound g hg
        · exact ⟨place, hplace, hg⟩
      · rw [htakes.visited] at hnext
        refine (htakes.found g).mpr ?_
        rcases List.mem_append.mp hnext with hnext | hnext
        · exact Or.inl (h.complete next hnext g hg)
        · exact Or.inr (List.mem_singleton.mp hnext ▸ hg)
      · by_cases hold : g ∈ search.found
        · exact hstays next (h.leads g hold next hlead)
        · exact htakes.leads g hg hold next hlead

/-! ### The end of the search -/

section Ends

variable {all : List γ} (hall : all.Nodup)

include hall

theorem remaining_take {g : γ} (hg : g ∈ all) (search : Search β γ) :
    remaining leads all (take leads search g) ≤ remaining leads all search := by
  unfold take
  split
  · exact le_rfl
  · rename_i hnew
    have hfilter : all.filter (· ∉ search.found ++ [g]) = (all.filter (· ∉ search.found)).erase g := by
      rw [(hall.filter _).erase_eq_filter, List.filter_filter]
      refine List.filter_congr fun g' _ => ?_
      rw [Bool.eq_iff_iff]
      simp [and_comm]
    have hmem : g ∈ all.filter (· ∉ search.found) := List.mem_filter.mpr ⟨hg, decide_eq_true hnew⟩
    have hsum := List.sum_map_erase (fun g => (leads g).length) hmem
    have hqueue : ((leads g).filter (· ∉ search.visited)).length ≤ (leads g).length := List.length_filter_le _ _
    simp only [remaining, hfilter, List.length_append]
    omega

theorem remaining_foldl {gs : List γ} (hgs : ∀ g ∈ gs, g ∈ all) (search : Search β γ) :
    remaining leads all (gs.foldl (take leads) search) ≤ remaining leads all search := by
  induction gs generalizing search with
  | nil => exact le_rfl
  | cons g gs ih =>
      rw [List.foldl_cons]
      exact (ih (fun g' hg' => hgs g' (List.mem_cons_of_mem _ hg')) _).trans
        (remaining_take hall (hgs g (List.mem_cons_self ..)) search)

variable (hfinds : ∀ b, ∀ g ∈ finds b, g ∈ all)

include hfinds

theorem remaining_turn {search search' : Search β γ} (hturn : turn finds leads search = some search') :
    remaining leads all search' < remaining leads all search := by
  unfold turn at hturn
  split at hturn
  · cases hturn
  · rename_i place rest hqueue
    have hless : ∀ visited, remaining leads all { search with queue := rest, visited := visited } <
        remaining leads all search := by
      intro visited
      simp only [remaining, hqueue, List.length_cons]
      omega
    split at hturn
    · cases hturn
      exact hless search.visited
    · cases hturn
      exact (remaining_foldl hall (hfinds place) _).trans_lt (hless _)

/-- A search finds what is at the places that can be reached, and nothing else. -/
theorem mem_search_iff (b : β) (g : γ) : g ∈ search finds leads all b ↔
    ∃ place, Reached finds leads b place ∧ g ∈ finds place := by
  have hexplored : Explored finds leads b (While.loop (turn finds leads) (remaining leads all (start b)) (start b)) :=
    While.loop_invariant (fun _ _ h hturn => h.turn hturn) _ (explored_start b)
  have hstops : turn finds leads (While.loop (turn finds leads) (remaining leads all (start b)) (start b)) = none :=
    While.loop_stops (P := fun _ => True) (m := remaining leads all)
      (fun _ _ _ hturn => ⟨trivial, remaining_turn hall hfinds hturn⟩) trivial le_rfl
  refine ⟨hexplored.sound g, ?_⟩
  rintro ⟨place, hplace, hg⟩
  have hempty : (While.loop (turn finds leads) (remaining leads all (start b)) (start b)).queue = [] := by
    unfold turn at hstops
    split at hstops
    · assumption
    · split at hstops <;> cases hstops
  have hvisited : ∀ next, Reached finds leads b next →
      next ∈ (While.loop (turn finds leads) (remaining leads all (start b)) (start b)).visited := by
    intro next hnext
    induction hnext with
    | start => exact hexplored.start.resolve_left (by rw [hempty]; exact List.not_mem_nil)
    | step _ hfound hlead ih =>
        exact (hexplored.leads _ (hexplored.complete _ ih _ hfound) _ hlead).resolve_left
          (by rw [hempty]; exact List.not_mem_nil)
  exact hexplored.complete place (hvisited place hplace) g hg

end Ends

end Turns

end GitWarp.Worklist
