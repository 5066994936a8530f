import GitWarp.DagPathFinding

/-! The search from both ends. Before the two searches meet, no commit is near both ends, so the first meeting is on a
shortest path. -/

namespace GitWarp
open Js Layers

namespace DagPathFinding

/-! ### One side -/

section OneSide

variable (neighborsOf : JsString → List JsString) (root : JsString)

/-- Distances of one search. -/
abbrev SideDistance (n : Nat) (v : JsString) : Prop := Distance (fun u v => v ∈ neighborsOf u) {v | v = root} n v

def Near (depth : Nat) (v : JsString) : Prop := ∃ n, n ≤ depth ∧ SideDistance neighborsOf root n v

/-- Each of some commits but the root has a parent of them that is one nearer to the root. -/
structure Leads (P : JsString → Prop) (parent : JsMap JsString JsString) : Prop where
  no_parent : parent.get root = none
  parent : ∀ v, P v → v ≠ root → ∃ u n, parent.get v = some u ∧ P u ∧ v ∈ neighborsOf u ∧
    SideDistance neighborsOf root n u ∧ SideDistance neighborsOf root (n + 1) v

/-- A side that has not met the other one has visited what is near. -/
structure SideAt (depth : Nat) (s : Side) : Prop where
  visited : ∀ v, v ∈ s.visited ↔ Near neighborsOf root depth v
  next : ∀ v, v ∈ s.next ↔ SideDistance neighborsOf root depth v
  leads : Leads neighborsOf root (· ∈ s.visited) s.parent
  meeting : s.meeting = none

/-- A side that has not met the other one, in the middle of a layer. -/
structure SidePart (other : JsSet JsString) (depth : Nat) (s : Side) : Prop where
  visited : ∀ v, v ∈ s.visited ↔ Near neighborsOf root depth v ∨ v ∈ s.next
  next : ∀ v ∈ s.next, SideDistance neighborsOf root (depth + 1) v ∧ v ∉ other
  leads : Leads neighborsOf root (· ∈ s.visited) s.parent
  meeting : s.meeting = none

/-- A side that has met the other one. -/
structure MetAt (other : JsSet JsString) (depth : Nat) (s : Side) (meeting : JsString) : Prop where
  meeting_eq : s.meeting = some meeting
  mem : meeting ∈ other
  distance : SideDistance neighborsOf root (depth + 1) meeting
  leads : Leads neighborsOf root (fun v => v ∈ s.visited ∨ v = meeting) s.parent

variable {neighborsOf root}

theorem sideDistance_zero_iff {v : JsString} : SideDistance neighborsOf root 0 v ↔ v = root :=
  distance_zero_iff (W := {v | v = root})

theorem SideDistance.next {depth : Nat} {u v : JsString} (hu : SideDistance neighborsOf root depth u) (hv : v ∈ neighborsOf u)
    (hfar : ¬ Near neighborsOf root depth v) : SideDistance neighborsOf root (depth + 1) v := by
  obtain ⟨n, hn, hdistance⟩ := (StepsTo.step hu.1 hv).exists_distance
  rcases Nat.lt_or_eq_of_le hn with hless | rfl
  · exact absurd ⟨n, by omega, hdistance⟩ hfar
  · exact hdistance

theorem near_succ_iff {depth : Nat} {v : JsString} :
    Near neighborsOf root (depth + 1) v ↔ Near neighborsOf root depth v ∨ SideDistance neighborsOf root (depth + 1) v := by
  constructor
  · intro h
    obtain ⟨n, hn, hdistance⟩ := h
    rcases Nat.lt_or_eq_of_le hn with hless | rfl
    · exact .inl ⟨n, by omega, hdistance⟩
    · exact .inr hdistance
  · intro h
    rcases h with ⟨n, hn, hdistance⟩ | hdistance
    · exact ⟨n, by omega, hdistance⟩
    · exact ⟨depth + 1, le_rfl, hdistance⟩

/-- A search that has only its root. -/
theorem SideAt.start (root : JsString) : SideAt neighborsOf root 0 ⟨.ofList [root], .empty, [root], none⟩ := by
  have hmem : ∀ v, v ∈ JsSet.ofList [root] ↔ v = root := fun v => by
    rw [JsSet.mem_ofList, List.mem_singleton]
  refine ⟨fun v => ?_, fun v => ?_, ⟨rfl, fun v hv hne => absurd ((hmem v).mp hv) hne⟩, rfl⟩
  · rw [hmem]
    constructor
    · exact fun heq => ⟨0, le_rfl, sideDistance_zero_iff.mpr heq⟩
    · intro h
      obtain ⟨n, hn, hdistance⟩ := h
      obtain rfl := Nat.le_zero.mp hn
      exact sideDistance_zero_iff.mp hdistance
  · rw [List.mem_singleton]
    exact sideDistance_zero_iff.symm

/-- A new entry leads on from what leads already. -/
theorem Leads.set {P : JsString → Prop} {parent : JsMap JsString JsString} (h : Leads neighborsOf root P parent)
    {depth : Nat} {u v : JsString} (hu : P u) (hroot : v ≠ root) (hnew : ¬ P v) (hstep : v ∈ neighborsOf u)
    (hdu : SideDistance neighborsOf root depth u) (hdv : SideDistance neighborsOf root (depth + 1) v) :
    Leads neighborsOf root (fun w => P w ∨ w = v) (parent.set v u) := by
  refine ⟨by rw [JsMap.get_set_of_ne _ _ hroot.symm, h.no_parent], fun w hw hne => ?_⟩
  by_cases heq : w = v
  · subst heq
    exact ⟨u, depth, JsMap.get_set_self _ _ _, .inl hu, hstep, hdu, hdv⟩
  · obtain ⟨x, n, hget, hx, hrest⟩ := h.parent w (hw.resolve_right heq) hne
    exact ⟨x, n, by rw [JsMap.get_set_of_ne _ _ heq, hget], .inl hx, hrest⟩

/-- One neighbor of a commit of the frontier. -/
theorem expandNeighbor_spec {other : JsSet JsString} {depth : Nat} {s : Side} (h : SidePart neighborsOf root other depth s)
    (hapart : ∀ v, Near neighborsOf root depth v → v ∉ other) {u v : JsString} (hu : SideDistance neighborsOf root depth u)
    (hv : v ∈ neighborsOf u) :
    (∃ meeting, MetAt neighborsOf root other depth (expandNeighbor other u s v) meeting) ∨
      (SidePart neighborsOf root other depth (expandNeighbor other u s v) ∧
        (∀ w ∈ s.visited, w ∈ (expandNeighbor other u s v).visited) ∧ v ∈ (expandNeighbor other u s v).visited) := by
  have hnear : Near neighborsOf root depth u := ⟨depth, le_rfl, hu⟩
  have humem : u ∈ s.visited := (h.visited u).mpr (.inl hnear)
  have hrootNear : Near neighborsOf root depth root := ⟨0, Nat.zero_le _, distance_zero_iff.mpr rfl⟩
  unfold expandNeighbor
  rw [h.meeting]
  by_cases hother : v ∈ other
  · rw [if_neg (by simp), if_pos ((other.has_iff v).mpr hother)]
    have hfar : ¬ Near neighborsOf root depth v := fun hnear => hapart v hnear hother
    have hnew : v ∉ s.visited := by
      rw [h.visited]
      exact fun hmem => hmem.elim hfar fun hnext => (h.next v hnext).2 hother
    have hroot : v ≠ root := fun heq => hfar (heq ▸ hrootNear)
    exact .inl ⟨v, rfl, hother, hu.next hv hfar, h.leads.set humem hroot hnew hv hu (hu.next hv hfar)⟩
  · rw [if_neg (by simp), if_neg fun hhas => hother ((other.has_iff v).mp hhas)]
    by_cases hvisited : v ∈ s.visited
    · rw [if_pos ((s.visited.has_iff v).mpr hvisited)]
      exact .inr ⟨h, fun w hw => hw, hvisited⟩
    · rw [if_neg fun hhas => hvisited ((s.visited.has_iff v).mp hhas)]
      have hfar : ¬ Near neighborsOf root depth v := fun hnear => hvisited ((h.visited v).mpr (.inl hnear))
      have hroot : v ≠ root := fun heq => hfar (heq ▸ hrootNear)
      have hleads := h.leads.set humem hroot hvisited hv hu (hu.next hv hfar)
      have hmem : ∀ w, w ∈ s.visited.add v ↔ w ∈ s.visited ∨ w = v := fun w =>
        (JsSet.mem_add _ _ _).trans or_comm
      refine .inr ⟨⟨fun w => ?_, fun w hw => ?_, ?_, rfl⟩, fun w hw => (hmem w).mpr (.inl hw), (hmem v).mpr (.inr rfl)⟩
      · rw [hmem, h.visited, List.mem_append, List.mem_singleton, or_assoc]
      · rcases List.mem_append.mp hw with hw | hw
        · exact h.next w hw
        · rw [List.mem_singleton.mp hw]
          exact ⟨hu.next hv hfar, hother⟩
      · simp only [hmem]
        exact hleads

theorem expandNeighbor_met {other : JsSet JsString} {s : Side} (h : s.meeting.isSome = true) (u v : JsString) :
    expandNeighbor other u s v = s := by
  rw [expandNeighbor, if_pos h]

/-- The neighbors of commits of the frontier, each with its commit. -/
theorem expandNeighbors_spec {other : JsSet JsString} {depth : Nat} (hapart : ∀ v, Near neighborsOf root depth v → v ∉ other)
    (steps : List (JsString × JsString))
    (hsteps : ∀ step ∈ steps, SideDistance neighborsOf root depth step.1 ∧ step.2 ∈ neighborsOf step.1) {s : Side}
    (h : SidePart neighborsOf root other depth s) :
    (∃ meeting, MetAt neighborsOf root other depth
        (steps.foldl (fun s step => expandNeighbor other step.1 s step.2) s) meeting) ∨
      (SidePart neighborsOf root other depth (steps.foldl (fun s step => expandNeighbor other step.1 s step.2) s) ∧
        (∀ w ∈ s.visited, w ∈ (steps.foldl (fun s step => expandNeighbor other step.1 s step.2) s).visited) ∧
        ∀ step ∈ steps, step.2 ∈ (steps.foldl (fun s step => expandNeighbor other step.1 s step.2) s).visited) := by
  induction steps generalizing s with
  | nil => exact .inr ⟨h, fun w hw => hw, fun step hstep => absurd hstep List.not_mem_nil⟩
  | cons step rest ih =>
      obtain ⟨hu, hv⟩ := hsteps step List.mem_cons_self
      rw [List.foldl_cons]
      rcases expandNeighbor_spec h hapart hu hv with ⟨meeting, hmet⟩ | ⟨hpart, hmono, hmem⟩
      · have hsame : ∀ rest : List (JsString × JsString), rest.foldl (fun s step => expandNeighbor other step.1 s step.2)
            (expandNeighbor other step.1 s step.2) = expandNeighbor other step.1 s step.2 := by
          intro rest
          induction rest with
          | nil => rfl
          | cons later rest ih => rw [List.foldl_cons, expandNeighbor_met (by rw [hmet.meeting_eq]; rfl), ih]
        rw [hsame]
        exact .inl ⟨meeting, hmet⟩
      · rcases ih (fun later hlater => hsteps later (List.mem_cons_of_mem _ hlater)) hpart with hmet | ⟨hlast, hmono', hall⟩
        · exact .inl hmet
        · refine .inr ⟨hlast, fun w hw => hmono' w (hmono w hw), fun later hlater => ?_⟩
          rcases List.mem_cons.mp hlater with rfl | hlater
          · exact hmono' _ hmem
          · exact hall later hlater

/-- A layer more, or a meeting with the other side. -/
theorem expandFrontier_spec {other : JsSet JsString} {depth : Nat} {s : Side} (h : SideAt neighborsOf root depth s)
    (hapart : ∀ v, Near neighborsOf root depth v → v ∉ other) :
    (∃ meeting, MetAt neighborsOf root other depth (expandFrontier neighborsOf other s) meeting) ∨
      (SideAt neighborsOf root (depth + 1) (expandFrontier neighborsOf other s) ∧
        ∀ v, Near neighborsOf root (depth + 1) v → v ∉ other) := by
  have hfold : expandFrontier neighborsOf other s =
      (s.next.flatMap fun sha => (neighborsOf sha).map (sha, ·)).foldl
        (fun s step => expandNeighbor other step.1 s step.2) { s with next := [] } := by
    rw [expandFrontier, List.foldl_flatMap]
    simp only [List.foldl_map]
  have hsteps : ∀ step ∈ s.next.flatMap fun sha => (neighborsOf sha).map (sha, ·),
      SideDistance neighborsOf root depth step.1 ∧ step.2 ∈ neighborsOf step.1 := by
    intro step hstep
    obtain ⟨sha, hsha, hmem⟩ := List.mem_flatMap.mp hstep
    obtain ⟨neighbor, hneighbor, rfl⟩ := List.mem_map.mp hmem
    exact ⟨(h.next sha).mp hsha, hneighbor⟩
  have hpart : SidePart neighborsOf root other depth { s with next := [] } :=
    ⟨fun v => (h.visited v).trans (or_iff_left List.not_mem_nil).symm, fun v hv => absurd hv List.not_mem_nil, h.leads,
      h.meeting⟩
  rw [hfold]
  rcases expandNeighbors_spec hapart _ hsteps hpart with hmet | ⟨hlast, -, hall⟩
  · exact .inl hmet
  · generalize (s.next.flatMap fun sha => (neighborsOf sha).map (sha, ·)).foldl
      (fun s step => expandNeighbor other step.1 s step.2) { s with next := [] } = last at hlast hall ⊢
    have hnext : ∀ v, v ∈ last.next ↔ SideDistance neighborsOf root (depth + 1) v := by
      intro v
      refine ⟨fun hv => (hlast.next v hv).1, fun hdistance => ?_⟩
      obtain ⟨⟨u, hu, hstep⟩, hfar⟩ := distance_succ_iff.mp hdistance
      have hvisited : v ∈ last.visited := hall (u, v)
        (List.mem_flatMap.mpr ⟨u, (h.next u).mpr hu, List.mem_map.mpr ⟨v, hstep, rfl⟩⟩)
      refine ((hlast.visited v).mp hvisited).resolve_left fun hnear => ?_
      obtain ⟨n, hn, hdistance'⟩ := hnear
      exact hfar n hn hdistance'
    refine .inr ⟨⟨fun v => ?_, hnext, hlast.leads, hlast.meeting⟩, fun v hv => ?_⟩
    · rw [hlast.visited, hnext, near_succ_iff]
    · rcases near_succ_iff.mp hv with hnear | hdistance
      · exact hapart v hnear
      · exact (hlast.next v ((hnext v).mpr hdistance)).2

/-- The walk along the parents is a path from the root. -/
theorem Leads.path {P : JsString → Prop} {parent : JsMap JsString JsString} (h : Leads neighborsOf root P parent) {n bound : Nat}
    {v : JsString} (hv : P v) (hdistance : SideDistance neighborsOf root n v) (hbound : n ≤ bound) :
    IsPathBy (fun u v => v ∈ neighborsOf u) root v (walkParents parent bound v) ∧
      (walkParents parent bound v).length = n + 1 := by
  suffices hwalk : ∀ (n bound : Nat) (v : JsString) (rest : List JsString), P v → SideDistance neighborsOf root n v →
      n ≤ bound → ∃ path, While.loop (fun path => path.head?.bind fun current =>
        (parent.get current).map fun next => next :: path) bound (v :: rest) = path ++ rest ∧
          IsPathBy (fun u v => v ∈ neighborsOf u) root v path ∧ path.length = n + 1 by
    obtain ⟨path, hloop, hpath, hlength⟩ := hwalk n bound v [] hv hdistance hbound
    rw [List.append_nil] at hloop
    rw [walkParents, hloop]
    exact ⟨hpath, hlength⟩
  intro n
  induction n with
  | zero =>
      intro bound v rest _ hdistance _
      obtain rfl : v = root := sideDistance_zero_iff.mp hdistance
      refine ⟨[v], ?_, .single v, rfl⟩
      apply While.loop_of_stopped
      rw [List.head?_cons, Option.bind_some, h.no_parent]
      rfl
  | succ n ih =>
      intro bound v rest hv hdistance hbound
      have hne : v ≠ root := by
        intro heq
        cases hdistance.unique (sideDistance_zero_iff.mpr heq)
      obtain ⟨u, m, hget, hu, hstep, hdu, hdv⟩ := h.parent v hv hne
      obtain rfl : m = n := Nat.succ.inj (hdv.unique hdistance)
      obtain ⟨less, rfl⟩ : ∃ less, bound = less + 1 := ⟨bound - 1, by omega⟩
      obtain ⟨path, hloop, hpath, hlength⟩ := ih less u (v :: rest) hu hdu (by omega)
      refine ⟨path ++ [v], ?_, hpath.append (.cons hstep (.single v)), ?_⟩
      · rw [While.loop, List.head?_cons, Option.bind_some, hget, Option.map_some, List.append_assoc]
        exact hloop
      · rw [List.length_append, hlength]
        rfl

end OneSide

/-! ### Both sides -/

section BothSides

variable {index : CommitIndex} {source target : JsString} {maxDepth : Nat}

/-- Two searches that have not met, after as many turns as they have layers. -/
structure Apart (index : CommitIndex) (source target : JsString) (turn : Nat) (s : ShortestPath) : Prop where
  fwd : SideAt index.getChildren source turn s.fwd
  bwd : SideAt index.getParents target turn s.bwd
  apart : ∀ v, v ∈ s.fwd.visited → v ∉ s.bwd.visited

/-- Two searches that have met, on a shortest path. -/
def Met (index : CommitIndex) (source target : JsString) (maxDepth : Nat) (s : ShortestPath) : Prop :=
  ∃ meeting a b, s.fwd.meeting.or s.bwd.meeting = some meeting ∧ a ≤ maxDepth + 1 ∧ b ≤ maxDepth + 1 ∧
    (∃ P, Leads index.getChildren source P s.fwd.parent ∧ P meeting) ∧ SideDistance index.getChildren source a meeting ∧
    (∃ P, Leads index.getParents target P s.bwd.parent ∧ P meeting) ∧ SideDistance index.getParents target b meeting ∧
    ∀ n, DistanceFrom index source n target → a + b ≤ n

/-- Commits that are apart from one end are not near the other. -/
theorem lt_of_apart {a b n : Nat}
    (hapart : ∀ v, Near index.getChildren source a v → ¬ Near index.getParents target b v)
    (h : DistanceFrom index source n target) : a + b < n := by
  apply lt_distance_of_apart _ h
  intro v hv hback
  refine hapart v hv ?_
  have hflip : (fun u v => u ∈ index.getChildren v) = fun u v => v ∈ index.getParents u := by
    funext u v
    exact propext (index.parent_iff u v).symm
  obtain ⟨m, hm, hdistance⟩ := hback
  rw [hflip] at hdistance
  exact ⟨m, hm, hdistance⟩

theorem shortestStep_spec {turn : Nat} (hturn : turn < maxDepth) {s s' : ShortestPath}
    (h : Apart index source target turn s) (hstep : shortestStep index s = some s') :
    Met index source target maxDepth s' ∨ Apart index source target (turn + 1) s' := by
  unfold shortestStep at hstep
  rw [h.fwd.meeting, h.bwd.meeting, if_neg (by simp)] at hstep
  split at hstep
  · cases hstep
  dsimp only at hstep
  have hfirst : ∀ v, Near index.getChildren source turn v → v ∉ s.bwd.visited :=
    fun v hv => h.apart v ((h.fwd.visited v).mpr hv)
  rcases expandFrontier_spec h.fwd hfirst with ⟨meeting, hmet⟩ | ⟨hfwd, hclear⟩
  · rw [hmet.meeting_eq] at hstep
    dsimp only [Option.isSome_some] at hstep
    rw [if_pos rfl, Option.some.injEq] at hstep
    subst hstep
    obtain ⟨b, hb, hdistance⟩ := (h.bwd.visited meeting).mp hmet.mem
    refine .inl ⟨meeting, turn + 1, b, ?_, by omega, by omega, ⟨_, hmet.leads, .inr rfl⟩, hmet.distance,
      ⟨_, h.bwd.leads, hmet.mem⟩, hdistance, fun n hn => ?_⟩
    · rw [hmet.meeting_eq]
      rfl
    · have hlt := @lt_of_apart index source target turn turn n (fun v hv hback => hfirst v hv ((h.bwd.visited v).mpr hback)) hn
      omega
  · rw [hfwd.meeting] at hstep
    dsimp only [Option.isSome_none] at hstep
    rw [if_neg Bool.false_ne_true, Option.some.injEq] at hstep
    subst hstep
    have hsecond : ∀ v, Near index.getParents target turn v →
        v ∉ (expandFrontier index.getChildren s.bwd.visited s.fwd).visited :=
      fun v hv hmem => hclear v ((hfwd.visited v).mp hmem) ((h.bwd.visited v).mpr hv)
    rcases expandFrontier_spec h.bwd hsecond with ⟨meeting, hmet⟩ | ⟨hbwd, hclear'⟩
    · obtain ⟨a, ha, hdistance⟩ := (hfwd.visited meeting).mp hmet.mem
      refine .inl ⟨meeting, a, turn + 1, ?_, by omega, by omega, ⟨_, hfwd.leads, hmet.mem⟩, hdistance,
        ⟨_, hmet.leads, .inr rfl⟩, hmet.distance, fun n hn => ?_⟩
      · rw [hfwd.meeting, hmet.meeting_eq]
        rfl
      · have hlt := @lt_of_apart index source target (turn + 1) turn n
          (fun v hv hback => hclear v hv ((h.bwd.visited v).mpr hback)) hn
        omega
    · refine .inr ⟨hfwd, hbwd, fun v hv hmem => ?_⟩
      exact hclear' v ((hbwd.visited v).mp hmem) hv

theorem Met.stops {s : ShortestPath} (h : Met index source target maxDepth s) : shortestStep index s = none := by
  obtain ⟨meeting, a, b, hmeeting, -⟩ := h
  have hsome : (s.fwd.meeting.isSome || s.bwd.meeting.isSome) = true := by
    rw [← Option.isSome_or, hmeeting]
    rfl
  rw [shortestStep, if_pos hsome]

/-- The path through a meeting. -/
theorem Met.path {s : ShortestPath} (h : Met index source target maxDepth s) :
    ∃ meeting, s.fwd.meeting.or s.bwd.meeting = some meeting ∧ IsShortest index.Child source target
      (reconstructBidirectionalPath s.fwd.parent s.bwd.parent (maxDepth + 1) source target meeting) := by
  obtain ⟨meeting, a, b, hmeeting, ha, hb, ⟨P, hfwd, hP⟩, hda, ⟨Q, hbwd, hQ⟩, hdb, hleast⟩ := h
  refine ⟨meeting, hmeeting, ?_⟩
  obtain ⟨hfront, hfrontLength⟩ := hfwd.path hP hda ha
  obtain ⟨hback, hbackLength⟩ := hbwd.path hQ hdb hb
  have hchild : (fun u v => u ∈ index.getParents v) = index.Child := by
    funext u v
    exact propext (index.parent_iff v u)
  have hturned := hback.reverse
  rw [hchild] at hturned
  have hjoined : IsPathBy index.Child source target _ := hfront.append hturned
  have hpath : reconstructBidirectionalPath s.fwd.parent s.bwd.parent (maxDepth + 1) source target meeting =
      walkParents s.fwd.parent (maxDepth + 1) meeting ++ (walkParents s.bwd.parent (maxDepth + 1) meeting).reverse.tail := by
    unfold reconstructBidirectionalPath
    dsimp only
    rw [if_pos hfront.head, if_pos hjoined.last]
  have hlength : (walkParents s.fwd.parent (maxDepth + 1) meeting ++
      (walkParents s.bwd.parent (maxDepth + 1) meeting).reverse.tail).length = a + b + 1 := by
    rw [List.length_append, List.length_tail, List.length_reverse, hfrontLength, hbackLength]
    omega
  obtain ⟨n, hn⟩ := exists_distance_iff.mpr hjoined.reflTransGen
  have hsteps : StepsTo index.Child {v | v = source} _ target := IsPathBy.stepsTo hjoined (.start rfl)
  rw [hlength, Nat.zero_add, Nat.add_sub_cancel] at hsteps
  have hmost : n ≤ a + b := hn.2 hsteps
  have hleast' := hleast n hn
  rw [hpath, isShortest_iff hjoined hn, hlength]
  omega

/-- The search from both ends finds a shortest path. -/
theorem shortestPath_spec (hdepth : ∀ n, DistanceFrom index source n target → n ≤ maxDepth) :
    FindsShortest index source target (shortestPath index source target maxDepth) := by
  unfold shortestPath
  by_cases hne : source = target
  · subst hne
    rw [if_pos rfl]
    refine ⟨⟨iff_of_true rfl .refl, fun _ => ⟨.single source, rfl⟩⟩, fun _ => ?_⟩
    exact (isShortest_iff (.single source) (distance_zero_iff.mpr rfl)).mpr rfl
  rw [if_neg hne]
  let P : Nat → ShortestPath → Prop := fun turn s =>
    turn ≤ maxDepth → Met index source target maxDepth s ∨ Apart index source target turn s
  have hturn : ∀ turn s s', P turn s → shortestStep index s = some s' → P (turn + 1) s' := by
    intro turn s s' h hstep hle
    rcases h (Nat.le_of_succ_le hle) with hmet | hapart
    · rw [hmet.stops] at hstep
      cases hstep
    · exact shortestStep_spec hle hapart hstep
  have hfirst : P 0 ⟨⟨.ofList [source], .empty, [source], none⟩, ⟨.ofList [target], .empty, [target], none⟩⟩ := by
    refine fun _ => .inr ⟨.start source, .start target, fun v hv hmem => hne ?_⟩
    rw [JsSet.mem_ofList, List.mem_singleton] at hv hmem
    exact hv.symm.trans hmem
  obtain ⟨turns, hturns, hlast, hend⟩ := While.loop_counted hturn maxDepth hfirst
  generalize While.loop (shortestStep index) maxDepth
    ⟨⟨.ofList [source], .empty, [source], none⟩, ⟨.ofList [target], .empty, [target], none⟩⟩ = last at hlast hend
  dsimp only
  rcases hlast hturns with hmet | hapart
  · obtain ⟨meeting, hmeeting, hshortest⟩ := hmet.path
    rw [hmeeting]
    exact ⟨⟨iff_of_true rfl hshortest.toIsPathBy.reflTransGen, fun _ => ⟨hshortest.toIsPathBy, rfl⟩⟩, fun _ => hshortest⟩
  · rw [hapart.fwd.meeting, hapart.bwd.meeting]
    refine ⟨⟨iff_of_false nofun fun hway => ?_, nofun⟩, nofun⟩
    obtain ⟨n, hn⟩ := exists_distance_iff.mpr hway
    have hfar : turns < n := by
      refine lt_of_le_of_lt (Nat.le_add_right turns turns) (lt_of_apart (fun v hv hback => ?_) hn)
      exact hapart.apart v ((hapart.fwd.visited v).mpr hv) ((hapart.bwd.visited v).mpr hback)
    have hwithin := hdepth n hn
    rcases hend with rfl | hstop
    · omega
    · obtain ⟨u, hu⟩ := hn.exists_of_le hfar.le
      have hmem : u ∈ last.fwd.next := (hapart.fwd.next u).mpr hu
      unfold shortestStep at hstop
      rw [hapart.fwd.meeting, hapart.bwd.meeting, if_neg (by simp), if_neg fun h => by
        rw [h.1] at hmem
        cases hmem] at hstop
      dsimp only at hstop
      split at hstop
      · cases hstop
      · cases hstop

/-- With room for every commit the number of nodes does not bind. -/
theorem notBinding_of_commits {maxNodes : Nat} (hsource : source ∈ index.commits) (hroom : index.commits.length ≤ maxNodes) :
    NotBinding index source maxNodes maxDepth := by
  intro shas hnodup hwithin
  refine le_trans (List.subperm_of_subset hnodup fun sha hsha => ?_).length_le hroom
  obtain ⟨n, -, hdistance⟩ := hwithin sha hsha
  have hway := exists_distance_iff.mp ⟨n, hdistance⟩
  rcases Relation.ReflTransGen.cases_tail hway with rfl | ⟨u, -, hstep⟩
  · exact hsource
  · exact index.child_mem u sha hstep

variable (index source target) in
/-- Within the limits both searches find a shortest path exactly where the way back in the breadth-first order is straight. -/
theorem dagPathFinding_iff (maxNodes maxDepth : Nat) (hsource : source ∈ index.commits)
    (hdepth : ∀ n, DistanceFrom index source n target → n ≤ maxDepth) (hlimit : NotBinding index source maxNodes maxDepth) :
    (FindsShortest index source target (findPath index source target maxNodes maxDepth) ∧
      FindsShortest index source target (shortestPath index source target maxDepth)) ↔
    (Relation.ReflTransGen index.Child source target → Straight index source target maxDepth) := by
  obtain ⟨hpath, hshortest⟩ := findPath_spec hsource hdepth hlimit
  constructor
  · intro h hway
    have hfound := hpath.found_iff.mpr hway
    exact (hshortest hfound).mp (h.1.shortest hfound)
  · intro hstraight
    refine ⟨⟨hpath, fun hfound => ?_⟩, shortestPath_spec hdepth⟩
    exact (hshortest hfound).mpr (hstraight (hpath.found_iff.mp hfound))

end BothSides

/-! ### A merge -/

namespace Example

/-- The index of a list of commits, each with a child. -/
def indexOf (commits : List JsString) (arcs : List (JsString × JsString)) : CommitIndex where
  commits := commits
  getChildren sha := (arcs.filter fun arc => arc.1 = sha ∧ arc.2 ∈ commits).map Prod.snd
  getParents sha := (arcs.filter fun arc => arc.2 = sha ∧ arc.2 ∈ commits).map Prod.fst
  child_mem := by
    intro sha child hchild
    obtain ⟨arc, harc, rfl⟩ := List.mem_map.mp hchild
    exact (of_decide_eq_true (List.mem_filter.mp harc).2).2
  parent_iff := by
    intro sha parent
    simp only [List.mem_map, List.mem_filter, decide_eq_true_eq, Prod.exists]
    constructor
    · intro h
      obtain ⟨p, c, ⟨harc, rfl, hmem⟩, rfl⟩ := h
      exact ⟨p, c, ⟨harc, rfl, hmem⟩, rfl⟩
    · intro h
      obtain ⟨p, c, ⟨harc, rfl, hmem⟩, rfl⟩ := h
      exact ⟨p, c, ⟨harc, rfl, hmem⟩, rfl⟩

/-- The commit `c` merges `b` and its parent `a`. The index shows `c` before `b`. -/
def mergeFirst : CommitIndex :=
  indexOf [js "a", js "c", js "b"] [(js "a", js "c"), (js "a", js "b"), (js "b", js "c")]

/-- The same commits, and `b` before `c`. -/
def mergeLast : CommitIndex :=
  indexOf [js "a", js "b", js "c"] [(js "a", js "b"), (js "a", js "c"), (js "b", js "c")]

end Example

theorem dagPathFinding_mergeFirst :
    FindsShortest Example.mergeFirst (js "a") (js "c") (findPath Example.mergeFirst (js "a") (js "c") 3 2) ∧
    FindsShortest Example.mergeFirst (js "a") (js "c") (shortestPath Example.mergeFirst (js "a") (js "c") 2) := by
  have hsource : js "a" ∈ Example.mergeFirst.commits := by decide
  have hdepth : ∀ n, DistanceFrom Example.mergeFirst (js "a") n (js "c") → n ≤ 2 := by
    intro n hdistance
    have hstep : js "c" ∈ Example.mergeFirst.getChildren (js "a") := by decide
    exact (hdistance.2 (StepsTo.step (.start rfl) hstep)).trans (by decide)
  refine (dagPathFinding_iff Example.mergeFirst (js "a") (js "c") 3 2 hsource hdepth
    (notBinding_of_commits hsource (by decide))).mpr fun _ => ?_
  have hparent : BreadthFirst.lastParent Example.mergeFirst.getChildren (breadthFirst Example.mergeFirst (js "a") 2) (js "c") =
      some (js "a") := by decide +kernel
  have hfirst : (js "a", 0) ∈ breadthFirst Example.mergeFirst (js "a") 2 := by decide +kernel
  have hsecond : (js "c", 1) ∈ breadthFirst Example.mergeFirst (js "a") 2 := by decide +kernel
  exact .next hparent hfirst hsecond .start

/-- The child `b` of `a` takes the place of `a` as the parent of `c`, which is queued already. -/
theorem findPath_not_shortest :
    (∀ sha ∈ Example.mergeLast.commits, ∀ child ∈ Example.mergeLast.getChildren sha,
      Example.mergeLast.commits.idxOf sha < Example.mergeLast.commits.idxOf child) ∧
    findPath Example.mergeLast (js "a") (js "c") 100000 1000 = ⟨true, [js "a", js "b", js "c"], 2⟩ ∧
    shortestPath Example.mergeLast (js "a") (js "c") 1000 = ⟨true, [js "a", js "c"], 1⟩ ∧
    IsPathBy Example.mergeLast.Child (js "a") (js "c") [js "a", js "c"] := by
  refine ⟨by decide, by decide +kernel, by decide +kernel, .cons ?_ (.single _)⟩
  show js "c" ∈ Example.mergeLast.getChildren (js "a")
  decide

end DagPathFinding

end GitWarp
