import Mathlib.Data.List.Basic
import Mathlib.Order.Lattice
import Mathlib.Order.BoundedOrder.Basic

/-! Loops that may throw. A loop whose failures depend only on the item it is at, never on the state
it carries, first reads all items and then runs a total loop over what it read. Together with a
homomorphism into a join semilattice this separates "does it throw" from "what does it compute". -/

namespace GitWarp.ExceptLoops

variable {ε α β σ : Type}

theorem bind_ok_iff {x : Except ε α} {f : α → Except ε β} {b : β} :
    x >>= f = .ok b ↔ ∃ a, x = .ok a ∧ f a = .ok b := by
  cases x with
  | error err => simp [bind, Except.bind]
  | ok a => simp [bind, Except.bind]

theorem toOption_eq_some {x : Except ε α} {a : α} (h : x.toOption = some a) : x = .ok a := by
  cases x with
  | error err => cases h
  | ok b =>
      cases h
      rfl

theorem isOk_bind_pure (x : Except ε α) (f : α → β) : (do return f (← x) : Except ε β).isOk = x.isOk := by
  cases x with
  | error err => rfl
  | ok a => rfl

theorem mapM_cons_ok_iff {f : α → Except ε β} {x : α} {xs : List α} {ys : List β} :
    (x :: xs).mapM f = .ok ys ↔ ∃ y rest, f x = .ok y ∧ xs.mapM f = .ok rest ∧ ys = y :: rest := by
  rw [List.mapM_cons]
  cases f x with
  | error err => simp [bind, Except.bind]
  | ok y =>
      cases xs.mapM f with
      | error err => simp [bind, Except.bind]
      | ok rest => simp [bind, Except.bind, pure, Except.pure, eq_comm]

theorem mem_of_mapM_ok {f : α → Except ε β} {xs : List α} {ys : List β} (h : xs.mapM f = .ok ys)
    (y : β) : y ∈ ys ↔ ∃ x ∈ xs, f x = .ok y := by
  induction xs generalizing ys with
  | nil =>
      cases h
      simp
  | cons x xs ih =>
      obtain ⟨z, rest, hz, hrest, rfl⟩ := mapM_cons_ok_iff.mp h
      rw [List.mem_cons, ih hrest, List.exists_mem_cons_iff, hz, Except.ok.injEq, eq_comm]

/-- What reading keeps of each item is kept of the list. -/
theorem map_of_mapM_ok {γ : Type} {f : α → Except ε β} {xs : List α} {ys : List β} {p : α → γ}
    {q : β → γ} (h : xs.mapM f = .ok ys) (hpq : ∀ x ∈ xs, ∀ y, f x = .ok y → q y = p x) :
    ys.map q = xs.map p := by
  induction xs generalizing ys with
  | nil =>
      cases h
      rfl
  | cons x xs ih =>
      obtain ⟨y, rest, hy, hrest, rfl⟩ := mapM_cons_ok_iff.mp h
      rw [List.map_cons, List.map_cons, ih hrest fun x' hx' => hpq x' (List.mem_cons_of_mem x hx'),
        hpq x (List.mem_cons_self ..) y hy]

/-- What is read together with more can be read alone. -/
theorem mapM_map_of_ok {γ : Type} {f : α → Except ε β} {g : α → Except ε γ} {h : β → γ} {xs : List α} {ys : List β}
    (hys : xs.mapM f = .ok ys) (hfg : ∀ x y, f x = .ok y → g x = .ok (h y)) : xs.mapM g = .ok (ys.map h) := by
  induction xs generalizing ys with
  | nil =>
      cases hys
      rfl
  | cons x xs ih =>
      obtain ⟨y, rest, hy, hrest, rfl⟩ := mapM_cons_ok_iff.mp hys
      exact mapM_cons_ok_iff.mpr ⟨h y, rest.map h, hfg x y hy, ih hrest, rfl⟩

/-- Reading compared item by item, whatever the errors are. -/
theorem mapM_ok_congr {f g : α → Except ε β} {xs : List α} (h : ∀ x ∈ xs, ∀ y, f x = .ok y ↔ g x = .ok y)
    {ys : List β} : xs.mapM f = .ok ys ↔ xs.mapM g = .ok ys := by
  induction xs generalizing ys with
  | nil => rfl
  | cons x xs ih =>
      have hhead := h x List.mem_cons_self
      have htail : ∀ zs, xs.mapM f = .ok zs ↔ xs.mapM g = .ok zs :=
        fun zs => ih fun x' hx' => h x' (List.mem_cons_of_mem x hx')
      simp only [mapM_cons_ok_iff, hhead, htail]

theorem mapM_take_ok {f : α → Except ε β} {xs : List α} {ys : List β} (h : xs.mapM f = .ok ys) (k : Nat) :
    (xs.take k).mapM f = .ok (ys.take k) := by
  induction xs generalizing ys k with
  | nil =>
      cases h
      cases k <;> rfl
  | cons x xs ih =>
      obtain ⟨y, rest, hy, hrest, rfl⟩ := mapM_cons_ok_iff.mp h
      cases k with
      | zero => rfl
      | succ k => exact mapM_cons_ok_iff.mpr ⟨y, rest.take k, hy, ih hrest k, rfl⟩

theorem mapM_of_ok {f : α → Except ε β} {g : α → β} {xs : List α} (h : ∀ x ∈ xs, f x = .ok (g x)) :
    xs.mapM f = .ok (xs.map g) := by
  induction xs with
  | nil => rfl
  | cons x xs ih =>
      have hrest := ih fun y hy => h y (List.mem_cons_of_mem x hy)
      exact mapM_cons_ok_iff.mpr ⟨g x, xs.map g, h x List.mem_cons_self, hrest, rfl⟩

/-- A loop over rewritten items, each of which reads as the rewriting of what the item reads as. -/
theorem mapM_map_eq {α' β' : Type} {f : α → Except ε β} {f' : α' → Except ε β'} {g : α → α'} {h : β → β'}
    {xs : List α} (hstep : ∀ x ∈ xs, f' (g x) = (f x).map h) :
    (xs.map g).mapM f' = (xs.mapM f).map (List.map h) := by
  induction xs with
  | nil => rfl
  | cons x rest ih =>
      rw [List.map_cons, List.mapM_cons, List.mapM_cons, hstep x (List.mem_cons_self ..),
        ih fun y hy => hstep y (List.mem_cons_of_mem _ hy)]
      cases f x with
      | error err => rfl
      | ok y =>
          cases rest.mapM f with
          | error err => rfl
          | ok ys => rfl

/-- Reading succeeds exactly when every item can be read. -/
theorem exists_mapM_ok_iff {f : α → Except ε β} {xs : List α} :
    (∃ ys, xs.mapM f = .ok ys) ↔ ∀ x ∈ xs, ∃ y, f x = .ok y := by
  induction xs with
  | nil => simp [pure, Except.pure]
  | cons x xs ih =>
      rw [List.forall_mem_cons, ← ih]
      constructor
      · rintro ⟨ys, hys⟩
        obtain ⟨y, rest, hy, hrest, -⟩ := mapM_cons_ok_iff.mp hys
        exact ⟨⟨y, hy⟩, rest, hrest⟩
      · rintro ⟨⟨y, hy⟩, rest, hrest⟩
        exact ⟨y :: rest, mapM_cons_ok_iff.mpr ⟨y, rest, hy, hrest, rfl⟩⟩

/-- A loop whose step reads its item and then cannot fail is a reading pass and a total loop. -/
theorem foldlM_eq_mapM_foldl (read : α → Except ε β) (step : σ → α → Except ε σ)
    (apply : σ → β → σ) (hstep : ∀ s x, step s x = (read x).map (apply s)) (xs : List α) (s : σ) :
    xs.foldlM step s = (xs.mapM read).map fun ys => ys.foldl apply s := by
  induction xs generalizing s with
  | nil => rfl
  | cons x xs ih =>
      rw [List.foldlM_cons, List.mapM_cons, hstep]
      cases read x with
      | error err => rfl
      | ok y =>
          show xs.foldlM step (apply s y) = _
          rw [ih]
          cases xs.mapM read <;> rfl

/-- A loop that returns exactly where its items can be read: what it computes of a part of its state is a total
loop over what was read. -/
theorem foldlM_part_ok_iff {ε' τ : Type} (part : σ → τ) (read : α → Except ε' β) (round : σ → α → Except ε σ)
    (step : τ → β → τ) (hread : ∀ s x t, round s x = .ok t → ∃ y, read x = .ok y ∧ step (part s) y = part t)
    (hround : ∀ s x y, read x = .ok y → ∃ t, round s x = .ok t) (xs : List α) (s : σ) (p : τ) :
    (∃ t, xs.foldlM round s = .ok t ∧ part t = p) ↔ ∃ ys, xs.mapM read = .ok ys ∧ ys.foldl step (part s) = p := by
  induction xs generalizing s with
  | nil => simp [pure, Except.pure]
  | cons x xs ih =>
      simp only [List.foldlM_cons, bind_ok_iff]
      constructor
      · rintro ⟨t, ⟨m, hm, ht⟩, rfl⟩
        obtain ⟨y, hy, hpart⟩ := hread s x m hm
        obtain ⟨ys, hys, hfold⟩ := (ih m).mp ⟨t, ht, rfl⟩
        rw [← hpart] at hfold
        exact ⟨y :: ys, mapM_cons_ok_iff.mpr ⟨y, ys, hy, hys, rfl⟩, hfold⟩
      · rintro ⟨zs, hzs, hfold⟩
        obtain ⟨y, ys, hy, hys, rfl⟩ := mapM_cons_ok_iff.mp hzs
        obtain ⟨m, hm⟩ := hround s x y hy
        obtain ⟨y', hy', hpart⟩ := hread s x m hm
        cases hy.symm.trans hy'
        rw [List.foldl_cons, hpart] at hfold
        obtain ⟨t, ht, htp⟩ := (ih m).mpr ⟨ys, hys, hfold⟩
        exact ⟨t, ⟨m, hm, ht⟩, htp⟩

/-- A loop that returns has taken a step at each of its items. -/
theorem exists_step_of_foldlM_ok {step : σ → α → Except ε σ} {xs : List α} {s t : σ}
    (h : xs.foldlM step s = .ok t) {x : α} (hx : x ∈ xs) : ∃ s' t', step s' x = .ok t' := by
  induction xs generalizing s with
  | nil => cases hx
  | cons y rest ih =>
      rw [List.foldlM_cons] at h
      cases hy : step s y with
      | error err => rw [hy] at h; cases h
      | ok m =>
          rw [hy] at h
          rcases List.mem_cons.mp hx with rfl | hrest
          · exact ⟨s, m, hy⟩
          · exact ih h hrest

/-- A loop whose steps return what a function returns is the loop of the function. -/
theorem foldlM_eq_foldl {step : σ → α → Except ε σ} {f : σ → α → σ} {xs : List α}
    (hstep : ∀ x ∈ xs, ∀ s, step s x = .ok (f s x)) (s : σ) : xs.foldlM step s = .ok (xs.foldl f s) := by
  induction xs generalizing s with
  | nil => rfl
  | cons x xs ih =>
      rw [List.foldlM_cons, hstep x List.mem_cons_self]
      exact ih (fun y hy => hstep y (List.mem_cons_of_mem x hy)) (f s x)

/-- A loop whose steps return and keep an invariant. -/
theorem foldlM_keeps {step : σ → α → Except ε σ} {P : σ → Prop} {xs : List α}
    (hstep : ∀ s, P s → ∀ x ∈ xs, ∃ t, step s x = .ok t ∧ P t) {s : σ} (hs : P s) :
    ∃ t, xs.foldlM step s = .ok t ∧ P t := by
  induction xs generalizing s with
  | nil => exact ⟨s, rfl, hs⟩
  | cons x xs ih =>
      obtain ⟨m, hm, hkept⟩ := hstep s hs x List.mem_cons_self
      obtain ⟨t, ht, hlast⟩ := ih (fun u hu y hy => hstep u hu y (List.mem_cons_of_mem x hy)) hkept
      refine ⟨t, ?_, hlast⟩
      rw [List.foldlM_cons, hm]
      exact ht

/-- A loop none of whose steps throws returns. -/
theorem exists_foldlM_ok {step : σ → α → Except ε σ} {xs : List α}
    (hstep : ∀ s, ∀ x ∈ xs, ∃ t, step s x = .ok t) (s : σ) : ∃ t, xs.foldlM step s = .ok t := by
  have hkeep : ∀ s, True → ∀ x ∈ xs, ∃ t, step s x = .ok t ∧ True := by
    intro s _ x hx
    obtain ⟨t, ht⟩ := hstep s x hx
    exact ⟨t, ht, trivial⟩
  obtain ⟨t, ht, -⟩ := foldlM_keeps hkeep (s := s) trivial
  exact ⟨t, ht⟩

/-- The loop that pushes what `f` returns for each item. -/
def collectM (f : α → Except ε (List β)) (xs : List α) : Except ε (List β) :=
  xs.foldlM (fun acc x => do return acc ++ (← f x)) []

theorem collectM_eq (f : α → Except ε (List β)) (xs : List α) :
    collectM f xs = (xs.mapM f).map List.flatten := by
  have hstep : ∀ (acc : List β) (x : α),
      (do return acc ++ (← f x) : Except ε (List β)) = (f x).map (acc ++ ·) := by
    intro acc x
    cases f x <;> rfl
  have hflatten : ∀ (ys : List (List β)) (acc : List β),
      ys.foldl (fun acc y => acc ++ y) acc = acc ++ ys.flatten := by
    intro ys
    induction ys with
    | nil => simp
    | cons y ys ih => intro acc; rw [List.foldl_cons, ih, List.flatten_cons, List.append_assoc]
  rw [collectM, foldlM_eq_mapM_foldl f _ _ hstep]
  cases xs.mapM f with
  | error err => rfl
  | ok ys => exact congrArg Except.ok (hflatten ys [])

theorem mem_of_collectM_ok {f : α → Except ε (List β)} {xs : List α} {ys : List β}
    (h : collectM f xs = .ok ys) (y : β) : y ∈ ys ↔ ∃ x ∈ xs, ∃ zs, f x = .ok zs ∧ y ∈ zs := by
  rw [collectM_eq] at h
  cases hread : xs.mapM f with
  | error err => rw [hread] at h; cases h
  | ok zss =>
      rw [hread] at h
      cases h
      simp only [List.mem_flatten, mem_of_mapM_ok hread]
      constructor
      · rintro ⟨zs, ⟨x, hx, hzs⟩, hy⟩
        exact ⟨x, hx, zs, hzs, hy⟩
      · rintro ⟨x, hx, zs, hzs, hy⟩
        exact ⟨zs, ⟨x, hx, hzs⟩, hy⟩

theorem exists_collectM_ok_iff {f : α → Except ε (List β)} {xs : List α} :
    (∃ ys, collectM f xs = .ok ys) ↔ ∀ x ∈ xs, ∃ y, f x = .ok y := by
  rw [← exists_mapM_ok_iff, collectM_eq]
  cases xs.mapM f <;> simp [Except.map]

/-! ### Effects in a join semilattice -/

variable {L : Type} [SemilatticeSup L] [OrderBot L]

/-- The join of the effects of a list. -/
def joinAll (effect : β → L) (ys : List β) : L := ys.foldr (fun y acc => effect y ⊔ acc) ⊥

@[simp] theorem joinAll_nil (effect : β → L) : joinAll effect [] = ⊥ := rfl

@[simp] theorem joinAll_cons (effect : β → L) (y : β) (ys : List β) :
    joinAll effect (y :: ys) = effect y ⊔ joinAll effect ys := rfl

theorem joinAll_append (effect : β → L) (ys zs : List β) :
    joinAll effect (ys ++ zs) = joinAll effect ys ⊔ joinAll effect zs := by
  induction ys with
  | nil => simp
  | cons y ys ih => rw [List.cons_append, joinAll_cons, joinAll_cons, ih, sup_assoc]

/-- A property that a join has exactly when one of its parts has it. -/
theorem joinAll_prime {P : L → Prop} (hsup : ∀ a b, P (a ⊔ b) ↔ P a ∨ P b) (hbot : ¬ P ⊥)
    (effect : β → L) (ys : List β) : P (joinAll effect ys) ↔ ∃ y ∈ ys, P (effect y) := by
  induction ys with
  | nil => simp [hbot]
  | cons y ys ih => rw [joinAll_cons, hsup, ih, List.exists_mem_cons_iff]

theorem joinAll_le_iff (effect : β → L) (ys : List β) (bound : L) :
    joinAll effect ys ≤ bound ↔ ∀ y ∈ ys, effect y ≤ bound := by
  induction ys with
  | nil => simp
  | cons y ys ih => rw [joinAll_cons, sup_le_iff, ih, List.forall_mem_cons]

theorem le_joinAll (effect : β → L) {ys : List β} {y : β} (hy : y ∈ ys) : effect y ≤ joinAll effect ys :=
  (joinAll_le_iff effect ys _).mp le_rfl y hy

/-- Only the members of the list matter: neither their order nor how often they occur. -/
theorem joinAll_congr (effect : β → L) {ys zs : List β} (h : ∀ y, y ∈ ys ↔ y ∈ zs) :
    joinAll effect ys = joinAll effect zs := by
  apply le_antisymm
  · exact (joinAll_le_iff effect ys _).mpr fun y hy => le_joinAll effect ((h y).mp hy)
  · exact (joinAll_le_iff effect zs _).mpr fun y hy => le_joinAll effect ((h y).mpr hy)

/-- When each step joins the effect of its item, the loop joins the effects of all of them. -/
theorem view_foldl (view : σ → L) {apply : σ → β → σ} {effect : β → L}
    (hstep : ∀ s y, view (apply s y) = view s ⊔ effect y) (ys : List β) (s : σ) :
    view (ys.foldl apply s) = view s ⊔ joinAll effect ys := by
  induction ys generalizing s with
  | nil => simp
  | cons y ys ih => rw [List.foldl_cons, ih, hstep, joinAll_cons, sup_assoc]

end GitWarp.ExceptLoops
