import Mathlib.Data.List.Destutter
import Mathlib.Data.List.Forall2
import Mathlib.Data.List.Nodup
import Mathlib.Data.List.Sort

/-! Lists whose places matter: replacing one element, places that a partial key tells apart,
sorted lists and folds. -/

namespace GitWarp.Lists

variable {α β γ : Type}

/-- The two sides of a place; replacing the element there keeps them. -/
theorem exists_split {l : List α} {i : Nat} {a : α} (h : l[i]? = some a) :
    ∃ before after, l = before ++ a :: after ∧ ∀ b, l.set i b = before ++ b :: after := by
  induction l generalizing i with
  | nil => cases h
  | cons head rest ih =>
      cases i with
      | zero =>
          cases h
          exact ⟨[], rest, rfl, fun _ => rfl⟩
      | succ i =>
          obtain ⟨before, after, hrest, hset⟩ := ih h
          exact ⟨head :: before, after, congrArg _ hrest, fun b => congrArg _ (hset b)⟩

theorem map_fst_set {l : List (α × β)} {i : Nat} {a : α} {b : β} (h : l[i]? = some (a, b)) (b' : β) :
    (l.set i (a, b')).map Prod.fst = l.map Prod.fst := by
  obtain ⟨before, after, rfl, hset⟩ := exists_split h
  rw [hset, List.map_append, List.map_append, List.map_cons, List.map_cons]

theorem mem_of_mem_set {l : List α} {i : Nat} {a b x : α} (h : l[i]? = some a) (hx : x ∈ l.set i b) :
    x = b ∨ x ∈ l := by
  obtain ⟨before, after, rfl, hset⟩ := exists_split h
  rw [hset, List.mem_append, List.mem_cons] at hx
  rw [List.mem_append, List.mem_cons]
  tauto

theorem filterMap_set_same {l : List α} {i : Nat} {a b : α} {f : α → Option β} (h : l[i]? = some a)
    (hf : f b = f a) : (l.set i b).filterMap f = l.filterMap f := by
  obtain ⟨before, after, rfl, hset⟩ := exists_split h
  rw [hset, List.filterMap_append, List.filterMap_append]
  cases hfa : f a with
  | none => rw [List.filterMap_cons_none (hf.trans hfa), List.filterMap_cons_none hfa]
  | some c => rw [List.filterMap_cons_some (hf.trans hfa), List.filterMap_cons_some hfa]

/-- Giving a key to an element that had none adds the key to the list of keys. -/
theorem filterMap_set_new {l : List α} {i : Nat} {a b : α} {f : α → Option β} {c : β}
    (h : l[i]? = some a) (hfa : f a = none) (hfb : f b = some c) :
    (l.set i b).filterMap f |>.Perm (c :: l.filterMap f) := by
  obtain ⟨before, after, rfl, hset⟩ := exists_split h
  rw [hset, List.filterMap_append, List.filterMap_append, List.filterMap_cons_some hfb,
    List.filterMap_cons_none hfa]
  exact List.perm_middle

/-- Where no key occurs twice, the key tells the place. -/
theorem place_of_filterMap_nodup {f : α → Option β} {l : List α} (h : (l.filterMap f).Nodup)
    {i j : Nat} {a b : α} {c : β} (ha : l[i]? = some a) (hb : l[j]? = some b) (hfa : f a = some c)
    (hfb : f b = some c) : i = j := by
  have hmem : ∀ (l : List α) (i : Nat) (a : α), l[i]? = some a → f a = some c → c ∈ l.filterMap f :=
    fun l i a ha hfa => List.mem_filterMap.mpr ⟨a, List.mem_of_getElem? ha, hfa⟩
  induction l generalizing i j with
  | nil => cases ha
  | cons head rest ih =>
      cases i with
      | zero =>
          cases ha
          cases j with
          | zero => rfl
          | succ j =>
              rw [List.filterMap_cons_some hfa, List.nodup_cons] at h
              exact absurd (hmem rest j b hb hfb) h.1
      | succ i =>
          cases j with
          | zero =>
              cases hb
              rw [List.filterMap_cons_some hfb, List.nodup_cons] at h
              exact absurd (hmem rest i a ha hfa) h.1
          | succ j =>
              exact congrArg _ (ih (h.sublist (List.Sublist.filterMap f (List.sublist_cons_self _ _))) ha hb)

theorem mapM_eq_some_iff {f : α → Option β} {xs : List α} {ys : List β} :
    xs.mapM f = some ys ↔ xs.map f = ys.map some := by
  induction xs generalizing ys with
  | nil =>
      rw [List.mapM_nil, List.map_nil, eq_comm, @eq_comm _ [], List.map_eq_nil_iff]
      exact Option.some_inj
  | cons x xs ih =>
      rw [List.mapM_cons, List.map_cons]
      cases hx : f x with
      | none =>
          refine iff_of_false (fun h => by cases h) fun h => ?_
          cases ys with
          | nil => cases h
          | cons y ys => cases (List.cons.inj h).1
      | some y =>
          cases ys with
          | nil => cases xs.mapM f <;> simp
          | cons z ys =>
              rw [List.map_cons, List.cons.injEq, ← ih]
              cases xs.mapM f <;> simp

theorem mapM_map_eq_some_iff {f : β → Option γ} {g : α → β} {h : α → γ} {xs : List α} :
    (xs.map g).mapM f = some (xs.map h) ↔ ∀ x ∈ xs, f (g x) = some (h x) := by
  rw [mapM_eq_some_iff, List.map_map, List.map_map, List.map_inj_left]
  rfl

theorem filterMap_eq_map_filter {f : α → Option β} {p : α → Bool} {g : α → β} {xs : List α}
    (h : ∀ x ∈ xs, f x = if p x then some (g x) else none) : xs.filterMap f = (xs.filter p).map g := by
  induction xs with
  | nil => rfl
  | cons x xs ih =>
      have hrest := ih fun y hy => h y (List.mem_cons_of_mem x hy)
      have hx := h x List.mem_cons_self
      cases hp : p x with
      | false =>
          rw [hp] at hx
          rw [List.filterMap_cons_none hx, List.filter_cons_of_neg (by simp [hp]), hrest]
      | true =>
          rw [hp] at hx
          rw [List.filterMap_cons_some hx, List.filter_cons_of_pos hp, List.map_cons, hrest]

/-- Sorting sorts by every key that the order of the elements refines. -/
theorem pairwise_insertionSort_key [Preorder β] (r : α → α → Prop) [DecidableRel r] (key : α → β)
    (hle : ∀ a b, r a b → key a ≤ key b) (hge : ∀ a b, ¬ r a b → key b ≤ key a) (l : List α) :
    (l.insertionSort r).Pairwise fun a b => key a ≤ key b := by
  have hinsert : ∀ (a : α) (l : List α), (l.Pairwise fun a b => key a ≤ key b) →
      (l.orderedInsert r a).Pairwise fun a b => key a ≤ key b := by
    intro a l
    induction l with
    | nil => exact fun _ => List.pairwise_singleton _ _
    | cons b rest ih =>
        intro hsorted
        obtain ⟨hhead, hrest⟩ := List.pairwise_cons.mp hsorted
        rw [List.orderedInsert_cons]
        split
        · rename_i hab
          refine List.pairwise_cons.mpr ⟨fun c hc => ?_, hsorted⟩
          rcases List.mem_cons.mp hc with rfl | hc
          · exact hle a c hab
          · exact (hle a b hab).trans (hhead c hc)
        · rename_i hab
          refine List.pairwise_cons.mpr ⟨fun c hc => ?_, ih hrest⟩
          rcases List.mem_orderedInsert r |>.mp hc with rfl | hc
          · exact hge c b hab
          · exact hhead c hc
  induction l with
  | nil => exact List.Pairwise.nil
  | cons a rest ih => exact hinsert a _ ih

/-- Sorting by a key that tells the elements apart sorts strictly. -/
theorem pairwise_lt_insertionSort_key [PartialOrder β] (r : α → α → Prop) [DecidableRel r] (key : α → β)
    (hle : ∀ a b, r a b → key a ≤ key b) (hge : ∀ a b, ¬ r a b → key b ≤ key a) {l : List α}
    (hnodup : (l.map key).Nodup) : (l.insertionSort r).Pairwise fun a b => key a < key b := by
  have hkeys : ((l.insertionSort r).map key).Nodup := (((List.perm_insertionSort r l).map key).nodup_iff).mpr hnodup
  have hne : (l.insertionSort r).Pairwise fun a b => key a ≠ key b := List.pairwise_map.mp hkeys
  exact ((pairwise_insertionSort_key r key hle hge l).and hne).imp fun h => lt_of_le_of_ne h.1 h.2

/-- Sorting by a key that tells the elements apart gives one list for one set. -/
theorem insertionSort_eq_iff [PartialOrder β] (r : α → α → Prop) [DecidableRel r] (key : α → β)
    (hle : ∀ a b, r a b → key a ≤ key b) (hge : ∀ a b, ¬ r a b → key b ≤ key a) {l l' : List α}
    (hnodup : l.Nodup) (hnodup' : l'.Nodup) (hkey : ∀ a ∈ l, ∀ b ∈ l, key a = key b → a = b) :
    l.insertionSort r = l'.insertionSort r ↔ ∀ a, a ∈ l ↔ a ∈ l' := by
  constructor
  · intro h a
    rw [← List.mem_insertionSort r, h, List.mem_insertionSort]
  · intro hmem
    refine List.Perm.eq_of_pairwise (fun a b ha hb hab hba => ?_)
      (pairwise_insertionSort_key r key hle hge l) (pairwise_insertionSort_key r key hle hge l') ?_
    · rw [List.mem_insertionSort] at ha hb
      exact hkey a ha b ((hmem b).mpr hb) (le_antisymm hab hba)
    · exact (List.perm_insertionSort r l).trans
        (((List.perm_ext_iff_of_nodup hnodup hnodup').mpr hmem).trans (List.perm_insertionSort r l').symm)

/-- In a list that is sorted by a key, the first place beyond a bound splits it at the bound. -/
theorem findIdx_split [LinearOrder β] (key : α → β) {l : List α} (hsorted : l.Pairwise fun a b => key a ≤ key b)
    (bound : β) : (∀ a ∈ l.take (l.findIdx fun a => bound < key a), key a ≤ bound) ∧
      ∀ a ∈ l.drop (l.findIdx fun a => bound < key a), bound < key a := by
  induction l with
  | nil => exact ⟨nofun, nofun⟩
  | cons a rest ih =>
      obtain ⟨hhead, hrest⟩ := List.pairwise_cons.mp hsorted
      rw [List.findIdx_cons]
      by_cases hbound : bound < key a
      · rw [decide_eq_true hbound, cond_true, List.take_zero, List.drop_zero]
        refine ⟨nofun, List.forall_mem_cons.mpr ⟨hbound, fun b hb => hbound.trans_le (hhead b hb)⟩⟩
      · rw [decide_eq_false hbound, cond_false, List.take_succ_cons, List.drop_succ_cons]
        exact ⟨List.forall_mem_cons.mpr ⟨not_lt.mp hbound, (ih hrest).1⟩, (ih hrest).2⟩

/-- The only element with a key is the last of those that do not go beyond it. -/
theorem eq_append_of_filter_eq [LinearOrder β] (key : α → β) {l : List α}
    (hsorted : l.Pairwise fun a b => key a ≤ key b) {bound : β} (hle : ∀ a ∈ l, key a ≤ bound) {last : α}
    (honly : l.filter (fun a => key a = bound) = [last]) :
    ∃ before, l = before ++ [last] ∧ ∀ a ∈ before, key a < bound := by
  obtain ⟨before, after, rfl, hbefore, hkey, hafter⟩ := List.filter_eq_cons_iff.mp honly
  have hlast : ∀ a ∈ after, False := by
    intro a ha
    have hge : key last ≤ key a := (List.pairwise_cons.mp (List.pairwise_append.mp hsorted).2.1).1 a ha
    have hne := List.filter_eq_nil_iff.mp hafter a ha
    rw [decide_eq_true_eq] at hkey hne
    exact hne (le_antisymm (hle a (List.mem_append_right _ (List.mem_cons_of_mem last ha))) (hkey ▸ hge))
  have hnil : after = [] := List.eq_nil_iff_forall_not_mem.mpr hlast
  subst hnil
  refine ⟨before, rfl, fun a ha => lt_of_le_of_ne (hle a (List.mem_append_left _ ha)) fun heq => ?_⟩
  exact hbefore a ha (decide_eq_true heq)

section Destutter

variable {R : α → α → Prop} [DecidableRel R]

/-- Taking the repetitions out of a list takes no element out of it. -/
theorem mem_destutter (hR : ∀ a b, ¬ R a b → a = b) {l : List α} (x : α) : x ∈ l.destutter R ↔ x ∈ l := by
  refine ⟨fun hx => (List.destutter_sublist R l).subset hx, fun hx => ?_⟩
  have hmem : ∀ (l : List α) (a : α), x ∈ a :: l → x ∈ l.destutter' R a := by
    intro l
    induction l with
    | nil => exact fun a h => h
    | cons b rest ih =>
        intro a h
        by_cases hrel : R a b
        · rw [List.destutter'_cons_pos rest hrel]
          rcases List.mem_cons.mp h with rfl | h
          · exact List.mem_cons_self
          · exact List.mem_cons_of_mem _ (ih b h)
        · rw [List.destutter'_cons_neg rest hrel]
          have heq := hR a b hrel
          subst heq
          exact ih a ((List.mem_cons.mp h).elim (fun heq => heq ▸ List.mem_cons_self) id)
  cases l with
  | nil => exact hx
  | cons a rest => exact hmem rest a hx

/-- A sorted list without its repetitions is strictly sorted. -/
theorem pairwise_lt_destutter [PartialOrder β] (key : α → β) (hR : ∀ a b, R a b → key a ≠ key b) {l : List α}
    (hsorted : l.Pairwise fun a b => key a ≤ key b) : (l.destutter R).Pairwise fun a b => key a < key b := by
  have hle : (l.destutter R).Pairwise fun a b => key a ≤ key b := hsorted.sublist (List.destutter_sublist R l)
  have hchain : (l.destutter R).IsChain fun a b => key a < key b := by
    have hne := List.isChain_destutter R l
    generalize l.destutter R = kept at hle hne
    induction hne with
    | nil => exact List.isChain_nil
    | singleton a => exact List.isChain_singleton a
    | cons_cons hrel _ ih =>
        obtain ⟨hhead, htail⟩ := List.pairwise_cons.mp hle
        exact .cons_cons (lt_of_le_of_ne (hhead _ List.mem_cons_self) (hR _ _ hrel)) (ih htail)
  have htrans : IsTrans α fun a b => key a < key b := ⟨fun _ _ _ => lt_trans⟩
  exact List.isChain_iff_pairwise.mp hchain

end Destutter

/-- Two lists that are strictly sorted by a key and have the same elements are equal. -/
theorem eq_of_mem_iff_key [Preorder β] (key : α → β) {l l' : List α} (h : l.Pairwise fun a b => key a < key b)
    (h' : l'.Pairwise fun a b => key a < key b) (hmem : ∀ a, a ∈ l ↔ a ∈ l') : l = l' := by
  have hirrefl : Std.Irrefl fun a b : α => key a < key b := ⟨fun a => lt_irrefl (key a)⟩
  have hantisymm : Std.Antisymm fun a b : α => key a < key b := ⟨fun a b hab hba => absurd hab hba.asymm⟩
  exact h.eq_of_mem_iff h' hmem

/-- The items of a list at ascending places. -/
theorem filterMap_getElem?_eq_filter {l : List α} {p : α → Bool} {places : List Nat}
    (hsorted : places.Pairwise (· < ·)) (hplaces : ∀ i, i ∈ places ↔ ∃ a, l[i]? = some a ∧ p a = true) :
    places.filterMap (fun i => l[i]?) = l.filter p := by
  have htake : ∀ n, (List.range n).filterMap (fun i => l[i]?) = l.take n := by
    intro n
    induction n with
    | zero => rfl
    | succ n ih =>
        rw [List.range_succ, List.filterMap_append, ih, List.take_add_one, List.filterMap_cons, List.filterMap_nil]
        cases l[n]? <;> rfl
  have hrange : places = (List.range l.length).filter fun i => (l[i]?.filter p).isSome := by
    refine eq_of_mem_iff_key (fun i => i) hsorted (List.pairwise_lt_range.filter _) fun i => ?_
    rw [hplaces, List.mem_filter, List.mem_range, Option.isSome_iff_exists]
    simp only [Option.filter_eq_some_iff]
    refine (and_iff_right_of_imp ?_).symm
    rintro ⟨a, ha, -⟩
    exact (List.getElem?_eq_some_iff.mp ha).1
  have hall : l.filter p = ((List.range l.length).filterMap fun i => l[i]?).filter p := by
    rw [htake, List.take_length]
  rw [hall, hrange, List.filterMap_filter, List.filter_filterMap]
  refine List.filterMap_congr fun i _ => ?_
  cases l[i]? with
  | none => rfl
  | some a => cases hp : p a <;> simp [hp, Option.filter]

/-- A fold whose every item may bring a property about, and none takes it away. -/
theorem foldl_iff {P : β → Prop} {R : α → Prop} {step : β → α → β} (hstep : ∀ b a, P (step b a) ↔ P b ∨ R a) (l : List α)
    (b : β) : P (l.foldl step b) ↔ P b ∨ ∃ a ∈ l, R a := by
  induction l generalizing b with
  | nil => simp
  | cons a rest ih => rw [List.foldl_cons, ih, hstep, List.exists_mem_cons_iff, or_assoc]

/-! ### Lists that relate item by item -/

/-- A list whose elements all relate to something relates to a list. -/
theorem exists_forall₂ {R : α → β → Prop} {l : List α} (h : ∀ a ∈ l, ∃ b, R a b) : ∃ l', List.Forall₂ R l l' := by
  induction l with
  | nil => exact ⟨[], .nil⟩
  | cons a rest ih =>
      obtain ⟨b, hb⟩ := h a List.mem_cons_self
      obtain ⟨l', hl'⟩ := ih fun a ha => h a (List.mem_cons_of_mem _ ha)
      exact ⟨b :: l', .cons hb hl'⟩

theorem exists_of_forall₂ {R : α → β → Prop} {l : List α} {l' : List β} (h : List.Forall₂ R l l') :
    (∀ a ∈ l, ∃ b ∈ l', R a b) ∧ ∀ b ∈ l', ∃ a ∈ l, R a b := by
  induction h with
  | nil => exact ⟨nofun, nofun⟩
  | @cons a b rest rest' hab _ ih =>
      refine ⟨List.forall_mem_cons.mpr ⟨⟨b, List.mem_cons_self, hab⟩, fun a ha => ?_⟩,
        List.forall_mem_cons.mpr ⟨⟨a, List.mem_cons_self, hab⟩, fun b hb => ?_⟩⟩
      · obtain ⟨b, hb, hab⟩ := ih.1 a ha
        exact ⟨b, List.mem_cons_of_mem _ hb, hab⟩
      · obtain ⟨a, ha, hab⟩ := ih.2 b hb
        exact ⟨a, List.mem_cons_of_mem _ ha, hab⟩

/-- Two lists that functions make of one list relate where the functions do. -/
theorem forall₂_iff_of_common {R : α → β → Prop} {S : α → γ → Prop} {T : β → γ → Prop}
    (hR : ∀ a b b', R a b → R a b' → b = b') (hS : ∀ a c c', S a c → S a c' → c = c') {l : List α} {bs : List β}
    {cs : List γ} (hbs : List.Forall₂ R l bs) (hcs : List.Forall₂ S l cs) :
    List.Forall₂ T bs cs ↔ ∀ a ∈ l, ∀ b c, R a b → S a c → T b c := by
  induction hbs generalizing cs with
  | nil =>
      cases hcs
      exact iff_of_true .nil nofun
  | @cons a b rest bs hab _ ih =>
      obtain ⟨c, cs, hac, hrest, rfl⟩ := List.forall₂_cons_left_iff.mp hcs
      rw [List.forall₂_cons, ih hrest, List.forall_mem_cons]
      refine and_congr_left fun _ => ⟨fun hbc b' c' hb' hc' => ?_, fun h => h b c hab hac⟩
      rw [hR a b' b hb' hab, hS a c' c hc' hac]
      exact hbc

end GitWarp.Lists
