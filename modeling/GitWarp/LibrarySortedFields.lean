import GitWarp.LibraryJsMap
import Mathlib.Order.Basic

/-! Association lists in strictly increasing key order. Each finite map has one of them. -/

namespace GitWarp.SortedFields

open JsMap (lookup)

variable {K V : Type} [LinearOrder K] [DecidableEq K]

/-- Writes a key, in its place. -/
def put (key : K) (value : V) : List (K × V) → List (K × V)
  | [] => [(key, value)]
  | (k, v) :: rest =>
      if key < k then (key, value) :: (k, v) :: rest
      else if key = k then (key, value) :: rest
      else (k, v) :: put key value rest

def Sorted (fields : List (K × V)) : Prop := fields.Pairwise fun field later => field.1 < later.1

omit [DecidableEq K] in
theorem Sorted.filter {fields : List (K × V)} (h : Sorted fields) (p : K × V → Bool) : Sorted (fields.filter p) :=
  List.Pairwise.filter p h

theorem mem_put {key : K} {value : V} {fields : List (K × V)} {field : K × V} (h : field ∈ put key value fields) :
    field = (key, value) ∨ field ∈ fields := by
  induction fields with
  | nil => exact .inl (List.mem_singleton.mp h)
  | cons first rest ih =>
      obtain ⟨k, v⟩ := first
      rw [put] at h
      split at h
      · exact List.mem_cons.mp h
      · split at h
        · exact (List.mem_cons.mp h).imp_right (List.mem_cons_of_mem _)
        · rcases List.mem_cons.mp h with hfirst | hrest
          · exact .inr (hfirst ▸ List.mem_cons_self)
          · exact (ih hrest).imp_right (List.mem_cons_of_mem _)

theorem Sorted.put {fields : List (K × V)} (h : Sorted fields) (key : K) (value : V) :
    Sorted (SortedFields.put key value fields) := by
  induction fields with
  | nil => exact List.pairwise_singleton _ _
  | cons first rest ih =>
      obtain ⟨k, v⟩ := first
      obtain ⟨hhead, hrest⟩ := List.pairwise_cons.mp h
      rw [SortedFields.put]
      split
      · rename_i hlt
        refine List.pairwise_cons.mpr ⟨fun field hfield => ?_, h⟩
        rcases List.mem_cons.mp hfield with rfl | hfield
        · exact hlt
        · exact hlt.trans (hhead field hfield)
      · rename_i hge
        split
        · rename_i heq
          subst heq
          exact List.pairwise_cons.mpr ⟨hhead, hrest⟩
        · rename_i hne
          refine List.pairwise_cons.mpr ⟨fun field hfield => ?_, ih hrest⟩
          rcases mem_put hfield with hkey | hfield
          · rw [hkey]
            exact lt_of_le_of_ne (not_lt.mp hge) (Ne.symm hne)
          · exact hhead field hfield

theorem lookup_put (key key' : K) (value : V) (fields : List (K × V)) :
    lookup (put key value fields) key' = if key' = key then some value else lookup fields key' := by
  induction fields with
  | nil => rfl
  | cons first rest ih =>
      obtain ⟨k, v⟩ := first
      rw [put]
      split
      · rfl
      · split
        · rename_i heq
          subst heq
          rw [JsMap.lookup_cons, JsMap.lookup_cons]
          split <;> rfl
        · rename_i hne
          rw [JsMap.lookup_cons, JsMap.lookup_cons, ih]
          by_cases hkey : key' = key
          · subst hkey
            rw [if_neg hne, if_pos rfl, if_pos rfl]
          · rw [if_neg hkey, if_neg hkey]

theorem lookup_eq_none_of_lt {key : K} {fields : List (K × V)} (h : ∀ field ∈ fields, key < field.1) :
    lookup fields key = none := by
  induction fields with
  | nil => rfl
  | cons first rest ih =>
      obtain ⟨k, v⟩ := first
      have hlt := h (k, v) List.mem_cons_self
      rw [JsMap.lookup_cons, if_neg (ne_of_lt hlt)]
      exact ih fun field hfield => h field (List.mem_cons_of_mem _ hfield)

theorem eq_of_lookup {fields fields' : List (K × V)} (h : Sorted fields) (h' : Sorted fields')
    (hlookup : ∀ key, lookup fields key = lookup fields' key) : fields = fields' := by
  induction fields generalizing fields' with
  | nil =>
      cases fields' with
      | nil => rfl
      | cons first' rest' =>
          have hfirst := hlookup first'.1
          rw [JsMap.lookup_cons, if_pos rfl] at hfirst
          cases hfirst
  | cons first rest ih =>
      obtain ⟨k, v⟩ := first
      obtain ⟨hhead, hrest⟩ := List.pairwise_cons.mp h
      cases fields' with
      | nil =>
          have hfirst := hlookup k
          rw [JsMap.lookup_cons, if_pos rfl] at hfirst
          cases hfirst
      | cons first' rest' =>
          obtain ⟨k', v'⟩ := first'
          obtain ⟨hhead', hrest'⟩ := List.pairwise_cons.mp h'
          have hkey : k = k' := by
            by_contra hne
            rcases lt_or_gt_of_ne hne with hlt | hgt
            · have hfirst := hlookup k
              rw [JsMap.lookup_cons, if_pos rfl, JsMap.lookup_cons, if_neg hne,
                lookup_eq_none_of_lt fun field hfield => hlt.trans (hhead' field hfield)] at hfirst
              cases hfirst
            · have hfirst := hlookup k'
              rw [JsMap.lookup_cons, if_neg (Ne.symm hne), JsMap.lookup_cons, if_pos rfl,
                lookup_eq_none_of_lt fun field hfield => hgt.trans (hhead field hfield)] at hfirst
              cases hfirst
          subst hkey
          have hvalue := hlookup k
          rw [JsMap.lookup_cons, if_pos rfl, JsMap.lookup_cons, if_pos rfl, Option.some.injEq] at hvalue
          subst hvalue
          rw [ih hrest hrest' fun key => ?_]
          by_cases hkey : key = k
          · subst hkey
            rw [lookup_eq_none_of_lt hhead, lookup_eq_none_of_lt hhead']
          · have hother := hlookup key
            rw [JsMap.lookup_cons, if_neg hkey, JsMap.lookup_cons, if_neg hkey] at hother
            exact hother

end GitWarp.SortedFields
