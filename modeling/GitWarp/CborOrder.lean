import GitWarp.CborCodec
import GitWarp.LibraryLists

/-! The order in which the codec writes keys. Here the fields of an object stand in the order in which they are
enumerated, which is what the encoder writes: array indices by their numbers, then the other keys as they were
created. -/

namespace GitWarp
open Js

/-- An array, an object or a `Map`. -/
def JsValue.isContainer : JsValue → Bool
  | .array _ | .object _ | .map _ => true
  | _ => false

/-- What holds of a container where it holds of its parts holds of every value. -/
@[elab_as_elim]
theorem JsValue.induct {motive : JsValue → Prop} (leaf : ∀ value : JsValue, value.isContainer = false → motive value)
    (array : ∀ items, (∀ item ∈ items, motive item) → motive (.array items))
    (object : ∀ fields, (∀ field ∈ fields, motive field.2) → motive (.object fields))
    (map : ∀ entries, (∀ entry ∈ entries, motive entry.2) → motive (.map entries)) (value : JsValue) :
    motive value :=
  @JsValue.rec motive (fun items => ∀ item ∈ items, motive item) (fun fields => ∀ field ∈ fields, motive field.2)
    (fun field => motive field.2)
    (leaf .undefined rfl) (leaf .null rfl) (fun b => leaf (.bool b) rfl) (fun n => leaf (.number n) rfl)
    (fun n => leaf (.bigint n) rfl) (fun s => leaf (.string s) rfl) array object map
    (fun data => leaf (.bytes data) rfl) (fun held text => leaf (.builtin held text) rfl)
    (fun _ h => absurd h List.not_mem_nil)
    (fun _ _ hhead htail _ h => (List.mem_cons.mp h).elim (fun heq => heq ▸ hhead) (htail _))
    (fun _ h => absurd h List.not_mem_nil)
    (fun _ _ hhead htail _ h => (List.mem_cons.mp h).elim (fun heq => heq ▸ hhead) (htail _))
    (fun _ _ hvalue => hvalue) value

namespace CborOrder

variable {V : Type}

/-! ### The order of the keys of an object -/

/-- The number of a key that is an array index. -/
def arrayIndex (key : JsString) : Option Nat :=
  match parseInt key with
  | some (.ofNat n) => if n < 2 ^ 32 - 1 ∧ decimal n = key then some n else none
  | _ => none

theorem eq_decimal_of_arrayIndex {key : JsString} {n : Nat} (h : arrayIndex key = some n) : key = decimal n := by
  unfold arrayIndex at h
  split at h
  · split at h
    · rename_i hkey
      rw [← Option.some.inj h, hkey.2]
    · cases h
  · cases h

/-- `Object.entries` of an object whose keys were created in the order of the list. -/
def enumerate (created : List (JsString × V)) : List (JsString × V) :=
  (created.filter fun field => (arrayIndex field.1).isSome).insertionSort
      (fun field later => (arrayIndex field.1).getD 0 ≤ (arrayIndex later.1).getD 0) ++
    created.filter fun field => (arrayIndex field.1).isNone

/-- Whether one of two keys that were created in the order of their names is enumerated before the other. -/
def Before (key later : JsString) : Prop :=
  match arrayIndex key, arrayIndex later with
  | some n, some m => n < m
  | some _, none => True
  | none, some _ => False
  | none, none => key < later

theorem before_asymm {key later : JsString} (h : Before key later) : ¬ Before later key := by
  intro h'
  unfold Before at h h'
  cases hkey : arrayIndex key with
  | some n =>
      cases hlater : arrayIndex later with
      | some m =>
          rw [hkey, hlater] at h h'
          exact Nat.lt_asymm h h'
      | none =>
          rw [hkey, hlater] at h'
          exact h'
  | none =>
      cases hlater : arrayIndex later with
      | some m =>
          rw [hkey, hlater] at h
          exact h
      | none =>
          rw [hkey, hlater] at h h'
          exact lt_asymm h h'

theorem enumerate_perm (created : List (JsString × V)) : (enumerate created).Perm created := by
  have hsorted := List.perm_insertionSort (fun field later : JsString × V =>
    (arrayIndex field.1).getD 0 ≤ (arrayIndex later.1).getD 0) (created.filter fun field => (arrayIndex field.1).isSome)
  have hnot : (fun field : JsString × V => (arrayIndex field.1).isNone) =
      fun field => !(arrayIndex field.1).isSome := by
    funext field
    exact (Option.not_isSome _).symm
  rw [enumerate, hnot]
  exact (hsorted.append_right _).trans (List.filter_append_perm _ _)

/-- Keys created in the order of their names are enumerated one before the next. -/
theorem enumerate_before {created : List (JsString × V)} (h : SortedFields.Sorted created) :
    (enumerate created).Pairwise fun field later => Before field.1 later.1 := by
  have hindex : ∀ {field : JsString × V}, field ∈ created.filter (fun field => (arrayIndex field.1).isSome) →
      ∃ n, arrayIndex field.1 = some n := by
    intro field hfield
    exact Option.isSome_iff_exists.mp (List.mem_filter.mp hfield).2
  have hnodup : (created.map Prod.fst).Nodup := List.pairwise_map.mpr (h.imp fun hlt => ne_of_lt hlt)
  have hkeys : ((created.filter fun field => (arrayIndex field.1).isSome).map fun field =>
      (arrayIndex field.1).getD 0).Nodup := by
    refine List.pairwise_map.mpr (List.Pairwise.imp_of_mem ?_ (h.filter _))
    intro field later hfield hlater hlt heq
    obtain ⟨n, hn⟩ := hindex hfield
    obtain ⟨m, hm⟩ := hindex hlater
    rw [hn, hm, Option.getD_some, Option.getD_some] at heq
    exact ne_of_lt hlt ((eq_decimal_of_arrayIndex hn).trans (heq ▸ (eq_decimal_of_arrayIndex hm).symm))
  rw [enumerate]
  apply List.pairwise_append.mpr
  refine ⟨?_, ?_, ?_⟩
  · have hsorted := Lists.pairwise_lt_insertionSort_key (fun field later : JsString × V =>
      (arrayIndex field.1).getD 0 ≤ (arrayIndex later.1).getD 0) (fun field => (arrayIndex field.1).getD 0)
      (fun _ _ hle => hle) (fun _ _ hnle => (not_le.mp hnle).le) hkeys
    refine List.Pairwise.imp_of_mem ?_ hsorted
    intro field later hfield hlater hlt
    obtain ⟨n, hn⟩ := hindex ((List.mem_insertionSort _).mp hfield)
    obtain ⟨m, hm⟩ := hindex ((List.mem_insertionSort _).mp hlater)
    rw [hn, hm, Option.getD_some, Option.getD_some] at hlt
    rw [Before, hn, hm]
    exact hlt
  · refine List.Pairwise.imp_of_mem ?_ (h.filter _)
    intro field later hfield hlater hlt
    have hn := Option.isNone_iff_eq_none.mp (List.mem_filter.mp hfield).2
    have hm := Option.isNone_iff_eq_none.mp (List.mem_filter.mp hlater).2
    rw [Before, hn, hm]
    exact hlt
  · intro field hfield later hlater
    obtain ⟨n, hn⟩ := hindex ((List.mem_insertionSort _).mp hfield)
    have hm := Option.isNone_iff_eq_none.mp (List.mem_filter.mp hlater).2
    rw [Before, hn, hm]
    trivial

/-! ### The values that are written -/

/-- `Object.keys(obj).sort()` with the values, or the sorted keys of a `Map`. -/
def sortFields (fields : List (JsString × V)) : List (JsString × V) :=
  fields.insertionSort fun field later => field.1 ≤ later.1

/-- The object that `sorted[key] = value` fills, where `sorted['__proto__'] = value` makes no key. -/
def fill (fields : List (JsString × V)) : List (JsString × V) := enumerate (fields.filter fun field => field.1 ≠ protoKey)

mutual

/-- `sortKeys`; an object with a `constructor` of its own is not taken for a plain one. -/
def sortKeys : JsValue → JsValue
  | .array items => .array (sortKeysOfItems items)
  | .object fields =>
      if ((JsValue.object fields).get (js "constructor")).isUndefined then .object (fill (sortFields (sortKeysOfFields fields)))
      else .object fields
  | .map entries => .object (fill (sortFields (sortKeysOfFields entries)))
  | value => value

def sortKeysOfItems : List JsValue → List JsValue
  | [] => []
  | item :: rest => sortKeys item :: sortKeysOfItems rest

def sortKeysOfFields : List (JsString × JsValue) → List (JsString × JsValue)
  | [] => []
  | (key, value) :: rest => (key, sortKeys value) :: sortKeysOfFields rest

end

theorem sortKeysOfItems_eq_map (items : List JsValue) : sortKeysOfItems items = items.map sortKeys := by
  induction items with
  | nil => rfl
  | cons item rest ih => rw [sortKeysOfItems, ih, List.map_cons]

theorem sortKeysOfFields_eq_map (fields : List (JsString × JsValue)) :
    sortKeysOfFields fields = fields.map fun field => (field.1, sortKeys field.2) := by
  induction fields with
  | nil => rfl
  | cons field rest ih => rw [sortKeysOfFields, ih, List.map_cons]

/-! ### What a value says -/

/-- The data of a value: a record says which keys have values, and which values. -/
inductive Data where
  | leaf (value : JsValue)
  | list (items : List Data)
  | record (fields : JsString → Option Data)

mutual

/-- A `Map` says what an object says, and the order of keys says nothing. -/
def dataOf : JsValue → Data
  | .array items => .list (dataOfItems items)
  | .object fields => .record (dataOfFields fields)
  | .map entries => .record (dataOfFields entries)
  | value => .leaf value

def dataOfItems : List JsValue → List Data
  | [] => []
  | item :: rest => dataOf item :: dataOfItems rest

def dataOfFields : List (JsString × JsValue) → JsString → Option Data
  | [], _ => none
  | (key, value) :: rest, key' => if key' = key then some (dataOf value) else dataOfFields rest key'

end

theorem dataOfItems_eq_map (items : List JsValue) : dataOfItems items = items.map dataOf := by
  induction items with
  | nil => rfl
  | cons item rest ih => rw [dataOfItems, ih, List.map_cons]

theorem dataOfFields_eq (fields : List (JsString × JsValue)) (key : JsString) :
    dataOfFields fields key = (JsMap.lookup fields key).map dataOf := by
  induction fields with
  | nil => rfl
  | cons field rest ih =>
      rw [dataOfFields, JsMap.lookup_cons, ih]
      split <;> rfl

theorem dataOf_leaf {value : JsValue} (h : value.isContainer = false) : dataOf value = .leaf value := by
  cases value with
  | array items => cases h
  | object fields => cases h
  | map entries => cases h
  | _ => rfl

theorem sortKeys_leaf {value : JsValue} (h : value.isContainer = false) : sortKeys value = value := by
  cases value with
  | array items => cases h
  | object fields => cases h
  | map entries => cases h
  | _ => rfl

/-- No object and no `Map` names a key twice. -/
inductive DistinctKeys : JsValue → Prop
  | leaf {value : JsValue} (h : value.isContainer = false) : DistinctKeys value
  | array {items : List JsValue} (h : ∀ item ∈ items, DistinctKeys item) : DistinctKeys (.array items)
  | object {fields : List (JsString × JsValue)} (hkeys : (fields.map Prod.fst).Nodup)
      (h : ∀ field ∈ fields, DistinctKeys field.2) : DistinctKeys (.object fields)
  | map {entries : List (JsString × JsValue)} (hkeys : (entries.map Prod.fst).Nodup)
      (h : ∀ entry ∈ entries, DistinctKeys entry.2) : DistinctKeys (.map entries)

/-- Every record in the value is an object, with its keys in the order that sorting gives them. -/
inductive InOrder : JsValue → Prop
  | leaf {value : JsValue} (h : value.isContainer = false) : InOrder value
  | array {items : List JsValue} (h : ∀ item ∈ items, InOrder item) : InOrder (.array items)
  | object {fields : List (JsString × JsValue)} (hkeys : fields.Pairwise fun field later => Before field.1 later.1)
      (h : ∀ field ∈ fields, InOrder field.2) : InOrder (.object fields)

/-- What decides whether the codec keeps a value and orders it: no record that is filled anew has a key `__proto__`,
and an object that is passed through was in order. -/
inductive Kept : JsValue → Prop
  | leaf {value : JsValue} (h : value.isContainer = false) : Kept value
  | array {items : List JsValue} (h : ∀ item ∈ items, Kept item) : Kept (.array items)
  | object {fields : List (JsString × JsValue)} (hplain : (JsValue.object fields).get (js "constructor") = .undefined)
      (hproto : protoKey ∉ fields.map Prod.fst) (h : ∀ field ∈ fields, Kept field.2) : Kept (.object fields)
  | other {fields : List (JsString × JsValue)} (hother : (JsValue.object fields).get (js "constructor") ≠ .undefined)
      (h : InOrder (.object fields)) : Kept (.object fields)
  | map {entries : List (JsString × JsValue)} (hproto : protoKey ∉ entries.map Prod.fst)
      (h : ∀ entry ∈ entries, Kept entry.2) : Kept (.map entries)

/-- The codec keeps the data of a value and writes its keys in order. -/
structure WrittenInOrder (value : JsValue) : Prop where
  data : dataOf (sortKeys value) = dataOf value
  order : InOrder (sortKeys value)

/-! ### One representative in order -/

theorem lookup_of_perm {fields fields' : List (JsString × V)} (hperm : fields.Perm fields')
    (hkeys : (fields'.map Prod.fst).Nodup) (key : JsString) : JsMap.lookup fields key = JsMap.lookup fields' key := by
  have hkeys' : (fields.map Prod.fst).Nodup := ((hperm.map Prod.fst).nodup_iff).mpr hkeys
  apply Option.ext
  intro value
  rw [JsMap.lookup_eq_some_iff hkeys', JsMap.lookup_eq_some_iff hkeys, hperm.mem_iff]

theorem nodup_of_before {fields : List (JsString × V)}
    (h : fields.Pairwise fun field later => Before field.1 later.1) : (fields.map Prod.fst).Nodup := by
  apply List.pairwise_map.mpr
  refine h.imp fun hbefore heq => ?_
  rw [heq] at hbefore
  exact before_asymm hbefore hbefore

theorem eq_of_before {fields fields' : List (JsString × V)}
    (h : fields.Pairwise fun field later => Before field.1 later.1)
    (h' : fields'.Pairwise fun field later => Before field.1 later.1)
    (hlookup : ∀ key, JsMap.lookup fields key = JsMap.lookup fields' key) : fields = fields' := by
  have hmem : ∀ field, field ∈ fields ↔ field ∈ fields' := by
    intro field
    obtain ⟨key, value⟩ := field
    rw [← JsMap.lookup_eq_some_iff (nodup_of_before h), hlookup, JsMap.lookup_eq_some_iff (nodup_of_before h')]
  have hperm : fields.Perm fields' :=
    (List.perm_ext_iff_of_nodup (nodup_of_before h).of_map (nodup_of_before h').of_map).mpr hmem
  exact hperm.eq_of_pairwise (fun _ _ _ _ hab hba => absurd hba (before_asymm hab)) h h'

theorem eq_of_map_eq {items items' : List JsValue} (h : items.map dataOf = items'.map dataOf)
    (hparts : ∀ item ∈ items, ∀ item' ∈ items', dataOf item = dataOf item' → item = item') : items = items' := by
  induction items generalizing items' with
  | nil => exact (List.map_eq_nil_iff.mp h.symm).symm
  | cons item rest ih =>
      cases items' with
      | nil => cases h
      | cons item' rest' =>
          obtain ⟨hhead, htail⟩ := List.cons.inj h
          rw [hparts item List.mem_cons_self item' List.mem_cons_self hhead, ih htail fun other hother other' hother' =>
            hparts other (List.mem_cons_of_mem _ hother) other' (List.mem_cons_of_mem _ hother')]

/-- Records with the same data in order are the same. -/
theorem eq_of_dataOfFields {fields fields' : List (JsString × JsValue)}
    (h : fields.Pairwise fun field later => Before field.1 later.1)
    (h' : fields'.Pairwise fun field later => Before field.1 later.1)
    (hdata : dataOfFields fields = dataOfFields fields')
    (hparts : ∀ field ∈ fields, ∀ field' ∈ fields', dataOf field.2 = dataOf field'.2 → field.2 = field'.2) :
    fields = fields' := by
  apply eq_of_before h h'
  intro key
  have hkey : (JsMap.lookup fields key).map dataOf = (JsMap.lookup fields' key).map dataOf := by
    rw [← dataOfFields_eq, ← dataOfFields_eq, hdata]
  cases hlookup : JsMap.lookup fields key with
  | none =>
      rw [hlookup, Option.map_none] at hkey
      exact (Option.map_eq_none_iff.mp hkey.symm).symm
  | some value =>
      rw [hlookup, Option.map_some] at hkey
      obtain ⟨value', hlookup', hvalue⟩ := Option.map_eq_some_iff.mp hkey.symm
      have hmem := (JsMap.lookup_eq_some_iff (nodup_of_before h) key value).mp hlookup
      have hmem' := (JsMap.lookup_eq_some_iff (nodup_of_before h') key value').mp hlookup'
      rw [hlookup', show value = value' from hparts _ hmem _ hmem' hvalue.symm]

/-- There is one value in order for each data. -/
theorem eq_of_dataOf {value value' : JsValue} (h : InOrder value) (h' : InOrder value')
    (hdata : dataOf value = dataOf value') : value = value' := by
  induction value using JsValue.induct generalizing value' with
  | leaf value hleaf =>
      rw [dataOf_leaf hleaf] at hdata
      cases h' with
      | leaf hleaf' =>
          rw [dataOf_leaf hleaf'] at hdata
          exact Data.leaf.inj hdata
      | array _ => cases hdata
      | object _ _ => cases hdata
  | array items ih =>
      cases h with
      | leaf hleaf => cases hleaf
      | array hitems =>
          cases h' with
          | leaf hleaf' =>
              rw [dataOf_leaf hleaf'] at hdata
              cases hdata
          | array hitems' =>
              have hlist := Data.list.inj hdata
              rw [dataOfItems_eq_map, dataOfItems_eq_map] at hlist
              rw [eq_of_map_eq hlist fun item hitem item' hitem' => ih item hitem (hitems item hitem) (hitems' item' hitem')]
          | object _ _ => cases hdata
  | object fields ih =>
      cases h with
      | leaf hleaf => cases hleaf
      | object hkeys hfields =>
          cases h' with
          | leaf hleaf' =>
              rw [dataOf_leaf hleaf'] at hdata
              cases hdata
          | array _ => cases hdata
          | object hkeys' hfields' =>
              rw [eq_of_dataOfFields hkeys hkeys' (Data.record.inj hdata) fun field hfield field' hfield' =>
                ih field hfield (hfields field hfield) (hfields' field' hfield')]
  | map entries ih =>
      cases h with
      | leaf hleaf => cases hleaf

/-! ### What the codec does to a value -/

/-- What is written for a record, up to the order. -/
theorem written_perm (fields : List (JsString × JsValue)) :
    (fill (sortFields (sortKeysOfFields fields))).Perm
      ((fields.map fun field => (field.1, sortKeys field.2)).filter fun field => field.1 ≠ protoKey) := by
  rw [fill, sortFields, sortKeysOfFields_eq_map]
  exact (enumerate_perm _).trans ((List.perm_insertionSort _ _).filter _)

theorem keys_of_sortKeys (fields : List (JsString × JsValue)) :
    (fields.map fun field => (field.1, sortKeys field.2)).map Prod.fst = fields.map Prod.fst := by
  rw [List.map_map]
  rfl

theorem lookup_written {fields : List (JsString × JsValue)} (hkeys : (fields.map Prod.fst).Nodup) (key : JsString) :
    JsMap.lookup (fill (sortFields (sortKeysOfFields fields))) key =
      if key = protoKey then none else (JsMap.lookup fields key).map sortKeys := by
  have hnodup : ((fields.map fun field => (field.1, sortKeys field.2)).map Prod.fst).Nodup := by
    rw [keys_of_sortKeys]
    exact hkeys
  rw [lookup_of_perm (written_perm fields) (hnodup.sublist (List.Sublist.map Prod.fst List.filter_sublist))]
  clear hnodup hkeys
  induction fields with
  | nil =>
      split <;> rfl
  | cons field rest ih =>
      obtain ⟨k, v⟩ := field
      rw [List.map_cons]
      by_cases hk : k = protoKey
      · rw [List.filter_cons_of_neg (by simpa using hk), ih, JsMap.lookup_cons]
        by_cases hkey : key = protoKey
        · rw [if_pos hkey, if_pos hkey]
        · rw [if_neg hkey, if_neg hkey, if_neg fun heq => hkey (heq.trans hk)]
      · rw [List.filter_cons_of_pos (by simpa using hk), JsMap.lookup_cons, JsMap.lookup_cons, ih]
        by_cases hkey : key = k
        · rw [if_pos hkey, if_pos hkey, if_neg fun heq => hk (hkey.symm.trans heq), Option.map_some]
        · rw [if_neg hkey, if_neg hkey]

theorem written_before {fields : List (JsString × JsValue)} (hkeys : (fields.map Prod.fst).Nodup) :
    (fill (sortFields (sortKeysOfFields fields))).Pairwise fun field later => Before field.1 later.1 := by
  rw [fill]
  apply enumerate_before
  apply SortedFields.Sorted.filter
  apply Lists.pairwise_lt_insertionSort_key (fun field later : JsString × JsValue => field.1 ≤ later.1) Prod.fst
    (fun _ _ hle => hle) (fun _ _ hnle => (not_le.mp hnle).le)
  rw [sortKeysOfFields_eq_map, keys_of_sortKeys]
  exact hkeys

/-- A record that is filled anew is kept and in order where it names no `__proto__` and its values are. -/
theorem written_iff {fields : List (JsString × JsValue)} (hkeys : (fields.map Prod.fst).Nodup)
    (hparts : ∀ field ∈ fields, (WrittenInOrder field.2 ↔ Kept field.2)) :
    (dataOfFields (fill (sortFields (sortKeysOfFields fields))) = dataOfFields fields ∧
      InOrder (.object (fill (sortFields (sortKeysOfFields fields))))) ↔
    protoKey ∉ fields.map Prod.fst ∧ ∀ field ∈ fields, Kept field.2 := by
  constructor
  · intro h
    obtain ⟨hdata, horder⟩ := h
    have hproto : protoKey ∉ fields.map Prod.fst := by
      intro hmem
      obtain ⟨field, hfield, hkey⟩ := List.mem_map.mp hmem
      have hlookup := (JsMap.lookup_eq_some_iff hkeys field.1 field.2).mpr hfield
      have hread := congrFun hdata protoKey
      rw [dataOfFields_eq, dataOfFields_eq, lookup_written hkeys, if_pos rfl, ← hkey, hlookup] at hread
      cases hread
    refine ⟨hproto, fun field hfield => (hparts field hfield).mp ?_⟩
    have hne : field.1 ≠ protoKey := fun heq => hproto (List.mem_map.mpr ⟨field, hfield, heq⟩)
    have hlookup := (JsMap.lookup_eq_some_iff hkeys field.1 field.2).mpr hfield
    have hread := congrFun hdata field.1
    rw [dataOfFields_eq, dataOfFields_eq, lookup_written hkeys, if_neg hne, hlookup] at hread
    refine ⟨Option.some.inj hread, ?_⟩
    have hmem : (field.1, sortKeys field.2) ∈ fill (sortFields (sortKeysOfFields fields)) := by
      apply (written_perm fields).mem_iff.mpr
      exact List.mem_filter.mpr ⟨List.mem_map.mpr ⟨field, hfield, rfl⟩, decide_eq_true hne⟩
    cases horder with
    | leaf hleaf => cases hleaf
    | object _ hvalues => exact hvalues _ hmem
  · intro h
    obtain ⟨hproto, hkept⟩ := h
    refine ⟨?_, .object (written_before hkeys) fun field hfield => ?_⟩
    · funext key
      rw [dataOfFields_eq, dataOfFields_eq, lookup_written hkeys]
      cases hlookup : JsMap.lookup fields key with
      | none => split <;> rfl
      | some value =>
          have hfield := (JsMap.lookup_eq_some_iff hkeys key value).mp hlookup
          have hne : key ≠ protoKey := fun heq => hproto (List.mem_map.mpr ⟨_, hfield, heq⟩)
          have hvalue := ((hparts _ hfield).mpr (hkept _ hfield)).data
          rw [if_neg hne, Option.map_some, Option.map_some, Option.map_some]
          exact congrArg some hvalue
    · obtain ⟨hmem, -⟩ := List.mem_filter.mp ((written_perm fields).mem_iff.mp hfield)
      obtain ⟨source, hsource, rfl⟩ := List.mem_map.mp hmem
      exact ((hparts source hsource).mpr (hkept source hsource)).order

theorem writtenInOrder_array_iff {items : List JsValue} :
    WrittenInOrder (.array items) ↔ ∀ item ∈ items, WrittenInOrder item := by
  constructor
  · intro h item hitem
    obtain ⟨hdata, horder⟩ := h
    rw [sortKeys, dataOf, dataOf, Data.list.injEq, sortKeysOfItems_eq_map, dataOfItems_eq_map, dataOfItems_eq_map,
      List.map_map] at hdata
    rw [sortKeys, sortKeysOfItems_eq_map] at horder
    refine ⟨List.map_eq_map_iff.mp hdata item hitem, ?_⟩
    cases horder with
    | leaf hleaf => cases hleaf
    | array hitems => exact hitems _ (List.mem_map_of_mem hitem)
  · intro h
    refine ⟨?_, ?_⟩
    · rw [sortKeys, dataOf, dataOf, sortKeysOfItems_eq_map, dataOfItems_eq_map, dataOfItems_eq_map, List.map_map]
      exact congrArg Data.list (List.map_eq_map_iff.mpr fun item hitem => (h item hitem).data)
    · rw [sortKeys, sortKeysOfItems_eq_map]
      refine .array fun item hitem => ?_
      obtain ⟨source, hsource, rfl⟩ := List.mem_map.mp hitem
      exact (h source hsource).order

theorem writtenInOrder_object_iff {fields : List (JsString × JsValue)} (hkeys : (fields.map Prod.fst).Nodup)
    (hparts : ∀ field ∈ fields, (WrittenInOrder field.2 ↔ Kept field.2)) :
    WrittenInOrder (.object fields) ↔ Kept (.object fields) := by
  by_cases hplain : (JsValue.object fields).get (js "constructor") = .undefined
  · have hwritten : sortKeys (.object fields) = .object (fill (sortFields (sortKeysOfFields fields))) := by
      rw [sortKeys, if_pos (by rw [hplain]; rfl)]
    have hrecord := written_iff hkeys hparts
    constructor
    · intro h
      have hdata := h.data
      have horder := h.order
      rw [hwritten] at hdata horder
      obtain ⟨hproto, hvalues⟩ := hrecord.mp ⟨Data.record.inj hdata, horder⟩
      exact .object hplain hproto hvalues
    · intro h
      cases h with
      | leaf hleaf => cases hleaf
      | object _ hproto hvalues =>
          obtain ⟨hdata, horder⟩ := hrecord.mpr ⟨hproto, hvalues⟩
          constructor
          · rw [hwritten]
            exact congrArg Data.record hdata
          · rw [hwritten]
            exact horder
      | other hother _ => exact absurd hplain hother
  · have hwritten : sortKeys (.object fields) = .object fields := by
      rw [sortKeys, if_neg fun h => hplain (JsValue.eq_undefined h)]
    constructor
    · intro h
      have horder := h.order
      rw [hwritten] at horder
      exact .other hplain horder
    · intro h
      cases h with
      | leaf hleaf => cases hleaf
      | object hplain' _ _ => exact absurd hplain' hplain
      | other _ horder =>
          constructor
          · rw [hwritten]
          · rw [hwritten]
            exact horder

theorem writtenInOrder_map_iff {entries : List (JsString × JsValue)} (hkeys : (entries.map Prod.fst).Nodup)
    (hparts : ∀ entry ∈ entries, (WrittenInOrder entry.2 ↔ Kept entry.2)) :
    WrittenInOrder (.map entries) ↔ Kept (.map entries) := by
  have hrecord := written_iff hkeys hparts
  constructor
  · intro h
    obtain ⟨hproto, hvalues⟩ := hrecord.mp ⟨Data.record.inj h.data, h.order⟩
    exact .map hproto hvalues
  · intro h
    cases h with
    | leaf hleaf => cases hleaf
    | map hproto hvalues =>
        obtain ⟨hdata, horder⟩ := hrecord.mpr ⟨hproto, hvalues⟩
        exact ⟨congrArg Data.record hdata, horder⟩

theorem writtenInOrder_iff {value : JsValue} (h : DistinctKeys value) : WrittenInOrder value ↔ Kept value := by
  induction value using JsValue.induct with
  | leaf value hleaf =>
      refine iff_of_true ⟨?_, ?_⟩ (.leaf hleaf)
      · rw [sortKeys_leaf hleaf]
      · rw [sortKeys_leaf hleaf]
        exact .leaf hleaf
  | array items ih =>
      cases h with
      | leaf hleaf => cases hleaf
      | array hitems =>
          rw [writtenInOrder_array_iff]
          constructor
          · intro hwritten
            exact .array fun item hitem => (ih item hitem (hitems item hitem)).mp (hwritten item hitem)
          · intro hkept
            cases hkept with
            | leaf hleaf => cases hleaf
            | array hkept => exact fun item hitem => (ih item hitem (hitems item hitem)).mpr (hkept item hitem)
  | object fields ih =>
      cases h with
      | leaf hleaf => cases hleaf
      | object hkeys hfields =>
          exact writtenInOrder_object_iff hkeys fun field hfield => ih field hfield (hfields field hfield)
  | map entries ih =>
      cases h with
      | leaf hleaf => cases hleaf
      | map hkeys hentries =>
          exact writtenInOrder_map_iff hkeys fun entry hentry => ih entry hentry (hentries entry hentry)

/-! ### Canonical encoding -/

/-- Two values are written canonically: alike where they say the same, with nothing lost and every key in order. -/
structure CanonicalEncoding (x y : JsValue) : Prop where
  identical : sortKeys x = sortKeys y ↔ dataOf x = dataOf y
  first : WrittenInOrder x
  second : WrittenInOrder y

/-- The encoding of two values is canonical, each written in the order of its keys and both alike exactly if they hold the
same data, exactly where `sortKeys` keeps every object: it passes over none and drops no key. -/
theorem canonicalEncoding_iff {x y : JsValue} (hx : DistinctKeys x) (hy : DistinctKeys y) :
    CanonicalEncoding x y ↔ Kept x ∧ Kept y := by
  constructor
  · intro h
    exact ⟨(writtenInOrder_iff hx).mp h.first, (writtenInOrder_iff hy).mp h.second⟩
  · intro h
    have hfirst := (writtenInOrder_iff hx).mpr h.1
    have hsecond := (writtenInOrder_iff hy).mpr h.2
    refine ⟨⟨fun hsame => ?_, fun hdata => ?_⟩, hfirst, hsecond⟩
    · rw [← hfirst.data, hsame, hsecond.data]
    · apply eq_of_dataOf hfirst.order hsecond.order
      rw [hfirst.data, hsecond.data, hdata]

namespace Example

/-- `new Map([['b', null], ['10', true], ['9', { constructor: 1, name: null }]])` -/
def labels : JsValue :=
  .map [(js "b", .null), (js "10", .bool true), (js "9", .object [(js "constructor", .ofInt 1), (js "name", .null)])]

/-- `{ 9: { constructor: 1, name: null }, 10: true, b: null }` -/
def sortedLabels : JsValue :=
  .object [(js "9", .object [(js "constructor", .ofInt 1), (js "name", .null)]), (js "10", .bool true), (js "b", .null)]

theorem kept_inner : Kept (.object [(js "constructor", .ofInt 1), (js "name", .null)]) := by
  have hconstructor : arrayIndex (js "constructor") = none := by decide
  have hname : arrayIndex (js "name") = none := by decide
  refine .other (by decide) (.object ?_ ?_)
  · refine List.pairwise_pair.mpr ?_
    rw [Before, hconstructor, hname]
    decide
  · rw [List.forall_mem_cons, List.forall_mem_singleton]
    exact ⟨.leaf rfl, .leaf rfl⟩

theorem kept_labels : Kept labels ∧ Kept sortedLabels := by
  constructor
  · refine .map (by decide) ?_
    rw [List.forall_mem_cons, List.forall_mem_cons, List.forall_mem_singleton]
    exact ⟨.leaf rfl, .leaf rfl, kept_inner⟩
  · refine .object (by decide) (by decide) ?_
    rw [List.forall_mem_cons, List.forall_mem_cons, List.forall_mem_singleton]
    exact ⟨kept_inner, .leaf rfl, .leaf rfl⟩

theorem distinct_labels : DistinctKeys labels ∧ DistinctKeys sortedLabels := by
  have hinner : DistinctKeys (.object [(js "constructor", .ofInt 1), (js "name", .null)]) := by
    refine .object (by decide) ?_
    rw [List.forall_mem_cons, List.forall_mem_singleton]
    exact ⟨.leaf rfl, .leaf rfl⟩
  constructor
  · refine .map (by decide) ?_
    rw [List.forall_mem_cons, List.forall_mem_cons, List.forall_mem_singleton]
    exact ⟨.leaf rfl, .leaf rfl, hinner⟩
  · refine .object (by decide) ?_
    rw [List.forall_mem_cons, List.forall_mem_cons, List.forall_mem_singleton]
    exact ⟨hinner, .leaf rfl, .leaf rfl⟩

/-- A `Map` and the object with the same keys are written alike. -/
theorem canonicalEncoding_labels : CanonicalEncoding labels sortedLabels ∧ sortKeys labels = sortedLabels :=
  ⟨(canonicalEncoding_iff distinct_labels.1 distinct_labels.2).mpr kept_labels, by decide⟩

/-- An object with a `constructor` is written in the order in which it came, and `__proto__` is not written. -/
theorem sortKeys_not_canonical :
    (dataOf (.object [(js "b", .null), (js "constructor", .null), (js "a", .null)]) =
        dataOf (.object [(js "a", .null), (js "constructor", .null), (js "b", .null)]) ∧
      sortKeys (.object [(js "b", .null), (js "constructor", .null), (js "a", .null)]) ≠
        sortKeys (.object [(js "a", .null), (js "constructor", .null), (js "b", .null)])) ∧
    (sortKeys (.object [(protoKey, .null)]) = sortKeys (.object []) ∧
      dataOf (.object [(protoKey, .null)]) ≠ dataOf (.object [])) ∧
    ¬ CanonicalEncoding (.object [(js "b", .null), (js "constructor", .null), (js "a", .null)])
        (.object [(js "a", .null), (js "constructor", .null), (js "b", .null)]) ∧
    ¬ CanonicalEncoding (.object [(protoKey, .null)]) (.object []) := by
  have hdata : dataOf (.object [(js "b", .null), (js "constructor", .null), (js "a", .null)]) =
      dataOf (.object [(js "a", .null), (js "constructor", .null), (js "b", .null)]) := by
    apply congrArg Data.record
    funext key
    rw [dataOfFields_eq, dataOfFields_eq]
    exact congrArg (Option.map dataOf) (lookup_of_perm (by decide) (by decide) key)
  have hwritten : sortKeys (.object [(js "b", .null), (js "constructor", .null), (js "a", .null)]) ≠
      sortKeys (.object [(js "a", .null), (js "constructor", .null), (js "b", .null)]) := by
    decide
  have hproto : sortKeys (.object [(protoKey, .null)]) = sortKeys (.object []) := by decide
  have hlost : dataOf (.object [(protoKey, .null)]) ≠ dataOf (.object []) := by
    intro h
    have hread := congrFun (Data.record.inj h) protoKey
    rw [dataOfFields_eq] at hread
    cases hread
  exact ⟨⟨hdata, hwritten⟩, ⟨hproto, hlost⟩, fun h => hwritten (h.identical.mpr hdata),
    fun h => hlost (h.identical.mp hproto)⟩

end Example

end CborOrder

end GitWarp
