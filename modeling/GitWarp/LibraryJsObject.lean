import GitWarp.LibraryJsMap
import GitWarp.LibraryJsText

/-! Plain objects used as string-keyed records. Assigning to the key `__proto__` runs the setter that
`Object.prototype` has there, which ignores a primitive and takes an object for the prototype: no own property
appears. Every other key behaves as in a `Map`. -/

namespace GitWarp
open Js

/-- The one key under which an assignment makes no own property. -/
def protoKey : JsString := js "__proto__"

/-- The own properties of a plain object that was filled by assignments. -/
structure PlainObject (V : Type) where
  props : JsMap JsString V
  noProto : props.get protoKey = none
  deriving DecidableEq

namespace PlainObject

variable {V : Type}

theorem eq_of_props {obj obj' : PlainObject V} (h : obj.props = obj'.props) : obj = obj' := by
  cases obj
  cases obj'
  cases h
  rfl

def empty : PlainObject V := ⟨JsMap.empty, rfl⟩

/-- `obj[key] = value` -/
def assign (obj : PlainObject V) (key : JsString) (value : V) : PlainObject V :=
  if h : key = protoKey then obj
  else ⟨obj.props.set key value, by rw [JsMap.get_set, if_neg fun heq => h heq.symm, obj.noProto]⟩

/-- `delete obj[key]` -/
def delete (obj : PlainObject V) (key : JsString) : PlainObject V :=
  ⟨obj.props.delete key, by rw [JsMap.get_delete, obj.noProto, ite_self]⟩

/-- `Object.entries(obj)`, up to the order of the keys. -/
def entries (obj : PlainObject V) : List (JsString × V) := obj.props.entries

theorem get_assign (obj : PlainObject V) (key key' : JsString) (value : V) :
    (obj.assign key value).props.get key' =
      if key' = key ∧ key ≠ protoKey then some value else obj.props.get key' := by
  unfold assign
  split
  · rename_i h
    simp [h]
  · rename_i h
    simp [JsMap.get_set, h]

/-- The object a loop of assignments fills from a list that names no key twice. -/
theorem get_foldl_assign (entries : List (JsString × V)) (hnodup : (entries.map Prod.fst).Nodup)
    (obj : PlainObject V) (key : JsString) :
    (entries.foldl (fun o entry => o.assign entry.1 entry.2) obj).props.get key =
      if key = protoKey then none else (JsMap.lookup entries key).or (obj.props.get key) := by
  induction entries generalizing obj with
  | nil =>
      split
      · rename_i h
        rw [h]
        exact obj.noProto
      · rfl
  | cons entry rest ih =>
      obtain ⟨k, v⟩ := entry
      rw [List.map_cons, List.nodup_cons] at hnodup
      rw [List.foldl_cons, ih hnodup.2, get_assign, JsMap.lookup_cons]
      by_cases hproto : key = protoKey
      · simp [hproto]
      · by_cases hkey : key = k
        · subst hkey
          have hnone : JsMap.lookup rest key = none := by
            by_contra hsome
            obtain ⟨w, hw⟩ := Option.ne_none_iff_exists'.mp hsome
            exact hnodup.1 (List.mem_map.mpr ⟨_, (JsMap.lookup_eq_some_iff hnodup.2 key w).mp hw, rfl⟩)
          simp [hproto, hnone]
        · simp [hproto, hkey]

/-- An object is filled again from its entries. -/
theorem foldl_assign_entries (obj : PlainObject V) :
    obj.entries.foldl (fun o entry => o.assign entry.1 entry.2) empty = obj := by
  have hloop : ∀ (entries : List (JsString × V)) (o : PlainObject V), (∀ entry ∈ entries, entry.1 ≠ protoKey) →
      (entries.foldl (fun o entry => o.assign entry.1 entry.2) o).props =
        entries.foldl (fun m entry => m.set entry.1 entry.2) o.props := by
    intro entries
    induction entries with
    | nil => exact fun o _ => rfl
    | cons entry rest ih =>
        intro o hproto
        rw [List.foldl_cons, List.foldl_cons, ih _ fun other hother => hproto other (List.mem_cons_of_mem _ hother)]
        unfold assign
        rw [dif_neg (hproto entry (List.mem_cons_self ..))]
  have hproto : ∀ entry ∈ obj.entries, entry.1 ≠ protoKey := by
    rintro ⟨key, value⟩ hentry rfl
    have hget := (obj.props.get_eq_some_iff protoKey value).mpr hentry
    rw [obj.noProto] at hget
    cases hget
  refine eq_of_props ?_
  rw [hloop _ _ hproto]
  exact JsMap.eq_of_entries (JsMap.entries_foldl_set obj.props.nodup fun _ _ => rfl)

/-- Objects in a map are filled as maps in a map are, where nothing is set under `__proto__`. -/
theorem get_foldl_bags {O E : Type} [DecidableEq O] (pick : E → Option (O × JsString × V)) (entries : List E)
    (outer : O) (name : JsString) :
    (((entries.foldl (fun bags entry => (pick entry).elim bags fun p =>
      bags.set p.1 (((bags.get p.1).getD empty).assign p.2.1 p.2.2)) JsMap.empty).get outer).getD empty).props.get name =
    if name = protoKey then none else
      (((entries.foldl (fun bags entry => (pick entry).elim bags fun p =>
        bags.set p.1 (((bags.get p.1).getD JsMap.empty).set p.2.1 p.2.2)) JsMap.empty).get outer).getD
          JsMap.empty).get name := by
  split
  · rename_i hname
    rw [hname]
    exact PlainObject.noProto _
  · rename_i hname
    have hloop : ∀ (objects : JsMap O (PlainObject V)) (maps : JsMap O (JsMap JsString V)),
        (∀ o, ((objects.get o).getD empty).props.get name = ((maps.get o).getD JsMap.empty).get name) →
        (((entries.foldl (fun bags entry => (pick entry).elim bags fun p =>
          bags.set p.1 (((bags.get p.1).getD empty).assign p.2.1 p.2.2)) objects).get outer).getD empty).props.get name =
        (((entries.foldl (fun bags entry => (pick entry).elim bags fun p =>
          bags.set p.1 (((bags.get p.1).getD JsMap.empty).set p.2.1 p.2.2)) maps).get outer).getD JsMap.empty).get
            name := by
      induction entries with
      | nil => exact fun _ _ h => h outer
      | cons entry rest ih =>
          intro objects maps h
          rw [List.foldl_cons, List.foldl_cons]
          refine ih _ _ fun o => ?_
          cases pick entry with
          | none => exact h o
          | some p =>
              simp only [Option.elim_some, JsMap.get_set]
              by_cases ho : o = p.1
              · subst ho
                simp only [if_true, Option.getD_some, get_assign, JsMap.get_set]
                by_cases hn : name = p.2.1
                · simp [← hn, hname]
                · simp [hn, h]
              · simp [ho, h]
    exact hloop _ _ fun _ => rfl

/-- The property names that every object literal inherits. -/
def inheritedNames : List JsString :=
  [js "constructor", js "__defineGetter__", js "__defineSetter__", js "hasOwnProperty", js "__lookupGetter__",
    js "__lookupSetter__", js "isPrototypeOf", js "propertyIsEnumerable", js "toString", js "valueOf",
    js "__proto__", js "toLocaleString"]

/-- A name that every object inherits is long. -/
theorem length_of_mem_inheritedNames {name : JsString} (h : name ∈ inheritedNames) : 7 ≤ name.length := by
  have hall : (inheritedNames.all fun name => 7 ≤ name.length) = true := by
    rw [inheritedNames, js_ofList, js_ofList, js_ofList, js_ofList, js_ofList, js_ofList, js_ofList, js_ofList, js_ofList,
      js_ofList, js_ofList, js_ofList]
    rfl
  exact of_decide_eq_true (List.all_eq_true.mp hall name h)

/-- What `obj[key]` reads: an own property, or a function or object of `Object.prototype`. -/
inductive PropertyRead (V : Type) where
  | own (value : V)
  | inherited (name : JsString)
  | undefined
  deriving DecidableEq

def read (obj : PlainObject V) (key : JsString) : PropertyRead V :=
  match obj.props.get key with
  | some value => .own value
  | none => if inheritedNames.contains key then .inherited key else .undefined

theorem read_eq_own_iff (obj : PlainObject V) (key : JsString) (value : V) :
    obj.read key = .own value ↔ obj.props.get key = some value := by
  unfold read
  cases obj.props.get key with
  | some other => simp
  | none =>
      dsimp only
      split <;> simp

theorem read_eq_inherited_iff (obj : PlainObject V) (key name : JsString) :
    obj.read key = .inherited name ↔ obj.props.get key = none ∧ key ∈ inheritedNames ∧ name = key := by
  unfold read
  cases obj.props.get key with
  | some value => simp
  | none =>
      by_cases hkey : key ∈ inheritedNames
      · simp [hkey, eq_comm]
      · simp [hkey]

end PlainObject

end GitWarp
