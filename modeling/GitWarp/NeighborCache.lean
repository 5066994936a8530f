import GitWarp.CodecKey
import GitWarp.GraphTraversal
import GitWarp.LibraryMemo

/-! The neighbor cache of the traversals: node, direction and labels make the key of a call. -/

namespace GitWarp
open Js

inductive LatencyClass where
  | sync
  | asyncLocal
  | asyncRemote
  deriving DecidableEq

/-- A provider that may fail. What it answers does not change. -/
structure AsyncNeighborProvider (E : Type) where
  latencyClass : LatencyClass
  getNeighbors : JsString → Direction → Option (List JsString) → Except E (List NeighborEdge)

structure RunStats where
  cacheHits : Nat
  cacheMisses : Nat
  edgesTraversed : Nat
  deriving DecidableEq

/-- The arguments of a call. Options are the labels of the filter, in the order of their set. -/
structure NeighborCall where
  nodeId : JsString
  direction : Direction
  rs : RunStats
  options : Option (List JsString)
  deriving DecidableEq

namespace NeighborCache

variable {E : Type}

abbrev Cache := LruCache JsString (List NeighborEdge)

/-- The cache of a new traversal engine. -/
def newNeighborCache (provider : AsyncNeighborProvider E) (neighborCacheSize : Int) : Except String (Option Cache) :=
  if provider.latencyClass = .sync then return none
  else if neighborCacheSize < 1 then .error "LRUCache maxSize must be a positive integer"
  else return some (LruCache.new neighborCacheSize.toNat)

def directionText : Direction → JsString
  | .out => js "out"
  | .in => js "in"
  | .both => js "both"

def labelsKey : Option (List JsString) → JsString
  | some labels => [fieldSeparator].intercalate (labels.insertionSort (· ≤ ·))
  | none => js "*"

def cacheKey (call : NeighborCall) : JsString :=
  call.nodeId ++ fieldSeparator :: (directionText call.direction ++ fieldSeparator :: labelsKey call.options)

variable (provider : AsyncNeighborProvider E)

/-- What the provider itself returns for the arguments of a call. -/
def fromProvider (call : NeighborCall) : Except E (List NeighborEdge) :=
  provider.getNeighbors call.nodeId call.direction call.options

def getNeighbors (cache : Option Cache) (call : NeighborCall) :
    Except E (List NeighborEdge) × Option Cache × RunStats :=
  match cache with
  | none => (fromProvider provider call, none, call.rs)
  | some cache =>
      match cache.get (cacheKey call) with
      | (some cached, cache) => (.ok cached, some cache, { call.rs with cacheHits := call.rs.cacheHits + 1 })
      | (none, cache) =>
          let rs := { call.rs with cacheMisses := call.rs.cacheMisses + 1 }
          match fromProvider provider call with
          | .ok result => (.ok result, some (cache.set (cacheKey call) result), rs)
          | .error err => (.error err, some cache, rs)

/-- What a sequence of calls returns. -/
def getNeighborsInTurn : Option Cache → List NeighborCall → List (Except E (List NeighborEdge))
  | _, [] => []
  | cache, call :: rest =>
      (getNeighbors provider cache call).1 :: getNeighborsInTurn (getNeighbors provider cache call).2.1 rest

/-! ### The cache as a memo -/

theorem getNeighbors_eq_call (cache : Cache) (call : NeighborCall) :
    (getNeighbors provider (some cache) call).1 = (Memo.call cacheKey (fromProvider provider) cache call).1 ∧
      (getNeighbors provider (some cache) call).2.1 = some (Memo.call cacheKey (fromProvider provider) cache call).2 := by
  dsimp only [getNeighbors, Memo.call]
  generalize LruCache.get cache (cacheKey call) = found
  obtain ⟨cached, next⟩ := found
  cases cached with
  | some cached => exact ⟨rfl, rfl⟩
  | none =>
      generalize fromProvider provider call = answer
      cases answer with
      | ok result => exact ⟨rfl, rfl⟩
      | error err => exact ⟨rfl, rfl⟩

theorem getNeighborsInTurn_eq_results (cache : Cache) (calls : List NeighborCall) :
    getNeighborsInTurn provider (some cache) calls = Memo.results cacheKey (fromProvider provider) cache calls := by
  induction calls generalizing cache with
  | nil => rfl
  | cons call rest ih =>
      obtain ⟨hresult, hcache⟩ := getNeighbors_eq_call provider cache call
      rw [getNeighborsInTurn, hresult, hcache, ih]
      rfl

theorem newNeighborCache_eq_some {provider : AsyncNeighborProvider E} {neighborCacheSize : Int} {cache : Cache}
    (h : newNeighborCache provider neighborCacheSize = .ok (some cache)) :
    cache = LruCache.new neighborCacheSize.toNat := by
  unfold newNeighborCache at h
  split at h
  · cases h
  · split at h
    · cases h
    · exact (Option.some.inj (Except.ok.inj h)).symm

/-! ### The keys -/

/-- Node id and labels of a call hold no separator. -/
structure Clean (call : NeighborCall) : Prop where
  nodeId : fieldSeparator ∉ call.nodeId
  labels : ∀ labels, call.options = some labels → ∀ label ∈ labels, fieldSeparator ∉ label

/-- Filters of the same labels, in whatever order. -/
def SameLabels : Option (List JsString) → Option (List JsString) → Prop
  | none, none => True
  | some labels, some labels' => labels.Perm labels'
  | _, _ => False

/-- No filter and the label `*`, or no label and the empty label. -/
def Confused (options options' : Option (List JsString)) : Prop :=
  (options = none ∧ options' = some [js "*"]) ∨ (options = some [] ∧ options' = some [[]])

theorem directionText_injective {direction direction' : Direction}
    (h : directionText direction = directionText direction') : direction = direction' := by
  cases direction <;> cases direction' <;> first | rfl | exact absurd h (by decide)

theorem separator_notMem_directionText (direction : Direction) : fieldSeparator ∉ directionText direction := by
  cases direction <;> decide

theorem insertionSort_eq_nil_iff {labels : List JsString} : labels.insertionSort (· ≤ ·) = [] ↔ labels = [] := by
  rw [← List.length_eq_zero_iff, List.length_insertionSort, List.length_eq_zero_iff]

theorem intercalate_inj {labels labels' : List JsString} (hclean : ∀ label ∈ labels, fieldSeparator ∉ label)
    (hclean' : ∀ label ∈ labels', fieldSeparator ∉ label) (hne : labels ≠ []) (hne' : labels' ≠ [])
    (h : [fieldSeparator].intercalate labels = [fieldSeparator].intercalate labels') : labels = labels' := by
  rw [← List.splitOn_intercalate fieldSeparator hclean hne, h, List.splitOn_intercalate fieldSeparator hclean' hne']

/-- The sorted labels are those of a list that is in order already. -/
theorem sorted_eq_iff {labels sorted : List JsString} (hsorted : sorted.Pairwise (· ≤ ·)) :
    labels.insertionSort (· ≤ ·) = sorted ↔ labels.Perm sorted := by
  constructor
  · intro h
    exact h ▸ (List.perm_insertionSort (· ≤ ·) labels).symm
  · intro h
    exact ((List.perm_insertionSort _ _).trans h).eq_of_pairwise (fun _ _ _ _ => le_antisymm)
      (List.pairwise_insertionSort _ _) hsorted

/-- Where a key of labels is one text without separator, the text is the only label. -/
theorem labelsKey_eq_text {labels : List JsString} (hclean : ∀ label ∈ labels, fieldSeparator ∉ label) (hne : labels ≠ [])
    {text : JsString} (htext : fieldSeparator ∉ text) : labelsKey (some labels) = text ↔ labels = [text] := by
  have hsorted : ∀ label ∈ labels.insertionSort (· ≤ ·), fieldSeparator ∉ label :=
    fun label hlabel => hclean label ((List.mem_insertionSort _).mp hlabel)
  have hone : ∀ label ∈ [text], fieldSeparator ∉ label := fun label hlabel => List.mem_singleton.mp hlabel ▸ htext
  rw [← List.perm_singleton, ← sorted_eq_iff (List.pairwise_singleton _ _)]
  constructor
  · intro h
    refine intercalate_inj hsorted hone (fun hnil => hne (insertionSort_eq_nil_iff.mp hnil)) (List.cons_ne_nil _ _) ?_
    rw [List.intercalate_singleton]
    exact h
  · intro h
    rw [labelsKey, h, List.intercalate_singleton]

theorem labelsKey_eq_of_ne {labels labels' : List JsString} (hclean : ∀ label ∈ labels, fieldSeparator ∉ label)
    (hclean' : ∀ label ∈ labels', fieldSeparator ∉ label) (hne : labels ≠ []) (hne' : labels' ≠ []) :
    labelsKey (some labels) = labelsKey (some labels') ↔ labels.Perm labels' := by
  have hsorted : ∀ labels : List JsString, (∀ label ∈ labels, fieldSeparator ∉ label) →
      ∀ label ∈ labels.insertionSort (· ≤ ·), fieldSeparator ∉ label :=
    fun labels hlabels label hlabel => hlabels label ((List.mem_insertionSort _).mp hlabel)
  have hperm : labels.Perm labels' ↔ labels.insertionSort (· ≤ ·) = labels'.insertionSort (· ≤ ·) := by
    rw [sorted_eq_iff (List.pairwise_insertionSort _ _)]
    exact ⟨fun h => h.trans (List.perm_insertionSort _ _).symm, fun h => h.trans (List.perm_insertionSort _ _)⟩
  rw [hperm]
  constructor
  · intro h
    exact intercalate_inj (hsorted labels hclean) (hsorted labels' hclean') (mt insertionSort_eq_nil_iff.mp hne)
      (mt insertionSort_eq_nil_iff.mp hne') h
  · intro h
    rw [labelsKey, labelsKey, h]

theorem labelsKey_eq_iff {options options' : Option (List JsString)}
    (hclean : ∀ labels, options = some labels → ∀ label ∈ labels, fieldSeparator ∉ label)
    (hclean' : ∀ labels, options' = some labels → ∀ label ∈ labels, fieldSeparator ∉ label) :
    labelsKey options = labelsKey options' ↔
      SameLabels options options' ∨ Confused options options' ∨ Confused options' options := by
  have hstar : fieldSeparator ∉ js "*" := by decide
  have hnone : ∀ labels : List JsString, (∀ label ∈ labels, fieldSeparator ∉ label) →
      (labelsKey (some labels) = js "*" ↔ labels = [js "*"]) := by
    intro labels hlabels
    by_cases hne : labels = []
    · rw [hne]
      exact iff_of_false (by decide) (by decide)
    · exact labelsKey_eq_text hlabels hne hstar
  have hempty : ∀ labels : List JsString, (∀ label ∈ labels, fieldSeparator ∉ label) →
      (labelsKey (some labels) = [] ↔ labels = [] ∨ labels = [[]]) := by
    intro labels hlabels
    by_cases hne : labels = []
    · rw [hne]
      exact iff_of_true rfl (.inl rfl)
    · rw [labelsKey_eq_text hlabels hne List.not_mem_nil, or_iff_right hne]
  cases options with
  | none =>
      cases options' with
      | none => exact iff_of_true rfl (.inl trivial)
      | some labels' =>
          rw [eq_comm]
          refine (hnone labels' (hclean' labels' rfl)).trans ?_
          simp [SameLabels, Confused]
  | some labels =>
      cases options' with
      | none =>
          refine (hnone labels (hclean labels rfl)).trans ?_
          simp [SameLabels, Confused]
      | some labels' =>
          by_cases hne : labels = []
          · rw [hne, eq_comm]
            refine (hempty labels' (hclean' labels' rfl)).trans ?_
            simp [SameLabels, Confused]
          · by_cases hne' : labels' = []
            · rw [hne']
              refine (hempty labels (hclean labels rfl)).trans ?_
              simp [SameLabels, Confused, hne]
            · simp only [Confused, Option.some.injEq, hne, hne', reduceCtorEq, false_and, or_false]
              exact labelsKey_eq_of_ne (hclean labels rfl) (hclean' labels' rfl) hne hne'

/-- Calls without separators share a key where they ask the same, or where their filters are confused. -/
theorem cacheKey_eq_iff {call call' : NeighborCall} (hclean : Clean call) (hclean' : Clean call') :
    cacheKey call = cacheKey call' ↔ call.nodeId = call'.nodeId ∧ call.direction = call'.direction ∧
      (SameLabels call.options call'.options ∨ Confused call.options call'.options ∨
        Confused call'.options call.options) := by
  rw [← labelsKey_eq_iff hclean.labels hclean'.labels]
  constructor
  · intro h
    obtain ⟨hnode, hrest⟩ := field_inj hclean.nodeId hclean'.nodeId h
    obtain ⟨hdirection, hlabels⟩ := field_inj (separator_notMem_directionText _) (separator_notMem_directionText _) hrest
    exact ⟨hnode, directionText_injective hdirection, hlabels⟩
  · intro h
    obtain ⟨hnode, hdirection, hlabels⟩ := h
    rw [cacheKey, hnode, hdirection, hlabels]
    rfl

/-- One edge `to` from `a` to `b`. -/
def Example.oneEdge : AsyncNeighborProvider Unit where
  latencyClass := .asyncLocal
  getNeighbors nodeId direction options :=
    if nodeId = js "a" ∧ direction = .out ∧ (options.all fun labels => labels.contains (js "to")) = true then
      .ok [⟨js "b", js "to"⟩]
    else .ok []

def Example.call (options : Option (List JsString)) : NeighborCall := ⟨js "a", .out, ⟨0, 0, 0⟩, options⟩

/-- Without the label `*` or the empty label as a whole filter, the cache is not seen by a provider of sets of labels. -/
theorem neighborCache_transparent_of_clean {neighborCacheSize : Int} {cache : Cache}
    (hcache : newNeighborCache provider neighborCacheSize = .ok (some cache)) {calls : List NeighborCall}
    (hclean : ∀ call ∈ calls, Clean call)
    (hfilters : ∀ call ∈ calls, call.options ≠ some [js "*"] ∧ call.options ≠ some [[]])
    (hsets : ∀ nodeId direction labels labels', List.Perm labels labels' →
      provider.getNeighbors nodeId direction (some labels) = provider.getNeighbors nodeId direction (some labels')) :
    getNeighborsInTurn provider (some cache) calls = calls.map (fromProvider provider) := by
  rw [newNeighborCache_eq_some hcache, getNeighborsInTurn_eq_results, Memo.results_new_eq_iff]
  intro before earlier between later after hcalls hrecalls value hvalue
  have hearlier : earlier ∈ calls := by rw [hcalls]; simp
  have hlater : later ∈ calls := by rw [hcalls]; simp
  obtain ⟨hnode, hdirection, hlabels⟩ := (cacheKey_eq_iff (hclean earlier hearlier) (hclean later hlater)).mp hrecalls.key_eq
  have hsame : SameLabels earlier.options later.options := by
    rcases hlabels with hsame | (⟨-, hstar⟩ | ⟨-, hempty⟩) | (⟨-, hstar⟩ | ⟨-, hempty⟩)
    · exact hsame
    · exact absurd hstar (hfilters later hlater).1
    · exact absurd hempty (hfilters later hlater).2
    · exact absurd hstar (hfilters earlier hearlier).1
    · exact absurd hempty (hfilters earlier hearlier).2
  rw [← hvalue, fromProvider, fromProvider, hnode, hdirection]
  revert hsame
  cases earlier.options with
  | none =>
      cases later.options with
      | none => exact fun _ => rfl
      | some labels' => exact False.elim
  | some labels =>
      cases later.options with
      | none => exact False.elim
      | some labels' => exact fun hperm => (hsets _ _ _ _ hperm).symm

/-- The second call is answered from the cache. -/
theorem neighborCache_transparent_repeated :
    getNeighborsInTurn Example.oneEdge (some (LruCache.new 256)) (List.replicate 2 (Example.call (some [js "to"]))) =
      (List.replicate 2 (Example.call (some [js "to"]))).map (fromProvider Example.oneEdge) := by
  have hcache : newNeighborCache Example.oneEdge 256 = .ok (some (LruCache.new 256)) := rfl
  refine neighborCache_transparent_of_clean Example.oneEdge hcache (fun call hcall => ?_) (fun call hcall => ?_)
    fun nodeId direction labels labels' hperm => ?_
  · rw [List.eq_of_mem_replicate hcall]
    refine ⟨by decide, fun labels hlabels label hlabel => ?_⟩
    cases hlabels
    rw [List.mem_singleton.mp hlabel]
    decide
  · rw [List.eq_of_mem_replicate hcall]
    decide
  · have hto : labels.contains (js "to") = labels'.contains (js "to") := by
      rw [Bool.eq_iff_iff, List.contains_iff_mem, List.contains_iff_mem, hperm.mem_iff]
    simp only [Example.oneEdge, Option.all_some, hto]

/-! ### Transparent runs -/

/-- The cached traversal sees what the provider shows exactly where the calls that share a key, while it is in the cache,
share their answer. -/
theorem neighborCache_transparent_iff (neighborCacheSize : Int) (cache : Cache)
    (hcache : newNeighborCache provider neighborCacheSize = .ok (some cache)) (calls : List NeighborCall) :
    getNeighborsInTurn provider (some cache) calls = calls.map (fromProvider provider) ↔
      Memo.Consistent cacheKey (fromProvider provider) neighborCacheSize.toNat calls := by
  rw [newNeighborCache_eq_some hcache, getNeighborsInTurn_eq_results]
  exact Memo.results_new_eq_iff calls

/-- A cache of one entry has forgotten the first call when the third one comes. -/
theorem neighborCache_transparent_evicted :
    getNeighborsInTurn Example.oneEdge (some (LruCache.new 1))
      [Example.call none, Example.call (some []), Example.call (some [js "*"])] =
    [.ok [⟨js "b", js "to"⟩], .ok [], .ok []] ∧
    Memo.Consistent cacheKey (fromProvider Example.oneEdge) 1
      [Example.call none, Example.call (some []), Example.call (some [js "*"])] :=
  ⟨rfl, (neighborCache_transparent_iff Example.oneEdge 1 (LruCache.new 1) rfl _).mp rfl⟩

/-- The filter `*` gets what is in the cache for no filter. -/
theorem neighborCache_loses_filter :
    newNeighborCache Example.oneEdge 256 = .ok (some (LruCache.new 256)) ∧
    getNeighborsInTurn Example.oneEdge (some (LruCache.new 256)) [Example.call none, Example.call (some [js "*"])] =
      [.ok [⟨js "b", js "to"⟩], .ok [⟨js "b", js "to"⟩]] ∧
    [Example.call none, Example.call (some [js "*"])].map (fromProvider Example.oneEdge) =
      [.ok [⟨js "b", js "to"⟩], .ok []] := ⟨rfl, rfl, rfl⟩

end NeighborCache
end GitWarp
