import GitWarp.LibraryLayers
import GitWarp.ObserverView
import GitWarp.ReachableStates
import GitWarp.LibraryJsValue

/-! The hops of a query: the working set is replaced by what edges lead to from it. A range of depths is searched
layer by layer; a single hop takes every neighbor, those of the working set included. -/

namespace GitWarp
open Js ExceptLoops Layers

structure QueryError where
  code : String
  message : String
  deriving DecidableEq, Repr

/-- `['a', 'b'].sort()` of the ids of a set. -/
def sortIds (ids : JsSet JsString) : List JsString := ids.elems.insertionSort (· ≤ ·)

/-! ### Depths -/

/-- The `depth` of the options. A number that is no integer is `none`. -/
inductive DepthOption where
  | absent
  | number (depth : Option Int)
  | range (min max : Option Int)
  | other

def normalizeDepth (depth : DepthOption) : Except QueryError (Nat × Nat) :=
  match depth with
  | .absent => return (1, 1)
  | .number (some depth) =>
      if depth < 0 then throw ⟨"E_QUERY_DEPTH_TYPE", "depth must be a non-negative integer"⟩
      else return (depth.toNat, depth.toNat)
  | .number none => throw ⟨"E_QUERY_DEPTH_TYPE", "depth must be a non-negative integer"⟩
  | .range (some min) (some max) =>
      if min < 0 || max < 0 then throw ⟨"E_QUERY_DEPTH_TYPE", "depth values must be non-negative integers"⟩
      else if max < min then throw ⟨"E_QUERY_DEPTH_RANGE", "depth min must be <= max"⟩
      else return (min.toNat, max.toNat)
  | .range _ _ => throw ⟨"E_QUERY_DEPTH_TYPE", "depth values must be non-negative integers"⟩
  | .other => throw ⟨"E_QUERY_DEPTH_TYPE", "depth must be a number or [min, max] array"⟩

/-! ### Hops -/

inductive HopDirection where
  | outgoing
  | incoming
  deriving DecidableEq

structure Hop where
  direction : HopDirection
  label : Option JsString
  depth : Nat × Nat
  deriving DecidableEq

def Adjacency.source (adjacency : Adjacency) : HopDirection → JsMap JsString (List NeighborEntry)
  | .outgoing => adjacency.outgoing
  | .incoming => adjacency.incoming

/-- An edge is skipped when there is a filter that it does not have; the empty label filters nothing. -/
def passesLabel (label : Option JsString) (edge : NeighborEntry) : Bool :=
  match label with
  | none => true
  | some label => label = [] || edge.label = label

section Hops

variable (source : JsMap JsString (List NeighborEntry)) (label : Option JsString)

/-- The neighbors that the edges of a node lead to, those skipped by the filter left out. -/
def hopNeighbors (nodeId : JsString) : List JsString :=
  (((source.get nodeId).getD []).filter (passesLabel label)).map NeighborEntry.neighborId

def applyHop (workingSet : List JsString) : List JsString :=
  sortIds (.ofList (workingSet.flatMap (hopNeighbors source label)))

structure MultiHop where
  result : JsSet JsString
  level : JsSet JsString
  visited : JsSet JsString

def visitNeighbor (collects : Bool) (s : MultiHop) (neighbor : JsString) : MultiHop :=
  if s.visited.has neighbor then s
  else ⟨if collects then s.result.add neighbor else s.result, s.level.add neighbor, s.visited.add neighbor⟩

def nextLevel (collects : Bool) (s : MultiHop) : MultiHop :=
  (s.level.elems.flatMap (hopNeighbors source label)).foldl (visitNeighbor collects) { s with level := .empty }

/-- The turns from a hop on, until a level is empty. -/
def hopLevels (minDepth : Nat) : Nat → Nat → MultiHop → MultiHop
  | 0, _, s => s
  | remaining + 1, hop, s =>
      let s := nextLevel source label (decide (minDepth ≤ hop)) s
      if s.level.size = 0 then s else hopLevels minDepth remaining (hop + 1) s

def applyMultiHop (depth : Nat × Nat) (workingSet : List JsString) : List JsString :=
  let result := if depth.1 = 0 then JsSet.ofList workingSet else .empty
  sortIds (hopLevels source label depth.1 depth.2 1 ⟨result, .ofList workingSet, .ofList workingSet⟩).result

end Hops

def runHop (adjacency : Adjacency) (hop : Hop) (workingSet : List JsString) : List JsString :=
  if hop.depth.1 = 1 ∧ hop.depth.2 = 1 then applyHop (adjacency.source hop.direction) hop.label workingSet
  else applyMultiHop (adjacency.source hop.direction) hop.label hop.depth workingSet

/-! ### The builder -/

/-- A predicate is given by the nodes whose snapshots it takes. -/
inductive QueryOperation where
  | whereFn (fn : JsString → Bool)
  | hop (hop : Hop)

structure QueryBuilder where
  pattern : Option MatchPattern
  operations : List QueryOperation
  aggregates : Bool

namespace QueryBuilder

variable {V : Type}

def addHop (direction : HopDirection) (builder : QueryBuilder) (label : Option JsString) (depth : DepthOption) :
    Except QueryError QueryBuilder := do
  if builder.aggregates then
    let name := match direction with
      | .outgoing => "outgoing"
      | .incoming => "incoming"
    throw ⟨"E_QUERY_AGGREGATE_TERMINAL", s!"{name}() cannot be called after aggregate()"⟩
  else do
    let depth ← normalizeDepth depth
    return { builder with operations := builder.operations ++ [.hop ⟨direction, label, depth⟩] }

def outgoing := addHop .outgoing

def incoming := addHop .incoming

def runOperation (adjacency : Adjacency) (workingSet : List JsString) : QueryOperation → List JsString
  | .whereFn fn => (workingSet.filter fun nodeId => fn nodeId).insertionSort (· ≤ ·)
  | .hop hop => runHop adjacency hop workingSet

/-- The nodes that a run ends with. -/
def workingSet (builder : QueryBuilder) (state : WarpStateV5 V) : List JsString :=
  let allNodes := (getNodes state).insertionSort (· ≤ ·)
  builder.operations.foldl (runOperation (buildAdjacency state))
    (allNodes.filter fun nodeId => matchGlob (builder.pattern.getD (.one [star])) nodeId)

end QueryBuilder

/-! ### Layers -/

theorem pairwise_sortIds (ids : JsSet JsString) : (sortIds ids).Pairwise (· < ·) := by
  have hle : (sortIds ids).Pairwise (· ≤ ·) := List.pairwise_insertionSort _ _
  have hnodup : (sortIds ids).Nodup := (List.perm_insertionSort (· ≤ ·) ids.elems).nodup_iff.mpr ids.nodup
  exact (hle.and hnodup).imp fun h => lt_of_le_of_ne h.1 h.2

theorem mem_sortIds (ids : JsSet JsString) (v : JsString) : v ∈ sortIds ids ↔ v ∈ ids := by
  rw [sortIds, List.mem_insertionSort, JsSet.mem_elems]

theorem mem_applyHop (source : JsMap JsString (List NeighborEntry)) (label : Option JsString) (workingSet : List JsString)
    (v : JsString) : v ∈ applyHop source label workingSet ↔ ∃ u ∈ workingSet, v ∈ hopNeighbors source label u := by
  rw [applyHop, mem_sortIds, JsSet.mem_ofList, List.mem_flatMap]

/-- Visiting a list of neighbors adds those that are not visited. -/
theorem foldl_visitNeighbor (collects : Bool) (neighbors : List JsString) (s : MultiHop) (v : JsString) :
    (v ∈ (neighbors.foldl (visitNeighbor collects) s).visited ↔ v ∈ s.visited ∨ v ∈ neighbors) ∧
    (v ∈ (neighbors.foldl (visitNeighbor collects) s).level ↔ v ∈ s.level ∨ v ∈ neighbors ∧ v ∉ s.visited) ∧
    (v ∈ (neighbors.foldl (visitNeighbor collects) s).result ↔
      v ∈ s.result ∨ collects = true ∧ v ∈ neighbors ∧ v ∉ s.visited) := by
  induction neighbors generalizing s with
  | nil => simp
  | cons neighbor rest ih =>
      obtain ⟨hvisited, hlevel, hresult⟩ := ih (visitNeighbor collects s neighbor)
      rw [List.foldl_cons, hvisited, hlevel, hresult]
      unfold visitNeighbor
      by_cases hhas : neighbor ∈ s.visited
      · rw [if_pos ((s.visited.has_iff neighbor).mpr hhas)]
        grind
      · rw [if_neg (fun h => hhas ((s.visited.has_iff neighbor).mp h))]
        cases collects
        · simp only [JsSet.mem_add, List.mem_cons, Bool.false_eq_true, if_false, false_and, or_false]
          grind
        · simp only [JsSet.mem_add, List.mem_cons, if_true, true_and]
          grind

section Search

variable (source : JsMap JsString (List NeighborEntry)) (label : Option JsString) (workingSet : List JsString)

/-- One edge that the filter lets through. -/
def HopStep (u v : JsString) : Prop := v ∈ hopNeighbors source label u

/-- The state of the search after a number of hops. -/
structure Searched (minDepth hops : Nat) (s : MultiHop) : Prop where
  visited : ∀ v, v ∈ s.visited ↔ ∃ n, n ≤ hops ∧ Distance (HopStep source label) {u | u ∈ workingSet} n v
  level : ∀ v, v ∈ s.level ↔ Distance (HopStep source label) {u | u ∈ workingSet} hops v
  result : ∀ v, v ∈ s.result ↔
    ∃ n, n ≤ hops ∧ minDepth ≤ n ∧ Distance (HopStep source label) {u | u ∈ workingSet} n v

variable {source label workingSet}

theorem Searched.next {minDepth hops : Nat} {s : MultiHop} (h : Searched source label workingSet minDepth hops s) :
    Searched source label workingSet minDepth (hops + 1) (nextLevel source label (decide (minDepth ≤ hops + 1)) s) := by
  have hnew : ∀ v, (v ∈ s.level.elems.flatMap (hopNeighbors source label) ∧ v ∉ s.visited) ↔
      Distance (HopStep source label) {u | u ∈ workingSet} (hops + 1) v := by
    intro v
    rw [distance_succ_iff, h.visited, List.mem_flatMap]
    simp only [JsSet.mem_elems, h.level, not_exists, not_and]
    rfl
  refine ⟨fun v => ?_, fun v => ?_, fun v => ?_⟩
  · rw [nextLevel, (foldl_visitNeighbor _ _ _ v).1]
    constructor
    · intro hv
      by_cases hvisited : v ∈ s.visited
      · obtain ⟨n, hn, hdistance⟩ := (h.visited v).mp hvisited
        exact ⟨n, by omega, hdistance⟩
      · exact ⟨hops + 1, le_rfl, (hnew v).mp ⟨hv.resolve_left hvisited, hvisited⟩⟩
    · rintro ⟨n, hn, hdistance⟩
      rcases Nat.lt_or_eq_of_le hn with hless | rfl
      · exact Or.inl ((h.visited v).mpr ⟨n, by omega, hdistance⟩)
      · exact Or.inr ((hnew v).mpr hdistance).1
  · rw [nextLevel, (foldl_visitNeighbor _ _ _ v).2.1]
    simpa using hnew v
  · rw [nextLevel, (foldl_visitNeighbor _ _ _ v).2.2, decide_eq_true_eq]
    dsimp only
    rw [hnew, h.result]
    constructor
    · rintro (⟨n, hn, hmin, hdistance⟩ | ⟨hmin, hdistance⟩)
      · exact ⟨n, by omega, hmin, hdistance⟩
      · exact ⟨hops + 1, le_rfl, hmin, hdistance⟩
    · rintro ⟨n, hn, hmin, hdistance⟩
      rcases Nat.lt_or_eq_of_le hn with hless | rfl
      · exact Or.inl ⟨n, by omega, hmin, hdistance⟩
      · exact Or.inr ⟨hmin, hdistance⟩

/-- The turns of the search: what is collected lies in the range, and an empty level ends all layers. -/
theorem Searched.hopLevels {minDepth hops : Nat} {s : MultiHop} (h : Searched source label workingSet minDepth hops s)
    (remaining : Nat) (v : JsString) : v ∈ (hopLevels source label minDepth remaining (hops + 1) s).result ↔
      ∃ n, n ≤ hops + remaining ∧ minDepth ≤ n ∧ Distance (HopStep source label) {u | u ∈ workingSet} n v := by
  induction remaining generalizing hops s with
  | zero => exact h.result v
  | succ remaining ih =>
      have hnext := h.next
      rw [GitWarp.hopLevels]
      split
      · rename_i hempty
        rw [hnext.result v]
        refine exists_congr fun n => ⟨fun ⟨hn, hrest⟩ => ⟨by omega, hrest⟩, fun ⟨_, hmin, hdistance⟩ => ⟨?_, hmin, hdistance⟩⟩
        by_contra hfar
        obtain ⟨u, hu⟩ := hdistance.exists_of_le (not_le.mp hfar).le
        exact (JsSet.size_eq_zero_iff _).mp hempty u ((hnext.level u).mpr hu)
      · rw [ih hnext, show hops + 1 + remaining = hops + (remaining + 1) by omega]

theorem mem_applyMultiHop (depth : Nat × Nat) (v : JsString) : v ∈ applyMultiHop source label depth workingSet ↔
    ∃ n, n ≤ depth.2 ∧ depth.1 ≤ n ∧ Distance (HopStep source label) {u | u ∈ workingSet} n v := by
  have hfirst : Searched source label workingSet depth.1 0
      ⟨if depth.1 = 0 then JsSet.ofList workingSet else .empty, .ofList workingSet, .ofList workingSet⟩ := by
    refine ⟨fun v => ?_, fun v => ?_, fun v => ?_⟩
    · simp [distance_zero_iff]
    · simp [distance_zero_iff]
    · by_cases hmin : depth.1 = 0
      · simp [hmin, distance_zero_iff]
      · simp [hmin]
  rw [applyMultiHop, mem_sortIds, hfirst.hopLevels depth.2 v, Nat.zero_add]

theorem pairwise_runHop (adjacency : Adjacency) (hop : Hop) (workingSet : List JsString) :
    (runHop adjacency hop workingSet).Pairwise (· < ·) := by
  unfold runHop
  split
  · exact pairwise_sortIds _
  · exact pairwise_sortIds _

end Search

/-! ### Hops over a state -/

section States

variable {V : Type} (state : WarpStateV5 V)

/-- An edge that is shown leads from a node to a node, in the direction of the hop and with its label if one is given. -/
def LeadsTo (direction : HopDirection) (label : Option JsString) (u v : JsString) : Prop :=
  ∃ edge, EdgeShown state edge ∧ (∀ name ∈ label, edge.label = name) ∧
    match direction with
    | .outgoing => edge.fromId = u ∧ edge.toId = v
    | .incoming => edge.toId = u ∧ edge.fromId = v

theorem passesLabel_iff {label : Option JsString} (hlabel : label ≠ some []) (edge : NeighborEntry) :
    passesLabel label edge = true ↔ ∀ name ∈ label, edge.label = name := by
  cases label with
  | none => simp [passesLabel]
  | some name =>
      have hne : name ≠ [] := fun h => hlabel (congrArg some h)
      simp [passesLabel, hne]

theorem mem_hopNeighbors (source : JsMap JsString (List NeighborEntry)) (label : Option JsString) (u v : JsString) :
    v ∈ hopNeighbors source label u ↔
      ∃ name, passesLabel label ⟨v, name⟩ = true ∧ ∃ list, source.get u = some list ∧ ⟨v, name⟩ ∈ list := by
  rw [hopNeighbors, List.mem_map]
  simp only [List.mem_filter]
  constructor
  · rintro ⟨⟨neighborId, name⟩, ⟨hmem, hpasses⟩, rfl⟩
    refine ⟨name, hpasses, ?_⟩
    cases hget : source.get u with
    | none =>
        rw [hget] at hmem
        cases hmem
    | some list =>
        rw [hget] at hmem
        exact ⟨list, rfl, hmem⟩
  · rintro ⟨name, hpasses, list, hget, hmem⟩
    exact ⟨⟨v, name⟩, ⟨by rw [hget]; exact hmem, hpasses⟩, rfl⟩

theorem hopStep_iff (direction : HopDirection) {label : Option JsString} (hlabel : label ≠ some []) (u v : JsString) :
    HopStep ((buildAdjacency state).source direction) label u v ↔ LeadsTo state direction label u v := by
  rw [HopStep, mem_hopNeighbors]
  cases direction with
  | outgoing =>
      constructor
      · rintro ⟨name, hpasses, hmem⟩
        have hedge : (⟨u, v, name⟩ : EdgeRef) ∈ (buildAdjacency state).outgoingEdges := hmem
        exact ⟨_, (mem_buildAdjacency state _).1.mp hedge, (passesLabel_iff hlabel _).mp hpasses, rfl, rfl⟩
      · rintro ⟨edge, hshown, hname, rfl, rfl⟩
        exact ⟨edge.label, (passesLabel_iff hlabel _).mpr hname, (mem_buildAdjacency state edge).1.mpr hshown⟩
  | incoming =>
      constructor
      · rintro ⟨name, hpasses, hmem⟩
        have hedge : (⟨v, u, name⟩ : EdgeRef) ∈ (buildAdjacency state).incomingEdges := hmem
        exact ⟨_, (mem_buildAdjacency state _).2.mp hedge, (passesLabel_iff hlabel _).mp hpasses, rfl, rfl⟩
      · rintro ⟨edge, hshown, hname, rfl, rfl⟩
        exact ⟨edge.label, (passesLabel_iff hlabel _).mpr hname, (mem_buildAdjacency state edge).2.mpr hshown⟩

/-- A hop of a range of depths ends in the nodes whose distance lies in the range; a single hop ends in all that an edge
leads to; a hop without a depth is the hop of depth one. -/
theorem runHop_spec (direction : HopDirection) {label : Option JsString} (hlabel : label ≠ some []) :
    (∀ depth workingSet, (runHop (buildAdjacency state) ⟨direction, label, depth⟩ workingSet).Pairwise (· < ·)) ∧
    (∀ depth : Nat × Nat, depth ≠ (1, 1) → ∀ workingSet v,
      v ∈ runHop (buildAdjacency state) ⟨direction, label, depth⟩ workingSet ↔
        ∃ n, depth.1 ≤ n ∧ n ≤ depth.2 ∧ Distance (LeadsTo state direction label) {u | u ∈ workingSet} n v) ∧
    (∀ workingSet v, v ∈ runHop (buildAdjacency state) ⟨direction, label, (1, 1)⟩ workingSet ↔
      ∃ u ∈ workingSet, LeadsTo state direction label u v) ∧
    (∀ builder : QueryBuilder, builder.addHop direction label .absent =
      builder.addHop direction label (.range (some 1) (some 1))) ∧
    ∀ (builder hopped : QueryBuilder) (depth : DepthOption), builder.addHop direction label depth = .ok hopped →
      ∃ range, normalizeDepth depth = .ok range ∧
        hopped.workingSet state = runHop (buildAdjacency state) ⟨direction, label, range⟩ (builder.workingSet state) := by
  have hstep : HopStep ((buildAdjacency state).source direction) label = LeadsTo state direction label := by
    funext u v
    exact propext (hopStep_iff state direction hlabel u v)
  refine ⟨fun depth workingSet => pairwise_runHop _ _ _, fun depth hdepth workingSet v => ?_, fun workingSet v => ?_,
    fun builder => ?_, fun builder hopped depth hhop => ?_⟩
  · rw [runHop, if_neg fun h => hdepth (Prod.ext h.1 h.2), mem_applyMultiHop, hstep]
    exact exists_congr fun n => and_left_comm
  · rw [runHop, if_pos ⟨rfl, rfl⟩, mem_applyHop]
    exact exists_congr fun u => and_congr_right fun _ => hopStep_iff state direction hlabel u v
  · unfold QueryBuilder.addHop
    split <;> rfl
  · unfold QueryBuilder.addHop at hhop
    split at hhop
    · cases hhop
    · obtain ⟨range, hrange, hbuilt⟩ := bind_ok_iff.mp hhop
      cases hbuilt
      refine ⟨range, hrange, ?_⟩
      rw [QueryBuilder.workingSet, QueryBuilder.workingSet, List.foldl_append]
      rfl

end States

namespace QueryHops

/-- A node with an edge to itself. -/
def addsLoop : Session JsValue :=
  ⟨js "alice", 1, true, [.addNode (js "x"), .addEdge ⟨js "x", js "x", js "l"⟩], js "aaaa"⟩

/-- The hop of depth one along the loop ends in the node itself, which is at distance zero. -/
theorem singleHop_along_loop : ∃ state, runSessions [addsLoop] = some state ∧
    js "x" ∈ runHop (buildAdjacency state) ⟨.outgoing, none, (1, 1)⟩ [js "x"] ∧
    ¬ ∃ n, 1 ≤ n ∧ n ≤ 1 ∧ Distance (LeadsTo state .outgoing none) {u | u ∈ [js "x"]} n (js "x") := by
  have hsome : ((runSessions [addsLoop]).map fun state =>
      (runHop (buildAdjacency state) ⟨.outgoing, none, (1, 1)⟩ [js "x"]).contains (js "x")) = some true := by
    decide +kernel
  obtain ⟨state, hstate, hmem⟩ := Option.map_eq_some_iff.mp hsome
  refine ⟨state, hstate, List.contains_iff_mem.mp hmem, ?_⟩
  rintro ⟨n, hn, -, hdistance⟩
  have hzero : Distance (LeadsTo state .outgoing none) {u | u ∈ [js "x"]} 0 (js "x") :=
    distance_zero_iff.mpr List.mem_cons_self
  have heq := hdistance.unique hzero
  omega

/-- Two edges, one after the other. -/
def addsPath : Session JsValue :=
  ⟨js "alice", 1, true, [.addNode (js "x"), .addNode (js "y"), .addNode (js "z"), .addEdge ⟨js "x", js "y", js "l"⟩,
    .addEdge ⟨js "y", js "z", js "l"⟩], js "aaaa"⟩

/-- The end of the path is two hops away. -/
theorem hopRange_along_path : ∃ state, runSessions [addsPath] = some state ∧
    js "z" ∈ runHop (buildAdjacency state) ⟨.outgoing, some (js "l"), (2, 3)⟩ [js "x"] := by
  have hsome : ((runSessions [addsPath]).map fun state => [js "x", js "y"].map
      (hopNeighbors ((buildAdjacency state).source .outgoing) (some (js "l")))) = some [[js "y"], [js "z"]] := by
    decide +kernel
  obtain ⟨state, hstate, hneighbors⟩ := Option.map_eq_some_iff.mp hsome
  simp only [List.map_cons, List.map_nil, List.cons.injEq, and_true] at hneighbors
  have hlabel : some (js "l") ≠ some [] := by decide
  have hfirst : ∀ v, LeadsTo state .outgoing (some (js "l")) (js "x") v ↔ v = js "y" := by
    intro v
    rw [← hopStep_iff state .outgoing hlabel, HopStep, hneighbors.1, List.mem_singleton]
  have hsecond : LeadsTo state .outgoing (some (js "l")) (js "y") (js "z") := by
    rw [← hopStep_iff state .outgoing hlabel, HopStep, hneighbors.2, List.mem_singleton]
  have hdistance : Distance (LeadsTo state .outgoing (some (js "l"))) {u | u ∈ [js "x"]} 2 (js "z") := by
    have hstart : StepsTo (LeadsTo state .outgoing (some (js "l"))) {u | u ∈ [js "x"]} 0 (js "x") :=
      .start List.mem_cons_self
    refine ⟨StepsTo.step (StepsTo.step hstart ((hfirst _).mpr rfl)) hsecond, fun n hn => ?_⟩
    cases hn with
    | start h => exact absurd h (by decide)
    | step hsteps hlast =>
        cases hsteps with
        | start h =>
            rw [List.mem_singleton.mp h, hfirst] at hlast
            exact absurd hlast (by decide)
        | step _ _ => exact Nat.le_add_left 2 _
  exact ⟨state, hstate, ((runHop_spec state .outgoing hlabel).2.1 (2, 3) (by decide) [js "x"] (js "z")).mpr
    ⟨2, le_rfl, Nat.le_succ 2, hdistance⟩⟩

end QueryHops

end GitWarp
