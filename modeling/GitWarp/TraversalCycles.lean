import GitWarp.TraversalTopology
import Mathlib.Data.Set.Card

/-! The topological sort is the order of least nodes where the reachable nodes have no cycle. What it leaves lies
behind a cycle, and so does the edge that it reports. -/

namespace GitWarp
open Js ExceptLoops TopoOrder

namespace GraphTraversal

section Order

variable (neighborsOf : JsString → List NeighborEdge) (starts : List JsString)

/-- A cycle can be reached from the starts. -/
def Cyclic : Prop := ∃ c, Reachable neighborsOf starts c ∧ Relation.TransGen (Step neighborsOf) c c

/-- The reachable nodes, each the least of those whose predecessors come before it. -/
structure LeastTopologicalOrder (sorted : List JsString) : Prop where
  nodup : sorted.Nodup
  mem_iff : ∀ v, v ∈ sorted ↔ Reachable neighborsOf starts v
  forward : ∀ before v after, sorted = before ++ v :: after →
    ∀ u, Reachable neighborsOf starts u → Step neighborsOf u v → u ∈ before
  least : ∀ before v after, sorted = before ++ v :: after → IsLeast {x | Reachable neighborsOf starts x ∧ x ∉ before ∧
    ∀ u, Reachable neighborsOf starts u → Step neighborsOf u x → u ∈ before} v

variable {neighborsOf starts}

section Run

variable {maxNodes : Nat} {found sorted : List JsString} (hrun : TopoRun neighborsOf starts maxNodes found sorted)

include hrun

theorem TopoRun.closed : ∀ u ∈ found, ∀ v, Step neighborsOf u v → v ∈ found := by
  intro u hu v hstep
  rw [hrun.mem_iff] at hu ⊢
  exact hu.step hstep

theorem TopoRun.lt_of_ready {v : JsString} (h : Ready (Step neighborsOf) found sorted v) :
    sorted.length < found.length := by
  have hnodup : (v :: sorted).Nodup := List.nodup_cons.mpr ⟨h.2.1, hrun.order.isOrder.nodup⟩
  have hsubset : v :: sorted ⊆ found := List.cons_subset.mpr ⟨h.1, hrun.order.isOrder.subset⟩
  have hlength := (List.subperm_of_subset hnodup hsubset).length_le
  rwa [List.length_cons] at hlength

/-- Where nothing more may be placed, the nodes behind a cycle are left. -/
theorem TopoRun.left_iff (hstuck : ∀ v, ¬ Ready (Step neighborsOf) found sorted v) {v : JsString} (hv : v ∈ found) :
    v ∉ sorted ↔ BehindCycle (Step neighborsOf) found v := by
  constructor
  · exact behindCycle_of_left hstuck hv
  · exact fun hbehind hsorted => hrun.order.isOrder.not_behindCycle hrun.closed hsorted hbehind

theorem TopoRun.cyclic_iff (hstuck : ∀ v, ¬ Ready (Step neighborsOf) found sorted v) :
    sorted.length < found.length ↔ Cyclic neighborsOf starts := by
  constructor
  · intro hless
    have hleft : ∃ v ∈ found, v ∉ sorted := by
      by_contra hnone
      have hall : found ⊆ sorted := by
        intro v hv
        by_contra hnot
        exact hnone ⟨v, hv, hnot⟩
      exact absurd (List.subperm_of_subset hrun.nodup hall).length_le (by omega)
    obtain ⟨v, hv, hleft⟩ := hleft
    obtain ⟨c, hc, hcycle, -⟩ := (hrun.left_iff hstuck hv).mp hleft
    exact ⟨c, (hrun.mem_iff c).mp hc, hcycle⟩
  · rintro ⟨c, hc, hcycle⟩
    have hfound := (hrun.mem_iff c).mpr hc
    have hleft := (hrun.left_iff hstuck hfound).mpr ⟨c, hfound, hcycle, .refl⟩
    have hnodup : (c :: sorted).Nodup := List.nodup_cons.mpr ⟨hleft, hrun.order.isOrder.nodup⟩
    have hsubset : c :: sorted ⊆ found := List.cons_subset.mpr ⟨hfound, hrun.order.isOrder.subset⟩
    have hlength := (List.subperm_of_subset hnodup hsubset).length_le
    rwa [List.length_cons] at hlength

/-- A limit that leaves room for all reachable nodes does not stop the sort. -/
theorem TopoRun.not_ready (hlimit : found.length ≤ maxNodes) (v : JsString) :
    ¬ Ready (Step neighborsOf) found sorted v := by
  intro hready
  have hless := hrun.lt_of_ready hready
  have hstop := hrun.limit v hready
  omega

theorem TopoRun.length_eq_ncard : {v | Reachable neighborsOf starts v}.ncard = found.length := by
  have hset : {v | Reachable neighborsOf starts v} = (found.toFinset : Set JsString) := by
    ext v
    rw [Set.mem_ofPred_eq, ← hrun.mem_iff, Finset.mem_coe, List.mem_toFinset]
  rw [hset, Set.ncard_coe_finset, List.toFinset_card_of_nodup hrun.nodup]

theorem TopoRun.least (hstuck : ∀ v, ¬ Ready (Step neighborsOf) found sorted v) (hacyclic : ¬ Cyclic neighborsOf starts) :
    LeastTopologicalOrder neighborsOf starts sorted := by
  have hready : ∀ (before : List JsString) x, Ready (Step neighborsOf) found before x ↔
      Reachable neighborsOf starts x ∧ x ∉ before ∧
        ∀ u, Reachable neighborsOf starts u → Step neighborsOf u x → u ∈ before := by
    intro before x
    simp only [Ready, hrun.mem_iff]
  refine ⟨hrun.order.isOrder.nodup, fun v => ?_, fun before v after heq => ?_, fun before v after heq => ?_⟩
  · rw [← hrun.mem_iff]
    refine ⟨fun hv => hrun.order.isOrder.subset hv, fun hv => ?_⟩
    by_contra hleft
    obtain ⟨c, hc, hcycle, -⟩ := (hrun.left_iff hstuck hv).mp hleft
    exact hacyclic ⟨c, (hrun.mem_iff c).mp hc, hcycle⟩
  · exact ((hready before v).mp (hrun.order.isOrder before v after heq)).2.2
  · have hleast := hrun.order before v after heq
    simpa only [hready] using hleast

end Run

end Order

section SortSpec

variable (provider : NeighborProvider) (direction : Direction) (options : Option (List JsString))

variable {provider direction options} in
theorem Reachable.mem_nodes {start : List JsString} (hstart : ∀ s ∈ start, provider.hasNode s = true) {v : JsString}
    (h : Reachable (neighborsOf provider direction options) start v) : v ∈ provider.nodes := by
  exact h.mem_of_closed (fun s hs => List.contains_iff_mem.mp (hstart s hs)) step_mem_nodes

theorem ncard_reachable_le {start : List JsString} (hstart : ∀ s ∈ start, provider.hasNode s = true) :
    {v | Reachable (neighborsOf provider direction options) start v}.ncard ≤ provider.nodes.length := by
  calc
    _ ≤ (provider.nodes.toFinset : Set JsString).ncard :=
      Set.ncard_le_ncard (fun v hv => List.mem_toFinset.mpr (Reachable.mem_nodes hstart hv)) (Finset.finite_toSet _)
    _ = provider.nodes.toFinset.card := Set.ncard_coe_finset _
    _ ≤ provider.nodes.length := List.toFinset_card_le _

/-- Where the limit leaves room for all reachable nodes, the sort throws or reports a cycle exactly where there is
one, and places the nodes in the order of least nodes where there is none. -/
theorem topologicalSort_spec (p : TopoOptions) (hstart : ∀ s ∈ p.start, provider.hasNode s = true)
    (hlimit : {v | Reachable (neighborsOf provider direction options) p.start v}.ncard ≤ p.maxNodes) :
    ((∃ err, topologicalSort provider direction options { p with throwOnCycle := true } = .error err) ↔
      Cyclic (neighborsOf provider direction options) p.start) ∧
    (∀ err, topologicalSort provider direction options p = .error err → err.code = "ERR_GRAPH_HAS_CYCLES") ∧
    (∃ result, topologicalSort provider direction options { p with throwOnCycle := false } = .ok result ∧
      (result.hasCycle = true ↔ Cyclic (neighborsOf provider direction options) p.start)) ∧
    (¬ Cyclic (neighborsOf provider direction options) p.start →
      ∃ result, topologicalSort provider direction options p = .ok result ∧ result.hasCycle = false ∧
        LeastTopologicalOrder (neighborsOf provider direction options) p.start result.sorted) := by
  have hcycle : ∀ q : TopoOptions, q.start = p.start → q.maxNodes = p.maxNodes →
      ∃ (sorted : List JsString) (neighborEdgeMap : Option (JsMap JsString (List NeighborEdge))) (hasCycle : Bool)
        (witness : Nat × Option (JsString × JsString)), (hasCycle = true ↔ Cyclic (neighborsOf provider direction options) p.start) ∧
        (¬ Cyclic (neighborsOf provider direction options) p.start →
          LeastTopologicalOrder (neighborsOf provider direction options) p.start sorted) ∧
        topologicalSort provider direction options q = if hasCycle && q.throwOnCycle then .error (.hasCycles witness.1 witness.2)
          else .ok ⟨sorted, hasCycle, neighborEdgeMap⟩ := by
    intro q hqstart hqlimit
    obtain ⟨sorted, neighborEdgeMap, hasCycle, hrun, hcycle, -, heq⟩ :=
      topologicalSort_run provider direction options q (by rw [hqstart]; exact hstart)
    rw [hqstart, hqlimit] at hrun
    rw [hqstart] at hcycle
    have hstuck := hrun.not_ready (hrun.length_eq_ncard ▸ hlimit)
    exact ⟨sorted, neighborEdgeMap, hasCycle, (_, _), hcycle.trans ((and_iff_right hstuck).trans (hrun.cyclic_iff hstuck)),
      hrun.least hstuck, heq⟩
  refine ⟨?_, ?_, ?_, ?_⟩
  · obtain ⟨sorted, neighborEdgeMap, hasCycle, witness, hiff, -, heq⟩ := hcycle { p with throwOnCycle := true } rfl rfl
    rw [← hiff, heq]
    cases hasCycle with
    | true => exact iff_of_true ⟨_, rfl⟩ rfl
    | false => exact iff_of_false (fun ⟨err, herr⟩ => by cases herr) Bool.false_ne_true
  · intro err herr
    obtain ⟨sorted, neighborEdgeMap, hasCycle, witness, -, -, heq⟩ := hcycle p rfl rfl
    rw [heq] at herr
    split at herr
    · cases herr
      rfl
    · cases herr
  · obtain ⟨sorted, neighborEdgeMap, hasCycle, witness, hiff, -, heq⟩ := hcycle { p with throwOnCycle := false } rfl rfl
    rw [Bool.and_false] at heq
    exact ⟨_, heq, hiff⟩
  · intro hacyclic
    obtain ⟨sorted, neighborEdgeMap, hasCycle, witness, hiff, hleast, heq⟩ := hcycle p rfl rfl
    have hfalse : hasCycle = false := Bool.eq_false_iff.mpr fun h => hacyclic (hiff.mp h)
    rw [hfalse, Bool.false_and] at heq
    exact ⟨_, heq, rfl, hleast hacyclic⟩

end SortSpec

/-! ### A small graph -/

namespace Example

/-- The graph of a list of edges, without labels. -/
def providerOf (nodes : List JsString) (edges : List (JsString × JsString)) : NeighborProvider where
  nodes := nodes
  getNeighbors nodeId direction _ :=
    let next : List JsString := match direction with
      | .out => edges.filterMap fun edge => if edge.1 = nodeId then some edge.2 else none
      | .in => edges.filterMap fun edge => if edge.2 = nodeId then some edge.1 else none
      | .both => edges.filterMap fun edge =>
          if edge.1 = nodeId then some edge.2 else if edge.2 = nodeId then some edge.1 else none
    (next.filter fun neighborId => nodes.contains neighborId).map fun neighborId => ⟨neighborId, js "to"⟩
  neighbor_mem := by
    intro nodeId direction options edge hedge
    obtain ⟨neighborId, hneighbor, rfl⟩ := List.mem_map.mp hedge
    exact List.contains_iff_mem.mp (List.mem_filter.mp hneighbor).2

/-- A diamond. -/
def diamond : NeighborProvider :=
  providerOf [js "a", js "b", js "c", js "d"]
    [(js "a", js "b"), (js "a", js "c"), (js "b", js "d"), (js "c", js "d")]

/-- From `s` to `a` and to a loop at `b`, which leads to `a`, and from `a` on to `d`. -/
def besideLoop : NeighborProvider :=
  providerOf [js "s", js "a", js "b", js "d"]
    [(js "s", js "a"), (js "s", js "b"), (js "b", js "a"), (js "b", js "b"), (js "a", js "d")]

/-- A cycle of two nodes. -/
def twoCycle : NeighborProvider := providerOf [js "a", js "b"] [(js "a", js "b"), (js "b", js "a")]

end Example

theorem Example.step_providerOf {vertices : List JsString} {arcs : List (JsString × JsString)} {u v : JsString}
    (h : Step (neighborsOf (Example.providerOf vertices arcs) .out none) u v) : (u, v) ∈ arcs := by
  obtain ⟨edge, hedge, rfl⟩ := List.mem_map.mp h
  obtain ⟨neighborId, hneighbor, rfl⟩ := List.mem_map.mp hedge
  obtain ⟨arc, harc, hnext⟩ := List.mem_filterMap.mp (List.mem_filter.mp hneighbor).1
  split at hnext
  · rename_i hsource
    cases hnext
    exact hsource ▸ harc
  · cases hnext

/-- Where every edge leads to a later node, there is no cycle. -/
theorem Example.not_cyclic_providerOf {vertices : List JsString} {arcs : List (JsString × JsString)}
    (h : ∀ arc ∈ arcs, vertices.idxOf arc.1 < vertices.idxOf arc.2) (starts : List JsString) :
    ¬ Cyclic (neighborsOf (Example.providerOf vertices arcs) .out none) starts := by
  rintro ⟨c, -, hcycle⟩
  have hless : vertices.idxOf c < vertices.idxOf c :=
    Relation.TransGen.trans_induction_on (motive := fun {u v} _ => vertices.idxOf u < vertices.idxOf v) hcycle
      (fun hstep => h _ (Example.step_providerOf hstep)) fun _ _ hfirst hsecond => hfirst.trans hsecond
  exact lt_irrefl _ hless

theorem topologicalSort_diamond :
    ∃ result, topologicalSort Example.diamond .out none (.of [js "a"] 4 false false) = .ok result ∧
      result.sorted = [js "a", js "b", js "c", js "d"] ∧
      LeastTopologicalOrder (neighborsOf Example.diamond .out none) [js "a"] result.sorted := by
  obtain ⟨result, hresult, -, horder⟩ :=
    (topologicalSort_spec Example.diamond .out none (.of [js "a"] 4 false false) (by decide)
      (ncard_reachable_le Example.diamond .out none (by decide))).2.2.2 (Example.not_cyclic_providerOf (by decide) _)
  have hrun : topologicalSort Example.diamond .out none (.of [js "a"] 4 false false) =
      .ok ⟨[js "a", js "b", js "c", js "d"], false, none⟩ := by decide +kernel
  refine ⟨result, hresult, ?_, horder⟩
  rw [← Except.ok.inj (hrun.symm.trans hresult)]

/-! ### The reported edge -/

section Witness

variable (provider : NeighborProvider) (direction : Direction) (options : Option (List JsString))

/-- An edge of the graph, as it points, under the labels that are followed. -/
def GraphEdge (source target : JsString) : Prop := Step (neighborsOf provider .out options) source target

/-- The edge that an error reports is an edge of the graph and on a directed cycle. -/
def WitnessOnCycle (err : TraversalError) : Prop :=
  ∀ nodesInCycle source target, err = .hasCycles nodesInCycle (some (source, target)) →
    GraphEdge provider options source target ∧ Relation.ReflTransGen (GraphEdge provider options) target source

/-- The first node in breadth-first order that a cycle of steps leads to and that has neighbors, with its first
neighbor. -/
def FirstBehindCycle (start : List JsString) (source target : JsString) : Prop :=
  ∃ order, Discovery.IsBreadthFirst (fun u => neighborIds (neighborsOf provider direction options u)) start order ∧
    ∃ before after rest, order = before ++ source :: after ∧
      BehindCycle (Step (neighborsOf provider direction options)) order source ∧
      neighborIds (neighborsOf provider direction options source) = target :: rest ∧
      ∀ earlier ∈ before, BehindCycle (Step (neighborsOf provider direction options)) order earlier →
        neighborIds (neighborsOf provider direction options earlier) = []

theorem firstBehindCycle_iff {start : List JsString} (hstart : ∀ s ∈ start, provider.hasNode s = true)
    {source target : JsString} : FirstBehindCycle provider direction options start source target ↔
      ∃ before after rest, discoveryOrder provider direction options start = before ++ source :: after ∧
        BehindCycle (Step (neighborsOf provider direction options)) (discoveryOrder provider direction options start)
          source ∧
        neighborIds (neighborsOf provider direction options source) = target :: rest ∧
        ∀ earlier ∈ before, BehindCycle (Step (neighborsOf provider direction options))
          (discoveryOrder provider direction options start) earlier →
            neighborIds (neighborsOf provider direction options earlier) = [] := by
  have hfound := isBreadthFirst_discoveryOrder provider direction options hstart
  constructor
  · rintro ⟨order, horder, hfirst⟩
    rwa [horder.unique hfound] at hfirst
  · intro hfirst
    exact ⟨_, hfound, hfirst⟩

theorem findTopoCycleWitness_eq_some_iff {start sorted : List JsString} {maxNodes : Nat}
    (hstart : ∀ s ∈ start, provider.hasNode s = true)
    (hrun : TopoRun (neighborsOf provider direction options) start maxNodes
      (discoveryOrder provider direction options start) sorted)
    (hstuck : ∀ v, ¬ Ready (Step (neighborsOf provider direction options))
      (discoveryOrder provider direction options start) sorted v) {source target : JsString} :
    findTopoCycleWitness (fun u => neighborIds (neighborsOf provider direction options u))
      (discoveryOrder provider direction options start) sorted = some (source, target) ↔
      FirstBehindCycle provider direction options start source target := by
  have hpick : ∀ u ∈ discoveryOrder provider direction options start, ∀ edge,
      (if sorted.contains u then none else ((neighborIds (neighborsOf provider direction options u)).find?
        fun neighborId => !sorted.contains neighborId).map fun neighborId => (u, neighborId)) = some edge ↔
      BehindCycle (Step (neighborsOf provider direction options)) (discoveryOrder provider direction options start) u ∧
        ∃ rest, neighborIds (neighborsOf provider direction options u) = edge.2 :: rest ∧ edge.1 = u := by
    intro u hu edge
    by_cases hsorted : u ∈ sorted
    · rw [if_pos (List.contains_iff_mem.mpr hsorted)]
      have hnot : ¬ BehindCycle (Step (neighborsOf provider direction options))
          (discoveryOrder provider direction options start) u := by
        rw [← hrun.left_iff hstuck hu]
        exact fun h => h hsorted
      simp [hnot]
    · rw [if_neg fun h => hsorted (List.contains_iff_mem.mp h)]
      have hbehind := (hrun.left_iff hstuck hu).mp hsorted
      cases hids : neighborIds (neighborsOf provider direction options u) with
      | nil => simp
      | cons first rest =>
          have hstep : Step (neighborsOf provider direction options) u first := by
            rw [Step, hids]
            exact List.mem_cons_self
          have hfirst : first ∉ sorted := by
            rw [hrun.left_iff hstuck (hrun.closed u hu first hstep)]
            obtain ⟨c, hc, hcycle, hlead⟩ := hbehind
            exact ⟨c, hc, hcycle, hlead.tail hstep⟩
          rw [List.find?_cons_of_pos (by simpa using hfirst)]
          obtain ⟨source, target⟩ := edge
          simp [hbehind, and_comm, eq_comm]
  rw [findTopoCycleWitness, List.findSome?_eq_some_iff, firstBehindCycle_iff provider direction options hstart]
  constructor
  · rintro ⟨before, u, after, horder, hu, hbefore⟩
    have hmem : u ∈ discoveryOrder provider direction options start := horder ▸ by simp
    obtain ⟨hbehind, rest, hids, rfl⟩ := (hpick u hmem _).mp hu
    refine ⟨before, after, rest, horder, hbehind, hids, fun earlier hearlier hcycle => ?_⟩
    cases hids' : neighborIds (neighborsOf provider direction options earlier) with
    | nil => rfl
    | cons first others =>
        have hmem' : earlier ∈ discoveryOrder provider direction options start :=
          horder ▸ List.mem_append_left _ hearlier
        have hsome := (hpick earlier hmem' (earlier, first)).mpr ⟨hcycle, others, hids', rfl⟩
        rw [hbefore earlier hearlier] at hsome
        cases hsome
  · rintro ⟨before, after, rest, horder, hbehind, hids, hbefore⟩
    have hmem : source ∈ discoveryOrder provider direction options start := horder ▸ by simp
    refine ⟨before, source, after, horder, (hpick source hmem _).mpr ⟨hbehind, rest, hids, rfl⟩, ?_⟩
    intro earlier hearlier
    have hmem' : earlier ∈ discoveryOrder provider direction options start := horder ▸ List.mem_append_left _ hearlier
    rw [Option.eq_none_iff_forall_ne_some]
    intro edge hedge
    obtain ⟨hcycle, others, hids', -⟩ := (hpick earlier hmem' edge).mp hedge
    rw [hbefore earlier hearlier hcycle] at hids'
    cases hids'

theorem levels_eq_error {start : List JsString} {maxNodes : Nat} {err : TraversalError}
    (h : levels provider direction options start maxNodes = .error err) :
    topologicalSort provider direction options (.of start maxNodes true false) = .error err := by
  unfold levels at h
  cases htopo : topologicalSort provider direction options (.of start maxNodes true false) with
  | error err' =>
      rw [htopo] at h
      cases h
      rfl
  | ok topo =>
      rw [htopo] at h
      cases h

theorem transitiveReduction_eq_error {start : List JsString} {maxNodes : Nat} {err : TraversalError}
    (h : transitiveReduction provider direction options start maxNodes = .error err) :
    topologicalSort provider direction options (.of start maxNodes true false) = .error err := by
  unfold transitiveReduction at h
  cases htopo : topologicalSort provider direction options (.of start maxNodes true false) with
  | error err' =>
      rw [htopo] at h
      cases h
      rfl
  | ok topo =>
      rw [htopo] at h
      cases h

theorem weightedLongestPath_eq_hasCycles {start goal : JsString} {weights : WeightOptions} {maxNodes nodesInCycle : Nat}
    {witness : Option (JsString × JsString)}
    (h : weightedLongestPath provider direction options start goal weights maxNodes = .error (.hasCycles nodesInCycle witness)) :
    topologicalSort provider direction options (.of [start] maxNodes true true) = .error (.hasCycles nodesInCycle witness) := by
  unfold weightedLongestPath at h
  cases hweights : resolveWeightFn weights with
  | error err =>
      rw [hweights] at h
      unfold resolveWeightFn at hweights
      split at hweights <;> cases hweights
      cases h
  | ok weightFn =>
      rw [hweights] at h
      cases hvalid : validateStart provider start with
      | error err =>
          simp only [hvalid] at h
          unfold validateStart at hvalid
          split at hvalid <;> cases hvalid
          cases h
      | ok valid =>
          simp only [hvalid] at h
          cases htopo : topologicalSort provider direction options (.of [start] maxNodes true true) with
          | error err =>
              rw [htopo] at h
              cases h
              rfl
          | ok topo =>
              rw [htopo] at h
              simp only [bind, Except.bind] at h
              split at h <;> cases h

/-- Every reported edge is on a cycle exactly where the first node behind a cycle has an edge to its first neighbor, as
edges point, and is reached from it again. A node of the empty name is never reported. -/
theorem cycleWitness_iff (start : List JsString) (hstart : ∀ s ∈ start, provider.hasNode s = true) :
    ((∀ p : TopoOptions, p.start = start → ∀ err, topologicalSort provider direction options p = .error err →
        WitnessOnCycle provider options err) ∧
      (∀ maxNodes err, levels provider direction options start maxNodes = .error err →
        WitnessOnCycle provider options err) ∧
      (∀ maxNodes err, transitiveReduction provider direction options start maxNodes = .error err →
        WitnessOnCycle provider options err) ∧
      (∀ s goal weights maxNodes err, start = [s] →
        weightedLongestPath provider direction options s goal weights maxNodes = .error err →
          WitnessOnCycle provider options err)) ↔
    ∀ source target, FirstBehindCycle provider direction options start source target → source ≠ [] →
      GraphEdge provider options source target ∧ Relation.ReflTransGen (GraphEdge provider options) target source := by
  constructor
  · rintro ⟨hsort, -, -, -⟩ source target hfirst hne
    let p : TopoOptions := ⟨start, (discoveryOrder provider direction options start).length, true, false, true⟩
    obtain ⟨sorted, neighborEdgeMap, hasCycle, hrun, hcycle, -, heq⟩ :=
      topologicalSort_run provider direction options p hstart
    have hstuck := hrun.not_ready le_rfl
    have hwitness := (findTopoCycleWitness_eq_some_iff provider direction options hstart hrun hstuck).mpr hfirst
    obtain ⟨before, after, rest, -, ⟨c, hc, hloop, -⟩, -, -⟩ :=
      (firstBehindCycle_iff provider direction options hstart).mp hfirst
    have htrue : hasCycle = true := hcycle.mpr ⟨hstuck, (hrun.cyclic_iff hstuck).mpr ⟨c, (hrun.mem_iff c).mp hc, hloop⟩⟩
    rw [htrue, hwitness, Option.filter_some_pos (by simpa using hne)] at heq
    exact hsort p rfl _ heq _ source target rfl
  · intro hfirst
    have hsort : ∀ p : TopoOptions, p.start = start → ∀ err, topologicalSort provider direction options p = .error err →
        WitnessOnCycle provider options err := by
      rintro p rfl err herr nodesInCycle source target rfl
      obtain ⟨sorted, neighborEdgeMap, hasCycle, hrun, hcycle, -, heq⟩ :=
        topologicalSort_run provider direction options p hstart
      rw [heq] at herr
      split at herr
      · rename_i hthrown
        rw [Bool.and_eq_true] at hthrown
        have hstuck := (hcycle.mp hthrown.1).1
        have hreport := (TraversalError.hasCycles.inj (Except.error.inj herr)).2
        obtain ⟨hwitness, hne⟩ := Option.filter_eq_some_iff.mp hreport
        have hfirst' := (findTopoCycleWitness_eq_some_iff provider direction options hstart hrun hstuck).mp hwitness
        exact hfirst source target hfirst' (by simpa using hne)
      · cases herr
    refine ⟨hsort, fun maxNodes err herr => ?_, fun maxNodes err herr => ?_, ?_⟩
    · exact hsort _ rfl err (levels_eq_error provider direction options herr)
    · exact hsort _ rfl err (transitiveReduction_eq_error provider direction options herr)
    · rintro s goal weights maxNodes err rfl herr nodesInCycle source target rfl
      exact hsort _ rfl _ (weightedLongestPath_eq_hasCycles provider direction options herr) _ _ _ rfl

/-- The reported edge leads away from the cycle. -/
theorem cycleWitness_beside_loop :
    topologicalSort Example.besideLoop .out none (.of [js "s"] 100000 true false) =
      .error (.hasCycles 3 (some (js "a", js "d"))) ∧
    ¬ Relation.ReflTransGen (GraphEdge Example.besideLoop none) (js "d") (js "a") := by
  refine ⟨by decide +kernel, fun hreach => ?_⟩
  rcases Relation.ReflTransGen.cases_head hreach with heq | ⟨next, hstep, -⟩
  · exact absurd heq (by decide)
  · have hnone : neighborIds (neighborsOf Example.besideLoop .out none (js "d")) = [] := by decide +kernel
    rw [GraphEdge, Step, hnone] at hstep
    cases hstep

theorem cycleWitness_two_cycle :
    WitnessOnCycle Example.twoCycle none (.hasCycles 2 (some (js "a", js "b"))) := by
  have horder : discoveryOrder Example.twoCycle .out none [js "a"] = [js "a", js "b"] := by decide +kernel
  have ha : neighborIds (neighborsOf Example.twoCycle .out none (js "a")) = [js "b"] := by decide +kernel
  have hb : neighborIds (neighborsOf Example.twoCycle .out none (js "b")) = [js "a"] := by decide +kernel
  have hcondition : ∀ source target, FirstBehindCycle Example.twoCycle .out none [js "a"] source target → source ≠ [] →
      GraphEdge Example.twoCycle none source target ∧ Relation.ReflTransGen (GraphEdge Example.twoCycle none) target source := by
    intro source target hfirst _
    obtain ⟨before, after, rest, hfound, -, hids, -⟩ := (firstBehindCycle_iff _ _ _ (by decide)).mp hfirst
    rw [horder] at hfound
    have hsource : source ∈ [js "a", js "b"] := hfound ▸ List.mem_append_right before List.mem_cons_self
    rcases List.mem_pair.mp hsource with rfl | rfl
    · obtain rfl := (List.cons.inj (ha.symm.trans hids)).1
      exact ⟨by rw [GraphEdge, Step, ha]; exact List.mem_cons_self,
        .single (by rw [GraphEdge, Step, hb]; exact List.mem_cons_self)⟩
    · obtain rfl := (List.cons.inj (hb.symm.trans hids)).1
      exact ⟨by rw [GraphEdge, Step, hb]; exact List.mem_cons_self,
        .single (by rw [GraphEdge, Step, ha]; exact List.mem_cons_self)⟩
  exact ((cycleWitness_iff Example.twoCycle .out none [js "a"] (by decide)).mpr hcondition).1
    (.of [js "a"] 100000 true false) rfl _ (by decide +kernel)

end Witness

end GraphTraversal

end GitWarp
