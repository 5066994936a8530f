import GitWarp.CodecKey
import GitWarp.LibraryLists
import GitWarp.LibraryReachability
import GitWarp.TraversalLongest

/-! The transitive reduction: what the search from the grandchildren of a node finds is what the kept edges do without. -/

namespace GitWarp
open Js Relation Reachability

namespace GraphTraversal

/-! ### The search from the grandchildren -/

/-- The successors that are new join the visited nodes and the next frontier. -/
theorem visitSuccessors_spec (ids : List JsString) (seen : JsSet JsString × List JsString) :
    ∃ added, (ids.foldl visitSuccessor seen).1.elems = seen.1.elems ++ added ∧
      (ids.foldl visitSuccessor seen).2 = seen.2 ++ added ∧ ∀ v, v ∈ added ↔ v ∈ ids ∧ v ∉ seen.1 := by
  induction ids generalizing seen with
  | nil => exact ⟨[], (List.append_nil _).symm, (List.append_nil _).symm, by simp⟩
  | cons id rest ih =>
      rw [List.foldl_cons]
      by_cases hhas : id ∈ seen.1
      · have hsame : visitSuccessor seen id = seen := by
          rw [visitSuccessor, if_pos ((seen.1.has_iff id).mpr hhas)]
        obtain ⟨added, helems, hfrontier, hadded⟩ := ih seen
        rw [hsame]
        refine ⟨added, helems, hfrontier, fun v => ?_⟩
        rw [hadded, List.mem_cons]
        grind
      · have hnew : visitSuccessor seen id = (seen.1.add id, seen.2 ++ [id]) := by
          rw [visitSuccessor, if_neg fun h => hhas ((seen.1.has_iff id).mp h)]
        obtain ⟨added, helems, hfrontier, hadded⟩ := ih (seen.1.add id, seen.2 ++ [id])
        rw [hnew]
        refine ⟨id :: added, ?_, ?_, fun v => ?_⟩
        · rw [helems, JsSet.elems_add hhas, List.append_assoc]
          rfl
        · rw [hfrontier, List.append_assoc]
          rfl
        · rw [List.mem_cons, hadded, JsSet.mem_add, List.mem_cons]
          grind

section Reducing

variable {provider : NeighborProvider} {direction : Direction} {options : Option (List JsString)}

/-- The nodes that more than one step leads to. -/
def Grandchildren (neighborsOf : JsString → List NeighborEdge) (source : JsString) : Set JsString :=
  {v | ∃ w, Step neighborsOf source w ∧ Step neighborsOf w v}

theorem redundant_iff {neighborsOf : JsString → List NeighborEdge} {u v : JsString} :
    Redundant (Step neighborsOf) u v ↔ ∃ s ∈ Grandchildren neighborsOf u, ReflTransGen (Step neighborsOf) s v := by
  constructor
  · intro h
    obtain ⟨w, hfirst, hrest⟩ := h
    obtain ⟨s, hsecond, hway⟩ := TransGen.head'_iff.mp hrest
    exact ⟨s, ⟨w, hfirst, hsecond⟩, hway⟩
  · intro h
    obtain ⟨s, ⟨w, hfirst, hsecond⟩, hway⟩ := h
    exact ⟨w, hfirst, TransGen.head'_iff.mpr ⟨s, hsecond, hway⟩⟩

/-- The search in the middle: it floods from the grandchildren, and the direct successors behind the frontier are known
to be redundant. -/
structure Searching (neighborsOf : JsString → List NeighborEdge) (source : JsString) (nodes : List JsString)
    (before : JsSet JsString) (s : Reduction) : Prop where
  flooded : Flooded (Step neighborsOf) (Grandchildren neighborsOf source) s.visited.elems s.frontier
  suffix : ∃ behind, s.visited.elems = behind ++ s.frontier
  inNodes : ∀ v ∈ s.visited.elems, v ∈ nodes
  redundant : ∀ key, key ∈ s.redundant ↔ key ∈ before ∨
    ∃ v ∈ s.visited.elems, v ∉ s.frontier ∧ Step neighborsOf source v ∧ key = redundantKey source v

theorem mem_markRedundant {source : JsString} {directSet : JsSet JsString} (frontier : List JsString)
    (redundant : JsSet JsString) (key : JsString) :
    key ∈ frontier.foldl (fun redundant nodeId =>
        if directSet.has nodeId then redundant.add (redundantKey source nodeId) else redundant) redundant ↔
      key ∈ redundant ∨ ∃ v ∈ frontier, v ∈ directSet ∧ key = redundantKey source v := by
  induction frontier generalizing redundant with
  | nil => simp
  | cons nodeId rest ih =>
      rw [List.foldl_cons, ih]
      by_cases hdirect : nodeId ∈ directSet
      · rw [if_pos ((directSet.has_iff nodeId).mpr hdirect), JsSet.mem_add]
        simp only [List.mem_cons, exists_eq_or_imp]
        tauto
      · rw [if_neg fun h => hdirect ((directSet.has_iff nodeId).mp h)]
        simp only [List.mem_cons, exists_eq_or_imp]
        tauto

/-- Where a search has not visited, it counts what is left. -/
def leftOver (nodes : List JsString) (s : Reduction) : Nat := nodes.length - (s.visited.size - s.frontier.length)

theorem Searching.step {source : JsString} {nodes : List JsString} {before directSet : JsSet JsString} {s s' : Reduction}
    (h : Searching (neighborsOf provider direction options) source nodes before s)
    (hnodes : ∀ u v, Step (neighborsOf provider direction options) u v → v ∈ nodes)
    (hdirect : ∀ v, v ∈ directSet ↔ Step (neighborsOf provider direction options) source v)
    (hstep : reductionStep provider direction options source directSet s = some s') :
    Searching (neighborsOf provider direction options) source nodes before s' ∧ leftOver nodes s' < leftOver nodes s := by
  unfold reductionStep at hstep
  split at hstep
  · cases hstep
  rename_i hne
  rw [← List.foldl_flatMap] at hstep
  obtain ⟨added, helems, hfrontier, hadded⟩ := visitSuccessors_spec (s.frontier.flatMap fun nodeId =>
    neighborIds (neighborsOf provider direction options nodeId)) (s.visited, [])
  rw [List.nil_append] at hfrontier
  have hnext : ∀ v, v ∈ added ↔ (∃ u ∈ s.frontier, Step (neighborsOf provider direction options) u v) ∧
      v ∉ s.visited.elems := by
    intro v
    rw [hadded, List.mem_flatMap]
    rfl
  obtain ⟨behind, hbehind⟩ := h.suffix
  have hlength : behind.length + s.frontier.length = s.visited.size := by
    rw [JsSet.size, hbehind, List.length_append]
  have hsome : 0 < s.frontier.length := List.length_pos_of_ne_nil hne
  have hbound : s.visited.size ≤ nodes.length :=
    (List.subperm_of_subset s.visited.nodup h.inNodes).length_le
  rw [Option.some.injEq] at hstep
  subst hstep
  constructor
  · refine ⟨?_, ⟨s.visited.elems, ?_⟩, ?_, fun key => ?_⟩
    · dsimp only
      rw [helems, hfrontier]
      exact h.flooded.next hnext
    · dsimp only
      rw [helems, hfrontier]
    · dsimp only
      rw [helems]
      intro v hv
      rcases List.mem_append.mp hv with hv | hv
      · exact h.inNodes v hv
      · obtain ⟨⟨u, -, hstep⟩, -⟩ := (hnext v).mp hv
        exact hnodes u v hstep
    · dsimp only
      rw [mem_markRedundant, h.redundant, helems, hfrontier]
      constructor
      · intro hkey
        rcases hkey with (hkey | ⟨v, hv, -, hrest⟩) | ⟨v, hv, hdir, hkey⟩
        · exact .inl hkey
        · exact .inr ⟨v, List.mem_append_left _ hv, fun hmem => ((hnext v).mp hmem).2 hv, hrest⟩
        · have hvisited := h.flooded.subset v hv
          exact .inr ⟨v, List.mem_append_left _ hvisited, fun hmem => ((hnext v).mp hmem).2 hvisited,
            (hdirect v).mp hdir, hkey⟩
      · intro hkey
        rcases hkey with hkey | ⟨v, hv, hnot, hdir, hkey⟩
        · exact .inl (.inl hkey)
        · have hvisited := (List.mem_append.mp hv).resolve_right hnot
          by_cases hv' : v ∈ s.frontier
          · exact .inr ⟨v, hv', (hdirect v).mpr hdir, hkey⟩
          · exact .inl (.inr ⟨v, hvisited, hv', hdir, hkey⟩)
  · unfold leftOver
    dsimp only
    have hsize : ((s.frontier.flatMap fun nodeId =>
        neighborIds (neighborsOf provider direction options nodeId)).foldl visitSuccessor (s.visited, [])).1.size =
          s.visited.size + added.length := by
      rw [JsSet.size, helems, List.length_append]
      rfl
    rw [hsize, hfrontier]
    omega

/-- The keys that a node adds are those of its edges that longer ways replace. -/
theorem mem_redundantFrom {redundant : JsSet JsString} {source : JsString}
    (hnodes : ∀ u v, Step (neighborsOf provider direction options) u v → v ∈ provider.nodes)
    (hacyclic : ∀ v, Step (neighborsOf provider direction options) source v →
      ¬ TransGen (Step (neighborsOf provider direction options)) v v) (key : JsString) :
    key ∈ redundantFrom provider direction options redundant source ↔ key ∈ redundant ∨
      ∃ v, Step (neighborsOf provider direction options) source v ∧
        Redundant (Step (neighborsOf provider direction options)) source v ∧ key = redundantKey source v := by
  unfold redundantFrom
  dsimp only
  split
  · rename_i hone
    refine (or_iff_left fun h => ?_).symm
    obtain ⟨v, hstep, ⟨w, hfirst, hway⟩, -⟩ := h
    have hsame : w = v := by
      unfold Step neighborIds at hstep hfirst
      obtain ⟨edge, hedge, rfl⟩ := List.mem_map.mp hstep
      obtain ⟨edge', hedge', rfl⟩ := List.mem_map.mp hfirst
      obtain ⟨i, hi, rfl⟩ := List.mem_iff_getElem.mp hedge
      obtain ⟨j, hj, rfl⟩ := List.mem_iff_getElem.mp hedge'
      obtain rfl : i = j := by omega
      rfl
    exact hacyclic v hstep (hsame ▸ hway)
  · rw [← List.foldl_flatMap]
    obtain ⟨added, helems, hfrontier, hadded⟩ := visitSuccessors_spec
      ((neighborsOf provider direction options source).flatMap fun edge =>
        neighborIds (neighborsOf provider direction options edge.neighborId)) (.empty, [])
    rw [List.nil_append] at hfrontier
    replace helems : _ = added := helems
    have hgrand : ∀ v, v ∈ added ↔ v ∈ Grandchildren (neighborsOf provider direction options) source := by
      intro v
      rw [hadded, List.mem_flatMap, and_iff_left (JsSet.not_mem_empty v)]
      constructor
      · intro h
        obtain ⟨edge, hedge, hv⟩ := h
        exact ⟨edge.neighborId, List.mem_map_of_mem hedge, hv⟩
      · intro h
        obtain ⟨w, hfirst, hsecond⟩ := h
        obtain ⟨edge, hedge, rfl⟩ := List.mem_map.mp hfirst
        exact ⟨edge, hedge, hsecond⟩
    have hdirect : ∀ v, v ∈ JsSet.ofList (neighborIds (neighborsOf provider direction options source)) ↔
        Step (neighborsOf provider direction options) source v := fun v => JsSet.mem_ofList _ v
    generalize ((neighborsOf provider direction options source).flatMap fun edge =>
      neighborIds (neighborsOf provider direction options edge.neighborId)).foldl visitSuccessor (JsSet.empty, []) = seen at *
    have hfirst : Searching (neighborsOf provider direction options) source provider.nodes redundant
        ⟨seen.1, seen.2, redundant⟩ := by
      refine ⟨?_, ⟨[], ?_⟩, ?_, fun key => ?_⟩
      · dsimp only
        rw [helems, hfrontier]
        exact .start hgrand
      · dsimp only
        rw [helems, hfrontier, List.nil_append]
      · dsimp only
        rw [helems]
        intro v hv
        obtain ⟨w, -, hsecond⟩ := (hgrand v).mp hv
        exact hnodes w v hsecond
      · dsimp only
        rw [helems, hfrontier]
        refine (or_iff_left fun h => ?_).symm
        obtain ⟨v, hv, hnot, -⟩ := h
        exact hnot hv
    have hturn : ∀ s s', Searching (neighborsOf provider direction options) source provider.nodes redundant s →
        reductionStep provider direction options source
          (.ofList (neighborIds (neighborsOf provider direction options source))) s = some s' →
        Searching (neighborsOf provider direction options) source provider.nodes redundant s' ∧
          leftOver provider.nodes s' < leftOver provider.nodes s := fun s s' h hstep => h.step hnodes hdirect hstep
    have hstop := While.loop_stops hturn hfirst (Nat.sub_le provider.nodes.length _)
    have hlast := While.loop_invariant (fun s s' h hstep => (hturn s s' h hstep).1) provider.nodes.length hfirst
    generalize While.loop _ provider.nodes.length (⟨seen.1, seen.2, redundant⟩ : Reduction) = last at hstop hlast ⊢
    have hempty : last.frontier = [] := by
      unfold reductionStep at hstop
      split at hstop
      · assumption
      · cases hstop
    have hflooded := hlast.flooded
    rw [hempty] at hflooded
    rw [hlast.redundant, hempty]
    refine or_congr_right (exists_congr fun v => ?_)
    rw [hflooded.mem_iff, ← redundant_iff, and_iff_right List.not_mem_nil]
    tauto

/-- The keys after all nodes. -/
theorem mem_redundantAll {redundant : JsSet JsString} {sorted : List JsString}
    (hnodes : ∀ u v, Step (neighborsOf provider direction options) u v → v ∈ provider.nodes)
    (hacyclic : ∀ u ∈ sorted, ∀ v, Step (neighborsOf provider direction options) u v →
      ¬ TransGen (Step (neighborsOf provider direction options)) v v) (key : JsString) :
    key ∈ sorted.foldl (redundantFrom provider direction options) redundant ↔ key ∈ redundant ∨
      ∃ u ∈ sorted, ∃ v, Step (neighborsOf provider direction options) u v ∧
        Redundant (Step (neighborsOf provider direction options)) u v ∧ key = redundantKey u v := by
  induction sorted generalizing redundant with
  | nil => simp
  | cons u rest ih =>
      rw [List.foldl_cons, ih fun w hw => hacyclic w (List.mem_cons_of_mem _ hw),
        mem_redundantFrom hnodes (hacyclic u List.mem_cons_self)]
      simp only [List.mem_cons, exists_eq_or_imp]
      exact or_assoc

theorem redundantKey_injective {u v u' v' : JsString} (hu : (0 : CodeUnit) ∉ u) (hu' : (0 : CodeUnit) ∉ u')
    (h : redundantKey u v = redundantKey u' v') : u = u' ∧ v = v' := by
  exact field_inj hu hu' h

end Reducing

/-! ### The kept edges -/

section Results

variable (provider : NeighborProvider) (direction : Direction) (options : Option (List JsString))

/-- The edges out of a list of nodes. -/
def edgesFrom (nodes : List JsString) : List LabelledEdge :=
  nodes.flatMap fun nodeId => (neighborsOf provider direction options nodeId).map fun edge =>
    ⟨nodeId, edge.neighborId, edge.label⟩

/-- An edge of a reduction, with some label. -/
def TransitiveReduction.Kept (result : TransitiveReduction) (u v : JsString) : Prop :=
  ∃ label, LabelledEdge.mk u v label ∈ result.edges

/-- The edges of the reachable nodes are those of the result, in their order, and the redundant ones that it counts.
Those of the result reach as much as all, and belong to every subgraph that does. -/
structure IsTransitiveReduction (start : List JsString) (result : TransitiveReduction) : Prop where
  split : ∀ nodes : List JsString, nodes.Nodup →
    (∀ v, v ∈ nodes ↔ Reachable (neighborsOf provider direction options) start v) →
    ∃ others, (edgesFrom provider direction options nodes).Perm (result.edges ++ others) ∧
      others.length = result.removed ∧
      ∀ edge ∈ others, Redundant (Step (neighborsOf provider direction options)) edge.source edge.target
  irredundant : ∀ edge ∈ result.edges, ¬ Redundant (Step (neighborsOf provider direction options)) edge.source edge.target
  sorted : result.edges.Pairwise fun edge later => edgeOrder edge ≤ edgeOrder later
  same : ∀ u v, Reachable (neighborsOf provider direction options) start u →
    (TransGen result.Kept u v ↔ TransGen (Step (neighborsOf provider direction options)) u v)
  least : ∀ S : JsString → JsString → Prop, (∀ u v, S u v → Step (neighborsOf provider direction options) u v) →
    (∀ u v, Reachable (neighborsOf provider direction options) start u →
      (TransGen S u v ↔ TransGen (Step (neighborsOf provider direction options)) u v)) →
    ∀ u v, result.Kept u v → S u v

variable {provider direction options}

theorem mem_edgesFrom {nodes : List JsString} {edge : LabelledEdge} :
    edge ∈ edgesFrom provider direction options nodes ↔ edge.source ∈ nodes ∧
      ⟨edge.target, edge.label⟩ ∈ neighborsOf provider direction options edge.source := by
  obtain ⟨source, target, label⟩ := edge
  rw [edgesFrom, List.mem_flatMap]
  constructor
  · intro h
    obtain ⟨nodeId, hnode, hedge⟩ := h
    obtain ⟨⟨neighborId, label'⟩, hneighbor, heq⟩ := List.mem_map.mp hedge
    cases heq
    exact ⟨hnode, hneighbor⟩
  · intro h
    exact ⟨source, h.1, List.mem_map.mpr ⟨⟨target, label⟩, h.2, rfl⟩⟩

theorem step_of_mem_edgesFrom {nodes : List JsString} {edge : LabelledEdge}
    (h : edge ∈ edgesFrom provider direction options nodes) :
    Step (neighborsOf provider direction options) edge.source edge.target :=
  List.mem_map.mpr ⟨_, (mem_edgesFrom.mp h).2, rfl⟩

/-- The steps that no longer way replaces make a reduction where they are the kept edges. -/
theorem reach_of_kept {start sorted : List JsString} {result : TransitiveReduction}
    (horder : LeastTopologicalOrder (neighborsOf provider direction options) start sorted)
    (hkept : ∀ u v, result.Kept u v ↔ Reachable (neighborsOf provider direction options) start u ∧
      Reduced (Step (neighborsOf provider direction options)) u v) {u v : JsString}
    (hu : Reachable (neighborsOf provider direction options) start u) :
    TransGen result.Kept u v ↔ TransGen (Step (neighborsOf provider direction options)) u v := by
  constructor
  · exact fun h => TransGen.mono (fun u v h => ((hkept u v).mp h).2.1) _ _ h
  · intro h
    have hreduced := @transGen_reduced _ _ (Reachable (neighborsOf provider direction options) start)
      (fun v => sorted.idxOf v) (fun u v hu hstep => ⟨hu.step hstep,
        horder.idxOf_lt ((horder.mem_iff u).mpr hu) ((horder.mem_iff v).mpr (hu.step hstep)) hstep⟩) _ _ hu h
    have hboth : TransGen result.Kept u v ∧ Reachable (neighborsOf provider direction options) start v := by
      induction hreduced with
      | single hstep => exact ⟨.single ((hkept _ _).mpr ⟨hu, hstep⟩), hu.step hstep.1⟩
      | tail hway hstep ih =>
          obtain ⟨hfirst, hreach⟩ := ih (TransGen.mono (fun _ _ h => h.1) _ _ hway)
          exact ⟨hfirst.tail ((hkept _ _).mpr ⟨hreach, hstep⟩), hreach.step hstep.1⟩
    exact hboth.1

variable (provider direction options)

/-- On an acyclic graph of ids without NUL, where the limit leaves room for all reachable nodes, the transitive reduction is
the least subgraph with the same reachability. -/
theorem transitiveReduction_spec (start : List JsString) (hstart : ∀ s ∈ start, provider.hasNode s = true)
    (hacyclic : ¬ Cyclic (neighborsOf provider direction options) start) (maxNodes : Nat)
    (hlimit : {v | Reachable (neighborsOf provider direction options) start v}.ncard ≤ maxNodes)
    (hids : ∀ v, Reachable (neighborsOf provider direction options) start v → fieldSeparator ∉ v) :
    ∃ result, transitiveReduction provider direction options start maxNodes = .ok result ∧
      IsTransitiveReduction provider direction options start result := by
  obtain ⟨topo, htopo, -, horder⟩ := (topologicalSort_spec provider direction options (.of start maxNodes true false) hstart
    hlimit).2.2.2 hacyclic
  have hnodes : ∀ u v, Step (neighborsOf provider direction options) u v → v ∈ provider.nodes := step_mem_nodes
  have hredundant : ∀ edge ∈ edgesFrom provider direction options topo.sorted,
      ((topo.sorted.foldl (redundantFrom provider direction options) .empty).has (redundantKey edge.source edge.target) =
        true ↔ Redundant (Step (neighborsOf provider direction options)) edge.source edge.target) := by
    intro edge hedge
    have hsource := (horder.mem_iff _).mp (mem_edgesFrom.mp hedge).1
    rw [JsSet.has_iff, mem_redundantAll hnodes fun u hu v hstep hcycle =>
      hacyclic ⟨v, ((horder.mem_iff u).mp hu).step hstep, hcycle⟩]
    constructor
    · intro h
      obtain ⟨u, hu, v, -, hredundant, hkey⟩ := h.resolve_left (JsSet.not_mem_empty _)
      obtain ⟨hu', hv'⟩ := redundantKey_injective (hids _ hsource) (hids u ((horder.mem_iff u).mp hu)) hkey
      rw [hu', hv']
      exact hredundant
    · intro h
      exact .inr ⟨edge.source, (mem_edgesFrom.mp hedge).1, edge.target, step_of_mem_edgesFrom hedge, h, rfl⟩
  let keeps : LabelledEdge → Bool := fun edge =>
    !(topo.sorted.foldl (redundantFrom provider direction options) .empty).has (redundantKey edge.source edge.target)
  let kept := (edgesFrom provider direction options topo.sorted).filter keeps
  let result : TransitiveReduction := ⟨kept.insertionSort fun a b => edgeOrder a ≤ edgeOrder b,
    (edgesFrom provider direction options topo.sorted).length - kept.length⟩
  have hresult : transitiveReduction provider direction options start maxNodes = .ok result := by
    rw [transitiveReduction, htopo]
    rfl
  have hkeeps : ∀ edge ∈ edgesFrom provider direction options topo.sorted,
      (keeps edge = true ↔ ¬ Redundant (Step (neighborsOf provider direction options)) edge.source edge.target) := by
    intro edge hedge
    rw [← hredundant edge hedge, Bool.not_eq_true]
    exact Iff.of_eq (Bool.not_eq_true' _)
  have hmem : ∀ edge, edge ∈ result.edges ↔ edge ∈ edgesFrom provider direction options topo.sorted ∧
      ¬ Redundant (Step (neighborsOf provider direction options)) edge.source edge.target := by
    intro edge
    rw [List.mem_insertionSort, List.mem_filter]
    exact and_congr_right fun hedge => hkeeps edge hedge
  have hkept : ∀ u v, result.Kept u v ↔ Reachable (neighborsOf provider direction options) start u ∧
      Reduced (Step (neighborsOf provider direction options)) u v := by
    intro u v
    constructor
    · intro h
      obtain ⟨label, hedge⟩ := h
      obtain ⟨hedge, hneeded⟩ := (hmem _).mp hedge
      exact ⟨(horder.mem_iff u).mp (mem_edgesFrom.mp hedge).1, step_of_mem_edgesFrom hedge, hneeded⟩
    · intro h
      obtain ⟨hu, hstep, hneeded⟩ := h
      obtain ⟨edge, hedge, rfl⟩ := List.mem_map.mp hstep
      exact ⟨edge.label, (hmem _).mpr ⟨mem_edgesFrom.mpr ⟨(horder.mem_iff u).mpr hu, hedge⟩, hneeded⟩⟩
  refine ⟨result, hresult, ⟨fun nodes hnodup hall => ?_, fun edge hedge => ((hmem edge).mp hedge).2, ?_, fun u v hu => ?_,
    fun S hsub hsame u v h => ?_⟩⟩
  · have hperm : nodes.Perm topo.sorted := by
      apply (List.perm_ext_iff_of_nodup hnodup horder.nodup).mpr
      exact fun v => (hall v).trans (horder.mem_iff v).symm
    have hsplit := List.filter_append_perm keeps (edgesFrom provider direction options topo.sorted)
    refine ⟨(edgesFrom provider direction options topo.sorted).filter fun edge => !keeps edge, ?_, ?_, fun edge hedge => ?_⟩
    · calc
        (edgesFrom provider direction options nodes).Perm (edgesFrom provider direction options topo.sorted) :=
          hperm.flatMap_right _
        List.Perm _ (kept ++ (edgesFrom provider direction options topo.sorted).filter fun edge => !keeps edge) :=
          hsplit.symm
        List.Perm _ _ := (List.perm_insertionSort _ kept).symm.append_right _
    · have hlength : kept.length + ((edgesFrom provider direction options topo.sorted).filter fun edge =>
          !keeps edge).length = (edgesFrom provider direction options topo.sorted).length := by
        rw [← List.length_append]
        exact hsplit.length_eq
      change _ = (edgesFrom provider direction options topo.sorted).length - kept.length
      omega
    · obtain ⟨hedge, hnot⟩ := List.mem_filter.mp hedge
      by_contra hneeded
      rw [(hkeeps edge hedge).mpr hneeded] at hnot
      cases hnot
  · exact Lists.pairwise_insertionSort_key _ edgeOrder (fun _ _ hle => hle) (fun _ _ hnle => (not_le.mp hnle).le) _
  · exact reach_of_kept horder hkept hu
  · obtain ⟨hu, hreduced⟩ := (hkept u v).mp h
    exact hreduced.mem_of_same hsub (hsame u v hu).mpr

end Results

end GraphTraversal

end GitWarp
