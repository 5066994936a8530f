import GitWarp.LogicalIndex
import GitWarp.ReachableStates

/-! The neighbours of a node, read from the index where there is one that knows the node and from the edges of the
state otherwise. The scan of the edges does not ask whether the node itself is visible; the index passes over an
empty id, and an empty label is no filter for it. -/

namespace GitWarp
open Js ExceptLoops

variable {V : Type}

/-- `'outgoing' | 'incoming' | 'both'` -/
inductive NeighborDirection where
  | outgoing
  | incoming
  | both
  deriving DecidableEq

def NeighborDirection.covers : NeighborDirection → EdgeDirection → Bool
  | .both, _ => true
  | .outgoing, .outgoing => true
  | .incoming, .incoming => true
  | _, _ => false

structure Neighbor where
  nodeId : JsString
  label : JsString
  direction : EdgeDirection
  deriving DecidableEq

def tagDirection (edges : List NeighborEntry) (direction : EdgeDirection) : List Neighbor :=
  edges.map fun edge => ⟨edge.neighborId, edge.label, direction⟩

def indexedNeighbors (index : LogicalIndex) (nodeId : JsString) (direction : NeighborDirection)
    (labels : Option (List JsString)) : List Neighbor :=
  match direction with
  | .both => tagDirection (index.getNeighbors nodeId .outgoing labels) .outgoing ++
      tagDirection (index.getNeighbors nodeId .incoming labels) .incoming
  | .outgoing => tagDirection (index.getNeighbors nodeId .outgoing labels) .outgoing
  | .incoming => tagDirection (index.getNeighbors nodeId .incoming labels) .incoming

/-- What the scan pushes for one edge. -/
def linearNeighborsAt (state : WarpStateV5 V) (nodeId : JsString) (direction : NeighborDirection)
    (edgeLabel : Option JsString) (edgeKey : JsString) : List Neighbor :=
  let checkOut := direction = .outgoing ∨ direction = .both
  let checkIn := direction = .incoming ∨ direction = .both
  let edge := decodeEdgeKey edgeKey
  if edgeLabel ≠ none ∧ edgeLabel ≠ some edge.label then []
  else
    (if checkOut ∧ edge.fromId = nodeId ∧ orsetContains state.nodeAlive edge.toId = true then
      [⟨edge.toId, edge.label, .outgoing⟩] else []) ++
    (if checkIn ∧ edge.toId = nodeId ∧ orsetContains state.nodeAlive edge.fromId = true then
      [⟨edge.fromId, edge.label, .incoming⟩] else [])

def linearNeighbors (state : WarpStateV5 V) (nodeId : JsString) (direction : NeighborDirection)
    (edgeLabel : Option JsString) : List Neighbor :=
  (orsetElements state.edgeAlive).flatMap (linearNeighborsAt state nodeId direction edgeLabel)

/-- The index knows the node, and the indexed lookup does not throw. `edgeLabel ? ... : undefined` drops the empty
label. -/
def neighbors (computeShardKey : JsString → Fin 256) (index : Option LogicalIndex) (state : WarpStateV5 V)
    (nodeId : JsString) (direction : NeighborDirection) (edgeLabel : Option JsString) : List Neighbor :=
  match index with
  | none => linearNeighbors state nodeId direction edgeLabel
  | some index =>
      if index.isAlive computeShardKey nodeId then
        indexedNeighbors index nodeId direction ((edgeLabel.filter (· ≠ [])).map fun label => [label])
      else linearNeighbors state nodeId direction edgeLabel

/-! ### What they should be -/

/-- The edge that a neighbour stands for. -/
def Neighbor.edge (nodeId : JsString) (neighbor : Neighbor) : EdgeRef :=
  match neighbor.direction with
  | .outgoing => ⟨nodeId, neighbor.nodeId, neighbor.label⟩
  | .incoming => ⟨neighbor.nodeId, nodeId, neighbor.label⟩

/-- The neighbour is in the direction and under the label that are asked for. -/
def Neighbor.Matches (neighbor : Neighbor) (direction : NeighborDirection) (edgeLabel : Option JsString) : Prop :=
  direction.covers neighbor.direction = true ∧ ∀ label, edgeLabel = some label → neighbor.label = label

/-- The neighbours are those of the edges that `getEdges` lists, once each. -/
def NeighborsExact (computeShardKey : JsString → Fin 256) (index : Option LogicalIndex) (state : WarpStateV5 V)
    (nodeId : JsString) (direction : NeighborDirection) (edgeLabel : Option JsString) : Prop :=
  (neighbors computeShardKey index state nodeId direction edgeLabel).Nodup ∧ ∃ edges, getEdges state = .ok edges ∧
    ∀ neighbor, neighbor ∈ neighbors computeShardKey index state nodeId direction edgeLabel ↔
      neighbor.edge nodeId ∈ edges.map GraphEdge.edge ∧ neighbor.Matches direction edgeLabel

/-- An edge that is alive is stored for the neighbour. -/
def EdgeStored (state : WarpStateV5 V) (nodeId : JsString) (neighbor : Neighbor) : Prop :=
  ∃ key, orsetContains state.edgeAlive key = true ∧ decodeEdgeKey key = neighbor.edge nodeId

/-- What the lookup does not see does not matter for the node. -/
structure NeighborsSafe (index : Option LogicalIndex) (state : WarpStateV5 V) (nodeId : JsString)
    (direction : NeighborDirection) (edgeLabel : Option JsString) : Prop where
  /-- No edge of a node that is not visible leads to one that is. -/
  dead : orsetContains state.nodeAlive nodeId = false → ∀ neighbor : Neighbor, EdgeStored state nodeId neighbor →
    neighbor.Matches direction edgeLabel → orsetContains state.nodeAlive neighbor.nodeId = false
  /-- With an index, no visible edge leads to the node with an empty id. -/
  nonempty : index.isSome → orsetContains state.nodeAlive nodeId = true → ∀ neighbor : Neighbor,
    EdgeShown state (neighbor.edge nodeId) → neighbor.Matches direction edgeLabel → neighbor.nodeId ≠ []
  /-- With an index, the empty label is asked for only where there is no other. -/
  unfiltered : index.isSome → orsetContains state.nodeAlive nodeId = true → edgeLabel = some [] →
    ∀ neighbor : Neighbor, EdgeShown state (neighbor.edge nodeId) → neighbor.Matches direction none →
      neighbor.nodeId ≠ [] → neighbor.label = []

/-! ### The scan of the edges -/

theorem covers_iff (direction : NeighborDirection) :
    (direction.covers .outgoing = true ↔ direction = .outgoing ∨ direction = .both) ∧
      (direction.covers .incoming = true ↔ direction = .incoming ∨ direction = .both) := by
  cases direction <;> decide

theorem mem_linearNeighborsAt (state : WarpStateV5 V) (nodeId : JsString) (direction : NeighborDirection)
    (edgeLabel : Option JsString) (key : JsString) (neighbor : Neighbor) :
    neighbor ∈ linearNeighborsAt state nodeId direction edgeLabel key ↔ decodeEdgeKey key = neighbor.edge nodeId ∧
      orsetContains state.nodeAlive neighbor.nodeId = true ∧ neighbor.Matches direction edgeLabel := by
  have hlabel : ∀ label, ¬ (edgeLabel ≠ none ∧ edgeLabel ≠ some label) ↔
      ∀ label', edgeLabel = some label' → label = label' := by
    intro label
    cases edgeLabel with
    | none => exact iff_of_true (fun h => h.1 rfl) nofun
    | some asked => simp [eq_comm]
  unfold linearNeighborsAt Neighbor.Matches Neighbor.edge
  constructor
  · intro hmem
    dsimp only at hmem
    split at hmem
    · cases hmem
    · rename_i hmatch
      rw [hlabel] at hmatch
      rcases List.mem_append.mp hmem with hmem | hmem
      · split at hmem
        · rename_i hout
          cases List.mem_singleton.mp hmem
          obtain ⟨hdirection, rfl, hto⟩ := hout
          exact ⟨rfl, hto, (covers_iff direction).1.mpr hdirection, hmatch⟩
        · cases hmem
      · split at hmem
        · rename_i hin
          cases List.mem_singleton.mp hmem
          obtain ⟨hdirection, rfl, hfrom⟩ := hin
          exact ⟨rfl, hfrom, (covers_iff direction).2.mpr hdirection, hmatch⟩
        · cases hmem
  · obtain ⟨other, label, tag⟩ := neighbor
    rintro ⟨hedge, hother, hdirection, hmatch⟩
    cases tag with
    | outgoing =>
        dsimp only at hedge
        rw [hedge]
        dsimp only
        rw [if_neg ((hlabel label).mpr hmatch), if_pos ⟨(covers_iff direction).1.mp hdirection, rfl, hother⟩]
        exact List.mem_append_left _ (List.mem_singleton_self _)
    | incoming =>
        dsimp only at hedge
        rw [hedge]
        dsimp only
        rw [if_neg ((hlabel label).mpr hmatch)]
        refine List.mem_append_right _ ?_
        rw [if_pos ⟨(covers_iff direction).2.mp hdirection, rfl, hother⟩]
        exact List.mem_singleton_self _

theorem mem_linearNeighbors (state : WarpStateV5 V) (nodeId : JsString) (direction : NeighborDirection)
    (edgeLabel : Option JsString) (neighbor : Neighbor) :
    neighbor ∈ linearNeighbors state nodeId direction edgeLabel ↔ EdgeStored state nodeId neighbor ∧
      orsetContains state.nodeAlive neighbor.nodeId = true ∧ neighbor.Matches direction edgeLabel := by
  unfold linearNeighbors EdgeStored
  rw [List.mem_flatMap, ← exists_and_right]
  refine exists_congr fun key => ?_
  rw [mem_orsetElements, mem_linearNeighborsAt, and_assoc]

section Clean

variable {state : WarpStateV5 V} (hclean : CleanState state)

include hclean

/-- The scan comes to every neighbour by one edge. -/
theorem nodup_linearNeighbors (nodeId : JsString) (direction : NeighborDirection) (edgeLabel : Option JsString) :
    (linearNeighbors state nodeId direction edgeLabel).Nodup := by
  refine List.nodup_flatMap.mpr ⟨fun key hkey => ?_, (nodup_orsetElements _).imp_of_mem fun {a b} ha hb hne =>
    List.disjoint_left.mpr fun neighbor hneighbor hneighbor' => hne ?_⟩
  · unfold linearNeighborsAt
    dsimp only
    split
    · exact List.nodup_nil
    · split <;> split <;> simp
  · have hedge := ((mem_linearNeighborsAt state nodeId direction edgeLabel a neighbor).mp hneighbor).1
    have hedge' := ((mem_linearNeighborsAt state nodeId direction edgeLabel b neighbor).mp hneighbor').1
    obtain ⟨edge, hclear, rfl⟩ := hclean.edges a ((mem_orsetElements _ _).mp ha)
    obtain ⟨edge', hclear', rfl⟩ := hclean.edges b ((mem_orsetElements _ _).mp hb)
    rw [decodeEdgeKey_key hclear.clean] at hedge
    rw [decodeEdgeKey_key hclear'.clean] at hedge'
    rw [hedge, hedge']

omit hclean in
/-- An edge that is shown is one that is stored and has both ends. -/
theorem shown_iff_stored (nodeId : JsString) (neighbor : Neighbor) : EdgeShown state (neighbor.edge nodeId) ↔
    EdgeStored state nodeId neighbor ∧ orsetContains state.nodeAlive neighbor.nodeId = true ∧
      orsetContains state.nodeAlive nodeId = true := by
  have hends : orsetContains state.nodeAlive (neighbor.edge nodeId).fromId = true ∧
      orsetContains state.nodeAlive (neighbor.edge nodeId).toId = true ↔
        orsetContains state.nodeAlive neighbor.nodeId = true ∧ orsetContains state.nodeAlive nodeId = true := by
    obtain ⟨other, label, tag⟩ := neighbor
    cases tag with
    | outgoing => exact and_comm
    | incoming => exact Iff.rfl
  unfold EdgeShown EdgeStored
  simp only [hends, ← and_assoc]
  simp only [exists_and_right]

end Clean

/-! ### The index -/

section Indexed

variable {computeShardKey : JsString → Fin 256} {state : WarpStateV5 V} {index : LogicalIndex}
  (h : LogicalIndex.IndexOf computeShardKey state index)

omit h in
theorem leads_iff (nodeId : JsString) (direction : EdgeDirection) (entry : NeighborEntry) :
    LogicalIndex.Leads state direction nodeId entry ↔
      EdgeShown state (Neighbor.edge nodeId ⟨entry.neighborId, entry.label, direction⟩) := by
  unfold LogicalIndex.Leads
  constructor
  · rintro ⟨⟨fromId, toId, label⟩, hedge, rfl, htarget, hlabel⟩
    rw [mem_visibleEdges] at hedge
    cases direction with
    | outgoing =>
        cases htarget
        cases hlabel
        exact hedge
    | incoming =>
        cases htarget
        cases hlabel
        exact hedge
  · intro hshown
    refine ⟨_, (mem_visibleEdges _ _).mpr hshown, ?_⟩
    cases direction <;> exact ⟨rfl, rfl, rfl⟩

include h

theorem getNeighbors_spec {nodeId : JsString} (halive : orsetContains state.nodeAlive nodeId = true)
    (direction : EdgeDirection) (edgeLabel : Option JsString) :
    (index.getNeighbors nodeId direction (edgeLabel.map fun label => [label])).Nodup ∧
      ∀ entry, entry ∈ index.getNeighbors nodeId direction (edgeLabel.map fun label => [label]) ↔
        entry.neighborId ≠ [] ∧ LogicalIndex.Leads state direction nodeId entry ∧
          ∀ label, edgeLabel = some label → entry.label = label := by
  obtain ⟨gid, hgid⟩ := Option.isSome_iff_exists.mp ((h.known nodeId).mpr halive)
  have hsorted : ∀ list : List NeighborEntry, ((sortNeighbors list).Nodup ↔ list.Nodup) ∧
      ∀ entry, entry ∈ sortNeighbors list ↔ entry ∈ list :=
    fun list => ⟨(List.perm_insertionSort _ list).nodup_iff, fun entry => List.mem_insertionSort _⟩
  cases edgeLabel with
  | none =>
      obtain ⟨hnodup, hmem⟩ := LogicalIndex.getEdges_all h direction hgid
      refine ⟨(hsorted _).1.mpr hnodup, fun entry => ((hsorted _).2 entry).trans ((hmem entry).trans ?_)⟩
      exact and_congr_right fun _ => (and_iff_left nofun).symm
  | some label =>
      have hasked : ∀ entry : NeighborEntry, (∀ label', some label = some label' → entry.label = label') ↔
          entry.label = label :=
        fun entry => ⟨fun hall => hall label rfl, fun heq label' hsome => heq.trans (Option.some.inj hsome)⟩
      simp only [hasked]
      cases hlabelId : index.labelToId.get label with
      | none =>
          have hempty : index.getNeighbors nodeId direction ((some label).map fun label => [label]) = [] := by
            simp [LogicalIndex.getNeighbors, hlabelId]
          rw [hempty]
          refine ⟨List.nodup_nil, fun entry => iff_of_false List.not_mem_nil ?_⟩
          rintro ⟨-, ⟨edge, hedge, -, -, hsame⟩, rfl⟩
          have hsome := h.labelled edge hedge
          rw [hsame, hlabelId] at hsome
          cases hsome
      | some labelId =>
          obtain ⟨hnodup, hmem⟩ := LogicalIndex.getEdges_label h direction hgid hlabelId
          have hedges : index.getNeighbors nodeId direction ((some label).map fun label => [label]) =
              sortNeighbors (index.getEdges nodeId direction (some [labelId])) := by
            simp [LogicalIndex.getNeighbors, hlabelId]
          rw [hedges]
          exact ⟨(hsorted _).1.mpr hnodup, fun entry => ((hsorted _).2 entry).trans (hmem entry)⟩

/-- The index has the visible edges of a visible node whose neighbour has an id that is not empty, once each. -/
theorem indexedNeighbors_spec {nodeId : JsString} (halive : orsetContains state.nodeAlive nodeId = true)
    (direction : NeighborDirection) (edgeLabel : Option JsString) :
    (indexedNeighbors index nodeId direction (edgeLabel.map fun label => [label])).Nodup ∧
      ∀ neighbor, neighbor ∈ indexedNeighbors index nodeId direction (edgeLabel.map fun label => [label]) ↔
        neighbor.nodeId ≠ [] ∧ EdgeShown state (neighbor.edge nodeId) ∧ neighbor.Matches direction edgeLabel := by
  have htag : ∀ tag : EdgeDirection,
      (tagDirection (index.getNeighbors nodeId tag (edgeLabel.map fun label => [label])) tag).Nodup ∧
      ∀ neighbor, neighbor ∈ tagDirection (index.getNeighbors nodeId tag (edgeLabel.map fun label => [label])) tag ↔
        neighbor.direction = tag ∧ neighbor.nodeId ≠ [] ∧ EdgeShown state (neighbor.edge nodeId) ∧
          ∀ label, edgeLabel = some label → neighbor.label = label := by
    intro tag
    obtain ⟨hnodup, hmem⟩ := getNeighbors_spec h halive tag edgeLabel
    refine ⟨hnodup.map fun a b heq => ?_, fun neighbor => ?_⟩
    · obtain ⟨neighborId, label⟩ := a
      obtain ⟨neighborId', label'⟩ := b
      cases heq
      rfl
    · unfold tagDirection
      rw [List.mem_map]
      constructor
      · rintro ⟨entry, hentry, rfl⟩
        obtain ⟨hne, hleads, hlabel⟩ := (hmem entry).mp hentry
        exact ⟨rfl, hne, (leads_iff nodeId tag entry).mp hleads, hlabel⟩
      · obtain ⟨other, label, tag'⟩ := neighbor
        rintro ⟨rfl, hne, hshown, hlabel⟩
        exact ⟨⟨other, label⟩, (hmem _).mpr ⟨hne, (leads_iff nodeId tag' ⟨other, label⟩).mpr hshown, hlabel⟩, rfl⟩
  obtain ⟨hnodupOut, hmemOut⟩ := htag .outgoing
  obtain ⟨hnodupIn, hmemIn⟩ := htag .incoming
  cases direction with
  | outgoing =>
      refine ⟨hnodupOut, fun neighbor => (hmemOut neighbor).trans ?_⟩
      unfold Neighbor.Matches
      cases neighbor.direction <;> simp [NeighborDirection.covers]
  | incoming =>
      refine ⟨hnodupIn, fun neighbor => (hmemIn neighbor).trans ?_⟩
      unfold Neighbor.Matches
      cases neighbor.direction <;> simp [NeighborDirection.covers]
  | both =>
      refine ⟨hnodupOut.append hnodupIn (List.disjoint_left.mpr fun neighbor hout hin => ?_), fun neighbor => ?_⟩
      · have hsame := ((hmemOut neighbor).mp hout).1.symm.trans ((hmemIn neighbor).mp hin).1
        cases hsame
      · refine List.mem_append.trans ((or_congr (hmemOut neighbor) (hmemIn neighbor)).trans ?_)
        unfold Neighbor.Matches
        cases neighbor.direction <;> simp [NeighborDirection.covers]

end Indexed

/-- The neighbours are those of the visible edges, once each, if and only if the lookup is safe: the node is visible
or none of its edges leads to a visible node, and with an index neither the empty id nor the empty label matters. -/
theorem neighbors_exact_iff (computeShardKey : JsString → Fin 256) (state : WarpStateV5 V) (hclean : CleanState state)
    (index : Option LogicalIndex)
    (hindex : ∀ built, index = some built → LogicalIndex.build computeShardKey state = .ok built)
    (nodeId : JsString) (direction : NeighborDirection) (edgeLabel : Option JsString) :
    NeighborsExact computeShardKey index state nodeId direction edgeLabel ↔
      NeighborsSafe index state nodeId direction edgeLabel := by
  obtain ⟨edges, hedges, hlisted, -⟩ := hclean.getEdges_eq
  have hexact : NeighborsExact computeShardKey index state nodeId direction edgeLabel ↔
      (neighbors computeShardKey index state nodeId direction edgeLabel).Nodup ∧
        ∀ neighbor, neighbor ∈ neighbors computeShardKey index state nodeId direction edgeLabel ↔
          EdgeShown state (neighbor.edge nodeId) ∧ neighbor.Matches direction edgeLabel := by
    unfold NeighborsExact
    refine and_congr_right fun _ => ⟨?_, fun hmem => ⟨edges, hedges, fun neighbor => ?_⟩⟩
    · rintro ⟨edges', hedges', hmem⟩ neighbor
      cases hedges'.symm.trans hedges
      rw [hmem, hlisted]
    · rw [hmem, hlisted]
  rw [hexact]
  have hlinear := nodup_linearNeighbors hclean nodeId direction edgeLabel
  cases halive : orsetContains state.nodeAlive nodeId with
  | false =>
      have hscan : neighbors computeShardKey index state nodeId direction edgeLabel =
          linearNeighbors state nodeId direction edgeLabel := by
        unfold neighbors
        cases index with
        | none => rfl
        | some built =>
            show (if built.isAlive computeShardKey nodeId = true then _ else _) = _
            rw [(LogicalIndex.indexOf_build (hindex built rfl)).alive, halive]
            rfl
      rw [hscan]
      constructor
      · rintro ⟨-, hmem⟩
        refine ⟨fun _ neighbor hstored hmatches => ?_, fun _ h => ?_, fun _ h => ?_⟩
        · rw [← Bool.not_eq_true]
          intro hother
          have hshown := ((hmem neighbor).mp ((mem_linearNeighbors ..).mpr ⟨hstored, hother, hmatches⟩)).1
          rw [shown_iff_stored, halive] at hshown
          cases hshown.2.2
        · rw [halive] at h
          cases h
        · rw [halive] at h
          cases h
      · intro hsafe
        refine ⟨hlinear, fun neighbor => ?_⟩
        rw [mem_linearNeighbors, shown_iff_stored, halive]
        refine iff_of_false ?_ fun hshown => nomatch hshown.1.2.2
        rintro ⟨hstored, hother, hmatches⟩
        rw [hsafe.dead halive neighbor hstored hmatches] at hother
        cases hother
  | true =>
      cases index with
      | none =>
          refine iff_of_true ⟨hlinear, fun neighbor => ?_⟩ ⟨fun h => ?_, nofun, nofun⟩
          · rw [shown_iff_stored, halive]
            refine (mem_linearNeighbors ..).trans ?_
            tauto
          · rw [halive] at h
            cases h
      | some built =>
          have hbuilt := LogicalIndex.indexOf_build (hindex built rfl)
          have hlookup : neighbors computeShardKey (some built) state nodeId direction edgeLabel =
              indexedNeighbors built nodeId direction ((edgeLabel.filter (· ≠ [])).map fun label => [label]) := by
            show (if built.isAlive computeShardKey nodeId = true then _ else _) = _
            rw [hbuilt.alive, halive]
            rfl
          obtain ⟨hnodup, hmem⟩ := indexedNeighbors_spec hbuilt halive direction (edgeLabel.filter (· ≠ []))
          have hfilter : ∀ label : JsString, label ≠ [] → (some label).filter (· ≠ []) = some label := by
            intro label hlabel
            simp [Option.filter, hlabel]
          rw [hlookup]
          constructor
          · rintro ⟨-, hall⟩
            refine ⟨fun h => ?_, fun _ _ neighbor hshown hmatches => ?_, fun _ _ hempty neighbor hshown hmatches hne => ?_⟩
            · rw [halive] at h
              cases h
            · exact ((hmem neighbor).mp ((hall neighbor).mpr ⟨hshown, hmatches⟩)).1
            · subst hempty
              exact ((hall neighbor).mp ((hmem neighbor).mpr ⟨hne, hshown, hmatches⟩)).2.2 [] rfl
          · intro hsafe
            refine ⟨hnodup, fun neighbor => (hmem neighbor).trans ?_⟩
            have hne := hsafe.nonempty rfl halive neighbor
            by_cases hempty : edgeLabel = some []
            · subst hempty
              constructor
              · rintro ⟨hother, hshown, hdirection, hlabel⟩
                refine ⟨hshown, hdirection, fun label hsome => ?_⟩
                rw [← Option.some.inj hsome]
                exact hsafe.unfiltered rfl halive rfl neighbor hshown ⟨hdirection, hlabel⟩ hother
              · rintro ⟨hshown, hmatches⟩
                exact ⟨hne hshown hmatches, hshown, hmatches.1, nofun⟩
            · have hsame : edgeLabel.filter (· ≠ []) = edgeLabel := by
                cases edgeLabel with
                | none => rfl
                | some label => exact hfilter label fun h => hempty (congrArg some h)
              rw [hsame]
              exact ⟨fun ⟨_, hshown, hmatches⟩ => ⟨hshown, hmatches⟩,
                fun ⟨hshown, hmatches⟩ => ⟨hne hshown hmatches, hshown, hmatches⟩⟩

/-- `w` adds `x` and `y` and an edge between them. -/
def joinsXY : Session Nat :=
  ⟨js "w", 1, true, [.addNode (js "x"), .addNode (js "y"), .addEdge ⟨js "x", js "y", js "l"⟩], js "aaaa"⟩

/-- `w` removes `x`, whose edge stays. -/
def retractsX : Session Nat := ⟨js "w", 2, true, [.removeNode (js "x")], js "bbbb"⟩

theorem neighbors_exact_joined : ∃ state built, runSessions [joinsXY] = some state ∧
    LogicalIndex.build (fun _ => 0) state = .ok built ∧
      NeighborsExact (fun _ => 0) (some built) state (js "x") .both (some (js "l")) := by
  obtain ⟨state, hstate⟩ : ∃ state, runSessions [joinsXY] = some state := ⟨_, rfl⟩
  obtain ⟨built, hbuilt⟩ : ∃ built, LogicalIndex.build (fun _ => 0) state = .ok built := by
    cases hstate
    exact ⟨_, rfl⟩
  have hedges : orsetElements state.edgeAlive = [EdgeRef.key ⟨js "x", js "y", js "l"⟩] := by cases hstate; rfl
  have halive : orsetContains state.nodeAlive (js "x") = true := by cases hstate; decide +kernel
  refine ⟨state, built, hstate, hbuilt, (neighbors_exact_iff (fun _ => 0) state
    (reachable_of_sessions hstate).cleanState (some built) (fun other heq => Option.some.inj heq ▸ hbuilt) (js "x") .both
    (some (js "l"))).mpr ⟨fun h => ?_, fun _ _ neighbor hshown _ => ?_, fun _ _ h => ?_⟩⟩
  · rw [halive] at h
    cases h
  · obtain ⟨key, hkey, hedge, -⟩ := hshown
    cases List.mem_singleton.mp (hedges ▸ (mem_orsetElements _ _).mpr hkey)
    rw [decodeEdgeKey_key (by decide)] at hedge
    obtain ⟨other, label, tag⟩ := neighbor
    rintro rfl
    cases tag with
    | outgoing => exact absurd (congrArg EdgeRef.toId hedge) (show js "y" ≠ [] by decide)
    | incoming => exact absurd (congrArg EdgeRef.fromId hedge) (show js "x" ≠ [] by decide)
  · cases h

/-- The edge of a removed node is no edge of the graph, but its other end is still a neighbour. -/
theorem neighbors_of_removed : ¬ ∀ (computeShardKey : JsString → Fin 256) (state : WarpStateV5 Nat),
    CleanState state → ∀ index : Option LogicalIndex,
      (∀ built, index = some built → LogicalIndex.build computeShardKey state = .ok built) →
        ∀ nodeId direction edgeLabel, NeighborsExact computeShardKey index state nodeId direction edgeLabel := by
  intro h
  obtain ⟨state, hstate⟩ : ∃ state, runSessions [joinsXY, retractsX] = some state := ⟨_, rfl⟩
  obtain ⟨-, edges, hedges, hmem⟩ := h (fun _ => 0) state (reachable_of_sessions hstate).cleanState none nofun (js "x")
    .both none
  have hneighbor : (⟨js "y", js "l", .outgoing⟩ : Neighbor) ∈ neighbors (fun _ => 0) none state (js "x") .both none := by
    cases hstate
    decide +kernel
  have hlength : (getEdges state).map List.length = .ok 0 := by
    cases hstate
    decide +kernel
  obtain ⟨hlisted, -⟩ := (hmem _).mp hneighbor
  rw [hedges] at hlength
  cases List.eq_nil_of_length_eq_zero (Except.ok.inj hlength)
  cases hlisted

end GitWarp
