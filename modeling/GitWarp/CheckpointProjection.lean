import GitWarp.BuilderRemoves
import GitWarp.StateSerializer

/-! A state that is reconstructed from the visible graph of a checkpoint. Its elements are all added under one
dot, so they are removed together. -/

namespace GitWarp
open Js ExceptLoops

variable {V : Type}

/-- `createDot('__checkpoint__', 1)` -/
def syntheticDot : Dot := ⟨js "__checkpoint__", 1⟩

def syntheticEventId : EventId where
  lamport := 0
  writerId := js "__checkpoint__"
  patchSha := js "0000000000000000000000000000000000000000"
  opIndex := 0

def syntheticBirth : EventId := ⟨0, [], js "0000", 0⟩

def reconstructStateV5FromCheckpoint (projection : VisibleProjection V) : WarpStateV5 V where
  nodeAlive := projection.nodes.foldl (fun set nodeId => orsetAdd set nodeId syntheticDot) createORSet
  edgeAlive := projection.edges.foldl (fun set edge => orsetAdd set edge.key syntheticDot) createORSet
  prop := projection.props.foldl (fun prop p =>
    prop.set (encodePropKey p.node p.key) ⟨syntheticEventId, p.value⟩) JsMap.empty
  observedFrontier := createVersionVector
  edgeBirthEvent := projection.edges.foldl (fun births edge => births.set edge.key syntheticBirth) JsMap.empty

example : createDot (js "__checkpoint__") 1 = .ok syntheticDot := rfl

namespace VisibleProjection

/-- The projection shows the node or, for `edges`, the edge under the key. -/
def Shows (projection : VisibleProjection V) (edges : Bool) (element : JsString) : Prop :=
  if edges then ∃ edge ∈ projection.edges, edge.key = element else element ∈ projection.nodes

/-- A visible graph: its elements are distinct and clean, and what its edges and properties belong to is shown. -/
structure WellFormed (projection : VisibleProjection V) : Prop where
  nodes : projection.nodes.Nodup
  edges : projection.edges.Nodup
  props : (projection.props.map fun p => (p.node, p.key)).Nodup
  cleanNodes : ∀ node ∈ projection.nodes, NoReservedBytes node
  cleanEdges : ∀ edge ∈ projection.edges, edge.NoReservedBytes
  ends : ∀ edge ∈ projection.edges, edge.fromId ∈ projection.nodes ∧ edge.toId ∈ projection.nodes
  cleanProps : ∀ p ∈ projection.props, NoReservedBytes p.key
  owners : ∀ p ∈ projection.props, p.node ∈ projection.nodes

/-- The projection in the order in which it is encoded. -/
def sorted (projection : VisibleProjection V) : VisibleProjection V where
  nodes := projection.nodes.insertionSort (· ≤ ·)
  edges := projection.edges.insertionSort fun a b => compareEdges a b ≤ 0
  props := projection.props.insertionSort fun a b => compareProps a b ≤ 0

end VisibleProjection

/-- The patch names the node or, for `edges`, the edge in a removal. -/
def PatchEntry.RemovesElement (entry : PatchEntry V) (edges : Bool) (element : JsString) : Prop :=
  ∃ op ∈ entry.patch.ops, op.removedElement edges = some element

/-- What the patch is expected to leave: what it adds, and what was there and it does not remove. -/
def Expected (projection : VisibleProjection V) (entry : PatchEntry V) (edges : Bool) (element : JsString) : Prop :=
  (∃ encoded, entry.Adds edges (element, encoded)) ∨
    (projection.Shows edges element ∧ ¬ entry.RemovesElement edges element)

/-- The reconstructed state shows the projection, and after the patch it holds exactly what is expected. -/
structure SafeToWriteOn (projection : VisibleProjection V) (entry : PatchEntry V) (after : WarpStateV5 V) : Prop where
  projected : visibleProjection (reconstructStateV5FromCheckpoint projection) = projection.sorted
  alive : ∀ edges element, orsetContains (after.part edges) element = true ↔ Expected projection entry edges element

/-! ### The projections of states -/

/-- A projection is sorted already. -/
theorem sorted_visibleProjection (state : WarpStateV5 V) : (visibleProjection state).sorted = visibleProjection state := by
  have htotalEdges : Std.Total fun a b : EdgeRef => compareEdges a b ≤ 0 := by
    refine ⟨fun a b => ?_⟩
    rw [compareEdges_le_iff, compareEdges_le_iff]
    exact le_total a.sortKey b.sortKey
  have htransEdges : IsTrans EdgeRef fun a b => compareEdges a b ≤ 0 := by
    refine ⟨fun a b c hab hbc => ?_⟩
    rw [compareEdges_le_iff] at hab hbc ⊢
    exact hab.trans hbc
  have htotalProps : Std.Total fun a b : VisibleProp V => compareProps a b ≤ 0 := by
    refine ⟨fun a b => ?_⟩
    rw [compareProps_le_iff, compareProps_le_iff]
    exact le_total a.sortKey b.sortKey
  have htransProps : IsTrans (VisibleProp V) fun a b => compareProps a b ≤ 0 := by
    refine ⟨fun a b c hab hbc => ?_⟩
    rw [compareProps_le_iff] at hab hbc ⊢
    exact hab.trans hbc
  apply VisibleProjection.ext
  · exact (List.pairwise_insertionSort _ _).insertionSort_eq
  · exact (List.pairwise_insertionSort _ _).insertionSort_eq
  · exact (List.pairwise_insertionSort _ _).insertionSort_eq

/-- What a clean state shows is a visible graph. -/
theorem CleanState.wellFormed {state : WarpStateV5 V} (hclean : CleanState state) : (visibleProjection state).WellFormed := by
  have hnode : ∀ {node}, node ∈ (visibleProjection state).nodes ↔ orsetContains state.nodeAlive node = true :=
    (List.mem_insertionSort _).trans (mem_orsetElements _ _)
  have hedge : ∀ {edge}, edge ∈ (visibleProjection state).edges ↔ edge ∈ visibleEdges state := List.mem_insertionSort _
  have hprop : ∀ {p}, p ∈ (visibleProjection state).props ↔ p ∈ visibleProps state := List.mem_insertionSort _
  have hprops : (visibleProps state).Pairwise fun p q => (p.node, p.key) ≠ (q.node, q.key) :=
    hclean.nodup_visibleProps.imp_of_mem fun hp hq hne heq => hne (hclean.eq_of_sortKey hp hq (congrArg toLex heq))
  refine ⟨?_, ?_, ?_, ?_, ?_, ?_, ?_, ?_⟩
  · exact (List.perm_insertionSort _ _).nodup_iff.mpr (nodup_orsetElements _)
  · exact (List.perm_insertionSort _ _).nodup_iff.mpr hclean.nodup_visibleEdges
  · refine ((List.perm_insertionSort _ _).map _).nodup_iff.mpr ?_
    exact List.pairwise_map.mpr hprops
  · exact fun node hmem => hclean.nodes node (hnode.mp hmem)
  · exact fun edge hmem => (hclean.edgeShown_iff.mp ((mem_visibleEdges state edge).mp (hedge.mp hmem))).1
  · intro edge hmem
    obtain ⟨key, -, -, hends⟩ := (mem_visibleEdges state edge).mp (hedge.mp hmem)
    exact ⟨hnode.mpr hends.1, hnode.mpr hends.2⟩
  · intro p hmem
    obtain ⟨halive, register, hget, -⟩ := (hclean.mem_visibleProps p).mp (hprop.mp hmem)
    have hdecoded := hclean.nodes p.node halive
    rcases hclean.props _ (by rw [hget]; rfl) with ⟨node, name, hnode, hname, heq⟩ | ⟨edge, name, hedge, hname, heq⟩
    · obtain ⟨-, rfl⟩ := encodePropKey_inj hdecoded.1 hnode.1 heq
      exact hname
    · have hhead := isEdgePropKey_nodeKey hdecoded p.key
      rw [heq, isEdgePropKey_edgeKey] at hhead
      cases hhead
  · intro p hmem
    exact hnode.mpr ((hclean.mem_visibleProps p).mp (hprop.mp hmem)).1

/-! ### The reconstructed sets -/

theorem view_foldl_orsetAdd (dot : Dot) (elements : List JsString) (set : ORSet) :
    (elements.foldl (fun set element => orsetAdd set element dot) set).view =
      set.view ⊔ AddWins.shared {e | e ∈ elements} (encodeDot dot) := by
  induction elements generalizing set with
  | nil =>
      apply AddWins.ext
      · ext p
        simp [AddWins.shared]
      · ext d
        simp [AddWins.shared]
  | cons element rest ih =>
      rw [List.foldl_cons, ih, view_orsetAdd, sup_assoc]
      congr 1
      apply AddWins.ext
      · ext ⟨e, d⟩
        simp only [AddWins.mem_adds_sup, AddWins.added, AddWins.shared, Set.mem_singleton_iff, Prod.mk.injEq,
          Set.mem_ofPred_eq, List.mem_cons]
        tauto
      · ext d
        simp [AddWins.added, AddWins.shared]

theorem keys_foldl_orsetAdd (dot : Dot) {elements : List JsString} (hnodup : elements.Nodup) {set : ORSet}
    (hfresh : ∀ element ∈ elements, set.entries.get element = none) :
    (elements.foldl (fun set element => orsetAdd set element dot) set).entries.keys = set.entries.keys ++ elements := by
  induction elements generalizing set with
  | nil => exact (List.append_nil _).symm
  | cons element rest ih =>
      rw [List.nodup_cons] at hnodup
      have hrest : ∀ other ∈ rest, (orsetAdd set element dot).entries.get other = none := by
        intro other hother
        have hne : other ≠ element := fun heq => hnodup.1 (heq ▸ hother)
        rw [orsetAdd, JsMap.get_set_of_ne _ _ hne]
        exact hfresh other (List.mem_cons_of_mem _ hother)
      have hkeys : (orsetAdd set element dot).entries.keys = set.entries.keys ++ [element] := by
        rw [JsMap.keys, orsetAdd, JsMap.entries_set_of_get_none (hfresh element List.mem_cons_self), List.map_append]
        rfl
      rw [List.foldl_cons, ih hnodup.2 hrest, hkeys, List.append_assoc, List.singleton_append]

/-- A set that distinct elements were added to, under any dot, lists them in this order. -/
theorem orsetElements_foldl_orsetAdd (dot : Dot) {elements : List JsString} (hnodup : elements.Nodup) :
    orsetElements (elements.foldl (fun set element => orsetAdd set element dot) createORSet) = elements := by
  have hfresh : ∀ element ∈ elements, createORSet.entries.get element = none := fun _ _ => rfl
  have hkeys := keys_foldl_orsetAdd dot hnodup hfresh
  rw [orsetElements, hkeys]
  refine List.filter_eq_self.mpr fun element hmem => ?_
  rw [orsetContains_iff, view_foldl_orsetAdd, view_createORSet, bot_sup_eq, AddWins.alive_shared_iff]
  exact hmem

section Reconstructed

variable (projection : VisibleProjection V)

theorem edgeAlive_reconstruct : (reconstructStateV5FromCheckpoint projection).edgeAlive =
    (projection.edges.map EdgeRef.key).foldl (fun set element => orsetAdd set element syntheticDot) createORSet := by
  rw [List.foldl_map]
  rfl

theorem view_reconstruct (edges : Bool) : ((reconstructStateV5FromCheckpoint projection).part edges).view =
    AddWins.shared {e | projection.Shows edges e} (encodeDot syntheticDot) := by
  cases edges with
  | false =>
      change (projection.nodes.foldl _ createORSet).view = _
      rw [view_foldl_orsetAdd, view_createORSet, bot_sup_eq]
      rfl
  | true =>
      change (reconstructStateV5FromCheckpoint projection).edgeAlive.view = _
      rw [edgeAlive_reconstruct, view_foldl_orsetAdd, view_createORSet, bot_sup_eq]
      congr 1
      ext element
      exact List.mem_map

theorem orsetContains_reconstruct (edges : Bool) (element : JsString) :
    orsetContains ((reconstructStateV5FromCheckpoint projection).part edges) element = true ↔
      projection.Shows edges element := by
  rw [orsetContains_iff, view_reconstruct, AddWins.alive_shared_iff]
  exact Iff.rfl

variable {projection} (h : projection.WellFormed)

include h

namespace VisibleProjection.WellFormed

theorem orsetElements_nodes : orsetElements (reconstructStateV5FromCheckpoint projection).nodeAlive = projection.nodes :=
  orsetElements_foldl_orsetAdd syntheticDot h.nodes

theorem orsetElements_edges : orsetElements (reconstructStateV5FromCheckpoint projection).edgeAlive =
    projection.edges.map EdgeRef.key := by
  rw [edgeAlive_reconstruct]
  refine orsetElements_foldl_orsetAdd syntheticDot (h.edges.map_on fun a ha b hb heq => ?_)
  exact EdgeRef.key_inj (h.cleanEdges a ha).clean (h.cleanEdges b hb).clean heq

theorem visibleEdges_eq : visibleEdges (reconstructStateV5FromCheckpoint projection) = projection.edges := by
  have hvisible : ∀ key ∈ projection.edges.map EdgeRef.key,
      edgeVisibleV5 (reconstructStateV5FromCheckpoint projection) key = true := by
    intro key hkey
    obtain ⟨edge, hedge, rfl⟩ := List.mem_map.mp hkey
    have halive : orsetContains (reconstructStateV5FromCheckpoint projection).edgeAlive edge.key = true :=
      (orsetContains_reconstruct projection true edge.key).mpr ⟨edge, hedge, rfl⟩
    have hfrom : orsetContains (reconstructStateV5FromCheckpoint projection).nodeAlive edge.fromId = true :=
      (orsetContains_reconstruct projection false edge.fromId).mpr (h.ends edge hedge).1
    have hto : orsetContains (reconstructStateV5FromCheckpoint projection).nodeAlive edge.toId = true :=
      (orsetContains_reconstruct projection false edge.toId).mpr (h.ends edge hedge).2
    simp only [edgeVisibleV5, halive, decodeEdgeKey_key (h.cleanEdges edge hedge).clean, nodeVisibleV5, hfrom, hto]
    rfl
  rw [visibleEdges, h.orsetElements_edges, List.filter_eq_self.mpr hvisible, List.map_map]
  conv_rhs => rw [← List.map_id projection.edges]
  exact List.map_congr_left fun edge hedge => decodeEdgeKey_key (h.cleanEdges edge hedge).clean

theorem entries_prop : (reconstructStateV5FromCheckpoint projection).prop.entries =
    projection.props.map fun p => (encodePropKey p.node p.key, ⟨syntheticEventId, p.value⟩) := by
  have hclean : ∀ p ∈ projection.props, fieldSeparator ∉ p.node :=
    fun p hp => (h.cleanNodes p.node (h.owners p hp)).1
  have hnodup : ((projection.props.map fun p : VisibleProp V =>
      (encodePropKey p.node p.key, (⟨syntheticEventId, p.value⟩ : LWWRegister V))).map Prod.fst).Nodup := by
    rw [List.map_map]
    refine List.pairwise_map.mpr ((List.pairwise_map.mp h.props).imp_of_mem ?_)
    intro p q hp hq hne heq
    obtain ⟨hnode, hkey⟩ := encodePropKey_inj (hclean p hp) (hclean q hq) heq
    exact hne (Prod.ext hnode hkey)
  have hentries := JsMap.entries_foldl_set hnodup (m := JsMap.empty) fun _ _ => rfl
  rw [List.foldl_map] at hentries
  exact hentries

theorem visibleProps_eq : visibleProps (reconstructStateV5FromCheckpoint projection) = projection.props := by
  rw [visibleProps, h.entries_prop, List.filterMap_map]
  conv_rhs => rw [← List.filterMap_some (l := projection.props)]
  refine List.filterMap_congr fun p hp => ?_
  have hnode := h.cleanNodes p.node (h.owners p hp)
  have halive : orsetContains (reconstructStateV5FromCheckpoint projection).nodeAlive p.node = true :=
    (orsetContains_reconstruct projection false p.node).mpr (h.owners p hp)
  simp only [Function.comp_apply, decodePropKey_encodePropKey hnode.1 (h.cleanProps p hp).1, nodeVisibleV5, halive, if_true]

/-- The reconstructed state shows the projection. -/
theorem projected : visibleProjection (reconstructStateV5FromCheckpoint projection) = projection.sorted := by
  rw [visibleProjection, h.orsetElements_nodes, h.visibleEdges_eq, h.visibleProps_eq]
  rfl

theorem clearlyNamed {edges : Bool} {element : JsString} (hshows : projection.Shows edges element) :
    ClearlyNamed edges element := by
  rintro rfl
  obtain ⟨edge, hedge, heq⟩ := hshows
  exact ⟨edge, (h.cleanEdges edge hedge).clean, heq⟩

end VisibleProjection.WellFormed

end Reconstructed

/-! ### A patch on it -/

/-- A removal lists what its builder saw of the element that it names. -/
theorem removedDots_of_callOps {seen : WarpStateV5 V} {call : BuilderCall V} {ops : List (OpV2 V)}
    (h : CallOps (some seen) call ops) (hclear : ∀ key, orsetContains seen.edgeAlive key = true → ClearlyNamed true key)
    {op : OpV2 V} (hop : op ∈ ops) {edges : Bool} {element : JsString} (helement : op.removedElement edges = some element) :
    op.removedDots edges = observedIn (some seen) edges element := by
  have hnode : ∀ nodeId, (OpV2.nodeRemove (some nodeId) (observedIn (some seen) false nodeId) : OpV2 V).removedElement
      edges = some element → (OpV2.nodeRemove (some nodeId) (observedIn (some seen) false nodeId) : OpV2 V).removedDots
        edges = observedIn (some seen) edges element := by
    intro nodeId hname
    cases edges with
    | false =>
        cases hname
        rfl
    | true => cases hname
  cases h with
  | removeNode nodeId =>
      cases List.mem_singleton.mp hop
      exact hnode nodeId helement
  | cascade nodeId seen' hseen =>
      cases hseen
      rcases List.mem_append.mp hop with hop | hop
      · obtain ⟨key, hkey, rfl⟩ := List.mem_map.mp hop
        have halive := (mem_orsetElements _ _).mp (List.mem_filter.mp hkey).1
        obtain ⟨edge, hclean, rfl⟩ := hclear key halive rfl
        rw [cascadeRemove_key seen hclean] at helement ⊢
        cases edges with
        | false => cases helement
        | true =>
            cases helement
            rfl
      · cases List.mem_singleton.mp hop
        exact hnode nodeId helement
  | removeEdge edge =>
      cases List.mem_singleton.mp hop
      cases edges with
      | false => cases helement
      | true =>
          cases helement
          rfl
  | attachContent nodeId oid size mime =>
      rcases List.mem_cons.mp hop with rfl | hop
      · cases helement
      · rcases List.mem_pair.mp hop with rfl | rfl <;> cases helement
  | attachEdgeContent edge oid size mime =>
      rcases List.mem_cons.mp hop with rfl | hop
      · cases helement
      · rcases List.mem_pair.mp hop with rfl | rfl <;> cases helement
  | _ =>
      cases List.mem_singleton.mp hop
      cases helement

section Written

variable {projection : VisibleProjection V} (h : projection.WellFormed) {calls : List (BuilderCall V)} {entry : PatchEntry V}
  (hbuilt : BuiltBy (some (reconstructStateV5FromCheckpoint projection)) calls entry.patch)

theorem mem_observedIn_reconstruct (edges : Bool) (element encoded : JsString) :
    encoded ∈ observedIn (some (reconstructStateV5FromCheckpoint projection)) edges element ↔
      projection.Shows edges element ∧ encoded = encodeDot syntheticDot := by
  rw [mem_observedIn_some, ← WarpStateV5.view_part, view_reconstruct]
  exact and_iff_left id

include h hbuilt

/-- The patch removes the one dot with any element that the projection shows. -/
theorem removes_iff (edges : Bool) (encoded : JsString) : entry.Removes edges encoded ↔
    encoded = encodeDot syntheticDot ∧ ∃ element, projection.Shows edges element ∧ entry.RemovesElement edges element := by
  constructor
  · rintro ⟨op, hop, hremoved⟩
    obtain ⟨element, hobserved, hnamed⟩ := hbuilt.observed hop hremoved
    obtain ⟨hshows, heq⟩ := (mem_observedIn_reconstruct edges element encoded).mp hobserved
    exact ⟨heq, element, hshows, op, hop, hnamed (h.clearlyNamed hshows)⟩
  · rintro ⟨rfl, element, hshows, raw, hraw, hname⟩
    obtain ⟨call, ops, op, hcall, hop, rfl⟩ := hbuilt.exists_canonical hraw
    obtain ⟨-, hdots, helement⟩ := lowerCanonicalOp_parts op edges
    have hclear : ∀ key, orsetContains (reconstructStateV5FromCheckpoint projection).edgeAlive key = true →
        ClearlyNamed true key :=
      fun key halive => h.clearlyNamed ((orsetContains_reconstruct projection true key).mp halive)
    refine ⟨lowerCanonicalOp op, hraw, ?_⟩
    rw [hdots, removedDots_of_callOps hcall hclear hop (helement ▸ hname)]
    exact (mem_observedIn_reconstruct edges element _).mpr ⟨hshows, rfl⟩

/-- After the patch all that the projection shows is there, or none of it, and with it what is added under a dot that
stays. -/
theorem orsetContains_written {after : WarpStateV5 V} (happlied : join (reconstructStateV5FromCheckpoint projection) entry.patch entry.sha = .ok after)
    (edges : Bool) (element : JsString) : orsetContains (after.part edges) element = true ↔
      ∃ encoded, ((projection.Shows edges element ∧ encoded = encodeDot syntheticDot) ∨ entry.Adds edges (element, encoded)) ∧
        ¬ (encoded = encodeDot syntheticDot ∧
          ∃ other, projection.Shows edges other ∧ entry.RemovesElement edges other) := by
  have hreduced : reduceV5From (reconstructStateV5FromCheckpoint projection) [entry] = .ok after := by
    rw [reduceV5From, List.foldlM_cons]
    change (join _ _ _ >>= _) = _
    rw [happlied]
    rfl
  rw [orsetContains_iff, WarpStateV5.view_part]
  refine exists_congr fun encoded => ?_
  rw [mem_adds_reduceV5From hreduced, mem_tombs_reduceV5From hreduced, ← WarpStateV5.view_part, view_reconstruct]
  simp only [List.mem_singleton, exists_eq_left, ← removes_iff h hbuilt]
  exact and_congr_right fun _ => not_congr (or_iff_right id)

end Written

/-- Of the nodes and of the edges, the patch removes none that are shown, or adds all that it leaves under other dots. -/
def RemovesNoneOrAll (projection : VisibleProjection V) (entry : PatchEntry V) : Prop :=
  ∀ edges, (∀ element, projection.Shows edges element → ¬ entry.RemovesElement edges element) ∨
    ∀ element, Expected projection entry edges element →
      ∃ encoded, encoded ≠ encodeDot syntheticDot ∧ entry.Adds edges (element, encoded)

/-- A reconstructed state is safe for exactly the patches that remove nothing of a kind, or all of it. -/
theorem safeToWriteOn_iff (projection : VisibleProjection V) (calls : List (BuilderCall V)) (entry : PatchEntry V)
    (after : WarpStateV5 V) (h : projection.WellFormed)
    (hbuilt : BuiltBy (some (reconstructStateV5FromCheckpoint projection)) calls entry.patch)
    (happlied : join (reconstructStateV5FromCheckpoint projection) entry.patch entry.sha = .ok after) :
    SafeToWriteOn projection entry after ↔ RemovesNoneOrAll projection entry := by
  have hwritten := orsetContains_written h hbuilt happlied
  constructor
  · intro hsafe edges
    by_cases hremoved : ∃ other, projection.Shows edges other ∧ entry.RemovesElement edges other
    · refine .inr fun element hexpected => ?_
      obtain ⟨encoded, hpresent, hlive⟩ := (hwritten edges element).mp ((hsafe.alive edges element).mpr hexpected)
      have hother : encoded ≠ encodeDot syntheticDot := fun heq => hlive ⟨heq, hremoved⟩
      exact ⟨encoded, hother, hpresent.resolve_left fun hshown => hother hshown.2⟩
    · exact .inl fun element hshows hremoves => hremoved ⟨element, hshows, hremoves⟩
  · intro hcondition
    refine ⟨h.projected, fun edges element => ?_⟩
    rw [hwritten]
    rcases hcondition edges with hnone | hall
    · have hkept : ¬ ∃ other, projection.Shows edges other ∧ entry.RemovesElement edges other := by
        rintro ⟨other, hshows, hremoves⟩
        exact hnone other hshows hremoves
      constructor
      · rintro ⟨encoded, ⟨hshows, -⟩ | hadds, -⟩
        · exact .inr ⟨hshows, hnone element hshows⟩
        · exact .inl ⟨encoded, hadds⟩
      · rintro (⟨encoded, hadds⟩ | ⟨hshows, -⟩)
        · exact ⟨encoded, .inr hadds, fun hdead => hkept hdead.2⟩
        · exact ⟨encodeDot syntheticDot, .inl ⟨hshows, rfl⟩, fun hdead => hkept hdead.2⟩
    · constructor
      · rintro ⟨encoded, ⟨hshows, heq⟩ | hadds, hlive⟩
        · exact .inr ⟨hshows, fun hremoves => hlive ⟨heq, element, hshows, hremoves⟩⟩
        · exact .inl ⟨encoded, hadds⟩
      · intro hexpected
        obtain ⟨encoded, hother, hadds⟩ := hall element hexpected
        exact ⟨encoded, .inr hadds, fun hdead => hother hdead.1⟩

/-- Two nodes. -/
def twoNodes : VisibleProjection Nat := ⟨[js "a", js "b"], [], []⟩

theorem wellFormed_twoNodes : twoNodes.WellFormed where
  nodes := by decide
  edges := List.nodup_nil
  props := List.nodup_nil
  cleanNodes := List.forall_mem_cons.mpr ⟨by decide, List.forall_mem_singleton.mpr (by decide)⟩
  cleanEdges _ h := absurd h List.not_mem_nil
  ends _ h := absurd h List.not_mem_nil
  cleanProps _ h := absurd h List.not_mem_nil
  owners _ h := absurd h List.not_mem_nil

/-- A patch that removes both nodes and adds a third. -/
def replacesNodes : PatchEntry Nat :=
  ⟨⟨2, js "w", 1, .record [(js "w", 1)], [.nodeRemove (some (js "a")) [js "__checkpoint__:1"],
    .nodeRemove (some (js "b")) [js "__checkpoint__:1"], .nodeAdd (js "c") ⟨js "w", 1⟩]⟩, js "cccc"⟩

theorem removesNoneOrAll_replacesNodes : RemovesNoneOrAll twoNodes replacesNodes := by
  intro edges
  cases edges with
  | true =>
      refine .inl fun element hshows => ?_
      obtain ⟨edge, hedge, -⟩ := hshows
      exact absurd hedge List.not_mem_nil
  | false =>
      refine .inr fun element hexpected => ?_
      rcases hexpected with ⟨encoded, op, hop, hadd⟩ | ⟨hshows, hkept⟩
      · refine ⟨encoded, ?_, op, hop, hadd⟩
        rintro rfl
        simp only [replacesNodes, List.mem_cons, List.not_mem_nil, or_false] at hop
        rcases hop with rfl | rfl | rfl
        · cases hadd
        · cases hadd
        · have hdot : encodeDot ⟨js "w", 1⟩ = encodeDot syntheticDot := congrArg Prod.snd (Option.some.inj hadd)
          exact absurd hdot (by decide)
      · refine absurd ?_ hkept
        rcases List.mem_pair.mp hshows with rfl | rfl
        · exact ⟨_, List.mem_cons_self, rfl⟩
        · exact ⟨_, List.mem_cons_of_mem _ List.mem_cons_self, rfl⟩

theorem safeToWriteOn_replacesNodes : ∃ after,
    join (reconstructStateV5FromCheckpoint twoNodes) replacesNodes.patch replacesNodes.sha = .ok after ∧
      SafeToWriteOn twoNodes replacesNodes after := by
  obtain ⟨after, hafter⟩ : ∃ after,
    join (reconstructStateV5FromCheckpoint twoNodes) replacesNodes.patch replacesNodes.sha = .ok after := ⟨_, rfl⟩
  exact ⟨after, hafter, (safeToWriteOn_iff twoNodes [.removeNode (js "a"), .removeNode (js "b"), .addNode (js "c")]
    replacesNodes after wellFormed_twoNodes (builtBy_newBuilder (js "w") .warn (by decide)) hafter).mpr
    removesNoneOrAll_replacesNodes⟩

/-- A patch that removes one of the two nodes. -/
def removesFirst : PatchEntry Nat :=
  ⟨⟨2, js "w", 1, .record [], [.nodeRemove (some (js "a")) [js "__checkpoint__:1"]]⟩, js "aaaa"⟩

/-- The other node goes with it. -/
theorem not_safeToWriteOn_removesFirst : twoNodes.WellFormed ∧
    BuiltBy (some (reconstructStateV5FromCheckpoint twoNodes)) [.removeNode (js "a")] removesFirst.patch ∧
    ∃ after, join (reconstructStateV5FromCheckpoint twoNodes) removesFirst.patch removesFirst.sha = .ok after ∧
      ¬ SafeToWriteOn twoNodes removesFirst after := by
  refine ⟨wellFormed_twoNodes, builtBy_newBuilder (js "w") .warn (by decide), _, rfl, fun hsafe => ?_⟩
  have hkept : Expected twoNodes removesFirst false (js "b") := by
    refine .inr ⟨List.mem_cons_of_mem _ List.mem_cons_self, ?_⟩
    rintro ⟨op, hop, hname⟩
    cases List.mem_singleton.mp hop
    exact absurd (Option.some.inj hname) (by decide)
  have halive := (hsafe.alive false (js "b")).mpr hkept
  exact absurd halive (by decide)

end GitWarp
