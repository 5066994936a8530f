import GitWarp.BuilderCalls

/-! Observed removal, from the call of the builder to the replayed state. A removal lists the dots that its
builder saw; whatever the order of the patches, these are gone, and all other dots stay. -/

namespace GitWarp
open Js ExceptLoops

variable {V : Type}

/-- The patch is what a builder that looks at `state` makes of the calls. -/
def BuiltBy (state : Option (WarpStateV5 V)) (calls : List (BuilderCall V)) (patch : PatchV2 V) : Prop :=
  ∃ (start builder : OpenBuilder V) (lamport : Nat), start.Fresh ∧ start.snapshotState = state ∧
    start.calls calls = some builder ∧ builder.toPatch lamport = .ok patch

/-- The node or, for `edges`, the edge that a call removes. -/
def BuilderCall.removes (edges : Bool) : BuilderCall V → Option JsString
  | .removeNode nodeId => if edges then none else some nodeId
  | .removeEdge edge => if edges then some edge.key else none
  | _ => none

/-- The node or, for `edges`, the edge that a remove operation names. -/
def OpV2.removedElement (edges : Bool) : OpV2 V → Option JsString
  | .nodeRemove node _ => if edges then none else node
  | .edgeRemove (some fromId) (some toId) (some label) _ =>
      if edges then some (encodeEdgeKey fromId toId label) else none
  | _ => none

/-- The operation adds or removes the node or, for `edges`, the edge. -/
def OpV2.Names (op : OpV2 V) (edges : Bool) (element : JsString) : Prop :=
  (∃ encoded, op.addPair edges = some (element, encoded)) ∨ op.removedElement edges = some element

/-- The patch has a remove of `element` that lists the dot. -/
def PatchEntry.RemovesFrom (entry : PatchEntry V) (edges : Bool) (element encoded : JsString) : Prop :=
  ∃ op ∈ entry.patch.ops, op.removedElement edges = some element ∧ encoded ∈ op.removedDots edges

/-- Where the state and the patches both have a dot, it is the dot of one element. -/
def AgreesWith (patches : List (PatchEntry V)) (state : Option (WarpStateV5 V)) : Prop :=
  ∀ edges element element' encoded, encoded ∈ observedIn state edges element →
    ∀ entry ∈ patches, entry.Adds edges (element', encoded) → element' = element

/-! ### The operations of a built patch -/

theorem mem_ops_of_builtBy {state : Option (WarpStateV5 V)} {calls : List (BuilderCall V)} {patch : PatchV2 V}
    (h : BuiltBy state calls patch) : ∃ opss, List.Forall₂ (CallOps state) calls opss ∧
      patch.ops = opss.flatten.map lowerCanonicalOp := by
  obtain ⟨start, builder, lamport, hfresh, rfl, hcalls, hpatch⟩ := h
  obtain ⟨opss, hopss, happended⟩ := OpenBuilder.exists_callsOps hcalls
  refine ⟨opss, hopss, ?_⟩
  rw [(PatchBuilderV2.toPatch_eq_ok hpatch).2.2, happended.ops, hfresh.ops, List.nil_append]

theorem lowerCanonicalOp_parts (op : OpV2 V) (edges : Bool) :
    (lowerCanonicalOp op).addPair edges = op.addPair edges ∧
      (lowerCanonicalOp op).removedDots edges = op.removedDots edges ∧
        (lowerCanonicalOp op).removedElement edges = op.removedElement edges := by
  cases op <;> exact ⟨rfl, rfl, rfl⟩

theorem exists_callOps_of_mem {state : Option (WarpStateV5 V)} {calls : List (BuilderCall V)}
    {opss : List (List (OpV2 V))} (h : List.Forall₂ (CallOps state) calls opss) {op : OpV2 V}
    (hop : op ∈ opss.flatten) : ∃ call ∈ calls, ∃ ops, CallOps state call ops ∧ op ∈ ops := by
  induction h with
  | nil => cases hop
  | cons hhead _ ih =>
      rcases List.mem_append.mp (List.flatten_cons ▸ hop) with hop | hop
      · exact ⟨_, List.mem_cons_self .., _, hhead, hop⟩
      · obtain ⟨call, hcall, ops, hcallOps, hop⟩ := ih hop
        exact ⟨call, List.mem_cons_of_mem _ hcall, ops, hcallOps, hop⟩

/-- An edge key of clean identifiers; a node is any string. -/
def ClearlyNamed (edges : Bool) (element : JsString) : Prop :=
  edges = true → ∃ edge : EdgeRef, edge.Clean ∧ edge.key = element

theorem EdgeRef.NoReservedBytes.clean {edge : EdgeRef} (h : edge.NoReservedBytes) : edge.Clean :=
  ⟨h.1.1, h.2.1.1, h.2.2.1⟩

theorem clearlyNamed_of_callOps {state : Option (WarpStateV5 V)} {call : BuilderCall V} {ops : List (OpV2 V)}
    (h : CallOps state call ops) {op : OpV2 V} (hop : op ∈ ops) {edges : Bool} {element encoded : JsString}
    (hadd : op.addPair edges = some (element, encoded)) : ClearlyNamed edges element := by
  rintro rfl
  cases h with
  | addEdge edge dot hclean =>
      cases List.mem_singleton.mp hop
      cases hadd
      exact ⟨edge, hclean.clean, rfl⟩
  | cascade nodeId seen =>
      rcases List.mem_append.mp hop with hop | hop
      · obtain ⟨key, -, rfl⟩ := List.mem_map.mp hop
        cases hadd
      · cases List.mem_singleton.mp hop
        cases hadd
  | attachContent nodeId oid size mime =>
      rcases List.mem_cons.mp hop with rfl | hop
      · cases hadd
      · rcases List.mem_pair.mp hop with rfl | rfl <;> cases hadd
  | attachEdgeContent edge oid size mime =>
      rcases List.mem_cons.mp hop with rfl | hop
      · cases hadd
      · rcases List.mem_pair.mp hop with rfl | rfl <;> cases hadd
  | _ =>
      cases List.mem_singleton.mp hop
      cases hadd

/-- The names that a cascade reads off a clean key are those of its edge. -/
theorem cascadeRemove_key (state : WarpStateV5 V) {edge : EdgeRef} (hclean : edge.Clean) :
    cascadeRemove state edge.key = .edgeRemove (some edge.fromId) (some edge.toId) (some edge.label)
      (orsetGetDots state.edgeAlive edge.key).elems := by
  obtain ⟨hfrom, hto, hlabel⟩ := hclean
  have hparts : edge.key.splitOn fieldSeparator = [edge.fromId, edge.toId, edge.label] := by
    rw [EdgeRef.key, encodeEdgeKey, splitOn_field hfrom, splitOn_field hto, splitOn_clean hlabel]
  simp only [cascadeRemove, hparts]
  rfl

/-- A dot that a removal lists was observed of an element, which the removal names. -/
theorem observed_of_callOps {state : Option (WarpStateV5 V)} {call : BuilderCall V} {ops : List (OpV2 V)}
    (h : CallOps state call ops) {op : OpV2 V} (hop : op ∈ ops) {edges : Bool} {encoded : JsString}
    (hremoved : encoded ∈ op.removedDots edges) :
    ∃ element, encoded ∈ observedIn state edges element ∧
      (ClearlyNamed edges element → op.removedElement edges = some element) := by
  have hnode : ∀ nodeId, encoded ∈ (OpV2.nodeRemove (some nodeId) (observedIn state false nodeId) :
      OpV2 V).removedDots edges → edges = false ∧ encoded ∈ observedIn state false nodeId := by
    intro nodeId hmem
    cases edges with
    | false => exact ⟨rfl, hmem⟩
    | true => cases hmem
  cases h with
  | removeNode nodeId =>
      cases List.mem_singleton.mp hop
      obtain ⟨rfl, hmem⟩ := hnode nodeId hremoved
      exact ⟨nodeId, hmem, fun _ => rfl⟩
  | cascade nodeId seen hseen =>
      rcases List.mem_append.mp hop with hop | hop
      · obtain ⟨key, -, rfl⟩ := List.mem_map.mp hop
        cases edges with
        | false => cases hremoved
        | true =>
            refine ⟨key, by rw [hseen]; exact hremoved, fun hclear => ?_⟩
            obtain ⟨edge, hclean, rfl⟩ := hclear rfl
            rw [cascadeRemove_key seen hclean]
            rfl
      · cases List.mem_singleton.mp hop
        obtain ⟨rfl, hmem⟩ := hnode nodeId hremoved
        exact ⟨nodeId, hmem, fun _ => rfl⟩
  | removeEdge edge =>
      cases List.mem_singleton.mp hop
      cases edges with
      | false => cases hremoved
      | true => exact ⟨edge.key, hremoved, fun _ => rfl⟩
  | attachContent nodeId oid size mime =>
      rcases List.mem_cons.mp hop with rfl | hop
      · cases hremoved
      · rcases List.mem_pair.mp hop with rfl | rfl <;> cases hremoved
  | attachEdgeContent edge oid size mime =>
      rcases List.mem_cons.mp hop with rfl | hop
      · cases hremoved
      · rcases List.mem_pair.mp hop with rfl | rfl <;> cases hremoved
  | _ =>
      cases List.mem_singleton.mp hop
      cases hremoved

theorem removes_of_callOps {state : Option (WarpStateV5 V)} {call : BuilderCall V} {ops : List (OpV2 V)}
    (h : CallOps state call ops) {edges : Bool} {element : JsString}
    (hremoves : call.removes edges = some element) :
    ∃ op ∈ ops, op.removedElement edges = some element ∧
      op.removedDots edges = observedIn state edges element := by
  cases h with
  | removeNode nodeId =>
      cases edges with
      | false =>
          cases hremoves
          exact ⟨_, List.mem_singleton_self _, rfl, rfl⟩
      | true => cases hremoves
  | cascade nodeId seen =>
      cases edges with
      | false =>
          cases hremoves
          exact ⟨_, List.mem_append_right _ (List.mem_singleton_self _), rfl, rfl⟩
      | true => cases hremoves
  | removeEdge edge =>
      cases edges with
      | false => cases hremoves
      | true =>
          cases hremoves
          exact ⟨_, List.mem_singleton_self _, rfl, rfl⟩
  | _ => cases hremoves

namespace BuiltBy

variable {state : Option (WarpStateV5 V)} {calls : List (BuilderCall V)} {patch : PatchV2 V}

theorem exists_canonical (h : BuiltBy state calls patch) {raw : OpV2 V} (hraw : raw ∈ patch.ops) :
    ∃ call ops op, CallOps state call ops ∧ op ∈ ops ∧ raw = lowerCanonicalOp op := by
  obtain ⟨opss, hopss, hops⟩ := mem_ops_of_builtBy h
  rw [hops] at hraw
  obtain ⟨op, hop, rfl⟩ := List.mem_map.mp hraw
  obtain ⟨call, -, ops, hcall, hop⟩ := exists_callOps_of_mem hopss hop
  exact ⟨call, ops, op, hcall, hop, rfl⟩

theorem clearlyNamed (h : BuiltBy state calls patch) {raw : OpV2 V} (hraw : raw ∈ patch.ops) {edges : Bool}
    {element encoded : JsString} (hadd : raw.addPair edges = some (element, encoded)) :
    ClearlyNamed edges element := by
  obtain ⟨call, ops, op, hcall, hop, rfl⟩ := h.exists_canonical hraw
  rw [(lowerCanonicalOp_parts op edges).1] at hadd
  exact clearlyNamed_of_callOps hcall hop hadd

theorem observed (h : BuiltBy state calls patch) {raw : OpV2 V} (hraw : raw ∈ patch.ops) {edges : Bool}
    {encoded : JsString} (hremoved : encoded ∈ raw.removedDots edges) :
    ∃ element, encoded ∈ observedIn state edges element ∧
      (ClearlyNamed edges element → raw.removedElement edges = some element) := by
  obtain ⟨call, ops, op, hcall, hop, rfl⟩ := h.exists_canonical hraw
  rw [(lowerCanonicalOp_parts op edges).2.1] at hremoved
  rw [(lowerCanonicalOp_parts op edges).2.2]
  exact observed_of_callOps hcall hop hremoved

theorem removes (h : BuiltBy state calls patch) {edges : Bool} {element : JsString}
    (hremoves : ∃ call ∈ calls, call.removes edges = some element) :
    ∃ raw ∈ patch.ops, raw.removedElement edges = some element ∧
      raw.removedDots edges = observedIn state edges element := by
  obtain ⟨opss, hopss, hops⟩ := mem_ops_of_builtBy h
  obtain ⟨call, hcall, hremoves⟩ := hremoves
  obtain ⟨ops, hmem, hcallOps⟩ : ∃ ops ∈ opss, CallOps state call ops := by
    clear h hops
    induction hopss with
    | nil => cases hcall
    | cons hhead _ ih =>
        rcases List.mem_cons.mp hcall with rfl | hcall
        · exact ⟨_, List.mem_cons_self .., hhead⟩
        · obtain ⟨ops, hmem, hcallOps⟩ := ih hcall
          exact ⟨ops, List.mem_cons_of_mem _ hmem, hcallOps⟩
  obtain ⟨op, hop, helement, hdots⟩ := removes_of_callOps hcallOps hremoves
  refine ⟨lowerCanonicalOp op, ?_, ?_, ?_⟩
  · rw [hops]
    exact List.mem_map_of_mem (List.mem_flatten.mpr ⟨ops, hmem, hop⟩)
  · rw [(lowerCanonicalOp_parts op edges).2.2, helement]
  · rw [(lowerCanonicalOp_parts op edges).2.1, hdots]

end BuiltBy

/-! ### The replayed state -/

theorem mem_observedIn_some (state : WarpStateV5 V) (edges : Bool) (element encoded : JsString) :
    encoded ∈ observedIn (some state) edges element ↔
      (element, encoded) ∈ (state.view.part edges).adds ∧ encoded ∉ (state.view.part edges).tombs := by
  rw [← state.view_part]
  exact mem_orsetGetDots (state.part edges) element encoded

section Replay

variable {entries : List (PatchEntry V)} {state : WarpStateV5 V} (h : reduceV5 entries = .ok state)
  (edges : Bool)

include h

theorem mem_adds_reduceV5 (pair : JsString × JsString) :
    pair ∈ (state.view.part edges).adds ↔ ∃ entry ∈ entries, entry.Adds edges pair := by
  rw [mem_adds_reduceV5From h, or_iff_right (not_mem_adds_empty edges pair)]

theorem mem_tombs_reduceV5 (encoded : JsString) :
    encoded ∈ (state.view.part edges).tombs ↔ ∃ entry ∈ entries, entry.Removes edges encoded := by
  rw [mem_tombs_reduceV5From h, or_iff_right (not_mem_tombs_empty edges encoded)]

/-- A replayed element is alive by an add that no patch removes. -/
theorem orsetContains_reduceV5 (element : JsString) :
    orsetContains (state.part edges) element = true ↔
      ∃ encoded, (∃ entry ∈ entries, entry.Adds edges (element, encoded)) ∧
        ∀ entry ∈ entries, ¬ entry.Removes edges encoded := by
  rw [orsetContains_iff, state.view_part]
  refine exists_congr fun encoded => ?_
  rw [mem_adds_reduceV5 h, mem_tombs_reduceV5 h, not_exists]
  exact and_congr_right fun _ => forall_congr' fun entry => not_and

end Replay

/-- What the removal of an element by `q` comes to in the state after `P`, `q` and `Q`. -/
structure ObservedRemove (P : List (PatchEntry V)) (q : PatchEntry V) (Q : List (PatchEntry V))
    (edges : Bool) (element : JsString) (after : WarpStateV5 V) : Prop where
  alive : orsetContains (after.part edges) element = true ↔
    ∃ entry ∈ q :: Q, ∃ encoded, entry.Adds edges (element, encoded) ∧
      ∀ other ∈ q :: Q, ¬ other.RemovesFrom edges element encoded
  /-- No add in `P` keeps the element alive. -/
  gone : ∀ entry ∈ P, ∀ encoded, entry.Adds edges (element, encoded) →
    encoded ∉ orsetGetDots (after.part edges) element
  /-- An add that the builder had not observed stays until it is removed by others. -/
  survives : ∀ entry ∈ q :: Q, ∀ encoded, entry.Adds edges (element, encoded) →
    (∀ other ∈ q :: Q, ¬ other.RemovesFrom edges element encoded) →
      encoded ∈ orsetGetDots (after.part edges) element
  /-- `q` makes no difference to what it does not name. -/
  frame : ∀ order, order.Perm (P ++ Q) → ∃ without, reduceV5 order = .ok without ∧
    ∀ edges' other, (∀ op ∈ q.patch.ops, ¬ op.Names edges' other) →
      orsetContains (after.part edges') other = orsetContains (without.part edges') other

section Removal

variable {P Q : List (PatchEntry V)} {q : PatchEntry V} {calls : List (BuilderCall V)} {s : WarpStateV5 V}
  (hP : ∀ entry ∈ P, ∃ state calls, BuiltBy state calls entry.patch) (hs : reduceV5 P = .ok s)
  (hq : BuiltBy (some s) calls q.patch)
  (hQ : ∀ entry ∈ Q, ∃ state calls, BuiltBy state calls entry.patch ∧ AgreesWith (P ++ q :: Q) state)
  (hdots : (addDots (P ++ q :: Q)).Nodup)

include hP hs hq

/-- What `q` removes was added in `P` to an element that `q` names. -/
theorem named_of_removes {edges : Bool} {encoded : JsString} {op : OpV2 V} (hop : op ∈ q.patch.ops)
    (hremoved : encoded ∈ op.removedDots edges) :
    ∃ element, (∃ entry ∈ P, entry.Adds edges (element, encoded)) ∧ op.removedElement edges = some element := by
  obtain ⟨element, hobserved, hnamed⟩ := hq.observed hop hremoved
  have hadds := (mem_adds_reduceV5 hs edges _).mp ((mem_observedIn_some s edges element encoded).mp hobserved).1
  refine ⟨element, hadds, hnamed ?_⟩
  obtain ⟨entry, hentry, raw, hraw, hadd⟩ := hadds
  obtain ⟨state, calls, hbuilt⟩ := hP entry hentry
  exact hbuilt.clearlyNamed hraw hadd

include hdots

/-- `q` removes none of the later adds. -/
theorem not_removes_later {edges : Bool} {element encoded : JsString} {later : PatchEntry V}
    (hlater : later ∈ q :: Q) (hadds : later.Adds edges (element, encoded)) : ¬ q.Removes edges encoded := by
  rintro ⟨op, hop, hremoved⟩
  obtain ⟨element', ⟨entry, hentry, hadds'⟩, -⟩ := named_of_removes hP hs hq hop hremoved
  exact fresh_of_nodup hdots hentry hlater hadds' hadds

/-- What is not named by `q` is as alive as without it. -/
theorem removal_frame {order without : List (PatchEntry V)} (horder : order.Perm (P ++ q :: Q))
    (hwithout : without.Perm (P ++ Q)) {after : WarpStateV5 V} (hafter : reduceV5 order = .ok after) :
    ∃ state, reduceV5 without = .ok state ∧ ∀ edges other, (∀ op ∈ q.patch.ops, ¬ op.Names edges other) →
      orsetContains (after.part edges) other = orsetContains (state.part edges) other := by
  have hmem : ∀ entry, entry ∈ order ↔ entry = q ∨ entry ∈ without := by
    intro entry
    rw [horder.mem_iff, hwithout.mem_iff, List.mem_append, List.mem_append, List.mem_cons, or_left_comm]
  obtain ⟨state, hstate⟩ : ∃ state, reduceV5 without = .ok state := by
    obtain ⟨reads, hreads, -⟩ := reduceV5_eq_ok_iff.mp hafter
    obtain ⟨reads', hreads'⟩ := exists_mapM_ok_iff.mpr fun entry hentry =>
      exists_mapM_ok_iff.mp ⟨reads, hreads⟩ entry ((hmem entry).mpr (Or.inr hentry))
    exact ⟨_, reduceV5_eq_ok_iff.mpr ⟨reads', hreads', rfl⟩⟩
  refine ⟨state, hstate, fun edges other hother => ?_⟩
  rw [Bool.eq_iff_iff, orsetContains_reduceV5 hafter, orsetContains_reduceV5 hstate]
  have hadds : ∀ encoded, ¬ q.Adds edges (other, encoded) := by
    rintro encoded ⟨op, hop, hadd⟩
    exact hother op hop (Or.inl ⟨encoded, hadd⟩)
  constructor
  · rintro ⟨encoded, ⟨entry, hentry, hadd⟩, hkept⟩
    rcases (hmem entry).mp hentry with rfl | hentry
    · exact absurd hadd (hadds encoded)
    · exact ⟨encoded, ⟨entry, hentry, hadd⟩, fun entry hentry => hkept entry ((hmem entry).mpr (Or.inr hentry))⟩
  · rintro ⟨encoded, ⟨entry, hentry, hadd⟩, hkept⟩
    refine ⟨encoded, ⟨entry, (hmem entry).mpr (Or.inr hentry), hadd⟩, fun remover hremover => ?_⟩
    rcases (hmem remover).mp hremover with rfl | hremover
    · rintro ⟨op, hop, hremoved⟩
      obtain ⟨element, ⟨entry', hentry', hadd'⟩, hnamed⟩ := named_of_removes hP hs hq hop hremoved
      rcases List.mem_append.mp (hwithout.mem_iff.mp hentry) with hin | hin
      · obtain ⟨raw, hraw, hpair⟩ := hadd
        obtain ⟨raw', hraw', hpair'⟩ := hadd'
        obtain ⟨dot, hdot, hencoded⟩ := addPair_dot hpair
        obtain ⟨dot', hdot', hencoded'⟩ := addPair_dot hpair'
        have hsame : dot' = dot := encodeDot_injective (hencoded'.trans hencoded.symm)
        rw [hsame] at hdot'
        have heq := eq_of_addDot hdots (List.mem_append_left _ hin) hraw hdot
          (List.mem_append_left _ hentry') hraw' hdot'
        rw [← heq, hpair, Option.some.injEq, Prod.mk.injEq] at hpair'
        exact hother op hop (Or.inr (hpair'.1 ▸ hnamed))
      · exact fresh_of_nodup hdots hentry' (List.mem_cons_of_mem _ hin) hadd' hadd
    · exact hkept remover hremover

include hQ in
/-- A later add is removed by those alone that list it under its name. -/
theorem removes_later_iff {edges : Bool} {element encoded : JsString} {later remover : PatchEntry V}
    (hlater : later ∈ q :: Q) (hadds : later.Adds edges (element, encoded)) (hremover : remover ∈ q :: Q) :
    remover.Removes edges encoded ↔ remover.RemovesFrom edges element encoded := by
  refine ⟨?_, fun ⟨op, hop, _, hremoved⟩ => ⟨op, hop, hremoved⟩⟩
  intro hremoves
  rcases List.mem_cons.mp hremover with rfl | hin
  · exact absurd hremoves (not_removes_later hP hs hq hdots hlater hadds)
  · obtain ⟨op, hop, hremoved⟩ := hremoves
    obtain ⟨state, calls', hbuilt, hagrees⟩ := hQ remover hin
    obtain ⟨element', hobserved, hnamed⟩ := hbuilt.observed hop hremoved
    have heq := hagrees edges element' element encoded hobserved later (List.mem_append_right _ hlater) hadds
    subst heq
    refine ⟨op, hop, hnamed ?_, hremoved⟩
    obtain ⟨raw, hraw, hpair⟩ := hadds
    rcases List.mem_cons.mp hlater with rfl | hlater
    · exact hq.clearlyNamed hraw hpair
    · obtain ⟨state', calls'', hbuilt', -⟩ := hQ later hlater
      exact hbuilt'.clearlyNamed hraw hpair

end Removal

/-- `P` has been replayed to the state that the builder of `q` looks at, and `q` and `Q` add under dots that no
patch of `P` knows. Then the removal of an element by `q` removes what it observed and no more. -/
theorem observedRemove (P Q : List (PatchEntry V)) (q : PatchEntry V) (calls : List (BuilderCall V))
    (s after : WarpStateV5 V) (order : List (PatchEntry V)) (edges : Bool) (element : JsString)
    (hP : ∀ entry ∈ P, ∃ state calls, BuiltBy state calls entry.patch) (hs : reduceV5 P = .ok s)
    (hq : BuiltBy (some s) calls q.patch) (hremoves : ∃ call ∈ calls, call.removes edges = some element)
    (hQ : ∀ entry ∈ Q, ∃ state calls, BuiltBy state calls entry.patch ∧ AgreesWith (P ++ q :: Q) state)
    (hdots : (addDots (P ++ q :: Q)).Nodup)
    (hfresh : ∀ later ∈ q :: Q, ∀ dot ∈ later.patch.addDots, ∀ entry ∈ P, ∀ edges,
      ¬ entry.Removes edges (encodeDot dot))
    (horder : order.Perm (P ++ q :: Q)) (hafter : reduceV5 order = .ok after) :
    ObservedRemove P q Q edges element after := by
  have hmem : ∀ entry, entry ∈ order ↔ entry ∈ P ∨ entry ∈ q :: Q := by
    intro entry
    rw [horder.mem_iff, List.mem_append]
  have hgone : ∀ entry ∈ P, ∀ encoded, entry.Adds edges (element, encoded) →
      encoded ∈ (after.view.part edges).tombs := by
    intro entry hentry encoded hadds
    rw [mem_tombs_reduceV5 hafter]
    by_cases htomb : encoded ∈ (s.view.part edges).tombs
    · obtain ⟨remover, hremover, hremoved⟩ := (mem_tombs_reduceV5 hs edges encoded).mp htomb
      exact ⟨remover, (hmem remover).mpr (Or.inl hremover), hremoved⟩
    · obtain ⟨op, hop, -, hlisted⟩ := hq.removes hremoves
      have hobserved : encoded ∈ observedIn (some s) edges element :=
        (mem_observedIn_some s edges element encoded).mpr
          ⟨(mem_adds_reduceV5 hs edges _).mpr ⟨entry, hentry, hadds⟩, htomb⟩
      exact ⟨q, (hmem q).mpr (Or.inr (List.mem_cons_self ..)), op, hop, hlisted ▸ hobserved⟩
  have hkept : ∀ later ∈ q :: Q, ∀ encoded, later.Adds edges (element, encoded) →
      ((∀ entry ∈ order, ¬ entry.Removes edges encoded) ↔
        ∀ other ∈ q :: Q, ¬ other.RemovesFrom edges element encoded) := by
    intro later hlater encoded hadds
    have hiff : ∀ remover ∈ q :: Q, remover.Removes edges encoded ↔ remover.RemovesFrom edges element encoded :=
      fun remover => removes_later_iff hP hs hq hQ hdots hlater hadds
    constructor
    · intro hkept other hother hremoved
      exact hkept other ((hmem other).mpr (Or.inr hother)) ((hiff other hother).mpr hremoved)
    · intro hkept entry hentry hremoved
      rcases (hmem entry).mp hentry with hin | hin
      · obtain ⟨dot, hdot, hencoded⟩ := hadds.mem_addDots
        exact hfresh later hlater dot hdot entry hin edges (hencoded ▸ hremoved)
      · exact hkept entry hin ((hiff entry hin).mp hremoved)
  refine ⟨?_, fun entry hentry encoded hadds => ?_, fun later hlater encoded hadds hothers => ?_,
    fun without hwithout => removal_frame hP hs hq hdots horder hwithout hafter⟩
  · rw [orsetContains_reduceV5 hafter]
    constructor
    · rintro ⟨encoded, ⟨entry, hentry, hadds⟩, hremoved⟩
      rcases (hmem entry).mp hentry with hin | hin
      · obtain ⟨remover, hremover, hremoves⟩ := (mem_tombs_reduceV5 hafter edges encoded).mp
          (hgone entry hin encoded hadds)
        exact absurd hremoves (hremoved remover hremover)
      · exact ⟨entry, hin, encoded, hadds, (hkept entry hin encoded hadds).mp hremoved⟩
    · rintro ⟨entry, hin, encoded, hadds, hothers⟩
      exact ⟨encoded, ⟨entry, (hmem entry).mpr (Or.inr hin), hadds⟩, (hkept entry hin encoded hadds).mpr hothers⟩
  · rw [mem_orsetGetDots]
    intro hdot
    have htomb := hgone entry hentry encoded hadds
    rw [← after.view_part] at htomb
    exact hdot.2 htomb
  · rw [mem_orsetGetDots]
    refine ⟨?_, fun htomb => ?_⟩
    · rw [← ORSet.mem_adds_view, after.view_part]
      exact (mem_adds_reduceV5 hafter edges _).mpr ⟨later, (hmem later).mpr (Or.inr hlater), hadds⟩
    · rw [← ORSet.mem_tombs_view, after.view_part, mem_tombs_reduceV5 hafter] at htomb
      obtain ⟨remover, hremover, hremoves⟩ := htomb
      exact (hkept later hlater encoded hadds).mpr hothers remover hremover hremoves

/-- A builder of `writerId` that has counted nothing yet. -/
def newBuilder (writerId : JsString) (state : Option (WarpStateV5 Nat)) (policy : DeletePolicy) :
    OpenBuilder Nat where
  graph := 0
  writerId := writerId
  lamport := 1
  vv := createVersionVector
  expectedParentSha := none
  ops := []
  phase := .building
  snapshotState := state
  onDeleteWithData := policy
  nodesAdded := JsSet.empty
  edgesAdded := JsSet.empty

theorem builtBy_newBuilder (writerId : JsString) (policy : DeletePolicy) {state : Option (WarpStateV5 Nat)}
    {calls : List (BuilderCall Nat)} {patch : PatchV2 Nat}
    (h : ((newBuilder writerId state policy).calls calls).bind (fun builder => (builder.toPatch 1).toOption) =
      some patch) : BuiltBy state calls patch := by
  obtain ⟨builder, hcalls, hpatch⟩ := Option.bind_eq_some_iff.mp h
  refine ⟨newBuilder writerId state policy, builder, 1, ⟨rfl, rfl, rfl, rfl⟩, rfl, hcalls, ?_⟩
  cases hok : builder.toPatch 1 with
  | error err => rw [hok] at hpatch; cases hpatch
  | ok made =>
      rw [hok] at hpatch
      cases hpatch
      rfl

/-- `a` adds the node `m`. -/
def addedByA : PatchEntry Nat :=
  ⟨⟨2, js "a", 1, .record [(js "a", 1)], [.nodeAdd (js "m") ⟨js "a", 1⟩]⟩, js "aaaa"⟩

/-- `b` removes it, and adds `n`. -/
def removedByB : PatchEntry Nat :=
  ⟨⟨2, js "b", 1, .record [(js "b", 1)], [.nodeRemove (some (js "m")) [js "a:1"],
    .nodeAdd (js "n") ⟨js "b", 1⟩]⟩, js "bbbb"⟩

/-- `c` has seen nothing and adds `m` too. -/
def addedByC : PatchEntry Nat :=
  ⟨⟨2, js "c", 1, .record [(js "c", 1)], [.nodeAdd (js "m") ⟨js "c", 1⟩]⟩, js "cccc"⟩

/-- The add of `c` outlives the removal by `b`, also where it comes first. -/
theorem observedRemove_small : ∃ s after, reduceV5 [addedByA] = .ok s ∧
    reduceV5 [addedByC, removedByB, addedByA] = .ok after ∧
    ObservedRemove [addedByA] removedByB [addedByC] false (js "m") after := by
  obtain ⟨s, hs⟩ : ∃ s, reduceV5 [addedByA] = .ok s := ⟨_, rfl⟩
  obtain ⟨after, hafter⟩ : ∃ after, reduceV5 [addedByC, removedByB, addedByA] = .ok after := ⟨_, rfl⟩
  refine ⟨s, after, hs, hafter, observedRemove [addedByA] [addedByC] removedByB
    [.removeNode (js "m"), .addNode (js "n")] s after [addedByC, removedByB, addedByA] false (js "m")
    ?_ hs ?_ ⟨.removeNode (js "m"), List.mem_cons_self .., rfl⟩ ?_ (by decide) ?_ ?_ hafter⟩
  · intro entry hentry
    cases List.mem_singleton.mp hentry
    exact ⟨none, [.addNode (js "m")], builtBy_newBuilder (js "a") .warn (by decide)⟩
  · cases hs
    exact builtBy_newBuilder (js "b") .warn (by decide)
  · intro entry hentry
    cases List.mem_singleton.mp hentry
    refine ⟨none, [.addNode (js "m")], builtBy_newBuilder (js "c") .warn (by decide), ?_⟩
    intro edges element element' encoded hobserved
    cases hobserved
  · intro later hlater dot _ entry hentry edges hremoves
    cases List.mem_singleton.mp hentry
    obtain ⟨op, hop, hremoved⟩ := hremoves
    cases List.mem_singleton.mp hop
    cases hremoved
  · exact List.reverse_perm [addedByA, removedByB, addedByC]

/-- The same of patches and builders that only meet the two conditions. -/
def RemovesObserved (onP : PatchEntry Nat → Prop) (onQ : List (PatchEntry Nat) → Option (WarpStateV5 Nat) → Prop) : Prop :=
  ∀ (P Q : List (PatchEntry Nat)) (q : PatchEntry Nat) (calls : List (BuilderCall Nat)) (s after : WarpStateV5 Nat)
    (order : List (PatchEntry Nat)) (edges : Bool) (element : JsString), (∀ entry ∈ P, onP entry) → reduceV5 P = .ok s →
    BuiltBy (some s) calls q.patch → (∃ call ∈ calls, call.removes edges = some element) →
    (∀ entry ∈ Q, ∃ state calls, BuiltBy state calls entry.patch ∧ onQ (P ++ q :: Q) state) →
    (addDots (P ++ q :: Q)).Nodup →
    (∀ later ∈ q :: Q, ∀ dot ∈ later.patch.addDots, ∀ entry ∈ P, ∀ edges, ¬ entry.Removes edges (encodeDot dot)) →
    order.Perm (P ++ q :: Q) → reduceV5 order = .ok after → ObservedRemove P q Q edges element after

/-- In another graph some `c` has added `x` under the dot of `addedByC`, and `d` removes `x` there. -/
def addedElsewhere : PatchEntry Nat :=
  ⟨⟨2, js "c", 1, .record [(js "c", 1)], [.nodeAdd (js "x") ⟨js "c", 1⟩]⟩, js "eeee"⟩

def removedByD : PatchEntry Nat :=
  ⟨⟨2, js "d", 1, .record [], [.nodeRemove (some (js "x")) [js "c:1"]]⟩, js "dddd"⟩

/-- An edge to a node whose name no builder takes, and the removal of its other node, which cascades to it. -/
def addedByHand : PatchEntry Nat :=
  ⟨⟨2, js "a", 1, .record [(js "a", 1)],
    [.edgeAdd ⟨js "x", js "y" ++ fieldSeparator :: js "l", js "k"⟩ ⟨js "a", 1⟩]⟩, js "aaaa"⟩

def cascadedByB : PatchEntry Nat :=
  ⟨⟨2, js "b", 1, .record [], [.edgeRemove (some (js "x")) (some (js "y")) (some (js "l")) [js "a:1"],
    .nodeRemove (some (js "x")) []]⟩, js "bbbb"⟩

/-- A builder that looks at a state with another element under a dot of the patches removes what it does not name, and so
does one where a patch was not built. -/
theorem not_removesObserved : ¬ RemovesObserved (fun entry => ∃ state calls, BuiltBy state calls entry.patch) (fun _ _ => True) ∧
    ¬ RemovesObserved (fun _ => True) AgreesWith := by
  constructor
  · intro h
    obtain ⟨s, hs⟩ : ∃ s, reduceV5 [addedByA] = .ok s := ⟨_, rfl⟩
    obtain ⟨t, ht⟩ : ∃ t, reduceV5 [addedElsewhere] = .ok t := ⟨_, rfl⟩
    obtain ⟨after, hafter⟩ : ∃ after, reduceV5 [addedByA, removedByB, addedByC, removedByD] = .ok after := ⟨_, rfl⟩
    have hobserved := h [addedByA] [addedByC, removedByD] removedByB [.removeNode (js "m"), .addNode (js "n")] s after
      [addedByA, removedByB, addedByC, removedByD] false (js "m")
      (fun entry hentry => by
        cases List.mem_singleton.mp hentry
        exact ⟨none, [.addNode (js "m")], builtBy_newBuilder (js "a") .warn (by decide)⟩) hs
      (by
        cases hs
        exact builtBy_newBuilder (js "b") .warn (by decide))
      ⟨.removeNode (js "m"), List.mem_cons_self .., rfl⟩
      (fun entry hentry => by
        rcases List.mem_pair.mp hentry with rfl | rfl
        · exact ⟨none, [.addNode (js "m")], builtBy_newBuilder (js "c") .warn (by decide), trivial⟩
        · refine ⟨some t, [.removeNode (js "x")], builtBy_newBuilder (js "d") .warn ?_, trivial⟩
          cases ht
          decide)
      (by decide)
      (fun later _ dot _ entry hentry edges hremoves => by
        cases List.mem_singleton.mp hentry
        obtain ⟨op, hop, hremoved⟩ := hremoves
        cases List.mem_singleton.mp hop
        cases hremoved) (List.Perm.refl _) hafter
    have hdead : orsetContains (after.part false) (js "m") = false := by
      cases hafter
      decide
    rw [hobserved.alive.mpr ⟨addedByC, by simp, js "c:1", ⟨_, List.mem_singleton_self _, rfl⟩, ?_⟩] at hdead
    · cases hdead
    · rintro other hother ⟨op, hop, hnamed, hlisted⟩
      have hnone : ∀ other ∈ [removedByB, addedByC, removedByD], ∀ op ∈ other.patch.ops,
          op.removedElement false = some (js "m") → js "c:1" ∉ op.removedDots false := by decide
      exact hnone other hother op hop hnamed hlisted
  · intro h
    obtain ⟨s, hs⟩ : ∃ s, reduceV5 [addedByHand] = .ok s := ⟨_, rfl⟩
    obtain ⟨after, hafter⟩ : ∃ after, reduceV5 [addedByHand, cascadedByB] = .ok after := ⟨_, rfl⟩
    have hobserved := h [addedByHand] [] cascadedByB [.removeNode (js "x")] s after [addedByHand, cascadedByB] false
      (js "x") (fun _ _ => trivial) hs
      (by
        cases hs
        exact builtBy_newBuilder (js "b") .cascade (by decide))
      ⟨.removeNode (js "x"), List.mem_cons_self .., rfl⟩ (fun entry hentry => absurd hentry List.not_mem_nil)
      (by decide)
      (fun later hlater dot hdot => by
        cases List.mem_singleton.mp hlater
        exact absurd hdot List.not_mem_nil) (List.Perm.refl _) hafter
    obtain ⟨without, hwithout, hframe⟩ := hobserved.frame [addedByHand] (List.Perm.refl _)
    cases hs.symm.trans hwithout
    have hunnamed : ∀ op ∈ cascadedByB.patch.ops,
        ¬ op.Names true (EdgeRef.key ⟨js "x", js "y" ++ fieldSeparator :: js "l", js "k"⟩) := by
      intro op hop hnames
      rcases List.mem_pair.mp hop with rfl | rfl
      · rcases hnames with ⟨encoded, hadds⟩ | hremoved
        · cases hadds
        · exact absurd hremoved (by decide)
      · rcases hnames with ⟨encoded, hadds⟩ | hremoved
        · cases hadds
        · cases hremoved
    have hkey := hframe true _ hunnamed
    have hdead : orsetContains (after.part true) (EdgeRef.key ⟨js "x", js "y" ++ fieldSeparator :: js "l", js "k"⟩) =
        false := by
      cases hafter
      decide
    have halive : orsetContains (s.part true) (EdgeRef.key ⟨js "x", js "y" ++ fieldSeparator :: js "l", js "k"⟩) =
        true := by
      cases hs
      decide
    rw [hdead, halive] at hkey
    cases hkey

end GitWarp
