import GitWarp.CheckpointIncremental
import GitWarp.GcPolicy
import GitWarp.SyncProtocol

/-! Garbage collection against replication. Compacting a removed dot at one replica forgets the removal
together with the dot; a replica that still holds the dot and has not seen the removal brings it back. The
version vector does not prevent this: it counts the adds a peer has seen, not the removals. -/

namespace GitWarp
open Js ExceptLoops

variable {V : Type}

/-- Two states have the same alive nodes and alive edges. -/
structure SameAlive (a b : WarpStateV5 V) : Prop where
  nodes : ∀ node, orsetContains a.nodeAlive node = orsetContains b.nodeAlive node
  edges : ∀ edge, orsetContains a.edgeAlive edge = orsetContains b.edgeAlive edge

theorem sameAlive_iff (a b : WarpStateV5 V) :
    SameAlive a b ↔ ∀ edges x, (a.view.part edges).Alive x ↔ (b.view.part edges).Alive x := by
  constructor
  · intro h edges x
    rw [← WarpStateV5.view_part, ← WarpStateV5.view_part, ← orsetContains_iff, ← orsetContains_iff]
    cases edges with
    | false => rw [show orsetContains (a.part false) x = orsetContains (b.part false) x from h.nodes x]
    | true => rw [show orsetContains (a.part true) x = orsetContains (b.part true) x from h.edges x]
  · intro h
    exact ⟨fun node => orsetContains_eq_of_view (h false node),
      fun edge => orsetContains_eq_of_view (h true edge)⟩

/-- Collecting `A` at `vv` shows neither after a join with `B` nor after applying the patches of `B`. -/
def GcInvisible (A B : WarpStateV5 V) (vv : VersionVector) (patches : List (SyncPatch V))
    (frontier : Frontier) : Prop :=
  ∃ compacted metrics result, executeGC A vv = .ok (compacted, metrics) ∧
    applySyncResponse patches compacted frontier = .ok result ∧
    SameAlive (joinStates compacted B) (joinStates A B) ∧
    SameAlive result.state (joinStates A B)

/-- Every element that `B` holds under a dot that `A` gives up, without having removed the dot, has
another dot that neither of them removed. -/
def KeepsRemovals (A B : WarpStateV5 V) (vv : VersionVector) : Prop :=
  ∀ edges x, ∀ d ∈ (A.part edges).compactable vv,
    d ∈ (B.part edges).dotsOf x → d ∉ (B.part edges).tombstones →
    ∃ d', (d' ∈ (A.part edges).dotsOf x ∨ d' ∈ (B.part edges).dotsOf x) ∧
      d' ∉ (A.part edges).tombstones ∧ d' ∉ (B.part edges).tombstones

theorem keepsRemovals_iff (A B : WarpStateV5 V) (vv : VersionVector) :
    KeepsRemovals A B vv ↔ ∀ edges x,
      (((A.part edges).view.drop ((A.part edges).compactable vv) ⊔ B.view.part edges).Alive x ↔
        ((A.view ⊔ B.view).part edges).Alive x) := by
  refine forall_congr' fun edges => ?_
  rw [StateView.part_sup, ← WarpStateV5.view_part, ← WarpStateV5.view_part,
    AddWins.alive_drop_sup_iff (compactable_subset_tombs _ vv)]
  simp only [AddWins.alive_sup_iff, ORSet.mem_adds_view, ORSet.mem_tombs_view]

/-- A response that carries the patches of `B` joins what `B` is made of. -/
theorem view_applySyncResponse {PB : List (PatchEntry V)} {B : WarpStateV5 V}
    (hB : reduceV5 PB = .ok B) {patches : List (SyncPatch V)}
    (hpatches : ∀ entry, entry ∈ PB ↔ ∃ p ∈ patches, entry = ⟨p.patch, p.sha⟩)
    {state : WarpStateV5 V} {frontier : Frontier} {result : ApplySyncResult V}
    (h : applySyncResponse patches state frontier = .ok result) :
    result.state.view = state.view ⊔ B.view := by
  obtain ⟨reads, hreads, hstate⟩ := applySyncResponse_state h
  obtain ⟨readsB, hreadsB, hviewB⟩ := view_reduceV5From hB
  rw [hstate, view_foldl_applyRead, hviewB, view_createEmptyStateV5, bot_sup_eq]
  congr 1
  refine joinAll_congr _ fun read => ?_
  rw [mem_of_mapM_ok hreads, mem_of_mapM_ok hreadsB]
  simp only [mem_appliedOrder, hpatches]

/-- Garbage collection is invisible to a join and to a sync exactly when the peer has no element left
whose removal was given up. -/
theorem gcInvisible_iff (PA PB : List (PatchEntry V)) (A B : WarpStateV5 V)
    (hwell : ∀ entry ∈ PA, entry.WellFormed) (hA : reduceV5 PA = .ok A) (hB : reduceV5 PB = .ok B)
    (vv : VersionVector) (patches : List (SyncPatch V)) (frontier : Frontier)
    (hpatches : ∀ entry, entry ∈ PB ↔ ∃ p ∈ patches, entry = ⟨p.patch, p.sha⟩)
    (hwire : ∀ entry ∈ PB, entry.patch.WireOps) :
    GcInvisible A B vv patches frontier ↔ KeepsRemovals A B vv := by
  obtain ⟨⟨compacted, metrics⟩, hgc, hviews, -⟩ :=
    executeGC_ok (storable_of_replay hwell hA).dots vv
  obtain ⟨readsB, hreadsB, -⟩ := reduceV5_eq_ok_iff.mp hB
  have hsync : ∃ result, applySyncResponse patches compacted frontier = .ok result := by
    refine exists_applySyncResponse_ok (fun p hp => ?_) (fun p hp => ?_) compacted frontier
    · exact exists_mapM_ok_iff.mp ⟨readsB, hreadsB⟩ _ ((hpatches _).mpr ⟨p, hp, rfl⟩)
    · exact hwire _ ((hpatches _).mpr ⟨p, hp, rfl⟩)
  obtain ⟨result, hresult⟩ := hsync
  have hview := view_applySyncResponse hB hpatches hresult
  -- both merges show the dropped set joined with the view of `B`
  have hmerged : ∀ state : WarpStateV5 V, state.view = compacted.view ⊔ B.view →
      (SameAlive state (joinStates A B) ↔ KeepsRemovals A B vv) := by
    intro state hstate
    rw [sameAlive_iff, keepsRemovals_iff]
    refine forall_congr' fun edges => forall_congr' fun x => ?_
    rw [hstate, view_joinStates, StateView.part_sup, ← WarpStateV5.view_part compacted, hviews]
  constructor
  · rintro ⟨compacted', metrics', result', hgc', -, hjoin, -⟩
    rw [hgc, Except.ok.injEq, Prod.mk.injEq] at hgc'
    rw [← hgc'.1] at hjoin
    exact (hmerged _ (view_joinStates compacted B)).mp hjoin
  · intro hkeeps
    exact ⟨compacted, metrics, result, hgc, hresult,
      (hmerged _ (view_joinStates compacted B)).mpr hkeeps, (hmerged _ hview).mpr hkeeps⟩

/-! One replica has seen a removal, the other only the add. -/

/-- The removal of the node of `firstPatch (js "a")` by another writer, who has seen the add. -/
def removalByB : PatchEntry Nat :=
  ⟨⟨2, js "b", 2, .record [(js "a", 1)], [.nodeRemove (some (js "n")) [js "a:1"]]⟩, js "bbbb"⟩

def replicaA : List (PatchEntry Nat) := [firstPatch (js "a"), removalByB]

def replicaB : List (PatchEntry Nat) := [firstPatch (js "a")]

/-- The response that brings the patches of the second replica. -/
def responseB : List (SyncPatch Nat) :=
  [⟨js "a", (firstPatch (js "a")).sha, (firstPatch (js "a")).patch⟩]

theorem wellFormed_replicaA : ∀ entry ∈ replicaA, entry.WellFormed := by
  intro entry hentry
  simp only [replicaA, List.mem_cons, List.not_mem_nil, or_false] at hentry
  rcases hentry with rfl | rfl
  · exact wellFormed_firstPatch (by decide)
  · refine ⟨⟨_, rfl⟩, ?_, ?_, ?_⟩
    · intro op hop dot hdot
      simp only [removalByB, List.mem_singleton] at hop
      subst hop
      cases hdot
    · intro op hop encoded hencoded
      simp only [removalByB, List.mem_singleton] at hop
      subst hop
      simp only [OpV2.observedDots, List.mem_singleton] at hencoded
      subst hencoded
      exact ⟨⟨js "a", 1⟩, by decide, by decide⟩
    · intro vv hvv writerId hzero
      have hvalue : vv = JsMap.empty.set (js "a") 1 := by
        cases hvv
        rfl
      rw [hvalue, JsMap.get_set] at hzero
      split at hzero <;> cases hzero

/-- When the peer has seen the removal too, collection is invisible. -/
theorem gcInvisible_replicaA : ∃ A, reduceV5 replicaA = .ok A ∧
    GcInvisible A A (JsMap.empty.set (js "a") 1)
      (replicaA.map fun entry => ⟨entry.patch.writer, entry.sha, entry.patch⟩) JsMap.empty := by
  refine ⟨_, rfl, (gcInvisible_iff replicaA replicaA _ _ wellFormed_replicaA rfl rfl _ _ _ ?_ ?_).mpr ?_⟩
  · intro entry
    simp [replicaA]
  · unfold PatchV2.WireOps
    decide
  · intro edges x d hd _ hlive
    exact absurd hd.1 hlive

/-- The vector of everything in `A`, which both frontiers dominate, forgets the removal of a node that
the other replica still shows: after the merge the node is back. -/
theorem not_gcInvisible_replicaB : ∃ A B vv, reduceV5 replicaA = .ok A ∧ reduceV5 replicaB = .ok B ∧
    (addDots replicaA).Nodup ∧ computeAppliedVV A = .ok vv ∧
    vvDescends A.observedFrontier vv = true ∧ vvDescends B.observedFrontier vv = true ∧
    ¬ GcInvisible A B vv responseB JsMap.empty := by
  refine ⟨_, _, _, rfl, rfl, by decide, rfl, by decide +kernel, by decide +kernel, ?_⟩
  rintro ⟨compacted, metrics, result, hgc, -, hjoin, -⟩
  cases hgc
  have hnode := hjoin.nodes (js "n")
  revert hnode
  decide +kernel

end GitWarp
