import GitWarp.SyncExchange

/-! Two replicas that hold prefixes of the same chains. A pull brings the requester to the later of the two
positions on every chain, so after a pull in each direction the replicas are the same. What is in the way
is a writer named `__proto__`, whose tip a request loses; an ancestry check that fails on a tip the responder
does not have; and operations that may not be sent. -/

namespace GitWarp
open Js ExceptLoops

variable {V : Type}

/-! ### Replays of sets of patches -/

/-- The state is a replay of the patches in `S`, in some order and however often. -/
def WarpStateV5.IsReplayOf (state : WarpStateV5 V) (S : PatchEntry V → Prop) : Prop :=
  ∃ reads : List (ReadPatch V), (∀ read, read ∈ reads ↔ ∃ entry, S entry ∧ readPatch entry = .ok read) ∧
    (∀ entry, S entry → ∃ read, readPatch entry = .ok read) ∧
    state = reads.foldl applyRead createEmptyStateV5

namespace WarpStateV5

variable {S S' : PatchEntry V → Prop} {state state' : WarpStateV5 V}

theorem isReplayOf_of_reduceV5 {entries : List (PatchEntry V)} (h : reduceV5 entries = .ok state) :
    state.IsReplayOf fun entry => entry ∈ entries := by
  obtain ⟨reads, hreads, rfl⟩ := reduceV5_eq_ok_iff.mp h
  refine ⟨reads, mem_of_mapM_ok hreads, fun entry hentry => ?_, rfl⟩
  exact exists_mapM_ok_iff.mp ⟨reads, hreads⟩ entry hentry

theorem IsReplayOf.congr (h : state.IsReplayOf S) (hsame : ∀ entry, S entry ↔ S' entry) :
    state.IsReplayOf S' := by
  obtain ⟨reads, hreads, hreadable, hstate⟩ := h
  refine ⟨reads, fun read => ?_, fun entry hentry => hreadable entry ((hsame entry).mpr hentry), hstate⟩
  rw [hreads]
  exact exists_congr fun entry => and_congr_left fun _ => hsame entry

/-- A list of the patches replays without an error. -/
theorem IsReplayOf.exists_reduceV5 {entries : List (PatchEntry V)}
    (h : state.IsReplayOf fun entry => entry ∈ entries) : ∃ replay, reduceV5 entries = .ok replay := by
  obtain ⟨-, -, hreadable, -⟩ := h
  obtain ⟨reads, hreads⟩ := exists_mapM_ok_iff.mpr hreadable
  exact ⟨_, reduceV5_eq_ok_iff.mpr ⟨reads, hreads, rfl⟩⟩

theorem IsReplayOf.replayed {entries : List (PatchEntry V)}
    (h : state.IsReplayOf fun entry => entry ∈ entries) : Replayed entries state := by
  obtain ⟨reads, hreads, -, rfl⟩ := h
  obtain ⟨hnodes, hedges⟩ := filled_foldl_applyRead reads
    (createEmptyStateV5 : WarpStateV5 V) ⟨filled_createORSet, filled_createORSet⟩
  refine ⟨hnodes, hedges, registersIn_foldl_applyRead ?_ fun key register hget => nomatch hget⟩
  intro read hread op eventId hmem key value hwrite
  obtain ⟨entry, hentry, hok⟩ := (hreads read).mp hread
  exact ⟨entry, hentry, read, hok, op, key, hmem, hwrite⟩

/-- Two replays of the same patches are the same. -/
theorem IsReplayOf.same {entries : List (PatchEntry V)} (hshas : ConsistentShas entries)
    (h : state.IsReplayOf fun entry => entry ∈ entries)
    (h' : state'.IsReplayOf fun entry => entry ∈ entries) : state.Same state' := by
  refine h.replayed.same_of_view_eq hshas h'.replayed ?_
  obtain ⟨reads, hreads, -, rfl⟩ := h
  obtain ⟨reads', hreads', -, rfl⟩ := h'
  rw [view_foldl_applyRead, view_foldl_applyRead]
  refine congrArg _ (joinAll_congr _ fun read => ?_)
  rw [hreads, hreads']

/-- Applying a response replays the patches it was made from on top. -/
theorem IsReplayOf.applySyncResponse (h : state.IsReplayOf S) {patches : List (SyncPatch V)}
    {frontier : Frontier} {result : ApplySyncResult V}
    (hresult : applySyncResponse patches state frontier = .ok result)
    (hpatches : ∀ sent, (∃ p ∈ patches, sent = PatchEntry.mk p.patch p.sha) ↔
      ∃ entry, S' entry ∧ sent = entry.normalized)
    (hreadable' : ∀ entry, S' entry → ∃ read, readPatch entry = .ok read) :
    result.state.IsReplayOf fun entry => S entry ∨ S' entry := by
  obtain ⟨reads, hreads, hreadable, rfl⟩ := h
  obtain ⟨applied, happlied, hstate⟩ := applySyncResponse_state hresult
  refine ⟨reads ++ applied, fun read => ?_, ?_, ?_⟩
  · rw [List.mem_append, hreads, mem_of_mapM_ok happlied]
    have happlied : (∃ entry ∈ appliedOrder patches, readPatch entry = .ok read) ↔
        ∃ entry, S' entry ∧ readPatch entry = .ok read := by
      constructor
      · rintro ⟨sent, hsent, hread⟩
        obtain ⟨entry, hentry, rfl⟩ := (hpatches sent).mp ((mem_appliedOrder patches sent).mp hsent)
        obtain ⟨read', hread'⟩ := hreadable' entry hentry
        rw [readPatch_normalized hread', Except.ok.injEq] at hread
        exact ⟨entry, hentry, hread ▸ hread'⟩
      · rintro ⟨entry, hentry, hread⟩
        exact ⟨entry.normalized, (mem_appliedOrder patches _).mpr ((hpatches _).mpr ⟨entry, hentry, rfl⟩),
          readPatch_normalized hread⟩
    rw [happlied]
    constructor
    · rintro (⟨entry, hentry, hread⟩ | ⟨entry, hentry, hread⟩)
      · exact ⟨entry, Or.inl hentry, hread⟩
      · exact ⟨entry, Or.inr hentry, hread⟩
    · rintro ⟨entry, hentry | hentry, hread⟩
      · exact Or.inl ⟨entry, hentry, hread⟩
      · exact Or.inr ⟨entry, hentry, hread⟩
  · rintro entry (hentry | hentry)
    · exact hreadable entry hentry
    · exact hreadable' entry hentry
  · rw [hstate, List.foldl_append]

end WarpStateV5

/-! ### One pull -/

/-- The replica has the first `position w` patches of the chain of each writer `w`. -/
structure ReplicaAt (chain : JsString → List (PatchEntry V)) (position : JsString → Nat)
    (replica : Replica V) : Prop where
  inChain : ∀ writerId, position writerId ≤ (chain writerId).length
  frontier : ∀ writerId, replica.frontier.get writerId = tipAt (chain writerId) (position writerId)
  state : replica.state.IsReplayOf fun entry =>
    ∃ writerId, entry ∈ (chain writerId).take (position writerId)

/-- The patches of a writer from the position `start` on up to `stop`, as they are sent. -/
def missing (chain : JsString → List (PatchEntry V)) (start stop : JsString → Nat) (writerId : JsString) :
    List (SyncPatch V) :=
  (((chain writerId).take (stop writerId)).drop (start writerId)).map fun entry =>
    ⟨writerId, entry.sha, entry.normalized.patch⟩

theorem missing_eq_nil {chain : JsString → List (PatchEntry V)} {start stop : JsString → Nat}
    {writerId : JsString} (h : stop writerId ≤ start writerId) : missing chain start stop writerId = [] := by
  unfold missing
  rw [List.drop_eq_nil_of_le ((List.length_take_le _ _).trans h), List.map_nil]

/-- A writer's share of what is collected writer by writer. -/
theorem filter_flatMap_writers {keys : List JsString} (hnodup : keys.Nodup)
    {share : JsString → List (SyncPatch V)} (hshare : ∀ key, ∀ p ∈ share key, p.writerId = key)
    (writerId : JsString) :
    (keys.flatMap share).filter (fun p => p.writerId = writerId) =
      if writerId ∈ keys then share writerId else [] := by
  have hsame : (share writerId).filter (fun p => p.writerId = writerId) = share writerId :=
    List.filter_eq_self.mpr fun p hp => decide_eq_true (hshare writerId p hp)
  have hother : ∀ key, key ≠ writerId → (share key).filter (fun p => p.writerId = writerId) = [] :=
    fun key hne => List.filter_eq_nil_iff.mpr fun p hp heq =>
      hne ((hshare key p hp).symm.trans (of_decide_eq_true heq))
  induction keys with
  | nil => rfl
  | cons key rest ih =>
      rw [List.nodup_cons] at hnodup
      rw [List.flatMap_cons, List.filter_append, ih hnodup.2]
      by_cases hkey : key = writerId
      · subst hkey
        rw [hsame, if_neg hnodup.1, List.append_nil, if_pos (List.mem_cons_self ..)]
      · rw [hother key hkey, List.nil_append]
        have hne : ¬ writerId = key := fun heq => hkey heq.symm
        simp only [List.mem_cons, hne, false_or]

section Pull

variable {chain : JsString → List (PatchEntry V)} {theirs ours : JsString → Nat} {requester responder : Replica V}
  (hchain : LinearChains chain) (hrequester : ReplicaAt chain theirs requester)
  (hresponder : ReplicaAt chain ours responder)

include hrequester hresponder

/-- The delta has the writers at which the two replicas differ. -/
theorem mem_needed {requested : Frontier}
    (hrequested : ∀ writerId, requested.get writerId = requester.frontier.get writerId)
    (hchain : LinearChains chain) (writerId : JsString) (range : SyncRange) :
    (writerId, range) ∈ (neededFrom requested responder.frontier).1.entries ↔
      theirs writerId ≠ ours writerId ∧ ∃ tip, tipAt (chain writerId) (ours writerId) = some tip ∧
        range = ⟨tipAt (chain writerId) (theirs writerId), tip⟩ := by
  rw [entries_neededFrom, List.mem_filterMap]
  have htips : ∀ tip, tipAt (chain writerId) (ours writerId) = some tip →
      (tipAt (chain writerId) (theirs writerId) = some tip ↔ theirs writerId = ours writerId) := by
    intro tip htip
    rw [← htip]
    exact ⟨fun heq => tipAt_injective (hchain.nodup writerId) (hrequester.inChain writerId)
      (hresponder.inChain writerId) heq, fun heq => by rw [heq]⟩
  have hmine : requested.get writerId = tipAt (chain writerId) (theirs writerId) := by
    rw [hrequested, hrequester.frontier]
  constructor
  · rintro ⟨⟨writer, tip⟩, hentry, hrange⟩
    have hwriter : writer = writerId := by
      unfold rangeFor at hrange
      split at hrange
      · cases hrange
        rfl
      · split at hrange
        · cases hrange
          rfl
        · cases hrange
    subst hwriter
    have htip : tipAt (chain writer) (ours writer) = some tip := by
      rw [← hresponder.frontier]
      exact (JsMap.get_eq_some_iff _ _ _).mpr hentry
    unfold rangeFor at hrange
    simp only [hmine] at hrange
    cases hsha : tipAt (chain writer) (theirs writer) with
    | none =>
        simp only [hsha, Option.some.injEq, Prod.mk.injEq, true_and] at hrange
        refine ⟨fun heq => ?_, tip, htip, hrange.symm⟩
        rw [heq, htip] at hsha
        cases hsha
    | some sha =>
        simp only [hsha, ne_eq, ite_not] at hrange
        split at hrange
        · cases hrange
        · rename_i hne
          simp only [Option.some.injEq, Prod.mk.injEq, true_and] at hrange
          refine ⟨fun heq => hne ?_, tip, htip, hrange.symm⟩
          have := (htips tip htip).mpr heq
          rw [hsha, Option.some.injEq] at this
          exact this
  · rintro ⟨hne, tip, htip, rfl⟩
    refine ⟨(writerId, tip), ?_, ?_⟩
    · rw [← JsMap.get_eq_some_iff, hresponder.frontier, htip]
    · unfold rangeFor
      simp only [hmine]
      cases hsha : tipAt (chain writerId) (theirs writerId) with
      | none => rfl
      | some sha =>
          have hdiffer : sha ≠ tip := by
            rintro rfl
            exact hne ((htips sha htip).mp hsha)
          simp only [ne_eq, hdiffer, not_false_eq_true, if_true]

/-- A request is answered with the patches that the requester lacks. -/
theorem request_eq_ok (hchain : LinearChains chain) (hproto : theirs protoKey = 0)
    (hgit : responder.persistence.AnswersMergeBase)
    (hstored : ∀ writerId, theirs writerId ≠ ours writerId →
      Stored responder.persistence.store (chain writerId) (ours writerId))
    (hknown : ∀ writerId sha, 0 < ours writerId → ours writerId < theirs writerId →
      tipAt (chain writerId) (theirs writerId) = some sha → responder.persistence.mergeBase.isSome = true →
      sha ∈ responder.persistence.store.shas) :
    ∃ response, requester.request responder = .ok response ∧
      ∀ writerId, response.patches.filter (fun p => p.writerId = writerId) = missing chain theirs ours writerId := by
  let requested := objectToFrontier (createSyncRequest requester.frontier).frontier
  have hrequested : ∀ writerId, requested.get writerId = requester.frontier.get writerId := by
    intro writerId
    refine (get_sentFrontier requester.frontier writerId).trans ?_
    split
    · rename_i hwriter
      rw [hrequester.frontier, hwriter, hproto]
      rfl
    · rfl
  have hneeded := mem_needed hrequester hresponder hrequested hchain
  have hreadable : ∀ writerId, ∀ entry ∈ (chain writerId).take (ours writerId),
      ∃ read, readPatch entry = .ok read := by
    obtain ⟨-, -, hreadable, -⟩ := hresponder.state
    exact fun writerId entry hentry => hreadable entry ⟨writerId, hentry⟩
  have hround : ∀ needed ∈ (neededFrom requested responder.frontier).1.entries,
      ∃ loaded, loadWriterRange responder.persistence needed = .ok loaded ∧
        loaded.1 = missing chain theirs ours needed.1 := by
    rintro ⟨writerId, range⟩ hmem
    obtain ⟨hne, tip, htip, rfl⟩ := (hneeded writerId range).mp hmem
    rcases Nat.lt_or_gt_of_ne hne with hlt | hgt
    · exact ⟨_, loadWriterRange_behind hgit (hchain.nodup writerId) (hchain.named writerId)
        (hstored writerId hne) (hreadable writerId) (hrequester.inChain writerId)
        (hresponder.inChain writerId) htip writerId hlt, rfl⟩
    · have hpos : 0 < ours writerId := by
        obtain ⟨k, entry, hk, -, -⟩ := tipAt_eq_some htip
        omega
      obtain ⟨skipped, hskipped⟩ := loadWriterRange_ahead hgit (hchain.nodup writerId)
        (hchain.named writerId) (hstored writerId hne) (hreadable writerId) (hrequester.inChain writerId)
        (hresponder.inChain writerId) htip writerId hgt
        (fun sha hsha => hknown writerId sha hpos hgt hsha)
      exact ⟨_, hskipped, (missing_eq_nil hgt.le).symm⟩
  obtain ⟨loaded, hloaded⟩ := exists_mapM_ok_iff.mpr fun needed hmem => (hround needed hmem).imp fun _ h => h.1
  refine ⟨⟨frontierToObject responder.frontier, loaded.flatMap Prod.fst, loaded.flatMap Prod.snd⟩, ?_, ?_⟩
  · show (do
      let loaded ← (neededFrom requested responder.frontier).1.entries.mapM
        (loadWriterRange responder.persistence)
      return (⟨frontierToObject responder.frontier, loaded.flatMap Prod.fst,
        loaded.flatMap Prod.snd⟩ : SyncResponse V) : Except JsError _) = _
    rw [hloaded]
    rfl
  · intro writerId
    have hshares : loaded.map Prod.fst = (neededFrom requested responder.frontier).1.entries.map
        fun needed => missing chain theirs ours needed.1 := by
      refine map_of_mapM_ok hloaded fun needed hmem result hresult => ?_
      obtain ⟨result', hresult', hshare⟩ := hround needed hmem
      rw [hresult', Except.ok.injEq] at hresult
      exact hresult ▸ hshare
    have hpatches : loaded.flatMap Prod.fst =
        (neededFrom requested responder.frontier).1.keys.flatMap (missing chain theirs ours) := by
      rw [List.flatMap_def, hshares, JsMap.keys, List.flatMap_def, List.map_map]
      rfl
    have hshare : ∀ key, ∀ p ∈ missing chain theirs ours key, p.writerId = key := by
      intro key p hp
      obtain ⟨entry, -, rfl⟩ := List.mem_map.mp hp
      rfl
    show (loaded.flatMap Prod.fst).filter _ = _
    rw [hpatches]
    refine (filter_flatMap_writers (neededFrom requested responder.frontier).1.nodup hshare writerId).trans ?_
    split
    · rfl
    · rename_i habsent
      rcases Nat.lt_or_ge (theirs writerId) (ours writerId) with hlt | hge
      · obtain ⟨tip, htip⟩ := exists_tipAt (Nat.zero_lt_of_lt hlt) (hresponder.inChain writerId)
        exact absurd (List.mem_map_of_mem ((hneeded writerId _).mpr ⟨hlt.ne, tip, htip, rfl⟩)) habsent
      · exact (missing_eq_nil hge).symm

omit hrequester hresponder in
theorem mem_take_max {α : Type} (l : List α) (m n : Nat) (x : α) :
    x ∈ l.take (max m n) ↔ x ∈ l.take m ∨ x ∈ (l.take n).drop m := by
  have hsplit : l.take (max m n) = l.take m ++ (l.take (max m n)).drop m := by
    conv_lhs => rw [← List.take_append_drop m (l.take (max m n))]
    rw [List.take_take, min_eq_left (le_max_left m n)]
  rw [hsplit, List.mem_append]
  rcases le_total m n with hle | hge
  · rw [max_eq_right hle]
  · rw [max_eq_left hge, List.drop_eq_nil_of_le (List.length_take_le m l),
      List.drop_eq_nil_of_le ((List.length_take_le n l).trans hge)]

/-- The patches that the requester lacks bring it to the later of the two positions. -/
theorem replicaAt_applySyncResponse {response : SyncResponse V}
    (hresponse : ∀ writerId,
      response.patches.filter (fun p => p.writerId = writerId) = missing chain theirs ours writerId)
    {result : ApplySyncResult V}
    (hresult : applySyncResponse response.patches requester.state requester.frontier = .ok result) :
    ReplicaAt chain (fun writerId => max (theirs writerId) (ours writerId))
      { requester with state := result.state, frontier := result.frontier } where
  inChain writerId := max_le (hrequester.inChain writerId) (hresponder.inChain writerId)
  frontier writerId := by
    show result.frontier.get writerId = _
    rw [applySyncResponse_frontier hresult, get_groupByWriter, hresponse, hrequester.frontier]
    rcases Nat.lt_or_ge (theirs writerId) (ours writerId) with hlt | hge
    · have hlen := hresponder.inChain writerId
      obtain ⟨k, hk⟩ : ∃ k, ours writerId = k + 1 := Nat.exists_eq_succ_of_ne_zero (by omega)
      obtain ⟨entry, hentry⟩ : ∃ entry, (chain writerId)[k]? = some entry :=
        ⟨_, List.getElem?_eq_getElem (by omega)⟩
      have hslice : ((chain writerId).take (ours writerId)).drop (theirs writerId) =
          ((chain writerId).take k).drop (theirs writerId) ++ [entry] := by
        rw [hk, List.take_add_one, hentry, Option.toList_some, List.drop_append_of_le_length]
        rw [List.length_take]
        omega
      unfold missing
      rw [max_eq_right hlt.le, hslice, List.map_append, List.map_singleton,
        if_neg (List.append_ne_nil_of_right_ne_nil _ (List.cons_ne_nil _ _)), hk, tipAt, hentry]
      simp
    · rw [missing_eq_nil hge, max_eq_left hge, if_pos rfl]
      rfl
  state := by
    have hreadable : ∀ entry, (∃ writerId, entry ∈ ((chain writerId).take (ours writerId)).drop
        (theirs writerId)) → ∃ read, readPatch entry = .ok read := by
      obtain ⟨-, -, hreadable, -⟩ := hresponder.state
      rintro entry ⟨writerId, hentry⟩
      exact hreadable entry ⟨writerId, List.mem_of_mem_drop hentry⟩
    have hsent : ∀ sent, (∃ p ∈ response.patches, sent = PatchEntry.mk p.patch p.sha) ↔
        ∃ entry, (∃ writerId, entry ∈ ((chain writerId).take (ours writerId)).drop (theirs writerId)) ∧
          sent = entry.normalized := by
      have hnormalized : ∀ entry, (∃ writerId, entry ∈ ((chain writerId).take (ours writerId)).drop
          (theirs writerId)) → (⟨entry.normalized.patch, entry.sha⟩ : PatchEntry V) = entry.normalized := by
        intro entry hentry
        obtain ⟨read, hread⟩ := hreadable entry hentry
        rw [← (normalizePatch_of_readPatch hread).2]
      intro sent
      constructor
      · rintro ⟨p, hp, rfl⟩
        have hmem : p ∈ missing chain theirs ours p.writerId := by
          rw [← hresponse]
          exact List.mem_filter.mpr ⟨hp, decide_eq_true rfl⟩
        obtain ⟨entry, hentry, heq⟩ := List.mem_map.mp hmem
        refine ⟨entry, ⟨_, hentry⟩, ?_⟩
        rw [← heq]
        exact hnormalized entry ⟨_, hentry⟩
      · rintro ⟨entry, ⟨writerId, hentry⟩, rfl⟩
        have hmem : (⟨writerId, entry.sha, entry.normalized.patch⟩ : SyncPatch V) ∈
            missing chain theirs ours writerId := List.mem_map_of_mem hentry
        rw [← hresponse] at hmem
        exact ⟨_, (List.mem_filter.mp hmem).1, (hnormalized entry ⟨writerId, hentry⟩).symm⟩
    refine (hrequester.state.applySyncResponse hresult hsent hreadable).congr fun entry => ?_
    rw [← exists_or]
    exact exists_congr fun writerId => (mem_take_max _ _ _ _).symm

omit hrequester in
/-- Wire patches that can be read are applied. -/
theorem exists_applied {response : SyncResponse V}
    (hresponse : ∀ writerId,
      response.patches.filter (fun p => p.writerId = writerId) = missing chain theirs ours writerId)
    (hwire : ∀ writerId, ∀ entry ∈ ((chain writerId).take (ours writerId)).drop (theirs writerId),
      entry.patch.WireOps) :
    ∃ result, applySyncResponse response.patches requester.state requester.frontier = .ok result := by
  obtain ⟨-, -, hreadable, -⟩ := hresponder.state
  have hsent : ∀ p ∈ response.patches, ∃ entry read, readPatch entry = .ok read ∧ entry.patch.WireOps ∧
      p.patch = entry.normalized.patch ∧ p.sha = entry.sha := by
    intro p hp
    have hmem : p ∈ missing chain theirs ours p.writerId := by
      rw [← hresponse]
      exact List.mem_filter.mpr ⟨hp, decide_eq_true rfl⟩
    obtain ⟨entry, hentry, heq⟩ := List.mem_map.mp hmem
    obtain ⟨read, hread⟩ := hreadable entry ⟨_, List.mem_of_mem_drop hentry⟩
    exact ⟨entry, read, hread, hwire _ entry hentry, by rw [← heq], by rw [← heq]⟩
  refine exists_applySyncResponse_ok (fun p hp => ?_) (fun p hp => ?_) _ _
  · obtain ⟨entry, read, hread, -, hpatch, hsha⟩ := hsent p hp
    refine ⟨read, ?_⟩
    rw [hpatch, hsha, ← readPatch_normalized hread, ← (normalizePatch_of_readPatch hread).2]
  · obtain ⟨entry, read, hread, hops, hpatch, -⟩ := hsent p hp
    unfold PatchV2.WireOps
    rw [hpatch, normalizePatch_ops (normalizePatch_of_readPatch hread).1]
    exact hops

end Pull

/-! ### Pulls in both directions -/

/-- `requester` sends its frontier and applies the answer, which has the patches that it lacks, each once and
in the order of their chains. It becomes `after`: its state is the replay of the patches of both, and its
frontier has the later tips. -/
structure Delivers (chain : JsString → List (PatchEntry V)) (theirs ours : JsString → Nat)
    (requester responder after : Replica V) : Prop where
  applied : ∃ response result, requester.request responder = .ok response ∧
    (∀ writerId,
      response.patches.filter (fun p => p.writerId = writerId) = missing chain theirs ours writerId) ∧
    applySyncResponse response.patches requester.state requester.frontier = .ok result ∧
    after = { requester with state := result.state, frontier := result.frontier }
  state : ∀ union : List (PatchEntry V), (∀ entry, entry ∈ union ↔
      ∃ writerId, entry ∈ (chain writerId).take (max (theirs writerId) (ours writerId))) →
    ∃ replay, reduceV5 union = .ok replay ∧ replay.Same after.state
  frontier : ∀ writerId,
    after.frontier.get writerId = tipAt (chain writerId) (max (theirs writerId) (ours writerId))

/-- A request that is answered without patches. -/
def NothingMissing (requester responder : Replica V) : Prop :=
  ∃ response, requester.request responder = .ok response ∧ response.patches = []

/-- After a pull in each direction the replicas have the same state and the same frontier, and further
requests return no patches. -/
def SyncDelivers (chain : JsString → List (PatchEntry V)) (positionA positionB : JsString → Nat)
    (a b : Replica V) : Prop :=
  ∃ a' b', Delivers chain positionA positionB a b a' ∧
    Delivers chain positionB (fun writerId => max (positionA writerId) (positionB writerId)) b a' b' ∧
    a'.state.Same b'.state ∧ (∀ writerId, a'.frontier.get writerId = b'.frontier.get writerId) ∧
    NothingMissing a' b' ∧ NothingMissing b' a'

/-- No writer is named `__proto__`; a responder that checks ancestry has the tips of a requester that is
ahead of it; and the patches that one replica lacks have only operations of the wire format. -/
structure SyncsCleanly (chain : JsString → List (PatchEntry V)) (positionA positionB : JsString → Nat)
    (b : Replica V) : Prop where
  noProto : positionA protoKey = 0 ∧ positionB protoKey = 0
  known : ∀ writerId sha, 0 < positionB writerId → positionB writerId < positionA writerId →
    tipAt (chain writerId) (positionA writerId) = some sha → b.persistence.mergeBase.isSome = true →
    sha ∈ b.persistence.store.shas
  wire : ∀ writerId, ∀ entry ∈ ((chain writerId).take (max (positionA writerId) (positionB writerId))).drop
    (min (positionA writerId) (positionB writerId)), entry.patch.WireOps

/-- Two replicas that have stored their positions of the same chains. -/
structure SyncSetting (chain : JsString → List (PatchEntry V)) (positionA positionB : JsString → Nat)
    (a b : Replica V) : Prop where
  linear : LinearChains chain
  replicaA : ReplicaAt chain positionA a
  replicaB : ReplicaAt chain positionB b
  storedA : ∀ writerId, Stored a.persistence.store (chain writerId) (positionA writerId)
  storedB : ∀ writerId, Stored b.persistence.store (chain writerId) (positionB writerId)
  gitA : a.persistence.AnswersMergeBase
  gitB : b.persistence.AnswersMergeBase

theorem consistentShas_of_mem {chain : JsString → List (PatchEntry V)} (hchain : LinearChains chain)
    {union : List (PatchEntry V)} (hunion : ∀ entry ∈ union, ∃ writerId, entry ∈ chain writerId) :
    ConsistentShas union := by
  intro entry hentry entry' hentry' hsha
  obtain ⟨writerId, hmem⟩ := hunion entry hentry
  obtain ⟨writerId', hmem'⟩ := hunion entry' hentry'
  exact hchain.consistent writerId writerId' entry hmem entry' hmem' hsha

/-- The patches of a replica in a list. -/
theorem ReplicaAt.exists_patches {chain : JsString → List (PatchEntry V)} {position : JsString → Nat}
    {replica : Replica V} (h : ReplicaAt chain position replica) :
    ∃ patches : List (PatchEntry V), ∀ entry,
      entry ∈ patches ↔ ∃ writerId, entry ∈ (chain writerId).take (position writerId) := by
  refine ⟨replica.frontier.keys.flatMap fun writerId => (chain writerId).take (position writerId),
    fun entry => ?_⟩
  rw [List.mem_flatMap]
  constructor
  · rintro ⟨writerId, -, hentry⟩
    exact ⟨writerId, hentry⟩
  · rintro ⟨writerId, hentry⟩
    refine ⟨writerId, ?_, hentry⟩
    have hpos : 0 < position writerId := by
      by_contra hzero
      rw [Nat.eq_zero_of_not_pos hzero, List.take_zero] at hentry
      cases hentry
    obtain ⟨tip, htip⟩ := exists_tipAt hpos (h.inChain writerId)
    rw [JsMap.mem_keys_iff, h.frontier, htip]
    rfl

theorem ReplicaAt.same {chain : JsString → List (PatchEntry V)} (hchain : LinearChains chain)
    {position : JsString → Nat} {a b : Replica V} (ha : ReplicaAt chain position a)
    (hb : ReplicaAt chain position b) : a.state.Same b.state := by
  obtain ⟨patches, hpatches⟩ := ha.exists_patches
  have hshas : ConsistentShas patches := consistentShas_of_mem hchain fun entry hentry => by
    obtain ⟨writerId, hmem⟩ := (hpatches entry).mp hentry
    exact ⟨writerId, List.mem_of_mem_take hmem⟩
  exact (ha.state.congr fun entry => (hpatches entry).symm).same hshas
    (hb.state.congr fun entry => (hpatches entry).symm)

section Both

variable {chain : JsString → List (PatchEntry V)} {theirs ours : JsString → Nat}
  {requester responder : Replica V} (hchain : LinearChains chain)
  (hrequester : ReplicaAt chain theirs requester) (hresponder : ReplicaAt chain ours responder)

include hchain hrequester hresponder

theorem delivers_of_applied {response : SyncResponse V} {result : ApplySyncResult V}
    (hrequest : requester.request responder = .ok response)
    (hresponse : ∀ writerId,
      response.patches.filter (fun p => p.writerId = writerId) = missing chain theirs ours writerId)
    (hresult : applySyncResponse response.patches requester.state requester.frontier = .ok result) :
    Delivers chain theirs ours requester responder
      { requester with state := result.state, frontier := result.frontier } := by
  have hafter := replicaAt_applySyncResponse hrequester hresponder hresponse hresult
  refine ⟨⟨response, result, hrequest, hresponse, hresult, rfl⟩, fun union hunion => ?_, hafter.frontier⟩
  have hreplay := hafter.state.congr fun entry => (hunion entry).symm
  have hshas : ConsistentShas union := consistentShas_of_mem hchain fun entry hentry => by
    obtain ⟨writerId, hmem⟩ := (hunion entry).mp hentry
    exact ⟨writerId, List.mem_of_mem_take hmem⟩
  obtain ⟨replay, hok⟩ := hreplay.exists_reduceV5
  exact ⟨replay, hok, (WarpStateV5.isReplayOf_of_reduceV5 hok).same hshas hreplay⟩

/-- A replica is sent the patches that it lacks. -/
theorem exists_delivers (hproto : theirs protoKey = 0) (hgit : responder.persistence.AnswersMergeBase)
    (hstored : ∀ writerId, theirs writerId ≠ ours writerId →
      Stored responder.persistence.store (chain writerId) (ours writerId))
    (hknown : ∀ writerId sha, 0 < ours writerId → ours writerId < theirs writerId →
      tipAt (chain writerId) (theirs writerId) = some sha → responder.persistence.mergeBase.isSome = true →
      sha ∈ responder.persistence.store.shas)
    (hwire : ∀ writerId, ∀ entry ∈ ((chain writerId).take (ours writerId)).drop (theirs writerId),
      entry.patch.WireOps) :
    ∃ after, Delivers chain theirs ours requester responder after ∧
      after.persistence = requester.persistence ∧
      ReplicaAt chain (fun writerId => max (theirs writerId) (ours writerId)) after := by
  obtain ⟨response, hrequest, hresponse⟩ :=
    request_eq_ok hrequester hresponder hchain hproto hgit hstored hknown
  obtain ⟨result, hresult⟩ := exists_applied hresponder hresponse hwire
  exact ⟨_, delivers_of_applied hchain hrequester hresponder hrequest hresponse hresult, rfl,
    replicaAt_applySyncResponse hrequester hresponder hresponse hresult⟩

end Both

/-- Between replicas at the same positions nothing is missing. -/
theorem nothingMissing_of_same {chain : JsString → List (PatchEntry V)} (hchain : LinearChains chain)
    {position : JsString → Nat} {a b : Replica V} (ha : ReplicaAt chain position a)
    (hb : ReplicaAt chain position b) (hproto : position protoKey = 0)
    (hgit : b.persistence.AnswersMergeBase) : NothingMissing a b := by
  obtain ⟨response, hrequest, hresponse⟩ := request_eq_ok ha hb hchain hproto hgit
    (fun writerId hne => absurd rfl hne) (fun writerId sha _ hlt => absurd hlt (lt_irrefl _))
  refine ⟨response, hrequest, ?_⟩
  rw [List.eq_nil_iff_forall_not_mem]
  intro p hp
  have hmem : p ∈ missing chain position position p.writerId := by
    rw [← hresponse]
    exact List.mem_filter.mpr ⟨hp, decide_eq_true rfl⟩
  rw [missing_eq_nil le_rfl] at hmem
  cases hmem

theorem syncDelivers_of_cleanly {chain : JsString → List (PatchEntry V)}
    {positionA positionB : JsString → Nat} {a b : Replica V} (h : SyncSetting chain positionA positionB a b)
    (hclean : SyncsCleanly chain positionA positionB b) : SyncDelivers chain positionA positionB a b := by
  obtain ⟨hchain, ha, hb, hstoredA, hstoredB, hgitA, hgitB⟩ := h
  obtain ⟨a', hdelivers, hpersistence, ha'⟩ := exists_delivers hchain ha hb hclean.noProto.1 hgitB
    (fun writerId _ => hstoredB writerId) hclean.known fun writerId entry hentry => by
      refine hclean.wire writerId entry ?_
      rcases Nat.lt_or_ge (positionA writerId) (positionB writerId) with hlt | hge
      · rw [max_eq_right hlt.le, min_eq_left hlt.le]
        exact hentry
      · rw [List.drop_eq_nil_of_le ((List.length_take_le _ _).trans hge)] at hentry
        cases hentry
  rw [← hpersistence] at hgitA hstoredA
  obtain ⟨b', hdelivers', hpersistence', hb'⟩ := exists_delivers hchain hb ha' hclean.noProto.2 hgitA
    (fun writerId hne => by
      have hmax : max (positionA writerId) (positionB writerId) = positionA writerId := by omega
      rw [hmax]
      exact hstoredA writerId)
    (fun writerId sha _ hlt => absurd (le_max_right _ _) (not_le_of_gt hlt)) fun writerId entry hentry => by
      refine hclean.wire writerId entry ?_
      rcases Nat.lt_or_ge (positionB writerId) (positionA writerId) with hlt | hge
      · rw [min_eq_right hlt.le]
        exact hentry
      · rw [max_eq_right hge, List.drop_eq_nil_of_le (List.length_take_le _ _)] at hentry
        cases hentry
  have hmax : (fun writerId => max (positionB writerId) (max (positionA writerId) (positionB writerId))) =
      fun writerId => max (positionA writerId) (positionB writerId) := by
    funext writerId
    omega
  rw [hmax] at hb'
  have hproto : max (positionA protoKey) (positionB protoKey) = 0 := by
    rw [hclean.noProto.1, hclean.noProto.2]
    rfl
  rw [← hpersistence'] at hgitB
  refine ⟨a', b', hdelivers, hdelivers', ha'.same hchain hb', fun writerId => ?_,
    nothingMissing_of_same hchain ha' hb' hproto hgitB, nothingMissing_of_same hchain hb' ha' hproto hgitA⟩
  rw [ha'.frontier, hb'.frontier]

/-! ### What goes wrong otherwise -/

/-- A walk from a commit to the root has patches. -/
theorem collectRange_ne_nil {objects : List (Sha × Commit V)} {cur : Sha} (hcur : cur ≠ [])
    {patches : List (PatchEntry V)} {ranOut : Bool}
    (h : collectRange none objects cur = .ok (patches, ranOut)) : patches ≠ [] := by
  have hgo : ¬ (cur = [] ∨ some cur = none) := by simp [hcur]
  induction objects with
  | nil => rw [collectRange, if_neg hgo] at h; cases h
  | cons object older ih =>
      rw [collectRange, if_neg hgo] at h
      split at h
      · split at h
        · rename_i patch _
          cases hnorm : normalizePatch patch with
          | error err => rw [hnorm] at h; cases h
          | ok normalized =>
              rw [hnorm] at h
              simp only [bind, Except.bind, pure, Except.pure] at h
              cases hhead : object.2.parents.head? with
              | none =>
                  rw [hhead] at h
                  cases h
                  exact List.append_ne_nil_of_right_ne_nil _ (List.cons_ne_nil _ _)
              | some parent =>
                  simp only [hhead] at h
                  cases hrest : collectRange none older parent with
                  | error err => rw [hrest] at h; cases h
                  | ok below =>
                      rw [hrest] at h
                      cases h
                      exact List.append_ne_nil_of_right_ne_nil _ (List.cons_ne_nil _ _)
        · cases h
      · exact ih h

/-- The rounds of a request that is answered. -/
theorem loaded_of_request {requester responder : Replica V} {response : SyncResponse V}
    (h : requester.request responder = .ok response) {needed : JsString × SyncRange}
    (hneeded : needed ∈ (neededFrom (objectToFrontier (frontierToObject requester.frontier))
      responder.frontier).1.entries) :
    ∃ loaded, loadWriterRange responder.persistence needed = .ok loaded ∧
      ∀ p ∈ loaded.1, p ∈ response.patches := by
  have hrequest : (do
      let loaded ← (neededFrom (objectToFrontier (frontierToObject requester.frontier))
        responder.frontier).1.entries.mapM (loadWriterRange responder.persistence)
      return (⟨frontierToObject responder.frontier, loaded.flatMap Prod.fst,
        loaded.flatMap Prod.snd⟩ : SyncResponse V) : Except JsError _) = .ok response := h
  cases hall : (neededFrom (objectToFrontier (frontierToObject requester.frontier))
      responder.frontier).1.entries.mapM (loadWriterRange responder.persistence) with
  | error err => rw [hall] at hrequest; cases hrequest
  | ok all =>
      rw [hall] at hrequest
      cases hrequest
      obtain ⟨loaded, hloaded⟩ := exists_mapM_ok_iff.mp ⟨all, hall⟩ needed hneeded
      have hmem := (mem_of_mapM_ok hall loaded).mpr ⟨needed, hneeded, hloaded⟩
      exact ⟨loaded, hloaded, fun p hp => List.mem_flatMap.mpr ⟨loaded, hmem, hp⟩⟩

/-- Whatever the requester has of `__proto__`, a responder that has patches of it sends some. -/
theorem not_nothingMissing_of_proto {requester responder : Replica V} {tip : Sha}
    (htip : responder.frontier.get protoKey = some tip) (hnamed : tip ≠ []) :
    ¬ NothingMissing requester responder := by
  rintro ⟨response, hrequest, hnone⟩
  have hneeded : (protoKey, ⟨none, tip⟩) ∈ (neededFrom (objectToFrontier
      (frontierToObject requester.frontier)) responder.frontier).1.entries := by
    rw [entries_neededFrom, List.mem_filterMap]
    refine ⟨(protoKey, tip), (JsMap.get_eq_some_iff _ _ _).mp htip, ?_⟩
    simp only [rangeFor, get_sentFrontier, if_true]
  obtain ⟨loaded, hloaded, hsent⟩ := loaded_of_request hrequest hneeded
  simp only [loadWriterRange, loadPatchRange, bind, Except.bind, pure, Except.pure, Bool.not_true,
    Bool.false_eq_true, if_false] at hloaded
  cases hwalk : collectRange none responder.persistence.store.objects tip with
  | error err => rw [hwalk] at hloaded; cases hloaded
  | ok walked =>
      obtain ⟨patches, ranOut⟩ := walked
      rw [hwalk] at hloaded
      cases hloaded
      obtain ⟨entry, hentry⟩ := List.exists_mem_of_ne_nil _ (collectRange_ne_nil hnamed hwalk)
      have hmem := hsent _ (List.mem_map_of_mem hentry)
      rw [hnone] at hmem
      cases hmem

section Otherwise

variable {chain : JsString → List (PatchEntry V)} {theirs ours : JsString → Nat}
  {requester responder after : Replica V}

/-- What was sent and applied has only operations of the wire format. -/
theorem Delivers.wire (h : Delivers chain theirs ours requester responder after)
    (hresponder : ReplicaAt chain ours responder) (writerId : JsString) :
    ∀ entry ∈ ((chain writerId).take (ours writerId)).drop (theirs writerId), entry.patch.WireOps := by
  obtain ⟨response, result, -, hresponse, hresult, -⟩ := h.applied
  obtain ⟨-, -, hreadable, -⟩ := hresponder.state
  intro entry hentry
  have hmem : (⟨writerId, entry.sha, entry.normalized.patch⟩ : SyncPatch V) ∈
      missing chain theirs ours writerId := List.mem_map_of_mem hentry
  rw [← hresponse] at hmem
  have hwire := wireOps_of_applySyncResponse hresult _ (List.mem_filter.mp hmem).1
  obtain ⟨read, hread⟩ := hreadable entry ⟨writerId, List.mem_of_mem_drop hentry⟩
  unfold PatchV2.WireOps at hwire ⊢
  rw [normalizePatch_ops (normalizePatch_of_readPatch hread).1] at hwire
  exact hwire

/-- An ancestry check that was answered knew the tip of the requester. -/
theorem Delivers.known (h : Delivers chain theirs ours requester responder after)
    (hchain : LinearChains chain) (hrequester : ReplicaAt chain theirs requester)
    (hresponder : ReplicaAt chain ours responder) (hproto : theirs protoKey = 0)
    (hgit : responder.persistence.AnswersMergeBase) {writerId : JsString} {sha : Sha}
    (hpos : 0 < ours writerId) (hlt : ours writerId < theirs writerId)
    (hsha : tipAt (chain writerId) (theirs writerId) = some sha)
    (hbase : responder.persistence.mergeBase.isSome = true) : sha ∈ responder.persistence.store.shas := by
  obtain ⟨response, result, hrequest, -, -, -⟩ := h.applied
  obtain ⟨mergeBase, hmergeBase⟩ := Option.isSome_iff_exists.mp hbase
  obtain ⟨tip, htip⟩ := exists_tipAt hpos (hresponder.inChain writerId)
  have hrequested : ∀ writerId, (objectToFrontier (frontierToObject requester.frontier)).get writerId =
      requester.frontier.get writerId := by
    intro writerId
    rw [get_sentFrontier]
    split
    · rename_i hwriter
      rw [hrequester.frontier, hwriter, hproto]
      rfl
    · rfl
  have hneeded := (mem_needed hrequester hresponder hrequested hchain writerId
    ⟨tipAt (chain writerId) (theirs writerId), tip⟩).mpr ⟨hlt.ne', tip, htip, rfl⟩
  obtain ⟨loaded, hloaded, -⟩ := loaded_of_request hrequest hneeded
  have hempty : sha.isEmpty = false := by
    obtain ⟨k, entry, -, hentry, rfl⟩ := tipAt_eq_some hsha
    rw [List.isEmpty_eq_false_iff]
    exact hchain.named writerId entry (List.mem_of_getElem? hentry)
  by_contra habsent
  obtain ⟨hzero, hone⟩ := (hgit mergeBase hmergeBase sha tip).2 habsent
  have hfails : isAncestor (mergeBase sha tip) = .error ⟨"GitError", "git merge-base failed"⟩ := by
    unfold isAncestor
    rw [if_neg hzero, if_neg hone]
  simp only [loadWriterRange, hsha, hmergeBase, hempty, hfails, bind, Except.bind, Bool.false_eq_true,
    if_false] at hloaded
  cases hloaded

end Otherwise

/-- Two replicas at any positions of the same chains are synchronized by a pull in each direction exactly if
they synchronize cleanly. -/
theorem syncDelivers_iff (chain : JsString → List (PatchEntry V)) (positionA positionB : JsString → Nat)
    (a b : Replica V) (hsetting : SyncSetting chain positionA positionB a b) :
    SyncDelivers chain positionA positionB a b ↔ SyncsCleanly chain positionA positionB b := by
  refine ⟨?_, syncDelivers_of_cleanly hsetting⟩
  obtain ⟨hchain, ha, hb, -, -, -, hgitB⟩ := hsetting
  rintro ⟨a', b', hdelivers, hdelivers', -, hfrontier, hnothing, -⟩
  have hproto : max (positionA protoKey) (positionB protoKey) = 0 := by
    by_contra hne
    have hlen := max_le (ha.inChain protoKey) (hb.inChain protoKey)
    obtain ⟨tip, htip⟩ := exists_tipAt (Nat.pos_of_ne_zero hne) hlen
    have hget : b'.frontier.get protoKey = some tip := by
      rw [← hfrontier, hdelivers.frontier, htip]
    obtain ⟨k, entry, -, hentry, rfl⟩ := tipAt_eq_some htip
    exact not_nothingMissing_of_proto hget (hchain.named _ _ (List.mem_of_getElem? hentry)) hnothing
  have hprotoA : positionA protoKey = 0 := by omega
  have ha' : ReplicaAt chain (fun writerId => max (positionA writerId) (positionB writerId)) a' := by
    obtain ⟨response, result, -, hresponse, hresult, rfl⟩ := hdelivers.applied
    exact replicaAt_applySyncResponse ha hb hresponse hresult
  refine ⟨⟨hprotoA, by omega⟩, fun writerId sha hpos hlt hsha hbase =>
    hdelivers.known hchain ha hb hprotoA hgitB hpos hlt hsha hbase, fun writerId entry hentry => ?_⟩
  rcases Nat.lt_or_ge (positionA writerId) (positionB writerId) with hlt | hge
  · rw [max_eq_right hlt.le, min_eq_left hlt.le] at hentry
    exact hdelivers.wire hb writerId entry hentry
  · rw [min_eq_right hge] at hentry
    exact hdelivers'.wire ha' writerId entry hentry

/-! ### Small replicas -/

/-- The commits at or below the pending ones, found from the newest object on. -/
def ancestorsFrom : List (Sha × Commit V) → List Sha → List Sha
  | [], _ => []
  | (sha, commit) :: older, pending =>
      if sha ∈ pending then sha :: ancestorsFrom older (pending ++ commit.parents)
      else ancestorsFrom older pending

/-- The exit code of `git merge-base --is-ancestor` in a repository. -/
def mergeBaseOf (store : ObjectStore V) (ancestor descendant : Sha) : Nat :=
  if ancestor ∈ store.shas ∧ descendant ∈ store.shas then
    if ancestor ∈ ancestorsFrom store.objects [descendant] then 0 else 1
  else 128

theorem mem_ancestorsFrom_iff {store : ObjectStore V} {older : List (Sha × Commit V)}
    (hsuffix : older <:+ store.objects) (pending : List Sha) (sha : Sha) :
    sha ∈ ancestorsFrom older pending ↔ ∃ tip ∈ pending, tip ∈ older.map Prod.fst ∧ store.Reaches tip sha := by
  induction older generalizing pending with
  | nil => simp [ancestorsFrom]
  | cons object rest ih =>
      obtain ⟨objectSha, commit⟩ := object
      have hrest := (List.suffix_cons (objectSha, commit) rest).trans hsuffix
      have hget : store.get objectSha = some commit :=
        (store.get_eq_some_iff _ _).mpr (hsuffix.subset (List.mem_cons_self ..))
      have hparents := (closed_of_suffix hsuffix store.closed).1.2
      have hreaches : store.Reaches objectSha sha ↔
          sha = objectSha ∨ ∃ parent ∈ commit.parents, store.Reaches parent sha := by
        constructor
        · intro h
          cases h with
          | refl => exact Or.inl rfl
          | parent hget' hparent hbelow =>
              rw [hget, Option.some.injEq] at hget'
              subst hget'
              exact Or.inr ⟨_, hparent, hbelow⟩
        · rintro (rfl | ⟨parent, hparent, hbelow⟩)
          · exact ObjectStore.Reaches.refl sha
          · exact ObjectStore.Reaches.parent hget hparent hbelow
      rw [ancestorsFrom]
      split
      · rename_i hpending
        rw [List.mem_cons, ih hrest]
        constructor
        · rintro (rfl | ⟨tip, htip, hmem, hbelow⟩)
          · exact ⟨sha, hpending, List.mem_cons_self .., ObjectStore.Reaches.refl sha⟩
          · rcases List.mem_append.mp htip with hold | hparent
            · exact ⟨tip, hold, List.mem_cons_of_mem _ hmem, hbelow⟩
            · exact ⟨objectSha, hpending, List.mem_cons_self ..,
                hreaches.mpr (Or.inr ⟨tip, hparent, hbelow⟩)⟩
        · rintro ⟨tip, htip, hmem, hbelow⟩
          rcases List.mem_cons.mp hmem with rfl | hmem
          · rcases hreaches.mp hbelow with heq | ⟨parent, hparent, hbelow⟩
            · exact Or.inl heq
            · exact Or.inr ⟨parent, List.mem_append_right _ hparent, hparents parent hparent, hbelow⟩
          · exact Or.inr ⟨tip, List.mem_append_left _ htip, hmem, hbelow⟩
      · rename_i hpending
        rw [ih hrest]
        refine exists_congr fun tip => and_congr_right fun htip => and_congr_left fun _ => ?_
        rw [List.map_cons, List.mem_cons, or_iff_right]
        rintro rfl
        exact hpending htip

theorem answersMergeBase_mergeBaseOf (store : ObjectStore V) :
    (⟨store, some (mergeBaseOf store)⟩ : SyncPersistence V).AnswersMergeBase := by
  intro mergeBase hmergeBase ancestor descendant
  cases hmergeBase
  have hiff : ancestor ∈ ancestorsFrom store.objects [descendant] ↔
      descendant ∈ store.shas ∧ store.Reaches descendant ancestor := by
    rw [mem_ancestorsFrom_iff List.suffix_rfl]
    simp only [List.mem_singleton, exists_eq_left]
    rfl
  unfold mergeBaseOf
  refine ⟨fun hancestor hdescendant => ⟨fun hreaches => ?_, fun hreaches => ?_⟩, fun habsent => ?_⟩
  · rw [if_pos ⟨hancestor, hdescendant⟩, if_pos (hiff.mpr ⟨hdescendant, hreaches⟩)]
  · rw [if_pos ⟨hancestor, hdescendant⟩, if_neg fun hmem => hreaches (hiff.mp hmem).2]
  · rw [if_neg fun hboth => habsent hboth.1]
    decide

instance [DecidableEq V] (store : ObjectStore V) (chain : List (PatchEntry V)) (count : Nat) :
    Decidable (Stored store chain count) :=
  decidable_of_iff (∀ n, n < count → ∀ entry ∈ chain[n]?,
    store.get entry.sha = some ⟨(tipAt chain n).toList, .patch entry.patch⟩)
    ⟨fun h n entry hn hentry => h n hn entry hentry, fun h n hn entry hentry => h n entry hn hentry⟩

/-- A patch that adds a node. -/
def addNodePatch (writerId : JsString) (lamport : Nat) (node : String) (sha : String) : PatchEntry Nat :=
  ⟨⟨2, writerId, lamport, .record [], [.nodeAdd (js node) ⟨writerId, lamport⟩]⟩, js sha⟩

/-- Two patches of the writer `first` and one of the writer `b`. -/
def smallChains (first writerId : JsString) : List (PatchEntry Nat) :=
  if writerId = first then [addNodePatch first 1 "m" "aaaa", addNodePatch first 2 "n" "bbbb"]
  else if writerId = js "b" then [addNodePatch (js "b") 1 "p" "cccc"]
  else []

def positionsOf (first : JsString) (m n : Nat) (writerId : JsString) : Nat :=
  if writerId = first then m else if writerId = js "b" then n else 0

def rootCommit (first : JsString) : Sha × Commit Nat :=
  (js "aaaa", ⟨[], .patch (addNodePatch first 1 "m" "aaaa").patch⟩)

def secondCommit (first : JsString) : Sha × Commit Nat :=
  (js "bbbb", ⟨[js "aaaa"], .patch (addNodePatch first 2 "n" "bbbb").patch⟩)

def otherCommit : Sha × Commit Nat := (js "cccc", ⟨[], .patch (addNodePatch (js "b") 1 "p" "cccc").patch⟩)

theorem closed_small (first : JsString) : Closed [otherCommit, secondCommit first, rootCommit first] := by
  refine ⟨⟨?_, ?_⟩, ⟨?_, ?_⟩, ⟨?_, ?_⟩, trivial⟩
  all_goals simp only [otherCommit, secondCommit, rootCommit, List.map_cons, List.map_nil]; decide

def replayOf (patches : List (PatchEntry Nat)) : WarpStateV5 Nat :=
  (reduceV5 patches).toOption.getD createEmptyStateV5

/-- It has both patches of `first`. -/
def replicaAhead (first : JsString) : Replica Nat where
  state := replayOf [addNodePatch first 1 "m" "aaaa", addNodePatch first 2 "n" "bbbb"]
  frontier := JsMap.ofEntries [(first, js "bbbb")]
  persistence := ⟨⟨[secondCommit first, rootCommit first], (closed_small first).2⟩, none⟩

def behindStore (first : JsString) (fetched : Bool) : ObjectStore Nat :=
  if fetched then ⟨[otherCommit, secondCommit first, rootCommit first], closed_small first⟩
  else ⟨[otherCommit, rootCommit first], by
    refine ⟨⟨?_, ?_⟩, ⟨?_, ?_⟩, trivial⟩
    all_goals simp only [otherCommit, rootCommit, List.map_cons, List.map_nil]; decide⟩

/-- It has the first patch of `first` and the patch of `b`, in a Git repository to which the second patch of
`first` may have been fetched. -/
def replicaBehind (first : JsString) (fetched : Bool) : Replica Nat where
  state := replayOf [addNodePatch first 1 "m" "aaaa", addNodePatch (js "b") 1 "p" "cccc"]
  frontier := JsMap.ofEntries [(first, js "aaaa"), (js "b", js "cccc")]
  persistence := ⟨behindStore first fetched, some (mergeBaseOf (behindStore first fetched))⟩

theorem isReplayOf_replayOf {patches : List (PatchEntry Nat)}
    (h : (reduceV5 patches).toOption.isSome = true) : (replayOf patches).IsReplayOf fun e => e ∈ patches := by
  unfold replayOf
  cases hreduce : reduceV5 patches with
  | error err => rw [hreduce] at h; cases h
  | ok state => exact WarpStateV5.isReplayOf_of_reduceV5 hreduce

theorem smallChains_of_other {first : JsString} {writerId : JsString} (hfirst : writerId ≠ first)
    (hb : writerId ≠ js "b") : smallChains first writerId = [] ∧
      ∀ m n, positionsOf first m n writerId = 0 := by
  exact ⟨by rw [smallChains, if_neg hfirst, if_neg hb],
    fun m n => by rw [positionsOf, if_neg hfirst, if_neg hb]⟩

/-- Something about all writers is checked at the two that there are. -/
theorem forall_writers {P : JsString → Prop} (first : JsString) (hfirst : P first) (hb : P (js "b"))
    (hother : ∀ w, w ≠ first → w ≠ js "b" → P w) (writerId : JsString) : P writerId := by
  by_cases hw : writerId = first
  · exact hw ▸ hfirst
  · by_cases hwb : writerId = js "b"
    · exact hwb ▸ hb
    · exact hother writerId hw hwb

section Small

variable {first : JsString} (hne : first ≠ js "b")

theorem smallChains_first :
    smallChains first first = [addNodePatch first 1 "m" "aaaa", addNodePatch first 2 "n" "bbbb"] := by
  rw [smallChains, if_pos rfl]

theorem positionsOf_first (m n : Nat) : positionsOf first m n first = m := by
  rw [positionsOf, if_pos rfl]

include hne

theorem smallChains_b : smallChains first (js "b") = [addNodePatch (js "b") 1 "p" "cccc"] := by
  rw [smallChains, if_neg hne.symm, if_pos rfl]

theorem positionsOf_b (m n : Nat) : positionsOf first m n (js "b") = n := by
  rw [positionsOf, if_neg hne.symm, if_pos rfl]

theorem mem_take_smallChains (m n : Nat) (entry : PatchEntry Nat) :
    (∃ writerId, entry ∈ (smallChains first writerId).take (positionsOf first m n writerId)) ↔
      entry ∈ [addNodePatch first 1 "m" "aaaa", addNodePatch first 2 "n" "bbbb"].take m ∨
        entry ∈ [addNodePatch (js "b") 1 "p" "cccc"].take n := by
  constructor
  · rintro ⟨writerId, hentry⟩
    revert writerId
    refine forall_writers first ?_ ?_ ?_
    · rw [smallChains_first, positionsOf_first]
      exact Or.inl
    · rw [smallChains_b hne, positionsOf_b hne]
      exact Or.inr
    · intro w hw hwb hentry
      rw [(smallChains_of_other hw hwb).1, List.take_nil] at hentry
      cases hentry
  · rintro (hentry | hentry)
    · exact ⟨first, by rw [smallChains_first, positionsOf_first]; exact hentry⟩
    · exact ⟨js "b", by rw [smallChains_b hne, positionsOf_b hne]; exact hentry⟩

theorem linearChains_small : LinearChains (smallChains first) := by
  have hentries : ∀ writerId, ∀ entry ∈ smallChains first writerId,
      entry = addNodePatch first 1 "m" "aaaa" ∨ entry = addNodePatch first 2 "n" "bbbb" ∨
        entry = addNodePatch (js "b") 1 "p" "cccc" := by
    refine forall_writers first ?_ ?_ fun w hw hwb => ?_
    · rw [smallChains_first]
      simp
    · rw [smallChains_b hne]
      simp
    · rw [(smallChains_of_other hw hwb).1]
      exact nofun
  refine ⟨forall_writers first ?_ ?_ fun w hw hwb => ?_, fun writerId entry hentry => ?_,
    fun writerId writerId' entry hentry entry' hentry' hsha => ?_⟩
  · rw [smallChains_first]
    simp only [List.map_cons, List.map_nil, addNodePatch]
    decide
  · rw [smallChains_b hne]
    exact List.nodup_singleton _
  · rw [(smallChains_of_other hw hwb).1]
    exact List.nodup_nil
  · rcases hentries writerId entry hentry with rfl | rfl | rfl <;> exact nofun
  · rcases hentries writerId entry hentry with rfl | rfl | rfl <;>
      rcases hentries writerId' entry' hentry' with rfl | rfl | rfl <;>
        first
        | rfl
        | exact absurd hsha (by simp only [addNodePatch]; decide)

theorem inChain_small {m n : Nat} (hm : m ≤ 2) (hn : n ≤ 1) (writerId : JsString) :
    positionsOf first m n writerId ≤ (smallChains first writerId).length := by
  revert writerId
  refine forall_writers first ?_ ?_ fun w hw hwb => ?_
  · rw [smallChains_first, positionsOf_first]
    exact hm
  · rw [smallChains_b hne, positionsOf_b hne]
    exact hn
  · rw [(smallChains_of_other hw hwb).2]
    exact Nat.zero_le _

/-- What holds of the stored patches of the two writers. -/
theorem stored_small {store : ObjectStore Nat} {m n : Nat}
    (hfirst : Stored store [addNodePatch first 1 "m" "aaaa", addNodePatch first 2 "n" "bbbb"] m)
    (hb : Stored store [addNodePatch (js "b") 1 "p" "cccc"] n) (writerId : JsString) :
    Stored store (smallChains first writerId) (positionsOf first m n writerId) := by
  revert writerId
  refine forall_writers first ?_ ?_ fun w hw hwb => ?_
  · rw [smallChains_first, positionsOf_first]
    exact hfirst
  · rw [smallChains_b hne, positionsOf_b hne]
    exact hb
  · rw [(smallChains_of_other hw hwb).2]
    exact nofun

theorem replicaAt_ahead (hstate : (reduceV5 [addNodePatch first 1 "m" "aaaa",
    addNodePatch first 2 "n" "bbbb"]).toOption.isSome = true) :
    ReplicaAt (smallChains first) (positionsOf first 2 0) (replicaAhead first) where
  inChain := inChain_small hne le_rfl (Nat.zero_le 1)
  frontier := by
    have hget : ∀ writerId, (replicaAhead first).frontier.get writerId =
        if writerId = first then some (js "bbbb") else none :=
      fun writerId => JsMap.get_set JsMap.empty first writerId (js "bbbb")
    refine forall_writers first ?_ ?_ fun w hw hwb => ?_
    · rw [hget, if_pos rfl, smallChains_first, positionsOf_first]
      rfl
    · rw [hget, if_neg hne.symm, positionsOf_b hne]
      rfl
    · rw [hget, if_neg hw, (smallChains_of_other hw hwb).2]
      rfl
  state := (isReplayOf_replayOf hstate).congr fun entry => by
    rw [mem_take_smallChains hne]
    simp

theorem replicaAt_behind (fetched : Bool) (hstate : (reduceV5 [addNodePatch first 1 "m" "aaaa",
    addNodePatch (js "b") 1 "p" "cccc"]).toOption.isSome = true) :
    ReplicaAt (smallChains first) (positionsOf first 1 1) (replicaBehind first fetched) where
  inChain := inChain_small hne (Nat.le_succ 1) le_rfl
  frontier := by
    have hget : ∀ writerId, (replicaBehind first fetched).frontier.get writerId =
        if writerId = js "b" then some (js "cccc") else if writerId = first then some (js "aaaa") else none := by
      intro writerId
      refine (JsMap.get_set _ (js "b") writerId (js "cccc")).trans (if_congr Iff.rfl rfl ?_)
      exact JsMap.get_set JsMap.empty first writerId (js "aaaa")
    refine forall_writers first ?_ ?_ fun w hw hwb => ?_
    · rw [hget, if_neg hne, if_pos rfl, smallChains_first, positionsOf_first]
      rfl
    · rw [hget, if_pos rfl, smallChains_b hne, positionsOf_b hne]
      rfl
    · rw [hget, if_neg hwb, if_neg hw, (smallChains_of_other hw hwb).2]
      rfl
  state := (isReplayOf_replayOf hstate).congr fun entry => by
    rw [mem_take_smallChains hne]
    simp

end Small

/-- The two replicas are in the setting, be the first writer `a` or `__proto__`. -/
theorem syncSetting_small {first : JsString} (hfirst : first = js "a" ∨ first = protoKey) (fetched : Bool) :
    SyncSetting (smallChains first) (positionsOf first 2 0) (positionsOf first 1 1) (replicaAhead first)
      (replicaBehind first fetched) := by
  have hne : first ≠ js "b" := by
    rcases hfirst with rfl | rfl <;> decide
  refine ⟨linearChains_small hne, replicaAt_ahead hne ?_, replicaAt_behind hne fetched ?_,
    stored_small hne ?_ ?_, stored_small hne ?_ ?_, ?_, ?_⟩
  · rcases hfirst with rfl | rfl <;> decide
  · rcases hfirst with rfl | rfl <;> decide
  · rcases hfirst with rfl | rfl <;> decide
  · exact nofun
  · rcases hfirst with rfl | rfl <;> cases fetched <;> decide
  · rcases hfirst with rfl | rfl <;> cases fetched <;> decide
  · exact nofun
  · exact answersMergeBase_mergeBaseOf _

theorem wireOps_small (first writerId : JsString) : ∀ entry ∈ smallChains first writerId,
    entry.patch.WireOps := by
  unfold smallChains
  intro entry hentry op hop
  split at hentry
  · rcases List.mem_pair.mp hentry with rfl | rfl <;> cases List.mem_singleton.mp hop <;> rfl
  · split at hentry
    · cases List.mem_singleton.mp hentry
      cases List.mem_singleton.mp hop
      rfl
    · cases hentry

/-- With the second patch fetched, the replicas of `a` and `b` are synchronized. -/
theorem syncDelivers_small : SyncDelivers (smallChains (js "a")) (positionsOf (js "a") 2 0)
    (positionsOf (js "a") 1 1) (replicaAhead (js "a")) (replicaBehind (js "a") true) := by
  refine (syncDelivers_iff _ _ _ _ _ (syncSetting_small (Or.inl rfl) true)).mpr ⟨by decide, ?_, ?_⟩
  · refine forall_writers (js "a") ?_ ?_ fun w hw hwb sha hpos => ?_
    · intro sha _ _ hsha _
      have hlast : sha = js "bbbb" := by
        refine Option.some.inj (hsha.symm.trans ?_)
        rw [positionsOf_first, smallChains_first]
        rfl
      rw [hlast]
      decide
    · rw [positionsOf_b (by decide), positionsOf_b (by decide)]
      exact fun sha _ hlt => absurd hlt (Nat.not_lt_zero 1)
    · rw [(smallChains_of_other hw hwb).2] at hpos
      exact absurd hpos (lt_irrefl 0)
  · intro writerId entry hentry
    exact wireOps_small _ _ entry (List.mem_of_mem_take (List.mem_of_mem_drop hentry))

/-- The tip of `__proto__` is not sent, so its patches are sent again and again; and where the second patch of
`a` was not fetched, the ancestry check fails the whole request. -/
theorem not_syncDelivers_small :
    (SyncSetting (smallChains protoKey) (positionsOf protoKey 2 0) (positionsOf protoKey 1 1)
        (replicaAhead protoKey) (replicaBehind protoKey true) ∧
      ¬ SyncDelivers (smallChains protoKey) (positionsOf protoKey 2 0) (positionsOf protoKey 1 1)
        (replicaAhead protoKey) (replicaBehind protoKey true)) ∧
    (SyncSetting (smallChains (js "a")) (positionsOf (js "a") 2 0) (positionsOf (js "a") 1 1)
        (replicaAhead (js "a")) (replicaBehind (js "a") false) ∧
      ¬ SyncDelivers (smallChains (js "a")) (positionsOf (js "a") 2 0) (positionsOf (js "a") 1 1)
        (replicaAhead (js "a")) (replicaBehind (js "a") false)) := by
  refine ⟨⟨syncSetting_small (Or.inr rfl) true, ?_⟩, ⟨syncSetting_small (Or.inl rfl) false, ?_⟩⟩
  · rintro ⟨a', b', -, hdelivers', -, -, hnothing, -⟩
    have htip : b'.frontier.get protoKey = some (js "bbbb") := by
      rw [hdelivers'.frontier, positionsOf_first, positionsOf_first, smallChains_first]
      rfl
    exact not_nothingMissing_of_proto htip nofun hnothing
  · rintro ⟨a', b', hdelivers, -⟩
    obtain ⟨response, -, hrequest, -⟩ := hdelivers.applied
    have hfails : ((replicaAhead (js "a")).request (replicaBehind (js "a") false)).toOption = none := by
      decide +kernel
    rw [hrequest] at hfails
    cases hfails

end GitWarp
