import GitWarp.TemporalQuery
import GitWarp.SyncCheckpoints

/-! Temporal queries from a checkpoint. The greatest tick in the frontier of the checkpoint is a tick that
some patch carries, its own or one of its context. Where the patches up to that tick are those of the
checkpoint, replaying the others on top of it shows what replaying all of them shows. -/

namespace GitWarp
open Js ExceptLoops

variable {V Buffer : Type}

/-! ### The greatest tick of a checkpoint -/

/-- Some patch carries a tick that is not below `tick`, for a writer whom checkpoints keep. -/
def Reached (earlier : List (PatchEntry V)) (tick : Int) : Prop :=
  tick ≤ 0 ∨ ∃ seen ∈ earlier, ∃ writerId, writerId ≠ protoKey ∧ tick ≤ seen.patch.tickOf writerId

theorem le_maxLamportFromState_iff (state : WarpStateV5 V) {n : Nat} (hn : 0 < n) :
    n ≤ maxLamportFromState state ↔ ∃ writerId, n ≤ state.observedFrontier.counter writerId := by
  have hloop : ∀ (values : List Nat) (start : Nat),
      n ≤ values.foldl (fun max v => if max < v then v else max) start ↔ n ≤ start ∨ ∃ v ∈ values, n ≤ v := by
    intro values
    induction values with
    | nil => simp
    | cons v rest ih =>
        intro start
        rw [List.foldl_cons, ih, List.exists_mem_cons_iff, ← or_assoc]
        refine or_congr_left ?_
        split <;> omega
  have hzero : ¬ n ≤ 0 := by omega
  unfold maxLamportFromState
  rw [hloop, or_iff_right hzero]
  constructor
  · rintro ⟨v, hv, hle⟩
    obtain ⟨writerId, hget⟩ := (JsMap.mem_values_iff _ v).mp hv
    refine ⟨writerId, ?_⟩
    unfold VersionVector.counter
    rw [hget]
    exact hle
  · rintro ⟨writerId, hle⟩
    unfold VersionVector.counter at hle
    cases hget : state.observedFrontier.get writerId with
    | none =>
        rw [hget] at hle
        exact absurd hle hzero
    | some v =>
        rw [hget] at hle
        exact ⟨v, (JsMap.mem_values_iff _ v).mpr ⟨writerId, hget⟩, hle⟩

/-- The frontier of a replay reaches a tick exactly if a patch does. -/
theorem le_counter_reduceV5_iff {entries : List (PatchEntry V)} {state : WarpStateV5 V}
    (hwell : ∀ entry ∈ entries, entry.WellFormed) (h : reduceV5 entries = .ok state) (writerId : JsString)
    {n : Nat} (hn : 0 < n) :
    n ≤ state.observedFrontier.counter writerId ↔ ∃ entry ∈ entries, n ≤ entry.patch.tickOf writerId := by
  have hpositive := positive_of_replay hwell h
  have hreplay := WarpStateV5.isReplayOf_of_reduceV5 h
  have hview : n ≤ state.observedFrontier.counter writerId ↔ tickLevel n ≤ state.view.frontier writerId := by
    rw [← tickLevel_le_iff hn, ← level_eq_tickLevel hpositive]
    rfl
  have hprime := hreplay.view_prime (P := fun v => tickLevel n ≤ v.frontier writerId)
    (fun a b => by rw [StateView.sup_frontier, Pi.sup_apply, le_sup_iff])
    (by rw [StateView.bot_frontier, Pi.bot_apply, le_bot_iff, tickLevel, if_neg hn.ne']; exact WithBot.coe_ne_bot)
  rw [hview, hprime]
  constructor
  · rintro ⟨entry, read, hentry, hread, hle⟩
    rw [frontier_of_readPatch hread (hwell entry hentry).context, tickLevel_le_iff hn] at hle
    exact ⟨entry, hentry, hle⟩
  · rintro ⟨entry, hentry, hle⟩
    obtain ⟨read, hread⟩ := (hwell entry hentry).readable
    refine ⟨entry, read, hentry, hread, ?_⟩
    rw [frontier_of_readPatch hread (hwell entry hentry).context, tickLevel_le_iff hn]
    exact hle

theorem reached_iff {codec : CodecPort (FullStateObject V) Buffer} (hcodec : codec.Inverts)
    {earlier : List (PatchEntry V)} (hwell : ∀ entry ∈ earlier, entry.WellFormed) {ck : TemporalCheckpoint V}
    (h : temporalCheckpoint codec earlier = .ok ck) (tick : Int) :
    Reached earlier tick ↔ tick ≤ ck.maxLamport := by
  unfold temporalCheckpoint at h
  cases hstate : reduceV5 earlier with
  | error err => rw [hstate] at h; cases h
  | ok state =>
      obtain ⟨loaded, vv, hloaded, -, -, -, hfrontier⟩ :=
        reloadCheckpoint_ok hcodec (storable_of_replay hwell hstate)
      simp only [hstate, hloaded, bind, Except.bind, pure, Except.pure, Except.ok.injEq] at h
      subst h
      rcases le_or_gt tick 0 with hle | hpos
      · exact iff_of_true (Or.inl hle) (hle.trans (Int.natCast_nonneg _))
      · obtain ⟨n, rfl⟩ := Int.eq_ofNat_of_zero_le hpos.le
        have hn : 0 < n := Int.natCast_pos.mp hpos
        have hcounter : ∀ writerId, loaded.observedFrontier.counter writerId =
            if writerId = protoKey then 0 else state.observedFrontier.counter writerId := by
          intro writerId
          unfold VersionVector.counter
          rw [hfrontier]
          split <;> rfl
        rw [Nat.cast_le, le_maxLamportFromState_iff loaded hn, Reached, or_iff_right (not_le.mpr hpos)]
        simp only [hcounter]
        constructor
        · rintro ⟨seen, hseen, writerId, hproto, hle⟩
          refine ⟨writerId, ?_⟩
          rw [if_neg hproto, le_counter_reduceV5_iff hwell hstate writerId hn]
          exact ⟨seen, hseen, Nat.cast_le.mp hle⟩
        · rintro ⟨writerId, hle⟩
          by_cases hproto : writerId = protoKey
          · rw [if_pos hproto] at hle
            omega
          · rw [if_neg hproto, le_counter_reduceV5_iff hwell hstate writerId hn] at hle
            obtain ⟨seen, hseen, hle⟩ := hle
            exact ⟨seen, hseen, writerId, hproto, Nat.cast_le.mpr hle⟩

/-! ### Replaying on top of the checkpoint -/

/-- No two properties of the node that the history sets are shown under one name. -/
def NamesApart (nodeId : JsString) (history : List (PatchEntry V)) : Prop :=
  ∀ entry ∈ history, ∀ other ∈ history, ∀ key key', entry.Sets key → other.Sets key' →
    IsPropKeyOf nodeId key → IsPropKeyOf nodeId key' → (decodePropKey key).2 = (decodePropKey key').2 → key = key'

theorem NamesApart.mono {nodeId : JsString} {history some : List (PatchEntry V)} (h : NamesApart nodeId history)
    (hsub : ∀ entry ∈ some, entry ∈ history) : NamesApart nodeId some :=
  fun entry hentry other hother => h entry (hsub entry hentry) other (hsub other hother)

/-- The patches `Q` on top of the checkpoint of `P` show what they show on top of the same patches in
another order. -/
theorem showSame_reload {codec : CodecPort (FullStateObject V) Buffer} (hcodec : codec.Inverts)
    {P A Q : List (PatchEntry V)} (hwell : ∀ entry ∈ P ++ Q, entry.WellFormed)
    (hdots : (addDots (P ++ Q)).Nodup) (hshas : ConsistentShas (A ++ Q)) (hmem : ∀ entry, entry ∈ P ↔ entry ∈ A)
    {readsA readsQ : List (ReadPatch V)} (hreadsA : A.mapM readPatch = .ok readsA)
    (hreadsQ : Q.mapM readPatch = .ok readsQ) {state loaded : WarpStateV5 V} (hstate : reduceV5 P = .ok state)
    (hloaded : reloadCheckpoint codec state = .ok loaded) {nodeId : JsString} (hnames : NamesApart nodeId (A ++ Q)) :
    ShowSame nodeId (readsQ.foldl applyRead (readsA.foldl applyRead createEmptyStateV5))
      (readsQ.foldl applyRead loaded) := by
  obtain ⟨readsP, hreadsP, rfl⟩ := reduceV5_eq_ok_iff.mp hstate
  obtain ⟨loaded', hloaded', halive, hprop, -⟩ := incremental_parts hcodec hwell hdots hreadsP hreadsQ
  rw [hloaded, Except.ok.injEq] at hloaded'
  subst hloaded'
  have hreadsAQ : (A ++ Q).mapM readPatch = .ok (readsA ++ readsQ) := by
    rw [List.mapM_append, hreadsA, hreadsQ]
    rfl
  have hreadsPQ : (P ++ Q).mapM readPatch = .ok (readsP ++ readsQ) := by
    rw [List.mapM_append, hreadsP, hreadsQ]
    rfl
  have hmemAll : ∀ entry, entry ∈ P ++ Q ↔ entry ∈ A ++ Q := by
    intro entry
    rw [List.mem_append, List.mem_append, hmem]
  have hview : ((readsA ++ readsQ).foldl applyRead (createEmptyStateV5 : WarpStateV5 V)).view =
      ((readsP ++ readsQ).foldl applyRead createEmptyStateV5).view := by
    rw [view_foldl_applyRead, view_foldl_applyRead]
    congr 1
    refine joinAll_congr _ fun read => ?_
    rw [mem_of_mapM_ok hreadsAQ, mem_of_mapM_ok hreadsPQ]
    simp only [hmemAll]
  have hsame := (replayed_of_reads hreadsAQ).same_of_view_eq hshas
    ((replayed_of_reads hreadsPQ).mono fun entry h => (hmemAll entry).mp h) hview
  rw [← List.foldl_append]
  refine ⟨?_, fun key => ?_, ?_⟩
  · have hnodes := congrArg (fun v => v.nodes.Alive nodeId) hview
    exact (orsetContains_eq_of_view (Eq.to_iff hnodes)).trans (halive false nodeId).symm
  · rw [hsame.prop, hprop]
  · intro key key' hkey hkey'
    obtain ⟨entry, hentry, hsets⟩ := sets_of_register hreadsAQ hkey
    obtain ⟨other, hother, hsets'⟩ := sets_of_register hreadsAQ hkey'
    exact hnames entry hentry other hother key key' hsets hsets'

theorem nodup_addDots_of_subperm {some all : List (PatchEntry V)} (h : some.Subperm all)
    (hdots : (addDots all).Nodup) : (addDots some).Nodup := by
  obtain ⟨entries, hperm, hsub⟩ := h
  exact (hperm.flatMap_right _).nodup_iff.mp ((hsub.flatMap _).nodup hdots)

/-- At every point after the skipped patches `A` both replays show the same. -/
theorem showSame_after {codec : CodecPort (FullStateObject V) Buffer} (hcodec : codec.Inverts)
    {earlier A B history : List (PatchEntry V)} (hperm : (A ++ B).Perm history)
    (hwell : ∀ entry ∈ history, entry.WellFormed) (hdots : (addDots history).Nodup)
    (hshas : ConsistentShas history) (hsub : earlier.Subperm A) (hmem : ∀ entry, entry ∈ earlier ↔ entry ∈ A)
    {readsA readsB : List (ReadPatch V)} (hreadsA : A.mapM readPatch = .ok readsA)
    (hreadsB : B.mapM readPatch = .ok readsB) {ck : TemporalCheckpoint V}
    (hck : temporalCheckpoint codec earlier = .ok ck) {nodeId : JsString} (hnames : NamesApart nodeId history)
    (k : Nat) :
    ShowSame nodeId ((readsB.take k).foldl applyRead (readsA.foldl applyRead createEmptyStateV5))
      ((readsB.take k).foldl applyRead ck.state) := by
  have htake : (earlier ++ B.take k).Subperm history :=
    (hsub.append (List.take_sublist k B).subperm).trans hperm.subperm
  have hpart : ∀ entry ∈ A ++ B.take k, entry ∈ history := by
    intro entry hentry
    refine hperm.mem_iff.mp ?_
    rcases List.mem_append.mp hentry with hA | hB
    · exact List.mem_append_left B hA
    · exact List.mem_append_right A (List.mem_of_mem_take hB)
  unfold temporalCheckpoint at hck
  cases hstate : reduceV5 earlier with
  | error err => rw [hstate] at hck; cases hck
  | ok state =>
      cases hloaded : reloadCheckpoint codec state with
      | error err => simp only [hstate, hloaded, bind, Except.bind] at hck; cases hck
      | ok loaded =>
          simp only [hstate, hloaded, bind, Except.bind] at hck
          cases hck
          exact showSame_reload hcodec (fun entry h => hwell entry (htake.subset h))
            (nodup_addDots_of_subperm htake hdots)
            (fun entry h other h' => hshas entry (hpart entry h) other (hpart other h')) hmem hreadsA
            (mapM_take_ok hreadsB k) hstate hloaded (hnames.mono hpart)

/-! ### The answers -/

theorem sorted_sortPatchesCausally (localeCompare : JsString → JsString → Int) (patches : List (PatchEntry V)) :
    (sortPatchesCausally localeCompare patches).Pairwise fun a b => a.patch.lamport ≤ b.patch.lamport := by
  apply Lists.pairwise_insertionSort_key _ fun entry : PatchEntry V => entry.patch.lamport
  · rintro a b (hlt | ⟨heq, -⟩)
    · exact hlt.le
    · exact heq.le
  · intro a b hnot
    rw [not_or, not_lt] at hnot
    exact hnot.1

/-- The checkpoint has what the query skips: every patch up to the greatest tick that it reaches, and of the
ticks from `since` on none but the last state of its greatest one. -/
structure Covers (earlier history : List (PatchEntry V)) (nodeId : JsString)
    (predicate : NodeSnapshot V → Bool) (since : Int) : Prop where
  patches : ∀ entry ∈ history, entry ∈ earlier ↔ Reached earlier entry.patch.lamport
  boundary : Reached earlier since →
    ∃ entry, history.filter (fun entry => (entry.patch.lamport : Int) = since) = [entry]
  names : NamesApart nodeId history
  byName : AsksByName predicate

/-- What a query comes by from a checkpoint that covers what it skips. -/
theorem seen_alike {codec : CodecPort (FullStateObject V) Buffer} (hcodec : codec.Inverts)
    (localeCompare : JsString → JsString → Int) (inline : V → Option (Option V))
    {earlier history : List (PatchEntry V)} (hwell : ∀ entry ∈ history, entry.WellFormed)
    (hdots : (addDots history).Nodup) (hshas : ConsistentShas history) (hearlier : earlier.Subperm history)
    {nodeId : JsString} {predicate : NodeSnapshot V → Bool} {since : Int} {ck : TemporalCheckpoint V}
    (hck : temporalCheckpoint codec earlier = .ok ck) (hpos : 0 < since) (hused : (ck.maxLamport : Int) ≤ since)
    (hcovers : Covers earlier history nodeId predicate since) :
    ∃ seenCk seenAll,
      TemporalQuery.seen inline nodeId since ⟨sortPatchesCausally localeCompare history, some ck⟩ = .ok seenCk ∧
      TemporalQuery.seen inline nodeId since ⟨sortPatchesCausally localeCompare history, none⟩ = .ok seenAll ∧
      List.Forall₂ NodeSnapshot.Alike seenAll seenCk := by
  have hreached := reached_iff hcodec (fun entry h => hwell entry (hearlier.subset h)) hck
  have hperm : (sortPatchesCausally localeCompare history).Perm history := List.perm_insertionSort _ _
  have hsorted := sorted_sortPatchesCausally localeCompare history
  obtain ⟨hskipped, hlater⟩ := Lists.findIdx_split (fun entry : PatchEntry V => entry.patch.lamport)
    hsorted ck.maxLamport
  have hsplit := List.take_append_drop
    ((sortPatchesCausally localeCompare history).findIdx fun entry => ck.maxLamport < entry.patch.lamport)
    (sortPatchesCausally localeCompare history)
  unfold TemporalQuery.seen resolveStart
  simp only [hpos, if_true, hused, List.drop_zero, Option.map_some, Option.map_none, Int.ofNat_eq_natCast]
  generalize (sortPatchesCausally localeCompare history).take _ = A at hskipped hsplit
  generalize (sortPatchesCausally localeCompare history).drop _ = B at hlater hsplit ⊢
  rw [← hsplit] at hperm hsorted ⊢
  have hsub : earlier.Subperm A := by
    have hfilter := (hearlier.trans hperm.symm.subperm).filter fun entry => entry.patch.lamport ≤ ck.maxLamport
    have hall : earlier.filter (fun entry => entry.patch.lamport ≤ ck.maxLamport) = earlier := by
      refine List.filter_eq_self.mpr fun entry hentry => decide_eq_true ?_
      have := (hreached _).mp ((hcovers.patches entry (hearlier.subset hentry)).mp hentry)
      exact Nat.cast_le.mp this
    have hleft : A.filter (fun entry => entry.patch.lamport ≤ ck.maxLamport) = A :=
      List.filter_eq_self.mpr fun entry hentry => decide_eq_true (hskipped entry hentry)
    have hright : B.filter (fun entry => entry.patch.lamport ≤ ck.maxLamport) = [] :=
      List.filter_eq_nil_iff.mpr fun entry hentry hle =>
        absurd (of_decide_eq_true hle) (not_le.mpr (hlater entry hentry))
    rwa [List.filter_append, hall, hleft, hright, List.append_nil] at hfilter
  have hmem : ∀ entry, entry ∈ earlier ↔ entry ∈ A := by
    refine fun entry => ⟨fun hentry => hsub.subset hentry, fun hentry => ?_⟩
    refine (hcovers.patches entry (hperm.mem_iff.mp (List.mem_append_left B hentry))).mpr ?_
    exact (hreached _).mpr (Nat.cast_le.mpr (hskipped entry hentry))
  obtain ⟨readsA, hreadsA⟩ := exists_reads_of_wellFormed fun entry hentry =>
    hwell entry (hperm.mem_iff.mp (List.mem_append_left B hentry))
  obtain ⟨readsB, hreadsB⟩ := exists_reads_of_wellFormed fun entry hentry =>
    hwell entry (hperm.mem_iff.mp (List.mem_append_right A hentry))
  have hshow := showSame_after hcodec hperm hwell hdots hshas hsub hmem hreadsA hreadsB hck hcovers.names
  obtain ⟨seenAll, seenCk, hseenAll, hseenCk, halike⟩ := seenFrom_alike inline since hreadsB hshow
  simp only [hseenCk, bind, Except.bind, pure, Except.pure, reduceCtorEq, if_false, List.nil_append]
  rcases hused.lt_or_eq with hbelow | hboundary
  · -- no tick of the skipped patches is asked for
    have hearly : ∀ entry ∈ A, (entry.patch.lamport : Int) < since :=
      fun entry hentry => (Nat.cast_le.mpr (hskipped entry hentry)).trans_lt hbelow
    rw [seenFrom_skip hreadsA hearly, hseenAll, if_neg fun heq => hbelow.ne (Option.some.inj heq)]
    exact ⟨_, _, rfl, rfl, halike⟩
  · -- the last skipped patch is the only one at the boundary
    obtain ⟨last, hlast⟩ := hcovers.boundary ((hreached since).mpr hboundary.ge)
    have honly : A.filter (fun entry => (entry.patch.lamport : Int) = since) = [last] := by
      have hright : B.filter (fun entry => (entry.patch.lamport : Int) = since) = [] :=
        List.filter_eq_nil_iff.mpr fun entry hentry heq => by
          have hbeyond := hlater entry hentry
          have hequal : (entry.patch.lamport : Int) = since := of_decide_eq_true heq
          omega
      have hfilter := hperm.filter fun entry => (entry.patch.lamport : Int) = since
      rw [hlast, List.filter_append, hright, List.append_nil] at hfilter
      exact List.perm_singleton.mp hfilter
    have hsortedA : A.Pairwise fun a b => (a.patch.lamport : Int) ≤ b.patch.lamport :=
      (List.pairwise_append.mp hsorted).1.imp fun h => Nat.cast_le.mpr h
    obtain ⟨before, rfl, hbefore⟩ := Lists.eq_append_of_filter_eq
      (fun entry : PatchEntry V => (entry.patch.lamport : Int)) hsortedA
      (fun entry hentry => (Nat.cast_le.mpr (hskipped entry hentry)).trans hused) honly
    obtain ⟨readsBefore, hreadsBefore⟩ := exists_reads_of_wellFormed fun entry hentry =>
      hwell entry (hperm.mem_iff.mp (List.mem_append_left B (List.mem_append_left [last] hentry)))
    obtain ⟨readLast, hreadLast⟩ :=
      (hwell last (hperm.mem_iff.mp (List.mem_append_left B (List.mem_append_right before (List.mem_singleton_self last))))).readable
    have hreads : (before ++ [last]).mapM readPatch = .ok (readsBefore ++ [readLast]) := by
      have hone : [last].mapM readPatch = .ok [readLast] := mapM_cons_ok_iff.mpr ⟨_, [], hreadLast, rfl, rfl⟩
      rw [List.mapM_append, hreadsBefore, hone]
      rfl
    rw [hreadsA, Except.ok.injEq] at hreads
    subst hreads
    have hat : ¬ (last.patch.lamport : Int) < since := by
      have hmember : last ∈ [last] := List.mem_singleton_self last
      rw [← honly] at hmember
      have hequal : (last.patch.lamport : Int) = since := of_decide_eq_true (List.mem_filter.mp hmember).2
      omega
    rw [List.foldl_append, List.foldl_cons, List.foldl_nil] at hseenAll
    rw [List.append_assoc, seenFrom_skip hreadsBefore hbefore, List.singleton_append, seenFrom,
      join_of_read hreadLast]
    simp only [bind, Except.bind, hseenAll, pure, Except.pure, hat, if_false, hboundary, if_true]
    refine ⟨_, _, rfl, rfl, List.rel_append ?_ halike⟩
    have hhere := snapshotsOf_alike inline (hshow 0)
    rwa [List.take_zero, List.foldl_nil, List.foldl_nil, List.foldl_append] at hhere

/-- Temporal queries answer from a checkpoint as from the empty state, if a checkpoint that is used covers what
they skip. -/
theorem temporalAgrees_of_covers (codec : CodecPort (FullStateObject V) Buffer) (hcodec : codec.Inverts)
    (localeCompare : JsString → JsString → Int) (inline : V → Option (Option V))
    (earlier history : List (PatchEntry V)) (hwell : ∀ entry ∈ history, entry.WellFormed)
    (hdots : (addDots history).Nodup) (hshas : ConsistentShas history) (hearlier : earlier.Subperm history)
    (nodeId : JsString) (predicate : NodeSnapshot V → Bool) (since : Int)
    (hcovers : 0 < since → ¬ Reached earlier (since + 1) → Covers earlier history nodeId predicate since) :
    TemporalAgrees codec localeCompare inline earlier history nodeId predicate since := by
  have hwellEarlier : ∀ entry ∈ earlier, entry.WellFormed := fun entry h => hwell entry (hearlier.subset h)
  obtain ⟨reads, hreads⟩ := exists_reads_of_wellFormed hwellEarlier
  have hstate := reduceV5_eq_ok_iff.mpr ⟨reads, hreads, rfl⟩
  obtain ⟨loaded, vv, hloaded, -⟩ := reloadCheckpoint_ok hcodec (storable_of_replay hwellEarlier hstate)
  have hck : temporalCheckpoint codec earlier = .ok ⟨loaded, maxLamportFromState loaded⟩ := by
    unfold temporalCheckpoint
    rw [hstate]
    simp only [bind, Except.bind, hloaded]
    rfl
  generalize hgiven : (⟨loaded, maxLamportFromState loaded⟩ : TemporalCheckpoint V) = ck at hck
  refine ⟨ck, hck, ?_⟩
  by_cases hused : 0 < since ∧ (ck.maxLamport : Int) ≤ since
  · obtain ⟨hpos, hmax⟩ := hused
    have hcov := hcovers hpos fun hreached => by
      have := (reached_iff hcodec hwellEarlier hck _).mp hreached
      omega
    obtain ⟨seenCk, seenAll, hseenCk, hseenAll, halike⟩ :=
      seen_alike hcodec localeCompare inline hwell hdots hshas hearlier hck hpos hmax hcov
    obtain ⟨hempty, hall, hany⟩ := answers_alike hcov.byName halike
    rw [always_of_seen predicate hseenCk, always_of_seen predicate hseenAll, eventually_of_seen predicate hseenCk,
      eventually_of_seen predicate hseenAll, hempty, hall, hany]
    exact ⟨rfl, rfl⟩
  · have hstart : ∀ patches : List (PatchEntry V),
        resolveStart ⟨patches, some ck⟩ since = resolveStart ⟨patches, none⟩ since := by
      intro patches
      unfold resolveStart
      by_cases hpos : 0 < since
      · have hmax : ¬ (ck.maxLamport : Int) ≤ since := fun hle => hused ⟨hpos, hle⟩
        simp only [hpos, if_true, hmax, if_false]
      · simp only [hpos, if_false]
    unfold TemporalQuery.always TemporalQuery.eventually
    rw [hstart]
    exact ⟨rfl, rfl⟩

/-! One patch that adds two nodes counts two dots: its checkpoint passes for one of tick 2. -/

/-- Strings compared by code unit. -/
def compareCodeUnits (a b : JsString) : Int := if a < b then -1 else if b < a then 1 else 0

/-- Adds one node. -/
def addsOneNode : PatchEntry Nat :=
  ⟨⟨2, js "w", 1, .record [(js "w", 1)], [.nodeAdd (js "n") ⟨js "w", 1⟩]⟩, js "aaaa"⟩

/-- Adds two nodes. -/
def addsTwoNodes : PatchEntry Nat :=
  ⟨⟨2, js "w", 1, .record [(js "w", 2)], [.nodeAdd (js "n") ⟨js "w", 1⟩, .nodeAdd (js "m") ⟨js "w", 2⟩]⟩, js "aaaa"⟩

/-- Sets a property of the first node. -/
def setsStatus : PatchEntry Nat :=
  ⟨⟨2, js "w", 2, .record [(js "w", 2)], [.propSet (js "n") (js "k") (some 7)]⟩, js "bbbb"⟩

/-- The property has the value that is set. -/
def statusIsSet (snapshot : NodeSnapshot Nat) : Bool := snapshot.props.get (js "k") = some (some 7)

theorem not_temporalAgrees_twoDots :
    ¬ TemporalAgrees identityCodec compareCodeUnits (fun _ => none) [addsTwoNodes] [addsTwoNodes, setsStatus]
      (js "n") statusIsSet 2 := by
  rintro ⟨ck, hck, -, heventually⟩
  have hall : TemporalQuery.eventually (fun _ => none) (js "n") statusIsSet 2
      ⟨sortPatchesCausally compareCodeUnits [addsTwoNodes, setsStatus], none⟩ = .ok true := by decide +kernel
  have hfrom : (temporalCheckpoint identityCodec [addsTwoNodes]).bind (fun ck =>
      TemporalQuery.eventually (fun _ => none) (js "n") statusIsSet 2
        ⟨sortPatchesCausally compareCodeUnits [addsTwoNodes, setsStatus], some ck⟩) = .ok false := by
    decide +kernel
  rw [hck] at hfrom
  rw [hall] at heventually
  cases heventually.symm.trans hfrom

theorem wellFormed_addsOneNode : addsOneNode.WellFormed where
  readable := ⟨_, rfl⟩
  adds op hop dot hdot := by
    cases List.mem_singleton.mp hop
    cases hdot
    exact ⟨by decide, Int.one_pos⟩
  removes op hop encoded hencoded := by
    cases List.mem_singleton.mp hop
    cases hencoded
  context vv hvv writerId hzero := by
    cases hvv
    cases List.mem_singleton.mp ((JsMap.get_eq_some_iff _ _ _).mp hzero)

theorem wellFormed_setsStatus : setsStatus.WellFormed where
  readable := ⟨_, rfl⟩
  adds op hop dot hdot := by
    cases List.mem_singleton.mp hop
    cases hdot
  removes op hop encoded hencoded := by
    cases List.mem_singleton.mp hop
    cases hencoded
  context vv hvv writerId hzero := by
    cases hvv
    cases List.mem_singleton.mp ((JsMap.get_eq_some_iff _ _ _).mp hzero)

theorem tickOf_addsOneNode_le (writerId : JsString) : addsOneNode.patch.tickOf writerId ≤ 1 := by
  have hcontext : contextVV addsOneNode.patch.context = .ok (JsMap.empty.set (js "w") 1) := rfl
  unfold PatchV2.tickOf VersionVector.counter
  simp only [hcontext, JsMap.get_set, JsMap.get_empty]
  refine max_le ?_ ?_
  · split <;> decide
  · split <;> decide

theorem key_of_setsStatus {entry : PatchEntry Nat} (hentry : entry ∈ [addsOneNode, setsStatus]) {key : JsString}
    (h : entry.Sets key) : key = encodePropKey (js "n") (js "k") := by
  obtain ⟨raw, hraw, op, value, hnorm, hwrite⟩ := h
  rcases List.mem_pair.mp hentry with rfl | rfl
  · cases List.mem_singleton.mp hraw
    cases hnorm
    cases hwrite
  · cases List.mem_singleton.mp hraw
    cases hnorm
    cases hwrite
    rfl

theorem temporalAgrees_oneDot :
    TemporalAgrees identityCodec compareCodeUnits (fun _ => none) [addsOneNode] [addsOneNode, setsStatus]
      (js "n") statusIsSet 2 := by
  refine temporalAgrees_of_covers identityCodec (fun _ => rfl) compareCodeUnits (fun _ => none) [addsOneNode]
    [addsOneNode, setsStatus] ?_ (by decide) ?_ ?_ (js "n") statusIsSet 2 ?_
  · exact List.forall_mem_cons.mpr ⟨wellFormed_addsOneNode, List.forall_mem_singleton.mpr wellFormed_setsStatus⟩
  · unfold ConsistentShas
    decide
  · exact List.Sublist.subperm (by simp)
  · intro _ _
    have htick : ∀ tick : Int, 1 < tick → ¬ Reached [addsOneNode] tick := by
      rintro tick hlt (hle | ⟨seen, hseen, writerId, -, hle⟩)
      · omega
      · cases List.mem_singleton.mp hseen
        have := tickOf_addsOneNode_le writerId
        omega
    refine ⟨fun entry hentry => ?_, fun h => absurd h (htick 2 (by decide)), ?_, fun a b h => ?_⟩
    · rcases List.mem_pair.mp hentry with rfl | rfl
      · exact iff_of_true (List.mem_singleton_self _)
          (Or.inr ⟨addsOneNode, List.mem_singleton_self _, js "w", by decide, by decide⟩)
      · refine iff_of_false (fun h => ?_) (htick 2 (by decide))
        exact absurd (congrArg PatchEntry.sha (List.mem_singleton.mp h)) (by decide)
    · intro entry hentry other hother key key' hsets hsets' _ _ _
      rw [key_of_setsStatus hentry hsets, key_of_setsStatus hother hsets']
    · unfold statusIsSet
      rw [h.props]

end GitWarp
