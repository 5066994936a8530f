import GitWarp.GraphCoherence

/-! Checkpoints. A checkpoint stores the cached state compacted, next to a frontier that was read from the
refs. Loaded again, the state stands for that frontier if it did so in the instance, and if no writer is
named `__proto__`, whose tip the stored frontier loses. -/

namespace GitWarp
open Js ExceptLoops

variable {V T Hash Buffer : Type}

/-! ### What is stored can be loaded -/

theorem decodable_of_orsetSerialize {set : ORSet} {obj : ORSetObject} (h : orsetSerialize set = .ok obj) :
    set.Decodable := by
  have hsorted : ∀ {encoded sorted : List JsString}, sortedDots encoded = .ok sorted →
      ∀ e ∈ encoded, ∃ dot, decodeDot e = .ok dot := by
    intro encoded sorted hsort e he
    unfold sortedDots at hsort
    cases hpairs : encoded.mapM (fun e => (do return (e, ← decodeDot e) : Except JsError _)) with
    | error err => rw [hpairs] at hsort; cases hsort
    | ok pairs =>
        obtain ⟨pair, hpair⟩ := exists_mapM_ok_iff.mp ⟨pairs, hpairs⟩ e he
        cases hdot : decodeDot e with
        | error err => rw [hdot] at hpair; cases hpair
        | ok dot => exact ⟨dot, rfl⟩
  unfold orsetSerialize at h
  cases hentries : set.entries.entries.mapM (fun entry =>
      (do return (entry.1, ← sortedDots entry.2.elems) : Except JsError _)) with
  | error err => rw [hentries] at h; cases h
  | ok array =>
      rw [hentries] at h
      cases htombs : sortedDots set.tombstones.elems with
      | error err => rw [htombs] at h; cases h
      | ok tombs =>
          refine ⟨fun element encoded hencoded => ?_, hsorted htombs⟩
          obtain ⟨dots, hget, hmem⟩ := (set.mem_dotsOf_iff element encoded).mp hencoded
          obtain ⟨pair, hpair⟩ := exists_mapM_ok_iff.mp ⟨array, hentries⟩ (element, dots)
            ((JsMap.get_eq_some_iff set.entries element dots).mp hget)
          cases hdots : sortedDots dots.elems with
          | error err => rw [hdots] at hpair; cases hpair
          | ok sorted => exact hsorted hdots encoded hmem

theorem positive_of_vvSerialize {vv : VersionVector} {obj : PlainObject Nat} (h : vvSerialize vv = .ok obj) :
    vv.Positive := by
  intro writerId hzero
  have hmem : writerId ∈ vv.sortedKeys := by
    unfold VersionVector.sortedKeys
    rw [List.mem_insertionSort, JsMap.mem_keys_iff, hzero]
    rfl
  obtain ⟨before, after, hstep⟩ := exists_step_of_foldlM_ok h hmem
  rw [hzero] at hstep
  cases hstep

/-- A state that was serialized without an error is one that can be. -/
theorem storable_of_serialize {state : WarpStateV5 V} {obj : FullStateObject V}
    (h : fullStateObject state = .ok obj) : state.Storable := by
  unfold fullStateObject at h
  cases hnodes : orsetSerialize state.nodeAlive with
  | error err => rw [hnodes] at h; cases h
  | ok nodes =>
      rw [hnodes] at h
      simp only [bind, Except.bind] at h
      cases hedges : orsetSerialize state.edgeAlive with
      | error err => rw [hedges] at h; cases h
      | ok edges =>
          rw [hedges] at h
          simp only at h
          cases hfrontier : vvSerialize state.observedFrontier with
          | error err => rw [hfrontier] at h; cases h
          | ok frontier =>
              refine ⟨fun part => ?_, positive_of_vvSerialize hfrontier⟩
              cases part with
              | false => exact decodable_of_orsetSerialize hnodes
              | true => exact decodable_of_orsetSerialize hedges

/-- A checkpoint that can be stored loads back as the state without some removed dots. -/
theorem reloadCheckpoint_eq_ok {codec : CodecPort (FullStateObject V) Buffer} (hcodec : codec.Inverts)
    {state loaded : WarpStateV5 V} (h : reloadCheckpoint codec state = .ok loaded) :
    ∃ vv, (∀ edges, (loaded.part edges).view =
        (state.part edges).view.drop ((state.part edges).compactable vv)) ∧
      (∀ key, loaded.prop.get key = state.prop.get key) ∧
      ∀ key, loaded.edgeBirthEvent.get key = state.edgeBirthEvent.get key := by
  unfold reloadCheckpoint at h
  cases hstored : checkpointState state with
  | error err => rw [hstored] at h; cases h
  | ok stored =>
      rw [hstored] at h
      have hobject : ∃ obj, fullStateObject stored = .ok obj := by
        cases hobj : fullStateObject stored with
        | error err =>
            simp only [bind, Except.bind, serializeFullStateV5, hobj] at h
            cases h
        | ok obj => exact ⟨obj, rfl⟩
      obtain ⟨obj, hobj⟩ := hobject
      obtain ⟨loaded', hloaded', hviews, hprop, hbirths, -⟩ :=
        reload_fullState hcodec (storable_of_serialize hobj)
      have heq : loaded' = loaded := Except.ok.inj (hloaded'.symm.trans h)
      subst heq
      unfold checkpointState at hstored
      cases hvv : computeAppliedVV state with
      | error err => rw [hvv] at hstored; cases hstored
      | ok vv =>
          rw [hvv] at hstored
          simp only [bind, Except.bind] at hstored
          cases hnodes : orsetCompact state.nodeAlive vv with
          | error err => rw [hnodes] at hstored; cases hstored
          | ok nodes =>
              cases hedges : orsetCompact state.edgeAlive vv with
              | error err => simp only [hnodes, hedges] at hstored; cases hstored
              | ok edges =>
                  simp only [hnodes, hedges] at hstored
                  cases hstored
                  refine ⟨vv, fun part => ?_, hprop, hbirths⟩
                  rw [hviews]
                  cases part with
                  | false => exact view_orsetCompact hnodes
                  | true => exact view_orsetCompact hedges

/-- The stored frontier has every tip but that of `__proto__`. -/
theorem get_storedFrontier (frontier : Frontier) (writerId : JsString) :
    (storedFrontier frontier).get writerId =
      if writerId = protoKey then none else frontier.get writerId := by
  obtain ⟨step, hstored, hstep⟩ : ∃ step : PlainObject Sha → JsString → PlainObject Sha,
      storedFrontier frontier =
        JsMap.ofEntries ((frontier.keys.insertionSort (· ≤ ·)).foldl step PlainObject.empty).entries ∧
        ∀ obj key, step obj key = (frontier.get key).elim obj (obj.assign key) := by
    refine ⟨_, rfl, fun obj key => ?_⟩
    cases frontier.get key <;> rfl
  have hloop : ∀ (keys : List JsString) (obj : PlainObject Sha), writerId ≠ protoKey →
      (keys.foldl step obj).props.get writerId =
      if writerId ∈ keys then (frontier.get writerId).or (obj.props.get writerId)
      else obj.props.get writerId := by
    intro keys
    induction keys with
    | nil => exact fun obj _ => rfl
    | cons key rest ih =>
        intro obj hproto
        rw [List.foldl_cons, ih _ hproto, hstep]
        by_cases hkey : writerId = key
        · subst hkey
          cases frontier.get writerId <;> simp [PlainObject.get_assign, hproto]
        · cases frontier.get key <;> simp [hkey, PlainObject.get_assign]
  have hentries : ∀ obj : PlainObject Sha, (JsMap.ofEntries obj.entries).get writerId =
      obj.props.get writerId := fun obj => JsMap.get_ofEntries_of_perm (List.Perm.refl _) writerId
  rw [hstored, hentries]
  by_cases hproto : writerId = protoKey
  · rw [if_pos hproto, hproto]
    exact PlainObject.noProto _
  · rw [if_neg hproto]
    refine (hloop (frontier.keys.insertionSort (· ≤ ·)) PlainObject.empty hproto).trans ?_
    have hmem : writerId ∈ frontier.keys.insertionSort (· ≤ ·) ↔ (frontier.get writerId).isSome = true := by
      rw [List.mem_insertionSort, JsMap.mem_keys_iff]
    have hempty : (PlainObject.empty : PlainObject Sha).props.get writerId = none := rfl
    cases hget : frontier.get writerId <;> simp [hmem, hget, hempty]

/-- A checkpoint that is drafted for the frontier of a coherent instance stands for the frontier it stores. -/
theorem represents_checkpointCommit {services : GraphServices V T Hash Buffer}
    (hcodec : services.codec.Inverts) {store : ObjectStore V} {graph : WarpGraph V T Hash}
    {frontier : Frontier} {commit : Commit V} (hcoherent : Coherent store graph)
    (hceiling : graph.cachedCeiling = none) (htips : SameTips graph.frontier frontier)
    (hproto : frontier.get protoKey = none) (h : graph.checkpointCommit services frontier = .ok commit) :
    ∃ parents schema state, commit = ⟨parents, .checkpoint schema state (storedFrontier frontier)⟩ ∧
      Represents store (storedFrontier frontier) state := by
  unfold WarpGraph.checkpointCommit at h
  split at h
  · cases h
  · rename_i state hcached
    cases hreload : reloadCheckpoint services.codec state with
    | error err => rw [hreload] at h; cases h
    | ok stored =>
        rw [hreload] at h
        cases h
        refine ⟨_, _, stored, rfl, ?_⟩
        obtain ⟨vv, hparts, hprop, hbirths⟩ := reloadCheckpoint_eq_ok hcodec hreload
        refine ((hcoherent state hcached hceiling).compact vv hparts hprop hbirths).of_frontier
          fun writerId => ?_
        rw [get_storedFrontier, htips writerId]
        split
        · rename_i hwriter
          rw [hwriter, hproto]
        · rfl

end GitWarp
