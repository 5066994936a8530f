import GitWarp.ReducerDiffLogs

/-! The log of property changes. An operation can change the value under one key only and logs it then, with
the new value. Merging keeps the last entry of each key, so an entry always carries the current value, and
a key has an entry as soon as its value changed once. -/

namespace GitWarp
open Js ExceptLoops

variable {V : Type}

/-- The value of the register under a property key. -/
def WarpStateV5.valueOf (key : JsString) (state : WarpStateV5 V) : Option V :=
  lwwValue (state.prop.get key)

/-- The property key that an entry of the log is about. -/
def PropDiffEntry.propKey (entry : PropDiffEntry V) : JsString :=
  if fieldSeparator ∈ entry.nodeId then edgePropPrefix :: entry.mapKey else entry.mapKey

/-- What a property operation names in the log: its `nodeId`, its key, and the property key it writes. -/
def OpV2.propTarget : OpV2 V → Option (JsString × JsString × JsString)
  | .propSet node key _ => some (node, key, encodePropKey node key)
  | .nodePropSet node key _ => some (node, key, encodePropKey node key)
  | .edgePropSet edge key _ =>
      some (edge.key, key, encodeEdgePropKey edge.fromId edge.toId edge.label key)
  | _ => none

/-- The identifiers of a property operation contain no separator. -/
def OpV2.CleanProp : OpV2 V → Prop
  | .propSet node key _ => fieldSeparator ∉ node ∧ fieldSeparator ∉ key
  | .nodePropSet node key _ => fieldSeparator ∉ node ∧ fieldSeparator ∉ key
  | .edgePropSet edge key _ => edge.Clean ∧ fieldSeparator ∉ key
  | _ => True

/-- An entry about a node's or an edge's property with clean identifiers. -/
def PropDiffEntry.Clean (entry : PropDiffEntry V) : Prop :=
  fieldSeparator ∉ entry.key ∧
    (fieldSeparator ∉ entry.nodeId ∨ ∃ edge : EdgeRef, edge.Clean ∧ entry.nodeId = edge.key)

/-! ### The key of an entry -/

theorem separator_mem_key (edge : EdgeRef) : fieldSeparator ∈ edge.key := by
  simp [EdgeRef.key, encodeEdgeKey]

/-- A node's entry and an edge's entry have different keys. -/
theorem mapKey_node_ne_edge {node key key' : JsString} {edge : EdgeRef}
    (hnode : fieldSeparator ∉ node) (hkey : fieldSeparator ∉ key) (hedge : edge.Clean) :
    node ++ fieldSeparator :: key ≠ edge.key ++ fieldSeparator :: key' := by
  intro h
  rw [EdgeRef.key, encodeEdgeKey, List.append_assoc, List.cons_append] at h
  have hrest := (field_inj hnode hedge.1 h).2
  rw [hrest] at hkey
  simp at hkey

theorem propKey_node_ne_edge {node key key' : JsString} {edge : EdgeRef}
    (hnode : fieldSeparator ∉ node) (hkey : fieldSeparator ∉ key) (hedge : edge.Clean) :
    node ++ fieldSeparator :: key ≠ edgePropPrefix :: (edge.key ++ fieldSeparator :: key') := by
  intro h
  rw [EdgeRef.key, encodeEdgeKey, List.append_assoc, List.cons_append, ← List.cons_append] at h
  have hfrom : fieldSeparator ∉ edgePropPrefix :: edge.fromId := by
    rw [List.mem_cons, not_or]
    exact ⟨by decide, hedge.1⟩
  have hrest := (field_inj hnode hfrom h).2
  rw [hrest] at hkey
  simp at hkey

/-- On clean entries the key they are merged by and the property they are about determine each other. -/
theorem propKey_eq_iff {a b : PropDiffEntry V} (ha : a.Clean) (hb : b.Clean) :
    a.propKey = b.propKey ↔ a.mapKey = b.mapKey := by
  obtain ⟨hkeyA, ha⟩ := ha
  obtain ⟨hkeyB, hb⟩ := hb
  unfold PropDiffEntry.propKey
  rcases ha with hnodeA | ⟨edgeA, hedgeA, hA⟩ <;> rcases hb with hnodeB | ⟨edgeB, hedgeB, hB⟩
  · rw [if_neg hnodeA, if_neg hnodeB]
  · have hsep : fieldSeparator ∈ b.nodeId := hB ▸ separator_mem_key edgeB
    rw [if_neg hnodeA, if_pos hsep]
    unfold PropDiffEntry.mapKey
    rw [hB]
    exact iff_of_false (propKey_node_ne_edge hnodeA hkeyA hedgeB) (mapKey_node_ne_edge hnodeA hkeyA hedgeB)
  · have hsep : fieldSeparator ∈ a.nodeId := hA ▸ separator_mem_key edgeA
    rw [if_pos hsep, if_neg hnodeB]
    unfold PropDiffEntry.mapKey
    rw [hA]
    exact iff_of_false (fun h => propKey_node_ne_edge hnodeB hkeyB hedgeA h.symm)
      (fun h => mapKey_node_ne_edge hnodeB hkeyB hedgeA h.symm)
  · have hsepA : fieldSeparator ∈ a.nodeId := hA ▸ separator_mem_key edgeA
    have hsepB : fieldSeparator ∈ b.nodeId := hB ▸ separator_mem_key edgeB
    rw [if_pos hsepA, if_pos hsepB, List.cons.injEq]
    exact and_iff_right rfl

theorem propTarget_clean {op : OpV2 V} (hclean : op.CleanProp) {nodeId key propKey : JsString}
    (htarget : op.propTarget = some (nodeId, key, propKey)) (value prevValue : Option V) :
    (⟨nodeId, key, value, prevValue⟩ : PropDiffEntry V).Clean ∧
      (⟨nodeId, key, value, prevValue⟩ : PropDiffEntry V).propKey = propKey := by
  cases op with
  | propSet node k v =>
      cases htarget
      exact ⟨⟨hclean.2, Or.inl hclean.1⟩, if_neg hclean.1⟩
  | nodePropSet node k v =>
      cases htarget
      exact ⟨⟨hclean.2, Or.inl hclean.1⟩, if_neg hclean.1⟩
  | edgePropSet edge k v =>
      cases htarget
      refine ⟨⟨hclean.2, Or.inr ⟨edge, hclean.1, rfl⟩⟩, ?_⟩
      refine (if_pos (separator_mem_key edge)).trans ?_
      simp [PropDiffEntry.mapKey, EdgeRef.key, encodeEdgeKey, encodeEdgePropKey]
  | _ => cases htarget

/-! ### One operation -/

/-- Only the key an operation writes can change its value. -/
theorem valueOf_applyEvent_of_ne (state : WarpStateV5 V) (event : OpV2 V × EventId) {propKey : JsString}
    (h : ∀ nodeId key, event.1.propTarget ≠ some (nodeId, key, propKey)) :
    (applyEvent state event).valueOf propKey = state.valueOf propKey := by
  unfold WarpStateV5.valueOf
  rw [prop_applyEvent]
  obtain ⟨op, eventId⟩ := event
  cases hwrite : op.write with
  | none => rfl
  | some target =>
      obtain ⟨key', value⟩ := target
      have hne : propKey ≠ key' := by
        rintro rfl
        cases op with
        | propSet node k v =>
            simp only [OpV2.write] at hwrite
            split at hwrite
            · cases hwrite
            · cases hwrite
              exact h _ _ rfl
        | nodePropSet node k v =>
            cases hwrite
            exact h _ _ rfl
        | edgePropSet edge k v =>
            cases hwrite
            exact h _ _ rfl
        | _ => cases hwrite
      simp only [get_setRegister, if_neg hne]

variable [JsReferences V]

/-- The operation writes the property, and leaves another value than the one before. -/
def changesValue (propKey : JsString) (state : WarpStateV5 V) (event : OpV2 V × EventId) : Bool :=
  match event.1.propTarget with
  | some (_, _, target) =>
      target = propKey && !strictEquals ((applyEvent state event).valueOf propKey) (state.valueOf propKey)
  | none => false

theorem valueOf_applyEvent_of_quiet {propKey : JsString} (state : WarpStateV5 V) (event : OpV2 V × EventId)
    (h : changesValue propKey state event = false) :
    (applyEvent state event).valueOf propKey = state.valueOf propKey := by
  by_cases htarget : ∃ nodeId key, event.1.propTarget = some (nodeId, key, propKey)
  · obtain ⟨nodeId, key, htarget⟩ := htarget
    simp only [changesValue, htarget, decide_true, Bool.true_and, Bool.not_eq_false'] at h
    exact eq_of_strictEquals h
  · exact valueOf_applyEvent_of_ne state event fun nodeId key heq => htarget ⟨nodeId, key, heq⟩

/-- The entries that one operation logs. -/
def eventEntries (state : WarpStateV5 V) (event : OpV2 V × EventId) : List (PropDiffEntry V) :=
  match event.1.propTarget with
  | some (nodeId, key, propKey) =>
      if strictEquals ((applyEvent state event).valueOf propKey) (state.valueOf propKey) = false then
        [⟨nodeId, key, (applyEvent state event).valueOf propKey, state.valueOf propKey⟩]
      else []
  | none => []

theorem propsChanged_pushPropChange (diff : PatchDiff V) (state : WarpStateV5 V)
    (nodeId key propKey : JsString) (prev : Option V) :
    (pushPropChange diff state nodeId key { prevPropValue := prev, propKey := propKey }).propsChanged =
      diff.propsChanged ++
        if strictEquals (state.valueOf propKey) prev = false then [⟨nodeId, key, state.valueOf propKey, prev⟩]
        else [] := by
  unfold pushPropChange WarpStateV5.valueOf
  cases h : strictEquals (lwwValue (state.prop.get propKey)) prev <;> simp [h]

theorem propsChanged_diffEvent (acc : WarpStateV5 V × PatchDiff V) (event : OpV2 V × EventId) :
    (diffEvent acc event).2.propsChanged = acc.2.propsChanged ++ eventEntries acc.1 event := by
  obtain ⟨state, diff⟩ := acc
  obtain ⟨op, eventId⟩ := event
  cases op with
  | nodeAdd node dot =>
      by_cases hraised : orsetContains state.nodeAlive node = false ∧
          orsetContains (orsetAdd state.nodeAlive node dot) node = true <;>
        simp [diffEvent, accumulateOpDiff, snapshotBeforeOp, applyEvent, applyOpV2, pure,
          Except.pure, hraised, eventEntries, OpV2.propTarget]
  | edgeAdd edge dot =>
      by_cases hraised : orsetContains state.edgeAlive edge.key = false ∧
          orsetContains (orsetAdd state.edgeAlive edge.key dot) edge.key = true <;>
        simp [diffEvent, accumulateOpDiff, snapshotBeforeOp, applyEvent, applyOpV2, pure,
          Except.pure, hraised, eventEntries, OpV2.propTarget]
  | nodeRemove node observedDots => exact (List.append_nil _).symm
  | edgeRemove fromId toId label observedDots => exact (List.append_nil _).symm
  | propSet node key value => exact propsChanged_pushPropChange _ _ _ _ _ _
  | nodePropSet node key value => exact propsChanged_pushPropChange _ _ _ _ _ _
  | edgePropSet edge key value => exact propsChanged_pushPropChange _ _ _ _ _ _
  | blobValue node oid => exact (List.append_nil _).symm
  | unknown type => exact (List.append_nil _).symm

/-! ### The whole log -/

omit [JsReferences V] in
theorem get_lastPropEntries_append (l l' : List (PropDiffEntry V)) (key : JsString) :
    (lastPropEntries (l ++ l')).get key =
      ((lastPropEntries l').get key).or ((lastPropEntries l).get key) := by
  unfold lastPropEntries
  rw [List.map_append, JsMap.get_ofEntries_append]

omit [JsReferences V] in
theorem get_lastPropEntries_singleton (entry : PropDiffEntry V) (key : JsString) :
    (lastPropEntries [entry]).get key = if key = entry.mapKey then some entry else none := by
  show (JsMap.empty.set entry.mapKey entry).get key = _
  rw [JsMap.get_set, JsMap.get_empty]

omit [JsReferences V] in
/-- An entry is found under its own key, and it is one of the list. -/
theorem mem_of_get_lastPropEntries {l : List (PropDiffEntry V)} {key : JsString}
    {entry : PropDiffEntry V} (h : (lastPropEntries l).get key = some entry) :
    entry ∈ l ∧ entry.mapKey = key := by
  induction l using List.reverseRecOn with
  | nil => cases h
  | append_singleton rest last ih =>
      rw [get_lastPropEntries_append, get_lastPropEntries_singleton] at h
      by_cases hkey : key = last.mapKey
      · rw [if_pos hkey, Option.some_or, Option.some.injEq] at h
        subst h
        exact ⟨List.mem_append_right _ (List.mem_singleton_self _), hkey.symm⟩
      · rw [if_neg hkey, Option.none_or] at h
        exact ⟨List.mem_append_left _ (ih h).1, (ih h).2⟩

omit [JsReferences V] in
theorem exists_get_lastPropEntries {l : List (PropDiffEntry V)} {entry : PropDiffEntry V}
    (h : entry ∈ l) : ∃ last, (lastPropEntries l).get entry.mapKey = some last := by
  induction l using List.reverseRecOn with
  | nil => cases h
  | append_singleton rest last ih =>
      rw [get_lastPropEntries_append, get_lastPropEntries_singleton]
      by_cases hkey : entry.mapKey = last.mapKey
      · exact ⟨last, by rw [if_pos hkey, Option.some_or]⟩
      · rw [if_neg hkey, Option.none_or]
        refine ih ((List.mem_append.mp h).resolve_right fun hlast => hkey ?_)
        rw [List.mem_singleton.mp hlast]

omit [JsReferences V] in
theorem mem_values_lastPropEntries (l : List (PropDiffEntry V)) (entry : PropDiffEntry V) :
    entry ∈ (lastPropEntries l).values ↔ (lastPropEntries l).get entry.mapKey = some entry := by
  unfold JsMap.values
  rw [List.mem_map]
  constructor
  · rintro ⟨⟨key, e⟩, hentry, rfl⟩
    have hget := (JsMap.get_eq_some_iff _ _ _).mpr hentry
    rw [(mem_of_get_lastPropEntries hget).2, hget]
  · intro hget
    exact ⟨_, (JsMap.get_eq_some_iff _ _ _).mp hget, rfl⟩

omit [JsReferences V] in
theorem nodup_values_lastPropEntries (l : List (PropDiffEntry V)) :
    ((lastPropEntries l).values.map PropDiffEntry.mapKey).Nodup := by
  have hkeys : (lastPropEntries l).values.map PropDiffEntry.mapKey = (lastPropEntries l).keys := by
    unfold JsMap.values JsMap.keys
    rw [List.map_map]
    refine List.map_congr_left fun entry hentry => ?_
    have hget := (JsMap.get_eq_some_iff _ entry.1 entry.2).mpr hentry
    exact (mem_of_get_lastPropEntries hget).2
  rw [hkeys]
  exact (lastPropEntries l).nodup

omit [JsReferences V] in
/-- Deduplicating twice is deduplicating once. -/
theorem get_lastPropEntries_values (l : List (PropDiffEntry V)) (key : JsString) :
    (lastPropEntries (lastPropEntries l).values).get key = (lastPropEntries l).get key := by
  apply Option.ext
  intro entry
  constructor
  · intro h
    obtain ⟨hmem, hkey⟩ := mem_of_get_lastPropEntries h
    rw [← hkey]
    exact (mem_values_lastPropEntries l entry).mp hmem
  · intro h
    have hkey := (mem_of_get_lastPropEntries h).2
    have hmem : entry ∈ (lastPropEntries l).values :=
      (mem_values_lastPropEntries l entry).mpr (by rw [hkey, h])
    obtain ⟨last, hlast⟩ := exists_get_lastPropEntries hmem
    obtain ⟨hmem', hkey'⟩ := mem_of_get_lastPropEntries hlast
    have hsame : last = entry :=
      List.inj_on_of_nodup_map (nodup_values_lastPropEntries l) hmem' hmem hkey'
    rw [← hkey, hlast, hsame]

/-- What the entries logged so far say in a state: they are clean, the last one of each key carries the
current value, and a key has an entry exactly when its value changed. -/
structure PropLog (entries : List (PropDiffEntry V)) (state : WarpStateV5 V) (changed : JsString → Bool) :
    Prop where
  clean : ∀ entry ∈ entries, entry.Clean
  current : ∀ key entry, (lastPropEntries entries).get key = some entry →
    entry.value = state.valueOf entry.propKey
  changed : ∀ propKey, (∃ entry ∈ entries, entry.propKey = propKey) ↔ changed propKey = true

/-- One operation extends the log by what it changes. -/
theorem PropLog.step {entries : List (PropDiffEntry V)} {state : WarpStateV5 V}
    {changed : JsString → Bool} (h : PropLog entries state changed) {event : OpV2 V × EventId}
    (hclean : event.1.CleanProp) :
    PropLog (entries ++ eventEntries state event) (applyEvent state event) fun propKey =>
      changed propKey || changesValue propKey state event := by
  have hquiet : (∀ propKey, changesValue propKey state event = false) →
      eventEntries state event = [] → PropLog (entries ++ eventEntries state event)
        (applyEvent state event) fun propKey => changed propKey || changesValue propKey state event := by
    intro hsame hnone
    rw [hnone, List.append_nil]
    refine ⟨h.clean, fun key entry hget => ?_, fun propKey => ?_⟩
    · rw [valueOf_applyEvent_of_quiet state event (hsame _)]
      exact h.current key entry hget
    · simp [hsame, h.changed]
  cases htarget : event.1.propTarget with
  | none =>
      refine hquiet (fun propKey => ?_) ?_
      · simp [changesValue, htarget]
      · simp [eventEntries, htarget]
  | some target =>
      obtain ⟨nodeId, key, propKey⟩ := target
      have hother : ∀ propKey', propKey' ≠ propKey → changesValue propKey' state event = false := by
        intro propKey' hne
        simp [changesValue, htarget, hne.symm]
      cases hchange : strictEquals ((applyEvent state event).valueOf propKey) (state.valueOf propKey) with
      | true =>
          refine hquiet (fun propKey' => ?_) ?_
          · by_cases hkey : propKey' = propKey
            · simp [changesValue, htarget, hkey, hchange]
            · exact hother propKey' hkey
          · simp [eventEntries, htarget, hchange]
      | false =>
          obtain ⟨hentryClean, hentryKey⟩ := propTarget_clean hclean htarget
            ((applyEvent state event).valueOf propKey) (state.valueOf propKey)
          have hlog : eventEntries state event =
              [⟨nodeId, key, (applyEvent state event).valueOf propKey, state.valueOf propKey⟩] := by
            simp [eventEntries, htarget, hchange]
          have hchanged : ∀ propKey', changesValue propKey' state event = true ↔ propKey = propKey' := by
            intro propKey'
            by_cases hkey : propKey = propKey'
            · simp [changesValue, htarget, ← hkey, hchange]
            · simp [changesValue, htarget, hkey]
          rw [hlog]
          generalize hnew : (⟨nodeId, key, (applyEvent state event).valueOf propKey,
            state.valueOf propKey⟩ : PropDiffEntry V) = new at hentryClean hentryKey
          have hvalue : new.value = (applyEvent state event).valueOf propKey := by rw [← hnew]
          refine ⟨fun entry hmem => ?_, fun mapKey entry hget => ?_, fun propKey' => ?_⟩
          · rcases List.mem_append.mp hmem with hold | hlast
            · exact h.clean entry hold
            · rw [List.mem_singleton.mp hlast]
              exact hentryClean
          · rw [get_lastPropEntries_append, get_lastPropEntries_singleton] at hget
            by_cases hkey : mapKey = new.mapKey
            · rw [if_pos hkey, Option.some_or, Option.some.injEq] at hget
              rw [← hget, hvalue, hentryKey]
            · rw [if_neg hkey, Option.none_or] at hget
              obtain ⟨hmem, hmapKey⟩ := mem_of_get_lastPropEntries hget
              have hne : entry.propKey ≠ propKey := by
                rw [← hentryKey]
                intro heq
                exact hkey (hmapKey ▸ (propKey_eq_iff (h.clean entry hmem) hentryClean).mp heq)
              rw [valueOf_applyEvent_of_quiet state event (hother _ hne)]
              exact h.current mapKey entry hget
          · simp only [List.mem_append, List.mem_singleton, or_and_right, exists_or, exists_eq_left,
              hentryKey, Bool.or_eq_true, hchanged, ← h.changed]

omit [JsReferences V] in
theorem PropLog.congr {entries : List (PropDiffEntry V)} {state state' : WarpStateV5 V}
    {changed changed' : JsString → Bool} (h : PropLog entries state changed)
    (hstate : ∀ propKey, state'.valueOf propKey = state.valueOf propKey)
    (hchanged : ∀ propKey, changed' propKey = changed propKey) : PropLog entries state' changed' where
  clean := h.clean
  current key entry hget := by rw [hstate, h.current key entry hget]
  changed propKey := by rw [hchanged, h.changed]

/-- The entries that a list of operations logs, in order. -/
def loggedEntries : WarpStateV5 V → List (OpV2 V × EventId) → List (PropDiffEntry V)
  | _, [] => []
  | state, event :: rest => eventEntries state event ++ loggedEntries (applyEvent state event) rest

theorem propsChanged_foldl_diffEvent (events : List (OpV2 V × EventId))
    (acc : WarpStateV5 V × PatchDiff V) :
    (events.foldl diffEvent acc).2.propsChanged = acc.2.propsChanged ++ loggedEntries acc.1 events := by
  induction events generalizing acc with
  | nil => exact (List.append_nil _).symm
  | cons event rest ih =>
      rw [List.foldl_cons, ih, propsChanged_diffEvent, loggedEntries, List.append_assoc]
      rfl

theorem PropLog.run {events : List (OpV2 V × EventId)} (hclean : ∀ event ∈ events, event.1.CleanProp)
    {entries : List (PropDiffEntry V)} {state : WarpStateV5 V} {changed : JsString → Bool}
    (h : PropLog entries state changed) :
    PropLog (entries ++ loggedEntries state events) (events.foldl applyEvent state) fun propKey =>
      changed propKey || Flips.changes applyEvent (changesValue propKey) state events := by
  induction events generalizing entries state changed with
  | nil =>
      rw [loggedEntries, List.append_nil]
      exact h.congr (fun _ => rfl) fun propKey => Bool.or_false _
  | cons event rest ih =>
      have hrest := ih (fun e he => hclean e (List.mem_cons_of_mem event he))
        (h.step (hclean event List.mem_cons_self))
      rw [loggedEntries, ← List.append_assoc]
      exact hrest.congr (fun _ => rfl) fun propKey => by rw [Flips.changes, Bool.or_assoc]

/-- The entries that a list of patches logs, in order and before any merging. -/
def loggedByReads : WarpStateV5 V → List (ReadPatch V) → List (PropDiffEntry V)
  | _, [] => []
  | state, read :: rest => loggedEntries state read.events ++ loggedByReads (applyRead state read) rest

theorem PropLog.runReads {reads : List (ReadPatch V)}
    (hclean : ∀ read ∈ reads, ∀ event ∈ read.events, event.1.CleanProp)
    {entries : List (PropDiffEntry V)} {state : WarpStateV5 V} {changed : JsString → Bool}
    (h : PropLog entries state changed) :
    PropLog (entries ++ loggedByReads state reads) (reads.foldl applyRead state) fun propKey =>
      changed propKey ||
        Flips.changesIn applyEvent ReadPatch.events applyRead (changesValue propKey) state reads := by
  induction reads generalizing entries state changed with
  | nil =>
      rw [loggedByReads, List.append_nil]
      exact h.congr (fun _ => rfl) fun propKey => Bool.or_false _
  | cons read rest ih =>
      have hread := h.run (hclean read List.mem_cons_self)
      have hnext : PropLog (entries ++ loggedEntries state read.events) (applyRead state read)
          fun propKey => changed propKey ||
            Flips.changes applyEvent (changesValue propKey) state read.events :=
        hread.congr (fun _ => rfl) fun _ => rfl
      have hrest := ih (fun r hr => hclean r (List.mem_cons_of_mem read hr)) hnext
      rw [loggedByReads, ← List.append_assoc]
      exact hrest.congr (fun _ => rfl) fun propKey => by rw [Flips.changesIn, Bool.or_assoc]

/-- The merged log holds the last logged entry of each key, and no key twice. -/
theorem propsChanged_trackReads (reads : List (ReadPatch V)) (acc : WarpStateV5 V × PatchDiff V)
    (hnodup : (acc.2.propsChanged.map PropDiffEntry.mapKey).Nodup) :
    ((trackReads acc reads).2.propsChanged.map PropDiffEntry.mapKey).Nodup ∧
      ∀ key, (lastPropEntries (trackReads acc reads).2.propsChanged).get key =
        (lastPropEntries (acc.2.propsChanged ++ loggedByReads acc.1 reads)).get key := by
  induction reads generalizing acc with
  | nil => exact ⟨hnodup, fun key => by rw [loggedByReads, List.append_nil]; rfl⟩
  | cons read rest ih =>
      have hdiff : (readDiff acc.1 read).propsChanged = loggedEntries acc.1 read.events := by
        rw [readDiff, propsChanged_foldl_diffEvent]
        exact List.nil_append _
      have hmerged : (mergeDiffs acc.2 (readDiff acc.1 read)).propsChanged =
          (lastPropEntries (acc.2.propsChanged ++ loggedEntries acc.1 read.events)).values := by
        rw [← hdiff]
        rfl
      obtain ⟨hnodup', hget⟩ := ih (applyRead acc.1 read, mergeDiffs acc.2 (readDiff acc.1 read))
        (by rw [hmerged]; exact nodup_values_lastPropEntries _)
      refine ⟨hnodup', fun key => (hget key).trans ?_⟩
      rw [hmerged, get_lastPropEntries_append, get_lastPropEntries_values, loggedByReads,
        ← List.append_assoc, get_lastPropEntries_append (acc.2.propsChanged ++ _)]

omit [JsReferences V] in
/-- A list without repeated keys in which one entry is all there is about a key. -/
theorem filter_eq_singleton {l : List (PropDiffEntry V)}
    (hnodup : (l.map PropDiffEntry.mapKey).Nodup) {entry : PropDiffEntry V} (hentry : entry ∈ l)
    {p : PropDiffEntry V → Bool} (hp : p entry = true)
    (honly : ∀ e ∈ l, p e = true → e.mapKey = entry.mapKey) : l.filter p = [entry] := by
  have hall : ∀ e ∈ l.filter p, e = entry := by
    intro e he
    obtain ⟨hmem, hpe⟩ := List.mem_filter.mp he
    exact List.inj_on_of_nodup_map hnodup hmem hentry (honly e hmem hpe)
  have hnodup' : (l.filter p).Nodup := (List.Nodup.of_map _ hnodup).filter _
  have hmem : entry ∈ l.filter p := List.mem_filter.mpr ⟨hentry, hp⟩
  exact List.perm_singleton.mp ((List.perm_ext_iff_of_nodup hnodup' (List.nodup_singleton _)).mpr
    fun e => ⟨fun he => List.mem_singleton.mpr (hall e he), fun he => List.mem_singleton.mp he ▸ hmem⟩)

/-- The entries that the merged log has about one property: one with the final value if the value ever
changed, and none otherwise. -/
theorem propsChanged_about {reads : List (ReadPatch V)}
    (hclean : ∀ read ∈ reads, ∀ event ∈ read.events, event.1.CleanProp) (state : WarpStateV5 V)
    (propKey : JsString) :
    ((trackReads (state, createEmptyDiff) reads).2.propsChanged.filter
        fun entry => entry.propKey = propKey).map PropDiffEntry.value =
      if Flips.changesIn applyEvent ReadPatch.events applyRead (changesValue propKey) state reads
      then [(reads.foldl applyRead state).valueOf propKey] else [] := by
  obtain ⟨hnodup, hget⟩ := propsChanged_trackReads reads (state, createEmptyDiff) List.nodup_nil
  have hstart : PropLog ([] : List (PropDiffEntry V)) state fun _ => false := by
    refine ⟨fun entry hentry => ?_, fun key entry hentry => ?_, fun propKey => by simp⟩
    · cases hentry
    · cases hentry
  have hlog := hstart.runReads hclean
  rw [List.nil_append] at hlog
  have hempty : (createEmptyDiff (V := V)).propsChanged ++ loggedByReads state reads =
      loggedByReads state reads := List.nil_append _
  simp only [hempty] at hget
  generalize (trackReads (state, createEmptyDiff) reads).2.propsChanged = merged at hnodup hget
  have hmem : ∀ entry ∈ merged, entry ∈ loggedByReads state reads := by
    intro entry hentry
    obtain ⟨last, hlast⟩ := exists_get_lastPropEntries hentry
    obtain ⟨hlastMem, hlastKey⟩ := mem_of_get_lastPropEntries hlast
    rw [List.inj_on_of_nodup_map hnodup hlastMem hentry hlastKey, hget] at hlast
    exact (mem_of_get_lastPropEntries hlast).1
  split
  · rename_i hchanged
    obtain ⟨entry, hentry, rfl⟩ := (hlog.changed propKey).mpr (by rw [hchanged]; rfl)
    obtain ⟨last, hlast⟩ := exists_get_lastPropEntries hentry
    obtain ⟨hlastMem, hlastKey⟩ := mem_of_get_lastPropEntries hlast
    have hpropKey : last.propKey = entry.propKey :=
      (propKey_eq_iff (hlog.clean last hlastMem) (hlog.clean entry hentry)).mpr hlastKey
    have hinMerged : last ∈ merged := (mem_of_get_lastPropEntries ((hget _).trans hlast)).1
    have hfilter : (merged.filter fun e => e.propKey = entry.propKey) = [last] := by
      refine filter_eq_singleton hnodup hinMerged (decide_eq_true hpropKey) fun e he hp => ?_
      have heClean := hlog.clean e (hmem e he)
      rw [← hpropKey] at hp
      exact (propKey_eq_iff heClean (hlog.clean last hlastMem)).mp (of_decide_eq_true hp)
    rw [hfilter, List.map_singleton, hlog.current _ last hlast, hpropKey]
  · rename_i hsame
    have hnone : (merged.filter fun e => e.propKey = propKey) = [] := by
      refine List.filter_eq_nil_iff.mpr fun e he hp => hsame ?_
      exact (Bool.false_or _).symm.trans
        ((hlog.changed propKey).mp ⟨e, hmem e he, of_decide_eq_true hp⟩)
    rw [hnone, List.map_nil]

end GitWarp
