import GitWarp.GraphCheckpoints
import GitWarp.RefLayout
import GitWarp.SyncExchange

/-! Maps keyed by writer ids, made plain objects and read back: version vectors and frontiers. A plain object holds
every writer id but `__proto__`, which is a writer id like any other. -/

namespace GitWarp
open Js ExceptLoops

variable {Buffer : Type}

/-! ### Frontiers as bytes -/

/-- The object that `serializeFrontier` fills in the order of the sorted keys. -/
def frontierRecord (frontier : Frontier) : PlainObject Sha :=
  (frontier.keys.insertionSort (· ≤ ·)).foldl (fun obj key =>
    match frontier.get key with
    | some sha => obj.assign key sha
    | none => obj) PlainObject.empty

def serializeFrontier (codec : CodecPort (PlainObject Sha) Buffer) (frontier : Frontier) : Buffer :=
  codec.encode (frontierRecord frontier)

def deserializeFrontier (codec : CodecPort (PlainObject Sha) Buffer) (buffer : Buffer) : Except JsError Frontier := do
  match ← codec.decode buffer with
  | some obj => return JsMap.ofEntries obj.entries
  | none => .error ⟨"TypeError", "Cannot convert undefined or null to object"⟩

/-- A version vector after `vvDeserialize(vvSerialize(vv))`. -/
def reloadVector (vv : VersionVector) : Except JsError VersionVector := do
  let obj ← vvSerialize vv
  vvDeserialize (obj.entries.map fun entry => (entry.1, (entry.2 : Int)))

/-! ### What comes back -/

/-- The three maps that come back from plain objects have the entries that were written, and no others. -/
structure WriterMapsSurvive (codec : CodecPort (PlainObject Sha) Buffer) (vv : VersionVector) (frontier : Frontier) :
    Prop where
  vector : ∃ reloaded, reloadVector vv = .ok reloaded ∧ ∀ writerId, reloaded.get writerId = vv.get writerId
  object : ∀ writerId, (objectToFrontier (frontierToObject frontier)).get writerId = frontier.get writerId
  buffer : ∃ reloaded, deserializeFrontier codec (serializeFrontier codec frontier) = .ok reloaded ∧
    ∀ writerId, reloaded.get writerId = frontier.get writerId

theorem get_ofEntries_entries {V : Type} (obj : PlainObject V) (key : JsString) :
    (JsMap.ofEntries obj.entries).get key = obj.props.get key :=
  JsMap.get_ofEntries_of_perm (List.Perm.refl _) key

/-- A vector without zeros comes back without the counter of `__proto__`. -/
theorem exists_reloadVector {vv : VersionVector} (hpos : vv.Positive) : ∃ reloaded, reloadVector vv = .ok reloaded ∧
    ∀ writerId, reloaded.get writerId = if writerId = protoKey then none else vv.get writerId := by
  obtain ⟨obj, hobj, hget⟩ := vvSerialize_ok hpos
  have hcounters : ∀ entry ∈ obj.entries, 0 < entry.2 := by
    intro entry hentry
    have hread : obj.props.get entry.1 = some entry.2 := (obj.props.get_eq_some_iff entry.1 entry.2).mpr hentry
    apply Nat.pos_of_ne_zero
    intro hzero
    rw [hget] at hread
    split at hread
    · cases hread
    · exact hpos entry.1 (hread.trans (congrArg some hzero))
  refine ⟨JsMap.ofEntries obj.entries, ?_, fun writerId => ?_⟩
  · rw [reloadVector, hobj]
    exact vvDeserialize_ok hcounters
  · rw [get_ofEntries_entries, hget]

theorem positive_of_reloadVector {vv reloaded : VersionVector} (h : reloadVector vv = .ok reloaded) : vv.Positive := by
  obtain ⟨obj, hobj, -⟩ := bind_ok_iff.mp h
  exact positive_of_vvSerialize hobj

theorem get_objectToFrontier (frontier : Frontier) (writerId : JsString) :
    (objectToFrontier (frontierToObject frontier)).get writerId =
      if writerId = protoKey then none else frontier.get writerId := by
  have hread : (frontierToObject frontier).props.get writerId =
      if writerId = protoKey then none else (frontier.get writerId).or none :=
    PlainObject.get_foldl_assign frontier.entries frontier.nodup PlainObject.empty writerId
  rw [objectToFrontier, get_ofEntries_entries, hread, Option.or_none]

/-- A frontier read back from bytes is the one that a checkpoint stores. -/
theorem deserializeFrontier_serializeFrontier {codec : CodecPort (PlainObject Sha) Buffer} (hcodec : codec.Inverts)
    (frontier : Frontier) :
    deserializeFrontier codec (serializeFrontier codec frontier) = .ok (storedFrontier frontier) := by
  rw [deserializeFrontier, serializeFrontier, hcodec]
  rfl

theorem get_eq_without_proto_iff {V : Type} (m : JsMap JsString V) :
    (∀ key, (if key = protoKey then none else m.get key) = m.get key) ↔ m.get protoKey = none := by
  constructor
  · intro h
    rw [← h protoKey, if_pos rfl]
  · intro h key
    by_cases hkey : key = protoKey
    · rw [if_pos hkey, hkey, h]
    · rw [if_neg hkey]

/-- Version vectors and frontiers survive where no writer is named `__proto__` and no counter is zero. -/
theorem writerMapsSurvive_iff (codec : CodecPort (PlainObject Sha) Buffer) (hcodec : codec.Inverts)
    (vv : VersionVector) (frontier : Frontier) :
    WriterMapsSurvive codec vv frontier ↔
      vv.Positive ∧ vv.get protoKey = none ∧ frontier.get protoKey = none := by
  have hfrontier : (∀ writerId, (objectToFrontier (frontierToObject frontier)).get writerId = frontier.get writerId) ↔
      frontier.get protoKey = none := by
    simp only [get_objectToFrontier]
    exact get_eq_without_proto_iff frontier
  constructor
  · intro h
    obtain ⟨reloaded, hreloaded, hsame⟩ := h.vector
    have hpos := positive_of_reloadVector hreloaded
    obtain ⟨reloaded', hreloaded', hget⟩ := exists_reloadVector hpos
    obtain rfl : reloaded = reloaded' := Except.ok.inj (hreloaded.symm.trans hreloaded')
    refine ⟨hpos, ?_, hfrontier.mp h.object⟩
    apply (get_eq_without_proto_iff vv).mp
    intro key
    rw [← hget, hsame]
  · intro h
    obtain ⟨hpos, hvector, hnone⟩ := h
    obtain ⟨reloaded, hreloaded, hget⟩ := exists_reloadVector hpos
    refine ⟨⟨reloaded, hreloaded, fun writerId => ?_⟩, hfrontier.mpr hnone,
      ⟨storedFrontier frontier, deserializeFrontier_serializeFrontier hcodec frontier, fun writerId => ?_⟩⟩
    · rw [hget]
      exact (get_eq_without_proto_iff vv).mpr hvector writerId
    · rw [get_storedFrontier]
      exact (get_eq_without_proto_iff frontier).mpr hnone writerId

namespace WriterMaps

/-- A codec that keeps objects as they are. -/
def recordCodec : CodecPort (PlainObject Sha) (PlainObject Sha) := ⟨id, fun obj => .ok (some obj)⟩

def twoCounters : VersionVector := (JsMap.empty.set (js "constructor") 3).set (js "alice") 2

def twoTips : Frontier := (JsMap.empty.set (js "constructor") (js "aaaa")).set (js "alice") (js "bbbb")

/-- `constructor` has a meaning on objects too, but is written as an own property. -/
theorem writerMapsSurvive_constructor : WriterMapsSurvive recordCodec twoCounters twoTips := by
  apply (writerMapsSurvive_iff recordCodec (fun _ => rfl) _ _).mpr
  refine ⟨?_, by decide, by decide⟩
  intro writerId
  rw [twoCounters, JsMap.get_set, JsMap.get_set]
  split
  · decide
  · split
    · decide
    · exact nofun

/-- The name `__proto__` is accepted, and its counter and its tip are lost. -/
theorem writerMaps_lose_proto : validateWriterId protoKey = .ok () ∧
    (∃ reloaded, reloadVector (JsMap.empty.set protoKey 1) = .ok reloaded ∧ reloaded.get protoKey = none) ∧
    (objectToFrontier (frontierToObject (JsMap.empty.set protoKey (js "aaaa")))).get protoKey = none ∧
    (∃ reloaded, deserializeFrontier recordCodec (serializeFrontier recordCodec (JsMap.empty.set protoKey (js "aaaa"))) =
      .ok reloaded ∧ reloaded.get protoKey = none) ∧
    ¬ WriterMapsSurvive recordCodec (JsMap.empty.set protoKey 1) (JsMap.empty.set protoKey (js "aaaa")) := by
  refine ⟨by decide, ⟨JsMap.empty, by decide, rfl⟩, by decide, ⟨JsMap.empty, by decide, rfl⟩, ?_⟩
  intro h
  have hread := h.object protoKey
  rw [get_objectToFrontier, if_pos rfl] at hread
  revert hread
  decide

end WriterMaps

end GitWarp
