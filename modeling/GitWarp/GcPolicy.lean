import GitWarp.CheckpointSerializer

/-! Garbage collection of a state: both OR-Sets are compacted at one version vector, and the result says
how many entries and tombstones went. -/

namespace GitWarp
open Js

variable {V : Type}

/-- The number of dots over all entries. -/
def countEntries (orset : ORSet) : Nat := (orset.entries.values.map JsSet.size).sum

def countLiveDots (orset : ORSet) : Nat :=
  (orset.entries.values.map fun dots => dots.elems.countP fun d => !orset.tombstones.has d).sum

/-- The number of dots of entries that are tombstoned. -/
def countTombstones (orset : ORSet) : Nat :=
  (orset.entries.values.map fun dots => dots.elems.countP fun d => orset.tombstones.has d).sum

structure GCExecuteResult where
  nodesCompacted : Int
  edgesCompacted : Int
  tombstonesRemoved : Int
  deriving DecidableEq

/-- Both compactions; an error names the phase it stopped in. -/
def executeGC (state : WarpStateV5 V) (appliedVV : VersionVector) :
    Except JsError (WarpStateV5 V × GCExecuteResult) :=
  match orsetCompact state.nodeAlive appliedVV with
  | .error _ => .error ⟨"WarpError", "GC compaction failed during nodeAlive phase"⟩
  | .ok nodeAlive =>
      match orsetCompact state.edgeAlive appliedVV with
      | .error _ => .error ⟨"WarpError", "GC compaction failed during edgeAlive phase"⟩
      | .ok edgeAlive =>
          .ok ({ state with nodeAlive := nodeAlive, edgeAlive := edgeAlive },
            { nodesCompacted := (countEntries state.nodeAlive : Int) - countEntries nodeAlive
              edgesCompacted := (countEntries state.edgeAlive : Int) - countEntries edgeAlive
              tombstonesRemoved :=
                ((countTombstones state.nodeAlive + countTombstones state.edgeAlive : Nat) : Int) -
                  (countTombstones nodeAlive + countTombstones edgeAlive : Nat) })

/-- The state that `runGC` puts in place of the cached one. -/
def runGC (cachedState : WarpStateV5 V) : Except JsError (WarpStateV5 V × GCExecuteResult) := do
  let appliedVV ← computeAppliedVV cachedState
  executeGC cachedState appliedVV

/-- What collection does to each of the two sets; the rest of the state stays. -/
theorem executeGC_ok {state : WarpStateV5 V} (h : ∀ edges, (state.part edges).Decodable)
    (appliedVV : VersionVector) :
    ∃ result, executeGC state appliedVV = .ok result ∧
      (∀ edges, (result.1.part edges).view =
        (state.part edges).view.drop ((state.part edges).compactable appliedVV)) ∧
      result.1.prop = state.prop ∧ result.1.observedFrontier = state.observedFrontier ∧
      result.1.edgeBirthEvent = state.edgeBirthEvent := by
  obtain ⟨nodes, hnodes⟩ := exists_orsetCompact_ok (h false).1 appliedVV
  obtain ⟨edges, hedges⟩ := exists_orsetCompact_ok (h true).1 appliedVV
  have hnodes' : orsetCompact state.nodeAlive appliedVV = .ok nodes := hnodes
  have hedges' : orsetCompact state.edgeAlive appliedVV = .ok edges := hedges
  unfold executeGC
  rw [hnodes', hedges']
  refine ⟨_, rfl, fun part => ?_, rfl, rfl, rfl⟩
  cases part with
  | false => exact view_orsetCompact hnodes
  | true => exact view_orsetCompact hedges

end GitWarp
