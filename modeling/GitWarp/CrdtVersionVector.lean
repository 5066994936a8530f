import GitWarp.CrdtDot
import GitWarp.LibraryJsObject
import Mathlib.Data.List.Sort
import Mathlib.Order.Lattice.Nat

/-! Version vectors: the highest counter seen of each writer. A missing writer reads as zero. -/

namespace GitWarp
open Js

abbrev VersionVector := JsMap JsString Nat

namespace VersionVector

/-- `vv.get(writerId) || 0` -/
def counter (vv : VersionVector) (writerId : JsString) : Nat := (vv.get writerId).getD 0

end VersionVector

def createVersionVector : VersionVector := JsMap.empty

/-- Advances one writer and returns the new vector with the dot that `createDot` builds for it. -/
def vvIncrement (vv : VersionVector) (writerId : JsString) : Except JsError (VersionVector × Dot) := do
  let newCounter := vv.counter writerId + 1
  let dot ← createDot writerId newCounter
  return (vv.set writerId newCounter, dot)

def vvMerge (a b : VersionVector) : VersionVector :=
  a.mergeWith (fun existing counter => some (max (existing.getD 0) counter)) b

def vvDescends (a b : VersionVector) : Bool :=
  b.entries.all fun entry => entry.2 ≤ a.counter entry.1

def vvContains (vv : VersionVector) (dot : Dot) : Bool := dot.counter ≤ vv.counter dot.writerId

/-- The keys in the order `[...vv.keys()].sort()` gives. -/
def VersionVector.sortedKeys (vv : VersionVector) : List JsString :=
  vv.keys.insertionSort (· ≤ ·)

def vvSerialize (vv : VersionVector) : Except JsError (PlainObject Nat) :=
  vv.sortedKeys.foldlM (fun obj key =>
    match vv.get key with
    | none => return obj
    | some 0 =>
        thrown (s!"vvSerialize: zero counter for writerId \"{toText key}\" — " ++
          "VersionVector must not contain zero counters")
    | some val => return obj.assign key val) PlainObject.empty

/-- Reads a record back. A negative counter is refused and a zero is dropped. -/
def vvDeserialize (obj : List (JsString × Int)) : Except JsError VersionVector :=
  obj.foldlM (fun vv entry =>
    if entry.2 < 0 then
      thrown s!"Invalid counter for writerId \"{toText entry.1}\": {toText (decimalInt entry.2)}"
    else if 0 < entry.2 then return vv.set entry.1 entry.2.toNat
    else return vv) createVersionVector

def vvEqual (a b : VersionVector) : Bool :=
  a.size = b.size && a.entries.all fun entry => b.get entry.1 = some entry.2

theorem vvIncrement_eq_ok {vv vv' : VersionVector} {writerId : JsString} {dot : Dot}
    (h : vvIncrement vv writerId = .ok (vv', dot)) :
    dot = ⟨writerId, vv.counter writerId + 1⟩ ∧ vv' = vv.set writerId (vv.counter writerId + 1) := by
  have hpos : ¬ ((vv.counter writerId + 1 : Nat) : Int) ≤ 0 := by omega
  simp only [vvIncrement, createDot, thrown, if_neg hpos] at h
  split at h
  · cases h
  · cases h
    exact ⟨rfl, rfl⟩

/-- Merging is the pointwise maximum, where a missing counter is below every present one. -/
theorem level_vvMerge (a b : VersionVector) (writerId : JsString) :
    (vvMerge a b).level writerId = a.level writerId ⊔ b.level writerId := by
  unfold vvMerge JsMap.level
  rw [JsMap.get_mergeWith]
  cases a.get writerId <;> cases b.get writerId <;> simp [JsMap.mergedValue]

@[simp] theorem vvContains_iff (vv : VersionVector) (dot : Dot) :
    vvContains vv dot = true ↔ dot.counter ≤ vv.counter dot.writerId := decide_eq_true_iff

end GitWarp
