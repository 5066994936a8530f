import GitWarp.LibraryJsText
import GitWarp.LibraryJsMap
import Mathlib.Data.Prod.Lex
import Mathlib.Order.WithBot

/-! Event ids, the total order that decides between concurrent writes, and the last-writer-wins
register over it. -/

namespace GitWarp
open Js

structure EventId where
  lamport : Nat
  writerId : JsString
  patchSha : JsString
  opIndex : Nat
  deriving DecidableEq

/-- `/^[0-9a-f]{4,64}$/` -/
def isHexOid (sha : JsString) : Bool :=
  4 ≤ sha.length && sha.length ≤ 64 &&
    sha.all fun c => isDigit c || (97 ≤ c.val && c.val ≤ 102)

def createEventId (lamport : Nat) (writerId patchSha : JsString) (opIndex : Nat) :
    Except JsError EventId :=
  if lamport = 0 then thrown "lamport must be a positive integer"
  else if writerId = [] then thrown "writerId must be a non-empty string"
  else if isHexOid patchSha = false then thrown "patchSha must be a hex string of 4-64 characters"
  else .ok ⟨lamport, writerId, patchSha, opIndex⟩

/-- Lamport first, then writer, then patch, then the place of the operation in its patch. -/
def compareEventIds (a b : EventId) : Int :=
  if a.lamport ≠ b.lamport then if a.lamport < b.lamport then -1 else 1
  else if a.writerId ≠ b.writerId then if a.writerId < b.writerId then -1 else 1
  else if a.patchSha ≠ b.patchSha then if a.patchSha < b.patchSha then -1 else 1
  else if a.opIndex ≠ b.opIndex then if a.opIndex < b.opIndex then -1 else 1
  else 0

def isGreater (a b : EventId) : Bool := 0 < compareEventIds a b

namespace EventId

/-- The tuple whose lexicographic order is the order of event ids. -/
def rank (e : EventId) : Nat ×ₗ JsString ×ₗ JsString ×ₗ Nat :=
  toLex (e.lamport, toLex (e.writerId, toLex (e.patchSha, e.opIndex)))

theorem rank_injective : Function.Injective rank := by
  intro a b h
  cases a
  cases b
  simpa [rank] using h

instance : LinearOrder EventId := LinearOrder.lift' rank rank_injective

theorem lt_iff (a b : EventId) : a < b ↔ rank a < rank b := Iff.rfl

end EventId

/-- Each level of the comparison asks the level below only when it finds its own field equal. -/
theorem compare_pos_iff {α : Type} [LinearOrder α] (a b : α) [Decidable (a ≠ b)] [Decidable (a < b)]
    (rest : Int) :
    0 < (if a ≠ b then if a < b then (-1 : Int) else 1 else rest) ↔ b < a ∨ a = b ∧ 0 < rest := by
  rcases lt_trichotomy a b with hlt | heq | hgt
  · simp [hlt.ne, hlt, hlt.not_gt]
  · simp [heq]
  · simp [hgt.ne', hgt, hgt.not_gt]

theorem compareEventIds_pos_iff (a b : EventId) : 0 < compareEventIds a b ↔ b < a := by
  unfold compareEventIds
  rw [compare_pos_iff, compare_pos_iff, compare_pos_iff, compare_pos_iff, EventId.lt_iff]
  simp only [EventId.rank, Prod.Lex.toLex_lt_toLex, lt_irrefl, and_false, or_false]
  rw [eq_comm (a := a.lamport), eq_comm (a := a.writerId), eq_comm (a := a.patchSha)]

theorem compareEventIds_nonneg_iff (a b : EventId) : 0 ≤ compareEventIds a b ↔ b ≤ a := by
  by_cases heq : a = b
  · subst heq
    simp [compareEventIds]
  · have hneg : 0 ≤ compareEventIds a b ↔ 0 < compareEventIds a b := by
      constructor
      · intro hnonneg
        refine lt_of_le_of_ne hnonneg fun hzero => heq ?_
        cases a
        cases b
        unfold compareEventIds at hzero
        grind
      · exact le_of_lt
    rw [hneg, compareEventIds_pos_iff]
    exact ⟨le_of_lt, fun hle => lt_of_le_of_ne hle fun h => heq h.symm⟩

theorem createEventId_eq_ok {lamport opIndex : Nat} {writerId patchSha : JsString} {e : EventId}
    (h : createEventId lamport writerId patchSha opIndex = .ok e) :
    e = ⟨lamport, writerId, patchSha, opIndex⟩ := by
  unfold createEventId thrown at h
  split at h
  · cases h
  · split at h
    · cases h
    · split at h
      · cases h
      · cases h
        rfl

/-- A last-writer-wins register. The value `none` is `undefined`. -/
structure LWWRegister (V : Type) where
  eventId : EventId
  value : Option V
  deriving DecidableEq

variable {V : Type}

def lwwSet (eventId : EventId) (value : Option V) : LWWRegister V := ⟨eventId, value⟩

/-- The register with the greater event id; the first one on a tie. `none` is `null` or
`undefined`. -/
def lwwMax (a b : Option (LWWRegister V)) : Option (LWWRegister V) :=
  match a, b with
  | none, none => none
  | none, some b => some b
  | some a, none => some a
  | some a, some b => some (if 0 ≤ compareEventIds a.eventId b.eventId then a else b)

def lwwValue (reg : Option (LWWRegister V)) : Option V := reg.bind LWWRegister.value

/-- The event that last wrote a register; nothing is below every event. -/
def registerLevel (reg : Option (LWWRegister V)) : WithBot EventId :=
  match reg with
  | none => ⊥
  | some register => (register.eventId : WithBot EventId)

theorem registerLevel_lwwMax (a b : Option (LWWRegister V)) :
    registerLevel (lwwMax a b) = registerLevel a ⊔ registerLevel b := by
  cases a with
  | none => cases b <;> simp [lwwMax, registerLevel]
  | some a =>
      cases b with
      | none => simp [lwwMax, registerLevel]
      | some b =>
          by_cases hcmp : 0 ≤ compareEventIds a.eventId b.eventId
          · have hle := (compareEventIds_nonneg_iff _ _).mp hcmp
            simp [lwwMax, registerLevel, hcmp, hle]
          · have hlt := not_le.mp ((compareEventIds_nonneg_iff _ _).not.mp hcmp)
            simp [lwwMax, registerLevel, hcmp, hlt.le]

theorem lwwMax_some (a : Option (LWWRegister V)) (b : LWWRegister V) :
    ∃ r, lwwMax a (some b) = some r ∧ (some r = a ∨ r = b) := by
  cases a with
  | none => exact ⟨b, rfl, Or.inr rfl⟩
  | some a =>
      simp only [lwwMax]
      split
      · exact ⟨a, rfl, Or.inl rfl⟩
      · exact ⟨b, rfl, Or.inr rfl⟩

end GitWarp
