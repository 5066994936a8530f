import GitWarp.LibraryJsText

/-! Dots: the identity of one add operation, a writer and a counter. They are stored in their encoded
form, which is injective and which `decodeDot` reads back for every dot `createDot` returns. -/

namespace GitWarp
open Js

structure Dot where
  writerId : JsString
  counter : Int
  deriving DecidableEq

/-- What `createDot` requires of its arguments. -/
def Dot.Valid (dot : Dot) : Prop := dot.writerId ≠ [] ∧ 0 < dot.counter

instance (dot : Dot) : Decidable dot.Valid := inferInstanceAs (Decidable (_ ∧ _))

def createDot (writerId : JsString) (counter : Int) : Except JsError Dot :=
  if writerId = [] then thrown "writerId must be a non-empty string"
  else if counter ≤ 0 then thrown "counter must be a positive integer"
  else .ok ⟨writerId, counter⟩

/-- The colon that separates the writer from the counter. -/
def dotSeparator : CodeUnit := 58

/-- `${dot.writerId}:${dot.counter}` -/
def encodeDot (dot : Dot) : JsString := dot.writerId ++ dotSeparator :: decimalInt dot.counter

def decodeDot (encoded : JsString) : Except JsError Dot :=
  match splitAtLast dotSeparator encoded with
  | none => thrown "Invalid encoded dot format: missing colon"
  | some (writerId, counterStr) =>
      if writerId = [] then thrown "Invalid encoded dot format: empty writerId"
      else
        match parseInt counterStr with
        | none => thrown "Invalid encoded dot format: invalid counter"
        | some counter =>
            if counter ≤ 0 then thrown "Invalid encoded dot format: invalid counter"
            else .ok ⟨writerId, counter⟩

/-- Negative, zero or positive as `a` comes before, equals or comes after `b`. -/
def compareDots (a b : Dot) : Int :=
  if a.writerId ≠ b.writerId then if a.writerId < b.writerId then -1 else 1
  else if a.counter ≠ b.counter then if a.counter < b.counter then -1 else 1
  else 0

theorem separator_not_mem_decimalInt (n : Int) : dotSeparator ∉ decimalInt n := by
  cases n with
  | ofNat n => exact not_mem_decimal (by decide)
  | negSucc n =>
      rw [decimalInt, List.mem_cons, not_or]
      exact ⟨by decide, not_mem_decimal (by decide)⟩

theorem splitAtLast_encodeDot (dot : Dot) :
    splitAtLast dotSeparator (encodeDot dot) = some (dot.writerId, decimalInt dot.counter) :=
  splitAtLast_append dot.writerId (separator_not_mem_decimalInt dot.counter)

theorem encodeDot_injective : Function.Injective encodeDot := by
  intro a b h
  have hsplit := splitAtLast_encodeDot a
  rw [h, splitAtLast_encodeDot b, Option.some.injEq, Prod.mk.injEq] at hsplit
  obtain ⟨hwriter, hcounter⟩ := hsplit
  cases a
  cases b
  simp only at hwriter hcounter
  rw [hwriter, decimalInt_injective hcounter]

theorem decodeDot_encodeDot {dot : Dot} (hvalid : dot.Valid) :
    decodeDot (encodeDot dot) = .ok dot := by
  obtain ⟨hwriter, hcounter⟩ := hvalid
  obtain ⟨n, hn⟩ : ∃ n : Nat, dot.counter = n := ⟨dot.counter.toNat, by omega⟩
  have hparse : parseInt (decimalInt dot.counter) = some dot.counter := by
    rw [hn]
    exact parseInt_decimal n
  rw [decodeDot, splitAtLast_encodeDot]
  simp only [if_neg hwriter, hparse, if_neg (not_le.mpr hcounter)]

/-- The strings the reducer expects among the observed dots of a remove. -/
def EncodesDot (encoded : JsString) : Prop := ∃ dot : Dot, dot.Valid ∧ encodeDot dot = encoded

theorem EncodesDot.decode {encoded : JsString} (h : EncodesDot encoded) :
    ∃ dot : Dot, dot.Valid ∧ encodeDot dot = encoded ∧ decodeDot encoded = .ok dot := by
  obtain ⟨dot, hvalid, rfl⟩ := h
  exact ⟨dot, hvalid, rfl, decodeDot_encodeDot hvalid⟩

end GitWarp
