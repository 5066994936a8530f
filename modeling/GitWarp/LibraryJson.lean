import GitWarp.LibraryJsText
import Mathlib.Data.Rat.Init

/-! JSON data and its text as `JSON.stringify` prints it, without spaces. The text determines the data. How a
number is printed is left open. -/

namespace GitWarp
open Js

inductive Json where
  | null
  | bool (b : Bool)
  | number (value : Rat)
  | string (s : JsString)
  | array (items : List Json)
  | object (fields : List (JsString × Json))

namespace Json

/-! ### Strings -/

def isHighSurrogate (c : CodeUnit) : Bool := 55296 ≤ c.val && c.val < 56320

def isLowSurrogate (c : CodeUnit) : Bool := 56320 ≤ c.val && c.val < 57344

def hexUnit (digit : Nat) : CodeUnit := Fin.ofNat 65536 (if digit < 10 then 48 + digit else 87 + digit)

/-- The units that are escaped by one letter. -/
def shortEscapes : List (CodeUnit × CodeUnit) :=
  [(8, 98), (9, 116), (10, 110), (12, 102), (13, 114), (34, 34), (92, 92)]

def unicodeEscape (c : CodeUnit) : JsString :=
  [92, 117, hexUnit (c.val / 4096), hexUnit (c.val / 256 % 16), hexUnit (c.val / 16 % 16), hexUnit (c.val % 16)]

/-- A unit that is no part of a surrogate pair. -/
def escapeUnit (c : CodeUnit) : JsString :=
  match shortEscapes.find? fun entry => entry.1 = c with
  | some entry => [92, entry.2]
  | none => if c.val < 32 || isHighSurrogate c || isLowSurrogate c then unicodeEscape c else [c]

def escape : JsString → JsString
  | [] => []
  | [c] => escapeUnit c
  | c :: d :: rest =>
      if isHighSurrogate c && isLowSurrogate d then c :: d :: escape rest else escapeUnit c ++ escape (d :: rest)

def quote (s : JsString) : JsString := 34 :: escape s ++ [34]

/-- What stands for one unit: its escape, or itself in a surrogate pair. -/
def IsUnitText (c : CodeUnit) (text : JsString) : Prop :=
  (text = [c] ∧ c ≠ 34 ∧ c ≠ 92) ∨ text = unicodeEscape c ∨
    ∃ letter, (c, letter) ∈ shortEscapes ∧ text = [92, letter]

theorem escapeUnit_isUnitText (c : CodeUnit) : IsUnitText c (escapeUnit c) := by
  unfold escapeUnit
  split
  · rename_i entry hfind
    have hkey : entry.1 = c := by simpa using List.find?_some hfind
    exact .inr (.inr ⟨entry.2, hkey ▸ List.mem_of_find?_eq_some hfind, rfl⟩)
  · rename_i hfind
    rw [List.find?_eq_none] at hfind
    have hnot : ∀ letter, (c, letter) ∉ shortEscapes := fun letter hmem => hfind _ hmem (decide_eq_true rfl)
    split
    · exact .inr (.inl rfl)
    · refine .inl ⟨rfl, ?_, ?_⟩
      · rintro rfl
        exact hnot 34 (by decide)
      · rintro rfl
        exact hnot 92 (by decide)

theorem surrogate_isUnitText {c : CodeUnit} (h : (isHighSurrogate c || isLowSurrogate c) = true) :
    IsUnitText c [c] := by
  refine .inl ⟨rfl, ?_, ?_⟩
  · rintro rfl
    exact absurd h (by decide)
  · rintro rfl
    exact absurd h (by decide)

theorem hexUnit_injective {a b : Nat} (ha : a < 16) (hb : b < 16) (h : hexUnit a = hexUnit b) : a = b := by
  have hval := congrArg Fin.val h
  simp only [hexUnit, Fin.val_ofNat] at hval
  split at hval <;> split at hval <;> omega

theorem unicodeEscape_append_inj {c d : CodeUnit} {rest rest' : JsString}
    (h : unicodeEscape c ++ rest = unicodeEscape d ++ rest') : c = d ∧ rest = rest' := by
  simp only [unicodeEscape, List.cons_append, List.nil_append, List.cons.injEq, true_and] at h
  obtain ⟨h1, h2, h3, h4, hrest⟩ := h
  have hc := c.isLt
  have hd := d.isLt
  have h1 := hexUnit_injective (by omega) (by omega) h1
  have h2 := hexUnit_injective (by omega) (by omega) h2
  have h3 := hexUnit_injective (by omega) (by omega) h3
  have h4 := hexUnit_injective (by omega) (by omega) h4
  exact ⟨Fin.ext (by omega), hrest⟩

theorem shortEscapes_inj : ∀ entry ∈ shortEscapes, ∀ other ∈ shortEscapes, entry.2 = other.2 → entry.1 = other.1 := by
  have hall : (shortEscapes.all fun entry => shortEscapes.all fun other =>
      decide (entry.2 = other.2 → entry.1 = other.1)) = true := by decide
  intro entry hentry other hother
  exact of_decide_eq_true (List.all_eq_true.mp (List.all_eq_true.mp hall entry hentry) other hother)

theorem letter_ne_u : ∀ entry ∈ shortEscapes, entry.2 ≠ 117 := by
  have hall : (shortEscapes.all fun entry => decide (entry.2 ≠ 117)) = true := by decide
  intro entry hentry
  exact of_decide_eq_true (List.all_eq_true.mp hall entry hentry)

theorem IsUnitText.append_inj {c d : CodeUnit} {text text' rest rest' : JsString} (hc : IsUnitText c text)
    (hd : IsUnitText d text') (h : text ++ rest = text' ++ rest') : c = d ∧ rest = rest' := by
  rcases hc with ⟨rfl, -, hc⟩ | rfl | ⟨letter, hletter, rfl⟩
  · rcases hd with ⟨rfl, -, -⟩ | rfl | ⟨letter', -, rfl⟩
    · exact List.cons.inj h
    · exact absurd (List.cons.inj h).1 hc
    · exact absurd (List.cons.inj h).1 hc
  · rcases hd with ⟨rfl, -, hd⟩ | rfl | ⟨letter', hletter', rfl⟩
    · exact absurd (List.cons.inj h).1.symm hd
    · exact unicodeEscape_append_inj h
    · exact absurd (List.cons.inj (List.cons.inj h).2).1.symm (letter_ne_u _ hletter')
  · rcases hd with ⟨rfl, -, hd⟩ | rfl | ⟨letter', hletter', rfl⟩
    · exact absurd (List.cons.inj h).1.symm hd
    · exact absurd (List.cons.inj (List.cons.inj h).2).1 (letter_ne_u _ hletter)
    · obtain ⟨heq, hrest⟩ := List.cons.inj (List.cons.inj h).2
      exact ⟨shortEscapes_inj _ hletter _ hletter' heq, hrest⟩

theorem IsUnitText.ne_quote {c : CodeUnit} {text rest rest' : JsString} (hc : IsUnitText c text) :
    text ++ rest ≠ 34 :: rest' := by
  intro h
  rcases hc with ⟨rfl, hc, -⟩ | rfl | ⟨letter, -, rfl⟩
  · exact hc (List.cons.inj h).1
  · exact absurd (List.cons.inj h).1 (by decide)
  · exact absurd (List.cons.inj h).1 (by decide)

/-- A text that stands for a string, unit by unit. -/
inductive IsEscaped : JsString → JsString → Prop where
  | nil : IsEscaped [] []
  | cons {c : CodeUnit} {s text texts : JsString} : IsUnitText c text → IsEscaped s texts →
      IsEscaped (c :: s) (text ++ texts)

theorem escape_isEscaped (s : JsString) : IsEscaped s (escape s) := by
  fun_induction escape s with
  | case1 => exact .nil
  | case2 c =>
      rw [← List.append_nil (escapeUnit c)]
      exact .cons (escapeUnit_isUnitText c) .nil
  | case3 c d rest hpair ih =>
      rw [Bool.and_eq_true] at hpair
      refine .cons (surrogate_isUnitText (c := c) (by simp [hpair.1])) ?_
      exact .cons (surrogate_isUnitText (c := d) (by simp [hpair.2])) ih
  | case4 c d rest hpair ih => exact .cons (escapeUnit_isUnitText c) ih

theorem IsEscaped.append_inj {s t text text' rest rest' : JsString} (hs : IsEscaped s text) (ht : IsEscaped t text')
    (h : text ++ 34 :: rest = text' ++ 34 :: rest') : s = t ∧ rest = rest' := by
  induction hs generalizing t text' with
  | nil =>
      cases ht with
      | nil => exact ⟨rfl, (List.cons.inj h).2⟩
      | cons hunit _ =>
          rw [List.append_assoc] at h
          exact absurd h.symm hunit.ne_quote
  | cons hunit _ ih =>
      cases ht with
      | nil =>
          rw [List.append_assoc] at h
          exact absurd h hunit.ne_quote
      | cons hunit' htexts =>
          rw [List.append_assoc, List.append_assoc] at h
          obtain ⟨rfl, htail⟩ := hunit.append_inj hunit' h
          obtain ⟨rfl, hrest⟩ := ih htexts htail
          exact ⟨rfl, hrest⟩

theorem quote_append_inj {s t rest rest' : JsString} (h : quote s ++ rest = quote t ++ rest') :
    s = t ∧ rest = rest' := by
  simp only [quote, List.cons_append, List.append_assoc, List.cons.injEq, true_and, List.nil_append] at h
  exact (escape_isEscaped s).append_inj (escape_isEscaped t) h

/-! ### Values -/

mutual

def print (number : Rat → JsString) : Json → JsString
  | .null => js "null"
  | .bool b => if b then js "true" else js "false"
  | .number value => number value
  | .string s => quote s
  | .array items => 91 :: [44].intercalate (printItems number items) ++ [93]
  | .object fields => 123 :: [44].intercalate (printFields number fields) ++ [125]

def printItems (number : Rat → JsString) : List Json → List JsString
  | [] => []
  | item :: rest => print number item :: printItems number rest

def printFields (number : Rat → JsString) : List (JsString × Json) → List JsString
  | [] => []
  | (key, value) :: rest => (quote key ++ 58 :: print number value) :: printFields number rest

end

def isNumberUnit (c : CodeUnit) : Bool := isDigit c || [43, 45, 46, 69, 101].contains c.val

/-- Numbers have texts of their own, of the units that JSON numbers are written with. -/
structure PrintsNumbers (number : Rat → JsString) : Prop where
  injective : Function.Injective number
  ne_nil : ∀ value, number value ≠ []
  units : ∀ value, ∀ c ∈ number value, isNumberUnit c = true

/-- A number's text ends where this begins. -/
def EndsNumber (rest : JsString) : Prop := ∀ c ∈ rest.head?, isNumberUnit c = false

theorem endsNumber_nil : EndsNumber [] := nofun

theorem endsNumber_cons {c : CodeUnit} (rest : JsString) (h : isNumberUnit c = false) : EndsNumber (c :: rest) := by
  intro d hd
  cases hd
  exact h

theorem number_append_inj {number : Rat → JsString} (hnumber : PrintsNumbers number) {a b : Rat} {rest rest' : JsString}
    (hrest : EndsNumber rest) (hrest' : EndsNumber rest') (h : number a ++ rest = number b ++ rest') :
    a = b ∧ rest = rest' := by
  have hspan : ∀ (value : Rat) (tail : JsString), EndsNumber tail →
      (number value ++ tail).takeWhile isNumberUnit = number value := by
    intro value tail htail
    rw [List.takeWhile_append_of_pos (hnumber.units value)]
    cases tail with
    | nil => simp
    | cons c tail => simp [htail c rfl]
  have htexts := congrArg (List.takeWhile isNumberUnit) h
  rw [hspan a rest hrest, hspan b rest' hrest'] at htexts
  rw [htexts] at h
  exact ⟨hnumber.injective htexts, List.append_cancel_left h⟩

/-- The first unit of a text tells the kind of the value. -/
def kind : Json → Nat
  | .null => 0
  | .bool true => 1
  | .bool false => 2
  | .number _ => 3
  | .string _ => 4
  | .array _ => 5
  | .object _ => 6

def kindOf (c : CodeUnit) : Nat :=
  if c = 110 then 0
  else if c = 116 then 1
  else if c = 102 then 2
  else if c = 34 then 4
  else if c = 91 then 5
  else if c = 123 then 6
  else if isNumberUnit c then 3
  else 7

theorem kindOf_number {c : CodeUnit} (h : isNumberUnit c = true) : kindOf c = 3 := by
  unfold kindOf
  have hne : ∀ d : CodeUnit, isNumberUnit d = false → c ≠ d := by
    rintro d hd rfl
    rw [h] at hd
    cases hd
  rw [if_neg (hne 110 (by decide)), if_neg (hne 116 (by decide)), if_neg (hne 102 (by decide)),
    if_neg (hne 34 (by decide)), if_neg (hne 91 (by decide)), if_neg (hne 123 (by decide)), if_pos h]

theorem exists_print {number : Rat → JsString} (hnumber : PrintsNumbers number) (value : Json) :
    ∃ c text, print number value = c :: text ∧ kindOf c = kind value := by
  cases value with
  | null => exact ⟨110, js "ull", rfl, by decide⟩
  | bool b =>
      cases b with
      | true => exact ⟨116, js "rue", rfl, by decide⟩
      | false => exact ⟨102, js "alse", rfl, by decide⟩
  | number value =>
      obtain ⟨c, text, htext⟩ := List.exists_cons_of_ne_nil (hnumber.ne_nil value)
      exact ⟨c, text, htext, kindOf_number (hnumber.units value c (htext ▸ List.mem_cons_self))⟩
  | string s => exact ⟨34, _, rfl, show kindOf 34 = 4 by decide⟩
  | array items => exact ⟨91, _, rfl, show kindOf 91 = 5 by decide⟩
  | object fields => exact ⟨123, _, rfl, show kindOf 123 = 6 by decide⟩

theorem kind_eq_of_print {number : Rat → JsString} (hnumber : PrintsNumbers number) {a b : Json}
    {rest rest' : JsString} (h : print number a ++ rest = print number b ++ rest') : kind a = kind b := by
  obtain ⟨c, text, ha, hc⟩ := exists_print hnumber a
  obtain ⟨d, text', hb, hd⟩ := exists_print hnumber b
  rw [ha, hb] at h
  rw [← hc, ← hd, (List.cons.inj h).1]

theorem print_append_ne_bracket {number : Rat → JsString} (hnumber : PrintsNumbers number) (value : Json)
    {rest rest' : JsString} : print number value ++ rest ≠ 93 :: rest' := by
  intro h
  obtain ⟨c, text, hvalue, hc⟩ := exists_print hnumber value
  rw [hvalue] at h
  rw [(List.cons.inj h).1] at hc
  cases value with
  | bool b => cases b <;> exact absurd hc (by decide)
  | null => exact absurd hc (by decide)
  | number value => exact absurd (show kindOf 93 = 3 from hc) (by decide)
  | string s => exact absurd (show kindOf 93 = 4 from hc) (by decide)
  | array items => exact absurd (show kindOf 93 = 5 from hc) (by decide)
  | object fields => exact absurd (show kindOf 93 = 6 from hc) (by decide)

/-- The text of a list: its first item, and then the closing bracket or a comma and the text of the rest. -/
theorem intercalate_append (text : JsString) (texts : List JsString) (rest : JsString) :
    [44].intercalate (text :: texts) ++ rest =
      text ++ if texts = [] then rest else 44 :: ([44].intercalate texts ++ rest) := by
  cases texts with
  | nil => rw [List.intercalate_singleton, if_pos rfl]
  | cons next texts =>
      rw [List.intercalate_cons_cons, if_neg (List.cons_ne_nil _ _)]
      simp

/-- What follows the first item is no part of a number. -/
theorem endsNumber_ite {texts : List JsString} {close : CodeUnit} (hclose : isNumberUnit close = false)
    (rest : JsString) :
    EndsNumber (if texts = [] then close :: rest else 44 :: ([44].intercalate texts ++ close :: rest)) := by
  split
  · exact endsNumber_cons _ hclose
  · exact endsNumber_cons _ (by decide)

/-- Lists that go on alike: both end, or both have a next item. -/
theorem ite_intercalate_inj {texts texts' : List JsString} {close : CodeUnit} (hclose : close ≠ 44)
    {rest rest' : JsString}
    (h : (if texts = [] then close :: rest else 44 :: ([44].intercalate texts ++ close :: rest)) =
      if texts' = [] then close :: rest' else 44 :: ([44].intercalate texts' ++ close :: rest')) :
    [44].intercalate texts ++ close :: rest = [44].intercalate texts' ++ close :: rest' := by
  split at h
  · rename_i hnil
    split at h
    · rename_i hnil'
      rw [hnil, hnil', List.intercalate_nil, List.nil_append, List.nil_append]
      exact h
    · exact absurd (List.cons.inj h).1 hclose
  · split at h
    · exact absurd (List.cons.inj h).1.symm hclose
    · exact (List.cons.inj h).2

mutual

theorem print_append_inj {number : Rat → JsString} (hnumber : PrintsNumbers number) (a b : Json)
    {rest rest' : JsString} (hrest : EndsNumber rest) (hrest' : EndsNumber rest')
    (h : print number a ++ rest = print number b ++ rest') : a = b ∧ rest = rest' := by
  have hkind := kind_eq_of_print hnumber h
  cases a with
  | null =>
      cases b with
      | null => exact ⟨rfl, List.append_cancel_left h⟩
      | bool b => cases b <;> cases hkind
      | _ => cases hkind
  | bool a =>
      cases b with
      | bool b =>
          have hab : a = b := by cases a <;> cases b <;> first | rfl | cases hkind
          subst hab
          exact ⟨rfl, List.append_cancel_left h⟩
      | _ => cases a <;> cases hkind
  | number a =>
      cases b with
      | number b =>
          obtain ⟨rfl, heq⟩ := number_append_inj hnumber hrest hrest' h
          exact ⟨rfl, heq⟩
      | bool b => cases b <;> cases hkind
      | _ => cases hkind
  | string s =>
      cases b with
      | string t =>
          obtain ⟨rfl, heq⟩ := quote_append_inj h
          exact ⟨rfl, heq⟩
      | bool b => cases b <;> cases hkind
      | _ => cases hkind
  | array items =>
      cases b with
      | array others =>
          simp only [print, List.cons_append, List.append_assoc, List.cons.injEq, true_and] at h
          obtain ⟨rfl, heq⟩ := printItems_append_inj hnumber items others h
          exact ⟨rfl, heq⟩
      | bool b => cases b <;> cases hkind
      | _ => cases hkind
  | object fields =>
      cases b with
      | object others =>
          simp only [print, List.cons_append, List.append_assoc, List.cons.injEq, true_and] at h
          obtain ⟨rfl, heq⟩ := printFields_append_inj hnumber fields others h
          exact ⟨rfl, heq⟩
      | bool b => cases b <;> cases hkind
      | _ => cases hkind

theorem printItems_append_inj {number : Rat → JsString} (hnumber : PrintsNumbers number) (items others : List Json)
    {rest rest' : JsString}
    (h : [44].intercalate (printItems number items) ++ 93 :: rest =
      [44].intercalate (printItems number others) ++ 93 :: rest') : items = others ∧ rest = rest' := by
  cases items with
  | nil =>
      cases others with
      | nil => exact ⟨rfl, (List.cons.inj h).2⟩
      | cons other others =>
          rw [printItems, printItems, intercalate_append] at h
          exact absurd h.symm (print_append_ne_bracket hnumber other)
  | cons item items =>
      cases others with
      | nil =>
          rw [printItems, printItems, intercalate_append] at h
          exact absurd h (print_append_ne_bracket hnumber item)
      | cons other others =>
          rw [printItems, printItems, intercalate_append, intercalate_append] at h
          obtain ⟨rfl, htails⟩ := print_append_inj hnumber item other (endsNumber_ite (by decide) rest)
            (endsNumber_ite (by decide) rest') h
          obtain ⟨rfl, heq⟩ := printItems_append_inj hnumber items others (ite_intercalate_inj (by decide) htails)
          exact ⟨rfl, heq⟩

theorem printFields_append_inj {number : Rat → JsString} (hnumber : PrintsNumbers number)
    (fields others : List (JsString × Json)) {rest rest' : JsString}
    (h : [44].intercalate (printFields number fields) ++ 125 :: rest =
      [44].intercalate (printFields number others) ++ 125 :: rest') : fields = others ∧ rest = rest' := by
  cases fields with
  | nil =>
      cases others with
      | nil => exact ⟨rfl, (List.cons.inj h).2⟩
      | cons other others =>
          obtain ⟨key', value'⟩ := other
          rw [printFields, printFields, intercalate_append] at h
          exact absurd (List.cons.inj h).1 (by decide)
  | cons field fields =>
      obtain ⟨key, value⟩ := field
      cases others with
      | nil =>
          rw [printFields, printFields, intercalate_append] at h
          exact absurd (List.cons.inj h).1 (by decide)
      | cons other others =>
          obtain ⟨key', value'⟩ := other
          rw [printFields, printFields, intercalate_append, intercalate_append, List.append_assoc, List.append_assoc,
            List.cons_append, List.cons_append] at h
          obtain ⟨rfl, hvalues⟩ := quote_append_inj h
          obtain ⟨rfl, htails⟩ := print_append_inj hnumber value value' (endsNumber_ite (by decide) rest)
            (endsNumber_ite (by decide) rest') (List.cons.inj hvalues).2
          obtain ⟨rfl, heq⟩ := printFields_append_inj hnumber fields others (ite_intercalate_inj (by decide) htails)
          exact ⟨rfl, heq⟩

end

/-- The text determines the data. -/
theorem print_injective {number : Rat → JsString} (hnumber : PrintsNumbers number) :
    Function.Injective (print number) := by
  intro a b h
  refine (print_append_inj hnumber a b endsNumber_nil endsNumber_nil ?_).1
  rw [h]

end Json

end GitWarp
