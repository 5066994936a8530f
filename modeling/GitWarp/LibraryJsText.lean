import Mathlib.Data.Fin.Basic
import Mathlib.Data.List.DropRight
import Mathlib.Data.List.Lex
import Mathlib.Data.List.TakeWhile
import Mathlib.Data.Nat.Digits.Lemmas
import Mathlib.Order.Lattice

/-! JavaScript strings as sequences of UTF-16 code units. The lexicographic order of these lists is
the order of `<` on strings. Numbers are printed in decimal and read back by `parseInt(_, 10)`;
integers are taken in the range in which JavaScript prints and adds them exactly. -/

namespace GitWarp

abbrev CodeUnit := Fin 65536

abbrev JsString := List CodeUnit

instance neZero_codeUnits : NeZero 65536 := ⟨by decide⟩

instance lawfulBEq_codeUnit : LawfulBEq CodeUnit := inferInstance

instance lawfulBEq_jsString : LawfulBEq JsString := inferInstance

namespace Js

def utf16 (c : Char) : JsString :=
  if c.toNat < 65536 then [Fin.ofNat 65536 c.toNat]
  else [Fin.ofNat 65536 (55296 + (c.toNat - 65536) / 1024),
    Fin.ofNat 65536 (56320 + (c.toNat - 65536) % 1024)]

/-- A string literal. -/
def js (text : String) : JsString := text.toList.flatMap utf16

/-- The units of a literal, read off its characters: a checker that evaluates `js` decodes its bytes. -/
theorem js_ofList (chars : List Char) : js (String.ofList chars) = chars.flatMap utf16 := by
  rw [js, String.toList_ofList]

/-- A string as it is put into the text of an error. -/
def toText (s : JsString) : String := String.ofList (s.map fun c => Char.ofNat c.val)

/-- A thrown `Error`: its class and its text. -/
structure JsError where
  name : String
  message : String
  deriving DecidableEq, Repr

def thrown {α : Type} (message : String) : Except JsError α := .error ⟨"Error", message⟩

/-! ### Decimal numerals -/

def digitUnit (d : Nat) : CodeUnit := Fin.ofNat 65536 (48 + d)

def isDigit (c : CodeUnit) : Bool := 48 ≤ c.val && c.val ≤ 57

/-- A lowercase hexadecimal digit. -/
def isHexDigit (c : CodeUnit) : Bool := isDigit c || (97 ≤ c.val && c.val ≤ 102)

/-- A natural number as a template literal prints it. -/
def decimal (n : Nat) : JsString :=
  if n = 0 then [48] else (Nat.digits 10 n).reverse.map digitUnit

/-- An integer as a template literal prints it. -/
def decimalInt : Int → JsString
  | .ofNat n => decimal n
  | .negSucc n => 45 :: decimal (n + 1)

/-- The last digits of a number, base 16. -/
def hexText (length n : Nat) : JsString :=
  (List.range length).reverse.map fun place =>
    let digit := n / 16 ^ place % 16
    Fin.ofNat 65536 (if digit < 10 then 48 + digit else 87 + digit)

/-- A digit to the base 16. -/
def hexDigitUnit (digit : Nat) : CodeUnit := Fin.ofNat 65536 (if digit < 10 then 48 + digit else 87 + digit)

theorem length_hexText (length n : Nat) : (hexText length n).length = length := by
  rw [hexText, List.length_map, List.length_reverse, List.length_range]

theorem hexText_two (n : Nat) : hexText 2 n = [hexDigitUnit (n / 16 % 16), hexDigitUnit (n % 16)] := by
  have hplaces : (List.range 2).reverse = [1, 0] := rfl
  rw [hexText, hplaces, List.map_cons, List.map_cons, List.map_nil, Nat.pow_one, Nat.pow_zero, Nat.div_one]
  rfl

theorem isHexDigit_hexDigitUnit : ∀ d : Fin 16, isHexDigit (hexDigitUnit d.val) = true := by decide

theorem isHexDigit_of_mem_hexText {length n : Nat} {c : CodeUnit} (h : c ∈ hexText length n) :
    isHexDigit c = true := by
  obtain ⟨place, -, rfl⟩ := List.mem_map.mp h
  exact isHexDigit_hexDigitUnit ⟨n / 16 ^ place % 16, Nat.mod_lt _ (by decide)⟩

theorem hexText_ne_nil {length : Nat} (h : 0 < length) (n : Nat) : hexText length n ≠ [] := by
  rw [← List.length_pos_iff, length_hexText]
  exact h

def isWhiteSpace (c : CodeUnit) : Bool :=
  (9 ≤ c.val && c.val ≤ 13) || (8192 ≤ c.val && c.val ≤ 8202) ||
    [32, 160, 5760, 8232, 8233, 8239, 8287, 12288, 65279].contains c.val

/-- `s.trim()` -/
def trim (s : JsString) : JsString := (s.dropWhile isWhiteSpace).rdropWhile isWhiteSpace

def lowerUnit (c : CodeUnit) : CodeUnit := if 65 ≤ c.val ∧ c.val ≤ 90 then Fin.ofNat 65536 (c.val + 32) else c

def upperUnit (c : CodeUnit) : CodeUnit := if 97 ≤ c.val ∧ c.val ≤ 122 then Fin.ofNat 65536 (c.val - 32) else c

theorem lowerUnit_eq_of_isHexDigit {c : CodeUnit} (h : isHexDigit c = true) : lowerUnit c = c := by
  unfold lowerUnit
  split
  · simp only [isHexDigit, isDigit, Bool.or_eq_true, Bool.and_eq_true, decide_eq_true_eq] at h
    omega
  · rfl

/-- `s.toLowerCase()`, for the letters of ASCII. -/
def toLowerCase (s : JsString) : JsString := s.map lowerUnit

/-- `s.toUpperCase()`, for the letters of ASCII. -/
def toUpperCase (s : JsString) : JsString := s.map upperUnit

def digitsValue (digits : JsString) : Nat := digits.foldl (fun n c => 10 * n + (c.val - 48)) 0

/-- `parseInt(s, 10)`; `none` is `NaN`. -/
def parseInt (s : JsString) : Option Int :=
  let body := s.dropWhile isWhiteSpace
  let negative := body.head? = some 45
  let unsigned := if body.head? = some 45 ∨ body.head? = some 43 then body.tail else body
  let digits := unsigned.takeWhile isDigit
  if digits = [] then none
  else some (if negative then -(digitsValue digits : Int) else digitsValue digits)

theorem digitUnit_val {d : Nat} (hd : d < 10) : (digitUnit d).val = 48 + d := by
  simp only [digitUnit, Fin.val_ofNat]
  omega

theorem isDigit_digitUnit {d : Nat} (hd : d < 10) : isDigit (digitUnit d) = true := by
  simp only [isDigit, digitUnit_val hd, Bool.and_eq_true, decide_eq_true_eq]
  omega

theorem decimal_ne_nil (n : Nat) : decimal n ≠ [] := by
  unfold decimal
  split
  · exact List.cons_ne_nil _ _
  · rename_i hn
    simp [Nat.digits_ne_nil_iff_ne_zero.mpr hn]

theorem length_decimal_le {n k : Nat} (hk : 0 < k) (h : n < 10 ^ k) : (decimal n).length ≤ k := by
  unfold decimal
  split
  · exact hk
  · rw [List.length_map, List.length_reverse, Nat.digits_length_le_iff (by decide)]
    exact h

theorem isDigit_of_mem_decimal {n : Nat} {c : CodeUnit} (hc : c ∈ decimal n) : isDigit c = true := by
  unfold decimal at hc
  split at hc
  · rw [List.mem_singleton] at hc
    subst hc
    decide
  · obtain ⟨d, hd, rfl⟩ := List.mem_map.mp hc
    exact isDigit_digitUnit (Nat.digits_lt_base (by decide) (List.mem_reverse.mp hd))

theorem not_mem_decimal {n : Nat} {c : CodeUnit} (hc : isDigit c = false) : c ∉ decimal n := by
  intro hmem
  rw [isDigit_of_mem_decimal hmem] at hc
  exact Bool.noConfusion hc

theorem digitsValue_map_digitUnit (digits : List Nat) (hdigits : ∀ d ∈ digits, d < 10) :
    digitsValue (digits.reverse.map digitUnit) = Nat.ofDigits 10 digits := by
  induction digits with
  | nil => rfl
  | cons d digits ih =>
      have hrest := ih fun e he => hdigits e (List.mem_cons_of_mem d he)
      have hd := hdigits d List.mem_cons_self
      rw [digitsValue] at hrest ⊢
      rw [List.reverse_cons, List.map_append, List.foldl_append, hrest, Nat.ofDigits_cons]
      simp only [List.map_cons, List.map_nil, List.foldl_cons, List.foldl_nil, digitUnit_val hd]
      omega

theorem digitsValue_decimal (n : Nat) : digitsValue (decimal n) = n := by
  unfold decimal
  split
  · rename_i hn
    rw [hn]
    rfl
  · rw [digitsValue_map_digitUnit _ fun d hd => Nat.digits_lt_base (by decide) hd,
      Nat.ofDigits_digits]

theorem decimal_injective {m n : Nat} (h : decimal m = decimal n) : m = n := by
  rw [← digitsValue_decimal m, h, digitsValue_decimal]

theorem decimalInt_injective {m n : Int} (h : decimalInt m = decimalInt n) : m = n := by
  have hminus : ∀ a b, decimal a ≠ 45 :: b := fun a b hab =>
    not_mem_decimal (n := a) (c := 45) (by decide) (by rw [hab]; exact List.mem_cons_self)
  cases m with
  | ofNat m =>
      cases n with
      | ofNat n => rw [decimal_injective h]
      | negSucc n => exact absurd h (hminus _ _)
  | negSucc m =>
      cases n with
      | ofNat n => exact absurd h.symm (hminus _ _)
      | negSucc n =>
          have hmn := decimal_injective (List.cons.inj h).2
          rw [Nat.succ.inj hmn]

theorem not_whiteSpace_of_isDigit {c : CodeUnit} (hc : isDigit c = true) : isWhiteSpace c = false := by
  simp only [isDigit, Bool.and_eq_true, decide_eq_true_eq] at hc
  have hvals : c.val ∉ [32, 160, 5760, 8232, 8233, 8239, 8287, 12288, 65279] := by
    simp only [List.mem_cons, List.not_mem_nil, or_false]
    omega
  simp only [isWhiteSpace, Bool.or_eq_false_iff, Bool.and_eq_false_iff, decide_eq_false_iff_not,
    List.contains_eq_mem]
  exact ⟨⟨by omega, by omega⟩, hvals⟩

theorem parseInt_decimal (n : Nat) : parseInt (decimal n) = some (n : Int) := by
  have hall : ∀ c ∈ decimal n, isDigit c = true := fun c hc => isDigit_of_mem_decimal hc
  obtain ⟨c, rest, hcons⟩ := List.exists_cons_of_ne_nil (decimal_ne_nil n)
  have hc : isDigit c = true := hall c (by rw [hcons]; exact List.mem_cons_self)
  have hdrop : (decimal n).dropWhile isWhiteSpace = decimal n := by
    rw [hcons, List.dropWhile_cons, not_whiteSpace_of_isDigit hc]
    rfl
  have hhead : (decimal n).head? = some c := by rw [hcons]; rfl
  have hminus : c ≠ 45 := by
    rintro rfl
    exact Bool.noConfusion hc
  have hplus : c ≠ 43 := by
    rintro rfl
    exact Bool.noConfusion hc
  have htake : (decimal n).takeWhile isDigit = decimal n := List.takeWhile_eq_self_iff.mpr hall
  simp only [parseInt, hdrop, hhead, Option.some.injEq, hminus, hplus, or_self, if_false, htake,
    decimal_ne_nil, digitsValue_decimal]

theorem parseInt_decimalInt (n : Int) : parseInt (decimalInt n) = some n := by
  cases n with
  | ofNat n => exact parseInt_decimal n
  | negSucc n =>
      have hall : ∀ c ∈ decimal (n + 1), isDigit c = true := fun c hc => isDigit_of_mem_decimal hc
      have hdrop : (45 :: decimal (n + 1)).dropWhile isWhiteSpace = 45 :: decimal (n + 1) := rfl
      have htake : (decimal (n + 1)).takeWhile isDigit = decimal (n + 1) := List.takeWhile_eq_self_iff.mpr hall
      simp only [decimalInt, parseInt, hdrop, List.head?_cons, true_or, if_true, List.tail_cons, htake,
        decimal_ne_nil, if_false, digitsValue_decimal]
      rfl

/-! ### Cutting at a separator -/

/-- `[s.slice(0, i), s.slice(i + 1)]` for `i = s.lastIndexOf(c)`; `none` when `c` does not occur. -/
def splitAtLast (c : CodeUnit) : JsString → Option (JsString × JsString)
  | [] => none
  | x :: rest =>
      match splitAtLast c rest with
      | some (before, after) => some (x :: before, after)
      | none => if x = c then some ([], rest) else none

theorem splitAtLast_of_not_mem {c : CodeUnit} {s : JsString} (hc : c ∉ s) :
    splitAtLast c s = none := by
  induction s with
  | nil => rfl
  | cons x s ih =>
      rw [List.mem_cons, not_or] at hc
      rw [splitAtLast, ih hc.2]
      exact if_neg fun h => hc.1 h.symm

theorem splitAtLast_append {c : CodeUnit} (before : JsString) {after : JsString} (hc : c ∉ after) :
    splitAtLast c (before ++ c :: after) = some (before, after) := by
  induction before with
  | nil =>
      rw [List.nil_append, splitAtLast, splitAtLast_of_not_mem hc]
      exact if_pos rfl
  | cons x before ih =>
      rw [List.cons_append, splitAtLast, ih]

/-- A field that ends at its first separator: another reading of the text cuts there too, or further on. -/
theorem field_cases {c : CodeUnit} {field rest before after : JsString} (hfield : c ∉ field)
    (h : field ++ c :: rest = before ++ c :: after) :
    (before = field ∧ after = rest) ∨ ∃ more, before = field ++ c :: more ∧ rest = more ++ c :: after := by
  induction field generalizing before with
  | nil =>
      cases before with
      | nil =>
          rw [List.nil_append, List.nil_append, List.cons.injEq] at h
          exact .inl ⟨rfl, h.2.symm⟩
      | cons x before =>
          rw [List.nil_append, List.cons_append, List.cons.injEq] at h
          exact .inr ⟨before, by rw [h.1]; rfl, h.2⟩
  | cons x field ih =>
      rw [List.mem_cons, not_or] at hfield
      cases before with
      | nil =>
          rw [List.nil_append, List.cons_append, List.cons.injEq] at h
          exact absurd h.1.symm hfield.1
      | cons y before =>
          rw [List.cons_append, List.cons_append, List.cons.injEq] at h
          rcases ih hfield.2 h.2 with ⟨rfl, rfl⟩ | ⟨more, rfl, rfl⟩
          · exact .inl ⟨by rw [h.1], rfl⟩
          · exact .inr ⟨more, by rw [h.1]; rfl, rfl⟩

theorem field_inj {c : CodeUnit} {field rest field' rest' : JsString} (hfield : c ∉ field) (hfield' : c ∉ field')
    (h : field ++ c :: rest = field' ++ c :: rest') : field = field' ∧ rest = rest' := by
  rcases field_cases hfield h with ⟨rfl, rfl⟩ | ⟨more, rfl, -⟩
  · exact ⟨rfl, rfl⟩
  · exact absurd (List.mem_append_right _ List.mem_cons_self) hfield'

theorem lastField_inj {c : CodeUnit} {before last before' last' : JsString} (hlast : c ∉ last) (hlast' : c ∉ last')
    (h : before ++ c :: last = before' ++ c :: last') : before = before' ∧ last = last' := by
  have hsplit := splitAtLast_append before hlast
  rw [h, splitAtLast_append before' hlast', Option.some.injEq, Prod.mk.injEq] at hsplit
  exact ⟨hsplit.1.symm, hsplit.2.symm⟩

/-- An injective function with one value replaced by another that it does not take. -/
def withValue {α β : Type} [DecidableEq α] (f : α → β) (point : α) (value : β) (a : α) : β :=
  if a = point then value else f a

theorem withValue_self {α β : Type} [DecidableEq α] (f : α → β) (point : α) (value : β) :
    withValue f point value point = value := if_pos rfl

theorem withValue_of_ne {α β : Type} [DecidableEq α] (f : α → β) {point a : α} (value : β) (h : a ≠ point) :
    withValue f point value a = f a := if_neg h

theorem withValue_injective {α β : Type} [DecidableEq α] {f : α → β} {point : α} {value : β}
    (hf : Function.Injective f) (hvalue : ∀ a, f a ≠ value) : Function.Injective (withValue f point value) := by
  intro a b h
  unfold withValue at h
  split at h
  · rename_i ha
    split at h
    · rename_i hb
      rw [ha, hb]
    · exact absurd h.symm (hvalue b)
  · split at h
    · exact absurd h (hvalue a)
    · exact hf h

end Js

end GitWarp
