import GitWarp.LibraryJson
import GitWarp.LibraryJsMap
import GitWarp.LibraryLists

/-! `JSON.parse`, and what it reads from a text that is put together of the texts of parts.

The data of a JSON text is read extensionally: an object is the function from its keys to its values, so that the
order of the keys is no part of it. The finite numbers and their texts are parameters. -/

namespace GitWarp
open Js

inductive JsonData (N : Type) where
  | null
  | bool (b : Bool)
  | number (n : N)
  | string (s : JsString)
  | array (items : List (JsonData N))
  | object (fields : JsString → Option (JsonData N))

/-- How the finite numbers are printed, and read where a text is a JSON number. -/
structure NumberText (N : Type) where
  print : N → JsString
  read : JsString → Option N
  read_print : ∀ n, read (print n) = some n
  print_ne_nil : ∀ n, print n ≠ []
  units : ∀ n, ∀ c ∈ print n, Json.isNumberUnit c = true

namespace JsonReader

def isSpace (c : CodeUnit) : Bool := [9, 10, 13, 32].contains c.val

def skip (text : JsString) : JsString := text.dropWhile isSpace

/-- What follows the unit `c`, which comes next. -/
def expect (c : CodeUnit) (text : JsString) : Option JsString :=
  match skip text with
  | [] => none
  | d :: rest => if d = c then some rest else none

/-- Whether a list goes on after a comma, and what follows the comma or the closing unit. -/
def readSeparator (close : CodeUnit) (text : JsString) : Option (Bool × JsString) :=
  match skip text with
  | [] => none
  | c :: rest => if c = close then some (false, rest) else if c = 44 then some (true, rest) else none

def hexValue (c : CodeUnit) : Option Nat :=
  if isDigit c then some (c.val - 48)
  else if 97 ≤ c.val ∧ c.val ≤ 102 then some (c.val - 87)
  else if 65 ≤ c.val ∧ c.val ≤ 70 then some (c.val - 55)
  else none

def fromHex (a b c d : CodeUnit) : Option CodeUnit := do
  return Fin.ofNat 65536 (((← hexValue a) * 16 + (← hexValue b)) * 256 + (← hexValue c) * 16 + (← hexValue d))

/-- The unit that a letter stands for after a backslash. -/
def unescape (letter : CodeUnit) : Option CodeUnit :=
  if letter = 47 then some 47 else (Json.shortEscapes.find? fun entry => entry.2 = letter).map Prod.fst

def consUnit (c : CodeUnit) (read : JsString × JsString) : JsString × JsString := (c :: read.1, read.2)

/-- The string whose opening quote was read, and what follows it. -/
def readString : JsString → Option (JsString × JsString)
  | 34 :: rest => some ([], rest)
  | 92 :: 117 :: a :: b :: c :: d :: rest => do return consUnit (← fromHex a b c d) (← readString rest)
  | 92 :: letter :: rest => do return consUnit (← unescape letter) (← readString rest)
  | c :: rest => if c.val < 32 ∨ c = 92 then none else (readString rest).map (consUnit c)
  | [] => none

def readLiteral {N : Type} (text : JsString) : Option (JsonData N × JsString) :=
  if (js "null").isPrefixOf text then some (.null, text.drop 4)
  else if (js "true").isPrefixOf text then some (.bool true, text.drop 4)
  else if (js "false").isPrefixOf text then some (.bool false, text.drop 5)
  else none

/-- Of two fields with one key the later one stays. -/
def fieldsOf {V : Type} (members : List (JsString × V)) : JsString → Option V := JsMap.lookup members.reverse

variable {N : Type} (numbers : NumberText N)

mutual

/-- The value that comes next, and what follows it. Each value takes a unit of the text. -/
def readValue : Nat → JsString → Option (JsonData N × JsString)
  | 0, _ => none
  | fuel + 1, text =>
      match skip text with
      | [] => none
      | c :: rest =>
          if c = 34 then (readString rest).map fun read => (.string read.1, read.2)
          else if c = 91 then
            (expect 93 rest).elim ((readItems fuel rest).map fun read => (.array read.1, read.2)) fun rest =>
              some (.array [], rest)
          else if c = 123 then
            (expect 125 rest).elim ((readMembers fuel rest).map fun read => (.object (fieldsOf read.1), read.2)) fun rest =>
              some (.object fun _ => none, rest)
          else if Json.isNumberUnit c then
            (numbers.read ((c :: rest).takeWhile Json.isNumberUnit)).map fun n =>
              (.number n, rest.dropWhile Json.isNumberUnit)
          else readLiteral (c :: rest)

/-- The items up to the closing bracket. -/
def readItems : Nat → JsString → Option (List (JsonData N) × JsString)
  | 0, _ => none
  | fuel + 1, text =>
      (readValue fuel text).bind fun item => (readSeparator 93 item.2).bind fun next =>
        if next.1 then (readItems fuel next.2).map fun items => (item.1 :: items.1, items.2)
        else some ([item.1], next.2)

/-- The members up to the closing brace. -/
def readMembers : Nat → JsString → Option (List (JsString × JsonData N) × JsString)
  | 0, _ => none
  | fuel + 1, text =>
      (expect 34 text).bind fun rest => (readString rest).bind fun key =>
        (expect 58 key.2).bind fun rest => (readValue fuel rest).bind fun value =>
          (readSeparator 125 value.2).bind fun next =>
            if next.1 then (readMembers fuel next.2).map fun members => ((key.1, value.1) :: members.1, members.2)
            else some ([(key.1, value.1)], next.2)

end

/-- `JSON.parse(text)`; `none` is a `SyntaxError`. -/
def parse (text : JsString) : Option (JsonData N) :=
  (readValue numbers (2 * text.length + 1) text).bind fun read => if skip read.2 = [] then some read.1 else none

theorem expect_self {c : CodeUnit} (hspace : isSpace c = false) (rest : JsString) : expect c (c :: rest) = some rest := by
  rw [expect, skip, List.dropWhile_cons_of_neg (by simp [hspace])]
  exact if_pos rfl

theorem expect_other {c d : CodeUnit} (hspace : isSpace d = false) (hne : d ≠ c) (rest : JsString) :
    expect c (d :: rest) = none := by
  rw [expect, skip, List.dropWhile_cons_of_neg (by simp [hspace])]
  exact if_neg hne

theorem readSeparator_close {close : CodeUnit} (hspace : isSpace close = false) (rest : JsString) :
    readSeparator close (close :: rest) = some (false, rest) := by
  rw [readSeparator, skip, List.dropWhile_cons_of_neg (by simp [hspace])]
  exact if_pos rfl

theorem readSeparator_comma {close : CodeUnit} (hne : 44 ≠ close) (rest : JsString) :
    readSeparator close (44 :: rest) = some (true, rest) := by
  rw [readSeparator, skip, List.dropWhile_cons_of_neg (by decide)]
  exact (if_neg hne).trans (if_pos rfl)

/-! ### Strings -/

theorem readString_raw {c : CodeUnit} (hcontrol : 32 ≤ c.val) (hquote : c ≠ 34) (hslash : c ≠ 92) (rest : JsString) :
    readString (c :: rest) = (readString rest).map (consUnit c) := by
  rw [readString.eq_def]
  split
  · rename_i heq
    exact absurd (List.cons.inj heq).1 hquote
  · rename_i heq
    exact absurd (List.cons.inj heq).1 hslash
  · rename_i heq
    exact absurd (List.cons.inj heq).1 hslash
  · rename_i heq
    obtain ⟨rfl, rfl⟩ := List.cons.inj heq
    rw [if_neg]
    rintro (hlt | heq)
    · omega
    · exact hslash heq
  · rename_i heq
    cases heq

theorem unescape_of_mem : ∀ entry ∈ Json.shortEscapes, unescape entry.2 = some entry.1 := by
  have hall : (Json.shortEscapes.all fun entry => decide (unescape entry.2 = some entry.1)) = true := by decide
  intro entry hentry
  exact of_decide_eq_true (List.all_eq_true.mp hall entry hentry)

theorem readString_short {c letter : CodeUnit} (hmem : (c, letter) ∈ Json.shortEscapes) (rest : JsString) :
    readString (92 :: letter :: rest) = (readString rest).map (consUnit c) := by
  rw [readString.eq_3 letter rest fun a b c d rest' hletter _ => Json.letter_ne_u _ hmem hletter,
    unescape_of_mem _ hmem]
  cases readString rest <;> rfl

theorem hexValue_hexUnit : ∀ digit < 16, hexValue (Json.hexUnit digit) = some digit := by decide

theorem readString_unicode (c : CodeUnit) (rest : JsString) :
    readString (Json.unicodeEscape c ++ rest) = (readString rest).map (consUnit c) := by
  have hc := c.isLt
  have hhex : fromHex (Json.hexUnit (c.val / 4096)) (Json.hexUnit (c.val / 256 % 16)) (Json.hexUnit (c.val / 16 % 16))
      (Json.hexUnit (c.val % 16)) = some c := by
    rw [fromHex, hexValue_hexUnit _ (by omega), hexValue_hexUnit _ (by omega), hexValue_hexUnit _ (by omega),
      hexValue_hexUnit _ (by omega)]
    refine congrArg some (Fin.ext ?_)
    show ((c.val / 4096 * 16 + c.val / 256 % 16) * 256 + c.val / 16 % 16 * 16 + c.val % 16) % 65536 = c.val
    omega
  show readString (92 :: 117 :: _ :: _ :: _ :: _ :: rest) = _
  rw [readString, hhex]
  cases readString rest <;> rfl

theorem readString_escapeUnit (c : CodeUnit) (rest : JsString) :
    readString (Json.escapeUnit c ++ rest) = (readString rest).map (consUnit c) := by
  unfold Json.escapeUnit
  split
  · rename_i entry hfind
    have hkey : entry.1 = c := by simpa using List.find?_some hfind
    exact readString_short (hkey ▸ List.mem_of_find?_eq_some hfind) rest
  · rename_i hfind
    rw [List.find?_eq_none] at hfind
    have hnot : ∀ letter, (c, letter) ∉ Json.shortEscapes := fun letter hmem => hfind _ hmem (decide_eq_true rfl)
    split
    · exact readString_unicode c rest
    · rename_i hplain
      simp only [Bool.or_eq_true, decide_eq_true_eq, not_or] at hplain
      refine readString_raw (by omega) ?_ ?_ rest
      · rintro rfl
        exact hnot 34 (by decide)
      · rintro rfl
        exact hnot 92 (by decide)

theorem readString_surrogate {c : CodeUnit} (h : (Json.isHighSurrogate c || Json.isLowSurrogate c) = true)
    (rest : JsString) : readString (c :: rest) = (readString rest).map (consUnit c) := by
  have hrange : 55296 ≤ c.val := by
    simp only [Json.isHighSurrogate, Json.isLowSurrogate, Bool.or_eq_true, Bool.and_eq_true, decide_eq_true_eq] at h
    omega
  refine readString_raw (by omega) ?_ ?_ rest
  · rintro rfl
    exact absurd hrange (by decide)
  · rintro rfl
    exact absurd hrange (by decide)

/-- A quoted string is read back. -/
theorem readString_escape (s rest : JsString) : readString (Json.escape s ++ 34 :: rest) = some (s, rest) := by
  fun_induction Json.escape s with
  | case1 => rfl
  | case2 c =>
      rw [readString_escapeUnit]
      rfl
  | case3 c d units hpair ih =>
      rw [Bool.and_eq_true] at hpair
      rw [List.cons_append, List.cons_append, readString_surrogate (by simp [hpair.1]),
        readString_surrogate (by simp [hpair.2]), ih]
      rfl
  | case4 c d units hpair ih =>
      rw [List.append_assoc, readString_escapeUnit, ih]
      rfl

/-! ### Texts in front of others -/

/-- A value's text ends where this begins. -/
def Delimits (rest : JsString) : Prop := ∀ c ∈ rest.head?, c = 44 ∨ c = 93 ∨ c = 125

theorem delimits_nil : Delimits [] := by
  intro c hc
  cases hc

theorem delimits_cons {c : CodeUnit} (rest : JsString) (h : c = 44 ∨ c = 93 ∨ c = 125) : Delimits (c :: rest) := by
  intro d hd
  cases hd
  exact h

theorem Delimits.takeWhile {rest : JsString} (h : Delimits rest) {p : CodeUnit → Bool} (h44 : p 44 = false)
    (h93 : p 93 = false) (h125 : p 125 = false) : rest.takeWhile p = [] ∧ rest.dropWhile p = rest := by
  cases rest with
  | nil => exact ⟨rfl, rfl⟩
  | cons c rest =>
      have hc : p c = false := by
        rcases h c rfl with rfl | rfl | rfl
        · exact h44
        · exact h93
        · exact h125
      exact ⟨List.takeWhile_cons_of_neg (by simp [hc]), List.dropWhile_cons_of_neg (by simp [hc])⟩

section Rules

variable (text : JsString) (said : Option (JsonData N))

/-- In front of anything that may follow a value the text is read so. -/
def Reads : Prop := ∀ fuel rest, 2 * text.length < fuel → Delimits rest →
  readValue numbers fuel (text ++ rest) = said.map fun data => (data, rest)

/-- A part of a text: what follows it does not change how it is read. -/
structure Readable : Prop where
  reads : Reads numbers text (parse numbers text)
  head : ∀ c ∈ text.head?, isSpace c = false ∧ c ≠ 93

variable {numbers text said}

theorem Reads.parse_eq (h : Reads numbers text said) : parse numbers text = said := by
  have hread := h (2 * text.length + 1) [] (Nat.lt_succ_self _) delimits_nil
  rw [List.append_nil] at hread
  rw [parse, hread]
  cases said <;> rfl

theorem Reads.readable (h : Reads numbers text said) (head : ∀ c ∈ text.head?, isSpace c = false ∧ c ≠ 93) :
    Readable numbers text := by
  refine ⟨?_, head⟩
  rw [h.parse_eq]
  exact h

/-- Nothing is no value. -/
theorem reads_nil : Reads numbers [] none := by
  intro fuel rest hfuel hrest
  obtain ⟨fuel, rfl⟩ := Nat.exists_eq_succ_of_ne_zero (Nat.ne_of_gt hfuel)
  cases rest with
  | nil => rfl
  | cons c rest =>
      rcases hrest c rfl with rfl | rfl | rfl
      · rfl
      · rfl
      · rfl

theorem reads_null : Reads numbers (js "null") (some .null) := by
  intro fuel rest hfuel _
  obtain ⟨fuel, rfl⟩ := Nat.exists_eq_succ_of_ne_zero (Nat.ne_of_gt (Nat.zero_lt_of_lt hfuel))
  rfl

theorem reads_bool (b : Bool) : Reads numbers (if b then js "true" else js "false") (some (.bool b)) := by
  intro fuel rest hfuel _
  obtain ⟨fuel, rfl⟩ := Nat.exists_eq_succ_of_ne_zero (Nat.ne_of_gt (Nat.zero_lt_of_lt hfuel))
  cases b with
  | false => rfl
  | true => rfl

theorem reads_string (s : JsString) : Reads numbers (Json.quote s) (some (.string s)) := by
  intro fuel rest hfuel _
  obtain ⟨fuel, rfl⟩ := Nat.exists_eq_succ_of_ne_zero (Nat.ne_of_gt (Nat.zero_lt_of_lt hfuel))
  have htext : Json.quote s ++ rest = 34 :: (Json.escape s ++ 34 :: rest) := by
    simp only [Json.quote, List.cons_append, List.append_assoc, List.nil_append]
  have hstring := readString_escape s rest
  rw [htext]
  show (readString (Json.escape s ++ 34 :: rest)).map _ = _
  rw [hstring]
  rfl

/-- A unit of a number opens nothing else. -/
theorem isNumberUnit_ne {c d : CodeUnit} (h : Json.isNumberUnit c = true) (hd : Json.isNumberUnit d = false) : c ≠ d := by
  rintro rfl
  rw [h] at hd
  cases hd

theorem isSpace_of_isNumberUnit {c : CodeUnit} (h : Json.isNumberUnit c = true) : isSpace c = false := by
  rw [← Bool.not_eq_true]
  intro hspace
  have hmem : c ∈ ([9, 10, 13, 32] : JsString) := by
    simp only [isSpace, List.contains_iff_mem, List.mem_cons, List.not_mem_nil, or_false] at hspace
    simp only [List.mem_cons, List.not_mem_nil, or_false]
    exact hspace.imp Fin.ext (Or.imp Fin.ext (Or.imp Fin.ext Fin.ext))
  have hall : (([9, 10, 13, 32] : JsString).all fun d => !Json.isNumberUnit d) = true := by decide
  have hnot := List.all_eq_true.mp hall c hmem
  rw [h] at hnot
  cases hnot

theorem reads_number (n : N) : Reads numbers (numbers.print n) (some (.number n)) := by
  intro fuel rest hfuel hrest
  obtain ⟨fuel, rfl⟩ := Nat.exists_eq_succ_of_ne_zero (Nat.ne_of_gt (Nat.zero_lt_of_lt hfuel))
  obtain ⟨htake, hdrop⟩ := hrest.takeWhile (p := Json.isNumberUnit) (by decide) (by decide) (by decide)
  have htaken : (numbers.print n ++ rest).takeWhile Json.isNumberUnit = numbers.print n := by
    rw [List.takeWhile_append_of_pos (numbers.units n), htake, List.append_nil]
  have hleft : (numbers.print n ++ rest).dropWhile Json.isNumberUnit = rest := by
    rw [List.dropWhile_append_of_pos (numbers.units n), hdrop]
  have hread := numbers.read_print n
  obtain ⟨c, units, htext⟩ := List.exists_cons_of_ne_nil (numbers.print_ne_nil n)
  have hunit := numbers.units n c (htext ▸ List.mem_cons_self)
  rw [htext, List.cons_append] at htaken hleft
  rw [List.dropWhile_cons_of_pos hunit] at hleft
  rw [htext] at hread
  rw [htext, List.cons_append, readValue, skip, List.dropWhile_cons_of_neg (by simp [isSpace_of_isNumberUnit hunit])]
  show (if c = 34 then _ else _) = _
  rw [if_neg (isNumberUnit_ne hunit (by decide)), if_neg (isNumberUnit_ne hunit (by decide)),
    if_neg (isNumberUnit_ne hunit (by decide)), if_pos hunit, htaken, hleft, hread]
  rfl

theorem readable_nil : Readable numbers [] := by
  refine reads_nil.readable fun c hc => ?_
  cases hc

theorem parse_nil : parse numbers [] = none := reads_nil.parse_eq

theorem readable_null : Readable numbers (js "null") := by
  refine reads_null.readable fun c hc => ?_
  cases hc
  exact ⟨by decide, by decide⟩

theorem readable_bool (b : Bool) : Readable numbers (if b then js "true" else js "false") := by
  refine (reads_bool b).readable fun c hc => ?_
  cases b with
  | false =>
      cases hc
      exact ⟨by decide, by decide⟩
  | true =>
      cases hc
      exact ⟨by decide, by decide⟩

theorem readable_string (s : JsString) : Readable numbers (Json.quote s) := by
  refine (reads_string s).readable fun c hc => ?_
  cases hc
  exact ⟨by decide, by decide⟩

theorem readable_number (n : N) : Readable numbers (numbers.print n) := by
  refine (reads_number n).readable fun c hc => ?_
  have hunit := numbers.units n c (List.mem_of_mem_head? hc)
  exact ⟨isSpace_of_isNumberUnit hunit, isNumberUnit_ne hunit (by decide)⟩

/-! ### Arrays -/

def arrayText (texts : List JsString) : JsString := 91 :: [44].intercalate texts ++ [93]

theorem readItems_intercalate {first : JsString} {texts : List JsString}
    (hreadable : ∀ t ∈ first :: texts, Readable numbers t)
    {fuel : Nat} (hfuel : 2 * ([44].intercalate (first :: texts)).length + 1 < fuel) (rest : JsString) :
    readItems numbers fuel ([44].intercalate (first :: texts) ++ 93 :: rest) =
      ((first :: texts).mapM (parse numbers)).map fun items => (items, rest) := by
  induction texts generalizing first fuel with
  | nil =>
      obtain ⟨fuel, rfl⟩ := Nat.exists_eq_succ_of_ne_zero (Nat.ne_of_gt (Nat.zero_lt_of_lt hfuel))
      rw [List.intercalate_singleton] at hfuel ⊢
      rw [readItems, (hreadable first List.mem_cons_self).reads fuel (93 :: rest) (by omega) (delimits_cons rest (by simp))]
      cases hparse : parse numbers first with
      | none => simp [hparse]
      | some item => simp [hparse, readSeparator_close (show isSpace 93 = false by decide)]
  | cons next texts ih =>
      obtain ⟨fuel, rfl⟩ := Nat.exists_eq_succ_of_ne_zero (Nat.ne_of_gt (Nat.zero_lt_of_lt hfuel))
      have hlength : ([44].intercalate (first :: next :: texts)).length =
          first.length + 1 + ([44].intercalate (next :: texts)).length := by
        rw [List.intercalate_cons_cons]
        simp only [List.length_append, List.length_singleton]
      rw [hlength] at hfuel
      rw [Json.intercalate_append, if_neg (List.cons_ne_nil _ _), readItems,
        (hreadable first List.mem_cons_self).reads fuel _ (by omega) (delimits_cons _ (by simp)), List.mapM_cons]
      have hfuel' : 2 * ([44].intercalate (next :: texts)).length + 1 < fuel := by omega
      have hrest := ih (fun t ht => hreadable t (List.mem_cons_of_mem _ ht)) hfuel'
      cases hparse : parse numbers first with
      | none => rfl
      | some item =>
          rw [Option.map_some, Option.bind_some, readSeparator_comma (by decide), Option.bind_some, if_pos rfl, hrest]
          cases (next :: texts).mapM (parse numbers) <;> rfl

theorem expect_intercalate {first : JsString} {texts : List JsString} (hreadable : Readable numbers first)
    (hne : first :: texts ≠ [[]]) (rest : JsString) :
    expect 93 ([44].intercalate (first :: texts) ++ 93 :: rest) = none := by
  rw [Json.intercalate_append]
  cases first with
  | nil =>
      have htexts : texts ≠ [] := by
        rintro rfl
        exact hne rfl
      rw [if_neg htexts]
      exact expect_other (by decide) (by decide) _
  | cons c units =>
      obtain ⟨hspace, hclose⟩ := hreadable.head c rfl
      exact expect_other hspace hclose _

theorem reads_array {texts : List JsString} (hreadable : ∀ t ∈ texts, Readable numbers t) (hne : texts ≠ [[]]) :
    Reads numbers (arrayText texts) ((texts.mapM (parse numbers)).map .array) := by
  intro fuel rest hfuel _
  obtain ⟨fuel, rfl⟩ := Nat.exists_eq_succ_of_ne_zero (Nat.ne_of_gt (Nat.zero_lt_of_lt hfuel))
  cases texts with
  | nil => rfl
  | cons first texts =>
      have htext : arrayText (first :: texts) ++ rest = 91 :: ([44].intercalate (first :: texts) ++ 93 :: rest) := by
        simp only [arrayText, List.cons_append, List.append_assoc, List.nil_append]
      have hlength : (arrayText (first :: texts)).length = ([44].intercalate (first :: texts)).length + 2 := by
        simp only [arrayText, List.cons_append, List.length_cons, List.length_append, List.length_nil]
      have hitems := readItems_intercalate hreadable (show _ < fuel by omega) rest
      have hopen := expect_intercalate (hreadable first List.mem_cons_self) hne rest
      rw [htext]
      show (expect 93 ([44].intercalate (first :: texts) ++ 93 :: rest)).elim _ _ = _
      rw [hopen, Option.elim_none, hitems, Option.map_map, Option.map_map]
      rfl

/-- A list of one empty text prints as the empty list. -/
theorem readable_array {texts : List JsString} (hreadable : ∀ t ∈ texts, Readable numbers t) :
    Readable numbers (arrayText texts) := by
  have hhead : ∀ c ∈ (arrayText texts).head?, isSpace c = false ∧ c ≠ 93 := by
    intro c hc
    cases hc
    exact ⟨by decide, by decide⟩
  by_cases hne : texts = [[]]
  · subst hne
    exact (reads_array (fun t ht => absurd ht List.not_mem_nil) (by simp) : Reads numbers (arrayText []) _).readable hhead
  · exact (reads_array hreadable hne).readable hhead

/-- An array says what its items say, item by item. -/
theorem parse_array_eq_iff {α : Type} {items : List α} {texts : α → JsString} {data : α → JsonData N}
    (hreadable : ∀ item ∈ items, Readable numbers (texts item)) :
    parse numbers (arrayText (items.map texts)) = some (.array (items.map data)) ↔
      ∀ item ∈ items, parse numbers (texts item) = some (data item) := by
  have hreadable' : ∀ t ∈ items.map texts, Readable numbers t := by
    intro t ht
    obtain ⟨item, hitem, rfl⟩ := List.mem_map.mp ht
    exact hreadable item hitem
  by_cases hne : items.map texts = [[]]
  · -- the text of the empty array, but not of an item
    obtain ⟨item, rfl, hitem⟩ := List.map_eq_singleton_iff.mp hne
    refine iff_of_false (fun h => ?_) fun h => ?_
    · rw [hne] at h
      cases (show some (JsonData.array []) = _ from h)
    · have hdata := h item (List.mem_singleton_self item)
      rw [hitem, parse_nil] at hdata
      cases hdata
  · rw [(reads_array hreadable' hne).parse_eq, ← Lists.mapM_map_eq_some_iff]
    cases (items.map texts).mapM (parse numbers) <;> simp

/-! ### Objects -/

def memberText (member : JsString × JsString) : JsString := Json.quote member.1 ++ 58 :: member.2

def objectText (members : List (JsString × JsString)) : JsString := 123 :: [44].intercalate (members.map memberText) ++ [125]

/-- The member that a member's text says. -/
def parseMember (numbers : NumberText N) (member : JsString × JsString) : Option (JsString × JsonData N) :=
  (parse numbers member.2).map fun value => (member.1, value)

/-- The text of a member in front of others: its key is read, and then its value. -/
theorem readMembers_memberText (fuel : Nat) (member : JsString × JsString) (rest : JsString) :
    readMembers numbers (fuel + 1) (memberText member ++ rest) =
      (readValue numbers fuel (member.2 ++ rest)).bind fun value => (readSeparator 125 value.2).bind fun next =>
        if next.1 then (readMembers numbers fuel next.2).map fun members => ((member.1, value.1) :: members.1, members.2)
        else some ([(member.1, value.1)], next.2) := by
  have htext : memberText member ++ rest = 34 :: (Json.escape member.1 ++ 34 :: (58 :: (member.2 ++ rest))) := by
    simp only [memberText, Json.quote, List.cons_append, List.append_assoc, List.nil_append]
  rw [htext, readMembers, expect_self (by decide), Option.bind_some, readString_escape, Option.bind_some,
    expect_self (by decide), Option.bind_some]

theorem readMembers_intercalate {first : JsString × JsString} {members : List (JsString × JsString)}
    (hreadable : ∀ m ∈ first :: members, Readable numbers m.2) {fuel : Nat}
    (hfuel : 2 * ([44].intercalate ((first :: members).map memberText)).length + 1 < fuel) (rest : JsString) :
    readMembers numbers fuel ([44].intercalate ((first :: members).map memberText) ++ 125 :: rest) =
      ((first :: members).mapM (parseMember numbers)).map fun read => (read, rest) := by
  have hmember : first.2.length ≤ (memberText first).length := by
    rw [memberText, List.length_append, List.length_cons]
    omega
  induction members generalizing first fuel with
  | nil =>
      obtain ⟨fuel, rfl⟩ := Nat.exists_eq_succ_of_ne_zero (Nat.ne_of_gt (Nat.zero_lt_of_lt hfuel))
      rw [List.map_singleton, List.intercalate_singleton] at hfuel ⊢
      rw [readMembers_memberText, (hreadable first List.mem_cons_self).reads fuel (125 :: rest) (by omega)
        (delimits_cons rest (by simp))]
      cases hparse : parse numbers first.2 with
      | none => simp [parseMember, hparse]
      | some value => simp [parseMember, hparse, readSeparator_close (show isSpace 125 = false by decide)]
  | cons next members ih =>
      obtain ⟨fuel, rfl⟩ := Nat.exists_eq_succ_of_ne_zero (Nat.ne_of_gt (Nat.zero_lt_of_lt hfuel))
      have hlength : ([44].intercalate ((first :: next :: members).map memberText)).length =
          (memberText first).length + 1 + ([44].intercalate ((next :: members).map memberText)).length := by
        rw [List.map_cons, List.map_cons, List.intercalate_cons_cons]
        simp only [List.length_append, List.length_singleton]
      rw [hlength] at hfuel
      have hfuel' : 2 * ([44].intercalate ((next :: members).map memberText)).length + 1 < fuel := by omega
      have hmember' : next.2.length ≤ (memberText next).length := by
        rw [memberText, List.length_append, List.length_cons]
        omega
      have hrest := ih (fun m hm => hreadable m (List.mem_cons_of_mem _ hm)) hfuel' hmember'
      rw [List.map_cons, Json.intercalate_append, if_neg (by simp), readMembers_memberText,
        (hreadable first List.mem_cons_self).reads fuel _ (by omega) (delimits_cons _ (by simp)), List.mapM_cons]
      cases hparse : parse numbers first.2 with
      | none => simp [parseMember, hparse]
      | some value =>
          have hfirst : parseMember numbers first = some (first.1, value) := by rw [parseMember, hparse]; rfl
          rw [hfirst, Option.map_some, Option.bind_some, readSeparator_comma (by decide), Option.bind_some, if_pos rfl, hrest]
          cases (next :: members).mapM (parseMember numbers) <;> rfl

theorem reads_object {members : List (JsString × JsString)} (hreadable : ∀ m ∈ members, Readable numbers m.2) :
    Reads numbers (objectText members)
      ((members.mapM (parseMember numbers)).map fun read => .object (fieldsOf read)) := by
  intro fuel rest hfuel _
  obtain ⟨fuel, rfl⟩ := Nat.exists_eq_succ_of_ne_zero (Nat.ne_of_gt (Nat.zero_lt_of_lt hfuel))
  cases members with
  | nil => rfl
  | cons first members =>
      have htext : objectText (first :: members) ++ rest =
          123 :: ([44].intercalate ((first :: members).map memberText) ++ 125 :: rest) := by
        simp only [objectText, List.cons_append, List.append_assoc, List.nil_append]
      have hlength : (objectText (first :: members)).length =
          ([44].intercalate ((first :: members).map memberText)).length + 2 := by
        simp only [objectText, List.cons_append, List.length_cons, List.length_append, List.length_nil]
      have hmembers := readMembers_intercalate hreadable (show _ < fuel by omega) rest
      have hopen : expect 125 ([44].intercalate ((first :: members).map memberText) ++ 125 :: rest) = none := by
        rw [List.map_cons, Json.intercalate_append, memberText, Json.quote]
        exact expect_other (by decide) (by decide) _
      rw [htext]
      show (expect 125 ([44].intercalate ((first :: members).map memberText) ++ 125 :: rest)).elim _ _ = _
      rw [hopen, Option.elim_none, hmembers, Option.map_map, Option.map_map]
      rfl

theorem readable_object {members : List (JsString × JsString)} (hreadable : ∀ m ∈ members, Readable numbers m.2) :
    Readable numbers (objectText members) := by
  refine (reads_object hreadable).readable fun c hc => ?_
  cases hc
  exact ⟨by decide, by decide⟩

theorem exists_fields_of_parse_object {members : List (JsString × JsString)}
    (hreadable : ∀ m ∈ members, Readable numbers m.2)
    {data : JsonData N} (h : parse numbers (objectText members) = some data) : ∃ fields, data = .object fields := by
  rw [(reads_object hreadable).parse_eq] at h
  obtain ⟨read, -, rfl⟩ := Option.map_eq_some_iff.mp h
  exact ⟨fieldsOf read, rfl⟩

/-- Where no key comes twice, a member is the value under its key. -/
theorem fieldsOf_eq_some_iff {V : Type} {members : List (JsString × V)} (hnodup : (members.map Prod.fst).Nodup)
    (key : JsString) (value : V) : fieldsOf members key = some value ↔ (key, value) ∈ members := by
  have hnodup' : (members.reverse.map Prod.fst).Nodup := by
    rw [List.map_reverse]
    exact List.nodup_reverse.mpr hnodup
  rw [fieldsOf, JsMap.lookup_eq_some_iff hnodup', List.mem_reverse]

/-- The fields of an object whose keys have these data. -/
theorem fieldsOf_map_eq_some_iff {keys : List JsString} (hnodup : keys.Nodup) (data : JsString → JsonData N) (key : JsString)
    (value : JsonData N) :
    fieldsOf (keys.map fun key => (key, data key)) key = some value ↔ key ∈ keys ∧ value = data key := by
  have hkeys : (keys.map fun key => (key, data key)).map Prod.fst = keys := by
    rw [List.map_map]
    exact List.map_id keys
  rw [fieldsOf_eq_some_iff (hkeys.symm ▸ hnodup), List.mem_map]
  constructor
  · rintro ⟨key', hkey', heq⟩
    cases heq
    exact ⟨hkey', rfl⟩
  · rintro ⟨hkey, rfl⟩
    exact ⟨key, hkey, rfl⟩

/-- An object says under each of its keys what the key's text says. -/
theorem parse_object_eq_iff {keys : List JsString} (hnodup : keys.Nodup) {texts : JsString → JsString}
    (hreadable : ∀ key ∈ keys, Readable numbers (texts key)) {fields : JsString → Option (JsonData N)} :
    parse numbers (objectText (keys.map fun key => (key, texts key))) = some (.object fields) ↔
      (∀ key ∈ keys, ∃ data, parse numbers (texts key) = some data ∧ fields key = some data) ∧
        ∀ key, key ∉ keys → fields key = none := by
  have hreadable' : ∀ m ∈ keys.map fun key => (key, texts key), Readable numbers m.2 := by
    intro m hm
    obtain ⟨key, hkey, rfl⟩ := List.mem_map.mp hm
    exact hreadable key hkey
  -- where each text says some data, these are the fields that are read
  have hread : ∀ data : JsString → JsonData N, (∀ key ∈ keys, parse numbers (texts key) = some (data key)) →
      parse numbers (objectText (keys.map fun key => (key, texts key))) =
        some (.object (fieldsOf (keys.map fun key => (key, data key)))) := by
    intro data hdata
    rw [(reads_object hreadable').parse_eq, Lists.mapM_map_eq_some_iff.mpr fun key hkey => ?_]
    · rfl
    · rw [parseMember, hdata key hkey]
      rfl
  constructor
  · intro h
    have hsome : ∀ key ∈ keys, parse numbers (texts key) = some ((parse numbers (texts key)).getD .null) := by
      intro key hkey
      rw [(reads_object hreadable').parse_eq] at h
      obtain ⟨read, hmembers, -⟩ := Option.map_eq_some_iff.mp h
      have hmem := List.mem_map_of_mem (f := parseMember numbers) (List.mem_map_of_mem (f := fun key => (key, texts key)) hkey)
      rw [Lists.mapM_eq_some_iff.mp hmembers] at hmem
      obtain ⟨member, -, hmember⟩ := List.mem_map.mp hmem
      obtain ⟨data, hdata, -⟩ := Option.map_eq_some_iff.mp hmember.symm
      rw [show parse numbers (texts key) = some data from hdata]
      rfl
    have hfields := h.symm.trans (hread _ hsome)
    rw [Option.some.injEq, JsonData.object.injEq] at hfields
    subst hfields
    refine ⟨fun key hkey => ⟨_, hsome key hkey, ?_⟩, fun key hkey => ?_⟩
    · exact (fieldsOf_map_eq_some_iff hnodup _ key _).mpr ⟨hkey, rfl⟩
    rw [Option.eq_none_iff_forall_ne_some]
    intro value hvalue
    exact hkey ((fieldsOf_map_eq_some_iff hnodup _ key value).mp hvalue).1
  · rintro ⟨hkeys, hrest⟩
    have hdata : ∀ key ∈ keys, parse numbers (texts key) = some ((fields key).getD .null) := by
      intro key hkey
      obtain ⟨data, hparse, hfield⟩ := hkeys key hkey
      rw [hparse, hfield]
      rfl
    rw [hread _ hdata]
    refine congrArg (fun fields => some (JsonData.object fields)) (funext fun key => Option.ext fun value => ?_)
    rw [fieldsOf_map_eq_some_iff hnodup]
    constructor
    · rintro ⟨hkey, rfl⟩
      obtain ⟨data, -, hfield⟩ := hkeys key hkey
      rw [hfield]
      rfl
    · intro hvalue
      by_cases hkey : key ∈ keys
      · exact ⟨hkey, by rw [hvalue]; rfl⟩
      · rw [hrest key hkey] at hvalue
        cases hvalue

end Rules

end JsonReader

end GitWarp
