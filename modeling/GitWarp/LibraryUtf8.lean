import GitWarp.LibraryJsText

/-! Unicode texts as UTF-8 bytes and as UTF-16 code units. Bytes are decoded by a machine that takes one byte at a
time, and a replacement character for what is no UTF-8; what was encoded is decoded to the same text. -/

namespace GitWarp.Utf8
open Js

def replacement : Char := Char.ofNat 0xFFFD

def byteOrderMark : Char := Char.ofNat 0xFEFF

/-! ### Bytes -/

def encodeChar (c : Char) : List UInt8 :=
  let n := c.toNat
  if n < 0x80 then [.ofNat n]
  else if n < 0x800 then [.ofNat (0xC0 + n / 64), .ofNat (0x80 + n % 64)]
  else if n < 0x10000 then [.ofNat (0xE0 + n / 4096), .ofNat (0x80 + n / 64 % 64), .ofNat (0x80 + n % 64)]
  else [.ofNat (0xF0 + n / 262144), .ofNat (0x80 + n / 4096 % 64), .ofNat (0x80 + n / 64 % 64), .ofNat (0x80 + n % 64)]

def encode (text : List Char) : List UInt8 := text.flatMap encodeChar

/-- Inside a character: how many bytes it still needs, the bounds of the next one, and the value so far. -/
structure Pending where
  needed : Nat
  lower : Nat
  upper : Nat
  value : Nat

/-- The first byte of a character, or one that is none. -/
def lead (b : Nat) : List Char × Option Pending :=
  if b < 0x80 then ([Char.ofNat b], none)
  else if 0xC2 ≤ b ∧ b ≤ 0xDF then ([], some ⟨1, 0x80, 0xBF, b - 0xC0⟩)
  else if 0xE0 ≤ b ∧ b ≤ 0xEF then
    ([], some ⟨2, if b = 0xE0 then 0xA0 else 0x80, if b = 0xED then 0x9F else 0xBF, b - 0xE0⟩)
  else if 0xF0 ≤ b ∧ b ≤ 0xF4 then
    ([], some ⟨3, if b = 0xF0 then 0x90 else 0x80, if b = 0xF4 then 0x8F else 0xBF, b - 0xF0⟩)
  else ([replacement], none)

/-- A byte that does not go on with a character is read again as a first one. -/
def step : Option Pending → Nat → List Char × Option Pending
  | none, b => lead b
  | some p, b =>
      if p.lower ≤ b ∧ b ≤ p.upper then
        let value := p.value * 64 + (b - 0x80)
        if p.needed = 1 then ([Char.ofNat value], none) else ([], some ⟨p.needed - 1, 0x80, 0xBF, value⟩)
      else (replacement :: (lead b).1, (lead b).2)

def decodeFrom : Option Pending → List UInt8 → List Char
  | none, [] => []
  | some _, [] => [replacement]
  | state, b :: rest => (step state b.toNat).1 ++ decodeFrom (step state b.toNat).2 rest

def decode (bytes : List UInt8) : List Char := decodeFrom none bytes

/-- The values of characters: all but those of surrogates. -/
theorem toNat_bounds (c : Char) : c.toNat < 0xD800 ∨ (0xDFFF < c.toNat ∧ c.toNat < 0x110000) := c.valid

theorem decodeFrom_cons (state : Option Pending) (n : Nat) (rest : List UInt8) (hn : n < 256) :
    decodeFrom state (.ofNat n :: rest) = (step state n).1 ++ decodeFrom (step state n).2 rest := by
  have hbyte : (UInt8.ofNat n).toNat = n := by
    rw [UInt8.toNat_ofNat']
    exact Nat.mod_eq_of_lt hn
  cases state <;> rw [decodeFrom, hbyte]

/-- A byte in its bounds goes on with a character. -/
theorem decodeFrom_more {p : Pending} (hneeded : p.needed ≠ 1) {b : Nat} (hlower : p.lower ≤ b) (hupper : b ≤ p.upper)
    (hb : b < 256) (rest : List UInt8) : decodeFrom (some p) (.ofNat b :: rest) =
      decodeFrom (some ⟨p.needed - 1, 0x80, 0xBF, p.value * 64 + (b - 0x80)⟩) rest := by
  rw [decodeFrom_cons _ _ _ hb, step, if_pos ⟨hlower, hupper⟩]
  dsimp only
  rw [if_neg hneeded, List.nil_append]

/-- The last byte of a character ends it. -/
theorem decodeFrom_last {p : Pending} (hneeded : p.needed = 1) {b : Nat} (hlower : p.lower ≤ b) (hupper : b ≤ p.upper)
    (hb : b < 256) (rest : List UInt8) : decodeFrom (some p) (.ofNat b :: rest) =
      Char.ofNat (p.value * 64 + (b - 0x80)) :: decodeFrom none rest := by
  rw [decodeFrom_cons _ _ _ hb, step, if_pos ⟨hlower, hupper⟩]
  dsimp only
  rw [if_pos hneeded, List.singleton_append]

/-- What a first byte begins is gone on with. -/
theorem decodeFrom_lead {b : Nat} {p : Pending} (hlead : lead b = ([], some p)) (hb : b < 256) (rest : List UInt8) :
    decodeFrom none (.ofNat b :: rest) = decodeFrom (some p) rest := by
  rw [decodeFrom_cons _ _ _ hb, step, hlead, List.nil_append]

theorem decodeFrom_encodeChar (c : Char) (rest : List UInt8) :
    decodeFrom none (encodeChar c ++ rest) = c :: decodeFrom none rest := by
  have hbounds := toNat_bounds c
  have hback : Char.ofNat c.toNat = c := Char.ofNat_toNat c
  generalize hn : c.toNat = n at hbounds hback
  unfold encodeChar
  rw [hn]
  dsimp only
  by_cases hone : n < 0x80
  · rw [if_pos hone, List.singleton_append, decodeFrom_cons _ _ _ (by omega), step, lead, if_pos hone, hback]
    rfl
  · rw [if_neg hone]
    by_cases htwo : n < 0x800
    · have hlead : lead (0xC0 + n / 64) = ([], some ⟨1, 0x80, 0xBF, n / 64⟩) := by
        rw [lead, if_neg (by omega), if_pos (by omega), Nat.add_sub_cancel_left]
      have hvalue : n / 64 * 64 + (0x80 + n % 64 - 0x80) = n := by omega
      rw [if_pos htwo, List.cons_append, decodeFrom_lead hlead (by omega), List.singleton_append,
        decodeFrom_last rfl (by dsimp only; omega) (by dsimp only; omega) (by omega)]
      dsimp only
      rw [hvalue, hback]
    · rw [if_neg htwo]
      by_cases hthree : n < 0x10000
      · have hlead : lead (0xE0 + n / 4096) = ([], some ⟨2, if 0xE0 + n / 4096 = 0xE0 then 0xA0 else 0x80,
            if 0xE0 + n / 4096 = 0xED then 0x9F else 0xBF, n / 4096⟩) := by
          rw [lead, if_neg (by omega), if_neg (by omega), if_pos (by omega), Nat.add_sub_cancel_left]
        have hvalue : (n / 4096 * 64 + (0x80 + n / 64 % 64 - 0x80)) * 64 + (0x80 + n % 64 - 0x80) = n := by omega
        rw [if_pos hthree, List.cons_append, decodeFrom_lead hlead (by omega), List.cons_append,
          decodeFrom_more (Nat.succ_ne_self 1) (by dsimp only; split <;> omega) (by dsimp only; split <;> omega) (by omega),
          List.singleton_append, decodeFrom_last rfl (by dsimp only; omega) (by dsimp only; omega) (by omega)]
        dsimp only
        rw [hvalue, hback]
      · have hlead : lead (0xF0 + n / 262144) = ([], some ⟨3, if 0xF0 + n / 262144 = 0xF0 then 0x90 else 0x80,
            if 0xF0 + n / 262144 = 0xF4 then 0x8F else 0xBF, n / 262144⟩) := by
          rw [lead, if_neg (by omega), if_neg (by omega), if_neg (by omega), if_pos (by omega), Nat.add_sub_cancel_left]
        have hvalue : ((n / 262144 * 64 + (0x80 + n / 4096 % 64 - 0x80)) * 64 + (0x80 + n / 64 % 64 - 0x80)) * 64 +
            (0x80 + n % 64 - 0x80) = n := by omega
        rw [if_neg hthree, List.cons_append, decodeFrom_lead hlead (by omega), List.cons_append,
          decodeFrom_more (by dsimp only; omega) (by dsimp only; split <;> omega) (by dsimp only; split <;> omega) (by omega),
          List.cons_append,
          decodeFrom_more (by dsimp only; omega) (by dsimp only; omega) (by dsimp only; omega) (by omega),
          List.singleton_append, decodeFrom_last rfl (by dsimp only; omega) (by dsimp only; omega) (by omega)]
        dsimp only
        rw [hvalue, hback]

theorem decodeFrom_encode (text : List Char) (rest : List UInt8) :
    decodeFrom none (encode text ++ rest) = text ++ decodeFrom none rest := by
  induction text with
  | nil => rfl
  | cons c text ih =>
      rw [encode, List.flatMap_cons, List.append_assoc, decodeFrom_encodeChar, List.cons_append]
      exact congrArg (c :: ·) ih

theorem decode_encode (text : List Char) : decode (encode text) = text := by
  have hall := decodeFrom_encode text []
  rwa [List.append_nil, decodeFrom, List.append_nil] at hall

/-- The byte zero is the character zero. -/
theorem zero_mem_encode_iff (text : List Char) : 0 ∈ encode text ↔ Char.ofNat 0 ∈ text := by
  have hchar : ∀ c : Char, 0 ∈ encodeChar c ↔ c = Char.ofNat 0 := by
    intro c
    have hzero : c = Char.ofNat 0 ↔ c.toNat = 0 := by
      rw [← Char.toNat_inj]
      rfl
    have hbyte : ∀ n < 256, (0 = UInt8.ofNat n ↔ n = 0) := by
      intro n hn
      rw [← UInt8.toNat_inj, UInt8.toNat_ofNat', Nat.mod_eq_of_lt hn]
      exact eq_comm
    have hbounds := toNat_bounds c
    rw [hzero]
    unfold encodeChar
    dsimp only
    split
    · rw [List.mem_singleton, hbyte _ (by omega)]
    · split
      · rw [List.mem_pair, hbyte _ (by omega), hbyte _ (by omega)]
        omega
      · split
        · rw [List.mem_cons, List.mem_pair, hbyte _ (by omega), hbyte _ (by omega), hbyte _ (by omega)]
          omega
        · rw [List.mem_cons, List.mem_cons, List.mem_pair, hbyte _ (by omega), hbyte _ (by omega), hbyte _ (by omega),
            hbyte _ (by omega)]
          omega
  simp only [encode, List.mem_flatMap, hchar, exists_eq_right]

/-! ### Code units -/

def units (text : List Char) : JsString := text.flatMap utf16

/-- The characters of a string; a surrogate that stands alone is replaced. -/
def scalars : JsString → List Char
  | [] => []
  | [u] => [if 0xD800 ≤ u.val ∧ u.val ≤ 0xDFFF then replacement else Char.ofNat u.val]
  | u :: v :: rest =>
      if 0xD800 ≤ u.val ∧ u.val ≤ 0xDBFF ∧ 0xDC00 ≤ v.val ∧ v.val ≤ 0xDFFF then
        Char.ofNat (0x10000 + (u.val - 0xD800) * 1024 + (v.val - 0xDC00)) :: scalars rest
      else (if 0xD800 ≤ u.val ∧ u.val ≤ 0xDFFF then replacement else Char.ofNat u.val) :: scalars (v :: rest)

theorem scalars_utf16 (c : Char) (rest : JsString) : scalars (utf16 c ++ rest) = c :: scalars rest := by
  have hbounds := toNat_bounds c
  have hback : Char.ofNat c.toNat = c := Char.ofNat_toNat c
  generalize hn : c.toNat = n at hbounds hback
  unfold utf16
  rw [hn]
  split
  · rename_i hsmall
    have hval : (Fin.ofNat 65536 n).val = n := Nat.mod_eq_of_lt hsmall
    cases rest with
    | nil =>
        simp only [List.append_nil, scalars, hval]
        rw [if_neg (by omega), hback]
    | cons v rest =>
        rw [List.singleton_append, scalars, hval, if_neg (by omega), if_neg (by omega), hback]
  · rename_i hlarge
    have hhigh : (Fin.ofNat 65536 (55296 + (n - 65536) / 1024)).val = 55296 + (n - 65536) / 1024 :=
      Nat.mod_eq_of_lt (by omega)
    have hlow : (Fin.ofNat 65536 (56320 + (n - 65536) % 1024)).val = 56320 + (n - 65536) % 1024 :=
      Nat.mod_eq_of_lt (by omega)
    have hvalue : 0x10000 + (55296 + (n - 65536) / 1024 - 0xD800) * 1024 + (56320 + (n - 65536) % 1024 - 0xDC00) = n := by
      omega
    rw [List.cons_append, List.singleton_append, scalars, hhigh, hlow, if_pos (by omega), hvalue, hback]

theorem scalars_units (text : List Char) : scalars (units text) = text := by
  induction text with
  | nil => rfl
  | cons c text ih =>
      rw [units, List.flatMap_cons, scalars_utf16]
      exact congrArg (c :: ·) ih

/-- A code unit below the surrogates is that of its own character only. -/
theorem mem_units_iff {u : CodeUnit} (hu : u.val < 0xD800) (text : List Char) : u ∈ units text ↔ Char.ofNat u.val ∈ text := by
  have hchar : ∀ c : Char, u ∈ utf16 c ↔ c = Char.ofNat u.val := by
    intro c
    have hof : (Char.ofNat u.val).toNat = u.val := by
      rw [Char.ofNat, dif_pos (.inl hu)]
      rfl
    rw [← Char.toNat_inj, hof]
    unfold utf16
    split
    · rename_i hsmall
      rw [List.mem_singleton, Fin.ext_iff, Fin.val_ofNat, Nat.mod_eq_of_lt hsmall]
      exact eq_comm
    · rename_i hlarge
      have hbounds := toNat_bounds c
      rw [List.mem_pair, Fin.ext_iff, Fin.ext_iff, Fin.val_ofNat, Fin.val_ofNat, Nat.mod_eq_of_lt (by omega),
        Nat.mod_eq_of_lt (by omega)]
      omega
  simp only [units, List.mem_flatMap, hchar, exists_eq_right]

end GitWarp.Utf8
