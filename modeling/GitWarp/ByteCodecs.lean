import GitWarp.BytesBase64
import GitWarp.LibraryBits

/-! The codecs of byte strings: which texts are decoded, and to which bytes. -/

namespace GitWarp
open Js ExceptLoops Bits

namespace Bytes

/-! ### Hexadecimal texts -/

/-- `HEX_TABLE` -/
def hexTable : List JsString := (List.range 256).map (hexText 2)

def hexEncode (bytes : List UInt8) : JsString := bytes.flatMap fun byte => (hexTable[byte.toNat]?).getD []

def hexCharValue (cc : CodeUnit) : Int :=
  if 48 ≤ cc.val ∧ cc.val ≤ 57 then cc.val - 48
  else if 65 ≤ cc.val ∧ cc.val ≤ 70 then cc.val - 65 + 10
  else if 97 ≤ cc.val ∧ cc.val ≤ 102 then cc.val - 97 + 10
  else -1

/-- The loop over the pairs of characters. -/
def hexPairs (refused : JsError) : JsString → Except JsError (List UInt8)
  | c₁ :: c₂ :: rest =>
      let hi := hexCharValue c₁
      let lo := hexCharValue c₂
      if hi = -1 ∨ lo = -1 then .error refused
      else do return UInt8.ofNat (hi * 16 + lo).toNat :: (← hexPairs refused rest)
  | _ => return []

def hexDecode (hex : JsString) : Except JsError (List UInt8) :=
  if hex.length % 2 ≠ 0 then
    .error ⟨"RangeError", s!"Invalid hex string (odd length {hex.length}): {shown hex}"⟩
  else hexPairs ⟨"RangeError", s!"Invalid hex string (length {hex.length}): {shown hex}"⟩ hex

/-- A digit in either case. -/
def IsHexChar (c : CodeUnit) : Prop := (48 ≤ c.val ∧ c.val ≤ 57) ∨ (65 ≤ c.val ∧ c.val ≤ 70) ∨ (97 ≤ c.val ∧ c.val ≤ 102)

theorem hexCharValue_eq_neg_one_iff (c : CodeUnit) : hexCharValue c = -1 ↔ ¬ IsHexChar c := by
  unfold hexCharValue IsHexChar
  split_ifs <;> omega

theorem hexTable_getElem (byte : UInt8) : (hexTable[byte.toNat]?).getD [] = hexText 2 byte.toNat := by
  rw [hexTable, List.getElem?_map, List.getElem?_range (by exact byte.toNat_lt)]
  rfl

theorem hexCharValue_hexDigitUnit : ∀ d : Fin 16, hexCharValue (hexDigitUnit d.val) = (d.val : Int) := by
  decide +kernel

theorem exists_hexChars (byte : UInt8) : ∃ hi lo, hexText 2 byte.toNat = [hi, lo] ∧
    hexCharValue hi = (byte.toNat / 16 : Nat) ∧ hexCharValue lo = (byte.toNat % 16 : Nat) := by
  have hbyte := byte.toNat_lt
  have hhi : byte.toNat / 16 % 16 = byte.toNat / 16 := by omega
  refine ⟨_, _, hexText_two byte.toNat, ?_, hexCharValue_hexDigitUnit ⟨byte.toNat % 16, by omega⟩⟩
  rw [hhi]
  exact hexCharValue_hexDigitUnit ⟨byte.toNat / 16, by omega⟩

theorem hexPairs_flatMap (refused : JsError) (bytes : List UInt8) :
    hexPairs refused (bytes.flatMap fun byte => hexText 2 byte.toNat) = .ok bytes := by
  induction bytes with
  | nil => rfl
  | cons byte bytes ih =>
      obtain ⟨hi, lo, htext, hhi, hlo⟩ := exists_hexChars byte
      have hbyte : UInt8.ofNat (hexCharValue hi * 16 + hexCharValue lo).toNat = byte := by
        rw [hhi, hlo]
        apply ofNat_eq
        have := byte.toNat_lt
        omega
      rw [List.flatMap_cons, htext, List.cons_append, List.cons_append, List.nil_append, hexPairs, ih, hbyte, if_neg]
      · rfl
      · omega

theorem hexDecode_hexEncode (bytes : List UInt8) : hexDecode (hexEncode bytes) = .ok bytes := by
  have htext : hexEncode bytes = bytes.flatMap fun byte => hexText 2 byte.toNat := by
    rw [hexEncode]
    congr 1
    funext byte
    exact hexTable_getElem byte
  have hlength : (hexEncode bytes).length % 2 = 0 := by
    rw [htext, List.length_flatMap]
    have hsum : (bytes.map fun byte => (hexText 2 byte.toNat).length).sum = bytes.length * 2 := by
      simp [hexText, List.map_const']
    rw [hsum, Nat.mul_mod_left]
  rw [hexDecode, if_neg (by rw [hlength]; decide), htext, hexPairs_flatMap]

/-- The pairs are read to the end, unless a character that is no digit stops the loop. -/
theorem hexPairs_cases (refused : JsError) (hex : JsString) (heven : hex.length % 2 = 0) :
    ((∀ c ∈ hex, IsHexChar c) ∧ ∃ bytes, hexPairs refused hex = .ok bytes) ∨
      ((∃ c ∈ hex, ¬ IsHexChar c) ∧ hexPairs refused hex = .error refused) := by
  induction hex using hexPairs.induct with
  | case1 c₁ c₂ rest hi lo hbad =>
      right
      refine ⟨?_, by rw [hexPairs, if_pos hbad]⟩
      rcases hbad with hbad | hbad
      · exact ⟨c₁, List.mem_cons_self, (hexCharValue_eq_neg_one_iff c₁).mp hbad⟩
      · exact ⟨c₂, List.mem_cons_of_mem _ List.mem_cons_self, (hexCharValue_eq_neg_one_iff c₂).mp hbad⟩
  | case2 c₁ c₂ rest hi lo hgood ih =>
      have hgood' := not_or.mp hgood
      have h₁ : IsHexChar c₁ := not_not.mp fun h => hgood'.1 ((hexCharValue_eq_neg_one_iff c₁).mpr h)
      have h₂ : IsHexChar c₂ := not_not.mp fun h => hgood'.2 ((hexCharValue_eq_neg_one_iff c₂).mpr h)
      have hrest : rest.length % 2 = 0 := by
        simp only [List.length_cons] at heven
        omega
      rw [hexPairs, if_neg hgood]
      rcases ih hrest with ⟨hall, bytes, hok⟩ | ⟨⟨c, hc, hbad⟩, herror⟩
      · left
        refine ⟨List.forall_mem_cons.mpr ⟨h₁, List.forall_mem_cons.mpr ⟨h₂, hall⟩⟩, UInt8.ofNat (hi * 16 + lo).toNat :: bytes, ?_⟩
        rw [hok]
        rfl
      · right
        refine ⟨⟨c, List.mem_cons_of_mem _ (List.mem_cons_of_mem _ hc), hbad⟩, ?_⟩
        rw [herror]
        rfl
  | case3 hex hshort =>
      left
      cases hex with
      | nil => exact ⟨fun _ h => absurd h List.not_mem_nil, [], rfl⟩
      | cons c rest =>
          cases rest with
          | nil => exact absurd heven (by simp)
          | cons c' rest => exact absurd rfl (hshort c c' rest)

theorem hexDecode_accepts_iff (hex : JsString) :
    (∃ bytes, hexDecode hex = .ok bytes) ↔ hex.length % 2 = 0 ∧ ∀ c ∈ hex, IsHexChar c := by
  by_cases heven : hex.length % 2 = 0
  · rw [hexDecode, if_neg (by rw [heven]; decide)]
    rcases hexPairs_cases ⟨"RangeError", s!"Invalid hex string (length {hex.length}): {shown hex}"⟩ hex heven with
      ⟨hall, hok⟩ | ⟨⟨c, hc, hbad⟩, herror⟩
    · exact ⟨fun _ => ⟨heven, hall⟩, fun _ => hok⟩
    · rw [herror]
      refine ⟨?_, fun h => absurd (h.2 c hc) hbad⟩
      rintro ⟨_, ⟨⟩⟩
  · rw [hexDecode, if_pos heven]
    refine ⟨?_, fun h => absurd h.1 heven⟩
    rintro ⟨_, ⟨⟩⟩

/-! ### Base64 texts -/

/-- The six bits of a character of the alphabet. -/
def sextet (c : CodeUnit) : List Bool := bits 6 (b64Chars.idxOf c)

/-- The bytes that the leading full octets of a text's digits form. -/
def leadingOctets (b64 : JsString) : List UInt8 := octets ((b64.takeWhile fun c => b64Chars.contains c).flatMap sextet)

/-- Digits whose number is not 1 modulo 4, without signs behind them or with those that complete the last group. -/
def IsBase64 (b64 : JsString) : Prop :=
  ∃ body signs, b64 = body ++ List.replicate signs padding ∧ (∀ c ∈ body, b64Chars.contains c = true) ∧
    body.length % 4 ≠ 1 ∧ (signs = 0 ∨ signs = (4 - body.length % 4) % 4)

/-- The text is decoded if and only if it is such a text, and then to its leading octets. -/
def DecodesExactly (b64 : JsString) : Prop :=
  ((∃ bytes, base64Decode b64 = .ok bytes) ↔ IsBase64 b64) ∧
    ∀ bytes, base64Decode b64 = .ok bytes → bytes = leadingOctets b64

/-- Digits followed by one or two signs that do not end at a multiple of four. -/
def PartlyPadded (b64 : JsString) : Prop :=
  ∃ body signs, b64 = body ++ List.replicate signs padding ∧ (∀ c ∈ body, b64Chars.contains c = true) ∧
    (signs = 1 ∨ signs = 2) ∧ (b64.length % 4 = 2 ∨ b64.length % 4 = 3)

theorem decodeGroups_eq_octets {body : JsString} (hbody : ∀ c ∈ body, b64Chars.contains c = true) :
    decodeGroups body = octets (body.flatMap sextet) := by
  have hlookup : ∀ c ∈ body, sextet c = bits 6 (b64Lookup c) ∧ b64Lookup c < 2 ^ 6 := by
    intro c hc
    have hlt := List.idxOf_lt_length_of_mem (List.contains_iff_mem.mp (hbody c hc))
    rw [length_b64Chars] at hlt
    rw [sextet, b64Lookup, if_pos (hbody c hc)]
    exact ⟨rfl, hlt⟩
  induction body using decodeGroups.induct with
  | case1 a b c d rest ih =>
      simp only [List.forall_mem_cons] at hbody hlookup
      obtain ⟨-, -, -, -, hrest⟩ := hbody
      obtain ⟨⟨ha, -⟩, ⟨hb, hblt⟩, ⟨hc, hclt⟩, ⟨hd, hdlt⟩, htail⟩ := hlookup
      simp only [List.flatMap_cons, ha, hb, hc, hd, decodeGroups, ih hrest htail]
      rw [octets_carry 6 2 4 rfl hblt, octets_carry 4 4 2 rfl hclt, octets_carry 2 6 0 rfl hdlt, bits, List.nil_append]
      simp only [Nat.reducePow, Nat.div_one]
  | case2 a b c =>
      simp only [List.forall_mem_cons] at hlookup
      obtain ⟨⟨ha, -⟩, ⟨hb, hblt⟩, ⟨hc, hclt⟩, -⟩ := hlookup
      simp only [List.flatMap_cons, ha, hb, hc, decodeGroups]
      rw [octets_carry 6 2 4 rfl hblt, octets_carry 4 4 2 rfl hclt, List.flatMap_nil, List.append_nil,
        octets_eq_nil (by rw [length_bits]; decide)]
      simp only [Nat.reducePow]
  | case3 a b =>
      simp only [List.forall_mem_cons] at hlookup
      obtain ⟨⟨ha, -⟩, ⟨hb, hblt⟩, -⟩ := hlookup
      simp only [List.flatMap_cons, ha, hb, decodeGroups]
      rw [octets_carry 6 2 4 rfl hblt, List.flatMap_nil, List.append_nil, octets_eq_nil (by rw [length_bits]; decide)]
      simp only [Nat.reducePow]
  | case4 body hfour hthree htwo =>
      -- one digit alone fills no octet
      have hshort : decodeGroups body = [] ∧ (body = [] ∨ ∃ a, body = [a]) := by
        rcases body with _ | ⟨a, _ | ⟨b, _ | ⟨c, _ | ⟨d, rest⟩⟩⟩⟩
        · exact ⟨rfl, Or.inl rfl⟩
        · exact ⟨rfl, Or.inr ⟨a, rfl⟩⟩
        · exact absurd rfl (htwo a b)
        · exact absurd rfl (hthree a b c)
        · exact absurd rfl (hfour a b c d rest)
      rw [hshort.1]
      rcases hshort.2 with rfl | ⟨a, rfl⟩
      · rfl
      · rw [List.flatMap_cons, List.flatMap_nil, List.append_nil, sextet, octets_eq_nil (by rw [length_bits]; decide)]

/-! ### Acceptance -/

/-- What the pattern and the length let through. -/
theorem base64Decode_accepts_iff (b64 : JsString) : (∃ bytes, base64Decode b64 = .ok bytes) ↔
    b64.length % 4 ≠ 1 ∧ ∃ body signs, b64 = body ++ List.replicate signs padding ∧
      (∀ c ∈ body, b64Chars.contains c = true) ∧ signs ≤ 2 := by
  constructor
  · rintro ⟨bytes, hdecode⟩
    obtain ⟨⟨⟩, hvalid, -⟩ := bind_ok_iff.mp hdecode
    rw [validateBase64] at hvalid
    split_ifs at hvalid with htext hlength
    refine ⟨hlength, b64.takeWhile fun c => b64Chars.contains c,
      (b64.dropWhile fun c => b64Chars.contains c).length, ?_, fun c hc => List.mem_takeWhile_imp hc, ?_⟩
    · have hsigns : ∀ c ∈ b64.dropWhile fun c => b64Chars.contains c, c = padding := by
        simp only [isBase64Text, Bool.not_eq_false, Bool.and_eq_true, List.all_eq_true, decide_eq_true_eq] at htext
        exact htext.2
      rw [← List.eq_replicate_of_mem hsigns, List.takeWhile_append_dropWhile]
    · simp only [isBase64Text, Bool.not_eq_false, Bool.and_eq_true, decide_eq_true_eq] at htext
      exact htext.1
  · rintro ⟨hlength, body, signs, rfl, hbody, hsigns⟩
    exact ⟨_, base64Decode_signs hbody hsigns hlength⟩

theorem leadingOctets_signs {body : JsString} (hbody : ∀ c ∈ body, b64Chars.contains c = true) (signs : Nat) :
    leadingOctets (body ++ List.replicate signs padding) = decodeGroups body := by
  have htake : (body ++ List.replicate signs padding).takeWhile (fun c => b64Chars.contains c) = body := by
    have hsplit := List.takeWhile_append_dropWhile (p := fun c => b64Chars.contains c) (l := body ++ List.replicate signs padding)
    rw [dropWhile_signs hbody] at hsplit
    exact List.append_cancel_right hsplit
  rw [leadingOctets, htake, decodeGroups_eq_octets hbody]

/-- Whatever is decoded gives the octets that the digits fill. -/
theorem base64Decode_eq_leadingOctets {b64 : JsString} {bytes : List UInt8} (h : base64Decode b64 = .ok bytes) :
    bytes = leadingOctets b64 := by
  obtain ⟨hlength, body, signs, rfl, hbody, hsigns⟩ := (base64Decode_accepts_iff b64).mp ⟨bytes, h⟩
  rw [base64Decode_signs hbody hsigns hlength] at h
  rw [leadingOctets_signs hbody]
  exact (Except.ok.inj h).symm

theorem base64Decode_of_isBase64 {b64 : JsString} (h : IsBase64 b64) : ∃ bytes, base64Decode b64 = .ok bytes := by
  obtain ⟨body, signs, rfl, hbody, hnumber, hsigns⟩ := h
  rw [base64Decode_accepts_iff]
  refine ⟨?_, body, signs, rfl, hbody, by omega⟩
  rw [List.length_append, List.length_replicate]
  omega

/-- The signs end at a multiple of four, if there are any. -/
theorem IsBase64.not_partlyPadded {b64 : JsString} (h : IsBase64 b64) : ¬ PartlyPadded b64 := by
  rintro ⟨body', signs', htext, hbody', hsigns', hlength⟩
  obtain ⟨body, signs, rfl, hbody, hnumber, hsigns⟩ := h
  have hdrop := dropWhile_signs hbody signs
  rw [htext, dropWhile_signs hbody'] at hdrop
  have hcount : signs' = signs := by simpa using congrArg List.length hdrop
  rw [List.length_append, List.length_replicate] at hlength
  omega

theorem isBase64_of_accepted {b64 : JsString} (h : ∃ bytes, base64Decode b64 = .ok bytes) (hpadded : ¬ PartlyPadded b64) :
    IsBase64 b64 := by
  obtain ⟨hlength, body, signs, rfl, hbody, hsigns⟩ := (base64Decode_accepts_iff b64).mp h
  have hcomplete : signs = 0 ∨ (signs = 1 ∨ signs = 2) ∧ (body.length + signs) % 4 = 0 := by
    rcases Nat.eq_zero_or_pos signs with hzero | hpos
    · exact Or.inl hzero
    · refine Or.inr ⟨by omega, ?_⟩
      by_contra hend
      refine hpadded ⟨body, signs, rfl, hbody, by omega, ?_⟩
      rw [List.length_append, List.length_replicate] at hlength ⊢
      omega
  rw [List.length_append, List.length_replicate] at hlength
  exact ⟨body, signs, rfl, hbody, by omega, by omega⟩

theorem PartlyPadded.accepted {b64 : JsString} (h : PartlyPadded b64) : ∃ bytes, base64Decode b64 = .ok bytes := by
  obtain ⟨body, signs, rfl, hbody, hsigns, hlength⟩ := h
  exact (base64Decode_accepts_iff _).mpr ⟨by omega, body, signs, rfl, hbody, by omega⟩

theorem not_decodesExactly {b64 : JsString} (h : PartlyPadded b64) : ¬ DecodesExactly b64 :=
  fun hexact => (hexact.1.mp h.accepted).not_partlyPadded h

/-- `AA=` has two digits, which two signs would complete; it is decoded to one byte. -/
theorem not_decodesExactly_oneSign : base64Decode (js "AA=") = .ok [0] ∧ ¬ DecodesExactly (js "AA=") := by
  have hdigit : b64Char 0 = 65 := by
    rw [b64Char, b64Chars, js_ofList]
    rfl
  have htext : js "AA=" = [b64Char 0, b64Char 0] ++ List.replicate 1 padding := by
    rw [hdigit]
    rfl
  have hbody : ∀ c ∈ [b64Char 0, b64Char 0], b64Chars.contains c = true := by
    simp only [List.forall_mem_cons, contains_b64Char, List.not_mem_nil, false_implies, implies_true, and_self]
  rw [htext]
  refine ⟨?_, not_decodesExactly ⟨_, 1, rfl, hbody, Or.inl rfl, Or.inr rfl⟩⟩
  rw [base64Decode_signs hbody (by decide) (by decide), decodeGroups, b64Lookup_b64Char]
  rfl

/-- Both codecs give back the bytes, and hexadecimal texts are decoded as they should be. Base64 texts are, unless they
are partly padded. -/
theorem byteCodecs_exact_iff (bytes : List UInt8) (hex b64 : JsString) :
    (base64Decode (base64Encode bytes) = .ok bytes ∧ hexDecode (hexEncode bytes) = .ok bytes) ∧
      ((∃ bytes, hexDecode hex = .ok bytes) ↔ hex.length % 2 = 0 ∧ ∀ c ∈ hex, IsHexChar c) ∧
      (DecodesExactly b64 ↔ ¬ PartlyPadded b64) := by
  refine ⟨⟨base64Decode_base64Encode bytes, hexDecode_hexEncode bytes⟩, hexDecode_accepts_iff hex, ?_⟩
  constructor
  · intro hexact hpadded
    exact not_decodesExactly hpadded hexact
  · intro hpadded
    refine ⟨⟨fun h => isBase64_of_accepted h hpadded, base64Decode_of_isBase64⟩, ?_⟩
    intro bytes hdecode
    exact base64Decode_eq_leadingOctets hdecode

end Bytes

end GitWarp
