import GitWarp.LibraryExceptLoops
import GitWarp.LibraryJsText
import Mathlib.Tactic.IntervalCases

/-! Bytes as base64 texts. What is encoded decodes to the same bytes. -/

namespace GitWarp
open Js ExceptLoops

namespace Bytes

def b64Chars : JsString := js "ABCDEFGHIJKLMNOPQRSTUVWXYZabcdefghijklmnopqrstuvwxyz0123456789+/"

/-- The character of the low six bits of a number. -/
def b64Char (n : Nat) : CodeUnit := (b64Chars[n % 64]?).getD 0

/-- What the lookup table holds for a character; it is zero for those that are no digit. -/
def b64Lookup (c : CodeUnit) : Nat := if b64Chars.contains c then b64Chars.idxOf c else 0

def padding : CodeUnit := 61

def base64Encode : List UInt8 → JsString
  | a :: b :: c :: rest =>
      let n := a.toNat * 65536 + b.toNat * 256 + c.toNat
      b64Char (n / 262144) :: b64Char (n / 4096) :: b64Char (n / 64) :: b64Char n :: base64Encode rest
  | [a, b] =>
      let n := a.toNat * 256 + b.toNat
      [b64Char (n / 1024), b64Char (n / 16), b64Char (n * 4), padding]
  | [a] => [b64Char (a.toNat / 4), b64Char (a.toNat * 16), padding, padding]
  | [] => []

/-- The start of a text that an error shows. -/
def shown (b64 : JsString) : String := if b64.length > 20 then toText (b64.take 20) ++ "…" else toText b64

/-- `/^[A-Za-z0-9+/]*={0,2}$/.test(b64)` -/
def isBase64Text (b64 : JsString) : Bool :=
  let rest := b64.dropWhile fun c => b64Chars.contains c
  rest.length ≤ 2 && rest.all (· = padding)

def validateBase64 (b64 : JsString) : Except JsError Unit :=
  if isBase64Text b64 = false then .error ⟨"RangeError", s!"Invalid base64 string: {shown b64}"⟩
  else if b64.length % 4 = 1 then
    .error ⟨"RangeError", s!"Invalid base64 string (bad length {b64.length}): {shown b64}"⟩
  else return ()

/-- The text without a `=` at its end. -/
def dropPadding (b64 : JsString) : JsString := if b64.getLast? = some padding then b64.dropLast else b64

/-- The bytes of the digits, four by four; a last group that is not full gives the bytes that it covers. -/
def decodeGroups : JsString → List UInt8
  | a :: b :: c :: d :: rest =>
      UInt8.ofNat (b64Lookup a * 4 + b64Lookup b / 16) ::
        UInt8.ofNat (b64Lookup b * 16 + b64Lookup c / 4) ::
        UInt8.ofNat (b64Lookup c * 64 + b64Lookup d) :: decodeGroups rest
  | [a, b, c] =>
      [UInt8.ofNat (b64Lookup a * 4 + b64Lookup b / 16), UInt8.ofNat (b64Lookup b * 16 + b64Lookup c / 4)]
  | [a, b] => [UInt8.ofNat (b64Lookup a * 4 + b64Lookup b / 16)]
  | _ => []

def base64Decode (b64 : JsString) : Except JsError (List UInt8) := do
  validateBase64 b64
  return decodeGroups (dropPadding (dropPadding b64))

/-! ### Decoding inverts encoding -/

theorem length_b64Chars : b64Chars.length = 64 := by
  rw [b64Chars, js_ofList]
  rfl

theorem nodup_b64Chars : b64Chars.Nodup := by
  rw [b64Chars, js_ofList]
  decide +kernel

theorem padding_notMem : b64Chars.contains padding = false := by
  rw [b64Chars, js_ofList]
  decide +kernel

theorem b64Char_eq (n : Nat) : ∃ h : n % 64 < b64Chars.length, b64Char n = b64Chars[n % 64] := by
  have hlt : n % 64 < b64Chars.length := length_b64Chars ▸ Nat.mod_lt n (by decide)
  refine ⟨hlt, ?_⟩
  rw [b64Char, List.getElem?_eq_getElem hlt, Option.getD_some]

theorem contains_b64Char (n : Nat) : b64Chars.contains (b64Char n) = true := by
  obtain ⟨hlt, heq⟩ := b64Char_eq n
  rw [heq, List.contains_iff_mem]
  exact List.getElem_mem hlt

theorem b64Lookup_b64Char (n : Nat) : b64Lookup (b64Char n) = n % 64 := by
  rw [b64Lookup, if_pos (contains_b64Char n)]
  obtain ⟨hlt, heq⟩ := b64Char_eq n
  rw [heq]
  exact nodup_b64Chars.idxOf_getElem _ hlt

/-- The digits of the encoding and the signs that fill up its last group. -/
def digits : List UInt8 → JsString
  | a :: b :: c :: rest =>
      let n := a.toNat * 65536 + b.toNat * 256 + c.toNat
      b64Char (n / 262144) :: b64Char (n / 4096) :: b64Char (n / 64) :: b64Char n :: digits rest
  | [a, b] =>
      let n := a.toNat * 256 + b.toNat
      [b64Char (n / 1024), b64Char (n / 16), b64Char (n * 4)]
  | [a] => [b64Char (a.toNat / 4), b64Char (a.toNat * 16)]
  | [] => []

theorem exists_padding (bytes : List UInt8) : ∃ k ≤ 2, base64Encode bytes = digits bytes ++ List.replicate k padding ∧
    ((digits bytes).length + k) % 4 = 0 := by
  induction bytes using digits.induct with
  | case1 a b c rest ih =>
      obtain ⟨k, hk, hencode, hlength⟩ := ih
      refine ⟨k, hk, ?_, ?_⟩
      · rw [base64Encode, digits, hencode]
        rfl
      · simp only [digits, List.length_cons]
        omega
  | case2 a b => exact ⟨1, by decide, rfl, by simp [digits]⟩
  | case3 a => exact ⟨2, by decide, rfl, by simp [digits]⟩
  | case4 => exact ⟨0, by decide, rfl, rfl⟩

theorem contains_of_mem_digits (bytes : List UInt8) : ∀ c ∈ digits bytes, b64Chars.contains c = true := by
  induction bytes using digits.induct with
  | case1 a b c rest ih =>
      simp only [digits, List.mem_cons]
      rintro x (rfl | rfl | rfl | rfl | hx)
      · exact contains_b64Char _
      · exact contains_b64Char _
      · exact contains_b64Char _
      · exact contains_b64Char _
      · exact ih x hx
  | case2 a b =>
      simp only [digits, List.mem_cons, List.not_mem_nil, or_false]
      rintro x (rfl | rfl | rfl) <;> exact contains_b64Char _
  | case3 a =>
      simp only [digits, List.mem_cons, List.not_mem_nil, or_false]
      rintro x (rfl | rfl) <;> exact contains_b64Char _
  | case4 => exact fun x hx => absurd hx List.not_mem_nil

theorem ofNat_eq {byte : UInt8} {n : Nat} (h : n % 256 = byte.toNat) : UInt8.ofNat n = byte := by
  apply UInt8.toNat_inj.mp
  rw [UInt8.toNat_ofNat']
  exact h

theorem decodeGroups_digits (bytes : List UInt8) : decodeGroups (digits bytes) = bytes := by
  induction bytes using digits.induct with
  | case1 a b c rest ih =>
      have ha := a.toNat_lt
      have hb := b.toNat_lt
      have hc := c.toNat_lt
      simp only [digits, decodeGroups, b64Lookup_b64Char, ih]
      refine List.cons_eq_cons.mpr ⟨ofNat_eq ?_, List.cons_eq_cons.mpr ⟨ofNat_eq ?_, List.cons_eq_cons.mpr ⟨ofNat_eq ?_, rfl⟩⟩⟩
      · omega
      · omega
      · omega
  | case2 a b =>
      have ha := a.toNat_lt
      have hb := b.toNat_lt
      simp only [digits, decodeGroups, b64Lookup_b64Char]
      refine List.cons_eq_cons.mpr ⟨ofNat_eq ?_, List.cons_eq_cons.mpr ⟨ofNat_eq ?_, rfl⟩⟩
      · omega
      · omega
  | case3 a =>
      have ha := a.toNat_lt
      simp only [digits, decodeGroups, b64Lookup_b64Char]
      refine List.cons_eq_cons.mpr ⟨ofNat_eq ?_, rfl⟩
      omega
  | case4 => rfl

theorem dropPadding_append (text : JsString) : dropPadding (text ++ [padding]) = text := by
  rw [dropPadding, List.getLast?_concat, if_pos rfl, List.dropLast_concat]

theorem dropPadding_of_digits {text : JsString} (h : ∀ c ∈ text, b64Chars.contains c = true) :
    dropPadding text = text := by
  rw [dropPadding, if_neg]
  intro hlast
  have hcontains := h padding (List.mem_of_getLast? hlast)
  rw [padding_notMem] at hcontains
  cases hcontains

/-- Digits and the signs behind them. -/
theorem dropWhile_signs {body : JsString} (hbody : ∀ c ∈ body, b64Chars.contains c = true) (signs : Nat) :
    (body ++ List.replicate signs padding).dropWhile (fun c => b64Chars.contains c) = List.replicate signs padding := by
  rw [List.dropWhile_append_of_pos hbody]
  cases signs with
  | zero => rfl
  | succ signs => rw [List.replicate_succ, List.dropWhile_cons_of_neg (by rw [padding_notMem]; decide)]

theorem isBase64Text_signs {body : JsString} (hbody : ∀ c ∈ body, b64Chars.contains c = true) {signs : Nat}
    (hsigns : signs ≤ 2) : isBase64Text (body ++ List.replicate signs padding) = true := by
  rw [isBase64Text, dropWhile_signs hbody]
  simp [hsigns]

theorem dropPadding_signs {body : JsString} (hbody : ∀ c ∈ body, b64Chars.contains c = true) {signs : Nat}
    (hsigns : signs ≤ 2) : dropPadding (dropPadding (body ++ List.replicate signs padding)) = body := by
  interval_cases signs
  · rw [List.replicate_zero, List.append_nil, dropPadding_of_digits hbody, dropPadding_of_digits hbody]
  · rw [List.replicate_one, dropPadding_append, dropPadding_of_digits hbody]
  · have htwo : body ++ List.replicate 2 padding = (body ++ [padding]) ++ [padding] := by
      rw [List.append_assoc]
      rfl
    rw [htwo, dropPadding_append, dropPadding_append]

theorem base64Decode_signs {body : JsString} (hbody : ∀ c ∈ body, b64Chars.contains c = true) {signs : Nat}
    (hsigns : signs ≤ 2) (hlength : (body ++ List.replicate signs padding).length % 4 ≠ 1) :
    base64Decode (body ++ List.replicate signs padding) = .ok (decodeGroups body) := by
  have hvalid : validateBase64 (body ++ List.replicate signs padding) = .ok () := by
    rw [validateBase64, isBase64Text_signs hbody hsigns, if_neg (by decide), if_neg hlength]
    rfl
  rw [base64Decode, hvalid, dropPadding_signs hbody hsigns]
  rfl

theorem base64Decode_base64Encode (bytes : List UInt8) : base64Decode (base64Encode bytes) = .ok bytes := by
  obtain ⟨k, hk, hencode, hlength⟩ := exists_padding bytes
  rw [hencode, base64Decode_signs (contains_of_mem_digits bytes) hk, decodeGroups_digits]
  rw [List.length_append, List.length_replicate]
  omega

end Bytes

end GitWarp
