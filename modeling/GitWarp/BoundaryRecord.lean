import GitWarp.CheckpointSerializer
import GitWarp.LibraryJsValue

/-! Boundary transition records: what they hold, how the tag is computed over them, and how a record is verified and
replayed. The states and the payloads are those of the functions that read them, and a record is any object. -/

namespace GitWarp
open Js ExceptLoops

namespace Boundary

/-! ### Hexadecimal texts -/

def uint8ArrayToHex (bytes : List UInt8) : JsString := bytes.flatMap fun byte => hexText 2 byte.toNat

/-- The value of a digit to the base 16, in either case. -/
def hexDigitValue (c : CodeUnit) : Option Nat :=
  if isDigit c then some (c.val - 48)
  else if 97 ≤ c.val ∧ c.val ≤ 102 then some (c.val - 87)
  else if 65 ≤ c.val ∧ c.val ≤ 70 then some (c.val - 55)
  else none

def hexDigitsValue (digits : JsString) : Nat :=
  digits.foldl (fun n c => 16 * n + (hexDigitValue c).getD 0) 0

/-- What `parseInt(s, 16)` drops after a sign. -/
def withoutHexPrefix : JsString → JsString
  | 48 :: 120 :: rest => rest
  | 48 :: 88 :: rest => rest
  | s => s

/-- `parseInt(s, 16)`; `none` is `NaN`. -/
def parseHexInt (s : JsString) : Option Int :=
  let body := s.dropWhile isWhiteSpace
  let negative := body.head? = some 45
  let unsigned := withoutHexPrefix (if body.head? = some 45 ∨ body.head? = some 43 then body.tail else body)
  let digits := unsigned.takeWhile fun c => (hexDigitValue c).isSome
  if digits = [] then none
  else some (if negative then -(hexDigitsValue digits : Int) else hexDigitsValue digits)

def rangeError {α : Type} (message : String) : Except JsError α := .error ⟨"RangeError", message⟩

/-- The bytes of a text of even length, from `offset` on; the number is taken modulo 256. -/
def hexToBytes (offset : Nat) : JsString → Except JsError (List UInt8)
  | hi :: lo :: rest =>
      match parseHexInt [hi, lo] with
      | none => rangeError s!"Invalid hex byte at offset {toText (decimal offset)}: {toText [hi, lo]}"
      | some byte => do
          let bytes ← hexToBytes (offset + 2) rest
          return UInt8.ofInt byte :: bytes
  | _ => return []

/-- `value?.length` -/
def lengthOf : JsValue → JsValue
  | .string s => .ofInt s.length
  | .array items => .ofInt items.length
  | .bytes data => .ofInt data.length
  | value => value.get (js "length")

theorem withoutHexPrefix_two {hi lo : CodeUnit} (hlower : lo ≠ 120) (hupper : lo ≠ 88) :
    withoutHexPrefix [hi, lo] = [hi, lo] := by
  unfold withoutHexPrefix
  split
  · rename_i heq
    exact absurd (List.cons.inj (List.cons.inj heq).2).1 hlower
  · rename_i heq
    exact absurd (List.cons.inj (List.cons.inj heq).2).1 hupper
  · rfl

theorem hexDigitUnit_spec : ∀ d : Fin 16, hexDigitValue (hexDigitUnit d.val) = some d.val ∧
    isWhiteSpace (hexDigitUnit d.val) = false ∧ hexDigitUnit d.val ≠ 45 ∧ hexDigitUnit d.val ≠ 43 ∧
      hexDigitUnit d.val ≠ 120 ∧ hexDigitUnit d.val ≠ 88 := by
  decide +kernel

theorem parseHexInt_digits (d e : Fin 16) :
    parseHexInt [hexDigitUnit d.val, hexDigitUnit e.val] = some ((16 * d.val + e.val : Nat) : Int) := by
  obtain ⟨hhi, hspace, hminus, hplus, -, -⟩ := hexDigitUnit_spec d
  obtain ⟨hlo, -, -, -, hlower, hupper⟩ := hexDigitUnit_spec e
  have hbody : [hexDigitUnit d.val, hexDigitUnit e.val].dropWhile isWhiteSpace =
      [hexDigitUnit d.val, hexDigitUnit e.val] := List.dropWhile_cons_of_neg (by rw [hspace]; decide)
  have hdigits : [hexDigitUnit d.val, hexDigitUnit e.val].takeWhile (fun c => (hexDigitValue c).isSome) =
      [hexDigitUnit d.val, hexDigitUnit e.val] := by
    rw [List.takeWhile_cons_of_pos (by rw [hhi]; rfl), List.takeWhile_cons_of_pos (by rw [hlo]; rfl), List.takeWhile_nil]
  have hvalue : hexDigitsValue [hexDigitUnit d.val, hexDigitUnit e.val] = 16 * d.val + e.val := by
    rw [hexDigitsValue, List.foldl_cons, List.foldl_cons, List.foldl_nil, hhi, hlo]
    simp only [Option.getD_some]
    omega
  simp only [parseHexInt, hbody, List.head?_cons, Option.some.injEq, hminus, hplus, or_false, if_false,
    withoutHexPrefix_two hlower hupper, hdigits, hvalue, reduceCtorEq]

theorem exists_hexDigit {c : CodeUnit} (h : isHexDigit c = true) : ∃ d : Fin 16, c = hexDigitUnit d.val := by
  simp only [isHexDigit, isDigit, Bool.or_eq_true, Bool.and_eq_true, decide_eq_true_eq] at h
  rcases h with ⟨hlow, hhigh⟩ | ⟨hlow, hhigh⟩
  · refine ⟨⟨c.val - 48, by omega⟩, Fin.ext ?_⟩
    rw [hexDigitUnit, if_pos (show c.val - 48 < 10 by omega), Fin.val_ofNat]
    show c.val = (48 + (c.val - 48)) % 65536
    omega
  · refine ⟨⟨c.val - 87, by omega⟩, Fin.ext ?_⟩
    rw [hexDigitUnit, if_neg (show ¬ c.val - 87 < 10 by omega), Fin.val_ofNat]
    show c.val = (87 + (c.val - 87)) % 65536
    omega

/-- Two lowercase digits are the text of a byte. -/
theorem exists_byte {hi lo : CodeUnit} (hhi : isHexDigit hi = true) (hlo : isHexDigit lo = true) :
    ∃ byte : UInt8, hexText 2 byte.toNat = [hi, lo] ∧ parseHexInt [hi, lo] = some (byte.toNat : Int) := by
  obtain ⟨d, rfl⟩ := exists_hexDigit hhi
  obtain ⟨e, rfl⟩ := exists_hexDigit hlo
  have hbyte : (UInt8.ofNat (16 * d.val + e.val)).toNat = 16 * d.val + e.val := by
    rw [UInt8.toNat_ofNat']
    omega
  refine ⟨UInt8.ofNat (16 * d.val + e.val), ?_, ?_⟩
  · rw [hexText_two, hbyte, show (16 * d.val + e.val) / 16 % 16 = d.val by omega,
      show (16 * d.val + e.val) % 16 = e.val by omega]
  · rw [parseHexInt_digits, hbyte]

/-- The text of a byte is read as the byte. -/
theorem exists_digits (byte : UInt8) : ∃ hi lo, hexText 2 byte.toNat = [hi, lo] ∧
    parseHexInt [hi, lo] = some (byte.toNat : Int) := by
  have hbyte := byte.toNat_lt
  have hparse := parseHexInt_digits ⟨byte.toNat / 16 % 16, by omega⟩ ⟨byte.toNat % 16, by omega⟩
  rw [show 16 * (byte.toNat / 16 % 16) + byte.toNat % 16 = byte.toNat by omega] at hparse
  exact ⟨_, _, hexText_two byte.toNat, hparse⟩

theorem ofInt_toNat (byte : UInt8) : UInt8.ofInt (byte.toNat : Int) = byte := by
  have hbyte := byte.toNat_lt
  apply UInt8.toNat_inj.mp
  simp only [UInt8.ofInt, UInt8.toNat_ofNat']
  omega

theorem hexToBytes_uint8ArrayToHex (bytes : List UInt8) (offset : Nat) :
    hexToBytes offset (uint8ArrayToHex bytes) = .ok bytes := by
  induction bytes generalizing offset with
  | nil => rfl
  | cons byte rest ih =>
      obtain ⟨hi, lo, htext, hparse⟩ := exists_digits byte
      have hcons : uint8ArrayToHex (byte :: rest) = hi :: lo :: uint8ArrayToHex rest := by
        rw [uint8ArrayToHex, List.flatMap_cons, htext]
        rfl
      rw [hcons, hexToBytes, hparse]
      simp only [ih (offset + 2), ofInt_toNat, bind, Except.bind, pure, Except.pure]

/-- A text of lowercase digits is the text of the bytes that it is read as. -/
theorem uint8ArrayToHex_of_hexToBytes {offset : Nat} {hex : JsString} {bytes : List UInt8}
    (hlower : hex.all isHexDigit = true) (heven : hex.length % 2 = 0) (h : hexToBytes offset hex = .ok bytes) :
    uint8ArrayToHex bytes = hex := by
  induction hex using List.twoStepInduction generalizing offset bytes with
  | nil =>
      cases h
      rfl
  | singleton c => cases heven
  | cons_cons hi lo rest ih _ =>
      simp only [List.all_cons, Bool.and_eq_true] at hlower
      obtain ⟨hhi, hlo, hrest⟩ := hlower
      obtain ⟨byte, htext, hparse⟩ := exists_byte hhi hlo
      rw [hexToBytes, hparse] at h
      obtain ⟨bytes', hbytes', h⟩ := bind_ok_iff.mp h
      cases h
      have heven' : rest.length % 2 = 0 := by
        simp only [List.length_cons] at heven
        omega
      rw [uint8ArrayToHex, List.flatMap_cons, ofInt_toNat, htext]
      exact congrArg ([hi, lo] ++ ·) (ih hrest heven' hbytes')

theorem length_uint8ArrayToHex (bytes : List UInt8) : (uint8ArrayToHex bytes).length = 2 * bytes.length := by
  induction bytes with
  | nil => rfl
  | cons byte rest ih =>
      rw [uint8ArrayToHex, List.flatMap_cons, List.length_append, List.length_cons]
      change (hexText 2 byte.toNat).length + (uint8ArrayToHex rest).length = _
      rw [ih]
      obtain ⟨hi, lo, htext, -⟩ := exists_digits byte
      rw [htext, List.length_cons, List.length_singleton]
      omega

/-! ### Records -/

/-- A record as it comes: each property that is looked for, if the object has it. -/
structure BTRObject (Initial Payload : Type) where
  version : Option JsValue
  hIn : Option JsValue
  hOut : Option JsValue
  initial : Option Initial
  payload : Option Payload
  timestamp : Option JsValue
  kappa : Option JsValue
  deriving DecidableEq

/-- A record with all of its properties. -/
structure BTR (Initial Payload : Type) where
  version : JsValue
  hIn : JsValue
  hOut : JsValue
  initial : Initial
  payload : Payload
  timestamp : JsValue
  kappa : JsValue
  deriving DecidableEq

variable {Initial Payload State Message : Type}

/-- The object that the tag is computed over. -/
def BTR.fields (btr : BTR Initial Payload) : BTRObject Initial Payload where
  version := some btr.version
  hIn := some btr.hIn
  hOut := some btr.hOut
  initial := some btr.initial
  payload := some btr.payload
  timestamp := some btr.timestamp
  kappa := none

def BTR.toObject (btr : BTR Initial Payload) : BTRObject Initial Payload := { btr.fields with kappa := some btr.kappa }

inductive HmacKey where
  | text (key : JsString)
  | bytes (key : List UInt8)
  deriving DecidableEq

def HmacKey.isEmpty : HmacKey → Bool
  | .text key => key.isEmpty
  | .bytes key => key.isEmpty

/-- What a record is verified with: the codec and the crypto port, the functions that read and replay what it
embeds, and `${value}` in the text of a reason. -/
structure BTRServices (Initial Payload State Message : Type) where
  codec : CodecPort (BTRObject Initial Payload) Message
  hmac : HmacKey → Message → List UInt8
  timingSafeEqual : List UInt8 → List UInt8 → Bool
  deserializeFullStateV5 : Initial → Except JsError State
  replay : Payload → State → Except JsError State
  computeStateHashV5 : State → JsString
  template : JsValue → Except JsError String

variable (services : BTRServices Initial Payload State Message)

def hexToUint8Array : JsValue → Except JsError (List UInt8)
  | .string hex =>
      if hex.length % 2 ≠ 0 then rangeError s!"Invalid hex string (length {toText (decimal hex.length)})"
      else hexToBytes 0 hex
  | value => do
      let length ← services.template (lengthOf value)
      rangeError s!"Invalid hex string (length {length})"

def btrVersion : JsValue := .ofInt 1

/-- The tag over the fields of a record. -/
def computeHmac (btr : BTR Initial Payload) (key : HmacKey) : JsString :=
  uint8ArrayToHex (services.hmac key (services.codec.encode btr.fields))

def requiredField {α : Type} (field : String) : Option α → Except String α
  | some value => return value
  | none => .error field

/-- The properties of an object, or the first that is missing. -/
def requiredFields (obj : BTRObject Initial Payload) : Except String (BTR Initial Payload) := do
  let version ← requiredField "version" obj.version
  let hIn ← requiredField "h_in" obj.hIn
  let hOut ← requiredField "h_out" obj.hOut
  let initial ← requiredField "U_0" obj.initial
  let payload ← requiredField "P" obj.payload
  let timestamp ← requiredField "t" obj.timestamp
  let kappa ← requiredField "kappa" obj.kappa
  return ⟨version, hIn, hOut, initial, payload, timestamp, kappa⟩

/-- The record, or why the structure is invalid. -/
def validateBTRStructure (btr : Option (BTRObject Initial Payload)) :
    Except JsError (Except String (BTR Initial Payload)) :=
  match btr with
  | none => return .error "BTR must be an object"
  | some obj =>
      match requiredFields obj with
      | .error field => return .error s!"Missing required field: {field}"
      | .ok btr => do
          if btr.version ≠ btrVersion then
            let version ← services.template btr.version
            return .error s!"Unsupported BTR version: {version} (expected 1)"
          else return .ok btr

def verifyHmac (btr : BTR Initial Payload) (key : HmacKey) : Except JsError Bool := do
  let expectedKappa := computeHmac services btr key
  let actualBuf ← hexToUint8Array services btr.kappa
  let expectedBuf ← hexToUint8Array services (.string expectedKappa)
  if actualBuf.length ≠ expectedBuf.length then return false
  return services.timingSafeEqual actualBuf expectedBuf

/-- The final state and its hash. -/
def replayBTR (btr : BTR Initial Payload) : Except JsError (State × JsString) := do
  let initialState ← services.deserializeFullStateV5 btr.initial
  let finalState ← services.replay btr.payload initialState
  return (finalState, services.computeStateHashV5 finalState)

/-- Why the replay does not confirm `h_out`. -/
def verifyReplayHash (btr : BTR Initial Payload) : Option String :=
  let compared : Except JsError (Option String) := do
    let result ← replayBTR services btr
    if JsValue.string result.2 ≠ btr.hOut then
      let expected ← services.template btr.hOut
      return some s!"Replay produced different h_out: expected {expected}, got {toText result.2}"
    return none
  match compared with
  | .ok reason => reason
  | .error err => some s!"Replay failed: {err.message}"

structure VerificationResult where
  valid : Bool
  reason : Option String
  deriving DecidableEq

def verifyBTR (btr : Option (BTRObject Initial Payload)) (key : HmacKey) (verifyReplay : Bool) :
    Except JsError VerificationResult := do
  match ← validateBTRStructure services btr with
  | .error structureError => return ⟨false, some structureError⟩
  | .ok btr =>
      match verifyHmac services btr key with
      | .error err =>
          if err.name = "RangeError" then
            return ⟨false, some s!"Invalid hex in authentication tag: {err.message}"⟩
          else .error err
      | .ok false => return ⟨false, some "Authentication tag mismatch"⟩
      | .ok true =>
          if verifyReplay then
            match verifyReplayHash services btr with
            | some replayError => return ⟨false, some replayError⟩
            | none => return ⟨true, none⟩
          else return ⟨true, none⟩

def serializeBTR (btr : BTR Initial Payload) : Message := services.codec.encode btr.toObject

def deserializeBTR (bytes : Message) : Except JsError (BTR Initial Payload) := do
  match ← services.codec.decode bytes with
  | none => .error ⟨"TypeError", "Cannot use 'in' operator to search for 'version' in null"⟩
  | some obj =>
      match requiredFields obj with
      | .error field => thrown s!"Invalid BTR: missing field {field}"
      | .ok btr => return btr

/-! ### What is accepted -/

/-- On bytes of one length the crypto port compares them. -/
def BTRServices.ComparesBytes : Prop :=
  ∀ a b : List UInt8, a.length = b.length → (services.timingSafeEqual a b = true ↔ a = b)

theorem hexToUint8Array_hmac (bytes : List UInt8) :
    hexToUint8Array services (.string (uint8ArrayToHex bytes)) = .ok bytes := by
  rw [hexToUint8Array, if_neg, hexToBytes_uint8ArrayToHex]
  rw [length_uint8ArrayToHex, not_not]
  exact Nat.mul_mod_right 2 _

variable {services}

theorem verifyHmac_eq_true_iff (hbytes : services.ComparesBytes) {btr : BTR Initial Payload} {key : HmacKey} :
    verifyHmac services btr key = .ok true ↔
      hexToUint8Array services btr.kappa = .ok (services.hmac key (services.codec.encode btr.fields)) := by
  have hexpected := hexToUint8Array_hmac services (services.hmac key (services.codec.encode btr.fields))
  unfold verifyHmac computeHmac
  simp only [hexpected]
  cases hactual : hexToUint8Array services btr.kappa with
  | error err => exact iff_of_false nofun nofun
  | ok actual =>
      simp only [bind, Except.bind, Except.ok.injEq]
      by_cases hlength : actual.length = (services.hmac key (services.codec.encode btr.fields)).length
      · rw [if_neg (not_not.mpr hlength), ← hbytes actual _ hlength]
        exact ⟨fun h => Except.ok.inj h, fun h => congrArg Except.ok h⟩
      · rw [if_pos hlength]
        exact iff_of_false nofun fun heq => hlength (congrArg List.length heq)

theorem requiredField_eq_ok_iff {α : Type} {field : String} {read : Option α} {value : α} :
    requiredField field read = .ok value ↔ read = some value := by
  cases read with
  | none => exact iff_of_false nofun nofun
  | some found => exact ⟨fun h => congrArg some (Except.ok.inj h), fun h => congrArg Except.ok (Option.some.inj h)⟩

theorem requiredFields_eq_ok_iff {obj : BTRObject Initial Payload} {btr : BTR Initial Payload} :
    requiredFields obj = .ok btr ↔ obj = btr.toObject := by
  constructor
  · intro h
    unfold requiredFields at h
    simp only [bind_ok_iff, requiredField_eq_ok_iff] at h
    obtain ⟨version, hversion, hIn, hhIn, hOut, hhOut, initial, hinitial, payload, hpayload, timestamp, htimestamp,
      kappa, hkappa, h⟩ := h
    cases h
    cases obj
    simp only at hversion hhIn hhOut hinitial hpayload htimestamp hkappa
    subst hversion hhIn hhOut hinitial hpayload htimestamp hkappa
    rfl
  · rintro rfl
    rfl

theorem validateBTRStructure_eq_ok_iff {record : Option (BTRObject Initial Payload)} {btr : BTR Initial Payload} :
    validateBTRStructure services record = .ok (.ok btr) ↔ record = some btr.toObject ∧ btr.version = btrVersion := by
  cases record with
  | none => exact iff_of_false nofun fun h => nomatch h.1
  | some obj =>
      unfold validateBTRStructure
      simp only [Option.some.injEq, ← requiredFields_eq_ok_iff]
      cases hfields : requiredFields obj with
      | error field => exact iff_of_false nofun fun h => nomatch h.1
      | ok found =>
          simp only [Except.ok.injEq]
          by_cases hversion : found.version = btrVersion
          · rw [if_neg (not_not.mpr hversion)]
            constructor
            · intro h
              cases h
              exact ⟨rfl, hversion⟩
            · rintro ⟨rfl, -⟩
              rfl
          · rw [if_pos hversion]
            refine iff_of_false (fun h => ?_) fun h => hversion (h.1 ▸ h.2)
            obtain ⟨text, -, h⟩ := bind_ok_iff.mp h
            cases h

/-- The replay confirms the hash of the record. -/
theorem verifyReplayHash_eq_none_iff {btr : BTR Initial Payload} :
    verifyReplayHash services btr = none ↔
      ∃ state hash, replayBTR services btr = .ok (state, hash) ∧ btr.hOut = .string hash := by
  unfold verifyReplayHash
  cases hreplay : replayBTR services btr with
  | error err => exact iff_of_false nofun nofun
  | ok result =>
      obtain ⟨state, hash⟩ := result
      simp only [bind, Except.bind, Except.ok.injEq, Prod.mk.injEq]
      by_cases hhash : JsValue.string hash = btr.hOut
      · rw [if_neg (not_not.mpr hhash)]
        exact iff_of_true rfl ⟨state, hash, ⟨rfl, rfl⟩, hhash.symm⟩
      · rw [if_pos hhash]
        refine iff_of_false (fun h => ?_) ?_
        · cases htext : services.template btr.hOut with
          | error err => simp [htext] at h
          | ok text => simp [htext, pure, Except.pure] at h
        · rintro ⟨_, _, ⟨rfl, rfl⟩, heq⟩
          exact hhash heq.symm

/-- The verification ends with `valid: true`. -/
def Accepts (services : BTRServices Initial Payload State Message) (record : Option (BTRObject Initial Payload))
    (key : HmacKey) (verifyReplay : Bool) : Prop :=
  ∃ result, verifyBTR services record key verifyReplay = .ok result ∧ result.valid = true

/-- Of a complete record the tag decides, and the replay if it is asked for. -/
theorem accepts_complete_iff {record : Option (BTRObject Initial Payload)} {btr : BTR Initial Payload} {key : HmacKey}
    {verifyReplay : Bool} (hstructure : validateBTRStructure services record = .ok (.ok btr)) :
    Accepts services record key verifyReplay ↔ verifyHmac services btr key = .ok true ∧
      (verifyReplay = true → verifyReplayHash services btr = none) := by
  unfold Accepts verifyBTR
  simp only [hstructure, bind, Except.bind]
  cases hhmac : verifyHmac services btr key with
  | error err =>
      refine iff_of_false ?_ fun h => nomatch h.1
      rintro ⟨result, h, hvalid⟩
      by_cases hname : err.name = "RangeError"
      · simp only [if_pos hname, pure, Except.pure, Except.ok.injEq] at h
        subst h
        cases hvalid
      · simp only [if_neg hname] at h
        cases h
  | ok same =>
      cases same with
      | false =>
          refine iff_of_false ?_ fun h => nomatch h.1
          rintro ⟨result, h, hvalid⟩
          cases h
          cases hvalid
      | true =>
          cases verifyReplay with
          | false => exact iff_of_true ⟨_, rfl, rfl⟩ ⟨rfl, nofun⟩
          | true =>
              cases verifyReplayHash services btr with
              | none => exact iff_of_true ⟨_, rfl, rfl⟩ ⟨rfl, fun _ => rfl⟩
              | some reason =>
                  refine iff_of_false ?_ fun h => nomatch h.2 rfl
                  rintro ⟨result, h, hvalid⟩
                  cases h
                  cases hvalid

/-- A record is accepted when it is complete, its version is known, its tag reads as the HMAC, and the replay, if
asked for, gives its `h_out`. -/
theorem accepts_iff (hbytes : services.ComparesBytes) {record : Option (BTRObject Initial Payload)} {key : HmacKey}
    {verifyReplay : Bool} :
    Accepts services record key verifyReplay ↔ ∃ btr, (record = some btr.toObject ∧ btr.version = btrVersion) ∧
      hexToUint8Array services btr.kappa = .ok (services.hmac key (services.codec.encode btr.fields)) ∧
      (verifyReplay = true → ∃ state hash, replayBTR services btr = .ok (state, hash) ∧ btr.hOut = .string hash) := by
  simp only [← verifyHmac_eq_true_iff hbytes, ← verifyReplayHash_eq_none_iff]
  constructor
  · rintro ⟨result, h, hvalid⟩
    have haccepts : Accepts services record key verifyReplay := ⟨result, h, hvalid⟩
    obtain ⟨checked, hstructure, h⟩ := bind_ok_iff.mp h
    cases checked with
    | error reason =>
        cases h
        cases hvalid
    | ok btr =>
        exact ⟨btr, validateBTRStructure_eq_ok_iff.mp hstructure, (accepts_complete_iff hstructure).mp haccepts⟩
  · rintro ⟨btr, hstructure, h⟩
    exact (accepts_complete_iff (validateBTRStructure_eq_ok_iff.mpr hstructure)).mpr h

end Boundary

end GitWarp
