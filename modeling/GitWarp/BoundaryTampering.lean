import GitWarp.BoundaryReplay
import Mathlib.Data.Countable.Basic
import Mathlib.Data.Rat.Denumerable
import Mathlib.Logic.Equiv.List
import Mathlib.Tactic.DeriveCountable

/-! What the verification of a record says. The tag covers every field but itself, the replay confirms `h_out`, and
nothing confirms `h_in` beyond the tag. The text of the tag is read more loosely than it is written. -/

namespace GitWarp
open Js ExceptLoops

namespace Boundary

variable {Initial Payload State Message : Type}

/-- A text of lowercase hexadecimal digits, as tags are written. -/
def IsLowerHex (value : JsValue) : Prop := ∃ text : JsString, value = .string text ∧ text.all isHexDigit = true

/-- The tag stands for the HMAC of the fields, and `h_out` is the hash of the replay. -/
structure Authentic (services : BTRServices Initial Payload State Message) (key : HmacKey)
    (btr : BTR Initial Payload) : Prop where
  tag : hexToUint8Array services btr.kappa = .ok (services.hmac key (services.codec.encode btr.fields))
  text : IsLowerHex btr.kappa → btr.kappa = .string (computeHmac services btr key)
  replayed : ∃ initialState finalState, services.deserializeFullStateV5 btr.initial = .ok initialState ∧
    services.replay btr.payload initialState = .ok finalState ∧
    btr.hOut = .string (services.computeStateHashV5 finalState)

/-- A field is changed under the same tag, or the tag to another text of lowercase digits. -/
def Altered (btr other : BTR Initial Payload) : Prop :=
  other.kappa = btr.kappa ∧ other.fields ≠ btr.fields ∨
    other.fields = btr.fields ∧ IsLowerHex btr.kappa ∧ IsLowerHex other.kappa ∧ other.kappa ≠ btr.kappa

theorem eq_hex_of_isLowerHex {services : BTRServices Initial Payload State Message} {value : JsValue}
    {bytes : List UInt8} (hlower : IsLowerHex value) (h : hexToUint8Array services value = .ok bytes) :
    value = .string (uint8ArrayToHex bytes) := by
  obtain ⟨text, rfl, hdigits⟩ := hlower
  unfold hexToUint8Array at h
  by_cases heven : text.length % 2 = 0
  · simp only [ne_eq, heven, not_true_eq_false, if_false] at h
    rw [uint8ArrayToHex_of_hexToBytes hdigits heven h]
  · simp only [ne_eq, heven, not_false_eq_true, if_true] at h
    cases h

/-- An accepted record is authentic, and no record that differs from it in a signed field, or in the digits of the
tag, is accepted too. -/
theorem accepted_authentic (services : BTRServices Initial Payload State Message) (hbytes : services.ComparesBytes)
    (hhmac : ∀ key, Function.Injective (services.hmac key)) (hcodec : Function.Injective services.codec.encode)
    {record : Option (BTRObject Initial Payload)} {key : HmacKey} (haccepted : Accepts services record key true) :
    ∃ btr : BTR Initial Payload, record = some btr.toObject ∧ Authentic services key btr ∧
      ∀ other, Altered btr other → ∀ verifyReplay, ¬ Accepts services (some other.toObject) key verifyReplay := by
  obtain ⟨btr, ⟨rfl, -⟩, htag, hreplay⟩ := (accepts_iff hbytes).mp haccepted
  obtain ⟨state, hash, hrun, hhash⟩ := hreplay rfl
  refine ⟨btr, rfl, ⟨htag, fun hlower => eq_hex_of_isLowerHex hlower htag, ?_⟩, ?_⟩
  · unfold replayBTR at hrun
    obtain ⟨initialState, hinitial, hrun⟩ := bind_ok_iff.mp hrun
    obtain ⟨finalState, hfinal, hrun⟩ := bind_ok_iff.mp hrun
    cases hrun
    exact ⟨initialState, state, hinitial, hfinal, hhash⟩
  · intro other haltered verifyReplay hother
    obtain ⟨other', ⟨heq, -⟩, htag', -⟩ := (accepts_iff hbytes).mp hother
    have hsame : other' = other := by
      cases other
      cases other'
      cases heq
      rfl
    subst hsame
    rcases haltered with ⟨hkappa, hfields⟩ | ⟨hfields, hlower, hlower', hkappa⟩
    · rw [hkappa, htag, Except.ok.injEq] at htag'
      exact hfields (hcodec (hhmac key htag')).symm
    · rw [hfields] at htag'
      exact hkappa ((eq_hex_of_isLowerHex hlower' htag').trans (eq_hex_of_isLowerHex hlower htag).symm)

/-! ### What is accepted all the same -/

section Countability

/-- A value with its lists spelled out. -/
inductive FlatValue where
  | undefined
  | null
  | bool (b : Bool)
  | number (n : JsNumber)
  | bigint (n : Int)
  | string (s : JsString)
  | array (items : FlatValue)
  | object (fields : FlatValue)
  | map (entries : FlatValue)
  | bytes (data : List UInt8)
  | builtin (held : JsString) (toJSON : Option JsString)
  | nil
  | item (value rest : FlatValue)
  | field (key : JsString) (value rest : FlatValue)

mutual

def flatten : JsValue → FlatValue
  | .undefined => .undefined
  | .null => .null
  | .bool b => .bool b
  | .number n => .number n
  | .bigint n => .bigint n
  | .string s => .string s
  | .array items => .array (flattenItems items)
  | .object fields => .object (flattenFields fields)
  | .map entries => .map (flattenFields entries)
  | .bytes data => .bytes data
  | .builtin held toJSON => .builtin held toJSON

def flattenItems : List JsValue → FlatValue
  | [] => .nil
  | item :: rest => .item (flatten item) (flattenItems rest)

def flattenFields : List (JsString × JsValue) → FlatValue
  | [] => .nil
  | (key, value) :: rest => .field key (flatten value) (flattenFields rest)

end

mutual

theorem flatten_injective {a b : JsValue} (h : flatten a = flatten b) : a = b := by
  cases a with
  | array items =>
      cases b with
      | array others => rw [flattenItems_injective (FlatValue.array.inj h)]
      | _ => cases h
  | object fields =>
      cases b with
      | object others => rw [flattenFields_injective (FlatValue.object.inj h)]
      | _ => cases h
  | map entries =>
      cases b with
      | map others => rw [flattenFields_injective (FlatValue.map.inj h)]
      | _ => cases h
  | _ =>
      cases b <;> cases h
      rfl

theorem flattenItems_injective {items others : List JsValue} (h : flattenItems items = flattenItems others) :
    items = others := by
  cases items with
  | nil =>
      cases others with
      | nil => rfl
      | cons other others => cases h
  | cons item rest =>
      cases others with
      | nil => cases h
      | cons other others =>
          obtain ⟨hitem, hrest⟩ := FlatValue.item.inj h
          rw [flatten_injective hitem, flattenItems_injective hrest]

theorem flattenFields_injective {fields others : List (JsString × JsValue)}
    (h : flattenFields fields = flattenFields others) : fields = others := by
  cases fields with
  | nil =>
      cases others with
      | nil => rfl
      | cons other others => cases h
  | cons field rest =>
      obtain ⟨key, value⟩ := field
      cases others with
      | nil => cases h
      | cons other others =>
          obtain ⟨key', value'⟩ := other
          obtain ⟨rfl, hvalue, hrest⟩ := FlatValue.field.inj h
          rw [flatten_injective hvalue, flattenFields_injective hrest]

end

deriving instance Countable for JsNumber

instance countable_uInt8 : Countable UInt8 := Function.Injective.countable fun _ _ => UInt8.toNat_inj.mp

deriving instance Countable for FlatValue

instance : Countable JsValue := Function.Injective.countable fun _ _ => flatten_injective

instance countable_char : Countable Char := Function.Injective.countable (f := Char.toNat) fun _ _ h => Char.ext (UInt32.toNat_inj.mp h)

instance countable_string : Countable String := Function.Injective.countable fun _ _ => String.toList_inj.mp

instance {K W : Type} [DecidableEq K] [Countable K] [Countable W] : Countable (JsMap K W) :=
  Function.Injective.countable (f := JsMap.entries) fun m m' h => by
    cases m
    cases m'
    cases h
    rfl

instance : Countable VersionVector := inferInstanceAs (Countable (JsMap JsString Nat))

deriving instance Countable for Dot, EventId, EdgeRef, LWWRegister, OpV2, PatchContext, PatchV2, PatchEntry, ORSetObject,
  BirthObject, FullStateObject, SerializedPayload, BTRObject

end Countability

namespace Example

/-- The records of the example. -/
abbrev Record : Type := BTR (Option (FullStateObject Nat)) (SerializedPayload Nat)

/-- An HMAC that is injective; its first byte is always 1. -/
noncomputable def injectiveHmac (_ : HmacKey) (message : BTRObject (Option (FullStateObject Nat)) (SerializedPayload Nat)) :
    List UInt8 :=
  1 :: List.replicate ((exists_injective_nat (BTRObject (Option (FullStateObject Nat)) (SerializedPayload Nat))).choose
    message) 0

theorem injective_injectiveHmac (key : HmacKey) : Function.Injective (injectiveHmac key) := by
  intro a b h
  have hlength := congrArg List.length (List.cons.inj h).2
  rw [List.length_replicate, List.length_replicate] at hlength
  exact (exists_injective_nat _).choose_spec hlength

noncomputable def services : BTRServices (Option (FullStateObject Nat)) (SerializedPayload Nat) (WarpStateV5 Nat)
    (BTRObject (Option (FullStateObject Nat)) (SerializedPayload Nat)) := (plainPorts injectiveHmac).services

/-- The empty state and no patches, under a wrong `h_in`. -/
def wrongInput : Record where
  version := btrVersion
  hIn := .string (js "tampered_hash_value")
  hOut := .string (hexText 64 0)
  initial := some ⟨some "full-v5", some ⟨some [], some []⟩, some ⟨some [], some []⟩, some [], some [], some [], none⟩
  payload := .patches []
  timestamp := .string timestamp
  kappa := .undefined

/-- The tag with a plus sign in place of the first digit, which is a zero. -/
noncomputable def looseTag : JsValue :=
  .string (43 :: (computeHmac services wrongInput key).tail)

theorem replay_wrongInput (kappa : JsValue) : replayBTR services { wrongInput with kappa := kappa } =
    .ok (createEmptyStateV5, hexText 64 0) := rfl

theorem comparesBytes_services : services.ComparesBytes := (lawful_plainPorts injectiveHmac).bytes

theorem accepts_wrongInput : Accepts services (some (signed services wrongInput key).toObject) key true :=
  (accepts_iff comparesBytes_services).mpr
    ⟨_, ⟨rfl, rfl⟩, hexToUint8Array_hmac _ _, fun _ => ⟨_, _, replay_wrongInput _, rfl⟩⟩

/-- `parseInt` takes a sign for part of a number. -/
theorem hexToBytes_plus (rest : JsString) : hexToBytes 0 (43 :: 49 :: rest) = hexToBytes 0 (48 :: 49 :: rest) := by
  have hplus : parseHexInt [43, 49] = some 1 := by decide
  have hzero : parseHexInt [48, 49] = some 1 := by decide
  rw [hexToBytes, hexToBytes, hplus, hzero]

/-- Signed by someone who has the key, the record is accepted although its `h_in` is no hash of its state, and it is
accepted with a tag that is not the hexadecimal text of the HMAC. -/
theorem verification_misses : (∀ key, Function.Injective (services.hmac key)) ∧
    Function.Injective services.codec.encode ∧ services.ComparesBytes ∧
    Accepts services (some (signed services wrongInput key).toObject) key true ∧
    services.deserializeFullStateV5 wrongInput.initial = .ok createEmptyStateV5 ∧
    (signed services wrongInput key).hIn ≠ .string (services.computeStateHashV5 createEmptyStateV5) ∧
    Accepts services (some { wrongInput with kappa := looseTag }.toObject) key true ∧
    looseTag ≠ .string (computeHmac services wrongInput key) := by
  have htag : computeHmac services wrongInput key =
      48 :: 49 :: uint8ArrayToHex (services.hmac key (services.codec.encode wrongInput.fields)).tail := rfl
  refine ⟨injective_injectiveHmac, fun _ _ h => h, comparesBytes_services, accepts_wrongInput, rfl, by decide, ?_, ?_⟩
  · refine (accepts_iff comparesBytes_services).mpr ⟨_, ⟨rfl, rfl⟩, ?_, fun _ => ⟨_, _, replay_wrongInput _, rfl⟩⟩
    have hloose : hexToUint8Array services looseTag =
        hexToUint8Array services (.string (computeHmac services wrongInput key)) := by
      rw [looseTag, htag]
      simp only [hexToUint8Array, List.tail_cons, List.length_cons, hexToBytes_plus]
    exact hloose.trans (hexToUint8Array_hmac _ _)
  · rw [looseTag, htag]
    decide

theorem accepted_authentic_small : Accepts services (some (signed services wrongInput key).toObject) key true ∧
    ∃ btr : Record, some (signed services wrongInput key).toObject = some btr.toObject ∧ Authentic services key btr ∧
      ∀ other, Altered btr other → ∀ verifyReplay, ¬ Accepts services (some other.toObject) key verifyReplay :=
  ⟨accepts_wrongInput, accepted_authentic services comparesBytes_services injective_injectiveHmac (fun _ _ h => h)
    accepts_wrongInput⟩

end Example

end Boundary

end GitWarp
