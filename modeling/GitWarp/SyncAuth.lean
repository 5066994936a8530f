import GitWarp.LibraryJsObject
import GitWarp.LibraryLruCache

/-! Verification of signed sync requests: the headers, the age of the timestamp, the key and the signature are
checked before the nonce is reserved. The secret is read from a plain object, and the crypto port is called
between the check of the timestamp and the reservation of the nonce. -/

namespace GitWarp
open Js

/-- What a URL parser returns of a URL. -/
structure ParsedUrl where
  pathname : JsString
  search : JsString

/-- The parts of the platform under the sync service. -/
structure SyncPlatform where
  /-- `new URL(url, base)`; `none` when it throws. -/
  newUrl : JsString → JsString → Option ParsedUrl
  /-- `crypto.hash('sha256', data)` -/
  sha256 : List UInt8 → JsString
  /-- `crypto.hmac('sha256', key, data)` for a key that is a string. -/
  hmac : JsString → JsString → List UInt8

structure HttpRequest where
  method : JsString
  url : JsString
  headers : PlainObject JsString
  body : Option (List UInt8)

/-- `headers[name] || ''` -/
def HttpRequest.header (request : HttpRequest) (name : String) : JsString :=
  (request.headers.props.get (js name)).getD []

def HttpRequest.bytes (request : HttpRequest) : List UInt8 := request.body.getD []

inductive AuthMode where
  | enforce
  | logOnly
  deriving DecidableEq

structure SyncAuthService where
  keys : PlainObject JsString
  mode : AuthMode
  maxClockSkewMs : Int
  allowedWriters : Option (JsSet JsString)

abbrev NonceCache := LruCache JsString Bool

/-- `{ ok: false, reason, status }` -/
structure AuthFailure where
  reason : String
  status : Nat
  deriving DecidableEq

/-! ### The signed text -/

/-- `'|'` -/
def payloadSeparator : CodeUnit := 124

structure PayloadParams where
  keyId : JsString
  method : JsString
  path : JsString
  timestamp : JsString
  nonce : JsString
  contentType : JsString
  bodySha256 : JsString

def buildCanonicalPayload (params : PayloadParams) : JsString :=
  js "warp-v1" ++ payloadSeparator :: (params.keyId ++ payloadSeparator :: (params.method ++
    payloadSeparator :: (params.path ++ payloadSeparator :: (params.timestamp ++ payloadSeparator ::
      (params.nonce ++ payloadSeparator :: (params.contentType ++ payloadSeparator :: params.bodySha256))))))

def localBase : JsString := js "http://localhost"

/-- `request.url || '/'` -/
def HttpRequest.urlOrRoot (request : HttpRequest) : JsString := if request.url = [] then js "/" else request.url

def canonicalizePath (platform : SyncPlatform) (url : JsString) : Except JsError JsString :=
  match platform.newUrl url localBase with
  | some parsed => .ok (parsed.pathname ++ parsed.search)
  | none => .error ⟨"TypeError", "Invalid URL"⟩

/-! ### Headers -/

/-- `NONCE_PATTERN`; its letters are matched in both cases. -/
def isNonce (nonce : JsString) : Bool :=
  let hex := fun (s : JsString) => s.all fun c => isHexDigit (lowerUnit c)
  match nonce.splitOn 45 with
  | [a, b, c, d, e] =>
      a.length = 8 && hex a && b.length = 4 && hex b && c.length = 4 && hex c && c.head? = some 52 &&
        d.length = 4 && hex d && (js "89abAB").contains (d.headD 0) && e.length = 12 && hex e
  | _ => false

def checkHeaderFormats (timestamp nonce signature : JsString) : Except AuthFailure Unit :=
  if timestamp = [] ∨ timestamp.all isDigit = false ∨ timestamp.length > 16 then
    .error ⟨"MALFORMED_TIMESTAMP", 400⟩
  else if isNonce nonce = false then .error ⟨"MALFORMED_NONCE", 400⟩
  else if signature.length ≠ 64 ∨ signature.all isHexDigit = false then .error ⟨"MALFORMED_SIGNATURE", 400⟩
  else .ok ()

structure AuthHeaders where
  signature : JsString
  timestamp : JsString
  nonce : JsString
  keyId : JsString

def validateHeaders (request : HttpRequest) : Except AuthFailure AuthHeaders :=
  if request.headers.props.get (js "x-warp-sig-version") ≠ some (js "1") then .error ⟨"INVALID_VERSION", 400⟩
  else
    let keyId := request.header "x-warp-key-id"
    let signature := request.header "x-warp-signature"
    let timestamp := request.header "x-warp-timestamp"
    let nonce := request.header "x-warp-nonce"
    if keyId = [] ∨ signature = [] ∨ timestamp = [] ∨ nonce = [] then .error ⟨"MISSING_AUTH", 401⟩
    else
      match checkHeaderFormats timestamp nonce signature with
      | .error failure => .error failure
      | .ok () => .ok ⟨signature, timestamp, nonce, keyId⟩

namespace SyncAuthService

/-- The timestamp is within the clock skew of `now`. -/
def Fresh (service : SyncAuthService) (now : Int) (timestamp : JsString) : Prop :=
  |now - digitsValue timestamp| ≤ service.maxClockSkewMs

instance (service : SyncAuthService) (now : Int) (timestamp : JsString) : Decidable (service.Fresh now timestamp) :=
  inferInstanceAs (Decidable (_ ≤ _))

def validateFreshness (service : SyncAuthService) (now : Int) (timestamp : JsString) : Except AuthFailure Unit :=
  if service.Fresh now timestamp then .ok () else .error ⟨"EXPIRED", 403⟩

/-- What `this._keys[keyId]` reads, unless it is falsy. -/
def resolveKey (service : SyncAuthService) (keyId : JsString) :
    Except AuthFailure (PlainObject.PropertyRead JsString) :=
  match service.keys.read keyId with
  | .undefined => .error ⟨"UNKNOWN_KEY_ID", 401⟩
  | .own secret => if secret = [] then .error ⟨"UNKNOWN_KEY_ID", 401⟩ else .ok (.own secret)
  | .inherited name => .ok (.inherited name)

/-- `crypto.hmac('sha256', secret, data)`; a key that is a function or a plain object is no key. -/
def hmacWith (platform : SyncPlatform) (secret : PlainObject.PropertyRead JsString) (data : JsString) :
    Except JsError (List UInt8) :=
  match secret with
  | .own key => .ok (platform.hmac key data)
  | _ => .error ⟨"TypeError", "The \"key\" argument must be of type string or an instance of ArrayBuffer"⟩

def hexCharValue (c : CodeUnit) : Option Nat :=
  if 48 ≤ c.val ∧ c.val ≤ 57 then some (c.val - 48)
  else if 65 ≤ c.val ∧ c.val ≤ 70 then some (c.val - 55)
  else if 97 ≤ c.val ∧ c.val ≤ 102 then some (c.val - 87)
  else none

/-- `hexDecode`; `none` when it throws. -/
def hexDecode : JsString → Option (List UInt8)
  | [] => some []
  | [_] => none
  | hi :: lo :: rest => do
      let hi ← hexCharValue hi
      let lo ← hexCharValue lo
      let rest ← hexDecode rest
      return UInt8.ofNat (16 * hi + lo) :: rest

/-- What the signature of a request is computed over. -/
def signedParams (platform : SyncPlatform) (request : HttpRequest) (headers : AuthHeaders) (path : JsString) :
    PayloadParams :=
  ⟨headers.keyId, toUpperCase (if request.method = [] then js "POST" else request.method), path, headers.timestamp,
    headers.nonce, request.header "content-type", platform.sha256 request.bytes⟩

def verifySignature (platform : SyncPlatform) (request : HttpRequest) (headers : AuthHeaders)
    (secret : PlainObject.PropertyRead JsString) : Except JsError (Except AuthFailure Unit) := do
  let path ← canonicalizePath platform request.urlOrRoot
  let expected ← hmacWith platform secret (buildCanonicalPayload (signedParams platform request headers path))
  return if hexDecode headers.signature = some expected then .ok () else .error ⟨"INVALID_SIGNATURE", 401⟩

def reserveNonce (nonces : NonceCache) (nonce : JsString) : Except AuthFailure Unit × NonceCache :=
  if nonces.has nonce then (.error ⟨"REPLAY", 403⟩, nonces) else (.ok (), nonces.set nonce true)

/-- A call of `verify` that waits for the crypto port. -/
structure Pending where
  request : HttpRequest
  headers : AuthHeaders
  secret : PlainObject.PropertyRead JsString

/-- `verify` up to the call of `_verifySignature`, at the time `now`. -/
def begin (service : SyncAuthService) (now : Int) (request : HttpRequest) : Except AuthFailure Pending := do
  let headers ← validateHeaders request
  service.validateFreshness now headers.timestamp
  let secret ← service.resolveKey headers.keyId
  return ⟨request, headers, secret⟩

/-- `verify` from the call of `_verifySignature` on; `nonces` is the cache when the crypto port has answered. -/
def finish (platform : SyncPlatform) (nonces : NonceCache) (call : Pending) :
    Except JsError (Except AuthFailure Unit × NonceCache) := do
  let sigResult ← verifySignature platform call.request call.headers call.secret
  return match sigResult with
    | .error failure => (.error failure, nonces)
    | .ok () => reserveNonce nonces call.headers.nonce

/-- A call of `verify` that begins at the time `now`; `nonces` is the cache when the crypto port has answered. -/
def verify (service : SyncAuthService) (platform : SyncPlatform) (now : Int) (nonces : NonceCache)
    (request : HttpRequest) : Except JsError (Except AuthFailure Unit × NonceCache) :=
  match service.begin now request with
  | .error failure => .ok (.error failure, nonces)
  | .ok call => finish platform nonces call

def verifyWriters (service : SyncAuthService) (writerIds : List JsString) : Except AuthFailure Unit :=
  match service.allowedWriters with
  | none => .ok ()
  | some allowed =>
      if writerIds.any fun id => !allowed.has id then .error ⟨"FORBIDDEN_WRITER", 403⟩ else .ok ()

def enforceWriters (service : SyncAuthService) (writerIds : List JsString) : Except AuthFailure Unit :=
  match service.verifyWriters writerIds with
  | .ok () => .ok ()
  | .error failure => if service.mode ≠ .enforce then .ok () else .error failure

end SyncAuthService

end GitWarp
