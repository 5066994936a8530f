import GitWarp.SyncAuth
import GitWarp.SyncCheckpoints
import GitWarp.SyncJsonResponses

/-! The HTTP side of sync: a request is checked and authorized before the graph sees it. Only the call of the
graph is inside a `try`, so what the authorization throws leaves the handler as a rejection; the one thing that
can throw there is the crypto port, for a key id under which the table of keys has an inherited property. -/

namespace GitWarp
open Js JsValue

/-- The parts of the platform under the HTTP server. -/
structure HttpPlatform extends SyncPlatform where
  /-- `new TextDecoder().decode(body)` -/
  decodeText : List UInt8 → JsString
  /-- `JSON.parse(text)`; `none` when it throws. -/
  parseJson : JsString → Option JsValue
  /-- The text of the schema's complaint about a payload. -/
  schemaError : JsValue → JsString

structure HttpResponse where
  status : Nat
  contentType : JsString
  /-- The body as its receiver parses it. -/
  body : JsValue

structure HttpSyncServer where
  path : JsString
  host : JsString
  maxRequestBytes : Nat
  auth : Option SyncAuthService

def errorResponse (status : Nat) (message : JsString) : HttpResponse :=
  ⟨status, js "application/json", .object [(js "error", .string message)]⟩

def jsonResponse (data : JsValue) : Except JsError HttpResponse := do
  return ⟨200, js "application/json", ← overHttp data⟩

/-! ### Checks of the request -/

def checkContentType (request : HttpRequest) : Except HttpResponse Unit :=
  let contentType := toLowerCase (request.header "content-type")
  if contentType ≠ [] ∧ (js "application/json").isPrefixOf contentType = false then
    .error (errorResponse 400 (js "Expected application/json"))
  else .ok ()

/-- The base URL that the route is read against. -/
def HttpSyncServer.base (server : HttpSyncServer) (request : HttpRequest) : JsString :=
  js "http://" ++ if request.header "host" = [] then server.host else request.header "host"

def validateRoute (platform : HttpPlatform) (server : HttpSyncServer) (request : HttpRequest) :
    Except HttpResponse Unit :=
  match platform.newUrl request.urlOrRoot (server.base request) with
  | none => .error (errorResponse 400 (js "Invalid URL"))
  | some url =>
      if url.pathname ≠ server.path then .error (errorResponse 404 (js "Not Found"))
      else if request.method ≠ js "POST" then .error (errorResponse 405 (js "Method Not Allowed"))
      else .ok ()

def checkBodySize (server : HttpSyncServer) (request : HttpRequest) : Except HttpResponse Unit :=
  if request.bytes.length > server.maxRequestBytes then .error (errorResponse 413 (js "Request too large"))
  else .ok ()

/-- `p.frontier`, where a `Map` of strings is turned into an object. -/
def normalizedFrontier (frontier : JsValue) : Option JsValue :=
  match frontier with
  | .map entries => if entries.all fun entry => (asString entry.2).isSome then some (.object entries) else none
  | other => some other

/-- `validateSyncRequest` with the default limits. -/
def validateSyncRequest (platform : HttpPlatform) (payload : JsValue) : Except JsString SyncRequest :=
  match normalizedFrontier (payload.get (js "frontier")) with
  | none => .error (js "Invalid frontier: Map contains non-string entries")
  | some frontier =>
      match asFields payload, asFrontier frontier with
      | some fields, some frontier =>
          if asString (payload.get (js "type")) = some (js "sync-request") ∧
              (fields.all fun field => field.1 = js "type" ∨ field.1 = js "frontier") ∧
              frontierSchema defaultLimits frontier then .ok ⟨frontier⟩
          else .error (platform.schemaError payload)
      | _, _ => .error (platform.schemaError payload)

def parseBody (platform : HttpPlatform) (request : HttpRequest) : Except HttpResponse SyncRequest :=
  let text := match request.body with
    | some body => platform.decodeText body
    | none => []
  match if text = [] then some .null else platform.parseJson text with
  | none => .error (errorResponse 400 (js "Invalid JSON"))
  | some parsed =>
      match validateSyncRequest platform parsed with
      | .error message => .error (errorResponse 400 (js "Invalid sync request: " ++ message))
      | .ok parsed => .ok parsed

/-- `_handleRequest` up to the authorization. -/
def HttpSyncServer.precheck (server : HttpSyncServer) (platform : HttpPlatform) (request : HttpRequest) :
    Except HttpResponse SyncRequest := do
  checkContentType request
  validateRoute platform server request
  checkBodySize server request
  parseBody platform request

/-! ### Authorization -/

def failureResponse (failure : AuthFailure) : HttpResponse := errorResponse failure.status (js failure.reason)

/-- The writers of the request's frontier are checked when there are any. -/
def authorizeWriters (service : SyncAuthService) (parsed : SyncRequest) : Except HttpResponse Unit :=
  let writerIds := parsed.frontier.props.keys
  if writerIds = [] then .ok ()
  else
    match service.enforceWriters writerIds with
    | .error failure => .error (failureResponse failure)
    | .ok () => .ok ()

/-- `_authorize`, begun at the time `now`; `nonces` is the cache when the crypto port has answered. -/
def authorize (server : HttpSyncServer) (platform : HttpPlatform) (now : Int) (nonces : NonceCache)
    (request : HttpRequest) (parsed : SyncRequest) : Except JsError (Except HttpResponse Unit × NonceCache) :=
  match server.auth with
  | none => .ok (.ok (), nonces)
  | some service => do
      let (result, nonces) ← service.verify platform.toSyncPlatform now nonces request
      return match result with
        | .ok () => (authorizeWriters service parsed, nonces)
        | .error failure =>
            if service.mode = .enforce then (.error (failureResponse failure), nonces)
            else (authorizeWriters service parsed, nonces)

/-- What a request did: how its handler ended, and the request that reached the graph. -/
structure Handled where
  outcome : Except JsError HttpResponse
  processed : Option SyncRequest
  nonces : NonceCache

/-- The call of `processSyncRequest` and its `catch`. -/
def respond (processSyncRequest : SyncRequest → Except JsError JsValue) (parsed : SyncRequest) : HttpResponse :=
  match processSyncRequest parsed >>= jsonResponse with
  | .ok response => response
  | .error err => errorResponse 500 (js err.message)

/-- `_handleRequest`, with the authorization as in `authorize`. -/
def handleRequest (server : HttpSyncServer) (platform : HttpPlatform)
    (processSyncRequest : SyncRequest → Except JsError JsValue) (now : Int) (nonces : NonceCache)
    (request : HttpRequest) : Handled :=
  match server.precheck platform request with
  | .error response => ⟨.ok response, none, nonces⟩
  | .ok parsed =>
      match authorize server platform now nonces request parsed with
      | .error err => ⟨.error err, none, nonces⟩
      | .ok (.error response, nonces) => ⟨.ok response, none, nonces⟩
      | .ok (.ok (), nonces) => ⟨.ok (respond processSyncRequest parsed), some parsed, nonces⟩

end GitWarp
