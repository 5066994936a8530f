import GitWarp.HttpSyncServer
import GitWarp.SyncAuthRuns

/-! What the handler of a sync request ends in. It answers unless the key id of a fresh request names a property
that the table of keys inherits; and in enforce mode the graph sees only what the service has admitted. -/

namespace GitWarp
open Js JsValue ExceptLoops SyncAuthService

/-! ### Headers and keys -/

theorem resolveKey_eq_ok_iff {service : SyncAuthService} {keyId : JsString}
    {secret : PlainObject.PropertyRead JsString} :
    service.resolveKey keyId = .ok secret ↔ service.keys.read keyId = secret ∧ secret ≠ .undefined ∧ secret ≠ .own [] := by
  unfold resolveKey
  cases service.keys.read keyId with
  | undefined =>
      simp only [reduceCtorEq, false_iff]
      rintro ⟨rfl, h, -⟩
      exact h rfl
  | inherited name =>
      simp only [Except.ok.injEq]
      constructor
      · rintro rfl
        exact ⟨rfl, nofun, nofun⟩
      · exact fun h => h.1
  | own value =>
      by_cases hvalue : value = []
      · simp only [hvalue, if_true, reduceCtorEq, false_iff]
        rintro ⟨rfl, -, h⟩
        exact h rfl
      · simp only [hvalue, if_false, Except.ok.injEq]
        constructor
        · rintro rfl
          exact ⟨rfl, nofun, fun h => hvalue (PlainObject.PropertyRead.own.inj h)⟩
        · exact fun h => h.1

/-! ### The signature -/

/-- A URL that parses against some host parses against `localhost`. -/
def HttpPlatform.ParsesLocally (platform : HttpPlatform) : Prop :=
  ∀ url host parsed, platform.newUrl url (js "http://" ++ host) = some parsed → (platform.newUrl url localBase).isSome = true

theorem canonicalizePath_of_precheck {server : HttpSyncServer} {platform : HttpPlatform} {request : HttpRequest}
    {parsed : SyncRequest} (hurl : platform.ParsesLocally) (h : server.precheck platform request = .ok parsed) :
    ∃ path, canonicalizePath platform.toSyncPlatform request.urlOrRoot = .ok path := by
  unfold HttpSyncServer.precheck at h
  cases hcontent : checkContentType request with
  | error response => simp [hcontent, bind, Except.bind] at h
  | ok _ =>
      cases hroute : validateRoute platform server request with
      | error response => simp [hcontent, hroute, bind, Except.bind] at h
      | ok _ =>
          unfold validateRoute at hroute
          cases hparse : platform.newUrl request.urlOrRoot (server.base request) with
          | none =>
              rw [hparse] at hroute
              cases hroute
          | some url =>
              obtain ⟨local', hlocal⟩ := Option.isSome_iff_exists.mp (hurl _ _ url hparse)
              exact ⟨local'.pathname ++ local'.search, by simp only [canonicalizePath, hlocal]⟩

theorem verifySignature_of_path {platform : SyncPlatform} {request : HttpRequest} {headers : AuthHeaders}
    {path : JsString} (hpath : canonicalizePath platform request.urlOrRoot = .ok path)
    (secret : PlainObject.PropertyRead JsString) :
    verifySignature platform request headers secret =
      (hmacWith platform secret (buildCanonicalPayload (signedParams platform request headers path))).map fun expected =>
        if hexDecode headers.signature = some expected then .ok () else .error ⟨"INVALID_SIGNATURE", 401⟩ := by
  unfold verifySignature
  rw [hpath]
  change (hmacWith platform secret (buildCanonicalPayload (signedParams platform request headers path)) >>= _) = _
  cases hmacWith platform secret (buildCanonicalPayload (signedParams platform request headers path)) with
  | error err => rfl
  | ok expected => rfl

/-- With the path parsed, only an inherited key lets the verification throw. -/
theorem finish_isOk_iff {platform : SyncPlatform} {nonces : NonceCache} {call : Pending} {path : JsString}
    (hpath : canonicalizePath platform call.request.urlOrRoot = .ok path) :
    (finish platform nonces call).isOk = true ↔ ∃ secret, call.secret = .own secret := by
  unfold finish
  rw [verifySignature_of_path hpath]
  cases call.secret with
  | own secret =>
      simp only [hmacWith, Except.map, bind, Except.bind, pure, Except.pure]
      exact ⟨fun _ => ⟨secret, rfl⟩, fun _ => rfl⟩
  | inherited name =>
      simp only [hmacWith, Except.map, bind, Except.bind]
      refine iff_of_false Bool.false_ne_true ?_
      rintro ⟨_, ⟨⟩⟩
  | undefined =>
      simp only [hmacWith, Except.map, bind, Except.bind]
      refine iff_of_false Bool.false_ne_true ?_
      rintro ⟨_, ⟨⟩⟩

/-! ### The handler -/

/-- What the service has checked of a request before the graph sees it. -/
structure Admitted (service : SyncAuthService) (platform : HttpPlatform) (now : Int) (nonces : NonceCache)
    (request : HttpRequest) (parsed : SyncRequest) : Prop where
  signed : ∃ headers secret path, validateHeaders request = .ok headers ∧
    service.keys.props.get (request.header "x-warp-key-id") = some secret ∧
    canonicalizePath platform.toSyncPlatform request.urlOrRoot = .ok path ∧
    hexDecode (request.header "x-warp-signature") =
      some (platform.hmac secret (buildCanonicalPayload (signedParams platform.toSyncPlatform request headers path)))
  fresh : service.Fresh now (request.header "x-warp-timestamp")
  unused : nonces.has (request.header "x-warp-nonce") = false
  writers : ∀ allowed, service.allowedWriters = some allowed → ∀ id ∈ parsed.frontier.props.keys, id ∈ allowed

theorem admitted_of_authorize {server : HttpSyncServer} {platform : HttpPlatform} {service : SyncAuthService}
    {now : Int} {nonces nonces' : NonceCache} {request : HttpRequest} {parsed : SyncRequest}
    (hauth : server.auth = some service) (hmode : service.mode = .enforce)
    (h : authorize server platform now nonces request parsed = .ok (.ok (), nonces')) :
    Admitted service platform now nonces request parsed := by
  unfold authorize at h
  rw [hauth] at h
  dsimp only at h
  cases hverify : service.verify platform.toSyncPlatform now nonces request with
  | error err =>
      rw [hverify] at h
      cases h
  | ok result =>
      obtain ⟨result, cache⟩ := result
      rw [hverify] at h
      cases result with
      | error failure =>
          simp only [bind, Except.bind, pure, Except.pure, hmode, if_true, Except.ok.injEq, Prod.mk.injEq] at h
          exact absurd h.1 nofun
      | ok _ =>
          simp only [bind, Except.bind, pure, Except.pure, Except.ok.injEq, Prod.mk.injEq] at h
          obtain ⟨hwriters, -⟩ := h
          unfold SyncAuthService.verify at hverify
          cases hbegin : service.begin now request with
          | error failure =>
              rw [hbegin] at hverify
              cases hverify
          | ok call =>
              rw [hbegin] at hverify
              obtain ⟨hheaders, hfresh, hkey, rfl⟩ := begin_eq_ok_iff.mp hbegin
              obtain ⟨hsig, hnew, -⟩ := finish_ok hverify
              obtain ⟨hsignature, htimestamp, hnonce, hkeyId, -⟩ := validateHeaders_ok hheaders
              obtain ⟨hread, -, -⟩ := resolveKey_eq_ok_iff.mp hkey
              cases hpath : canonicalizePath platform.toSyncPlatform call.request.urlOrRoot with
              | error err =>
                  simp only [verifySignature, hpath, bind, Except.bind] at hsig
                  cases hsig
              | ok path =>
                  rw [verifySignature_of_path hpath] at hsig
                  cases hsecret : call.secret with
                  | inherited name =>
                      rw [hsecret] at hsig
                      cases hsig
                  | undefined =>
                      rw [hsecret] at hsig
                      cases hsig
                  | own secret =>
                      rw [hsecret] at hsig hread
                      simp only [hmacWith, Except.map, Except.ok.injEq] at hsig
                      split at hsig
                      · rename_i hdecode
                        refine ⟨⟨call.headers, secret, path, hheaders, ?_, hpath, ?_⟩, ?_, ?_, ?_⟩
                        · rw [← hkeyId]
                          exact (PlainObject.read_eq_own_iff ..).mp hread
                        · rw [← hsignature]
                          exact hdecode
                        · rw [← htimestamp]
                          exact hfresh
                        · rw [← hnonce]
                          exact hnew
                        · intro allowed hallowed id hid
                          unfold authorizeWriters at hwriters
                          dsimp only at hwriters
                          rw [if_neg (List.ne_nil_of_mem hid)] at hwriters
                          by_contra hforbidden
                          have hany : (parsed.frontier.props.keys.any fun id => !allowed.has id) = true := by
                            rw [List.any_eq_true]
                            exact ⟨id, hid, by simpa using hforbidden⟩
                          simp [enforceWriters, verifyWriters, hallowed, hany, hmode] at hwriters
                      · cases hsig

/-- The request passes every check before the key, and its key id names an inherited property. -/
def ReadsInheritedKey (server : HttpSyncServer) (platform : HttpPlatform) (now : Int) (request : HttpRequest) : Prop :=
  (server.precheck platform request).isOk = true ∧ ∃ service headers, server.auth = some service ∧
    validateHeaders request = .ok headers ∧ service.Fresh now headers.timestamp ∧
    headers.keyId ∈ PlainObject.inheritedNames ∧ service.keys.props.get headers.keyId = none

/-- The handler answers, and in enforce mode only an admitted request reaches the graph. -/
def FailsClosed (server : HttpSyncServer) (platform : HttpPlatform)
    (processSyncRequest : SyncRequest → Except JsError JsValue) (now : Int) (nonces : NonceCache)
    (request : HttpRequest) : Prop :=
  let handled := handleRequest server platform processSyncRequest now nonces request
  (∃ response, handled.outcome = .ok response) ∧
    ∀ service parsed, server.auth = some service → service.mode = .enforce → handled.processed = some parsed →
      Admitted service platform now nonces request parsed

theorem authorize_isOk_iff {server : HttpSyncServer} {platform : HttpPlatform} (hurl : platform.ParsesLocally)
    {now : Int} {nonces : NonceCache} {request : HttpRequest} {parsed : SyncRequest}
    (hprecheck : server.precheck platform request = .ok parsed) :
    (authorize server platform now nonces request parsed).isOk = true ↔
      ¬ ReadsInheritedKey server platform now request := by
  obtain ⟨path, hpath⟩ := canonicalizePath_of_precheck hurl hprecheck
  unfold authorize ReadsInheritedKey
  rw [hprecheck]
  cases hauth : server.auth with
  | none => simp [Except.isOk, Except.toBool]
  | some service =>
      dsimp only
      rw [isOk_bind_pure]
      unfold SyncAuthService.verify
      cases hbegin : service.begin now request with
      | error failure =>
          refine iff_of_true rfl ?_
          rintro ⟨-, service', headers, hservice, hheaders, hfresh, hname, hnone⟩
          cases hservice
          have hread := (PlainObject.read_eq_inherited_iff service.keys headers.keyId headers.keyId).mpr ⟨hnone, hname, rfl⟩
          have hok : service.begin now request = .ok ⟨request, headers, .inherited headers.keyId⟩ :=
            begin_eq_ok_iff.mpr ⟨hheaders, hfresh, resolveKey_eq_ok_iff.mpr ⟨hread, nofun, nofun⟩, rfl⟩
          rw [hbegin] at hok
          cases hok
      | ok call =>
          obtain ⟨hheaders, hfresh, hkey, rfl⟩ := begin_eq_ok_iff.mp hbegin
          obtain ⟨hread, hdefined, -⟩ := resolveKey_eq_ok_iff.mp hkey
          dsimp only
          rw [finish_isOk_iff hpath]
          constructor
          · rintro ⟨secret, hsecret⟩ ⟨-, service', headers, hservice, hheaders', -, hname, hnone⟩
            cases hservice
            rw [hheaders', Except.ok.injEq] at hheaders
            subst hheaders
            rw [hsecret, PlainObject.read_eq_own_iff, hnone] at hread
            cases hread
          · intro hown
            cases hsecret : call.secret with
            | own secret => exact ⟨secret, rfl⟩
            | undefined => exact absurd hsecret hdefined
            | inherited name =>
                rw [hsecret, PlainObject.read_eq_inherited_iff] at hread
                exact absurd ⟨rfl, service, call.headers, rfl, hheaders, hfresh, hread.2.1, hread.1⟩ hown

/-- The handler answers exactly where no inherited property is taken for a key. -/
theorem outcome_isOk_iff {server : HttpSyncServer} {platform : HttpPlatform} (hurl : platform.ParsesLocally)
    {processSyncRequest : SyncRequest → Except JsError JsValue} {now : Int} {nonces : NonceCache}
    {request : HttpRequest} :
    (∃ response, (handleRequest server platform processSyncRequest now nonces request).outcome = .ok response) ↔
      ¬ ReadsInheritedKey server platform now request := by
  unfold handleRequest
  cases hprecheck : server.precheck platform request with
  | error response =>
      refine iff_of_true ⟨response, rfl⟩ ?_
      rintro ⟨hok, -⟩
      rw [hprecheck] at hok
      cases hok
  | ok parsed =>
      rw [← authorize_isOk_iff hurl hprecheck]
      dsimp only
      cases hauthorize : authorize server platform now nonces request parsed with
      | error err =>
          refine iff_of_false ?_ Bool.false_ne_true
          rintro ⟨response, hresponse⟩
          cases hresponse
      | ok result =>
          obtain ⟨result, cache⟩ := result
          refine iff_of_true ?_ rfl
          cases result with
          | error response => exact ⟨response, rfl⟩
          | ok _ => exact ⟨_, rfl⟩

/-- A request that reaches the graph has passed the checks and the authorization. -/
theorem authorize_of_processed {server : HttpSyncServer} {platform : HttpPlatform}
    {processSyncRequest : SyncRequest → Except JsError JsValue} {now : Int} {nonces : NonceCache}
    {request : HttpRequest} {parsed : SyncRequest}
    (h : (handleRequest server platform processSyncRequest now nonces request).processed = some parsed) :
    server.precheck platform request = .ok parsed ∧
      ∃ nonces', authorize server platform now nonces request parsed = .ok (.ok (), nonces') := by
  unfold handleRequest at h
  cases hprecheck : server.precheck platform request with
  | error response =>
      rw [hprecheck] at h
      cases h
  | ok checked =>
      rw [hprecheck] at h
      dsimp only at h
      cases hauthorize : authorize server platform now nonces request checked with
      | error err =>
          rw [hauthorize] at h
          cases h
      | ok result =>
          obtain ⟨result, nonces'⟩ := result
          rw [hauthorize] at h
          cases result with
          | error response => cases h
          | ok _ =>
              cases h
              exact ⟨rfl, nonces', hauthorize⟩

/-- The gate fails closed with a response exactly where no inherited property is taken for a key. -/
theorem failsClosed_iff {server : HttpSyncServer} {platform : HttpPlatform} (hurl : platform.ParsesLocally)
    {processSyncRequest : SyncRequest → Except JsError JsValue} {now : Int} {nonces : NonceCache}
    {request : HttpRequest} :
    FailsClosed server platform processSyncRequest now nonces request ↔
      ¬ ReadsInheritedKey server platform now request := by
  constructor
  · intro h
    exact (outcome_isOk_iff hurl).mp h.1
  · intro h
    refine ⟨(outcome_isOk_iff hurl).mpr h, fun service parsed hauth hmode hprocessed => ?_⟩
    obtain ⟨-, nonces', hauthorize⟩ := authorize_of_processed hprocessed
    exact admitted_of_authorize hauth hmode hauthorize

/-! ### An inherited key -/

def requestText : JsString := js "\x7b\"type\":\"sync-request\",\"frontier\":\x7b\x7d\x7d"

def requestBytes : List UInt8 := requestText.map fun c => UInt8.ofNat c.val

def requestDigest : JsString := hexText 64 0xf562411b5cd88142061a471562867a95dab082995ed8863b6497b2a07a294a0e

/-- A request of an empty frontier, as its sender signs it. -/
def emptyRequestParams (keyId path : JsString) (timestamp nonce : Nat) (contentType : JsString) : PayloadParams :=
  ⟨keyId, js "POST", path, decimal timestamp, uuidText nonce, contentType, requestDigest⟩

def tableHttpPlatform (signatures : List (PayloadParams × Nat)) : HttpPlatform where
  toSyncPlatform := tablePlatform requestBytes requestDigest (js "test-secret") signatures
  decodeText bytes := bytes.map fun byte => Fin.ofNat 65536 byte.toNat
  parseJson text :=
    if text = requestText then some (.object [(js "type", .string (js "sync-request")), (js "frontier", .object [])])
    else none
  schemaError _ := []

theorem parsesLocally_table (signatures : List (PayloadParams × Nat)) :
    (tableHttpPlatform signatures).ParsesLocally := fun _ _ _ _ => rfl

def authServer (service : SyncAuthService) : HttpSyncServer := ⟨js "/sync", js "127.0.0.1", 4194304, some service⟩

theorem checkContentType_json {request : HttpRequest} {rest : JsString}
    (h : request.header "content-type" = js "application/json" ++ rest) : checkContentType request = .ok () := by
  have hlower : toLowerCase (js "application/json") = js "application/json" := by
    rw [js_ofList]
    decide
  have hlonger : (js "application/json").isPrefixOf (toLowerCase (js "application/json" ++ rest)) = true := by
    rw [List.isPrefixOf_iff_prefix, toLowerCase, List.map_append]
    exact ⟨_, congrArg (· ++ rest.map lowerUnit) hlower.symm⟩
  unfold checkContentType
  rw [h]
  dsimp only
  rw [hlonger, if_neg]
  exact fun hwrong => Bool.noConfusion hwrong.2

theorem decode_requestBytes : (requestBytes.map fun byte => Fin.ofNat 65536 byte.toNat) = requestText := by
  rw [requestBytes, requestText, js_ofList]
  decide

theorem parseBody_requestBytes {platform : HttpPlatform} {request : HttpRequest} (hbody : request.body = some requestBytes)
    (hdecode : platform.decodeText requestBytes = requestText)
    (hparse : platform.parseJson requestText =
      some (.object [(js "type", .string (js "sync-request")), (js "frontier", .object [])])) :
    ∃ parsed, parseBody platform request = .ok parsed ∧ parsed.frontier.props.keys = [] := by
  have htext : requestText ≠ [] := by
    rw [requestText, js_ofList]
    exact List.cons_ne_nil _ _
  unfold parseBody
  rw [hbody]
  dsimp only
  rw [hdecode, if_neg htext, hparse]
  dsimp only
  have hvalid : ∃ parsed, validateSyncRequest platform
      (.object [(js "type", .string (js "sync-request")), (js "frontier", .object [])]) = .ok parsed ∧ 
      parsed.frontier.props.keys = [] := by
    unfold validateSyncRequest
    rw [js_ofList, js_ofList, js_ofList]
    exact ⟨⟨PlainObject.empty⟩, rfl, rfl⟩
  obtain ⟨parsed, hvalid, hkeys⟩ := hvalid
  rw [hvalid]
  exact ⟨parsed, rfl, hkeys⟩

/-- The checks before the key let a request of an empty frontier through. -/
theorem precheck_emptyRequest {platform : HttpPlatform} (service : SyncAuthService) {params : PayloadParams}
    (signature : Nat) {rest : JsString} (hpath : params.path ≠ [])
    (hurl : ∀ base, ∃ search, platform.newUrl params.path base = some ⟨js "/sync", search⟩)
    (hmethod : params.method = js "POST") (hcontent : params.contentType = js "application/json" ++ rest)
    (hdecode : platform.decodeText requestBytes = requestText)
    (hparse : platform.parseJson requestText =
      some (.object [(js "type", .string (js "sync-request")), (js "frontier", .object [])])) :
    ∃ parsed, (authServer service).precheck platform (signedRequest requestBytes params signature) = .ok parsed ∧
      parsed.frontier.props.keys = [] := by
  obtain ⟨⟨hcontentType, -⟩, -, -⟩ := header_signedRequest requestBytes params signature
  obtain ⟨parsed, hbody, hkeys⟩ :=
    @parseBody_requestBytes platform (signedRequest requestBytes params signature) rfl hdecode hparse
  have hroute : validateRoute platform (authServer service) (signedRequest requestBytes params signature) = .ok () := by
    have hroot : (signedRequest requestBytes params signature).urlOrRoot = params.path := if_neg hpath
    obtain ⟨search, hurl⟩ := hurl ((authServer service).base (signedRequest requestBytes params signature))
    unfold validateRoute
    rw [hroot, hurl]
    exact (if_neg (not_not.mpr rfl)).trans (if_neg (not_not.mpr hmethod))
  have hsize : checkBodySize (authServer service) (signedRequest requestBytes params signature) = .ok () := by
    have hlength : requestBytes.length ≤ 4194304 := by
      rw [requestBytes, List.length_map, requestText, js_ofList]
      decide
    unfold checkBodySize
    rw [bytes_signedRequest, if_neg]
    exact not_lt.mpr hlength
  unfold HttpSyncServer.precheck
  rw [checkContentType_json (hcontentType.trans hcontent), hroute, hsize, hbody]
  exact ⟨parsed, rfl, hkeys⟩

def defaultKeyParams : PayloadParams := emptyRequestParams (js "default") (js "/sync") 1000000 1 (js "application/json")

def defaultKeySignature : Nat := 0x32e31015a8dbb0bc45adf4d46912e8988c6495211cc0855f757847afa7ad7355

theorem default_notMem_inheritedNames : js "default" ∉ PlainObject.inheritedNames := by
  rw [PlainObject.inheritedNames, js_ofList, js_ofList, js_ofList, js_ofList, js_ofList, js_ofList, js_ofList,
    js_ofList, js_ofList, js_ofList, js_ofList, js_ofList, js_ofList]
  decide

theorem failsClosed_defaultKey :
    FailsClosed (authServer oneKeyService) (tableHttpPlatform [(defaultKeyParams, defaultKeySignature)])
      (fun _ => .ok .null) 1000000 (LruCache.new 1) (signedRequest requestBytes defaultKeyParams defaultKeySignature) := by
  refine (failsClosed_iff (parsesLocally_table _)).mpr ?_
  rintro ⟨-, service, headers, -, hheaders, -, hname, -⟩
  obtain ⟨⟨-, hkeyId⟩, -, -⟩ := header_signedRequest requestBytes defaultKeyParams defaultKeySignature
  rw [(validateHeaders_ok hheaders).2.2.2.1, hkeyId] at hname
  exact default_notMem_inheritedNames hname

def inheritedKeyParams : PayloadParams :=
  emptyRequestParams (js "toString") (js "/sync") 1000000 1 (js "application/json")

theorem readsInheritedKey_toString :
    ReadsInheritedKey (authServer oneKeyService) (tableHttpPlatform []) 1000000
      (signedRequest requestBytes inheritedKeyParams 0) := by
  have hpath : js "/sync" ≠ [] := by
    rw [js_ofList]
    exact List.cons_ne_nil _ _
  have hurl : ∀ base, ∃ search, (tableHttpPlatform []).newUrl (js "/sync") base = some ⟨js "/sync", search⟩ := by
    intro base
    refine ⟨[], ?_⟩
    dsimp only [tableHttpPlatform, tablePlatform]
    rw [js_ofList]
    rfl
  have hkey : js "toString" ≠ [] := by
    rw [js_ofList]
    exact List.cons_ne_nil _ _
  have hcontent : inheritedKeyParams.contentType = js "application/json" ++ [] := (List.append_nil _).symm
  have hparse : (tableHttpPlatform []).parseJson requestText =
      some (.object [(js "type", .string (js "sync-request")), (js "frontier", .object [])]) := by
    dsimp only [tableHttpPlatform]
    rw [if_pos rfl]
  obtain ⟨parsed, hprecheck, -⟩ := precheck_emptyRequest oneKeyService 0 hpath hurl rfl hcontent decode_requestBytes hparse
  have hheaders := @validateHeaders_signedRequest requestBytes inheritedKeyParams 0 1000000 1 hkey rfl (by decide) rfl
  have hfresh : oneKeyService.Fresh 1000000 (decimal 1000000) := by
    rw [Fresh, digitsValue_decimal]
    decide
  have hname : js "toString" ∈ PlainObject.inheritedNames := by simp [PlainObject.inheritedNames]
  have hnone : oneKeyService.keys.props.get (js "toString") = none := by
    have hother : js "toString" ≠ js "default" := by
      rw [js_ofList, js_ofList]
      decide
    rw [oneKeyService, PlainObject.get_assign, if_neg fun h => hother h.1]
    rfl
  refine ⟨?_, oneKeyService, _, rfl, hheaders, hfresh, hname, hnone⟩
  rw [hprecheck]
  rfl

theorem not_failsClosed_inheritedKey :
    ¬ FailsClosed (authServer oneKeyService) (tableHttpPlatform []) (fun _ => .ok .null) 1000000 (LruCache.new 1)
      (signedRequest requestBytes inheritedKeyParams 0) := by
  intro h
  exact (outcome_isOk_iff (parsesLocally_table [])).mp h.1 readsInheritedKey_toString

end GitWarp
