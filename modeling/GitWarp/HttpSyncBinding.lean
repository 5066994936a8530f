import GitWarp.HttpSyncGate

/-! What a signature binds. The signed text joins its fields by `|`, which the query of a URL and the rest of a
content type may contain: a part of one request's content type can be read as the timestamp, the nonce and the
content type of another request with a longer query. Nothing else of two accepted requests can differ. -/

namespace GitWarp
open Js JsValue SyncAuthService

/-- The request reaches the graph when it is handled at the time `now` with these nonces reserved. -/
def Accepts (server : HttpSyncServer) (platform : HttpPlatform) (now : Int) (nonces : NonceCache)
    (request : HttpRequest) : Prop :=
  ∃ parsed, (handleRequest server platform (fun _ => .ok .undefined) now nonces request).processed = some parsed

/-- The two requests agree in everything that a signature is meant to bind. -/
structure SameRequest (platform : HttpPlatform) (request other : HttpRequest) : Prop where
  method : request.method = other.method
  path : canonicalizePath platform.toSyncPlatform request.urlOrRoot =
    canonicalizePath platform.toSyncPlatform other.urlOrRoot
  timestamp : request.header "x-warp-timestamp" = other.header "x-warp-timestamp"
  nonce : request.header "x-warp-nonce" = other.header "x-warp-nonce"
  contentType : request.header "content-type" = other.header "content-type"
  body : request.body = other.body

/-- The query of `other` goes on into the timestamp, the nonce and the content type of `request`, whose content
type goes on into those of `other`. -/
def Shifted (platform : HttpPlatform) (request other : HttpRequest) : Prop :=
  ∃ path between, canonicalizePath platform.toSyncPlatform request.urlOrRoot = .ok path ∧
    canonicalizePath platform.toSyncPlatform other.urlOrRoot = .ok (path ++ payloadSeparator ::
      (request.header "x-warp-timestamp" ++ payloadSeparator ::
        (request.header "x-warp-nonce" ++ payloadSeparator :: between))) ∧
    request.header "content-type" = between ++ payloadSeparator ::
      (other.header "x-warp-timestamp" ++ payloadSeparator ::
        (other.header "x-warp-nonce" ++ payloadSeparator :: other.header "content-type"))

/-! ### Accepted fields -/

/-- A field as the checks leave it: the separator is kept out of the timestamp and the nonce, and a content type
begins with no digit. -/
structure AcceptedFields (platform : HttpPlatform) (service : SyncAuthService) (request : HttpRequest) : Prop where
  method : request.method = js "POST"
  timestamp : request.header "x-warp-timestamp" ≠ [] ∧ ∀ c ∈ request.header "x-warp-timestamp", isDigit c = true
  nonce : payloadSeparator ∉ request.header "x-warp-nonce" ∧ (45 : CodeUnit) ∈ request.header "x-warp-nonce"
  contentType : ∀ c ∈ (request.header "content-type").head?, isDigit c = false ∧ c ≠ payloadSeparator
  body : request.body ≠ none
  signed : ∃ secret path, service.keys.props.get (request.header "x-warp-key-id") = some secret ∧
    canonicalizePath platform.toSyncPlatform request.urlOrRoot = .ok path ∧
    hexDecode (request.header "x-warp-signature") = some (platform.hmac secret (buildCanonicalPayload
      ⟨request.header "x-warp-key-id", js "POST", path, request.header "x-warp-timestamp",
        request.header "x-warp-nonce", request.header "content-type", platform.sha256 request.bytes⟩))

theorem isHexDigit_lowerUnit_separator : isHexDigit (lowerUnit payloadSeparator) = false := by decide

theorem isNonce_fields {nonce : JsString} (h : isNonce nonce = true) :
    payloadSeparator ∉ nonce ∧ (45 : CodeUnit) ∈ nonce := by
  have hjoin : [45].intercalate (nonce.splitOn 45) = nonce := List.intercalate_splitOn 45
  unfold isNonce at h
  dsimp only at h
  split at h
  · rename_i a b c d e hparts
    rw [hparts] at hjoin
    simp only [Bool.and_eq_true] at h
    have hclean : ∀ part : JsString, (part.all fun c => isHexDigit (lowerUnit c)) = true → payloadSeparator ∉ part :=
      fun part hhex hmem => by
        have hfalse := List.all_eq_true.mp hhex _ hmem
        rw [isHexDigit_lowerUnit_separator] at hfalse
        cases hfalse
    have ha := hclean a h.1.1.1.1.1.1.1.1.1.1.2
    have hb := hclean b h.1.1.1.1.1.1.1.1.2
    have hc := hclean c h.1.1.1.1.1.1.2
    have hd := hclean d h.1.1.1.2
    have he := hclean e h.2
    have hdash : payloadSeparator ≠ 45 := by decide
    subst hjoin
    simp [List.intercalate, ha, hb, hc, hd, he, hdash]
  · cases h

theorem checkHeaderFormats_ok {timestamp nonce signature : JsString}
    (h : checkHeaderFormats timestamp nonce signature = .ok ()) :
    (timestamp ≠ [] ∧ ∀ c ∈ timestamp, isDigit c = true) ∧ isNonce nonce = true := by
  unfold checkHeaderFormats at h
  split at h
  · cases h
  · rename_i htimestamp
    split at h
    · cases h
    · rename_i hnonce
      rw [not_or, not_or, Bool.not_eq_false, List.all_eq_true] at htimestamp
      exact ⟨⟨htimestamp.1, htimestamp.2.1⟩, Bool.not_eq_false _ ▸ hnonce⟩

theorem isDigit_of_lowerUnit {c : CodeUnit} (h : lowerUnit c = 97) : isDigit c = false ∧ c ≠ payloadSeparator := by
  have hval : c.val = 97 ∨ c.val = 65 := by
    unfold lowerUnit at h
    split at h
    · have hvals := congrArg Fin.val h
      rw [Fin.val_ofNat] at hvals
      have hunit : ((97 : CodeUnit) : Nat) = 97 := rfl
      omega
    · exact .inl (congrArg Fin.val h)
  have hseparator : payloadSeparator.val = 124 := rfl
  constructor
  · simp only [isDigit, Bool.and_eq_false_iff, decide_eq_false_iff_not]
    omega
  · rintro rfl
    omega

theorem checkContentType_ok {request : HttpRequest} (h : checkContentType request = .ok ()) :
    ∀ c ∈ (request.header "content-type").head?, isDigit c = false ∧ c ≠ payloadSeparator := by
  intro c hc
  obtain ⟨rest, hcons⟩ := List.head?_eq_some_iff.mp hc
  unfold checkContentType at h
  dsimp only at h
  split at h
  · cases h
  · rename_i hjson
    rw [not_and, Bool.not_eq_false] at hjson
    have hprefix := hjson (by rw [hcons]; exact List.cons_ne_nil _ _)
    rw [hcons, List.isPrefixOf_iff_prefix] at hprefix
    obtain ⟨tail, htail⟩ := hprefix
    have hhead : (js "application/json" ++ tail).head? = some 97 := by rw [List.head?_append]; rfl
    rw [htail, toLowerCase, List.map_cons, List.head?_cons, Option.some.injEq] at hhead
    exact isDigit_of_lowerUnit hhead

theorem precheck_ok {server : HttpSyncServer} {platform : HttpPlatform} {request : HttpRequest} {parsed : SyncRequest}
    (h : server.precheck platform request = .ok parsed) :
    checkContentType request = .ok () ∧ request.method = js "POST" ∧ parseBody platform request = .ok parsed := by
  unfold HttpSyncServer.precheck at h
  cases hcontent : checkContentType request with
  | error response => simp [hcontent, bind, Except.bind] at h
  | ok _ =>
      cases hroute : validateRoute platform server request with
      | error response => simp [hcontent, hroute, bind, Except.bind] at h
      | ok _ =>
          cases hsize : checkBodySize server request with
          | error response => simp [hcontent, hroute, hsize, bind, Except.bind] at h
          | ok _ =>
              simp only [hcontent, hroute, hsize, bind, Except.bind] at h
              refine ⟨rfl, ?_, h⟩
              unfold validateRoute at hroute
              split at hroute
              · cases hroute
              · split at hroute
                · cases hroute
                · split at hroute
                  · cases hroute
                  · rename_i hmethod
                    exact not_not.mp hmethod

/-- A request without a body is `null`, which is no sync request. -/
theorem body_of_parseBody {platform : HttpPlatform} {request : HttpRequest} {parsed : SyncRequest}
    (h : parseBody platform request = .ok parsed) : request.body ≠ none := by
  intro hnone
  unfold parseBody at h
  rw [hnone] at h
  cases h

theorem acceptedFields_of_accepts {server : HttpSyncServer} {platform : HttpPlatform} {service : SyncAuthService}
    (hauth : server.auth = some service) (hmode : service.mode = .enforce) {now : Int} {nonces : NonceCache}
    {request : HttpRequest} (h : Accepts server platform now nonces request) :
    AcceptedFields platform service request := by
  obtain ⟨parsed, hprocessed⟩ := h
  obtain ⟨hprecheck, nonces', hauthorize⟩ := authorize_of_processed hprocessed
  obtain ⟨hcontent, hmethod, hparse⟩ := precheck_ok hprecheck
  obtain ⟨headers, secret, path, hheaders, hsecret, hpath, hsignature⟩ :=
    (admitted_of_authorize hauth hmode hauthorize).signed
  obtain ⟨-, htimestamp, hnonce, hkeyId, hformats⟩ := validateHeaders_ok hheaders
  obtain ⟨hdigits, huuid⟩ := checkHeaderFormats_ok hformats
  have hpost : toUpperCase (if request.method = [] then js "POST" else request.method) = js "POST" := by
    rw [hmethod]
    decide +kernel
  refine ⟨hmethod, htimestamp ▸ hdigits, hnonce ▸ isNonce_fields huuid, checkContentType_ok hcontent,
    body_of_parseBody hparse, secret, path, hsecret, hpath, ?_⟩
  rw [hsignature, signedParams, hpost, hkeyId, htimestamp, hnonce]

/-! ### Two readings of one signed text -/

theorem not_mem_of_digits {s : JsString} (h : ∀ c ∈ s, isDigit c = true) : payloadSeparator ∉ s :=
  fun hmem => absurd (h _ hmem) (by decide)

/-- The fields behind the path, where the path of the other request is longer. -/
theorem shift_of_longer {timestamp nonce contentType digest timestamp' nonce' contentType' digest' more : JsString}
    (htimestamp : ∀ c ∈ timestamp, isDigit c = true)
    (hnonce : payloadSeparator ∉ nonce ∧ (45 : CodeUnit) ∈ nonce)
    (hcontent : ∀ c ∈ contentType.head?, isDigit c = false ∧ c ≠ payloadSeparator)
    (hdigest : payloadSeparator ∉ digest) (hdigest' : payloadSeparator ∉ digest')
    (htimestamp' : timestamp' ≠ [] ∧ ∀ c ∈ timestamp', isDigit c = true)
    (h : timestamp ++ payloadSeparator :: (nonce ++ payloadSeparator :: (contentType ++ payloadSeparator :: digest)) =
      more ++ payloadSeparator :: (timestamp' ++ payloadSeparator :: (nonce' ++ payloadSeparator ::
        (contentType' ++ payloadSeparator :: digest')))) :
    ∃ between, more = timestamp ++ payloadSeparator :: (nonce ++ payloadSeparator :: between) ∧
      contentType = between ++ payloadSeparator :: (timestamp' ++ payloadSeparator :: (nonce' ++
        payloadSeparator :: contentType')) := by
  rcases field_cases (not_mem_of_digits htimestamp) h with ⟨rfl, hrest⟩ | ⟨more, rfl, hrest⟩
  · -- the nonce would be a timestamp
    have heq := (field_inj (not_mem_of_digits htimestamp'.2) hnonce.1 hrest).1
    exact absurd (htimestamp'.2 45 (heq ▸ hnonce.2)) (by decide)
  · rcases field_cases hnonce.1 hrest with ⟨rfl, hbehind⟩ | ⟨between, rfl, hbehind⟩
    · -- the content type would begin with the timestamp
      obtain ⟨digit, digits, rfl⟩ := List.exists_cons_of_ne_nil htimestamp'.1
      have hdigit := htimestamp'.2 digit List.mem_cons_self
      cases contentType with
      | nil =>
          rw [List.nil_append, List.cons_append, List.cons.injEq] at hbehind
          rw [hbehind.1] at hdigit
          exact absurd hdigit (by decide)
      | cons c contentType =>
          rw [List.cons_append, List.cons_append, List.cons.injEq] at hbehind
          rw [hbehind.1, (hcontent c rfl).1] at hdigit
          cases hdigit
    · have hlast : contentType ++ payloadSeparator :: digest =
          (between ++ payloadSeparator :: (timestamp' ++ payloadSeparator :: (nonce' ++ payloadSeparator ::
            contentType'))) ++ payloadSeparator :: digest' := by
        simpa using hbehind
      exact ⟨between, rfl, (lastField_inj hdigest hdigest' hlast).1⟩

theorem body_eq_of_bytes {request other : HttpRequest} (h : request.body ≠ none) (h' : other.body ≠ none)
    (hbytes : request.bytes = other.bytes) : request.body = other.body := by
  obtain ⟨body, hbody⟩ := Option.ne_none_iff_exists'.mp h
  obtain ⟨body', hbody'⟩ := Option.ne_none_iff_exists'.mp h'
  rw [HttpRequest.bytes, HttpRequest.bytes, hbody, hbody'] at hbytes
  rw [hbody, hbody']
  exact congrArg some hbytes

/-- With the path of `other` at least as long, the signed texts agree only for one request or a shifted one. -/
theorem same_or_shifted {platform : HttpPlatform} {service : SyncAuthService} {request other : HttpRequest}
    (hhash : Function.Injective platform.sha256) (hdigest : ∀ data, payloadSeparator ∉ platform.sha256 data)
    (hfields : AcceptedFields platform service request) (hfields' : AcceptedFields platform service other)
    {path more : JsString} (hpath : canonicalizePath platform.toSyncPlatform request.urlOrRoot = .ok path)
    (hpath' : canonicalizePath platform.toSyncPlatform other.urlOrRoot = .ok (path ++ more))
    (h : payloadSeparator :: (request.header "x-warp-timestamp" ++ payloadSeparator ::
        (request.header "x-warp-nonce" ++ payloadSeparator :: (request.header "content-type" ++
          payloadSeparator :: platform.sha256 request.bytes))) =
      more ++ payloadSeparator :: (other.header "x-warp-timestamp" ++ payloadSeparator ::
        (other.header "x-warp-nonce" ++ payloadSeparator :: (other.header "content-type" ++
          payloadSeparator :: platform.sha256 other.bytes)))) :
    SameRequest platform request other ∨ Shifted platform request other := by
  cases more with
  | nil =>
      rw [List.nil_append, List.cons.injEq] at h
      obtain ⟨htimestamp, hrest⟩ := field_inj (not_mem_of_digits hfields.timestamp.2)
        (not_mem_of_digits hfields'.timestamp.2) h.2
      obtain ⟨hnonce, hrest⟩ := field_inj hfields.nonce.1 hfields'.nonce.1 hrest
      obtain ⟨hcontent, hbody⟩ := lastField_inj (hdigest _) (hdigest _) hrest
      rw [List.append_nil] at hpath'
      exact .inl ⟨hfields.method.trans hfields'.method.symm, hpath.trans hpath'.symm, htimestamp, hnonce, hcontent,
        body_eq_of_bytes hfields.body hfields'.body (hhash hbody)⟩
  | cons c more =>
      rw [List.cons_append, List.cons.injEq] at h
      obtain ⟨rfl, h⟩ := h
      obtain ⟨between, rfl, hcontent⟩ := shift_of_longer hfields.timestamp.2 hfields.nonce hfields.contentType
        (hdigest _) (hdigest _) hfields'.timestamp h
      exact .inr ⟨path, between, hpath, hpath', hcontent⟩

theorem not_shifted_of_same {platform : HttpPlatform} {request other : HttpRequest}
    (h : SameRequest platform request other) : ¬ Shifted platform request other := by
  rintro ⟨path, between, hpath, hpath', -⟩
  have heq := h.path
  rw [hpath, hpath', Except.ok.injEq] at heq
  have hlength := congrArg List.length heq
  rw [List.length_append, List.length_cons] at hlength
  omega

theorem SameRequest.symm {platform : HttpPlatform} {request other : HttpRequest}
    (h : SameRequest platform request other) : SameRequest platform other request :=
  ⟨h.method.symm, h.path.symm, h.timestamp.symm, h.nonce.symm, h.contentType.symm, h.body.symm⟩

/-- Two accepted requests with one key id and one signature are one request, unless one is the other shifted. -/
theorem sameRequest_iff {server : HttpSyncServer} {platform : HttpPlatform} {service : SyncAuthService}
    (hauth : server.auth = some service) (hmode : service.mode = .enforce)
    (hhash : Function.Injective platform.sha256) (hdigest : ∀ data, payloadSeparator ∉ platform.sha256 data)
    (hhmac : ∀ secret, Function.Injective (platform.hmac secret))
    {now now' : Int} {nonces nonces' : NonceCache} {request other : HttpRequest}
    (haccepts : Accepts server platform now nonces request) (haccepts' : Accepts server platform now' nonces' other)
    (hkey : request.header "x-warp-key-id" = other.header "x-warp-key-id")
    (hsignature : request.header "x-warp-signature" = other.header "x-warp-signature") :
    SameRequest platform request other ↔ ¬ Shifted platform request other ∧ ¬ Shifted platform other request := by
  constructor
  · exact fun hsame => ⟨not_shifted_of_same hsame, not_shifted_of_same hsame.symm⟩
  · rintro ⟨hshift, hshift'⟩
    have hfields := acceptedFields_of_accepts hauth hmode haccepts
    have hfields' := acceptedFields_of_accepts hauth hmode haccepts'
    obtain ⟨secret, path, hsecret, hpath, hsigned⟩ := hfields.signed
    obtain ⟨secret', path', hsecret', hpath', hsigned'⟩ := hfields'.signed
    rw [hkey, hsecret', Option.some.injEq] at hsecret
    subst hsecret
    rw [hsignature, hsigned', Option.some.injEq] at hsigned
    have hpayload := hhmac _ hsigned
    rw [hkey] at hpayload
    simp only [buildCanonicalPayload, List.append_cancel_left_eq, List.cons.injEq, true_and] at hpayload
    rcases List.append_eq_append_iff.mp hpayload with ⟨more, rfl, hrest⟩ | ⟨more, rfl, hrest⟩
    · rcases same_or_shifted hhash hdigest hfields' hfields hpath' hpath hrest with hsame | hbad
      · exact hsame.symm
      · exact absurd hbad hshift'
    · rcases same_or_shifted hhash hdigest hfields hfields' hpath hpath' hrest with hsame | hbad
      · exact hsame
      · exact absurd hbad hshift

/-! ### A shifted request -/

/-- For all platforms with injective digests and signatures, whatever is accepted in enforce mode. -/
def BindsRequest : Prop :=
  ∀ (server : HttpSyncServer) (platform : HttpPlatform) (service : SyncAuthService), server.auth = some service →
    service.mode = .enforce → Function.Injective platform.sha256 →
    (∀ data, payloadSeparator ∉ platform.sha256 data) → (∀ secret, Function.Injective (platform.hmac secret)) →
    ∀ now now' nonces nonces' request other, Accepts server platform now nonces request →
      Accepts server platform now' nonces' other →
      request.header "x-warp-key-id" = other.header "x-warp-key-id" →
      request.header "x-warp-signature" = other.header "x-warp-signature" → SameRequest platform request other

def unitBytes (c : CodeUnit) : List UInt8 := [UInt8.ofNat (c.val / 256), UInt8.ofNat (c.val % 256)]

theorem flatMap_unitBytes_injective : Function.Injective fun text : JsString => text.flatMap unitBytes := by
  intro text
  induction text with
  | nil =>
      intro other h
      cases other with
      | nil => rfl
      | cons c other => simp [unitBytes] at h
  | cons c text ih =>
      intro other h
      cases other with
      | nil => simp [unitBytes] at h
      | cons c' other =>
          simp only [List.flatMap_cons, unitBytes, List.cons_append, List.nil_append, List.cons.injEq] at h
          have hhigh := congrArg UInt8.toNat h.1
          have hlow := congrArg UInt8.toNat h.2.1
          simp only [UInt8.toNat_ofNat'] at hhigh hlow
          have hc := c.isLt
          have hc' := c'.isLt
          rw [ih h.2.2, Fin.ext (show c.val = c'.val by omega)]

def unusualBytes (data : List UInt8) : JsString :=
  List.replicate 65 48 ++ data.map fun byte => Fin.ofNat 65536 (256 + byte.toNat)

def unusualText (text : JsString) : List UInt8 := List.replicate 33 0 ++ text.flatMap unitBytes

theorem unusualBytes_injective : Function.Injective unusualBytes := by
  intro data data' h
  refine List.map_injective_iff.mpr (fun byte byte' hbyte => ?_) (List.append_cancel_left h)
  have hvals := congrArg Fin.val hbyte
  simp only [Fin.val_ofNat] at hvals
  have hlt := byte.toNat_lt
  have hlt' := byte'.toNat_lt
  exact UInt8.toNat_inj.mp (by omega)

theorem separator_not_mem_unusualBytes (data : List UInt8) : payloadSeparator ∉ unusualBytes data := by
  intro hmem
  rcases List.mem_append.mp hmem with hzero | hbyte
  · exact absurd (List.eq_of_mem_replicate hzero) (by decide)
  · obtain ⟨byte, -, hbyte⟩ := List.mem_map.mp hbyte
    have hvals := congrArg Fin.val hbyte
    have hseparator : payloadSeparator.val = 124 := rfl
    rw [Fin.val_ofNat, hseparator] at hvals
    have hlt := byte.toNat_lt
    omega

def shiftedPath : JsString := js "/sync?a"

def shiftedContentType : JsString :=
  js "application/json" ++ payloadSeparator :: (decimal 1000001 ++ payloadSeparator ::
    (uuidText 2 ++ payloadSeparator :: js "application/json"))

def longerPath : JsString :=
  shiftedPath ++ payloadSeparator :: (decimal 1000000 ++ payloadSeparator ::
    (uuidText 1 ++ payloadSeparator :: js "application/json"))

def shiftedParams : PayloadParams := emptyRequestParams (js "default") shiftedPath 1000000 1 shiftedContentType

def longerParams : PayloadParams :=
  emptyRequestParams (js "default") longerPath 1000001 2 (js "application/json")

def shiftedSignature : Nat := 0xf383eac615e39e11a0ad37ac6365da815f10e66f52b5f5074cacb9d415f8a4be

/-- The platform of `tableHttpPlatform`, with digests and signatures that are injective. -/
def injectivePlatform : HttpPlatform :=
  { tableHttpPlatform [] with
    sha256 := withValue unusualBytes requestBytes requestDigest
    hmac := fun _ =>
      withValue unusualText (buildCanonicalPayload shiftedParams) ((hexDecode (hexText 64 shiftedSignature)).getD []) }

theorem injective_sha256 : Function.Injective injectivePlatform.sha256 :=
  withValue_injective unusualBytes_injective fun data hdata => by
    have hlength := congrArg List.length hdata
    have hdigest : requestDigest.length = 64 := rfl
    rw [unusualBytes, List.length_append, List.length_replicate, hdigest] at hlength
    omega

theorem separator_not_mem_sha256 (data : List UInt8) : payloadSeparator ∉ injectivePlatform.sha256 data := by
  change payloadSeparator ∉ withValue unusualBytes requestBytes requestDigest data
  unfold withValue
  split
  · decide +kernel
  · exact separator_not_mem_unusualBytes data

theorem injective_hmac (secret : JsString) : Function.Injective (injectivePlatform.hmac secret) :=
  withValue_injective (fun text text' h => flatMap_unitBytes_injective (List.append_cancel_left h)) fun text htext => by
    have hlength := congrArg List.length htext
    have hsignature : ((hexDecode (hexText 64 shiftedSignature)).getD []).length = 32 := rfl
    rw [unusualText, List.length_append, List.length_replicate, hsignature] at hlength
    omega

def shiftedRequest : HttpRequest := signedRequest requestBytes shiftedParams shiftedSignature

def longerRequest : HttpRequest := signedRequest requestBytes longerParams shiftedSignature

theorem verify_of_begin {service : SyncAuthService} {platform : SyncPlatform} {now : Int} {nonces : NonceCache}
    {request : HttpRequest} {call : Pending} (h : service.begin now request = .ok call) :
    service.verify platform now nonces request = finish platform nonces call := by
  unfold SyncAuthService.verify
  rw [h]

theorem accepts_of_verify {server : HttpSyncServer} {platform : HttpPlatform} {service : SyncAuthService} {now : Int}
    {nonces nonces' : NonceCache} {request : HttpRequest} {parsed : SyncRequest} (hauth : server.auth = some service)
    (hprecheck : server.precheck platform request = .ok parsed)
    (hverify : service.verify platform.toSyncPlatform now nonces request = .ok (.ok (), nonces'))
    (hwriters : parsed.frontier.props.keys = []) : Accepts server platform now nonces request := by
  have hauthorize : authorize server platform now nonces request parsed = .ok (.ok (), nonces') := by
    unfold authorize
    rw [hauth]
    dsimp only
    rw [hverify]
    change Except.ok (authorizeWriters service parsed, nonces') = _
    rw [authorizeWriters, if_pos hwriters]
  refine ⟨parsed, ?_⟩
  unfold handleRequest
  rw [hprecheck]
  dsimp only
  rw [hauthorize]

theorem signs_injectivePlatform {params : PayloadParams} (hmethod : params.method = js "POST")
    (hpath : params.path ≠ []) (hdigest : params.bodySha256 = requestDigest)
    (hpayload : buildCanonicalPayload params = buildCanonicalPayload shiftedParams) :
    Signs requestBytes params shiftedSignature injectivePlatform.toSyncPlatform (js "test-secret") where
  method := hmethod
  path := by
    have hurl : (signedRequest requestBytes params shiftedSignature).urlOrRoot = params.path := if_neg hpath
    rw [hurl]
    exact congrArg Except.ok List.takeWhile_append_dropWhile
  digest := by
    dsimp only [injectivePlatform]
    rw [hdigest, withValue_self]
  hmac := by
    rw [hexDecode_hexText, hpayload]
    dsimp only [injectivePlatform]
    rw [withValue_self]

/-- A request whose signed text is that of `shiftedParams` is accepted at the time of its own timestamp. -/
theorem accepts_signedRequest {params : PayloadParams} {timestamp nonce : Nat} {rest : JsString}
    (hkey : params.keyId = js "default") (hmethod : params.method = js "POST") (hpath : params.path ≠ [])
    (hurl : ∀ base, ∃ search, injectivePlatform.newUrl params.path base = some ⟨js "/sync", search⟩)
    (htimestamp : params.timestamp = decimal timestamp) (hbound : timestamp < 10 ^ 16)
    (hnonce : params.nonce = uuidText nonce) (hcontent : params.contentType = js "application/json" ++ rest)
    (hdigest : params.bodySha256 = requestDigest)
    (hpayload : buildCanonicalPayload params = buildCanonicalPayload shiftedParams) :
    Accepts (authServer oneKeyService) injectivePlatform timestamp (LruCache.new 1)
      (signedRequest requestBytes params shiftedSignature) := by
  have hkey' : params.keyId ≠ [] := by
    rw [hkey, js_ofList]
    exact List.cons_ne_nil _ _
  have hfresh : |(timestamp : Int) - timestamp| ≤ oneKeyService.maxClockSkewMs := by
    rw [sub_self, abs_zero]
    decide
  have hsecret : oneKeyService.resolveKey params.keyId = .ok (.own (js "test-secret")) := by
    rw [hkey]
    exact resolveKey_oneKeyService
  have hbegin := @begin_signedRequest requestBytes params shiftedSignature _ _ _ _ _ hkey' htimestamp hbound hnonce
    hfresh hsecret
  have hfinish := finish_signedCall (signs_injectivePlatform hmethod hpath hdigest hpayload) (LruCache.new 1)
  have hdecode' : ∀ bytes, injectivePlatform.decodeText bytes = bytes.map fun byte => Fin.ofNat 65536 byte.toNat :=
    fun _ => rfl
  have hdecode := (hdecode' requestBytes).trans decode_requestBytes
  have hparse : injectivePlatform.parseJson requestText =
      some (.object [(js "type", .string (js "sync-request")), (js "frontier", .object [])]) := by
    dsimp only [injectivePlatform, tableHttpPlatform]
    rw [if_pos rfl]
  obtain ⟨parsed, hprecheck, hkeys⟩ :=
    precheck_emptyRequest oneKeyService shiftedSignature hpath hurl hmethod hcontent hdecode hparse
  have hverify : oneKeyService.verify injectivePlatform.toSyncPlatform timestamp (LruCache.new 1)
      (signedRequest requestBytes params shiftedSignature) =
        .ok (.ok (), (LruCache.new 1).set params.nonce true) := by
    have hnew : (LruCache.new 1 : NonceCache).has params.nonce = false := rfl
    rw [verify_of_begin hbegin, hfinish, reserveNonce, hnew, if_neg Bool.false_ne_true]
  exact accepts_of_verify rfl hprecheck hverify hkeys

theorem buildCanonicalPayload_longerParams :
    buildCanonicalPayload longerParams = buildCanonicalPayload shiftedParams := by
  simp only [buildCanonicalPayload, longerParams, shiftedParams, emptyRequestParams, longerPath, shiftedContentType,
    List.append_assoc, List.cons_append]

theorem newUrl_shiftedPath (rest base : JsString) :
    ∃ search, injectivePlatform.newUrl (shiftedPath ++ rest) base = some ⟨js "/sync", search⟩ := by
  refine ⟨(shiftedPath ++ rest).dropWhile fun c => c ≠ 63, ?_⟩
  dsimp only [injectivePlatform, tableHttpPlatform, tablePlatform]
  rw [shiftedPath, js_ofList, js_ofList]
  rfl

theorem shiftedPath_append_ne_nil (rest : JsString) : shiftedPath ++ rest ≠ [] := by
  rw [shiftedPath, js_ofList]
  exact List.append_ne_nil_of_left_ne_nil (List.cons_ne_nil _ _) _

theorem accepts_shiftedRequest :
    Accepts (authServer oneKeyService) injectivePlatform 1000000 (LruCache.new 1) shiftedRequest := by
  have hpath : shiftedParams.path = shiftedPath ++ [] := (List.append_nil _).symm
  refine @accepts_signedRequest shiftedParams 1000000 1 _ rfl rfl ?_ ?_ rfl (by decide) rfl rfl rfl rfl
  · rw [hpath]
    exact shiftedPath_append_ne_nil []
  · rw [hpath]
    exact newUrl_shiftedPath []

theorem accepts_longerRequest :
    Accepts (authServer oneKeyService) injectivePlatform 1000001 (LruCache.new 1) longerRequest := by
  have hcontent : longerParams.contentType = js "application/json" ++ [] := (List.append_nil _).symm
  exact accepts_signedRequest rfl rfl (shiftedPath_append_ne_nil _) (newUrl_shiftedPath _) rfl (by decide) rfl hcontent
    rfl buildCanonicalPayload_longerParams

theorem sameHeaders : shiftedRequest.header "x-warp-key-id" = longerRequest.header "x-warp-key-id" ∧
    shiftedRequest.header "x-warp-signature" = longerRequest.header "x-warp-signature" := by
  obtain ⟨⟨-, hkeyId⟩, -, hsignature, -⟩ := header_signedRequest requestBytes shiftedParams shiftedSignature
  obtain ⟨⟨-, hkeyId'⟩, -, hsignature', -⟩ := header_signedRequest requestBytes longerParams shiftedSignature
  exact ⟨hkeyId.trans hkeyId'.symm, hsignature.trans hsignature'.symm⟩

theorem sameRequest_iff_shiftedRequest :
    SameRequest injectivePlatform shiftedRequest longerRequest ↔
      ¬ Shifted injectivePlatform shiftedRequest longerRequest ∧
        ¬ Shifted injectivePlatform longerRequest shiftedRequest :=
  sameRequest_iff rfl rfl injective_sha256 separator_not_mem_sha256 injective_hmac
    accepts_shiftedRequest accepts_longerRequest sameHeaders.1 sameHeaders.2

theorem not_bindsRequest : ¬ BindsRequest := by
  intro h
  have hsame := h (authServer oneKeyService) injectivePlatform oneKeyService rfl rfl injective_sha256
    separator_not_mem_sha256 injective_hmac 1000000 1000001 (LruCache.new 1) (LruCache.new 1) shiftedRequest longerRequest
    accepts_shiftedRequest accepts_longerRequest sameHeaders.1 sameHeaders.2
  obtain ⟨-, ⟨htimestamp, -⟩, -⟩ := header_signedRequest requestBytes shiftedParams shiftedSignature
  obtain ⟨-, ⟨htimestamp', -⟩, -⟩ := header_signedRequest requestBytes longerParams shiftedSignature
  have hdecimal : decimal 1000000 = decimal 1000001 := (htimestamp.symm.trans hsame.timestamp).trans htimestamp'
  exact absurd (decimal_injective hdecimal) (by decide)

end GitWarp
