import GitWarp.LibraryLists
import GitWarp.LibraryRuns
import GitWarp.SyncAuth

/-! Concurrent calls of `verify` on one service. The cache holds the nonces accepted last, so a nonce that it has
forgotten was followed by as many others as it holds; a call whose timestamp has not expired when its nonce is
reserved leaves no room for that many. A call that the crypto port keeps waiting until then has no such bound. -/

namespace GitWarp
open Js Runs SyncAuthService

/-- A call of `verify` that returned `{ ok: true }`. -/
structure AcceptedCall where
  request : HttpRequest
  headers : AuthHeaders
  time : Int

structure AuthState where
  clock : Int
  nonces : NonceCache
  /-- The calls that wait for the crypto port. -/
  calls : List Pending
  accepted : List AcceptedCall

def AuthState.initial (capacity : Nat) (clock : Int) : AuthState := ⟨clock, LruCache.new capacity, [], []⟩

inductive AuthAction where
  | call (now : Int) (request : HttpRequest)
  | answered (now : Int) (place : Nat)

def AuthAction.now : AuthAction → Int
  | .call now _ => now
  | .answered now _ => now

namespace AuthState

variable {service : SyncAuthService} {platform : SyncPlatform}

def called (service : SyncAuthService) (state : AuthState) (now : Int) (request : HttpRequest) : AuthState :=
  match service.begin now request with
  | .error _ => { state with clock := now }
  | .ok call => { state with clock := now, calls := state.calls ++ [call] }

/-- The call leaves the list of calls whether it returns or throws. -/
def answered (platform : SyncPlatform) (state : AuthState) (now : Int) (place : Nat) (call : Pending) : AuthState :=
  let waiting := { state with clock := now, calls := state.calls.eraseIdx place }
  match finish platform state.nonces call with
  | .error _ => waiting
  | .ok (.error _, nonces) => { waiting with nonces := nonces }
  | .ok (.ok (), nonces) =>
      { waiting with nonces := nonces, accepted := state.accepted ++ [⟨call.request, call.headers, now⟩] }

/-- Any waiting call can be answered next; the clock does not run backwards. -/
def step (service : SyncAuthService) (platform : SyncPlatform) (state : AuthState) (action : AuthAction) :
    Option AuthState :=
  if action.now < state.clock then none
  else
    match action with
    | .call now request => some (state.called service now request)
    | .answered now place => state.calls[place]?.map (state.answered platform now place)

end AuthState

/-- At most `capacity` calls are accepted within any `window` of time. -/
def WithinCapacity (capacity : Nat) (window : Int) (accepted : List AcceptedCall) : Prop :=
  ∀ since, (accepted.filter fun call => since ≤ call.time ∧ call.time ≤ since + window).length ≤ capacity

/-- No two accepted calls carry the same nonce with the same timestamp. -/
def NoReplay (accepted : List AcceptedCall) : Prop :=
  accepted.Pairwise fun call later =>
    ¬ (call.headers.nonce = later.headers.nonce ∧ call.headers.timestamp = later.headers.timestamp)

instance (accepted : List AcceptedCall) : Decidable (NoReplay accepted) :=
  inferInstanceAs (Decidable (accepted.Pairwise _))

/-- No run of concurrent calls accepts a request twice. -/
def AcceptsOnce (service : SyncAuthService) (platform : SyncPlatform) (capacity : Nat) (clock : Int)
    (actions : List AuthAction) : Prop :=
  ∀ last, run (AuthState.step service platform) (.initial capacity clock) actions = some last →
    WithinCapacity capacity (2 * service.maxClockSkewMs) last.accepted → NoReplay last.accepted

/-- The crypto port answers before the timestamp of the call has expired. -/
def AnsweredInTime (service : SyncAuthService) (state : AuthState) : AuthAction → Prop
  | .call _ _ => True
  | .answered now place =>
      ∀ call ∈ state.calls[place]?, now ≤ digitsValue call.headers.timestamp + service.maxClockSkewMs

instance (service : SyncAuthService) (state : AuthState) :
    ∀ action, Decidable (AnsweredInTime service state action)
  | .call _ _ => isTrue trivial
  | .answered _ place => inferInstanceAs (Decidable (∀ call ∈ state.calls[place]?, _))

theorem validateHeaders_ok {request : HttpRequest} {headers : AuthHeaders} (h : validateHeaders request = .ok headers) :
    headers.signature = request.header "x-warp-signature" ∧ headers.timestamp = request.header "x-warp-timestamp" ∧
      headers.nonce = request.header "x-warp-nonce" ∧ headers.keyId = request.header "x-warp-key-id" ∧
      checkHeaderFormats headers.timestamp headers.nonce headers.signature = .ok () := by
  unfold validateHeaders at h
  split at h
  · cases h
  · dsimp only at h
    split at h
    · cases h
    · split at h
      · cases h
      · rename_i hformats
        cases h
        exact ⟨rfl, rfl, rfl, rfl, hformats⟩

namespace SyncAuthService

variable {service : SyncAuthService} {platform : SyncPlatform}

theorem begin_eq_ok_iff {now : Int} {request : HttpRequest} {call : Pending} :
    service.begin now request = .ok call ↔
      validateHeaders request = .ok call.headers ∧ service.Fresh now call.headers.timestamp ∧
        service.resolveKey call.headers.keyId = .ok call.secret ∧ call.request = request := by
  obtain ⟨callRequest, callHeaders, callSecret⟩ := call
  unfold begin
  cases hheaders : validateHeaders request with
  | error failure => simp [bind, Except.bind]
  | ok headers =>
      by_cases hfresh : service.Fresh now headers.timestamp
      · cases hkey : service.resolveKey headers.keyId with
        | error failure =>
            simp only [bind, Except.bind, validateFreshness, hfresh, hkey, if_true, reduceCtorEq, Except.ok.injEq,
              false_iff]
            rintro ⟨rfl, -, hsecret, -⟩
            rw [hkey] at hsecret
            cases hsecret
        | ok secret =>
            simp only [bind, Except.bind, pure, Except.pure, validateFreshness, hfresh, hkey, if_true,
              Except.ok.injEq, Pending.mk.injEq]
            constructor
            · rintro ⟨rfl, rfl, rfl⟩
              exact ⟨rfl, hfresh, hkey, rfl⟩
            · rintro ⟨rfl, -, hsecret, rfl⟩
              rw [hkey, Except.ok.injEq] at hsecret
              exact ⟨rfl, rfl, hsecret⟩
      · simp only [bind, Except.bind, validateFreshness, hfresh, if_false, reduceCtorEq, Except.ok.injEq, false_iff]
        rintro ⟨rfl, hfresh', -⟩
        exact hfresh hfresh'

/-- An accepted call has reserved a nonce that the cache did not hold. -/
theorem finish_ok {nonces nonces' : NonceCache} {call : Pending}
    (h : finish platform nonces call = .ok (.ok (), nonces')) :
    verifySignature platform call.request call.headers call.secret = .ok (.ok ()) ∧
      nonces.has call.headers.nonce = false ∧ nonces' = nonces.set call.headers.nonce true := by
  unfold finish at h
  cases hsig : verifySignature platform call.request call.headers call.secret with
  | error err =>
      rw [hsig] at h
      cases h
  | ok result =>
      rw [hsig] at h
      cases result with
      | error failure => cases h
      | ok _ =>
          simp only [bind, Except.bind, pure, Except.pure, reserveNonce] at h
          split at h
          · cases h
          · rename_i hnew
            cases h
            exact ⟨rfl, Bool.eq_false_iff.mpr hnew, rfl⟩

/-- A refused call leaves the cache as it was. -/
theorem finish_error {nonces nonces' : NonceCache} {call : Pending} {failure : AuthFailure}
    (h : finish platform nonces call = .ok (.error failure, nonces')) : nonces' = nonces := by
  unfold finish at h
  cases hsig : verifySignature platform call.request call.headers call.secret with
  | error err =>
      rw [hsig] at h
      cases h
  | ok result =>
      rw [hsig] at h
      cases result with
      | error failure =>
          cases h
          rfl
      | ok _ =>
          simp only [bind, Except.bind, pure, Except.pure, reserveNonce] at h
          split at h
          · cases h
            rfl
          · cases h

end SyncAuthService

namespace AuthState

variable {service : SyncAuthService} {platform : SyncPlatform}

/-- What an action can do: only the clock advances, a fresh call begins, a call ends without being accepted, or
a call is accepted and reserves its nonce. -/
theorem step_cases {state state' : AuthState} {action : AuthAction} (h : step service platform state action = some state') :
    state.clock ≤ action.now ∧ state'.clock = action.now ∧
      ((state'.calls.Subset state.calls ∧ state'.nonces = state.nonces ∧ state'.accepted = state.accepted) ∨
      (∃ now request call, action = .call now request ∧ service.begin now request = .ok call ∧
        state'.calls = state.calls ++ [call] ∧ state'.nonces = state.nonces ∧ state'.accepted = state.accepted) ∨
      (∃ now place call, action = .answered now place ∧ state.calls[place]? = some call ∧
        state'.calls.Subset state.calls ∧ state.nonces.has call.headers.nonce = false ∧
        state'.nonces = state.nonces.set call.headers.nonce true ∧
        state'.accepted = state.accepted ++ [⟨call.request, call.headers, now⟩])) := by
  unfold step at h
  split at h
  · cases h
  · rename_i hclock
    cases action with
    | call now request =>
        cases h
        refine ⟨not_lt.mp hclock, ?_⟩
        unfold called
        cases hbegin : service.begin now request with
        | error failure => exact ⟨rfl, .inl ⟨List.Subset.refl _, rfl, rfl⟩⟩
        | ok call => exact ⟨rfl, .inr (.inl ⟨now, request, call, rfl, hbegin, rfl, rfl, rfl⟩)⟩
    | answered now place =>
        obtain ⟨call, hcall, rfl⟩ := Option.map_eq_some_iff.mp h
        have hrest : (state.calls.eraseIdx place).Subset state.calls := List.eraseIdx_subset
        refine ⟨not_lt.mp hclock, ?_⟩
        unfold answered
        cases hfinish : finish platform state.nonces call with
        | error err => exact ⟨rfl, .inl ⟨hrest, rfl, rfl⟩⟩
        | ok result =>
            obtain ⟨outcome, nonces⟩ := result
            cases outcome with
            | error failure => exact ⟨rfl, .inl ⟨hrest, finish_error hfinish, rfl⟩⟩
            | ok _ =>
                obtain ⟨-, hnew, hnonces⟩ := finish_ok hfinish
                exact ⟨rfl, .inr (.inr ⟨now, place, call, rfl, hcall, hrest, hnew, hnonces, rfl⟩)⟩

/-- The cache holds the nonces accepted last, and no timestamp lies further ahead than the skew allows. -/
structure Inv (service : SyncAuthService) (capacity : Nat) (state : AuthState) : Prop where
  maxSize : state.nonces.maxSize = capacity
  holds : state.nonces.HoldsLast (state.accepted.map fun call => call.headers.nonce)
  early : ∀ call ∈ state.calls, digitsValue call.headers.timestamp - service.maxClockSkewMs ≤ state.clock
  times : state.accepted.Pairwise fun call later => call.time ≤ later.time
  past : ∀ call ∈ state.accepted, call.time ≤ state.clock
  acceptedEarly : ∀ call ∈ state.accepted, digitsValue call.headers.timestamp - service.maxClockSkewMs ≤ call.time
  noReplay : WithinCapacity capacity (2 * service.maxClockSkewMs) state.accepted → NoReplay state.accepted

theorem inv_initial (service : SyncAuthService) (capacity : Nat) (clock : Int) :
    (initial capacity clock).Inv service capacity where
  maxSize := rfl
  holds := LruCache.holdsLast_new capacity
  early := nofun
  times := List.Pairwise.nil
  past := nofun
  acceptedEarly := nofun
  noReplay := fun _ => List.Pairwise.nil

end AuthState

theorem WithinCapacity.of_append {capacity : Nat} {window : Int} {accepted later : List AcceptedCall}
    (h : WithinCapacity capacity window (accepted ++ later)) : WithinCapacity capacity window accepted := by
  intro since
  have hall := h since
  rw [List.filter_append, List.length_append] at hall
  omega

/-- A window that reaches from one call of the list to the last holds all calls between. -/
theorem length_le_of_withinCapacity {capacity : Nat} {window : Int} {before after : List AcceptedCall}
    {call : AcceptedCall} (h : WithinCapacity capacity window (before ++ call :: after))
    (hbetween : ∀ other ∈ call :: after, call.time ≤ other.time ∧ other.time ≤ call.time + window) :
    after.length + 1 ≤ capacity := by
  have hcount := h call.time
  have hkept : (call :: after).filter
      (fun other => decide (call.time ≤ other.time ∧ other.time ≤ call.time + window)) = call :: after :=
    List.filter_eq_self.mpr fun other hother => decide_eq_true (hbetween other hother)
  rw [List.filter_append, hkept, List.length_append, List.length_cons] at hcount
  omega

namespace AuthState

variable {service : SyncAuthService} {platform : SyncPlatform} {capacity : Nat}

/-- A nonce that the cache has forgotten was followed by as many accepted calls as the cache holds. -/
theorem Inv.exists_forgotten {state : AuthState} (hinv : state.Inv service capacity) {call : AcceptedCall}
    (hcall : call ∈ state.accepted) (hforgotten : state.nonces.has call.headers.nonce = false) :
    ∃ before after, state.accepted = before ++ call :: after ∧ capacity ≤ after.length := by
  obtain ⟨place, hplace⟩ := List.mem_iff_getElem?.mp hcall
  obtain ⟨before, after, hsplit, -⟩ := Lists.exists_split hplace
  refine ⟨before, after, hsplit, ?_⟩
  by_contra hfew
  have hmem : call.headers.nonce ∈ state.nonces.cache.keys := by
    rw [hinv.holds, hinv.maxSize, hsplit, List.map_append, List.map_cons, List.length_append, List.length_map,
      List.length_cons, List.length_map, List.drop_append, List.mem_append]
    have hcut : before.length + (after.length + 1) - capacity - (before.map fun c => c.headers.nonce).length = 0 := by
      rw [List.length_map]
      omega
    exact .inr (by rw [hcut]; exact List.mem_cons_self)
  rw [← LruCache.has_iff, hforgotten] at hmem
  cases hmem

/-- The calls accepted after one with the same timestamp are in time when this one is. -/
theorem Inv.not_replayed {state : AuthState} (hinv : state.Inv service capacity) {request : HttpRequest}
    {headers : AuthHeaders} {now : Int} (hnow : state.clock ≤ now)
    (htime : now ≤ digitsValue headers.timestamp + service.maxClockSkewMs)
    (hnew : state.nonces.has headers.nonce = false)
    (hcapacity : WithinCapacity capacity (2 * service.maxClockSkewMs)
      (state.accepted ++ [⟨request, headers, now⟩])) {call : AcceptedCall} (hcall : call ∈ state.accepted) :
    ¬ (call.headers.nonce = headers.nonce ∧ call.headers.timestamp = headers.timestamp) := by
  rintro ⟨hnonce, htimestamp⟩
  rw [← hnonce] at hnew
  obtain ⟨before, after, hsplit, hmany⟩ := hinv.exists_forgotten hcall hnew
  have hstart := hinv.acceptedEarly call hcall
  rw [htimestamp] at hstart
  have hordered := hinv.times
  rw [hsplit, List.pairwise_append, List.pairwise_cons] at hordered
  have hpast := hinv.past
  rw [hsplit] at hpast
  rw [hsplit, List.append_assoc, List.cons_append] at hcapacity
  have hfew := length_le_of_withinCapacity hcapacity fun other hother => by
    have hlate : other.time ≤ now := by
      rcases List.mem_cons.mp hother with rfl | hother
      · exact le_trans (hinv.past _ hcall) hnow
      · rcases List.mem_append.mp hother with hother | hother
        · exact le_trans (hpast other (List.mem_append_right _ (List.mem_cons_of_mem _ hother))) hnow
        · rw [List.mem_singleton.mp hother]
    have hearly : call.time ≤ other.time := by
      rcases List.mem_cons.mp hother with rfl | hother
      · exact le_refl _
      · rcases List.mem_append.mp hother with hother | hother
        · exact hordered.2.1.1 other hother
        · rw [List.mem_singleton.mp hother]
          exact le_trans (hinv.past _ hcall) hnow
    exact ⟨hearly, by omega⟩
  rw [List.length_append, List.length_singleton] at hfew
  omega

theorem Inv.step {state state' : AuthState} {action : AuthAction} (hinv : state.Inv service capacity)
    (htime : AnsweredInTime service state action)
    (hstep : AuthState.step service platform state action = some state') : state'.Inv service capacity := by
  obtain ⟨hclock, hclock', hcases⟩ := step_cases hstep
  rcases hcases with ⟨hcalls, hnonces, haccepted⟩ | ⟨now, request, call, rfl, hbegin, hcalls, hnonces, haccepted⟩ |
    ⟨now, place, call, rfl, hcall, hcalls, hnew, hnonces, haccepted⟩
  · exact
      { maxSize := by rw [hnonces]; exact hinv.maxSize
        holds := by rw [hnonces, haccepted]; exact hinv.holds
        early := fun call hcall => by rw [hclock']; exact le_trans (hinv.early call (hcalls hcall)) hclock
        times := by rw [haccepted]; exact hinv.times
        past := fun call hcall => by
          rw [haccepted] at hcall
          rw [hclock']
          exact le_trans (hinv.past call hcall) hclock
        acceptedEarly := by rw [haccepted]; exact hinv.acceptedEarly
        noReplay := by rw [haccepted]; exact hinv.noReplay }
  · have hfresh : service.Fresh now call.headers.timestamp := (begin_eq_ok_iff.mp hbegin).2.1
    change state'.clock = now at hclock'
    exact
      { maxSize := by rw [hnonces]; exact hinv.maxSize
        holds := by rw [hnonces, haccepted]; exact hinv.holds
        early := fun other hother => by
          rw [hclock']
          rw [hcalls, List.mem_append, List.mem_singleton] at hother
          rcases hother with hother | rfl
          · exact le_trans (hinv.early other hother) hclock
          · have hahead := (abs_le.mp hfresh).1
            omega
        times := by rw [haccepted]; exact hinv.times
        past := fun call hcall => by
          rw [haccepted] at hcall
          rw [hclock']
          exact le_trans (hinv.past call hcall) hclock
        acceptedEarly := by rw [haccepted]; exact hinv.acceptedEarly
        noReplay := by rw [haccepted]; exact hinv.noReplay }
  · have hearly := hinv.early call (List.mem_of_getElem? hcall)
    change state.clock ≤ now at hclock
    change state'.clock = now at hclock'
    exact
      { maxSize := by rw [hnonces, LruCache.maxSize_set]; exact hinv.maxSize
        holds := by
          rw [hnonces, haccepted, List.map_append]
          exact hinv.holds.set hnew true
        early := fun other hother => by
          rw [hclock']
          exact le_trans (hinv.early other (hcalls hother)) hclock
        times := by
          rw [haccepted, List.pairwise_append]
          refine ⟨hinv.times, List.pairwise_singleton _ _, fun other hother last hlast => ?_⟩
          rw [List.mem_singleton.mp hlast]
          exact le_trans (hinv.past other hother) hclock
        past := fun other hother => by
          rw [hclock']
          rw [haccepted, List.mem_append, List.mem_singleton] at hother
          rcases hother with hother | rfl
          · exact le_trans (hinv.past other hother) hclock
          · exact le_refl _
        acceptedEarly := fun other hother => by
          rw [haccepted, List.mem_append, List.mem_singleton] at hother
          rcases hother with hother | rfl
          · exact hinv.acceptedEarly other hother
          · exact le_trans hearly hclock
        noReplay := fun hcapacity => by
          rw [haccepted] at hcapacity ⊢
          refine List.pairwise_append.mpr ⟨hinv.noReplay hcapacity.of_append, List.pairwise_singleton _ _, ?_⟩
          intro other hother last hlast
          rw [List.mem_singleton.mp hlast]
          exact hinv.not_replayed hclock (htime call hcall) hnew hcapacity hother }

theorem step_called {state : AuthState} {now : Int} {request : HttpRequest} {call : Pending}
    (hclock : state.clock ≤ now) (hbegin : service.begin now request = .ok call) :
    step service platform state (.call now request) =
      some { state with clock := now, calls := state.calls ++ [call] } := by
  refine (if_neg (not_lt.mpr hclock)).trans (congrArg some ?_)
  rw [called, hbegin]

theorem step_accepted {state : AuthState} {now : Int} {place : Nat} {call : Pending} (hclock : state.clock ≤ now)
    (hcall : state.calls[place]? = some call)
    (hfinish : finish platform state.nonces call = .ok (reserveNonce state.nonces call.headers.nonce))
    (hnew : state.nonces.has call.headers.nonce = false) :
    step service platform state (.answered now place) =
      some ⟨now, state.nonces.set call.headers.nonce true, state.calls.eraseIdx place,
        state.accepted ++ [⟨call.request, call.headers, now⟩]⟩ := by
  rw [reserveNonce, hnew] at hfinish
  refine (if_neg (not_lt.mpr hclock)).trans ?_
  dsimp only
  rw [hcall, Option.map_some, answered, hfinish]
  rfl

/-- A run that ends before the timestamps of its requests expire is answered in time. -/
theorem answeredInTime_of_early {limit : Int} {actions : List AuthAction} {state : AuthState}
    (htimes : ∀ action ∈ actions, action.now ≤ limit)
    (hrequests : ∀ now request, AuthAction.call now request ∈ actions →
      limit ≤ digitsValue (request.header "x-warp-timestamp") + service.maxClockSkewMs)
    (hcalls : ∀ call ∈ state.calls, limit ≤ digitsValue call.headers.timestamp + service.maxClockSkewMs) :
    Meets (step service platform) (AnsweredInTime service) state actions := by
  induction actions generalizing state with
  | nil => exact trivial
  | cons action rest ih =>
      have hnow : action.now ≤ limit := htimes action List.mem_cons_self
      refine ⟨?_, fun state' hstate' => ih (fun later hlater => htimes later (List.mem_cons_of_mem _ hlater))
        (fun now request hmem => hrequests now request (List.mem_cons_of_mem _ hmem)) ?_⟩
      · cases action with
        | call now request => exact trivial
        | answered now place => exact fun call hcall => le_trans hnow (hcalls call (List.mem_of_getElem? hcall))
      · obtain ⟨-, -, hcases⟩ := step_cases hstate'
        rcases hcases with ⟨hrest, -⟩ | ⟨now, request, call, rfl, hbegin, hwaiting, -⟩ |
          ⟨now, place, call, -, -, hrest, -⟩
        · exact fun call hcall => hcalls call (hrest hcall)
        · intro other hother
          rw [hwaiting, List.mem_append, List.mem_singleton] at hother
          rcases hother with hother | rfl
          · exact hcalls other hother
          · rw [(validateHeaders_ok (begin_eq_ok_iff.mp hbegin).1).2.1]
            exact hrequests now request List.mem_cons_self
        · exact fun call hcall => hcalls call (hrest hcall)

end AuthState

/-- Where every answer of the crypto port comes before the timestamp has expired, no request is accepted twice. -/
theorem acceptsOnce_of_answeredInTime {service : SyncAuthService} {platform : SyncPlatform} {capacity : Nat}
    {clock : Int} {actions : List AuthAction}
    (htime : Meets (AuthState.step service platform) (AnsweredInTime service) (.initial capacity clock) actions) :
    AcceptsOnce service platform capacity clock actions := by
  intro last hrun
  have hinv : last.Inv service capacity :=
    invariant_of_run (fun state action state' hinv htime hstep => hinv.step htime hstep)
      (AuthState.inv_initial service capacity clock) htime hrun
  exact hinv.noReplay

/-! ### Two calls with one request -/

/-- A random UUID whose last group is `n`. -/
def uuidText (n : Nat) : JsString :=
  hexText 8 0 ++ 45 :: (hexText 4 0 ++ 45 :: (hexText 4 0x4000 ++ 45 :: (hexText 4 0x8000 ++ 45 :: hexText 12 n)))

/-- A platform that knows the digest of one body and the signatures of some payloads. -/
def tablePlatform (body : List UInt8) (digest secret : JsString) (signatures : List (PayloadParams × Nat)) :
    SyncPlatform where
  newUrl url _ := some ⟨url.takeWhile fun c => c ≠ 63, url.dropWhile fun c => c ≠ 63⟩
  sha256 data := if data = body then digest else []
  hmac key payload :=
    if key = secret then
      ((signatures.find? fun entry => buildCanonicalPayload entry.1 = payload).map fun entry =>
        (hexDecode (hexText 64 entry.2)).getD []).getD []
    else []

def signedRequest (body : List UInt8) (params : PayloadParams) (signature : Nat) : HttpRequest where
  method := params.method
  url := params.path
  headers := [("content-type", params.contentType), ("x-warp-sig-version", js "1"), ("x-warp-key-id", params.keyId),
    ("x-warp-timestamp", params.timestamp), ("x-warp-nonce", params.nonce),
    ("x-warp-signature", hexText 64 signature)].foldl
      (fun headers entry => headers.assign (js entry.1) entry.2) PlainObject.empty
  body := some body

/-! ### What the checks make of a signed request -/

theorem isNonce_uuidText (n : Nat) : isNonce (uuidText n) = true := by
  have hclean : ∀ length m, (45 : CodeUnit) ∉ hexText length m := by
    intro length m hmem
    exact absurd (isHexDigit_of_mem_hexText hmem) (by decide)
  have hparts : (uuidText n).splitOn 45 =
      [hexText 8 0, hexText 4 0, hexText 4 0x4000, hexText 4 0x8000, hexText 12 n] := by
    rw [uuidText, List.splitOn_append_cons_self_of_not_mem (hclean _ _),
      List.splitOn_append_cons_self_of_not_mem (hclean _ _), List.splitOn_append_cons_self_of_not_mem (hclean _ _),
      List.splitOn_append_cons_self_of_not_mem (hclean _ _), List.splitOn_eq_singleton (hclean _ _)]
  have hhex : ∀ length m, ((hexText length m).all fun c => isHexDigit (lowerUnit c)) = true := by
    intro length m
    refine List.all_eq_true.mpr fun c hc => ?_
    have hc := isHexDigit_of_mem_hexText hc
    rw [lowerUnit_eq_of_isHexDigit hc]
    exact hc
  have hvariant : (js "89abAB").contains ((hexText 4 0x8000).headD 0) = true := by
    rw [js_ofList]
    decide
  unfold isNonce
  rw [hparts]
  simp only [length_hexText, hhex, hvariant]
  decide

theorem uuidText_ne_nil (n : Nat) : uuidText n ≠ [] :=
  List.append_ne_nil_of_right_ne_nil _ (List.cons_ne_nil _ _)

theorem checkHeaderFormats_uuidText {timestamp : Nat} (h : timestamp < 10 ^ 16) (nonce signature : Nat) :
    checkHeaderFormats (decimal timestamp) (uuidText nonce) (hexText 64 signature) = .ok () := by
  have hlength := length_decimal_le (by decide) h
  have hdigits : (decimal timestamp).all isDigit = true := List.all_eq_true.mpr fun _ => isDigit_of_mem_decimal
  have hhex : (hexText 64 signature).all isHexDigit = true := List.all_eq_true.mpr fun _ => isHexDigit_of_mem_hexText
  unfold checkHeaderFormats
  simp [decimal_ne_nil, hdigits, isNonce_uuidText, length_hexText, hhex, hlength]

theorem exists_hexCharValue {c : CodeUnit} (h : isHexDigit c = true) : ∃ digit, hexCharValue c = some digit := by
  simp only [isHexDigit, isDigit, Bool.or_eq_true, Bool.and_eq_true, decide_eq_true_eq] at h
  unfold hexCharValue
  rcases h with h | h
  · exact ⟨_, if_pos h⟩
  · rw [if_neg (by omega), if_neg (by omega), if_pos h]
    exact ⟨_, rfl⟩

/-- Hexadecimal digits in pairs stand for bytes. -/
theorem exists_hexDecode {hex : JsString} (heven : hex.length % 2 = 0) (hhex : ∀ c ∈ hex, isHexDigit c = true) :
    ∃ bytes, hexDecode hex = some bytes := by
  fun_induction hexDecode hex with
  | case1 => exact ⟨[], rfl⟩
  | case2 c => cases heven
  | case3 hi lo rest ih =>
      obtain ⟨high, hhigh⟩ := exists_hexCharValue (hhex hi List.mem_cons_self)
      obtain ⟨low, hlow⟩ := exists_hexCharValue (hhex lo (List.mem_cons_of_mem _ List.mem_cons_self))
      rw [List.length_cons, List.length_cons] at heven
      obtain ⟨bytes, hbytes⟩ := ih (by omega) fun c hc =>
        hhex c (List.mem_cons_of_mem _ (List.mem_cons_of_mem _ hc))
      rw [hhigh, hlow, hbytes]
      exact ⟨_, rfl⟩

theorem hexDecode_hexText (signature : Nat) :
    hexDecode (hexText 64 signature) = some ((hexDecode (hexText 64 signature)).getD []) := by
  have hlength : (hexText 64 signature).length % 2 = 0 := by rw [length_hexText]
  obtain ⟨bytes, hbytes⟩ := exists_hexDecode hlength fun _ => isHexDigit_of_mem_hexText
  rw [hbytes, Option.getD_some]

section Signed

variable (body : List UInt8) (params : PayloadParams) (signature : Nat)

/-- What the server reads of a signed request. -/
theorem header_signedRequest :
    ((signedRequest body params signature).header "content-type" = params.contentType ∧
      (signedRequest body params signature).header "x-warp-key-id" = params.keyId) ∧
    ((signedRequest body params signature).header "x-warp-timestamp" = params.timestamp ∧
      (signedRequest body params signature).header "x-warp-nonce" = params.nonce) ∧
    (signedRequest body params signature).header "x-warp-signature" = hexText 64 signature ∧
    (signedRequest body params signature).headers.props.get (js "x-warp-sig-version") = some (js "1") := by
  dsimp only [HttpRequest.header, signedRequest, List.foldl]
  rw [js_ofList, js_ofList, js_ofList, js_ofList, js_ofList, js_ofList, js_ofList]
  exact ⟨⟨rfl, rfl⟩, ⟨rfl, rfl⟩, rfl, rfl⟩

theorem bytes_signedRequest : (signedRequest body params signature).bytes = body := rfl

/-- The call of `verify` that a signed request waits with. -/
def signedCall (secret : JsString) : Pending where
  request := signedRequest body params signature
  headers := ⟨hexText 64 signature, params.timestamp, params.nonce, params.keyId⟩
  secret := .own secret

/-- The signature of a request is the one that the platform computes for its sender's fields. -/
structure Signs (platform : SyncPlatform) (secret : JsString) : Prop where
  method : params.method = js "POST"
  path : canonicalizePath platform (signedRequest body params signature).urlOrRoot = .ok params.path
  digest : platform.sha256 body = params.bodySha256
  hmac : hexDecode (hexText 64 signature) = some (platform.hmac secret (buildCanonicalPayload params))

variable {body params signature}

theorem validateHeaders_signedRequest {timestamp nonce : Nat} (hkey : params.keyId ≠ [])
    (htimestamp : params.timestamp = decimal timestamp) (hbound : timestamp < 10 ^ 16)
    (hnonce : params.nonce = uuidText nonce) :
    validateHeaders (signedRequest body params signature) =
      .ok ⟨hexText 64 signature, params.timestamp, params.nonce, params.keyId⟩ := by
  obtain ⟨⟨-, hkeyId⟩, ⟨htime, hnonceId⟩, hsignature, hversion⟩ := header_signedRequest body params signature
  have hpresent : ¬ (params.keyId = [] ∨ hexText 64 signature = [] ∨ params.timestamp = [] ∨ params.nonce = []) := by
    rw [htimestamp, hnonce, not_or, not_or, not_or]
    exact ⟨hkey, hexText_ne_nil (by decide) _, decimal_ne_nil _, uuidText_ne_nil _⟩
  unfold validateHeaders
  rw [if_neg (not_not.mpr hversion), hkeyId, htime, hnonceId, hsignature]
  dsimp only
  rw [if_neg hpresent, htimestamp, hnonce, checkHeaderFormats_uuidText hbound]

theorem begin_signedRequest {service : SyncAuthService} {now : Int} {timestamp nonce : Nat} {secret : JsString}
    (hkey : params.keyId ≠ []) (htimestamp : params.timestamp = decimal timestamp) (hbound : timestamp < 10 ^ 16)
    (hnonce : params.nonce = uuidText nonce) (hfresh : |now - timestamp| ≤ service.maxClockSkewMs)
    (hsecret : service.resolveKey params.keyId = .ok (.own secret)) :
    service.begin now (signedRequest body params signature) = .ok (signedCall body params signature secret) := by
  refine begin_eq_ok_iff.mpr ⟨validateHeaders_signedRequest hkey htimestamp hbound hnonce, ?_, hsecret, rfl⟩
  rw [Fresh, signedCall, htimestamp, digitsValue_decimal]
  exact hfresh

theorem finish_signedCall {platform : SyncPlatform} {secret : JsString} (h : Signs body params signature platform secret)
    (nonces : NonceCache) :
    finish platform nonces (signedCall body params signature secret) = .ok (reserveNonce nonces params.nonce) := by
  obtain ⟨⟨hcontentType, -⟩, -, -⟩ := header_signedRequest body params signature
  have hupper : toUpperCase (js "POST") = js "POST" := by
    rw [js_ofList]
    rfl
  have hmethod : toUpperCase (if (signedRequest body params signature).method = [] then js "POST"
      else (signedRequest body params signature).method) = params.method := by
    change toUpperCase (if params.method = [] then js "POST" else params.method) = params.method
    rw [h.method, ite_self, hupper]
  have hparams : signedParams platform (signedRequest body params signature)
      (signedCall body params signature secret).headers params.path = params := by
    unfold signedParams
    rw [hmethod, hcontentType]
    change PayloadParams.mk _ _ _ _ _ _ (platform.sha256 body) = params
    rw [h.digest]
    rfl
  have hsigned : verifySignature platform (signedRequest body params signature)
      (signedCall body params signature secret).headers (.own secret) = .ok (.ok ()) := by
    unfold verifySignature
    rw [h.path]
    simp only [bind, Except.bind, pure, Except.pure, hmacWith, hparams]
    exact congrArg Except.ok (if_pos h.hmac)
  unfold finish
  change (verifySignature platform (signedRequest body params signature)
      (signedCall body params signature secret).headers (.own secret) >>= _) = _
  rw [hsigned]
  rfl

end Signed

/-- A signature of the table is the right one under its secret. -/
theorem signs_tablePlatform {body : List UInt8} {digest secret : JsString} {signatures : List (PayloadParams × Nat)}
    {params signer : PayloadParams} {signature : Nat} (hmethod : params.method = js "POST") (hpath : params.path ≠ [])
    (hdigest : digest = params.bodySha256)
    (hfind : signatures.find? (fun entry => buildCanonicalPayload entry.1 = buildCanonicalPayload params) =
      some (signer, signature)) :
    Signs body params signature (tablePlatform body digest secret signatures) secret where
  method := hmethod
  path := by
    have hurl : (signedRequest body params signature).urlOrRoot = params.path := if_neg hpath
    rw [hurl]
    exact congrArg Except.ok List.takeWhile_append_dropWhile
  digest := (if_pos rfl).trans hdigest
  hmac := by
    simp only [tablePlatform, if_true, hfind, Option.map_some, Option.getD_some]
    exact hexDecode_hexText signature

/-- The SHA-256 digest of the text of an empty object. -/
def emptyObjectDigest : JsString := hexText 64 0x44136fa355b3678a1146ad16f7e8649e94fb4fc21fe77e8310c060f61caaff8a

def emptyObjectBytes : List UInt8 := [123, 125]

def requestParams (timestamp nonce : Nat) : PayloadParams :=
  ⟨js "default", js "POST", js "/sync", decimal timestamp, uuidText nonce, js "application/json", emptyObjectDigest⟩

def firstSignature : Nat := 0x6ab746801dfe6340e428b8bc777eb51236b7dd2c0f945067319f330e0d1217f2

def secondSignature : Nat := 0xf45e7e35753e68e89813f9cf70d12bb625a8ecc03a67939933a18ea3fe86f9cc

def twoRequestsPlatform : SyncPlatform :=
  tablePlatform emptyObjectBytes emptyObjectDigest (js "test-secret")
    [(requestParams 1000000 1, firstSignature), (requestParams 1700000 2, secondSignature)]

def firstRequest : HttpRequest := signedRequest emptyObjectBytes (requestParams 1000000 1) firstSignature

def secondRequest : HttpRequest := signedRequest emptyObjectBytes (requestParams 1700000 2) secondSignature

def oneKeyService : SyncAuthService where
  keys := PlainObject.empty.assign (js "default") (js "test-secret")
  mode := .enforce
  maxClockSkewMs := 300000
  allowedWriters := none

theorem resolveKey_oneKeyService : oneKeyService.resolveKey (js "default") = .ok (.own (js "test-secret")) := by
  have hread : oneKeyService.keys.read (js "default") = .own (js "test-secret") := by
    rw [PlainObject.read_eq_own_iff, oneKeyService, PlainObject.get_assign, if_pos]
    refine ⟨rfl, ?_⟩
    rw [protoKey, js_ofList, js_ofList]
    decide
  unfold resolveKey
  rw [hread]
  dsimp only
  rw [if_neg]
  rw [js_ofList]
  exact List.cons_ne_nil _ _

theorem requestParams_injective {timestamp nonce timestamp' nonce' : Nat}
    (h : buildCanonicalPayload (requestParams timestamp nonce) =
      buildCanonicalPayload (requestParams timestamp' nonce')) : timestamp = timestamp' := by
  have hseparator : ∀ n, payloadSeparator ∉ decimal n := fun n => not_mem_decimal (by decide)
  simp only [buildCanonicalPayload, requestParams, List.append_cancel_left_eq, List.cons.injEq, true_and] at h
  exact decimal_injective (field_inj (hseparator _) (hseparator _) h).1

theorem begin_requestParams {now : Int} {timestamp : Nat} (nonce signature : Nat) (hbound : timestamp < 10 ^ 16)
    (hfresh : |now - timestamp| ≤ 300000) :
    oneKeyService.begin now (signedRequest emptyObjectBytes (requestParams timestamp nonce) signature) =
      .ok (signedCall emptyObjectBytes (requestParams timestamp nonce) signature (js "test-secret")) := by
  have hkey : (requestParams timestamp nonce).keyId ≠ [] := by
    rw [requestParams, js_ofList]
    exact List.cons_ne_nil _ _
  exact begin_signedRequest hkey rfl hbound rfl hfresh resolveKey_oneKeyService

theorem signs_requestParams {params : PayloadParams} {signature : Nat}
    (hentry : (params, signature) = (requestParams 1000000 1, firstSignature) ∨
      (params, signature) = (requestParams 1700000 2, secondSignature)) :
    Signs emptyObjectBytes params signature twoRequestsPlatform (js "test-secret") := by
  have hpath : js "/sync" ≠ [] := by
    rw [js_ofList]
    exact List.cons_ne_nil _ _
  have hdiffer : buildCanonicalPayload (requestParams 1000000 1) ≠ buildCanonicalPayload (requestParams 1700000 2) :=
    fun h => absurd (requestParams_injective h) (by decide)
  rcases hentry with hentry | hentry
  · cases hentry
    exact signs_tablePlatform rfl hpath rfl (List.find?_cons_of_pos (by simp))
  · cases hentry
    refine signs_tablePlatform rfl hpath rfl ((List.find?_cons_of_neg ?_).trans (List.find?_cons_of_pos (by simp)))
    simpa using hdiffer

theorem acceptsOnce_promptAnswers :
    AcceptsOnce oneKeyService twoRequestsPlatform 1 0
      [.call 1000000 firstRequest, .call 1000000 firstRequest, .answered 1000001 1, .answered 1000002 0] := by
  have htime : digitsValue (firstRequest.header "x-warp-timestamp") = 1000000 := by
    obtain ⟨-, ⟨htimestamp, -⟩, -⟩ := header_signedRequest emptyObjectBytes (requestParams 1000000 1) firstSignature
    rw [firstRequest, htimestamp]
    exact digitsValue_decimal 1000000
  refine acceptsOnce_of_answeredInTime ?_
  refine @AuthState.answeredInTime_of_early _ _ 1000002 _ _ ?_ ?_ ?_
  · simp [AuthAction.now]
  · intro now request hmem
    have hrequest : now = 1000000 ∧ request = firstRequest := by simpa using hmem
    rw [hrequest.2, htime]
    decide
  · exact fun call hcall => absurd hcall List.not_mem_nil

/-- Accepted calls that lie further apart than the window do not meet in one. -/
theorem withinCapacity_of_spread {window : Int} {accepted : List AcceptedCall}
    (h : accepted.Pairwise fun call later => call.time + window < later.time) : WithinCapacity 1 window accepted := by
  intro since
  have hkept := h.filter fun call => decide (since ≤ call.time ∧ call.time ≤ since + window)
  have hin : ∀ call ∈ accepted.filter fun call => decide (since ≤ call.time ∧ call.time ≤ since + window),
      since ≤ call.time ∧ call.time ≤ since + window := fun call hcall =>
    of_decide_eq_true (List.mem_filter.mp hcall).2
  match hlist : accepted.filter fun call => decide (since ≤ call.time ∧ call.time ≤ since + window) with
  | [] => exact hlist ▸ Nat.zero_le 1
  | [_] => exact hlist ▸ le_refl 1
  | call :: later :: rest =>
      rw [hlist] at hkept hin
      have hfirst := hin call List.mem_cons_self
      have hsecond := hin later (List.mem_cons_of_mem _ List.mem_cons_self)
      have hgap := (List.pairwise_cons.mp hkept).1 later List.mem_cons_self
      omega

/-- The second call of the first request waits until the second request has pushed the nonce out of the cache. -/
def delayedAnswer : List AuthAction :=
  [.call 1000000 firstRequest, .call 1000000 firstRequest, .answered 1000001 1, .call 1700000 secondRequest,
    .answered 1700001 1, .answered 2400000 0]

def firstHeaders : AuthHeaders :=
  ⟨hexText 64 firstSignature, decimal 1000000, uuidText 1, js "default"⟩

def secondHeaders : AuthHeaders :=
  ⟨hexText 64 secondSignature, decimal 1700000, uuidText 2, js "default"⟩

/-- The last step finds its nonce forgotten. -/
theorem run_delayedAnswer : run (AuthState.step oneKeyService twoRequestsPlatform) (.initial 1 0) delayedAnswer =
    some ⟨2400000, (((LruCache.new 1).set (uuidText 1) true).set (uuidText 2) true).set (uuidText 1) true, [],
      [⟨firstRequest, firstHeaders, 1000001⟩, ⟨secondRequest, secondHeaders, 1700001⟩,
        ⟨firstRequest, firstHeaders, 2400000⟩]⟩ := by
  have hfirst : oneKeyService.begin 1000000 firstRequest = .ok _ :=
    begin_requestParams 1 firstSignature (by decide) (by decide)
  have hsecond : oneKeyService.begin 1700000 secondRequest = .ok _ :=
    begin_requestParams 2 secondSignature (by decide) (by decide)
  have hfirst' := finish_signedCall (signs_requestParams (.inl rfl))
  have hsecond' := finish_signedCall (signs_requestParams (.inr rfl))
  have hdiffer : uuidText 1 ≠ uuidText 2 := by decide +kernel
  have hempty : (LruCache.new 1 : NonceCache).has (uuidText 1) = false := rfl
  have hheld := (LruCache.holdsLast_new 1).set hempty true
  have hforgets : ((LruCache.new 1 : NonceCache).set (uuidText 1) true).has (uuidText 2) = false :=
    hheld.has_eq_false (by simpa [LruCache.new] using hdiffer.symm)
  have hforgets' : (((LruCache.new 1 : NonceCache).set (uuidText 1) true).set (uuidText 2) true).has (uuidText 1) =
      false :=
    (hheld.set hforgets true).has_eq_false (by simpa [LruCache.new] using hdiffer)
  refine run_cons_eq_some.mpr ⟨_, AuthState.step_called (by decide) hfirst, ?_⟩
  refine run_cons_eq_some.mpr ⟨_, AuthState.step_called (by decide) hfirst, ?_⟩
  refine run_cons_eq_some.mpr ⟨_, AuthState.step_accepted (by decide) rfl (hfirst' _) hempty, ?_⟩
  refine run_cons_eq_some.mpr ⟨_, AuthState.step_called (by decide) hsecond, ?_⟩
  refine run_cons_eq_some.mpr ⟨_, AuthState.step_accepted (by decide) rfl (hsecond' _) hforgets, ?_⟩
  refine run_cons_eq_some.mpr ⟨_, AuthState.step_accepted (by decide) rfl (hfirst' _) hforgets', ?_⟩
  rfl

theorem not_acceptsOnce_delayedAnswer :
    ¬ AcceptsOnce oneKeyService twoRequestsPlatform 1 0 delayedAnswer := by
  intro h
  have htimes : [(⟨firstRequest, firstHeaders, 1000001⟩ : AcceptedCall), ⟨secondRequest, secondHeaders, 1700001⟩,
      ⟨firstRequest, firstHeaders, 2400000⟩].Pairwise fun call later => call.time + 2 * 300000 < later.time := by
    simp
  have hreplay := (List.pairwise_cons.mp (h _ run_delayedAnswer (withinCapacity_of_spread htimes))).1
  exact hreplay _ (List.mem_cons_of_mem _ List.mem_cons_self) ⟨rfl, rfl⟩

end GitWarp
