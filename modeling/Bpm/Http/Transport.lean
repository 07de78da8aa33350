import Bpm.Http.Config
import Bpm.Lib.Protocol

/-!
# Requests and their tokens

Both transports send a request, look at the answer and send again: after a redirect,
or after a failure that may pass.  The blocking one follows redirects itself and
builds every request anew; the asynchronous one leaves redirects to the HTTP
library, which repeats the request at the new URL and keeps its credentials as long
as host and port stay the same.
-/

namespace Bpm

open Text

inductive TransportKind
  | connect | timeout | builder | request | body | decode | redirect | other
deriving DecidableEq

namespace TransportKind

def isRetryable : TransportKind → Bool
  | connect | timeout => true
  | _ => false

def label : TransportKind → Str
  | connect => lit "connection failed"
  | timeout => lit "timeout"
  | builder => lit "invalid request"
  | request => lit "request failed"
  | body => lit "body transfer failed"
  | decode => lit "response decode failed"
  | redirect => lit "too many redirects"
  | other => lit "transport failed"

end TransportKind

def isRetryableStatus (code : UInt16) : Bool :=
  code == 408 || code == 429 || (500 ≤ code && code ≤ 599)

def isRedirectStatus (status : UInt16) : Bool := [301, 302, 303, 307, 308].contains status

/-- What comes back for a request: a response, with the location it names, or a
failure. -/
inductive Answer
  | response (status : UInt16) (location : Option Str)
  | failed (kind : TransportKind)

structure Request where
  url : Url
  headers : List (Str × Str)
deriving DecidableEq

def authorizationName : Str := lit "authorization"

def isAuthorization (header : Str × Str) : Bool := asciiLower header.1 == authorizationName

def bearer (token : Str) : Str := lit "Bearer " ++ token

namespace Request

def header (request : Request) (name value : Str) : Request :=
  { request with headers := request.headers ++ [(name, value)] }

def bearerAuth (request : Request) (token : Str) : Request :=
  request.header authorizationName (bearer token)

def headerIfSome (request : Request) (name : Str) : Option Str → Request
  | none => request
  | some value => request.header name value

def bearerIfSome (request : Request) : Option Str → Request
  | none => request
  | some token => request.bearerAuth token

/-- The values of the Authorization header. -/
def authorizations (request : Request) : List Str :=
  (request.headers.filter isAuthorization).map (·.2)

end Request

/-- What the HTTP library does with credentials in a URL: it moves them into a
header. -/
structure HttpLibrary where
  basic : Str → Option Str → Str
  withoutUserInfo : Url → Url

def Url.HasCredentials (url : Url) : Prop := url.username ≠ [] ∨ url.password ≠ none

instance (url : Url) : Decidable url.HasCredentials := instDecidableOr

section Library

variable (crate : UrlCrate) (library : HttpLibrary) (config : NpmConfig)

/-- A GET request of the library; none where the text is no web address. -/
def clientGet (url : Str) : Option Request :=
  match crate.parse url with
  | none => none
  | some parsed =>
      if !parsed.isHttp then none
      else if parsed.HasCredentials then
        some ⟨library.withoutUserInfo parsed, [(authorizationName,
          lit "Basic " ++ library.basic parsed.username parsed.password)]⟩
      else some ⟨parsed, []⟩

/-- The request carries the token of its own URL, and no other credentials. -/
def Authorized (request : Request) : Prop :=
  request.authorizations =
    ((config.authTokenForUrl crate request.url.serialization).map bearer).toList

instance (request : Request) : Decidable (Authorized crate config request) :=
  inferInstanceAs (Decidable (_ = _))

end Library

/-! ## The blocking transport -/

inductive HttpError
  | status (url : Str) (code : UInt16) (attempts : Nat)
  | transport (url kind : Str) (attempts : Nat)
  | redirect (source : Str) (target : Option Str) (reason : Str)
deriving DecidableEq

def isSensitiveRedirectHeader (name : Str) : Bool :=
  [authorizationName, lit "proxy-authorization", lit "cookie", lit "npm-otp"].contains
    (asciiLower name)

/-- One attempt of the blocking loop, at one of its hops. -/
structure BlockingHop where
  attempt : Nat
  hop : Nat
  visited : List Str
  current : Url

namespace Blocking

variable (crate : UrlCrate) (library : HttpLibrary) (config : NpmConfig) (url : Str)
  (headers : List (Str × Str))

def buildGet (url : Str) (headers : List (Str × Str)) : Option Request :=
  match clientGet crate library url with
  | none => none
  | some request =>
      let request := headers.foldl
        (fun request header =>
          if isSensitiveRedirectHeader header.1 then request
          else request.header header.1 header.2) request
      some (request.bearerIfSome (config.authTokenForUrl crate url))

def redirectTarget (current : Url) (location : Option Str) : Option Url :=
  match location with
  | none => none
  | some location =>
      match crate.join current location with
      | none => none
      | some target => if target.isHttp then some target else none

/-- `retries + 1`, in 64 bits. -/
def attempts : Nat := min (config.network.retries + 1) (2 ^ 64 - 1)

def start (parsed : Url) (attempt : Nat) : BlockingHop := ⟨attempt, 0, [], parsed⟩

/-- The caller's headers go to the origin of the first request only. -/
def request (parsed : Url) (s : BlockingHop) : Option Request :=
  buildGet crate library config s.current.serialization
    (if s.hop = 0 || s.current.sameOrigin parsed then headers else [])

def ends (parsed : Url) (s : BlockingHop) : Option (Except HttpError UInt16) :=
  if s.visited.contains s.current.serialization then
    some (.error (.redirect (redactUrl url) (some (redactUrl s.current.serialization))
      (lit "redirect loop")))
  else
    match request crate library config headers parsed s with
    | none => some (.error (.transport (redactUrl url) TransportKind.builder.label (s.attempt + 1)))
    | some _ => none

def answered (parsed : Url) (s : BlockingHop) : Answer → Turn (Except HttpError UInt16) BlockingHop
  | .response status location =>
      if isRedirectStatus status then
        match redirectTarget crate s.current location with
        | none => .done (.error (.redirect (redactUrl s.current.serialization) none
            (lit "malformed location")))
        | some target =>
            if s.hop ≥ 10 then
              .done (.error (.redirect (redactUrl s.current.serialization)
                (some (redactUrl target.serialization)) (lit "redirect hop limit")))
            else
              .goto ⟨s.attempt, s.hop + 1, s.current.serialization :: s.visited, target⟩
      else if status < 400 then .done (.ok status)
      else if isRetryableStatus status && s.attempt + 1 < attempts config then
        .goto (start parsed (s.attempt + 1))
      else .done (.error (.status (redactUrl url) status (s.attempt + 1)))
  | .failed kind =>
      if kind.isRetryable && s.attempt + 1 < attempts config then
        .goto (start parsed (s.attempt + 1))
      else .done (.error (.transport (redactUrl url) kind.label (s.attempt + 1)))

def loop (parsed : Url) : Client BlockingHop Answer (Except HttpError UInt16) :=
  ⟨ends crate library config url headers parsed, answered crate config url parsed⟩

/-- The hops at which `executeGet` sends a request. -/
def hops (answers : List Answer) : List BlockingHop :=
  match crate.parse url with
  | none => []
  | some parsed => (loop crate library config url headers parsed).sends (start parsed 0) answers

/-- The requests that are sent, and what the call returns once it has its answers. -/
def executeGet (answers : List Answer) : List Request × Option (Except HttpError UInt16) :=
  match crate.parse url with
  | none => ([], some (.error (.transport (redactUrl url)
      (lit "invalid URL: " ++ crate.parseError url) 1)))
  | some parsed =>
      let (hops, outcome) :=
        (loop crate library config url headers parsed).exchange (start parsed 0) answers
      (hops.filterMap (request crate library config headers parsed), outcome)

end Blocking

/-! ## The asynchronous transport -/

/-- The validators of a cached body. -/
structure CachedValidators where
  etag : Option Str
  lastModified : Option Str

structure AsyncHttpError where
  url : Str
  message : Str
deriving DecidableEq

/-- A request on its way through the library: what it followed before, and how often
it was started. -/
structure Following where
  request : Option Request
  previous : List Url
  completed : Nat

namespace Async

variable (crate : UrlCrate) (library : HttpLibrary) (config : NpmConfig) (url : Str)
  (cached : Option CachedValidators) (sendAbbreviatedAccept : Bool) (attempts : Nat)

def abbrevAccept : Str := lit "application/vnd.npm.install-v1+json"

def build : Option Request :=
  match clientGet crate library url with
  | none => none
  | some request =>
      let request :=
        if sendAbbreviatedAccept then request.header (lit "Accept") abbrevAccept else request
      let request := request.bearerIfSome (config.authTokenForUrl crate url)
      let request := request.headerIfSome (lit "If-None-Match") (cached.bind (·.etag))
      some (request.headerIfSome (lit "If-Modified-Since") (cached.bind (·.lastModified)))

def start (completed : Nat) : Following :=
  ⟨build crate library config url cached sendAbbreviatedAccept, [], completed⟩

def error (text : Str) (completed : Nat) : AsyncHttpError :=
  ⟨redactUrl url, text ++ lit " after " ++ (toString completed).toList ++ lit " attempt(s)"⟩

/-- The program's reaction to a failure of the library. -/
def failed (kind : TransportKind) (completed : Nat) :
    Turn (Except AsyncHttpError UInt16) Following :=
  if kind.isRetryable && completed < attempts then
    .goto (start crate library config url cached sendAbbreviatedAccept (completed + 1))
  else .done (.error (error url kind.label completed))

/-- The library's redirect policy: at most ten redirects; the Authorization header
goes when the host or the port changes. -/
def follow (request : Request) (previous : List Url) (target : Url) :
    Except TransportKind Request :=
  if previous.length ≥ 10 then .error .redirect
  else if !target.isHttp then .error .builder
  else if target.sameHostPort request.url then .ok { request with url := target }
  else .ok ⟨target, request.headers.filter (!isAuthorization ·)⟩

def ends (s : Following) : Option (Except AsyncHttpError UInt16) :=
  match s.request with
  | none => some (.error (error url TransportKind.builder.label s.completed))
  | some _ => none

/-- Where a response of the library's redirect statuses leads to. -/
def location (request : Request) (status : UInt16) (location : Option Str) : Option Url :=
  if isRedirectStatus status then location.bind (crate.join request.url) else none

def answered (s : Following) (answer : Answer) : Turn (Except AsyncHttpError UInt16) Following :=
  match s.request, answer with
  | none, _ => .done (.error (error url TransportKind.builder.label s.completed))
  | some _, .failed kind =>
      failed crate library config url cached sendAbbreviatedAccept attempts kind s.completed
  | some request, .response status header =>
      match location crate request status header with
      | some target =>
          match follow request s.previous target with
          | .error kind =>
              failed crate library config url cached sendAbbreviatedAccept attempts kind s.completed
          | .ok next => .goto ⟨some next, s.previous ++ [request.url], s.completed⟩
      | none =>
          if status = 304 || status < 400 then .done (.ok status)
          else if isRetryableStatus status && s.completed < attempts then
            .goto (start crate library config url cached sendAbbreviatedAccept (s.completed + 1))
          else .done (.error (error url (lit "HTTP " ++ (toString status).toList) s.completed))

def loop : Client Following Answer (Except AsyncHttpError UInt16) :=
  ⟨ends url, answered crate library config url cached sendAbbreviatedAccept attempts⟩

/-- The states in which `asyncSendWithRetry` sends a request. -/
def hops (answers : List Answer) : List Following :=
  (loop crate library config url cached sendAbbreviatedAccept attempts).sends
    (start crate library config url cached sendAbbreviatedAccept 1) answers

def asyncSendWithRetry (answers : List Answer) :
    List Request × Option (Except AsyncHttpError UInt16) :=
  let (hops, outcome) := (loop crate library config url cached sendAbbreviatedAccept attempts).exchange
    (start crate library config url cached sendAbbreviatedAccept 1) answers
  (hops.filterMap (·.request), outcome)

end Async

/-! ## What a new request carries -/

section Built

variable {crate : UrlCrate} {library : HttpLibrary} {config : NpmConfig}

/-- The header that the library makes of the credentials in a URL. -/
def credentials (library : HttpLibrary) (parsed : Url) : List Str :=
  if parsed.HasCredentials then [lit "Basic " ++ library.basic parsed.username parsed.password]
  else []

def bearers (token : Option Str) : List Str := (token.map bearer).toList

theorem authorizations_header {request : Request} {name value : Str}
    (h : asciiLower name ≠ authorizationName) :
    (request.header name value).authorizations = request.authorizations := by
  have hother : isAuthorization (name, value) = false := by simpa [isAuthorization] using h
  simp [Request.authorizations, Request.header, List.filter_append, hother]

theorem authorizations_headerIfSome {request : Request} {name : Str} {value : Option Str}
    (h : asciiLower name ≠ authorizationName) :
    (request.headerIfSome name value).authorizations = request.authorizations := by
  cases value with
  | none => rfl
  | some value => exact authorizations_header h

theorem authorizations_bearerIfSome (request : Request) (token : Option Str) :
    (request.bearerIfSome token).authorizations = request.authorizations ++ bearers token := by
  have hname (value : Str) : isAuthorization (authorizationName, value) = true := by
    have hlower : asciiLower authorizationName = authorizationName := by decide
    simpa [isAuthorization] using hlower
  cases token with
  | none => simp [Request.bearerIfSome, bearers]
  | some token =>
      simp [Request.bearerIfSome, Request.bearerAuth, Request.authorizations, Request.header,
        List.filter_append, hname, bearers]

theorem url_bearerIfSome (request : Request) (token : Option Str) :
    (request.bearerIfSome token).url = request.url := by
  cases token <;> rfl

/-- A request of the library carries what the URL holds of credentials. -/
theorem clientGet_spec {text : Str} {request : Request}
    (h : clientGet crate library text = some request) : ∃ parsed, crate.parse text = some parsed ∧
      request.authorizations = credentials library parsed ∧
      (¬parsed.HasCredentials → request.url = parsed) := by
  unfold clientGet at h
  cases hparse : crate.parse text with
  | none => simp [hparse] at h
  | some parsed =>
      rw [hparse] at h
      dsimp only at h
      refine ⟨parsed, rfl, ?_⟩
      have hlower : asciiLower authorizationName = authorizationName := by decide
      split at h
      · cases h
      · split at h
        · rename_i hcredentials
          cases h
          refine ⟨?_, fun hnot => absurd hcredentials hnot⟩
          simp [Request.authorizations, credentials, hcredentials, isAuthorization, hlower]
        · rename_i hcredentials
          cases h
          exact ⟨by simp [Request.authorizations, credentials, hcredentials], fun _ => rfl⟩

/-- Only a URL without credentials gets the token alone. -/
theorem credentials_bearers_iff {text : Str} {parsed : Url} (hparse : crate.parse text = some parsed)
    {token : Option Str} :
    credentials library parsed ++ bearers (config.authTokenForUrl crate text) = bearers token ↔
      ¬parsed.HasCredentials ∧ config.authTokenForUrl crate text = token := by
  by_cases h : parsed.HasCredentials
  · rw [NpmConfig.authTokenForUrl_of_credentials config hparse h]
    cases token with
    | none => simp [credentials, bearers, h]
    | some token => simp [credentials, bearers, h, bearer, lit]
  · have hbearer : ∀ a b : Str, bearer a = bearer b ↔ a = b := fun a b => by simp [bearer]
    cases config.authTokenForUrl crate text <;> cases token <;>
      simp [credentials, bearers, h, hbearer]

end Built

namespace Blocking

variable {crate : UrlCrate} {library : HttpLibrary} {config : NpmConfig} {url : Str}
  {headers : List (Str × Str)}

/-- The caller's headers bring no authorization along. -/
theorem authorizations_foldl (headers : List (Str × Str)) (request : Request) :
    (headers.foldl (fun request header =>
        if isSensitiveRedirectHeader header.1 then request
        else request.header header.1 header.2) request).authorizations = request.authorizations ∧
      (headers.foldl (fun request header =>
        if isSensitiveRedirectHeader header.1 then request
        else request.header header.1 header.2) request).url = request.url := by
  induction headers generalizing request with
  | nil => exact ⟨rfl, rfl⟩
  | cons header headers ih =>
      rw [List.foldl_cons]
      obtain ⟨hauthorizations, hurl⟩ := ih (if isSensitiveRedirectHeader header.1 then request
        else request.header header.1 header.2)
      rw [hauthorizations, hurl]
      split
      · exact ⟨rfl, rfl⟩
      · rename_i hsensitive
        refine ⟨authorizations_header ?_, rfl⟩
        intro hname
        rw [isSensitiveRedirectHeader, hname] at hsensitive
        exact hsensitive (by decide)

theorem buildGet_spec {text : Str} {request : Request}
    (h : buildGet crate library config text headers = some request) :
    ∃ parsed, crate.parse text = some parsed ∧
      request.authorizations =
        credentials library parsed ++ bearers (config.authTokenForUrl crate text) ∧
      (¬parsed.HasCredentials → request.url = parsed) := by
  unfold buildGet at h
  cases hget : clientGet crate library text with
  | none => simp [hget] at h
  | some first =>
      rw [hget] at h
      dsimp only at h
      obtain ⟨parsed, hparse, hfirst, hurl⟩ := clientGet_spec hget
      obtain ⟨hauthorizations, hsame⟩ := authorizations_foldl headers first
      cases h
      refine ⟨parsed, hparse, ?_, ?_⟩
      · rw [authorizations_bearerIfSome, hauthorizations, hfirst]
      · intro hnot
        rw [url_bearerIfSome, hsame, hurl hnot]

/-- At every hop the loop stands at a URL that the URL library printed. -/
theorem current_parses {answers : List Answer} {s : BlockingHop}
    (h : s ∈ hops crate library config url headers answers) :
    crate.parse s.current.serialization = some s.current := by
  unfold hops at h
  cases hparse : crate.parse url with
  | none => simp [hparse] at h
  | some parsed =>
      rw [hparse] at h
      have hstart := crate.parse_serialization url parsed hparse
      refine (Client.sends_invariant
        (I := fun s => crate.parse s.current.serialization = some s.current) ?_ hstart s h).1
      intro s answer s' hs _ hnext
      -- A redirect goes to a URL that was joined, a retry back to the first URL.
      cases answer with
      | failed kind =>
          simp only [loop, answered] at hnext
          split at hnext
          · cases hnext
            exact hstart
          · cases hnext
      | response status location =>
          simp only [loop, answered] at hnext
          split at hnext
          · cases htarget : redirectTarget crate s.current location with
            | none => simp [htarget] at hnext
            | some target =>
                rw [htarget] at hnext
                dsimp only at hnext
                split at hnext
                · cases hnext
                · cases hnext
                  unfold redirectTarget at htarget
                  cases location with
                  | none => simp at htarget
                  | some location =>
                      dsimp only at htarget
                      cases hjoin : crate.join s.current location with
                      | none => simp [hjoin] at htarget
                      | some joined =>
                          rw [hjoin] at htarget
                          dsimp only at htarget
                          split at htarget
                          · cases htarget
                            exact crate.join_parses _ _ _ hs hjoin
                          · cases htarget
          · split at hnext
            · cases hnext
            · split at hnext
              · cases hnext
                exact hstart
              · cases hnext

/-- The loop stands at a hop only with a request to send. -/
theorem exists_request {answers : List Answer} {s : BlockingHop}
    (h : s ∈ hops crate library config url headers answers) : ∃ parsed r,
      crate.parse url = some parsed ∧ request crate library config headers parsed s = some r := by
  unfold hops at h
  cases hparse : crate.parse url with
  | none => simp [hparse] at h
  | some parsed =>
      rw [hparse] at h
      have hends : ends crate library config url headers parsed s = none :=
        (Client.sends_invariant (I := fun _ => True) (fun _ _ _ _ _ _ => trivial) trivial s h).2
      cases hrequest : request crate library config headers parsed s with
      | some r => exact ⟨parsed, r, rfl, hrequest⟩
      | none =>
          unfold ends at hends
          rw [hrequest] at hends
          split at hends <;> cases hends

/-- A request of the blocking loop carries its token, unless its URL holds credentials. -/
theorem request_authorized_iff {parsed : Url} {s : BlockingHop}
    (hcurrent : crate.parse s.current.serialization = some s.current) {r : Request}
    (h : request crate library config headers parsed s = some r) :
    Authorized crate config r ↔ ¬s.current.HasCredentials := by
  obtain ⟨current, hparse, hauthorizations, hurl⟩ := buildGet_spec h
  obtain rfl : s.current = current := Option.some.inj (hcurrent.symm.trans hparse)
  have hiff := @credentials_bearers_iff crate library config _ _ hparse
    (config.authTokenForUrl crate r.url.serialization)
  unfold Authorized
  rw [hauthorizations]
  refine hiff.trans (and_iff_left_of_imp fun hnot => ?_)
  rw [hurl hnot]

end Blocking

namespace Async

variable {crate : UrlCrate} {library : HttpLibrary} {config : NpmConfig} {url : Str}
  {cached : Option CachedValidators} {sendAbbreviatedAccept : Bool} {attempts : Nat}

theorem build_spec {request : Request}
    (h : build crate library config url cached sendAbbreviatedAccept = some request) :
    ∃ parsed, crate.parse url = some parsed ∧
      request.authorizations =
        credentials library parsed ++ bearers (config.authTokenForUrl crate url) := by
  have haccept : asciiLower (lit "Accept") ≠ authorizationName := by decide
  have hetag : asciiLower (lit "If-None-Match") ≠ authorizationName := by decide
  have hmodified : asciiLower (lit "If-Modified-Since") ≠ authorizationName := by decide
  unfold build at h
  cases hget : clientGet crate library url with
  | none => simp [hget] at h
  | some first =>
      obtain ⟨parsed, hparse, hfirst, _⟩ := clientGet_spec hget
      refine ⟨parsed, hparse, ?_⟩
      rw [hget] at h
      cases h
      -- Of these headers only the token's is an authorization.
      rw [authorizations_headerIfSome hmodified, authorizations_headerIfSome hetag,
        authorizations_bearerIfSome]
      congr 1
      split
      · rw [authorizations_header haccept, hfirst]
      · exact hfirst

/-- All redirects so far kept host and port. -/
def StaysAtHost (urls : List Url) : Prop := urls.IsChain fun a b => b.sameHostPort a = true

instance (urls : List Url) : Decidable (StaysAtHost urls) :=
  inferInstanceAs (Decidable (urls.IsChain _))

theorem staysAtHost_redirect {previous : List Url} {current target : Url} :
    StaysAtHost (previous ++ [current] ++ [target]) ↔
      StaysAtHost (previous ++ [current]) ∧ target.sameHostPort current = true := by
  unfold StaysAtHost
  rw [List.isChain_append]
  simp

/-- What a request carries is what the first one of its attempt carried, while host and
port stay; after that it carries nothing. -/
def Carries (crate : UrlCrate) (library : HttpLibrary) (config : NpmConfig) (url : Str)
    (s : Following) : Prop :=
  ∀ request, s.request = some request → ∃ parsed, crate.parse url = some parsed ∧
    request.authorizations =
      if StaysAtHost (s.previous ++ [request.url]) then
        credentials library parsed ++ bearers (config.authTokenForUrl crate url)
      else []

theorem carries_start (completed : Nat) : Carries crate library config url
    (start crate library config url cached sendAbbreviatedAccept completed) := by
  intro request h
  obtain ⟨parsed, hparse, hauthorizations⟩ := build_spec h
  have hstays : StaysAtHost ([] ++ [request.url]) := List.isChain_singleton _
  refine ⟨parsed, hparse, ?_⟩
  exact hauthorizations.trans (if_pos hstays).symm

/-- A redirect keeps the header or removes it. -/
theorem follow_authorizations {request next : Request} {previous : List Url} {target : Url}
    (h : follow request previous target = .ok next) : next.url = target ∧ next.authorizations =
      if target.sameHostPort request.url then request.authorizations else [] := by
  unfold follow at h
  split at h
  · cases h
  · split at h
    · cases h
    · split at h
      · rename_i hsame
        cases h
        exact ⟨rfl, by simp [hsame, Request.authorizations]⟩
      · rename_i hsame
        cases h
        refine ⟨rfl, ?_⟩
        simp [hsame, Request.authorizations, List.filter_filter]

theorem carries_failed {kind : TransportKind} {completed : Nat} {s : Following}
    (h : failed crate library config url cached sendAbbreviatedAccept attempts kind completed =
      .goto s) : Carries crate library config url s := by
  unfold failed at h
  split at h
  · cases h
    exact carries_start _
  · cases h

theorem carries_answered {s s' : Following} {answer : Answer}
    (hs : Carries crate library config url s)
    (h : answered crate library config url cached sendAbbreviatedAccept attempts s answer =
      .goto s') : Carries crate library config url s' := by
  unfold answered at h
  cases hrequest : s.request with
  | none => simp [hrequest] at h
  | some request =>
      rw [hrequest] at h
      cases answer with
      | failed kind => exact carries_failed h
      | response status header =>
          dsimp only at h
          cases hlocation : location crate request status header with
          | some target =>
              rw [hlocation] at h
              dsimp only at h
              cases hfollow : follow request s.previous target with
              | error kind =>
                  rw [hfollow] at h
                  exact carries_failed h
              | ok next =>
                  rw [hfollow] at h
                  cases h
                  intro next' hnext
                  cases hnext
                  obtain ⟨parsed, hparse, hcarried⟩ := hs request hrequest
                  obtain ⟨hurl, hauthorizations⟩ := follow_authorizations hfollow
                  refine ⟨parsed, hparse, ?_⟩
                  rw [hauthorizations, hcarried, hurl]
                  cases hsame : target.sameHostPort request.url <;>
                    simp [staysAtHost_redirect, hsame, -List.append_assoc]
          | none =>
              rw [hlocation] at h
              dsimp only at h
              split at h
              · cases h
              · split at h
                · cases h
                  exact carries_start _
                · cases h

/-- The redirect chain up to a request serves its URL: as long as host and port stay,
the URL has the token of the first one, which holds no credentials of its own, and
after that the URL has no token. -/
def Serves (crate : UrlCrate) (config : NpmConfig) (url : Str) (chain : List Url) (last : Url) :
    Prop :=
  if StaysAtHost (chain ++ [last]) then
    (∀ parsed, crate.parse url = some parsed → ¬parsed.HasCredentials) ∧
      config.authTokenForUrl crate url = config.authTokenForUrl crate last.serialization
  else config.authTokenForUrl crate last.serialization = none

theorem request_authorized_iff {answers : List Answer} {s : Following}
    (h : s ∈ hops crate library config url cached sendAbbreviatedAccept attempts answers)
    {request : Request} (hrequest : s.request = some request) :
    Authorized crate config request ↔ Serves crate config url s.previous request.url := by
  have hcarries := (Client.sends_invariant (I := Carries crate library config url)
    (fun _ _ _ hs _ hnext => carries_answered hs hnext) (carries_start 1) s h).1
  obtain ⟨parsed, hparse, hauthorizations⟩ := hcarries request hrequest
  unfold Authorized Serves
  rw [hauthorizations]
  split
  · refine (credentials_bearers_iff hparse).trans (and_congr_left' ?_)
    simp [hparse]
  · cases config.authTokenForUrl crate request.url.serialization <;> simp

end Async

/-! ## The result -/

section Transports

variable (crate : UrlCrate) (library : HttpLibrary) (config : NpmConfig) (url : Str)
  (headers : List (Str × Str)) (cached : Option CachedValidators) (sendAbbreviatedAccept : Bool)
  (attempts : Nat) (answers : List Answer)

/-- Every request of either transport carries the token of its own URL. -/
def AllAuthorized : Prop :=
  (∀ r ∈ (Blocking.executeGet crate library config url headers answers).1,
    Authorized crate config r) ∧
  ∀ r ∈ (Async.asyncSendWithRetry crate library config url cached sendAbbreviatedAccept attempts
      answers).1, Authorized crate config r

theorem executeGet_requests : (Blocking.executeGet crate library config url headers answers).1 =
    (Blocking.hops crate library config url headers answers).filterMap fun s =>
      (crate.parse url).bind fun parsed =>
        Blocking.request crate library config headers parsed s := by
  unfold Blocking.executeGet Blocking.hops
  cases crate.parse url <;> rfl

/-- When the tokens are right: the blocking loop must not meet a URL that holds
credentials, and the chains of redirects that the library follows must serve every
URL on them with the token of the first one. -/
theorem allAuthorized_iff :
    AllAuthorized crate library config url headers cached sendAbbreviatedAccept attempts answers ↔
      (∀ s ∈ Blocking.hops crate library config url headers answers,
        ¬s.current.HasCredentials) ∧
      ∀ s ∈ Async.hops crate library config url cached sendAbbreviatedAccept attempts answers,
        ∀ r, s.request = some r → Async.Serves crate config url s.previous r.url := by
  refine and_congr ?_ ?_
  · rw [executeGet_requests]
    simp only [List.mem_filterMap, Option.bind_eq_some_iff]
    constructor
    · intro h s hs
      obtain ⟨parsed, r, hparse, hr⟩ := Blocking.exists_request hs
      exact (Blocking.request_authorized_iff (Blocking.current_parses hs) hr).mp
        (h r ⟨s, hs, parsed, hparse, hr⟩)
    · rintro h r ⟨s, hs, parsed, _, hr⟩
      exact (Blocking.request_authorized_iff (Blocking.current_parses hs) hr).mpr (h s hs)
  · change (∀ r ∈ (Async.hops crate library config url cached sendAbbreviatedAccept attempts
      answers).filterMap (·.request), _) ↔ _
    simp only [List.mem_filterMap]
    constructor
    · intro h s hs r hr
      exact (Async.request_authorized_iff hs hr).mp (h r ⟨s, hs, hr⟩)
    · rintro h r ⟨s, hs, hr⟩
      exact (Async.request_authorized_iff hs hr).mpr (h s hs r hr)

end Transports

section Scoped

/-- The package with a token, and a page without one on the same host. -/
def scopedUrl (path : Str) : Url where
  serialization := lit "https://r.test" ++ path
  scheme := lit "https"
  username := []
  password := none
  userInfo := []
  host := some (lit "r.test")
  port := some 443
  hostPort := lit "r.test"
  path := path
  query := none
  fragment := none

def packageUrl : Url := scopedUrl (lit "/npm/a")

def pageUrl : Url := scopedUrl (lit "/login")

def scopedUrls (text : Str) : Option Url :=
  [packageUrl, pageUrl].find? (·.serialization == text)

theorem scopedUrls_serialization {text : Str} {url : Url} (h : scopedUrls text = some url) :
    scopedUrls url.serialization = some url ∧ trim url.serialization = url.serialization := by
  have hmem := List.mem_of_find?_eq_some h
  simp only [List.mem_cons, List.not_mem_nil, or_false] at hmem
  rcases hmem with rfl | rfl <;> decide

def scopedCrate : UrlCrate where
  parse := scopedUrls
  parseError _ := lit "relative URL without a base"
  join _ := scopedUrls
  parse_serialization _ _ h := (scopedUrls_serialization h).1
  join_parses _ _ _ _ h := (scopedUrls_serialization h).1
  trim_serialization _ _ h := (scopedUrls_serialization h).2

def scopedConfig : NpmConfig :=
  { NpmConfig.default with
    authTokens := [(⟨lit "r.test", lit "/npm/"⟩, lit "secret")]
    nodup := by decide }

/-- The library takes the token of a package along to a page of the same host. -/
theorem redirect_leaks_token : ¬∀ (crate : UrlCrate) (library : HttpLibrary) (config : NpmConfig)
    (url : Str) (headers : List (Str × Str)) (cached : Option CachedValidators)
    (sendAbbreviatedAccept : Bool) (attempts : Nat) (answers : List Answer),
    AllAuthorized crate library config url headers cached sendAbbreviatedAccept attempts answers := by
  intro h
  have hall := (h scopedCrate ⟨fun _ _ => [], id⟩ scopedConfig packageUrl.serialization [] none true 3
    [.response 302 (some pageUrl.serialization), .response 200 none]).2
  have hlast := hall ⟨pageUrl, [(lit "Accept", Async.abbrevAccept),
    (authorizationName, bearer (lit "secret"))]⟩ (by decide)
  exact absurd hlast (by decide)

end Scoped
end Bpm
