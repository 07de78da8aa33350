import Bpm.Lib.OrdMap

/-!
# URLs and registry credentials

What the URL library says about a URL is data of the model; parsing and joining are
the library's.  A token is configured for a host with its port and for a directory
there, and the most specific directory around a request's path counts.
-/

namespace Bpm

open Text

/-- What the URL library knows of a parsed URL. -/
structure Url where
  serialization : Str
  scheme : Str
  username : Str
  password : Option Str
  /-- What stands before the host in the authority: user information with its `@`. -/
  userInfo : Str
  host : Option Str
  /-- The port, or else the default port of the scheme. -/
  port : Option UInt16
  /-- The host as it is written, with an explicit port. -/
  hostPort : Str
  path : Str
  query : Option Str
  fragment : Option Str
deriving DecidableEq

/-- The URL library, and what the program relies on: what it prints it reads again,
and no white space surrounds it. -/
structure UrlCrate where
  parse : Str → Option Url
  /-- What is wrong with a text that is no URL. -/
  parseError : Str → Str
  join : Url → Str → Option Url
  parse_serialization : ∀ text url, parse text = some url → parse url.serialization = some url
  join_parses : ∀ base text url, parse base.serialization = some base → join base text = some url →
    parse url.serialization = some url
  trim_serialization : ∀ text url, parse text = some url →
    trim url.serialization = url.serialization

namespace Url

/-- Scheme, host and port; only a web address has an origin of its own. -/
def sameOrigin (a b : Url) : Bool :=
  [lit "http", lit "https", lit "ws", lit "wss", lit "ftp"].contains a.scheme &&
    (a.scheme, a.host, a.port) == (b.scheme, b.host, b.port)

def sameHostPort (a b : Url) : Bool := (a.host, a.port) == (b.host, b.port)

def isHttp (url : Url) : Bool := url.scheme == lit "http" || url.scheme == lit "https"

end Url

/-- Display only: no user information, query or fragment. -/
def redactUrl (url : Str) : Str :=
  let withoutSuffix := url.takeWhile fun c => c != '?' && c != '#'
  match splitOnce (lit "://") withoutSuffix with
  | none => lit "<invalid-url>"
  | some (scheme, remainder) =>
      let authority := remainder.takeWhile (· != '/')
      let path := remainder.dropWhile (· != '/')
      let host := ((rsplitOnce ['@'] authority).map (·.2)).getD authority
      asciiLower scheme ++ lit "://" ++ host ++ path

structure AuthScope where
  authority : Str
  pathPrefix : Str
deriving DecidableEq

/-- The length of a text in bytes. -/
def byteLength (s : Str) : Nat := (s.map Char.utf8Size).sum

/-- A time span in nanoseconds; its whole seconds are a 64-bit number. -/
structure Duration where
  nanos : Nat
  fits : nanos < 2 ^ 64 * 10 ^ 9
deriving DecidableEq

namespace Duration

def zero : Duration := ⟨0, by decide⟩

def fromMillis (milliseconds : UInt64) : Duration where
  nanos := milliseconds.toNat * 10 ^ 6
  fits := by
    have hlt := milliseconds.toNat_lt
    omega

theorem nanos_injective : Function.Injective nanos := by
  rintro ⟨_, _⟩ ⟨_, _⟩ h
  cases h
  rfl

instance : LinearOrder Duration := LinearOrder.lift' nanos nanos_injective

end Duration

/-- Retry and timeout settings of the HTTP layer. -/
structure NetworkConfig where
  retries : Nat
  retryFactor : UInt32
  retryMinTimeout : Duration
  retryMaxTimeout : Duration
  fetchTimeout : Duration

def NetworkConfig.default : NetworkConfig where
  retries := 2
  retryFactor := 10
  retryMinTimeout := .fromMillis 10000
  retryMaxTimeout := .fromMillis 60000
  fetchTimeout := .fromMillis 300000

/-- The settings that npmrc files may change; one token for each scope. -/
structure NpmConfig where
  registry : Str
  scopedRegistries : Map Str
  authTokens : List (AuthScope × Str)
  nodup : (authTokens.map (·.1)).Nodup
  network : NetworkConfig

def pathIsWithinAuthScope (targetPath scopePrefix : Str) : Bool :=
  scopePrefix.isPrefixOf targetPath ||
    (scopePrefix != ['/'] && targetPath == scopePrefix.rdropWhile (· == '/'))

structure RequestTarget where
  scheme : Str
  authority : Str
  path : Str
  hasQuery : Bool
  hasFragment : Bool

def parseHttpTarget (crate : UrlCrate) (value : Str) : Option RequestTarget :=
  if trim value ≠ value then none
  else
    match crate.parse value with
    | none => none
    | some parsed =>
        if !parsed.isHttp || parsed.host.isNone || !parsed.username.isEmpty ||
            parsed.password.isSome || !parsed.userInfo.isEmpty then none
        else
          some {
            scheme := parsed.scheme
            authority := asciiLower parsed.hostPort
            path := parsed.path
            hasQuery := parsed.query.isSome
            hasFragment := parsed.fragment.isSome }

/-- The last of the elements with the greatest key. -/
def maxByKey {α : Type} (key : α → Nat) : List α → Option α
  | [] => none
  | x :: xs =>
      match maxByKey key xs with
      | none => some x
      | some y => if key x ≤ key y then some y else some x

namespace NpmConfig

def default : NpmConfig where
  registry := lit "https://registry.npmjs.org"
  scopedRegistries := ∅
  authTokens := []
  nodup := List.nodup_nil
  network := .default

def authTokenForUrl (config : NpmConfig) (crate : UrlCrate) (url : Str) : Option Str :=
  match parseHttpTarget crate url with
  | none => none
  | some target =>
      (maxByKey (fun entry : AuthScope × Str => byteLength entry.1.pathPrefix)
        (config.authTokens.filter fun entry =>
          entry.1.authority == target.authority &&
            pathIsWithinAuthScope target.path entry.1.pathPrefix)).map (·.2)

/-- A URL with credentials of its own gets no token. -/
theorem authTokenForUrl_of_credentials (config : NpmConfig) {crate : UrlCrate} {text : Str}
    {url : Url} (hparse : crate.parse text = some url)
    (h : url.username ≠ [] ∨ url.password ≠ none) : config.authTokenForUrl crate text = none := by
  have htarget : parseHttpTarget crate text = none := by
    unfold parseHttpTarget
    split
    · rfl
    · rw [hparse]
      rcases h with h | h
      · simp [h]
      · simp [Option.ne_none_iff_isSome.mp h]
  unfold authTokenForUrl
  rw [htarget]

end NpmConfig
end Bpm
