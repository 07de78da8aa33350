import Bpm.Lib.OrdMap

/-!
# Package specifications and version requests

`pkg`, `pkg@1.2.3`, `@scope/pkg@^1.2.0`: a package name and what is asked of its
version.  The functions of the `semver` crate, of the URL parser and of the
base64 decoder behind `Integrity::parse` are fields of `Crates`; everything that
bpm itself computes from them is defined here.
-/

namespace Bpm

open Text

/-- A version of the `semver` crate. -/
structure Version where
  major : Nat
  minor : Nat
  patch : Nat
  pre : Str
  build : Str
deriving DecidableEq

/-- The comparison operators of the `semver` crate. -/
inductive Op
  | exact | greater | greaterEq | less | lessEq | tilde | caret | wildcard
deriving DecidableEq

/-- One comparator of a requirement; missing parts are `none`. -/
structure Comparator where
  op : Op
  major : Nat
  minor : Option Nat
  patch : Option Nat
  pre : Str
deriving DecidableEq

/-- A conjunction of comparators. -/
structure VersionReq where
  comparators : List Comparator
deriving DecidableEq

/-- What bpm calls in other crates while it selects versions: parsing, printing,
ordering and matching of `semver`, the scheme of an absolute URL, and whether an
integrity text decodes to a SHA-512 digest. -/
structure Crates where
  parseVersion : Str → Option Version
  showVersion : Version → Str
  leVersion : Version → Version → Bool
  parseReq : Str → Option VersionReq
  showReq : VersionReq → Str
  reqMatches : VersionReq → Version → Bool
  urlScheme : Str → Option Str
  integrityParses : Str → Bool

/-- What bpm relies on in `semver`: a version prints as the text it was parsed
from, and no version or requirement text holds a slash or a colon. -/
structure Crates.Lawful (crates : Crates) : Prop where
  show_parse : ∀ s v, crates.parseVersion s = some v → crates.showVersion v = s
  version_text : ∀ s v, crates.parseVersion s = some v → '/' ∉ s ∧ ':' ∉ s
  req_text : ∀ s r, crates.parseReq s = some r → '/' ∉ s ∧ ':' ∉ s

/-- Alternatives separated by `||`. -/
structure VersionRange where
  requirements : List VersionReq
deriving DecidableEq

/-- Whether a token consists of operator characters only. -/
def isOperatorToken (token : Str) : Bool :=
  !token.isEmpty && token.all fun c => c ∈ ['>', '<', '=', '^', '~']

/-- Glue every operator to the operand that follows it; the state is the list of
comparators so far and the operator that still waits for its operand. -/
def glueOperators : List Str → Option Str → List Str
  | [], none => []
  | [], some operator => [operator]
  | token :: rest, pending =>
      if isOperatorToken token then
        glueOperators rest (some ((pending.getD []) ++ token))
      else
        ((pending.getD []) ++ token) :: glueOperators rest none

/-- Append a comparator to the text joined so far. -/
def joinComparator (joined comparator : Str) : Str :=
  if joined.isEmpty then
    comparator
  else if [','].isSuffixOf joined then
    joined ++ ' ' :: comparator
  else
    joined ++ ',' :: ' ' :: comparator

/-- Re-join operators separated from their version by white space. -/
def normalizeComparatorWhitespace (part : Str) : Str :=
  (glueOperators (splitWhitespace part) none).foldl joinComparator []

/-- Parse the requirements of the parts between `||`; every part must parse. -/
def parseRequirements (crates : Crates) : List Str → Option (List VersionReq)
  | [] => some []
  | part :: rest =>
      let text := normalizeComparatorWhitespace (trim part)
      if text.isEmpty then
        none
      else
        match crates.parseReq text with
        | none => none
        | some req => (parseRequirements crates rest).map (req :: ·)

namespace VersionRange

def parse (crates : Crates) (value : Str) : Option VersionRange :=
  (parseRequirements crates (splitStr ['|', '|'] value)).map VersionRange.mk

def matchesVersion (crates : Crates) (range : VersionRange) (version : Version) : Bool :=
  range.requirements.any fun req => crates.reqMatches req version

def display (crates : Crates) (range : VersionRange) : Str :=
  join [' ', '|', '|', ' '] (range.requirements.map crates.showReq)

end VersionRange

/-- How a specification asks for a version. -/
inductive VersionRequest
  | latest
  | exact (version : Version)
  | range (range : VersionRange)
deriving DecidableEq

structure PackageSpec where
  name : Str
  req : VersionRequest
deriving DecidableEq

/-- Why a specification is not accepted. -/
inductive SpecFault
  | empty
  | badName (name : Str)
  | badRange (text : Str)
  | badVersion (text : Str)
deriving DecidableEq

/-- Registry failures that resolution distinguishes; `fetch` stands for every
failure to obtain or decode a document. -/
inductive RegistryError
  | invalidSpec (spec : Str) (fault : SpecFault)
  | noVersions (package : Str)
  | versionNotFound (package req : Str)
  | missingDist (package version : Str)
  | invalidIntegrity (package version : Str)
  | unsupportedTarballSource (package version scheme : Str)
  | fetch (package : Str)
deriving DecidableEq

def isAsciiAlnum (allowUppercase : Bool) (c : Char) : Bool :=
  c.isLower || c.isDigit || (allowUppercase && c.isUpper)

/-- One segment of a package name. -/
def validNameSegment (segment : Str) (allowUppercase : Bool) : Bool :=
  match segment with
  | [] => false
  | first :: rest =>
      isAsciiAlnum allowUppercase first &&
        (first :: rest).all fun c => isAsciiAlnum allowUppercase c || c ∈ ['.', '-', '_']

def validNpmName (name : Str) (allowUppercase : Bool) : Bool :=
  if name.isEmpty || 214 < name.length || !name.all (fun c => c.toNat < 128) then
    false
  else
    match stripPrefix ['@'] name with
    | some rest =>
        match splitOnce ['/'] rest with
        | some (scope, pkg) =>
            validNameSegment scope allowUppercase && validNameSegment pkg allowUppercase
        | none => false
    | none => validNameSegment name allowUppercase

/-- A structurally safe package name for registry reads. -/
def isValidNpmReadName (name : Str) : Bool := validNpmName name true

/-- The request of a specification text after its last `@`. -/
def parseRequest (crates : Crates) (spec : Str) (req : Option Str) :
    Except RegistryError VersionRequest :=
  match req.map trim with
  | none => .ok .latest
  | some s =>
      if s = [] ∨ s = lit "latest" then
        .ok .latest
      else if s.head?.any (fun c => c ∈ ['^', '~', '>', '<', '=', '*']) then
        match VersionRange.parse crates s with
        | some range => .ok (.range range)
        | none => .error (.invalidSpec spec (.badRange s))
      else
        match crates.parseVersion s with
        | some version => .ok (.exact version)
        | none =>
            match VersionRange.parse crates s with
            | some range => .ok (.range range)
            | none => .error (.invalidSpec spec (.badVersion s))

/-- The name and the request text of a trimmed specification: the separator is
the last `@` that is not the leading scope marker. -/
def splitSpec (spec : Str) : Str × Option Str :=
  match rsplitOnce ['@'] spec with
  | none => (spec, none)
  | some ([], _) => (spec, none)
  | some (name, req) => (name, some req)

def parseSpec (crates : Crates) (text : Str) : Except RegistryError PackageSpec :=
  let spec := trim text
  if spec.isEmpty then
    .error (.invalidSpec spec .empty)
  else
    let (name, reqStr) := splitSpec spec
    if !isValidNpmReadName name then
      .error (.invalidSpec spec (.badName name))
    else
      match parseRequest crates spec reqStr with
      | .error e => .error e
      | .ok req => .ok ⟨name, req⟩

/-- Whether a version satisfies a request text. -/
def requestMatches (crates : Crates) (spec : Str) (version : Version) : Bool :=
  match parseSpec crates (lit "pkg@" ++ spec) with
  | .error _ => false
  | .ok parsed =>
      match parsed.req with
      | .latest => true
      | .exact expected => expected = version
      | .range range => range.matchesVersion crates version

def versionRequestToString (crates : Crates) : VersionRequest → Str
  | .latest => lit "latest"
  | .exact version => crates.showVersion version
  | .range range => range.display crates

/-- Split the alias syntax `npm:target@range`, keeping the dependency name for
placement. -/
def registryRequest (crates : Crates) (name spec : Str) : Str × Str :=
  match stripPrefix (lit "npm:") spec with
  | none => (name, spec)
  | some target =>
      match parseSpec crates target with
      | .ok parsed => (parsed.name, versionRequestToString crates parsed.req)
      | .error _ => (name, spec)

end Bpm
