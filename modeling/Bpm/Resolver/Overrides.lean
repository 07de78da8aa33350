import Bpm.Manifest

/-!
# Root overrides

Overrides are read from the root manifest only: string specifications, nested
ancestor selectors, `.` for the selected package itself, version-qualified keys
and `$name` references to root declarations.  `effectiveSpecFor` is what
placement asks: the specification that replaces a request below a chain of
ancestors.
-/

namespace Bpm

open Text

structure Selector where
  name : Str
  req : Option Str
deriving DecidableEq

structure OverrideRule where
  ancestors : List Selector
  package : Str
  packageReq : Option Str
  spec : Str
  key : Str
deriving DecidableEq

/-- Rules in key order, and the normalized entries recorded in a lockfile. -/
structure OverrideSet where
  rules : List OverrideRule
  normalized : Map Str
deriving DecidableEq

/-- The manifest an override declaration comes from. -/
inductive OverrideOrigin
  | root | workspace | installedPackage
deriving DecidableEq

inductive OverrideError
  | unsupportedOrigin (origin : OverrideOrigin)
  | unsupportedKey (location reason : Str)
  | unsupportedValue (location found : Str)
  | unsupportedSpec (location spec reason : Str)
  | missingReference (location reference : Str)
  | directDependencyMismatch (location package declared overrideSpec : Str)
deriving DecidableEq

def jsonKind : Json → Str
  | .null => lit "null"
  | .bool _ => lit "boolean"
  | .int _ | .float _ => lit "number"
  | .str _ => lit "string"
  | .arr _ => lit "array"
  | .obj _ => lit "object"

/-- JSON-pointer escaping of one path part. -/
def escapePointerPart (part : Str) : Str :=
  part.flatMap fun c =>
    if c = '~' then ['~', '0'] else if c = '/' then ['~', '1'] else [c]

def overrideLocation (package : Str) (ancestors : List Selector) : Str :=
  lit "/overrides/" ++
    join ['/'] ((ancestors.map Selector.name ++ [package]).map escapePointerPart)

def overrideSegmentOk (segment : Str) : Bool :=
  !segment.isEmpty && !segment.head?.any (fun c => c ∈ ['.', '_']) &&
    segment.all fun c => c.isLower || c.isDigit || c ∈ ['.', '-', '_']

def isPackageName (name : Str) : Bool :=
  match stripPrefix ['@'] name with
  | some rest =>
      match splitOnce ['/'] rest with
      | none => false
      | some (scope, package) =>
          !package.contains '/' && overrideSegmentOk scope && overrideSegmentOk package
  | none => !name.contains '/' && overrideSegmentOk name

/-- The name and the version qualifier of a selector key. -/
def splitSelector (key : Str) : Str × Option Str :=
  match stripPrefix ['@'] key with
  | some rest =>
      match rsplitOnce ['@'] rest with
      | some (scopePkg, req) =>
          if scopePkg.contains '/' then ('@' :: scopePkg, some req) else (key, none)
      | none => (key, none)
  | none =>
      match rsplitOnce ['@'] key with
      | some (name, req) => if req.isEmpty then (name, none) else (name, some req)
      | none => (key, none)

def parseSelector (crates : Crates) (key location : Str) :
    Except OverrideError Selector :=
  if key = ['.'] then
    .error (.unsupportedKey location (lit "`.` is only valid inside an override object"))
  else
    let (name, req) := splitSelector key
    if !isPackageName name then
      .error (.unsupportedKey location (lit "expected an npm package name selector"))
    else
      match req with
      | none => .ok ⟨name, none⟩
      | some text =>
          match crates.parseReq text with
          | some _ => .ok ⟨name, some text⟩
          | none =>
              .error (.unsupportedKey location
                (lit "version-qualified override key has an invalid semver range"))

def canonicalRuleKey (ancestors : List Selector) (selector : Selector) : Str :=
  join ['>'] ((ancestors ++ [selector]).map fun s =>
    match s.req with
    | some req => s.name ++ '@' :: req
    | none => s.name)

/-- The specification a raw value stands for, after `$name` references. -/
def dereference (ancestors : List Selector) (selector : Selector) (raw location : Str)
    (declarations : Map Str) : Except OverrideError Str :=
  match stripPrefix ['$'] raw with
  | none => .ok raw
  | some reference =>
      match declarations[selector.name]? with
      | some declared =>
          if ancestors.isEmpty ∧ reference ≠ selector.name then
            .error (.directDependencyMismatch location selector.name declared raw)
          else
            (declarations[reference]?).elim
              (.error (.missingReference location reference)) .ok
      | none =>
          (declarations[reference]?).elim
            (.error (.missingReference location reference)) .ok

def addRule (ancestors : List Selector) (selector : Selector) (raw location : Str)
    (declarations : Map Str) (set : OverrideSet) : Except OverrideError OverrideSet := do
  let effective ← dereference ancestors selector raw location declarations
  if (trim effective).isEmpty then
    .error (.unsupportedSpec location effective (lit "the override spec is empty"))
  else
    match declarations[selector.name]? with
    | some declared =>
        if ancestors.isEmpty ∧ raw ≠ declared ∧ raw ≠ '$' :: selector.name then
          .error (.directDependencyMismatch location selector.name declared raw)
        else
          .ok (push effective)
    | none => .ok (push effective)
where
  push (effective : Str) : OverrideSet :=
    let key := canonicalRuleKey ancestors selector
    { rules := set.rules ++ [⟨ancestors, selector.name, selector.req, effective, key⟩]
      normalized := set.normalized.insert key effective }

mutual

def parseOverrideEntry (crates : Crates) (declarations : Map Str) (key : Str)
    (value : Json) (ancestors : List Selector) (set : OverrideSet) :
    Except OverrideError OverrideSet :=
  let location := overrideLocation key ancestors
  match parseSelector crates key location with
  | .error e => .error e
  | .ok selector =>
      match value with
      | .str raw => addRule ancestors selector raw location declarations set
      | .obj fields =>
          parseOverrideFields crates declarations location selector ancestors fields set
      | other => .error (.unsupportedValue location (jsonKind other))

def parseOverrideFields (crates : Crates) (declarations : Map Str) (location : Str)
    (selector : Selector) (ancestors : List Selector) :
    List (Str × Json) → OverrideSet → Except OverrideError OverrideSet
  | [], set => .ok set
  | (child, value) :: rest, set => do
      let next ←
        if child = ['.'] then
          match value with
          | .str raw =>
              addRule ancestors selector raw (location ++ lit "/.") declarations set
          | other => .error (.unsupportedValue (location ++ lit "/.") (jsonKind other))
        else
          parseOverrideEntry crates declarations child value (ancestors ++ [selector]) set
      parseOverrideFields crates declarations location selector ancestors rest next

end

namespace OverrideSet

def empty : OverrideSet := ⟨[], ∅⟩

/-- Validate root overrides and resolve their references. -/
def fromManifest (crates : Crates) (overrides : Map Json) (declarations : Map Str)
    (origin : OverrideOrigin) : Except OverrideError OverrideSet :=
  if !overrides.isEmpty ∧ origin ≠ .root then
    .error (.unsupportedOrigin origin)
  else do
    let set ← overrides.toList.foldlM
      (fun set entry => parseOverrideEntry crates declarations entry.1 entry.2 [] set) empty
    return { set with rules := set.rules.insertionSort fun a b => a.key ≤ b.key }

end OverrideSet

/-- Versions at which two requirements are probed for a common solution. -/
def boundaryCandidates (comparators : List Comparator) : List Version :=
  let saturatingSucc (n : Nat) := min (n + 1) (2 ^ 64 - 1)
  ⟨0, 0, 0, [], []⟩ :: comparators.flatMap fun c =>
    [⟨c.major, c.minor.getD 0, c.patch.getD 0, [], []⟩,
      ⟨c.major, c.minor.getD 0, saturatingSucc (c.patch.getD 0), [], []⟩,
      ⟨saturatingSucc c.major, 0, 0, [], []⟩]

def rangesIntersect (crates : Crates) (left right : VersionReq) : Bool :=
  (boundaryCandidates (left.comparators ++ right.comparators)).any fun candidate =>
    crates.reqMatches left candidate && crates.reqMatches right candidate

def requestMatchesSelector (crates : Crates) (selectorReq : Option Str)
    (requested : Str) : Bool :=
  match selectorReq with
  | none => true
  | some selectorReq =>
      let selector := crates.parseReq selectorReq
      match parseSpec crates (lit "override-probe@" ++ requested) with
      -- Source and tag requests expose no version before resolution.
      | .error _ => true
      | .ok parsed =>
          match parsed.req with
          | .exact version =>
              match crates.parseVersion selectorReq with
              | some exact => exact = version
              | none => selector.any fun req => crates.reqMatches req version
          | .latest => true
          | .range range =>
              selector.any fun selector =>
                range.requirements.any fun request => rangesIntersect crates selector request

/-- Whether the selectors match the nearest ancestors, in order. -/
def ancestorsMatch (crates : Crates) (selectors : List Selector)
    (ancestors : List (Str × Version)) : Bool :=
  if ancestors.length < selectors.length then
    false
  else
    (selectors.zip (ancestors.drop (ancestors.length - selectors.length))).all
      fun (selector, name, version) =>
        selector.name = name &&
          match selector.req with
          | none => true
          | some req => (crates.parseReq req).any fun parsed => crates.reqMatches parsed version

/-- The order that decides between matching rules: depth, then key. -/
def OverrideRule.le (a b : OverrideRule) : Bool :=
  a.ancestors.length < b.ancestors.length ||
    (a.ancestors.length = b.ancestors.length && (compare a.key b.key).isLE)

/-- The last of the greatest rules. -/
def maxRule : List OverrideRule → Option OverrideRule
  | [] => none
  | rule :: rest =>
      some (rest.foldl (fun best next => if best.le next then next else best) rule)

/-- The specification in force for `package` requested below `ancestors`, which
run from the root-most package to the immediate parent. -/
def OverrideSet.effectiveSpecFor (crates : Crates) (set : OverrideSet)
    (package requested : Str) (ancestors : List (Str × Version)) : Str :=
  match maxRule (set.rules.filter fun rule =>
      rule.package = package && ancestorsMatch crates rule.ancestors ancestors &&
        requestMatchesSelector crates rule.packageReq requested) with
  | none => requested
  | some rule => rule.spec

end Bpm
