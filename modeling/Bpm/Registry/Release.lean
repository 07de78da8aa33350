import Bpm.Registry.Packument

/-!
# A concrete semver for plain releases

Versions `a.b.c` with one digit each and no pre-release part, requirements `*`,
`^a`, `^a.b.c` and the bare forms of the last two, which `semver` reads as caret
requirements.  On these texts `releases` answers as the crates do; it serves to
run the model on concrete registries.
-/

namespace Bpm
namespace Release

open Text

def digit? (c : Char) : Option Nat :=
  if c.isDigit then some (c.toNat - '0'.toNat) else none

def showVersion (v : Version) : Str :=
  join ['.'] [Nat.toDigits 10 v.major, Nat.toDigits 10 v.minor, Nat.toDigits 10 v.patch] ++
    (if v.pre.isEmpty then [] else '-' :: v.pre) ++
    (if v.build.isEmpty then [] else '+' :: v.build)

/-- Texts that hold neither a slash nor a colon. -/
def plainText (s : Str) : Bool := !s.contains '/' && !s.contains ':'

def parseVersion (s : Str) : Option Version :=
  match s with
  | [a, '.', b, '.', c] => do
      let version : Version := ⟨← digit? a, ← digit? b, ← digit? c, [], []⟩
      if showVersion version = s ∧ plainText s then some version else none
  | _ => none

def leVersion (v w : Version) : Bool :=
  compare v.major w.major = .lt || (v.major = w.major &&
    (compare v.minor w.minor = .lt || (v.minor = w.minor && v.patch ≤ w.patch)))

def caret (s : Str) : Option VersionReq :=
  match s with
  | [a] => do return ⟨[⟨.caret, ← digit? a, none, none, []⟩]⟩
  | [a, '.', b, '.', c] => do
      return ⟨[⟨.caret, ← digit? a, some (← digit? b), some (← digit? c), []⟩]⟩
  | _ => none

def parseReq (s : Str) : Option VersionReq :=
  if plainText s then
    match s with
    | ['*'] => some ⟨[]⟩
    | '^' :: rest => caret rest
    | rest => caret rest
  else
    none

def showComparator (c : Comparator) : Str :=
  '^' :: join ['.'] ([Nat.toDigits 10 c.major] ++
    (c.minor.toList ++ c.patch.toList).map (Nat.toDigits 10))

def showReq (r : VersionReq) : Str :=
  if r.comparators.isEmpty then ['*'] else join [',', ' '] (r.comparators.map showComparator)

/-- The caret rule: nothing left of the first nonzero part may change. -/
def comparatorMatches (c : Comparator) (v : Version) : Bool :=
  v.major = c.major && v.pre.isEmpty &&
    match c.minor, c.patch with
    | some minor, some patch =>
        if 0 < c.major then
          minor < v.minor || (v.minor = minor && patch ≤ v.patch)
        else if 0 < minor then
          v.minor = minor && patch ≤ v.patch
        else
          v.minor = minor && v.patch = patch
    | _, _ => true

def isBase64 (c : Char) : Bool := c.isAlphanum || c = '+' || c = '/'

/-- `sha512-` followed by the base64 text of 64 bytes. -/
def integrityParses (s : Str) : Bool :=
  match stripPrefix (lit "sha512-") s with
  | some body =>
      body.length = 88 && (body.take 86).all isBase64 && body.drop 86 = ['=', '=']
  | none => false

/-- The functions of the crates on plain releases. -/
def crates : Crates where
  parseVersion := parseVersion
  showVersion := showVersion
  leVersion := leVersion
  parseReq := parseReq
  showReq := showReq
  reqMatches := fun r v => r.comparators.all (comparatorMatches · v) && v.pre.isEmpty
  urlScheme := fun s => (splitOnce (lit "://") s).map Prod.fst
  integrityParses := integrityParses

theorem parseVersion_some {s : Str} {v : Version} (h : parseVersion s = some v) :
    showVersion v = s ∧ plainText s = true := by
  unfold parseVersion at h
  split at h
  · simp only [Option.bind_eq_bind, Option.bind_eq_some_iff, Option.ite_none_right_eq_some] at h
    obtain ⟨_, _, _, _, _, _, hcheck, heq⟩ := h
    rw [← Option.some.inj heq]
    exact hcheck
  · cases h

theorem plainText_iff {s : Str} : plainText s = true ↔ '/' ∉ s ∧ ':' ∉ s := by
  simp [plainText]

theorem crates_lawful : crates.Lawful where
  show_parse := fun _ _ h => (parseVersion_some h).1
  version_text := fun _ _ h => plainText_iff.mp (parseVersion_some h).2
  req_text := by
    intro s r h
    change parseReq s = some r at h
    unfold parseReq at h
    split at h
    · rename_i hplain
      exact plainText_iff.mp hplain
    · cases h

/-- The release `major.minor.patch`. -/
def version (major minor patch : Nat) : Version := ⟨major, minor, patch, [], []⟩

/-- The integrity text of 64 zero bytes. -/
def zeroIntegrity : Str := lit "sha512-" ++ List.replicate 86 'A' ++ ['=', '=']

/-- A published version with the given dependencies and peers. -/
def published (name : Str) (v : Version) (dependencies peers : List (Str × Str)) :
    VersionMetadata where
  name := name
  version := v
  dependencies := Std.ExtTreeMap.ofList dependencies
  optionalDependencies := ∅
  peerDependencies := Std.ExtTreeMap.ofList peers
  peerDependenciesMeta := ∅
  bin := ∅
  dist := ⟨['t'], zeroIntegrity⟩
  os := []
  cpu := []
  libc := []
  hasInstallScript := false

/-- The packument of published versions, the last of which is the latest. -/
def packument (versions : List VersionMetadata) : Packument where
  distTags := Std.ExtTreeMap.ofList
    (versions.getLast?.toList.map fun m => (lit "latest", showVersion m.version))
  versions := Std.ExtTreeMap.ofList (versions.map fun m => (showVersion m.version, m))

/-- A registry that serves the given published versions. -/
def registry (versions : List VersionMetadata) : Registry where
  packument := fun name =>
    match versions.filter (fun m => m.name = name) with
    | [] => .error (.fetch name)
    | found => .ok (packument found)
  versionManifest := fun name v =>
    match versions.find? (fun m => m.name = name && m.version = v) with
    | none => .error (.fetch name)
    | some m => .ok m
  baseFor := fun _ => lit "https://r"

/-- Versions whose texts are read back make a registry whose keys match. -/
theorem registry_keysMatch {versions : List VersionMetadata}
    (h : ∀ m ∈ versions, parseVersion (showVersion m.version) = some m.version) :
    (registry versions).KeysMatch crates where
  packument := by
    intro name p hp key metadata hget
    change (match versions.filter (fun m => m.name = name) with
      | [] => .error (.fetch name)
      | found => .ok (packument found) : Except RegistryError Packument) = .ok p at hp
    split at hp
    · cases hp
    · cases hp
      have hmem := Map.mem_of_get_ofList hget
      obtain ⟨m, hm, heq⟩ := List.mem_map.mp hmem
      obtain ⟨rfl, rfl⟩ := Prod.mk.inj heq
      exact h m (List.mem_filter.mp hm).1
  versionManifest := by
    intro name v m hm
    change (match versions.find? (fun m => m.name = name && m.version = v) with
      | none => .error (.fetch name)
      | some m => .ok m : Except RegistryError VersionMetadata) = .ok m at hm
    split at hm
    · cases hm
    · rename_i found hfound
      cases hm
      have hfind := List.find?_some hfound
      simp only [Bool.and_eq_true, decide_eq_true_eq] at hfind
      exact hfind.2

end Release
end Bpm
