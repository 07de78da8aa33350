import Bpm.Graph.Id
import Bpm.Lockfile.RoundTrip
import Bpm.Manifest
import Bpm.Resolver.Sources

/-!
# npm's `package-lock.json`

npm keeps a flat table of packages keyed by their `node_modules` path.  The
importer reads the table of a version 2 or 3 lockfile into a lockfile of ours; the
exporter writes a version 3 table, the root dependency groups taken from the
manifest and the placements from the lockfile.
-/

namespace Bpm

open Text Serde

inductive Severity
  | info | warning | error
deriving DecidableEq

namespace Severity

def rank : Severity → Nat
  | info => 0
  | warning => 1
  | error => 2

end Severity

/-- A note about something that was recorded but is not honoured in full. -/
structure Diagnostic where
  severity : Severity
  code : Str
  message : Str
  package : Option Str
deriving DecidableEq

namespace Diagnostic

/-- By code, then the most severe first, then by message. -/
def notAfter (a b : Diagnostic) : Bool :=
  if a.code = b.code then
    if a.severity = b.severity then decide (a.message ≤ b.message)
    else decide (b.severity.rank ≤ a.severity.rank)
  else decide (a.code ≤ b.code)

end Diagnostic

def sortDiagnostics (diagnostics : List Diagnostic) : List Diagnostic :=
  diagnostics.insertionSort fun a b => Diagnostic.notAfter a b = true

/-- Reading a text as a JSON document; documents are written by `Json.pretty`. -/
abbrev JsonReader := Str → Option Json

/-- Downloads, numbered by the package that asks: the status and the body, and the
integrity text of a body. -/
structure Network where
  get : Nat → Str → Option (Nat × List UInt8)
  sha512 : List UInt8 → Str

namespace NpmLock

/-- What is wrong with the `bin` of a package. -/
inductive BinProblem
  | entryNotText (name : Str)
  | expected (found : Str)
  | unsafeName (name : Str) (details : PathSafetyError)
  | unsafeTarget (target : Str) (details : PathSafetyError)
deriving DecidableEq

inductive NpmLockError
  | parse
  | unsupportedVersion (found : UInt32)
  | noPackages
  | invalidCanonicalName (path name : Str)
  | invalidBin (path : Str) (reason : BinProblem)
  | unsafePath (path : Str) (details : PathSafetyError)
  | exportUnsupported (packages : Str)
deriving DecidableEq

def supportedLockfileVersion : UInt32 := 3

def acceptedImportLockfileVersions : List UInt32 := [2, 3]

/-- A package of the table as it is read. -/
structure RawPkg where
  name : Option Str
  version : Option Str
  resolved : Option Str
  integrity : Option Str
  link : Option Bool
  dev : Option Bool
  optional : Option Bool
  inBundle : Option Bool
  bin : Json
  dependencies : Map Str
  devDependencies : Map Str
  optionalDependencies : Map Str
  peerDependencies : Map Str
  os : List Str
  cpu : List Str

structure RawLock where
  name : Option Str
  lockfileVersion : Option UInt32
  packages : Map RawPkg

structure ImportReport where
  lockfile : Lockfile
  diagnostics : List Diagnostic

/-! ## Reading the table -/

/-- Any value, as it stands. -/
def anyValue : Codec Json := ⟨id, some, fun _ => rfl⟩

def isNull : Json → Bool
  | .null => true
  | _ => false

theorem eq_null_of_isNull {value : Json} (h : isNull value = true) : value = .null := by
  cases value <;> simp_all [isNull]

/-- An optional flag, left out when it is missing. -/
def optionFlag (name : Str) : Fields (Option Bool) :=
  .defaulted name (.option .bool fun _ h => by cases h) none (·.isNone) fun _ h =>
    Option.isNone_iff_eq_none.mp h

def rawPkg : Codec RawPkg :=
  .record
    (.prod (Schema.optionField (lit "name"))
      (.prod (Schema.optionField (lit "version"))
      (.prod (Schema.optionField (lit "resolved"))
      (.prod (Schema.optionField (lit "integrity"))
      (.prod (optionFlag (lit "link"))
      (.prod (optionFlag (lit "dev"))
      (.prod (optionFlag (lit "optional"))
      (.prod (optionFlag (lit "inBundle"))
      (.prod (.defaulted (lit "bin") anyValue .null isNull fun _ => eq_null_of_isNull)
      (.prod (Schema.mapField (lit "dependencies") .str)
      (.prod (Schema.mapField (lit "devDependencies") .str)
      (.prod (Schema.mapField (lit "optionalDependencies") .str)
      (.prod (Schema.mapField (lit "peerDependencies") .str)
      (.prod (Schema.listField (lit "os"))
        (Schema.listField (lit "cpu"))
      (by decide)) (by decide)) (by decide)) (by decide))
      (by decide)) (by decide)) (by decide)) (by decide))
      (by decide)) (by decide)) (by decide)) (by decide))
      (by decide)) (by decide))
    (fun (name, version, resolved, integrity, link, dev, optional, inBundle, bin, dependencies,
        devDependencies, optionalDependencies, peerDependencies, os, cpu) =>
      ⟨name, version, resolved, integrity, link, dev, optional, inBundle, bin, dependencies,
        devDependencies, optionalDependencies, peerDependencies, os, cpu⟩)
    (fun p => (p.name, p.version, p.resolved, p.integrity, p.link, p.dev, p.optional, p.inBundle,
      p.bin, p.dependencies, p.devDependencies, p.optionalDependencies, p.peerDependencies, p.os,
      p.cpu)) fun _ => rfl

def rawLock : Codec RawLock :=
  .record
    (.prod (Schema.optionField (lit "name"))
      (.prod (.defaulted (lit "lockfileVersion") (.option .u32 fun _ h => by cases h) none
          (·.isNone) fun _ h => Option.isNone_iff_eq_none.mp h)
        (Schema.mapField (lit "packages") rawPkg)
      (by decide)) (by decide))
    (fun (name, lockfileVersion, packages) => ⟨name, lockfileVersion, packages⟩)
    (fun l => (l.name, l.lockfileVersion, l.packages)) fun _ => rfl

/-! ## Names and sources -/

def modulesPrefix : Str := lit "node_modules/"

/-- What stands behind the last `node_modules/`; the last segment of other paths. -/
def packageNameFromPath (path : Str) : Str :=
  match rsplitOnce modulesPrefix path with
  | some parts => parts.2
  | none => lastSegment path

def deriveRegistryUrl (name version : Str) : Str :=
  lit "https://registry.npmjs.org/" ++ name ++ lit "/-/" ++ lastSegment name ++ '-' :: version ++
    lit ".tgz"

/-- The schemes under which npm records a Git remote. -/
def gitSchemes : List Str :=
  [lit "git+ssh://git@", lit "git+ssh://", lit "ssh://git@", lit "git+https://",
    lit "git+http://", lit "git://"]

/-- The remote without its scheme, where the host is one of the known ones. -/
def normalizedGitSpec (spec : Str) : Option Str :=
  match gitSchemes.findSome? (stripPrefix · spec) with
  | some rest =>
      match splitOnce ['/'] rest with
      | some (host, path) =>
          if host = lit "github.com" ∨ host = lit "gitlab.com" ∨ host = lit "bitbucket.org" then
            some (lit "https://" ++ host ++ '/' :: path)
          else none
      | none => none
  | none => some spec

/-- The Git source, the commit and the archive of a URL that is pinned to a commit
of a known host. -/
def hostedGitFromNpmResolved (resolved : Str) : Option (Str × Str × Str) :=
  match splitOnce ['#'] resolved with
  | none => none
  | some (spec, commit) =>
      if !isFullGitCommit commit then none
      else do
        let spec ← normalizedGitSpec spec
        let normalized := trimEndMatches (lit ".git") spec
        let tarball ← hostedGitTarballUrl normalized (some commit)
        return (normalized, commit, tarball)

/-- The archive of a Git package in place of its recorded URL. -/
def archiveOr (git : Option (Str × Str × Str)) (recorded : Str) : Str :=
  (git.map fun parts => parts.2.2).getD recorded

/-- The resolver's record of a Git package. -/
def gitResolution (url commit : Str) : PackageResolution :=
  { source := .git url none commit
    devOptional := false, peer := false, libc := []
    dependencies := ∅, optionalDependencies := ∅, peerDependencies := ∅
    optionalPeers := ∅, peerContext := ∅, workspaceTarget := none, hasInstallScript := false }

/-! ## Executables -/

def otherType : Json → Str
  | .null => lit "null"
  | .bool _ => lit "bool"
  | .int _ => lit "number"
  | .float _ => lit "number"
  | .str _ => lit "string"
  | .arr _ => lit "array"
  | .obj _ => lit "object"

/-- The texts of an object, up to the first entry that is none. -/
def binEntries (path : Str) : List (Str × Json) → Map Str → Except NpmLockError (Map Str)
  | [], bin => .ok bin
  | (name, value) :: rest, bin =>
      match value.asStr? with
      | some target => binEntries path rest (bin.insert name target)
      | none => .error (.invalidBin path (.entryNotText name))

def parseBin (path name : Str) (value : Json) : Except NpmLockError (Map Str) :=
  match value with
  | .null => .ok ∅
  | .str target => .ok ((∅ : Map Str).insert name target)
  | .obj fields => binEntries path (Std.ExtTreeMap.ofList fields compare).toList ∅
  | other => .error (.invalidBin path (.expected (otherType other)))

/-- Names and targets of executables, up to the first that is unsafe. -/
def checkBins (path : Str) : List (Str × Str) → Except NpmLockError Unit
  | [] => .ok ()
  | (name, target) :: rest =>
      match validateBinName name with
      | .error e => .error (.invalidBin path (.unsafeName name e))
      | .ok _ =>
          match validateBinTarget target with
          | .error e => .error (.invalidBin path (.unsafeTarget target e))
          | .ok _ => checkBins path rest

/-! ## Import -/

/-- A URL inside a package's own tarball. -/
def insideTarball (url : Str) : Bool := Text.contains (lit "/node_modules/") url

/-- The URL of a package that is not linked: derived from its name and version
where npm records none that works, and taken from the registry name of an alias. -/
def registryResolved (name version : Str) (pkg : RawPkg) : Str :=
  let recorded := pkg.resolved.getD []
  let sourceName := pkg.name.getD name
  let derived :=
    if (recorded.isEmpty || insideTarball recorded) && !sourceName.isEmpty && !version.isEmpty then
      deriveRegistryUrl sourceName version
    else recorded
  match pkg.name with
  | some realName =>
      if realName ≠ name ∧ Text.contains ('/' :: realName ++ lit "/-") derived = false then
        deriveRegistryUrl realName version
      else derived
  | none => derived

def formatConstraints (os cpu : List Str) : Str :=
  join [' ']
    ((if os.isEmpty then [] else [lit "os=[" ++ join [','] os ++ [']']]) ++
      if cpu.isEmpty then [] else [lit "cpu=[" ++ join [','] cpu ++ [']']])

def inQuotes (s : Str) : Str := '"' :: s ++ ['"']

/-- The notes on one package. -/
def entryDiagnostics (path name : Str) (link : Bool) (linkTarget : Option Str) (resolved : Str)
    (pkg : RawPkg) : List Diagnostic :=
  (if link && linkTarget.isNone then
    [⟨.warning, lit "LINK_PACKAGE_UNSUPPORTED",
      lit "package " ++ inQuotes name ++ lit " at " ++ path ++
        lit " is a link entry without a resolved target", some name⟩]
  else []) ++
  (if !pkg.os.isEmpty || !pkg.cpu.isEmpty then
    [⟨.info, lit "PLATFORM_CONSTRAINT",
      lit "package " ++ inQuotes name ++ lit " declares os/cpu constraints (" ++
        formatConstraints pkg.os pkg.cpu ++
        lit "); BPM records and enforces them during installation", some name⟩]
  else []) ++
  if !link && resolved.isEmpty then
    [⟨.warning, lit "MISSING_RESOLVED",
      lit "package " ++ inQuotes name ++ lit " at " ++ path ++
        lit " has no resolved URL; it cannot be installed from a registry", some name⟩]
  else []

/-- What the loop over the table has collected. -/
structure ImportState where
  diagnostics : List Diagnostic
  lockfile : Lockfile

namespace ImportState

def note (state : ImportState) (diagnostics : List Diagnostic) : ImportState :=
  { state with diagnostics := state.diagnostics ++ diagnostics }

def push (state : ImportState) (entry : PackageEntry) : ImportState :=
  { state with
    lockfile := { state.lockfile with packages := state.lockfile.packages ++ [entry] } }

/-- Keep the resolver's record of a Git package. -/
def recordGit (state : ImportState) (path : Str) : Option (Str × Str × Str) → ImportState
  | some (url, commit, _) =>
      { state with
        lockfile := { state.lockfile with
          resolution := { state.lockfile.resolution with
            packages :=
              state.lockfile.resolution.packages.insert path (gitResolution url commit) } } }
  | none => state

/-- Keep the registry name of an alias. -/
def recordName (state : ImportState) (path : Str) : Option Str → ImportState
  | some name =>
      { state with
        lockfile := { state.lockfile with
          resolution := { state.lockfile.resolution with
            registryNames := state.lockfile.resolution.registryNames.insert path name } } }
  | none => state

end ImportState

/-- An alias must have a name that a registry could know. -/
def canonicalName (path name : Str) (link : Bool) (pkg : RawPkg) :
    Except NpmLockError (Option Str) :=
  match pkg.name with
  | some canonical =>
      if link || canonical == name then .ok none
      else if !isValidNpmReadName canonical then .error (.invalidCanonicalName path canonical)
      else .ok (some canonical)
  | none => .ok none

/-- The path of a package that is not linked must be safe. -/
def checkPath (path : Str) (link : Bool) : Except NpmLockError Unit :=
  if link then .ok ()
  else
    match validatePackagePath path with
    | .error e => .error (.unsafePath path e)
    | .ok _ => .ok ()

/-- One entry of the table; the root entry, workspace manifests and what ships in
the tarball of another package are passed over. -/
def importEntry (state : ImportState) (path : Str) (pkg : RawPkg) :
    Except NpmLockError ImportState :=
  let name := packageNameFromPath path
  let version := pkg.version.getD []
  let link := pkg.link.getD false
  if path.isEmpty then .ok state
  else if !link && !(path.splitOn '/').contains (lit "node_modules") then .ok state
  else if pkg.inBundle.getD false && pkg.resolved.any insideTarball then .ok state
  else
    let linkTarget := if link then pkg.resolved.filter (!·.isEmpty) else none
    let recorded := if link then pkg.resolved.getD [] else registryResolved name version pkg
    let git := if link then none else hostedGitFromNpmResolved (pkg.resolved.getD [])
    do
      let bin ← parseBin path name pkg.bin
      checkPath path link
      checkBins path bin.toList
      let canonical ← canonicalName path name link pkg
      let noted := state.note (entryDiagnostics path name link linkTarget recorded pkg)
      return ((noted.recordGit path git).recordName path canonical).push
        { path := path, name := name, version := version, resolved := archiveOr git recorded
          workspaceTarget := linkTarget, integrity := pkg.integrity, link := link
          dev := pkg.dev.getD false, optional := pkg.optional.getD false
          os := pkg.os, cpu := pkg.cpu, bin := bin
          dependencies := insertMissing pkg.dependencies pkg.peerDependencies }

def importEntries : List (Str × RawPkg) → ImportState → Except NpmLockError ImportState
  | [], state => .ok state
  | (path, pkg) :: rest, state =>
      match importEntry state path pkg with
      | .error e => .error e
      | .ok state => importEntries rest state

/-- The root groups: regular and optional declarations replace dev ones, and peer
declarations fill the names that are free. -/
def rootDependencies (root : RawPkg) : Map Str :=
  insertMissing
    (insertAll (insertAll root.devDependencies root.dependencies) root.optionalDependencies)
    root.peerDependencies

def importRoot (raw : RawLock) : Lockfile :=
  match raw.packages[([] : Str)]? with
  | some root =>
      { Lockfile.new (lit "bpm") with root := ⟨raw.name, root.version, rootDependencies root⟩ }
  | none => Lockfile.new (lit "bpm")

/-- The integrity that some placement records for an artifact; the last one counts. -/
def integrityByArtifact (packages : List PackageEntry) (name version : Str) : Option Str :=
  packages.foldl
    (fun found p =>
      if !p.link && p.name == name && p.version == version then p.integrity.or found else found)
    none

def fillIntegrity (packages : List PackageEntry) : List PackageEntry :=
  packages.map fun p =>
    if p.integrity.isNone && !p.link then
      { p with integrity := integrityByArtifact packages p.name p.version }
    else p

/-- A package whose integrity is only to be had from its tarball. -/
def needsFetch (p : PackageEntry) : Bool :=
  !p.link && p.integrity.isNone && (lit "https://").isPrefixOf p.resolved

/-- The integrity of a tarball, if it can be downloaded. -/
def fetchedIntegrity (network : Network) (index : Nat) (url : Str) : Option Str :=
  match network.get index url with
  | some (status, body) => if status = 200 then some (network.sha512 body) else none
  | none => none

def fetchIntegrities (network : Network) :
    Nat → List PackageEntry → List PackageEntry × List Diagnostic
  | _, [] => ([], [])
  | index, p :: rest =>
      let (packages, diagnostics) := fetchIntegrities network (index + 1) rest
      if needsFetch p then
        match fetchedIntegrity network index p.resolved with
        | some integrity => ({ p with integrity := some integrity } :: packages, diagnostics)
        | none =>
            (p :: packages,
              ⟨.warning, lit "MISSING_INTEGRITY",
                lit "package " ++ inQuotes p.name ++ lit " at " ++ p.path ++
                  lit ": could not fetch " ++ p.resolved ++
                  lit " to compute integrity; frozen installs will reject it",
                some p.name⟩ :: diagnostics)
      else (p :: packages, diagnostics)

/-- The last passes over the packages. -/
def finishImport (network : Network) (state : ImportState) : ImportReport :=
  let (packages, diagnostics) :=
    fetchIntegrities network 0 (fillIntegrity state.lockfile.packages)
  { lockfile := { state.lockfile with packages := packages }.sortPackages
    diagnostics := sortDiagnostics (state.diagnostics ++ diagnostics) }

def importRaw (network : Network) (raw : RawLock) : Except NpmLockError ImportReport :=
  let version := raw.lockfileVersion.getD 0
  if !acceptedImportLockfileVersions.contains version then .error (.unsupportedVersion version)
  else if raw.packages.isEmpty then .error .noPackages
  else (importEntries raw.packages.toList ⟨[], importRoot raw⟩).map (finishImport network)

def importLock (reader : JsonReader) (network : Network) (text : Str) :
    Except NpmLockError ImportReport :=
  match (reader text).bind rawLock.decode with
  | none => .error .parse
  | some raw => importRaw network raw

/-! ## Export -/

/-- Why a package has no place in a version 3 table. -/
inductive UnsupportedReason
  | link | missingResolved | missingIntegrity | nonRegistrySource
deriving DecidableEq

namespace UnsupportedReason

def label : UnsupportedReason → Str
  | link => lit "link missing target"
  | missingResolved => lit "missing resolved URL"
  | missingIntegrity => lit "missing integrity"
  | nonRegistrySource => lit "non-registry source"

end UnsupportedReason

structure UnsupportedPackage where
  path : Str
  reason : UnsupportedReason
deriving DecidableEq

def UnsupportedPackage.label (package : UnsupportedPackage) : Str :=
  package.path ++ lit " (" ++ package.reason.label ++ [')']

/-- A package of the table as it is written. -/
structure NpmV3Package where
  name : Option Str
  version : Option Str
  resolved : Option Str
  integrity : Option Str
  link : Bool
  dev : Bool
  optional : Bool
  bin : Option Json
  dependencies : Map Str
  devDependencies : Map Str
  optionalDependencies : Map Str
  peerDependencies : Map Str
  os : List Str
  cpu : List Str

structure NpmV3Lock where
  name : Option Str
  version : Option Str
  lockfileVersion : UInt32
  requires : Bool
  packages : Map NpmV3Package

/-- A value that is left out when it is missing. -/
def valueField (name : Str) : Option Json → List (Str × Json)
  | none => []
  | some value => [(name, value)]

def NpmV3Package.toJson (p : NpmV3Package) : Json :=
  .obj ((Schema.optionField (lit "name")).encode p.name ++
    ((Schema.optionField (lit "version")).encode p.version ++
    ((Schema.optionField (lit "resolved")).encode p.resolved ++
    ((Schema.optionField (lit "integrity")).encode p.integrity ++
    ((Schema.flagField (lit "link")).encode p.link ++
    ((Schema.flagField (lit "dev")).encode p.dev ++
    ((Schema.flagField (lit "optional")).encode p.optional ++
    (valueField (lit "bin") p.bin ++
    ((Schema.mapField (lit "dependencies") .str).encode p.dependencies ++
    ((Schema.mapField (lit "devDependencies") .str).encode p.devDependencies ++
    ((Schema.mapField (lit "optionalDependencies") .str).encode p.optionalDependencies ++
    ((Schema.mapField (lit "peerDependencies") .str).encode p.peerDependencies ++
    ((Schema.listField (lit "os")).encode p.os ++
    (Schema.listField (lit "cpu")).encode p.cpu)))))))))))))

def NpmV3Lock.toJson (lock : NpmV3Lock) : Json :=
  .obj [(lit "name", Schema.optionStr.encode lock.name),
    (lit "version", Schema.optionStr.encode lock.version),
    (lit "lockfileVersion", Codec.u32.encode lock.lockfileVersion),
    (lit "requires", .bool lock.requires),
    (lit "packages",
      .obj (lock.packages.toList.map fun entry => (entry.1, entry.2.toJson)))]

def binValue (bin : Map Str) : Option Json :=
  if bin.isEmpty then none
  else some (.obj (bin.toList.map fun entry => (entry.1, .str entry.2)))

/-- Whether one package can be written, and why not. -/
def unsupportedReason (lockfile : Lockfile) (package : PackageEntry) : Option UnsupportedReason :=
  if package.link then
    if (package.workspaceTarget.filter (!·.isEmpty)).isNone then some .link else none
  else if package.resolved.isEmpty then some .missingResolved
  else if (package.integrity.getD []).isEmpty then some .missingIntegrity
  else
    match lockfile.resolution.packages[package.path]? with
    | some ⟨.registry _, _, _, _, _, _, _, _, _, _, _⟩ => none
    | some _ => some .nonRegistrySource
    | none =>
        if (lit "http://").isPrefixOf package.resolved ||
            (lit "https://").isPrefixOf package.resolved then none
        else some .nonRegistrySource

/-- The root entry, with the groups of the manifest. -/
def rootPackage (manifest : PackageManifest) : NpmV3Package :=
  { name := manifest.name, version := manifest.version, resolved := none, integrity := none
    link := false, dev := false, optional := false, bin := none
    dependencies := manifest.dependencies, devDependencies := manifest.devDependencies
    optionalDependencies := manifest.optionalDependencies
    peerDependencies := manifest.peerDependencies, os := [], cpu := [] }

/-- The entry of a placement. -/
def placedPackage (package : PackageEntry) : NpmV3Package :=
  { name := none, version := some package.version
    resolved := if package.link then package.workspaceTarget else some package.resolved
    integrity := package.integrity, link := package.link, dev := package.dev
    optional := package.optional, bin := binValue package.bin
    dependencies := package.dependencies, devDependencies := ∅, optionalDependencies := ∅
    peerDependencies := ∅, os := package.os, cpu := package.cpu }

def exportedPackages (lockfile : Lockfile) (manifest : PackageManifest) : Map NpmV3Package :=
  lockfile.packages.foldl
    (fun packages package =>
      if package.path.isEmpty then packages
      else packages.insert package.path (placedPackage package))
    ((∅ : Map NpmV3Package).insert [] (rootPackage manifest))

def unsupportedPackages (lockfile : Lockfile) : List UnsupportedPackage :=
  ((lockfile.packages.filter (!·.path.isEmpty)).filterMap fun package =>
    (unsupportedReason lockfile package).map (⟨package.path, ·⟩)).insertionSort
      fun a b => a.path ≤ b.path

def exportedLock (lockfile : Lockfile) (manifest : PackageManifest) : NpmV3Lock :=
  { name := manifest.name, version := manifest.version
    lockfileVersion := supportedLockfileVersion, requires := true
    packages := exportedPackages lockfile manifest }

/-- The text of a version 3 `package-lock.json`; every package that has no place in
one is named in the error. -/
def exportV3 (lockfile : Lockfile) (manifest : PackageManifest) : Except NpmLockError Str :=
  let unsupported := unsupportedPackages lockfile
  if unsupported.isEmpty then
    .ok (Json.pretty 0 (exportedLock lockfile manifest).toJson ++ ['\n'])
  else
    .error (.exportUnsupported (join (lit ", ") (unsupported.map UnsupportedPackage.label)))

end NpmLock
end Bpm
