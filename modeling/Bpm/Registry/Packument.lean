import Bpm.Registry.Spec

/-!
# Packuments and version selection

A packument lists the published versions of one package.  `selectVersion` picks
the version a request asks for, and `resolvePackument` turns it into an artifact
after checking its distribution data.  A registry is what the client obtains for
a name, or for a name and an exact version; it is constant during one resolution.
-/

namespace Bpm

open Text

structure PeerMeta where
  optional : Bool
deriving DecidableEq

/-- Distribution data of one version. -/
structure Dist where
  tarball : Str
  integrity : Str
deriving DecidableEq

/-- The decoded manifest of one published version. -/
structure VersionMetadata where
  name : Str
  version : Version
  dependencies : Map Str
  optionalDependencies : Map Str
  peerDependencies : Map Str
  peerDependenciesMeta : Map PeerMeta
  bin : Map Str
  dist : Dist
  os : List Str
  cpu : List Str
  libc : List Str
  hasInstallScript : Bool
deriving DecidableEq

structure Packument where
  distTags : Map Str
  versions : Map VersionMetadata
deriving DecidableEq

/-- A selected version with what is needed to download and place it. -/
structure ResolvedArtifact where
  version : Version
  tarballUrl : Str
  integrity : Str
  metadata : VersionMetadata
deriving DecidableEq

/-- The published versions whose keys parse, in key order. -/
def Packument.parsedVersions (crates : Crates) (packument : Packument) : List Version :=
  packument.versions.keys.filterMap crates.parseVersion

/-- Ascending order of versions. -/
def sortVersions (crates : Crates) (versions : List Version) : List Version :=
  versions.insertionSort fun a b => crates.leVersion a b = true

def selectVersion (crates : Crates) (name : Str) (req : VersionRequest)
    (packument : Packument) : Except RegistryError Version :=
  if packument.versions.isEmpty then
    .error (.noVersions name)
  else
    match req with
    | .latest =>
        match packument.distTags[lit "latest"]? with
        | none => .error (.noVersions name)
        | some tag =>
            match crates.parseVersion tag with
            | some version => .ok version
            | none => .error (.versionNotFound name (lit "latest (" ++ tag ++ [')']))
    | .exact version =>
        if packument.versions.contains (crates.showVersion version) then
          .ok version
        else
          .error (.versionNotFound name ('=' :: crates.showVersion version))
    | .range range =>
        -- The greatest match; pre-releases count only where the range opts in.
        match (sortVersions crates ((packument.parsedVersions crates).filter
            fun v => range.matchesVersion crates v)).getLast? with
        | some version => .ok version
        | none => .error (.versionNotFound name (range.display crates))

/-- The URL to download, after its provenance is checked: absolute `http` and
`https` URLs, or paths relative to the registry base. -/
def resolveTarballUrl (crates : Crates) (registry tarball package version : Str) :
    Except RegistryError Str :=
  match crates.urlScheme tarball with
  | some scheme =>
      if scheme = lit "http" ∨ scheme = lit "https" then
        .ok tarball
      else
        .error (.unsupportedTarballSource package version scheme)
  | none =>
      .ok (registry.rdropWhile (· = '/') ++ '/' :: tarball.dropWhile (· = '/'))

/-- A manifest that names no package takes the requested name. -/
def VersionMetadata.nameOr (metadata : VersionMetadata) (name : Str) : VersionMetadata :=
  if metadata.name.isEmpty then { metadata with name := name } else metadata

def resolvePackument (crates : Crates) (spec : PackageSpec) (packument : Packument)
    (registry : Str) : Except RegistryError ResolvedArtifact :=
  match selectVersion crates spec.name spec.req packument with
  | .error e => .error e
  | .ok version =>
      match packument.versions[crates.showVersion version]? with
      | none => .error (.versionNotFound spec.name (crates.showVersion version))
      | some found =>
          let metadata := found.nameOr spec.name
          if metadata.dist.tarball.isEmpty || metadata.dist.integrity.isEmpty then
            .error (.missingDist spec.name (crates.showVersion version))
          else if !crates.integrityParses metadata.dist.integrity then
            .error (.invalidIntegrity spec.name (crates.showVersion version))
          else
            match resolveTarballUrl crates registry metadata.dist.tarball spec.name
                (crates.showVersion version) with
            | .error e => .error e
            | .ok url =>
                .ok { version := version
                      tarballUrl := url
                      integrity := metadata.dist.integrity
                      metadata := metadata }

/-- What the registry client can obtain: the packument of a name, the manifest
of a name at an exact version, and the base URL that serves a name. -/
structure Registry where
  packument : Str → Except RegistryError Packument
  versionManifest : Str → Version → Except RegistryError VersionMetadata
  baseFor : Str → Str

namespace Registry

/-- An exact request asks for one manifest only, every other one for the whole
packument. -/
def packumentFor (crates : Crates) (registry : Registry) (spec : PackageSpec) :
    Except RegistryError Packument :=
  match spec.req with
  | .exact version =>
      match registry.versionManifest spec.name version with
      | .error e => .error e
      | .ok metadata =>
          .ok { distTags := ∅
                versions := (∅ : Map VersionMetadata).insert
                  (crates.showVersion version) metadata }
  | .latest | .range _ =>
      if isValidNpmReadName spec.name then
        registry.packument spec.name
      else
        .error (.invalidSpec spec.name (.badName spec.name))

/-- Version keys are the texts of the versions they hold, for packuments and for
the manifests of exact versions. -/
structure KeysMatch (crates : Crates) (registry : Registry) : Prop where
  packument : ∀ name p, registry.packument name = .ok p →
    ∀ key metadata, p.versions[key]? = some metadata →
      crates.parseVersion key = some metadata.version
  versionManifest : ∀ name version metadata,
    registry.versionManifest name version = .ok metadata → metadata.version = version

end Registry

@[simp] theorem VersionMetadata.nameOr_version (metadata : VersionMetadata) (name : Str) :
    (metadata.nameOr name).version = metadata.version := by
  unfold VersionMetadata.nameOr
  split <;> rfl

theorem mem_sortVersions {crates : Crates} {versions : List Version} {v : Version} :
    v ∈ sortVersions crates versions ↔ v ∈ versions :=
  List.mem_insertionSort _

/-- What `resolvePackument` accepted: the selected version is a key of the
packument, and the artifact carries the manifest found there. -/
theorem resolvePackument_ok {crates : Crates} {spec : PackageSpec} {p : Packument}
    {base : Str} {artifact : ResolvedArtifact}
    (h : resolvePackument crates spec p base = .ok artifact) :
    ∃ found, selectVersion crates spec.name spec.req p = .ok artifact.version ∧
      p.versions[crates.showVersion artifact.version]? = some found ∧
      artifact.metadata = found.nameOr spec.name ∧
      artifact.integrity = artifact.metadata.dist.integrity ∧
      artifact.metadata.dist.integrity ≠ [] ∧
      crates.integrityParses artifact.metadata.dist.integrity = true := by
  unfold resolvePackument at h
  split at h
  · cases h
  · rename_i version hselect
    split at h
    · cases h
    · rename_i found hfound
      simp only at h
      split at h
      · cases h
      · rename_i hdist
        split at h
        · cases h
        · rename_i hintegrity
          split at h
          · cases h
          · cases h
            simp only [Bool.or_eq_true, List.isEmpty_iff, not_or] at hdist
            exact ⟨found, hselect, hfound, rfl, rfl, hdist.2, by simpa using hintegrity⟩

end Bpm
