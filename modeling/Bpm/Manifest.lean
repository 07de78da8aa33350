import Bpm.Lib.Json
import Bpm.Registry.Packument

/-!
# Project manifests

The fields of `package.json` that resolution reads, and the one merge of root
declarations that resolution, import and frozen validation share.
-/

namespace Bpm

open Text

/-- `bin` is a single path or a map from command names to paths. -/
inductive BinField
  | map (entries : Map Str)
  | one (path : Str)
deriving DecidableEq

/-- Requests written with the `workspace:` protocol. -/
inductive WorkspaceSpec
  | any
  | caret
  | tilde
  | range (text : Str)
deriving DecidableEq

def WorkspaceSpec.parse (spec : Str) : Option WorkspaceSpec :=
  match stripPrefix (lit "workspace:") spec with
  | none => none
  | some payload =>
      if payload = ['*'] then some .any
      else if payload = ['^'] then some .caret
      else if payload = ['~'] then some .tilde
      else some (.range payload)

structure PackageManifest where
  sourceDir : Option Str
  name : Option Str
  version : Option Str
  bin : Option BinField
  scripts : Map Str
  dependencies : Map Str
  devDependencies : Map Str
  peerDependencies : Map Str
  optionalDependencies : Map Str
  peerDependenciesMeta : Map PeerMeta
  overrides : Map Json
  os : List Str
  cpu : List Str
  libc : List Str

/-- Insert every entry of `m`, replacing what is there. -/
def insertAll (base m : Map Str) : Map Str :=
  m.toList.foldl (fun acc entry => acc.insert entry.1 entry.2) base

/-- Insert the entries of `m` whose keys are still free. -/
def insertMissing (base m : Map Str) : Map Str :=
  m.toList.foldl (fun acc entry => acc.insertIfNew entry.1 entry.2) base

namespace PackageManifest

/-- Optional dependencies replace regular ones of the same name; peer and dev
declarations only fill names that no stronger group declares. -/
def rootDependencyDeclarations (manifest : PackageManifest) : Map Str :=
  insertMissing
    (insertMissing
      (insertAll manifest.dependencies manifest.optionalDependencies)
      manifest.peerDependencies)
    manifest.devDependencies

end PackageManifest

/-- The dependencies of a version, its optional ones included. -/
def mergedDependencies (metadata : VersionMetadata) : Map Str :=
  insertAll metadata.dependencies metadata.optionalDependencies

def manifestBin (manifest : PackageManifest) (fallbackName : Str) : Map Str :=
  match manifest.bin with
  | some (.map entries) => entries
  | some (.one path) => (∅ : Map Str).insert (manifest.name.getD fallbackName) path
  | none => ∅

/-- Scripts that make a local package count as one with an install script. -/
def installScripts : List Str :=
  [lit "preinstall", lit "install", lit "postinstall", lit "prepare"]

/-- The metadata of a local package: what its manifest declares, or nothing
beyond name and version when there is no manifest. -/
def workspaceMetadata (name : Str) (version : Version)
    (manifest : Option PackageManifest) : VersionMetadata :=
  match manifest with
  | none =>
      { name := name
        version := version
        dependencies := ∅
        optionalDependencies := ∅
        peerDependencies := ∅
        peerDependenciesMeta := ∅
        bin := ∅
        dist := ⟨[], []⟩
        os := []
        cpu := []
        libc := []
        hasInstallScript := false }
  | some manifest =>
      { name := manifest.name.getD name
        version := version
        dependencies := manifest.dependencies
        optionalDependencies := manifest.optionalDependencies
        peerDependencies := manifest.peerDependencies
        peerDependenciesMeta := manifest.peerDependenciesMeta
        bin := manifestBin manifest name
        dist := ⟨[], []⟩
        os := manifest.os
        cpu := manifest.cpu
        libc := manifest.libc
        hasInstallScript := manifest.scripts.keys.any fun script => script ∈ installScripts }

@[simp] theorem workspaceMetadata_version (name : Str) (version : Version)
    (manifest : Option PackageManifest) :
    (workspaceMetadata name version manifest).version = version := by
  cases manifest <;> rfl

end Bpm
