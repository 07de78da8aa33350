import Bpm.Lockfile.PathSafety
import Bpm.Lockfile.Schema
import Bpm.Registry.Spec

/-!
# Reading and writing a lockfile

A lockfile is written in canonical form: packages in path order, and the lists of
the resolver metadata sorted without duplicates.  A version 2 lockfile is
validated when it is read; a version 1 lockfile is only checked for unsafe paths
and is migrated in memory, without any resolver metadata.

The text of a JSON value is the business of the JSON library, which the functions
take as an argument.
-/

namespace Bpm

open Text Serde

/-- Why a version 2 lockfile is invalid. -/
inductive InvalidLock
  | packagePath (path : Str)
  | outOfOrder (path : Str)
  | registryNameUnknown (path : Str)
  | registryNameEmpty (path : Str)
  | registryNameSame (path : Str)
  | registryNameUnsafe (path : Str)
  | resolutionUnknown (path : Str)
  | registrySource (path : Str)
  | workspaceSource (path : Str)
  | fileSource (path : Str)
  | tarballSource (path : Str)
  | gitSource (path : Str)
  | patchSource (path : Str)
  | missingTarget (group name package target : Str)
  | missingProvider (peer package target : Str)
deriving DecidableEq

inductive LockfileError
  | parse
  | unsupportedVersion (found : UInt32)
  | invalid (reason : InvalidLock)
  | unsafePath (path : Str) (details : PathSafetyError)
  | unsafeBin (path bin : Str) (details : PathSafetyError)
deriving DecidableEq

def isFullGitCommit (value : Str) : Bool :=
  value.length == 40 && value.all fun c =>
    ('0' ≤ c && c ≤ '9') || ('a' ≤ c && c ≤ 'f') || ('A' ≤ c && c ≤ 'F')

/-- Check every element of a list, up to the first that fails. -/
def checkAll {α : Type} (check : α → Except LockfileError Unit) :
    List α → Except LockfileError Unit
  | [] => .ok ()
  | x :: xs =>
      match check x with
      | .error e => .error e
      | .ok () => checkAll check xs

def checkBin (package : PackageEntry) (bin : Str × Str) : Except LockfileError Unit :=
  match validateBinName bin.1 with
  | .error e => .error (.unsafeBin package.path bin.1 e)
  | .ok _ =>
      match validateBinTarget bin.2 with
      | .error e => .error (.unsafeBin package.path bin.2 e)
      | .ok _ => .ok ()

/-- Linked packages may lie outside `node_modules`; their path is not checked here. -/
def checkPackageSafety (package : PackageEntry) : Except LockfileError Unit :=
  let bins := checkAll (checkBin package) package.bin.toList
  if package.link then bins
  else
    match validatePackagePath package.path with
    | .error e => .error (.unsafePath package.path e)
    | .ok _ => bins

def invalidIf (condition : Bool) (reason : InvalidLock) : Except LockfileError Unit :=
  if condition then .error (.invalid reason) else .ok ()

/-- Package paths are legal and strictly ascending. -/
def checkPaths : Option Str → List PackageEntry → Except LockfileError Unit
  | _, [] => .ok ()
  | previous, package :: rest =>
      if !legalRelativePath package.path then .error (.invalid (.packagePath package.path))
      else if previous.any (package.path ≤ ·) then
        .error (.invalid (.outOfOrder package.path))
      else checkPaths (some package.path) rest

namespace Lockfile

def validatePackageSafety (lock : Lockfile) : Except LockfileError Unit :=
  checkAll checkPackageSafety lock.packages

/-- The first package listed at a path. -/
def packageAt (lock : Lockfile) (path : Str) : Option PackageEntry :=
  lock.packages.find? (·.path == path)

def hasPath (lock : Lockfile) (path : Str) : Bool := lock.packages.any (·.path == path)

def checkRegistryName (lock : Lockfile) (entry : Str × Str) : Except LockfileError Unit :=
  match lock.packageAt entry.1 with
  | none => .error (.invalid (.registryNameUnknown entry.1))
  | some package => do
      invalidIf entry.2.isEmpty (.registryNameEmpty entry.1)
      invalidIf (entry.2 == package.name) (.registryNameSame entry.1)
      invalidIf (!isValidNpmReadName entry.2) (.registryNameUnsafe entry.1)

def checkTargets (lock : Lockfile) (package group : Str) (dependencies : Map LockDependency) :
    Except LockfileError Unit :=
  checkAll
    (fun entry => invalidIf (!lock.hasPath entry.2.target)
      (.missingTarget group entry.1 package entry.2.target))
    dependencies.toList

end Lockfile

/-- What the source of a package asks of the package's entry. -/
def checkSource (path : Str) (package : PackageEntry) (metadata : PackageResolution) :
    Except LockfileError Unit :=
  let unlocked := package.integrity.all (·.isEmpty)
  match metadata.source with
  | .registry registry =>
      invalidIf (registry.isEmpty || package.resolved.isEmpty || unlocked) (.registrySource path)
  | .workspace relativePath =>
      invalidIf (!package.link || metadata.workspaceTarget != some relativePath ||
        !legalRelativePath relativePath) (.workspaceSource path)
  | .file sourcePath =>
      invalidIf (!package.link || metadata.workspaceTarget != some sourcePath) (.fileSource path)
  | .tarball url => invalidIf (url.isEmpty || package.resolved.isEmpty) (.tarballSource path)
  | .git url _ resolvedCommit =>
      invalidIf (url.isEmpty || package.resolved.isEmpty || !isFullGitCommit resolvedCommit)
        (.gitSource path)
  | .patch _ patch =>
      invalidIf (patch.isEmpty || package.resolved.isEmpty || unlocked) (.patchSource path)

namespace Lockfile

def checkResolution (lock : Lockfile) (entry : Str × PackageResolution) :
    Except LockfileError Unit :=
  match lock.packageAt entry.1 with
  | none => .error (.invalid (.resolutionUnknown entry.1))
  | some package => do
      checkSource entry.1 package entry.2
      lock.checkTargets entry.1 (lit "dependencies") entry.2.dependencies
      lock.checkTargets entry.1 (lit "optionalDependencies") entry.2.optionalDependencies
      lock.checkTargets entry.1 (lit "peerDependencies") entry.2.peerDependencies
      checkAll
        (fun peer => invalidIf (!lock.hasPath peer.2.path)
          (.missingProvider peer.1 entry.1 peer.2.path))
        entry.2.peerContext.toList

def validateV2 (lock : Lockfile) : Except LockfileError Unit := do
  checkPaths none lock.packages
  checkAll lock.checkRegistryName lock.resolution.registryNames.toList
  checkAll lock.checkResolution lock.resolution.packages.toList

end Lockfile

/-- Sorted, without neighbouring duplicates. -/
def sortedUnique (texts : List Str) : List Str :=
  (texts.insertionSort (· ≤ ·)).destutter (· ≠ ·)

namespace Lockfile

def rootResolutionLists (lock : Lockfile) : Lockfile :=
  { lock with
    resolution := { lock.resolution with
      root := { lock.resolution.root with
        workspacePatterns := sortedUnique lock.resolution.root.workspacePatterns }
      packages := lock.resolution.packages.map fun _ package =>
        { package with libc := sortedUnique package.libc } } }

/-- The form in which a lockfile is written. -/
def canonical (lock : Lockfile) : Lockfile := lock.sortPackages.rootResolutionLists

end Lockfile

/-- The JSON library: printing a value, and reading a text as a lockfile or as the
version of one. -/
structure SerdeJson where
  print : Json → Str
  readLockfile : Str → Option Lockfile
  readVersion : Str → Option UInt32

namespace Lockfile

/-- What a version 1 lockfile becomes in memory. -/
def migrated (lock : Lockfile) : Lockfile :=
  { lock with lockfileVersion := bpmLockVersion, resolution := ResolutionMetadata.default }

def toJson (io : SerdeJson) (lock : Lockfile) : Str :=
  io.print (Schema.lockfile.encode lock.canonical)

def fromJson (io : SerdeJson) (json : Str) : Except LockfileError Lockfile :=
  match io.readVersion json with
  | none => .error .parse
  | some version =>
      if version ≠ legacyLockVersion ∧ version ≠ bpmLockVersion then
        .error (.unsupportedVersion version)
      else
        match io.readLockfile json with
        | none => .error .parse
        | some lock => do
            lock.validatePackageSafety
            if version = legacyLockVersion then
              return lock.migrated
            else
              lock.validateV2
              return lock

end Lockfile
end Bpm
