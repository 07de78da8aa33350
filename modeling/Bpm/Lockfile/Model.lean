import Bpm.Lib.Json

/-!
# The lockfile data model

The records of `bpm.lock`: the root entry, one entry per placed package, and the
resolver metadata keyed by placement path.
-/

namespace Bpm

/-- Peer dependency behaviour is part of the graph's identity. -/
inductive PeerMode
  | strict | legacyIgnore
deriving DecidableEq

/-- Where the contents of a placement come from. -/
inductive LockSource
  | registry (registry : Str)
  | workspace (relativePath : Str)
  | file (path : Str)
  | tarball (url : Str)
  | git (url : Str) (reference : Option Str) (resolvedCommit : Str)
  | patch (source : LockSource) (patch : Str)
deriving DecidableEq

/-- The exact provider bound to a peer name. -/
structure PeerProvider where
  name : Str
  version : Str
  source : LockSource
  path : Str
deriving DecidableEq

/-- One dependency request and the placement that serves it. -/
structure LockDependency where
  spec : Str
  target : Str
deriving DecidableEq

structure PackageResolution where
  source : LockSource
  devOptional : Bool
  peer : Bool
  libc : List Str
  dependencies : Map LockDependency
  optionalDependencies : Map LockDependency
  peerDependencies : Map LockDependency
  optionalPeers : Map Unit
  peerContext : Map PeerProvider
  workspaceTarget : Option Str
  hasInstallScript : Bool
deriving DecidableEq

structure LockTarget where
  os : Str
  cpu : Str
  libc : Option Str
deriving DecidableEq

structure RootResolution where
  devDependencies : Map Str
  optionalDependencies : Map Str
  overrides : Map Str
  workspacePatterns : List Str
  workspaceIndexDigest : Option Str
  target : Option LockTarget
  peerMode : PeerMode
deriving DecidableEq

namespace RootResolution

def default : RootResolution := ⟨∅, ∅, ∅, [], none, none, .strict⟩

end RootResolution

structure ResolutionMetadata where
  root : RootResolution
  packages : Map PackageResolution
  registryNames : Map Str
deriving DecidableEq

namespace ResolutionMetadata

def default : ResolutionMetadata := ⟨RootResolution.default, ∅, ∅⟩

end ResolutionMetadata

structure RootEntry where
  name : Option Str
  version : Option Str
  dependencies : Map Str
deriving DecidableEq

/-- One resolved placement in the `node_modules` tree. -/
structure PackageEntry where
  path : Str
  name : Str
  version : Str
  resolved : Str
  workspaceTarget : Option Str
  integrity : Option Str
  link : Bool
  dev : Bool
  optional : Bool
  os : List Str
  cpu : List Str
  bin : Map Str
  dependencies : Map Str
deriving DecidableEq

structure Lockfile where
  lockfileVersion : UInt32
  generator : Str
  root : RootEntry
  packages : List PackageEntry
  resolution : ResolutionMetadata
deriving DecidableEq

/-- The schema version this implementation writes. -/
def bpmLockVersion : UInt32 := 2

def legacyLockVersion : UInt32 := 1

namespace Lockfile

/-- An empty lockfile with the given generator tag. -/
def new (generator : Str) : Lockfile :=
  { lockfileVersion := bpmLockVersion
    generator := generator
    root := ⟨none, none, ∅⟩
    packages := []
    resolution := ResolutionMetadata.default }

/-- The registry's name of a package: the name recorded for an alias, or else the
name of the entry. -/
def registryNameFor (lock : Lockfile) (package : PackageEntry) : Str :=
  lock.resolution.registryNames[package.path]?.getD package.name

/-- Packages in path order; equal paths keep their order. -/
def sortPackages (lock : Lockfile) : Lockfile :=
  { lock with packages := lock.packages.insertionSort fun a b => a.path ≤ b.path }

end Lockfile
end Bpm
