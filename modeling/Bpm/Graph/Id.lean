import Bpm.Lib.Bytes
import Bpm.Lockfile.Model
import Bpm.Resolver.Workspaces

/-!
# Graph identity

A dependency graph is identified by the hash of a canonical encoding of its
lockfile, the running platform, the workspace layout, the prepared images and the
install profile.  The hash is a parameter; the encoding is modelled byte by byte.
-/

namespace Bpm

open Bytes

/-- Install-time behaviour that changes the materialised tree without changing the
lockfile. -/
structure InstallProfile where
  omitDev : Bool
  lifecycleProduction : Bool
deriving DecidableEq

namespace InstallProfile

def defaultProfile : InstallProfile := ⟨false, false⟩

def devOmitted : InstallProfile := ⟨true, true⟩

/-- The full tree with production lifecycle scripts. -/
def productionFullTree : InstallProfile := ⟨false, true⟩

def isDefault (profile : InstallProfile) : Bool :=
  !profile.omitDev && !profile.lifecycleProduction

end InstallProfile

/-- The workspace directories discovered below a project root. -/
structure WorkspaceLayout where
  patterns : List Str
  packages : List WorkspacePackage

namespace WorkspaceLayout

def empty : WorkspaceLayout := ⟨[], []⟩

def isEmpty (layout : WorkspaceLayout) : Bool :=
  layout.packages.isEmpty && layout.patterns.isEmpty

end WorkspaceLayout

/-- A prepared image is keyed by a 256-bit digest. -/
abbrev ImageKey := Vector UInt8 32

namespace Graph

def writeWorkspacePackage (p : WorkspacePackage) : Bytes :=
  field p.dir ++ field (p.name.getD []) ++ field (p.version.getD [])

def canonicalWorkspaceBytes (layout : WorkspaceLayout) : Bytes :=
  tag "ws-v1\n" ++ tag "patterns\n" ++ counted field layout.patterns ++
    tag "packages\n" ++ counted writeWorkspacePackage layout.packages

def writeTarget (target : Option LockTarget) : Bytes :=
  match target with
  | some target =>
      flag true ++ field target.os ++ field target.cpu ++ field (target.libc.getD [])
  | none => flag false

/-- One package entry, with the resolver's record of its path. -/
def writePackage (resolution : Option PackageResolution) (p : PackageEntry) : Bytes :=
  field p.path ++ field p.name ++ field p.version ++ field p.resolved ++
    field (p.integrity.getD []) ++ flag p.link ++ flag p.dev ++ flag p.optional ++
    counted field p.os ++ counted field p.cpu ++
    (match resolution with
      | some resolution => counted field resolution.libc
      | none => u64 0) ++
    counted (entry field) p.bin.toList ++ counted (entry field) p.dependencies.toList

/-- The canonical encoding of a lockfile's resolved graph. -/
def canonicalGraphBytes (platform : Str) (lock : Lockfile) : Bytes :=
  tag "bpm-graph-v2\n" ++ field platform ++
    tag "root\n" ++ counted (entry field) lock.root.dependencies.toList ++
    counted (entry field) lock.resolution.root.overrides.toList ++
    writeTarget lock.resolution.root.target ++
    tag "packages\n" ++
    counted (fun p => writePackage lock.resolution.packages[p.path]? p) lock.packages ++
    if lock.resolution.registryNames.isEmpty then []
    else
      tag "registry-names\n" ++ counted (entry field) lock.resolution.registryNames.toList

def preparedImages (prepared : Map ImageKey) : Bytes :=
  tag "prepared-images\n" ++ counted (entry Vector.toList) prepared.toList

def installProfile (profile : InstallProfile) : Bytes :=
  tag "install-profile-v2\n" ++ flag profile.omitDev ++ flag profile.lifecycleProduction

section Ids

variable {δ : Type} (blake3 : Bytes → δ) (platform : Str)

def graphId (lock : Lockfile) : δ := blake3 (canonicalGraphBytes platform lock)

def graphIdWithProfile (lock : Lockfile) (profile : InstallProfile) : δ :=
  if profile.isDefault then graphId blake3 platform lock
  else blake3 (canonicalGraphBytes platform lock ++ installProfile profile)

def graphIdWithPrepared (lock : Lockfile) (prepared : Map ImageKey) : δ :=
  if prepared.isEmpty then graphId blake3 platform lock
  else blake3 (canonicalGraphBytes platform lock ++ preparedImages prepared)

def graphIdWithPreparedAndProfile (lock : Lockfile) (prepared : Map ImageKey)
    (profile : InstallProfile) : δ :=
  if profile.isDefault then graphIdWithPrepared blake3 platform lock prepared
  else
    blake3 (canonicalGraphBytes platform lock ++
      (if prepared.isEmpty then [] else preparedImages prepared) ++ installProfile profile)

def graphIdWithWorkspace (lock : Lockfile) (workspace : WorkspaceLayout) : δ :=
  if workspace.isEmpty then graphId blake3 platform lock
  else blake3 (canonicalGraphBytes platform lock ++ canonicalWorkspaceBytes workspace)

/-- `workspace` is the layout discovered below the project root. -/
def graphIdForProjectWithPrepared (lock : Lockfile) (workspace : WorkspaceLayout)
    (prepared : Map ImageKey) : δ :=
  if prepared.isEmpty then graphIdWithWorkspace blake3 platform lock workspace
  else
    blake3 (canonicalGraphBytes platform lock ++
      (if workspace.isEmpty then [] else canonicalWorkspaceBytes workspace) ++
      preparedImages prepared)

def graphIdForProject (lock : Lockfile) (workspace : WorkspaceLayout) : δ :=
  graphIdForProjectWithPrepared blake3 platform lock workspace ∅

def graphIdForProjectWithPreparedAndProfile (lock : Lockfile) (workspace : WorkspaceLayout)
    (prepared : Map ImageKey) (profile : InstallProfile) : δ :=
  if profile.isDefault then graphIdForProjectWithPrepared blake3 platform lock workspace prepared
  else
    blake3 (canonicalGraphBytes platform lock ++
      (if workspace.isEmpty then [] else canonicalWorkspaceBytes workspace) ++
      (if prepared.isEmpty then [] else preparedImages prepared) ++ installProfile profile)

def graphIdForProjectWithProfile (lock : Lockfile) (workspace : WorkspaceLayout)
    (profile : InstallProfile) : δ :=
  graphIdForProjectWithPreparedAndProfile blake3 platform lock workspace ∅ profile

end Ids

/-- Everything that an identity is computed from. -/
structure Subject where
  platform : Str
  lock : Lockfile
  workspace : WorkspaceLayout
  prepared : Map ImageKey
  profile : InstallProfile

namespace Subject

/-- The full byte string, with every section that is not empty. -/
def bytes (s : Subject) : Bytes :=
  canonicalGraphBytes s.platform s.lock ++
    (if s.workspace.isEmpty then [] else canonicalWorkspaceBytes s.workspace) ++
    (if s.prepared.isEmpty then [] else preparedImages s.prepared) ++
    if s.profile.isDefault then [] else installProfile s.profile

end Subject

section Ids

variable {δ : Type} (blake3 : Bytes → δ) (platform : Str) (lock : Lockfile)
  (workspace : WorkspaceLayout) (prepared : Map ImageKey) (profile : InstallProfile)

theorem graphIdForProjectWithPreparedAndProfile_eq :
    graphIdForProjectWithPreparedAndProfile blake3 platform lock workspace prepared profile =
      blake3 (Subject.bytes ⟨platform, lock, workspace, prepared, profile⟩) := by
  unfold graphIdForProjectWithPreparedAndProfile graphIdForProjectWithPrepared
    graphIdWithWorkspace graphId Subject.bytes
  by_cases hprofile : profile.isDefault <;> by_cases hprepared : prepared.isEmpty <;>
    by_cases hworkspace : workspace.isEmpty <;>
    simp only [hprofile, hprepared, hworkspace, if_true, if_false, Bool.false_eq_true,
      List.append_nil]

/-- The identity without a workspace layout is that of a project without one. -/
theorem graphIdWithPreparedAndProfile_eq :
    graphIdWithPreparedAndProfile blake3 platform lock prepared profile =
      graphIdForProjectWithPreparedAndProfile blake3 platform lock .empty prepared profile := by
  unfold graphIdWithPreparedAndProfile graphIdWithPrepared
    graphIdForProjectWithPreparedAndProfile graphIdForProjectWithPrepared graphIdWithWorkspace
  simp only [show WorkspaceLayout.empty.isEmpty = true from rfl, if_true, List.append_nil]

/-- Every other identity is that of a project with some sections empty. -/
theorem graphIds_eq :
    graphId blake3 platform lock =
        graphIdWithPreparedAndProfile blake3 platform lock ∅ .defaultProfile ∧
      graphIdWithProfile blake3 platform lock profile =
        graphIdWithPreparedAndProfile blake3 platform lock ∅ profile ∧
      graphIdWithPrepared blake3 platform lock prepared =
        graphIdWithPreparedAndProfile blake3 platform lock prepared .defaultProfile ∧
      graphIdWithWorkspace blake3 platform lock workspace =
        graphIdForProjectWithProfile blake3 platform lock workspace .defaultProfile ∧
      graphIdForProject blake3 platform lock workspace =
        graphIdForProjectWithProfile blake3 platform lock workspace .defaultProfile := by
  have hdefault : InstallProfile.defaultProfile.isDefault = true := rfl
  simp only [graphIdWithPreparedAndProfile, graphIdWithPrepared, graphIdWithProfile,
    graphIdForProjectWithProfile, graphIdForProjectWithPreparedAndProfile, graphIdForProject,
    graphIdForProjectWithPrepared, hdefault, Std.ExtTreeMap.isEmpty_empty, if_true,
    List.append_nil, and_self]

end Ids
end Graph
end Bpm
