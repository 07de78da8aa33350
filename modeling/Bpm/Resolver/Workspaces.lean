import Bpm.Manifest

/-!
# Workspace matching

Configured workspaces are indexed by name and by project-relative path.  An
ordinary request links a workspace whose version satisfies it and is otherwise a
registry request; a `workspace:` request must be satisfied locally.
-/

namespace Bpm

open Text

inductive WorkspaceError
  | invalidPath (path : Str)
  | duplicatePath (path : Str)
  | missingName (path : Str)
  | missingVersion (name path : Str)
  | invalidVersion (name path version : Str)
  | duplicateName (name firstPath secondPath : Str)
  | missingWorkspace (name : Str)
  | invalidWorkspaceSpec (name spec : Str)
  | versionMismatch (name spec version : Str)
deriving DecidableEq

/-- One local package available to workspace matching. -/
structure IndexedWorkspace where
  name : Str
  version : Version
  relativePath : Str
  manifest : Option PackageManifest

/-- Whether a path with forward slashes is one that the index accepts. -/
def isWorkspacePath (path : Str) : Bool :=
  !path.isEmpty && !(['/'].isPrefixOf path) && !(['/'].isSuffixOf path) &&
    !(List.splitOn '/' path).any (fun part => part.isEmpty || part = ['.'] || part = ['.', '.']) &&
    !(List.splitOn '/' path).head?.any fun part => [':'].isSuffixOf part

def normalizeRelativePath (path : Str) : Except WorkspaceError Str :=
  let normalized := path.map fun c => if c = '\\' then '/' else c
  if isWorkspacePath normalized then .ok normalized else .error (.invalidPath path)

/-- An index of workspaces: every package is filed under its own name and lives
at an accepted path. -/
structure WorkspaceIndex where
  byName : Map IndexedWorkspace
  byPath : Map Str
  name_eq : ∀ {name : Str} {w : IndexedWorkspace}, byName[name]? = some w → w.name = name
  path_ok : ∀ {name : Str} {w : IndexedWorkspace},
    byName[name]? = some w → isWorkspacePath w.relativePath = true

namespace WorkspaceIndex

def empty : WorkspaceIndex where
  byName := ∅
  byPath := ∅
  name_eq := by simp
  path_ok := by simp

/-- File a package under its name and path. -/
def add (index : WorkspaceIndex) (w : IndexedWorkspace)
    (hpath : isWorkspacePath w.relativePath = true) : WorkspaceIndex where
  byName := index.byName.insert w.name w
  byPath := index.byPath.insert w.relativePath w.name
  name_eq := by
    intro name w' h
    rw [Map.get_insert] at h
    split at h
    · rename_i hname
      cases h
      exact hname
    · exact index.name_eq h
  path_ok := by
    intro name w' h
    rw [Map.get_insert] at h
    split at h
    · cases h
      exact hpath
    · exact index.path_ok h

end WorkspaceIndex

/-- A package directory that discovery found. -/
structure WorkspacePackage where
  dir : Str
  name : Option Str
  version : Option Str

/-- The entry of one discovered package at its normalized path. -/
def indexedWorkspace (crates : Crates) (relativePath : Str) (package : WorkspacePackage)
    (manifest : Option PackageManifest) : Except WorkspaceError IndexedWorkspace :=
  match ((manifest.bind (·.name)).or package.name).filter (fun name => !name.isEmpty) with
  | none => .error (.missingName relativePath)
  | some name =>
      match (manifest.bind (·.version)).or package.version with
      | none => .error (.missingVersion name relativePath)
      | some versionText =>
          match crates.parseVersion versionText with
          | none => .error (.invalidVersion name relativePath versionText)
          | some version => .ok ⟨name, version, relativePath, manifest⟩

namespace WorkspaceIndex

/-- Index one package after the ones before it. -/
def indexPackage (crates : Crates) (loadManifest : Str → Option PackageManifest)
    (index : WorkspaceIndex) (entry : Str × WorkspacePackage) :
    Except WorkspaceError WorkspaceIndex :=
  if index.byPath.contains entry.1 then
    .error (.duplicatePath entry.1)
  else
    match indexedWorkspace crates entry.1 entry.2 (loadManifest entry.1) with
    | .error e => .error e
    | .ok w =>
        match index.byName[w.name]? with
        | some existing => .error (.duplicateName w.name existing.relativePath entry.1)
        | none =>
            -- Always so: the path was normalized before.
            if hpath : isWorkspacePath w.relativePath = true then
              .ok (index.add w hpath)
            else
              .error (.invalidPath entry.2.dir)

/-- Validate and index a discovered layout. -/
def fromLayout (crates : Crates) (loadManifest : Str → Option PackageManifest)
    (packages : List WorkspacePackage) : Except WorkspaceError WorkspaceIndex := do
  let entries ← packages.mapM fun package => do
    let path ← normalizeRelativePath package.dir
    return (path, package)
  let sorted := entries.insertionSort fun a b => a.1 ≤ b.1
  sorted.foldlM (indexPackage crates loadManifest) empty

end WorkspaceIndex

/-- The edge to a linked workspace, with the request in force. -/
structure WorkspaceEdge where
  name : Str
  spec : Str
  version : Version
  relativePath : Str
deriving DecidableEq

inductive WorkspaceResolution
  | link (edge : WorkspaceEdge)
  | registry (spec : Str)
deriving DecidableEq

def linkEdge (workspace : IndexedWorkspace) (effectiveSpec : Str) : WorkspaceEdge :=
  ⟨workspace.name, effectiveSpec, workspace.version, workspace.relativePath⟩

namespace WorkspaceIndex

def get (index : WorkspaceIndex) (name : Str) : Option IndexedWorkspace :=
  index.byName[name]?

/-- The request a `workspace:` specification puts on the local package. -/
def resolveExplicit (crates : Crates) (index : WorkspaceIndex) (name originalSpec : Str)
    (spec : WorkspaceSpec) : Except WorkspaceError WorkspaceResolution :=
  match index.byName[name]? with
  | none => .error (.missingWorkspace name)
  | some workspace =>
      match spec with
      | .any => .ok (.link (linkEdge workspace ['*']))
      | .caret => .ok (.link (linkEdge workspace ('^' :: crates.showVersion workspace.version)))
      | .tilde => .ok (.link (linkEdge workspace ('~' :: crates.showVersion workspace.version)))
      | .range range =>
          if range.isEmpty then
            .error (.invalidWorkspaceSpec name originalSpec)
          else
            match VersionRange.parse crates range with
            | none => .error (.invalidWorkspaceSpec name originalSpec)
            | some requirement =>
                if requirement.matchesVersion crates workspace.version then
                  .ok (.link (linkEdge workspace range))
                else
                  .error (.versionMismatch name originalSpec
                    (crates.showVersion workspace.version))

/-- Link a request to a local package where workspace semantics permit it. -/
def resolve (crates : Crates) (index : WorkspaceIndex) (name spec : Str) :
    Except WorkspaceError WorkspaceResolution :=
  match WorkspaceSpec.parse spec with
  | some workspaceSpec => resolveExplicit crates index name spec workspaceSpec
  | none =>
      match index.byName[name]? with
      | none => .ok (.registry spec)
      | some workspace =>
          match VersionRange.parse crates spec with
          | none => .ok (.registry spec)
          | some requirement =>
              if requirement.matchesVersion crates workspace.version then
                .ok (.link (linkEdge workspace spec))
              else
                .ok (.registry spec)

/-- The links of every configured workspace, in name order. -/
def topLevelLinks (crates : Crates) (index : WorkspaceIndex) : List WorkspaceEdge :=
  index.byName.toList.map fun entry =>
    linkEdge entry.2 (crates.showVersion entry.2.version)

end WorkspaceIndex
end Bpm
