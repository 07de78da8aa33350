import Bpm.Graph.Decode

/-!
# What the graph identity leaves out

The encoding reads one field of the resolver's record of a package, its C
libraries, and skips the workspace target of a link.  Two lockfiles that differ
only in where a link points, in where the contents of a package come from, or in
the placements that serve its dependencies therefore share every identity.
-/

namespace Bpm

open Text

namespace LockDependency

def withoutTarget (d : LockDependency) : LockDependency := { d with target := [] }

end LockDependency

namespace PackageResolution

/-- A record without its source and without the targets it points to. -/
def withoutTargets (r : PackageResolution) : PackageResolution :=
  { r with
    source := .registry []
    workspaceTarget := none
    dependencies := r.dependencies.map fun _ d => d.withoutTarget
    optionalDependencies := r.optionalDependencies.map fun _ d => d.withoutTarget
    peerDependencies := r.peerDependencies.map fun _ d => d.withoutTarget }

end PackageResolution

namespace PackageEntry

def withoutTarget (p : PackageEntry) : PackageEntry :=
  { p with workspaceTarget := if p.link then none else p.workspaceTarget }

end PackageEntry

namespace Lockfile

/-- A lockfile without the workspace targets of its links and without the sources
and dependency targets of its packages. -/
def withoutTargets (lock : Lockfile) : Lockfile :=
  { lock with
    packages := lock.packages.map PackageEntry.withoutTarget
    resolution :=
      { lock.resolution with packages := lock.resolution.packages.map fun _ r => r.withoutTargets } }

/-- Equal except for targets and sources. -/
def SameButTargets (lock lock' : Lockfile) : Prop := lock.withoutTargets = lock'.withoutTargets

end Lockfile

namespace Graph

open Bytes

theorem writePackage_withoutTargets (resolution : Option PackageResolution) (p : PackageEntry) :
    writePackage (resolution.map (·.withoutTargets)) p.withoutTarget =
      writePackage resolution p := by
  cases resolution <;> rfl

theorem canonicalGraphBytes_withoutTargets (platform : Str) (lock : Lockfile) :
    canonicalGraphBytes platform lock.withoutTargets = canonicalGraphBytes platform lock := by
  have hpackages : counted
      (fun p => writePackage lock.withoutTargets.resolution.packages[p.path]? p)
      lock.withoutTargets.packages =
      counted (fun p => writePackage lock.resolution.packages[p.path]? p) lock.packages := by
    simp only [counted, Lockfile.withoutTargets, List.length_map, List.flatMap_map,
      Std.ExtTreeMap.getElem?_map]
    congr 2
    funext p
    exact writePackage_withoutTargets lock.resolution.packages[p.path]? p
  unfold canonicalGraphBytes
  rw [hpackages]
  rfl

/-- Targets and sources do not reach the hash. -/
theorem bytes_eq_of_sameButTargets {lock lock' : Lockfile} (h : lock.SameButTargets lock')
    (platform : Str) (workspace : WorkspaceLayout) (prepared : Map ImageKey)
    (profile : InstallProfile) :
    Subject.bytes ⟨platform, lock, workspace, prepared, profile⟩ =
      Subject.bytes ⟨platform, lock', workspace, prepared, profile⟩ := by
  unfold Subject.bytes
  rw [← canonicalGraphBytes_withoutTargets platform lock, h, canonicalGraphBytes_withoutTargets]

/-- Whatever the hash, no difference in a target or a source shows in the identity. -/
theorem graphId_misses_targets {δ : Type} (blake3 : Bytes → δ) (platform : Str)
    (workspace : WorkspaceLayout) (prepared : Map ImageKey) (profile : InstallProfile)
    {lock lock' : Lockfile} (hsame : lock.SameButTargets lock') (hne : lock ≠ lock') :
    ¬(graphIdForProjectWithPreparedAndProfile blake3 platform lock workspace prepared profile =
          graphIdForProjectWithPreparedAndProfile blake3 platform lock' workspace prepared profile →
        lock = lock') := by
  intro hclaim
  refine hne (hclaim ?_)
  rw [graphIdForProjectWithPreparedAndProfile_eq, graphIdForProjectWithPreparedAndProfile_eq,
    bytes_eq_of_sameButTargets hsame]

/-- A project with a link to `directory` and a package patched by `patch`. -/
def linkedAndPatched (directory patch : Str) : Lockfile :=
  { Lockfile.new (lit "bpm") with
    packages :=
      [{ path := lit "node_modules/local", name := lit "local", version := lit "1.0.0"
         resolved := [], workspaceTarget := some directory, integrity := none
         link := true, dev := false, optional := false, os := [], cpu := [], bin := ∅
         dependencies := ∅ },
       { path := lit "node_modules/p", name := lit "p", version := lit "1.0.0"
         resolved := lit "https://r/p.tgz", workspaceTarget := none
         integrity := some (lit "sha512-abc"), link := false, dev := false, optional := false
         os := [], cpu := [], bin := ∅, dependencies := ∅ }]
    resolution :=
      { ResolutionMetadata.default with
        packages := (∅ : Map PackageResolution).insert (lit "node_modules/p")
          { source := .patch (.registry (lit "https://r")) patch, devOptional := false
            peer := false, libc := [], dependencies := ∅, optionalDependencies := ∅
            peerDependencies := ∅, optionalPeers := ∅, peerContext := ∅
            workspaceTarget := none, hasInstallScript := false } } }

theorem linkedAndPatched_same (directory directory' patch patch' : Str) :
    (linkedAndPatched directory patch).SameButTargets (linkedAndPatched directory' patch') := by
  have hrecords : (linkedAndPatched directory patch).resolution.packages.map
      (fun _ r => r.withoutTargets) =
      (linkedAndPatched directory' patch').resolution.packages.map
        fun _ r => r.withoutTargets := by
    refine Std.ExtTreeMap.ext_getElem? fun k => ?_
    rw [Std.ExtTreeMap.getElem?_map, Std.ExtTreeMap.getElem?_map]
    simp only [linkedAndPatched, Map.get_insert]
    split <;> rfl
  unfold Lockfile.SameButTargets Lockfile.withoutTargets
  rw [hrecords]
  rfl

theorem linkedAndPatched_patch_inj {directory patch patch' : Str}
    (h : linkedAndPatched directory patch = linkedAndPatched directory patch') :
    patch = patch' := by
  have hrecord := congrArg
    (fun lock : Lockfile => lock.resolution.packages[lit "node_modules/p"]?.map (·.source)) h
  simp only [linkedAndPatched, Map.get_insert_self, Option.map_some, Option.some.injEq,
    LockSource.patch.injEq, true_and] at hrecord
  exact hrecord

theorem graphId_misses_targets_patch :
    ¬(graphIdForProjectWithPreparedAndProfile (fun bytes => bytes) (lit "x86_64/linux")
          (linkedAndPatched (lit "libs/a") (lit "patches/1.patch")) .empty ∅ .defaultProfile =
        graphIdForProjectWithPreparedAndProfile (fun bytes => bytes) (lit "x86_64/linux")
          (linkedAndPatched (lit "libs/a") (lit "patches/2.patch")) .empty ∅ .defaultProfile →
      linkedAndPatched (lit "libs/a") (lit "patches/1.patch") =
        linkedAndPatched (lit "libs/a") (lit "patches/2.patch")) :=
  graphId_misses_targets _ _ _ _ _ (linkedAndPatched_same _ _ _ _)
    fun h => absurd (linkedAndPatched_patch_inj h) (by decide)

/-- One collision-free hash, two links to different directories, one identity. -/
theorem graphId_shared_link :
    Function.Injective (fun bytes : Bytes => bytes) ∧
      (linkedAndPatched (lit "libs/a") []).SameButTargets (linkedAndPatched (lit "libs/b") []) ∧
      (linkedAndPatched (lit "libs/a") []).packages.map (·.workspaceTarget) ≠
        (linkedAndPatched (lit "libs/b") []).packages.map (·.workspaceTarget) ∧
      graphIdForProject (fun bytes => bytes) (lit "x86_64/linux")
          (linkedAndPatched (lit "libs/a") []) .empty =
        graphIdForProject (fun bytes => bytes) (lit "x86_64/linux")
          (linkedAndPatched (lit "libs/b") []) .empty := by
  have hsame := linkedAndPatched_same (lit "libs/a") (lit "libs/b") [] []
  refine ⟨fun _ _ h => h, hsame, by simp [linkedAndPatched, lit], ?_⟩
  rw [(graphIds_eq _ _ _ _ ∅ .defaultProfile).2.2.2.2,
    (graphIds_eq _ _ _ _ ∅ .defaultProfile).2.2.2.2, graphIdForProjectWithProfile,
    graphIdForProjectWithProfile, graphIdForProjectWithPreparedAndProfile_eq,
    graphIdForProjectWithPreparedAndProfile_eq, bytes_eq_of_sameButTargets hsame]

end Graph
end Bpm
