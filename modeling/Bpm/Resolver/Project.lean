import Bpm.Registry.Release
import Bpm.Resolver.Steps

/-!
# Concrete projects

Projects over plain releases, with no workspaces and no reachable sources: what
the model is run on where a statement needs a concrete resolution.
-/

namespace Bpm
namespace Project

open Text

/-- A host where nothing can be read. -/
def noHost : Host where
  resolveSource := fun _ _ => .error (lit "unreachable")
  readToString := fun _ => .error (lit "unreachable")
  readSourceBytes := fun _ => .error (lit "unreachable")
  applyPatch := fun _ _ => .error (lit "unreachable")
  writePatchedTarball := fun _ _ => .error (lit "unreachable")
  sourceFromTarballBytes := fun _ _ _ => .error (lit "unreachable")

/-- A registry with the given versions, seen from a Linux machine. -/
def inputs (versions : List VersionMetadata) : Inputs where
  crates := Release.crates
  registry := Release.registry versions
  host := noHost
  workspace := none
  target := ⟨lit "linux", lit "x64", none⟩
  peerMode := .strict
  generator := lit "bpm"
  sink := true

/-- A manifest with the given dependencies and dev dependencies. -/
def manifest (dependencies devDependencies : List (Str × Str)) : PackageManifest where
  sourceDir := none
  name := none
  version := none
  bin := none
  scripts := ∅
  dependencies := Std.ExtTreeMap.ofList dependencies
  devDependencies := Std.ExtTreeMap.ofList devDependencies
  peerDependencies := ∅
  optionalDependencies := ∅
  peerDependenciesMeta := ∅
  overrides := ∅
  os := []
  cpu := []
  libc := []

/-- What a project without overrides works with. -/
def env (versions : List VersionMetadata) : Env :=
  (inputs versions).env (manifest [] []) OverrideSet.empty

/-- The run of a project. -/
def run (versions : List VersionMetadata) (dependencies devDependencies : List (Str × Str))
    (fuel : Nat) : Except Halt Lockfile × GraphResolver :=
  resolveManifest (inputs versions) (manifest dependencies devDependencies) fuel .init

theorem no_overrides (crates : Crates) (dependencies devDependencies : List (Str × Str)) :
    OverrideSet.fromManifest crates (manifest dependencies devDependencies).overrides
      (manifest dependencies devDependencies).rootDependencyDeclarations .root =
        .ok OverrideSet.empty := by
  simp [OverrideSet.fromManifest, manifest, OverrideSet.empty]
  rfl

/-- A check of a run's lockfile, which the run then has. -/
theorem run_ok {o : Except Halt Lockfile} {c : Lockfile → Bool}
    (h : o.toOption.any c = true) :
    ∃ lock, o = .ok lock ∧ c lock = true := by
  cases o with
  | ok lock => exact ⟨lock, rfl, h⟩
  | error e => cases h

/-- The end of a run is a reachable state. -/
theorem run_reachable (versions : List VersionMetadata)
    (dependencies devDependencies : List (Str × Str)) (fuel : Nat) :
    Reachable (env versions)
      (RootRequests (env versions) (manifest dependencies devDependencies))
      (run versions dependencies devDependencies fuel).2 :=
  resolveManifest_reachable (no_overrides _ dependencies devDependencies) fuel

end Project
end Bpm
