import Bpm.Lib.Folds
import Bpm.Lockfile.Model
import Bpm.Registry.Disjunction
import Bpm.Resolver.Node
import Bpm.Resolver.Overrides

/-!
# Frozen installs

A frozen install replays a lockfile only when it records what the manifest declares.  All
declarations are compared as texts; for registry requests the locked version at the root
is tested as well.  That test reads a request as a range, where placement reads it with
`request_matches`.
-/

namespace Bpm

open Text

namespace Frozen

/-! ## The check -/

inductive FrozenError
  | manifest (reason : Str)
  | overrides (error : OverrideError)
  | disagree (onlyManifest onlyLock : List Str) (changedSpecs : List (Str × Str × Str))
  | outsideRange (name : Str) (version : Version) (effectiveSpec : Str)
deriving DecidableEq

def isRegistrySpec (spec : Str) : Bool :=
  !spec.contains ':' && !(lit "http://").isPrefixOf spec && !(lit "https://").isPrefixOf spec

/-- The specification of a root declaration after the overrides. -/
def effectiveSpec (overrides : Map Str) (declaration : Str × Str) : Str :=
  (overrides[declaration.1]?).getD declaration.2

/-- The package at the root slot of a name. -/
def rootPlacement (lock : Lockfile) (name : Str) : Option PackageEntry :=
  lock.packages.find? (·.path == rootDir ++ name)

section

variable (crates : Crates) (lock : Lockfile)

/-- One declaration; a text that is no range and a version that does not parse pass. -/
def validateDeclaration (overrides : Map Str) (declaration : Str × Str) :
    Except FrozenError Unit :=
  let spec := effectiveSpec overrides declaration
  if !isRegistrySpec spec then .ok ()
  else
    match VersionRange.parse crates spec with
    | none => .ok ()
    | some range =>
        match rootPlacement lock declaration.1 with
        | none => .ok ()
        | some placement =>
            match crates.parseVersion placement.version with
            | none => .ok ()
            | some version =>
                if range.matchesVersion crates version then .ok ()
                else .error (.outsideRange declaration.1 version spec)

def validateFrozenRootVersions (declarations overrides : Map Str) : Except FrozenError Unit :=
  forM declarations.toList (validateDeclaration crates lock overrides)

def onlyIn (left right : Map Str) : List Str :=
  left.keys.filter (!right.contains ·)

def changedSpecs (declarations locked : Map Str) : List (Str × Str × Str) :=
  declarations.toList.filterMap fun entry =>
    match locked[entry.1]? with
    | none => none
    | some spec => if entry.2 = spec then none else some (entry.1, entry.2, spec)

/-- The manifest that was read, against the lockfile. -/
def enforceFrozen (manifest : Except Str PackageManifest) : Except FrozenError Unit :=
  match manifest with
  | .error reason => .error (.manifest reason)
  | .ok manifest =>
      let declarations := manifest.rootDependencyDeclarations
      match OverrideSet.fromManifest crates manifest.overrides declarations .root with
      | .error e => .error (.overrides e)
      | .ok expected =>
          if declarations = lock.root.dependencies ∧
              lock.resolution.root.devDependencies = manifest.devDependencies ∧
              lock.resolution.root.optionalDependencies = manifest.optionalDependencies ∧
              lock.resolution.root.overrides = expected.normalized then
            validateFrozenRootVersions crates lock declarations expected.normalized
          else
            .error (.disagree (onlyIn declarations lock.root.dependencies)
              (onlyIn lock.root.dependencies declarations)
              (changedSpecs declarations lock.root.dependencies))

end

/-! ## What the check promises -/

section

variable (crates : Crates) (manifest : PackageManifest) (lock : Lockfile)

/-- The lockfile records the sections and the overrides of the manifest. -/
structure Recorded : Prop where
  declarations : lock.root.dependencies = manifest.rootDependencyDeclarations
  dev : lock.resolution.root.devDependencies = manifest.devDependencies
  optional : lock.resolution.root.optionalDependencies = manifest.optionalDependencies
  overrides : ∃ expected, OverrideSet.fromManifest crates manifest.overrides
    manifest.rootDependencyDeclarations .root = .ok expected ∧
      lock.resolution.root.overrides = expected.normalized

/-- A registry request of the root (after the recorded overrides) and the version that is
locked for it. -/
structure Locked (spec : Str) (version : Version) : Prop where
  declared : ∃ name declared, manifest.rootDependencyDeclarations[name]? = some declared ∧
    spec = effectiveSpec lock.resolution.root.overrides (name, declared) ∧
      ∃ placement, rootPlacement lock name = some placement ∧
        crates.parseVersion placement.version = some version
  registry : isRegistrySpec spec = true

/-- What a frozen install relies on. -/
structure Honoured : Prop where
  recorded : Recorded crates manifest lock
  versions : ∀ spec version, Locked crates manifest lock spec version →
    requestMatches crates spec version = true

/-- Every locked version is in the range that its request is read as, if it is one. -/
structure InRange : Prop where
  recorded : Recorded crates manifest lock
  versions : ∀ spec version, Locked crates manifest lock spec version →
    ∀ range, VersionRange.parse crates spec = some range →
      range.matchesVersion crates version = true

end

/-- A request whose reading as a range cannot admit too much: any version will do, or it is
a range, and a bare version is the locked one. -/
def ReadAlike (crates : Crates) (spec : Str) (version : Version) : Prop :=
  trim spec = [] ∨ trim spec = lit "latest" ∨
    (VersionRange.parse crates spec ≠ none ∧
      ∀ e, crates.parseVersion (trim spec) = some e → e = version)

section

variable {crates : Crates} {manifest : PackageManifest} {lock : Lockfile}

theorem validateDeclaration_eq_ok {overrides : Map Str} {declaration : Str × Str} :
    validateDeclaration crates lock overrides declaration = .ok () ↔
      (isRegistrySpec (effectiveSpec overrides declaration) = true →
        ∀ placement, rootPlacement lock declaration.1 = some placement →
          ∀ version, crates.parseVersion placement.version = some version →
            ∀ range, VersionRange.parse crates (effectiveSpec overrides declaration) =
              some range → range.matchesVersion crates version = true) := by
  unfold validateDeclaration
  generalize effectiveSpec overrides declaration = spec
  dsimp only
  cases isRegistrySpec spec with
  | false => simp
  | true =>
      cases VersionRange.parse crates spec with
      | none => simp
      | some range =>
          cases rootPlacement lock declaration.1 with
          | none => simp
          | some placement =>
              cases hversion : crates.parseVersion placement.version with
              | none => simp [hversion]
              | some version => simp [hversion]

theorem validateFrozenRootVersions_eq_ok {declarations overrides : Map Str} :
    validateFrozenRootVersions crates lock declarations overrides = .ok () ↔
      ∀ name declared, declarations[name]? = some declared →
        validateDeclaration crates lock overrides (name, declared) = .ok () := by
  unfold validateFrozenRootVersions
  rw [Folds.forM_eq_ok]
  constructor
  · intro h name declared hdeclared
    exact h (name, declared) (Map.mem_toList.mpr hdeclared)
  · intro h declaration hin
    exact h declaration.1 declaration.2 (Map.mem_toList.mp hin)

/-- The ranges of all declarations admit what is locked for them. -/
theorem declarations_inRange_iff :
    (∀ name declared, manifest.rootDependencyDeclarations[name]? = some declared →
        validateDeclaration crates lock lock.resolution.root.overrides (name, declared) =
          .ok ()) ↔
      ∀ spec version, Locked crates manifest lock spec version →
        ∀ range, VersionRange.parse crates spec = some range →
          range.matchesVersion crates version = true := by
  constructor
  · rintro h spec version ⟨⟨name, declared, hdeclared, rfl, placement, hplaced, hversion⟩, hreg⟩
    exact validateDeclaration_eq_ok.mp (h name declared hdeclared) hreg placement hplaced version
      hversion
  · intro h name declared hdeclared
    apply validateDeclaration_eq_ok.mpr
    intro hreg placement hplaced version hversion
    exact h _ version ⟨⟨name, declared, hdeclared, rfl, placement, hplaced, hversion⟩, hreg⟩

/-- The check passes exactly when everything is recorded and in range. -/
theorem enforceFrozen_eq_ok :
    enforceFrozen crates lock (.ok manifest) = .ok () ↔ InRange crates manifest lock := by
  unfold enforceFrozen
  dsimp only
  constructor
  · intro h
    split at h
    · cases h
    · rename_i expected hexpected
      split at h
      · rename_i hsame
        obtain ⟨hdeclarations, hdev, hoptional, hoverrides⟩ := hsame
        rw [validateFrozenRootVersions_eq_ok, ← hoverrides] at h
        exact ⟨⟨hdeclarations.symm, hdev, hoptional, expected, hexpected, hoverrides⟩,
          declarations_inRange_iff.mp h⟩
      · cases h
  · rintro ⟨⟨hdeclarations, hdev, hoptional, expected, hexpected, hoverrides⟩, hversions⟩
    simp only [hexpected]
    rw [if_pos ⟨hdeclarations.symm, hdev, hoptional, hoverrides⟩,
      validateFrozenRootVersions_eq_ok, ← hoverrides]
    exact declarations_inRange_iff.mpr hversions

/-- A version in range is what was asked for exactly when both readings of the request
are alike. -/
theorem requestMatches_iff_readAlike (hcrates : crates.Semver) {spec : Str} {version : Version}
    (h : ∀ range, VersionRange.parse crates spec = some range →
      range.matchesVersion crates version = true) :
    requestMatches crates spec version = true ↔ ReadAlike crates spec version := by
  have haccepts : rangeAccepts crates spec version = true ↔ VersionRange.parse crates spec ≠ none := by
    unfold rangeAccepts
    cases hparse : VersionRange.parse crates spec with
    | none => simp
    | some range => simp [h range hparse]
  by_cases hat : '@' ∈ spec
  · have hin : '@' ∈ trim spec := mem_trim hat (by decide)
    rw [requestMatches_of_at hat]
    apply iff_of_false (by decide)
    rintro (hblank | hlatest | ⟨hrange, _⟩)
    · rw [hblank] at hin
      cases hin
    · rw [hlatest] at hin
      revert hin
      decide
    · rw [← haccepts, rangeAccepts_of_at hcrates hat] at hrange
      cases hrange
  · rw [requestMatches_of_trim hcrates hat]
    split
    · rename_i hblank
      exact iff_of_true rfl (hblank.elim .inl fun h => .inr (.inl h))
    · rename_i hblank
      rw [not_or] at hblank
      unfold ReadAlike
      rw [or_iff_right hblank.1, or_iff_right hblank.2, ← haccepts]
      cases hexact : crates.parseVersion (trim spec) with
      | none => simp
      | some e =>
          -- a bare version is a range that admits the version itself
          rw [← rangeAccepts_trim, rangeAccepts_version hcrates hexact] at haccepts ⊢
          simp only [Option.map_some, Option.getD_some, decide_eq_true_eq, Option.some.injEq,
            forall_eq']
          constructor
          · rintro rfl
            exact ⟨compatible_refl hcrates e, rfl⟩
          · exact And.right

/-- A frozen install that passes keeps its promise exactly when, for what is recorded and
in range, every locked request is read alike. -/
theorem enforceFrozen_honoured_iff (hcrates : crates.Semver) (manifest : PackageManifest)
    (lock : Lockfile) :
    (enforceFrozen crates lock (.ok manifest) = .ok () → Honoured crates manifest lock) ↔
      (InRange crates manifest lock → ∀ spec version, Locked crates manifest lock spec version →
        ReadAlike crates spec version) := by
  rw [enforceFrozen_eq_ok]
  apply forall_congr'
  intro h
  have hread : ∀ spec version, Locked crates manifest lock spec version →
      (requestMatches crates spec version = true ↔ ReadAlike crates spec version) :=
    fun spec version hlocked => requestMatches_iff_readAlike hcrates (h.versions spec version hlocked)
  constructor
  · intro hhonoured spec version hlocked
    exact (hread spec version hlocked).mp (hhonoured.versions spec version hlocked)
  · intro halike
    apply Honoured.mk h.recorded
    intro spec version hlocked
    exact (hread spec version hlocked).mpr (halike spec version hlocked)

end

namespace Example

/-- The manifest of a project with one dependency. -/
def manifest (spec : Str) : PackageManifest :=
  { sourceDir := none, name := none, version := none, bin := none, scripts := ∅
    dependencies := (∅ : Map Str).insert (lit "a") spec
    devDependencies := ∅, peerDependencies := ∅, optionalDependencies := ∅
    peerDependenciesMeta := ∅, overrides := ∅, os := [], cpu := [], libc := [] }

def placed : PackageEntry :=
  { path := rootDir ++ lit "a", name := lit "a", version := lit "1.3.0"
    resolved := lit "https://registry/a.tgz", workspaceTarget := none, integrity := none
    link := false, dev := false, optional := false, os := [], cpu := [], bin := ∅
    dependencies := ∅ }

/-- A lockfile for it, with the dependency at `1.3.0`. -/
def lock (spec : Str) : Lockfile :=
  { Lockfile.new (lit "bpm") with
    root := ⟨none, none, (∅ : Map Str).insert (lit "a") spec⟩
    packages := [placed] }

theorem declarations_eq (spec : Str) :
    (manifest spec).rootDependencyDeclarations = (∅ : Map Str).insert (lit "a") spec := rfl

theorem locked (spec : Str) (hreg : isRegistrySpec spec = true) :
    Locked Release.crates (manifest spec) (lock spec) spec (Release.version 1 3 0) := by
  apply Locked.mk _ hreg
  refine ⟨lit "a", spec, ?_, ?_, placed, ?_, ?_⟩
  · rw [declarations_eq]
    exact Map.get_insert_self _ _ _
  · rfl
  · simp [rootPlacement, lock, placed]
  · decide

end Example

/-- A caret range is kept. -/
theorem enforceFrozen_honoured_caret :
    enforceFrozen Release.crates (Example.lock (lit "^1.2.3"))
        (.ok (Example.manifest (lit "^1.2.3"))) = .ok () ∧
      Honoured Release.crates (Example.manifest (lit "^1.2.3")) (Example.lock (lit "^1.2.3")) := by
  have hpasses : enforceFrozen Release.crates (Example.lock (lit "^1.2.3"))
      (.ok (Example.manifest (lit "^1.2.3"))) = .ok () := by decide
  refine ⟨hpasses, (enforceFrozen_honoured_iff Release.crates_semver _ _).mpr ?_ hpasses⟩
  rintro _ spec version ⟨⟨name, declared, hdeclared, rfl, _⟩, _⟩
  rw [Example.declarations_eq, Map.get_insert] at hdeclared
  split at hdeclared
  · cases hdeclared
    right
    right
    apply And.intro (by decide)
    intro e he
    have hnone : Release.crates.parseVersion (trim (lit "^1.2.3")) = none := by decide
    rw [hnone] at he
    cases he
  · simp at hdeclared

/-- The exact version `1.2.3` is declared, `1.3.0` is locked, and the check passes. -/
theorem enforceFrozen_loose :
    enforceFrozen Release.crates (Example.lock (lit "1.2.3"))
        (.ok (Example.manifest (lit "1.2.3"))) = .ok () ∧
      ¬Honoured Release.crates (Example.manifest (lit "1.2.3")) (Example.lock (lit "1.2.3")) := by
  constructor
  · decide
  · intro h
    have hmatches := h.versions _ _ (Example.locked (lit "1.2.3") (by decide))
    have hrefused : requestMatches Release.crates (lit "1.2.3") (Release.version 1 3 0) = false := by
      decide
    rw [hrefused] at hmatches
    cases hmatches

end Frozen
end Bpm
