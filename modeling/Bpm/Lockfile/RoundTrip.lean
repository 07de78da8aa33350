import Bpm.Lockfile.Validate

/-!
# Reading back what was written

What a reader accepted is written in canonical form.  A version 2 lockfile is
accepted again and yields its canonical form.  A version 1 lockfile skips the
checks of version 2 when it is read and meets them when its canonical form is
read back: it survives exactly when its package paths are distinct and its linked
packages lie at legal paths.
-/

namespace Bpm

open Text Serde

/-! ## The checks as statements -/

theorem checkAll_ok_iff {α : Type} {check : α → Except LockfileError Unit} {xs : List α} :
    checkAll check xs = .ok () ↔ ∀ x ∈ xs, check x = .ok () := by
  induction xs with
  | nil => simp [checkAll]
  | cons x xs ih =>
      unfold checkAll
      cases hx : check x with
      | error e => simp [hx]
      | ok u => simp [hx, ih]

theorem bind_ok_iff {x : Except LockfileError Unit} {y : Except LockfileError Unit} :
    (x >>= fun _ => y) = .ok () ↔ x = .ok () ∧ y = .ok () := by
  cases x with
  | error e => simp [bind, Except.bind]
  | ok u => simp [bind, Except.bind]

theorem invalidIf_ok_iff {condition : Bool} {reason : InvalidLock} :
    invalidIf condition reason = .ok () ↔ condition = false := by
  cases condition <;> simp [invalidIf]

/-- The paths are legal, and each is greater than the one before it. -/
theorem checkPaths_ok_iff {previous : Option Str} {packages : List PackageEntry} :
    checkPaths previous packages = .ok () ↔
      (∀ package ∈ packages, legalRelativePath package.path = true) ∧
        (previous.toList ++ packages.map (·.path)).IsChain (· < ·) := by
  induction packages generalizing previous with
  | nil => cases previous <;> simp [checkPaths]
  | cons package rest ih =>
      unfold checkPaths
      by_cases hlegal : legalRelativePath package.path = true
      · cases previous with
        | none => simp [hlegal, ih]
        | some q =>
            by_cases hle : package.path ≤ q
            · simp [hlegal, hle, not_lt.mpr hle]
            · simp [hlegal, hle, ih, not_le.mp hle]
      · simp [hlegal]

theorem validatePackageSafety_ok_iff {lock : Lockfile} :
    lock.validatePackageSafety = .ok () ↔
      ∀ package ∈ lock.packages, checkPackageSafety package = .ok () :=
  checkAll_ok_iff

theorem validateV2_ok_iff {lock : Lockfile} :
    lock.validateV2 = .ok () ↔ checkPaths none lock.packages = .ok () ∧
      (∀ entry ∈ lock.resolution.registryNames.toList,
        lock.checkRegistryName entry = .ok ()) ∧
      ∀ entry ∈ lock.resolution.packages.toList, lock.checkResolution entry = .ok () := by
  unfold Lockfile.validateV2
  rw [bind_ok_iff, bind_ok_iff, checkAll_ok_iff, checkAll_ok_iff]

/-- A package that is not linked lies at a legal path once it is safe. -/
theorem legal_of_checkPackageSafety {package : PackageEntry}
    (h : checkPackageSafety package = .ok ()) (hlink : package.link = false) :
    legalRelativePath package.path = true := by
  unfold checkPackageSafety at h
  simp only [hlink, Bool.false_eq_true, if_false] at h
  cases hpath : validatePackagePath package.path with
  | error e => simp [hpath] at h
  | ok path => exact legal_of_validatePackagePath hpath

/-! ## The canonical form -/

theorem sortedUnique_sorted (texts : List Str) : (sortedUnique texts).Pairwise (· ≤ ·) :=
  (List.pairwise_insertionSort (· ≤ ·) texts).sublist (List.destutter_sublist _ _)

theorem sortedUnique_idem (texts : List Str) :
    sortedUnique (sortedUnique texts) = sortedUnique texts := by
  have hchain : (sortedUnique texts).IsChain (· ≠ ·) := List.isChain_destutter _ _
  change (List.insertionSort (· ≤ ·) (sortedUnique texts)).destutter (· ≠ ·) = sortedUnique texts
  rw [(sortedUnique_sorted texts).insertionSort_eq]
  exact List.destutter_of_isChain _ _ hchain

namespace Lockfile

/-- The order in which packages are written. -/
def pathLe (a b : PackageEntry) : Prop := a.path ≤ b.path

theorem sortPackages_sorted (lock : Lockfile) : lock.sortPackages.packages.Pairwise pathLe := by
  have : Std.Total (fun a b : PackageEntry => a.path ≤ b.path) :=
    ⟨fun a b => le_total a.path b.path⟩
  have : IsTrans PackageEntry (fun a b => a.path ≤ b.path) :=
    ⟨fun _ _ _ h h' => le_trans h h'⟩
  exact List.pairwise_insertionSort (fun a b : PackageEntry => a.path ≤ b.path) lock.packages

theorem canonical_perm (lock : Lockfile) : lock.canonical.packages.Perm lock.packages :=
  List.perm_insertionSort _ _

/-- Packages that are in order stay where they are. -/
theorem canonical_packages_of_sorted {lock : Lockfile} (h : lock.packages.Pairwise pathLe) :
    lock.canonical.packages = lock.packages :=
  List.Pairwise.insertionSort_eq h

/-- A lockfile whose lists are in order is its own canonical form. -/
theorem canonical_eq_self {lock : Lockfile} (hpackages : lock.packages.Pairwise pathLe)
    (hpatterns : sortedUnique lock.resolution.root.workspacePatterns =
      lock.resolution.root.workspacePatterns)
    (hlibc : ∀ (path : Str) (package : PackageResolution),
      lock.resolution.packages[path]? = some package →
        sortedUnique package.libc = package.libc) : lock.canonical = lock := by
  have hsorted := canonical_packages_of_sorted hpackages
  have hmap : lock.resolution.packages.map (fun _ package =>
      { package with libc := sortedUnique package.libc }) = lock.resolution.packages := by
    refine Std.ExtTreeMap.ext_getElem? fun path => ?_
    rw [Std.ExtTreeMap.getElem?_map]
    cases hpackage : lock.resolution.packages[path]? with
    | none => rfl
    | some package => simp [hlibc path package hpackage]
  obtain ⟨version, generator, root, packages, ⟨rootResolution, resolutions, names⟩⟩ := lock
  simp only at hpatterns hmap
  change (⟨version, generator, root, _, ⟨{ rootResolution with
    workspacePatterns := sortedUnique rootResolution.workspacePatterns },
      resolutions.map _, names⟩⟩ : Lockfile) = _
  rw [hpatterns, hmap]
  exact congrArg (fun packages => (⟨version, generator, root, packages,
    ⟨rootResolution, resolutions, names⟩⟩ : Lockfile)) hsorted

theorem canonical_idem (lock : Lockfile) : lock.canonical.canonical = lock.canonical := by
  refine canonical_eq_self lock.sortPackages_sorted (sortedUnique_idem _) ?_
  intro path package hpackage
  change (lock.resolution.packages.map _)[path]? = some package at hpackage
  rw [Std.ExtTreeMap.getElem?_map] at hpackage
  obtain ⟨old, _, rfl⟩ := Option.map_eq_some_iff.mp hpackage
  exact sortedUnique_idem old.libc

/-- With distinct paths the canonical form does not depend on the order. -/
theorem canonical_of_perm {lock : Lockfile} {packages : List PackageEntry}
    (hperm : packages.Perm lock.packages) (hnodup : (lock.packages.map (·.path)).Nodup) :
    ({ lock with packages := packages } : Lockfile).canonical = lock.canonical := by
  have hsorted : ({ lock with packages := packages } : Lockfile).canonical.packages =
      lock.canonical.packages := by
    refine @List.Perm.eq_of_pairwise _ pathLe _ _ ?_ (sortPackages_sorted _)
      lock.sortPackages_sorted ?_
    · intro a b ha hb hab hba
      have ha' : a ∈ lock.packages := hperm.subset ((canonical_perm _).subset ha)
      have hb' : b ∈ lock.packages := (canonical_perm lock).subset hb
      exact List.inj_on_of_nodup_map hnodup ha' hb' (le_antisymm hab hba)
    · exact (canonical_perm _).trans (hperm.trans (canonical_perm lock).symm)
  change (⟨lock.lockfileVersion, lock.generator, lock.root,
    ({ lock with packages := packages } : Lockfile).canonical.packages,
    lock.canonical.resolution⟩ : Lockfile) = lock.canonical
  rw [hsorted]
  rfl

/-- The checks of the metadata read the packages and, of an entry, everything but
its `libc` list. -/
theorem checkResolution_congr {lock lock' : Lockfile} (h : lock'.packages = lock.packages)
    (path : Str) (metadata : PackageResolution) (libc : List Str) :
    lock'.checkResolution (path, { metadata with libc := libc }) =
      lock.checkResolution (path, metadata) := by
  unfold checkResolution checkTargets packageAt hasPath
  rw [h]
  rfl

theorem checkRegistryName_congr {lock lock' : Lockfile} (h : lock'.packages = lock.packages)
    (entry : Str × Str) : lock'.checkRegistryName entry = lock.checkRegistryName entry := by
  unfold checkRegistryName packageAt
  rw [h]

/-- A valid lockfile lists its packages in order. -/
theorem sorted_of_checkPaths {packages : List PackageEntry}
    (h : checkPaths none packages = .ok ()) : packages.Pairwise fun a b => a.path < b.path := by
  have hchain := (checkPaths_ok_iff.mp h).2
  exact List.pairwise_map.mp (List.isChain_iff_pairwise.mp hchain)

/-- The canonical form of a valid lockfile is valid. -/
theorem validateV2_canonical {lock : Lockfile} (h : lock.validateV2 = .ok ()) :
    lock.canonical.packages = lock.packages ∧ lock.canonical.validateV2 = .ok () := by
  obtain ⟨hpaths, hnames, hresolution⟩ := validateV2_ok_iff.mp h
  have hsorted : lock.packages.Pairwise pathLe :=
    (sorted_of_checkPaths hpaths).imp fun hlt => le_of_lt hlt
  have hpackages := canonical_packages_of_sorted hsorted
  refine ⟨hpackages, validateV2_ok_iff.mpr ⟨?_, ?_, ?_⟩⟩
  · rw [hpackages]
    exact hpaths
  · intro entry hentry
    rw [checkRegistryName_congr hpackages]
    exact hnames entry hentry
  · rintro ⟨path, metadata⟩ hentry
    have hget := Map.mem_toList.mp hentry
    change (lock.resolution.packages.map _)[path]? = some metadata at hget
    rw [Std.ExtTreeMap.getElem?_map] at hget
    obtain ⟨old, hold, rfl⟩ := Option.map_eq_some_iff.mp hget
    rw [checkResolution_congr hpackages]
    exact hresolution (path, old) (Map.mem_toList.mpr hold)

theorem validatePackageSafety_canonical {lock : Lockfile}
    (h : lock.validatePackageSafety = .ok ()) : lock.canonical.validatePackageSafety = .ok () := by
  rw [validatePackageSafety_ok_iff] at h ⊢
  exact fun package hpackage => h package (lock.canonical_perm.subset hpackage)

/-- Packages in order with distinct paths only need legal ones. -/
theorem checkPaths_sorted_iff {packages : List PackageEntry}
    (hsorted : packages.Pairwise pathLe) (hnodup : (packages.map (·.path)).Nodup) :
    checkPaths none packages = .ok () ↔
      ∀ package ∈ packages, legalRelativePath package.path = true := by
  rw [checkPaths_ok_iff]
  refine ⟨fun h => h.1, fun h => ⟨h, ?_⟩⟩
  have hle : (packages.map (·.path)).Pairwise (· ≤ ·) := List.pairwise_map.mpr hsorted
  refine List.isChain_iff_pairwise.mpr ?_
  exact (hle.and hnodup).imp fun h => lt_of_le_of_ne h.1 h.2

/-- Without metadata, the canonical form is valid when the paths are distinct and legal. -/
theorem validateV2_canonical_iff {lock : Lockfile}
    (hempty : lock.resolution = ResolutionMetadata.default) :
    lock.canonical.validateV2 = .ok () ↔ (lock.packages.map (·.path)).Nodup ∧
      ∀ package ∈ lock.packages, legalRelativePath package.path = true := by
  have hnone : lock.canonical.resolution.registryNames.toList = [] ∧
      lock.canonical.resolution.packages.toList = [] := by
    unfold canonical rootResolutionLists sortPackages
    rw [hempty]
    simp [ResolutionMetadata.default]
  rw [validateV2_ok_iff, hnone.1, hnone.2]
  have hperm := lock.canonical_perm
  constructor
  · rintro ⟨hpaths, -, -⟩
    refine ⟨?_, fun package hpackage =>
      (checkPaths_ok_iff.mp hpaths).1 package (hperm.symm.subset hpackage)⟩
    refine ((hperm.map _).nodup_iff).mp (List.pairwise_map.mpr ?_)
    exact (sorted_of_checkPaths hpaths).imp fun h => ne_of_lt h
  · rintro ⟨hnodup, hlegal⟩
    refine ⟨?_, by simp, by simp⟩
    refine (checkPaths_sorted_iff lock.sortPackages_sorted
      (((hperm.map _).nodup_iff).mpr hnodup)).mpr ?_
    exact fun package hpackage => hlegal package (hperm.subset hpackage)

end Lockfile

/-! ## The round trip -/

/-- The JSON library reads back what it printed for a lockfile, as the schema says. -/
structure SerdeJson.ReadsBack (io : SerdeJson) (lock : Lockfile) : Prop where
  lockfile : io.readLockfile (io.print (Schema.lockfile.encode lock)) =
    Schema.lockfile.decode (Schema.lockfile.encode lock)
  version : io.readVersion (io.print (Schema.lockfile.encode lock)) =
    Schema.versionProbe.decode (Schema.lockfile.encode lock)

namespace Lockfile

/-- Writing a lockfile loses nothing: the text is accepted and yields the
canonical form, it does not depend on the order of the packages, and reading and
writing it again changes nothing. -/
structure RoundTrips (io : SerdeJson) (lock : Lockfile) : Prop where
  reads : fromJson io (toJson io lock) = .ok lock.canonical
  permutes : ∀ packages : List PackageEntry, packages.Perm lock.packages →
    toJson io { lock with packages := packages } = toJson io lock
  stable : (fromJson io (toJson io lock)).map (toJson io) = .ok (toJson io lock)

/-- A lockfile of version 2, or one of version 1 with distinct package paths and
linked packages at legal paths. -/
def Rereadable (version : UInt32) (raw : Lockfile) : Prop :=
  version = bpmLockVersion ∨
    (raw.packages.map (·.path)).Nodup ∧
      ∀ package ∈ raw.packages, package.link = true → legalRelativePath package.path = true

/-- A lockfile of version 2 is read back when its canonical form is safe and valid. -/
theorem fromJson_toJson_iff {io : SerdeJson} {lock : Lockfile}
    (hversion : lock.lockfileVersion = bpmLockVersion) (hio : io.ReadsBack lock.canonical) :
    fromJson io (toJson io lock) = .ok lock.canonical ↔
      lock.canonical.validatePackageSafety = .ok () ∧ lock.canonical.validateV2 = .ok () := by
  have hread : io.readVersion (toJson io lock) = some bpmLockVersion := by
    rw [← hversion]
    exact hio.version.trans (Schema.versionProbe_lockfile lock.canonical)
  have hlock : io.readLockfile (toJson io lock) = some lock.canonical :=
    hio.lockfile.trans (Schema.lockfile.decode_encode lock.canonical)
  unfold fromJson
  rw [hread, hlock]
  simp only [show ¬ (bpmLockVersion ≠ legacyLockVersion ∧ bpmLockVersion ≠ bpmLockVersion) by simp,
    show ¬ bpmLockVersion = legacyLockVersion by decide, if_false]
  cases lock.canonical.validatePackageSafety with
  | error e => simp [bind, Except.bind]
  | ok _ =>
      cases lock.canonical.validateV2 with
      | error e => simp [bind, Except.bind]
      | ok _ => simp [bind, Except.bind, pure, Except.pure]

/-- A lockfile round trips as soon as its canonical form is valid and its paths
are distinct. -/
theorem roundTrips_of_valid {io : SerdeJson} {lock : Lockfile}
    (hversion : lock.lockfileVersion = bpmLockVersion)
    (hsafe : lock.validatePackageSafety = .ok ()) (hio : io.ReadsBack lock.canonical)
    (hvalid : lock.canonical.validateV2 = .ok ())
    (hnodup : (lock.packages.map (·.path)).Nodup) : lock.RoundTrips io := by
  have hreads : fromJson io (toJson io lock) = .ok lock.canonical :=
    (fromJson_toJson_iff hversion hio).mpr ⟨validatePackageSafety_canonical hsafe, hvalid⟩
  refine ⟨hreads, fun packages hperm => ?_, ?_⟩
  · unfold toJson
    rw [canonical_of_perm hperm hnodup]
  · rw [hreads]
    change Except.ok (toJson io lock.canonical) = _
    unfold toJson
    rw [canonical_idem]

/-- What `fromJson` does with a text that it accepts. -/
theorem fromJson_ok {io : SerdeJson} {text : Str} {version : UInt32} {raw lock : Lockfile}
    (hversion : io.readVersion text = some version) (hraw : io.readLockfile text = some raw)
    (h : fromJson io text = .ok lock) :
    raw.validatePackageSafety = .ok () ∧
      (version = legacyLockVersion ∧ lock = raw.migrated ∨
        version = bpmLockVersion ∧ raw.validateV2 = .ok () ∧ lock = raw) := by
  unfold fromJson at h
  rw [hversion, hraw] at h
  dsimp only at h
  by_cases hknown : version ≠ legacyLockVersion ∧ version ≠ bpmLockVersion
  · rw [if_pos hknown] at h
    cases h
  rw [if_neg hknown] at h
  cases hsafe : raw.validatePackageSafety with
  | error e =>
      rw [hsafe] at h
      cases h
  | ok _ =>
      rw [hsafe] at h
      refine ⟨rfl, ?_⟩
      change (if version = legacyLockVersion then _ else _) = Except.ok lock at h
      by_cases hlegacy : version = legacyLockVersion
      · rw [if_pos hlegacy] at h
        cases h
        exact Or.inl ⟨hlegacy, rfl⟩
      · rw [if_neg hlegacy] at h
        have hbpm : version = bpmLockVersion := by
          by_contra hne
          exact hknown ⟨hlegacy, hne⟩
        cases hvalid : raw.validateV2 with
        | error e =>
            rw [hvalid] at h
            cases h
        | ok _ =>
            rw [hvalid] at h
            cases h
            exact Or.inr ⟨hbpm, rfl, rfl⟩

/-- A text that is accepted round trips exactly when it is of version 2, or its
package paths are distinct and its linked packages lie at legal paths. -/
theorem fromJson_roundTrips_iff {io : SerdeJson} {text : Str} {raw lock : Lockfile}
    (hraw : io.readLockfile text = some raw)
    (hversion : io.readVersion text = some raw.lockfileVersion)
    (hlock : fromJson io text = .ok lock) (hio : io.ReadsBack lock.canonical) :
    lock.RoundTrips io ↔ Rereadable raw.lockfileVersion raw := by
  obtain ⟨hsafe, hcases⟩ := fromJson_ok hversion hraw hlock
  rcases hcases with ⟨hlegacy, rfl⟩ | ⟨hbpm, hvalid, rfl⟩
  · have hlegal : (∀ package ∈ raw.packages, legalRelativePath package.path = true) ↔
        ∀ package ∈ raw.packages, package.link = true →
          legalRelativePath package.path = true := by
      refine ⟨fun h package hpackage _ => h package hpackage, fun h package hpackage => ?_⟩
      cases hlink : package.link with
      | true => exact h package hpackage hlink
      | false =>
          exact legal_of_checkPackageSafety
            (validatePackageSafety_ok_iff.mp hsafe package hpackage) hlink
    have hsafe' : raw.migrated.validatePackageSafety = .ok () := hsafe
    have hiff : raw.migrated.canonical.validateV2 = .ok () ↔
        (raw.packages.map (·.path)).Nodup ∧
          ∀ package ∈ raw.packages, legalRelativePath package.path = true :=
      validateV2_canonical_iff rfl
    rw [show Rereadable raw.lockfileVersion raw ↔ (raw.packages.map (·.path)).Nodup ∧
        ∀ package ∈ raw.packages, legalRelativePath package.path = true by
      rw [hlegal]
      exact ⟨fun h => h.resolve_left (by rw [hlegacy]; decide), Or.inr⟩]
    constructor
    · intro htrip
      exact hiff.mp ((fromJson_toJson_iff rfl hio).mp htrip.reads).2
    · intro hpaths
      exact roundTrips_of_valid rfl hsafe' hio (hiff.mpr hpaths) hpaths.1
  · refine ⟨fun _ => Or.inl hbpm, fun _ => ?_⟩
    have hsorted := sorted_of_checkPaths (validateV2_ok_iff.mp hvalid).1
    refine roundTrips_of_valid hbpm hsafe hio (validateV2_canonical hvalid).2 ?_
    exact List.pairwise_map.mpr (hsorted.imp fun h => ne_of_lt h)

end Lockfile

/-- A JSON library that knows the given documents. -/
def SerdeJson.ofDocuments (documents : List Json) : SerdeJson where
  print := Json.pretty 0
  readLockfile text :=
    (documents.find? (Json.pretty 0 · == text)).bind Schema.lockfile.decode
  readVersion text :=
    (documents.find? (Json.pretty 0 · == text)).bind Schema.versionProbe.decode

/-- A library that knows a document reads it back. -/
theorem SerdeJson.ofDocuments_readsBack (lock : Lockfile) :
    (ofDocuments [Schema.lockfile.encode lock]).ReadsBack lock := by
  constructor <;> simp [ofDocuments]

namespace Lockfile

/-- A version 1 lockfile with the given packages. -/
def legacy (packages : List PackageEntry) : Lockfile :=
  { new (lit "bpm") with lockfileVersion := legacyLockVersion, packages := packages }

/-- A package entry without dependencies. -/
def plainEntry (path name version : Str) : PackageEntry :=
  { path := path, name := name, version := version, resolved := lit "https://r/t.tgz"
    workspaceTarget := none, integrity := some (lit "sha512-abc"), link := false, dev := false
    optional := false, os := [], cpu := [], bin := ∅, dependencies := ∅ }

/-- Two packages out of order. -/
def legacyUnsorted : Lockfile :=
  legacy [plainEntry (lit "node_modules/zoo") (lit "zoo") (lit "2.0.0"),
    plainEntry (lit "node_modules/foo") (lit "foo") (lit "1.0.0")]

/-- Two packages at one path. -/
def legacyDuplicate : Lockfile :=
  legacy [plainEntry (lit "node_modules/foo") (lit "foo") (lit "2.0.0"),
    plainEntry (lit "node_modules/foo") (lit "foo") (lit "1.0.0")]

/-- The library that knows a version 1 lockfile and the form it is written in. -/
def legacyLibrary (lock : Lockfile) : SerdeJson :=
  .ofDocuments [Schema.lockfile.encode lock, Schema.lockfile.encode lock.migrated.canonical]

theorem fromJson_roundTrips_unsorted :
    legacyUnsorted.migrated.RoundTrips (legacyLibrary legacyUnsorted) :=
  (@fromJson_roundTrips_iff (legacyLibrary legacyUnsorted)
    (Json.pretty 0 (Schema.lockfile.encode legacyUnsorted)) legacyUnsorted
    legacyUnsorted.migrated (by decide +kernel) (by decide +kernel) (by decide +kernel)
    ⟨by decide +kernel, by decide +kernel⟩).mpr
    (Or.inr ⟨by decide, by decide⟩)

/-- A version 1 lockfile with two packages at one path is accepted, and what is
written for it is refused. -/
theorem fromJson_not_roundTrips :
    ¬ ∀ (io : SerdeJson) (text : Str) (raw lock : Lockfile),
      io.readLockfile text = some raw → io.readVersion text = some raw.lockfileVersion →
      fromJson io text = .ok lock → io.ReadsBack lock.canonical → lock.RoundTrips io := by
  intro hall
  have htrip := hall (legacyLibrary legacyDuplicate)
    (Json.pretty 0 (Schema.lockfile.encode legacyDuplicate)) legacyDuplicate
    legacyDuplicate.migrated (by decide +kernel) (by decide +kernel) (by decide +kernel)
    ⟨by decide +kernel, by decide +kernel⟩
  have hbad : fromJson (legacyLibrary legacyDuplicate)
      (toJson (legacyLibrary legacyDuplicate) legacyDuplicate.migrated) =
        .error (.invalid (.outOfOrder (lit "node_modules/foo"))) := by
    decide +kernel
  have hreads := htrip.reads
  rw [hbad] at hreads
  cases hreads

end Lockfile
end Bpm
