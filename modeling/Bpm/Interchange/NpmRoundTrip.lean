import Bpm.Interchange.NpmLock

/-!
# Exporting to npm and back

The exporter writes fewer fields than the importer reads, so that what comes back
is known entry by entry.  A placement keeps its path, version, integrity, flags,
platform lists, executables and dependencies; the target of a link comes back as
its target and as its URL; a URL comes back unless the importer has a better one.
What only the resolver knows is not in npm's table and does not come back.
-/

namespace Bpm

open Text Serde

namespace NpmLock

/-! ## The table as it is read -/

/-- An optional flag that is left out when it is not set. -/
def setFlag (value : Bool) : Option Bool := if value then some true else none

theorem setFlag_getD (value : Bool) : (setFlag value).getD false = value := by
  cases value <;> rfl

/-- A written package as the importer sees it. -/
def NpmV3Package.toRaw (p : NpmV3Package) : RawPkg :=
  { name := p.name, version := p.version, resolved := p.resolved, integrity := p.integrity
    link := setFlag p.link, dev := setFlag p.dev, optional := setFlag p.optional
    inBundle := none, bin := p.bin.getD .null, dependencies := p.dependencies
    devDependencies := p.devDependencies, optionalDependencies := p.optionalDependencies
    peerDependencies := p.peerDependencies, os := p.os, cpu := p.cpu }

theorem encode_setFlag (name : Str) (value : Bool) :
    (optionFlag name).encode (setFlag value) = (Schema.flagField name).encode value := by
  cases value <;> rfl

theorem encode_value (name : Str) {value : Option Json} (h : ∀ v ∈ value, isNull v = false) :
    (Fields.defaulted name anyValue .null isNull fun _ => eq_null_of_isNull).encode
      (value.getD .null) = valueField name value := by
  cases value with
  | none => rfl
  | some v =>
      have hnull : isNull v = false := h v rfl
      simp [Fields.defaulted, valueField, anyValue, hnull]

/-- The writer's form of a package is the reader's. -/
theorem toJson_eq {p : NpmV3Package} (h : ∀ v ∈ p.bin, isNull v = false) :
    p.toJson = rawPkg.encode p.toRaw := by
  have hbin := encode_value (lit "bin") h
  unfold NpmV3Package.toJson
  rw [← encode_setFlag, ← encode_setFlag, ← encode_setFlag, ← hbin]
  rfl

/-- The writer's form of a lockfile as the importer reads it. -/
theorem decode_toJson {lock : NpmV3Lock}
    (h : ∀ entry ∈ lock.packages.toList, ∀ v ∈ entry.2.bin, isNull v = false) :
    rawLock.decode lock.toJson =
      some ⟨lock.name, some lock.lockfileVersion, lock.packages.map fun _ p => p.toRaw⟩ := by
  have hpackages : lock.packages.toList.map (fun entry => (entry.1, entry.2.toJson)) =
      (lock.packages.map fun _ p => p.toRaw).toList.map
        (fun entry => (entry.1, rawPkg.encode entry.2)) := by
    rw [Std.ExtTreeMap.toList_map, List.map_map]
    refine List.map_congr_left fun entry hentry => ?_
    simp [toJson_eq (h entry hentry)]
  unfold NpmV3Lock.toJson rawLock
  rw [hpackages, Codec.record_decode]
  · rw [Fields.prod_decode (a := lock.name)
      (b := (some lock.lockfileVersion, lock.packages.map fun _ p => p.toRaw))]
    · rfl
    · exact Fields.defaulted_decode rfl
    · exact Fields.prod_decode (Fields.defaulted_decode rfl) (Fields.defaulted_decode rfl)
  · rfl

/-! ## The table that is written -/

/-- The table lists the root and then the placements in path order. -/
theorem exportedPackages_toList {lockfile : Lockfile} {manifest : PackageManifest}
    (hone : (lockfile.packages.map (·.path)).Nodup)
    (hpath : ∀ e ∈ lockfile.packages, e.path ≠ []) :
    (exportedPackages lockfile manifest).toList =
      ([], rootPackage manifest) ::
        lockfile.sortPackages.packages.map fun e => (e.path, placedPackage e) := by
  have hperm : lockfile.sortPackages.packages.Perm lockfile.packages :=
    List.perm_insertionSort _ _
  have hlist : exportedPackages lockfile manifest = Std.ExtTreeMap.ofList
      (([], rootPackage manifest) ::
        lockfile.packages.map fun e => (e.path, placedPackage e)) compare := by
    rw [Std.ExtTreeMap.ofList_eq_foldl, List.foldl_cons, List.foldl_map]
    refine List.foldl_ext _ _ _ fun packages e he => ?_
    simp [hpath e he]
  rw [hlist]
  refine Map.toList_ofList ((hperm.map _).cons _) ?_
  rw [List.pairwise_cons, List.pairwise_map]
  constructor
  · intro entry hentry
    obtain ⟨e, he, rfl⟩ := List.mem_map.mp hentry
    obtain ⟨c, cs, hcs⟩ := List.exists_cons_of_ne_nil (hpath e (hperm.mem_iff.mp he))
    change [] < e.path
    rw [hcs]
    exact List.nil_lt_cons c cs
  · -- Sorted paths that are all different ascend strictly.
    have hne : lockfile.sortPackages.packages.Pairwise fun a b => a.path ≠ b.path :=
      List.pairwise_map.mp ((hperm.map _).nodup_iff.mpr hone)
    refine ((Lockfile.sortPackages_sorted lockfile).and hne).imp ?_
    rintro a b ⟨hle, hne⟩
    exact lt_of_le_of_ne hle hne

/-- No executables are written as `null`. -/
theorem binValue_isNull (bin : Map Str) : ∀ v ∈ binValue bin, isNull v = false := by
  intro v hv
  unfold binValue at hv
  split at hv
  · cases hv
  · cases hv
    rfl

/-! ## One entry -/

theorem binEntries_texts (path : Str) (l : List (Str × Str)) (bin : Map Str) :
    binEntries path (l.map fun entry => (entry.1, .str entry.2)) bin =
      .ok (l.foldl (fun acc entry => acc.insert entry.1 entry.2) bin) := by
  induction l generalizing bin with
  | nil => rfl
  | cons entry l ih => exact ih (bin.insert entry.1 entry.2)

/-- Executables come back. -/
theorem parseBin_binValue (path name : Str) (bin : Map Str) :
    parseBin path name ((binValue bin).getD .null) = .ok bin := by
  unfold binValue
  by_cases hempty : bin.isEmpty = true
  · rw [if_pos hempty, Std.ExtTreeMap.isEmpty_iff.mp hempty]
    rfl
  · rw [if_neg hempty]
    have hmap : (Std.ExtTreeMap.ofList (bin.toList.map fun entry => (entry.1, Json.str entry.2))
        compare) = bin.map fun _ target => Json.str target := by
      have hback := Map.ofList_toList (bin.map fun _ target => Json.str target)
      rwa [Std.ExtTreeMap.toList_map] at hback
    change binEntries path (Std.ExtTreeMap.ofList _ compare).toList ∅ = _
    rw [hmap, Std.ExtTreeMap.toList_map, binEntries_texts]
    have hback := Map.ofList_toList bin
    rw [Std.ExtTreeMap.ofList_eq_foldl] at hback
    exact congrArg Except.ok hback

theorem checkBins_of_safe {e : PackageEntry} {l : List (Str × Str)}
    (h : checkAll (checkBin e) l = .ok ()) : checkBins e.path l = .ok () := by
  rw [checkAll_ok_iff] at h
  induction l with
  | nil => rfl
  | cons bin l ih =>
      have hbin := h bin List.mem_cons_self
      unfold checkBin at hbin
      unfold checkBins
      cases hname : validateBinName bin.1 with
      | error error => simp [hname] at hbin
      | ok name =>
          cases htarget : validateBinTarget bin.2 with
          | error error => simp [hname, htarget] at hbin
          | ok target => exact ih fun bin hin => h bin (List.mem_cons_of_mem _ hin)

/-- What the safety check of a lockfile promises for one entry. -/
theorem safe_of_checkPackageSafety {e : PackageEntry} (h : checkPackageSafety e = .ok ()) :
    checkPath e.path e.link = .ok () ∧ checkBins e.path e.bin.toList = .ok () := by
  unfold checkPackageSafety at h
  unfold checkPath
  cases hlink : e.link with
  | true =>
      rw [hlink] at h
      exact ⟨rfl, checkBins_of_safe h⟩
  | false =>
      rw [hlink] at h
      cases hpath : validatePackagePath e.path with
      | error error => simp [hpath] at h
      | ok path =>
          simp only [hpath, Bool.false_eq_true, if_false] at h
          exact ⟨rfl, checkBins_of_safe h⟩

theorem contains_of_hasModulesSegment {parts : List Str} (h : hasModulesSegment parts = true) :
    lit "node_modules" ∈ parts := by
  induction parts with
  | nil => cases h
  | cons first rest ih =>
      cases rest with
      | nil => cases h
      | cons second rest =>
          simp only [hasModulesSegment, Bool.or_eq_true, Bool.and_eq_true, beq_iff_eq] at h
          rcases h with ⟨hfirst, -⟩ | h
          · rw [hfirst]
            exact List.mem_cons_self
          · exact List.mem_cons_of_mem _ (ih h)

/-- A safe path has a `node_modules` segment. -/
theorem modules_of_checkPath {path : Str} (h : checkPath path false = .ok ()) :
    lit "node_modules" ∈ path.splitOn '/' := by
  unfold checkPath at h
  cases hpath : validatePackagePath path with
  | error error => simp [hpath] at h
  | ok path' =>
      unfold validatePackagePath at hpath
      split at hpath
      · cases hpath
      · split at hpath
        · cases hpath
        · split at hpath
          · cases hpath
          · rename_i hmodules
            exact contains_of_hasModulesSegment (by simpa using hmodules)

/-- The Git source, commit and archive of a placement whose URL is pinned to a commit
of a known host. -/
def importedGit (e : PackageEntry) : Option (Str × Str × Str) :=
  if e.link then none else hostedGitFromNpmResolved e.resolved

/-- The URL that a placement comes back with. -/
def importedUrl (e : PackageEntry) : Str :=
  archiveOr (importedGit e)
    (if e.link then e.workspaceTarget.getD []
    else registryResolved (packageNameFromPath e.path) e.version (placedPackage e).toRaw)

/-- A placement as it comes back. -/
def importedEntry (e : PackageEntry) : PackageEntry :=
  { e with
    name := packageNameFromPath e.path
    resolved := importedUrl e
    workspaceTarget := if e.link then e.workspaceTarget else none }

/-- A link that is written has a target. -/
theorem target_of_supported {lockfile : Lockfile} {e : PackageEntry}
    (h : unsupportedReason lockfile e = none) (hlink : e.link = true) :
    e.workspaceTarget.filter (!·.isEmpty) = e.workspaceTarget := by
  unfold unsupportedReason at h
  rw [if_pos hlink] at h
  cases htarget : e.workspaceTarget with
  | none => rfl
  | some target =>
      cases target with
      | nil => simp [htarget] at h
      | cons c cs => rfl

/-- A package that is written and not linked has a URL and an integrity. -/
theorem locked_of_supported {lockfile : Lockfile} {e : PackageEntry}
    (h : unsupportedReason lockfile e = none) (hlink : e.link = false) :
    e.resolved ≠ [] ∧ e.integrity.isSome = true := by
  unfold unsupportedReason at h
  rw [hlink] at h
  simp only [Bool.false_eq_true, if_false] at h
  split at h
  · cases h
  · rename_i hresolved
    split at h
    · cases h
    · rename_i hintegrity
      refine ⟨by simpa using hresolved, ?_⟩
      cases hsome : e.integrity with
      | none => simp [hsome] at hintegrity
      | some integrity => rfl

/-- Reading a written placement adds exactly what comes back for it. -/
theorem importEntry_placed {lockfile : Lockfile} {e : PackageEntry} (state : ImportState)
    (hpath : e.path ≠ []) (hsafe : checkPackageSafety e = .ok ())
    (hsupported : unsupportedReason lockfile e = none) :
    ∃ notes, importEntry state e.path (placedPackage e).toRaw =
      .ok (((state.note notes).recordGit e.path (importedGit e)).push (importedEntry e)) := by
  obtain ⟨hcheck, hbins⟩ := safe_of_checkPackageSafety hsafe
  have hbin := parseBin_binValue e.path (packageNameFromPath e.path) e.bin
  have hmissing : insertMissing e.dependencies ∅ = e.dependencies := rfl
  cases hlink : e.link with
  | true =>
      have htarget := target_of_supported hsupported hlink
      rw [hlink] at hcheck
      refine ⟨entryDiagnostics e.path (packageNameFromPath e.path) true e.workspaceTarget
        (e.workspaceTarget.getD []) (placedPackage e).toRaw, ?_⟩
      simp [importEntry, NpmV3Package.toRaw, placedPackage, setFlag_getD, hlink, hbin, hcheck,
        hbins, canonicalName, ImportState.recordName, importedGit, importedEntry, importedUrl,
        hmissing, htarget, hpath, bind, Except.bind, pure, Except.pure]
  | false =>
      have hmodules := modules_of_checkPath (hlink ▸ hcheck)
      rw [hlink] at hcheck
      refine ⟨entryDiagnostics e.path (packageNameFromPath e.path) false none
        (registryResolved (packageNameFromPath e.path) e.version (placedPackage e).toRaw)
        (placedPackage e).toRaw, ?_⟩
      simp [importEntry, NpmV3Package.toRaw, placedPackage, setFlag_getD, hlink, hbin, hcheck,
        hbins, canonicalName, ImportState.recordName, importedGit, importedEntry, importedUrl,
        hmissing, hpath, hmodules, bind, Except.bind, pure, Except.pure]

/-! ## The whole table -/

/-- What reading some placements does to the lockfile that is being built. -/
structure Brought (entries : List PackageEntry) (before after : Lockfile) : Prop where
  packages : after.packages = before.packages ++ entries.map importedEntry
  root : after.root = before.root
  rootResolution : after.resolution.root = before.resolution.root
  registryNames : after.resolution.registryNames = before.resolution.registryNames
  libc : (∀ (path : Str) (r : PackageResolution),
      before.resolution.packages[path]? = some r → r.libc = []) →
    ∀ (path : Str) (r : PackageResolution),
      after.resolution.packages[path]? = some r → r.libc = []

theorem brought_nil (lockfile : Lockfile) : Brought [] lockfile lockfile :=
  ⟨by simp, rfl, rfl, rfl, fun h => h⟩

/-- One placement, then the others. -/
theorem Brought.cons {e : PackageEntry} {entries : List PackageEntry} {state : ImportState}
    {notes : List Diagnostic} {after : Lockfile}
    (h : Brought entries
      (((state.note notes).recordGit e.path (importedGit e)).push (importedEntry e)).lockfile
      after) :
    Brought (e :: entries) state.lockfile after := by
  cases hgit : importedGit e with
  | none =>
      rw [hgit] at h
      refine ⟨?_, h.root, h.rootResolution, h.registryNames, h.libc⟩
      rw [h.packages]
      simp [ImportState.push, ImportState.recordGit, ImportState.note]
  | some git =>
      rw [hgit] at h
      refine ⟨?_, h.root, h.rootResolution, h.registryNames, fun hlibc => h.libc ?_⟩
      · rw [h.packages]
        simp [ImportState.push, ImportState.recordGit, ImportState.note]
      · -- The new record is that of a Git package, which has no `libc` list.
        intro path r hget
        change (state.lockfile.resolution.packages.insert e.path (gitResolution _ _))[path]? =
          some r at hget
        rw [Map.get_insert] at hget
        split at hget
        · cases hget
          rfl
        · exact hlibc path r hget

/-- Reading written placements succeeds and brings all of them back. -/
theorem importEntries_placed {lockfile : Lockfile} {entries : List PackageEntry}
    (state : ImportState) (hpath : ∀ e ∈ entries, e.path ≠ [])
    (hsafe : ∀ e ∈ entries, checkPackageSafety e = .ok ())
    (hsupported : ∀ e ∈ entries, unsupportedReason lockfile e = none) :
    ∃ state', importEntries (entries.map fun e => (e.path, (placedPackage e).toRaw)) state =
      .ok state' ∧ Brought entries state.lockfile state'.lockfile := by
  induction entries generalizing state with
  | nil => exact ⟨state, rfl, brought_nil _⟩
  | cons e entries ih =>
      obtain ⟨notes, hentry⟩ := importEntry_placed state (hpath e List.mem_cons_self)
        (hsafe e List.mem_cons_self) (hsupported e List.mem_cons_self)
      obtain ⟨state', hrest, hbrought⟩ := ih
        (((state.note notes).recordGit e.path (importedGit e)).push (importedEntry e))
        (fun e he => hpath e (List.mem_cons_of_mem _ he))
        (fun e he => hsafe e (List.mem_cons_of_mem _ he))
        (fun e he => hsupported e (List.mem_cons_of_mem _ he))
      refine ⟨state', ?_, hbrought.cons⟩
      rw [List.map_cons, importEntries, hentry]
      exact hrest

/-- A package that is linked or locked needs no integrity. -/
def Settled (p : PackageEntry) : Prop := p.link = true ∨ p.integrity.isSome = true

theorem fillIntegrity_settled {packages : List PackageEntry} (h : ∀ p ∈ packages, Settled p) :
    fillIntegrity packages = packages := by
  unfold fillIntegrity
  refine (List.map_congr_left fun p hp => ?_).trans (List.map_id packages)
  rcases h p hp with hlink | hlocked
  · simp [hlink]
  · simp [Option.isSome_iff_ne_none.mp hlocked]

theorem fetchIntegrities_settled {network : Network} {packages : List PackageEntry} (index : Nat)
    (h : ∀ p ∈ packages, Settled p) : fetchIntegrities network index packages = (packages, []) := by
  induction packages generalizing index with
  | nil => rfl
  | cons p packages ih =>
      have hneeds : needsFetch p = false := by
        rcases h p List.mem_cons_self with hlink | hlocked
        · simp [needsFetch, hlink]
        · simp [needsFetch, Option.isSome_iff_ne_none.mp hlocked]
      rw [fetchIntegrities, ih (index + 1) fun p hp => h p (List.mem_cons_of_mem _ hp)]
      simp [hneeds]

theorem importedEntry_settled {lockfile : Lockfile} {e : PackageEntry}
    (h : unsupportedReason lockfile e = none) : Settled (importedEntry e) := by
  cases hlink : e.link with
  | true => exact Or.inl hlink
  | false => exact Or.inr (locked_of_supported h hlink).2

/-- Export succeeds only when every package has a place in the table. -/
theorem supported_of_exportV3 {lockfile : Lockfile} {manifest : PackageManifest} {text : Str}
    (h : exportV3 lockfile manifest = .ok text) {e : PackageEntry} (he : e ∈ lockfile.packages)
    (hpath : e.path ≠ []) : unsupportedReason lockfile e = none := by
  unfold exportV3 at h
  dsimp only at h
  split at h
  · rename_i hnone
    have hempty : unsupportedPackages lockfile = [] := List.isEmpty_iff.mp hnone
    cases hreason : unsupportedReason lockfile e with
    | none => rfl
    | some reason =>
        have hin : (⟨e.path, reason⟩ : UnsupportedPackage) ∈ unsupportedPackages lockfile := by
          refine (List.mem_insertionSort _).mpr (List.mem_filterMap.mpr ⟨e, ?_, ?_⟩)
          · exact List.mem_filter.mpr ⟨he, by simpa using hpath⟩
          · rw [hreason]
            rfl
        rw [hempty] at hin
        cases hin
  · cases h

/-- The root declarations that come back. -/
def importedDeclarations (manifest : PackageManifest) : Map Str :=
  rootDependencies (rootPackage manifest).toRaw

/-- The lockfiles that the exporter and the importer can carry: one package to a
path, and nothing that is refused as unsafe. -/
structure Portable (lockfile : Lockfile) : Prop where
  distinct : (lockfile.packages.map (·.path)).Nodup
  placed : ∀ e ∈ lockfile.packages, e.path ≠ []
  safe : lockfile.validatePackageSafety = .ok ()

/-- The table as the importer sees it. -/
def rawPackages (lockfile : Lockfile) (manifest : PackageManifest) : Map RawPkg :=
  (exportedPackages lockfile manifest).map fun _ p => p.toRaw

theorem rawPackages_toList {lockfile : Lockfile} {manifest : PackageManifest}
    (h : Portable lockfile) :
    (rawPackages lockfile manifest).toList = ([], (rootPackage manifest).toRaw) ::
      lockfile.sortPackages.packages.map fun e => (e.path, (placedPackage e).toRaw) := by
  rw [rawPackages, Std.ExtTreeMap.toList_map, exportedPackages_toList h.distinct h.placed,
    List.map_cons, List.map_map]
  rfl

theorem decode_exportedLock {lockfile : Lockfile} {manifest : PackageManifest}
    (h : Portable lockfile) : rawLock.decode (exportedLock lockfile manifest).toJson =
      some ⟨manifest.name, some 3, rawPackages lockfile manifest⟩ := by
  refine decode_toJson ?_
  intro entry hentry
  rw [exportedLock, exportedPackages_toList h.distinct h.placed] at hentry
  rcases List.mem_cons.mp hentry with rfl | hin
  · intro v hv
    cases hv
  · obtain ⟨e, -, rfl⟩ := List.mem_map.mp hin
    exact binValue_isNull e.bin

/-- The lockfile before any placement is read. -/
def rootOnly (manifest : PackageManifest) : Lockfile :=
  { Lockfile.new (lit "bpm") with
    root := ⟨manifest.name, manifest.version, importedDeclarations manifest⟩ }

theorem importRoot_exported {lockfile : Lockfile} {manifest : PackageManifest}
    (h : Portable lockfile) :
    importRoot ⟨manifest.name, some 3, rawPackages lockfile manifest⟩ = rootOnly manifest := by
  have hroot : (rawPackages lockfile manifest)[([] : Str)]? = some (rootPackage manifest).toRaw := by
    rw [← Map.mem_toList, rawPackages_toList h]
    exact List.mem_cons_self
  unfold importRoot
  rw [hroot]
  rfl

/-- The last passes change nothing when every package is locked and in its place. -/
theorem finishImport_settled {network : Network} {state : ImportState}
    (hsettled : ∀ p ∈ state.lockfile.packages, Settled p)
    (hsorted : state.lockfile.packages.Pairwise Lockfile.pathLe) :
    (finishImport network state).lockfile = state.lockfile := by
  unfold finishImport
  rw [fillIntegrity_settled hsettled, fetchIntegrities_settled 0 hsettled]
  have hpackages : state.lockfile.packages.insertionSort (fun a b => a.path ≤ b.path) =
      state.lockfile.packages := List.Pairwise.insertionSort_eq hsorted
  exact congrArg (fun packages => { state.lockfile with packages := packages }) hpackages

/-- What comes back from the text of a version 3 table. -/
theorem importLock_brought {reader : JsonReader} {network : Network} {lockfile : Lockfile}
    {manifest : PackageManifest} {text : Str} (hportable : Portable lockfile)
    (hexport : exportV3 lockfile manifest = .ok text)
    (hreader : reader text = some (exportedLock lockfile manifest).toJson) :
    ∃ report, importLock reader network text = .ok report ∧
      Brought lockfile.sortPackages.packages (rootOnly manifest) report.lockfile := by
  have hperm : lockfile.sortPackages.packages.Perm lockfile.packages :=
    List.perm_insertionSort _ _
  have hplaced : ∀ e ∈ lockfile.sortPackages.packages, e.path ≠ [] := fun e he =>
    hportable.placed e (hperm.mem_iff.mp he)
  have hsafe : ∀ e ∈ lockfile.sortPackages.packages, checkPackageSafety e = .ok () := fun e he =>
    validatePackageSafety_ok_iff.mp hportable.safe e (hperm.mem_iff.mp he)
  have hsupported : ∀ e ∈ lockfile.sortPackages.packages, unsupportedReason lockfile e = none :=
    fun e he => supported_of_exportV3 hexport (hperm.mem_iff.mp he) (hplaced e he)
  obtain ⟨state, hstate, hbrought⟩ :=
    importEntries_placed ⟨[], rootOnly manifest⟩ hplaced hsafe hsupported
  have hpackages : state.lockfile.packages = lockfile.sortPackages.packages.map importedEntry :=
    hbrought.packages
  have hfinish : (finishImport network state).lockfile = state.lockfile := by
    refine finishImport_settled ?_ ?_
    · rw [hpackages]
      intro p hp
      obtain ⟨e, he, rfl⟩ := List.mem_map.mp hp
      exact importedEntry_settled (hsupported e he)
    · rw [hpackages, List.pairwise_map]
      exact lockfile.sortPackages_sorted
  refine ⟨finishImport network state, ?_, hfinish ▸ hbrought⟩
  have hnonempty : (rawPackages lockfile manifest).isEmpty = false := by
    rw [← Bool.not_eq_true, Std.ExtTreeMap.isEmpty_iff, ← Std.ExtTreeMap.toList_eq_nil_iff,
      rawPackages_toList hportable]
    exact List.cons_ne_nil _ _
  -- The root entry is passed over, the placements follow in path order.
  have hentries : importEntries (rawPackages lockfile manifest).toList ⟨[], rootOnly manifest⟩ =
      .ok state := by
    rw [rawPackages_toList hportable]
    exact hstate
  unfold importLock
  rw [hreader, Option.bind_some, decode_exportedLock hportable]
  dsimp only
  unfold importRaw
  rw [importRoot_exported hportable]
  simp only [hnonempty, hentries, Bool.false_eq_true, if_false]
  rfl

/-! ## What is kept -/

/-- A URL that the importer takes as it is. -/
def PlainUrl (url : Str) : Prop :=
  insideTarball url = false ∧ hostedGitFromNpmResolved url = none

/-- A placement and what comes back for it. -/
structure Preserved (before after : Lockfile) (e e' : PackageEntry) : Prop where
  path : e'.path = e.path
  version : e'.version = e.version
  integrity : e'.integrity = e.integrity
  link : e'.link = e.link
  dev : e'.dev = e.dev
  optional : e'.optional = e.optional
  os : e'.os = e.os
  cpu : e'.cpu = e.cpu
  bin : e'.bin = e.bin
  dependencies : e'.dependencies = e.dependencies
  linked : e.link = true →
    e'.workspaceTarget = e.workspaceTarget ∧ some e'.resolved = e.workspaceTarget
  unlinked : e.link = false → e'.workspaceTarget = none ∧
    (PlainUrl e.resolved → e'.resolved = e.resolved)
  registryName : before.registryNameFor e = packageNameFromPath e.path →
    after.registryNameFor e' = before.registryNameFor e

theorem importedUrl_linked {lockfile : Lockfile} {e : PackageEntry}
    (h : unsupportedReason lockfile e = none) (hlink : e.link = true) :
    some (importedUrl e) = e.workspaceTarget := by
  unfold unsupportedReason at h
  rw [if_pos hlink] at h
  have hurl : importedUrl e = e.workspaceTarget.getD [] := by
    simp [importedUrl, importedGit, hlink, archiveOr]
  cases htarget : e.workspaceTarget with
  | none => simp [htarget] at h
  | some target => rw [hurl, htarget, Option.getD_some]

theorem importedUrl_plain {lockfile : Lockfile} {e : PackageEntry}
    (h : unsupportedReason lockfile e = none) (hlink : e.link = false)
    (hplain : PlainUrl e.resolved) : importedUrl e = e.resolved := by
  obtain ⟨hinside, hgit⟩ := hplain
  have hresolved : e.resolved ≠ [] := (locked_of_supported h hlink).1
  simp [importedUrl, importedGit, archiveOr, registryResolved, NpmV3Package.toRaw, placedPackage,
    hlink, hgit, hinside, hresolved]

theorem preserved_importedEntry {lockfile after : Lockfile} {e : PackageEntry}
    (h : unsupportedReason lockfile e = none) (hnames : after.resolution.registryNames = ∅) :
    Preserved lockfile after e (importedEntry e) where
  path := rfl
  version := rfl
  integrity := rfl
  link := rfl
  dev := rfl
  optional := rfl
  os := rfl
  cpu := rfl
  bin := rfl
  dependencies := rfl
  linked hlink := ⟨if_pos hlink, importedUrl_linked h hlink⟩
  unlinked hlink := by
    refine ⟨?_, importedUrl_plain h hlink⟩
    simp [importedEntry, hlink]
  registryName hname := by
    rw [hname]
    simp [Lockfile.registryNameFor, hnames, importedEntry]

/-- A lockfile that records nothing beyond what the table of npm can hold, as far as
a graph's identity depends on it. -/
structure Carried (lockfile : Lockfile) (manifest : PackageManifest) : Prop where
  sorted : lockfile.packages.Pairwise Lockfile.pathLe
  root : lockfile.root.dependencies = importedDeclarations manifest
  overrides : lockfile.resolution.root.overrides = ∅
  target : lockfile.resolution.root.target = none
  registryNames : lockfile.resolution.registryNames = ∅
  libc : ∀ (path : Str) (r : PackageResolution),
    lockfile.resolution.packages[path]? = some r → r.libc = []
  name : ∀ e ∈ lockfile.packages, e.name = packageNameFromPath e.path
  linked : ∀ e ∈ lockfile.packages, e.link = true → some e.resolved = e.workspaceTarget
  unlinked : ∀ e ∈ lockfile.packages, e.link = false → PlainUrl e.resolved

/-- A resolver's record without a `libc` list leaves no trace in the encoding. -/
theorem writePackage_libc {resolution : Option PackageResolution} {p : PackageEntry}
    (h : ∀ r ∈ resolution, r.libc = []) :
    Graph.writePackage resolution p = Graph.writePackage none p := by
  cases resolution with
  | none => rfl
  | some r =>
      have hlibc : r.libc = [] := h r rfl
      simp [Graph.writePackage, hlibc, Bytes.counted]

/-- A placement that is carried is encoded as before. -/
theorem writePackage_importedEntry {lockfile : Lockfile} {manifest : PackageManifest}
    {e : PackageEntry} (h : Carried lockfile manifest) (he : e ∈ lockfile.packages)
    (hsupported : unsupportedReason lockfile e = none) :
    Graph.writePackage none (importedEntry e) = Graph.writePackage none e := by
  have hurl : importedUrl e = e.resolved := by
    cases hlink : e.link with
    | true =>
        have htarget := h.linked e he hlink
        rw [← importedUrl_linked hsupported hlink] at htarget
        exact (Option.some.inj htarget).symm
    | false => exact importedUrl_plain hsupported hlink (h.unlinked e he hlink)
  have hname := h.name e he
  simp only [Graph.writePackage, importedEntry, hurl, ← hname]

theorem canonicalGraphBytes_brought {lockfile after : Lockfile} {manifest : PackageManifest}
    (platform : Str) (hcarried : Carried lockfile manifest)
    (hsupported : ∀ e ∈ lockfile.packages, unsupportedReason lockfile e = none)
    (h : Brought lockfile.sortPackages.packages (rootOnly manifest) after) :
    Graph.canonicalGraphBytes platform after = Graph.canonicalGraphBytes platform lockfile := by
  have hsorted : lockfile.sortPackages.packages = lockfile.packages :=
    List.Pairwise.insertionSort_eq hcarried.sorted
  have hpackages : after.packages = lockfile.packages.map importedEntry := by
    rw [h.packages, hsorted]
    rfl
  have hafter : ∀ p ∈ after.packages,
      Graph.writePackage after.resolution.packages[p.path]? p = Graph.writePackage none p :=
    fun p _ => writePackage_libc fun r hr =>
      h.libc (fun path r hget => by simp [rootOnly, Lockfile.new, ResolutionMetadata.default] at hget)
        p.path r hr
  have hbefore : ∀ p ∈ lockfile.packages,
      Graph.writePackage lockfile.resolution.packages[p.path]? p = Graph.writePackage none p :=
    fun p _ => writePackage_libc fun r hr => hcarried.libc p.path r hr
  have hwritten : Bytes.counted
        (fun p : PackageEntry => Graph.writePackage after.resolution.packages[p.path]? p)
          after.packages =
      Bytes.counted
        (fun p => Graph.writePackage lockfile.resolution.packages[p.path]? p)
          lockfile.packages := by
    have hentries : lockfile.packages.flatMap
          (fun e => Graph.writePackage none (importedEntry e)) =
        lockfile.packages.flatMap fun e => Graph.writePackage none e :=
      List.flatMap_congr fun e he => writePackage_importedEntry hcarried he (hsupported e he)
    unfold Bytes.counted
    rw [List.flatMap_congr hafter, List.flatMap_congr hbefore, hpackages, List.length_map,
      List.flatMap_map, hentries]
  unfold Graph.canonicalGraphBytes
  rw [hwritten, h.root, h.rootResolution, h.registryNames, hcarried.root, hcarried.overrides,
    hcarried.target, hcarried.registryNames]
  rfl

/-- Every placement of an exported lockfile comes back; so does the graph's identity
when the lockfile records nothing that npm's table has no place for. -/
theorem importLock_exportV3 {reader : JsonReader} {network : Network} {lockfile : Lockfile}
    {manifest : PackageManifest} {text : Str} (hportable : Portable lockfile)
    (hexport : exportV3 lockfile manifest = .ok text)
    (hreader : reader text = some (exportedLock lockfile manifest).toJson) :
    ∃ report, importLock reader network text = .ok report ∧
      List.Forall₂ (Preserved lockfile report.lockfile) lockfile.sortPackages.packages
        report.lockfile.packages ∧
      (Carried lockfile manifest → ∀ {δ : Type} (blake3 : Bytes → δ) (platform : Str),
        Graph.graphId blake3 platform report.lockfile =
          Graph.graphId blake3 platform lockfile) := by
  have hperm : lockfile.sortPackages.packages.Perm lockfile.packages :=
    List.perm_insertionSort _ _
  have hsupported : ∀ e ∈ lockfile.packages, unsupportedReason lockfile e = none := fun e he =>
    supported_of_exportV3 hexport he (hportable.placed e he)
  obtain ⟨report, himport, hbrought⟩ := importLock_brought hportable hexport hreader
  refine ⟨report, himport, ?_, fun hcarried δ blake3 platform => ?_⟩
  · have hpackages : report.lockfile.packages =
        lockfile.sortPackages.packages.map importedEntry := hbrought.packages
    rw [hpackages, List.forall₂_map_right_iff, List.forall₂_same]
    intro e he
    exact preserved_importedEntry (hsupported e (hperm.mem_iff.mp he)) hbrought.registryNames
  · exact congrArg blake3 (canonicalGraphBytes_brought platform hcarried hsupported hbrought)

/-- A reader that knows one document. -/
def readerOf (document : Json) : JsonReader := fun text =>
  if text = Json.pretty 0 document ++ ['\n'] then some document else none

/-- A network that serves nothing. -/
def offline : Network := ⟨fun _ _ => none, fun _ => []⟩

def emptyManifest : PackageManifest :=
  { sourceDir := none, name := some (lit "app"), version := none, bin := none, scripts := ∅
    dependencies := ∅, devDependencies := ∅, peerDependencies := ∅, optionalDependencies := ∅
    peerDependenciesMeta := ∅, overrides := ∅, os := [], cpu := [], libc := [] }

/-- A workspace link as the resolver writes it, with a target and no URL. -/
def workspaceLink : PackageEntry :=
  { path := lit "node_modules/tool", name := lit "tool", version := lit "1.0.0", resolved := []
    workspaceTarget := some (lit "packages/tool"), integrity := some [], link := true, dev := false
    optional := false, os := [], cpu := [], bin := ∅, dependencies := ∅ }

def linkedLock : Lockfile := { Lockfile.new (lit "bpm") with packages := [workspaceLink] }

/-- A registry package beside a link. -/
def portableLock : Lockfile :=
  { Lockfile.new (lit "bpm") with
    packages :=
      [workspaceLink, Lockfile.plainEntry (lit "node_modules/foo") (lit "foo") (lit "1.0.0")] }

theorem importLock_exportV3_portable :
    ∃ report, importLock (readerOf (exportedLock portableLock emptyManifest).toJson) offline
        (Json.pretty 0 (exportedLock portableLock emptyManifest).toJson ++ ['\n']) = .ok report ∧
      List.Forall₂ (Preserved portableLock report.lockfile) portableLock.sortPackages.packages
        report.lockfile.packages ∧
      (Carried portableLock emptyManifest → ∀ {δ : Type} (blake3 : Bytes → δ) (platform : Str),
        Graph.graphId blake3 platform report.lockfile =
          Graph.graphId blake3 platform portableLock) :=
  importLock_exportV3 ⟨by decide, by decide, by decide⟩ rfl
    (if_pos rfl)

/-- A link without a URL comes back with its target for a URL. -/
theorem importLock_exportV3_link :
    ¬ ∀ (reader : JsonReader) (network : Network) (lockfile : Lockfile)
      (manifest : PackageManifest) (text : Str),
      lockfile.validatePackageSafety = .ok () → lockfile.validateV2 = .ok () →
      exportV3 lockfile manifest = .ok text →
      reader text = some (exportedLock lockfile manifest).toJson →
      ∃ report, importLock reader network text = .ok report ∧
        report.lockfile.packages.map (·.resolved) = lockfile.packages.map (·.resolved) := by
  intro hall
  obtain ⟨report, himport, hresolved⟩ := hall
    (readerOf (exportedLock linkedLock emptyManifest).toJson) offline linkedLock emptyManifest
    (Json.pretty 0 (exportedLock linkedLock emptyManifest).toJson ++ ['\n'])
    (by decide) (by decide) rfl (if_pos rfl)
  have hback : (importLock (readerOf (exportedLock linkedLock emptyManifest).toJson) offline
      (Json.pretty 0 (exportedLock linkedLock emptyManifest).toJson ++ ['\n'])).toOption.map
        (fun report => report.lockfile.packages.map (·.resolved)) =
      some [lit "packages/tool"] := by
    decide +kernel
  rw [himport] at hback
  have hback : report.lockfile.packages.map (·.resolved) = [lit "packages/tool"] :=
    Option.some.inj hback
  rw [hback] at hresolved
  revert hresolved
  decide

end NpmLock
end Bpm
