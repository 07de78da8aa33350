import Bpm.Interchange.NpmRoundTrip
import Bpm.Lib.Folds

/-!
# Integrities taken from another placement

A placement without an integrity gets the one that another placement of the same name
and version records.  The name is the one in the path, so that it may be an alias; what
the two placements are is to be read off the registry names and the sources.
-/

namespace Bpm

open Text

/-- What a registry serves: the address of the registry, a name and a version. -/
structure Artifact where
  registry : Str
  name : Str
  version : Str
deriving DecidableEq

namespace NpmLock

/-- The registry of a URL: what stands between the scheme and the path. -/
def registryHost (url : Str) : Option Str :=
  ((stripPrefix (lit "https://") url).or (stripPrefix (lit "http://") url)).map
    (·.takeWhile (· ≠ '/'))

/-- Whether a lockfile records another source than a registry. -/
def recordedElsewhere (lock : Lockfile) (path : Str) : Bool :=
  match lock.resolution.packages[path]? with
  | some resolution =>
      match resolution.source with
      | .registry _ => false
      | _ => true
  | none => false

/-- The artifact that an entry stands for, if it comes from a registry. -/
def artifactOf (lock : Lockfile) (p : PackageEntry) : Option Artifact :=
  if p.link || recordedElsewhere lock p.path then none
  else (registryHost p.resolved).map (⟨·, lock.registryNameFor p, p.version⟩)

/-! ## The placement that is read -/

/-- Whether an entry's integrity is taken for a name and version. -/
def offers (name version : Str) (p : PackageEntry) : Bool :=
  !p.link && p.name == name && p.version == version && p.integrity.isSome

/-- The last placement of a name and version that records an integrity. -/
def donor (packages : List PackageEntry) (name version : Str) : Option PackageEntry :=
  (packages.filter (offers name version)).getLast?

theorem integrityByArtifact_eq (packages : List PackageEntry) (name version : Str) :
    integrityByArtifact packages name version =
      (donor packages name version).bind (·.integrity) := by
  unfold integrityByArtifact donor
  induction packages using List.reverseRecOn with
  | nil => rfl
  | append_singleton packages p ih =>
      rw [List.foldl_append, ih, List.filter_append]
      cases hoffers : offers name version p with
      | true =>
          have hp : (!p.link && p.name == name && p.version == version) = true ∧
              p.integrity.isSome = true := by simpa [offers] using hoffers
          obtain ⟨integrity, hintegrity⟩ := Option.isSome_iff_exists.mp hp.2
          simp only [List.foldl_cons, List.foldl_nil, if_pos hp.1, hintegrity, Option.some_or,
            List.filter_cons_of_pos hoffers, List.filter_nil, List.getLast?_concat,
            Option.bind_some]
      | false =>
          have hkeep : (if !p.link && p.name == name && p.version == version then
              p.integrity.or ((packages.filter (offers name version)).getLast?.bind (·.integrity))
              else (packages.filter (offers name version)).getLast?.bind (·.integrity)) =
              (packages.filter (offers name version)).getLast?.bind (·.integrity) := by
            split
            · have hnone : p.integrity = none := by simp_all [offers]
              simp [hnone]
            · rfl
          simpa [hoffers] using hkeep

/-- What the loop over the table ends with. -/
def collected (raw : RawLock) : Except NpmLockError ImportState :=
  importEntries raw.packages.toList ⟨[], importRoot raw⟩

/-- A placement without an integrity, and the one whose integrity it gets. -/
def FilledFrom (raw : RawLock) (p q : PackageEntry) : Prop :=
  ∃ state, collected raw = .ok state ∧ p ∈ state.lockfile.packages ∧ p.link = false ∧
    p.integrity = none ∧ donor state.lockfile.packages p.name p.version = some q

/-! ## Rows of the table -/

abbrev Row := Str × RawPkg

namespace Row

def name (row : Row) : Str := packageNameFromPath row.1

def version (row : Row) : Str := row.2.version.getD []

def link (row : Row) : Bool := row.2.link.getD false

/-- Whether a row becomes an entry: it is not the root, nor a workspace manifest, nor
part of another package's tarball. -/
def imported (row : Row) : Bool :=
  !row.1.isEmpty && (row.link || (row.1.splitOn '/').contains (lit "node_modules")) &&
    !(row.2.inBundle.getD false && row.2.resolved.any insideTarball)

/-- The Git source of a row. -/
def git (row : Row) : Option (Str × Str × Str) :=
  if row.link then none else hostedGitFromNpmResolved (row.2.resolved.getD [])

/-- The registry name of an alias. -/
def canonical (row : Row) : Option Str :=
  if row.link then none else row.2.name.filter (· ≠ row.name)

def recorded (row : Row) : Str :=
  if row.link then row.2.resolved.getD [] else registryResolved row.name row.version row.2

/-- The entry of a row. -/
def entry (row : Row) : PackageEntry :=
  { path := row.1, name := row.name, version := row.version
    resolved := archiveOr row.git row.recorded
    workspaceTarget := if row.link then row.2.resolved.filter (!·.isEmpty) else none
    integrity := row.2.integrity, link := row.link
    dev := row.2.dev.getD false, optional := row.2.optional.getD false
    os := row.2.os, cpu := row.2.cpu
    bin := (parseBin row.1 row.name row.2.bin).toOption.getD ∅
    dependencies := insertMissing row.2.dependencies row.2.peerDependencies }

/-- The name under which a registry knows the package of a row. -/
def registryName (row : Row) : Str := row.2.name.getD row.name

/-- The registry of a row that is not from Git. -/
def registry (row : Row) : Option Str :=
  if row.git.isSome then none else registryHost (registryResolved row.name row.version row.2)

end Row

/-- The name recorded for an alias is the registry's. -/
theorem canonicalName_ok (row : Row) {canonical : Option Str}
    (h : canonicalName row.1 row.name row.link row.2 = .ok canonical) :
    canonical = row.canonical := by
  unfold canonicalName at h
  unfold Row.canonical
  cases hname : row.2.name with
  | none =>
      rw [hname] at h
      cases h
      simp
  | some name =>
      simp only [hname] at h
      split at h
      · cases h
        rename_i hsame
        rcases Bool.or_eq_true _ _ |>.mp hsame with hlink | hsame
        · simp [hlink]
        · have hsame : name = row.name := by simpa using hsame
          simp [hsame, Option.filter]
      · rename_i hother
        have hother' : row.link = false ∧ name ≠ row.name := by simpa using hother
        split at h
        · cases h
        · cases h
          simp [hother'.1, hother'.2, Option.filter]

/-- What reading one row does to the state. -/
theorem importEntry_ok {state state' : ImportState} (row : Row)
    (h : importEntry state row.1 row.2 = .ok state') :
    (row.imported = false ∧ state' = state) ∨
      (row.imported = true ∧ ∃ notes, state' =
        (((state.note notes).recordGit row.1 row.git).recordName row.1 row.canonical).push
          row.entry) := by
  unfold importEntry at h
  simp only at h
  split at h
  · cases h
    rename_i hroot
    exact .inl ⟨by simp [Row.imported, hroot], rfl⟩
  rename_i hroot
  split at h
  · cases h
    rename_i hworkspace
    have hworkspace' : row.link = false ∧
        (row.1.splitOn '/').contains (lit "node_modules") = false := by
      simpa [Row.link] using hworkspace
    refine .inl ⟨?_, rfl⟩
    unfold Row.imported
    rw [hworkspace'.1, hworkspace'.2]
    simp
  rename_i hworkspace
  split at h
  · cases h
    rename_i hbundled
    refine .inl ⟨?_, rfl⟩
    unfold Row.imported
    rw [hbundled]
    simp
  rename_i hbundled
  obtain ⟨bin, hbin, h⟩ := Except.bind_eq_ok.mp h
  obtain ⟨-, -, h⟩ := Except.bind_eq_ok.mp h
  obtain ⟨-, -, h⟩ := Except.bind_eq_ok.mp h
  obtain ⟨canonical, hcanonical, h⟩ := Except.bind_eq_ok.mp h
  have hcanonical := canonicalName_ok row hcanonical
  have hentry : row.entry.bin = bin := by simp [Row.entry, Row.name, hbin, Except.toOption]
  refine .inr ⟨?_, entryDiagnostics row.1 row.name row.link row.entry.workspaceTarget row.recorded
    row.2, ?_⟩
  · have hnotBundled : (row.2.inBundle.getD false && row.2.resolved.any insideTarball) = false :=
      Bool.eq_false_iff.mpr hbundled
    have hmodules : (row.link || (row.1.splitOn '/').contains (lit "node_modules")) = true := by
      cases hlink : row.link with
      | true => rfl
      | false =>
          have hlink' : row.2.link.getD false = false := hlink
          simpa [hlink'] using hworkspace
    have hpath : row.1.isEmpty = false := Bool.eq_false_iff.mpr hroot
    unfold Row.imported
    rw [hnotBundled, hmodules, hpath]
    rfl
  · cases h
    subst hcanonical hentry
    rfl

/-! ## The whole table -/

/-- What reading rows of different paths leaves behind. -/
structure Read (rows : List Row) (before after : Lockfile) : Prop where
  packages : after.packages = before.packages ++ (rows.filter Row.imported).map Row.entry
  names : ∀ row ∈ rows, row.imported = true →
    after.resolution.registryNames[row.1]? = row.canonical.or before.resolution.registryNames[row.1]?
  sources : ∀ row ∈ rows, row.imported = true →
    after.resolution.packages[row.1]? =
      (row.git.map fun git => gitResolution git.1 git.2.1).or before.resolution.packages[row.1]?
  otherNames : ∀ path : Str, path ∉ rows.map Prod.fst →
    after.resolution.registryNames[path]? = before.resolution.registryNames[path]?
  otherSources : ∀ path : Str, path ∉ rows.map Prod.fst →
    after.resolution.packages[path]? = before.resolution.packages[path]?

/-- What one row records, for its own path and for others. -/
theorem recorded_names (state : ImportState) (notes : List Diagnostic) (row : Row) (path : Str) :
    let after := (((state.note notes).recordGit row.1 row.git).recordName row.1 row.canonical).push
      row.entry
    after.lockfile.packages = state.lockfile.packages ++ [row.entry] ∧
    after.lockfile.resolution.registryNames[path]? =
      (if path = row.1 then row.canonical.or state.lockfile.resolution.registryNames[path]?
      else state.lockfile.resolution.registryNames[path]?) ∧
    after.lockfile.resolution.packages[path]? =
      (if path = row.1 then (row.git.map fun git => gitResolution git.1 git.2.1).or
        state.lockfile.resolution.packages[path]?
      else state.lockfile.resolution.packages[path]?) := by
  cases hgit : row.git <;> cases hcanonical : row.canonical <;>
    simp only [ImportState.note, ImportState.recordGit, ImportState.recordName, ImportState.push,
      Map.get_insert, Option.map_some, Option.map_none, Option.none_or, Option.some_or, true_and,
      ite_self] <;>
    grind

theorem importEntries_ok {rows : List Row} {state state' : ImportState}
    (h : importEntries rows state = .ok state') (hnodup : (rows.map Prod.fst).Nodup) :
    Read rows state.lockfile state'.lockfile := by
  induction rows generalizing state with
  | nil =>
      cases h
      exact ⟨by simp, by simp, by simp, fun _ _ => rfl, fun _ _ => rfl⟩
  | cons row rows ih =>
      obtain ⟨path, pkg⟩ := row
      unfold importEntries at h
      split at h
      · cases h
      rename_i next hentry
      simp only [List.map_cons, List.nodup_cons] at hnodup
      have hrest := ih h hnodup.2
      rcases importEntry_ok (path, pkg) hentry with ⟨hskip, rfl⟩ | ⟨hread, notes, rfl⟩
      · refine ⟨?_, ?_, ?_, ?_, ?_⟩
        · rw [hrest.packages, List.filter_cons_of_neg (by simp [hskip])]
        · intro row hrow himported
          rcases List.mem_cons.mp hrow with rfl | hrow
          · simp [hskip] at himported
          · exact hrest.names row hrow himported
        · intro row hrow himported
          rcases List.mem_cons.mp hrow with rfl | hrow
          · simp [hskip] at himported
          · exact hrest.sources row hrow himported
        · intro other hother
          exact hrest.otherNames other fun hmem => hother (by simp [hmem])
        · intro other hother
          exact hrest.otherSources other fun hmem => hother (by simp [hmem])
      · have hone := recorded_names state notes (path, pkg)
        have hne : ∀ row ∈ rows, row.1 ≠ path := fun row hrow heq =>
          hnodup.1 (heq ▸ List.mem_map_of_mem hrow)
        refine ⟨?_, ?_, ?_, ?_, ?_⟩
        · rw [hrest.packages, (hone path).1, List.filter_cons_of_pos hread, List.map_cons,
            List.append_assoc]
          rfl
        · intro row hrow himported
          rcases List.mem_cons.mp hrow with rfl | hrow
          · rw [hrest.otherNames _ hnodup.1, (hone _).2.1, if_pos rfl]
          · rw [hrest.names row hrow himported, (hone _).2.1, if_neg (hne row hrow)]
        · intro row hrow himported
          rcases List.mem_cons.mp hrow with rfl | hrow
          · rw [hrest.otherSources _ hnodup.1, (hone _).2.2, if_pos rfl]
          · rw [hrest.sources row hrow himported, (hone _).2.2, if_neg (hne row hrow)]
        · intro other hother
          have hother' : other ≠ path ∧ other ∉ rows.map Prod.fst := by simpa using hother
          rw [hrest.otherNames other hother'.2, (hone other).2.1, if_neg hother'.1]
        · intro other hother
          have hother' : other ≠ path ∧ other ∉ rows.map Prod.fst := by simpa using hother
          rw [hrest.otherSources other hother'.2, (hone other).2.2, if_neg hother'.1]

theorem importRoot_resolution (raw : RawLock) :
    (importRoot raw).packages = [] ∧ (importRoot raw).resolution = ResolutionMetadata.default := by
  unfold importRoot
  split <;> exact ⟨rfl, rfl⟩

/-- The rows that become entries. -/
def importedRows (raw : RawLock) : List Row := raw.packages.toList.filter Row.imported

/-- The entries that are collected, and what stands for their names and sources. -/
theorem collected_ok {raw : RawLock} {state : ImportState} (h : collected raw = .ok state) :
    state.lockfile.packages = (importedRows raw).map Row.entry ∧
    ∀ row ∈ importedRows raw,
      state.lockfile.resolution.registryNames[row.1]? = row.canonical ∧
      state.lockfile.resolution.packages[row.1]? =
        row.git.map fun git => gitResolution git.1 git.2.1 := by
  have hpaths : (raw.packages.toList.map Prod.fst).Nodup :=
    List.pairwise_map.mpr
      (Std.ExtTreeMap.distinct_keys_toList.imp fun hne heq => hne (by simp [heq]))
  have hread := importEntries_ok h hpaths
  obtain ⟨hpackages, hresolution⟩ := importRoot_resolution raw
  refine ⟨by rw [hread.packages, hpackages]; rfl, fun row hrow => ?_⟩
  obtain ⟨hmem, himported⟩ := List.mem_filter.mp hrow
  rw [hread.names row hmem himported, hread.sources row hmem himported, hresolution]
  exact ⟨Option.or_none, Option.or_none⟩

/-! ## Artifacts -/

/-- The artifact of an entry, read off its row. -/
theorem artifactOf_entry {raw : RawLock} {state : ImportState} (h : collected raw = .ok state)
    {row : Row} (hrow : row ∈ importedRows raw) (hlink : row.link = false) :
    artifactOf state.lockfile row.entry =
      row.registry.map (⟨·, row.registryName, row.version⟩) := by
  obtain ⟨hname, hsource⟩ := (collected_ok h).2 row hrow
  have hregistryName : state.lockfile.registryNameFor row.entry = row.registryName := by
    change (state.lockfile.resolution.registryNames[row.1]?).getD row.name = _
    rw [hname]
    unfold Row.canonical Row.registryName
    cases hcanonical : row.2.name with
    | none => simp
    | some name =>
        by_cases hsame : name = row.name
        · simp [hsame, Option.filter]
        · simp [hsame, hlink, Option.filter]
  have helsewhere : recordedElsewhere state.lockfile row.1 = row.git.isSome := by
    unfold recordedElsewhere
    rw [hsource]
    cases row.git <;> rfl
  have hentryLink : row.entry.link = false := hlink
  have hentryPath : row.entry.path = row.1 := rfl
  have hentryVersion : row.entry.version = row.version := rfl
  unfold artifactOf Row.registry
  rw [hentryLink, hentryPath, helsewhere, hregistryName, hentryVersion]
  cases hgit : row.git with
  | some git => simp
  | none =>
      have hresolved : row.entry.resolved = registryResolved row.name row.version row.2 := by
        simp [Row.entry, hgit, archiveOr, Row.recorded, hlink]
      simp [hresolved]

/-- A row without an integrity, and the last row of the same name in its path and the same
version that has one. -/
structure Row.Missing (raw : RawLock) (row source : Row) : Prop where
  mem : row ∈ importedRows raw
  unlinked : row.link = false
  missing : row.2.integrity = none
  last : ((importedRows raw).filter fun other => !other.link && other.name == row.name &&
    other.version == row.version && other.2.integrity.isSome).getLast? = some source

theorem Row.Missing.source_mem {raw : RawLock} {row source : Row}
    (h : Row.Missing raw row source) :
    source ∈ importedRows raw ∧ source.link = false ∧ source.version = row.version := by
  obtain ⟨hmem, hoffers⟩ := List.mem_filter.mp (List.mem_of_getLast? h.last)
  simp only [Bool.and_eq_true, Bool.not_eq_true', beq_iff_eq] at hoffers
  exact ⟨hmem, hoffers.1.1.1, hoffers.1.2⟩

/-- Entries are filled as the rows say. -/
theorem filledFrom_iff {raw : RawLock} {state : ImportState} (h : collected raw = .ok state)
    (p q : PackageEntry) :
    FilledFrom raw p q ↔
      ∃ row source : Row, Row.Missing raw row source ∧ p = row.entry ∧ q = source.entry := by
  have hpackages := (collected_ok h).1
  have hdonor (row : Row) : donor state.lockfile.packages row.entry.name row.entry.version =
      (((importedRows raw).filter fun other => !other.link && other.name == row.name &&
        other.version == row.version && other.2.integrity.isSome).getLast?).map Row.entry := by
    unfold donor
    rw [hpackages, List.filter_map, List.getLast?_map]
    rfl
  constructor
  · rintro ⟨state', hstate, hp, hlink, hmissing, hq⟩
    obtain rfl : state = state' := by simpa [h] using hstate
    rw [hpackages] at hp
    obtain ⟨row, hrow, rfl⟩ := List.mem_map.mp hp
    rw [hdonor] at hq
    obtain ⟨source, hsource, rfl⟩ := Option.map_eq_some_iff.mp hq
    exact ⟨row, source, ⟨hrow, hlink, hmissing, hsource⟩, rfl, rfl⟩
  · rintro ⟨row, source, hrow, rfl, rfl⟩
    refine ⟨state, h, ?_, hrow.unlinked, hrow.missing, ?_⟩
    · rw [hpackages]
      exact List.mem_map_of_mem hrow.mem
    · rw [hdonor, hrow.last]
      rfl

/-! ## What is filled in -/

theorem mem_fetchIntegrities (network : Network) {packages : List PackageEntry} {p : PackageEntry}
    (hp : p ∈ packages) (hfetch : needsFetch p = false) (index : Nat) :
    p ∈ (fetchIntegrities network index packages).1 := by
  induction packages generalizing index with
  | nil => cases hp
  | cons other rest ih =>
      unfold fetchIntegrities
      rcases List.mem_cons.mp hp with rfl | hp
      · simp [hfetch]
      · have hrest := ih hp (index + 1)
        simp only
        split
        · split <;> exact List.mem_cons_of_mem _ hrest
        · exact List.mem_cons_of_mem _ hrest

/-- What is imported contains the filled entry, with the names and sources that were
collected. -/
theorem importRaw_filled {network : Network} {raw : RawLock} {report : ImportReport}
    (h : importRaw network raw = .ok report) :
    ∃ state, collected raw = .ok state ∧
      report.lockfile.resolution = state.lockfile.resolution ∧
      ∀ p q, FilledFrom raw p q →
        q.integrity.isSome = true ∧ { p with integrity := q.integrity } ∈ report.lockfile.packages := by
  unfold importRaw at h
  simp only at h
  split at h
  · cases h
  split at h
  · cases h
  cases hcollected : importEntries raw.packages.toList ⟨[], importRoot raw⟩ with
  | error e => simp [hcollected, Except.map] at h
  | ok state =>
      rw [hcollected] at h
      cases h
      refine ⟨state, hcollected, rfl, ?_⟩
      rintro p q ⟨state', hstate, hp, hlink, hmissing, hq⟩
      obtain rfl : state = state' := by simpa [collected, hcollected] using hstate
      have hoffers := (List.mem_filter.mp (List.mem_of_getLast? hq)).2
      have hsome : q.integrity.isSome = true := by
        simp only [offers, Bool.and_eq_true] at hoffers
        exact hoffers.2
      refine ⟨hsome, ?_⟩
      have hfilled : { p with integrity := q.integrity } ∈ fillIntegrity state.lockfile.packages := by
        refine List.mem_map.mpr ⟨p, hp, ?_⟩
        simp [hmissing, hlink, integrityByArtifact_eq, hq]
      have hfetched := mem_fetchIntegrities network hfilled
        (by simp [needsFetch, Option.isNone_eq_false_iff.mpr hsome]) 0
      simpa [finishImport, Lockfile.sortPackages] using hfetched

/-- No placement without an integrity takes that of a package with another registry
name, from another registry or from no registry. -/
def Unmixed (raw : RawLock) : Prop :=
  ∀ row source, Row.Missing raw row source →
    row.registryName = source.registryName ∧ row.registry = source.registry ∧
      row.registry.isSome = true

/-- Every integrity that is filled in belongs to the artifact of its placement exactly for
the tables that do not mix packages under one name and version. -/
theorem importLock_filled_iff {reader : JsonReader} {network : Network} {text : Str}
    {raw : RawLock} {report : ImportReport} (hraw : (reader text).bind rawLock.decode = some raw)
    (h : importLock reader network text = .ok report) :
    (∀ p q, FilledFrom raw p q → { p with integrity := q.integrity } ∈ report.lockfile.packages) ∧
    ((∀ p q, FilledFrom raw p q → ∃ artifact, artifactOf report.lockfile p = some artifact ∧
        artifactOf report.lockfile q = some artifact) ↔ Unmixed raw) := by
  unfold importLock at h
  rw [hraw] at h
  obtain ⟨state, hstate, hresolution, hfilled⟩ := importRaw_filled h
  have hartifact (p : PackageEntry) : artifactOf report.lockfile p = artifactOf state.lockfile p := by
    simp [artifactOf, recordedElsewhere, Lockfile.registryNameFor, hresolution]
  refine ⟨fun p q hpq => (hfilled p q hpq).2, ?_, ?_⟩
  · intro hall row source hrow
    obtain ⟨hmem, hlink, hversion⟩ := hrow.source_mem
    obtain ⟨artifact, hp, hq⟩ := hall row.entry source.entry
      ((filledFrom_iff hstate _ _).mpr ⟨row, source, hrow, rfl, rfl⟩)
    rw [hartifact, artifactOf_entry hstate hrow.mem hrow.unlinked] at hp
    rw [hartifact, artifactOf_entry hstate hmem hlink] at hq
    obtain ⟨registry, hregistry, rfl⟩ := Option.map_eq_some_iff.mp hp
    obtain ⟨registry', hregistry', hsame⟩ := Option.map_eq_some_iff.mp hq
    simp only [Artifact.mk.injEq] at hsame
    obtain ⟨rfl, hname, -⟩ := hsame
    exact ⟨hname.symm, by rw [hregistry, hregistry'], by rw [hregistry]; rfl⟩
  · intro hunmixed p q hpq
    obtain ⟨row, source, hrow, rfl, rfl⟩ := (filledFrom_iff hstate p q).mp hpq
    obtain ⟨hmem, hlink, hversion⟩ := hrow.source_mem
    obtain ⟨hname, hregistry, hsome⟩ := hunmixed row source hrow
    obtain ⟨registry, hrowRegistry⟩ := Option.isSome_iff_exists.mp hsome
    refine ⟨⟨registry, row.registryName, row.version⟩, ?_, ?_⟩
    · rw [hartifact, artifactOf_entry hstate hrow.mem hrow.unlinked, hrowRegistry]
      rfl
    · rw [hartifact, artifactOf_entry hstate hmem hlink, ← hregistry, hrowRegistry, hname, hversion]
      rfl

namespace Example

/-- An alias `foo` for `real` beside the package `foo` itself, which has no integrity. -/
def aliasDocument : Json :=
  .obj [(lit "lockfileVersion", .int 3), (lit "packages", .obj [
    (lit "node_modules/foo", .obj [(lit "name", .str (lit "real")),
      (lit "version", .str (lit "1.0.0")),
      (lit "resolved", .str (lit "https://registry.npmjs.org/real/-/real-1.0.0.tgz")),
      (lit "integrity", .str (lit "sha512-real"))]),
    (lit "node_modules/x/node_modules/foo", .obj [(lit "version", .str (lit "1.0.0"))])])]

def aliasText : Str := Json.pretty 0 aliasDocument ++ ['\n']

def aliased : PackageEntry :=
  { path := lit "node_modules/foo", name := lit "foo", version := lit "1.0.0"
    resolved := lit "https://registry.npmjs.org/real/-/real-1.0.0.tgz", workspaceTarget := none
    integrity := some (lit "sha512-real"), link := false, dev := false, optional := false
    os := [], cpu := [], bin := ∅, dependencies := ∅ }

def nested : PackageEntry :=
  { path := lit "node_modules/x/node_modules/foo", name := lit "foo", version := lit "1.0.0"
    resolved := lit "https://registry.npmjs.org/foo/-/foo-1.0.0.tgz", workspaceTarget := none
    integrity := none, link := false, dev := false, optional := false
    os := [], cpu := [], bin := ∅, dependencies := ∅ }

/-- The table is accepted. -/
theorem aliasText_imported : ∃ raw report,
    (readerOf aliasDocument aliasText).bind rawLock.decode = some raw ∧
    importLock (readerOf aliasDocument) offline aliasText = .ok report := by
  have hdecoded : ((readerOf aliasDocument aliasText).bind rawLock.decode).isSome = true := by
    decide +kernel
  have himported : (importLock (readerOf aliasDocument) offline aliasText).isOk = true := by
    decide +kernel
  obtain ⟨raw, hraw⟩ := Option.isSome_iff_exists.mp hdecoded
  cases h : importLock (readerOf aliasDocument) offline aliasText with
  | ok report => exact ⟨raw, report, hraw, rfl⟩
  | error e => simp [h, Except.isOk, Except.toBool] at himported

theorem importLock_filled_alias : ∃ raw report,
    importLock (readerOf aliasDocument) offline aliasText = .ok report ∧
    (∀ p q, FilledFrom raw p q → { p with integrity := q.integrity } ∈ report.lockfile.packages) ∧
    ((∀ p q, FilledFrom raw p q → ∃ artifact, artifactOf report.lockfile p = some artifact ∧
        artifactOf report.lockfile q = some artifact) ↔ Unmixed raw) := by
  obtain ⟨raw, report, hraw, h⟩ := aliasText_imported
  exact ⟨raw, report, h, importLock_filled_iff hraw h⟩

/-- The package `foo` gets the integrity of `real`. -/
theorem importLock_fills_alias :
    ¬ ∀ (reader : JsonReader) (network : Network) (text : Str) (raw : RawLock)
      (report : ImportReport), (reader text).bind rawLock.decode = some raw →
      importLock reader network text = .ok report → ∀ p q, FilledFrom raw p q →
      ∃ artifact, artifactOf report.lockfile p = some artifact ∧
        artifactOf report.lockfile q = some artifact := by
  intro hall
  obtain ⟨raw, report, hraw, h⟩ := aliasText_imported
  have hcollected : ((readerOf aliasDocument aliasText).bind rawLock.decode).bind (fun raw =>
      (collected raw).toOption.map fun state => (state.lockfile.packages,
        donor state.lockfile.packages nested.name nested.version)) =
      some ([aliased, nested], some aliased) := by
    decide +kernel
  rw [hraw] at hcollected
  obtain ⟨state, hstate, hfound⟩ := Option.map_eq_some_iff.mp hcollected
  simp only [Prod.mk.injEq] at hfound
  have hfilled : FilledFrom raw nested aliased := by
    refine ⟨state, ?_, by simp [hfound.1], rfl, rfl, hfound.2⟩
    cases hok : collected raw with
    | ok state' => simp_all [Except.toOption]
    | error e => simp [hok, Except.toOption] at hstate
  obtain ⟨artifact, hnested, haliased⟩ := hall _ offline aliasText raw report hraw h _ _ hfilled
  have hdiffer : (importLock (readerOf aliasDocument) offline aliasText).toOption.map (fun report =>
      decide (artifactOf report.lockfile nested = artifactOf report.lockfile aliased)) =
      some false := by
    decide +kernel
  rw [h] at hdiffer
  simp [Except.toOption, hnested, haliased] at hdiffer

end Example

end NpmLock
end Bpm
