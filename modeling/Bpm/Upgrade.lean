import Bpm.Lib.Worklist
import Bpm.Lockfile.RoundTrip
import Bpm.Resolver.Lockable

/-!
# Upgrading named packages

`bpm upgrade <pkg>…` resolves the whole manifest afresh and splices the closure of
the named packages in the fresh lockfile into what the closure of the named
packages in the current lockfile leaves over.  Both closures are taken by path,
so that a package that both sides need, a path that both sides use, or a slot
that one side puts in front of the other's gives a lockfile that is not one.
-/

namespace Bpm

open Text Relation

namespace Upgrade

inductive UpgradeError
  | absentSelection
  | unresolvedSelection
deriving DecidableEq

/-- How often `pattern` occurs in `text`; `node_modules` never overlaps itself. -/
def countMatches (pattern text : Str) : Nat := text.tails.countP (pattern.isPrefixOf ·)

def selectedRootPaths (lock : Lockfile) (selected : List Str) : List Str :=
  (selected.flatMap fun name =>
    (lock.packages.filter fun package =>
      package.path == rootDir ++ name ||
        (package.name == name && countMatches (lit "node_modules") package.path == 1)).map
      (·.path)).dedup

/-- All paths that the resolution of a package records. -/
def recordedTargets (resolution : PackageResolution) : List Str :=
  (Map.valuesOf resolution.dependencies).map (·.target) ++
    (Map.valuesOf resolution.optionalDependencies).map (·.target) ++
    (Map.valuesOf resolution.peerDependencies).map (·.target) ++
    (Map.valuesOf resolution.peerContext).map (·.path)

/-- The placements that the package at a path leads to. -/
def lockTargets (lock : Lockfile) (path : Str) : List Str :=
  match lock.resolution.packages[path]? with
  | none => []
  | some resolution => (recordedTargets resolution).filter (!·.isEmpty)

def lockClosure (lock : Lockfile) (roots : List Str) : List Str :=
  Worklist.close (lockTargets lock)
    ((Map.valuesOf lock.resolution.packages).flatMap recordedTargets) roots

/-- Drop the entries at old paths and take over those at new ones. -/
def splice {α : Type} (old new : List Str) (prior fresh : Map α) : Map α :=
  fresh.toList.foldl
    (fun entries entry => if entry.1 ∈ new then entries.insert entry.1 entry.2 else entries)
    (prior.filter fun path _ => path ∉ old)

def selectiveUpgradeLock (prior fresh : Lockfile) (selected : List Str) :
    Except UpgradeError Lockfile :=
  let oldRoots := selectedRootPaths prior selected
  let newRoots := selectedRootPaths fresh selected
  if oldRoots.isEmpty then .error .absentSelection
  else if newRoots.isEmpty then .error .unresolvedSelection
  else
    let oldMovable := lockClosure prior oldRoots
    let newMovable := lockClosure fresh newRoots
    .ok (Lockfile.sortPackages
      { prior with
        packages := prior.packages.filter (·.path ∉ oldMovable) ++
          fresh.packages.filter (·.path ∈ newMovable)
        resolution := {
          root := fresh.resolution.root
          packages :=
            splice oldMovable newMovable prior.resolution.packages fresh.resolution.packages
          registryNames := splice oldMovable newMovable prior.resolution.registryNames
            fresh.resolution.registryNames } })

/-! ## Closures -/

/-- A package leads to the placements it records. -/
def Leads (lock : Lockfile) : Str → Str → Prop := Worklist.Next (lockTargets lock)

/-- In the closure of the selected root packages. -/
def Movable (lock : Lockfile) (selected : List Str) (path : Str) : Prop :=
  ∃ root ∈ selectedRootPaths lock selected, ReflTransGen (Leads lock) root path

theorem mem_lockClosure (lock : Lockfile) (selected : List Str) (path : Str) :
    path ∈ lockClosure lock (selectedRootPaths lock selected) ↔ Movable lock selected path := by
  refine Worklist.mem_close ?_ _ path
  intro owner target htarget
  unfold lockTargets at htarget
  split at htarget
  · cases htarget
  · rename_i resolution hresolution
    refine List.mem_flatMap.mpr ⟨resolution, Map.mem_valuesOf.mpr ⟨owner, hresolution⟩, ?_⟩
    exact (List.mem_filter.mp htarget).1

theorem mem_selectedRootPaths {lock : Lockfile} {selected : List Str} {path : Str}
    (h : path ∈ selectedRootPaths lock selected) : ∃ p ∈ lock.packages, p.path = path := by
  rw [selectedRootPaths, List.mem_dedup, List.mem_flatMap] at h
  obtain ⟨_, _, h⟩ := h
  obtain ⟨p, hp, hpath⟩ := List.mem_map.mp h
  exact ⟨p, (List.mem_filter.mp hp).1, hpath⟩

/-! ## What a valid lockfile records -/

theorem hasPath_iff {lock : Lockfile} {path : Str} :
    lock.hasPath path = true ↔ ∃ p ∈ lock.packages, p.path = path := by
  simp [Lockfile.hasPath]

theorem checkListed_ok_iff {α : Type} {lock : Lockfile} {entries : Map α} {target : α → Str}
    {reason : Str × α → InvalidLock} :
    checkAll (fun entry => invalidIf (!lock.hasPath (target entry.2)) (reason entry))
        entries.toList = .ok () ↔
      ∀ path ∈ (Map.valuesOf entries).map target, lock.hasPath path = true := by
  rw [checkAll_ok_iff]
  simp only [invalidIf_ok_iff, Bool.not_eq_eq_eq_not, Bool.not_false, List.mem_map, Map.valuesOf]
  constructor
  · rintro h _ ⟨_, ⟨entry, hentry, rfl⟩, rfl⟩
    exact h entry hentry
  · intro h entry hentry
    exact h _ ⟨_, ⟨entry, hentry, rfl⟩, rfl⟩

theorem checkResolution_ok_iff {lock : Lockfile} {path : Str} {resolution : PackageResolution} :
    lock.checkResolution (path, resolution) = .ok () ↔
      ∃ package, lock.packageAt path = some package ∧
        checkSource path package resolution = .ok () ∧
        ∀ target ∈ recordedTargets resolution, lock.hasPath target = true := by
  unfold Lockfile.checkResolution
  cases hpackage : lock.packageAt path with
  | none => simp
  | some package =>
    simp only [bind_ok_iff, Lockfile.checkTargets, checkListed_ok_iff, Option.some.injEq,
      exists_eq_left', recordedTargets, List.mem_append, or_imp, forall_and, and_assoc]

section Valid

variable {lock : Lockfile} {selected : List Str} {path : Str}

theorem nodup_of_validateV2 (h : lock.validateV2 = .ok ()) : (lock.packages.map (·.path)).Nodup :=
  List.pairwise_map.mpr
    ((Lockfile.sorted_of_checkPaths (validateV2_ok_iff.mp h).1).imp fun hlt => ne_of_lt hlt)

theorem legal_of_validateV2 (h : lock.validateV2 = .ok ()) {p : PackageEntry}
    (hp : p ∈ lock.packages) : legalRelativePath p.path = true :=
  (checkPaths_ok_iff.mp (validateV2_ok_iff.mp h).1).1 p hp

theorem checkResolution_of_validateV2 (h : lock.validateV2 = .ok ())
    {resolution : PackageResolution} (hget : lock.resolution.packages[path]? = some resolution) :
    lock.checkResolution (path, resolution) = .ok () :=
  (validateV2_ok_iff.mp h).2.2 _ (Map.mem_toList.mpr hget)

theorem listed_of_packageAt {p : PackageEntry} (h : lock.packageAt path = some p) :
    p ∈ lock.packages ∧ p.path = path :=
  ⟨List.mem_of_find?_eq_some h, by simpa using List.find?_some h⟩

/-- With distinct paths, the package at a path is the one listed there. -/
theorem packageAt_eq_some_iff (hnodup : (lock.packages.map (·.path)).Nodup) {p : PackageEntry} :
    lock.packageAt path = some p ↔ p ∈ lock.packages ∧ p.path = path := by
  refine ⟨listed_of_packageAt, ?_⟩
  rintro ⟨hp, rfl⟩
  exact find_path_eq hp fun e he heq => List.inj_on_of_nodup_map hnodup he hp heq

/-- A recorded target of a valid lockfile is listed, and the closure follows it. -/
theorem lockTargets_of_validateV2 (h : lock.validateV2 = .ok ()) {resolution : PackageResolution}
    (hget : lock.resolution.packages[path]? = some resolution) {target : Str} :
    target ∈ lockTargets lock path ↔ target ∈ recordedTargets resolution := by
  have htargets := checkResolution_ok_iff.mp (checkResolution_of_validateV2 h hget)
  obtain ⟨_, _, _, htargets⟩ := htargets
  rw [lockTargets, hget]
  simp only [List.mem_filter, and_iff_left_iff_imp]
  intro htarget
  obtain ⟨p, hp, rfl⟩ := hasPath_iff.mp (htargets target htarget)
  have hlegal := legal_of_validateV2 h hp
  cases hpath : p.path with
  | nil =>
    rw [hpath] at hlegal
    cases hlegal
  | cons => rfl

theorem Movable.listed (h : lock.validateV2 = .ok ()) (hmovable : Movable lock selected path) :
    ∃ p ∈ lock.packages, p.path = path := by
  obtain ⟨root, hroot, hreach⟩ := hmovable
  induction hreach with
  | refl => exact mem_selectedRootPaths hroot
  | @tail owner target _ hstep _ =>
    have htarget : target ∈ lockTargets lock owner := hstep
    cases hget : lock.resolution.packages[owner]? with
    | none =>
      rw [lockTargets, hget] at htarget
      cases htarget
    | some resolution =>
      rw [lockTargets_of_validateV2 h hget] at htarget
      obtain ⟨_, _, _, htargets⟩ := checkResolution_ok_iff.mp (checkResolution_of_validateV2 h hget)
      exact hasPath_iff.mp (htargets target htarget)

theorem Movable.step (h : lock.validateV2 = .ok ()) (hmovable : Movable lock selected path)
    {resolution : PackageResolution} (hget : lock.resolution.packages[path]? = some resolution)
    {target : Str} (htarget : target ∈ recordedTargets resolution) :
    Movable lock selected target := by
  obtain ⟨root, hroot, hreach⟩ := hmovable
  exact ⟨root, hroot, hreach.tail ((lockTargets_of_validateV2 h hget).mpr htarget)⟩

end Valid

/-! ## The spliced lockfile -/

section Splice

variable {α : Type} {old new : List Str} {prior fresh : Map α} {path : Str}

theorem get_foldl_splice (new : List Str) (entries : List (Str × α)) (m : Map α) (path : Str) :
    (entries.foldl (fun m entry => if entry.1 ∈ new then m.insert entry.1 entry.2 else m) m)[path]? =
      ((entries.reverse.find? fun entry => entry.1 == path && path ∈ new).map Prod.snd).or
        m[path]? := by
  induction entries generalizing m with
  | nil => rfl
  | cons entry entries ih =>
    rw [List.foldl_cons, ih, List.reverse_cons, List.find?_append, Option.map_or, Option.or_assoc]
    congr 1
    by_cases hpath : entry.1 = path
    · subst hpath
      by_cases hnew : entry.1 ∈ new <;> simp [hnew]
    · have hne : (entry.1 == path) = false := beq_false_of_ne hpath
      by_cases hnew : entry.1 ∈ new
      · simp [hnew, hne, Map.get_insert_of_ne _ _ hpath]
      · simp [hnew, hne]

/-- At a new path stands the fresh entry if there is one, else the prior one unless its
path is old. -/
theorem get_splice : (splice old new prior fresh)[path]? =
    (if path ∈ new then fresh[path]? else none).or (if path ∈ old then none else prior[path]?) := by
  rw [splice, get_foldl_splice]
  congr 1
  · cases hfind : fresh.toList.reverse.find? fun entry => entry.1 == path && path ∈ new with
    | none =>
      rw [List.find?_eq_none] at hfind
      split
      · rename_i hnew
        cases hget : fresh[path]? with
        | none => rfl
        | some value =>
          have habsent := hfind (path, value) (List.mem_reverse.mpr (Map.mem_toList.mpr hget))
          simp [hnew] at habsent
      · rfl
    | some entry =>
      have hentry := List.find?_some hfind
      simp only [Bool.and_eq_true, beq_iff_eq, decide_eq_true_eq] at hentry
      obtain ⟨rfl, hnew⟩ := hentry
      have hmem := List.mem_reverse.mp (List.mem_of_find?_eq_some hfind)
      rw [if_pos hnew, Map.mem_toList.mp hmem]
      rfl
  · rw [Std.ExtTreeMap.getElem?_filter']
    split
    · cases prior[path]? <;> simp [*]
    · cases prior[path]? <;> simp [*]

/-- When prior entries keep off the new paths, each path has the entries of one side. -/
theorem get_splice_of_apart
    (hapart : ∀ path value, prior[path]? = some value → path ∉ old → path ∉ new) :
    (splice old new prior fresh)[path]? =
      if path ∈ new then fresh[path]? else if path ∈ old then none else prior[path]? := by
  rw [get_splice]
  by_cases hnew : path ∈ new
  · by_cases hold : path ∈ old
    · simp [hnew, hold]
    · cases hget : prior[path]? with
      | none => simp [hnew, hold]
      | some value => exact absurd hnew (hapart path value hget hold)
  · simp [hnew]

end Splice

section Result

variable {prior fresh result : Lockfile} {selected : List Str}

/-- Prior packages outside the closure, and fresh packages inside. -/
structure Spliced (prior fresh : Lockfile) (selected : List Str) (result : Lockfile) : Prop where
  packages : result.packages.Perm
    (prior.packages.filter (·.path ∉ lockClosure prior (selectedRootPaths prior selected)) ++
      fresh.packages.filter (·.path ∈ lockClosure fresh (selectedRootPaths fresh selected)))
  sorted : result.packages.Pairwise Lockfile.pathLe
  resolution : result.resolution.packages =
    splice (lockClosure prior (selectedRootPaths prior selected))
      (lockClosure fresh (selectedRootPaths fresh selected))
      prior.resolution.packages fresh.resolution.packages
  registryNames : result.resolution.registryNames =
    splice (lockClosure prior (selectedRootPaths prior selected))
      (lockClosure fresh (selectedRootPaths fresh selected))
      prior.resolution.registryNames fresh.resolution.registryNames

theorem spliced_of_ok (h : selectiveUpgradeLock prior fresh selected = .ok result) :
    Spliced prior fresh selected result := by
  unfold selectiveUpgradeLock at h
  simp only at h
  split at h
  · cases h
  · split at h
    · cases h
    · cases h
      exact ⟨List.perm_insertionSort _ _, Lockfile.sortPackages_sorted _, rfl, rfl⟩

/-- The claim on the result: a valid lockfile whose targets are what Node.js finds, with the
selected packages of the fresh lockfile and all others of the prior one. -/
structure Consistent (prior fresh : Lockfile) (selected : List Str) (result : Lockfile) : Prop where
  valid : result.validateV2 = .ok ()
  lookups : result.LookupsAgree
  upgraded : ∀ p ∈ fresh.packages, p.path ∈ selectedRootPaths fresh selected →
    (result.packageAt p.path).map (·.version) = some p.version
  kept : ∀ p ∈ prior.packages, ¬Movable prior selected p.path →
    result.packageAt p.path = some p ∧
      result.resolution.packages[p.path]? = prior.resolution.packages[p.path]? ∧
      result.resolution.registryNames[p.path]? = prior.resolution.registryNames[p.path]?

/-- No path of a package that stays is a path of the fresh closure. -/
def Apart (prior fresh : Lockfile) (selected : List Str) : Prop :=
  ∀ p ∈ prior.packages, ¬Movable prior selected p.path → ¬Movable fresh selected p.path

/-- What a package that stays needs of the prior closure is in the fresh one too. -/
def Served (prior fresh : Lockfile) (selected : List Str) : Prop :=
  ∀ path resolution, prior.resolution.packages[path]? = some resolution →
    ¬Movable prior selected path → ∀ target ∈ recordedTargets resolution,
      Movable prior selected target → Movable fresh selected target

/-- No path of the fresh closure comes before the target of a package that stays. -/
def KeptInSight (prior fresh : Lockfile) (selected : List Str) : Prop :=
  ∀ path resolution, prior.resolution.packages[path]? = some resolution →
    ¬Movable prior selected path → ∀ name dep, resolution.dependencies[name]? = some dep ∨
        resolution.optionalDependencies[name]? = some dep ∨
        resolution.peerDependencies[name]? = some dep →
      ∀ slot ∈ nearerSlots path name dep.target, ¬Movable fresh selected slot

/-- No package that stays comes before the target of a package of the fresh closure. -/
def MovedInSight (prior fresh : Lockfile) (selected : List Str) : Prop :=
  ∀ path resolution, fresh.resolution.packages[path]? = some resolution →
    Movable fresh selected path → ∀ name dep, resolution.dependencies[name]? = some dep ∨
        resolution.optionalDependencies[name]? = some dep ∨
        resolution.peerDependencies[name]? = some dep →
      ∀ slot ∈ nearerSlots path name dep.target, ∀ p ∈ prior.packages, p.path = slot →
        Movable prior selected slot

variable (h : Spliced prior fresh selected result)

include h in
theorem mem_spliced (p : PackageEntry) :
    p ∈ result.packages ↔ (p ∈ prior.packages ∧ ¬Movable prior selected p.path) ∨
      (p ∈ fresh.packages ∧ Movable fresh selected p.path) := by
  rw [h.packages.mem_iff]
  simp [mem_lockClosure]

variable (hprior : prior.validateV2 = .ok ()) (hfresh : fresh.validateV2 = .ok ())

include h hfresh in
theorem hasPath_spliced (path : Str) : result.hasPath path = true ↔
    (∃ p ∈ prior.packages, p.path = path ∧ ¬Movable prior selected path) ∨
      Movable fresh selected path := by
  rw [hasPath_iff]
  constructor
  · rintro ⟨p, hp, rfl⟩
    rcases (mem_spliced h p).mp hp with ⟨hp, hkept⟩ | ⟨_, hmoved⟩
    · exact Or.inl ⟨p, hp, rfl, hkept⟩
    · exact Or.inr hmoved
  · rintro (⟨p, hp, rfl, hkept⟩ | hmoved)
    · exact ⟨p, (mem_spliced h p).mpr (Or.inl ⟨hp, hkept⟩), rfl⟩
    · obtain ⟨p, hp, rfl⟩ := hmoved.listed hfresh
      exact ⟨p, (mem_spliced h p).mpr (Or.inr ⟨hp, hmoved⟩), rfl⟩

include h hprior hfresh in
theorem nodup_spliced_iff : (result.packages.map (·.path)).Nodup ↔ Apart prior fresh selected := by
  rw [(h.packages.map _).nodup_iff, List.map_append, List.nodup_append]
  have hkept := (nodup_of_validateV2 hprior).sublist
    ((List.filter_sublist (p := fun p : PackageEntry =>
      p.path ∉ lockClosure prior (selectedRootPaths prior selected))).map (·.path))
  have hmoved := (nodup_of_validateV2 hfresh).sublist
    ((List.filter_sublist (p := fun p : PackageEntry =>
      p.path ∈ lockClosure fresh (selectedRootPaths fresh selected))).map (·.path))
  simp only [hkept, hmoved, true_and, List.mem_map, List.mem_filter, decide_eq_true_eq,
    mem_lockClosure]
  constructor
  · intro hdisjoint p hp hstays hmovable
    obtain ⟨q, hq, hpath⟩ := hmovable.listed hfresh
    exact hdisjoint p.path ⟨p, ⟨hp, hstays⟩, rfl⟩ p.path ⟨q, ⟨hq, hpath ▸ hmovable⟩, hpath⟩ rfl
  · rintro hapart _ ⟨p, ⟨hp, hstays⟩, rfl⟩ _ ⟨q, ⟨_, hmovable⟩, rfl⟩ heq
    exact hapart p hp hstays (heq ▸ hmovable)

include hprior in
theorem listed_of_resolution {path : Str} {resolution : PackageResolution}
    (hget : prior.resolution.packages[path]? = some resolution) :
    ∃ p ∈ prior.packages, p.path = path := by
  obtain ⟨p, hp, _⟩ := checkResolution_ok_iff.mp (checkResolution_of_validateV2 hprior hget)
  exact ⟨p, listed_of_packageAt hp⟩

include hprior in
theorem checkRegistryName_of_validateV2 {path name : Str}
    (hget : prior.resolution.registryNames[path]? = some name) :
    prior.checkRegistryName (path, name) = .ok () :=
  (validateV2_ok_iff.mp hprior).2.1 _ (Map.mem_toList.mpr hget)

include hprior in
theorem listed_of_registryName {path name : Str}
    (hget : prior.resolution.registryNames[path]? = some name) :
    ∃ p ∈ prior.packages, p.path = path := by
  have hcheck := checkRegistryName_of_validateV2 hprior hget
  unfold Lockfile.checkRegistryName at hcheck
  cases hp : prior.packageAt path with
  | none => simp [hp] at hcheck
  | some p => exact ⟨p, listed_of_packageAt hp⟩

/-- The metadata of a spliced lockfile, entry by entry. -/
theorem get_spliced_iff {α : Type} {old new entries : Map α}
    (hentries : entries = splice (lockClosure prior (selectedRootPaths prior selected))
      (lockClosure fresh (selectedRootPaths fresh selected)) old new)
    (hlisted : ∀ path value, old[path]? = some value → ∃ p ∈ prior.packages, p.path = path)
    (hapart : Apart prior fresh selected) {path : Str} {value : α} :
    entries[path]? = some value ↔
      (Movable fresh selected path ∧ new[path]? = some value) ∨
        (¬Movable prior selected path ∧ old[path]? = some value) := by
  have hstays : ∀ path value, old[path]? = some value → ¬Movable prior selected path →
      ¬Movable fresh selected path := by
    intro path value hget hkept
    obtain ⟨p, hp, rfl⟩ := hlisted path value hget
    exact hapart p hp hkept
  rw [hentries, get_splice_of_apart]
  · by_cases hmoved : Movable fresh selected path
    · rw [if_pos ((mem_lockClosure ..).mpr hmoved)]
      simp only [hmoved, true_and, iff_self_or]
      exact fun ⟨hkept, hget⟩ => absurd hmoved (hstays path value hget hkept)
    · rw [if_neg (mt (mem_lockClosure ..).mp hmoved)]
      by_cases hgone : Movable prior selected path
      · simp [hmoved, hgone, (mem_lockClosure ..).mpr hgone]
      · simp [hmoved, hgone, mt (mem_lockClosure ..).mp hgone]
  · intro path value hget
    rw [mem_lockClosure, mem_lockClosure]
    exact hstays path value hget

include h hprior in
theorem resolution_spliced_iff (hapart : Apart prior fresh selected) {path : Str}
    {resolution : PackageResolution} :
    result.resolution.packages[path]? = some resolution ↔
      (Movable fresh selected path ∧ fresh.resolution.packages[path]? = some resolution) ∨
        (¬Movable prior selected path ∧ prior.resolution.packages[path]? = some resolution) :=
  get_spliced_iff h.resolution (fun _ _ => listed_of_resolution hprior) hapart

include h hprior in
theorem registryNames_spliced_iff (hapart : Apart prior fresh selected) {path name : Str} :
    result.resolution.registryNames[path]? = some name ↔
      (Movable fresh selected path ∧ fresh.resolution.registryNames[path]? = some name) ∨
        (¬Movable prior selected path ∧ prior.resolution.registryNames[path]? = some name) :=
  get_spliced_iff h.registryNames (fun _ _ => listed_of_registryName hprior) hapart

section ApartPaths

variable (hapart : Apart prior fresh selected)

include h hprior hfresh hapart

theorem packageAt_kept {path : Str} (hkept : ¬Movable prior selected path) {p : PackageEntry}
    (hp : prior.packageAt path = some p) : result.packageAt path = some p := by
  obtain ⟨hmem, rfl⟩ := listed_of_packageAt hp
  refine (packageAt_eq_some_iff ((nodup_spliced_iff h hprior hfresh).mpr hapart)).mpr ⟨?_, rfl⟩
  exact (mem_spliced h p).mpr (Or.inl ⟨hmem, hkept⟩)

theorem packageAt_moved {path : Str} (hmoved : Movable fresh selected path) {p : PackageEntry}
    (hp : fresh.packageAt path = some p) : result.packageAt path = some p := by
  obtain ⟨hmem, rfl⟩ := listed_of_packageAt hp
  refine (packageAt_eq_some_iff ((nodup_spliced_iff h hprior hfresh).mpr hapart)).mpr ⟨?_, rfl⟩
  exact (mem_spliced h p).mpr (Or.inr ⟨hmem, hmoved⟩)

theorem checkPaths_spliced : checkPaths none result.packages = .ok () := by
  refine (Lockfile.checkPaths_sorted_iff h.sorted
    ((nodup_spliced_iff h hprior hfresh).mpr hapart)).mpr ?_
  intro p hp
  rcases (mem_spliced h p).mp hp with ⟨hp, _⟩ | ⟨hp, _⟩
  · exact legal_of_validateV2 hprior hp
  · exact legal_of_validateV2 hfresh hp

end ApartPaths

theorem checkRegistryName_of_packageAt {lock lock' : Lockfile} {path name : Str}
    (hcheck : lock.checkRegistryName (path, name) = .ok ())
    (hpackage : ∀ p, lock.packageAt path = some p → lock'.packageAt path = some p) :
    lock'.checkRegistryName (path, name) = .ok () := by
  unfold Lockfile.checkRegistryName at hcheck ⊢
  cases hp : lock.packageAt path with
  | none => simp [hp] at hcheck
  | some p =>
    rw [hp] at hcheck
    rw [hpackage p hp]
    exact hcheck

theorem checkResolution_of_packageAt {lock lock' : Lockfile} {path : Str}
    {resolution : PackageResolution} (hcheck : lock.checkResolution (path, resolution) = .ok ())
    (hpackage : ∀ p, lock.packageAt path = some p → lock'.packageAt path = some p)
    (htargets : ∀ target ∈ recordedTargets resolution, lock'.hasPath target = true) :
    lock'.checkResolution (path, resolution) = .ok () := by
  obtain ⟨p, hp, hsource, _⟩ := checkResolution_ok_iff.mp hcheck
  exact checkResolution_ok_iff.mpr ⟨p, hpackage p hp, hsource, htargets⟩

include h hprior hfresh in
/-- When the spliced lockfile is valid. -/
theorem validateV2_spliced_iff :
    result.validateV2 = .ok () ↔ Apart prior fresh selected ∧ Served prior fresh selected := by
  constructor
  · intro hvalid
    have hapart := (nodup_spliced_iff h hprior hfresh).mp (nodup_of_validateV2 hvalid)
    refine ⟨hapart, ?_⟩
    intro path resolution hget hkept target htarget hgone
    have hgets := (resolution_spliced_iff h hprior hapart).mpr (Or.inr ⟨hkept, hget⟩)
    obtain ⟨_, _, _, htargets⟩ :=
      checkResolution_ok_iff.mp (checkResolution_of_validateV2 hvalid hgets)
    rcases (hasPath_spliced h hfresh target).mp (htargets target htarget) with
      ⟨_, _, _, hstays⟩ | hmoved
    · exact absurd hgone hstays
    · exact hmoved
  · rintro ⟨hapart, hserved⟩
    refine validateV2_ok_iff.mpr ⟨checkPaths_spliced h hprior hfresh hapart, ?_, ?_⟩
    · rintro ⟨path, name⟩ hentry
      rcases (registryNames_spliced_iff h hprior hapart).mp (Map.mem_toList.mp hentry) with ⟨hmoved, hget⟩ | ⟨hkept, hget⟩
      · exact checkRegistryName_of_packageAt (checkRegistryName_of_validateV2 hfresh hget)
          fun p => packageAt_moved h hprior hfresh hapart hmoved
      · exact checkRegistryName_of_packageAt (checkRegistryName_of_validateV2 hprior hget)
          fun p => packageAt_kept h hprior hfresh hapart hkept
    · rintro ⟨path, resolution⟩ hentry
      rcases (resolution_spliced_iff h hprior hapart).mp (Map.mem_toList.mp hentry) with ⟨hmoved, hget⟩ | ⟨hkept, hget⟩
      · refine checkResolution_of_packageAt (checkResolution_of_validateV2 hfresh hget)
          (fun p => packageAt_moved h hprior hfresh hapart hmoved) ?_
        intro target htarget
        exact (hasPath_spliced h hfresh target).mpr (Or.inr (hmoved.step hfresh hget htarget))
      · have hcheck := checkResolution_of_validateV2 hprior hget
        refine checkResolution_of_packageAt hcheck
          (fun p => packageAt_kept h hprior hfresh hapart hkept) ?_
        intro target htarget
        rw [hasPath_spliced h hfresh]
        by_cases hgone : Movable prior selected target
        · exact Or.inr (hserved path resolution hget hkept target htarget hgone)
        · obtain ⟨_, _, _, htargets⟩ := checkResolution_ok_iff.mp hcheck
          obtain ⟨p, hp, hpath⟩ := hasPath_iff.mp (htargets target htarget)
          exact Or.inl ⟨p, hp, hpath, hgone⟩

/-! ### Lookups -/

theorem nodeLookup_eq_some_iff {lock : Lockfile} {owner name target : Str} :
    lock.nodeLookup owner name = some target ↔
      target ∈ lookupPaths owner name ∧ lock.hasPath target = true ∧
        ∀ slot ∈ nearerSlots owner name target, lock.hasPath slot = false := by
  constructor
  · intro hfind
    exact ⟨List.mem_of_find?_eq_some hfind, List.find?_some hfind, takeWhile_of_find hfind⟩
  · rintro ⟨hmem, htarget, hbefore⟩
    exact find_eq_of_takeWhile hmem htarget hbefore

include h hfresh in
theorem nodeLookup_kept_iff {owner name target : Str}
    (hlookup : prior.nodeLookup owner name = some target) (htarget : result.hasPath target = true) :
    result.nodeLookup owner name = some target ↔
      ∀ slot ∈ nearerSlots owner name target, ¬Movable fresh selected slot := by
  obtain ⟨hmem, _, hbefore⟩ := nodeLookup_eq_some_iff.mp hlookup
  rw [nodeLookup_eq_some_iff]
  simp only [hmem, htarget, true_and]
  refine forall₂_congr fun slot hslot => ?_
  rw [← Bool.not_eq_true, hasPath_spliced h hfresh, not_or, and_iff_right_iff_imp]
  rintro _ ⟨p, hp, hpath, _⟩
  have hfree := hbefore slot hslot
  rw [hasPath_iff.mpr ⟨p, hp, hpath⟩] at hfree
  cases hfree

include h hfresh in
theorem nodeLookup_moved_iff {owner name target : Str}
    (hlookup : fresh.nodeLookup owner name = some target) (htarget : result.hasPath target = true) :
    result.nodeLookup owner name = some target ↔
      ∀ slot ∈ nearerSlots owner name target, ∀ p ∈ prior.packages, p.path = slot →
        Movable prior selected slot := by
  obtain ⟨hmem, _, hbefore⟩ := nodeLookup_eq_some_iff.mp hlookup
  rw [nodeLookup_eq_some_iff]
  simp only [hmem, htarget, true_and]
  refine forall₂_congr fun slot hslot => ?_
  have hfree : ¬Movable fresh selected slot := by
    intro hmoved
    have hlisted := hasPath_iff.mpr (hmoved.listed hfresh)
    rw [hbefore slot hslot] at hlisted
    cases hlisted
  rw [← Bool.not_eq_true, hasPath_spliced h hfresh]
  simp only [hfree, or_false, not_exists, not_and, not_not]

/-- The targets that a resolution records by name are among all it records. -/
theorem target_mem_recordedTargets {resolution : PackageResolution} {name : Str}
    {dep : LockDependency}
    (hdep : resolution.dependencies[name]? = some dep ∨
      resolution.optionalDependencies[name]? = some dep ∨
      resolution.peerDependencies[name]? = some dep) :
    dep.target ∈ recordedTargets resolution := by
  simp only [recordedTargets, List.mem_append, List.mem_map, Map.mem_valuesOf]
  rcases hdep with hdep | hdep | hdep
  · exact Or.inl (Or.inl (Or.inl ⟨dep, ⟨name, hdep⟩, rfl⟩))
  · exact Or.inl (Or.inl (Or.inr ⟨dep, ⟨name, hdep⟩, rfl⟩))
  · exact Or.inl (Or.inr ⟨dep, ⟨name, hdep⟩, rfl⟩)

include h hprior hfresh in
/-- When the targets of a valid spliced lockfile are what Node.js finds. -/
theorem lookupsAgree_spliced_iff (hvalid : result.validateV2 = .ok ())
    (hlookups : prior.LookupsAgree) (hlookups' : fresh.LookupsAgree) :
    result.LookupsAgree ↔
      KeptInSight prior fresh selected ∧ MovedInSight prior fresh selected := by
  have hapart := ((validateV2_spliced_iff h hprior hfresh).mp hvalid).1
  have htargets : ∀ {path : Str} {resolution : PackageResolution},
      result.resolution.packages[path]? = some resolution →
      ∀ {name : Str} {dep : LockDependency}, resolution.dependencies[name]? = some dep ∨
        resolution.optionalDependencies[name]? = some dep ∨
        resolution.peerDependencies[name]? = some dep → result.hasPath dep.target = true := by
    intro path resolution hresolution name dep hdep
    obtain ⟨_, _, _, hlisted⟩ :=
      checkResolution_ok_iff.mp (checkResolution_of_validateV2 hvalid hresolution)
    exact hlisted _ (target_mem_recordedTargets hdep)
  constructor
  · intro hagree
    constructor
    · intro path resolution hold hkept name dep hdep
      have hresult := (resolution_spliced_iff h hprior hapart).mpr (Or.inr ⟨hkept, hold⟩)
      exact (nodeLookup_kept_iff h hfresh (hlookups path resolution hold name dep hdep)
        (htargets hresult hdep)).mp (hagree path resolution hresult name dep hdep)
    · intro path resolution hnew hmoved name dep hdep
      have hresult := (resolution_spliced_iff h hprior hapart).mpr (Or.inl ⟨hmoved, hnew⟩)
      exact (nodeLookup_moved_iff h hfresh (hlookups' path resolution hnew name dep hdep)
        (htargets hresult hdep)).mp (hagree path resolution hresult name dep hdep)
  · rintro ⟨hkeptInSight, hmovedInSight⟩ path resolution hresult name dep hdep
    rcases (resolution_spliced_iff h hprior hapart).mp hresult with ⟨hmoved, hnew⟩ | ⟨hkept, hold⟩
    · exact (nodeLookup_moved_iff h hfresh (hlookups' path resolution hnew name dep hdep)
        (htargets hresult hdep)).mpr (hmovedInSight path resolution hnew hmoved name dep hdep)
    · exact (nodeLookup_kept_iff h hfresh (hlookups path resolution hold name dep hdep)
        (htargets hresult hdep)).mpr (hkeptInSight path resolution hold hkept name dep hdep)

end Result

/-- The splice is consistent exactly when the two closures and what stays keep out of each
other's way. -/
theorem selectiveUpgradeLock_consistent_iff {prior fresh result : Lockfile} {selected : List Str}
    (hprior : prior.validateV2 = .ok ()) (hfresh : fresh.validateV2 = .ok ())
    (hlookups : prior.LookupsAgree) (hlookups' : fresh.LookupsAgree)
    (hok : selectiveUpgradeLock prior fresh selected = .ok result) :
    Consistent prior fresh selected result ↔
      Apart prior fresh selected ∧ Served prior fresh selected ∧
        KeptInSight prior fresh selected ∧ MovedInSight prior fresh selected := by
  have h := spliced_of_ok hok
  constructor
  · rintro ⟨hvalid, hagree, _, _⟩
    obtain ⟨hapart, hserved⟩ := (validateV2_spliced_iff h hprior hfresh).mp hvalid
    exact ⟨hapart, hserved,
      (lookupsAgree_spliced_iff h hprior hfresh hvalid hlookups hlookups').mp hagree⟩
  · rintro ⟨hapart, hserved, hsight⟩
    have hvalid := (validateV2_spliced_iff h hprior hfresh).mpr ⟨hapart, hserved⟩
    refine ⟨hvalid, (lookupsAgree_spliced_iff h hprior hfresh hvalid hlookups hlookups').mpr hsight,
      ?_, ?_⟩
    · intro p hp hroot
      have hat := (packageAt_eq_some_iff (nodup_of_validateV2 hfresh)).mpr ⟨hp, rfl⟩
      rw [packageAt_moved h hprior hfresh hapart ⟨p.path, hroot, .refl⟩ hat]
      rfl
    · intro p hp hkept
      have hat := (packageAt_eq_some_iff (nodup_of_validateV2 hprior)).mpr ⟨hp, rfl⟩
      have hstays := hapart p hp hkept
      refine ⟨packageAt_kept h hprior hfresh hapart hkept hat, ?_, ?_⟩
      · ext resolution
        rw [resolution_spliced_iff h hprior hapart]
        simp [hstays, hkept]
      · ext name
        rw [registryNames_spliced_iff h hprior hapart]
        simp [hstays, hkept]

/-! ## A shared dependency -/

/-- Lookups can be checked over the listed resolutions. -/
theorem lookupsAgree_iff {lock : Lockfile} :
    lock.LookupsAgree ↔ ∀ entry ∈ lock.resolution.packages.toList,
      ∀ dep ∈ entry.2.dependencies.toList ++ entry.2.optionalDependencies.toList ++
        entry.2.peerDependencies.toList,
        lock.nodeLookup entry.1 dep.1 = some dep.2.target := by
  constructor
  · rintro hagree ⟨path, resolution⟩ hentry ⟨name, dep⟩ hdep
    simp only [List.mem_append, Map.mem_toList, or_assoc] at hdep
    exact hagree path resolution (Map.mem_toList.mp hentry) name dep hdep
  · intro hall path resolution hget name dep hdep
    refine hall (path, resolution) (Map.mem_toList.mpr hget) (name, dep) ?_
    simpa only [List.mem_append, Map.mem_toList, or_assoc] using hdep

instance (lock : Lockfile) : Decidable lock.LookupsAgree :=
  decidable_of_iff' _ lookupsAgree_iff

/-- A registry package at the root. -/
def rootPackage (name version : Str) : PackageEntry :=
  ⟨rootDir ++ name, name, version, lit "https://r/t.tgz", none, some (lit "sha512-AA=="), false,
    false, false, [], [], ∅, ∅⟩

/-- Its resolution, with dependencies at the root. -/
def rootResolution (dependencies : List Str) : PackageResolution :=
  ⟨.registry (lit "https://r/"), false, false, [],
    .ofList (dependencies.map fun name => (name, LockDependency.mk (lit "^1") (rootDir ++ name))), ∅, ∅, ∅, ∅, none,
    false⟩

/-- A lockfile of packages at the root with their dependencies. -/
def rootLock (packages : List (Str × Str × List Str)) : Lockfile :=
  { Lockfile.new (lit "bpm") with
    packages := packages.map fun p => rootPackage p.1 p.2.1
    resolution := { ResolutionMetadata.default with
      packages := .ofList (packages.map fun p => (rootDir ++ p.1, rootResolution p.2.2)) } }

/-- `a` and `b` share `c`. -/
def sharedLock : Lockfile :=
  rootLock [(['a'], lit "1.0.0", [['c']]), (['b'], lit "1.0.0", [['c']]), (['c'], lit "1.0.0", [])]

/-- The new `a` still needs `c`, and finds a new one. -/
def bumpedLock : Lockfile :=
  rootLock [(['a'], lit "1.1.0", [['c']]), (['b'], lit "1.0.0", [['c']]), (['c'], lit "1.1.0", [])]

/-- The new `a` needs nothing. -/
def freedLock : Lockfile :=
  rootLock [(['a'], lit "1.1.0", []), (['b'], lit "1.0.0", [['c']]), (['c'], lit "1.0.0", [])]

theorem selectiveUpgradeLock_consistent_iff_bumped :
    ∃ result, selectiveUpgradeLock sharedLock bumpedLock [['a']] = .ok result ∧
      (Consistent sharedLock bumpedLock [['a']] result ↔
        Apart sharedLock bumpedLock [['a']] ∧ Served sharedLock bumpedLock [['a']] ∧
          KeptInSight sharedLock bumpedLock [['a']] ∧ MovedInSight sharedLock bumpedLock [['a']]) :=
  ⟨_, rfl, selectiveUpgradeLock_consistent_iff (by decide) (by decide)
    (by decide) (by decide) rfl⟩

/-- `c` goes with the old `a`, and `b` is left with a target that is not there. -/
theorem selectiveUpgradeLock_inconsistent :
    ¬ ∀ (prior fresh result : Lockfile) (selected : List Str), selected ≠ [] →
      prior.validateV2 = .ok () → fresh.validateV2 = .ok () →
      prior.LookupsAgree → fresh.LookupsAgree →
      selectiveUpgradeLock prior fresh selected = .ok result →
      Consistent prior fresh selected result := by
  intro hall
  have hconsistent := hall sharedLock freedLock _ [['a']] nofun (by decide)
    (by decide) (by decide) (by decide) rfl
  have hinvalid := hconsistent.valid
  revert hinvalid
  decide +kernel

end Upgrade
end Bpm
