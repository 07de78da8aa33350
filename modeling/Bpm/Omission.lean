import Bpm.Upgrade

/-!
# Installing without dev packages

A production install works on a projection of the lockfile: the packages that are
not marked dev, and with them every package that one of the retained ones needs at
run time.  The metadata of what is left out goes with it, and so do the optional
peers of retained packages that lead to something left out.
-/

namespace Bpm

open Text Relation Upgrade

namespace Omission

/-! ## The projection -/

def allPaths (lock : Lockfile) : List Str := lock.packages.map (·.path)

/-- A package with its containing packages, nearest first. -/
def ownersAux : Nat → Str → List Str
  | 0, path => [path]
  | fuel + 1, path =>
      path :: match rsplitOnce nestSep path with
        | some parts => ownersAux fuel parts.1
        | none => []

def owners (path : Str) : List Str := ownersAux path.length path

/-- The slots that the Node.js lookup of `name` visits from a package, in order. -/
def slots (path name : Str) : List Str :=
  (owners path).map (· ++ nestSep ++ name) ++ [rootDir ++ name]

def nodeStyleDependencyTarget (path name : Str) (placed : List Str) : Option Str :=
  (slots path name).find? (placed.contains ·)

/-- The names whose targets the resolver recorded. -/
def metadataNames (metadata : PackageResolution) : List Str :=
  metadata.dependencies.keys ++ metadata.optionalDependencies.keys ++
    metadata.peerDependencies.keys

/-- The recorded targets, without those of optional peers. -/
def metadataTargets (metadata : PackageResolution) : List Str :=
  (Map.valuesOf metadata.dependencies).map (·.target) ++
    (Map.valuesOf metadata.optionalDependencies).map (·.target) ++
    (metadata.peerDependencies.toList.filter fun entry =>
      !metadata.optionalPeers.contains entry.1).map (·.2.target) ++
    (metadata.peerContext.toList.filter fun entry =>
      !metadata.optionalPeers.contains entry.1).map (·.2.path)

/-- Every target that must survive for a package. -/
def runtimeDependencyTargets (lock : Lockfile) (package : PackageEntry) : List Str :=
  let metadata := lock.resolution.packages[package.path]?
  let names := (metadata.map metadataNames).getD []
  (metadata.map metadataTargets).getD [] ++
    (package.dependencies.keys.filter (!names.contains ·)).filterMap fun name =>
      nodeStyleDependencyTarget package.path name (allPaths lock)

/-- The package at a path; the last one counts. -/
def packageByPath (lock : Lockfile) (path : Str) : Option PackageEntry :=
  lock.packages.reverse.find? (·.path == path)

/-- The targets of the package at a path that are packages themselves. -/
def nextPaths (lock : Lockfile) (path : Str) : List Str :=
  match packageByPath lock path with
  | none => []
  | some package => (runtimeDependencyTargets lock package).filter ((allPaths lock).contains ·)

def productionPaths (lock : Lockfile) : List Str :=
  (lock.packages.filter (!·.dev)).map (·.path)

def retained (lock : Lockfile) (path : Str) : Bool :=
  (Worklist.close (nextPaths lock) (allPaths lock) (productionPaths lock)).contains path

/-- Forget one optional peer whose target or provider is left out. -/
def pruneOptionalPeer (keep : Str → Bool) (metadata : PackageResolution) (name : Str) :
    PackageResolution :=
  let peers :=
    if (metadata.peerDependencies[name]?).any (!keep ·.target) then
      metadata.peerDependencies.erase name
    else metadata.peerDependencies
  let context :=
    if (metadata.peerContext[name]?).any (!keep ·.path) then metadata.peerContext.erase name
    else metadata.peerContext
  { metadata with
    peerDependencies := peers
    peerContext := context
    optionalPeers :=
      if !peers.contains name && !context.contains name then metadata.optionalPeers.erase name
      else metadata.optionalPeers }

def pruneOmittedOptionalPeerMetadata (keep : Str → Bool) (metadata : PackageResolution) :
    PackageResolution :=
  metadata.optionalPeers.keys.foldl (pruneOptionalPeer keep) metadata

/-- A lockfile without the packages at the paths that are not kept. -/
def restrict (keep : Str → Bool) (lock : Lockfile) : Lockfile :=
  Lockfile.sortPackages
    { lock with
      packages := lock.packages.filter (keep ·.path)
      resolution := { lock.resolution with
        packages := (lock.resolution.packages.filter fun path _ => keep path).map
          fun _ metadata => pruneOmittedOptionalPeerMetadata keep metadata
        registryNames := lock.resolution.registryNames.filter fun path _ => keep path } }

def projectLockfileOmittingDev (authoritative : Lockfile) : Lockfile :=
  restrict (retained authoritative) authoritative

/-! ## The Node.js lookup -/

theorem rsplitOnce_nestSep_length {path : Str} {parts : Str × Str}
    (h : rsplitOnce nestSep path = some parts) : parts.1.length < path.length :=
  rsplitOnce_length_lt nestSep_ne_nil h

theorem ownersAux_eq {fuel : Nat} {path : Str} (h : path.length ≤ fuel) :
    ownersAux fuel path = owners path := by
  induction fuel using Nat.strong_induction_on generalizing path with
  | _ fuel ih =>
      unfold owners
      cases hsplit : rsplitOnce nestSep path with
      | none => cases fuel <;> cases path.length <;> simp [ownersAux, hsplit]
      | some parts =>
          have hlt := rsplitOnce_nestSep_length hsplit
          obtain ⟨n, hn⟩ : ∃ n, path.length = n + 1 := ⟨path.length - 1, by omega⟩
          obtain ⟨fuel, rfl⟩ : ∃ f, fuel = f + 1 := ⟨fuel - 1, by omega⟩
          rw [hn, ownersAux, ownersAux, hsplit]
          dsimp only
          rw [ih fuel (by omega) (by omega)]
          rcases Nat.lt_or_ge n (fuel + 1) with hlt' | hge
          · rw [ih n hlt' (by omega)]
          · rw [show n = fuel by omega, ih fuel (by omega) (by omega)]

/-- From a relative path the packages around it are those of the resolver's lookup. -/
theorem owners_eq_enclosing {path : Str} (hne : path ≠ []) (hrel : path.head? ≠ some '/') :
    owners path = enclosing path := by
  induction hlength : path.length using Nat.strong_induction_on generalizing path with
  | _ n ih =>
      subst hlength
      rw [enclosing_of_ne_nil hne]
      obtain ⟨n, hn⟩ : ∃ n, path.length = n + 1 :=
        ⟨path.length - 1, by have := List.length_pos_iff.mpr hne; omega⟩
      unfold owners
      rw [hn, ownersAux]
      cases hsplit : rsplitOnce nestSep path with
      | none => simp [parentPath, hsplit]
      | some parts =>
          have hlt := rsplitOnce_nestSep_length hsplit
          have happend := rsplitOnce_eq_append hsplit
          have hparent : parts.1 ≠ [] := by
            intro hnil
            rw [hnil] at happend
            rw [happend] at hrel
            simp [nestSep] at hrel
          have hhead : parts.1.head? ≠ some '/' := by
            obtain ⟨c, cs, hcs⟩ := List.exists_cons_of_ne_nil hparent
            rw [happend, hcs] at hrel
            rw [hcs]
            exact hrel
          dsimp only
          rw [ownersAux_eq (by omega), ih parts.1.length hlt hparent hhead rfl]
          simp [parentPath, hsplit]

theorem ne_nil_of_mem_enclosing {path dir : Str} (h : dir ∈ enclosing path) : dir ≠ [] := by
  unfold enclosing at h
  generalize path.length + 1 = fuel at h
  induction fuel generalizing path with
  | zero => cases h
  | succ fuel ih =>
      rw [enclosingAux] at h
      by_cases hpath : path = []
      · simp [hpath] at h
      · rcases List.mem_cons.mp (by simpa [hpath] using h) with rfl | hin
        · exact hpath
        · exact ih hin

/-- The targets that are looked up are those that Node.js finds. -/
theorem nodeStyleDependencyTarget_eq {lock : Lockfile} {path : Str} (name : Str) (hne : path ≠ [])
    (hrel : path.head? ≠ some '/') :
    nodeStyleDependencyTarget path name (allPaths lock) = lock.nodeLookup path name := by
  have hslots : slots path name = lookupPaths path name := by
    unfold slots lookupPaths lookupDirs
    rw [owners_eq_enclosing hne hrel, List.map_append]
    congr 1
    refine List.map_congr_left fun dir hdir => ?_
    simp [childPath, ne_nil_of_mem_enclosing hdir]
  unfold nodeStyleDependencyTarget Lockfile.nodeLookup
  rw [hslots]
  congr 1
  funext slot
  rw [Bool.eq_iff_iff]
  simp [allPaths]

/-! ## What a package needs -/

/-- A target that a package needs at run time. -/
inductive RuntimeTarget (lock : Lockfile) (package : PackageEntry) : Str → Prop
  | dependency {metadata : PackageResolution} {name : Str} {dep : LockDependency}
      (hmetadata : lock.resolution.packages[package.path]? = some metadata)
      (hdep : metadata.dependencies[name]? = some dep) : RuntimeTarget lock package dep.target
  | optional {metadata : PackageResolution} {name : Str} {dep : LockDependency}
      (hmetadata : lock.resolution.packages[package.path]? = some metadata)
      (hdep : metadata.optionalDependencies[name]? = some dep) :
      RuntimeTarget lock package dep.target
  | requiredPeer {metadata : PackageResolution} {name : Str} {dep : LockDependency}
      (hmetadata : lock.resolution.packages[package.path]? = some metadata)
      (hdep : metadata.peerDependencies[name]? = some dep)
      (hrequired : metadata.optionalPeers.contains name = false) :
      RuntimeTarget lock package dep.target
  | provider {metadata : PackageResolution} {name : Str} {provider : PeerProvider}
      (hmetadata : lock.resolution.packages[package.path]? = some metadata)
      (hprovider : metadata.peerContext[name]? = some provider)
      (hrequired : metadata.optionalPeers.contains name = false) :
      RuntimeTarget lock package provider.path
  | lookup {name target : Str} (hname : package.dependencies.contains name = true)
      (hunrecorded : ∀ metadata, lock.resolution.packages[package.path]? = some metadata →
        name ∉ metadataNames metadata)
      (htarget : nodeStyleDependencyTarget package.path name (allPaths lock) = some target) :
      RuntimeTarget lock package target

theorem mem_metadataTargets {metadata : PackageResolution} {target : Str} :
    target ∈ metadataTargets metadata ↔
      (∃ (name : Str) (dep : LockDependency),
        metadata.dependencies[name]? = some dep ∧ dep.target = target) ∨
      (∃ (name : Str) (dep : LockDependency),
        metadata.optionalDependencies[name]? = some dep ∧ dep.target = target) ∨
      (∃ (name : Str) (dep : LockDependency), metadata.peerDependencies[name]? = some dep ∧
        metadata.optionalPeers.contains name = false ∧ dep.target = target) ∨
      ∃ (name : Str) (provider : PeerProvider), metadata.peerContext[name]? = some provider ∧
        metadata.optionalPeers.contains name = false ∧ provider.path = target := by
  simp only [metadataTargets, List.mem_append, List.mem_map, Map.mem_valuesOf, List.mem_filter,
    Prod.exists, Map.mem_toList, Bool.not_eq_true', or_assoc]
  constructor
  · rintro (⟨dep, ⟨name, hdep⟩, rfl⟩ | ⟨dep, ⟨name, hdep⟩, rfl⟩ | ⟨name, dep, ⟨hdep, hpeer⟩, rfl⟩ |
      ⟨name, provider, ⟨hprovider, hpeer⟩, rfl⟩)
    · exact Or.inl ⟨name, dep, hdep, rfl⟩
    · exact Or.inr (Or.inl ⟨name, dep, hdep, rfl⟩)
    · exact Or.inr (Or.inr (Or.inl ⟨name, dep, hdep, hpeer, rfl⟩))
    · exact Or.inr (Or.inr (Or.inr ⟨name, provider, hprovider, hpeer, rfl⟩))
  · rintro (⟨name, dep, hdep, rfl⟩ | ⟨name, dep, hdep, rfl⟩ | ⟨name, dep, hdep, hpeer, rfl⟩ |
      ⟨name, provider, hprovider, hpeer, rfl⟩)
    · exact Or.inl ⟨dep, ⟨name, hdep⟩, rfl⟩
    · exact Or.inr (Or.inl ⟨dep, ⟨name, hdep⟩, rfl⟩)
    · exact Or.inr (Or.inr (Or.inl ⟨name, dep, ⟨hdep, hpeer⟩, rfl⟩))
    · exact Or.inr (Or.inr (Or.inr ⟨name, provider, ⟨hprovider, hpeer⟩, rfl⟩))

/-- The targets that are computed are the targets that are needed. -/
theorem mem_runtimeDependencyTargets {lock : Lockfile} {package : PackageEntry} {target : Str} :
    target ∈ runtimeDependencyTargets lock package ↔ RuntimeTarget lock package target := by
  unfold runtimeDependencyTargets
  rw [List.mem_append, List.mem_filterMap]
  constructor
  · rintro (hrecorded | ⟨name, hname, htarget⟩)
    · cases hmetadata : lock.resolution.packages[package.path]? with
      | none => simp [hmetadata] at hrecorded
      | some metadata =>
          rw [hmetadata, Option.map_some, Option.getD_some, mem_metadataTargets] at hrecorded
          rcases hrecorded with ⟨name, dep, hdep, rfl⟩ | ⟨name, dep, hdep, rfl⟩ |
            ⟨name, dep, hdep, hpeer, rfl⟩ | ⟨name, provider, hprovider, hpeer, rfl⟩
          · exact .dependency hmetadata hdep
          · exact .optional hmetadata hdep
          · exact .requiredPeer hmetadata hdep hpeer
          · exact .provider hmetadata hprovider hpeer
    · rw [List.mem_filter] at hname
      refine .lookup (by simpa using hname.1) ?_ htarget
      intro metadata hmetadata
      simpa [hmetadata] using hname.2
  · intro htarget
    cases htarget with
    | dependency hmetadata hdep =>
        left
        rw [hmetadata, Option.map_some, Option.getD_some, mem_metadataTargets]
        exact Or.inl ⟨_, _, hdep, rfl⟩
    | optional hmetadata hdep =>
        left
        rw [hmetadata, Option.map_some, Option.getD_some, mem_metadataTargets]
        exact Or.inr (Or.inl ⟨_, _, hdep, rfl⟩)
    | requiredPeer hmetadata hdep hpeer =>
        left
        rw [hmetadata, Option.map_some, Option.getD_some, mem_metadataTargets]
        exact Or.inr (Or.inr (Or.inl ⟨_, _, hdep, hpeer, rfl⟩))
    | provider hmetadata hprovider hpeer =>
        left
        rw [hmetadata, Option.map_some, Option.getD_some, mem_metadataTargets]
        exact Or.inr (Or.inr (Or.inr ⟨_, _, hprovider, hpeer, rfl⟩))
    | lookup hname hunrecorded htarget =>
        right
        refine ⟨_, List.mem_filter.mpr ⟨by simpa using hname, ?_⟩, htarget⟩
        cases hmetadata : lock.resolution.packages[package.path]? with
        | none => simp
        | some metadata => simpa using hunrecorded metadata hmetadata

/-! ## What is retained -/

/-- Every package that is not marked dev lies at one of the paths. -/
def HoldsProduction (lock : Lockfile) (paths : Set Str) : Prop :=
  ∀ p ∈ lock.packages, p.dev = false → p.path ∈ paths

/-- The paths contain what their packages need, as far as the lockfile has it. -/
def ClosedUnderTargets (lock : Lockfile) (paths : Set Str) : Prop :=
  ∀ path ∈ paths, ∀ p, packageByPath lock path = some p → ∀ target,
    RuntimeTarget lock p target → target ∈ allPaths lock → target ∈ paths

theorem mem_allPaths {lock : Lockfile} {path : Str} :
    path ∈ allPaths lock ↔ ∃ p ∈ lock.packages, p.path = path := List.mem_map

theorem packageByPath_mem {lock : Lockfile} {path : Str} {p : PackageEntry}
    (h : packageByPath lock path = some p) : p ∈ lock.packages ∧ p.path = path := by
  refine ⟨List.mem_reverse.mp (List.mem_of_find?_eq_some h), ?_⟩
  simpa using List.find?_some h

theorem mem_nextPaths {lock : Lockfile} {path target : Str} :
    target ∈ nextPaths lock path ↔ ∃ p, packageByPath lock path = some p ∧
      RuntimeTarget lock p target ∧ target ∈ allPaths lock := by
  unfold nextPaths
  cases hfound : packageByPath lock path with
  | none => simp
  | some p => simp [mem_runtimeDependencyTargets]

/-- In reach of a package that is not marked dev. -/
def Needed (lock : Lockfile) (path : Str) : Prop :=
  ∃ root ∈ productionPaths lock, ReflTransGen (Worklist.Next (nextPaths lock)) root path

theorem retained_iff {lock : Lockfile} {path : Str} :
    retained lock path = true ↔ Needed lock path := by
  unfold retained
  rw [List.contains_iff_mem, Worklist.mem_close]
  · exact Iff.rfl
  · intro owner target htarget
    obtain ⟨_, _, _, hplaced⟩ := mem_nextPaths.mp htarget
    exact hplaced

theorem mem_productionPaths {lock : Lockfile} {path : Str} :
    path ∈ productionPaths lock ↔ ∃ p ∈ lock.packages, p.dev = false ∧ p.path = path := by
  simp [productionPaths, and_assoc]

theorem needed_mem_allPaths {lock : Lockfile} {path : Str} (h : Needed lock path) :
    path ∈ allPaths lock := by
  obtain ⟨root, hroot, hreach⟩ := h
  cases hreach with
  | refl =>
      obtain ⟨p, hp, _, hpath⟩ := mem_productionPaths.mp hroot
      exact mem_allPaths.mpr ⟨p, hp, hpath⟩
  | tail _ hstep =>
      obtain ⟨_, _, _, hplaced⟩ := mem_nextPaths.mp hstep
      exact hplaced

/-- The retained paths are the least ones that hold all production packages and
what they need. -/
theorem needed_isLeast {lock : Lockfile} :
    IsLeast {paths | HoldsProduction lock paths ∧ ClosedUnderTargets lock paths}
      {path | Needed lock path} := by
  refine ⟨⟨?_, ?_⟩, ?_⟩
  · intro p hp hdev
    exact ⟨p.path, mem_productionPaths.mpr ⟨p, hp, hdev, rfl⟩, .refl⟩
  · rintro path ⟨root, hroot, hreach⟩ p hfound target htarget hplaced
    have hnext : target ∈ nextPaths lock path :=
      mem_nextPaths.mpr ⟨p, hfound, htarget, hplaced⟩
    exact ⟨root, hroot, hreach.tail hnext⟩
  · rintro paths ⟨hholds, hclosed⟩ path ⟨root, hroot, hreach⟩
    induction hreach with
    | refl =>
        obtain ⟨p, hp, hdev, rfl⟩ := mem_productionPaths.mp hroot
        exact hholds p hp hdev
    | tail _ hstep ih =>
        obtain ⟨p, hfound, htarget, hplaced⟩ := mem_nextPaths.mp hstep
        exact hclosed _ ih p hfound _ htarget hplaced

/-! ## Optional peers of what is left out -/

section Prune

variable (keep : Str → Bool)

/-- A peer that leads to something left out. -/
def peerOmitted (metadata : PackageResolution) (name : Str) : Bool :=
  (metadata.peerDependencies[name]?).any (!keep ·.target)

def providerOmitted (metadata : PackageResolution) (name : Str) : Bool :=
  (metadata.peerContext[name]?).any (!keep ·.path)

/-- What is left of a package's record: an optional peer loses the target and the
provider that are left out, and is forgotten when it has neither any more. -/
structure Pruned (metadata metadata' : PackageResolution) : Prop where
  peers : ∀ name : Str, metadata'.peerDependencies[name]? =
    if metadata.optionalPeers.contains name && peerOmitted keep metadata name then none
    else metadata.peerDependencies[name]?
  providers : ∀ name : Str, metadata'.peerContext[name]? =
    if metadata.optionalPeers.contains name && providerOmitted keep metadata name then none
    else metadata.peerContext[name]?
  optionalPeers : ∀ name : Str, metadata'.optionalPeers.contains name =
    (metadata.optionalPeers.contains name &&
      (metadata'.peerDependencies.contains name || metadata'.peerContext.contains name))
  rest : { metadata' with
    peerDependencies := metadata.peerDependencies, peerContext := metadata.peerContext
    optionalPeers := metadata.optionalPeers } = metadata

variable {keep}

theorem getElem?_pruned_map {α : Type} (m : Map α) (omitted : Bool) (name other : Str) :
    (if omitted then m.erase name else m)[other]? =
      if (name == other) && omitted then none else m[other]? := by
  cases omitted with
  | false => simp
  | true =>
      by_cases h : name = other
      · simp [h]
      · simp [Std.ExtTreeMap.getElem?_erase, h]

theorem contains_forgotten {α : Type} (m : Map α) (hasPeer hasProvider : Bool) (name other : Str) :
    (if !hasPeer && !hasProvider then m.erase name else m).contains other =
      (m.contains other && (!(name == other) || hasPeer || hasProvider)) := by
  by_cases h : name = other
  · cases hasPeer <;> cases hasProvider <;> simp [h]
  · have hcompare : compare name other ≠ .eq := fun heq => h (Std.LawfulEqCmp.eq_of_compare heq)
    cases hasPeer <;> cases hasProvider <;>
      simp [Std.ExtTreeMap.contains_erase, h, bne, beq_eq_false_iff_ne.mpr hcompare]

/-- Forgetting the peers of some names. -/
structure PrunedAt (keep : Str → Bool) (names : List Str)
    (metadata metadata' : PackageResolution) : Prop where
  peers : ∀ name : Str, metadata'.peerDependencies[name]? =
    if names.contains name && peerOmitted keep metadata name then none
    else metadata.peerDependencies[name]?
  providers : ∀ name : Str, metadata'.peerContext[name]? =
    if names.contains name && providerOmitted keep metadata name then none
    else metadata.peerContext[name]?
  optionalPeers : ∀ name : Str, metadata'.optionalPeers.contains name =
    (metadata.optionalPeers.contains name && (!names.contains name ||
      metadata'.peerDependencies.contains name || metadata'.peerContext.contains name))
  rest : { metadata' with
    peerDependencies := metadata.peerDependencies, peerContext := metadata.peerContext
    optionalPeers := metadata.optionalPeers } = metadata

theorem prunedAt_step (metadata : PackageResolution) (name : Str) :
    PrunedAt keep [name] metadata (pruneOptionalPeer keep metadata name) where
  peers other := by
    refine (getElem?_pruned_map _ _ name other).trans ?_
    by_cases h : name = other
    · subst h
      simp [peerOmitted]
    · simp [h, Ne.symm h]
  providers other := by
    refine (getElem?_pruned_map _ _ name other).trans ?_
    by_cases h : name = other
    · subst h
      simp [providerOmitted]
    · simp [h, Ne.symm h]
  optionalPeers other := by
    refine (contains_forgotten metadata.optionalPeers _ _ name other).trans ?_
    by_cases h : name = other
    · subst h
      simp [pruneOptionalPeer]
    · simp [h, Ne.symm h]
  rest := rfl

theorem PrunedAt.nil (metadata : PackageResolution) : PrunedAt keep [] metadata metadata where
  peers _ := by simp
  providers _ := by simp
  optionalPeers _ := by simp
  rest := rfl

/-- One name, then the others. -/
theorem PrunedAt.cons {name : Str} {names : List Str} {m₀ m₁ m₂ : PackageResolution}
    (hname : name ∉ names) (hfirst : PrunedAt keep [name] m₀ m₁)
    (hrest : PrunedAt keep names m₁ m₂) : PrunedAt keep (name :: names) m₀ m₂ := by
  -- A name that comes later was not touched by the first step.
  have hother : ∀ other ∈ names, (other == name) = false := by
    intro other hin
    rw [beq_eq_false_iff_ne]
    rintro rfl
    exact hname hin
  have hpeers : ∀ other : Str, m₂.peerDependencies[other]? =
      if (name :: names).contains other && peerOmitted keep m₀ other then none
      else m₀.peerDependencies[other]? := by
    intro other
    have hfirst := hfirst.peers other
    rw [hrest.peers other]
    by_cases hin : other ∈ names
    · have hne := hother other hin
      have hsame : peerOmitted keep m₁ other = peerOmitted keep m₀ other := by
        unfold peerOmitted
        rw [hfirst]
        simp [beq_eq_false_iff_ne.mp hne]
      rw [hsame, hfirst]
      simp [hin, beq_eq_false_iff_ne.mp hne]
    · rw [hfirst]
      simp [hin]
  have hproviders : ∀ other : Str, m₂.peerContext[other]? =
      if (name :: names).contains other && providerOmitted keep m₀ other then none
      else m₀.peerContext[other]? := by
    intro other
    have hfirst := hfirst.providers other
    rw [hrest.providers other]
    by_cases hin : other ∈ names
    · have hne := hother other hin
      have hsame : providerOmitted keep m₁ other = providerOmitted keep m₀ other := by
        unfold providerOmitted
        rw [hfirst]
        simp [beq_eq_false_iff_ne.mp hne]
      rw [hsame, hfirst]
      simp [hin, beq_eq_false_iff_ne.mp hne]
    · rw [hfirst]
      simp [hin]
  refine ⟨hpeers, hproviders, ?_, ?_⟩
  · intro other
    have hpeer : other = name → m₂.peerDependencies.contains other =
        m₁.peerDependencies.contains other := by
      rintro rfl
      rw [Map.contains_eq_isSome, Map.contains_eq_isSome, hrest.peers]
      simp [hname]
    have hprovider : other = name → m₂.peerContext.contains other =
        m₁.peerContext.contains other := by
      rintro rfl
      rw [Map.contains_eq_isSome, Map.contains_eq_isSome, hrest.providers]
      simp [hname]
    rw [hrest.optionalPeers, hfirst.optionalPeers]
    by_cases h : other = name
    · rw [hpeer h, hprovider h]
      simp [h, hname]
    · simp [h]
  · have hfirst := hfirst.rest
    rw [← hrest.rest] at hfirst
    exact hfirst

theorem prunedAt_foldl {names : List Str} (hnodup : names.Nodup) (metadata : PackageResolution) :
    PrunedAt keep names metadata (names.foldl (pruneOptionalPeer keep) metadata) := by
  induction names generalizing metadata with
  | nil => exact .nil metadata
  | cons name names ih =>
      obtain ⟨hname, hnodup⟩ := List.nodup_cons.mp hnodup
      exact .cons hname (prunedAt_step metadata name) (ih hnodup _)

theorem pruned_pruneOmitted (metadata : PackageResolution) :
    Pruned keep metadata (pruneOmittedOptionalPeerMetadata keep metadata) := by
  have hall := @prunedAt_foldl keep _ metadata.optionalPeers.nodup_keys metadata
  have hkeys (name : Str) :
      metadata.optionalPeers.keys.contains name = metadata.optionalPeers.contains name := by
    rw [Bool.eq_iff_iff]
    simp
  refine ⟨fun name => ?_, fun name => ?_, fun name => ?_, hall.rest⟩
  · rw [← hkeys]
    exact hall.peers name
  · rw [← hkeys]
    exact hall.providers name
  · have hoptional := hall.optionalPeers name
    rw [hkeys] at hoptional
    refine hoptional.trans ?_
    cases metadata.optionalPeers.contains name <;> simp [pruneOmittedOptionalPeerMetadata]

end Prune

/-! ## The projected lockfile -/

section Restrict

variable {keep : Str → Bool} {lock : Lockfile}

theorem mem_restrict {p : PackageEntry} :
    p ∈ (restrict keep lock).packages ↔ p ∈ lock.packages ∧ keep p.path = true := by
  unfold restrict Lockfile.sortPackages
  rw [List.mem_insertionSort, List.mem_filter]

theorem mem_allPaths_restrict {path : Str} :
    path ∈ allPaths (restrict keep lock) ↔ path ∈ allPaths lock ∧ keep path = true := by
  simp only [mem_allPaths, mem_restrict]
  constructor
  · rintro ⟨p, ⟨hp, hkeep⟩, rfl⟩
    exact ⟨⟨p, hp, rfl⟩, hkeep⟩
  · rintro ⟨⟨p, hp, rfl⟩, hkeep⟩
    exact ⟨p, ⟨hp, hkeep⟩, rfl⟩

/-- Sorting by path keeps the order of the packages at one path. -/
theorem filter_path_insertionSort (packages : List PackageEntry) (path : Str) :
    (packages.insertionSort fun a b => a.path ≤ b.path).filter (·.path == path) =
      packages.filter (·.path == path) := by
  have hperm := List.perm_insertionSort (fun a b : PackageEntry => a.path ≤ b.path) packages
  have hsorted : (packages.filter (·.path == path)).Pairwise fun a b => a.path ≤ b.path := by
    refine List.pairwise_of_forall_mem_list fun a ha b hb => ?_
    have ha := (List.mem_filter.mp ha).2
    have hb := (List.mem_filter.mp hb).2
    rw [beq_iff_eq] at ha hb
    rw [ha, hb]
  have hsublist := (List.sublist_insertionSort hsorted List.filter_sublist).filter (·.path == path)
  simp only [List.filter_filter, Bool.and_self] at hsublist
  exact (hsublist.eq_of_length (hperm.filter _).length_eq.symm).symm

/-- At a kept path nothing changes. -/
theorem filter_path_restrict {path : Str} (hkeep : keep path = true) :
    (restrict keep lock).packages.filter (·.path == path) =
      lock.packages.filter (·.path == path) := by
  refine (filter_path_insertionSort _ _).trans ?_
  rw [List.filter_filter]
  refine List.filter_congr fun p _ => ?_
  by_cases h : p.path = path
  · simp [h, hkeep]
  · simp [h]

theorem packageByPath_restrict {path : Str} (hkeep : keep path = true) :
    packageByPath (restrict keep lock) path = packageByPath lock path := by
  unfold packageByPath
  rw [← List.head?_filter, ← List.head?_filter, List.filter_reverse, List.filter_reverse,
    filter_path_restrict hkeep]

theorem packageAt_restrict {path : Str} (hkeep : keep path = true) :
    (restrict keep lock).packageAt path = lock.packageAt path := by
  unfold Lockfile.packageAt
  rw [← List.head?_filter, ← List.head?_filter, filter_path_restrict hkeep]

theorem restrict_resolution (path : Str) : (restrict keep lock).resolution.packages[path]? =
    if keep path then
      (lock.resolution.packages[path]?).map (pruneOmittedOptionalPeerMetadata keep)
    else none := by
  change ((lock.resolution.packages.filter fun path _ => keep path).map
    fun _ metadata => pruneOmittedOptionalPeerMetadata keep metadata)[path]? = _
  rw [Std.ExtTreeMap.getElem?_map, Std.ExtTreeMap.getElem?_filter']
  cases lock.resolution.packages[path]? <;> cases keep path <;> simp

theorem restrict_registryNames (path : Str) :
    (restrict keep lock).resolution.registryNames[path]? =
      if keep path then lock.resolution.registryNames[path]? else none := by
  change (lock.resolution.registryNames.filter fun path _ => keep path)[path]? = _
  rw [Std.ExtTreeMap.getElem?_filter']
  cases lock.resolution.registryNames[path]? <;> cases keep path <;> simp

section

variable {metadata metadata' : PackageResolution} (h : Pruned keep metadata metadata')
include h

theorem Pruned.dependencies_eq : metadata'.dependencies = metadata.dependencies := by
  have hrest := congrArg PackageResolution.dependencies h.rest
  exact hrest

theorem Pruned.optionalDependencies_eq :
    metadata'.optionalDependencies = metadata.optionalDependencies := by
  have hrest := congrArg PackageResolution.optionalDependencies h.rest
  exact hrest

end

/-- Forgetting optional peers adds no recorded name. -/
theorem metadataNames_pruned {metadata metadata' : PackageResolution}
    (h : Pruned keep metadata metadata') {name : Str} (hname : name ∈ metadataNames metadata') :
    name ∈ metadataNames metadata := by
  simp only [metadataNames, List.mem_append, Std.ExtTreeMap.mem_keys, h.dependencies_eq,
    h.optionalDependencies_eq] at hname ⊢
  refine hname.imp_right fun hpeer => ?_
  rw [Std.ExtTreeMap.mem_iff_isSome_getElem?] at hpeer ⊢
  rw [h.peers] at hpeer
  split at hpeer
  · cases hpeer
  · exact hpeer

/-- A first hit stays the first when fewer elements count, as long as it counts. -/
theorem find_some_of_fewer {α : Type} {p q : α → Bool} {l : List α} {a : α}
    (h : l.find? q = some a) (hfewer : ∀ x, p x = true → q x = true) (ha : p a = true) :
    l.find? p = some a := by
  induction l with
  | nil => cases h
  | cons x l ih =>
      rw [List.find?_cons] at h ⊢
      cases hq : q x with
      | true =>
          rw [hq] at h
          cases h
          rw [ha]
      | false =>
          rw [hq] at h
          have hp : p x = false := by
            by_contra hp
            rw [hfewer x (by simpa using hp)] at hq
            cases hq
          rw [hp]
          exact ih h

/-- A kept package still needs what it needed, as far as that is kept. -/
theorem runtimeTarget_restrict {p : PackageEntry} {target : Str}
    (hp : keep p.path = true) (htarget : RuntimeTarget lock p target)
    (hkept : target ∈ allPaths lock ∧ keep target = true) :
    RuntimeTarget (restrict keep lock) p target := by
  have hget {metadata : PackageResolution}
      (h : lock.resolution.packages[p.path]? = some metadata) :
      (restrict keep lock).resolution.packages[p.path]? =
        some (pruneOmittedOptionalPeerMetadata keep metadata) := by
    simp [restrict_resolution, hp, h]
  cases htarget with
  | @dependency metadata name dep hmetadata hdep =>
      have hpruned := @pruned_pruneOmitted keep metadata
      rw [← hpruned.dependencies_eq] at hdep
      exact .dependency (hget hmetadata) hdep
  | @optional metadata name dep hmetadata hdep =>
      have hpruned := @pruned_pruneOmitted keep metadata
      rw [← hpruned.optionalDependencies_eq] at hdep
      exact .optional (hget hmetadata) hdep
  | @requiredPeer metadata name dep hmetadata hdep hrequired =>
      have hpruned := @pruned_pruneOmitted keep metadata
      have hpeer := hpruned.peers name
      have hoptional := hpruned.optionalPeers name
      simp only [hrequired, Bool.false_and, Bool.false_eq_true, if_false] at hpeer hoptional
      exact .requiredPeer (hget hmetadata) (hpeer.trans hdep) hoptional
  | @provider metadata name provider hmetadata hprovider hrequired =>
      have hpruned := @pruned_pruneOmitted keep metadata
      have hpeer := hpruned.providers name
      have hoptional := hpruned.optionalPeers name
      simp only [hrequired, Bool.false_and, Bool.false_eq_true, if_false] at hpeer hoptional
      exact .provider (hget hmetadata) (hpeer.trans hprovider) hoptional
  | @lookup name _ hname hunrecorded hfound =>
      refine .lookup hname ?_ ?_
      · intro metadata' hmetadata' hin
        rw [restrict_resolution, if_pos hp] at hmetadata'
        obtain ⟨metadata, hmetadata, rfl⟩ := Option.map_eq_some_iff.mp hmetadata'
        exact hunrecorded metadata hmetadata (metadataNames_pruned (pruned_pruneOmitted _) hin)
      · refine find_some_of_fewer hfound ?_ ?_
        · intro slot hslot
          have hplaced := mem_allPaths_restrict.mp (List.contains_iff_mem.mp hslot)
          exact List.contains_iff_mem.mpr hplaced.1
        · exact List.contains_iff_mem.mpr (mem_allPaths_restrict.mpr hkept)

end Restrict

section Project

variable {lock : Lockfile}

theorem mem_allPaths_project {path : Str} :
    path ∈ allPaths (projectLockfileOmittingDev lock) ↔ Needed lock path := by
  unfold projectLockfileOmittingDev
  rw [mem_allPaths_restrict, retained_iff]
  exact and_iff_right_of_imp needed_mem_allPaths

/-- What is needed is needed in the projection, too. -/
theorem needed_project {path : Str} :
    Needed (projectLockfileOmittingDev lock) path ↔ Needed lock path := by
  constructor
  · intro h
    exact mem_allPaths_project.mp (needed_mem_allPaths h)
  · rintro ⟨root, hroot, hreach⟩
    have hkept : ∀ {q : Str}, ReflTransGen (Worklist.Next (nextPaths lock)) root q →
        retained lock q = true := fun hq => retained_iff.mpr ⟨root, hroot, hq⟩
    have hproduction : root ∈ productionPaths (projectLockfileOmittingDev lock) := by
      obtain ⟨p, hp, hdev, rfl⟩ := mem_productionPaths.mp hroot
      exact mem_productionPaths.mpr ⟨p, mem_restrict.mpr ⟨hp, hkept .refl⟩, hdev, rfl⟩
    refine ⟨root, hproduction, ?_⟩
    -- Along the way everything is kept, so every step is one of the projection.
    induction hreach with
    | refl => exact .refl
    | @tail owner target hreach hstep ih =>
        refine ih.tail ?_
        obtain ⟨p, hfound, htarget, hplaced⟩ := mem_nextPaths.mp hstep
        have hkeep := hkept hreach
        have hboth : target ∈ allPaths lock ∧ retained lock target = true :=
          ⟨hplaced, hkept (hreach.tail hstep)⟩
        have hfound' := (packageByPath_restrict hkeep).trans hfound
        have hpath := (packageByPath_mem hfound).2
        rw [← hpath] at hkeep
        exact mem_nextPaths.mpr ⟨p, hfound', runtimeTarget_restrict hkeep htarget hboth,
          mem_allPaths_restrict.mpr hboth⟩

theorem retained_project : retained (projectLockfileOmittingDev lock) = retained lock := by
  funext path
  rw [Bool.eq_iff_iff, retained_iff, retained_iff, needed_project]

end Project

section Idempotent

variable {keep : Str → Bool} {lock : Lockfile}

/-- An optional peer that is still listed leads to nothing left out. -/
theorem Pruned.peerOmitted_eq_false {metadata metadata' : PackageResolution}
    (h : Pruned keep metadata metadata') {name : Str}
    (hlisted : metadata'.optionalPeers.contains name = true) :
    peerOmitted keep metadata' name = false := by
  have hbefore := h.optionalPeers name
  rw [hlisted, eq_comm, Bool.and_eq_true] at hbefore
  have hpeer := h.peers name
  rw [hbefore.1, Bool.true_and] at hpeer
  cases homitted : peerOmitted keep metadata name with
  | true =>
      rw [homitted, if_pos rfl] at hpeer
      simp [peerOmitted, hpeer]
  | false =>
      rw [homitted, if_neg Bool.false_ne_true] at hpeer
      unfold peerOmitted at homitted ⊢
      rw [hpeer]
      exact homitted

theorem Pruned.providerOmitted_eq_false {metadata metadata' : PackageResolution}
    (h : Pruned keep metadata metadata') {name : Str}
    (hlisted : metadata'.optionalPeers.contains name = true) :
    providerOmitted keep metadata' name = false := by
  have hbefore := h.optionalPeers name
  rw [hlisted, eq_comm, Bool.and_eq_true] at hbefore
  have hprovider := h.providers name
  rw [hbefore.1, Bool.true_and] at hprovider
  cases homitted : providerOmitted keep metadata name with
  | true =>
      rw [homitted, if_pos rfl] at hprovider
      simp [providerOmitted, hprovider]
  | false =>
      rw [homitted, if_neg Bool.false_ne_true] at hprovider
      unfold providerOmitted at homitted ⊢
      rw [hprovider]
      exact homitted

/-- Nothing is left to forget after forgetting. -/
theorem pruneOmitted_idem (metadata : PackageResolution) :
    pruneOmittedOptionalPeerMetadata keep (pruneOmittedOptionalPeerMetadata keep metadata) =
      pruneOmittedOptionalPeerMetadata keep metadata := by
  have hfirst := @pruned_pruneOmitted keep metadata
  have hagain := @pruned_pruneOmitted keep (pruneOmittedOptionalPeerMetadata keep metadata)
  generalize pruneOmittedOptionalPeerMetadata keep metadata = first at hfirst hagain ⊢
  generalize pruneOmittedOptionalPeerMetadata keep first = again at hagain ⊢
  have hpeers : again.peerDependencies = first.peerDependencies := by
    refine Std.ExtTreeMap.ext_getElem? fun name => ?_
    rw [hagain.peers]
    cases hlisted : first.optionalPeers.contains name with
    | false => rfl
    | true => rw [hfirst.peerOmitted_eq_false hlisted]; rfl
  have hproviders : again.peerContext = first.peerContext := by
    refine Std.ExtTreeMap.ext_getElem? fun name => ?_
    rw [hagain.providers]
    cases hlisted : first.optionalPeers.contains name with
    | false => rfl
    | true => rw [hfirst.providerOmitted_eq_false hlisted]; rfl
  have hoptional : again.optionalPeers = first.optionalPeers := by
    refine Std.ExtTreeMap.ext_mem_unit fun name => ?_
    rw [← Std.ExtTreeMap.contains_iff_mem, ← Std.ExtTreeMap.contains_iff_mem,
      ← Bool.eq_iff_iff, hagain.optionalPeers, hpeers, hproviders]
    -- What is listed after forgetting has a target or a provider.
    have hbefore := hfirst.optionalPeers name
    cases hlisted : first.optionalPeers.contains name with
    | false => rfl
    | true =>
        rw [hlisted, eq_comm, Bool.and_eq_true] at hbefore
        rw [hbefore.2]
        rfl
  have hrest := hagain.rest
  rw [← hpeers, ← hproviders, ← hoptional] at hrest
  exact hrest

theorem restrict_idem : restrict keep (restrict keep lock) = restrict keep lock := by
  have hpackages : (restrict keep (restrict keep lock)).packages = (restrict keep lock).packages := by
    have hall : (restrict keep lock).packages.filter (keep ·.path) =
        (restrict keep lock).packages :=
      List.filter_eq_self.mpr fun p hp => (mem_restrict.mp hp).2
    change List.insertionSort _ ((restrict keep lock).packages.filter _) = _
    rw [hall]
    exact (List.pairwise_insertionSort _ _).insertionSort_eq
  have hresolution : (restrict keep (restrict keep lock)).resolution.packages =
      (restrict keep lock).resolution.packages := by
    refine Std.ExtTreeMap.ext_getElem? fun path => ?_
    rw [restrict_resolution, restrict_resolution]
    cases keep path with
    | false => rfl
    | true =>
        rw [if_pos rfl, if_pos rfl, Option.map_map]
        congr 1
        funext metadata
        exact pruneOmitted_idem metadata
  have hnames : (restrict keep (restrict keep lock)).resolution.registryNames =
      (restrict keep lock).resolution.registryNames := by
    refine Std.ExtTreeMap.ext_getElem? fun path => ?_
    rw [restrict_registryNames, restrict_registryNames]
    cases keep path <;> rfl
  change Lockfile.mk _ _ _ (restrict keep (restrict keep lock)).packages (ResolutionMetadata.mk _
    (restrict keep (restrict keep lock)).resolution.packages
    (restrict keep (restrict keep lock)).resolution.registryNames) = _
  rw [hpackages, hresolution, hnames]

theorem project_idem : projectLockfileOmittingDev (projectLockfileOmittingDev lock) =
    projectLockfileOmittingDev lock := by
  unfold projectLockfileOmittingDev
  have hsame := @retained_project lock
  unfold projectLockfileOmittingDev at hsame
  rw [hsame]
  exact restrict_idem

end Idempotent

/-! ## Validity -/

section Valid

variable {lock : Lockfile}

theorem mem_recordedTargets {resolution : PackageResolution} {target : Str} :
    target ∈ recordedTargets resolution ↔
      (∃ (name : Str) (dep : LockDependency),
        resolution.dependencies[name]? = some dep ∧ dep.target = target) ∨
      (∃ (name : Str) (dep : LockDependency),
        resolution.optionalDependencies[name]? = some dep ∧ dep.target = target) ∨
      (∃ (name : Str) (dep : LockDependency),
        resolution.peerDependencies[name]? = some dep ∧ dep.target = target) ∨
      ∃ (name : Str) (provider : PeerProvider),
        resolution.peerContext[name]? = some provider ∧ provider.path = target := by
  simp only [recordedTargets, List.mem_append, List.mem_map, Map.mem_valuesOf, or_assoc]
  grind

/-- Forgetting optional peers records nothing new. -/
theorem recordedTargets_pruned {keep : Str → Bool} {metadata metadata' : PackageResolution}
    (h : Pruned keep metadata metadata') {target : Str}
    (htarget : target ∈ recordedTargets metadata') : target ∈ recordedTargets metadata := by
  rw [mem_recordedTargets] at htarget ⊢
  rw [h.dependencies_eq, h.optionalDependencies_eq] at htarget
  refine htarget.imp_right fun hrest => hrest.imp_right fun hpeer => ?_
  rcases hpeer with ⟨name, dep, hdep, hpath⟩ | ⟨name, provider, hprovider, hpath⟩
  · rw [h.peers] at hdep
    split at hdep
    · cases hdep
    · exact Or.inl ⟨name, dep, hdep, hpath⟩
  · rw [h.providers] at hprovider
    split at hprovider
    · cases hprovider
    · exact Or.inr ⟨name, provider, hprovider, hpath⟩

/-- What a kept package still records is kept. -/
theorem retained_of_recorded {p : PackageEntry} {metadata metadata' : PackageResolution}
    (hfound : packageByPath lock p.path = some p) (hp : retained lock p.path = true)
    (hmetadata : lock.resolution.packages[p.path]? = some metadata)
    (hpruned : Pruned (retained lock) metadata metadata') {target : Str}
    (htarget : target ∈ recordedTargets metadata') (hlisted : target ∈ allPaths lock) :
    retained lock target = true := by
  -- A runtime target is in reach of the package.
  have hruntime (h : RuntimeTarget lock p target) : retained lock target = true := by
    obtain ⟨root, hroot, hreach⟩ := retained_iff.mp hp
    have hnext := mem_nextPaths.mpr ⟨p, hfound, h, hlisted⟩
    exact retained_iff.mpr ⟨root, hroot, hreach.tail hnext⟩
  rcases mem_recordedTargets.mp htarget with ⟨name, dep, hdep, rfl⟩ | ⟨name, dep, hdep, rfl⟩ |
    ⟨name, dep, hdep, rfl⟩ | ⟨name, provider, hprovider, rfl⟩
  · rw [hpruned.dependencies_eq] at hdep
    exact hruntime (.dependency hmetadata hdep)
  · rw [hpruned.optionalDependencies_eq] at hdep
    exact hruntime (.optional hmetadata hdep)
  · have hpeer := hpruned.peers name
    cases hoptional : metadata.optionalPeers.contains name with
    | false =>
        rw [hoptional, hdep] at hpeer
        exact hruntime (.requiredPeer hmetadata hpeer.symm hoptional)
    | true =>
        have hstays := hpruned.optionalPeers name
        rw [hoptional, Map.contains_eq_isSome metadata'.peerDependencies, hdep] at hstays
        have hkept := hpruned.peerOmitted_eq_false hstays
        simpa [peerOmitted, hdep] using hkept
  · have hpeer := hpruned.providers name
    cases hoptional : metadata.optionalPeers.contains name with
    | false =>
        rw [hoptional, hprovider] at hpeer
        exact hruntime (.provider hmetadata hpeer.symm hoptional)
    | true =>
        have hstays := hpruned.optionalPeers name
        rw [hoptional, Map.contains_eq_isSome metadata'.peerContext, hprovider] at hstays
        have hkept := hpruned.providerOmitted_eq_false (hstays.trans (by simp))
        simpa [providerOmitted, hprovider] using hkept

/-- A package's source asks the same of its entry when optional peers are forgotten. -/
theorem checkSource_pruned {keep : Str → Bool} {metadata metadata' : PackageResolution}
    (h : Pruned keep metadata metadata') (path : Str) (p : PackageEntry) :
    checkSource path p metadata' = checkSource path p metadata := by
  have hsource := congrArg PackageResolution.source h.rest
  have htarget := congrArg PackageResolution.workspaceTarget h.rest
  dsimp only at hsource htarget
  unfold checkSource
  rw [hsource, htarget]

theorem validateV2_project (hvalid : lock.validateV2 = .ok ()) :
    (projectLockfileOmittingDev lock).validateV2 = .ok () := by
  have hnodup := nodup_of_validateV2 hvalid
  have hlisted {path : Str} (h : path ∈ allPaths lock) (hkeep : retained lock path = true) :
      (projectLockfileOmittingDev lock).hasPath path = true :=
    hasPath_iff.mpr (mem_allPaths.mp (mem_allPaths_restrict.mpr ⟨h, hkeep⟩))
  refine validateV2_ok_iff.mpr ⟨?_, ?_, ?_⟩
  · refine (Lockfile.checkPaths_sorted_iff (Lockfile.sortPackages_sorted _) ?_).mpr ?_
    · have hperm : (projectLockfileOmittingDev lock).packages.Perm
          (lock.packages.filter (retained lock ·.path)) := List.perm_insertionSort _ _
      exact (hperm.map _).nodup_iff.mpr ((List.filter_sublist.map _).nodup hnodup)
    · intro p hp
      exact legal_of_validateV2 hvalid (mem_restrict.mp hp).1
  · rintro ⟨path, name⟩ hentry
    have hget := (restrict_registryNames path).symm.trans (Map.mem_toList.mp hentry)
    cases hkeep : retained lock path with
    | false => simp [hkeep] at hget
    | true =>
        rw [hkeep, if_pos rfl] at hget
        refine checkRegistryName_of_packageAt (checkRegistryName_of_validateV2 hvalid hget) ?_
        intro p hp
        exact (packageAt_restrict hkeep).trans hp
  · rintro ⟨path, metadata'⟩ hentry
    have hget := (restrict_resolution path).symm.trans (Map.mem_toList.mp hentry)
    cases hkeep : retained lock path with
    | false => simp [hkeep] at hget
    | true =>
        rw [hkeep, if_pos rfl] at hget
        obtain ⟨metadata, hmetadata, rfl⟩ := Option.map_eq_some_iff.mp hget
        have hpruned := @pruned_pruneOmitted (retained lock) metadata
        have hcheck := checkResolution_of_validateV2 hvalid hmetadata
        obtain ⟨p, hp, hsource, htargets⟩ := checkResolution_ok_iff.mp hcheck
        obtain ⟨hmem, rfl⟩ := listed_of_packageAt hp
        have hlast : packageByPath lock p.path = some p := by
          cases hfound : packageByPath lock p.path with
          | none =>
              have hnone := List.find?_eq_none.mp hfound p (List.mem_reverse.mpr hmem)
              simp at hnone
          | some q =>
              obtain ⟨hq, hpath⟩ := packageByPath_mem hfound
              rw [List.inj_on_of_nodup_map hnodup hq hmem hpath]
        refine checkResolution_ok_iff.mpr ⟨p, (packageAt_restrict hkeep).trans hp, ?_, ?_⟩
        · rw [checkSource_pruned hpruned]
          exact hsource
        · intro target htarget
          have hbefore := recordedTargets_pruned hpruned htarget
          have hin := mem_allPaths.mpr (hasPath_iff.mp (htargets target hbefore))
          exact hlisted hin (retained_of_recorded hlast hkeep hmetadata hpruned htarget hin)

end Valid

/-! ## The result -/

/-- What the projection of a lockfile is. -/
structure Projects (lock projected : Lockfile) : Prop where
  /-- Of several packages at one path, the last one's targets count. -/
  least : IsLeast {paths | HoldsProduction lock paths ∧ ClosedUnderTargets lock paths}
    {path | path ∈ allPaths projected}
  packages : ∀ p, p ∈ projected.packages ↔ p ∈ lock.packages ∧ p.path ∈ allPaths projected
  resolution : ∀ path ∈ allPaths projected,
    Option.Rel (Pruned fun path => decide (path ∈ allPaths projected))
      lock.resolution.packages[path]? projected.resolution.packages[path]?
  registryNames : ∀ path ∈ allPaths projected,
    projected.resolution.registryNames[path]? = lock.resolution.registryNames[path]?
  nothingElse : ∀ path ∉ allPaths projected, projected.resolution.packages[path]? = none ∧
    projected.resolution.registryNames[path]? = none
  rest : { projected with packages := lock.packages, resolution := { projected.resolution with
    packages := lock.resolution.packages, registryNames := lock.resolution.registryNames } } = lock
  idempotent : projectLockfileOmittingDev projected = projected
  valid : lock.validateV2 = .ok () → projected.validateV2 = .ok ()

theorem retained_eq_decide (lock : Lockfile) :
    retained lock = fun path => decide (path ∈ allPaths (projectLockfileOmittingDev lock)) := by
  funext path
  rw [Bool.eq_iff_iff, retained_iff, decide_eq_true_iff, mem_allPaths_project]

/-- The projection holds the production packages and what they need, and no more. -/
theorem projectLockfileOmittingDev_projects (lock : Lockfile) :
    Projects lock (projectLockfileOmittingDev lock) where
  least := by
    simp only [mem_allPaths_project]
    exact needed_isLeast
  packages p := by
    rw [mem_allPaths_project, ← retained_iff]
    exact mem_restrict
  resolution path hpath := by
    have hget := @restrict_resolution (retained lock) lock path
    rw [if_pos (retained_iff.mpr (mem_allPaths_project.mp hpath))] at hget
    rw [← retained_eq_decide]
    change Option.Rel _ _ (restrict (retained lock) lock).resolution.packages[path]?
    rw [hget]
    cases lock.resolution.packages[path]? with
    | none => exact .none
    | some metadata => exact .some (pruned_pruneOmitted metadata)
  registryNames path hpath := by
    refine (restrict_registryNames path).trans ?_
    rw [if_pos (retained_iff.mpr (mem_allPaths_project.mp hpath))]
  nothingElse path hpath := by
    rw [mem_allPaths_project, ← retained_iff] at hpath
    exact ⟨(restrict_resolution path).trans (if_neg hpath),
      (restrict_registryNames path).trans (if_neg hpath)⟩
  rest := rfl
  idempotent := project_idem
  valid := validateV2_project

def twiceListed (dependencies : Map Str) : PackageEntry where
  path := lit "node_modules/a"
  name := lit "a"
  version := lit "1.0.0"
  resolved := []
  workspaceTarget := none
  integrity := none
  link := false
  dev := false
  optional := false
  os := []
  cpu := []
  bin := ∅
  dependencies := dependencies

/-- A package that is listed twice; only the first listing needs the dev package. -/
def twiceListedLock : Lockfile :=
  { Lockfile.new [] with
    packages := [twiceListed ((∅ : Map Str).insert (lit "b") (lit "1")), twiceListed ∅,
      { twiceListed ∅ with path := lit "node_modules/b", name := lit "b", dev := true }] }

/-- What an earlier listing of a retained package needs can be left out. -/
theorem earlier_listing_unserved : ¬∀ lock : Lockfile,
    ∀ p ∈ (projectLockfileOmittingDev lock).packages, ∀ target, RuntimeTarget lock p target →
      target ∈ allPaths lock → target ∈ allPaths (projectLockfileOmittingDev lock) := by
  intro h
  have hdependency := @RuntimeTarget.lookup twiceListedLock
    (twiceListed ((∅ : Map Str).insert (lit "b") (lit "1"))) (lit "b") (lit "node_modules/b")
    (by decide) (fun metadata hmetadata => by cases hmetadata) (by decide)
  have hneeded := h twiceListedLock _ (by decide) _ hdependency (by decide)
  exact absurd hneeded (by decide)

end Omission
end Bpm
