import Bpm.Graph.Closure
import Bpm.Lib.Listing
import Bpm.Lib.Sorting
import Bpm.Omission

/-!
# The dependency tree of an installation

The packages of a lockfile are shown as a tree below the declarations of the root.  Edges
are the recorded targets of a package, or else what a lookup from its path finds.
-/

namespace Bpm
namespace Ls

open Listing Sorting Text

/-! ## Edges -/

/-- Candidate placements of `name` for the package at `cur`, deepest first. -/
def depCandidatesAux : Nat → Str → Str → List Str
  | fuel, cur, name =>
      (cur ++ nestSep ++ name) ::
        match fuel, rsplitOnce nestSep cur with
        | fuel + 1, some (above, _) => depCandidatesAux fuel above name
        | _, _ => if rootDir.isPrefixOf cur then [rootDir ++ name] else []

def depCandidates (pkgPath name : Str) : List Str := depCandidatesAux pkgPath.length pkgPath name

section

variable (lockfile : Lockfile)

/-- The placements of the lockfile. -/
def byPath : Map PackageEntry := Closure.packageIndex lockfile.packages

def resolveDepTarget (pkgPath name : Str) : Option Str :=
  (depCandidates pkgPath name).find? ((byPath lockfile).contains ·)

def recorded (deps : Map LockDependency) : List (Str × Str) :=
  deps.toList.map fun dep => (dep.1, dep.2.target)

/-- Names and targets of the dependencies of a package, by name. -/
def resolveEdges (entry : PackageEntry) : List (Str × Str) :=
  sortBy Prod.fst <|
    match lockfile.resolution.packages[entry.path]? with
    | some res =>
        recorded res.dependencies ++ recorded res.optionalDependencies ++
          recorded res.peerDependencies
    | none =>
        entry.dependencies.keys.filterMap fun name =>
          (resolveDepTarget lockfile entry.path name).map (name, ·)

/-! ## The tree -/

structure NodeLabel where
  name : Str
  version : Str
  /-- The root may lack a version. -/
  versionIsRoot : Bool
deriving DecidableEq

abbrev Node := ListTree NodeLabel

def nodeLabel (entry : PackageEntry) : NodeLabel := ⟨entry.name, entry.version, false⟩

def graph : LabelledGraph Str PackageEntry where
  label target := (byPath lockfile)[target]?
  edges target :=
    match (byPath lockfile)[target]? with
    | some entry => (resolveEdges lockfile entry).map Prod.snd
    | none => []

def buildNode (all : Bool) (fuel : Nat) (remaining : Option Nat) (stack : List Str)
    (target : Str) (visited : List Str) : Option (Option Node × List Str) :=
  build ((graph lockfile).map nodeLabel) all fuel remaining stack target visited

/-- All direct dependencies, those for development and optional ones included. -/
def rootDepNames : List Str :=
  ((lockfile.root.dependencies.keys ++ lockfile.resolution.root.devDependencies.keys ++
    lockfile.resolution.root.optionalDependencies.keys).foldl
      (fun names name => names.insert name ()) (∅ : Map Unit)).keys

def rootTargets : List Str := (rootDepNames lockfile).map (rootDir ++ ·)

/-- The tree that is shown for the project in a directory of the given name. -/
def tree (directory : Option Str) (all : Bool) (fuel : Nat) (depth : Option Nat) : Option Node := do
  let (children, _) ← buildAll (buildNode lockfile all fuel depth []) (rootTargets lockfile) []
  return .node ⟨(lockfile.root.name.or directory).getD ['.'], lockfile.root.version.getD [], true⟩
    children

end

/-! ## What is meant -/

/-- The place of a package in the trees below the root. -/
def Shown (children : List (ListTree PackageEntry)) (path : Str) : Prop :=
  ∃ depth, (path, depth) ∈ positionsAll PackageEntry.path 0 children

/-- The outermost package around a path lies in the directory of the root. -/
def InRoot (path : Str) : Prop :=
  ∃ outermost ∈ (Omission.owners path).getLast?, rootDir.isPrefixOf outermost = true

/-! ## Lookups -/

/-- The candidates are the slots of the lookup, but the last one may be missing. -/
theorem depCandidatesAux_eq (fuel : Nat) (cur name : Str) :
    depCandidatesAux fuel cur name =
      (Omission.ownersAux fuel cur).map (· ++ nestSep ++ name) ++
        if (Omission.ownersAux fuel cur).getLast?.any rootDir.isPrefixOf then [rootDir ++ name]
        else [] := by
  induction fuel generalizing cur with
  | zero =>
      unfold depCandidatesAux Omission.ownersAux
      rfl
  | succ fuel ih =>
      unfold depCandidatesAux Omission.ownersAux
      cases rsplitOnce nestSep cur with
      | none => rfl
      | some parts =>
          have hne : Omission.ownersAux fuel parts.1 ≠ [] := by
            cases fuel <;> exact List.cons_ne_nil _ _
          dsimp only
          rw [ih parts.1, List.map_cons, List.getLast?_cons_of_ne_nil hne, List.cons_append]

theorem depCandidates_eq_slots {path : Str} (h : InRoot path) (name : Str) :
    depCandidates path name = Omission.slots path name := by
  obtain ⟨outermost, hlast, hroot⟩ := h
  have hany : (Omission.ownersAux path.length path).getLast?.any rootDir.isPrefixOf = true := by
    rw [show (Omission.ownersAux path.length path).getLast? = some outermost from hlast]
    exact hroot
  rw [depCandidates, depCandidatesAux_eq, if_pos hany]
  rfl

theorem prefix_of_mem_ownersAux {fuel : Nat} {path owner : Str}
    (h : owner ∈ Omission.ownersAux fuel path) : owner <+: path := by
  induction fuel generalizing path with
  | zero =>
      rw [List.mem_singleton.mp h]
  | succ fuel ih =>
      rw [Omission.ownersAux] at h
      rcases List.mem_cons.mp h with rfl | hin
      · exact List.prefix_refl _
      · cases hsplit : rsplitOnce nestSep path with
        | none =>
            rw [hsplit] at hin
            cases hin
        | some parts =>
            rw [hsplit] at hin
            have habove : parts.1 <+: path := by
              rw [rsplitOnce_eq_append hsplit, List.append_assoc]
              exact List.prefix_append _ _
            exact (ih hin).trans habove

theorem head_of_inRoot {path : Str} (h : InRoot path) : path.head? = some 'n' := by
  obtain ⟨outermost, hlast, hroot⟩ := h
  have hprefix := (List.isPrefixOf_iff_prefix.mp hroot).trans
    (prefix_of_mem_ownersAux (List.mem_of_getLast? hlast))
  obtain ⟨rest, rfl⟩ := hprefix
  rfl

section

variable {lockfile : Lockfile}

theorem path_of_byPath {path : Str} {entry : PackageEntry}
    (h : (byPath lockfile)[path]? = some entry) : entry.path = path ∧ entry ∈ lockfile.packages := by
  have hfold : byPath lockfile = (lockfile.packages.map fun entry => (entry.path, entry)).foldl
      (fun index entry => index.insert entry.1 entry.2) ∅ := by
    rw [List.foldl_map]
    rfl
  rw [hfold] at h
  rcases Map.get_foldl_insert h with hmem | hnone
  · obtain ⟨entry', hentry, heq⟩ := List.mem_map.mp hmem
    obtain ⟨hpath, rfl⟩ := Prod.mk.inj heq
    exact ⟨hpath, hentry⟩
  · simp at hnone

theorem contains_byPath (path : Str) :
    (byPath lockfile).contains path = (Omission.allPaths lockfile).contains path := by
  rw [Bool.eq_iff_iff, List.contains_iff_mem, Omission.allPaths, List.mem_map]
  constructor
  · intro hcontains
    rw [Map.contains_eq_isSome] at hcontains
    obtain ⟨entry, hentry⟩ := Option.isSome_iff_exists.mp hcontains
    obtain ⟨hpath, hmem⟩ := path_of_byPath hentry
    exact ⟨entry, hmem, hpath⟩
  · rintro ⟨entry, hmem, rfl⟩
    apply Map.contains_foldl
    · intro acc x hacc
      rw [Map.contains_insert, hacc, Bool.or_true]
    · refine Or.inr ⟨entry, hmem, fun acc => ?_⟩
      rw [Map.contains_insert, decide_eq_true rfl, Bool.true_or]

/-- Below the directory of the root the target is what Node.js finds. -/
theorem resolveDepTarget_eq {path : Str} (h : InRoot path) (name : Str) :
    resolveDepTarget lockfile path name = lockfile.nodeLookup path name := by
  have hhead := head_of_inRoot h
  have hne : path ≠ [] := by
    rintro rfl
    cases hhead
  have hrel : path.head? ≠ some '/' := by
    rw [hhead]
    decide
  rw [← Omission.nodeStyleDependencyTarget_eq name hne hrel, resolveDepTarget,
    depCandidates_eq_slots h, Omission.nodeStyleDependencyTarget]
  congr 1
  funext path
  exact contains_byPath path

/-- Without recorded targets the edges of a package lead where Node.js finds its dependencies. -/
theorem mem_edges_iff {path target : Str} {entry : PackageEntry}
    (hentry : (byPath lockfile)[path]? = some entry)
    (hrecorded : lockfile.resolution.packages[path]? = none) (h : InRoot path) :
    target ∈ (graph lockfile).edges path ↔
      ∃ name, entry.dependencies.contains name = true ∧
        lockfile.nodeLookup path name = some target := by
  have hedges : (graph lockfile).edges path = (resolveEdges lockfile entry).map Prod.snd := by
    show (match (byPath lockfile)[path]? with | some entry => _ | none => _) = _
    rw [hentry]
  rw [hedges, List.mem_map]
  unfold resolveEdges
  rw [(path_of_byPath hentry).1, hrecorded]
  simp only [(sortBy_perm Prod.fst _).mem_iff, List.mem_filterMap, Std.ExtTreeMap.mem_keys,
    resolveDepTarget_eq h, Option.map_eq_some_iff, ← Std.ExtTreeMap.contains_iff_mem]
  constructor
  · rintro ⟨⟨name, target⟩, ⟨name', hname, target', hlookup, heq⟩, rfl⟩
    cases heq
    exact ⟨name, hname, hlookup⟩
  · rintro ⟨name, hname, hlookup⟩
    exact ⟨(name, target), ⟨name, hname, target, hlookup, rfl⟩, rfl⟩

/-! ## What the tree shows -/

theorem label_key (target : Str) (entry : PackageEntry)
    (h : (graph lockfile).label target = some entry) : entry.path = target :=
  (path_of_byPath h).1

theorem tree_eq (directory : Option Str) (all : Bool) (fuel : Nat) (depth : Option Nat) :
    tree lockfile directory all fuel depth =
      (listing (graph lockfile) all fuel depth (rootTargets lockfile)).map fun children =>
        .node ⟨(lockfile.root.name.or directory).getD ['.'], lockfile.root.version.getD [], true⟩
          (mapAll nodeLabel children) := by
  have hnodes : ∀ target visited, buildNode lockfile all fuel depth [] target visited =
      (build (graph lockfile) all fuel depth [] target visited).map
        fun r => (r.1.map (ListTree.map nodeLabel), r.2) := build_map nodeLabel fuel depth []
  have hbuild := buildAll_map nodeLabel hnodes (rootTargets lockfile) []
  unfold tree listing
  rw [hbuild]
  cases buildAll (build (graph lockfile) all fuel depth []) (rootTargets lockfile) [] <;> rfl

/-- With as much fuel as there are packages the tree is complete. -/
theorem tree_total (lockfile : Lockfile) (all : Bool) (depth : Option Nat) :
    ∃ children, ∀ fuel,
    lockfile.packages.length ≤ fuel →
      listing (graph lockfile) all fuel depth (rootTargets lockfile) = some children := by
  have hkeys : ∀ target, ((graph lockfile).label target).isSome = true →
      target ∈ Omission.allPaths lockfile := by
    intro target hlabel
    obtain ⟨entry, hentry⟩ := Option.isSome_iff_exists.mp hlabel
    obtain ⟨hpath, hmem⟩ := path_of_byPath hentry
    exact List.mem_map.mpr ⟨entry, hmem, hpath⟩
  have hlisting : ∃ children, ∀ fuel, (Omission.allPaths lockfile).length ≤ fuel →
      listing (graph lockfile) all fuel depth (rootTargets lockfile) = some children :=
    listing_total hkeys depth (rootTargets lockfile)
  obtain ⟨children, hchildren⟩ := hlisting
  refine ⟨children, ?_⟩
  intro fuel hfuel
  exact hchildren fuel (by rw [Omission.allPaths, List.length_map]; exact hfuel)

end

/-- The tree is built whatever the cycles are.  Below the root it shows the packages that are
reached within the limit by edges from packages that it does not show deeper at first; without
a limit these are all packages in reach.  Edges that are not recorded lead, from packages in
the directory of the root, where Node.js finds the dependencies. -/
theorem tree_shows (lockfile : Lockfile) (directory : Option Str) (depth : Option Nat) :
    (∃ children : List (ListTree PackageEntry),
      (∀ fuel, lockfile.packages.length ≤ fuel → tree lockfile directory false fuel depth =
        some (.node ⟨(lockfile.root.name.or directory).getD ['.'],
          lockfile.root.version.getD [], true⟩ (mapAll nodeLabel children))) ∧
      (∀ path, Shown children path ↔ ∃ n, Within depth n ∧
        Direct (graph lockfile) (rootTargets lockfile) depth
          (positionsAll PackageEntry.path 0 children) n path) ∧
      (∀ path, Shown children path →
        ∃ n, Within depth n ∧ InSteps (graph lockfile) (rootTargets lockfile) n path) ∧
      (depth = none → ∀ path, Shown children path ↔
        ∃ n, InSteps (graph lockfile) (rootTargets lockfile) n path)) ∧
    ∀ path entry, (byPath lockfile)[path]? = some entry →
      lockfile.resolution.packages[path]? = none → InRoot path →
      ∀ target, target ∈ (graph lockfile).edges path ↔
        ∃ name, entry.dependencies.contains name = true ∧
          lockfile.nodeLookup path name = some target := by
  constructor
  · obtain ⟨children, hchildren⟩ := tree_total lockfile false depth
    obtain ⟨seen, hlists⟩ := listing_lists label_key (hchildren _ le_rfl)
    refine ⟨children, ?_, fun path => listed_iff hlists, ?_, ?_⟩
    · intro fuel hfuel
      rw [tree_eq, hchildren fuel hfuel]
      rfl
    · intro path hshown
      obtain ⟨n, hwithin, hdirect⟩ := (listed_iff hlists).mp hshown
      exact ⟨n, hwithin, hdirect.steps⟩
    · rintro rfl path
      exact listed_iff_steps hlists
  · intro path entry hentry hrecorded hroot target
    exact mem_edges_iff hentry hrecorded hroot

/-! ## A package that is not shown -/

def plain (name : Str) (dependencies : List Str) : PackageEntry where
  path := rootDir ++ name
  name := name
  version := lit "1.0.0"
  resolved := []
  workspaceTarget := none
  integrity := none
  link := false
  dev := false
  optional := false
  os := []
  cpu := []
  bin := ∅
  dependencies := Std.ExtTreeMap.ofList (dependencies.map fun name => (name, ['*']))

/-- `a` needs `b`, `b` needs `c` and `c` needs `x`; the project needs `a` and `b`. -/
def chain : Lockfile :=
  { Lockfile.new [] with
    root := ⟨none, none, Std.ExtTreeMap.ofList [(['a'], ['*']), (['b'], ['*'])]⟩
    packages := [plain ['a'] [['b']], plain ['b'] [['c']], plain ['c'] [['x']], plain ['x'] []] }

theorem rootTargets_chain : rootTargets chain = [rootDir ++ ['a'], rootDir ++ ['b']] := by
  decide +kernel

theorem edges_chain : (graph chain).edges (rootDir ++ ['a']) = [rootDir ++ ['b']] ∧
    (graph chain).edges (rootDir ++ ['b']) = [rootDir ++ ['c']] ∧
    (graph chain).edges (rootDir ++ ['c']) = [rootDir ++ ['x']] := by
  decide +kernel

/-- `b` is expanded below `a`, close to the limit, and not again where the root needs it. -/
theorem listing_chain : (listing (graph chain) false 4 (some 2) (rootTargets chain)).map
    (positionsAll PackageEntry.path 0) =
      some [(rootDir ++ ['a'], 0), (rootDir ++ ['b'], 1), (rootDir ++ ['c'], 2),
        (rootDir ++ ['b'], 0)] := by
  decide +kernel

theorem tree_misses : ∃ children : List (ListTree PackageEntry),
    (∀ fuel, 4 ≤ fuel → tree chain none false fuel (some 2) =
      some (.node ⟨['.'], [], true⟩ (mapAll nodeLabel children))) ∧
    ¬ ∀ path, Shown children path ↔
      ∃ n, Within (some 2) n ∧ InSteps (graph chain) (rootTargets chain) n path := by
  obtain ⟨children, hchildren⟩ := tree_total chain false (some 2)
  refine ⟨children, ?_, ?_⟩
  · intro fuel hfuel
    rw [tree_eq, hchildren fuel hfuel]
    rfl
  · intro hiff
    have hpositions := listing_chain
    rw [hchildren 4 le_rfl, Option.map_some, Option.some.injEq] at hpositions
    obtain ⟨hb, hc⟩ := edges_chain.2
    have hroot : InSteps (graph chain) (rootTargets chain) 0 (rootDir ++ ['b']) :=
      .root (by rw [rootTargets_chain]; decide) (by decide +kernel)
    have hx : InSteps (graph chain) (rootTargets chain) 2 (rootDir ++ ['x']) :=
      .edge (.edge hroot (by rw [hb]; exact List.mem_singleton_self _) (by decide +kernel))
        (by rw [hc]; exact List.mem_singleton_self _) (by decide +kernel)
    obtain ⟨depth, hmem⟩ := (hiff _).mpr ⟨2, fun d hd => (Option.some.inj hd).le, hx⟩
    rw [hpositions] at hmem
    simp at hmem

end Ls
end Bpm
