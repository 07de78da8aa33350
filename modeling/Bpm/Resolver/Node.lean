import Bpm.Lib.Run
import Bpm.Resolver.Overrides
import Bpm.Resolver.Platform
import Bpm.Resolver.Sources
import Bpm.Resolver.Workspaces

/-!
# Nodes, placement paths and visibility

A node is one placed package.  Its path spells the chain of `node_modules`
directories that leads to it, and a package sees the slots of its own directory
and of every directory above it.
-/

namespace Bpm

open Text

/-- A single placed dependency. -/
structure Node where
  path : Str
  placementName : Str
  metadata : VersionMetadata
  resolved : Str
  integrity : Str
  dependencies : Map Str
  targets : Map Str
  optional : Bool
  dev : Bool
  peerContext : Map PeerProvider
  source : LockSource
  link : Bool
  workspaceTarget : Option Str
  sourceDir : Option Str

/-- The directory separator between nested packages. -/
def nestSep : Str :=
  ['/', 'n', 'o', 'd', 'e', '_', 'm', 'o', 'd', 'u', 'l', 'e', 's', '/']

/-- The directory that holds the root's packages. -/
def rootDir : Str :=
  ['n', 'o', 'd', 'e', '_', 'm', 'o', 'd', 'u', 'l', 'e', 's', '/']

/-- The slot for `name` in the directory of `parent`; the project root is the
empty path. -/
def childPath (parent name : Str) : Str :=
  if parent.isEmpty then rootDir ++ name else parent ++ nestSep ++ name

/-- The package whose directory holds `path`. -/
def parentPath (path : Str) : Str :=
  ((rsplitOnce nestSep path).map Prod.fst).getD []

/-- `path` and the packages above it, nearest first, without the root. -/
def enclosingAux : Nat → Str → List Str
  | 0, _ => []
  | fuel + 1, path => if path.isEmpty then [] else path :: enclosingAux fuel (parentPath path)

/-- `path` and the packages above it, nearest first, without the root. -/
def enclosing (path : Str) : List Str := enclosingAux (path.length + 1) path

/-- The directories a package at `path` looks into, nearest first: its own, those
of the packages above it, and the root's. -/
def lookupDirs (path : Str) : List Str := enclosing path ++ [[]]

/-- The slots named `name` that a package at `path` looks at, nearest first. -/
def lookupPaths (path name : Str) : List Str := (lookupDirs path).map (childPath · name)

/-- The nearest visible slot whose version satisfies the request. -/
def findVisible (crates : Crates) (nodes : Map Node) (parent name spec : Str) : Option Str :=
  (lookupPaths parent name).find? fun path =>
    match nodes[path]? with
    | some node => requestMatches crates spec node.metadata.version
    | none => false

/-- The nearest visible slot, whatever its version: what Node.js finds. -/
def findVisibleAny (nodes : Map Node) (parent name : Str) : Option Str :=
  (lookupPaths parent name).find? fun path => nodes.contains path

/-- The packages above a request with their versions, root-most first. -/
def ancestorChain (nodes : Map Node) (parent : Str) : List (Str × Version) :=
  (enclosing parent).reverse.filterMap fun path =>
    (nodes[path]?).map fun node => (node.placementName, node.metadata.version)

/-- Whether every peer of a candidate is met by what its parent sees. -/
def peerCandidateMatches (crates : Crates) (nodes : Map Node) (metadata : VersionMetadata)
    (parent : Str) : Bool :=
  metadata.peerDependencies.toList.all fun (name, range) =>
    match findVisibleAny nodes parent name with
    | none => (metadata.peerDependenciesMeta[name]?).any (·.optional)
    | some path =>
        (nodes[path]?).any fun provider =>
          requestMatches crates range provider.metadata.version

theorem nestSep_ne_nil : nestSep ≠ [] := by
  simp [nestSep]

theorem parentPath_length_lt {path : Str} (h : path ≠ []) :
    (parentPath path).length < path.length := by
  unfold parentPath
  cases hsplit : rsplitOnce nestSep path with
  | none => simpa using List.length_pos_iff.mpr h
  | some parts => exact rsplitOnce_length_lt nestSep_ne_nil hsplit

/-- Fuel beyond the length of a path changes nothing. -/
theorem enclosingAux_eq {fuel : Nat} {path : Str} (h : path.length < fuel) :
    enclosingAux fuel path = enclosing path := by
  induction fuel using Nat.strong_induction_on generalizing path with
  | _ fuel ih =>
      obtain ⟨fuel, rfl⟩ : ∃ f, fuel = f + 1 := ⟨fuel - 1, by omega⟩
      unfold enclosing
      by_cases hpath : path = []
      · simp [hpath, enclosingAux]
      · have hlt := parentPath_length_lt hpath
        have hpos := List.length_pos_iff.mpr hpath
        have hleft : enclosingAux fuel (parentPath path) = enclosing (parentPath path) :=
          ih fuel (by omega) (by omega)
        rw [enclosingAux, enclosingAux, hleft]
        rcases Nat.lt_or_ge path.length fuel with hfuel | hfuel
        · rw [ih path.length (by omega) hlt]
        · rw [show path.length = fuel by omega, hleft]

@[simp] theorem enclosing_nil : enclosing [] = [] := rfl

/-- A nonempty path is followed by the packages around its parent. -/
theorem enclosing_of_ne_nil {path : Str} (h : path ≠ []) :
    enclosing path = path :: enclosing (parentPath path) := by
  have hlt := parentPath_length_lt h
  conv_lhs => unfold enclosing enclosingAux
  simp [h, enclosingAux_eq hlt]

/-- The slot of a child is the first one its parent looks at. -/
theorem lookupPaths_head (parent name : Str) :
    ∃ rest, lookupPaths parent name = childPath parent name :: rest := by
  by_cases h : parent = []
  · exact ⟨[], by simp [h, lookupPaths, lookupDirs]⟩
  · exact ⟨lookupPaths (parentPath parent) name, by
      simp [lookupPaths, lookupDirs, enclosing_of_ne_nil h]⟩

theorem findVisible_some {crates : Crates} {nodes : Map Node} {parent name spec path : Str}
    (h : findVisible crates nodes parent name spec = some path) :
    path ∈ lookupPaths parent name ∧ ∃ node, nodes[path]? = some node ∧
      requestMatches crates spec node.metadata.version = true := by
  refine ⟨List.mem_of_find?_eq_some h, ?_⟩
  have hpath := List.find?_some h
  cases hnode : nodes[path]? with
  | none => simp [hnode] at hpath
  | some node => exact ⟨node, rfl, by simpa [hnode] using hpath⟩

/-- A slot on the lookup path that is skipped does not satisfy the request. -/
theorem findVisible_none {crates : Crates} {nodes : Map Node} {parent name spec : Str}
    (h : findVisible crates nodes parent name spec = none) {path : Str}
    (hpath : path ∈ lookupPaths parent name) {node : Node} (hnode : nodes[path]? = some node) :
    requestMatches crates spec node.metadata.version = false := by
  have hskip := List.find?_eq_none.mp h path hpath
  simpa [hnode] using hskip

end Bpm
