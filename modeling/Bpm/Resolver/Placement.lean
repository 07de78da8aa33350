import Bpm.Resolver.Peer

/-!
# Placement

`resolveDependency` binds one request: to a workspace link, to a source, to a
visible package that satisfies it, or to a newly placed package whose own
dependencies are then resolved below it.  The recursion is structural in a fuel
argument; a run that exhausts it halts with `outOfFuel`, which the program itself
never reports.

The state carries a log that the program does not have.  Every request that is
bound leaves an event with the nodes as they were before, and nothing in the
algorithm reads the log.
-/

namespace Bpm

open Text

/-- What one resolution works with. -/
structure Env where
  crates : Crates
  registry : Registry
  host : Host
  overrides : OverrideSet
  workspace : Option WorkspaceIndex
  rootDir : Option Str
  target : TargetPlatform
  sink : Bool

/-- Why a resolution fails.  `workspace`, `peer` and `autoInstall` are the causes
of the source's one `Peer` error. -/
inductive ResolveError
  | registry (package spec : Str) (source : RegistryError)
  | platform (package version : Str)
  | override (error : OverrideError)
  | workspace (error : WorkspaceError)
  | peer (conflict : PeerConflict)
  | autoInstall (request : PeerRequest) (error : ResolveError)
  | source (package spec reason : Str)
  | placementConflict (path package requested selected : Str)
deriving DecidableEq

/-- How a run ends without a result. -/
inductive Halt
  | outOfFuel
  | failed (error : ResolveError)
deriving DecidableEq

/-- Who asks for a dependency: the project, a placed package, or the peer
declaration of a placed package. -/
inductive Owner
  | root
  | package (path : Str)
  | peer (consumer : Str)
deriving DecidableEq

/-- One request: who asks, in which directory a new package goes, what is asked,
and how the package is reached. -/
structure Edge where
  owner : Owner
  parent : Str
  name : Str
  requested : Str
  optional : Bool
  dev : Bool
deriving DecidableEq

/-- A bound request: the nodes before, the path it is bound to, and whether a new
package was placed there. -/
structure Event where
  before : Map Node
  edge : Edge
  target : Str
  fresh : Bool

/-- An announced package, ready for download.  The integrity is kept as a text,
which the program decodes. -/
structure ResolvedDownloadUnit where
  path : Str
  name : Str
  url : Str
  integrity : Option Str
deriving DecidableEq

structure GraphResolver where
  nodes : Map Node
  diagnostics : List Str
  announced : List ResolvedDownloadUnit
  log : List Event

/-- The resolver before the first request. -/
def GraphResolver.init : GraphResolver := ⟨∅, [], [], []⟩

/-- A step of resolution over the resolver's state. -/
abbrev Resolve (α : Type) := Run Halt GraphResolver α

/-- The request in force after overrides. -/
def effectiveSpec (env : Env) (nodes : Map Node) (edge : Edge) : Str :=
  env.overrides.effectiveSpecFor env.crates edge.name edge.requested
    (ancestorChain nodes edge.parent)

/-- The workspace a request links to, if any. -/
def workspaceLink (env : Env) (name spec : Str) :
    Except ResolveError (Option WorkspaceEdge) :=
  match env.workspace with
  | none => .ok none
  | some workspace =>
      match workspace.resolve env.crates name spec with
      | .error e => .error (.workspace e)
      | .ok (.registry _) => .ok none
      | .ok (.link edge) => .ok (some edge)

/-! ## Selecting a registry version -/

/-- Try the published versions in the given order, and keep `selected` when none
of them has its peers met. -/
def backtrack (env : Env) (nodes : Map Node) (parent registryName base : Str)
    (packument : Packument) (selected : ResolvedArtifact) :
    List Version → Except RegistryError ResolvedArtifact
  | [] => .ok selected
  | version :: rest =>
      match resolvePackument env.crates ⟨registryName, .exact version⟩ packument base with
      | .error e => .error e
      | .ok candidate =>
          if peerCandidateMatches env.crates nodes candidate.metadata parent then
            .ok candidate
          else
            backtrack env nodes parent registryName base packument selected rest

/-- The published versions from the greatest down. -/
def descendingVersions (crates : Crates) (packument : Packument) : List Version :=
  (sortVersions crates (packument.parsedVersions crates)).reverse

/-- The artifact for a registry request: the version the request selects, or,
when its peers are not met, the greatest published version whose peers are. -/
def selectArtifact (env : Env) (nodes : Map Node) (parent name spec : Str) :
    Except RegistryError ResolvedArtifact :=
  let (registryName, registrySpec) := registryRequest env.crates name spec
  match parseSpec env.crates (registryName ++ '@' :: registrySpec) with
  | .error e => .error e
  | .ok parsed =>
      match env.registry.packumentFor env.crates parsed with
      | .error e => .error e
      | .ok packument =>
          let base := env.registry.baseFor registryName
          match resolvePackument env.crates parsed packument base with
          | .error e => .error e
          | .ok selected =>
              if peerCandidateMatches env.crates nodes selected.metadata parent then
                .ok selected
              else
                backtrack env nodes parent registryName base packument selected
                  (descendingVersions env.crates packument)

/-! ## Patched sources -/

def projectDir (env : Env) : Str := env.rootDir.getD ['.']

/-- The directory that relative sources of a package start from. -/
def baseDirFor (env : Env) (nodes : Map Node) (parent : Str) : Str :=
  if parent.isEmpty then projectDir env
  else ((nodes[parent]?).bind (·.sourceDir)).getD (projectDir env)

/-- The registry specification behind a patch of `name`. -/
def patchedRegistrySpec (env : Env) (name inner : Str) :
    Except RegistryError (Str × PackageSpec) :=
  let requested := if (trim inner).isEmpty then ['*'] else trim inner
  let viaName : Except RegistryError (Str × PackageSpec) :=
    let (registryName, registrySpec) := registryRequest env.crates name requested
    (parseSpec env.crates (registryName ++ '@' :: registrySpec)).map (registryName, ·)
  match parseSpec env.crates requested with
  | .ok parsed => if parsed.name = name then .ok (parsed.name, parsed) else viaName
  | .error _ => viaName

/-- The unpatched source of a patch, with its bytes. -/
def resolvePatchInner (env : Env) (name inner : Str) :
    Except ResolveError (SourceResolution × Bytes) :=
  let failed (reason : Str) : ResolveError := .source name (lit "patch:" ++ inner) reason
  match DependencySource.parse inner with
  | some (.patch _ _) => .error (failed (lit "nested patch: sources are not supported"))
  | some source =>
      match source.resolve env.host (projectDir env) with
      | .error reason => .error (failed reason)
      | .ok resolution =>
          match env.host.readSourceBytes resolution.resolved with
          | .error reason => .error (failed reason)
          | .ok bytes => .ok (resolution, bytes)
  | none =>
      match patchedRegistrySpec env name inner with
      | .error _ => .error (failed (lit "invalid patched registry source"))
      | .ok (registryName, parsed) =>
          let base := env.registry.baseFor registryName
          match env.registry.packumentFor env.crates parsed with
          | .error _ => .error (failed (lit "packument not available"))
          | .ok packument =>
              match resolvePackument env.crates parsed packument base with
              | .error _ => .error (failed (lit "no version to patch"))
              | .ok artifact =>
                  match env.host.readSourceBytes artifact.tarballUrl with
                  | .error reason => .error (failed reason)
                  | .ok bytes =>
                      .ok ({ metadata := artifact.metadata
                             resolved := artifact.tarballUrl
                             integrity := some artifact.integrity
                             source := .registry base
                             link := false
                             workspaceTarget := none
                             sourceDir := none }, bytes)

/-- Fetch, patch and store a source. -/
def resolvePatchDependency (env : Env) (name inner patch : Str) :
    Except ResolveError SourceResolution :=
  let patchPath := joinPath (projectDir env) patch
  let failed (reason : Str) : ResolveError :=
    .source name (lit "patch:" ++ inner ++ '#' :: patchPath) reason
  match env.host.readToString patchPath with
  | .error reason => .error (failed reason)
  | .ok patchText =>
      match resolvePatchInner env name inner with
      | .error e => .error e
      | .ok (resolution, bytes) =>
          if resolution.link then
            .error (failed (lit "patch: currently supports tarball, registry, and git sources, not linked directories"))
          else
            match env.host.applyPatch bytes patchText with
            | .error reason => .error (failed reason)
            | .ok patched =>
                match env.host.writePatchedTarball (projectDir env) patched with
                | .error reason => .error (failed reason)
                | .ok url =>
                    match env.host.sourceFromTarballBytes url patched
                        (.patch resolution.source patchPath) with
                    | .error reason => .error (failed reason)
                    | .ok resolved => .ok { resolved with resolved := url }

/-- The resolution of a source named by a package at `parent`. -/
def resolveSource (env : Env) (nodes : Map Node) (edge : Edge) (spec : Str)
    (source : DependencySource) : Except ResolveError SourceResolution :=
  match source with
  | .patch inner patch => resolvePatchDependency env edge.name inner patch
  | source =>
      match source.resolve env.host (baseDirFor env nodes edge.parent) with
      | .error reason => .error (.source edge.name spec reason)
      | .ok resolution => .ok resolution

/-! ## Changing the graph -/

/-- A fresh node for a linked workspace. -/
def linkNode (env : Env) (edge : Edge) (link : WorkspaceEdge) : Node :=
  let manifest := env.workspace.bind fun index => (index.get edge.name).bind (·.manifest)
  let metadata := workspaceMetadata edge.name link.version manifest
  { path := childPath [] edge.name
    placementName := edge.name
    metadata := metadata
    resolved := []
    integrity := []
    dependencies := mergedDependencies metadata
    targets := ∅
    optional := edge.optional
    dev := edge.dev
    peerContext := ∅
    source := .workspace link.relativePath
    link := true
    workspaceTarget := some link.relativePath
    sourceDir := manifest.bind (·.sourceDir) }

/-- A fresh node for a registry artifact. -/
def registryNode (edge : Edge) (artifact : ResolvedArtifact) (base : Str) : Node :=
  { path := childPath edge.parent edge.name
    placementName := edge.name
    metadata := artifact.metadata
    resolved := artifact.tarballUrl
    integrity := artifact.integrity
    dependencies := mergedDependencies artifact.metadata
    targets := ∅
    optional := edge.optional
    dev := edge.dev
    peerContext := ∅
    source := .registry base
    link := false
    workspaceTarget := none
    sourceDir := none }

/-- A fresh node for a resolved source. -/
def sourceNode (edge : Edge) (resolved : SourceResolution) : Node :=
  { path := childPath edge.parent edge.name
    placementName := edge.name
    metadata := resolved.metadata
    resolved := resolved.resolved
    integrity := resolved.integrity.getD []
    dependencies := mergedDependencies resolved.metadata
    targets := ∅
    optional := edge.optional
    dev := edge.dev
    peerContext := ∅
    source := resolved.source
    link := resolved.link
    workspaceTarget := resolved.workspaceTarget
    sourceDir := resolved.sourceDir }

namespace Node

/-- A package is optional or dev only when every path that reaches it is. -/
def upgrade (node : Node) (optional dev : Bool) : Node :=
  { node with optional := node.optional && optional, dev := node.dev && dev }

def withTarget (node : Node) (name target : Str) : Node :=
  { node with targets := node.targets.insert name target }

end Node

namespace GraphResolver

/-- Bind a request to a package that is already there. -/
def reuse (s : GraphResolver) (edge : Edge) (path : Str) : GraphResolver :=
  { s with
    nodes := s.nodes.modify path (·.upgrade edge.optional edge.dev)
    log := ⟨s.nodes, edge, path, false⟩ :: s.log }

/-- Bind a request to a new package. -/
def place (s : GraphResolver) (edge : Edge) (node : Node) : GraphResolver :=
  { s with
    nodes := s.nodes.insert node.path node
    log := ⟨s.nodes, edge, node.path, true⟩ :: s.log }

/-- Note in a package where one of its dependencies was bound. -/
def record (s : GraphResolver) (owner name target : Str) : GraphResolver :=
  { s with nodes := s.nodes.modify owner (·.withTarget name target) }

/-- Announce a placed package to the sink, if there is one, unless the package is
linked or has nothing to download. -/
def announce (s : GraphResolver) (sink : Bool) (path : Str) : GraphResolver :=
  if !sink then s
  else
    match s.nodes[path]? with
    | none => s
    | some node =>
        if node.link || node.resolved.isEmpty then s
        else
          { s with
            announced := s.announced ++
              [⟨node.path, node.placementName, node.resolved,
                if node.integrity.isEmpty then none else some node.integrity⟩] }

def diagnose (s : GraphResolver) (message : Str) : GraphResolver :=
  { s with diagnostics := s.diagnostics ++ [message] }

end GraphResolver

def reuseNode (edge : Edge) (path : Str) : Resolve (Option Str) := do
  Run.modify (·.reuse edge path)
  return some path

def failWith {α : Type} (e : ResolveError) : Resolve α := Run.fail (.failed e)

/-- Whether a package may be placed for the target; a mismatch skips a package
that only optional paths reach, and is an error otherwise. -/
def platformAllows (env : Env) (name : Str) (metadata : VersionMetadata)
    (optional : Bool) : Resolve Bool :=
  match checkPackagePlatform (name ++ '@' :: env.crates.showVersion metadata.version)
      metadata.constraints env.target
      (if optional then .optionalOnly else .required) with
  | .ok .compatible => return true
  | .ok (.skipOptional message) => do
      Run.modify (·.diagnose message)
      return false
  | .error _ => failWith (.platform name (env.crates.showVersion metadata.version))

/-! ## The recursion -/

/-- The request of a package for one of its dependencies; a child is optional
when its parent was reached optionally or declares it so. -/
def childEdge (nodes : Map Node) (owner parent : Str) (optional dev : Bool)
    (child : Str × Str) : Edge :=
  { owner := .package owner
    parent := parent
    name := child.1
    requested := child.2
    optional := (nodes[owner]?).any fun node =>
      optional || node.metadata.optionalDependencies.contains child.1
    dev := dev }

/-- Record a bound dependency in its package. -/
def recordTarget (owner name : Str) : Option Str → Resolve Unit
  | none => return ()
  | some target => Run.modify (·.record owner name target)

/-- Resolve the children of a package below it. -/
def resolveChildren (recur : Edge → Resolve (Option Str)) (parent : Str)
    (dependencies : Map Str) (optional dev : Bool) : Resolve Unit :=
  Run.forEach
    (fun child => do
      let s ← Run.get
      let target ← recur (childEdge s.nodes parent parent optional dev child)
      recordTarget parent child.1 target)
    dependencies.toList

/-- Resolve the children of a workspace link at the root; a root slot taken by an
incompatible version nests the child under the link. -/
def resolveChildrenHoisted (recur : Edge → Resolve (Option Str)) (member : Str)
    (dependencies : Map Str) (optional dev : Bool) : Resolve Unit :=
  Run.forEach
    (fun child => do
      let s ← Run.get
      let edge := childEdge s.nodes member [] optional dev child
      let target ← Run.recover (recur edge) fun
        | .failed (.placementConflict ..) => recur { edge with parent := member }
        | other => Run.fail other
      recordTarget member child.1 target)
    dependencies.toList

/-- Link a workspace at the root and resolve its dependencies. -/
def resolveLink (env : Env) (recur : Edge → Resolve (Option Str)) (edge : Edge)
    (link : WorkspaceEdge) : Resolve (Option Str) := do
  let s ← Run.get
  let node := linkNode env edge link
  if s.nodes.contains node.path then
    reuseNode edge node.path
  else
    if ← platformAllows env edge.name node.metadata edge.optional then
      Run.modify (·.place edge node)
      resolveChildrenHoisted recur node.path node.dependencies edge.optional edge.dev
      return some node.path
    else
      return none

/-- Place a source in the asking package's own directory. -/
def resolveSourceDependency (env : Env) (recur : Edge → Resolve (Option Str)) (edge : Edge)
    (spec : Str) (source : DependencySource) : Resolve (Option Str) := do
  let s ← Run.get
  let path := childPath edge.parent edge.name
  if s.nodes.contains path then
    reuseNode edge path
  else
    let resolved ← Run.ofExcept Halt.failed (resolveSource env s.nodes edge spec source)
    let node := sourceNode edge resolved
    if ← platformAllows env edge.name node.metadata edge.optional then
      Run.modify fun s => (s.place edge node).announce env.sink node.path
      resolveChildren recur node.path node.dependencies edge.optional edge.dev
      return some node.path
    else
      return none

/-- Reuse a visible package that satisfies the request, or place a new one. -/
def resolveRegistryDependency (env : Env) (recur : Edge → Resolve (Option Str)) (edge : Edge)
    (spec : Str) : Resolve (Option Str) := do
  let s ← Run.get
  let visibleSpec := (registryRequest env.crates edge.name spec).2
  match findVisible env.crates s.nodes edge.parent edge.name visibleSpec with
  | some path => reuseNode edge path
  | none =>
      let path := childPath edge.parent edge.name
      match s.nodes[path]? with
      | some selected =>
          if requestMatches env.crates visibleSpec selected.metadata.version then
            return some path
          else
            failWith (.placementConflict path edge.name spec
              (env.crates.showVersion selected.metadata.version))
      | none =>
          let artifact ← Run.ofExcept (fun e => Halt.failed (.registry edge.name spec e))
            (selectArtifact env s.nodes edge.parent edge.name spec)
          let base := env.registry.baseFor (registryRequest env.crates edge.name spec).1
          let node := registryNode edge artifact base
          if ← platformAllows env edge.name node.metadata edge.optional then
            Run.modify fun s => (s.place edge node).announce env.sink node.path
            resolveChildren recur node.path node.dependencies edge.optional edge.dev
            return some node.path
          else
            return none

/-- Bind one request, with `recur` for the requests it leads to. -/
def resolveDependencyWith (env : Env) (recur : Edge → Resolve (Option Str)) (edge : Edge) :
    Resolve (Option Str) := do
  let s ← Run.get
  let spec := effectiveSpec env s.nodes edge
  match ← Run.ofExcept Halt.failed (workspaceLink env edge.name spec) with
  | some link => resolveLink env recur edge link
  | none =>
      match DependencySource.parse spec with
      | some source => resolveSourceDependency env recur edge spec source
      | none => resolveRegistryDependency env recur edge spec

/-- Resolve a single request into a node path. -/
def resolveDependency (env : Env) : Nat → Edge → Resolve (Option Str)
  | 0, _ => Run.fail .outOfFuel
  | fuel + 1, edge => resolveDependencyWith env (resolveDependency env fuel) edge

end Bpm
