import Bpm.Resolver.Placement

/-!
# Resolving a manifest

The root requests are resolved in name order, then every workspace member is
linked, then missing required peers are installed beside their consumers in up
to sixteen rounds, and at last every peer is bound to its provider and the
lockfile is assembled from the nodes.
-/

namespace Bpm

open Text

/-- What a resolution is given besides the manifest. -/
structure Inputs where
  crates : Crates
  registry : Registry
  host : Host
  workspace : Option WorkspaceIndex
  target : TargetPlatform
  peerMode : PeerMode
  generator : Str
  sink : Bool

def Inputs.env (inputs : Inputs) (manifest : PackageManifest) (overrides : OverrideSet) :
    Env :=
  { crates := inputs.crates
    registry := inputs.registry
    host := inputs.host
    overrides := overrides
    workspace := inputs.workspace
    rootDir := manifest.sourceDir
    target := inputs.target
    sink := inputs.sink }

/-- The request of the project for one of its dependencies. -/
def rootEdge (manifest : PackageManifest) (declared : Str × Str) : Edge :=
  { owner := .root
    parent := []
    name := declared.1
    requested := declared.2
    optional := manifest.optionalDependencies.contains declared.1
    dev := manifest.devDependencies.contains declared.1 &&
      !manifest.dependencies.contains declared.1 &&
      !manifest.optionalDependencies.contains declared.1 }

/-- The request that links a workspace member at the root. -/
def memberEdge (link : WorkspaceEdge) : Edge :=
  { owner := .root, parent := [], name := link.name, requested := link.spec
    optional := false, dev := false }

/-- Resolve one root request and note where it was bound. -/
def resolveRoot (env : Env) (fuel : Nat) (targets : Map Str) (edge : Edge) :
    Resolve (Map Str) := do
  match ← resolveDependency env fuel edge with
  | some path => return targets.insert edge.name path
  | none => return targets

/-- Link a workspace member unless a root request bound its name. -/
def resolveMember (env : Env) (fuel : Nat) (targets : Map Str) (link : WorkspaceEdge) :
    Resolve (Map Str) :=
  if targets.contains link.name then return targets
  else resolveRoot env fuel targets (memberEdge link)

/-- A missing peer of the package at `consumer`, to be installed in `parent`. -/
structure Repair where
  consumer : Str
  parent : Str
  request : PeerRequest

/-- Bind the peers of the package at a path against what its parent sees. -/
def bindNode (env : Env) (mode : PeerMode) (nodes : Map Node) (path : Str) (node : Node) :
    Except PeerConflict (Map ProviderIdentity) :=
  bindPeerContext env.crates node.metadata
    ⟨[path], visibleProviders env.crates env.registry nodes (parentPath path)⟩ mode

/-- The repairs that the given packages need; a conflict that installing a peer
cannot repair ends the search. -/
def collectRepairs (env : Env) (mode : PeerMode) (nodes : Map Node) :
    List (Str × Node) → Except PeerConflict (List Repair)
  | [] => .ok []
  | (path, node) :: rest =>
      match bindNode env mode nodes path node with
      | .ok _ => collectRepairs env mode nodes rest
      | .error conflict =>
          match conflict.requiredRequest with
          | none => .error conflict
          | some request =>
              (collectRepairs env mode nodes rest).map (⟨path, parentPath path, request⟩ :: ·)

/-- The request that installs a missing peer. -/
def repairEdge (repair : Repair) : Edge :=
  { owner := .peer repair.consumer
    parent := repair.parent
    name := repair.request.peer
    requested := repair.request.range
    optional := false
    dev := false }

def installPeer (env : Env) (fuel : Nat) (repair : Repair) : Resolve Unit := do
  let _ ← Run.recover (resolveDependency env fuel (repairEdge repair)) fun
    | .failed e => failWith (.autoInstall repair.request e)
    | .outOfFuel => Run.fail .outOfFuel
  return ()

/-- Up to the given number of rounds of binding and installing. -/
def peerRounds (env : Env) (mode : PeerMode) (fuel : Nat) : Nat → Resolve Unit
  | 0 => return ()
  | rounds + 1 => do
      let s ← Run.get
      let repairs ← Run.ofExcept (fun c => Halt.failed (.peer c))
        (collectRepairs env mode s.nodes s.nodes.toList)
      if repairs.isEmpty then
        return ()
      else
        Run.forEach (installPeer env fuel) repairs
        peerRounds env mode fuel rounds

/-- The provider recorded for a bound peer: the nearest slot that carries the
provider's name, or the empty path when there is none. -/
def recordedProvider (env : Env) (nodes : Map Node) (parent : Str)
    (provider : ProviderIdentity) : PeerProvider :=
  let path := (findVisibleAny nodes parent provider.name).getD []
  { name := provider.name
    version := provider.version
    source := ((nodes[path]?).map (·.source)).getD
      (.registry (env.registry.baseFor provider.name))
    path := path }

/-- Bind the peers of one package for good. -/
def bindContext (env : Env) (mode : PeerMode) (path : Str) : Resolve Unit := do
  let s ← Run.get
  match s.nodes[path]? with
  | none => return ()
  | some node =>
      let context ← Run.ofExcept (fun c => Halt.failed (.peer c))
        (bindNode env mode s.nodes path node)
      let peerContext := context.map fun _ provider =>
        recordedProvider env s.nodes (parentPath path) provider
      Run.modify fun s =>
        { s with nodes := s.nodes.modify path fun node =>
            { node with peerContext := peerContext } }

/-- The entry of a node in the package list. -/
def packageEntry (crates : Crates) (node : Node) : PackageEntry :=
  { path := node.path
    name := node.placementName
    version := crates.showVersion node.metadata.version
    resolved := node.resolved
    workspaceTarget := node.workspaceTarget
    integrity := some node.integrity
    link := node.link
    dev := node.dev
    optional := node.optional
    os := node.metadata.os
    cpu := node.metadata.cpu
    bin := node.metadata.bin
    dependencies := node.dependencies }

/-- The declared requests that were bound, each with its target. -/
def boundTargets (declared targets : Map Str) : Map LockDependency :=
  declared.filterMap fun name spec => (targets[name]?).map (⟨spec, ·⟩)

/-- The resolver metadata of a node. -/
def packageResolution (node : Node) : PackageResolution :=
  { source := node.source
    devOptional := node.dev || node.optional
    peer := !node.metadata.peerDependencies.isEmpty
    libc := []
    dependencies := boundTargets node.dependencies node.targets
    optionalDependencies := boundTargets node.metadata.optionalDependencies node.targets
    peerDependencies := node.metadata.peerDependencies.filterMap fun name spec =>
      (node.peerContext[name]?).map fun provider => ⟨spec, provider.path⟩
    optionalPeers := (node.metadata.peerDependenciesMeta.filter fun _ m => m.optional).map
      fun _ _ => ()
    peerContext := node.peerContext
    workspaceTarget := node.workspaceTarget
    hasInstallScript := node.metadata.hasInstallScript }

/-- The registry name of a node placed under another name. -/
def aliasedName (node : Node) : Option Str :=
  match node.source with
  | .registry _ => if node.metadata.name = node.placementName then none else some node.metadata.name
  | _ => none

/-- The lockfile of a resolved graph. -/
def assemble (inputs : Inputs) (manifest : PackageManifest) (overrides : OverrideSet)
    (nodes : Map Node) : Lockfile :=
  let list := Map.valuesOf nodes
  Lockfile.sortPackages
    { Lockfile.new inputs.generator with
      root := ⟨manifest.name, manifest.version, manifest.rootDependencyDeclarations⟩
      packages := list.map (packageEntry inputs.crates)
      resolution :=
        { root :=
            { RootResolution.default with
              devDependencies := manifest.devDependencies
              optionalDependencies := manifest.optionalDependencies
              overrides := overrides.normalized
              target := some ⟨inputs.target.os, inputs.target.cpu, inputs.target.libc⟩
              peerMode := inputs.peerMode }
          packages := list.foldl
            (fun acc node => acc.insert node.path (packageResolution node)) ∅
          registryNames := list.foldl
            (fun acc node =>
              match aliasedName node with
              | some name => acc.insert node.path name
              | none => acc) ∅ } }

/-- Place everything that the manifest asks for; the result tells where the root
requests were bound. -/
def placeGraph (env : Env) (manifest : PackageManifest) (mode : PeerMode) (fuel : Nat) :
    Resolve (Map Str) := do
  let targets ← Run.foldM (resolveRoot env fuel) ∅
    (manifest.rootDependencyDeclarations.toList.map (rootEdge manifest))
  let links := match env.workspace with
    | some workspace => workspace.topLevelLinks env.crates
    | none => []
  let targets ← Run.foldM (resolveMember env fuel) targets links
  peerRounds env mode fuel 16
  return targets

/-- Bind the peers of all packages, now that every package is placed. -/
def bindContexts (env : Env) (mode : PeerMode) : Resolve Unit := do
  let s ← Run.get
  Run.forEach (bindContext env mode) s.nodes.keys

/-- Resolve a manifest into a lockfile. -/
def resolveManifest (inputs : Inputs) (manifest : PackageManifest) (fuel : Nat) :
    Resolve Lockfile := do
  let overrides ← Run.ofExcept (fun e => Halt.failed (.override e))
    (OverrideSet.fromManifest inputs.crates manifest.overrides
      manifest.rootDependencyDeclarations .root)
  let env := inputs.env manifest overrides
  let _ ← placeGraph env manifest inputs.peerMode fuel
  bindContexts env inputs.peerMode
  let s ← Run.get
  return assemble inputs manifest overrides s.nodes

end Bpm
