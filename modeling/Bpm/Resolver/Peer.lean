import Bpm.Resolver.Node

/-!
# Peer binding

In strict mode every visible provider must satisfy the range declared for it, and
a required peer without provider is a request that the resolver can repair.  In
legacy mode peers are ignored.
-/

namespace Bpm

open Text

inductive PackageSource
  | registry (registry : Str)
  | workspace (relativePath : Str)
deriving DecidableEq

structure ProviderIdentity where
  name : Str
  version : Str
  source : PackageSource
deriving DecidableEq

/-- A provider visible from a consumer's parent, and its placement. -/
structure VisibleProvider where
  identity : ProviderIdentity
  path : Str
deriving DecidableEq

/-- The providers a consumer sees, by package name, and its dependency chain. -/
structure VisibleProviders where
  consumerChain : List Str
  providers : Map VisibleProvider

/-- A required absent peer, to be installed beside its consumer. -/
structure PeerRequest where
  consumer : Str
  peer : Str
  range : Str
  consumerChain : List Str
deriving DecidableEq

inductive PeerConflict
  | missingRequired (consumer consumerVersion peer range : Str) (consumerChain : List Str)
  | invalidRange (consumer consumerVersion peer range : Str)
  | unsatisfied (consumer consumerVersion peer range : Str) (provider : VisibleProvider)
      (consumerChain : List Str)
deriving DecidableEq

/-- Only an absent required peer can be repaired by installing it. -/
def PeerConflict.requiredRequest : PeerConflict → Option PeerRequest
  | .missingRequired consumer _ peer range chain => some ⟨consumer, peer, range, chain⟩
  | .invalidRange .. | .unsatisfied .. => none

def isOptionalPeer (metadata : VersionMetadata) (peer : Str) : Bool :=
  (metadata.peerDependenciesMeta[peer]?).any (·.optional)

/-- Bind the peers of a candidate, one after the other. -/
def bindPeers (crates : Crates) (candidate : VersionMetadata) (visible : VisibleProviders) :
    List (Str × Str) → Map ProviderIdentity → Except PeerConflict (Map ProviderIdentity)
  | [], context => .ok context
  | (peer, range) :: rest, context =>
      let consumerVersion := crates.showVersion candidate.version
      match visible.providers[peer]? with
      | none =>
          if isOptionalPeer candidate peer then
            bindPeers crates candidate visible rest context
          else
            .error (.missingRequired candidate.name consumerVersion peer range
              visible.consumerChain)
      | some provider =>
          match VersionRange.parse crates range with
          | none => .error (.invalidRange candidate.name consumerVersion peer range)
          | some requirement =>
              if (crates.parseVersion provider.identity.version).any
                  (requirement.matchesVersion crates) then
                bindPeers crates candidate visible rest
                  (context.insert peer provider.identity)
              else
                .error (.unsatisfied candidate.name consumerVersion peer range provider
                  visible.consumerChain)

def bindPeerContext (crates : Crates) (candidate : VersionMetadata)
    (visible : VisibleProviders) (mode : PeerMode) :
    Except PeerConflict (Map ProviderIdentity) :=
  match mode with
  | .legacyIgnore => .ok ∅
  | .strict => bindPeers crates candidate visible candidate.peerDependencies.toList ∅

def packageSourceForNode (node : Node) (registry : Str) : PackageSource :=
  match node.source with
  | .workspace relativePath => .workspace relativePath
  | .registry _ | .file _ | .tarball _ | .git .. | .patch .. => .registry registry

/-- The provider a node is, under the base URL that serves its package name. -/
def visibleProvider (crates : Crates) (registry : Registry) (node : Node) : VisibleProvider :=
  { identity :=
      { name := node.metadata.name
        version := crates.showVersion node.metadata.version
        source := packageSourceForNode node (registry.baseFor node.metadata.name) }
    path := node.path }

/-- Enter the packages of one directory; names that are taken stay. -/
def providersOfDir (crates : Crates) (registry : Registry) (nodes : Map Node)
    (providers : Map VisibleProvider) (dir : Str) : Map VisibleProvider :=
  (Map.valuesOf nodes).foldl
    (fun acc node =>
      if node.path = childPath dir node.placementName then
        acc.insertIfNew node.metadata.name (visibleProvider crates registry node)
      else acc)
    providers

/-- The providers visible from `parent` by package name, the nearest one each. -/
def visibleProviders (crates : Crates) (registry : Registry) (nodes : Map Node)
    (parent : Str) : Map VisibleProvider :=
  (lookupDirs parent).foldl (providersOfDir crates registry nodes) ∅

/-- What one directory adds: packages that lie in it. -/
theorem providersOfDir_some {crates : Crates} {registry : Registry} {nodes : Map Node}
    {providers : Map VisibleProvider} {dir name : Str} {provider : VisibleProvider}
    (h : (providersOfDir crates registry nodes providers dir)[name]? = some provider) :
    providers[name]? = some provider ∨ ∃ (path : Str) (node : Node), nodes[path]? = some node ∧
      node.path = childPath dir node.placementName ∧ node.metadata.name = name ∧
      provider = visibleProvider crates registry node := by
  unfold providersOfDir at h
  have hmem : ∀ node ∈ Map.valuesOf nodes, ∃ path : Str, nodes[path]? = some node :=
    fun node => Map.mem_valuesOf.mp
  revert h
  generalize Map.valuesOf nodes = list at hmem
  induction list generalizing providers with
  | nil => exact Or.inl
  | cons node list ih =>
      intro h
      rw [List.foldl_cons] at h
      rcases ih (fun n hn => hmem n (List.mem_cons_of_mem node hn)) h with hold | hnew
      · split at hold
        · rename_i hdir
          rw [Std.ExtTreeMap.getElem?_insertIfNew] at hold
          split at hold
          · rename_i hname
            cases hold
            obtain ⟨path, hpath⟩ := hmem node List.mem_cons_self
            exact Or.inr ⟨path, node, hpath, hdir, Std.LawfulEqCmp.eq_of_compare hname.1, rfl⟩
          · exact Or.inl hold
        · exact Or.inl hold
      · exact Or.inr hnew

/-- A visible provider is a package in a directory that `parent` looks into. -/
theorem visibleProviders_some {crates : Crates} {registry : Registry} {nodes : Map Node}
    {parent name : Str} {provider : VisibleProvider}
    (h : (visibleProviders crates registry nodes parent)[name]? = some provider) :
    ∃ dir ∈ lookupDirs parent, ∃ (path : Str) (node : Node), nodes[path]? = some node ∧
      node.path = childPath dir node.placementName ∧ node.metadata.name = name ∧
      provider = visibleProvider crates registry node := by
  have hfold : ∀ (dirs : List Str) (providers : Map VisibleProvider),
      (dirs.foldl (providersOfDir crates registry nodes) providers)[name]? = some provider →
      providers[name]? = some provider ∨ ∃ dir ∈ dirs, ∃ (path : Str) (node : Node),
        nodes[path]? = some node ∧ node.path = childPath dir node.placementName ∧
        node.metadata.name = name ∧ provider = visibleProvider crates registry node := by
    intro dirs
    induction dirs with
    | nil => exact fun providers h => Or.inl h
    | cons dir dirs ih =>
        intro providers h
        rcases ih _ h with hold | ⟨dir', hdir', hrest⟩
        · rcases providersOfDir_some hold with hold | hnew
          · exact Or.inl hold
          · exact Or.inr ⟨dir, List.mem_cons_self, hnew⟩
        · exact Or.inr ⟨dir', List.mem_cons_of_mem dir hdir', hrest⟩
  rcases hfold (lookupDirs parent) ∅ h with hempty | hfound
  · simp at hempty
  · exact hfound

/-- A bound peer is a declared one whose provider is visible. -/
theorem bindPeers_some {crates : Crates} {candidate : VersionMetadata}
    {visible : VisibleProviders} {peers : List (Str × Str)} {context bound : Map ProviderIdentity}
    (hbind : bindPeers crates candidate visible peers context = .ok bound) {name : Str}
    {identity : ProviderIdentity} (h : bound[name]? = some identity) :
    context[name]? = some identity ∨ ∃ range, (name, range) ∈ peers ∧
      ∃ provider, visible.providers[name]? = some provider ∧ identity = provider.identity := by
  induction peers generalizing context with
  | nil =>
      cases hbind
      exact Or.inl h
  | cons entry rest ih =>
      obtain ⟨peer, range⟩ := entry
      unfold bindPeers at hbind
      dsimp only at hbind
      cases hprovider : visible.providers[peer]? with
      | none =>
          rw [hprovider] at hbind
          dsimp only at hbind
          split at hbind
          · rcases ih hbind with hold | ⟨range', hin, hrest⟩
            · exact Or.inl hold
            · exact Or.inr ⟨range', List.mem_cons_of_mem _ hin, hrest⟩
          · cases hbind
      | some provider =>
          rw [hprovider] at hbind
          dsimp only at hbind
          split at hbind
          · cases hbind
          · split at hbind
            · rcases ih hbind with hold | ⟨range', hin, hrest⟩
              · rw [Map.get_insert] at hold
                split at hold
                · rename_i hpeer
                  cases hold
                  subst hpeer
                  exact Or.inr ⟨range, List.mem_cons_self, provider, hprovider, rfl⟩
                · exact Or.inl hold
              · exact Or.inr ⟨range', List.mem_cons_of_mem _ hin, hrest⟩
            · cases hbind

end Bpm
