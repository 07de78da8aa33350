import Bpm.Resolver.Lockable

/-!
# Peer contexts and what Node.js finds

A peer is bound to the nearest package of its registry name; the path that is recorded
for it is that of the nearest slot of that name.  A recorded provider is the package that
is found there exactly when the two searches meet, and no required peer goes unmentioned
exactly when peers are not ignored.
-/

namespace Bpm

open Text Relation

variable {env : Env} {roots : Edge → Prop} {mode : PeerMode}

/-- Whether a version text satisfies a range text. -/
def textInRange (crates : Crates) (range version : Str) : Bool :=
  (VersionRange.parse crates range).any fun requirement =>
    (crates.parseVersion version).any (requirement.matchesVersion crates)

/-- The warning for a package whose peers are ignored. -/
def peerModeDiagnostics (crates : Crates) (candidate : VersionMetadata) (mode : PeerMode) :
    List Str :=
  if mode ≠ .legacyIgnore ∨ candidate.peerDependencies.isEmpty then []
  else
    [lit "ignored " ++ Nat.toDigits 10 candidate.peerDependencies.size ++
      lit " peer dependency declaration(s) for " ++ candidate.name ++ '@' ::
      crates.showVersion candidate.version ++
      lit " because legacy peer mode was explicitly selected"]

/-- What a recorded provider should be: a package of the recorded name and version in the
declared range, which the lookup from the consumer's parent finds. -/
structure ProviderFound (crates : Crates) (lock : Lockfile) (consumer name range : Str)
    (provider : PeerProvider) : Prop where
  entry : ∃ entry, lock.packageAt provider.path = some entry ∧ entry.name = provider.name ∧
    lock.registryNameFor entry = provider.name ∧ entry.version = provider.version
  inRange : textInRange crates range provider.version = true
  lookup : lock.nodeLookup (parentPath consumer) name = some provider.path

/-- Every recorded provider is found. -/
def ProvidersFound (crates : Crates) (lock : Lockfile) : Prop :=
  ∀ (path : Str) (resolution : PackageResolution),
    lock.resolution.packages[path]? = some resolution →
    ∀ (name : Str) (provider : PeerProvider), resolution.peerContext[name]? = some provider →
      ∃ dep, resolution.peerDependencies[name]? = some dep ∧
        ProviderFound crates lock path name dep.spec provider

/-- Every required peer of every package has a provider, or a diagnostic says that it does
not. -/
def PeersCovered (crates : Crates) (mode : PeerMode) (lock : Lockfile) (s : GraphResolver) : Prop :=
  ∀ (path : Str) (node : Node), s.nodes[path]? = some node → ∀ name : Str,
    node.metadata.peerDependencies.contains name = true →
    isOptionalPeer node.metadata name = false →
    (∃ resolution, lock.resolution.packages[path]? = some resolution ∧
      resolution.peerContext.contains name = true) ∨
    ∃ message ∈ peerModeDiagnostics crates node.metadata mode, message ∈ s.diagnostics

/-- For every declared peer with a provider in sight, the nearest slot of the peer's name
holds a package of that name in the provider's version; peers that are ignored are all
optional. -/
structure PeersInPlace (crates : Crates) (registry : Registry) (mode : PeerMode)
    (nodes : Map Node) : Prop where
  strict : mode = .strict → ∀ (path : Str) (node : Node), nodes[path]? = some node →
    ∀ name : Str, node.metadata.peerDependencies.contains name = true →
    ∀ provider, (visibleProviders crates registry nodes (parentPath path))[name]? = some provider →
    ∃ slot found, findVisibleAny nodes (parentPath path) name = some slot ∧
      nodes[slot]? = some found ∧ found.placementName = name ∧ aliasedName found = none ∧
      crates.showVersion found.metadata.version = provider.identity.version
  legacy : mode = .legacyIgnore → ∀ (path : Str) (node : Node), nodes[path]? = some node →
    ∀ name : Str, node.metadata.peerDependencies.contains name = true →
      isOptionalPeer node.metadata name = true

/-! ## What binding checks -/

/-- When binding succeeds, peers out of sight are optional, and providers in sight are in
range. -/
theorem bindPeers_checked {crates : Crates} {candidate : VersionMetadata}
    {visible : VisibleProviders} {peers : List (Str × Str)} {context bound : Map ProviderIdentity}
    (hbind : bindPeers crates candidate visible peers context = .ok bound) {name range : Str}
    (hin : (name, range) ∈ peers) :
    (visible.providers[name]? = none → isOptionalPeer candidate name = true) ∧
      ∀ provider, visible.providers[name]? = some provider →
        textInRange crates range provider.identity.version = true := by
  induction peers generalizing context with
  | nil => cases hin
  | cons entry rest ih =>
      obtain ⟨peer, declared⟩ := entry
      unfold bindPeers at hbind
      dsimp only at hbind
      cases hprovider : visible.providers[peer]? with
      | none =>
          rw [hprovider] at hbind
          dsimp only at hbind
          split at hbind
          · rename_i hoptional
            rcases List.mem_cons.mp hin with heq | hin
            · cases heq
              refine ⟨fun _ => hoptional, fun provider hsome => ?_⟩
              rw [hprovider] at hsome
              cases hsome
            · exact ih hbind hin
          · cases hbind
      | some provider =>
          rw [hprovider] at hbind
          dsimp only at hbind
          split at hbind
          · cases hbind
          · rename_i requirement hrange
            split at hbind
            · rename_i haccepts
              rcases List.mem_cons.mp hin with heq | hin
              · cases heq
                refine ⟨fun hnone => ?_, fun provider' hsome => ?_⟩
                · rw [hprovider] at hnone
                  cases hnone
                · rw [hprovider] at hsome
                  cases hsome
                  unfold textInRange
                  rw [hrange, Option.any_some]
                  exact haccepts
              · exact ih hbind hin
            · cases hbind

/-! ## Binding does not move providers -/

/-- A package without its bound peers. -/
def Node.unbound (node : Node) : Node := { node with peerContext := ∅ }

theorem Binds.unbound {s s' : GraphResolver} (hbinds : Binds env mode s s') :
    s'.nodes.map (fun _ node => node.unbound) = s.nodes.map (fun _ node => node.unbound) := by
  induction hbinds with
  | refl => rfl
  | @tail s s' _ hstep ih =>
      rw [← ih]
      cases hstep with
      | bind path node context hnode hbind =>
          refine Std.ExtTreeMap.ext_getElem? fun p => ?_
          rw [Std.ExtTreeMap.getElem?_map, Std.ExtTreeMap.getElem?_map]
          change ((s.nodes.modify path _)[p]?).map _ = _
          rw [Map.get_modify]
          split
          · rename_i heq
            subst heq
            rw [hnode]
            rfl
          · rfl

theorem valuesOf_unbound (nodes : Map Node) :
    Map.valuesOf (nodes.map fun _ node => node.unbound) =
      (Map.valuesOf nodes).map Node.unbound := by
  unfold Map.valuesOf
  rw [Std.ExtTreeMap.toList_map, List.map_map, List.map_map]
  rfl

/-- What a consumer sees does not depend on peers that are bound. -/
theorem visibleProviders_unbound (crates : Crates) (registry : Registry) (nodes : Map Node)
    (parent : Str) :
    visibleProviders crates registry (nodes.map fun _ node => node.unbound) parent =
      visibleProviders crates registry nodes parent := by
  have hdir : providersOfDir crates registry (nodes.map fun _ node => node.unbound) =
      providersOfDir crates registry nodes := by
    funext providers dir
    unfold providersOfDir
    rw [valuesOf_unbound, List.foldl_map]
    rfl
  unfold visibleProviders
  rw [hdir]

theorem Binds.visibleProviders_eq {s s' : GraphResolver} (hbinds : Binds env mode s s')
    (crates : Crates) (registry : Registry) (parent : Str) :
    visibleProviders crates registry s'.nodes parent =
      visibleProviders crates registry s.nodes parent := by
  rw [← visibleProviders_unbound, Binds.unbound hbinds, visibleProviders_unbound]

/-! ## What a resolution reports -/

/-- Every diagnostic is about the platform of a package. -/
def PlatformNotesOnly (s : GraphResolver) : Prop :=
  ∀ message ∈ s.diagnostics, ∃ rest, message = lit "package " ++ rest

/-- The computation reports nothing but packages for other platforms. -/
abbrev Terse {α : Type} (m : Resolve α) : Prop := Run.Keeps PlatformNotesOnly (fun _ => True) m

theorem PlatformNotesOnly.congr {s s' : GraphResolver} (h : PlatformNotesOnly s)
    (hsame : s'.diagnostics = s.diagnostics) : PlatformNotesOnly s' := by
  unfold PlatformNotesOnly
  rw [hsame]
  exact h

theorem announce_diagnostics (s : GraphResolver) (sink : Bool) (path : Str) :
    (s.announce sink path).diagnostics = s.diagnostics := by
  unfold GraphResolver.announce
  split
  · rfl
  · split
    · rfl
    · split <;> rfl

theorem ofExcept_terse {ε' α : Type} (wrap : ε' → Halt) (x : Except ε' α) :
    Terse (Run.ofExcept wrap x : Resolve α) := by
  cases x with
  | ok a => exact Run.Keeps.pure trivial
  | error e => exact Run.Keeps.fail

theorem modify_terse {f : GraphResolver → GraphResolver}
    (h : ∀ s, (f s).diagnostics = s.diagnostics) : Terse (Run.modify f) :=
  Run.Keeps.modify (fun s hs => hs.congr (h s)) trivial

theorem reuseNode_terse (edge : Edge) (path : Str) : Terse (reuseNode edge path) :=
  Run.Keeps.bind (modify_terse fun _ => rfl) fun _ _ => Run.Keeps.pure trivial

theorem unsupportedMessage_package (package : Str) (constraints : PlatformConstraints)
    (target : TargetPlatform) (mismatched : List PlatformDimension) :
    ∃ rest, unsupportedMessage package constraints target mismatched = lit "package " ++ rest := by
  unfold unsupportedMessage
  simp only [List.append_assoc]
  exact ⟨_, rfl⟩

theorem platformAllows_terse (name : Str) (metadata : VersionMetadata) (optional : Bool) :
    Terse (platformAllows env name metadata optional) := by
  unfold platformAllows
  split
  · exact Run.Keeps.pure trivial
  · rename_i message hskip
    refine Run.Keeps.bind (Run.Keeps.modify (P := fun _ => True) (fun s hs => ?_) trivial)
      fun _ _ => Run.Keeps.pure trivial
    intro text htext
    rcases List.mem_append.mp htext with hold | hnew
    · exact hs text hold
    · rw [List.mem_singleton.mp hnew]
      unfold checkPackagePlatform at hskip
      dsimp only at hskip
      split at hskip
      · cases hskip
      · split at hskip
        · cases hskip
        · cases hskip
          exact unsupportedMessage_package _ _ _ _
  · exact Run.Keeps.fail

theorem placeNode_terse (edge : Edge) (node : Node) {placing : GraphResolver → GraphResolver}
    {children : Resolve Unit} (hplacing : ∀ s, (placing s).diagnostics = s.diagnostics)
    (hchildren : Terse children) :
    Terse
      (do
        if ← platformAllows env edge.name node.metadata edge.optional then
          Run.modify placing
          children
          return some node.path
        else
          return none) := by
  refine Run.Keeps.bind (platformAllows_terse _ _ _) fun allowed _ => ?_
  cases allowed with
  | false => exact Run.Keeps.pure trivial
  | true =>
      exact Run.Keeps.bind (modify_terse hplacing) fun _ _ =>
        Run.Keeps.bind hchildren fun _ _ => Run.Keeps.pure trivial

theorem recordTarget_terse (owner name : Str) (target : Option Str) :
    Terse (recordTarget owner name target) := by
  cases target with
  | none => exact Run.Keeps.pure trivial
  | some target => exact modify_terse fun _ => rfl

section Recursion

variable {recur : Edge → Resolve (Option Str)} (hrec : ∀ edge, Terse (recur edge))

include hrec

theorem resolveChildren_terse (parent : Str) (dependencies : Map Str) (optional dev : Bool) :
    Terse (resolveChildren recur parent dependencies optional dev) := by
  refine Run.Keeps.forEach dependencies.toList fun child _ => ?_
  refine Run.Keeps.get_bind fun s => ?_
  exact Run.Keeps.bind (hrec _) fun target _ => recordTarget_terse parent child.1 target

theorem resolveChildrenHoisted_terse (member : Str) (dependencies : Map Str)
    (optional dev : Bool) : Terse (resolveChildrenHoisted recur member dependencies optional dev) := by
  refine Run.Keeps.forEach dependencies.toList fun child _ => ?_
  refine Run.Keeps.get_bind fun s => ?_
  refine Run.Keeps.bind (Run.Keeps.recover (hrec _) fun e => ?_)
    fun target _ => recordTarget_terse member child.1 target
  split
  · exact hrec _
  · exact Run.Keeps.fail

theorem resolveLink_terse (edge : Edge) (link : WorkspaceEdge) :
    Terse (resolveLink env recur edge link) := by
  unfold resolveLink
  refine Run.Keeps.get_bind fun s => ?_
  dsimp only
  split
  · exact reuseNode_terse _ _
  · exact placeNode_terse edge (linkNode env edge link) (fun _ => rfl)
      (resolveChildrenHoisted_terse hrec _ _ _ _)

theorem resolveSourceDependency_terse (edge : Edge) (spec : Str) (source : DependencySource) :
    Terse (resolveSourceDependency env recur edge spec source) := by
  unfold resolveSourceDependency
  refine Run.Keeps.get_bind fun s => ?_
  dsimp only
  split
  · exact reuseNode_terse _ _
  · refine Run.Keeps.bind (ofExcept_terse _ _) fun resolved _ => ?_
    exact placeNode_terse edge (sourceNode edge resolved) (fun _ => announce_diagnostics _ _ _)
      (resolveChildren_terse hrec _ _ _ _)

theorem resolveRegistryDependency_terse (edge : Edge) (spec : Str) :
    Terse (resolveRegistryDependency env recur edge spec) := by
  unfold resolveRegistryDependency
  refine Run.Keeps.get_bind fun s => ?_
  dsimp only
  split
  · exact reuseNode_terse _ _
  · split
    · split
      · exact Run.Keeps.pure trivial
      · exact Run.Keeps.fail
    · refine Run.Keeps.bind (ofExcept_terse _ _) fun artifact _ => ?_
      exact placeNode_terse edge (registryNode edge artifact _)
        (fun _ => announce_diagnostics _ _ _) (resolveChildren_terse hrec _ _ _ _)

theorem resolveDependencyWith_terse (edge : Edge) :
    Terse (resolveDependencyWith env recur edge) := by
  unfold resolveDependencyWith
  refine Run.Keeps.get_bind fun s => ?_
  refine Run.Keeps.bind (ofExcept_terse _ _) fun link _ => ?_
  cases link with
  | some link => exact resolveLink_terse hrec edge link
  | none =>
      dsimp only
      split
      · exact resolveSourceDependency_terse hrec edge _ _
      · exact resolveRegistryDependency_terse hrec edge _

end Recursion

theorem resolveDependency_terse (fuel : Nat) (edge : Edge) :
    Terse (resolveDependency env fuel edge) := by
  induction fuel generalizing edge with
  | zero => exact Run.Keeps.fail
  | succ fuel ih => exact resolveDependencyWith_terse ih edge

theorem resolveRoot_terse (fuel : Nat) (targets : Map Str) (edge : Edge) :
    Terse (resolveRoot env fuel targets edge) := by
  refine Run.Keeps.bind (resolveDependency_terse fuel edge) fun target _ => ?_
  cases target with
  | none => exact Run.Keeps.pure trivial
  | some path => exact Run.Keeps.pure trivial

theorem peerRounds_terse (fuel rounds : Nat) : Terse (peerRounds env mode fuel rounds) := by
  induction rounds with
  | zero => exact Run.Keeps.pure trivial
  | succ rounds ih =>
      refine Run.Keeps.get_bind fun s => ?_
      refine Run.Keeps.bind (ofExcept_terse _ _) fun repairs _ => ?_
      split
      · exact Run.Keeps.pure trivial
      · refine Run.Keeps.bind (Run.Keeps.forEach repairs fun repair _ => ?_) fun _ _ => ih
        refine Run.Keeps.bind (Run.Keeps.recover (resolveDependency_terse fuel _) fun e => ?_)
          fun _ _ => Run.Keeps.pure trivial
        cases e <;> exact Run.Keeps.fail

theorem placeGraph_terse (manifest : PackageManifest) (fuel : Nat) :
    Terse (placeGraph env manifest mode fuel) := by
  unfold placeGraph
  refine Run.Keeps.bind (P := fun _ => True) (Run.Keeps.foldM _ (fun targets _ edge _ =>
    resolveRoot_terse fuel targets edge) trivial) fun targets _ => ?_
  refine Run.Keeps.bind (P := fun _ => True)
    (Run.Keeps.foldM _ (fun targets _ link _ => ?_) trivial) fun targets _ => Run.Keeps.bind (peerRounds_terse fuel 16) fun _ _ => Run.Keeps.pure trivial
  unfold resolveMember
  split
  · exact Run.Keeps.pure trivial
  · exact resolveRoot_terse fuel targets _

theorem bindContexts_terse : Terse (bindContexts env mode) := by
  refine Run.Keeps.get_bind fun s => Run.Keeps.forEach _ fun path _ => ?_
  refine Run.Keeps.get_bind fun s => ?_
  cases s.nodes[path]? with
  | none => exact Run.Keeps.pure trivial
  | some node =>
      exact Run.Keeps.bind (ofExcept_terse _ _) fun context _ => modify_terse fun _ => rfl

/-- A resolution never says that the peers of a package are ignored. -/
theorem resolveManifest_terse (inputs : Inputs) (manifest : PackageManifest) (fuel : Nat) :
    Terse (resolveManifest inputs manifest fuel) :=
  Run.Keeps.bind (ofExcept_terse _ _) fun _ _ =>
    Run.Keeps.bind (placeGraph_terse manifest fuel) fun _ _ =>
      Run.Keeps.bind bindContexts_terse fun _ _ =>
        Run.Keeps.get_bind fun _ => Run.Keeps.pure trivial

theorem PlatformNotesOnly.not_ignored {s : GraphResolver} (h : PlatformNotesOnly s)
    {crates : Crates} {candidate : VersionMetadata} {message : Str}
    (hmessage : message ∈ peerModeDiagnostics crates candidate mode) : message ∉ s.diagnostics := by
  intro hreported
  obtain ⟨rest, hrest⟩ := h message hreported
  unfold peerModeDiagnostics at hmessage
  split at hmessage
  · cases hmessage
  · rw [List.mem_singleton.mp hmessage] at hrest
    simp only [lit, List.append_assoc] at hrest
    exact absurd (List.cons.inj hrest).1 (by decide)

/-! ## The context of a package -/

/-- What strict binding leaves in a package, in terms of the placed packages. -/
structure BoundPeers (crates : Crates) (registry : Registry) (placed : Map Node) (path : Str)
    (node : Node) : Prop where
  recorded : ∀ (name : Str) (recorded : PeerProvider), node.peerContext[name]? = some recorded →
    ∃ range provider, node.metadata.peerDependencies[name]? = some range ∧
      (visibleProviders crates registry placed (parentPath path))[name]? = some provider ∧
      textInRange crates range provider.identity.version = true ∧ recorded.name = name ∧
      recorded.version = provider.identity.version ∧
      recorded.path = (findVisibleAny placed (parentPath path) name).getD []
  bound : ∀ name : Str, node.metadata.peerDependencies.contains name = true →
    (visibleProviders crates registry placed (parentPath path)).contains name = true →
    node.peerContext.contains name = true
  unbound : ∀ name : Str, node.metadata.peerDependencies.contains name = true →
    (visibleProviders crates registry placed (parentPath path))[name]? = none →
    isOptionalPeer node.metadata name = true

/-- A declared peer stands in the list of declarations. -/
theorem declared_mem {declarations : Map Str} {name : Str} (h : declarations.contains name = true) :
    ∃ range, declarations[name]? = some range ∧ (name, range) ∈ declarations.toList := by
  rw [Map.contains_eq_isSome, Option.isSome_iff_exists] at h
  obtain ⟨range, hrange⟩ := h
  exact ⟨range, hrange, Map.mem_toList.mpr hrange⟩

theorem BoundAt.boundPeers {placed s : GraphResolver} (hplaced : Steps env roots .init placed)
    (hbinds : Binds env .strict placed s) {path : Str} {node : Node}
    (hnode : s.nodes[path]? = some node) (hbound : BoundAt env .strict placed path node) :
    BoundPeers env.crates env.registry placed.nodes path node := by
  have hfrom := hbinds.contextFrom hplaced.graphInv.unbound_peers hnode
  obtain ⟨s₀, node₀, context, hbefore, hnode₀, hbind, hcontext⟩ := hbound
  have hmetadata : node₀.metadata = node.metadata := by
    obtain ⟨old, hold, heq⟩ := hbinds.node_back hnode
    obtain ⟨old₀, hold₀, heq₀⟩ := Binds.node_back hbefore hnode₀
    rw [hold] at hold₀
    cases hold₀
    rw [heq, heq₀]
  have hidentity {name : Str} {identity : ProviderIdentity} (h : context[name]? = some identity) :
      identity.name = name := (bindNode_context hbind h).2.2.2
  unfold bindNode bindPeerContext at hbind
  rw [hmetadata, Binds.visibleProviders_eq hbefore] at hbind
  dsimp only at hbind
  constructor
  · intro name recorded hrecorded
    have hpath := (hfrom name recorded hrecorded).2.2.2
    rw [hcontext, Std.ExtTreeMap.getElem?_map] at hrecorded
    obtain ⟨identity, hin, rfl⟩ := Option.map_eq_some_iff.mp hrecorded
    rcases bindPeers_some hbind hin with hempty | ⟨range, hdeclared, provider, hprovider, heq⟩
    · simp at hempty
    · exact ⟨range, provider, Map.mem_toList.mp hdeclared, hprovider,
        (bindPeers_checked hbind hdeclared).2 provider hprovider, hidentity hin,
        congrArg ProviderIdentity.version heq, hpath⟩
  · intro name hdeclared hvisible
    have hin : context.contains name = true := by
      refine bindPeers_contains hbind (Or.inr ⟨?_, hvisible⟩)
      rw [Std.ExtTreeMap.map_fst_toList_eq_keys]
      exact Std.ExtTreeMap.mem_keys.mpr (Std.ExtTreeMap.contains_iff_mem.mp hdeclared)
    rw [Map.contains_eq_isSome, Option.isSome_iff_exists] at hin
    obtain ⟨identity, hin⟩ := hin
    rw [hcontext, Map.contains_eq_isSome, Std.ExtTreeMap.getElem?_map, hin]
    rfl
  · intro name hdeclared hnone
    obtain ⟨range, -, hin⟩ := declared_mem hdeclared
    exact (bindPeers_checked hbind hin).1 hnone

/-- Ignored peers are not recorded. -/
theorem BoundAt.ignored {placed : GraphResolver} {path : Str} {node : Node}
    (hbound : BoundAt env .legacyIgnore placed path node) : node.peerContext = ∅ := by
  obtain ⟨s₀, node₀, context, -, -, hbind, hcontext⟩ := hbound
  cases hbind
  rw [hcontext]
  refine Std.ExtTreeMap.ext_getElem? fun name => ?_
  simp

/-! ## The lockfile -/

/-- A package that is not aliased, or not from a registry, has its own name in the lockfile. -/
theorem registryNameFor_assemble (inputs : Inputs) (manifest : PackageManifest)
    (overrides : OverrideSet) {nodes : Map Node} (hpaths : PathsOwn nodes) {path : Str}
    {node : Node} (hnode : nodes[path]? = some node) :
    (assemble inputs manifest overrides nodes).registryNameFor (packageEntry inputs.crates node) =
        node.placementName ↔ aliasedName node = none := by
  have hpath : (packageEntry inputs.crates node).path = path := hpaths hnode
  unfold Lockfile.registryNameFor
  rw [hpath, assemble_registryNames inputs manifest overrides hpaths, hnode, Option.bind_some]
  constructor
  · intro hname
    cases halias : aliasedName node with
    | none => rfl
    | some name =>
        rw [halias, Option.getD_some] at hname
        unfold aliasedName at halias
        split at halias
        · split at halias
          · cases halias
          · rename_i hne
            cases halias
            exact absurd hname hne
        · cases halias
  · intro hnone
    rw [hnone]
    rfl

theorem nodeLookup_assemble (inputs : Inputs) (manifest : PackageManifest)
    (overrides : OverrideSet) {nodes : Map Node} (hpaths : PathsOwn nodes) (owner name : Str) :
    (assemble inputs manifest overrides nodes).nodeLookup owner name =
      findVisibleAny nodes owner name := by
  unfold Lockfile.nodeLookup findVisibleAny
  congr 1
  funext slot
  rw [assemble_listed inputs manifest overrides hpaths]

/-- A declared and recorded peer of a package, as the lockfile has it. -/
theorem packageResolution_peer {node : Node} {name range : Str} {provider : PeerProvider}
    (hdeclared : node.metadata.peerDependencies[name]? = some range)
    (hprovider : node.peerContext[name]? = some provider) :
    (packageResolution node).peerDependencies[name]? = some ⟨range, provider.path⟩ := by
  change (node.metadata.peerDependencies.filterMap _)[name]? = _
  rw [Std.ExtTreeMap.getElem?_filterMap', hdeclared]
  simp [hprovider]

/-- Every recorded provider of a resolved lockfile is what is found for it, and every
required peer has one, exactly when the placed packages have their peers in place. -/
theorem resolve_peers_iff {inputs : Inputs} {manifest : PackageManifest}
    {overrides : OverrideSet} {fuel : Nat} {lock : Lockfile}
    (hoverrides : OverrideSet.fromManifest inputs.crates manifest.overrides
      manifest.rootDependencyDeclarations .root = .ok overrides)
    (hlock : (resolveManifest inputs manifest fuel .init).1 = .ok lock) :
    (ProvidersFound inputs.crates lock ∧
      PeersCovered inputs.crates inputs.peerMode lock
        (resolveManifest inputs manifest fuel .init).2) ↔
      PeersInPlace inputs.crates inputs.registry inputs.peerMode
        (placeGraph (inputs.env manifest overrides) manifest inputs.peerMode fuel .init).2.nodes := by
  obtain ⟨hplaced, hbinds, hout⟩ := resolveManifest_run hoverrides fuel
  obtain ⟨rfl, -, hcontexts⟩ := hout lock hlock
  have hterse : PlatformNotesOnly (resolveManifest inputs manifest fuel .init).2 :=
    (resolveManifest_terse inputs manifest fuel .init (fun _ h => nomatch h)).1
  generalize (placeGraph (inputs.env manifest overrides) manifest inputs.peerMode fuel
    .init).2 = placed at *
  generalize (resolveManifest inputs manifest fuel .init).2 = s at *
  have hpaths : PathsOwn s.nodes := hbinds.pathsOwn hplaced.graphInv.path_eq
  have hlookup (owner name : Str) : (assemble inputs manifest overrides s.nodes).nodeLookup owner
      name = findVisibleAny placed.nodes owner name := by
    rw [nodeLookup_assemble inputs manifest overrides hpaths]
    exact findVisibleAny_congr hbinds.contains owner name
  have hresolution := assemble_resolution inputs manifest overrides hpaths
  have hreported {node : Node} (h : ∃ message ∈ peerModeDiagnostics inputs.crates node.metadata
      inputs.peerMode, message ∈ s.diagnostics) : False := by
    obtain ⟨message, hmessage, hin⟩ := h
    exact hterse.not_ignored hmessage hin
  cases hmode : inputs.peerMode with
  | legacyIgnore =>
      have hempty {path : Str} {node : Node} (hnode : s.nodes[path]? = some node) :
          node.peerContext = ∅ := by
        have hbound := bindContexts_boundAt hcontexts hnode
        rw [hmode] at hbound
        exact hbound.ignored
      constructor
      · rintro ⟨-, hcovered⟩
        refine ⟨nofun, fun _ path old hold name hdeclared => ?_⟩
        obtain ⟨node, hnode, hsame⟩ := hbinds.grows.nodes hold
        have hmetadata : node.metadata = old.metadata := by rw [hsame]
        by_contra hrequired
        rcases hcovered path node hnode name (by rw [hmetadata]; exact hdeclared)
          (by rw [hmetadata]; exact Bool.eq_false_iff.mpr hrequired) with ⟨resolution, hin, hhas⟩ | hsaid
        · rw [hresolution, hnode] at hin
          cases hin
          change node.peerContext.contains name = true at hhas
          rw [hempty hnode] at hhas
          simp at hhas
        · rw [← hmode] at hsaid
          exact hreported hsaid
      · intro h
        refine ⟨?_, ?_⟩
        · intro path resolution hin name provider hprovider
          rw [hresolution] at hin
          obtain ⟨node, hnode, rfl⟩ := Option.map_eq_some_iff.mp hin
          change node.peerContext[name]? = some provider at hprovider
          rw [hempty hnode] at hprovider
          simp at hprovider
        · intro path node hnode name hdeclared hrequired
          obtain ⟨old, hold, heq⟩ := hbinds.node_back hnode
          have hmetadata : node.metadata = old.metadata := by rw [heq]
          rw [hmetadata] at hdeclared hrequired
          rw [h.legacy rfl path old hold name hdeclared] at hrequired
          cases hrequired
  | strict =>
      have hpeers {path : Str} {node : Node} (hnode : s.nodes[path]? = some node) :
          BoundPeers inputs.crates inputs.registry placed.nodes path node := by
        have hbound := bindContexts_boundAt hcontexts hnode
        rw [hmode] at hbinds hbound
        exact hbound.boundPeers hplaced hbinds hnode
      constructor
      · rintro ⟨hfound, -⟩
        refine ⟨fun _ path old hold name hdeclared provider hprovider => ?_, nofun⟩
        obtain ⟨node, hnode, hsame⟩ := hbinds.grows.nodes hold
        have hmetadata : node.metadata = old.metadata := by rw [hsame]
        -- The peer is declared and its provider in sight, so that it is recorded.
        have hin := (hpeers hnode).bound name (by rw [hmetadata]; exact hdeclared)
          (by rw [Map.contains_eq_isSome, hprovider]; rfl)
        rw [Map.contains_eq_isSome, Option.isSome_iff_exists] at hin
        obtain ⟨recorded, hrecorded⟩ := hin
        obtain ⟨range, provider', -, hprovider', -, hname, hversion, -⟩ :=
          (hpeers hnode).recorded name recorded hrecorded
        cases hprovider.symm.trans hprovider'
        obtain ⟨dep, -, hdep⟩ := hfound path (packageResolution node)
          (by rw [hresolution, hnode]; rfl) name recorded hrecorded
        have hslot := hdep.lookup
        rw [hlookup] at hslot
        have hthere : placed.nodes.contains recorded.path = true := List.find?_some hslot
        rw [Map.contains_eq_isSome, Option.isSome_iff_exists] at hthere
        obtain ⟨found, hslotFound⟩ := hthere
        obtain ⟨final, hfinal, hfinalSame⟩ := hbinds.grows.nodes hslotFound
        obtain ⟨entry, hentry, hentryName, hregistry, hentryVersion⟩ := hdep.entry
        rw [assemble_packageAt inputs manifest overrides hpaths hfinal] at hentry
        cases hentry
        have hplacement : final.placementName = found.placementName := by rw [hfinalSame]
        have halias : aliasedName final = aliasedName found := by rw [hfinalSame]; rfl
        have hfinalVersion : final.metadata.version = found.metadata.version := by rw [hfinalSame]
        refine ⟨recorded.path, found, hslot, hslotFound, ?_, ?_, ?_⟩
        · rw [← hplacement, ← hname]
          exact hentryName
        · rw [← halias, ← registryNameFor_assemble inputs manifest overrides hpaths hfinal]
          exact hregistry.trans hentryName.symm
        · rw [← hfinalVersion, ← hversion]
          exact hentryVersion
      · intro h
        refine ⟨?_, ?_⟩
        · intro path resolution hin name recorded hrecorded
          rw [hresolution] at hin
          obtain ⟨node, hnode, rfl⟩ := Option.map_eq_some_iff.mp hin
          change node.peerContext[name]? = some recorded at hrecorded
          obtain ⟨range, provider, hrange, hprovider, haccepted, hname, hversion, hpath⟩ :=
            (hpeers hnode).recorded name recorded hrecorded
          obtain ⟨old, hold, heq⟩ := hbinds.node_back hnode
          have hmetadata : node.metadata = old.metadata := by rw [heq]
          obtain ⟨slot, found, hslot, hslotFound, hplacement, halias, hfoundVersion⟩ :=
            h.strict rfl path old hold name
              (by rw [← hmetadata, Map.contains_eq_isSome, hrange]; rfl) provider hprovider
          have hslotPath : recorded.path = slot := by rw [hpath, hslot]; rfl
          obtain ⟨final, hfinal, hfinalSame⟩ := hbinds.grows.nodes hslotFound
          have hfinalPlacement : final.placementName = name := by rw [hfinalSame]; exact hplacement
          have hfinalAlias : aliasedName final = none := by rw [hfinalSame]; exact halias
          have hfinalVersion : final.metadata.version = found.metadata.version := by
            rw [hfinalSame]
          refine ⟨⟨range, recorded.path⟩, packageResolution_peer hrange hrecorded, ?_, ?_, ?_⟩
          · refine ⟨packageEntry inputs.crates final, ?_, ?_, ?_, ?_⟩
            · rw [hslotPath]
              exact assemble_packageAt inputs manifest overrides hpaths hfinal
            · exact hfinalPlacement.trans hname.symm
            · rw [(registryNameFor_assemble inputs manifest overrides hpaths hfinal).mpr hfinalAlias,
                hfinalPlacement, hname]
            · change inputs.crates.showVersion final.metadata.version = recorded.version
              rw [hfinalVersion, hfoundVersion, hversion]
          · rw [hversion]
            exact haccepted
          · rw [hlookup, hslot, hslotPath]
        · intro path node hnode name hdeclared hrequired
          refine Or.inl ⟨packageResolution node, by rw [hresolution, hnode]; rfl, ?_⟩
          cases hprovider : (visibleProviders inputs.crates inputs.registry placed.nodes
              (parentPath path))[name]? with
          | none =>
              rw [(hpeers hnode).unbound name hdeclared hprovider] at hrequired
              cases hrequired
          | some provider =>
              exact (hpeers hnode).bound name hdeclared
                (by rw [Map.contains_eq_isSome, hprovider]; rfl)

/-- The equivalence for the project where `p` has its peer `q` in place. -/
theorem resolve_peers_sharedPeer : ∃ lock,
    (Project.run sharedPeer sharedPeerRoots [] 5).1 = .ok lock ∧
    ((ProvidersFound Release.crates lock ∧
      PeersCovered Release.crates .strict lock (Project.run sharedPeer sharedPeerRoots [] 5).2) ↔
      PeersInPlace Release.crates (Release.registry sharedPeer) .strict
        (placeGraph (Project.env sharedPeer) (Project.manifest sharedPeerRoots []) .strict 5
          .init).2.nodes) := by
  obtain ⟨lock, hlock, -⟩ := Project.run_ok
    (o := (Project.run sharedPeer sharedPeerRoots [] 5).1)
    (c := fun lock => lock.packages.length == 3) (by decide +kernel)
  exact ⟨lock, hlock, resolve_peers_iff (Project.no_overrides _ _ _) hlock⟩

/-- The provider of a peer that the project has under another name is recorded without a
path. -/
theorem resolve_peers_misplaced :
    ¬ ∀ (inputs : Inputs) (manifest : PackageManifest) (fuel : Nat) (lock : Lockfile),
      (resolveManifest inputs manifest fuel .init).1 = .ok lock →
      ProvidersFound inputs.crates lock ∧
        PeersCovered inputs.crates inputs.peerMode lock
          (resolveManifest inputs manifest fuel .init).2 := by
  intro hall
  obtain ⟨lock, hlock, hbad⟩ := Project.run_ok
    (o := (Project.run peerOfAlias peerOfAliasRoots [] 5).1)
    (c := fun lock => lock.resolution.packages.toList.any fun entry =>
      entry.2.peerContext.toList.any fun peer => (lock.packageAt peer.2.path).isNone)
    (by decide +kernel)
  obtain ⟨hfound, -⟩ := hall (Project.inputs peerOfAlias) (Project.manifest peerOfAliasRoots []) 5
    lock hlock
  obtain ⟨⟨path, resolution⟩, hin, hpeer⟩ := List.any_eq_true.mp hbad
  obtain ⟨⟨name, provider⟩, hprovider, hnone⟩ := List.any_eq_true.mp hpeer
  obtain ⟨dep, -, hdep⟩ := hfound path resolution (Map.mem_toList.mp hin) name provider
    (Map.mem_toList.mp hprovider)
  obtain ⟨entry, hentry, -⟩ := hdep.entry
  rw [hentry] at hnone
  cases hnone

end Bpm
