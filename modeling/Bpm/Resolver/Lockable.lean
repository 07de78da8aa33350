import Bpm.Lockfile.RoundTrip
import Bpm.Resolver.Lookup

/-!
# Reading back a resolved lockfile

The resolver builds the paths, sources and peer references of a lockfile without
the rules of the reader.  Some rules hold by construction: packages are listed
once, in order, and every dependency target is a listed package.  The others are
conditions on the placed packages, `Lockable`, and the lockfile is read back
exactly when every placed package meets them.
-/

namespace Bpm

open Text Relation

variable {env : Env} {roots : Edge → Prop} {mode : PeerMode}

/-! ## Every peer with a provider in sight is bound -/

/-- Entering a directory drops no provider, and adds every package in it. -/
theorem providersOfDir_contains {crates : Crates} {registry : Registry} {nodes : Map Node}
    {providers : Map VisibleProvider} {dir name : Str}
    (h : providers.contains name = true ∨ ∃ (path : Str) (node : Node),
      nodes[path]? = some node ∧ node.path = childPath dir node.placementName ∧
        node.metadata.name = name) :
    (providersOfDir crates registry nodes providers dir).contains name = true := by
  refine Map.contains_foldl (fun acc node hacc => ?_) (h.imp_right ?_)
  · split
    · rw [Std.ExtTreeMap.contains_insertIfNew, hacc, Bool.or_true]
    · exact hacc
  · rintro ⟨path, node, hnode, hslot, rfl⟩
    refine ⟨node, Map.mem_valuesOf.mpr ⟨path, hnode⟩, fun acc => ?_⟩
    rw [if_pos hslot]
    simp

/-- A provider in sight is among the visible ones. -/
theorem visibleProviders_contains {crates : Crates} {registry : Registry} {nodes : Map Node}
    {parent name : Str} (h : SeesProvider nodes parent name) :
    (visibleProviders crates registry nodes parent).contains name = true := by
  obtain ⟨dir, hdir, hpackage⟩ := h
  exact Map.contains_foldl (fun acc dir hacc => providersOfDir_contains (Or.inl hacc))
    (Or.inr ⟨dir, hdir, fun acc => providersOfDir_contains (Or.inr hpackage)⟩)

/-- When binding succeeds, every declared peer with a visible provider is bound. -/
theorem bindPeers_contains {crates : Crates} {candidate : VersionMetadata}
    {visible : VisibleProviders} {peers : List (Str × Str)} {context bound : Map ProviderIdentity}
    (hbind : bindPeers crates candidate visible peers context = .ok bound) {name : Str}
    (h : context.contains name = true ∨
      name ∈ peers.map Prod.fst ∧ visible.providers.contains name = true) :
    bound.contains name = true := by
  induction peers generalizing context with
  | nil =>
      cases hbind
      refine h.resolve_right ?_
      simp
  | cons entry rest ih =>
      obtain ⟨peer, range⟩ := entry
      unfold bindPeers at hbind
      dsimp only at hbind
      have hrest : name ∈ ((peer, range) :: rest).map Prod.fst → name = peer ∨
          name ∈ rest.map Prod.fst := fun hin => List.mem_cons.mp hin
      cases hprovider : visible.providers[peer]? with
      | none =>
          rw [hprovider] at hbind
          dsimp only at hbind
          split at hbind
          · refine ih hbind (h.imp_right ?_)
            rintro ⟨hin, hseen⟩
            refine ⟨(hrest hin).resolve_left ?_, hseen⟩
            rintro rfl
            rw [Map.contains_eq_isSome, hprovider] at hseen
            cases hseen
          · cases hbind
      | some provider =>
          rw [hprovider] at hbind
          dsimp only at hbind
          split at hbind
          · cases hbind
          · split at hbind
            · refine ih hbind ?_
              rw [Map.contains_insert]
              rcases h with hold | ⟨hin, hseen⟩
              · exact Or.inl (by rw [hold, Bool.or_true])
              · rcases hrest hin with rfl | hin
                · exact Or.inl (by simp)
                · exact Or.inr ⟨hin, hseen⟩
            · cases hbind

/-- The context of a package is the one that binding computed at some point. -/
def BoundAt (env : Env) (mode : PeerMode) (placed : GraphResolver) (path : Str) (node : Node) :
    Prop :=
  ∃ s node₀ context, Binds env mode placed s ∧ s.nodes[path]? = some node₀ ∧
    bindNode env mode s.nodes path node₀ = .ok context ∧
    node.peerContext = context.map fun _ provider =>
      recordedProvider env s.nodes (parentPath path) provider

/-- One binding: the package is bound, and what was bound before stays so. -/
theorem bindContext_boundAt {placed s s' : GraphResolver} {path : Str}
    (hbefore : Binds env mode placed s) (h : bindContext env mode path s = (.ok (), s')) :
    Binds env mode placed s' ∧
      ∀ {p : Str} {node' : Node}, s'.nodes[p]? = some node' →
        BoundAt env mode placed p node' ∨ p ≠ path ∧ s.nodes[p]? = some node' := by
  unfold bindContext at h
  rw [Run.bind_ok (show Run.get s = (.ok s, s) from rfl)] at h
  cases hnode : s.nodes[path]? with
  | none =>
      rw [hnode] at h
      cases h
      refine ⟨hbefore, fun {p node'} hp => Or.inr ⟨?_, hp⟩⟩
      rintro rfl
      rw [hnode] at hp
      cases hp
  | some node =>
      rw [hnode] at h
      dsimp only at h
      cases hbind : bindNode env mode s.nodes path node with
      | error e =>
          rw [hbind] at h
          cases h
      | ok context =>
          rw [hbind] at h
          cases h
          refine ⟨hbefore.tail (.bind s path node context hnode hbind), ?_⟩
          intro p node' hp
          change (s.nodes.modify path _)[p]? = some node' at hp
          rw [Map.get_modify] at hp
          split at hp
          · rename_i heq
            subst heq
            rw [hnode] at hp
            cases hp
            exact Or.inl ⟨s, node, context, hbefore, hnode, hbind, rfl⟩
          · rename_i hne
            exact Or.inr ⟨fun heq => hne heq.symm, hp⟩

/-- Binding a list of packages binds every one of them. -/
theorem forEach_bindContext_boundAt {placed s s' : GraphResolver} {paths : List Str}
    (hbefore : Binds env mode placed s)
    (h : Run.forEach (bindContext env mode) paths s = (.ok (), s')) {p : Str} {node' : Node}
    (hp : s'.nodes[p]? = some node') :
    BoundAt env mode placed p node' ∨ p ∉ paths ∧ s.nodes[p]? = some node' := by
  induction paths generalizing s with
  | nil =>
      cases h
      exact Or.inr ⟨List.not_mem_nil, hp⟩
  | cons path paths ih =>
      change (bindContext env mode path >>= fun _ => Run.forEach (bindContext env mode) paths) s =
        (.ok (), s') at h
      cases hstep : bindContext env mode path s with
      | mk r s₁ =>
          cases r with
          | error e =>
              rw [Run.bind_error hstep] at h
              cases h
          | ok u =>
              rw [Run.bind_ok hstep] at h
              obtain ⟨hbinds, hnodes⟩ := bindContext_boundAt hbefore hstep
              rcases ih hbinds h with hbound | ⟨hnot, hp₁⟩
              · exact Or.inl hbound
              · rcases hnodes hp₁ with hbound | ⟨hne, hp₀⟩
                · exact Or.inl hbound
                · exact Or.inr ⟨fun hin => (List.mem_cons.mp hin).elim hne hnot, hp₀⟩

/-- After binding, every package is bound. -/
theorem bindContexts_boundAt {placed s : GraphResolver}
    (h : bindContexts env mode placed = (.ok (), s)) {path : Str} {node : Node}
    (hnode : s.nodes[path]? = some node) : BoundAt env mode placed path node := by
  change Run.forEach (bindContext env mode) placed.nodes.keys placed = (.ok (), s) at h
  rcases forEach_bindContext_boundAt .refl h hnode with hbound | ⟨hnot, hplaced⟩
  · exact hbound
  · refine absurd (Std.ExtTreeMap.mem_keys.mpr ?_) hnot
    rw [← Std.ExtTreeMap.contains_iff_mem, Map.contains_eq_isSome, hplaced]
    rfl

/-! ## What the reader asks of a placed package -/

/-- What the reader asks of a placed package beyond what placement ensures: a safe
and legal path, safe executables, a valid registry name behind an alias, a
complete source, and for every peer with a provider in sight a slot under the
peer's own name. -/
structure Lockable (crates : Crates) (mode : PeerMode) (nodes : Map Node) (path : Str)
    (node : Node) : Prop where
  safe : checkPackageSafety (packageEntry crates node) = .ok ()
  legal : legalRelativePath path = true
  registryName : ∀ name, aliasedName node = some name → isValidNpmReadName name = true
  source : checkSource path (packageEntry crates node) (packageResolution node) = .ok ()
  peers : mode = .strict → ∀ name, node.metadata.peerDependencies.contains name = true →
    SeesProvider nodes (parentPath path) name →
    (findVisibleAny nodes (parentPath path) name).isSome = true

/-- A search by path in a list with distinct paths. -/
theorem find_path_eq {packages : List PackageEntry} {entry : PackageEntry}
    (hmem : entry ∈ packages)
    (hunique : ∀ e ∈ packages, e.path = entry.path → e = entry) :
    packages.find? (·.path == entry.path) = some entry := by
  cases hfind : packages.find? (·.path == entry.path) with
  | none => simpa using List.find?_eq_none.mp hfind entry hmem
  | some found =>
      have hpath := List.find?_some hfind
      rw [hunique found (List.mem_of_find?_eq_some hfind) (eq_of_beq hpath)]

section Assemble

variable (inputs : Inputs) (manifest : PackageManifest) (overrides : OverrideSet)
  {nodes : Map Node}

/-- The entry at a path is that of the node there. -/
theorem assemble_packageAt (hpaths : PathsOwn nodes) {path : Str} {node : Node}
    (hnode : nodes[path]? = some node) :
    (assemble inputs manifest overrides nodes).packageAt path =
      some (packageEntry inputs.crates node) := by
  have hpath : (packageEntry inputs.crates node).path = path := hpaths hnode
  unfold Lockfile.packageAt
  rw [← hpath]
  refine find_path_eq ?_ ?_
  · exact (mem_assemble_packages inputs manifest overrides nodes).mpr ⟨path, node, hnode, rfl⟩
  · intro e he heq
    obtain ⟨p, other, hother, rfl⟩ :=
      (mem_assemble_packages inputs manifest overrides nodes).mp he
    have hsame : p = path := by
      rw [← hpaths hother, ← hpath]
      exact heq
    rw [hsame, hnode] at hother
    cases hother
    rfl

/-- The packages of a resolved lockfile have distinct paths. -/
theorem assemble_nodup (hpaths : PathsOwn nodes) :
    ((assemble inputs manifest overrides nodes).packages.map (·.path)).Nodup := by
  refine (((assemble_packages_perm inputs manifest overrides nodes).map _).nodup_iff).mpr ?_
  have hkeys : ((Map.valuesOf nodes).map (packageEntry inputs.crates)).map (·.path) =
      nodes.toList.map Prod.fst := by
    unfold Map.valuesOf
    rw [List.map_map, List.map_map]
    refine List.map_congr_left fun entry hentry => ?_
    exact hpaths (Map.mem_toList.mp hentry)
  rw [hkeys]
  refine List.pairwise_map.mpr ?_
  exact Std.ExtTreeMap.distinct_keys_toList.imp fun hne heq => hne (by simp [heq])

/-- A resolved lockfile is already in canonical form. -/
theorem assemble_canonical (hpaths : PathsOwn nodes) :
    (assemble inputs manifest overrides nodes).canonical =
      assemble inputs manifest overrides nodes := by
  refine Lockfile.canonical_eq_self (Lockfile.sortPackages_sorted _) rfl ?_
  intro path package hpackage
  rw [assemble_resolution inputs manifest overrides hpaths] at hpackage
  obtain ⟨node, _, rfl⟩ := Option.map_eq_some_iff.mp hpackage
  rfl

/-- The registry names of a resolved lockfile are those of its aliased packages. -/
theorem assemble_registryNames (hpaths : PathsOwn nodes) (path : Str) :
    (assemble inputs manifest overrides nodes).resolution.registryNames[path]? =
      nodes[path]?.bind aliasedName := by
  rw [← Map.get_foldl_valuesOf_bind aliasedName hpaths path]
  change ((Map.valuesOf nodes).foldl _ ∅)[path]? = _
  congr 2
  funext acc node
  cases aliasedName node <;> rfl

/-- A registry name in a resolved lockfile passes when it is a valid name. -/
theorem checkRegistryName_assemble (hpaths : PathsOwn nodes) {path name : Str} {node : Node}
    (hnode : nodes[path]? = some node) (halias : aliasedName node = some name) :
    (assemble inputs manifest overrides nodes).checkRegistryName (path, name) = .ok () ↔
      isValidNpmReadName name = true := by
  have hne : name ≠ node.placementName := by
    unfold aliasedName at halias
    split at halias
    · split at halias
      · cases halias
      · rename_i hname
        cases halias
        exact hname
    · cases halias
  have hempty : isValidNpmReadName name = true → name.isEmpty = false := by
    intro hvalid
    cases name with
    | nil => exact absurd hvalid (by decide)
    | cons c cs => rfl
  unfold Lockfile.checkRegistryName
  rw [assemble_packageAt inputs manifest overrides hpaths hnode]
  dsimp only
  rw [bind_ok_iff, bind_ok_iff, invalidIf_ok_iff, invalidIf_ok_iff, invalidIf_ok_iff]
  constructor
  · rintro ⟨-, -, hvalid⟩
    simpa using hvalid
  · intro hvalid
    exact ⟨hempty hvalid, beq_false_of_ne hne, by rw [hvalid]; rfl⟩

/-- Targets pass when they are placed packages. -/
theorem checkTargets_assemble (hpaths : PathsOwn nodes) {path group : Str}
    {dependencies : Map LockDependency} :
    (assemble inputs manifest overrides nodes).checkTargets path group dependencies = .ok () ↔
      ∀ (name : Str) (dep : LockDependency), dependencies[name]? = some dep →
        nodes.contains dep.target = true := by
  unfold Lockfile.checkTargets Lockfile.hasPath
  rw [checkAll_ok_iff]
  simp only [invalidIf_ok_iff, assemble_listed inputs manifest overrides hpaths,
    Bool.not_eq_false']
  exact ⟨fun h name dep hdep => h (name, dep) (Map.mem_toList.mpr hdep),
    fun h entry hentry => h entry.1 entry.2 (Map.mem_toList.mp hentry)⟩

/-- The metadata of a package whose dependency targets are placed passes when its
source and its providers do. -/
theorem checkResolution_assemble (hpaths : PathsOwn nodes) {path : Str} {node : Node}
    (hnode : nodes[path]? = some node)
    (htargets : ∀ (name target : Str), node.targets[name]? = some target →
      nodes.contains target = true) :
    (assemble inputs manifest overrides nodes).checkResolution (path, packageResolution node) =
        .ok () ↔
      checkSource path (packageEntry inputs.crates node) (packageResolution node) = .ok () ∧
        ∀ (name : Str) (provider : PeerProvider), node.peerContext[name]? = some provider →
          nodes.contains provider.path = true := by
  unfold Lockfile.checkResolution
  rw [assemble_packageAt inputs manifest overrides hpaths hnode]
  dsimp only
  rw [bind_ok_iff, bind_ok_iff, bind_ok_iff, bind_ok_iff, checkAll_ok_iff,
    checkTargets_assemble inputs manifest overrides hpaths,
    checkTargets_assemble inputs manifest overrides hpaths,
    checkTargets_assemble inputs manifest overrides hpaths]
  have hlisted := assemble_listed inputs manifest overrides hpaths
  unfold Lockfile.hasPath
  simp only [invalidIf_ok_iff, hlisted, Bool.not_eq_false']
  constructor
  · rintro ⟨hsource, -, -, -, hproviders⟩
    exact ⟨hsource, fun name provider hprovider =>
      hproviders (name, provider) (Map.mem_toList.mpr hprovider)⟩
  · rintro ⟨hsource, hproviders⟩
    refine ⟨hsource, fun name dep hdep => htargets _ _ (boundTargets_some hdep),
      fun name dep hdep => htargets _ _ (boundTargets_some hdep), ?_,
      fun entry hentry => hproviders entry.1 entry.2 (Map.mem_toList.mp hentry)⟩
    intro name dep hdep
    change (node.metadata.peerDependencies.filterMap _)[name]? = some dep at hdep
    rw [Std.ExtTreeMap.getElem?_filterMap', Option.bind_eq_some_iff] at hdep
    obtain ⟨range, _, hdep⟩ := hdep
    obtain ⟨provider, hprovider, rfl⟩ := Option.map_eq_some_iff.mp hdep
    exact hproviders name provider hprovider

/-- A resolved lockfile is read back when every package passes what is not ensured
by construction. -/
theorem assemble_reread_iff {io : SerdeJson} (hpaths : PathsOwn nodes)
    (hio : io.ReadsBack (assemble inputs manifest overrides nodes).canonical)
    (htargets : ∀ (path : Str) (node : Node), nodes[path]? = some node →
      ∀ (name target : Str), node.targets[name]? = some target →
        nodes.contains target = true) :
    Lockfile.fromJson io (Lockfile.toJson io (assemble inputs manifest overrides nodes)) =
        .ok (assemble inputs manifest overrides nodes).canonical ↔
      ∀ (path : Str) (node : Node), nodes[path]? = some node →
        checkPackageSafety (packageEntry inputs.crates node) = .ok () ∧
        legalRelativePath path = true ∧
        (∀ name, aliasedName node = some name → isValidNpmReadName name = true) ∧
        checkSource path (packageEntry inputs.crates node) (packageResolution node) = .ok () ∧
        ∀ (name : Str) (provider : PeerProvider), node.peerContext[name]? = some provider →
          nodes.contains provider.path = true := by
  have hcanonical := assemble_canonical inputs manifest overrides hpaths
  have hmem := @mem_assemble_packages inputs manifest overrides nodes
  have hsorted : (assemble inputs manifest overrides nodes).packages.Pairwise Lockfile.pathLe :=
    Lockfile.sortPackages_sorted _
  rw [Lockfile.fromJson_toJson_iff rfl hio, hcanonical, validatePackageSafety_ok_iff,
    validateV2_ok_iff, Lockfile.checkPaths_sorted_iff hsorted
      (assemble_nodup inputs manifest overrides hpaths)]
  constructor
  · rintro ⟨hsafe, hlegal, hnames, hresolution⟩ path node hnode
    have hentry := hmem.mpr ⟨path, node, hnode, rfl⟩
    have hmetadata : (path, packageResolution node) ∈
        (assemble inputs manifest overrides nodes).resolution.packages.toList := by
      rw [Map.mem_toList, assemble_resolution inputs manifest overrides hpaths, hnode]
      rfl
    obtain ⟨hsource, hproviders⟩ := (checkResolution_assemble inputs manifest overrides hpaths
      hnode (htargets path node hnode)).mp (hresolution _ hmetadata)
    refine ⟨hsafe _ hentry, ?_, fun name halias => ?_, hsource, hproviders⟩
    · rw [← hpaths hnode]
      exact hlegal _ hentry
    · refine (checkRegistryName_assemble inputs manifest overrides hpaths hnode halias).mp
        (hnames (path, name) ?_)
      rw [Map.mem_toList, assemble_registryNames inputs manifest overrides hpaths, hnode]
      exact halias
  · intro h
    refine ⟨fun entry hentry => ?_, fun entry hentry => ?_, fun entry hentry => ?_,
      fun entry hentry => ?_⟩
    · obtain ⟨path, node, hnode, rfl⟩ := hmem.mp hentry
      exact (h path node hnode).1
    · obtain ⟨path, node, hnode, rfl⟩ := hmem.mp hentry
      change legalRelativePath node.path = true
      rw [hpaths hnode]
      exact (h path node hnode).2.1
    · obtain ⟨path, name⟩ := entry
      rw [Map.mem_toList, assemble_registryNames inputs manifest overrides hpaths,
        Option.bind_eq_some_iff] at hentry
      obtain ⟨node, hnode, halias⟩ := hentry
      exact (checkRegistryName_assemble inputs manifest overrides hpaths hnode halias).mpr
        ((h path node hnode).2.2.1 name halias)
    · obtain ⟨path, metadata⟩ := entry
      rw [Map.mem_toList, assemble_resolution inputs manifest overrides hpaths] at hentry
      obtain ⟨node, hnode, rfl⟩ := Option.map_eq_some_iff.mp hentry
      exact (checkResolution_assemble inputs manifest overrides hpaths hnode
        (htargets path node hnode)).mpr (h path node hnode).2.2.2

end Assemble

/-! ## The whole resolution -/

theorem SeesProvider.mono {s s' : GraphResolver} (hgrows : Grows s s') {parent name : Str}
    (h : SeesProvider s.nodes parent name) : SeesProvider s'.nodes parent name := by
  obtain ⟨dir, hdir, path, node, hnode, hslot, hname⟩ := h
  obtain ⟨node', hnode', hsame⟩ := hgrows.nodes hnode
  refine ⟨dir, hdir, path, node', hnode', ?_⟩
  rw [hsame]
  exact ⟨hslot, hname⟩

/-- The recorded providers of a bound package are placed exactly when every peer
with a provider in sight has a slot under its own name. -/
theorem providers_placed_iff {placed s : GraphResolver} (hplaced : Steps env roots .init placed)
    (hbinds : Binds env mode placed s) {path : Str} {node : Node}
    (hnode : s.nodes[path]? = some node) (hbound : BoundAt env mode placed path node) :
    (∀ (name : Str) (provider : PeerProvider), node.peerContext[name]? = some provider →
        s.nodes.contains provider.path = true) ↔
      (mode = .strict → ∀ name, node.metadata.peerDependencies.contains name = true →
        SeesProvider placed.nodes (parentPath path) name →
        (findVisibleAny placed.nodes (parentPath path) name).isSome = true) := by
  have hfrom := hbinds.contextFrom hplaced.graphInv.unbound_peers hnode
  constructor
  · rintro h rfl name hdeclared hsees
    obtain ⟨s₀, node₀, context, hbefore, hnode₀, hbind, hcontext⟩ := hbound
    have hmetadata : node₀.metadata = node.metadata := by
      obtain ⟨old, hold, heq⟩ := hbinds.node_back hnode
      obtain ⟨old₀, hold₀, heq₀⟩ := Binds.node_back hbefore hnode₀
      rw [hold] at hold₀
      cases hold₀
      rw [heq, heq₀]
    have hin : context.contains name = true := by
      unfold bindNode bindPeerContext at hbind
      refine bindPeers_contains hbind (Or.inr ⟨?_, ?_⟩)
      · rw [hmetadata, Std.ExtTreeMap.map_fst_toList_eq_keys]
        exact Std.ExtTreeMap.mem_keys.mpr (Std.ExtTreeMap.contains_iff_mem.mp hdeclared)
      · exact visibleProviders_contains (hsees.mono (Binds.grows hbefore))
    rw [Map.contains_eq_isSome, Option.isSome_iff_exists] at hin
    obtain ⟨identity, hidentity⟩ := hin
    obtain ⟨provider, hprovider⟩ : ∃ provider, node.peerContext[name]? = some provider := by
      rw [hcontext, Std.ExtTreeMap.getElem?_map, hidentity]
      exact ⟨_, rfl⟩
    have hthere := h name provider hprovider
    rw [(hfrom name provider hprovider).2.2.2, hbinds.contains] at hthere
    -- The empty path is no package, so the provider was found under its own name.
    cases hfound : findVisibleAny placed.nodes (parentPath path) name with
    | some target => rfl
    | none =>
        rw [hfound, Option.getD_none, Map.contains_eq_isSome, Option.isSome_iff_exists] at hthere
        obtain ⟨empty, hempty⟩ := hthere
        exact absurd rfl (hplaced.path_ne_nil hempty)
  · intro h name provider hprovider
    obtain ⟨hmode, hdeclared, hsees, hpath⟩ := hfrom name provider hprovider
    obtain ⟨target, htarget⟩ := Option.isSome_iff_exists.mp (h hmode name hdeclared hsees)
    rw [hbinds.contains, hpath, htarget]
    exact List.find?_some htarget

/-- Every target that a package records is a placed package. -/
theorem Steps.target_placed {s : GraphResolver} (h : Steps env roots .init s) {path : Str}
    {node : Node} (hnode : s.nodes[path]? = some node) {name target : Str}
    (htarget : node.targets[name]? = some target) : s.nodes.contains target = true := by
  obtain ⟨ev, hev, _, _, rfl⟩ := h.graphInv.bound hnode htarget
  obtain ⟨_, _, _, _, _, _, _, _, hthere, _⟩ := h.event hev
  rw [Map.contains_eq_isSome, hthere]
  rfl

/-- A resolved lockfile is read back exactly when every placed package is lockable. -/
theorem resolve_reread_iff {inputs : Inputs} {manifest : PackageManifest}
    {overrides : OverrideSet} {fuel : Nat} {lock : Lockfile} {io : SerdeJson}
    (hoverrides : OverrideSet.fromManifest inputs.crates manifest.overrides
      manifest.rootDependencyDeclarations .root = .ok overrides)
    (hlock : (resolveManifest inputs manifest fuel .init).1 = .ok lock)
    (hio : io.ReadsBack lock.canonical) :
    Lockfile.fromJson io (Lockfile.toJson io lock) = .ok lock.canonical ↔
      ∀ (path : Str) (node : Node),
        (placeGraph (inputs.env manifest overrides) manifest inputs.peerMode fuel
          .init).2.nodes[path]? = some node →
        Lockable inputs.crates inputs.peerMode
          (placeGraph (inputs.env manifest overrides) manifest inputs.peerMode fuel
            .init).2.nodes path node := by
  obtain ⟨hplaced, hbinds, hout⟩ := resolveManifest_run hoverrides fuel
  obtain ⟨rfl, -, hcontexts⟩ := hout lock hlock
  generalize (placeGraph (inputs.env manifest overrides) manifest inputs.peerMode fuel
    .init).2 = placed at *
  generalize (resolveManifest inputs manifest fuel .init).2 = s at *
  have hpaths : PathsOwn s.nodes := hbinds.pathsOwn hplaced.graphInv.path_eq
  have htargets : ∀ (path : Str) (node : Node), s.nodes[path]? = some node →
      ∀ (name target : Str), node.targets[name]? = some target →
        s.nodes.contains target = true := by
    intro path node hnode name target htarget
    obtain ⟨old, hold, heq⟩ := hbinds.node_back hnode
    rw [heq] at htarget
    rw [hbinds.contains]
    exact hplaced.target_placed hold htarget
  rw [assemble_reread_iff inputs manifest overrides hpaths hio htargets]
  constructor
  · intro h path old hold
    obtain ⟨node, hnode, _⟩ := hbinds.grows.nodes hold
    obtain ⟨old', hold', heq⟩ := hbinds.node_back hnode
    rw [hold] at hold'
    cases hold'
    obtain ⟨hsafe, hlegal, hname, hsource, hproviders⟩ := h path node hnode
    have hpeers := (providers_placed_iff hplaced hbinds hnode
      (bindContexts_boundAt hcontexts hnode)).mp hproviders
    rw [heq] at hsafe hname hsource hpeers
    exact ⟨hsafe, hlegal, hname, hsource, hpeers⟩
  · intro h path node hnode
    obtain ⟨old, hold, heq⟩ := hbinds.node_back hnode
    obtain ⟨hsafe, hlegal, hname, hsource, hpeers⟩ := h path old hold
    have hproviders := (providers_placed_iff hplaced hbinds hnode
      (bindContexts_boundAt hcontexts hnode)).mpr (by rw [heq]; exact hpeers)
    refine ⟨?_, hlegal, ?_, ?_, hproviders⟩
    · rw [heq]
      exact hsafe
    · rw [heq]
      exact hname
    · rw [heq]
      exact hsource

/-- The lockfile of a project with a bound peer is read back. -/
theorem resolve_reread_sharedPeer :
    ∃ lock, (Project.run sharedPeer sharedPeerRoots [] 5).1 = .ok lock ∧
      ∃ io : SerdeJson, io.ReadsBack lock.canonical ∧
        Lockfile.fromJson io (Lockfile.toJson io lock) = .ok lock.canonical := by
  obtain ⟨lock, hlock, -⟩ := Project.run_ok
    (o := (Project.run sharedPeer sharedPeerRoots [] 5).1)
    (c := fun lock => lock.packages.length == 3) (by decide +kernel)
  have hio := SerdeJson.ofDocuments_readsBack lock.canonical
  refine ⟨lock, hlock, _, hio, ?_⟩
  refine (resolve_reread_iff (Project.no_overrides _ _ _) hlock hio).mpr ?_
  intro path node hnode
  have hall :
      let nodes := (placeGraph (Project.env sharedPeer) (Project.manifest sharedPeerRoots [])
        .strict 5 .init).2.nodes
      ∀ entry ∈ nodes.toList,
        checkPackageSafety (packageEntry Release.crates entry.2) = .ok () ∧
        legalRelativePath entry.1 = true ∧
        (aliasedName entry.2).all isValidNpmReadName = true ∧
        checkSource entry.1 (packageEntry Release.crates entry.2) (packageResolution entry.2) =
          .ok () ∧
        ∀ name ∈ entry.2.metadata.peerDependencies.keys,
          (findVisibleAny nodes (parentPath entry.1) name).isSome = true := by
    decide +kernel
  obtain ⟨hsafe, hlegal, hname, hsource, hpeers⟩ := hall (path, node) (Map.mem_toList.mpr hnode)
  refine ⟨hsafe, hlegal, fun name halias => ?_, hsource, fun _ name hdeclared _ => ?_⟩
  · rw [halias] at hname
    exact hname
  · exact hpeers name
      (Std.ExtTreeMap.mem_keys.mpr (Std.ExtTreeMap.contains_iff_mem.mp hdeclared))

/-- `p` with a peer `q`. -/
def peerOfAlias : List VersionMetadata :=
  [Release.published ['p'] (Release.version 1 0 0) [] [(['q'], ['^', '1'])],
    Release.published ['q'] (Release.version 1 0 0) [] []]

/-- The project has `q` under the name `x` only. -/
def peerOfAliasRoots : List (Str × Str) := [(['p'], ['*']), (['x'], lit "npm:q@^1")]

/-- The peer is bound to the aliased package, recorded without a path, and the
lockfile is refused. -/
theorem resolve_not_reread :
    ¬ ∀ (inputs : Inputs) (manifest : PackageManifest) (fuel : Nat) (lock : Lockfile)
      (io : SerdeJson), (resolveManifest inputs manifest fuel .init).1 = .ok lock →
      io.ReadsBack lock.canonical →
      Lockfile.fromJson io (Lockfile.toJson io lock) = .ok lock.canonical := by
  intro hall
  obtain ⟨lock, hlock, hbad⟩ := Project.run_ok
    (o := (Project.run peerOfAlias peerOfAliasRoots [] 5).1)
    (c := fun lock => decide (lock.canonical.validateV2 = .error (.invalid
      (.missingTarget (lit "peerDependencies") ['q'] (lit "node_modules/p") []))))
    (by decide +kernel)
  have hio := SerdeJson.ofDocuments_readsBack lock.canonical
  have hread := hall (Project.inputs peerOfAlias) (Project.manifest peerOfAliasRoots []) 5 lock _
    hlock hio
  have hversion : lock.lockfileVersion = bpmLockVersion := by
    obtain ⟨-, -, hout⟩ := resolveManifest_run (Project.no_overrides _ _ _) 5
    rw [(hout lock hlock).1]
    rfl
  have hvalid := ((Lockfile.fromJson_toJson_iff hversion hio).mp hread).2
  rw [of_decide_eq_true hbad] at hvalid
  cases hvalid

end Bpm
