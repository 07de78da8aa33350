import Bpm.Resolver.Assembly
import Bpm.Resolver.Selection

/-!
# Names of packages and names of slots

An alias or an override puts a package into a slot of another name.  A request looks for
a visible slot by the slot's name and tests its version only, so it is bound to the
package it names exactly when the slot it reuses was filled for that package.
-/

namespace Bpm

open Text

namespace Registry

/-- A registry serves manifests that carry the name they are served under. -/
structure NamesMatch (registry : Registry) : Prop where
  packument : ∀ name p, registry.packument name = .ok p →
    ∀ (key : Str) (metadata : VersionMetadata), p.versions[key]? = some metadata →
      metadata.name = name
  versionManifest : ∀ name version metadata,
    registry.versionManifest name version = .ok metadata → metadata.name = name

end Registry

/-- The registry name in force for a request, after overrides and the `npm:` alias; blanks
in front are not part of a name. -/
def requestedName (env : Env) (nodes : Map Node) (edge : Edge) : Str :=
  trimStart (registryRequest env.crates edge.name (effectiveSpec env nodes edge)).1

/-- The name of the package that a placement brings: that in the manifest of the workspace or
of the source, or the one asked from the registry. -/
inductive Event.Brings (env : Env) (ev : Event) : Str → Prop
  | link (link : WorkspaceEdge)
      (hlink : workspaceLink env ev.edge.name (effectiveSpec env ev.before ev.edge) =
        .ok (some link)) :
      Event.Brings env ev (linkNode env ev.edge link).metadata.name
  | source (source : DependencySource) (resolved : SourceResolution)
      (hlink : workspaceLink env ev.edge.name (effectiveSpec env ev.before ev.edge) = .ok none)
      (hsource : DependencySource.parse (effectiveSpec env ev.before ev.edge) = some source)
      (hresolved : resolveSource env ev.before ev.edge (effectiveSpec env ev.before ev.edge)
        source = .ok resolved) :
      Event.Brings env ev resolved.metadata.name
  | registry (htyped : RegistryTyped env ev.before ev.edge) :
      Event.Brings env ev (requestedName env ev.before ev.edge)

/-- A registry request reuses only slots that were filled for the package it names. -/
def ReusesNamesakes (env : Env) (log : List Event) : Prop :=
  ∀ ev ∈ log, RegistryTyped env ev.before ev.edge → ev.fresh = false →
    ∀ placing ∈ log, placing.fresh = true → placing.target = ev.target →
      placing.Brings env (requestedName env ev.before ev.edge)

variable {env : Env} {roots : Edge → Prop}

/-! ## The package of a registry request -/

theorem packumentFor_names {crates : Crates} {registry : Registry} (hnames : registry.NamesMatch)
    {spec : PackageSpec} {p : Packument} (hp : registry.packumentFor crates spec = .ok p)
    {key : Str} {metadata : VersionMetadata} (hget : p.versions[key]? = some metadata) :
    metadata.name = spec.name := by
  unfold Registry.packumentFor at hp
  split at hp
  · split at hp
    · cases hp
    · rename_i found hfound
      cases hp
      rw [Map.get_insert] at hget
      split at hget
      · cases hget
        exact hnames.versionManifest _ _ _ hfound
      · simp at hget
  all_goals
    split at hp
    · exact hnames.packument _ _ hp _ _ hget
    · cases hp

/-- A manifest with a name keeps it. -/
theorem resolvePackument_name {crates : Crates} {spec : PackageSpec} {p : Packument} {base name : Str}
    {artifact : ResolvedArtifact} (h : resolvePackument crates spec p base = .ok artifact)
    (hnames : ∀ {key : Str} {metadata : VersionMetadata}, p.versions[key]? = some metadata → metadata.name = name)
    (hname : name ≠ []) : artifact.metadata.name = name := by
  obtain ⟨found, _, hfound, hmetadata, _⟩ := resolvePackument_ok h
  have hfoundName := hnames hfound
  rw [hmetadata, VersionMetadata.nameOr, if_neg (by simpa [hfoundName] using hname), hfoundName]

/-- Whatever version is selected, it is one of the package that is asked for. -/
theorem selectArtifact_name (hcrates : env.crates.Lawful) (hnames : env.registry.NamesMatch)
    {nodes : Map Node} {edge : Edge}
    (hsource : DependencySource.parse (effectiveSpec env nodes edge) = none)
    {artifact : ResolvedArtifact}
    (h : selectArtifact env nodes edge.parent edge.name (effectiveSpec env nodes edge) =
      .ok artifact) :
    artifact.metadata.name = requestedName env nodes edge := by
  unfold selectArtifact at h
  simp only at h
  split at h
  · cases h
  rename_i parsed hparsed
  split at h
  · cases h
  rename_i packument hpackument
  split at h
  · cases h
  rename_i selected hselected
  have hblank := registryRequest_not_blank hcrates hsource hparsed
  have hname : parsed.name = requestedName env nodes edge := (parseSpec_ok hblank hparsed).2.1
  have hversions : ∀ {key : Str} {metadata : VersionMetadata}, packument.versions[key]? = some metadata →
      metadata.name = requestedName env nodes edge :=
    fun hget => (packumentFor_names hnames hpackument hget).trans hname
  split at h
  · cases h
    exact resolvePackument_name hselected hversions hblank
  · have hback := backtrack_ok h
    split at hback
    · exact resolvePackument_name hback hversions hblank
    · rw [hback]
      exact resolvePackument_name hselected hversions hblank

/-- A placement fills its slot with the package it brings. -/
theorem Event.brings_iff (hcrates : env.crates.Lawful) (hnames : env.registry.NamesMatch)
    {ev : Event} {node : Node} (hplaces : Places env ev.before ev.edge node) (name : Str) :
    ev.Brings env name ↔ node.metadata.name = name := by
  cases hplaces with
  | link link hlink =>
      constructor
      · intro hbrings
        cases hbrings with
        | link link' hlink' =>
            cases hlink.symm.trans hlink'
            rfl
        | source source resolved hnone hsource hresolved =>
            rw [hlink] at hnone
            cases hnone
        | registry htyped =>
            have hnone := htyped.1
            rw [hlink] at hnone
            cases hnone
      · rintro rfl
        exact .link link hlink
  | source source resolved hlink hsource hresolved =>
      constructor
      · intro hbrings
        cases hbrings with
        | link link' hlink' =>
            rw [hlink] at hlink'
            cases hlink'
        | source source' resolved' hnone hsource' hresolved' =>
            cases hsource.symm.trans hsource'
            cases hresolved.symm.trans hresolved'
            rfl
        | registry htyped =>
            rw [htyped.2] at hsource
            cases hsource
      · rintro rfl
        exact .source source resolved hlink hsource hresolved
  | registry artifact hlink hsource hfind hselect =>
      have hartifact := selectArtifact_name hcrates hnames hsource hselect
      constructor
      · intro hbrings
        cases hbrings with
        | link link' hlink' =>
            rw [hlink] at hlink'
            cases hlink'
        | source source' resolved hnone hsource' hresolved =>
            rw [hsource] at hsource'
            cases hsource'
        | registry htyped => exact hartifact
      · intro hname
        have hrequested : name = requestedName env ev.before ev.edge :=
          hname.symm.trans hartifact
        rw [hrequested]
        exact .registry ⟨hlink, hsource⟩

/-! ## Bound requests -/

/-- The request that filled a slot. -/
theorem Reachable.placed {s : GraphResolver} (hs : Reachable env roots s) {path : Str} {node : Node}
    (hnode : s.nodes[path]? = some node) :
    ∃ placing ∈ s.log, placing.fresh = true ∧ placing.target = path := by
  obtain ⟨placed, mode, hsteps, hbinds⟩ := hs
  rw [hbinds.log_eq]
  obtain ⟨node', hnode', _⟩ := hbinds.node_back hnode
  exact hsteps.graphInv.placed hnode'

/-- The package in a slot is the one that its placement brought. -/
theorem Reachable.brings (hcrates : env.crates.Lawful) (hnames : env.registry.NamesMatch)
    {s : GraphResolver} (hs : Reachable env roots s) {placing : Event} (hplacing : placing ∈ s.log)
    (hfresh : placing.fresh = true) :
    ∃ node, s.nodes[placing.target]? = some node ∧
      ∀ name, placing.Brings env name ↔ node.metadata.name = name := by
  obtain ⟨placed, node, hbecause, hnode, hsame⟩ := hs.event hplacing
  cases hbecause with
  | reuse hreused hplaced hwhy =>
      rw [hfresh] at hreused
      cases hreused
  | place _ hpath hfree hwhy =>
      refine ⟨node, hnode, fun name => ?_⟩
      rw [hsame]
      exact Event.brings_iff hcrates hnames hwhy name

/-- In every state that a resolution can reach: every registry request was bound to the
package it names if and only if it reused no slot that was filled for another package. -/
theorem bound_named_iff (hcrates : env.crates.Lawful) (hnames : env.registry.NamesMatch)
    {s : GraphResolver} (hs : Reachable env roots s) :
    (∀ ev ∈ s.log, RegistryTyped env ev.before ev.edge →
        ∃ node, s.nodes[ev.target]? = some node ∧
          node.metadata.name = requestedName env ev.before ev.edge) ↔
      ReusesNamesakes env s.log := by
  constructor
  · intro hbound ev hev htyped _ placing hplacing hfresh htarget
    obtain ⟨node, hnode, hname⟩ := hbound ev hev htyped
    obtain ⟨node', hnode', hbrings⟩ := hs.brings hcrates hnames hplacing hfresh
    rw [htarget] at hnode'
    cases hnode.symm.trans hnode'
    exact (hbrings _).mpr hname
  · intro hreuses ev hev htyped
    cases hfresh : ev.fresh with
    | true =>
        obtain ⟨node, hnode, hbrings⟩ := hs.brings hcrates hnames hev hfresh
        exact ⟨node, hnode, (hbrings _).mp (.registry htyped)⟩
    | false =>
        obtain ⟨_, node, _, hnode, _⟩ := hs.event hev
        obtain ⟨placing, hplacing, hplaced, htarget⟩ := hs.placed hnode
        obtain ⟨node', hnode', hbrings⟩ := hs.brings hcrates hnames hplacing hplaced
        have hown := hreuses ev hev htyped hfresh placing hplacing hplaced htarget
        rw [htarget] at hnode'
        exact ⟨node', hnode', (hbrings _).mp hown⟩

theorem Release.registry_namesMatch (versions : List VersionMetadata) :
    (Release.registry versions).NamesMatch where
  packument := by
    intro name p hp key metadata hget
    unfold Release.registry at hp
    dsimp only at hp
    split at hp
    · cases hp
    · cases hp
      have hmem := Map.mem_of_get_ofList hget
      obtain ⟨m, hm, heq⟩ := List.mem_map.mp hmem
      obtain ⟨rfl, rfl⟩ := Prod.mk.inj heq
      simpa using (List.mem_filter.mp hm).2
  versionManifest := by
    intro name v m hm
    unfold Release.registry at hm
    dsimp only at hm
    split at hm
    · cases hm
    · rename_i found hfound
      cases hm
      have hfind := List.find?_some hfound
      simp only [Bool.and_eq_true, decide_eq_true_eq] at hfind
      exact hfind.1

/-- `q` for the slot of `a`, and `b` that depends on `a`. -/
def aliasedSlot : List VersionMetadata :=
  [Release.published ['q'] (Release.version 1 0 0) [] [],
    Release.published ['a'] (Release.version 1 0 0) [] [],
    Release.published ['b'] (Release.version 1 0 0) [(['a'], ['^', '1'])] []]

/-- The project that asks for `q` under the name `a`, and for `b`. -/
def aliasedRoots : List (Str × Str) := [(['a'], lit "npm:q@^1"), (['b'], ['*'])]

/-- The equivalence for the project with the alias, which binds three requests. -/
theorem bound_named_iff_alias :
    (Project.run aliasedSlot aliasedRoots [] 4).2.log.length = 3 ∧
      ((∀ ev ∈ (Project.run aliasedSlot aliasedRoots [] 4).2.log,
        RegistryTyped (Project.env aliasedSlot) ev.before ev.edge →
          ∃ node, (Project.run aliasedSlot aliasedRoots [] 4).2.nodes[ev.target]? = some node ∧
            node.metadata.name = requestedName (Project.env aliasedSlot) ev.before ev.edge) ↔
        ReusesNamesakes (Project.env aliasedSlot)
          (Project.run aliasedSlot aliasedRoots [] 4).2.log) :=
  ⟨by decide +kernel, bound_named_iff Release.crates_lawful (Release.registry_namesMatch _)
    (Project.run_reachable aliasedSlot aliasedRoots [] 4)⟩

/-- The request of `b` for `a` is bound to `q`. -/
theorem bound_misnamed :
    ¬ ∀ (env : Env) (roots : Edge → Prop) (s : GraphResolver), env.crates.Lawful →
      env.registry.NamesMatch → Reachable env roots s →
      ∀ ev ∈ s.log, RegistryTyped env ev.before ev.edge →
        ∃ node, s.nodes[ev.target]? = some node ∧
          node.metadata.name = requestedName env ev.before ev.edge := by
  intro hall
  have hrun := hall (Project.env aliasedSlot) _ _ Release.crates_lawful
    (Release.registry_namesMatch _) (Project.run_reachable aliasedSlot aliasedRoots [] 4)
  have hbad : ∃ ev ∈ (Project.run aliasedSlot aliasedRoots [] 4).2.log,
      RegistryTyped (Project.env aliasedSlot) ev.before ev.edge ∧
      ((Project.run aliasedSlot aliasedRoots [] 4).2.nodes[ev.target]?).any (fun node =>
        node.metadata.name = requestedName (Project.env aliasedSlot) ev.before ev.edge) =
        false := by
    unfold RegistryTyped
    decide +kernel
  obtain ⟨ev, hev, htyped, hno⟩ := hbad
  obtain ⟨node, hnode, hname⟩ := hrun ev hev htyped
  rw [hnode, Option.any_some] at hno
  exact absurd hname (of_decide_eq_false hno)

end Bpm
