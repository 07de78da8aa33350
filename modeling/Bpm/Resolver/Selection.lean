import Bpm.Registry.Request
import Bpm.Resolver.Project

/-!
# Selected versions and requested ranges

The version that a request selects satisfies it.  The backtracking over peers
does not look at the request again, so the version it settles on satisfies the
request exactly when the greatest version with met peers happens to.
-/

namespace Bpm

open Text

/-- The request text in force for a registry request, after overrides and the
`npm:` alias. -/
def visibleSpec (env : Env) (nodes : Map Node) (edge : Edge) : Str :=
  (registryRequest env.crates edge.name (effectiveSpec env nodes edge)).2

/-- Whether a request goes to the registry: it is no workspace link and names no
other source. -/
def RegistryTyped (env : Env) (nodes : Map Node) (edge : Edge) : Prop :=
  workspaceLink env edge.name (effectiveSpec env nodes edge) = .ok none ∧
    DependencySource.parse (effectiveSpec env nodes edge) = none

/-- Whether a published version resolves and has its peers met below `parent`. -/
def peersMet (env : Env) (nodes : Map Node) (parent registryName base : Str)
    (packument : Packument) (version : Version) : Bool :=
  match resolvePackument env.crates ⟨registryName, .exact version⟩ packument base with
  | .ok candidate => peerCandidateMatches env.crates nodes candidate.metadata parent
  | .error _ => false

/-- The condition under which backtracking stays within the request: whenever the
selected version does not have its peers met, the greatest published version that
has them met, if there is one, satisfies the request. -/
def StaysInRange (env : Env) (nodes : Map Node) (edge : Edge) : Prop :=
  let registryName := (registryRequest env.crates edge.name (effectiveSpec env nodes edge)).1
  let base := env.registry.baseFor registryName
  ∀ parsed packument selected version,
    parseSpec env.crates (registryName ++ '@' :: visibleSpec env nodes edge) = .ok parsed →
    env.registry.packumentFor env.crates parsed = .ok packument →
    resolvePackument env.crates parsed packument base = .ok selected →
    peerCandidateMatches env.crates nodes selected.metadata edge.parent = false →
    (descendingVersions env.crates packument).find?
      (peersMet env nodes edge.parent registryName base packument) = some version →
    requestMatches env.crates (visibleSpec env nodes edge) version = true

variable {env : Env} {roots : Edge → Prop}

/-- Backtracking returns the first version whose peers are met, or what was
selected before. -/
theorem backtrack_ok {nodes : Map Node} {parent registryName base : Str}
    {packument : Packument} {selected artifact : ResolvedArtifact} {versions : List Version}
    (h : backtrack env nodes parent registryName base packument selected versions =
      .ok artifact) :
    match versions.find? (peersMet env nodes parent registryName base packument) with
    | some version =>
        resolvePackument env.crates ⟨registryName, .exact version⟩ packument base = .ok artifact
    | none => artifact = selected := by
  induction versions with
  | nil =>
      cases h
      rfl
  | cons version rest ih =>
      unfold backtrack at h
      split at h
      · cases h
      · rename_i candidate hcandidate
        split at h
        · rename_i hmet
          cases h
          have hpeers : peersMet env nodes parent registryName base packument version = true := by
            simp [peersMet, hcandidate, hmet]
          rw [List.find?_cons_of_pos hpeers]
          exact hcandidate
        · rename_i hunmet
          have hpeers :
              ¬ peersMet env nodes parent registryName base packument version = true := by
            simp [peersMet, hcandidate, hunmet]
          rw [List.find?_cons_of_neg hpeers]
          exact ih h

/-- Versions of a parsed request are texts that parse. -/
theorem parseRequest_exact {crates : Crates} {spec : Str} {text : Option Str} {v : Version}
    (h : parseRequest crates spec text = .ok (.exact v)) :
    ∃ s, crates.parseVersion s = some v := by
  unfold parseRequest at h
  split at h
  · cases h
  · split at h
    · cases h
    · split at h
      · split at h <;> cases h
      · split at h
        · rename_i version hversion
          cases h
          exact ⟨_, hversion⟩
        · split at h <;> cases h

theorem parseSpec_exact {crates : Crates} {text : Str} {parsed : PackageSpec} {v : Version}
    (h : parseSpec crates text = .ok parsed) (hreq : parsed.req = .exact v) :
    ∃ s, crates.parseVersion s = some v := by
  unfold parseSpec at h
  simp only at h
  split at h
  · cases h
  · split at h
    · cases h
    · split at h
      · cases h
      · rename_i req hok
        cases h
        cases hreq
        exact parseRequest_exact hok

theorem Crates.Lawful.parse_show {crates : Crates} (hcrates : crates.Lawful) {s : Str}
    {v : Version} (h : crates.parseVersion s = some v) :
    crates.parseVersion (crates.showVersion v) = some v := by
  rw [hcrates.show_parse s v h]
  exact h

/-- Whatever packument a specification obtains, its keys are the texts of the
versions they hold. -/
theorem packumentFor_keys {crates : Crates} {registry : Registry} (hcrates : crates.Lawful)
    (hkeys : registry.KeysMatch crates) {text : Str} {spec : PackageSpec} {p : Packument}
    (hspec : parseSpec crates text = .ok spec)
    (hp : registry.packumentFor crates spec = .ok p) {key : Str}
    {metadata : VersionMetadata} (hget : p.versions[key]? = some metadata) :
    crates.parseVersion key = some metadata.version := by
  unfold Registry.packumentFor at hp
  split at hp
  · rename_i version hreq
    split at hp
    · cases hp
    · rename_i found hfound
      cases hp
      rw [Map.get_insert] at hget
      split at hget
      · rename_i hkey
        cases hget
        obtain ⟨s, hs⟩ := parseSpec_exact hspec hreq
        rw [← hkey, hkeys.versionManifest _ _ _ hfound]
        exact hcrates.parse_show hs
      · simp at hget
  all_goals
    split at hp
    · exact hkeys.packument _ _ hp _ _ hget
    · cases hp

/-- The version that a request selects satisfies it. -/
theorem selectVersion_accepts {crates : Crates} {name : Str} {req : VersionRequest}
    {p : Packument} {v : Version} (h : selectVersion crates name req p = .ok v) :
    req.accepts crates v = true := by
  unfold selectVersion at h
  split at h
  · cases h
  · split at h
    · rfl
    · split at h
      · cases h
        simp [VersionRequest.accepts]
      · cases h
    · split at h
      · rename_i version hlast
        cases h
        have hmem := List.mem_of_getLast? hlast
        rw [mem_sortVersions, List.mem_filter] at hmem
        exact hmem.2
      · cases h

/-- A selected version is the version of the manifest found under it. -/
theorem resolvePackument_version {crates : Crates} (hcrates : crates.Lawful)
    {spec : PackageSpec} {p : Packument} {base : Str} {artifact : ResolvedArtifact}
    (hkeys : ∀ {key m}, p.versions[key]? = some m → crates.parseVersion key = some m.version)
    (h : resolvePackument crates spec p base = .ok artifact)
    (hparsed : ∃ s, crates.parseVersion s = some artifact.version) :
    artifact.metadata.version = artifact.version := by
  obtain ⟨found, _, hfound, hmeta, _⟩ := resolvePackument_ok h
  obtain ⟨s, hs⟩ := hparsed
  have hversion := hkeys hfound
  rw [hcrates.parse_show hs] at hversion
  rw [hmeta, VersionMetadata.nameOr_version]
  exact (Option.some.inj hversion).symm

theorem selectVersion_parsed {crates : Crates} {name : Str} {req : VersionRequest}
    {p : Packument} {v : Version} (h : selectVersion crates name req p = .ok v)
    (hexact : ∀ w, req = .exact w → ∃ s, crates.parseVersion s = some w) :
    ∃ s, crates.parseVersion s = some v := by
  unfold selectVersion at h
  split at h
  · cases h
  · split at h
    · split at h
      · cases h
      · split at h
        · rename_i hversion
          cases h
          exact ⟨_, hversion⟩
        · cases h
    · split at h
      · cases h
        exact hexact _ rfl
      · cases h
    · split at h
      · rename_i version hlast
        cases h
        have hmem := List.mem_of_getLast? hlast
        rw [mem_sortVersions, List.mem_filter] at hmem
        obtain ⟨key, _, hkey⟩ := List.mem_filterMap.mp hmem.1
        exact ⟨key, hkey⟩
      · cases h

theorem mem_descendingVersions {crates : Crates} {p : Packument} {v : Version}
    (h : v ∈ descendingVersions crates p) : ∃ s, crates.parseVersion s = some v := by
  rw [descendingVersions, List.mem_reverse, mem_sortVersions] at h
  obtain ⟨key, _, hkey⟩ := List.mem_filterMap.mp h
  exact ⟨key, hkey⟩

/-- The version chosen for a registry request satisfies it exactly when
backtracking stays within the request. -/
theorem selectArtifact_inRange_iff (hcrates : env.crates.Lawful)
    (hkeys : env.registry.KeysMatch env.crates) {nodes : Map Node} {edge : Edge}
    (hsource : DependencySource.parse (effectiveSpec env nodes edge) = none)
    {artifact : ResolvedArtifact}
    (h : selectArtifact env nodes edge.parent edge.name (effectiveSpec env nodes edge) =
      .ok artifact) :
    requestMatches env.crates (visibleSpec env nodes edge) artifact.metadata.version = true ↔
      StaysInRange env nodes edge := by
  unfold selectArtifact at h
  simp only at h
  split at h
  · cases h
  · rename_i parsed hparsed
    split at h
    · cases h
    · rename_i packument hpackument
      split at h
      · cases h
      · rename_i selected hselected
        have hname := registryRequest_not_blank hcrates hsource hparsed
        have hmatches := requestMatches_eq_accepts hname hparsed
        have hpkeys : ∀ {key m}, packument.versions[key]? = some m →
            env.crates.parseVersion key = some m.version :=
          fun hget => packumentFor_keys hcrates hkeys hparsed hpackument hget
        have hselin : requestMatches env.crates (visibleSpec env nodes edge)
            selected.metadata.version = true := by
          obtain ⟨_, hsel, _⟩ := resolvePackument_ok hselected
          have hversion := resolvePackument_version hcrates hpkeys hselected
            (selectVersion_parsed hsel fun w hw => parseSpec_exact hparsed hw)
          rw [hversion]
          unfold visibleSpec
          rw [hmatches]
          exact selectVersion_accepts hsel
        split at h
        · rename_i hmet
          cases h
          refine ⟨fun _ => ?_, fun _ => hselin⟩
          intro parsed' packument' selected' version hparsed' hpackument' hselected' hunmet _
          cases hparsed.symm.trans hparsed'
          cases hpackument.symm.trans hpackument'
          cases hselected.symm.trans hselected'
          rw [hmet] at hunmet
          cases hunmet
        · rename_i hunmet
          have hback := backtrack_ok h
          split at hback
          · rename_i version hfind
            have hversion : artifact.metadata.version = version := by
              obtain ⟨_, hsel, _⟩ := resolvePackument_ok hback
              have hexact : artifact.version = version := by
                have hsel' := hsel
                unfold selectVersion at hsel'
                split at hsel'
                · cases hsel'
                · simp only at hsel'
                  split at hsel'
                  · exact (Except.ok.inj hsel').symm
                  · cases hsel'
              rw [← hexact]
              refine resolvePackument_version hcrates hpkeys hback ?_
              rw [hexact]
              exact mem_descendingVersions (List.mem_of_find?_eq_some hfind)
            rw [hversion]
            constructor
            · intro hin parsed' packument' selected' version' hparsed' hpackument' _ _ hfind'
              cases hparsed.symm.trans hparsed'
              cases hpackument.symm.trans hpackument'
              cases hfind.symm.trans hfind'
              exact hin
            · intro hstays
              exact hstays parsed packument selected version hparsed hpackument hselected
                (by simpa using hunmet) hfind
          · rename_i hfind
            rw [hback]
            refine ⟨fun _ => ?_, fun _ => hselin⟩
            intro parsed' packument' selected' version' hparsed' hpackument' _ _ hfind'
            cases hparsed.symm.trans hparsed'
            cases hpackument.symm.trans hpackument'
            cases hfind.symm.trans hfind'

/-- In every state that a resolution can reach: every registry request was bound
to a version that satisfies it if and only if backtracking stayed within the
request at every placement. -/
theorem bound_inRange_iff (hcrates : env.crates.Lawful)
    (hkeys : env.registry.KeysMatch env.crates) {s : GraphResolver}
    (hs : Reachable env roots s) :
    (∀ ev ∈ s.log, RegistryTyped env ev.before ev.edge →
        ∃ node, s.nodes[ev.target]? = some node ∧
          requestMatches env.crates (visibleSpec env ev.before ev.edge)
            node.metadata.version = true) ↔
      ∀ ev ∈ s.log, RegistryTyped env ev.before ev.edge → ev.fresh = true →
        StaysInRange env ev.before ev.edge := by
  constructor
  · intro hbound ev hev htyped hfresh
    obtain ⟨node, hnode, hmatches⟩ := hbound ev hev htyped
    obtain ⟨placed, node', hbecause, hnode', hsame⟩ := hs.event hev
    cases hnode.symm.trans hnode'
    rw [hsame] at hmatches
    cases hbecause with
    | reuse hreused _ _ =>
        rw [hfresh] at hreused
        cases hreused
    | place _ _ _ hwhy =>
        cases hwhy with
        | link link hlink =>
            rw [htyped.1] at hlink
            cases hlink
        | source source resolved _ hsource _ =>
            rw [htyped.2] at hsource
            cases hsource
        | registry artifact _ hsource _ hselect =>
            exact (selectArtifact_inRange_iff hcrates hkeys hsource hselect).mp hmatches
  · intro hstays ev hev htyped
    obtain ⟨node, node', hbecause, hnode', hsame⟩ := hs.event hev
    refine ⟨node', hnode', ?_⟩
    rw [hsame]
    cases hbecause with
    | reuse _ hnode hwhy =>
        generalize htarget : ev.target = target at hwhy
        cases hwhy with
        | link link hlink =>
            rw [htyped.1] at hlink
            cases hlink
        | source source _ hsource =>
            rw [htyped.2] at hsource
            cases hsource
        | visible path _ _ hfind =>
            obtain ⟨_, found, hfound, hmatches⟩ := findVisible_some hfind
            rw [← htarget] at hfound
            cases hnode.symm.trans hfound
            exact hmatches
    | place hfresh _ _ hwhy =>
        cases hwhy with
        | link link hlink =>
            rw [htyped.1] at hlink
            cases hlink
        | source source resolved _ hsource _ =>
            rw [htyped.2] at hsource
            cases hsource
        | registry artifact _ hsource _ hselect =>
            exact (selectArtifact_inRange_iff hcrates hkeys hsource hselect).mpr
              (hstays ev hev htyped hfresh)

/-- `p` in two versions, of which the older one needs a peer `q`. -/
def peerBlocked : List VersionMetadata :=
  [Release.published ['p'] (Release.version 1 0 0) [] [(['q'], ['^', '1'])],
    Release.published ['p'] (Release.version 2 0 0) [] []]

/-- The equivalence for the project that asks for `p@^2`: its one request. -/
theorem bound_inRange_iff_newest :
    (Project.run peerBlocked [(['p'], ['^', '2'])] [] 3).2.log.length = 1 ∧
      ((∀ ev ∈ (Project.run peerBlocked [(['p'], ['^', '2'])] [] 3).2.log,
        RegistryTyped (Project.env peerBlocked) ev.before ev.edge →
          ∃ node, (Project.run peerBlocked [(['p'], ['^', '2'])] [] 3).2.nodes[ev.target]? =
              some node ∧
            requestMatches (Project.env peerBlocked).crates
              (visibleSpec (Project.env peerBlocked) ev.before ev.edge)
              node.metadata.version = true) ↔
        ∀ ev ∈ (Project.run peerBlocked [(['p'], ['^', '2'])] [] 3).2.log,
          RegistryTyped (Project.env peerBlocked) ev.before ev.edge → ev.fresh = true →
            StaysInRange (Project.env peerBlocked) ev.before ev.edge) :=
  ⟨by decide, bound_inRange_iff Release.crates_lawful
    (Release.registry_keysMatch (by decide))
    (Project.run_reachable peerBlocked [(['p'], ['^', '2'])] [] 3)⟩

/-- The request `p@^1` is bound to `p@2.0.0` when `q` is not visible. -/
theorem bound_outOfRange :
    ¬ ∀ (env : Env) (roots : Edge → Prop) (s : GraphResolver), env.crates.Lawful →
      env.registry.KeysMatch env.crates → Reachable env roots s →
      ∀ ev ∈ s.log, RegistryTyped env ev.before ev.edge →
        ∃ node, s.nodes[ev.target]? = some node ∧
          requestMatches env.crates (visibleSpec env ev.before ev.edge)
            node.metadata.version = true := by
  intro hall
  have hrun := hall (Project.env peerBlocked) _ _ Release.crates_lawful
    (Release.registry_keysMatch (by decide)) (Project.run_reachable peerBlocked [(['p'], ['^', '1'])] [] 3)
  have hbad : ∃ ev ∈ (Project.run peerBlocked [(['p'], ['^', '1'])] [] 3).2.log,
      RegistryTyped (Project.env peerBlocked) ev.before ev.edge ∧
      ((Project.run peerBlocked [(['p'], ['^', '1'])] [] 3).2.nodes[ev.target]?).any (fun node =>
        requestMatches Release.crates
          (visibleSpec (Project.env peerBlocked) ev.before ev.edge) node.metadata.version) =
        false := by
    unfold RegistryTyped
    decide
  obtain ⟨ev, hev, htyped, hno⟩ := hbad
  obtain ⟨node, hnode, hmatches⟩ := hrun ev hev htyped
  rw [hnode] at hno
  rw [Option.any_some] at hno
  exact Bool.false_ne_true (hno.symm.trans hmatches)

end Bpm
