import Bpm.Resolver.Assembly
import Bpm.Resolver.Project

/-!
# Announcing packages to a sink

A package is announced right after it is placed, while the rest of the graph is
still being resolved.  Nothing is taken back later: in every state of the
placement the announced units are those of the placed packages that have
something to download.  The resolution itself does not look at the sink.
-/

namespace Bpm

open Text Relation

variable {env : Env} {roots : Edge → Prop} {mode : PeerMode}

/-- The unit of a package that has something to download. -/
def Node.download (node : Node) : Option ResolvedDownloadUnit :=
  if node.link || node.resolved.isEmpty then none
  else
    some ⟨node.path, node.placementName, node.resolved,
      if node.integrity.isEmpty then none else some node.integrity⟩

/-- The unit of a listed package; an empty integrity is an absent one. -/
def PackageEntry.download (entry : PackageEntry) : Option ResolvedDownloadUnit :=
  if entry.link || entry.resolved.isEmpty then none
  else
    some ⟨entry.path, entry.name, entry.resolved,
      entry.integrity.filter fun integrity => !integrity.isEmpty⟩

theorem packageEntry_download (crates : Crates) (node : Node) :
    (packageEntry crates node).download = node.download := by
  unfold PackageEntry.download Node.download packageEntry
  cases hempty : node.integrity.isEmpty <;> simp only [Option.filter, hempty] <;> rfl

/-- What later steps change in a package is not part of its unit. -/
theorem Node.SamePlacement.download {n n' : Node} (h : n.SamePlacement n') :
    n'.download = n.download := by
  rw [h]
  rfl

/-- The announced units are those of the placed packages, each once. -/
structure Announced (s : GraphResolver) : Prop where
  nodup : (s.announced.map (·.path)).Nodup
  mem_iff : ∀ unit, unit ∈ s.announced ↔
    ∃ (path : Str) (node : Node), s.nodes[path]? = some node ∧ node.download = some unit

theorem Node.download_path {node : Node} {unit : ResolvedDownloadUnit}
    (h : node.download = some unit) : unit.path = node.path := by
  unfold Node.download at h
  split at h
  · cases h
  · cases h
    rfl

/-- Announcing a placed package adds its unit, if it has one. -/
theorem announce_place (s : GraphResolver) (edge : Edge) (node : Node) :
    ((s.place edge node).announce true node.path).announced =
      s.announced ++ node.download.toList := by
  have hnode : (s.place edge node).nodes[node.path]? = some node :=
    Map.get_insert_self _ _ _
  unfold GraphResolver.announce Node.download
  rw [hnode]
  simp only [Bool.not_true, Bool.false_eq_true, if_false]
  split
  · simp [GraphResolver.place]
  · simp [GraphResolver.place]

/-- A change within placements keeps the announcements right. -/
theorem Announced.modify {s s' : GraphResolver} (h : Announced s)
    (hannounced : s'.announced = s.announced) {path : Str} {f : Node → Node}
    (hnodes : s'.nodes = s.nodes.modify path f)
    (hf : ∀ node, (f node).download = node.download) : Announced s' := by
  refine ⟨by rw [hannounced]; exact h.nodup, fun unit => ?_⟩
  rw [hannounced, h.mem_iff, hnodes]
  constructor
  · rintro ⟨p, node, hnode, hunit⟩
    by_cases hp : path = p
    · refine ⟨p, f node, ?_, by rw [hf]; exact hunit⟩
      rw [Map.get_modify, if_pos hp, hnode]
      rfl
    · refine ⟨p, node, ?_, hunit⟩
      rw [Map.get_modify, if_neg hp, hnode]
  · rintro ⟨p, node, hnode, hunit⟩
    rw [Map.get_modify] at hnode
    split at hnode
    · obtain ⟨old, hold, rfl⟩ := Option.map_eq_some_iff.mp hnode
      exact ⟨p, old, hold, by rw [← hf]; exact hunit⟩
    · exact ⟨p, node, hnode, hunit⟩

theorem Step.announced {s s' : GraphResolver} (hsink : env.sink = true)
    (hstep : Step env roots s s') (hinv : GraphInv s) (h : Announced s) : Announced s' := by
  cases hstep with
  | diagnose message => exact ⟨h.nodup, h.mem_iff⟩
  | reuse edge path hasked hin hwhy => exact h.modify rfl rfl fun _ => rfl
  | record owner name target hbound => exact h.modify rfl rfl fun _ => rfl
  | place edge node hasked hfree hwhy =>
      rw [hsink]
      constructor
      · rw [announce_place, List.map_append]
        refine List.Nodup.append h.nodup ?_ ?_
        · cases node.download <;> simp
        · intro path hold hnew
          obtain ⟨unit, hunit, rfl⟩ := List.mem_map.mp hold
          obtain ⟨unit', hunit', hpath⟩ := List.mem_map.mp hnew
          obtain ⟨p, old, hp, hdownload⟩ := (h.mem_iff unit).mp hunit
          -- The old unit lies at the path that the placement found free.
          have heq : node.path = p := by
            rw [← Node.download_path (Option.mem_toList.mp hunit'), hpath,
              Node.download_path hdownload, hinv.path_eq hp]
          rw [heq, Map.contains_eq_isSome, hp] at hfree
          cases hfree
      · intro unit
        rw [announce_place, announce_nodes, List.mem_append, h.mem_iff, Option.mem_toList]
        change _ ↔ ∃ (path : Str) (n : Node),
          (s.nodes.insert node.path node)[path]? = some n ∧ _
        constructor
        · rintro (⟨p, n, hn, hunit⟩ | hunit)
          · refine ⟨p, n, ?_, hunit⟩
            rw [Map.get_insert_of_ne, hn]
            rintro rfl
            rw [Map.contains_eq_isSome, hn] at hfree
            cases hfree
          · exact ⟨node.path, node, Map.get_insert_self _ _ _, hunit⟩
        · rintro ⟨p, n, hn, hunit⟩
          rw [Map.get_insert] at hn
          split at hn
          · cases hn
            exact Or.inr hunit
          · exact Or.inl ⟨p, n, hn, hunit⟩

theorem Steps.announced {s : GraphResolver} (hsink : env.sink = true)
    (h : Steps env roots .init s) : Announced s := by
  induction h with
  | refl => exact ⟨List.nodup_nil, fun unit => by simp [GraphResolver.init]⟩
  | tail hsteps hstep ih => exact hstep.announced hsink (Steps.graphInv hsteps) ih

theorem Binds.announced {s s' : GraphResolver} (hbinds : Binds env mode s s')
    (h : Announced s) : Announced s' := by
  induction hbinds with
  | refl => exact h
  | tail _ hstep ih =>
      cases hstep with
      | bind path node context hnode hbind => exact ih.modify rfl rfl fun _ => rfl

/-! ## The resolution without a sink -/

/-- The same resolution with no one listening. -/
def Env.silent (env : Env) : Env := { env with sink := false }

theorem backtrack_silent (env : Env) (nodes : Map Node) (parent registryName base : Str)
    (packument : Packument) (selected : ResolvedArtifact) (versions : List Version) :
    backtrack env.silent nodes parent registryName base packument selected versions =
      backtrack env nodes parent registryName base packument selected versions := by
  induction versions with
  | nil => rfl
  | cons version rest ih =>
      unfold backtrack
      rw [ih]
      rfl

theorem selectArtifact_silent (env : Env) (nodes : Map Node) (parent name spec : Str) :
    selectArtifact env.silent nodes parent name spec =
      selectArtifact env nodes parent name spec := by
  unfold selectArtifact
  simp only [backtrack_silent]
  rfl

theorem collectRepairs_silent (env : Env) (mode : PeerMode) (nodes : Map Node)
    (entries : List (Str × Node)) :
    collectRepairs env.silent mode nodes entries = collectRepairs env mode nodes entries := by
  induction entries with
  | nil => rfl
  | cons entry rest ih =>
      unfold collectRepairs
      rw [ih]
      rfl

/-- Two states that differ in what was announced. -/
structure SameGraph (s t : GraphResolver) : Prop where
  nodes : s.nodes = t.nodes
  diagnostics : s.diagnostics = t.diagnostics
  log : s.log = t.log

/-- Two computations that do the same up to announcements. -/
abbrev Unheard {α : Type} (m m' : Resolve α) : Prop := Run.Sim SameGraph Eq Eq m m'

theorem SameGraph.announce {s t : GraphResolver} (h : SameGraph s t) (sink sink' : Bool)
    (path : Str) : SameGraph (s.announce sink path) (t.announce sink' path) := by
  have hdiagnostics : ∀ (s : GraphResolver) (sink : Bool),
      (s.announce sink path).diagnostics = s.diagnostics := by
    intro s sink
    unfold GraphResolver.announce
    split
    · rfl
    · split
      · rfl
      · split <;> rfl
  constructor
  · rw [announce_nodes, announce_nodes, h.nodes]
  · rw [hdiagnostics, hdiagnostics, h.diagnostics]
  · rw [announce_log, announce_log, h.log]

theorem SameGraph.place {s t : GraphResolver} (h : SameGraph s t) (edge : Edge) (node : Node) :
    SameGraph (s.place edge node) (t.place edge node) := by
  obtain ⟨hnodes, hdiagnostics, hlog⟩ := h
  unfold GraphResolver.place
  rw [hnodes, hlog]
  exact ⟨rfl, hdiagnostics, rfl⟩

theorem ofExcept_unheard {ε' α : Type} (wrap : ε' → Halt) (x : Except ε' α) :
    Unheard (Run.ofExcept wrap x) (Run.ofExcept wrap x) := by
  cases x with
  | ok a => exact Run.Sim.pure rfl
  | error e => exact Run.Sim.fail rfl

theorem reuseNode_unheard (edge : Edge) (path : Str) :
    Unheard (reuseNode edge path) (reuseNode edge path) := by
  refine Run.Sim.bind (Run.Sim.modify ?_) fun _ _ _ => Run.Sim.pure rfl
  rintro s t ⟨hnodes, hdiagnostics, hlog⟩
  unfold GraphResolver.reuse
  rw [hnodes, hlog]
  exact ⟨rfl, hdiagnostics, rfl⟩

theorem recordTarget_unheard (owner name : Str) (target : Option Str) :
    Unheard (recordTarget owner name target) (recordTarget owner name target) := by
  cases target with
  | none => exact Run.Sim.pure rfl
  | some path =>
      refine Run.Sim.modify ?_
      rintro s t ⟨hnodes, hdiagnostics, hlog⟩
      unfold GraphResolver.record
      rw [hnodes]
      exact ⟨rfl, hdiagnostics, hlog⟩

theorem platformAllows_unheard (env : Env) (name : Str) (metadata : VersionMetadata)
    (optional : Bool) :
    Unheard (platformAllows env name metadata optional)
      (platformAllows env.silent name metadata optional) := by
  change Unheard (platformAllows env name metadata optional)
    (platformAllows env name metadata optional)
  unfold platformAllows
  split
  · exact Run.Sim.pure rfl
  · refine Run.Sim.bind (Run.Sim.modify ?_) fun _ _ _ => Run.Sim.pure rfl
    rintro s t ⟨hnodes, hdiagnostics, hlog⟩
    unfold GraphResolver.diagnose
    rw [hdiagnostics]
    exact ⟨hnodes, rfl, hlog⟩
  · exact Run.Sim.fail rfl

/-- Placing and expanding a package, whatever is announced on the way. -/
theorem placeNode_unheard (edge : Edge) (node : Node)
    {placing placing' : GraphResolver → GraphResolver} {children children' : Resolve Unit}
    (hplacing : ∀ s t, SameGraph s t → SameGraph (placing s) (placing' t))
    (hchildren : Unheard children children') :
    Unheard
      (do
        if ← platformAllows env edge.name node.metadata edge.optional then
          Run.modify placing
          children
          return some node.path
        else
          return none)
      (do
        if ← platformAllows env.silent edge.name node.metadata edge.optional then
          Run.modify placing'
          children'
          return some node.path
        else
          return none) := by
  refine Run.Sim.bind (platformAllows_unheard env _ _ _) ?_
  rintro allowed _ rfl
  cases allowed with
  | false => exact Run.Sim.pure rfl
  | true =>
      exact Run.Sim.bind (Run.Sim.modify hplacing) fun _ _ _ =>
        Run.Sim.bind hchildren fun _ _ _ => Run.Sim.pure rfl

section Recursion

variable {recur recur' : Edge → Resolve (Option Str)}
  (hrec : ∀ edge, Unheard (recur edge) (recur' edge))

include hrec

theorem resolveChildren_unheard (parent : Str) (dependencies : Map Str) (optional dev : Bool) :
    Unheard (resolveChildren recur parent dependencies optional dev)
      (resolveChildren recur' parent dependencies optional dev) := by
  refine Run.Sim.forEach dependencies.toList fun child _ => ?_
  refine Run.Sim.get_bind fun s t hst => ?_
  rw [hst.nodes]
  refine Run.Sim.bind (hrec _) ?_
  rintro target _ rfl
  exact recordTarget_unheard parent child.1 target

theorem resolveChildrenHoisted_unheard (member : Str) (dependencies : Map Str)
    (optional dev : Bool) :
    Unheard (resolveChildrenHoisted recur member dependencies optional dev)
      (resolveChildrenHoisted recur' member dependencies optional dev) := by
  refine Run.Sim.forEach dependencies.toList fun child _ => ?_
  refine Run.Sim.get_bind fun s t hst => ?_
  rw [hst.nodes]
  refine Run.Sim.bind (Run.Sim.recover (hrec _) ?_) ?_
  · rintro e _ rfl
    split
    · exact hrec _
    · exact Run.Sim.fail rfl
  · rintro target _ rfl
    exact recordTarget_unheard member child.1 target

theorem resolveLink_unheard (edge : Edge) (link : WorkspaceEdge) :
    Unheard (resolveLink env recur edge link) (resolveLink env.silent recur' edge link) := by
  unfold resolveLink
  refine Run.Sim.get_bind fun s t hst => ?_
  rw [hst.nodes]
  change Unheard _ (if t.nodes.contains (linkNode env edge link).path = true then _ else _)
  dsimp only
  split
  · exact reuseNode_unheard _ _
  · exact placeNode_unheard edge (linkNode env edge link) (fun s t h => h.place _ _)
      (resolveChildrenHoisted_unheard hrec _ _ _ _)

theorem resolveSourceDependency_unheard (edge : Edge) (spec : Str) (source : DependencySource) :
    Unheard (resolveSourceDependency env recur edge spec source)
      (resolveSourceDependency env.silent recur' edge spec source) := by
  unfold resolveSourceDependency
  refine Run.Sim.get_bind fun s t hst => ?_
  rw [hst.nodes]
  dsimp only
  split
  · exact reuseNode_unheard _ _
  · refine Run.Sim.bind (ofExcept_unheard _ (resolveSource env t.nodes edge spec source)) ?_
    rintro resolved _ rfl
    exact placeNode_unheard edge (sourceNode edge resolved)
      (fun s t h => (h.place _ _).announce _ _ _) (resolveChildren_unheard hrec _ _ _ _)

theorem resolveRegistryDependency_unheard (edge : Edge) (spec : Str) :
    Unheard (resolveRegistryDependency env recur edge spec)
      (resolveRegistryDependency env.silent recur' edge spec) := by
  unfold resolveRegistryDependency
  refine Run.Sim.get_bind fun s t hst => ?_
  rw [hst.nodes]
  rw [show env.silent.crates = env.crates from rfl]
  dsimp only
  cases findVisible env.crates t.nodes edge.parent edge.name
      (registryRequest env.crates edge.name spec).2 with
  | some path => exact reuseNode_unheard edge path
  | none =>
      dsimp only
      cases t.nodes[childPath edge.parent edge.name]? with
      | some selected =>
          dsimp only
          split
          · exact Run.Sim.pure rfl
          · exact Run.Sim.fail rfl
      | none =>
          dsimp only
          rw [selectArtifact_silent]
          refine Run.Sim.bind (ofExcept_unheard _
            (selectArtifact env t.nodes edge.parent edge.name spec)) ?_
          rintro artifact _ rfl
          exact placeNode_unheard edge (registryNode edge artifact _)
            (fun s t h => (h.place _ _).announce _ _ _) (resolveChildren_unheard hrec _ _ _ _)

theorem resolveDependencyWith_unheard (edge : Edge) :
    Unheard (resolveDependencyWith env recur edge)
      (resolveDependencyWith env.silent recur' edge) := by
  unfold resolveDependencyWith
  refine Run.Sim.get_bind fun s t hst => ?_
  rw [hst.nodes]
  rw [show effectiveSpec env.silent t.nodes edge = effectiveSpec env t.nodes edge from rfl]
  dsimp only
  refine Run.Sim.bind (ofExcept_unheard _
    (workspaceLink env edge.name (effectiveSpec env t.nodes edge))) ?_
  rintro link _ rfl
  cases link with
  | some link => exact resolveLink_unheard hrec edge link
  | none =>
      dsimp only
      cases DependencySource.parse (effectiveSpec env t.nodes edge) with
      | some source => exact resolveSourceDependency_unheard hrec edge _ source
      | none => exact resolveRegistryDependency_unheard hrec edge _

end Recursion

theorem resolveDependency_unheard (fuel : Nat) (edge : Edge) :
    Unheard (resolveDependency env fuel edge) (resolveDependency env.silent fuel edge) := by
  induction fuel generalizing edge with
  | zero => exact Run.Sim.fail rfl
  | succ fuel ih => exact resolveDependencyWith_unheard ih edge

theorem resolveRoot_unheard (fuel : Nat) (targets : Map Str) (edge : Edge) :
    Unheard (resolveRoot env fuel targets edge) (resolveRoot env.silent fuel targets edge) := by
  refine Run.Sim.bind (resolveDependency_unheard fuel edge) ?_
  rintro target _ rfl
  cases target with
  | none => exact Run.Sim.pure rfl
  | some path => exact Run.Sim.pure rfl

theorem peerRounds_unheard (fuel rounds : Nat) :
    Unheard (peerRounds env mode fuel rounds) (peerRounds env.silent mode fuel rounds) := by
  induction rounds with
  | zero => exact Run.Sim.pure rfl
  | succ rounds ih =>
      unfold peerRounds
      refine Run.Sim.get_bind fun s t hst => ?_
      rw [hst.nodes, collectRepairs_silent]
      refine Run.Sim.bind (ofExcept_unheard _
        (collectRepairs env mode t.nodes t.nodes.toList)) ?_
      rintro repairs _ rfl
      split
      · exact Run.Sim.pure rfl
      · refine Run.Sim.bind (Run.Sim.forEach repairs fun repair _ => ?_) fun _ _ _ => ih
        refine Run.Sim.bind (Run.Sim.recover (resolveDependency_unheard fuel _) ?_)
          fun _ _ _ => Run.Sim.pure rfl
        rintro e _ rfl
        cases e <;> exact Run.Sim.fail rfl

theorem placeGraph_unheard (manifest : PackageManifest) (fuel : Nat) :
    Unheard (placeGraph env manifest mode fuel) (placeGraph env.silent manifest mode fuel) := by
  unfold placeGraph
  refine Run.Sim.bind (Run.Sim.foldM _ ?_ rfl) ?_
  · rintro targets _ edge _ rfl
    exact resolveRoot_unheard fuel targets edge
  · rintro targets _ rfl
    refine Run.Sim.bind (Run.Sim.foldM _ ?_ rfl) ?_
    · rintro targets _ link _ rfl
      unfold resolveMember
      split
      · exact Run.Sim.pure rfl
      · exact resolveRoot_unheard fuel targets _
    · rintro targets _ rfl
      exact Run.Sim.bind (peerRounds_unheard fuel 16) fun _ _ _ => Run.Sim.pure rfl

theorem bindContexts_unheard :
    Unheard (bindContexts env mode) (bindContexts env.silent mode) := by
  unfold bindContexts
  refine Run.Sim.get_bind fun s t hst => ?_
  rw [hst.nodes]
  refine Run.Sim.forEach _ fun path _ => ?_
  unfold bindContext
  refine Run.Sim.get_bind fun s t hst => ?_
  rw [hst.nodes]
  cases t.nodes[path]? with
  | none => exact Run.Sim.pure rfl
  | some node =>
      refine Run.Sim.bind (ofExcept_unheard _ (bindNode env mode t.nodes path node)) ?_
      rintro context _ rfl
      refine Run.Sim.modify ?_
      rintro s t ⟨hnodes, hdiagnostics, hlog⟩
      refine ⟨?_, hdiagnostics, hlog⟩
      dsimp only
      rw [hnodes]
      rfl

/-- The outcome of a resolution does not depend on the sink. -/
theorem resolveManifest_unheard (inputs : Inputs) (manifest : PackageManifest) (fuel : Nat) :
    (resolveManifest { inputs with sink := false } manifest fuel .init).1 =
      (resolveManifest inputs manifest fuel .init).1 := by
  have hsim : Unheard (resolveManifest inputs manifest fuel)
      (resolveManifest { inputs with sink := false } manifest fuel) := by
    unfold resolveManifest
    refine Run.Sim.bind (ofExcept_unheard _ _) ?_
    rintro overrides _ rfl
    refine Run.Sim.bind (placeGraph_unheard manifest fuel) fun _ _ _ => ?_
    refine Run.Sim.bind bindContexts_unheard fun _ _ _ => ?_
    refine Run.Sim.get_bind fun s t hst => ?_
    rw [hst.nodes]
    exact Run.Sim.pure rfl
  obtain ⟨hagree, -⟩ := hsim .init .init ⟨rfl, rfl, rfl⟩
  cases hs : (resolveManifest inputs manifest fuel .init).1 with
  | ok lock =>
      rw [hs] at hagree
      cases ht : (resolveManifest { inputs with sink := false } manifest fuel .init).1 with
      | ok lock' =>
          rw [ht] at hagree
          cases hagree with
          | ok h => rw [h]
      | error e =>
          rw [ht] at hagree
          cases hagree
  | error e =>
      rw [hs] at hagree
      cases ht : (resolveManifest { inputs with sink := false } manifest fuel .init).1 with
      | ok lock' =>
          rw [ht] at hagree
          cases hagree
      | error e' =>
          rw [ht] at hagree
          cases hagree with
          | error h => rw [h]

/-! ## The announcements of a resolution -/

/-- With a sink, a successful resolution announces every package of the lockfile
that has something to download, once and nothing else, and returns what it
returns without a sink. -/
theorem resolve_announces {inputs : Inputs} {manifest : PackageManifest} {fuel : Nat}
    {lock : Lockfile} (hsink : inputs.sink = true)
    (hlock : (resolveManifest inputs manifest fuel .init).1 = .ok lock) :
    ((resolveManifest inputs manifest fuel .init).2.announced.map (·.path)).Nodup ∧
      (∀ unit, unit ∈ (resolveManifest inputs manifest fuel .init).2.announced ↔
        ∃ entry ∈ lock.packages, entry.download = some unit) ∧
      (resolveManifest { inputs with sink := false } manifest fuel .init).1 = .ok lock := by
  cases hoverrides : OverrideSet.fromManifest inputs.crates manifest.overrides
      manifest.rootDependencyDeclarations .root with
  | error e =>
      have hfail : (resolveManifest inputs manifest fuel .init).1 = .error (.failed (.override e)) := by
        unfold resolveManifest
        rw [hoverrides]
        rfl
      rw [hfail] at hlock
      cases hlock
  | ok overrides =>
      obtain ⟨hplaced, hbinds, hout⟩ := resolveManifest_run hoverrides fuel
      have hannounced := hbinds.announced (hplaced.announced hsink)
      refine ⟨hannounced.nodup, fun unit => ?_, ?_⟩
      · rw [hannounced.mem_iff, (hout lock hlock).1]
        constructor
        · rintro ⟨path, node, hnode, hunit⟩
          refine ⟨packageEntry inputs.crates node,
            (mem_assemble_packages inputs manifest overrides _).mpr ⟨path, node, hnode, rfl⟩, ?_⟩
          rw [packageEntry_download]
          exact hunit
        · rintro ⟨entry, hentry, hunit⟩
          obtain ⟨path, node, hnode, rfl⟩ :=
            (mem_assemble_packages inputs manifest overrides _).mp hentry
          rw [packageEntry_download] at hunit
          exact ⟨path, node, hnode, hunit⟩
      · rw [resolveManifest_unheard, hlock]

/-- `p` and its dependency. -/
def twoReleases : List VersionMetadata :=
  [Release.published ['d'] (Release.version 1 0 0) [] [],
    Release.published ['p'] (Release.version 1 0 0) [(['d'], ['^', '1'])] []]

theorem resolve_announces_two :
    ∃ lock, (Project.run twoReleases [(['p'], ['*'])] [] 5).1 = .ok lock ∧
      (Project.run twoReleases [(['p'], ['*'])] [] 5).2.announced.length = 2 ∧
      ∀ unit, unit ∈ (Project.run twoReleases [(['p'], ['*'])] [] 5).2.announced ↔
        ∃ entry ∈ lock.packages, entry.download = some unit := by
  obtain ⟨lock, hlock, -⟩ := Project.run_ok
    (o := (Project.run twoReleases [(['p'], ['*'])] [] 5).1) (c := fun _ => true)
    (by decide)
  exact ⟨lock, hlock, by decide, (resolve_announces rfl hlock).2.1⟩

end Bpm
