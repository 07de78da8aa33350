import Bpm.Resolver.Invariants

/-!
# From the graph to the lockfile

The lockfile lists every placed package once and keys the resolver metadata by
placement path, so a fact about the lockfile is a fact about the nodes it was
assembled from.
-/

namespace Bpm

open Text Relation

variable {env : Env} {roots : Edge → Prop} {mode : PeerMode}

/-- Every package lies at its own path. -/
def PathsOwn (nodes : Map Node) : Prop :=
  ∀ {path : Str} {node : Node}, nodes[path]? = some node → node.path = path

/-- Binding changes the peer context of a package and nothing else. -/
theorem BindStep.node_back {s s' : GraphResolver} (hstep : BindStep env mode s s') {path : Str}
    {node : Node} (h : s'.nodes[path]? = some node) :
    ∃ old, s.nodes[path]? = some old ∧ node = { old with peerContext := node.peerContext } := by
  cases hstep with
  | bind target _ context hnode hbind =>
      change (s.nodes.modify target _)[path]? = some node at h
      rw [Map.get_modify] at h
      split at h
      · obtain ⟨old, hold, rfl⟩ := Option.map_eq_some_iff.mp h
        exact ⟨old, hold, rfl⟩
      · exact ⟨node, h, rfl⟩

theorem Binds.node_back {s s' : GraphResolver} (hbinds : Binds env mode s s') {path : Str}
    {node : Node} (h : s'.nodes[path]? = some node) :
    ∃ old, s.nodes[path]? = some old ∧ node = { old with peerContext := node.peerContext } := by
  induction hbinds generalizing node with
  | refl => exact ⟨node, h, rfl⟩
  | tail _ hstep ih =>
      obtain ⟨mid, hmid, hnode⟩ := hstep.node_back h
      obtain ⟨old, hold, hmid'⟩ := ih hmid
      refine ⟨old, hold, ?_⟩
      rw [hnode, hmid']

theorem Binds.pathsOwn {s s' : GraphResolver} (hbinds : Binds env mode s s')
    (h : PathsOwn s.nodes) : PathsOwn s'.nodes := by
  intro path node hnode
  obtain ⟨old, hold, heq⟩ := hbinds.node_back hnode
  rw [heq]
  exact (h hold : old.path = path)

theorem Reachable.pathsOwn {s : GraphResolver} (h : Reachable env roots s) :
    PathsOwn s.nodes := by
  obtain ⟨placed, mode, hplaced, hbinds⟩ := h
  exact hbinds.pathsOwn hplaced.graphInv.path_eq

/-- Binding peers neither adds nor removes a package. -/
theorem Binds.contains {s s' : GraphResolver} (hbinds : Binds env mode s s') (path : Str) :
    s'.nodes.contains path = s.nodes.contains path := by
  induction hbinds with
  | refl => rfl
  | tail _ hstep ih =>
      rw [← ih]
      cases hstep
      exact Map.contains_modify _ _ _ _

section Assemble

variable (inputs : Inputs) (manifest : PackageManifest) (overrides : OverrideSet)
  (nodes : Map Node)

/-- The package list holds one entry for every node. -/
theorem assemble_packages_perm :
    (assemble inputs manifest overrides nodes).packages.Perm
      ((Map.valuesOf nodes).map (packageEntry inputs.crates)) :=
  List.perm_insertionSort _ _

theorem mem_assemble_packages {entry : PackageEntry} :
    entry ∈ (assemble inputs manifest overrides nodes).packages ↔
      ∃ (path : Str) (node : Node), nodes[path]? = some node ∧
        entry = packageEntry inputs.crates node := by
  rw [(assemble_packages_perm inputs manifest overrides nodes).mem_iff, List.mem_map]
  constructor
  · rintro ⟨node, hnode, rfl⟩
    obtain ⟨path, hpath⟩ := Map.mem_valuesOf.mp hnode
    exact ⟨path, node, hpath, rfl⟩
  · rintro ⟨path, node, hnode, rfl⟩
    exact ⟨node, Map.mem_valuesOf.mpr ⟨path, hnode⟩, rfl⟩

variable {nodes}

/-- The metadata of a placement is that of the node there. -/
theorem assemble_resolution (hpaths : PathsOwn nodes) (path : Str) :
    (assemble inputs manifest overrides nodes).resolution.packages[path]? =
      nodes[path]?.map packageResolution :=
  Map.get_foldl_valuesOf packageResolution hpaths path

/-- A path is listed exactly when a package is placed there. -/
theorem assemble_listed (hpaths : PathsOwn nodes) (path : Str) :
    (assemble inputs manifest overrides nodes).packages.any (·.path == path) =
      nodes.contains path := by
  rw [Bool.eq_iff_iff, List.any_eq_true, Map.contains_eq_isSome, Option.isSome_iff_exists]
  constructor
  · rintro ⟨entry, hentry, hpath⟩
    obtain ⟨p, node, hnode, rfl⟩ :=
      (mem_assemble_packages inputs manifest overrides nodes).mp hentry
    have hp : node.path = path := eq_of_beq hpath
    rw [← hp, hpaths hnode]
    exact ⟨node, hnode⟩
  · rintro ⟨node, hnode⟩
    refine ⟨packageEntry inputs.crates node,
      (mem_assemble_packages inputs manifest overrides nodes).mpr ⟨path, node, hnode, rfl⟩, ?_⟩
    rw [beq_iff_eq]
    exact hpaths hnode

end Assemble

/-- A bound dependency of a package: the request is declared, the target recorded. -/
theorem boundTargets_some {declared targets : Map Str} {name : Str} {dep : LockDependency}
    (h : (boundTargets declared targets)[name]? = some dep) :
    targets[name]? = some dep.target := by
  unfold boundTargets at h
  rw [Std.ExtTreeMap.getElem?_filterMap', Option.bind_eq_some_iff] at h
  obtain ⟨spec, _, hdep⟩ := h
  obtain ⟨target, htarget, rfl⟩ := Option.map_eq_some_iff.mp hdep
  exact htarget

end Bpm
