import Bpm.Resolver.Project

/-!
# Edges to workspaces and sources

A workspace edge looks at one slot of the root, a source edge at one slot of the asking
directory.  What is found there is taken without a look at where it came from, and a
source is resolved from the asking directory, which is not the declaring one for the
hoisted edges of members and for installed peers.  The module says which source an edge
denotes and when the package it is bound to records exactly that source.
-/

namespace Bpm

open Text

/-- Where a placed package came from, as it is recorded. -/
structure Origin where
  source : LockSource
  link : Bool
  workspaceTarget : Option Str
deriving DecidableEq

def Node.origin (node : Node) : Origin := ⟨node.source, node.link, node.workspaceTarget⟩

def SourceResolution.origin (resolved : SourceResolution) : Origin :=
  ⟨resolved.source, resolved.link, resolved.workspaceTarget⟩

def WorkspaceEdge.origin (link : WorkspaceEdge) : Origin :=
  ⟨.workspace link.relativePath, true, some link.relativePath⟩

/-- The package that declares an edge; the project is the empty path. -/
def Edge.declarer (edge : Edge) : Str :=
  match edge.owner with
  | .root => []
  | .package path => path
  | .peer consumer => consumer

/-- What the specification in force means, read at a directory: nothing for a registry
request, or else the origin of the package asked for, if it can be resolved. -/
def denotedAt (env : Env) (nodes : Map Node) (edge : Edge) (parent : Str) :
    Option (Except ResolveError Origin) :=
  let spec := effectiveSpec env nodes edge
  match workspaceLink env edge.name spec with
  | .error _ => none
  | .ok (some link) => some (.ok link.origin)
  | .ok none =>
      (DependencySource.parse spec).map fun source =>
        (resolveSource env nodes { edge with parent := parent } spec source).map
          SourceResolution.origin

/-- The origin that a workspace edge or a source edge denotes. -/
def denoted (env : Env) (nodes : Map Node) (edge : Edge) : Option (Except ResolveError Origin) :=
  denotedAt env nodes edge edge.declarer

/-- The slot that a workspace edge or a source edge looks at. -/
def sourceSlot (env : Env) (nodes : Map Node) (edge : Edge) : Str :=
  match workspaceLink env edge.name (effectiveSpec env nodes edge) with
  | .ok (some _) => childPath [] edge.name
  | _ => childPath edge.parent edge.name

/-- The package of an event records the source that its edge denotes. -/
def Event.Faithful (env : Env) (s : GraphResolver) (ev : Event) : Prop :=
  ∀ origin, denoted env ev.before ev.edge = some origin →
    ∃ node, s.nodes[ev.target]? = some node ∧ origin = .ok node.origin

/-- The slot of an edge holds a package from the denoted source, or it is free and the
source is the same from the asking directory. -/
def SlotFits (env : Env) (nodes : Map Node) (edge : Edge) : Prop :=
  ∀ origin, denoted env nodes edge = some origin →
    match nodes[sourceSlot env nodes edge]? with
    | some node => origin = .ok node.origin
    | none => denotedAt env nodes edge edge.parent = some origin

theorem Node.SamePlacement.origin_eq {n n' : Node} (h : n.SamePlacement n') :
    n'.origin = n.origin := by
  unfold Node.SamePlacement at h
  rw [h]
  rfl

section

variable {env : Env} {nodes : Map Node} {edge : Edge}

theorem denotedAt_link {link : WorkspaceEdge}
    (h : workspaceLink env edge.name (effectiveSpec env nodes edge) = .ok (some link))
    (parent : Str) : denotedAt env nodes edge parent = some (.ok link.origin) := by
  simp [denotedAt, h]

theorem denotedAt_source {source : DependencySource}
    (hlink : workspaceLink env edge.name (effectiveSpec env nodes edge) = .ok none)
    (hsource : DependencySource.parse (effectiveSpec env nodes edge) = some source)
    (parent : Str) :
    denotedAt env nodes edge parent =
      some ((resolveSource env nodes { edge with parent := parent }
        (effectiveSpec env nodes edge) source).map SourceResolution.origin) := by
  simp [denotedAt, hlink, hsource]

theorem denotedAt_registry
    (hlink : workspaceLink env edge.name (effectiveSpec env nodes edge) = .ok none)
    (hsource : DependencySource.parse (effectiveSpec env nodes edge) = none) (parent : Str) :
    denotedAt env nodes edge parent = none := by
  simp [denotedAt, hlink, hsource]

theorem sourceSlot_link {link : WorkspaceEdge}
    (h : workspaceLink env edge.name (effectiveSpec env nodes edge) = .ok (some link)) :
    sourceSlot env nodes edge = childPath [] edge.name := by
  simp [sourceSlot, h]

theorem sourceSlot_source
    (h : workspaceLink env edge.name (effectiveSpec env nodes edge) = .ok none) :
    sourceSlot env nodes edge = childPath edge.parent edge.name := by
  simp [sourceSlot, h]

/-- What a taken slot is reused for is read from that slot. -/
theorem Reuses.slot {path : Str} (h : Reuses env nodes edge path) {origin : Except ResolveError Origin}
    (hdenoted : denoted env nodes edge = some origin) : path = sourceSlot env nodes edge := by
  cases h with
  | link link hlink => exact (sourceSlot_link hlink).symm
  | source source hlink hsource => exact (sourceSlot_source hlink).symm
  | visible path hlink hsource hfind =>
      rw [denoted, denotedAt_registry hlink hsource] at hdenoted
      cases hdenoted

/-- What is placed lies in the slot, and comes from what the edge means in the asking
directory. -/
theorem Places.slot {node : Node} (h : Places env nodes edge node)
    {origin : Except ResolveError Origin} (hdenoted : denoted env nodes edge = some origin) :
    node.path = sourceSlot env nodes edge ∧
      denotedAt env nodes edge edge.parent = some (.ok node.origin) := by
  cases h with
  | link link hlink => exact ⟨(sourceSlot_link hlink).symm, denotedAt_link hlink _⟩
  | source source resolved hlink hsource hresolved =>
      apply And.intro (sourceSlot_source hlink).symm
      rw [denotedAt_source hlink hsource, hresolved]
      rfl
  | registry artifact hlink hsource hfind hselect =>
      rw [denoted, denotedAt_registry hlink hsource] at hdenoted
      cases hdenoted

end

section

variable {env : Env} {roots : Edge → Prop}

/-- One bound edge is faithful exactly when its slot fitted before. -/
theorem Reachable.faithful_iff {s : GraphResolver} (h : Reachable env roots s) {ev : Event}
    (hev : ev ∈ s.log) : ev.Faithful env s ↔ SlotFits env ev.before ev.edge := by
  obtain ⟨node, node', hbecause, hnode', hsame⟩ := h.event hev
  apply forall_congr'
  intro origin
  apply forall_congr'
  intro hdenoted
  have hnow : (∃ node, s.nodes[ev.target]? = some node ∧ origin = .ok node.origin) ↔
      origin = .ok node.origin := by
    rw [hnode', ← hsame.origin_eq]
    simp
  rw [hnow]
  cases hbecause with
  | reuse hfresh hnode hwhy =>
      rw [← hwhy.slot hdenoted, hnode]
  | place hfresh hpath hfree hwhy =>
      obtain ⟨hslot, hasking⟩ := hwhy.slot hdenoted
      rw [← hslot, hpath, Map.get_eq_none_iff.mpr hfree, hasking]
      simp only [Option.some.injEq]
      exact eq_comm

/-- In every state of a resolution the workspace edges and source edges are bound to what
they denote exactly when each of them found its slot free or filled from that source. -/
theorem Reachable.sources_iff {s : GraphResolver} (h : Reachable env roots s) :
    (∀ ev ∈ s.log, ev.Faithful env s) ↔ ∀ ev ∈ s.log, SlotFits env ev.before ev.edge :=
  forall₂_congr fun _ hev => h.faithful_iff hev

end

namespace SourceEdges.Example

/-- The member `b` at version `2.0.0`. -/
def index : WorkspaceIndex :=
  WorkspaceIndex.empty.add ⟨['b'], Release.version 2 0 0, lit "packages/b", none⟩ (by decide)

/-- `b` at an older version, and `c`, which depends on the version of the member. -/
def versions : List VersionMetadata :=
  [Release.published ['b'] (Release.version 1 0 0) [] [],
    Release.published ['c'] (Release.version 1 0 0) [(['b'], ['^', '2'])] []]

def inputs : Inputs := { Project.inputs versions with workspace := some index }

def env : Env := inputs.env (Project.manifest [] []) OverrideSet.empty

def run (dependencies : List (Str × Str)) : Except Halt Lockfile × GraphResolver :=
  resolveManifest inputs (Project.manifest dependencies []) 4 .init

theorem run_reachable (dependencies : List (Str × Str)) :
    Reachable env (RootRequests env (Project.manifest dependencies [])) (run dependencies).2 :=
  resolveManifest_reachable (Project.no_overrides _ dependencies []) 4

/-- The project asks for the older `b`, and for `c`. -/
def roots : List (Str × Str) := [(['b'], ['^', '1']), (['c'], ['*'])]

end SourceEdges.Example

open SourceEdges in
/-- The equivalence for a project that only asks for `c`, which is bound to the member. -/
theorem sources_iff_member :
    (Example.run [(['c'], ['*'])]).2.log.length = 3 ∧
      ((∀ ev ∈ (Example.run [(['c'], ['*'])]).2.log,
          ev.Faithful Example.env (Example.run [(['c'], ['*'])]).2) ↔
        ∀ ev ∈ (Example.run [(['c'], ['*'])]).2.log,
          SlotFits Example.env ev.before ev.edge) :=
  ⟨by decide, Reachable.sources_iff (Example.run_reachable [(['c'], ['*'])])⟩

open SourceEdges in
/-- The request of `c` for the member is bound to the older `b` from the registry. -/
theorem sources_reused :
    ¬∀ (env : Env) (roots : Edge → Prop) (s : GraphResolver), Reachable env roots s →
      ∀ ev ∈ s.log, ev.Faithful env s := by
  intro hall
  have hrun := hall _ _ _ (Example.run_reachable Example.roots)
  have hbad : ∃ ev ∈ (Example.run Example.roots).2.log,
      denoted Example.env ev.before ev.edge =
          some (.ok ⟨.workspace (lit "packages/b"), true, some (lit "packages/b")⟩) ∧
        ((Example.run Example.roots).2.nodes[ev.target]?).map Node.origin =
          some ⟨.registry (lit "https://r"), false, none⟩ := by
    decide
  obtain ⟨ev, hev, hdenoted, horigin⟩ := hbad
  obtain ⟨node, hnode, hfaithful⟩ := hrun ev hev _ hdenoted
  rw [hnode, Option.map_some, Option.some.injEq] at horigin
  rw [horigin] at hfaithful
  cases hfaithful

end Bpm
