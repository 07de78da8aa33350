import Bpm.Resolver.Resolve

/-!
# The steps of a resolution

`Step` says once what placement can do to the state and under which guard: reuse a
package, place and announce one, record a target, or diagnose.  `BindStep` is the one
thing that happens after placement: binding the peers of a package.  Every
invariant of the resolver is an induction over these steps, and the main result
here is that a whole resolution, successful or not, is a sequence of placement
steps followed by a sequence of binding steps.
-/

namespace Bpm

open Text Relation

/-- The same placement, up to what later steps may change in it. -/
def Node.SamePlacement (n n' : Node) : Prop :=
  n' = { n with
    targets := n'.targets, optional := n'.optional, dev := n'.dev
    peerContext := n'.peerContext }

theorem Node.SamePlacement.refl (n : Node) : n.SamePlacement n := rfl

theorem Node.SamePlacement.trans {n n' n'' : Node} (h : n.SamePlacement n')
    (h' : n'.SamePlacement n'') : n.SamePlacement n'' := by
  unfold Node.SamePlacement at h h' ⊢
  rw [h', h]

/-- How the state changes over time: the log grows at its front, and placed
packages stay what they are. -/
structure Grows (s s' : GraphResolver) : Prop where
  log : ∃ new, s'.log = new ++ s.log
  nodes : ∀ {path : Str} {node : Node}, s.nodes[path]? = some node →
    ∃ node', s'.nodes[path]? = some node' ∧ node.SamePlacement node'

namespace Grows

theorem refl (s : GraphResolver) : Grows s s :=
  ⟨⟨[], rfl⟩, fun h => ⟨_, h, .refl _⟩⟩

theorem trans {s s' s'' : GraphResolver} (h : Grows s s') (h' : Grows s' s'') :
    Grows s s'' := by
  constructor
  · obtain ⟨new, hnew⟩ := h.log
    obtain ⟨new', hnew'⟩ := h'.log
    exact ⟨new' ++ new, by rw [hnew', hnew, List.append_assoc]⟩
  · intro path node hnode
    obtain ⟨node', hnode', hsame⟩ := h.nodes hnode
    obtain ⟨node'', hnode'', hsame'⟩ := h'.nodes hnode'
    exact ⟨node'', hnode'', hsame.trans hsame'⟩

theorem mem_log {s s' : GraphResolver} (h : Grows s s') {ev : Event} (hev : ev ∈ s.log) :
    ev ∈ s'.log := by
  obtain ⟨new, hnew⟩ := h.log
  rw [hnew]
  exact List.mem_append_right new hev

end Grows

/-- Whether the graph asks for an edge: the project does, or a package that is
being expanded asks for one of its dependencies with the flags it was placed
with, or a placed package lacks a peer. -/
def Asked (roots : Edge → Prop) (s : GraphResolver) (edge : Edge) : Prop :=
  match edge.owner with
  | .root => roots edge
  | .package owner =>
      ∃ node, s.nodes[owner]? = some node ∧
        node.dependencies[edge.name]? = some edge.requested ∧
        (edge.parent = owner ∨ edge.parent = [] ∧ node.link = true) ∧
        ∃ ev ∈ s.log, ev.fresh = true ∧ ev.target = owner ∧ edge.dev = ev.edge.dev ∧
          edge.optional =
            (ev.edge.optional || node.metadata.optionalDependencies.contains edge.name)
  | .peer consumer =>
      edge.parent = parentPath consumer ∧ edge.optional = false ∧ edge.dev = false ∧
        ∃ node, s.nodes[consumer]? = some node ∧
          node.metadata.peerDependencies[edge.name]? = some edge.requested

/-- Why a request is bound to a package that is already there. -/
inductive Reuses (env : Env) (nodes : Map Node) (edge : Edge) : Str → Prop
  | link (link : WorkspaceEdge)
      (hlink : workspaceLink env edge.name (effectiveSpec env nodes edge) = .ok (some link)) :
      Reuses env nodes edge (childPath [] edge.name)
  | source (source : DependencySource)
      (hlink : workspaceLink env edge.name (effectiveSpec env nodes edge) = .ok none)
      (hsource : DependencySource.parse (effectiveSpec env nodes edge) = some source) :
      Reuses env nodes edge (childPath edge.parent edge.name)
  | visible (path : Str)
      (hlink : workspaceLink env edge.name (effectiveSpec env nodes edge) = .ok none)
      (hsource : DependencySource.parse (effectiveSpec env nodes edge) = none)
      (hfind : findVisible env.crates nodes edge.parent edge.name
        (registryRequest env.crates edge.name (effectiveSpec env nodes edge)).2 = some path) :
      Reuses env nodes edge path

/-- Which package is placed for a request. -/
inductive Places (env : Env) (nodes : Map Node) (edge : Edge) : Node → Prop
  | link (link : WorkspaceEdge)
      (hlink : workspaceLink env edge.name (effectiveSpec env nodes edge) = .ok (some link)) :
      Places env nodes edge (linkNode env edge link)
  | source (source : DependencySource) (resolved : SourceResolution)
      (hlink : workspaceLink env edge.name (effectiveSpec env nodes edge) = .ok none)
      (hsource : DependencySource.parse (effectiveSpec env nodes edge) = some source)
      (hresolved : resolveSource env nodes edge (effectiveSpec env nodes edge) source =
        .ok resolved) :
      Places env nodes edge (sourceNode edge resolved)
  | registry (artifact : ResolvedArtifact)
      (hlink : workspaceLink env edge.name (effectiveSpec env nodes edge) = .ok none)
      (hsource : DependencySource.parse (effectiveSpec env nodes edge) = none)
      (hfind : findVisible env.crates nodes edge.parent edge.name
        (registryRequest env.crates edge.name (effectiveSpec env nodes edge)).2 = none)
      (hselect : selectArtifact env nodes edge.parent edge.name (effectiveSpec env nodes edge) =
        .ok artifact) :
      Places env nodes edge (registryNode edge artifact
        (env.registry.baseFor
          (registryRequest env.crates edge.name (effectiveSpec env nodes edge)).1))

/-- Whether the log says that a request of `owner` for `name` was bound to `target`. -/
def Bound (s : GraphResolver) (owner : Owner) (name target : Str) : Prop :=
  ∃ ev ∈ s.log, ev.edge.owner = owner ∧ ev.edge.name = name ∧ ev.target = target

/-- One step of a resolution with the given root requests. -/
inductive Step (env : Env) (roots : Edge → Prop) : GraphResolver → GraphResolver → Prop
  | diagnose (s : GraphResolver) (message : Str) : Step env roots s (s.diagnose message)
  | reuse (s : GraphResolver) (edge : Edge) (path : Str) (hasked : Asked roots s edge)
      (hin : s.nodes.contains path = true) (hwhy : Reuses env s.nodes edge path) :
      Step env roots s (s.reuse edge path)
  | place (s : GraphResolver) (edge : Edge) (node : Node) (hasked : Asked roots s edge)
      (hfree : s.nodes.contains node.path = false) (hwhy : Places env s.nodes edge node) :
      Step env roots s ((s.place edge node).announce env.sink node.path)
  | record (s : GraphResolver) (owner name target : Str)
      (hbound : Bound s (.package owner) name target) :
      Step env roots s (s.record owner name target)

/-- Binding the peers of one package. -/
inductive BindStep (env : Env) (mode : PeerMode) : GraphResolver → GraphResolver → Prop
  | bind (s : GraphResolver) (path : Str) (node : Node)
      (context : Map ProviderIdentity) (hnode : s.nodes[path]? = some node)
      (hbind : bindNode env mode s.nodes path node = .ok context) :
      BindStep env mode s
        { s with nodes := s.nodes.modify path fun node =>
            { node with peerContext := context.map fun _ provider =>
                recordedProvider env s.nodes (parentPath path) provider } }

/-- Any number of placement steps. -/
abbrev Steps (env : Env) (roots : Edge → Prop) := ReflTransGen (Step env roots)

/-- Any number of binding steps. -/
abbrev Binds (env : Env) (mode : PeerMode) := ReflTransGen (BindStep env mode)

/-- The states a resolution goes through: placement, then binding. -/
def Reachable (env : Env) (roots : Edge → Prop) (s : GraphResolver) : Prop :=
  ∃ placed mode, Steps env roots .init placed ∧ Binds env mode placed s

theorem Node.upgrade_same (node : Node) (optional dev : Bool) :
    node.SamePlacement (node.upgrade optional dev) := rfl

theorem Node.withTarget_same (node : Node) (name target : Str) :
    node.SamePlacement (node.withTarget name target) := rfl

/-- Changing a node within its placement keeps all placements. -/
theorem modify_nodes {nodes : Map Node} {path : Str} {f : Node → Node}
    (hf : ∀ node, Node.SamePlacement node (f node)) {p : Str} {node : Node}
    (h : nodes[p]? = some node) :
    ∃ node', (nodes.modify path f)[p]? = some node' ∧ node.SamePlacement node' := by
  rw [Map.get_modify]
  split
  · exact ⟨f node, by rw [h]; rfl, hf node⟩
  · exact ⟨node, h, .refl _⟩

@[simp] theorem announce_nodes (s : GraphResolver) (sink : Bool) (path : Str) :
    (s.announce sink path).nodes = s.nodes := by
  unfold GraphResolver.announce
  split
  · rfl
  · split
    · rfl
    · split <;> rfl

@[simp] theorem announce_log (s : GraphResolver) (sink : Bool) (path : Str) :
    (s.announce sink path).log = s.log := by
  unfold GraphResolver.announce
  split
  · rfl
  · split
    · rfl
    · split <;> rfl

/-- A linked package is not announced. -/
theorem announce_place_link (s : GraphResolver) (sink : Bool) (edge : Edge) {node : Node}
    (h : node.link = true) :
    (s.place edge node).announce sink node.path = s.place edge node := by
  have hnode : (s.place edge node).nodes[node.path]? = some node :=
    Map.get_insert_self _ _ _
  unfold GraphResolver.announce
  simp [hnode, h]

variable {env : Env} {roots : Edge → Prop} {mode : PeerMode}

theorem Step.grows {s s' : GraphResolver} (h : Step env roots s s') : Grows s s' := by
  cases h with
  | diagnose message => exact ⟨⟨[], rfl⟩, fun h => ⟨_, h, .refl _⟩⟩
  | reuse edge path hasked hin hwhy =>
      exact ⟨⟨[_], rfl⟩, fun h => modify_nodes (fun node => node.upgrade_same _ _) h⟩
  | place edge node hasked hfree hwhy =>
      refine ⟨⟨[_], announce_log _ _ _⟩, fun {p old} h => ⟨old, ?_, .refl _⟩⟩
      have hne : node.path ≠ p := by
        rintro rfl
        rw [Map.get_eq_none_iff.mpr hfree] at h
        cases h
      rw [announce_nodes]
      change (s.nodes.insert node.path node)[p]? = some old
      rw [Map.get_insert_of_ne _ _ hne]
      exact h
  | record owner name target hbound =>
      exact ⟨⟨[], rfl⟩, fun h => modify_nodes (fun node => node.withTarget_same _ _) h⟩
theorem Steps.grows {s s' : GraphResolver} (h : Steps env roots s s') : Grows s s' := by
  induction h with
  | refl => exact Grows.refl _
  | tail _ hstep ih => exact ih.trans hstep.grows

theorem BindStep.grows {s s' : GraphResolver} (h : BindStep env mode s s') : Grows s s' := by
  cases h with
  | bind path node context hnode hbind =>
      refine ⟨⟨[], rfl⟩, fun {p old} h => ?_⟩
      refine modify_nodes (f := fun node => { node with peerContext := _ }) ?_ h
      exact fun node => rfl

theorem Binds.grows {s s' : GraphResolver} (h : Binds env mode s s') : Grows s s' := by
  induction h with
  | refl => exact Grows.refl _
  | tail _ hstep ih => exact ih.trans hstep.grows

/-- Binding adds no event. -/
theorem Binds.log_eq {s s' : GraphResolver} (h : Binds env mode s s') : s'.log = s.log := by
  induction h with
  | refl => rfl
  | tail _ hstep ih =>
      rw [← ih]
      cases hstep
      rfl

theorem Asked.mono {s s' : GraphResolver} {edge : Edge} (h : Asked roots s edge)
    (hgrows : Grows s s') : Asked roots s' edge := by
  unfold Asked at h ⊢
  cases howner : edge.owner with
  | root =>
      rw [howner] at h
      exact h
  | package owner =>
      rw [howner] at h
      obtain ⟨node, hnode, hdep, hparent, ev, hev, hfresh, htarget, hdev, hoptional⟩ := h
      obtain ⟨node', hnode', hsame⟩ := hgrows.nodes hnode
      refine ⟨node', hnode', ?_⟩
      unfold Node.SamePlacement at hsame
      rw [hsame]
      exact ⟨hdep, hparent, ev, hgrows.mem_log hev, hfresh, htarget, hdev, hoptional⟩
  | peer consumer =>
      rw [howner] at h
      obtain ⟨hparent, hoptional, hdev, node, hnode, hpeer⟩ := h
      obtain ⟨node', hnode', hsame⟩ := hgrows.nodes hnode
      refine ⟨hparent, hoptional, hdev, node', hnode', ?_⟩
      unfold Node.SamePlacement at hsame
      rw [hsame]
      exact hpeer

theorem Bound.mono {s s' : GraphResolver} {owner : Owner} {name target : Str}
    (h : Bound s owner name target) (hgrows : Grows s s') : Bound s' owner name target := by
  obtain ⟨ev, hev, hbound⟩ := h
  exact ⟨ev, hgrows.mem_log hev, hbound⟩

/-! ## Events and the steps that left them -/

/-- Why an event is in the log: which package its request was bound to. -/
inductive Event.Because (env : Env) (ev : Event) (node : Node) : Prop
  | reuse (hfresh : ev.fresh = false) (hnode : ev.before[ev.target]? = some node)
      (hwhy : Reuses env ev.before ev.edge ev.target)
  | place (hfresh : ev.fresh = true) (hpath : node.path = ev.target)
      (hfree : ev.before.contains ev.target = false)
      (hwhy : Places env ev.before ev.edge node)

/-- Every event of a run was left by a step whose guard held, and the package it
was bound to is still there. -/
theorem Steps.event {s : GraphResolver} (h : Steps env roots .init s) {ev : Event}
    (hev : ev ∈ s.log) :
    ∃ node s₀ node', ev.Because env node ∧ s₀.nodes = ev.before ∧ Asked roots s₀ ev.edge ∧
      Steps env roots .init s₀ ∧ Steps env roots s₀ s ∧
      s.nodes[ev.target]? = some node' ∧ node.SamePlacement node' := by
  induction h with
  | refl => cases hev
  | @tail s s' hsteps hstep ih =>
      have hold : ev ∈ s.log → ∃ node s₀ node', ev.Because env node ∧ s₀.nodes = ev.before ∧
          Asked roots s₀ ev.edge ∧ Steps env roots .init s₀ ∧ Steps env roots s₀ s' ∧
          s'.nodes[ev.target]? = some node' ∧ node.SamePlacement node' := by
        intro hin
        obtain ⟨node, s₀, node', hbecause, hnodes, hasked, hinit, hlater, hnode', hsame⟩ := ih hin
        obtain ⟨node'', hnode'', hsame'⟩ := hstep.grows.nodes hnode'
        exact ⟨node, s₀, node'', hbecause, hnodes, hasked, hinit, hlater.tail hstep, hnode'',
          hsame.trans hsame'⟩
      cases hstep with
      | diagnose message => exact hold hev
      | record owner name target hbound => exact hold hev
      | reuse edge path hasked hin hwhy =>
          rcases List.mem_cons.mp hev with rfl | hin'
          · rw [Map.contains_eq_isSome, Option.isSome_iff_exists] at hin
            obtain ⟨node, hnode⟩ := hin
            refine ⟨node, s, node.upgrade edge.optional edge.dev, .reuse rfl hnode hwhy, rfl,
              hasked, hsteps,
              .single (.reuse s edge path hasked ?_ hwhy), ?_, node.upgrade_same _ _⟩
            · rw [Map.contains_eq_isSome, hnode]
              rfl
            · change (s.nodes.modify path _)[path]? = _
              rw [Map.get_modify, if_pos rfl, hnode]
              rfl
          · exact hold hin'
      | place edge node hasked hfree hwhy =>
          rw [announce_log] at hev
          rcases List.mem_cons.mp hev with rfl | hin'
          · refine ⟨node, s, node, .place rfl rfl hfree hwhy, rfl, hasked, hsteps,
              .single (.place s edge node hasked hfree hwhy), ?_, .refl _⟩
            rw [announce_nodes]
            exact Map.get_insert_self _ _ _
          · exact hold hin'

/-- The package an event was bound to is there in every later state. -/
theorem Reachable.event {s : GraphResolver} (h : Reachable env roots s) {ev : Event}
    (hev : ev ∈ s.log) :
    ∃ node node', ev.Because env node ∧ s.nodes[ev.target]? = some node' ∧
      node.SamePlacement node' := by
  obtain ⟨placed, mode, hplaced, hbinds⟩ := h
  rw [hbinds.log_eq] at hev
  obtain ⟨node, _, node', hbecause, _, _, _, _, hnode', hsame⟩ := hplaced.event hev
  obtain ⟨node'', hnode'', hsame'⟩ := hbinds.grows.nodes hnode'
  exact ⟨node, node'', hbecause, hnode'', hsame.trans hsame'⟩

/-! ## A resolution is a sequence of steps -/

/-- What a call for `edge` leaves behind when it returns. -/
def Returned (edge : Edge) (r : Except Halt (Option Str)) (s : GraphResolver) : Prop :=
  ∀ target, r = .ok (some target) → Bound s edge.owner edge.name target

/-- A way to resolve requests whose effect is a sequence of steps. -/
def StepsOnly (env : Env) (roots : Edge → Prop) (recur : Edge → Resolve (Option Str)) : Prop :=
  ∀ edge, Run.Spec (Steps env roots) (fun s => Asked roots s edge) (recur edge) (Returned edge)

/-- A package in expansion: it was placed with the given flags, and its
dependencies are the given ones. -/
def Expanding (s : GraphResolver) (path : Str) (dependencies : Map Str)
    (optional dev : Bool) : Prop :=
  ∃ node, s.nodes[path]? = some node ∧ node.dependencies = dependencies ∧
    ∃ ev ∈ s.log, ev.fresh = true ∧ ev.target = path ∧
      ev.edge.optional = optional ∧ ev.edge.dev = dev

theorem Expanding.mono {s s' : GraphResolver} {path : Str} {dependencies : Map Str}
    {optional dev : Bool} (h : Expanding s path dependencies optional dev)
    (hgrows : Grows s s') : Expanding s' path dependencies optional dev := by
  obtain ⟨node, hnode, hdeps, ev, hev, hrest⟩ := h
  obtain ⟨node', hnode', hsame⟩ := hgrows.nodes hnode
  refine ⟨node', hnode', ?_, ev, hgrows.mem_log hev, hrest⟩
  rw [hsame]
  exact hdeps

/-- The request for a dependency of a package in expansion is asked for. -/
theorem Expanding.asked {s : GraphResolver} {path parent : Str} {dependencies : Map Str}
    {optional dev : Bool} (h : Expanding s path dependencies optional dev)
    (hparent : ∀ node, s.nodes[path]? = some node →
      parent = path ∨ parent = [] ∧ node.link = true)
    {child : Str × Str} (hchild : child ∈ dependencies.toList) :
    Asked roots s (childEdge s.nodes path parent optional dev child) := by
  obtain ⟨node, hnode, rfl, ev, hev, hfresh, htarget, rfl, rfl⟩ := h
  refine ⟨node, hnode, Map.mem_toList.mp hchild, hparent node hnode, ev, hev, hfresh,
    htarget, rfl, ?_⟩
  simp [childEdge, hnode]

/-- After a placement, the placed package is in expansion. -/
theorem expanding_place (s : GraphResolver) (edge : Edge) (node : Node) :
    Expanding (s.place edge node) node.path node.dependencies edge.optional edge.dev :=
  ⟨node, Map.get_insert_self _ _ _, rfl, _, List.mem_cons_self, rfl, rfl, rfl, rfl⟩

/-- Recording what a call returned is a step. -/
theorem recordTarget_steps (owner name : Str) (target : Option Str) :
    Run.Spec (Steps env roots)
      (fun s => ∀ t, target = some t → Bound s (.package owner) name t)
      (recordTarget owner name target) (fun _ _ => True) := by
  cases target with
  | none => exact Run.Spec.pure fun _ _ => trivial
  | some t =>
      refine Run.Spec.modify (fun s hbound => ?_) (fun _ _ => trivial)
      exact .single (.record s owner name t (hbound t rfl))

/-- One round over the children of a package: a call, then its record. -/
theorem childRound_steps {call : Resolve (Option Str)} {P : GraphResolver → Prop}
    {path name : Str}
    (hcall : Run.Spec (Steps env roots) P call fun r s =>
      ∀ t, r = .ok (some t) → Bound s (.package path) name t) :
    Run.Spec (Steps env roots) P (call >>= recordTarget path name)
      (fun _ _ => True) := by
  refine Run.Spec.bind hcall (fun target => ?_) (fun _ _ _ => trivial)
  refine (recordTarget_steps path name target).mono ?_ (fun _ _ h => h)
  rintro s ⟨_, hbound⟩ t rfl
  exact hbound t rfl

theorem resolveChildren_steps {recur : Edge → Resolve (Option Str)}
    (hrec : StepsOnly env roots recur) (path : Str) (dependencies : Map Str)
    (optional dev : Bool) :
    Run.Spec (Steps env roots) (fun s => Expanding s path dependencies optional dev)
      (resolveChildren recur path dependencies optional dev) (fun _ _ => True) := by
  refine (Run.Spec.forEach (E := fun _ _ => True) _ (fun s s' hsteps h => h.mono hsteps.grows)
    ?_).mono (fun _ h => h) (fun _ _ _ => trivial)
  intro child hchild
  refine Run.Spec.get_bind fun s₀ hexp => ?_
  refine (childRound_steps ?_).mono (fun _ h => h) (fun _ _ _ _ _ => trivial)
  refine (hrec _).mono ?_ (fun _ _ h => h)
  rintro s rfl
  exact hexp.asked (fun _ _ => Or.inl rfl) hchild

/-- A hoisted child is asked for at the root and, after a conflict there, below
the link; both are requests of the link. -/
theorem hoistedCall_steps {recur : Edge → Resolve (Option Str)}
    (hrec : StepsOnly env roots recur) {path : Str} {dependencies : Map Str}
    {optional dev : Bool} {child : Str × Str} (hchild : child ∈ dependencies.toList)
    (s₀ : GraphResolver) (hexp : Expanding s₀ path dependencies optional dev)
    (hlink : ∀ node, s₀.nodes[path]? = some node → node.link = true) :
    Run.Spec (Steps env roots) (fun s => s = s₀)
      (Run.recover (recur (childEdge s₀.nodes path [] optional dev child)) fun
        | .failed (.placementConflict ..) =>
            recur { childEdge s₀.nodes path [] optional dev child with parent := path }
        | other => Run.fail other)
      (fun r s => ∀ t, r = .ok (some t) → Bound s (.package path) child.1 t) := by
  have hroot : Asked roots s₀ (childEdge s₀.nodes path [] optional dev child) :=
    hexp.asked (fun node hnode => Or.inr ⟨rfl, hlink node hnode⟩) hchild
  have hnested : Asked roots s₀
      { childEdge s₀.nodes path [] optional dev child with parent := path } :=
    hexp.asked (fun _ _ => Or.inl rfl) hchild
  have hfirst := (hrec (childEdge s₀.nodes path [] optional dev child)).mono
    (P := fun s => s = s₀) (Q := Returned (childEdge s₀.nodes path [] optional dev child))
    (by rintro s rfl; exact hroot) (fun _ _ h => h)
  refine Run.Spec.recover hfirst (fun a s h t ht => h t ht) ?_
  intro e
  split
  · refine (hrec _).mono ?_ (fun _ _ h => h)
    rintro s ⟨⟨_, rfl, hsteps⟩, _⟩
    exact hnested.mono hsteps.grows
  · exact Run.Spec.fail fun _ _ _ ht => by cases ht

theorem resolveChildrenHoisted_steps {recur : Edge → Resolve (Option Str)}
    (hrec : StepsOnly env roots recur) (path : Str) (dependencies : Map Str)
    (optional dev : Bool) :
    Run.Spec (Steps env roots)
      (fun s => Expanding s path dependencies optional dev ∧
        ∀ node, s.nodes[path]? = some node → node.link = true)
      (resolveChildrenHoisted recur path dependencies optional dev) (fun _ _ => True) := by
  refine (Run.Spec.forEach (E := fun _ _ => True) _ ?_ ?_).mono (fun _ h => h)
    (fun _ _ _ => trivial)
  · rintro s s' hsteps ⟨hexp, hlink⟩
    refine ⟨hexp.mono hsteps.grows, ?_⟩
    obtain ⟨node, hnode, -⟩ := hexp
    obtain ⟨node', hnode', hsame⟩ := hsteps.grows.nodes hnode
    intro n hn
    rw [hnode'] at hn
    cases hn
    rw [hsame]
    exact hlink node hnode
  · intro child hchild
    refine Run.Spec.get_bind fun s₀ ⟨hexp, hlink⟩ => ?_
    exact (childRound_steps (hoistedCall_steps hrec hchild s₀ hexp hlink)).mono
      (fun _ h => h) (fun _ _ _ _ _ => trivial)

theorem platformAllows_steps {P : GraphResolver → Prop} (name : Str) (metadata : VersionMetadata) (optional : Bool) :
    Run.Spec (Steps env roots) P (platformAllows env name metadata optional)
      (fun _ s => ∃ s₀, P s₀ ∧ s₀.nodes = s.nodes ∧ s₀.log = s.log) := by
  unfold platformAllows
  split
  · exact Run.Spec.pure fun s hs => ⟨s, hs, rfl, rfl⟩
  · exact fun s hs => ⟨.single (.diagnose s _), s, hs, rfl, rfl⟩
  · exact Run.Spec.fail fun s hs => ⟨s, hs, rfl, rfl⟩

/-- `Asked` reads only the nodes and the log. -/
theorem Asked.congr {s s' : GraphResolver} {edge : Edge} (h : Asked roots s edge)
    (hnodes : s.nodes = s'.nodes) (hlog : s.log = s'.log) : Asked roots s' edge := by
  unfold Asked at h ⊢
  rw [← hnodes, ← hlog]
  exact h

theorem reuseNode_steps {edge : Edge} {path : Str} (s₀ : GraphResolver)
    (hasked : Asked roots s₀ edge) (hin : s₀.nodes.contains path = true)
    (hwhy : Reuses env s₀.nodes edge path) :
    Run.Spec (Steps env roots) (fun s => s = s₀) (reuseNode edge path) (Returned edge) := by
  rintro s rfl
  refine ⟨.single (.reuse s edge path hasked hin hwhy), ?_⟩
  intro target htarget
  cases htarget
  exact ⟨_, List.mem_cons_self, rfl, rfl, rfl⟩

/-- Placing a package after the platform check, expanding it and returning its
path; `placing` is the placement with the announcement, if there is one. -/
theorem placeNode_steps {edge : Edge} {node : Node} {children : Resolve Unit}
    (placing : GraphResolver → GraphResolver) (s₀ : GraphResolver) (hasked : Asked roots s₀ edge)
    (hfree : s₀.nodes.contains node.path = false) (hwhy : Places env s₀.nodes edge node)
    (hplacing : ∀ s : GraphResolver,
      placing s = (s.place edge node).announce env.sink node.path)
    (hchildren : Run.Spec (Steps env roots)
      (fun s => Expanding s node.path node.dependencies edge.optional edge.dev ∧
        ∀ n, s.nodes[node.path]? = some n → n.link = node.link)
      children (fun _ _ => True)) :
    Run.Spec (Steps env roots) (fun s => s = s₀)
      (do
        if ← platformAllows env edge.name node.metadata edge.optional then
          Run.modify placing
          children
          return some node.path
        else
          return none)
      (Returned edge) := by
  refine Run.Spec.bind (platformAllows_steps _ _ _) (fun allowed => ?_) ?_
  · cases allowed with
    | false => exact Run.Spec.pure fun _ _ _ ht => by cases ht
    | true =>
        rw [if_pos rfl]
        refine Run.Spec.bind (Q := fun _ s =>
          (Expanding s node.path node.dependencies edge.optional edge.dev ∧
            ∀ n, s.nodes[node.path]? = some n → n.link = node.link) ∧
            Bound s edge.owner edge.name node.path)
          (Run.Spec.modify ?_ ?_) (fun _ => ?_) (fun _ _ _ _ ht => nomatch ht)
        · rintro s ⟨_, s₁, rfl, hnodes, hlog⟩
          rw [hplacing]
          refine .single (.place s edge node (hasked.congr hnodes hlog) ?_ ?_)
          · rw [← hnodes]
            exact hfree
          · rw [← hnodes]
            exact hwhy
        · rintro s ⟨_, s₁, rfl, _, _⟩
          rw [hplacing]
          refine ⟨⟨?_, ?_⟩, ?_⟩
          · unfold Expanding
            rw [announce_nodes, announce_log]
            exact expanding_place s edge node
          · intro n hn
            rw [announce_nodes] at hn
            have hself := Map.get_insert_self s.nodes node.path node
            rw [show (s.place edge node).nodes = s.nodes.insert node.path node from rfl,
              hself] at hn
            rw [Option.some.inj hn]
          · unfold Bound
            rw [announce_log]
            exact ⟨_, List.mem_cons_self, rfl, rfl, rfl⟩
        · refine Run.Spec.bind (hchildren.mono (fun s hs => hs.2.1) (fun _ _ h => h))
            (fun _ => Run.Spec.pure ?_) (fun _ _ _ _ ht => nomatch ht)
          rintro s ⟨⟨s₁, ⟨_, _, hbound⟩, hsteps⟩, _⟩ target htarget
          cases htarget
          exact hbound.mono hsteps.grows
  · intro e s _ target htarget
    cases htarget

theorem resolveLink_steps {recur : Edge → Resolve (Option Str)}
    (hrec : StepsOnly env roots recur) {edge : Edge} {link : WorkspaceEdge}
    (s₀ : GraphResolver) (hasked : Asked roots s₀ edge)
    (hlink : workspaceLink env edge.name (effectiveSpec env s₀.nodes edge) = .ok (some link)) :
    Run.Spec (Steps env roots) (fun s => s = s₀) (resolveLink env recur edge link)
      (Returned edge) := by
  unfold resolveLink
  refine Run.Spec.get_bind fun s₁ hs₁ => ?_
  subst hs₁
  by_cases hin : s₁.nodes.contains (linkNode env edge link).path = true
  · simp only [hin, if_true]
    exact reuseNode_steps s₁ hasked hin (.link link hlink)
  · rw [if_neg hin]
    exact placeNode_steps (·.place edge (linkNode env edge link)) s₁ hasked
      (Bool.eq_false_iff.mpr hin) (.link link hlink)
      (fun s => (announce_place_link s env.sink edge rfl).symm)
      (resolveChildrenHoisted_steps hrec _ _ _ _)

theorem resolveSourceDependency_steps {recur : Edge → Resolve (Option Str)}
    (hrec : StepsOnly env roots recur) {edge : Edge} {source : DependencySource}
    (s₀ : GraphResolver) (hasked : Asked roots s₀ edge)
    (hlink : workspaceLink env edge.name (effectiveSpec env s₀.nodes edge) = .ok none)
    (hsource : DependencySource.parse (effectiveSpec env s₀.nodes edge) = some source) :
    Run.Spec (Steps env roots) (fun s => s = s₀)
      (resolveSourceDependency env recur edge (effectiveSpec env s₀.nodes edge) source)
      (Returned edge) := by
  unfold resolveSourceDependency
  refine Run.Spec.get_bind fun s₁ hs₁ => ?_
  subst hs₁
  by_cases hin : s₁.nodes.contains (childPath edge.parent edge.name) = true
  · simp only [hin, if_true]
    exact reuseNode_steps s₁ hasked hin (.source source hlink hsource)
  · rw [if_neg hin]
    refine Run.Spec.ofExcept_bind (fun resolved hres => ?_) (fun _ _ _ _ _ ht => nomatch ht)
    exact placeNode_steps _ s₁ hasked
      (Bool.eq_false_iff.mpr hin) (.source source resolved hlink hsource hres) (fun _ => rfl)
      ((resolveChildren_steps hrec _ _ _ _).mono (fun _ h => h.1) (fun _ _ h => h))

theorem resolveRegistryDependency_steps {recur : Edge → Resolve (Option Str)}
    (hrec : StepsOnly env roots recur) {edge : Edge} (s₀ : GraphResolver)
    (hasked : Asked roots s₀ edge)
    (hlink : workspaceLink env edge.name (effectiveSpec env s₀.nodes edge) = .ok none)
    (hsource : DependencySource.parse (effectiveSpec env s₀.nodes edge) = none) :
    Run.Spec (Steps env roots) (fun s => s = s₀)
      (resolveRegistryDependency env recur edge (effectiveSpec env s₀.nodes edge))
      (Returned edge) := by
  unfold resolveRegistryDependency
  refine Run.Spec.get_bind fun s₁ hs₁ => ?_
  subst hs₁
  dsimp only
  cases hfind : findVisible env.crates s₁.nodes edge.parent edge.name
      (registryRequest env.crates edge.name (effectiveSpec env s₁.nodes edge)).2 with
  | some path =>
      obtain ⟨_, node, hnode, _⟩ := findVisible_some hfind
      refine reuseNode_steps s₁ hasked ?_ (.visible path hlink hsource hfind)
      rw [Map.contains_eq_isSome, hnode]
      rfl
  | none =>
      dsimp only
      cases hslot : s₁.nodes[childPath edge.parent edge.name]? with
      | some selected =>
          -- The slot is the first one that `findVisible` looked at.
          obtain ⟨rest, hrest⟩ := lookupPaths_head edge.parent edge.name
          have hmem : childPath edge.parent edge.name ∈ lookupPaths edge.parent edge.name := by
            rw [hrest]
            exact List.mem_cons_self
          have hno := findVisible_none hfind hmem hslot
          simp only [hno]
          exact Run.Spec.fail fun _ _ _ ht => by cases ht
      | none =>
          refine Run.Spec.ofExcept_bind (fun artifact hselect => ?_)
            (fun _ _ _ _ _ ht => nomatch ht)
          exact placeNode_steps _ s₁ hasked
            (Map.get_eq_none_iff.mp hslot) (.registry artifact hlink hsource hfind hselect)
            (fun _ => rfl)
            ((resolveChildren_steps hrec _ _ _ _).mono (fun _ h => h.1) (fun _ _ h => h))

theorem resolveDependencyWith_steps {recur : Edge → Resolve (Option Str)}
    (hrec : StepsOnly env roots recur) :
    StepsOnly env roots (resolveDependencyWith env recur) := by
  intro edge
  unfold resolveDependencyWith
  refine Run.Spec.get_bind fun s₀ hasked => ?_
  refine Run.Spec.ofExcept_bind (fun link hlink => ?_) (fun _ _ _ _ _ ht => nomatch ht)
  cases link with
  | some link => exact resolveLink_steps hrec s₀ hasked hlink
  | none =>
      dsimp only
      cases hsource : DependencySource.parse (effectiveSpec env s₀.nodes edge) with
      | some source => exact resolveSourceDependency_steps hrec s₀ hasked hlink hsource
      | none => exact resolveRegistryDependency_steps hrec s₀ hasked hlink hsource

/-- Resolving a request with any fuel is a sequence of steps, and what it returns
is bound in the log. -/
theorem resolveDependency_steps (fuel : Nat) :
    StepsOnly env roots (resolveDependency env fuel) := by
  induction fuel with
  | zero => exact fun edge => Run.Spec.fail fun _ _ _ ht => by cases ht
  | succ fuel ih => exact resolveDependencyWith_steps ih

/-! ## The whole resolution -/

/-- The requests of the project: its declarations and the links of its members. -/
def RootRequests (env : Env) (manifest : PackageManifest) (edge : Edge) : Prop :=
  (∃ declared ∈ manifest.rootDependencyDeclarations.toList, edge = rootEdge manifest declared) ∨
    ∃ workspace, env.workspace = some workspace ∧
      ∃ link ∈ workspace.topLevelLinks env.crates, edge = memberEdge link

/-- Every root target was bound for a root request. -/
def RootsBound (targets : Map Str) (s : GraphResolver) : Prop :=
  ∀ name target, targets[name]? = some target → Bound s .root name target

theorem resolveRoot_steps {fuel : Nat} {targets : Map Str} {edge : Edge}
    (howner : edge.owner = .root) (hroot : roots edge) :
    Run.Spec (Steps env roots) (RootsBound targets) (resolveRoot env fuel targets edge)
      (fun r s => (∀ targets', r = .ok targets' → RootsBound targets' s) ∧
        ∀ e, r = .error e → True) := by
  have hasked : ∀ s, Asked roots s edge := by
    intro s
    unfold Asked
    rw [howner]
    exact hroot
  unfold resolveRoot
  refine Run.Spec.bind ((resolveDependency_steps fuel edge).mono (fun s _ => hasked s)
    (fun _ _ h => h)) (fun target => ?_) (fun _ _ _ => ⟨(fun _ ht => nomatch ht), fun _ _ => trivial⟩)
  cases target with
  | none =>
      refine Run.Spec.pure ?_
      rintro s ⟨⟨s₀, hs₀, hsteps⟩, _⟩
      refine ⟨fun targets' ht => ?_, fun _ _ => trivial⟩
      cases ht
      exact fun name target h => (hs₀ name target h).mono hsteps.grows
  | some path =>
      refine Run.Spec.pure ?_
      rintro s ⟨⟨s₀, hs₀, hsteps⟩, hbound⟩
      refine ⟨fun targets' ht => ?_, fun _ _ => trivial⟩
      cases ht
      intro name target h
      rw [Map.get_insert] at h
      split at h
      · rename_i hname
        cases h
        rw [← hname, ← howner]
        exact hbound path rfl
      · exact (hs₀ name target h).mono hsteps.grows

theorem resolveMember_steps {fuel : Nat} {targets : Map Str} {link : WorkspaceEdge}
    (hroot : roots (memberEdge link)) :
    Run.Spec (Steps env roots) (RootsBound targets) (resolveMember env fuel targets link)
      (fun r s => (∀ targets', r = .ok targets' → RootsBound targets' s) ∧
        ∀ e, r = .error e → True) := by
  unfold resolveMember
  split
  · refine Run.Spec.pure fun s hs => ⟨fun targets' ht => ?_, fun _ _ => trivial⟩
    cases ht
    exact hs
  · exact resolveRoot_steps rfl hroot

/-- A conflict that can be repaired names a declared peer and its range. -/
theorem bindPeers_missing {candidate : VersionMetadata} {visible : VisibleProviders}
    {peers : List (Str × Str)} {context : Map ProviderIdentity} {conflict : PeerConflict}
    {request : PeerRequest}
    (h : bindPeers env.crates candidate visible peers context = .error conflict)
    (hrequest : conflict.requiredRequest = some request) :
    (request.peer, request.range) ∈ peers := by
  induction peers generalizing context with
  | nil => cases h
  | cons entry rest ih =>
      obtain ⟨peer, range⟩ := entry
      unfold bindPeers at h
      simp only at h
      split at h
      · split at h
        · exact List.mem_cons_of_mem _ (ih h)
        · cases h
          cases hrequest
          exact List.mem_cons_self
      · split at h
        · cases h
          cases hrequest
        · split at h
          · exact List.mem_cons_of_mem _ (ih h)
          · cases h
            cases hrequest

theorem bindNode_missing {mode : PeerMode} {nodes : Map Node} {path : Str} {node : Node}
    {conflict : PeerConflict} {request : PeerRequest}
    (h : bindNode env mode nodes path node = .error conflict)
    (hrequest : conflict.requiredRequest = some request) :
    node.metadata.peerDependencies[request.peer]? = some request.range := by
  unfold bindNode bindPeerContext at h
  cases mode with
  | legacyIgnore => cases h
  | strict => exact Map.mem_toList.mp (bindPeers_missing h hrequest)

/-- What a repair asks for is a missing peer of a placed package. -/
theorem collectRepairs_mem {mode : PeerMode} {nodes : Map Node} {entries : List (Str × Node)}
    {repairs : List Repair} (h : collectRepairs env mode nodes entries = .ok repairs)
    {repair : Repair} (hmem : repair ∈ repairs) :
    ∃ node, (repair.consumer, node) ∈ entries ∧ repair.parent = parentPath repair.consumer ∧
      node.metadata.peerDependencies[repair.request.peer]? = some repair.request.range := by
  induction entries generalizing repairs with
  | nil =>
      cases h
      cases hmem
  | cons entry rest ih =>
      obtain ⟨path, node⟩ := entry
      have hlater : ∀ {later}, collectRepairs env mode nodes rest = .ok later →
          repair ∈ later → ∃ n, (repair.consumer, n) ∈ (path, node) :: rest ∧
            repair.parent = parentPath repair.consumer ∧
            n.metadata.peerDependencies[repair.request.peer]? = some repair.request.range := by
        intro later hlater hin
        obtain ⟨n, hn, hrest⟩ := ih hlater hin
        exact ⟨n, List.mem_cons_of_mem _ hn, hrest⟩
      unfold collectRepairs at h
      split at h
      · exact hlater h hmem
      · rename_i conflict hconflict
        split at h
        · cases h
        · rename_i request hrequest
          cases hl : collectRepairs env mode nodes rest with
          | error e => simp [hl, Except.map] at h
          | ok later =>
              simp only [hl, Except.map, Except.ok.injEq] at h
              subst h
              rcases List.mem_cons.mp hmem with rfl | hin
              · exact ⟨node, List.mem_cons_self, rfl, bindNode_missing hconflict hrequest⟩
              · exact hlater hl hin

theorem installPeer_steps {fuel : Nat} {repair : Repair} {node : Node}
    (hparent : repair.parent = parentPath repair.consumer)
    (hpeer : node.metadata.peerDependencies[repair.request.peer]? = some repair.request.range) :
    Run.Spec (Steps env roots)
      (fun s => ∃ n, s.nodes[repair.consumer]? = some n ∧ node.SamePlacement n)
      (installPeer env fuel repair) (fun _ _ => True) := by
  unfold installPeer
  refine Run.Spec.bind (Q := fun _ _ => True) (Run.Spec.recover
    ((resolveDependency_steps fuel (repairEdge repair)).mono ?_ (fun _ _ h => h))
    (fun _ _ _ => trivial) (fun e => ?_)) (fun _ => Run.Spec.pure fun _ _ => trivial)
    (fun _ _ _ => trivial)
  · rintro s ⟨n, hn, hsame⟩
    refine ⟨hparent, rfl, rfl, n, hn, ?_⟩
    rw [hsame]
    exact hpeer
  · split <;> exact Run.Spec.fail fun _ _ => trivial

theorem peerRounds_steps {mode : PeerMode} {fuel : Nat} (rounds : Nat) :
    Run.Spec (Steps env roots) (fun _ => True) (peerRounds env mode fuel rounds)
      (fun _ _ => True) := by
  induction rounds with
  | zero => exact Run.Spec.pure fun _ _ => trivial
  | succ rounds ih =>
      unfold peerRounds
      refine Run.Spec.get_bind fun s₀ _ => ?_
      refine Run.Spec.ofExcept_bind (fun repairs hrepairs => ?_) (fun _ _ _ _ => trivial)
      split
      · exact Run.Spec.pure fun _ _ => trivial
      · refine Run.Spec.bind (Q := fun _ _ => True) ?_
          (fun _ => ih.mono (fun _ _ => trivial) (fun _ _ h => h)) (fun _ _ _ => trivial)
        refine (Run.Spec.forEach (P := fun s => Grows s₀ s) (E := fun _ _ => True) _
          (fun s s' hsteps h => h.trans hsteps.grows) ?_).mono ?_ (fun _ _ _ => trivial)
        · intro repair hmem
          obtain ⟨node, hnode, hparent, hpeer⟩ := collectRepairs_mem hrepairs hmem
          refine (installPeer_steps hparent hpeer).mono ?_ (fun _ _ _ _ _ => trivial)
          exact fun s hgrows => hgrows.nodes (Map.mem_toList.mp hnode)
        · rintro s rfl
          exact Grows.refl s

/-- Placing a graph is a sequence of steps, and its root targets are bound. -/
theorem placeGraph_steps (manifest : PackageManifest) (mode : PeerMode) (fuel : Nat) :
    Run.Spec (Steps env (RootRequests env manifest)) (fun _ => True)
      (placeGraph env manifest mode fuel)
      (fun r s => ∀ targets, r = .ok targets → RootsBound targets s) := by
  unfold placeGraph
  refine Run.Spec.bind (Run.Spec.mono (Run.Spec.foldM (E := fun _ _ => True)
    (I := fun targets s => RootsBound targets s) _ ?_ ∅) ?_ (fun _ _ h => h.1))
    (fun targets => ?_) (fun _ _ _ _ ht => nomatch ht)
  · intro targets edge hedge
    obtain ⟨declared, hdeclared, rfl⟩ := List.mem_map.mp hedge
    exact resolveRoot_steps rfl (Or.inl ⟨declared, hdeclared, rfl⟩)
  · intro s _ name target h
    simp at h
  · refine Run.Spec.bind (Run.Spec.mono (Run.Spec.foldM (E := fun _ _ => True)
      (I := fun targets s => RootsBound targets s) _ ?_ targets) (fun s hs => hs.2 _ rfl)
      (fun _ _ h => h.1)) (fun targets => ?_) (fun _ _ _ _ ht => nomatch ht)
    · intro targets link hlink
      cases hworkspace : env.workspace with
      | none => simp [hworkspace] at hlink
      | some workspace =>
          rw [hworkspace] at hlink
          exact resolveMember_steps (Or.inr ⟨workspace, hworkspace, link, hlink, rfl⟩)
    · refine Run.Spec.bind ((peerRounds_steps 16).mono (fun _ _ => trivial) (fun _ _ h => h))
        (fun _ => Run.Spec.pure ?_) (fun _ _ _ _ ht => nomatch ht)
      rintro s ⟨⟨s₁, ⟨_, hbound⟩, hsteps⟩, _⟩ targets' ht
      cases ht
      exact fun name target h => (hbound _ rfl name target h).mono hsteps.grows

theorem bindContext_binds (path : Str) :
    Run.Spec (Binds env mode) (fun _ => True) (bindContext env mode path) (fun _ _ => True) := by
  unfold bindContext
  refine Run.Spec.get_bind fun s₀ _ => ?_
  cases hnode : s₀.nodes[path]? with
  | none => exact Run.Spec.pure fun _ _ => trivial
  | some node =>
      refine Run.Spec.ofExcept_bind (fun context hbind => ?_) (fun _ _ _ _ => trivial)
      refine Run.Spec.modify ?_ (fun _ _ => trivial)
      rintro s rfl
      exact .single (.bind s path node context hnode hbind)

theorem bindContexts_binds :
    Run.Spec (Binds env mode) (fun _ => True) (bindContexts env mode) (fun _ _ => True) := by
  unfold bindContexts
  refine Run.Spec.get_bind fun s₀ _ => ?_
  refine (Run.Spec.forEach (P := fun _ => True) (E := fun _ _ => True) _ (fun _ _ _ h => h)
    fun path _ => ?_).mono (fun _ _ => trivial) (fun _ _ _ => trivial)
  exact (bindContext_binds path).mono (fun _ h => h) (fun _ _ _ _ _ => trivial)

/-- A resolution with accepted overrides places, then binds; a lockfile it returns
is assembled from the nodes it ends with. -/
theorem resolveManifest_run {inputs : Inputs} {manifest : PackageManifest}
    {overrides : OverrideSet}
    (hoverrides : OverrideSet.fromManifest inputs.crates manifest.overrides
      manifest.rootDependencyDeclarations .root = .ok overrides) (fuel : Nat) :
    let env := inputs.env manifest overrides
    let placed := (placeGraph env manifest inputs.peerMode fuel .init).2
    let out := resolveManifest inputs manifest fuel .init
    Steps env (RootRequests env manifest) .init placed ∧ Binds env inputs.peerMode placed out.2 ∧
      ∀ lock, out.1 = .ok lock → lock = assemble inputs manifest overrides out.2.nodes ∧
        (∃ targets, (placeGraph env manifest inputs.peerMode fuel .init).1 = .ok targets) ∧
        bindContexts env inputs.peerMode placed = (.ok (), out.2) := by
  intro env placed out
  refine ⟨(placeGraph_steps manifest inputs.peerMode fuel .init trivial).1, ?_⟩
  have hout : out = (do
      let _ ← placeGraph env manifest inputs.peerMode fuel
      bindContexts env inputs.peerMode
      let s ← Run.get
      return assemble inputs manifest overrides s.nodes : Resolve Lockfile) .init := by
    change resolveManifest inputs manifest fuel .init = _
    unfold resolveManifest
    rw [hoverrides]
    rfl
  cases hp : placeGraph env manifest inputs.peerMode fuel .init with
  | mk r s₁ =>
      have hs₁ : placed = s₁ := congrArg Prod.snd hp
      cases r with
      | error e =>
          rw [hout, Run.bind_error hp, hs₁]
          exact ⟨.refl, fun lock h => nomatch h⟩
      | ok targets =>
          have hbinds : Binds env inputs.peerMode s₁ (bindContexts env inputs.peerMode s₁).2 :=
            (bindContexts_binds s₁ trivial).1
          rw [hout, Run.bind_ok hp, hs₁]
          cases hb : bindContexts env inputs.peerMode s₁ with
          | mk r' s₂ =>
              rw [hb] at hbinds
              cases r' with
              | error e =>
                  rw [Run.bind_error hb]
                  exact ⟨hbinds, fun lock h => nomatch h⟩
              | ok _ =>
                  rw [Run.bind_ok hb]
                  refine ⟨hbinds, fun lock h => ?_⟩
                  cases h
                  exact ⟨rfl, ⟨targets, rfl⟩, rfl⟩

/-- The end of a resolution is a reachable state. -/
theorem resolveManifest_reachable {inputs : Inputs} {manifest : PackageManifest}
    {overrides : OverrideSet}
    (hoverrides : OverrideSet.fromManifest inputs.crates manifest.overrides
      manifest.rootDependencyDeclarations .root = .ok overrides) (fuel : Nat) :
    Reachable (inputs.env manifest overrides)
      (RootRequests (inputs.env manifest overrides) manifest)
      (resolveManifest inputs manifest fuel .init).2 :=
  ⟨_, _, (resolveManifest_run hoverrides fuel).1, (resolveManifest_run hoverrides fuel).2.1⟩

end Bpm
