import Bpm.Resolver.Assembly
import Bpm.Resolver.Project

/-!
# What Node.js finds

A recorded target is what the package loads only if no slot of the same name is
nearer.  Three branches of the resolver give that away: `find_visible` skips
nearer packages that do not satisfy the request, a later placement may land
between a package and the target it was bound to, and peers are bound to what the
parent of a package sees, under the provider's registry name.  In every run where
none of this happens the recorded targets are what Node.js finds.
-/

namespace Bpm

open Text Relation

variable {env : Env} {roots : Edge → Prop} {mode : PeerMode}

/-- The slots that a package at `owner` looks at before `target`. -/
def nearerSlots (owner name target : Str) : List Str :=
  (lookupPaths owner name).takeWhile fun path => !(path == target)

/-- The slot that Node.js finds for `name` from a package of the lockfile. -/
def Lockfile.nodeLookup (lock : Lockfile) (owner name : Str) : Option Str :=
  (lookupPaths owner name).find? fun path => lock.packages.any (·.path == path)

/-- Every recorded target of every package is what Node.js finds. -/
def Lockfile.LookupsAgree (lock : Lockfile) : Prop :=
  ∀ (path : Str) (resolution : PackageResolution),
    lock.resolution.packages[path]? = some resolution →
    ∀ (name : Str) (dep : LockDependency),
      resolution.dependencies[name]? = some dep ∨
        resolution.optionalDependencies[name]? = some dep ∨
        resolution.peerDependencies[name]? = some dep →
      lock.nodeLookup path name = some dep.target

/-- A request of a package skips no nearer package of that name: what is reused is
what the package finds, and what is placed at the root on its behalf finds no
package of that name in the way. -/
def Event.SkipsNone (ev : Event) : Prop :=
  match ev.edge.owner with
  | .package owner =>
      (ev.fresh = false → findVisibleAny ev.before owner ev.edge.name = some ev.target) ∧
        (ev.fresh = true → ev.target ≠ childPath owner ev.edge.name →
          findVisibleAny ev.before owner ev.edge.name = none)
  | .root | .peer _ => True

instance (ev : Event) : Decidable ev.SkipsNone := by
  unfold Event.SkipsNone
  split <;> infer_instance

/-- A placement lands between a package and the target it was bound to before. -/
def Event.LandsBefore (newer older : Event) : Prop :=
  match older.edge.owner with
  | .package owner =>
      newer.fresh = true ∧ newer.target ∈ nearerSlots owner older.edge.name older.target
  | .root | .peer _ => False

instance (newer older : Event) : Decidable (newer.LandsBefore older) := by
  unfold Event.LandsBefore
  split <;> infer_instance

/-- No request skips a nearer package, and no placement lands before a target
that was bound earlier. -/
structure NoShadowing (log : List Event) : Prop where
  skips : ∀ ev ∈ log, ev.SkipsNone
  later : log.Pairwise fun newer older => ¬ newer.LandsBefore older

/-- A package of the given registry name lies in a directory that `parent` looks
into, under whatever name it was placed. -/
def SeesProvider (nodes : Map Node) (parent name : Str) : Prop :=
  ∃ dir ∈ lookupDirs parent, ∃ (path : Str) (node : Node), nodes[path]? = some node ∧
    node.path = childPath dir node.placementName ∧ node.metadata.name = name

/-- Every peer that binding looks for has a slot under its own name above its
consumer, and none in the consumer's own directory. -/
def PeersInReach (mode : PeerMode) (nodes : Map Node) : Prop :=
  mode = .strict → ∀ (path : Str) (node : Node), nodes[path]? = some node →
    ∀ name, node.metadata.peerDependencies.contains name = true →
      SeesProvider nodes (parentPath path) name →
      nodes.contains (childPath path name) = false ∧
        (findVisibleAny nodes (parentPath path) name).isSome = true

/-- A search that reaches `target` finds it when nothing before it is accepted. -/
theorem find_eq_of_takeWhile {α : Type} [BEq α] [LawfulBEq α] {p : α → Bool} {l : List α}
    {target : α} (hmem : target ∈ l) (htarget : p target = true)
    (hbefore : ∀ x ∈ l.takeWhile (fun x => !(x == target)), p x = false) :
    l.find? p = some target := by
  induction l with
  | nil => cases hmem
  | cons x l ih =>
      by_cases hx : x = target
      · rw [hx, List.find?_cons_of_pos htarget]
      · have hne : (x == target) = false := beq_false_of_ne hx
        simp only [List.takeWhile_cons, hne, Bool.not_false, if_true] at hbefore
        have hpx : ¬ p x = true := by simp [hbefore x List.mem_cons_self]
        rw [List.find?_cons_of_neg hpx]
        refine ih ?_ fun y hy => hbefore y (List.mem_cons_of_mem x hy)
        exact (List.mem_cons.mp hmem).resolve_left (Ne.symm hx)

/-- Nothing before the result of a search is accepted. -/
theorem takeWhile_of_find {α : Type} [BEq α] [LawfulBEq α] {p : α → Bool} {l : List α}
    {target : α} (h : l.find? p = some target) :
    ∀ x ∈ l.takeWhile (fun x => !(x == target)), p x = false := by
  induction l with
  | nil => cases h
  | cons y l ih =>
      by_cases hy : p y = true
      · rw [List.find?_cons_of_pos hy] at h
        cases h
        intro x hx
        simp at hx
      · rw [List.find?_cons_of_neg hy] at h
        intro x hx
        by_cases heq : y = target
        · simp [heq] at hx
        · have hne : (y == target) = false := beq_false_of_ne heq
          simp only [List.takeWhile_cons, hne, Bool.not_false, if_true] at hx
          rcases List.mem_cons.mp hx with rfl | hx
          · simpa using hy
          · exact ih h x hx

theorem nearerSlots_subset {owner name target path : Str}
    (h : path ∈ nearerSlots owner name target) : path ∈ lookupPaths owner name :=
  (List.takeWhile_prefix _).subset h

/-- The package's own slot is its nearest one. -/
theorem nearerSlots_childPath (owner name : Str) :
    nearerSlots owner name (childPath owner name) = [] := by
  obtain ⟨rest, hrest⟩ := lookupPaths_head owner name
  simp [nearerSlots, hrest]

/-- The root slot is the last one that is looked at. -/
theorem rootSlot_mem_lookupPaths (owner name : Str) :
    childPath [] name ∈ lookupPaths owner name := by
  simp [lookupPaths, lookupDirs]

theorem nearerSlots_ne {owner name target path : Str}
    (h : path ∈ nearerSlots owner name target) : path ≠ target := by
  have hpath := List.mem_takeWhile_imp h
  simpa using hpath

/-! ## Dependencies -/

/-- No slot nearer than a bound target is occupied. -/
def Unshadowed (s : GraphResolver) : Prop :=
  ∀ ev ∈ s.log, ∀ owner, ev.edge.owner = .package owner →
    ∀ path ∈ nearerSlots owner ev.edge.name ev.target, s.nodes.contains path = false

/-- A step keeps every bound target in sight when its event shadows nothing. -/
theorem Step.unshadowed {s s' : GraphResolver} (hstep : Step env roots s s')
    (h : Unshadowed s) (hlog : NoShadowing s'.log) : Unshadowed s' := by
  cases hstep with
  | diagnose message => exact h
  | record owner name target hbound =>
      intro ev hev o ho path hpath
      change (s.nodes.modify owner _).contains path = false
      rw [Map.contains_modify]
      exact h ev hev o ho path hpath
  | reuse edge target hasked hin hwhy =>
      intro ev hev o ho path hpath
      change (s.nodes.modify target _).contains path = false
      rw [Map.contains_modify]
      rcases List.mem_cons.mp hev with rfl | hold
      · have hskips := hlog.skips _ List.mem_cons_self
        unfold Event.SkipsNone at hskips
        rw [ho] at hskips
        exact takeWhile_of_find (hskips.1 rfl) path hpath
      · exact h ev hold o ho path hpath
  | place edge node hasked hfree hwhy =>
      rw [announce_log] at hlog
      intro ev hev o ho path hpath
      rw [announce_log] at hev
      rw [announce_nodes]
      change (s.nodes.insert node.path node).contains path = false
      rw [Map.contains_insert, Bool.or_eq_false_iff, decide_eq_false_iff_not]
      rcases List.mem_cons.mp hev with rfl | hold
      · refine ⟨Ne.symm (nearerSlots_ne hpath), ?_⟩
        by_cases hslot : node.path = childPath o edge.name
        · change path ∈ nearerSlots o edge.name node.path at hpath
          rw [hslot, nearerSlots_childPath] at hpath
          cases hpath
        · have hskips := hlog.skips _ List.mem_cons_self
          unfold Event.SkipsNone at hskips
          rw [ho] at hskips
          have hall := List.find?_eq_none.mp (hskips.2 rfl hslot) path
            (nearerSlots_subset hpath)
          exact Bool.eq_false_iff.mpr hall
      · refine ⟨fun heq => ?_, h ev hold o ho path hpath⟩
        -- The placement would land before a target that was bound earlier.
        refine List.rel_of_pairwise_cons hlog.later hold ?_
        unfold Event.LandsBefore
        rw [ho]
        refine ⟨rfl, ?_⟩
        change node.path ∈ nearerSlots o ev.edge.name ev.target
        rw [heq]
        exact hpath

theorem Steps.unshadowed {s : GraphResolver} (h : Steps env roots .init s)
    (hlog : NoShadowing s.log) : Unshadowed s := by
  induction h with
  | refl => intro ev hev; cases hev
  | @tail s s' _ hstep ih =>
      obtain ⟨new, hnew⟩ := hstep.grows.log
      have hold : NoShadowing s.log := by
        rw [hnew] at hlog
        exact ⟨fun ev hev => hlog.skips ev (List.mem_append_right new hev),
          (List.pairwise_append.mp hlog.later).2.1⟩
      exact hstep.unshadowed (ih hold) hlog

/-- What a request of a package is bound to lies on the package's lookup path. -/
theorem Steps.target_mem_lookupPaths {s : GraphResolver} (h : Steps env roots .init s)
    {ev : Event} (hev : ev ∈ s.log) {owner : Str} (howner : ev.edge.owner = .package owner) :
    ev.target ∈ lookupPaths owner ev.edge.name := by
  obtain ⟨node, s₀, _, hbecause, _, hasked, _⟩ := h.event hev
  unfold Asked at hasked
  rw [howner] at hasked
  obtain ⟨_, _, _, hparent, _⟩ := hasked
  have hdirs : ∀ path ∈ lookupPaths ev.edge.parent ev.edge.name,
      path ∈ lookupPaths owner ev.edge.name := by
    intro path hpath
    rcases hparent with heq | ⟨heq, _⟩
    · rw [heq] at hpath
      exact hpath
    · have hroot : path = childPath [] ev.edge.name := by
        simpa [heq, lookupPaths, lookupDirs] using hpath
      rw [hroot]
      exact rootSlot_mem_lookupPaths owner ev.edge.name
  have hslot : childPath ev.edge.parent ev.edge.name ∈
      lookupPaths ev.edge.parent ev.edge.name := by
    obtain ⟨rest, hrest⟩ := lookupPaths_head ev.edge.parent ev.edge.name
    rw [hrest]
    exact List.mem_cons_self
  cases hbecause with
  | reuse _ _ hwhy =>
      generalize htarget : ev.target = target at hwhy ⊢
      cases hwhy with
      | link => exact rootSlot_mem_lookupPaths owner ev.edge.name
      | source => exact hdirs _ hslot
      | visible path _ _ hfind => exact hdirs _ (findVisible_some hfind).1
  | place _ hpath _ hwhy =>
      rw [← hpath]
      obtain ⟨_, _, _, _, _, _, hwhere⟩ := hwhy.fresh
      rcases hwhere with heq | ⟨heq, _⟩
      · rw [heq]
        exact hdirs _ hslot
      · rw [heq]
        exact rootSlot_mem_lookupPaths owner ev.edge.name

/-! ## Peers -/

theorem findVisibleAny_congr {nodes nodes' : Map Node}
    (h : ∀ path, nodes'.contains path = nodes.contains path) (parent name : Str) :
    findVisibleAny nodes' parent name = findVisibleAny nodes parent name := by
  unfold findVisibleAny
  rw [show (fun path => nodes'.contains path) = fun path => nodes.contains path from funext h]

theorem Binds.seesProvider {s s' : GraphResolver} (hbinds : Binds env mode s s')
    {parent name : Str} (h : SeesProvider s'.nodes parent name) :
    SeesProvider s.nodes parent name := by
  obtain ⟨dir, hdir, path, node, hnode, hslot, hname⟩ := h
  obtain ⟨old, hold, heq⟩ := hbinds.node_back hnode
  rw [heq] at hslot hname
  exact ⟨dir, hdir, path, old, hold, hslot, hname⟩

/-- What a package's peer context records, in terms of the placed packages. -/
def ContextFrom (mode : PeerMode) (placed : Map Node) (path : Str) (node : Node) : Prop :=
  ∀ name provider, node.peerContext[name]? = some provider →
    mode = .strict ∧ node.metadata.peerDependencies.contains name = true ∧
      SeesProvider placed (parentPath path) name ∧
      provider.path = (findVisibleAny placed (parentPath path) name).getD []

/-- The context that binding computes for a package. -/
theorem bindNode_context {s : GraphResolver} {path : Str} {node : Node}
    {context : Map ProviderIdentity} (hbind : bindNode env mode s.nodes path node = .ok context)
    {name : Str} {identity : ProviderIdentity} (h : context[name]? = some identity) :
    mode = .strict ∧ node.metadata.peerDependencies.contains name = true ∧
      SeesProvider s.nodes (parentPath path) name ∧ identity.name = name := by
  unfold bindNode bindPeerContext at hbind
  cases mode with
  | legacyIgnore =>
      cases hbind
      simp at h
  | strict =>
      rcases bindPeers_some hbind h with hempty | ⟨range, hin, provider, hprovider, rfl⟩
      · simp at hempty
      · obtain ⟨dir, hdir, p, n, hn, hslot, hname, rfl⟩ := visibleProviders_some hprovider
        refine ⟨rfl, ?_, ⟨dir, hdir, p, n, hn, hslot, hname⟩, hname⟩
        rw [Map.contains_eq_isSome, Map.mem_toList.mp hin]
        rfl

theorem Binds.contextFrom {placed s : GraphResolver} (hbinds : Binds env mode placed s)
    (h : ∀ {path : Str} {node : Node}, placed.nodes[path]? = some node → node.peerContext = ∅)
    {path : Str} {node : Node} (hnode : s.nodes[path]? = some node) :
    ContextFrom mode placed.nodes path node := by
  induction hbinds generalizing path node with
  | refl =>
      intro name provider hprovider
      simp [h hnode] at hprovider
  | @tail s s' hbefore hstep ih =>
      cases hstep with
      | bind target bound context hbound hbind =>
          change (s.nodes.modify target _)[path]? = some node at hnode
          rw [Map.get_modify] at hnode
          split at hnode
          · rename_i heq
            subst heq
            rw [hbound] at hnode
            cases hnode
            intro name provider hprovider
            rw [Std.ExtTreeMap.getElem?_map] at hprovider
            obtain ⟨identity, hidentity, rfl⟩ := Option.map_eq_some_iff.mp hprovider
            obtain ⟨hmode, hdeclared, hsees, hname⟩ := bindNode_context hbind hidentity
            refine ⟨hmode, hdeclared, Binds.seesProvider hbefore hsees, ?_⟩
            change (findVisibleAny s.nodes _ identity.name).getD [] = _
            rw [hname, findVisibleAny_congr (Binds.contains hbefore)]
          · exact ih hnode

/-- From a package, the lookup starts in its own directory and goes on as its
parent's does. -/
theorem lookupPaths_of_ne_nil {path : Str} (h : path ≠ []) (name : Str) :
    lookupPaths path name = childPath path name :: lookupPaths (parentPath path) name := by
  simp [lookupPaths, lookupDirs, enclosing_of_ne_nil h]

theorem childPath_ne_nil (parent name : Str) : childPath parent name ≠ [] := by
  unfold childPath
  split <;> simp [rootDir, nestSep]

/-- Every package lies at a nonempty path. -/
theorem Steps.path_ne_nil {s : GraphResolver} (h : Steps env roots .init s) {path : Str}
    {node : Node} (hnode : s.nodes[path]? = some node) : path ≠ [] := by
  obtain ⟨ev, hev, hfresh, rfl⟩ := h.graphInv.placed hnode
  obtain ⟨node, _, _, hbecause, _⟩ := h.event hev
  cases hbecause with
  | reuse hold _ _ => rw [hfresh] at hold; cases hold
  | place _ hpath _ hwhy =>
      rw [← hpath]
      obtain ⟨_, _, _, _, _, _, heq | ⟨heq, _⟩⟩ := hwhy.fresh
      · rw [heq]
        exact childPath_ne_nil _ _
      · rw [heq]
        exact childPath_ne_nil _ _

/-! ## The lockfile -/

/-- In every run where no request skips a nearer package, no placement lands
before an earlier target and the peers are in reach, the recorded targets of the
lockfile are what Node.js finds. -/
theorem resolve_lookupsAgree {inputs : Inputs} {manifest : PackageManifest}
    {overrides : OverrideSet} {fuel : Nat} {lock : Lockfile}
    (hoverrides : OverrideSet.fromManifest inputs.crates manifest.overrides
      manifest.rootDependencyDeclarations .root = .ok overrides)
    (hlock : (resolveManifest inputs manifest fuel .init).1 = .ok lock)
    (hlog : NoShadowing
      (placeGraph (inputs.env manifest overrides) manifest inputs.peerMode fuel .init).2.log)
    (hpeers : PeersInReach inputs.peerMode
      (placeGraph (inputs.env manifest overrides) manifest inputs.peerMode fuel .init).2.nodes) :
    lock.LookupsAgree := by
  obtain ⟨hplaced, hbinds, hout⟩ := resolveManifest_run hoverrides fuel
  obtain ⟨rfl, -⟩ := hout lock hlock
  generalize (placeGraph (inputs.env manifest overrides) manifest inputs.peerMode fuel
    .init).2 = placed at *
  generalize (resolveManifest inputs manifest fuel .init).2 = s at *
  have hpaths : PathsOwn s.nodes := hbinds.pathsOwn hplaced.graphInv.path_eq
  intro path resolution hresolution name dep hdep
  rw [assemble_resolution inputs manifest overrides hpaths] at hresolution
  obtain ⟨node, hnode, rfl⟩ := Option.map_eq_some_iff.mp hresolution
  obtain ⟨old, hold, hsame⟩ := hbinds.node_back hnode
  have hlookup : (assemble inputs manifest overrides s.nodes).nodeLookup path name =
      findVisibleAny placed.nodes path name := by
    unfold Lockfile.nodeLookup findVisibleAny
    congr 1
    funext slot
    rw [assemble_listed inputs manifest overrides hpaths, hbinds.contains]
  rw [hlookup]
  have hbound : node.targets[name]? = some dep.target →
      findVisibleAny placed.nodes path name = some dep.target := by
    intro htarget
    rw [hsame] at htarget
    obtain ⟨ev, hev, howner, rfl, hat⟩ := hplaced.graphInv.bound hold htarget
    rw [← hat]
    obtain ⟨_, _, _, _, _, _, _, _, hthere, _⟩ := hplaced.event hev
    refine find_eq_of_takeWhile (hplaced.target_mem_lookupPaths hev howner) ?_
      (hplaced.unshadowed hlog ev hev path howner)
    rw [Map.contains_eq_isSome, hthere]
    rfl
  rcases hdep with hdep | hdep | hdep
  · exact hbound (boundTargets_some hdep)
  · exact hbound (boundTargets_some hdep)
  · change (node.metadata.peerDependencies.filterMap _)[name]? = some dep at hdep
    rw [Std.ExtTreeMap.getElem?_filterMap', Option.bind_eq_some_iff] at hdep
    obtain ⟨range, _, hdep⟩ := hdep
    obtain ⟨provider, hprovider, rfl⟩ := Option.map_eq_some_iff.mp hdep
    obtain ⟨hmode, hdeclared, hsees, hpath⟩ :=
      hbinds.contextFrom hplaced.graphInv.unbound_peers hnode name provider hprovider
    rw [hsame] at hdeclared
    obtain ⟨hfree, hvisible⟩ := hpeers hmode path old hold name hdeclared hsees
    obtain ⟨target, htarget⟩ := Option.isSome_iff_exists.mp hvisible
    have hown : findVisibleAny placed.nodes path name =
        findVisibleAny placed.nodes (parentPath path) name := by
      unfold findVisibleAny
      rw [lookupPaths_of_ne_nil (hplaced.path_ne_nil hold), List.find?_cons_of_neg]
      rw [hfree]
      exact Bool.false_ne_true
    change findVisibleAny placed.nodes path name = some provider.path
    rw [hown, hpath, htarget]
    rfl

/-- `p` with a dependency and a peer, and `q` that serves the peer. -/
def sharedPeer : List VersionMetadata :=
  [Release.published ['d'] (Release.version 1 0 0) [] [],
    Release.published ['p'] (Release.version 1 0 0) [(['d'], ['^', '1'])] [(['q'], ['^', '1'])],
    Release.published ['q'] (Release.version 1 0 0) [(['d'], ['^', '1'])] []]

def sharedPeerRoots : List (Str × Str) :=
  [(['d'], ['^', '1']), (['p'], ['*']), (['q'], ['*'])]

/-- The lookups of a project with two packages that use one dependency. -/
theorem resolve_lookupsAgree_sharedPeer :
    ∃ lock, (Project.run sharedPeer sharedPeerRoots [] 5).1 = .ok lock ∧
      lock.packages.length = 3 ∧ lock.LookupsAgree := by
  obtain ⟨lock, hlock, hlength⟩ := Project.run_ok
    (o := (Project.run sharedPeer sharedPeerRoots [] 5).1)
    (c := fun lock => lock.packages.length == 3) (by decide +kernel)
  refine ⟨lock, hlock, by simpa using hlength, ?_⟩
  refine resolve_lookupsAgree (Project.no_overrides _ _ _) hlock
    ⟨by decide, by decide⟩ ?_
  intro _ path node hnode name hname _
  have hall :
      let nodes := (placeGraph (Project.env sharedPeer) (Project.manifest sharedPeerRoots [])
        .strict 5 .init).2.nodes
      ∀ entry ∈ nodes.toList, ∀ name ∈ entry.2.metadata.peerDependencies.keys,
        nodes.contains (childPath entry.1 name) = false ∧
          (findVisibleAny nodes (parentPath entry.1) name).isSome = true := by
    decide +kernel
  exact hall (path, node) (Map.mem_toList.mpr hnode) name
    (Std.ExtTreeMap.mem_keys.mpr (Std.ExtTreeMap.contains_iff_mem.mp hname))

/-- `q` below `p` asks for `d@^1` while `p` has its own `d@2.0.0`. -/
def skippedNeighbour : List VersionMetadata :=
  [Release.published ['d'] (Release.version 1 0 0) [] [],
    Release.published ['d'] (Release.version 2 0 0) [] [],
    Release.published ['p'] (Release.version 1 0 0) [(['d'], ['^', '2']), (['q'], ['*'])] [],
    Release.published ['q'] (Release.version 1 0 0) [(['d'], ['^', '1'])] []]

/-- The `d` recorded for `q` is the root's, and Node.js finds the `d` of `p`. -/
theorem resolve_lookupsDisagree :
    ¬ ∀ (inputs : Inputs) (manifest : PackageManifest) (fuel : Nat) (lock : Lockfile),
      (resolveManifest inputs manifest fuel .init).1 = .ok lock → lock.LookupsAgree := by
  intro hall
  obtain ⟨lock, hlock, hbad⟩ := Project.run_ok
    (o := (Project.run skippedNeighbour [(['d'], ['^', '1']), (['p'], ['*'])] [] 5).1)
    (c := fun lock =>
      (lock.resolution.packages[lit "node_modules/p/node_modules/q"]?).any fun resolution =>
        (resolution.dependencies[(['d'] : Str)]?).any fun dep =>
          lock.nodeLookup (lit "node_modules/p/node_modules/q") ['d'] != some dep.target)
    (by decide +kernel)
  simp only [Option.any_eq_true] at hbad
  obtain ⟨resolution, hresolution, dep, hdep, hne⟩ := hbad
  have hagree := hall (Project.inputs skippedNeighbour)
    (Project.manifest [(['d'], ['^', '1']), (['p'], ['*'])] []) 5 lock hlock _ resolution
    hresolution ['d'] dep (Or.inl hdep)
  simp [hagree] at hne

end Bpm
