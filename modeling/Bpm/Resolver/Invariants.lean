import Bpm.Resolver.Steps

/-!
# Invariants of placement

What holds of every placed package in every state of the placement: it lies at
its own path, it was placed by an event of the log, its recorded targets were
bound for it, and its peers are not bound yet.
-/

namespace Bpm

open Text Relation

variable {env : Env} {roots : Edge → Prop}

/-- The facts about placed packages that every placement step keeps. -/
structure GraphInv (s : GraphResolver) : Prop where
  path_eq : ∀ {path : Str} {node : Node}, s.nodes[path]? = some node → node.path = path
  placed : ∀ {path : Str} {node : Node}, s.nodes[path]? = some node →
    ∃ ev ∈ s.log, ev.fresh = true ∧ ev.target = path
  bound : ∀ {path name target : Str} {node : Node}, s.nodes[path]? = some node →
    node.targets[name]? = some target → Bound s (.package path) name target
  unbound_peers : ∀ {path : Str} {node : Node}, s.nodes[path]? = some node →
    node.peerContext = ∅

/-- What a placed package starts with. -/
theorem Places.fresh {nodes : Map Node} {edge : Edge} {node : Node}
    (h : Places env nodes edge node) :
    node.targets = ∅ ∧ node.peerContext = ∅ ∧ node.optional = edge.optional ∧
      node.dev = edge.dev ∧ node.placementName = edge.name ∧
      node.dependencies = mergedDependencies node.metadata ∧
      (node.path = childPath edge.parent edge.name ∨
        node.path = childPath [] edge.name ∧ node.link = true) := by
  cases h with
  | link link hlink => exact ⟨rfl, rfl, rfl, rfl, rfl, rfl, Or.inr ⟨rfl, rfl⟩⟩
  | source source resolved hlink hsource hresolved =>
      exact ⟨rfl, rfl, rfl, rfl, rfl, rfl, Or.inl rfl⟩
  | registry artifact hlink hsource hfind hselect =>
      exact ⟨rfl, rfl, rfl, rfl, rfl, rfl, Or.inl rfl⟩

/-- A change of one node that keeps its placement, its targets and its context. -/
theorem GraphInv.modify {s s' : GraphResolver} (h : GraphInv s) (hgrows : Grows s s')
    {path : Str} {f : Node → Node} (hnodes : s'.nodes = s.nodes.modify path f)
    (hpath : ∀ node, (f node).path = node.path)
    (hcontext : ∀ node, (f node).peerContext = node.peerContext)
    (htargets : ∀ {node name target}, s.nodes[path]? = some node →
      (f node).targets[name]? = some target →
      node.targets[name]? = some target ∨ Bound s' (.package path) name target) :
    GraphInv s' := by
  have hget : ∀ {p : Str} {node' : Node}, s'.nodes[p]? = some node' →
      ∃ node, s.nodes[p]? = some node ∧ (node' = node ∨ p = path ∧ node' = f node) := by
    intro p node' hnode'
    rw [hnodes, Map.get_modify] at hnode'
    split at hnode'
    · rename_i heq
      obtain ⟨node, hnode, hf⟩ := Option.map_eq_some_iff.mp hnode'
      exact ⟨node, hnode, Or.inr ⟨heq.symm, hf.symm⟩⟩
    · exact ⟨node', hnode', Or.inl rfl⟩
  constructor
  · intro p node' hnode'
    obtain ⟨node, hnode, rfl | ⟨rfl, rfl⟩⟩ := hget hnode'
    · exact h.path_eq hnode
    · rw [hpath]
      exact h.path_eq hnode
  · intro p node' hnode'
    obtain ⟨node, hnode, _⟩ := hget hnode'
    obtain ⟨ev, hev, hrest⟩ := h.placed hnode
    exact ⟨ev, hgrows.mem_log hev, hrest⟩
  · intro p name target node' hnode' htarget
    obtain ⟨node, hnode, rfl | ⟨rfl, rfl⟩⟩ := hget hnode'
    · exact (h.bound hnode htarget).mono hgrows
    · rcases htargets hnode htarget with hold | hnew
      · exact (h.bound hnode hold).mono hgrows
      · exact hnew
  · intro p node' hnode'
    obtain ⟨node, hnode, rfl | ⟨rfl, rfl⟩⟩ := hget hnode'
    · exact h.unbound_peers hnode
    · rw [hcontext]
      exact h.unbound_peers hnode

theorem Step.graphInv {s s' : GraphResolver} (hstep : Step env roots s s')
    (h : GraphInv s) : GraphInv s' := by
  have hgrows := hstep.grows
  cases hstep with
  | diagnose message => exact ⟨h.path_eq, h.placed, h.bound, h.unbound_peers⟩
  | reuse edge path hasked hin hwhy =>
      exact h.modify hgrows rfl (fun _ => rfl) (fun _ => rfl) fun _ ht => Or.inl ht
  | record owner name target hbound =>
      refine h.modify hgrows rfl (fun _ => rfl) (fun _ => rfl) fun {node n t} _ ht => ?_
      change (node.targets.insert name target)[n]? = some t at ht
      rw [Map.get_insert] at ht
      split at ht
      · rename_i hname
        cases ht
        rw [← hname]
        exact Or.inr (hbound.mono hgrows)
      · exact Or.inl ht
  | place edge node hasked hfree hwhy =>
      obtain ⟨htargets, hcontext, -⟩ := hwhy.fresh
      have hget : ∀ {p : Str} {n : Node},
          ((s.place edge node).announce env.sink node.path).nodes[p]? = some n →
          (p = node.path ∧ n = node) ∨ s.nodes[p]? = some n := by
        intro p n hn
        rw [announce_nodes] at hn
        change (s.nodes.insert node.path node)[p]? = some n at hn
        rw [Map.get_insert] at hn
        split at hn
        · rename_i heq
          exact Or.inl ⟨heq.symm, (Option.some.inj hn).symm⟩
        · exact Or.inr hn
      constructor
      · intro p n hn
        rcases hget hn with ⟨rfl, rfl⟩ | hold
        · rfl
        · exact h.path_eq hold
      · intro p n hn
        rcases hget hn with ⟨rfl, rfl⟩ | hold
        · rw [announce_log]
          exact ⟨_, List.mem_cons_self, rfl, rfl⟩
        · obtain ⟨ev, hev, hrest⟩ := h.placed hold
          exact ⟨ev, hgrows.mem_log hev, hrest⟩
      · intro p name target n hn ht
        rcases hget hn with ⟨rfl, rfl⟩ | hold
        · simp [htargets] at ht
        · exact (h.bound hold ht).mono hgrows
      · intro p n hn
        rcases hget hn with ⟨rfl, rfl⟩ | hold
        · exact hcontext
        · exact h.unbound_peers hold

/-- Every placement state satisfies the invariant. -/
theorem Steps.graphInv {s : GraphResolver} (h : Steps env roots .init s) : GraphInv s := by
  induction h with
  | refl =>
      refine ⟨fun h => ?_, fun h => ?_, fun h => ?_, fun h => ?_⟩ <;> simp [GraphResolver.init] at h
  | tail _ hstep ih => exact hstep.graphInv ih

end Bpm
