import Bpm.Lib.Fuel
import Bpm.Resolver.Lookup
import Bpm.Resolver.Project

/-!
# Recursion over sources

A registry request looks for a visible package before it places one, but a source
request only looks at its own slot, which is new below every new package.  So sources
that depend on each other in a circle are placed below each other without end.  The
module says what a source request leads to, and when the recursion comes to an end.
-/

namespace Bpm

open Text Fuel

namespace SourceRecursion

/-- A request for a source: the directory it is read from, what it is called and asks for,
and whether only optional paths reach it. -/
structure Request where
  base : Str
  name : Str
  requested : Str
  optional : Bool
deriving DecidableEq

inductive Answer
  | refused
  | skipped
  | placed (resolved : SourceResolution)
deriving DecidableEq

/-- What a request comes to: the source cannot be resolved or used, or it is left out on
this platform, or it is placed. -/
def Request.answer (env : Env) (request : Request) : Answer :=
  match DependencySource.parse request.requested with
  | none => .refused
  | some source =>
      match source.resolve env.host request.base with
      | .error _ => .refused
      | .ok resolved =>
          match checkPackagePlatform
              (request.name ++ '@' :: env.crates.showVersion resolved.metadata.version)
              resolved.metadata.constraints env.target
              (if request.optional then .optionalOnly else .required) with
          | .ok .compatible => .placed resolved
          | .ok (.skipOptional _) => .skipped
          | .error _ => .refused

/-- The request of a placed source for one of its dependencies. -/
def Request.child (env : Env) (request : Request) (resolved : SourceResolution)
    (dep : Str × Str) : Request :=
  { base := resolved.sourceDir.getD (projectDir env)
    name := dep.1
    requested := dep.2
    optional := request.optional || resolved.metadata.optionalDependencies.contains dep.1 }

def Request.children (env : Env) (request : Request) (resolved : SourceResolution) :
    List Request :=
  (mergedDependencies resolved.metadata).toList.map (request.child env resolved)

/-- The request of the project for one of its dependencies. -/
def rootRequest (env : Env) (manifest : PackageManifest) (dep : Str × Str) : Request :=
  { base := projectDir env
    name := dep.1
    requested := dep.2
    optional := manifest.optionalDependencies.contains dep.1 }

def rootRequests (env : Env) (manifest : PackageManifest) : List Request :=
  manifest.rootDependencyDeclarations.toList.map (rootRequest env manifest)

/-- The root requests are all resolved, or one of them fails. -/
def Terminates (env : Env) (manifest : PackageManifest) : Prop :=
  ∃ fuel, (Run.foldM (resolveRoot env fuel) ∅
    (manifest.rootDependencyDeclarations.toList.map (rootEdge manifest)) .init).1 ≠
      .error .outOfFuel

/-- A file, tarball or Git specification. -/
def IsSource (spec : Str) : Prop :=
  ∃ source, DependencySource.parse spec = some source ∧ ∀ inner patch, source ≠ .patch inner patch

/-- The project and its sources ask for sources only. -/
structure SourcesOnly (env : Env) (manifest : PackageManifest) : Prop where
  workspace : env.workspace = none
  overrides : env.overrides.rules = []
  roots : ∀ dep ∈ manifest.rootDependencyDeclarations.toList, IsSource dep.2
  sources : ∀ source base resolved, env.host.resolveSource source base = .ok resolved →
    ∀ dep ∈ (mergedDependencies resolved.metadata).toList, IsSource dep.2

/-- There are finitely many sources. -/
def FinitelyMany (env : Env) : Prop :=
  {resolved | ∃ source base, env.host.resolveSource source base = .ok resolved}.Finite

/-- A name whose slot can be told from those of other packages. -/
def Plain (name : Str) : Prop := rsplitOnce nestSep (rootDir ++ name) = none

instance (name : Str) : Decidable (Plain name) := inferInstanceAs (Decidable (_ = _))

structure PlainNames (env : Env) (manifest : PackageManifest) : Prop where
  roots : ∀ dep ∈ manifest.rootDependencyDeclarations.toList, Plain dep.1
  sources : ∀ source base resolved, env.host.resolveSource source base = .ok resolved →
    ∀ dep ∈ (mergedDependencies resolved.metadata).toList, Plain dep.1

/-! ## What requests lead to -/

/-- A request ends in success (`true`) or in a failure (`false`): dependencies are resolved in
order, and the first failure is the last one that is looked at. -/
inductive Finishes (env : Env) : Request → Bool → Prop
  | refused {request : Request} (h : request.answer env = .refused) : Finishes env request false
  | skipped {request : Request} (h : request.answer env = .skipped) : Finishes env request true
  | placed {request : Request} {resolved : SourceResolution}
      (h : request.answer env = .placed resolved)
      (hall : ∀ child ∈ request.children env resolved, Finishes env child true) :
      Finishes env request true
  | broken {request child : Request} {resolved : SourceResolution} {before after : List Request}
      (h : request.answer env = .placed resolved)
      (hsplit : request.children env resolved = before ++ child :: after)
      (hbefore : ∀ sibling ∈ before, Finishes env sibling true)
      (hchild : Finishes env child false) : Finishes env request false

/-- A placed source declares the second request. -/
def Depends (env : Env) (request child : Request) : Prop :=
  ∃ resolved, request.answer env = .placed resolved ∧ child ∈ request.children env resolved

/-- The second request is come to: what the first one declares before it succeeds. -/
def Leads (env : Env) (request child : Request) : Prop :=
  ∃ resolved before after, request.answer env = .placed resolved ∧
    request.children env resolved = before ++ child :: after ∧
    ∀ sibling ∈ before, Finishes env sibling true

section Requests

variable {env : Env}

theorem Finishes.unique {request : Request} {b b' : Bool} (h : Finishes env request b)
    (h' : Finishes env request b') : b = b' := by
  induction h generalizing b' with
  | refused h =>
    cases h' with
    | refused => rfl
    | skipped h' | placed h' | broken h' => cases h.symm.trans h'
  | skipped h =>
    cases h' with
    | skipped => rfl
    | refused h' | placed h' | broken h' => cases h.symm.trans h'
  | placed h _ ih =>
    cases h' with
    | placed => rfl
    | refused h' | skipped h' => cases h.symm.trans h'
    | @broken _ child _ before after h' hsplit _ hchild =>
      cases h.symm.trans h'
      exact ih child (by simp [hsplit]) hchild
  | @broken _ child _ before after h hsplit _ _ _ ih =>
    cases h' with
    | broken => rfl
    | refused h' | skipped h' => cases h.symm.trans h'
    | placed h' hall =>
      cases h.symm.trans h'
      exact ih (hall child (by simp [hsplit]))

/-- Chains of requests that are come to are finite below a request that ends. -/
theorem Finishes.acc {request : Request} {b : Bool} (h : Finishes env request b) :
    Acc (fun child request => Leads env request child) request := by
  induction h with
  | refused h | skipped h =>
    constructor
    rintro child ⟨resolved, before, after, hplaced, _⟩
    cases h.symm.trans hplaced
  | placed h _ ih =>
    constructor
    rintro child ⟨resolved, before, after, hplaced, hsplit, _⟩
    cases h.symm.trans hplaced
    exact ih child (by simp [hsplit])
  | @broken request failing resolved before after h hsplit _ hfailing ihbefore ih =>
    constructor
    rintro child ⟨resolved', before', after', hplaced, hsplit', hbefore'⟩
    cases h.symm.trans hplaced
    -- the child lies before the failing one, is it, or would lie behind it
    rcases List.append_eq_append_iff.mp (hsplit'.symm.trans hsplit) with
      ⟨between, rfl, hrest⟩ | ⟨between, rfl, hrest⟩
    · cases between with
      | nil =>
        cases hrest
        exact ih
      | cons first between =>
        cases hrest
        exact ihbefore child (by simp)
    · cases between with
      | nil =>
        cases hrest
        exact ih
      | cons first between =>
        cases hrest
        cases hfailing.unique (hbefore' failing (by simp))

theorem finishes_of_acc {request : Request}
    (h : Acc (fun child request => Leads env request child) request) :
    ∃ b, Finishes env request b := by
  induction h with
  | intro request _ ih =>
    cases hanswer : request.answer env with
    | refused => exact ⟨false, .refused hanswer⟩
    | skipped => exact ⟨true, .skipped hanswer⟩
    | placed resolved =>
      rcases forall_or_first (fun child => Finishes env child true)
        (request.children env resolved) with hall | ⟨before, child, after, hsplit, hbefore, hchild⟩
      · exact ⟨true, .placed hanswer hall⟩
      · obtain ⟨b, hb⟩ := ih child ⟨resolved, before, after, hanswer, hsplit, hbefore⟩
        cases b with
        | true => exact absurd hb hchild
        | false => exact ⟨false, .broken hanswer hsplit hbefore hb⟩

end Requests

/-! ## Slots -/

theorem parentPath_childPath {name : Str} (h : Plain name) (parent : Str) :
    parentPath (childPath parent name) = parent := by
  have hnone : rsplitOnce nestSep (rootDir ++ name) = none := h
  cases parent with
  | nil =>
    show ((rsplitOnce nestSep (rootDir ++ name)).map Prod.fst).getD [] = []
    rw [hnone]
    rfl
  | cons c parent =>
    have hlast : rsplitOnce nestSep (nestSep ++ name) = some ([], name) := by
      have hcons : nestSep ++ name = '/' :: (rootDir ++ name) := rfl
      rw [hcons, rsplitOnce, hnone, ← hcons]
      simp
    show ((rsplitOnce nestSep (c :: parent ++ nestSep ++ name)).map Prod.fst).getD [] = _
    rw [List.append_assoc, rsplitOnce_append_left (c :: parent) hlast]
    simp

theorem childPath_inj {parent name name' : Str} (h : childPath parent name = childPath parent name') :
    name = name' := by
  unfold childPath at h
  split at h
  · exact List.append_cancel_left h
  · exact List.append_cancel_left h

theorem childPath_length (parent name : Str) : parent.length < (childPath parent name).length := by
  unfold childPath
  split
  · rename_i hempty
    rw [List.isEmpty_iff.mp hempty]
    simp [rootDir]
  · simp [nestSep]

theorem enclosing_childPath {name : Str} (h : Plain name) (parent : Str) :
    enclosing (childPath parent name) = childPath parent name :: enclosing parent := by
  rw [enclosing_of_ne_nil (childPath_ne_nil parent name), parentPath_childPath h]

/-- The packages around a path that is among those around another one. -/
theorem enclosing_suffix {slot path : Str} (h : slot ∈ enclosing path) :
    enclosing slot <:+ enclosing path := by
  induction hlength : path.length using Nat.strong_induction_on generalizing path with
  | _ n ih =>
    by_cases hpath : path = []
    · subst hpath
      cases h
    · rw [enclosing_of_ne_nil hpath] at h ⊢
      rcases List.mem_cons.mp h with rfl | hin
      · rw [enclosing_of_ne_nil hpath]
      · have hshorter := parentPath_length_lt hpath
        exact (ih _ (by omega) hin rfl).trans (List.suffix_cons path _)

theorem length_le_of_mem_enclosing {slot path : Str} (h : slot ∈ enclosing path) :
    slot.length ≤ path.length := by
  induction hlength : path.length using Nat.strong_induction_on generalizing path with
  | _ n ih =>
    by_cases hpath : path = []
    · subst hpath
      cases h
    · rw [enclosing_of_ne_nil hpath] at h
      rcases List.mem_cons.mp h with rfl | hin
      · omega
      · have hshorter := parentPath_length_lt hpath
        have hle := ih _ (by omega) hin rfl
        omega

/-- What lies below a child lies below its parent. -/
theorem mem_enclosing_of_child {parent name path : Str} (h : Plain name) (hparent : parent ≠ [])
    (hpath : childPath parent name ∈ enclosing path) : parent ∈ enclosing path := by
  apply (enclosing_suffix hpath).subset
  rw [enclosing_childPath h, enclosing_of_ne_nil hparent]
  simp

/-- Nothing lies below two children of different names. -/
theorem not_mem_enclosing_of_ne {parent name name' path : Str} (h : Plain name) (h' : Plain name')
    (hne : name ≠ name') (hpath : childPath parent name ∈ enclosing path) :
    childPath parent name' ∉ enclosing path := by
  intro hpath'
  have hnested : ∀ {first second : Str}, Plain second → first ≠ second →
      childPath parent first ∉ enclosing (childPath parent second) := by
    intro first second hplain hdiffer hmem
    rw [enclosing_childPath hplain] at hmem
    rcases List.mem_cons.mp hmem with heq | hin
    · exact hdiffer (childPath_inj heq)
    · have hle := length_le_of_mem_enclosing hin
      have hlt := childPath_length parent first
      omega
  have hself : ∀ first, childPath parent first ∈ enclosing (childPath parent first) := by
    intro first
    rw [enclosing_of_ne_nil (childPath_ne_nil parent first)]
    exact List.mem_cons_self
  rcases List.suffix_or_suffix_of_suffix (enclosing_suffix hpath) (enclosing_suffix hpath') with
    hsuffix | hsuffix
  · exact hnested h' hne (hsuffix.subset (hself name))
  · exact hnested h hne.symm (hsuffix.subset (hself name'))

/-! ## One request -/

/-- How packages change while a request is resolved: they stay what they are, and with plain
names what is new lies in the slot of the request or below it. -/
structure Below (plain : Prop) (slot : Str) (s s' : GraphResolver) : Prop where
  kept : ∀ {path : Str} {node : Node}, s.nodes[path]? = some node →
    ∃ node', s'.nodes[path]? = some node' ∧ node.SamePlacement node'
  added : plain → ∀ path, s'.nodes.contains path = true →
    s.nodes.contains path = true ∨ slot ∈ enclosing path

theorem Below.of_nodes_eq {plain : Prop} {slot : Str} {s s' : GraphResolver}
    (h : s'.nodes = s.nodes) : Below plain slot s s' := by
  constructor
  · intro path node hnode
    exact ⟨node, by rw [h, hnode], .refl node⟩
  · intro _ path hpath
    rw [h] at hpath
    exact .inl hpath

theorem Below.trans {plain : Prop} {slot : Str} {s s' s'' : GraphResolver}
    (h : Below plain slot s s') (h' : Below plain slot s' s'') : Below plain slot s s'' := by
  constructor
  · intro path node hnode
    obtain ⟨node', hnode', hsame⟩ := h.kept hnode
    obtain ⟨node'', hnode'', hsame'⟩ := h'.kept hnode'
    exact ⟨node'', hnode'', hsame.trans hsame'⟩
  · intro hplain path hpath
    rcases h'.added hplain path hpath with hold | hnew
    · exact h.added hplain path hold
    · exact .inr hnew

/-- Changing a package within its placement. -/
theorem Below.of_modify {plain : Prop} {slot path : Str} {s s' : GraphResolver} {f : Node → Node}
    (hnodes : s'.nodes = s.nodes.modify path f) (hf : ∀ node, Node.SamePlacement node (f node)) :
    Below plain slot s s' := by
  constructor
  · intro p node hnode
    rw [hnodes]
    exact modify_nodes hf hnode
  · intro _ p hp
    rw [hnodes, Map.contains_modify] at hp
    exact .inl hp

theorem Below.of_place {plain : Prop} {s : GraphResolver} {edge : Edge} {node : Node} (sink : Bool)
    (hfree : s.nodes.contains node.path = false) (hpath : node.path ≠ []) :
    Below plain node.path s ((s.place edge node).announce sink node.path) := by
  have hnodes : ((s.place edge node).announce sink node.path).nodes =
      s.nodes.insert node.path node := announce_nodes _ _ _
  constructor
  · intro path old hold
    have hne : node.path ≠ path := by
      rintro rfl
      rw [Map.get_eq_none_iff.mpr hfree] at hold
      cases hold
    exact ⟨old, by rw [hnodes, Map.get_insert_of_ne _ _ hne, hold], .refl old⟩
  · intro _ path hcontains
    rw [hnodes, Map.contains_insert, Bool.or_eq_true] at hcontains
    rcases hcontains with heq | hold
    · right
      have heq' : node.path = path := by simpa using heq
      rw [← heq', enclosing_of_ne_nil hpath]
      exact List.mem_cons_self
    · exact .inl hold

/-- A source request as it is made in a state; with plain names nothing lies in its slot or
below it. -/
structure Ready (env : Env) (plain : Prop) (s : GraphResolver) (edge : Edge) (request : Request) :
    Prop where
  base : baseDirFor env s.nodes edge.parent = request.base
  name : edge.name = request.name
  requested : edge.requested = request.requested
  optional : edge.optional = request.optional
  source : IsSource request.requested
  plainName : plain → Plain edge.name
  fresh : plain → ∀ p, s.nodes.contains p = true → childPath edge.parent edge.name ∉ enclosing p

/-- The outcomes of a source request in a state: its slot is taken, or its answer decides. -/
inductive Expands (env : Env) (recur : Edge → Resolve (Option Str)) (edge : Edge)
    (request : Request) (s : GraphResolver) : Except Halt (Option Str) × GraphResolver → Prop
  | taken (htaken : s.nodes.contains (childPath edge.parent edge.name) = true) :
      Expands env recur edge request s
        (.ok (some (childPath edge.parent edge.name)), s.reuse edge (childPath edge.parent edge.name))
  | refused (hanswer : request.answer env = .refused) (e : ResolveError) :
      Expands env recur edge request s (.error (.failed e), s)
  | skipped (hanswer : request.answer env = .skipped) (s' : GraphResolver)
      (hnodes : s'.nodes = s.nodes) : Expands env recur edge request s (.ok none, s')
  | placed (hfree : s.nodes.contains (childPath edge.parent edge.name) = false)
      (resolved : SourceResolution) (hanswer : request.answer env = .placed resolved) :
      Expands env recur edge request s
        ((resolveChildren recur (childPath edge.parent edge.name)
            (mergedDependencies resolved.metadata) edge.optional edge.dev >>=
          fun _ => return some (childPath edge.parent edge.name))
          ((s.place edge (sourceNode edge resolved)).announce env.sink
            (childPath edge.parent edge.name)))

section Resolution

variable {env : Env} {manifest : PackageManifest} {plain : Prop} {s : GraphResolver}
  {edge : Edge} {request : Request}

theorem resolveDependency_succ (hdomain : SourcesOnly env manifest) {source : DependencySource}
    (hsource : DependencySource.parse edge.requested = some source) (fuel : Nat)
    (s : GraphResolver) :
    resolveDependency env (fuel + 1) edge s =
      resolveSourceDependency env (resolveDependency env fuel) edge edge.requested source s := by
  have hspec : effectiveSpec env s.nodes edge = edge.requested := by
    simp [effectiveSpec, OverrideSet.effectiveSpecFor, hdomain.overrides, maxRule]
  have hlink : workspaceLink env edge.name edge.requested = .ok none := by
    simp [workspaceLink, hdomain.workspace]
  show resolveDependencyWith env (resolveDependency env fuel) edge s = _
  unfold resolveDependencyWith
  rw [Run.get_bind_apply, hspec, hlink, Run.ofExcept_ok_bind]
  dsimp only
  rw [hsource]

theorem resolveSource_eq {source : DependencySource} (h : ∀ inner patch, source ≠ .patch inner patch)
    (nodes : Map Node) (edge : Edge) (spec : Str) :
    resolveSource env nodes edge spec source =
      match source.resolve env.host (baseDirFor env nodes edge.parent) with
      | .error reason => .error (.source edge.name spec reason)
      | .ok resolution => .ok resolution := by
  cases source with
  | patch inner patch => exact absurd rfl (h inner patch)
  | file path | tarball url | git url reference => rfl

/-- The answer to a request, from the request as it is made. -/
theorem Ready.answer_eq (hready : Ready env plain s edge request) {source : DependencySource}
    (hsource : DependencySource.parse edge.requested = some source) :
    request.answer env =
      match source.resolve env.host (baseDirFor env s.nodes edge.parent) with
      | .error _ => .refused
      | .ok resolved =>
          match checkPackagePlatform
              (edge.name ++ '@' :: env.crates.showVersion resolved.metadata.version)
              resolved.metadata.constraints env.target
              (if edge.optional then .optionalOnly else .required) with
          | .ok .compatible => .placed resolved
          | .ok (.skipOptional _) => .skipped
          | .error _ => .refused := by
  unfold Request.answer
  rw [hready.base, hready.name, hready.optional, ← hready.requested, hsource]

theorem resolveDependency_expands (hdomain : SourcesOnly env manifest)
    (hready : Ready env plain s edge request) (fuel : Nat) :
    Expands env (resolveDependency env fuel) edge request s
      (resolveDependency env (fuel + 1) edge s) := by
  obtain ⟨source, hparse, hpatch⟩ := hready.source
  rw [← hready.requested] at hparse
  have hanswer := hready.answer_eq hparse
  rw [resolveDependency_succ hdomain hparse]
  unfold resolveSourceDependency
  rw [Run.get_bind_apply]
  dsimp only
  split
  · rename_i htaken
    exact .taken htaken
  rename_i hfree
  rw [Bool.not_eq_true] at hfree
  rw [resolveSource_eq hpatch]
  cases hresolved : source.resolve env.host (baseDirFor env s.nodes edge.parent) with
  | error reason =>
    rw [hresolved] at hanswer
    exact .refused hanswer _
  | ok resolved =>
    rw [hresolved] at hanswer
    dsimp only at hanswer ⊢
    rw [Run.ofExcept_ok_bind]
    cases hplatform : checkPackagePlatform
        (edge.name ++ '@' :: env.crates.showVersion resolved.metadata.version)
        resolved.metadata.constraints env.target
        (if edge.optional then .optionalOnly else .required) with
    | error message =>
      rw [hplatform] at hanswer
      have hallows : platformAllows env edge.name (sourceNode edge resolved).metadata edge.optional =
          failWith (.platform edge.name (env.crates.showVersion resolved.metadata.version)) := by
        unfold platformAllows sourceNode
        dsimp only
        rw [hplatform]
      rw [hallows]
      exact .refused hanswer _
    | ok disposition =>
      rw [hplatform] at hanswer
      cases disposition with
      | compatible =>
        have hallows : platformAllows env edge.name (sourceNode edge resolved).metadata
            edge.optional = return true := by
          unfold platformAllows sourceNode
          dsimp only
          rw [hplatform]
        rw [hallows]
        exact .placed hfree resolved hanswer
      | skipOptional message =>
        have hallows : platformAllows env edge.name (sourceNode edge resolved).metadata
            edge.optional = (do
              Run.modify (·.diagnose message)
              return false) := by
          unfold platformAllows sourceNode
          dsimp only
          rw [hplatform]
        rw [hallows]
        exact .skipped hanswer (s.diagnose message) rfl

/-- A source that is placed was resolved by the host. -/
theorem answer_placed {resolved : SourceResolution} (h : request.answer env = .placed resolved) :
    ∃ source base, env.host.resolveSource source base = .ok resolved := by
  unfold Request.answer at h
  split at h
  · cases h
  · rename_i source _
    split at h
    · cases h
    · rename_i resolved' hresolved
      have hsame : resolved' = resolved := by
        split at h
        · cases h
          rfl
        · cases h
        · cases h
      rw [hsame] at hresolved
      cases source with
      | patch inner patch => cases hresolved
      | file path | tarball url | git url reference => exact ⟨_, _, hresolved⟩

/-! ## The dependencies of a placed source -/

/-- Dependencies that are still to be resolved in a directory: they are sources, and with
plain names their slots are free. -/
structure Slots (plain : Prop) (parent : Str) (rest : List (Str × Str)) (s : GraphResolver) :
    Prop where
  sources : ∀ dep ∈ rest, IsSource dep.2
  names : plain → (rest.map Prod.fst).Nodup ∧ ∀ dep ∈ rest, Plain dep.1
  free : plain → ∀ dep ∈ rest, ∀ p, s.nodes.contains p = true →
    childPath parent dep.1 ∉ enclosing p

/-- A source whose dependencies are being resolved is what it was placed as. -/
structure Opened (plain : Prop) (path : Str) (resolved : SourceResolution)
    (rest : List (Str × Str)) (s : GraphResolver) : Prop extends Slots plain path rest s where
  node : ∃ node, s.nodes[path]? = some node ∧ node.sourceDir = resolved.sourceDir ∧
    node.metadata = resolved.metadata

variable {path parent : Str} {resolved : SourceResolution} {dep : Str × Str}
  {rest : List (Str × Str)}

/-- After a dependency has been resolved, the slots of the others are still free. -/
theorem Slots.next {s' : GraphResolver} (h : Slots plain parent (dep :: rest) s)
    (hbelow : Below plain (childPath parent dep.1) s s') : Slots plain parent rest s' := by
  constructor
  · exact fun dep' hdep' => h.sources dep' (List.mem_cons_of_mem dep hdep')
  · intro hplain
    obtain ⟨hnodup, hnames⟩ := h.names hplain
    exact ⟨(List.nodup_cons.mp hnodup).2, fun dep' hdep' =>
      hnames dep' (List.mem_cons_of_mem dep hdep')⟩
  · intro hplain dep' hdep' p hp
    obtain ⟨hnodup, hnames⟩ := h.names hplain
    rcases hbelow.added hplain p hp with hold | hnew
    · exact h.free hplain dep' (List.mem_cons_of_mem dep hdep') p hold
    · apply not_mem_enclosing_of_ne (hnames dep List.mem_cons_self)
        (hnames dep' (List.mem_cons_of_mem dep hdep')) _ hnew
      intro heq
      rw [List.map_cons, List.nodup_cons] at hnodup
      exact hnodup.1 (heq ▸ List.mem_map_of_mem hdep')

theorem Opened.next {s' : GraphResolver} (h : Opened plain path resolved (dep :: rest) s)
    (hbelow : Below plain (childPath path dep.1) s s') : Opened plain path resolved rest s' := by
  refine ⟨h.toSlots.next hbelow, ?_⟩
  obtain ⟨node, hnode, hdir, hmetadata⟩ := h.node
  obtain ⟨node', hnode', hsame⟩ := hbelow.kept hnode
  unfold Node.SamePlacement at hsame
  exact ⟨node', hnode', by rw [hsame]; exact hdir, by rw [hsame]; exact hmetadata⟩

theorem Opened.ready (h : Opened plain path resolved (dep :: rest) s) (hpath : path ≠ [])
    {optional : Bool} (hoptional : optional = request.optional) (dev : Bool) :
    Ready env plain s (childEdge s.nodes path path optional dev dep)
      (request.child env resolved dep) := by
  obtain ⟨node, hnode, hdir, hmetadata⟩ := h.node
  constructor
  · show baseDirFor env s.nodes path = resolved.sourceDir.getD (projectDir env)
    rw [baseDirFor, if_neg (by simpa using hpath), hnode, ← hdir]
    rfl
  · rfl
  · rfl
  · show ((s.nodes[path]?).any fun node =>
      optional || node.metadata.optionalDependencies.contains dep.1) = _
    rw [hnode, Option.any_some, hmetadata, hoptional]
    rfl
  · exact h.sources dep List.mem_cons_self
  · exact fun hplain => (h.names hplain).2 dep List.mem_cons_self
  · exact fun hplain => h.free hplain dep List.mem_cons_self

/-- Right after it has been placed, a source is open. -/
theorem opened_place (hdomain : SourcesOnly env manifest)
    (hready : Ready env (PlainNames env manifest) s edge request)
    (hanswer : request.answer env = .placed resolved) :
    Opened (PlainNames env manifest) (childPath edge.parent edge.name) resolved
      (mergedDependencies resolved.metadata).toList
      ((s.place edge (sourceNode edge resolved)).announce env.sink
        (childPath edge.parent edge.name)) := by
  obtain ⟨source, base, hresolved⟩ := answer_placed hanswer
  have hnodes : ((s.place edge (sourceNode edge resolved)).announce env.sink
      (childPath edge.parent edge.name)).nodes =
      s.nodes.insert (childPath edge.parent edge.name) (sourceNode edge resolved) :=
    announce_nodes _ _ _
  refine ⟨⟨hdomain.sources source base resolved hresolved, fun hplain => ?_, ?_⟩, ?_⟩
  · exact ⟨Map.keys_nodup _, hplain.sources source base resolved hresolved⟩
  · intro hplain dep hdep p hp
    have hdepName := hplain.sources source base resolved hresolved dep hdep
    rw [hnodes, Map.contains_insert, Bool.or_eq_true] at hp
    rcases hp with heq | hold
    · have heq' : childPath edge.parent edge.name = p := by simpa using heq
      intro hmem
      have hle := length_le_of_mem_enclosing hmem
      have hlt := childPath_length (childPath edge.parent edge.name) dep.1
      rw [← heq'] at hle
      omega
    · intro hmem
      exact hready.fresh hplain p hold
        (mem_enclosing_of_child hdepName (childPath_ne_nil _ _) hmem)
  · refine ⟨sourceNode edge resolved, ?_, rfl, rfl⟩
    rw [hnodes]
    exact Map.get_insert_self _ _ _

/-! ## The rounds over dependencies -/

/-- Resolve one dependency of the package at a path. -/
def childRound (recur : Edge → Resolve (Option Str)) (path : Str) (optional dev : Bool)
    (dep : Str × Str) : Resolve Unit := do
  let s ← Run.get
  let target ← recur (childEdge s.nodes path path optional dev dep)
  recordTarget path dep.1 target

theorem resolveChildren_eq (recur : Edge → Resolve (Option Str)) (path : Str)
    (dependencies : Map Str) (optional dev : Bool) :
    resolveChildren recur path dependencies optional dev =
      Run.foldM (fun _ dep => childRound recur path optional dev dep) () dependencies.toList :=
  Run.forEach_eq_foldM _ _

/-- A round ends as the request does, and then only notes the target. -/
theorem childRound_cases (recur : Edge → Resolve (Option Str)) (path : Str) (optional dev : Bool)
    (dep : Str × Str) (s : GraphResolver) :
    (∃ e s', recur (childEdge s.nodes path path optional dev dep) s = (.error e, s') ∧
        childRound recur path optional dev dep s = (.error e, s')) ∨
      ∃ target s' s'', recur (childEdge s.nodes path path optional dev dep) s = (.ok target, s') ∧
        childRound recur path optional dev dep s = (.ok (), s'') ∧
        ∀ plain slot, Below plain slot s' s'' := by
  unfold childRound
  rw [Run.get_bind_apply]
  rcases hrun : recur (childEdge s.nodes path path optional dev dep) s with ⟨e | target, s'⟩
  · exact .inl ⟨e, s', rfl, Run.bind_error hrun⟩
  · right
    rw [Run.bind_ok hrun]
    cases target with
    | none => exact ⟨none, s', s', rfl, rfl, fun _ _ => .of_nodes_eq rfl⟩
    | some target =>
      refine ⟨some target, s', s'.record path dep.1 target, rfl, rfl, fun _ _ => ?_⟩
      exact .of_modify rfl fun node => node.withTarget_same dep.1 target

theorem ends_childRound (recur : Edge → Resolve (Option Str)) (path : Str) (optional dev : Bool)
    (dep : Str × Str) (s : GraphResolver) (b : Bool) :
    Ends .outOfFuel b (childRound recur path optional dev dep s).1 ↔
      Ends .outOfFuel b (recur (childEdge s.nodes path path optional dev dep) s).1 := by
  rcases childRound_cases recur path optional dev dep s with
    ⟨e, s', hrun, hround⟩ | ⟨target, s', s'', hrun, hround, _⟩
  · rw [hrun, hround]
    simp [Ends, Except.isOk, Except.toBool]
  · rw [hrun, hround]
    simp [Ends, Except.isOk, Except.toBool]

/-- What is known of the recursion: from a request of this kind only its slot is filled. -/
def StaysBelow (env : Env) (manifest : PackageManifest) (recur : Edge → Resolve (Option Str)) :
    Prop :=
  ∀ s edge request, Ready env (PlainNames env manifest) s edge request →
    Below (PlainNames env manifest) (childPath edge.parent edge.name) s (recur edge s).2

theorem Opened.round {recur : Edge → Resolve (Option Str)} (hrec : StaysBelow env manifest recur)
    (hpath : path ≠ []) {optional : Bool} (hoptional : optional = request.optional) (dev : Bool)
    (h : Opened (PlainNames env manifest) path resolved (dep :: rest) s) :
    Below (PlainNames env manifest) (childPath path dep.1) s
      (childRound recur path optional dev dep s).2 := by
  have hbelow := hrec s _ _ (h.ready hpath hoptional dev)
  rcases childRound_cases recur path optional dev dep s with
    ⟨e, s', hrun, hround⟩ | ⟨target, s', s'', hrun, hround, hrecord⟩
  · rw [hround]
    rw [hrun] at hbelow
    exact hbelow
  · rw [hround]
    rw [hrun] at hbelow
    exact hbelow.trans (hrecord _ _)

theorem Opened.keepsRest {recur : Edge → Resolve (Option Str)}
    (hrec : StaysBelow env manifest recur) (hpath : path ≠ []) {optional : Bool}
    (hoptional : optional = request.optional) (dev : Bool) :
    KeepsRest (Opened (PlainNames env manifest) path resolved)
      (fun (_ : Unit) dep => childRound recur path optional dev dep) := by
  intro _ dep rest s _ s' h hrun
  dsimp only at hrun
  have hbelow := h.round hrec hpath hoptional dev
  rw [hrun] at hbelow
  exact h.next hbelow

theorem resolveChildren_below {recur : Edge → Resolve (Option Str)}
    (hrec : StaysBelow env manifest recur) (hpath : path ≠ []) {optional : Bool}
    (hoptional : optional = request.optional) (dev : Bool) {rest : List (Str × Str)}
    {s : GraphResolver} (h : Opened (PlainNames env manifest) path resolved rest s) :
    Below (PlainNames env manifest) path s (Run.foldM
      (fun (_ : Unit) dep => childRound recur path optional dev dep) () rest s).2 := by
  induction rest generalizing s with
  | nil => exact .of_nodes_eq rfl
  | cons dep rest ih =>
    have hround := h.round hrec hpath hoptional dev
    have hwiden : Below (PlainNames env manifest) path s
        (childRound recur path optional dev dep s).2 := by
      refine ⟨hround.kept, fun hplain p hp => ?_⟩
      rcases hround.added hplain p hp with hold | hnew
      · exact .inl hold
      · exact .inr (mem_enclosing_of_child ((h.names hplain).2 dep List.mem_cons_self) hpath hnew)
    rw [Run.foldM]
    rcases hrun : childRound recur path optional dev dep s with ⟨e | _, s'⟩
    · rw [Run.bind_error hrun]
      rw [hrun] at hwiden
      exact hwiden
    · rw [Run.bind_ok hrun]
      rw [hrun] at hwiden
      exact hwiden.trans (ih (Opened.keepsRest hrec hpath hoptional dev () dep rest s () s' h hrun))

/-- Only the slot of a request is filled, and what lies below it. -/
theorem resolveDependency_below (hdomain : SourcesOnly env manifest) (fuel : Nat) :
    StaysBelow env manifest (resolveDependency env fuel) := by
  induction fuel with
  | zero => exact fun s edge request _ => .of_nodes_eq rfl
  | succ fuel ih =>
    intro s edge request hready
    have hexpands := resolveDependency_expands hdomain hready fuel
    generalize resolveDependency env (fuel + 1) edge s = outcome at hexpands
    cases hexpands with
    | taken htaken =>
      exact .of_modify rfl fun node => node.upgrade_same edge.optional edge.dev
    | refused hanswer e => exact .of_nodes_eq rfl
    | skipped hanswer s' hnodes => exact .of_nodes_eq hnodes
    | placed hfree resolved hanswer =>
      rw [Run.bind_pure_state, resolveChildren_eq]
      have hplace : Below (PlainNames env manifest) (childPath edge.parent edge.name) s _ :=
        @Below.of_place _ _ edge (sourceNode edge resolved) env.sink hfree
          (childPath_ne_nil _ _)
      exact hplace.trans (resolveChildren_below ih (childPath_ne_nil _ _) hready.optional edge.dev
        (opened_place hdomain hready hanswer))

/-- With plain names every request finds its slot free. -/
theorem Ready.not_taken (hready : Ready env plain s edge request) (hplain : plain) :
    ¬s.nodes.contains (childPath edge.parent edge.name) = true := by
  intro htaken
  apply hready.fresh hplain _ htaken
  rw [enclosing_of_ne_nil (childPath_ne_nil _ _)]
  exact List.mem_cons_self

/-! ## Runs and requests -/

/-- The state in which the dependencies of a source are resolved. -/
def placedState (env : Env) (s : GraphResolver) (edge : Edge) (resolved : SourceResolution) :
    GraphResolver :=
  (s.place edge (sourceNode edge resolved)).announce env.sink (childPath edge.parent edge.name)

/-- The rounds over the dependencies of a source. -/
def rounds (env : Env) (fuel : Nat) (s : GraphResolver) (edge : Edge)
    (resolved : SourceResolution) : Except Halt Unit :=
  (Run.foldM (fun (_ : Unit) dep => childRound (resolveDependency env fuel)
    (childPath edge.parent edge.name) edge.optional edge.dev dep) ()
    (mergedDependencies resolved.metadata).toList (placedState env s edge resolved)).1

/-- One unit of fuel lets a request end by its answer, or leads to the dependencies. -/
theorem ends_succ_iff (hdomain : SourcesOnly env manifest)
    (hready : Ready env plain s edge request) (hplain : plain) (fuel : Nat) (b : Bool) :
    Ends .outOfFuel b (resolveDependency env (fuel + 1) edge s).1 ↔
      match request.answer env with
      | .refused => b = false
      | .skipped => b = true
      | .placed resolved => Ends .outOfFuel b (rounds env fuel s edge resolved) := by
  have hexpands := resolveDependency_expands hdomain hready fuel
  generalize resolveDependency env (fuel + 1) edge s = outcome at hexpands
  cases hexpands with
  | taken htaken => exact absurd htaken (hready.not_taken hplain)
  | refused hanswer e =>
    rw [hanswer]
    simp [Ends, Except.isOk, Except.toBool, eq_comm]
  | skipped hanswer s' hnodes =>
    rw [hanswer]
    simp [Ends, Except.isOk, Except.toBool, eq_comm]
  | placed hfree resolved hanswer =>
    rw [hanswer]
    dsimp only
    rw [ends_bind_pure, resolveChildren_eq]
    rfl

/-- However it is made, a request ends so with the given fuel. -/
def EndsWith (env : Env) (manifest : PackageManifest) (fuel : Nat) (request : Request) (b : Bool) :
    Prop :=
  ∀ s edge, Ready env (PlainNames env manifest) s edge request →
    Ends .outOfFuel b (resolveDependency env fuel edge s).1

/-- With fuel for its dependencies, a placed source ends as they do. -/
theorem endsWith_of_passes (hdomain : SourcesOnly env manifest) (hplain : PlainNames env manifest)
    (hanswer : request.answer env = .placed resolved) {fuel : Nat} {b : Bool}
    (h : Passes (EndsWith env manifest fuel) (request.children env resolved) b) :
    EndsWith env manifest (fuel + 1) request b := by
  intro s edge hready
  rw [ends_succ_iff hdomain hready hplain, hanswer]
  dsimp only
  refine foldM_ends (Opened.keepsRest (resolveDependency_below hdomain fuel)
    (childPath_ne_nil _ _) hready.optional edge.dev) ?_ ((passes_map _).mp h) ()
    (opened_place hdomain hready hanswer)
  intro _ dep rest s b hopened hends
  rw [ends_childRound]
  exact hends s _ (hopened.ready (childPath_ne_nil _ _) hready.optional edge.dev)

/-- A request that ends does so as a run with enough fuel does. -/
theorem Finishes.endsWith (hdomain : SourcesOnly env manifest) (hplain : PlainNames env manifest)
    {b : Bool} (h : Finishes env request b) :
    ∃ n, ∀ m, n ≤ m → EndsWith env manifest m request b := by
  -- one more unit of fuel than the dependencies need
  have hsucc : ∀ {request b} (n : Nat), (∀ m, n ≤ m → EndsWith env manifest (m + 1) request b) →
      ∃ n, ∀ m, n ≤ m → EndsWith env manifest m request b := by
    intro request b n h
    refine ⟨n + 1, fun m hm => ?_⟩
    obtain ⟨m, rfl⟩ : ∃ k, m = k + 1 := ⟨m - 1, by omega⟩
    exact h m (by omega)
  induction h with
  | refused hanswer =>
    refine hsucc 0 fun m _ s edge hready => ?_
    rw [ends_succ_iff hdomain hready hplain, hanswer]
  | skipped hanswer =>
    refine hsucc 0 fun m _ s edge hready => ?_
    rw [ends_succ_iff hdomain hready hplain, hanswer]
  | placed hanswer _ ih =>
    obtain ⟨n, hn⟩ := exists_bound ih
    exact hsucc n fun m hm =>
      endsWith_of_passes hdomain hplain hanswer (passes_true.mpr (hn m hm))
  | broken hanswer hsplit _ _ ihbefore ihchild =>
    obtain ⟨n, hn⟩ := exists_bound ihbefore
    obtain ⟨n', hn'⟩ := ihchild
    refine hsucc (max n n') fun m hm => endsWith_of_passes hdomain hplain hanswer ?_
    exact passes_false.mpr ⟨_, _, _, hsplit, hn m (le_of_max_le_left hm),
      hn' m (le_of_max_le_right hm)⟩

/-- A run that ends with some fuel tells how its request ends. -/
theorem finishes_of_ends (hdomain : SourcesOnly env manifest) (hplain : PlainNames env manifest)
    {b : Bool} (fuel : Nat) :
    ∀ s edge request, Ready env (PlainNames env manifest) s edge request →
      Ends .outOfFuel b (resolveDependency env fuel edge s).1 → Finishes env request b := by
  induction fuel generalizing b with
  | zero => exact fun s edge request _ h => absurd rfl h.1
  | succ fuel ih =>
    intro s edge request hready h
    rw [ends_succ_iff hdomain hready hplain] at h
    cases hanswer : request.answer env with
    | refused =>
      rw [hanswer] at h
      dsimp only at h
      rw [h]
      exact .refused hanswer
    | skipped =>
      rw [hanswer] at h
      dsimp only at h
      rw [h]
      exact .skipped hanswer
    | placed resolved =>
      rw [hanswer] at h
      have hpasses : Passes (Finishes env) (request.children env resolved) b := by
        refine (passes_map _).mpr (foldM_passes (Opened.keepsRest
          (resolveDependency_below hdomain fuel) (childPath_ne_nil _ _) hready.optional edge.dev) ?_
          (opened_place hdomain hready hanswer) h)
        intro _ dep rest s b hopened hends
        rw [ends_childRound] at hends
        exact ih s _ _ (hopened.ready (childPath_ne_nil _ _) hready.optional edge.dev) hends
      cases b with
      | true => exact .placed hanswer (passes_true.mp hpasses)
      | false =>
        obtain ⟨before, child, after, hsplit, hbefore, hchild⟩ := passes_false.mp hpasses
        exact .broken hanswer hsplit hbefore hchild

/-- Whatever the names are, a request below which every chain of dependencies is finite does
not use up all fuel. -/
theorem ne_outOfFuel_of_acc (hdomain : SourcesOnly env manifest)
    (h : Acc (fun child request => Depends env request child) request) :
    ∃ n, ∀ m, n ≤ m → ∀ s edge, Ready env (PlainNames env manifest) s edge request →
      (resolveDependency env m edge s).1 ≠ .error .outOfFuel := by
  induction h with
  | intro request _ ih =>
    have hchildren : ∃ n, ∀ resolved, request.answer env = .placed resolved → ∀ m, n ≤ m →
        ∀ child ∈ request.children env resolved, ∀ s edge,
          Ready env (PlainNames env manifest) s edge child →
            (resolveDependency env m edge s).1 ≠ .error .outOfFuel := by
      cases hanswer : request.answer env with
      | refused | skipped => exact ⟨0, fun _ => nofun⟩
      | placed resolved =>
        obtain ⟨n, hn⟩ := exists_bound fun child hchild => ih child ⟨resolved, hanswer, hchild⟩
        refine ⟨n, fun resolved' heq m hm => ?_⟩
        cases heq
        exact hn m hm
    obtain ⟨n, hn⟩ := hchildren
    refine ⟨n + 1, fun m hm s edge hready => ?_⟩
    obtain ⟨m, rfl⟩ : ∃ k, m = k + 1 := ⟨m - 1, by omega⟩
    have hexpands := resolveDependency_expands hdomain hready m
    generalize resolveDependency env (m + 1) edge s = outcome at hexpands
    cases hexpands with
    | taken => exact nofun
    | refused => exact nofun
    | skipped => exact nofun
    | placed hfree resolved hanswer =>
      rw [ne_eq, Run.bind_pure_eq_error, resolveChildren_eq]
      refine foldM_ne_stop (Opened.keepsRest (resolveDependency_below hdomain m)
        (childPath_ne_nil _ _) hready.optional edge.dev) ?_ () (opened_place hdomain hready hanswer)
      intro _ dep rest s hdep hopened heq
      have hchild := hn resolved hanswer m (by omega) _ (List.mem_map_of_mem hdep) s _
        (hopened.ready (childPath_ne_nil _ _) hready.optional edge.dev)
      rcases childRound_cases (resolveDependency env m) (childPath edge.parent edge.name)
        edge.optional edge.dev dep s with ⟨e, s', hrun, hround⟩ | ⟨target, s', s'', _, hround, _⟩
      · rw [hround] at heq
        rw [hrun] at hchild
        cases heq
        exact hchild rfl
      · rw [hround] at heq
        cases heq

/-! ## The requests of the project -/

theorem rootRound_cases (env : Env) (manifest : PackageManifest) (fuel : Nat) (targets : Map Str)
    (dep : Str × Str) (s : GraphResolver) :
    (∃ e s', resolveDependency env fuel (rootEdge manifest dep) s = (.error e, s') ∧
        resolveRoot env fuel targets (rootEdge manifest dep) s = (.error e, s')) ∨
      ∃ target targets' s', resolveDependency env fuel (rootEdge manifest dep) s = (.ok target, s') ∧
        resolveRoot env fuel targets (rootEdge manifest dep) s = (.ok targets', s') := by
  unfold resolveRoot
  rcases hrun : resolveDependency env fuel (rootEdge manifest dep) s with ⟨e | target, s'⟩
  · exact .inl ⟨e, s', rfl, Run.bind_error hrun⟩
  · right
    rw [Run.bind_ok hrun]
    cases target with
    | none => exact ⟨none, targets, s', rfl, rfl⟩
    | some target => exact ⟨some target, targets.insert dep.1 target, s', rfl, rfl⟩

theorem ends_rootRound (env : Env) (manifest : PackageManifest) (fuel : Nat) (targets : Map Str)
    (dep : Str × Str) (s : GraphResolver) (b : Bool) :
    Ends .outOfFuel b (resolveRoot env fuel targets (rootEdge manifest dep) s).1 ↔
      Ends .outOfFuel b (resolveDependency env fuel (rootEdge manifest dep) s).1 := by
  rcases rootRound_cases env manifest fuel targets dep s with
    ⟨e, s', hrun, hround⟩ | ⟨target, targets', s', hrun, hround⟩
  · rw [hrun, hround]
    simp [Ends, Except.isOk, Except.toBool]
  · rw [hrun, hround]
    simp [Ends, Except.isOk, Except.toBool]

theorem Slots.rootReady (h : Slots plain [] (dep :: rest) s) :
    Ready env plain s (rootEdge manifest dep) (rootRequest env manifest dep) := by
  refine ⟨rfl, rfl, rfl, rfl, h.sources dep List.mem_cons_self, fun hplain => ?_, fun hplain => ?_⟩
  · exact (h.names hplain).2 dep List.mem_cons_self
  · exact h.free hplain dep List.mem_cons_self

theorem Slots.rootKeeps (hdomain : SourcesOnly env manifest) (fuel : Nat) :
    KeepsRest (Slots (PlainNames env manifest) [])
      (fun targets dep => resolveRoot env fuel targets (rootEdge manifest dep)) := by
  intro targets dep rest s targets' s' h hrun
  have hbelow := resolveDependency_below hdomain fuel s (rootEdge manifest dep) _ h.rootReady
  rcases rootRound_cases env manifest fuel targets dep s with
    ⟨e, s'', _, hround⟩ | ⟨target, targets'', s'', hdependency, hround⟩
  · dsimp only at hrun
    rw [hround] at hrun
    cases hrun
  · dsimp only at hrun
    rw [hround] at hrun
    cases hrun
    rw [hdependency] at hbelow
    exact h.next hbelow

theorem rootSlots (hdomain : SourcesOnly env manifest) :
    Slots (PlainNames env manifest) [] manifest.rootDependencyDeclarations.toList .init := by
  refine ⟨hdomain.roots, fun hplain => ⟨Map.keys_nodup _, hplain.roots⟩, fun _ dep _ p hp => ?_⟩
  simp [GraphResolver.init] at hp

/-- The run over the requests of the project. -/
theorem terminates_def : Terminates env manifest ↔ ∃ fuel, (Run.foldM
    (fun targets dep => resolveRoot env fuel targets (rootEdge manifest dep)) ∅
    manifest.rootDependencyDeclarations.toList .init).1 ≠ .error .outOfFuel := by
  unfold Terminates
  simp only [Run.foldM_map]

/-- The project's requests down to the first that fails have finite chains. -/
def Grounded (env : Env) (manifest : PackageManifest) : Prop :=
  ∀ before request after, rootRequests env manifest = before ++ request :: after →
    (∀ sibling ∈ before, Finishes env sibling true) →
    Acc (fun child request => Leads env request child) request

theorem terminates_of_acc (hdomain : SourcesOnly env manifest)
    (h : ∀ request ∈ rootRequests env manifest,
      Acc (fun child request => Depends env request child) request) :
    Terminates env manifest := by
  rw [terminates_def]
  obtain ⟨n, hn⟩ := exists_bound fun request hrequest => ne_outOfFuel_of_acc hdomain (h request hrequest)
  refine ⟨n, foldM_ne_stop (Slots.rootKeeps hdomain n) ?_ ∅ (rootSlots hdomain)⟩
  intro targets dep rest s hdep hslots heq
  have hroot := hn n le_rfl _ (List.mem_map_of_mem hdep) s _ hslots.rootReady
  rcases rootRound_cases env manifest n targets dep s with
    ⟨e, s', hrun, hround⟩ | ⟨target, targets', s', _, hround⟩
  · rw [hround] at heq
    rw [hrun] at hroot
    cases heq
    exact hroot rfl
  · rw [hround] at heq
    cases heq

theorem terminates_of_passes (hdomain : SourcesOnly env manifest) {b : Bool} {fuel : Nat}
    (h : Passes (EndsWith env manifest fuel) (rootRequests env manifest) b) :
    Terminates env manifest := by
  rw [terminates_def]
  refine ⟨fuel, (foldM_ends (Slots.rootKeeps hdomain fuel) ?_ ((passes_map _).mp h) ∅
    (rootSlots hdomain)).1⟩
  intro targets dep rest s b hslots hends
  rw [ends_rootRound]
  exact hends s _ hslots.rootReady

theorem passes_of_terminates (hdomain : SourcesOnly env manifest)
    (hplain : PlainNames env manifest) (h : Terminates env manifest) :
    ∃ b, Passes (Finishes env) (rootRequests env manifest) b := by
  rw [terminates_def] at h
  obtain ⟨fuel, hfuel⟩ := h
  refine ⟨_, (passes_map _).mpr (foldM_passes (Slots.rootKeeps hdomain fuel) ?_
    (rootSlots hdomain) ⟨hfuel, rfl⟩)⟩
  intro targets dep rest s b hslots hends
  rw [ends_rootRound] at hends
  exact finishes_of_ends hdomain hplain fuel s _ _ hslots.rootReady hends

theorem terminates_iff_grounded (hdomain : SourcesOnly env manifest)
    (hplain : PlainNames env manifest) : Terminates env manifest ↔ Grounded env manifest := by
  constructor
  · intro h before request after hsplit hbefore
    obtain ⟨b, hpasses⟩ := passes_of_terminates hdomain hplain h
    obtain ⟨b', hb'⟩ := hpasses.reached (fun _ htrue hfalse => nomatch htrue.unique hfalse)
      hsplit hbefore
    exact hb'.acc
  · intro h
    rcases forall_or_first (fun request => Finishes env request true)
      (rootRequests env manifest) with hall | ⟨before, request, after, hsplit, hbefore, hnot⟩
    · obtain ⟨n, hn⟩ := exists_bound fun request hrequest =>
        (hall request hrequest).endsWith hdomain hplain
      exact terminates_of_passes hdomain (passes_true.mpr (hn n le_rfl))
    · obtain ⟨b, hb⟩ := finishes_of_acc (h before request after hsplit hbefore)
      cases b with
      | true => exact absurd hb hnot
      | false =>
        obtain ⟨n, hn⟩ := exists_bound fun sibling hsibling =>
          (hbefore sibling hsibling).endsWith hdomain hplain
        obtain ⟨n', hn'⟩ := hb.endsWith hdomain hplain
        refine @terminates_of_passes env manifest hdomain false (max n n') ?_
        exact passes_false.mpr ⟨before, request, after, hsplit, hn _ (le_max_left n n'),
          hn' _ (le_max_right n n')⟩

/-- Chains of dependencies that are all finite let the recursion end, whatever the names are.
With plain names it ends exactly when the chains that are come to are finite. -/
theorem sources_terminate (hdomain : SourcesOnly env manifest) :
    ((∀ request ∈ rootRequests env manifest,
        Acc (fun child request => Depends env request child) request) → Terminates env manifest) ∧
      (PlainNames env manifest → (Terminates env manifest ↔ Grounded env manifest)) :=
  ⟨terminates_of_acc hdomain, terminates_iff_grounded hdomain⟩

end Resolution

/-! ## Local directories -/

/-- What the file system holds: canonical paths, directories, the manifests in them, and
packed sources. -/
structure Files where
  canonicalize : Str → Except Str Str
  isDir : Str → Bool
  manifestAt : Str → Except Str PackageManifest
  tarballAt : Str → Except Str SourceResolution

/-- The last name of a path. -/
def fileName (path : Str) : Str :=
  match (List.splitOn '/' path).getLast? with
  | some name => if name = [] then lit "package" else name
  | none => lit "package"

/-- A directory as a source. -/
def directorySource (absolute : Str) (version : Version) (manifest : PackageManifest) :
    SourceResolution :=
  { metadata := workspaceMetadata (manifest.name.getD (fileName absolute)) version (some manifest)
    resolved := []
    integrity := none
    source := .file absolute
    link := true
    workspaceTarget := some absolute
    sourceDir := some absolute }

def resolveFileSource (crates : Crates) (files : Files) (baseDir path : Str) :
    Except Str SourceResolution :=
  let absolute := joinPath baseDir path
  match files.canonicalize absolute with
  | .error e => .error (lit "cannot resolve " ++ absolute ++ lit ": " ++ e)
  | .ok absolute =>
      if files.isDir absolute then
        match files.manifestAt absolute with
        | .error e => .error e
        | .ok manifest =>
            match crates.parseVersion (manifest.version.getD (lit "0.0.0")) with
            | some version => .ok (directorySource absolute version manifest)
            -- the program ends here
            | none => .error (lit "workspace versions are validated by the index")
      else files.tarballAt absolute

namespace Example

/-- Two directories next to each other, with the given dependencies. -/
def files (a b : List (Str × Str)) : Files where
  canonicalize path :=
    if path = lit "/p/a" ∨ path = lit "/p/b/../a" then .ok (lit "/p/a")
    else if path = lit "/p/b" ∨ path = lit "/p/a/../b" then .ok (lit "/p/b")
    else .error (lit "no such file or directory")
  isDir path := path = lit "/p/a" || path = lit "/p/b"
  manifestAt path := .ok (Project.manifest (if path = lit "/p/a" then a else b) [])
  tarballAt _ := .error (lit "not a tarball")

def host (a b : List (Str × Str)) : Host :=
  { Project.noHost with
    resolveSource := fun source base =>
      match source with
      | .file path => resolveFileSource Release.crates (files a b) base path
      | _ => .error (lit "unreachable") }

def env (a b : List (Str × Str)) : Env :=
  { Project.env [] with host := host a b, rootDir := some (lit "/p") }

def manifest : PackageManifest := Project.manifest [(['a'], lit "file:a")] []

def toA : List (Str × Str) := [(['a'], lit "file:../a")]
def toB : List (Str × Str) := [(['b'], lit "file:../b")]

/-- The directories as sources. -/
def sourceA (a : List (Str × Str)) : SourceResolution :=
  directorySource (lit "/p/a") (Release.version 0 0 0) (Project.manifest a [])

def sourceB (b : List (Str × Str)) : SourceResolution :=
  directorySource (lit "/p/b") (Release.version 0 0 0) (Project.manifest b [])

theorem resolveFileSource_directory {files : Files} {base path absolute : Str}
    {dependencies : List (Str × Str)} (hpath : files.canonicalize (joinPath base path) = .ok absolute)
    (hdir : files.isDir absolute = true)
    (hmanifest : files.manifestAt absolute = .ok (Project.manifest dependencies [])) :
    resolveFileSource Release.crates files base path =
      .ok (directorySource absolute (Release.version 0 0 0) (Project.manifest dependencies [])) := by
  have hversion : Release.crates.parseVersion
      ((Project.manifest dependencies []).version.getD (lit "0.0.0")) =
        some (Release.version 0 0 0) := by
    show Release.crates.parseVersion (lit "0.0.0") = _
    decide
  rw [resolveFileSource, hpath]
  dsimp only
  rw [if_pos hdir, hmanifest]
  dsimp only
  rw [hversion]

theorem resolveSource_cases {a b : List (Str × Str)} {source : DependencySource} {base : Str}
    {resolved : SourceResolution} (h : (host a b).resolveSource source base = .ok resolved) :
    resolved = sourceA a ∨ resolved = sourceB b := by
  cases source with
  | file path =>
    change resolveFileSource Release.crates (files a b) base path = .ok resolved at h
    have hcanonical : (files a b).canonicalize (joinPath base path) = .ok (lit "/p/a") ∨
        (files a b).canonicalize (joinPath base path) = .ok (lit "/p/b") ∨
        ∃ e, (files a b).canonicalize (joinPath base path) = .error e := by
      unfold files
      dsimp only
      split
      · exact .inl rfl
      · split
        · exact .inr (.inl rfl)
        · exact .inr (.inr ⟨_, rfl⟩)
    rcases hcanonical with hpath | hpath | ⟨e, hpath⟩
    · rw [resolveFileSource_directory hpath rfl rfl] at h
      exact .inl (Except.ok.inj h).symm
    · rw [resolveFileSource_directory hpath rfl rfl] at h
      exact .inr (Except.ok.inj h).symm
    · rw [resolveFileSource, hpath] at h
      cases h
  | tarball url | git url reference | patch inner patch => cases h

/-- What the two directories may ask for. -/
def siblings : List (Str × Str) := toA ++ toB

theorem siblings_sources {dep : Str × Str} (h : dep ∈ siblings) : IsSource dep.2 ∧ Plain dep.1 := by
  have ha : DependencySource.parse (lit "file:../a") = some (.file (lit "../a")) := by
    decide
  have hb : DependencySource.parse (lit "file:../b") = some (.file (lit "../b")) := by
    decide
  have hplain : Plain ['a'] ∧ Plain ['b'] := by decide
  have hcases : dep = (['a'], lit "file:../a") ∨ dep = (['b'], lit "file:../b") := by
    simpa [siblings, toA, toB] using h
  rcases hcases with rfl | rfl
  · exact ⟨⟨_, ha, nofun⟩, hplain.1⟩
  · exact ⟨⟨_, hb, nofun⟩, hplain.2⟩

section Siblings

variable {a b : List (Str × Str)}
  (ha : (mergedDependencies (sourceA a).metadata).toList ⊆ siblings)
  (hb : (mergedDependencies (sourceB b).metadata).toList ⊆ siblings)

include ha hb

theorem siblings_of_resolved {source : DependencySource} {base : Str} {resolved : SourceResolution}
    (h : (env a b).host.resolveSource source base = .ok resolved) :
    (mergedDependencies resolved.metadata).toList ⊆ siblings := by
  rcases resolveSource_cases h with rfl | rfl
  · exact ha
  · exact hb

theorem sourcesOnly : SourcesOnly (env a b) manifest := by
  refine ⟨rfl, rfl, ?_, fun source base resolved h dep hdep => ?_⟩
  · have hroots : manifest.rootDependencyDeclarations.toList = [(['a'], lit "file:a")] := by
      decide
    have hparse : DependencySource.parse (lit "file:a") = some (.file ['a']) := by decide
    rw [hroots]
    simp only [List.mem_singleton, forall_eq]
    exact ⟨_, hparse, nofun⟩
  · exact (siblings_sources (siblings_of_resolved ha hb h hdep)).1

theorem plainNames : PlainNames (env a b) manifest := by
  refine ⟨?_, fun source base resolved h dep hdep => ?_⟩
  · decide
  · exact (siblings_sources (siblings_of_resolved ha hb h hdep)).2

end Siblings

theorem finitelyMany (a b : List (Str × Str)) : FinitelyMany (env a b) := by
  apply Set.Finite.subset (Set.toFinite {sourceA a, sourceB b})
  rintro resolved ⟨source, base, h⟩
  exact resolveSource_cases h

/-- The requests for the two directories. -/
def first : Request := ⟨lit "/p", ['a'], lit "file:a", false⟩
def asksB : Request := ⟨lit "/p/a", ['b'], lit "file:../b", false⟩
def asksA : Request := ⟨lit "/p/b", ['a'], lit "file:../a", false⟩

theorem rootRequests_eq (a b : List (Str × Str)) : rootRequests (env a b) manifest = [first] := by
  have hroots : manifest.rootDependencyDeclarations.toList = [(['a'], lit "file:a")] := by
    decide
  rw [rootRequests, hroots]
  rfl

theorem siblings_toA : (mergedDependencies (sourceB toA).metadata).toList ⊆ siblings := by
  decide

theorem siblings_toB : (mergedDependencies (sourceA toB).metadata).toList ⊆ siblings := by
  decide

theorem siblings_nil : (mergedDependencies (sourceB []).metadata).toList ⊆ siblings := by
  decide

theorem first_leads : Leads (env toB toA) first asksB := by
  have hanswer : first.answer (env toB toA) = .placed (sourceA toB) := by decide
  have hchildren : first.children (env toB toA) (sourceA toB) = [] ++ asksB :: [] := by
    decide
  exact ⟨_, _, _, hanswer, hchildren, nofun⟩

theorem asksB_leads : Leads (env toB toA) asksB asksA := by
  have hanswer : asksB.answer (env toB toA) = .placed (sourceB toA) := by decide
  have hchildren : asksB.children (env toB toA) (sourceB toA) = [] ++ asksA :: [] := by
    decide
  exact ⟨_, _, _, hanswer, hchildren, nofun⟩

theorem asksA_leads : Leads (env toB toA) asksA asksB := by
  have hanswer : asksA.answer (env toB toA) = .placed (sourceA toB) := by decide
  have hchildren : asksA.children (env toB toA) (sourceA toB) = [] ++ asksB :: [] := by
    decide
  exact ⟨_, _, _, hanswer, hchildren, nofun⟩

/-- There is no end to what leads around in a circle. -/
theorem not_acc {request : Request}
    (h : Acc (fun child request => Leads (env toB toA) request child) request) :
    request ≠ asksA ∧ request ≠ asksB := by
  induction h with
  | intro request _ ih =>
    constructor
    · rintro rfl
      exact (ih asksB asksA_leads).2 rfl
    · rintro rfl
      exact (ih asksA asksB_leads).1 rfl

theorem first_acc :
    Acc (fun child request => Depends (env toB []) request child) first := by
  have hfirst : first.answer (env toB []) = .placed (sourceA toB) := by decide
  have hchildren : first.children (env toB []) (sourceA toB) = [asksB] := by decide
  have hasksB : asksB.answer (env toB []) = .placed (sourceB []) := by decide
  have hnone : asksB.children (env toB []) (sourceB []) = [] := by decide
  constructor
  rintro child ⟨resolved, hanswer, hchild⟩
  cases hfirst.symm.trans hanswer
  rw [hchildren, List.mem_singleton] at hchild
  subst hchild
  constructor
  rintro child ⟨resolved, hanswer, hchild⟩
  cases hasksB.symm.trans hanswer
  rw [hnone] at hchild
  cases hchild

end Example

open Example in
/-- The first directory asks for the second one, which asks for nothing. -/
theorem sources_terminate_acyclic :
    Terminates (env toB []) manifest ∧ Grounded (env toB []) manifest := by
  obtain ⟨hterminates, hiff⟩ := sources_terminate (sourcesOnly siblings_toB siblings_nil)
  have hends := hterminates fun request hrequest => by
    rw [rootRequests_eq, List.mem_singleton] at hrequest
    rw [hrequest]
    exact first_acc
  exact ⟨hends, (hiff (plainNames siblings_toB siblings_nil)).mp hends⟩

open Example in
/-- The two directories ask for each other. -/
theorem sources_not_terminating :
    ¬∀ (env : Env) (manifest : PackageManifest), SourcesOnly env manifest → FinitelyMany env →
      Terminates env manifest := by
  intro hall
  have hdomain := sourcesOnly siblings_toB siblings_toA
  have hends := hall (env toB toA) manifest hdomain (finitelyMany toB toA)
  have hgrounded := (terminates_iff_grounded hdomain (plainNames siblings_toB siblings_toA)).mp hends
  have hacc := hgrounded [] first [] (rootRequests_eq _ _) nofun
  exact (not_acc (hacc.inv first_leads)).2 rfl

end SourceRecursion
end Bpm
