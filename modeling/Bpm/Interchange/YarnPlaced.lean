import Bpm.Interchange.YarnLock

/-!
# Where the import of `yarn.lock` puts packages

The queue of the walk is first in, first out, and the children of a package are queued
together.  So whatever a package requires is placed before anything that the packages below
it require, and a slot that is opened late never hides one that a package was given before.
The invariant speaks about all edges that were ever queued, in their order.
-/

namespace Bpm

open Text SourceRecursion

namespace YarnLock

namespace Lock

/-- An entry that requests are resolved to. -/
def Indexed (lock : Lock) (index : Nat) : Prop :=
  index < lock.entries.length ∧ indexed (lock.entry index) = true

/-- One entry requires another one. -/
def Requires (lock : Lock) (index child : Nat) : Prop :=
  ∃ range, (lock.entry index).mergedDeps[(lock.entry child).name]? = some range ∧
    lock.resolve (lock.entry child).name range = some child

/-- Names that are single path segments or scoped, and one entry for every version. -/
structure Regular (lock : Lock) : Prop where
  plain : ∀ index, lock.Indexed index → Plain (lock.entry index).name
  unique : ∀ index index', lock.Indexed index → lock.Indexed index' →
    (lock.entry index).name = (lock.entry index').name →
    (lock.entry index).version = (lock.entry index').version → index = index'

/-- A name that the lock has several versions of. -/
def Contested (lock : Lock) (name : Str) : Prop :=
  ∃ index index', lock.Indexed index ∧ lock.Indexed index' ∧ (lock.entry index).name = name ∧
    (lock.entry index').name = name ∧ (lock.entry index).version ≠ (lock.entry index').version

variable {lock : Lock}

theorem mem_byName {name : Str} {index : Nat} :
    index ∈ lock.byName name ↔ lock.Indexed index ∧ (lock.entry index).name = name := by
  unfold byName Indexed
  simp [and_assoc]

/-- A request is resolved to an entry of its name. -/
theorem resolve_spec {name range : Str} {index : Nat} (h : lock.resolve name range = some index) :
    lock.Indexed index ∧ (lock.entry index).name = name := by
  rw [← mem_byName]
  rcases Option.or_eq_some_iff.mp h with hexact | ⟨_, hmatch⟩
  · exact List.mem_of_find?_eq_some hexact
  · exact List.mem_of_find?_eq_some hmatch

theorem mem_children {index child : Nat} :
    (∃ optional, (child, optional) ∈ lock.children index) ↔ lock.Requires index child := by
  constructor
  · rintro ⟨optional, h⟩
    obtain ⟨⟨name, range⟩, hmem, hchild⟩ := List.mem_filterMap.mp h
    obtain ⟨index', hresolve, heq⟩ := Option.map_eq_some_iff.mp hchild
    cases heq
    obtain ⟨_, rfl⟩ := resolve_spec hresolve
    exact ⟨range, Map.mem_toList.mp hmem, hresolve⟩
  · rintro ⟨range, hget, hresolve⟩
    refine ⟨(lock.entry index).optionalDependencies.contains (lock.entry child).name, ?_⟩
    refine List.mem_filterMap.mpr ⟨((lock.entry child).name, range), Map.mem_toList.mpr hget, ?_⟩
    simp only [hresolve, Option.map_some]

theorem Requires.indexed {index child : Nat} (h : lock.Requires index child) : lock.Indexed child := by
  obtain ⟨range, _, hresolve⟩ := h
  exact (resolve_spec hresolve).1

/-- An entry requires one version of a name. -/
theorem Requires.inj {index child child' : Nat} (h : lock.Requires index child)
    (h' : lock.Requires index child')
    (hname : (lock.entry child).name = (lock.entry child').name) : child = child' := by
  obtain ⟨range, hget, hresolve⟩ := h
  obtain ⟨range', hget', hresolve'⟩ := h'
  rw [hname] at hget hresolve
  cases hget.symm.trans hget'
  exact Option.some.inj (hresolve.symm.trans hresolve')

end Lock

open Lock

/-! ## The order of the edges -/

/-- In front of an edge stand all edges of the packages around its dependent, and those of
the project unless it is one of them. -/
def Ordered (lock : Lock) (roots : List Nat) (placed edges : List (Nat × Str)) : Prop :=
  ∀ before child dependent after, edges = before ++ (child, dependent) :: after →
    (∀ outer ∈ enclosing (parentPath dependent), ∃ index, (index, outer) ∈ placed ∧
      ∀ other, lock.Requires index other → (other, outer) ∈ before) ∧
    (dependent ≠ [] → ∀ root ∈ roots, (root, []) ∈ before)

theorem Ordered.mono {lock : Lock} {roots : List Nat} {placed placed' edges : List (Nat × Str)}
    (h : Ordered lock roots placed edges) (hsubset : placed ⊆ placed') :
    Ordered lock roots placed' edges := by
  intro before child dependent after hsplit
  obtain ⟨houter, hroots⟩ := h before child dependent after hsplit
  refine ⟨fun outer hmem => ?_, hroots⟩
  obtain ⟨index, hplaced, hothers⟩ := houter outer hmem
  exact ⟨index, hsubset hplaced, hothers⟩

theorem Ordered.append {lock : Lock} {roots : List Nat} {placed edges new : List (Nat × Str)}
    (h : Ordered lock roots placed edges)
    (hnew : ∀ edge ∈ new,
      (∀ outer ∈ enclosing (parentPath edge.2), ∃ index, (index, outer) ∈ placed ∧
        ∀ other, lock.Requires index other → (other, outer) ∈ edges) ∧
      (edge.2 ≠ [] → ∀ root ∈ roots, (root, []) ∈ edges)) :
    Ordered lock roots placed (edges ++ new) := by
  intro before child dependent after hsplit
  rcases List.append_eq_append_iff.mp hsplit with ⟨between, rfl, hrest⟩ | ⟨between, rfl, hrest⟩
  · -- the edge is a new one
    have hmem : (child, dependent) ∈ new := by
      rw [hrest]
      simp
    obtain ⟨houter, hroots⟩ := hnew _ hmem
    refine ⟨fun outer hin => ?_, fun hne root hroot => List.mem_append_left _ (hroots hne root hroot)⟩
    obtain ⟨index, hplaced, hothers⟩ := houter outer hin
    exact ⟨index, hplaced, fun other hother => List.mem_append_left _ (hothers other hother)⟩
  · cases between with
    | nil =>
      have hmem : (child, dependent) ∈ new := by
        rw [List.nil_append] at hrest
        rw [← hrest]
        exact List.mem_cons_self
      obtain ⟨houter, hroots⟩ := hnew _ hmem
      rw [List.append_nil] at houter hroots
      exact ⟨houter, hroots⟩
    | cons edge between =>
      cases hrest
      exact h before child dependent between rfl

/-! ## The invariant -/

/-- After the edges `popped` were taken from the queue. -/
structure Inv (lock : Lock) (roots : List Nat) (popped : List (Nat × Str)) (s : Walk) : Prop where
  visited : ∀ edge, edge ∈ s.visited ↔ edge ∈ popped
  ordered : Ordered lock roots s.placed (popped ++ s.queue.map Item.edge)
  seeded : ∀ root ∈ roots, (root, []) ∈ popped ++ s.queue.map Item.edge
  /-- Every edge is one of the project or of a package of the tree. -/
  owner : ∀ child dependent, (child, dependent) ∈ popped ++ s.queue.map Item.edge →
    lock.Indexed child ∧ ((dependent = [] ∧ child ∈ roots) ∨
      ∃ index, (index, dependent) ∈ s.placed ∧ lock.Requires index child)
  complete : ∀ index path, (index, path) ∈ s.placed → ∀ child, lock.Requires index child →
    (child, path) ∈ popped ++ s.queue.map Item.edge
  nested : ∀ index path, (index, path) ∈ s.placed → lock.Indexed index ∧ Nested path
  paths : (s.placed.map Prod.snd).Nodup
  /-- A package lies at the root or, if its name is contested, below a dependent. -/
  placement : ∀ index path, (index, path) ∈ s.placed → ∃ owner dependent,
    path = childPath owner (lock.entry index).name ∧ (index, dependent) ∈ popped ∧
      (owner = [] ∨ owner = dependent ∧ lock.Contested (lock.entry index).name) ∧
      s.placer.held owner (lock.entry index).name = some (lock.entry index).version
  slots : ∀ owner name version, s.placer.held owner name = some version →
    ∃ index, (index, childPath owner name) ∈ s.placed ∧ (lock.entry index).name = name ∧
      (lock.entry index).version = version
  found : ∀ child dependent, (child, dependent) ∈ popped →
    s.placer.found dependent (lock.entry child).name = some (lock.entry child).version

namespace Inv

variable {lock : Lock} {roots : List Nat} {popped : List (Nat × Str)} {s : Walk}

theorem placed_inj (h : Inv lock roots popped s) {index index' : Nat} {path : Str}
    (hmem : (index, path) ∈ s.placed) (hmem' : (index', path) ∈ s.placed) : index = index' :=
  congrArg Prod.fst (List.inj_on_of_nodup_map h.paths hmem hmem' rfl)

theorem dependent (h : Inv lock roots popped s) {child : Nat} {dependent : Str}
    (hmem : (child, dependent) ∈ popped ++ s.queue.map Item.edge) : Dependent dependent := by
  rcases (h.owner child dependent hmem).2 with ⟨rfl, _⟩ | ⟨index, hplaced, _⟩
  · exact .inl rfl
  · exact .inr (h.nested index dependent hplaced).2

/-- The siblings of an edge have other names. -/
theorem sibling (h : Inv lock roots popped s)
    (hroots : ∀ root ∈ roots, ∀ root' ∈ roots,
      (lock.entry root).name = (lock.entry root').name → root = root')
    {child child' : Nat} {dependent : Str}
    (hmem : (child, dependent) ∈ popped ++ s.queue.map Item.edge)
    (hmem' : (child', dependent) ∈ popped ++ s.queue.map Item.edge)
    (hname : (lock.entry child).name = (lock.entry child').name) : child = child' := by
  rcases (h.owner child dependent hmem).2 with ⟨hroot, hin⟩ | ⟨index, hplaced, hrequires⟩
  · rcases (h.owner child' dependent hmem').2 with ⟨_, hin'⟩ | ⟨index', hplaced', _⟩
    · exact hroots child hin child' hin' hname
    · exact absurd hroot (h.nested index' dependent hplaced').2.ne_nil
  · rcases (h.owner child' dependent hmem').2 with ⟨hroot', _⟩ | ⟨index', hplaced', hrequires'⟩
    · exact absurd hroot' (h.nested index dependent hplaced).2.ne_nil
    · cases h.placed_inj hplaced hplaced'
      exact hrequires.inj hrequires' hname

/-- The edges before the first of the queue are those that were taken. -/
theorem siblings_popped (h : Inv lock roots popped s) {item : Item} {rest : List Item}
    (hqueue : s.queue = item :: rest) (hnew : item.edge ∉ popped) {child : Nat} {dependent : Str}
    (hmem : (child, dependent) ∈ popped) (hne : item.dependent ≠ [])
    (hinside : item.dependent ∈ enclosing (parentPath dependent)) : False := by
  obtain ⟨before, after, rfl⟩ := List.append_of_mem hmem
  have hitem : (item.index, item.dependent) ∈
      (before ++ (child, dependent) :: after) ++ s.queue.map Item.edge := by
    rw [hqueue]
    simp [Item.edge]
  have hsplit : (before ++ (child, dependent) :: after) ++ s.queue.map Item.edge =
      before ++ (child, dependent) :: (after ++ s.queue.map Item.edge) := by simp
  obtain ⟨index, hplaced, hothers⟩ := (h.ordered before child dependent _ hsplit).1 _ hinside
  rcases (h.owner _ _ hitem).2 with ⟨hroot, _⟩ | ⟨index', hplaced', hrequires⟩
  · exact hne hroot
  · cases h.placed_inj hplaced hplaced'
    exact hnew (List.mem_append_left _ (hothers _ hrequires))

/-- A placement that opens a slot opens one that was free, and no edge that was taken
before finds it. -/
theorem place_opens (h : Inv lock roots popped s) (hregular : lock.Regular)
    (hroots : ∀ root ∈ roots, ∀ root' ∈ roots,
      (lock.entry root).name = (lock.entry root').name → root = root')
    {item : Item} {rest : List Item} (hqueue : s.queue = item :: rest) (hnew : item.edge ∉ popped) :
    (∃ path, (item.index, path) ∈ s.placed ∧
        s.placer.found item.dependent (lock.entry item.index).name =
          some (lock.entry item.index).version ∧
        s.placer.place (lock.entry item.index).name (lock.entry item.index).version
          item.dependent = (path, s.placer)) ∨
      ∃ owner, (owner = [] ∨ owner = item.dependent ∧ lock.Contested (lock.entry item.index).name) ∧
        s.placer.held owner (lock.entry item.index).name = none ∧
        s.placer.place (lock.entry item.index).name (lock.entry item.index).version
            item.dependent =
          (childPath owner (lock.entry item.index).name,
            s.placer.claim (dirOf owner) (lock.entry item.index).name
              (lock.entry item.index).version) ∧
        ∀ child dependent, (child, dependent) ∈ popped ++ [item.edge] →
          (s.placer.claim (dirOf owner) (lock.entry item.index).name
            (lock.entry item.index).version).found dependent (lock.entry child).name =
              some (lock.entry child).version := by
  have hmem : (item.index, item.dependent) ∈ popped ++ s.queue.map Item.edge := by
    rw [hqueue]
    simp [Item.edge]
  have hindexed := (h.owner _ _ hmem).1
  have hplain := hregular.plain _ hindexed
  rcases s.placer.place_cases (lock.entry item.index).name (lock.entry item.index).version
    (h.dependent hmem) with
    ⟨owner, _, hheld, hfound, hplace⟩ | ⟨hfree, hplace⟩ | ⟨other, hother, hfound, hplace⟩
  · -- the slot holds this very entry, since entries differ in name or version
    obtain ⟨index, hplaced, hname, hversion⟩ := h.slots _ _ _ hheld
    cases hregular.unique index item.index (h.nested _ _ hplaced).1 hindexed hname hversion
    exact .inl ⟨_, hplaced, hfound, hplace⟩
  · have hroot : s.placer.held [] (lock.entry item.index).name = none :=
      hfree [] (by simp [lookupDirs])
    refine .inr ⟨[], .inl rfl, hroot, hplace, fun child dependent hchild => ?_⟩
    rcases List.mem_append.mp hchild with hold | hself
    · exact Placer.found_claim_root hroot (h.found child dependent hold)
    · cases List.mem_singleton.mp hself
      exact Placer.found_claim_free hfree
  · have hself : ∀ {child : Nat}, (child, item.dependent) ∈ popped →
        (lock.entry item.index).name ≠ (lock.entry child).name := by
      intro child hchild hname
      have hsame := h.sibling hroots hmem (List.mem_append_left _ hchild) hname
      rw [Item.edge, hsame] at hnew
      exact hnew hchild
    have howned : s.placer.held item.dependent (lock.entry item.index).name = none := by
      cases hheld : s.placer.held item.dependent (lock.entry item.index).name with
      | none => rfl
      | some version =>
        obtain ⟨index, hplaced, hname, _⟩ := h.slots _ _ _ hheld
        obtain ⟨owner, dependent, hpath, hpopped, hown, _⟩ := h.placement _ _ hplaced
        rw [hname] at hpath
        have hsame : owner = item.dependent := by
          rw [← parentPath_childPath hplain owner, ← hpath, parentPath_childPath hplain]
        by_cases hdependent : dependent = item.dependent
        · exact absurd hname.symm (hself (hdependent ▸ hpopped))
        · -- a slot of the root that was opened for a package, before the project's own
          have hrootOwner : owner = [] := hown.resolve_right fun heq =>
            hdependent (heq.1.symm.trans hsame)
          have hitemRoot : item.dependent = [] := hsame.symm.trans hrootOwner
          obtain ⟨before, after, hsplit⟩ := List.append_of_mem hpopped
          have hfront := (h.ordered before index dependent (after ++ s.queue.map Item.edge)
            (by rw [hsplit]; simp)).2 (fun hnil => hdependent (hnil.trans hitemRoot.symm))
          rcases (h.owner _ _ hmem).2 with ⟨_, hin⟩ | ⟨outer, houter, _⟩
          · refine absurd ?_ hnew
            rw [Item.edge, hitemRoot, hsplit]
            exact List.mem_append_left _ (hfront _ hin)
          · exact absurd hitemRoot (h.nested _ _ houter).2.ne_nil
    have hne : item.dependent ≠ [] := by
      intro hnil
      rw [hnil] at hfound howned
      rw [Placer.found_eq, howned] at hfound
      simp at hfound
    have hcontested : lock.Contested (lock.entry item.index).name := by
      obtain ⟨owner, _, hheld⟩ := List.exists_of_findSome?_eq_some hfound
      obtain ⟨index, hplaced, hname, hversion⟩ := h.slots _ _ _ hheld
      exact ⟨index, item.index, (h.nested _ _ hplaced).1, hindexed, hname, rfl,
        fun heq => hother (hversion.symm.trans heq)⟩
    refine .inr ⟨item.dependent, .inr ⟨rfl, hcontested⟩, howned, hplace,
      fun child dependent hchild => ?_⟩
    rcases List.mem_append.mp hchild with hold | hnow
    · rw [Placer.found_claim_of_notMem]
      · exact h.found child dependent hold
      · intro hname hlook
        rcases List.mem_append.mp hlook with hin | hin
        · have hdependent : dependent ≠ [] := by
            rintro rfl
            simp at hin
          rw [enclosing_of_ne_nil hdependent] at hin
          rcases List.mem_cons.mp hin with heq | hinside
          · exact hself (heq ▸ hold) hname
          · exact h.siblings_popped hqueue hnew hold hne hinside
        · exact hne (List.mem_singleton.mp hin)
    · cases List.mem_singleton.mp hnow
      exact Placer.found_claim_self _ _ _ _

/-! ### Steps -/

theorem start {roots : List Item} (hroots : ∀ item ∈ roots, item.dependent = [] ∧ lock.Indexed item.index) :
    Inv lock (roots.map Item.index) [] (Walk.start roots) where
  visited := by simp [Walk.start]
  ordered := by
    intro before child dependent after hsplit
    have hmem : (child, dependent) ∈ roots.map Item.edge := by
      have hall : [] ++ roots.map Item.edge = before ++ (child, dependent) :: after := hsplit
      rw [List.nil_append] at hall
      rw [hall]
      simp
    obtain ⟨item, hitem, heq⟩ := List.mem_map.mp hmem
    obtain ⟨hnil, _⟩ := hroots item hitem
    cases heq
    rw [hnil]
    exact ⟨by simp [parentPath, rsplitOnce], fun h => absurd rfl h⟩
  seeded := by
    intro root hroot
    obtain ⟨item, hitem, rfl⟩ := List.mem_map.mp hroot
    have hedge : item.edge ∈ roots.map Item.edge := List.mem_map_of_mem hitem
    rw [Item.edge, (hroots item hitem).1] at hedge
    exact hedge
  owner := by
    intro child dependent hmem
    obtain ⟨item, hitem, heq⟩ := List.mem_map.mp hmem
    obtain ⟨hnil, hindexed⟩ := hroots item hitem
    cases heq
    exact ⟨hindexed, .inl ⟨hnil, List.mem_map_of_mem hitem⟩⟩
  complete := by simp [Walk.start]
  nested := by simp [Walk.start]
  paths := by simp [Walk.start]
  placement := by simp [Walk.start]
  slots := by simp [Walk.start]
  found := by simp

theorem revisit (h : Inv lock roots popped s) {item : Item} {rest : List Item}
    (hqueue : s.queue = item :: rest) (hold : item.edge ∈ s.visited) :
    Inv lock roots (popped ++ [item.edge]) (Walk.revisit lock item rest s) := by
  have hpopped := (h.visited _).mp hold
  have hedges : popped ++ [item.edge] ++ rest.map Item.edge = popped ++ s.queue.map Item.edge := by
    simp [hqueue]
  have hmem : ∀ edge, edge ∈ popped ++ [item.edge] ↔ edge ∈ popped := by
    intro edge
    rw [List.mem_append, List.mem_singleton]
    exact ⟨fun h => h.elim id fun heq => heq ▸ hpopped, .inl⟩
  refine
    { visited := fun edge => (h.visited edge).trans (hmem edge).symm
      ordered := ?_
      seeded := ?_
      owner := ?_
      complete := ?_
      nested := h.nested
      paths := h.paths
      placement := fun index path hplaced => ?_
      slots := h.slots
      found := fun child dependent hchild => h.found child dependent ((hmem _).mp hchild) }
  · show Ordered lock roots s.placed (popped ++ [item.edge] ++ rest.map Item.edge)
    rw [hedges]
    exact h.ordered
  · show ∀ root ∈ roots, (root, []) ∈ popped ++ [item.edge] ++ rest.map Item.edge
    rw [hedges]
    exact h.seeded
  · show ∀ child dependent, (child, dependent) ∈ popped ++ [item.edge] ++ rest.map Item.edge → _
    rw [hedges]
    exact h.owner
  · show ∀ index path, (index, path) ∈ s.placed → ∀ child, lock.Requires index child →
      (child, path) ∈ popped ++ [item.edge] ++ rest.map Item.edge
    rw [hedges]
    exact h.complete
  · obtain ⟨owner, dependent, hpath, hin, hrest⟩ := h.placement index path hplaced
    exact ⟨owner, dependent, hpath, (hmem _).mpr hin, hrest⟩

/-- The walk goes on from a placement: the children of the package are queued for it. -/
theorem queued (h : Inv lock roots popped s) {item : Item} {rest : List Item} {path : Str}
    {placed : List (Nat × Str)} (hqueue : s.queue = item :: rest) (hsubset : s.placed ⊆ placed)
    (houter : ∀ outer ∈ enclosing (parentPath path), ∃ index, (index, outer) ∈ placed ∧
      ∀ other, lock.Requires index other → (other, outer) ∈ popped ++ s.queue.map Item.edge) :
    Ordered lock roots placed
        (popped ++ [item.edge] ++ (rest ++ Walk.childItems lock item path).map Item.edge) ∧
      ∀ child dependent,
        (child, dependent) ∈
            popped ++ [item.edge] ++ (rest ++ Walk.childItems lock item path).map Item.edge ↔
          (child, dependent) ∈ popped ++ s.queue.map Item.edge ∨
            lock.Requires item.index child ∧ dependent = path := by
  have hedges : popped ++ [item.edge] ++ (rest ++ Walk.childItems lock item path).map Item.edge =
      popped ++ s.queue.map Item.edge ++ (Walk.childItems lock item path).map Item.edge := by
    simp [hqueue]
  have hchildren : ∀ child dependent,
      (child, dependent) ∈ (Walk.childItems lock item path).map Item.edge ↔
        lock.Requires item.index child ∧ dependent = path := by
    intro child dependent
    rw [← mem_children]
    simp only [Walk.childItems, List.map_map, List.mem_map, Function.comp, Item.edge]
    constructor
    · rintro ⟨⟨child', optional⟩, hmem, heq⟩
      cases heq
      exact ⟨⟨optional, hmem⟩, rfl⟩
    · rintro ⟨⟨optional, hmem⟩, rfl⟩
      exact ⟨(child, optional), hmem, rfl⟩
  rw [hedges]
  constructor
  · refine (h.ordered.mono hsubset).append fun edge hedge => ?_
    obtain ⟨_, hpath⟩ := (hchildren edge.1 edge.2).mp hedge
    rw [hpath]
    exact ⟨houter, fun _ => h.seeded⟩
  · intro child dependent
    rw [List.mem_append, hchildren]

/-- The packages around the dependent of an edge have all of their edges in the queue or
taken from it. -/
theorem outer_of_edge (h : Inv lock roots popped s) {child : Nat} {dependent : Str}
    (hmem : (child, dependent) ∈ popped ++ s.queue.map Item.edge) :
    ∀ outer ∈ enclosing dependent, ∃ index, (index, outer) ∈ s.placed ∧
      ∀ other, lock.Requires index other → (other, outer) ∈ popped ++ s.queue.map Item.edge := by
  intro outer houter
  have hne : dependent ≠ [] := by
    rintro rfl
    simp at houter
  rw [enclosing_of_ne_nil hne] at houter
  rcases List.mem_cons.mp houter with rfl | hin
  · rcases (h.owner _ _ hmem).2 with ⟨hnil, _⟩ | ⟨index, hplaced, _⟩
    · exact absurd hnil hne
    · exact ⟨index, hplaced, fun other hother => h.complete index outer hplaced other hother⟩
  · obtain ⟨before, after, hsplit⟩ := List.append_of_mem hmem
    obtain ⟨index, hplaced, hothers⟩ := (h.ordered before child dependent after hsplit).1 outer hin
    refine ⟨index, hplaced, fun other hother => ?_⟩
    rw [hsplit]
    exact List.mem_append_left _ (hothers other hother)

/-- The slot of a placement is taken. -/
theorem held_of_placed (h : Inv lock roots popped s) (hregular : lock.Regular) {index : Nat}
    {owner name : Str} (hname : Plain name) (hplaced : (index, childPath owner name) ∈ s.placed) :
    s.placer.held owner name = some (lock.entry index).version := by
  obtain ⟨owner', _, hpath, _, _, hheld⟩ := h.placement _ _ hplaced
  have hplain := hregular.plain index (h.nested _ _ hplaced).1
  have howner : owner = owner' := by
    rw [← parentPath_childPath hname owner, hpath, parentPath_childPath hplain]
  subst howner
  rw [childPath_inj hpath]
  exact hheld

theorem visit (h : Inv lock roots popped s) (hregular : lock.Regular)
    (hroots : ∀ root ∈ roots, ∀ root' ∈ roots,
      (lock.entry root).name = (lock.entry root').name → root = root')
    {item : Item} {rest : List Item} (hqueue : s.queue = item :: rest) (hnew : item.edge ∉ s.visited) :
    Inv lock roots (popped ++ [item.edge]) (Walk.visit lock item rest s) := by
  have hfresh : item.edge ∉ popped := fun hin => hnew ((h.visited _).mpr hin)
  have hmem : (item.index, item.dependent) ∈ popped ++ s.queue.map Item.edge := by
    rw [hqueue]
    simp [Item.edge]
  have hindexed := (h.owner _ _ hmem).1
  have hvisited : ∀ edge, edge ∈ item.edge :: s.visited ↔ edge ∈ popped ++ [item.edge] := by
    intro edge
    rw [List.mem_cons, List.mem_append, List.mem_singleton, h.visited]
    exact or_comm
  have houter := h.outer_of_edge hmem
  rcases h.place_opens hregular hroots hqueue hfresh with
    ⟨path, hplaced, hfound, hplace⟩ | ⟨owner, howner, hfree, hplace, hfound⟩
  · have hvisit : Walk.visit lock item rest s =
        { queue := rest ++ Walk.childItems lock item path
          visited := item.edge :: s.visited
          reach := (Walk.visit lock item rest s).reach
          placer := s.placer
          placed := s.placed } := by
      have hin : path ∈ s.placed.map Prod.snd := List.mem_map.mpr ⟨_, hplaced, rfl⟩
      simp only [Walk.visit, hplace, hin, if_true]
    obtain ⟨owner, dependent, hpath, hpopped, hown, _⟩ := h.placement _ _ hplaced
    have haround : ∀ outer ∈ enclosing (parentPath path), ∃ index, (index, outer) ∈ s.placed ∧
        ∀ other, lock.Requires index other →
          (other, outer) ∈ popped ++ s.queue.map Item.edge := by
      rw [hpath, parentPath_childPath (hregular.plain _ hindexed)]
      rcases hown with rfl | ⟨rfl, _⟩
      · simp
      · exact h.outer_of_edge (List.mem_append_left _ hpopped)
    obtain ⟨hordered, hedges⟩ := h.queued hqueue (fun _ => id) haround
    rw [hvisit]
    exact
      { visited := hvisited
        ordered := hordered
        seeded := fun root hroot => (hedges _ _).mpr (.inl (h.seeded root hroot))
        owner := by
          intro child dependent hchild
          rcases (hedges _ _).mp hchild with hold | ⟨hrequires, rfl⟩
          · exact h.owner child dependent hold
          · exact ⟨hrequires.indexed, .inr ⟨item.index, hplaced, hrequires⟩⟩
        complete := fun index path hin child hchild =>
          (hedges _ _).mpr (.inl (h.complete index path hin child hchild))
        nested := h.nested
        paths := h.paths
        placement := by
          intro index path hin
          obtain ⟨owner, dependent, hpath, hpopped, hrest⟩ := h.placement index path hin
          exact ⟨owner, dependent, hpath, List.mem_append_left _ hpopped, hrest⟩
        slots := h.slots
        found := by
          intro child dependent hchild
          rcases List.mem_append.mp hchild with hold | hself
          · exact h.found child dependent hold
          · cases List.mem_singleton.mp hself
            exact hfound }
  · have hplain := hregular.plain _ hindexed
    have hunplaced : childPath owner (lock.entry item.index).name ∉ s.placed.map Prod.snd := by
      intro hin
      obtain ⟨⟨index, path⟩, hplaced, rfl⟩ := List.mem_map.mp hin
      rw [h.held_of_placed hregular hplain hplaced] at hfree
      cases hfree
    have hvisit : Walk.visit lock item rest s =
        { queue := rest ++ Walk.childItems lock item (childPath owner (lock.entry item.index).name)
          visited := item.edge :: s.visited
          reach := (Walk.visit lock item rest s).reach
          placer := s.placer.claim (dirOf owner) (lock.entry item.index).name
            (lock.entry item.index).version
          placed := s.placed ++ [(item.index, childPath owner (lock.entry item.index).name)] } := by
      simp only [Walk.visit, hplace, hunplaced, if_false]
    have hself : (item.index, childPath owner (lock.entry item.index).name) ∈
        s.placed ++ [(item.index, childPath owner (lock.entry item.index).name)] := by simp
    have hsubset : s.placed ⊆
        s.placed ++ [(item.index, childPath owner (lock.entry item.index).name)] :=
      List.subset_append_left _ _
    have haround : ∀ outer ∈ enclosing (parentPath (childPath owner (lock.entry item.index).name)),
        ∃ index, (index, outer) ∈
            s.placed ++ [(item.index, childPath owner (lock.entry item.index).name)] ∧
          ∀ other, lock.Requires index other →
            (other, outer) ∈ popped ++ s.queue.map Item.edge := by
      rw [parentPath_childPath hplain]
      rcases howner with rfl | ⟨rfl, _⟩
      · simp
      · intro outer hin
        obtain ⟨index, hplaced, hothers⟩ := houter outer hin
        exact ⟨index, hsubset hplaced, hothers⟩
    obtain ⟨hordered, hedges⟩ := h.queued hqueue hsubset haround
    rw [hvisit]
    exact
      { visited := hvisited
        ordered := hordered
        seeded := fun root hroot => (hedges _ _).mpr (.inl (h.seeded root hroot))
        owner := by
          intro child dependent hchild
          rcases (hedges _ _).mp hchild with hold | ⟨hrequires, rfl⟩
          · obtain ⟨hin, hroot | ⟨index, hplaced, hrequires⟩⟩ := h.owner child dependent hold
            · exact ⟨hin, .inl hroot⟩
            · exact ⟨hin, .inr ⟨index, hsubset hplaced, hrequires⟩⟩
          · exact ⟨hrequires.indexed, .inr ⟨item.index, hself, hrequires⟩⟩
        complete := by
          intro index path hin child hchild
          rcases List.mem_append.mp hin with hold | hnow
          · exact (hedges _ _).mpr (.inl (h.complete index path hold child hchild))
          · cases List.mem_singleton.mp hnow
            exact (hedges _ _).mpr (.inr ⟨hchild, rfl⟩)
        nested := by
          intro index path hin
          rcases List.mem_append.mp hin with hold | hnow
          · exact h.nested index path hold
          · cases List.mem_singleton.mp hnow
            refine ⟨hindexed, ?_⟩
            rcases howner with rfl | ⟨rfl, _⟩
            · exact .top hplain
            · exact (h.dependent hmem).child hplain
        paths := by
          rw [List.map_append]
          exact h.paths.append (by simp) (by simpa using hunplaced)
        placement := by
          intro index path hin
          rcases List.mem_append.mp hin with hold | hnow
          · obtain ⟨owner', dependent, hpath, hpopped, hown, hheld⟩ := h.placement index path hold
            refine ⟨owner', dependent, hpath, List.mem_append_left _ hpopped, hown, ?_⟩
            rw [Placer.held_claim, if_neg, hheld]
            rintro ⟨rfl, hname⟩
            rw [hname, hheld] at hfree
            cases hfree
          · cases List.mem_singleton.mp hnow
            refine ⟨owner, item.dependent, rfl, by simp [Item.edge], howner, ?_⟩
            rw [Placer.held_claim, if_pos ⟨rfl, rfl⟩]
        slots := by
          intro owner' name version hheld
          rw [Placer.held_claim] at hheld
          split at hheld
          · rename_i heq
            obtain ⟨rfl, rfl⟩ := heq
            cases hheld
            exact ⟨item.index, hself, rfl, rfl⟩
          · obtain ⟨index, hplaced, hrest⟩ := h.slots owner' name version hheld
            exact ⟨index, hsubset hplaced, hrest⟩
        found := hfound }

theorem step (h : Inv lock roots popped s) (hregular : lock.Regular)
    (hroots : ∀ root ∈ roots, ∀ root' ∈ roots,
      (lock.entry root).name = (lock.entry root').name → root = root') :
    ∃ popped', Inv lock roots popped' (Walk.step lock s) := by
  unfold Walk.step
  cases hqueue : s.queue with
  | nil => exact ⟨popped, h⟩
  | cons item rest =>
    by_cases hold : item.edge ∈ s.visited
    · simp only [hold, if_true]
      exact ⟨_, h.revisit hqueue hold⟩
    · simp only [hold, if_false]
      exact ⟨_, h.visit hregular hroots hqueue hold⟩

end Inv

/-- What every step keeps holds when the queue is empty. -/
theorem Walk.run_invariant {lock : Lock} {I : Walk → Prop} (hstep : ∀ s, I s → I (Walk.step lock s))
    {fuel : Nat} {s walk : Walk} (hs : I s) (h : Walk.run lock fuel s = some walk) :
    I walk ∧ walk.queue = [] := by
  induction fuel generalizing s with
  | zero =>
    unfold Walk.run at h
    split at h
    · rename_i hempty
      cases h
      exact ⟨hs, List.isEmpty_iff.mp hempty⟩
    · cases h
  | succ fuel ih =>
    unfold Walk.run at h
    split at h
    · rename_i hempty
      cases h
      exact ⟨hs, List.isEmpty_iff.mp hempty⟩
    · exact ih (hstep s hs) h

/-! ## The seeds -/

theorem mem_seeds {lock : Lock} {manifest : PackageManifest} {index : Nat} :
    index ∈ (seeds lock manifest).map Item.index ↔
      ∃ range, (rootDependencies manifest)[(lock.entry index).name]? = some range ∧
        lock.resolve (lock.entry index).name range = some index := by
  constructor
  · intro h
    obtain ⟨item, hitem, rfl⟩ := List.mem_map.mp h
    obtain ⟨⟨name, range⟩, hmem, hseed⟩ := List.mem_filterMap.mp hitem
    obtain ⟨index, hresolve, rfl⟩ := Option.map_eq_some_iff.mp hseed
    obtain ⟨_, rfl⟩ := Lock.resolve_spec hresolve
    exact ⟨range, Map.mem_toList.mp hmem, hresolve⟩
  · rintro ⟨range, hget, hresolve⟩
    refine List.mem_map.mpr ⟨⟨index, [], seedKind manifest (lock.entry index).name⟩, ?_, rfl⟩
    refine List.mem_filterMap.mpr ⟨((lock.entry index).name, range), Map.mem_toList.mpr hget, ?_⟩
    simp only [hresolve, Option.map_some]

theorem seeds_indexed {lock : Lock} {manifest : PackageManifest} {item : Item}
    (h : item ∈ seeds lock manifest) : item.dependent = [] ∧ lock.Indexed item.index := by
  obtain ⟨⟨name, range⟩, _, hseed⟩ := List.mem_filterMap.mp h
  obtain ⟨index, hresolve, rfl⟩ := Option.map_eq_some_iff.mp hseed
  exact ⟨rfl, (Lock.resolve_spec hresolve).1⟩

theorem seeds_inj {lock : Lock} {manifest : PackageManifest} {root root' : Nat}
    (h : root ∈ (seeds lock manifest).map Item.index)
    (h' : root' ∈ (seeds lock manifest).map Item.index)
    (hname : (lock.entry root).name = (lock.entry root').name) : root = root' := by
  obtain ⟨range, hget, hresolve⟩ := mem_seeds.mp h
  obtain ⟨range', hget', hresolve'⟩ := mem_seeds.mp h'
  rw [hname] at hget hresolve
  cases hget.symm.trans hget'
  exact Option.some.inj (hresolve.symm.trans hresolve')

/-- A finished walk has the invariant, with every edge taken. -/
theorem finished {lock : Lock} (hregular : lock.Regular) {manifest : PackageManifest} {fuel : Nat}
    {walk : Walk} (h : Walk.run lock fuel (Walk.start (seeds lock manifest)) = some walk) :
    ∃ popped, Inv lock ((seeds lock manifest).map Item.index) popped walk ∧ walk.queue = [] := by
  have hstep : ∀ s, (∃ popped, Inv lock ((seeds lock manifest).map Item.index) popped s) →
      ∃ popped, Inv lock ((seeds lock manifest).map Item.index) popped (Walk.step lock s) :=
    fun s ⟨popped, hs⟩ => hs.step hregular fun _ hroot _ hroot' => seeds_inj hroot hroot'
  obtain ⟨⟨popped, hinv⟩, hqueue⟩ :=
    Walk.run_invariant hstep ⟨[], Inv.start fun _ => seeds_indexed⟩ h
  exact ⟨popped, hinv, hqueue⟩

/-! ## The lockfile -/

section Lockfile

variable {lock : Lock} {manifest : PackageManifest} {walk : Walk}

end Lockfile

namespace Lock

/-- An entry that requires others, all with names and versions of one character. -/
def release (name version : Char) (requires : List (Char × Char)) : YarnEntry :=
  { YarnEntry.default with
    specs := [[name, '@', version]]
    name := [name]
    version := [version]
    resolved := [name, version]
    dependencies := Std.ExtTreeMap.ofList (requires.map fun (name, range) => ([name], [range])) }

end Lock

end YarnLock
end Bpm
