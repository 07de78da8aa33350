import Bpm.Install.Staging

/-!
# The packages around a package

The stager reads the packages around a placement off its path.  For paths that lead from
the root `node_modules` it finds all of them.
-/

namespace Bpm

open Text FileTree

/-- Where a placement path leads below a directory, innermost part first. -/
def placeOf (path : Str) : Loc := (path.splitOn '/').reverse

/-- A package path that leads from the root `node_modules` from name to name. -/
def Rooted (path : Str) : Prop :=
  accepts path = true ∧ ∃ names : List (List Str), (∀ name ∈ names, PackageName name) ∧
    path.splitOn '/' = names.flatMap (nodeModules :: ·)

theorem placeOf_ne_nil (path : Str) : placeOf path ≠ [] := fun h =>
  List.splitOn_ne_nil _ _ (List.reverse_eq_nil_iff.mp h)

theorem placeOf_inj {path path' : Str} (h : placeOf path = placeOf path') : path = path' :=
  splitOn_inj (List.reverse_injective h)

theorem placeOf_suffix {path path' : Str} :
    placeOf path <:+ placeOf path' ↔ path.splitOn '/' <+: path'.splitOn '/' := by
  unfold placeOf
  rw [List.reverse_suffix]

theorem Rooted.parts_ne_nil {path : Str} (h : Rooted path) :
    ∀ part ∈ path.splitOn '/', part ≠ [] := by
  rintro part hpart rfl
  have hsafe := (isNormalizedRelative_iff.mp (accepts_iff.mp h.1).1).1 [] hpart
  exact absurd hsafe.1 (by decide)

theorem Rooted.filter_parts {path : Str} (h : Rooted path) :
    (path.splitOn '/').filter (fun part => !part.isEmpty) = path.splitOn '/' := by
  rw [List.filter_eq_self]
  intro part hpart
  simpa using h.parts_ne_nil part hpart

/-! ## Names one after the other -/

/-- Behind a boundary the next name decides where the following one is. -/
theorem names_of_prefix {names names' : List (List Str)} (h : ∀ name ∈ names, PackageName name)
    (h' : ∀ name ∈ names', PackageName name)
    (hparts : names.flatMap (nodeModules :: ·) <+: names'.flatMap (nodeModules :: ·)) :
    names <+: names' := by
  induction names generalizing names' with
  | nil => exact List.nil_prefix
  | cons name names ih =>
    cases names' with
    | nil => simp at hparts
    | cons name' names' =>
      have hname := h name List.mem_cons_self
      have hname' := h' name' List.mem_cons_self
      have hrest : names.flatMap (nodeModules :: ·) <+: names'.flatMap (nodeModules :: ·) →
          names <+: names' :=
        ih (fun n hn => h n (List.mem_cons_of_mem _ hn))
          (fun n hn => h' n (List.mem_cons_of_mem _ hn))
      simp only [List.flatMap_cons, List.cons_append, List.cons_prefix_cons, true_and] at hparts
      cases hname with
      | plain a ha =>
        cases hname' with
        | plain b hb =>
          simp only [List.cons_append, List.nil_append, List.cons_prefix_cons] at hparts
          exact List.cons_prefix_cons.mpr ⟨congrArg (fun n => [n]) hparts.1, hrest hparts.2⟩
        | inScope s b hs =>
          simp only [List.cons_append, List.nil_append, List.cons_prefix_cons] at hparts
          exact absurd (hparts.1 ▸ hs) ha
      | inScope s a hs =>
        cases hname' with
        | plain b hb =>
          simp only [List.cons_append, List.nil_append, List.cons_prefix_cons] at hparts
          exact absurd (hparts.1 ▸ hs) hb
        | inScope s' b hs' =>
          simp only [List.cons_append, List.nil_append, List.cons_prefix_cons] at hparts
          obtain ⟨rfl, rfl, hparts⟩ := hparts
          exact List.cons_prefix_cons.mpr ⟨rfl, hrest hparts⟩

/-- One name more, with something behind it. -/
theorem ancestorsFrom_name {name rest before : List Str} (hname : PackageName name)
    (hrest : rest ≠ []) :
    ancestorsFrom before (nodeModules :: name ++ rest) =
      join ['/'] (before ++ nodeModules :: name) ::
        ancestorsFrom (before ++ nodeModules :: name) rest := by
  obtain ⟨next, rest, rfl⟩ := List.exists_cons_of_ne_nil hrest
  cases hname with
  | plain a ha =>
    show ancestorsFrom before (nodeModules :: a :: next :: rest) = _
    cases rest with
    | nil => simp [ancestorsFrom, ha]
    | cons last rest => simp [ancestorsFrom, ha]
  | inScope s a hs =>
    show ancestorsFrom before (nodeModules :: s :: a :: next :: rest) = _
    rw [ancestorsFrom, if_neg (not_not.mpr rfl), if_pos hs]

theorem mem_ancestorsFrom_names {pre post : List (List Str)} (before : List Str)
    (hpre : pre ≠ []) (hpost : post ≠ []) (h : ∀ name ∈ pre, PackageName name) :
    join ['/'] (before ++ pre.flatMap (nodeModules :: ·)) ∈
      ancestorsFrom before ((pre ++ post).flatMap (nodeModules :: ·)) := by
  induction pre generalizing before with
  | nil => exact absurd rfl hpre
  | cons name pre ih =>
    have hname := h name List.mem_cons_self
    have hrest : (pre ++ post).flatMap (nodeModules :: ·) ≠ [] := by
      cases pre with
      | cons n pre => simp
      | nil =>
        obtain ⟨n, post, rfl⟩ := List.exists_cons_of_ne_nil hpost
        simp
    rw [List.cons_append, List.flatMap_cons, ancestorsFrom_name hname hrest]
    by_cases hnil : pre = []
    · subst hnil
      simp
    · have hin := ih (before ++ nodeModules :: name) hnil
        fun n hn => h n (List.mem_cons_of_mem _ hn)
      apply List.mem_cons_of_mem
      simpa using hin

/-- Every rooted package around a rooted package is found. -/
theorem Rooted.mem_ancestors {path path' : Str} (h : Rooted path) (h' : Rooted path')
    (haround : placeOf path <:+ placeOf path') (hne : path ≠ path') :
    path ∈ ancestorPackagePaths path' := by
  have hfilter := h'.filter_parts
  obtain ⟨_, names, hnames, hparts⟩ := h
  obtain ⟨_, names', hnames', hparts'⟩ := h'
  have hprefix := placeOf_suffix.mp haround
  rw [hparts, hparts'] at hprefix
  obtain ⟨post, rfl⟩ := names_of_prefix hnames hnames' hprefix
  have hpath : join ['/'] (path.splitOn '/') = path := List.intercalate_splitOn '/'
  have hpre : names ≠ [] := by
    rintro rfl
    exact List.splitOn_ne_nil '/' path hparts
  have hpost : post ≠ [] := by
    rintro rfl
    rw [List.append_nil] at hparts'
    exact hne (splitOn_inj (hparts.trans hparts'.symm))
  have hmem := mem_ancestorsFrom_names [] hpre hpost hnames
  unfold ancestorPackagePaths
  rw [hfilter, hparts']
  rwa [List.nil_append, ← hparts, hpath] at hmem

/-! ## What is found lies around the path -/

theorem of_mem_ancestorsFrom {before parts : List Str} {path : Str}
    (h : path ∈ ancestorsFrom before parts) :
    ∃ pre post, parts = pre ++ post ∧ pre ≠ [] ∧ post ≠ [] ∧ path = join ['/'] (before ++ pre) := by
  fun_induction ancestorsFrom before parts with
  | case1 => simp at h
  | case2 before first name hfirst hscope inner next rest ih =>
    rcases List.mem_cons.mp h with rfl | h
    · exact ⟨[first, name, inner], next :: rest, rfl, by simp, by simp, rfl⟩
    · obtain ⟨pre, post, hparts, _, hpost, rfl⟩ := ih h
      exact ⟨first :: name :: inner :: pre, post, by rw [hparts]; rfl, by simp, hpost, by simp⟩
  | case3 => simp at h
  | case4 before first name hfirst hscope next rest ih =>
    rcases List.mem_cons.mp h with rfl | h
    · exact ⟨[first, name], next :: rest, rfl, by simp, by simp, rfl⟩
    · obtain ⟨pre, post, hparts, _, hpost, rfl⟩ := ih h
      exact ⟨first :: name :: pre, post, by rw [hparts]; rfl, by simp, hpost, by simp⟩
  | case5 => simp at h
  | case6 => simp at h

theorem Rooted.place_of_mem {path path' : Str} (h : Rooted path')
    (hmem : path ∈ ancestorPackagePaths path') :
    placeOf path <:+ placeOf path' ∧ (placeOf path).length < (placeOf path').length := by
  unfold ancestorPackagePaths at hmem
  rw [h.filter_parts] at hmem
  obtain ⟨pre, post, hparts, hpre, hpost, rfl⟩ := of_mem_ancestorsFrom hmem
  have hslash : ∀ part ∈ pre, '/' ∉ part := by
    intro part hpart
    have hsafe := (isNormalizedRelative_iff.mp (accepts_iff.mp h.1).1).1 part
      (hparts ▸ List.mem_append_left _ hpart)
    exact hsafe.2.1
  have hsplit : (join ['/'] pre).splitOn '/' = pre := List.splitOn_intercalate '/' hslash hpre
  have hlen := List.length_pos_iff.mpr hpost
  rw [List.nil_append]
  constructor
  · rw [placeOf_suffix, hsplit, hparts]
    exact List.prefix_append pre post
  · unfold placeOf
    rw [hsplit, hparts]
    simp only [List.length_reverse, List.length_append]
    omega

end Bpm
