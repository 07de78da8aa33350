import Bpm.Lib.Text

/-!
# File trees with symbolic links

A location is the list of names from an object up to the root of the file system.
Looking up a path walks over its components and follows the links on the way, as
the operating system does.  A path that, read as it is written, neither steps
above a directory nor steps back after the name of a link stays below that
directory, whatever the links on the way, when all of these do the same.
-/

namespace Bpm
namespace FileTree

open Text

/-- The parts of a path, as `Path::components` lists them. -/
inductive Component
  | rootDir | curDir | parentDir
  | normal (name : Str)
deriving DecidableEq

/-- Empty segments and `.` vanish, except for a `.` that begins the path. -/
def segment (s : Str) : Option Component :=
  if s = [] ∨ s = ['.'] then none
  else if s = ['.', '.'] then some .parentDir
  else some (.normal s)

def components (path : Str) : List Component :=
  match path.splitOn '/' with
  | [] => []
  | first :: rest =>
      (if first = [] then if rest = [] then [] else [.rootDir]
        else if first = ['.'] then [.curDir] else (segment first).toList) ++
        rest.filterMap segment

/-- A path whose segments all are components. -/
theorem components_of_segments {path : Str} {f : Str → Component}
    (h : ∀ part ∈ path.splitOn '/', segment part = some (f part)) :
    components path = (path.splitOn '/').map f := by
  unfold components
  cases hparts : path.splitOn '/' with
  | nil => exact absurd hparts (List.splitOn_ne_nil _ _)
  | cons first rest =>
    rw [hparts] at h
    have hfirst := h first List.mem_cons_self
    have hne : ¬(first = [] ∨ first = ['.']) := by
      intro hor
      unfold segment at hfirst
      rw [if_pos hor] at hfirst
      cases hfirst
    have hrest : rest.filterMap segment = rest.map f := by
      rw [← List.filterMap_eq_map']
      exact List.filterMap_congr fun part hpart => h part (List.mem_cons_of_mem first hpart)
    dsimp only
    rw [if_neg fun heq => hne (Or.inl heq), if_neg fun heq => hne (Or.inr heq), hfirst, hrest]
    rfl

/-- A name in a path is one of its segments. -/
theorem mem_splitOn_of_components {path name : Str} (h : .normal name ∈ components path) :
    name ∈ path.splitOn '/' := by
  have hsegment : ∀ {part}, segment part = some (.normal name) → part = name := by
    intro part hpart
    unfold segment at hpart
    split at hpart
    · cases hpart
    · split at hpart
      · cases hpart
      · cases hpart
        rfl
  unfold components at h
  cases hparts : path.splitOn '/' with
  | nil => exact absurd hparts (List.splitOn_ne_nil _ _)
  | cons first rest =>
    rw [hparts] at h
    rcases List.mem_append.mp h with hfirst | hrest
    · have hname : segment first = some (.normal name) := by
        split at hfirst
        · split at hfirst <;> simp at hfirst
        · split at hfirst
          · simp at hfirst
          · exact Option.mem_toList.mp hfirst
      exact hsegment hname ▸ List.mem_cons_self
    · obtain ⟨part, hpart, hname⟩ := List.mem_filterMap.mp hrest
      exact hsegment hname ▸ List.mem_cons_of_mem first hpart

/-- The names from an object up to the root. -/
abbrev Loc := List Str

inductive Node
  | dir (mode : Nat)
  | file (mode : Nat)
  | link (target : Str)
deriving DecidableEq

abbrev Tree := Loc → Option Node

inductive Outcome
  | found (loc : Loc)
  | missing (loc : Loc) (name : Str) (rest : List Component)
  | notDirectory (loc : Loc)
  | tooManyLinks
deriving DecidableEq

/-- Walk up to the first link, and on as `follow` says. -/
def walkWith (follow : Loc → List Component → Outcome) (tree : Tree) :
    Loc → List Component → Outcome
  | loc, [] => .found loc
  | _, .rootDir :: rest => walkWith follow tree [] rest
  | loc, .curDir :: rest => walkWith follow tree loc rest
  | loc, .parentDir :: rest => walkWith follow tree loc.tail rest
  | loc, .normal name :: rest =>
      match tree (name :: loc) with
      | none => .missing loc name rest
      | some (.dir _) => walkWith follow tree (name :: loc) rest
      | some (.file _) =>
          if rest.isEmpty then .found (name :: loc) else .notDirectory (name :: loc)
      | some (.link target) => follow loc (components target ++ rest)

/-- Look up a path from a directory, over at most as many links as `fuel` says. -/
def walk (tree : Tree) : Nat → Loc → List Component → Outcome
  | 0 => walkWith (fun _ _ => .tooManyLinks) tree
  | fuel + 1 => walkWith (walk tree fuel) tree

/-- What a lookup comes upon lies below `root`; one that runs into too many links comes
upon nothing. -/
def Outcome.Inside (root : Loc) : Outcome → Prop
  | found loc | missing loc _ _ | notDirectory loc => root <:+ loc
  | tooManyLinks => True

/-- Components that only go down. -/
def Descends (path : List Component) : Prop := .rootDir ∉ path ∧ .parentDir ∉ path

/-- Read as it is written, the path neither steps above `root` nor back after a link. -/
def Stays (root : Loc) (isLink : Loc → Prop) : Loc → List Component → Prop
  | _, [] => True
  | _, .rootDir :: _ => False
  | loc, .curDir :: rest => Stays root isLink loc rest
  | loc, .parentDir :: rest => loc ≠ root ∧ Stays root isLink loc.tail rest
  | loc, .normal name :: rest =>
      (isLink (name :: loc) → Descends rest) ∧ Stays root isLink (name :: loc) rest

section Lookup

variable {root : Loc} {isLink : Loc → Prop}

theorem Descends.tail {c : Component} {path : List Component} (h : Descends (c :: path)) :
    Descends path :=
  ⟨fun hmem => h.1 (List.mem_cons_of_mem c hmem), fun hmem => h.2 (List.mem_cons_of_mem c hmem)⟩

theorem Descends.append {path rest : List Component} (h : Descends path) (hrest : Descends rest) :
    Descends (path ++ rest) := by
  constructor <;> rw [List.mem_append, not_or]
  · exact ⟨h.1, hrest.1⟩
  · exact ⟨h.2, hrest.2⟩

theorem Descends.stays {path : List Component} (h : Descends path) (loc : Loc) :
    Stays root isLink loc path := by
  induction path generalizing loc with
  | nil => trivial
  | cons c rest ih =>
    cases c with
    | rootDir => exact absurd List.mem_cons_self h.1
    | parentDir => exact absurd List.mem_cons_self h.2
    | curDir => exact ih h.tail loc
    | normal name => exact ⟨fun _ => h.tail, ih h.tail (name :: loc)⟩

theorem Stays.append {path rest : List Component} {loc : Loc} (h : Stays root isLink loc path)
    (hrest : Descends rest) : Stays root isLink loc (path ++ rest) := by
  induction path generalizing loc with
  | nil => exact hrest.stays loc
  | cons c path ih =>
    cases c with
    | rootDir => exact h
    | curDir => exact ih h
    | parentDir => exact ⟨h.1, ih h.2⟩
    | normal name => exact ⟨fun hlink => (h.1 hlink).append hrest, ih h.2⟩

theorem suffix_tail {loc : Loc} (h : root <:+ loc) (hne : loc ≠ root) : root <:+ loc.tail := by
  cases loc with
  | nil => exact absurd (List.suffix_nil.mp h).symm hne
  | cons name loc =>
    rcases List.suffix_cons_iff.mp h with heq | hsuffix
    · exact absurd heq.symm hne
    · exact hsuffix

/-- The links below `root` are known, and read as they are written they stay below it. -/
def Tame (tree : Tree) (root : Loc) (isLink : Loc → Prop) : Prop :=
  ∀ name loc target, root <:+ loc → tree (name :: loc) = some (.link target) →
    isLink (name :: loc) ∧ Stays root isLink loc (components target)

/-- Up to the first link the walk is the path as it is written; after it only names are
left, behind a target that stays below `root`. -/
theorem walkWith_inside {tree : Tree} (htame : Tame tree root isLink)
    {follow : Loc → List Component → Outcome}
    (hfollow : ∀ loc path, root <:+ loc → Stays root isLink loc path →
      (follow loc path).Inside root)
    {loc : Loc} {path : List Component} (hloc : root <:+ loc) (h : Stays root isLink loc path) :
    (walkWith follow tree loc path).Inside root := by
  induction path generalizing loc with
  | nil => exact hloc
  | cons c rest ih =>
    cases c with
    | rootDir => exact absurd h id
    | curDir => exact ih hloc h
    | parentDir => exact ih (suffix_tail hloc h.1) h.2
    | normal name =>
      have hchild : root <:+ name :: loc := hloc.trans (List.suffix_cons name loc)
      rw [walkWith]
      split
      · exact hloc
      · exact ih hchild h.2
      · split <;> exact hchild
      · rename_i target hnode
        obtain ⟨hlink, hstays⟩ := htame name loc target hloc hnode
        exact hfollow loc _ hloc (hstays.append (h.1 hlink))

/-- A path that stays below `root` as it is written stays there. -/
theorem walk_inside {tree : Tree} (htame : Tame tree root isLink) (fuel : Nat) {loc : Loc}
    {path : List Component} (hloc : root <:+ loc) (h : Stays root isLink loc path) :
    (walk tree fuel loc path).Inside root := by
  induction fuel generalizing loc path with
  | zero =>
    rw [walk]
    refine walkWith_inside htame ?_ hloc h
    intro _ _ _ _
    trivial
  | succ fuel ih => exact walkWith_inside htame (fun _ _ => ih) hloc h

/-- Without links on the way, what is found at a path of names is what they say. -/
theorem walkWith_names {tree : Tree} {follow : Loc → List Component → Outcome} {names : List Str}
    {loc found : Loc}
    (hfree : ∀ first, first ≠ [] → first <+: names →
      ∀ target, tree (first.reverse ++ loc) ≠ some (.link target))
    (h : walkWith follow tree loc (names.map .normal) = .found found) :
    found = names.reverse ++ loc := by
  induction names generalizing loc with
  | nil =>
    cases h
    rfl
  | cons name names ih =>
    have hnone := hfree [name] nofun (List.prefix_cons_inj name |>.mpr (List.nil_prefix))
    rw [List.map_cons, walkWith] at h
    rw [List.reverse_cons, List.append_assoc, List.singleton_append]
    split at h
    · cases h
    · refine ih ?_ h
      intro first hne hprefix target
      have hlink := hfree (name :: first) nofun ((List.prefix_cons_inj name).mpr hprefix) target
      simpa using hlink
    · split at h
      · rename_i hempty
        cases h
        rw [List.map_eq_nil_iff.mp (List.isEmpty_iff.mp hempty)]
        rfl
      · cases h
    · rename_i target hnode
      exact absurd hnode (hnone target)

theorem walk_names {tree : Tree} {fuel : Nat} {names : List Str} {loc found : Loc}
    (hfree : ∀ first, first ≠ [] → first <+: names →
      ∀ target, tree (first.reverse ++ loc) ≠ some (.link target))
    (h : walk tree fuel loc (names.map .normal) = .found found) :
    found = names.reverse ++ loc := by
  cases fuel with
  | zero => exact walkWith_names hfree h
  | succ fuel => exact walkWith_names hfree h

/-- Without links on the way, a name that is missing at the end of a path is the last one. -/
theorem walkWith_missing {tree : Tree} {follow : Loc → List Component → Outcome}
    {names : List Str} {loc parent : Loc} {name : Str}
    (hfree : ∀ first, first ≠ [] → first <+: names →
      ∀ target, tree (first.reverse ++ loc) ≠ some (.link target))
    (h : walkWith follow tree loc (names.map .normal) = .missing parent name []) :
    name :: parent = names.reverse ++ loc := by
  induction names generalizing loc with
  | nil => cases h
  | cons first names ih =>
    have hnone := hfree [first] nofun (List.prefix_cons_inj first |>.mpr (List.nil_prefix))
    rw [List.map_cons, walkWith] at h
    rw [List.reverse_cons, List.append_assoc, List.singleton_append]
    split at h
    · injection h with hloc hname hrest
      rw [List.map_eq_nil_iff.mp hrest, hloc, hname]
      rfl
    · refine ih ?_ h
      intro front hne hprefix target
      have hlink := hfree (first :: front) nofun ((List.prefix_cons_inj first).mpr hprefix) target
      simpa using hlink
    · split at h <;> cases h
    · rename_i target hnode
      exact absurd hnode (hnone target)

theorem walk_missing {tree : Tree} {fuel : Nat} {names : List Str} {loc parent : Loc} {name : Str}
    (hfree : ∀ first, first ≠ [] → first <+: names →
      ∀ target, tree (first.reverse ++ loc) ≠ some (.link target))
    (h : walk tree fuel loc (names.map .normal) = .missing parent name []) :
    name :: parent = names.reverse ++ loc := by
  cases fuel with
  | zero => exact walkWith_missing hfree h
  | succ fuel => exact walkWith_missing hfree h

/-- Along directories a path of names leads where they say. -/
theorem walkWith_dirs {tree : Tree} {follow : Loc → List Component → Outcome} {names : List Str}
    {loc : Loc}
    (hdirs : ∀ first, first ≠ [] → first <+: names →
      ∃ mode, tree (first.reverse ++ loc) = some (.dir mode)) :
    walkWith follow tree loc (names.map .normal) = .found (names.reverse ++ loc) := by
  induction names generalizing loc with
  | nil => rfl
  | cons name names ih =>
    obtain ⟨mode, hdir⟩ := hdirs [name] nofun (List.prefix_cons_inj name |>.mpr (List.nil_prefix))
    rw [List.map_cons, walkWith, show tree (name :: loc) = some (.dir mode) from hdir]
    rw [List.reverse_cons, List.append_assoc, List.singleton_append]
    refine ih ?_
    intro first hne hprefix
    have hfirst := hdirs (name :: first) nofun ((List.prefix_cons_inj name).mpr hprefix)
    simpa using hfirst

theorem walk_dirs {tree : Tree} {fuel : Nat} {names : List Str} {loc : Loc}
    (hdirs : ∀ first, first ≠ [] → first <+: names →
      ∃ mode, tree (first.reverse ++ loc) = some (.dir mode)) :
    walk tree fuel loc (names.map .normal) = .found (names.reverse ++ loc) := by
  cases fuel with
  | zero => exact walkWith_dirs hdirs
  | succ fuel => exact walkWith_dirs hdirs

theorem descends_names (names : List Str) : Descends (names.map .normal) := by
  constructor <;> simp

end Lookup

end FileTree
end Bpm
