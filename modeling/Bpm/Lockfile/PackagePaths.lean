import Bpm.Lib.FileTree
import Bpm.Lockfile.PathSafety

/-!
# The package paths that are accepted

A package path is a safe path that ends with `node_modules/` and a name, plain or scoped.
The check asks for a normalized path with a name after some `node_modules`, and not for
what follows that name.  An accepted path stays below its root, and different ones denote
different directories.
-/

namespace Bpm

open Text FileTree

/-! ## The parts of a path -/

/-- Different paths have different parts. -/
theorem splitOn_inj {s t : Str} (h : s.splitOn '/' = t.splitOn '/') : s = t := by
  calc s = ['/'].intercalate (s.splitOn '/') := (List.intercalate_splitOn '/').symm
    _ = ['/'].intercalate (t.splitOn '/') := by rw [h]
    _ = t := List.intercalate_splitOn '/'

/-! ## The language -/

/-- A plain component of a path. -/
def SafeComponent (part : Str) : Prop :=
  isValidComponent part = true ∧ '/' ∉ part ∧ '\\' ∉ part

/-- A package name is one component, or two of which the first is a scope. -/
inductive PackageName : List Str → Prop
  | plain (name : Str) (h : name.head? ≠ some '@') : PackageName [name]
  | inScope (scope name : Str) (h : scope.head? = some '@') : PackageName [scope, name]

def nodeModules : Str := lit "node_modules"

/-- Safe components, then one or more names behind `node_modules`. -/
def PackagePath (path : Str) : Prop :=
  ∃ (before : List Str) (names : List (List Str)), names ≠ [] ∧
    (∀ part ∈ before, SafeComponent part) ∧
    (∀ name ∈ names, PackageName name ∧ ∀ part ∈ name, SafeComponent part) ∧
    path = join ['/'] (before ++ names.flatMap (nodeModules :: ·)) ∧ hasDrivePrefix path = false

/-- The parts, last one first, begin with a name and `node_modules`. -/
def endsWithName : List Str → Bool
  | name :: parent :: rest =>
      (parent == nodeModules && name.head? != some '@') ||
        (parent.head? == some '@' && rest.head? == some nodeModules)
  | _ => false

def accepts (path : Str) : Bool := (validatePackagePath path).isOk

theorem accepts_iff {path : Str} : accepts path = true ↔
    isNormalizedRelative path = true ∧ hasModulesSegment (path.splitOn '/') = true := by
  unfold accepts validatePackagePath
  cases path with
  | nil => simp [Except.isOk, Except.toBool, isNormalizedRelative]
  | cons c path =>
    simp only [List.isEmpty_cons, Bool.false_eq_true, if_false]
    cases isNormalizedRelative (c :: path) with
    | false => simp [Except.isOk, Except.toBool]
    | true =>
      cases hasModulesSegment ((c :: path).splitOn '/') with
      | false => simp [Except.isOk, Except.toBool]
      | true => simp [Except.isOk, Except.toBool]

theorem isNormalizedRelative_iff {path : Str} : isNormalizedRelative path = true ↔
    (∀ part ∈ path.splitOn '/', SafeComponent part) ∧ hasDrivePrefix path = false := by
  have hvalid : ∀ {part : Str}, isValidComponent part = true → part ≠ [] := by
    rintro _ h rfl
    cases h
  unfold isNormalizedRelative
  constructor
  · intro h
    split at h
    · cases h
    · split at h
      · cases h
      · rename_i hdrive
        split at h
        · cases h
        · rename_i hback
          rw [List.all_eq_true] at h
          refine ⟨fun part hpart => ⟨h part hpart, (mem_splitOn hpart).1, fun hmem => ?_⟩, ?_⟩
          · exact hback (List.contains_iff_mem.mpr ((mem_splitOn hpart).2 hmem))
          · simpa using hdrive
  · intro ⟨hparts, hdrive⟩
    -- an empty path and one that begins with a slash have an empty part
    have hempty : [] ∉ path.splitOn '/' := fun hmem => hvalid (hparts [] hmem).1 rfl
    have hback : '\\' ∉ path := by
      intro hmem
      obtain ⟨part, hpart, hin⟩ := exists_mem_splitOnP (p := (· == '/')) hmem (by decide)
      exact (hparts part hpart).2.2 hin
    have hstart : (path.isEmpty || path.head? == some '/' || path.head? == some '\\') = false := by
      cases path with
      | nil => exact absurd (by simp [List.splitOn_nil]) hempty
      | cons c rest =>
        have hslash : c ≠ '/' := by
          rintro rfl
          refine hempty ?_
          rw [List.splitOn_cons_eq_if_modifyHead, if_pos (by decide)]
          exact List.mem_cons_self
        have hback' : c ≠ '\\' := fun heq => hback (heq ▸ List.mem_cons_self)
        simp [hslash, hback']
    rw [hstart, hdrive, if_neg (by simp), if_neg (by simp), if_neg]
    · exact List.all_eq_true.mpr fun part hpart => (hparts part hpart).1
    · exact fun hcontains => hback (List.contains_iff_mem.mp hcontains)

theorem hasModulesSegment_of_mem {before rest : List Str} {name : Str}
    (hname : isValidComponent name = true) :
    hasModulesSegment (before ++ nodeModules :: name :: rest) = true := by
  induction before with
  | nil => simp [hasModulesSegment, nodeModules, hname]
  | cons part before ih =>
    cases hlist : before ++ nodeModules :: name :: rest with
    | nil => simp at hlist
    | cons second tail =>
      rw [List.cons_append, hlist, hasModulesSegment, ← hlist, ih, Bool.or_true]

/-- What the last parts say. -/
theorem endsWithName_iff {parts : List Str} : endsWithName parts.reverse = true ↔
    ∃ before name, PackageName name ∧ parts = before ++ nodeModules :: name := by
  constructor
  · intro h
    have hparts : parts = parts.reverse.reverse := (List.reverse_reverse parts).symm
    unfold endsWithName at h
    split at h
    · rename_i name parent rest heq
      rw [heq] at hparts
      rw [Bool.or_eq_true, Bool.and_eq_true, Bool.and_eq_true, beq_iff_eq, bne_iff_ne, beq_iff_eq,
        beq_iff_eq] at h
      rcases h with ⟨rfl, hname⟩ | ⟨hscope, hmodules⟩
      · exact ⟨rest.reverse, [name], .plain name hname, by rw [hparts]; simp⟩
      · cases rest with
        | nil => cases hmodules
        | cons third rest =>
          obtain rfl := Option.some.inj hmodules
          exact ⟨rest.reverse, [parent, name], .inScope parent name hscope, by rw [hparts]; simp⟩
    · cases h
  · rintro ⟨before, name, hname, rfl⟩
    cases hname with
    | plain name h => simp [endsWithName, h]
    | inScope scope name h => simp [endsWithName, h]

/-- The language, read from the end of the path. -/
theorem packagePath_iff {path : Str} : PackagePath path ↔
    isNormalizedRelative path = true ∧ endsWithName (path.splitOn '/').reverse = true := by
  rw [isNormalizedRelative_iff, endsWithName_iff]
  constructor
  · rintro ⟨before, names, hne, hbefore, hnames, rfl, hdrive⟩
    have hsafe : ∀ part ∈ before ++ names.flatMap (nodeModules :: ·), SafeComponent part := by
      intro part hpart
      rcases List.mem_append.mp hpart with hpart | hpart
      · exact hbefore part hpart
      · obtain ⟨name, hname, hpart⟩ := List.mem_flatMap.mp hpart
        rcases List.mem_cons.mp hpart with rfl | hpart
        · exact ⟨by decide, by decide, by decide⟩
        · exact (hnames name hname).2 part hpart
    have hlist : before ++ names.flatMap (nodeModules :: ·) ≠ [] := by
      cases names with
      | nil => exact absurd rfl hne
      | cons name rest => simp
    have hsplit : (join ['/'] (before ++ names.flatMap (nodeModules :: ·))).splitOn '/' =
        before ++ names.flatMap (nodeModules :: ·) :=
      List.splitOn_intercalate '/' (fun part hpart => (hsafe part hpart).2.1) hlist
    rw [hsplit]
    refine ⟨⟨hsafe, hdrive⟩, ?_⟩
    have hlast := List.dropLast_append_getLast hne
    refine ⟨before ++ names.dropLast.flatMap (nodeModules :: ·), names.getLast hne,
      (hnames _ (List.getLast_mem hne)).1, ?_⟩
    rw [List.append_assoc, ← List.flatMap_singleton (nodeModules :: ·) (names.getLast hne),
      ← List.flatMap_append, hlast]
  · rintro ⟨⟨hparts, hdrive⟩, before, name, hname, heq⟩
    rw [heq] at hparts
    refine ⟨before, [name], nofun, fun part hpart => hparts part (List.mem_append_left _ hpart),
      fun other hother => ?_, ?_, hdrive⟩
    · rw [List.mem_singleton.mp hother]
      exact ⟨hname, fun part hpart =>
        hparts part (List.mem_append_right _ (List.mem_cons_of_mem _ hpart))⟩
    · rw [List.flatMap_singleton, ← heq]
      exact (List.intercalate_splitOn '/').symm

/-! ## What paths denote -/

/-- Where a path leads from a directory, if everything on the way is a directory. -/
def denotes (root : Loc) (path : Str) : Outcome :=
  walk (fun _ => some (.dir 0)) 0 root (components path)

theorem components_of_safe {path : Str} (h : ∀ part ∈ path.splitOn '/', SafeComponent part) :
    components path = (path.splitOn '/').map .normal := by
  have hsegment : ∀ part ∈ path.splitOn '/', FileTree.segment part = some (.normal part) := by
    intro part hpart
    have hvalid := (h part hpart).1
    unfold isValidComponent at hvalid
    rw [Bool.and_eq_true, Bool.and_eq_true, bne_iff_ne, bne_iff_ne, Bool.not_eq_true',
      List.isEmpty_eq_false_iff] at hvalid
    unfold FileTree.segment
    rw [if_neg (not_or.mpr ⟨hvalid.1.1, hvalid.1.2⟩), if_neg hvalid.2]
  exact components_of_segments hsegment

theorem denotes_eq {path : Str} (h : accepts path = true) (root : Loc) :
    denotes root path = .found ((path.splitOn '/').reverse ++ root) := by
  have hsafe := (isNormalizedRelative_iff.mp (accepts_iff.mp h).1).1
  unfold denotes
  rw [components_of_safe hsafe]
  exact walk_dirs fun _ _ _ => ⟨0, rfl⟩

/-! ## The check -/

/-- What is said of the check of a path. -/
structure WellChecked (path : Str) : Prop where
  language : accepts path = true ↔ PackagePath path
  below : accepts path = true →
    ∀ root, ∃ loc, denotes root path = .found loc ∧ root <:+ loc ∧ loc ≠ root
  distinct : accepts path = true → ∀ other, accepts other = true → other ≠ path →
    ∀ root, denotes root other ≠ denotes root path

theorem below_of_accepts {path : Str} (h : accepts path = true) (root : Loc) :
    ∃ loc, denotes root path = .found loc ∧ root <:+ loc ∧ loc ≠ root := by
  refine ⟨_, denotes_eq h root, List.suffix_append _ _, fun heq => ?_⟩
  have hnil := List.append_left_eq_self.mp heq
  exact List.splitOn_ne_nil _ _ (List.reverse_eq_nil_iff.mp hnil)

theorem distinct_of_accepts {path other : Str} (h : accepts path = true)
    (hother : accepts other = true) (hne : other ≠ path) (root : Loc) :
    denotes root other ≠ denotes root path := by
  rw [denotes_eq h, denotes_eq hother]
  intro heq
  have hparts := List.reverse_injective (List.append_cancel_right (Outcome.found.inj heq))
  exact hne (splitOn_inj hparts)

/-- The check is right exactly for the paths that it refuses and those that end with a name. -/
theorem validatePackagePath_iff (path : Str) : WellChecked path ↔
    (isNormalizedRelative path = true → hasModulesSegment (path.splitOn '/') = true →
      endsWithName (path.splitOn '/').reverse = true) := by
  constructor
  · intro h hnormal hmodules
    exact (packagePath_iff.mp (h.language.mp (accepts_iff.mpr ⟨hnormal, hmodules⟩))).2
  · intro h
    refine ⟨?_, below_of_accepts, fun haccepts other hother hne root =>
      distinct_of_accepts haccepts hother hne root⟩
    rw [accepts_iff, packagePath_iff]
    refine ⟨fun ⟨hnormal, hmodules⟩ => ⟨hnormal, h hnormal hmodules⟩, fun ⟨hnormal, hends⟩ =>
      ⟨hnormal, ?_⟩⟩
    -- a path that ends with a name has a name behind some `node_modules`
    obtain ⟨before, name, hname, hparts⟩ := endsWithName_iff.mp hends
    have hsafe := (isNormalizedRelative_iff.mp hnormal).1
    rw [hparts] at hsafe ⊢
    cases hname with
    | plain name =>
      exact hasModulesSegment_of_mem (hsafe name (by simp)).1
    | inScope scope name =>
      exact hasModulesSegment_of_mem (hsafe scope (by simp)).1

/-- A scope without a name is accepted. -/
theorem validatePackagePath_scope : ¬∀ path, WellChecked path := by
  intro h
  have hpath := (h (lit "node_modules/@scope")).language.mp (by decide)
  exact absurd (packagePath_iff.mp hpath).2 (by decide)

end Bpm
