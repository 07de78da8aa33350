import Bpm.Lib.Overlay

/-!
# Disks from which something was removed

What is left when objects are removed is what was there.  A path that still leads
somewhere leads where it did.
-/

namespace Bpm
namespace FileTree

variable {tree tree' : Tree} {path : List Component} {loc found : Loc}

/-- Nothing is in the one tree that is not in the other. -/
def Within (tree' tree : Tree) : Prop := ∀ loc node, tree' loc = some node → tree loc = some node

theorem Within.walkWith (h : Within tree' tree) {follow follow' : Loc → List Component → Outcome}
    (hfollow : ∀ loc path, follow' loc path = .found found → follow loc path = .found found)
    (hwalk : walkWith follow' tree' loc path = .found found) :
    walkWith follow tree loc path = .found found := by
  induction path generalizing loc with
  | nil => exact hwalk
  | cons c rest ih =>
    cases c with
    | rootDir => exact ih hwalk
    | curDir => exact ih hwalk
    | parentDir => exact ih hwalk
    | normal name =>
      simp only [FileTree.walkWith] at hwalk ⊢
      cases hget : tree' (name :: loc) with
      | none => simp [hget] at hwalk
      | some node =>
        rw [h _ _ hget]
        rw [hget] at hwalk
        cases node with
        | dir mode => exact ih hwalk
        | file mode => exact hwalk
        | link target => exact hfollow _ _ hwalk

theorem Within.walk (h : Within tree' tree) {fuel : Nat}
    (hwalk : walk tree' fuel loc path = .found found) : walk tree fuel loc path = .found found := by
  induction fuel generalizing loc path with
  | zero => exact h.walkWith (fun _ _ hnone => hnone) hwalk
  | succ fuel ih => exact h.walkWith (fun _ _ => ih) hwalk

theorem walkWith_append {follow : Loc → List Component → Outcome} {rest : List Component}
    (hself : ∃ fuel, FileTree.walkWith follow tree = FileTree.walk tree fuel)
    (hfollow : ∀ loc path, follow loc (path ++ rest) = .found found →
      ∃ mid fuel, follow loc path = .found mid ∧ FileTree.walk tree fuel mid rest = .found found)
    (h : FileTree.walkWith follow tree loc (path ++ rest) = .found found) :
    ∃ mid fuel, FileTree.walkWith follow tree loc path = .found mid ∧
      FileTree.walk tree fuel mid rest = .found found := by
  induction path generalizing loc with
  | nil =>
    obtain ⟨fuel, hself⟩ := hself
    exact ⟨loc, fuel, rfl, hself ▸ h⟩
  | cons c path ih =>
    cases c with
    | rootDir => exact ih h
    | curDir => exact ih h
    | parentDir => exact ih h
    | normal name =>
      simp only [List.cons_append, FileTree.walkWith] at h ⊢
      cases hget : tree (name :: loc) with
      | none => simp [hget] at h
      | some node =>
        rw [hget] at h
        cases node with
        | dir mode => exact ih h
        | file mode =>
          simp only at h
          split at h
          · rename_i hempty
            rw [List.isEmpty_iff, List.append_eq_nil_iff] at hempty
            obtain ⟨rfl, rfl⟩ := hempty
            exact ⟨name :: loc, 0, rfl, h⟩
          · cases h
        | link target =>
          simp only [← List.append_assoc] at h
          exact hfollow loc _ h

/-- A path in two parts leads where the second one leads from the end of the first. -/
theorem walk_append {rest : List Component} {fuel : Nat}
    (h : FileTree.walk tree fuel loc (path ++ rest) = .found found) :
    ∃ mid fuel', FileTree.walk tree fuel loc path = .found mid ∧
      FileTree.walk tree fuel' mid rest = .found found := by
  induction fuel generalizing loc path with
  | zero => exact walkWith_append ⟨0, rfl⟩ (fun _ _ hnone => by cases hnone) h
  | succ fuel ih => exact walkWith_append ⟨fuel + 1, rfl⟩ (fun _ _ => ih) h

end FileTree

namespace Disk

open FileTree

variable {β : Type} {maxLinks : Nat} {d d' d'' : Disk β} {base path loc key : Loc}

/-- Some objects are gone, and the others are what they were. -/
def Fewer (d' d : Disk β) : Prop := ∀ key : Loc, d'[key]? = d[key]? ∨ d'[key]? = none

theorem Fewer.refl (d : Disk β) : Fewer d d := fun _ => .inl rfl

theorem Fewer.trans (h : Fewer d'' d') (h' : Fewer d' d) : Fewer d'' d := by
  intro key
  rcases h key with hsame | hnone
  · rw [hsame]
    exact h' key
  · exact .inr hnone

theorem fewer_remove (d : Disk β) (loc : Loc) : Fewer (d.remove loc) d := by
  intro key
  rw [get_remove]
  split
  · exact .inr rfl
  · exact .inl rfl

theorem Fewer.get {object : Object β} (h : Fewer d' d) (hget : d'[key]? = some object) :
    d[key]? = some object := by
  rcases h key with hsame | hnone
  · rwa [← hsame]
  · rw [hnone] at hget
    cases hget

theorem Fewer.isDir (h : Fewer d' d) (hdir : isDir d' loc = true) : isDir d loc = true := by
  unfold Disk.isDir at hdir ⊢
  rw [Bool.or_eq_true] at hdir ⊢
  apply hdir.imp_right
  intro hget
  split at hget
  · rename_i hsome
    rw [h.get hsome]
  · cases hget

theorem Fewer.resolve (h : Fewer d' d) (hresolve : resolve maxLinks d' base path = some loc) :
    resolve maxLinks d base path = some loc := by
  have hwithin : Within d'.shape d.shape := by
    intro key node hnode
    obtain ⟨object, hget, rfl⟩ := Option.map_eq_some_iff.mp hnode
    show d[key]?.map Object.node = _
    rw [h.get hget]
    rfl
  unfold Disk.resolve follow at hresolve ⊢
  split at hresolve
  · rename_i hwalk
    rw [hwithin.walk hwalk]
    exact hresolve
  · cases hresolve

theorem Fewer.entry (h : Fewer d' d) (hentry : entry maxLinks d' base path = some loc) :
    entry maxLinks d base path = some loc := by
  cases path with
  | nil => exact hentry
  | cons name parent =>
    rw [Disk.entry, Option.bind_eq_some_iff] at hentry ⊢
    obtain ⟨around, hresolve, hif⟩ := hentry
    apply Exists.intro around
    apply And.intro (h.resolve hresolve)
    split at hif
    · rename_i hthere
      rw [Bool.and_eq_true, Option.isSome_iff_exists] at hthere
      obtain ⟨hdir, object, hget⟩ := hthere
      rw [if_pos]
      · exact hif
      · rw [Bool.and_eq_true, Option.isSome_iff_exists]
        exact ⟨h.isDir hdir, object, h.get hget⟩
    · cases hif

/-- Without links on the way an entry is where its path says. -/
theorem entry_eq_of_links (hpath : path ≠ [])
    (hlink : ∀ loc target, Above base path loc → d[loc]? ≠ some (.link target))
    (h : entry maxLinks d base path = some loc) : loc = path ++ base := by
  obtain ⟨name, parent, rfl⟩ := List.exists_cons_of_ne_nil hpath
  rw [entry, Option.bind_eq_some_iff] at h
  obtain ⟨around, hresolve, hif⟩ := h
  have haround := resolve_eq_of_links
    (fun loc target hway => hlink loc target (above_cons.mpr hway)) hresolve
  split at hif
  · cases hif
    rw [haround]
    rfl
  · cases hif

/-- A path that leads somewhere names an entry of a directory. -/
theorem entry_of_resolve (hclosed : Closed d []) (hpath : path ≠ [])
    (h : resolve maxLinks d [] path = some loc) : ∃ loc', entry maxLinks d [] path = some loc' := by
  obtain ⟨name, parent, rfl⟩ := List.exists_cons_of_ne_nil hpath
  unfold Disk.resolve follow at h
  rw [List.reverse_cons, List.map_append] at h
  split at h
  · rename_i hwalk
    obtain ⟨around, fuel, hparent, hlast⟩ := walk_append hwalk
    have hthere : d[name :: around]? ≠ none := by
      intro hnone
      have hshape : d.shape (name :: around) = none := by
        show d[name :: around]?.map Object.node = none
        rw [hnone]
        rfl
      cases fuel with
      | zero => simp [walk, walkWith, hshape] at hlast
      | succ fuel => simp [walk, walkWith, hshape] at hlast
    have hdir := hclosed name around List.nil_suffix hthere
    have hresolve : resolve maxLinks d [] parent = some around := by
      unfold Disk.resolve follow
      rw [hparent]
    apply Exists.intro (name :: around)
    rw [entry, hresolve, Option.bind_some, if_pos]
    rw [hdir, Bool.true_and, Option.isSome_iff_ne_none]
    exact hthere
  · cases h

/-- What an entry is found at is there. -/
theorem get_of_entry {name : Str} {parent : Loc} (h : entry maxLinks d base (name :: parent) = some loc) :
    ∃ around object, loc = name :: around ∧ resolve maxLinks d base parent = some around ∧
      d[loc]? = some object := by
  rw [entry, Option.bind_eq_some_iff] at h
  obtain ⟨around, hresolve, hif⟩ := h
  split at hif
  · rename_i hthere
    cases hif
    obtain ⟨object, hget⟩ := Option.isSome_iff_exists.mp (Bool.and_eq_true _ _ |>.mp hthere).2
    exact ⟨around, object, rfl, hresolve, hget⟩
  · cases hif

theorem Closed.remove (h : Closed d base) (loc : Loc) : Closed (d.remove loc) base := by
  intro name around haround hget
  rw [get_remove] at hget
  split at hget
  · exact absurd rfl hget
  · rename_i hout
    have hdir := h name around haround hget
    have hout' : ¬loc <:+ around := fun hsuffix => hout (hsuffix.trans (List.suffix_cons name around))
    unfold Disk.isDir at hdir ⊢
    rw [get_remove, if_neg hout']
    exact hdir

theorem closed_empty : Closed (∅ : Disk β) base := by
  intro name loc _ hget
  simp at hget

/-- Something new is put into a directory. -/
theorem Closed.insert {name : Str} {parent : Loc} {object : Object β} (h : Closed d base)
    (hparent : isDir d parent) (hnew : d[name :: parent]? = none ∨ object = .dir) :
    Closed (d.insert (name :: parent) object) base := by
  intro other loc hloc hget
  by_cases hin : loc = name :: parent
  · subst hin
    have hne : name :: parent ≠ other :: name :: parent := fun heq => by
      have hlen := congrArg List.length heq
      simp at hlen
    rw [get_insert, if_neg hne] at hget
    rcases hnew with hnone | rfl
    · have hdir := h other _ hloc hget
      simp [Disk.isDir, hnone] at hdir
    · simp [Disk.isDir]
  · have hdir : isDir d loc := by
      rw [get_insert] at hget
      split at hget
      · rename_i heq
        cases heq
        exact hparent
      · exact h other loc hloc hget
    unfold Disk.isDir at hdir ⊢
    rw [get_insert, if_neg (Ne.symm hin)]
    exact hdir

/-- No name on the disk holds a slash. -/
def Plain (d : Disk β) : Prop := ∀ (name : Str) (loc : Loc), d[name :: loc]? ≠ none → '/' ∉ name

theorem Plain.insert {name : Str} {parent : Loc} {object : Object β} (h : Plain d)
    (hname : '/' ∉ name) : Plain (d.insert (name :: parent) object) := by
  intro other loc hget
  rw [get_insert] at hget
  split at hget
  · rename_i heq
    cases heq
    exact hname
  · exact h other loc hget

/-! ## What lies below a location -/

end Disk
end Bpm
