import Bpm.Lib.Disk
import Bpm.Lib.Folds

/-!
# Trees put at places

Trees are put at places below a directory, each in place of what is there.  As long
as no link lies on the way, what a step leaves at a location depends on its place
alone, and two steps at places that do not lie in each other commute.  So the order
does not matter when every tree comes before those that lie in it.
-/

namespace Bpm
namespace Disk

open FileTree

variable {β : Type} {maxLinks : Nat} {d d' tree : Disk β} {base path loc key : Loc}

/-- Everything below `base` has a directory around it. -/
def Closed (d : Disk β) (base : Loc) : Prop :=
  ∀ name loc, base <:+ loc → d[name :: loc]? ≠ none → isDir d loc

/-- The places from `base` down to a path, without `base` itself. -/
def Way (base path loc : Loc) : Prop := base <:+ loc ∧ loc ≠ base ∧ loc <:+ path ++ base

instance : Decidable (Way base path loc) :=
  inferInstanceAs (Decidable (base <:+ loc ∧ loc ≠ base ∧ loc <:+ path ++ base))

theorem isDir_of_get (h : d[loc]? = some .dir) : isDir d loc := by simp [isDir, h]

theorem way_cons {name : Str} {path : Loc} :
    Way base (name :: path) loc ↔ loc = name :: (path ++ base) ∨ Way base path loc := by
  unfold Way
  rw [List.cons_append, List.suffix_cons_iff]
  constructor
  · rintro ⟨hbase, hne, rfl | hsuffix⟩
    · exact Or.inl rfl
    · exact Or.inr ⟨hbase, hne, hsuffix⟩
  · rintro (rfl | ⟨hbase, hne, hsuffix⟩)
    · have hsuffix : base <:+ name :: (path ++ base) := (List.suffix_append path base).trans
        (List.suffix_cons name _)
      refine ⟨hsuffix, fun heq => ?_, Or.inl rfl⟩
      have hlen := congrArg List.length heq
      simp only [List.length_cons, List.length_append] at hlen
      omega
    · exact ⟨hbase, hne, Or.inr hsuffix⟩

theorem not_way_nil : ¬Way base [] loc := fun ⟨hbase, hne, hsuffix⟩ =>
  hne (hsuffix.eq_of_length_le hbase.length_le)

/-- The places above a path. -/
def Above (base path loc : Loc) : Prop := Way base path loc ∧ loc ≠ path ++ base

instance : Decidable (Above base path loc) :=
  inferInstanceAs (Decidable (Way base path loc ∧ loc ≠ path ++ base))

theorem above_cons {name : Str} {parent : Loc} :
    Above base (name :: parent) loc ↔ Way base parent loc := by
  rw [Above, way_cons]
  constructor
  · rintro ⟨rfl | hway, hne⟩
    · exact absurd rfl hne
    · exact hway
  · intro hway
    refine ⟨Or.inr hway, fun heq => ?_⟩
    have hlen := hway.2.2.length_le
    simp [heq] at hlen

/-! ## Making directories -/

/-- The directories on the way to a path, where nothing is. -/
def mkdirs (d : Disk β) (base : Loc) : Loc → Disk β
  | [] => d
  | name :: parent =>
      let d := mkdirs d base parent
      if d[name :: (parent ++ base)]? = none then d.insert (name :: (parent ++ base)) .dir else d

theorem get_mkdirs (d : Disk β) (base path key : Loc) :
    (mkdirs d base path)[key]? =
      if Way base path key ∧ d[key]? = none then some .dir else d[key]? := by
  induction path generalizing key with
  | nil => simp [mkdirs, not_way_nil]
  | cons name parent ih =>
    have hself : ¬Way base parent (name :: (parent ++ base)) := fun hway => by
      have hlen := hway.2.2.length_le
      simp at hlen
    have hnew := ih (name :: (parent ++ base))
    rw [if_neg fun h => hself h.1] at hnew
    simp only [mkdirs, hnew, way_cons]
    by_cases hnone : d[name :: (parent ++ base)]? = none
    · rw [if_pos hnone, get_insert, ih key]
      by_cases hkey : name :: (parent ++ base) = key
      · subst hkey
        simp [hnone]
      · simp [hkey, Ne.symm hkey]
    · rw [if_neg hnone, ih key]
      by_cases hkey : key = name :: (parent ++ base)
      · subst hkey
        simp [hnone]
      · simp [hkey]

/-- Without a link or a file on the way, the directories are made. -/
theorem createDirAll_free (hbase : isDir d base)
    (hfree : ∀ loc, Way base path loc → d[loc]? = none ∨ d[loc]? = some .dir) :
    createDirAll maxLinks d base path = some (mkdirs d base path, path ++ base) := by
  induction path with
  | nil => simp [createDirAll, hbase, mkdirs]
  | cons name parent ih =>
    have hparent := ih fun loc hway => hfree loc (way_cons.mpr (Or.inr hway))
    have hself := hfree _ (way_cons.mpr (Or.inl rfl))
    have hsame : (mkdirs d base parent)[name :: (parent ++ base)]? =
        d[name :: (parent ++ base)]? := by
      rw [get_mkdirs, if_neg]
      rintro ⟨hway, _⟩
      have hlen := hway.2.2.length_le
      simp at hlen
    rw [createDirAll, hparent]
    rcases hself with hnone | hdir
    · simp [mkdirs, hsame, hnone]
    · simp [mkdirs, hsame, hdir]

/-- A file on the way, and no link, and nothing is made. -/
theorem createDirAll_blocked (hbase : isDir d base)
    (hlink : ∀ loc target, Way base path loc → d[loc]? ≠ some (.link target)) {content : β}
    (hway : Way base path loc) (hfile : d[loc]? = some (.file content)) :
    createDirAll maxLinks d base path = none := by
  induction path generalizing loc content with
  | nil => exact absurd hway not_way_nil
  | cons name parent ih =>
    have hlink' := fun loc target hway => hlink loc target (way_cons.mpr (Or.inr hway))
    by_cases hparent : ∃ loc content, Way base parent loc ∧ d[loc]? = some (.file content)
    · obtain ⟨_, _, hway, hfile⟩ := hparent
      rw [createDirAll, ih hlink' hway hfile]
      rfl
    · -- The parents are made, so the file is at the end of the path.
      have hfree : ∀ loc, Way base parent loc → d[loc]? = none ∨ d[loc]? = some .dir := by
        intro loc hway
        cases hget : d[loc]? with
        | none => exact Or.inl rfl
        | some object =>
          cases object with
          | dir => exact Or.inr rfl
          | file content => exact absurd ⟨loc, content, hway, hget⟩ hparent
          | link target => exact absurd hget (hlink' loc target hway)
      rcases way_cons.mp hway with rfl | hway
      · have hsame : (mkdirs d base parent)[name :: (parent ++ base)]? = some (.file content) := by
          rw [get_mkdirs, if_neg, hfile]
          rintro ⟨_, hnone⟩
          rw [hfile] at hnone
          cases hnone
        rw [createDirAll, createDirAll_free hbase hfree]
        simp [hsame]
      · exact absurd ⟨loc, content, hway, hfile⟩ hparent

/-! ## What a step leaves -/

theorem Closed.dir_above (h : Closed d base) (hkey : d[key]? ≠ none) (hbase : base <:+ loc)
    (hne : loc ≠ base) (hsuffix : loc <:+ key) (hlt : loc ≠ key) : d[loc]? = some .dir := by
  induction key with
  | nil => exact absurd (List.suffix_nil.mp hsuffix) hlt
  | cons name rest ih =>
    have hrest : loc <:+ rest := (List.suffix_cons_iff.mp hsuffix).resolve_left hlt
    have hdir := h name rest (hbase.trans hrest) hkey
    have hget : d[rest]? = some .dir := by
      have hnil : rest ≠ [] := by
        rintro rfl
        obtain rfl := List.suffix_nil.mp hrest
        exact hne (List.suffix_nil.mp hbase).symm
      unfold isDir at hdir
      split at hdir
      · assumption
      · simp [hnil] at hdir
    by_cases heq : loc = rest
    · rw [heq, hget]
    · exact ih (by rw [hget]; nofun) hrest heq

/-- Where nothing is, nothing is below. -/
theorem Closed.none_below (h : Closed d base) (hbase : base <:+ loc) (hne : loc ≠ base)
    (hnone : d[loc]? = none) (hsuffix : loc <:+ key) : d[key]? = none := by
  by_contra hkey
  by_cases heq : loc = key
  · exact hkey (heq ▸ hnone)
  · rw [h.dir_above hkey hbase hne hsuffix heq] at hnone
    cases hnone

theorem ne_base_of_ne_nil (hpath : path ≠ []) : path ++ base ≠ base := by simpa using hpath

theorem way_of_front {first : List Str} (hne : first ≠ []) (hfirst : first <+: path.reverse) :
    Way base path (first.reverse ++ base) := by
  have hsuffix : first.reverse <:+ path := by
    rw [← List.reverse_prefix, List.reverse_reverse]
    exact hfirst
  obtain ⟨rest, hrest⟩ := hsuffix
  exact ⟨List.suffix_append _ _, ne_base_of_ne_nil (by simpa using hne),
    ⟨rest, by rw [← List.append_assoc, hrest]⟩⟩

/-- Without links a path leads where its names say. -/
theorem resolve_eq_of_links (hlink : ∀ loc target, Way base path loc → d[loc]? ≠ some (.link target))
    (h : resolve maxLinks d base path = some loc) : loc = path ++ base := by
  unfold resolve follow at h
  split at h
  · rename_i found hwalk
    cases h
    have hnames := walk_names (fun first hne hfirst target htree => ?_) hwalk
    · rwa [List.reverse_reverse] at hnames
    · have hget := hlink (first.reverse ++ base) target (way_of_front hne hfirst)
      unfold shape at htree
      cases hobject : d[first.reverse ++ base]? with
      | none => simp [hobject] at htree
      | some object =>
        cases object with
        | link target' =>
          simp only [hobject, Option.map_some, Object.node] at htree
          cases htree
          exact hget hobject
        | _ => simp [hobject, Object.node] at htree
  · cases h

theorem resolve_of_dirs (hdirs : ∀ loc, Way base path loc → d[loc]? = some .dir) :
    resolve maxLinks d base path = some (path ++ base) := by
  unfold resolve follow
  rw [walk_dirs]
  · simp
  · intro first hne hfirst
    exact ⟨0, by rw [shape, hdirs _ (way_of_front hne hfirst)]; rfl⟩

/-- The entry at the end of a path without links on the way. -/
theorem entry_of_closed (hclosed : Closed d base) (hbase : isDir d base) (hpath : path ≠ [])
    (hlink : ∀ loc target, Above base path loc → d[loc]? ≠ some (.link target)) :
    entry maxLinks d base path =
      if d[path ++ base]? = none then none else some (path ++ base) := by
  cases path with
  | nil => exact absurd rfl hpath
  | cons name parent =>
    have hlink := fun loc target hway => hlink loc target (above_cons.mpr hway)
    rw [entry, List.cons_append]
    split
    · rename_i hnone
      cases hresolve : resolve maxLinks d base parent with
      | none => rfl
      | some loc =>
        obtain rfl := resolve_eq_of_links hlink hresolve
        have hmem : name :: (parent ++ base) ∉ d := by simpa using hnone
        simp [hmem]
    · rename_i hsome
      have hmem : name :: (parent ++ base) ∈ d := by simpa using hsome
      have hdirs : ∀ loc, Way base parent loc → d[loc]? = some .dir := fun loc hway =>
        hclosed.dir_above hsome hway.1 hway.2.1 (hway.2.2.trans (List.suffix_cons _ _)) (by
          rintro rfl
          have hlen := hway.2.2.length_le
          simp at hlen)
      have hparent : isDir d (parent ++ base) := by
        by_cases hnil : parent = []
        · rw [hnil]
          exact hbase
        · exact isDir_of_get (hdirs _ ⟨List.suffix_append _ _, ne_base_of_ne_nil hnil,
            List.suffix_rfl⟩)
      simp [resolve_of_dirs hdirs, hparent, hmem]

/-- A disk with a tree at a path. -/
def place (d : Disk β) (base path : Loc) (tree : Disk β) : Disk β :=
  fill (mkdirs (d.remove (path ++ base)) base path) (path ++ base) tree

theorem way_not_below (hway : Above base path loc) : ¬path ++ base <:+ loc := fun hsuffix =>
  hway.2 (hway.1.2.2.eq_of_length_le hsuffix.length_le)

theorem way_self (hpath : path ≠ []) : Way base path (path ++ base) :=
  ⟨List.suffix_append path base, ne_base_of_ne_nil hpath, List.suffix_rfl⟩

theorem get_place_inside (hpath : path ≠ []) (d tree : Disk β) (rel : Loc) :
    (place d base path tree)[rel ++ (path ++ base)]? =
      tree[rel]?.or (if rel = [] then some .dir else none) := by
  have hgone : (d.remove (path ++ base))[rel ++ (path ++ base)]? = none := by
    rw [get_remove, if_pos (List.suffix_append rel _)]
  rw [place, get_fill_inside, get_mkdirs, hgone]
  by_cases hrel : rel = []
  · subst hrel
    simp [way_self hpath]
  · have hway : ¬Way base path (rel ++ (path ++ base)) := fun hway => by
      have hlen := hway.2.2.length_le
      have hpos := List.length_pos_iff.mpr hrel
      simp only [List.length_append] at hlen
      omega
    simp [hway, hrel]

theorem get_place_outside (d tree : Disk β) (hout : ¬path ++ base <:+ key) :
    (place d base path tree)[key]? =
      if Above base path key ∧ d[key]? = none then some .dir else d[key]? := by
  have hne : key ≠ path ++ base := fun heq => hout (heq ▸ List.suffix_rfl)
  rw [place, get_fill_outside _ _ hout, get_mkdirs, get_remove, if_neg hout]
  simp [Above, hne]

theorem remove_of_none (hclosed : Closed d base) (hpath : path ≠ []) (hnone : d[path ++ base]? = none) :
    d.remove (path ++ base) = d := by
  refine Std.ExtTreeMap.ext_getElem? fun key => ?_
  rw [get_remove]
  split
  · rename_i hsuffix
    exact (hclosed.none_below (List.suffix_append path base) (ne_base_of_ne_nil hpath) hnone
      hsuffix).symm
  · rfl

theorem isDir_remove (hbase : isDir d base) (hpath : path ≠ []) :
    isDir (d.remove (path ++ base)) base := by
  have hout : ¬path ++ base <:+ base := fun hsuffix =>
    ne_base_of_ne_nil hpath (hsuffix.eq_of_length_le (by simp))
  unfold isDir
  rw [get_remove, if_neg hout]
  exact hbase

/-- Above a path nothing changes when the path is removed. -/
theorem get_remove_above {loc : Loc} (hway : Above base path loc) :
    (d.remove (path ++ base))[loc]? = d[loc]? := by
  rw [get_remove, if_neg (way_not_below hway)]

section PutTree

variable (hclosed : Closed d base) (hbase : isDir d base) (hpath : path ≠ [])
  (hlink : ∀ loc target, Above base path loc → d[loc]? ≠ some (.link target))

include hclosed hbase hpath hlink

theorem removeEntry_eq : removeEntry maxLinks d base path = d.remove (path ++ base) := by
  unfold removeEntry
  rw [entry_of_closed hclosed hbase hpath hlink]
  by_cases hnone : d[path ++ base]? = none
  · rw [if_pos hnone]
    exact (remove_of_none hclosed hpath hnone).symm
  · rw [if_neg hnone]

theorem putTree_free (hfree : ∀ loc, Above base path loc → d[loc]? = none ∨ d[loc]? = some .dir) :
    putTree maxLinks d base path tree = some (place d base path tree) := by
  have hfree' : ∀ loc, Way base path loc →
      (d.remove (path ++ base))[loc]? = none ∨ (d.remove (path ++ base))[loc]? = some .dir := by
    intro loc hway
    by_cases heq : loc = path ++ base
    · left
      rw [heq, get_remove, if_pos List.suffix_rfl]
    · rw [get_remove_above ⟨hway, heq⟩]
      exact hfree loc ⟨hway, heq⟩
  rw [putTree, removeEntry_eq hclosed hbase hpath hlink,
    createDirAll_free (isDir_remove hbase hpath) hfree']
  rfl

theorem putTree_blocked {content : β} (hway : Above base path loc)
    (hfile : d[loc]? = some (.file content)) : putTree maxLinks d base path tree = none := by
  rw [putTree, removeEntry_eq hclosed hbase hpath hlink,
    createDirAll_blocked (isDir_remove hbase hpath) ?_ hway.1
      ((get_remove_above hway).trans hfile)]
  · rfl
  · intro loc target hway
    by_cases heq : loc = path ++ base
    · rw [heq, get_remove, if_pos List.suffix_rfl]
      nofun
    · rw [get_remove_above ⟨hway, heq⟩]
      exact hlink loc target ⟨hway, heq⟩

end PutTree

theorem base_outside (hpath : path ≠ []) : ¬path ++ base <:+ base := fun hsuffix =>
  ne_base_of_ne_nil hpath (hsuffix.eq_of_length_le (by simp))

/-- Directories stay, and so does `base`. -/
theorem isDir_place (h : isDir d loc) (hout : ¬path ++ base <:+ loc) :
    isDir (place d base path tree) loc := by
  unfold isDir at h ⊢
  rw [get_place_outside _ _ hout]
  cases hget : d[loc]? with
  | none =>
    have hnil : loc.isEmpty = true := by simpa [hget] using h
    simp [hnil]
  | some object => simpa [hget] using h

theorem way_parent {name : Str} (hway : Way base path (name :: loc)) (hloc : base <:+ loc) :
    loc = base ∨ Above base path loc := by
  by_cases heq : loc = base
  · exact Or.inl heq
  · refine Or.inr ⟨⟨hloc, heq, (List.suffix_cons name loc).trans hway.2.2⟩, ?_⟩
    rintro rfl
    have hlen := hway.2.2.length_le
    simp at hlen

/-- A tree that keeps its directories is put into directories. -/
theorem closed_place (hclosed : Closed d base) (hbase : isDir d base) (hpath : path ≠ [])
    (htree : Closed tree []) (hroot : tree[([] : Loc)]? = none)
    (hfree : ∀ loc, Above base path loc → d[loc]? = none ∨ d[loc]? = some .dir) :
    Closed (place d base path tree) base := by
  intro name loc hloc hget
  by_cases hin : path ++ base <:+ loc
  · -- Below the path there is the tree.
    obtain ⟨rel, rfl⟩ := hin
    have hname : tree[name :: rel]? ≠ none := by
      have hinside : (place d base path tree)[name :: (rel ++ (path ++ base))]? =
          tree[name :: rel]?.or (if name :: rel = [] then some .dir else none) :=
        get_place_inside hpath d tree (name :: rel)
      rw [hinside] at hget
      simpa using hget
    have hdir := htree name rel List.nil_suffix hname
    refine isDir_of_get ?_
    rw [get_place_inside hpath]
    by_cases hrel : rel = []
    · subst hrel
      simp [hroot]
    · unfold isDir at hdir
      split at hdir
      · rename_i hget
        simp [hget]
      · simp [hrel] at hdir
  · by_cases hway : Way base path (name :: loc)
    · rcases way_parent hway hloc with rfl | habove
      · exact isDir_place hbase hin
      · refine isDir_of_get ?_
        rw [get_place_outside _ _ hin]
        rcases hfree loc habove with hnone | hdir
        · rw [if_pos ⟨habove, hnone⟩]
        · rw [if_neg (by simp [hdir]), hdir]
    · have hout : ¬path ++ base <:+ name :: loc := by
        intro hsuffix
        rcases List.suffix_cons_iff.mp hsuffix with heq | hsuffix
        · exact hway (heq ▸ way_self hpath)
        · exact hin hsuffix
      rw [get_place_outside _ _ hout, if_neg fun h => hway h.1.1] at hget
      exact isDir_place (hclosed name loc hloc hget) hin

/-- Neither path lies in the other. -/
def Apart (p q : Loc) : Prop := ¬p <:+ q ∧ ¬q <:+ p

theorem append_suffix_append {p q : Loc} : p ++ base <:+ q ++ base ↔ p <:+ q := by
  constructor
  · rintro ⟨rest, h⟩
    rw [← List.append_assoc] at h
    exact ⟨rest, List.append_cancel_right h⟩
  · rintro ⟨rest, rfl⟩
    exact ⟨rest, by rw [List.append_assoc]⟩

theorem above_outside {p q : Loc} (h : ¬p <:+ q) (habove : Above base q loc) :
    ¬p ++ base <:+ loc := fun hsuffix =>
  h (append_suffix_append.mp (hsuffix.trans habove.1.2.2))

/-- Two trees at places apart, in either order. -/
theorem place_comm {p q : Loc} {t u : Disk β} (hp : p ≠ []) (hq : q ≠ []) (hapart : Apart p q) :
    place (place d base p t) base q u = place (place d base q u) base p t := by
  refine Std.ExtTreeMap.ext_getElem? fun key => ?_
  by_cases hinp : p ++ base <:+ key
  · have houtq : ¬q ++ base <:+ key := fun hinq =>
      (List.suffix_or_suffix_of_suffix hinp hinq).elim
        (fun h => hapart.1 (append_suffix_append.mp h))
        fun h => hapart.2 (append_suffix_append.mp h)
    have hnotabove : ¬Above base q key := fun h => above_outside hapart.1 h hinp
    obtain ⟨rel, rfl⟩ := hinp
    rw [get_place_outside _ _ houtq, if_neg fun h => hnotabove h.1, get_place_inside hp,
      get_place_inside hp]
  · by_cases hinq : q ++ base <:+ key
    · have hnotabove : ¬Above base p key := fun h => above_outside hapart.2 h hinq
      obtain ⟨rel, rfl⟩ := hinq
      rw [get_place_outside _ _ hinp, if_neg fun h => hnotabove h.1, get_place_inside hq,
        get_place_inside hq]
    · rw [get_place_outside _ _ hinq, get_place_outside _ _ hinp, get_place_outside _ _ hinp,
        get_place_outside _ _ hinq]
      by_cases hnone : d[key]? = none
      · by_cases habovep : Above base p key <;> by_cases haboveq : Above base q key <;>
          simp [habovep, haboveq, hnone]
      · simp [hnone]

/-! ## Many trees -/

/-- A path and the tree that goes there; the tree has a directory around everything in it. -/
structure Placed (β : Type) where
  path : Loc
  tree : Disk β
  nonempty : path ≠ []
  closed : Closed tree []
  root : tree[([] : Loc)]? = none

def putPlaced (maxLinks : Nat) (base : Loc) (d : Disk β) (p : Placed β) : Option (Disk β) :=
  putTree maxLinks d base p.path p.tree

/-- The place of `q` lies in that of `p`. -/
def Outer (p q : Placed β) : Prop := p.path <:+ q.path ∧ p.path ≠ q.path

/-- No link of a tree stands where the way to another one leads through, unless a third
tree takes the place of what is there. -/
def Unobstructed (all : Set (Placed β)) : Prop :=
  ∀ p ∈ all, ∀ q ∈ all, ∀ rel target, p.tree[rel]? = some (.link target) →
    rel ++ p.path <:+ q.path → rel ++ p.path ≠ q.path →
    ∃ m ∈ all, Outer p m ∧ m.path <:+ rel ++ p.path

def DistinctPaths (all : Set (Placed β)) : Prop := ∀ p ∈ all, ∀ q ∈ all, p.path = q.path → p = q

/-- A disk on which some of the trees are put, the outer ones first: links on a way are
still to be replaced. -/
structure Sound (all : Set (Placed β)) (base : Loc) (done : Set (Placed β)) (d : Disk β) :
    Prop where
  dir : isDir d base
  closed : Closed d base
  down : ∀ p ∈ done, ∀ q ∈ all, Outer q p → q ∈ done
  links : ∀ q ∈ all, ∀ loc target, Above base q.path loc → d[loc]? = some (.link target) →
    ∃ m ∈ all, m ∉ done ∧ m.path ++ base <:+ loc

/-- Nothing but directories above the path. -/
def Free (base : Loc) (d : Disk β) (p : Placed β) : Prop :=
  ∀ loc, Above base p.path loc → d[loc]? = none ∨ d[loc]? = some .dir

section Many

variable {all done : Set (Placed β)} {p q : Placed β}

theorem Sound.no_link (h : Sound all base done d) (hp : p ∈ all)
    (hready : Folds.Ready Outer all done p) :
    ∀ loc target, Above base p.path loc → d[loc]? ≠ some (.link target) := by
  intro loc target habove hget
  obtain ⟨m, hm, hnot, hsuffix⟩ := h.links p hp loc target habove hget
  refine hnot (hready m hm ⟨append_suffix_append.mp (hsuffix.trans habove.1.2.2), fun heq => ?_⟩)
  exact way_not_below habove (heq ▸ hsuffix)

theorem Sound.putPlaced_free (h : Sound all base done d) (hp : p ∈ all)
    (hready : Folds.Ready Outer all done p) (hfree : Free base d p) :
    putPlaced maxLinks base d p = some (place d base p.path p.tree) :=
  putTree_free h.closed h.dir p.nonempty (h.no_link hp hready) hfree

theorem Sound.putPlaced_blocked (h : Sound all base done d) (hp : p ∈ all)
    (hready : Folds.Ready Outer all done p) (hblocked : ¬Free base d p) :
    putPlaced maxLinks base d p = none := by
  unfold Free at hblocked
  push Not at hblocked
  obtain ⟨loc, habove, hnone, hdir⟩ := hblocked
  cases hget : d[loc]? with
  | none => exact absurd hget hnone
  | some object =>
    cases object with
    | dir => exact absurd hget hdir
    | file content =>
      exact putTree_blocked h.closed h.dir p.nonempty (h.no_link hp hready) habove hget
    | link target => exact absurd hget (h.no_link hp hready loc target habove)

theorem free_place (hq : ¬p.path <:+ q.path) :
    Free base (place d base p.path p.tree) q ↔ Free base d q := by
  have hget : ∀ loc, Above base q.path loc →
      ((place d base p.path p.tree)[loc]? = none ∨
        (place d base p.path p.tree)[loc]? = some .dir ↔ d[loc]? = none ∨ d[loc]? = some .dir) := by
    intro loc habove
    rw [get_place_outside _ _ (above_outside hq habove)]
    split
    · rename_i h
      simp [h.2]
    · rfl
  exact forall_congr' fun loc => imp_congr_right fun habove => hget loc habove

/-- A step keeps the disk sound. -/
theorem Sound.place (h : Sound all base done d) (hlinks : Unobstructed all) (hp : p ∈ all)
    (hnew : p ∉ done) (hready : Folds.Ready Outer all done p) (hfree : Free base d p) :
    Sound all base (insert p done) (Disk.place d base p.path p.tree) where
  dir := isDir_place h.dir (base_outside p.nonempty)
  closed := closed_place h.closed h.dir p.nonempty p.closed p.root hfree
  down := by
    rintro m (rfl | hm) a ha houter
    · exact Or.inr (hready a ha houter)
    · exact Or.inr (h.down m hm a ha houter)
  links := by
    intro q hq loc target habove hget
    by_cases hin : p.path ++ base <:+ loc
    · obtain ⟨rel, rfl⟩ := hin
      rw [get_place_inside p.nonempty] at hget
      have htree : p.tree[rel]? = some (.link target) := by
        cases htree : p.tree[rel]? with
        | some object => simpa [htree] using hget
        | none =>
          rw [htree, Option.none_or] at hget
          split at hget <;> cases hget
      rw [← List.append_assoc] at habove
      obtain ⟨m, hm, houter, hsuffix⟩ := hlinks p hp q hq rel target htree
        (append_suffix_append.mp habove.1.2.2) fun heq => habove.2 (by rw [heq])
      refine ⟨m, hm, ?_, ?_⟩
      · rintro (rfl | hdone)
        · exact houter.2 rfl
        · exact hnew (h.down m hdone p hp houter)
      · rw [← List.append_assoc]
        exact append_suffix_append.mpr hsuffix
    · rw [get_place_outside _ _ hin] at hget
      split at hget
      · cases hget
      · obtain ⟨m, hm, hnot, hsuffix⟩ := h.links q hq loc target habove hget
        refine ⟨m, hm, ?_, hsuffix⟩
        rintro (rfl | hdone)
        · exact hin hsuffix
        · exact hnot hdone

theorem apart_of_ready (hdistinct : DistinctPaths all) (hp : p ∈ all) (hq : q ∈ all)
    (hnewp : p ∉ done) (hnewq : q ∉ done) (hne : p ≠ q) (hreadyp : Folds.Ready Outer all done p)
    (hreadyq : Folds.Ready Outer all done q) : Apart p.path q.path := by
  constructor
  · intro hsuffix
    exact hnewp (hreadyq p hp ⟨hsuffix, fun heq => hne (hdistinct p hp q hq heq)⟩)
  · intro hsuffix
    exact hnewq (hreadyp q hq ⟨hsuffix, fun heq => hne (hdistinct q hq p hp heq).symm⟩)

/-- Steps at places that do not lie in each other commute. -/
theorem independent (maxLinks : Nat) (base : Loc) (hlinks : Unobstructed all)
    (hdistinct : DistinctPaths all) :
    Folds.Independent (putPlaced maxLinks base) Outer all (Sound (β := β) all base) where
  irrefl p h := h.2 rfl
  keep done d p d' h hp hnew hready hput := by
    by_cases hfree : Free base d p
    · rw [h.putPlaced_free hp hready hfree] at hput
      cases hput
      exact h.place hlinks hp hnew hready hfree
    · rw [h.putPlaced_blocked hp hready hfree] at hput
      cases hput
  comm done d p q h hp hq hnewp hnewq hne hreadyp hreadyq := by
    have hapart := apart_of_ready hdistinct hp hq hnewp hnewq hne hreadyp hreadyq
    have hlater : ∀ {p q : Placed β}, Folds.Ready Outer all done q →
        Folds.Ready Outer all (insert p done) q := fun hready a ha houter =>
      Or.inr (hready a ha houter)
    by_cases hfreep : Free base d p
    · have hp' := h.place hlinks hp hnewp hreadyp hfreep
      rw [h.putPlaced_free hp hreadyp hfreep, Option.bind_some]
      by_cases hfreeq : Free base d q
      · have hq' := h.place hlinks hq hnewq hreadyq hfreeq
        rw [h.putPlaced_free hq hreadyq hfreeq, Option.bind_some,
          hp'.putPlaced_free hq (hlater hreadyq) ((free_place hapart.1).mpr hfreeq),
          hq'.putPlaced_free hp (hlater hreadyp) ((free_place hapart.2).mpr hfreep),
          place_comm p.nonempty q.nonempty hapart]
      · rw [h.putPlaced_blocked hq hreadyq hfreeq,
          hp'.putPlaced_blocked hq (hlater hreadyq) fun hfree => hfreeq ((free_place hapart.1).mp hfree)]
        rfl
    · rw [h.putPlaced_blocked hp hreadyp hfreep]
      by_cases hfreeq : Free base d q
      · have hq' := h.place hlinks hq hnewq hreadyq hfreeq
        rw [h.putPlaced_free hq hreadyq hfreeq, Option.bind_some,
          hq'.putPlaced_blocked hp (hlater hreadyp) fun hfree => hfreep ((free_place hapart.2).mp hfree)]
        rfl
      · rw [h.putPlaced_blocked hq hreadyq hfreeq]
        rfl

end Many

end Disk
end Bpm
