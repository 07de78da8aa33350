import Bpm.Lib.Bytes
import Bpm.Lifecycle.Snapshot

/-!
# Isolating a package of a volume

Before scripts run in an entry of a volume, its files, which are hard links into the store
image, are replaced by copies.  The walk goes over the image.  Packages that were placed in
the `node_modules` of the entry are left alone as long as the image has nothing there; an
image with bundled dependencies is copied over them.
-/

namespace Bpm
namespace Isolation

open FileTree Disk PackageTree Text

/-- A file on disk; hard links have one inode. -/
structure Stored where
  ino : Nat
  bytes : Bytes
deriving DecidableEq

/-- A disk and the next inode that is free. -/
structure Volume where
  disk : Disk Stored
  nextIno : Nat

def Stored.content : Object Stored → Object Bytes
  | .dir => .dir
  | .file stored => .file stored.bytes
  | .link target => .link target

section

variable (order : List Str → List Str) (maxLinks : Nat) (image entry : Loc)

/-- A new file or link at a path of the entry whose name is free. -/
def createAt (v : Volume) (parent : Loc) (name : Str) (object : Object Stored) : Option Volume := do
  let loc ← resolve maxLinks v.disk entry parent
  if isDir v.disk loc then
    match object with
    | .file stored =>
        some ⟨v.disk.insert (name :: loc) (.file ⟨v.nextIno, stored.bytes⟩), v.nextIno + 1⟩
    | .link target => some ⟨v.disk.insert (name :: loc) (.link target), v.nextIno⟩
    | .dir => none
  else none

/-- One entry of a directory of the image, at the same path in both trees. -/
def isolateEntry (isolateDir : Volume → Loc → Option Volume) (parent : Loc) (v : Volume)
    (name : Str) : Option Volume :=
  match v.disk[name :: parent ++ image]? with
  | none => none
  | some .dir => isolateDir v (name :: parent)
  | some object =>
      createAt maxLinks entry
        { v with disk := removeEntry maxLinks v.disk entry (name :: parent) } parent name object

def isolateCopyTree : Nat → Volume → Loc → Option Volume
  | 0, _, _ => none
  | fuel + 1, v, path => do
      let (disk, _) ← createDirAll maxLinks v.disk entry path
      let names ← readDir order disk (path ++ image)
      names.foldlM (isolateEntry maxLinks image entry (isolateCopyTree fuel) path)
        { v with disk := disk }

def isolatePackage (v : Volume) : Option Volume :=
  isolateCopyTree order maxLinks image entry (height v.disk) v []

/-! ## Entries of a volume -/

/-- An entry that is linked from an image, with packages placed in its `node_modules`. -/
structure Staged (v : Volume) (placed : List Loc) : Prop where
  apart : Apart image entry
  imageDir : isDir v.disk image = true
  entryDir : isDir v.disk entry = true
  imageClosed : Closed v.disk image
  entryClosed : Closed v.disk entry
  fresh : ∀ (loc : Loc) (stored : Stored), v.disk[loc]? = some (Object.file stored) →
    stored.ino < v.nextIno
  /-- Packages are directories below `node_modules`. -/
  below : ∀ q ∈ placed, [nodeModules] <:+ q ∧ q ≠ [nodeModules] ∧
    v.disk[q ++ entry]? = some .dir
  /-- Outside `node_modules` the entry has the objects of the image. -/
  linked : ∀ rel, ¬ [nodeModules] <:+ rel → v.disk[rel ++ entry]? = v.disk[rel ++ image]?
  /-- Where no package is placed, it has the directories of the image. -/
  dirs : ∀ rel, (∀ q ∈ placed, ¬ q <:+ rel) → v.disk[rel ++ image]? = some .dir →
    v.disk[rel ++ entry]? = some .dir

/-- What isolation is to leave. -/
structure Isolated (v v' : Volume) (placed : List Loc) : Prop where
  own : ∀ rel, ¬ [nodeModules] <:+ rel →
    v'.disk[rel ++ entry]?.map Stored.content = v.disk[rel ++ image]?.map Stored.content
  unshared : ∀ rel (stored : Stored), ¬ [nodeModules] <:+ rel →
    v'.disk[rel ++ entry]? = some (.file stored) →
    ∀ loc (shared : Stored), image <:+ loc → v'.disk[loc]? = some (.file shared) →
      stored.ino ≠ shared.ino
  image : ∀ loc, image <:+ loc → v'.disk[loc]? = v.disk[loc]?
  placed : ∀ q ∈ placed, ∀ rel, q <:+ rel → v'.disk[rel ++ entry]? = v.disk[rel ++ entry]?

/-- Above, at and below a placed package the image has only what the entry has too: the same
directories and the same links. -/
def Undisturbed (v : Volume) (placed : List Loc) : Prop :=
  ∀ q ∈ placed, ∀ rel object, rel <:+ q ∨ q <:+ rel → v.disk[rel ++ image]? = some object →
    v.disk[rel ++ entry]? = some object ∧ ∀ stored, object ≠ .file stored

/-- Where the image has a directory, the entry has no link. -/
def NoLinks (v : Volume) : Prop :=
  ∀ rel target, v.disk[rel ++ image]? = some .dir →
    v.disk[rel ++ entry]? ≠ some (.link target)

end

/-! ## What is left at a place -/

section Outcomes

variable {d₀ : Disk Stored} {image entry : Loc}

/-- Above the path the image has a file or a link. -/
def Covered (d₀ : Disk Stored) (image rel : Loc) : Prop :=
  ∃ above object, above <:+ rel ∧ d₀[above ++ image]? = some object ∧ object ≠ .dir

/-- What isolation leaves at a path of the entry, with inodes from a range for new files. -/
def Outcome (d₀ : Disk Stored) (image : Loc) (lo hi : Nat) (rel : Loc)
    (old new : Option (Object Stored)) : Prop :=
  match d₀[rel ++ image]? with
  | some .dir => new = some .dir
  | some (.link target) => new = some (.link target)
  | some (.file stored) =>
      ∃ ino, lo ≤ ino ∧ ino < hi ∧ new = some (.file ⟨ino, stored.bytes⟩)
  | none => (Covered d₀ image rel → new = none) ∧ (¬ Covered d₀ image rel → new = old)

theorem Outcome.mono {lo hi lo' hi' : Nat} {rel : Loc} {old new : Option (Object Stored)}
    (h : Outcome d₀ image lo hi rel old new) (hlo : lo' ≤ lo) (hhi : hi ≤ hi') :
    Outcome d₀ image lo' hi' rel old new := by
  unfold Outcome at *
  split
  · rename_i hget
    rwa [hget] at h
  · rename_i hget
    rwa [hget] at h
  · rename_i hget
    rw [hget] at h
    obtain ⟨ino, hge, hlt, hnew⟩ := h
    exact ⟨ino, hlo.trans hge, hlt.trans_le hhi, hnew⟩
  · rename_i hget
    rwa [hget] at h

/-- In an area of the entry everything is as isolation leaves it, and elsewhere as before. -/
structure Isolates (d₀ : Disk Stored) (image entry : Loc) (area : Loc → Prop) (v v' : Volume) :
    Prop where
  outside : ∀ key, (∀ rel, key = rel ++ entry → ¬ area rel) → v'.disk[key]? = v.disk[key]?
  inside : ∀ rel, area rel → Outcome d₀ image v.nextIno v'.nextIno rel v.disk[rel ++ entry]?
    v'.disk[rel ++ entry]?
  next : v.nextIno ≤ v'.nextIno

variable {area area' : Loc → Prop} {v v' v'' : Volume}

theorem Isolates.refl (hnone : ∀ rel, ¬ area rel) : Isolates d₀ image entry area v v where
  outside _ _ := rfl
  inside rel h := absurd h (hnone rel)
  next := le_rfl

theorem Isolates.outside_rel (h : Isolates d₀ image entry area v v') {rel : Loc}
    (hrel : ¬ area rel) : v'.disk[rel ++ entry]? = v.disk[rel ++ entry]? := by
  apply h.outside
  intro rel' heq
  rwa [← List.append_cancel_right heq]

/-- Steps in areas that do not meet. -/
theorem Isolates.append (h : Isolates d₀ image entry area v v')
    (h' : Isolates d₀ image entry area' v' v'') (hapart : ∀ rel, area rel → ¬ area' rel) :
    Isolates d₀ image entry (fun rel => area rel ∨ area' rel) v v'' where
  outside key hkey := by
    rw [h'.outside key fun rel heq hin => hkey rel heq (Or.inr hin),
      h.outside key fun rel heq hin => hkey rel heq (Or.inl hin)]
  inside rel hrel := by
    rcases hrel with hin | hin
    · rw [h'.outside_rel (hapart rel hin)]
      exact (h.inside rel hin).mono le_rfl h'.next
    · have hout : ¬ area rel := fun hin' => hapart rel hin' hin
      rw [← h.outside_rel hout]
      exact (h'.inside rel hin).mono h.next le_rfl
  next := h.next.trans h'.next

/-- Where the image has nothing, and nothing covers it, all is as before. -/
theorem Isolates.extend (h : Isolates d₀ image entry area v v')
    (hsub : ∀ rel, area rel → area' rel)
    (hnew : ∀ rel, area' rel → ¬ area rel →
      d₀[rel ++ image]? = none ∧ ¬ Covered d₀ image rel) :
    Isolates d₀ image entry area' v v' where
  outside key hkey := h.outside key fun rel heq hin => hkey rel heq (hsub rel hin)
  inside rel hrel := by
    by_cases hin : area rel
    · exact h.inside rel hin
    · obtain ⟨hnone, hcovered⟩ := hnew rel hrel hin
      unfold Outcome
      rw [hnone]
      exact ⟨fun hyes => absurd hyes hcovered, fun _ => h.outside_rel hin⟩
  next := h.next

end Outcomes

/-! ## One step -/

section Steps

variable {d₀ : Disk Stored} {image entry : Loc} {maxLinks : Nat} {v v' : Volume} {path : Loc}

/-- The image, from which a walk is made. -/
structure Source (d₀ : Disk Stored) (image entry : Loc) : Prop where
  apart : Apart image entry
  dir : d₀[image]? = some .dir
  closed : Closed d₀ image

/-- A path is reached: the image is as it was, and the way to the path in the entry
consists of directories. -/
structure Reached (d₀ : Disk Stored) (image entry : Loc) (v : Volume) (path : Loc) : Prop where
  agree : Agree image d₀ v.disk
  base : isDir v.disk entry = true
  closed : Closed v.disk entry
  way : ∀ loc, Above entry path loc → v.disk[loc]? = some .dir
  no_link : ∀ rel target, d₀[rel ++ image]? = some .dir →
    v.disk[rel ++ entry]? ≠ some (.link target)

theorem Source.ne_nil (hsource : Source d₀ image entry) : image ≠ [] := fun hnil =>
  hsource.apart.1 (hnil ▸ List.nil_suffix)

theorem Source.entry_ne_nil (hsource : Source d₀ image entry) : entry ≠ [] := fun hnil =>
  hsource.apart.2 (hnil ▸ List.nil_suffix)

/-- Above an object of the image there are directories. -/
theorem Source.dir_above (hsource : Source d₀ image entry) {above rel : Loc}
    (hrel : d₀[rel ++ image]? ≠ none) (habove : above <:+ rel) (hne : above ≠ rel) :
    d₀[above ++ image]? = some .dir := by
  by_cases hnil : above = []
  · rw [hnil]
    exact hsource.dir
  · apply hsource.closed.dir_above hrel (List.suffix_append above image)
      (ne_base_of_ne_nil hnil) (append_suffix_append.mpr habove)
    intro heq
    exact hne (List.append_cancel_right heq)

theorem Source.not_covered (hsource : Source d₀ image entry) {rel : Loc}
    (hdir : d₀[path ++ image]? = some .dir) (hrel : rel <:+ path) : ¬ Covered d₀ image rel := by
  rintro ⟨above, object, habove, hget, hne⟩
  have hpath : d₀[above ++ image]? = some .dir := by
    by_cases heq : above = path
    · rw [heq, hdir]
    · exact hsource.dir_above (by rw [hdir]; nofun) (habove.trans hrel) heq
  rw [hpath] at hget
  exact hne (Option.some.inj hget).symm

/-- Below what is no directory the image has nothing. -/
theorem Source.none_below (hsource : Source d₀ image entry) {above rel : Loc}
    (hleaf : d₀[above ++ image]? ≠ some .dir) (habove : above <:+ rel) (hne : above ≠ rel) :
    d₀[rel ++ image]? = none := by
  by_contra hrel
  exact hleaf (hsource.dir_above hrel habove hne)

theorem exists_child {rel : Loc} (hsuffix : path <:+ rel) (hne : rel ≠ path) :
    ∃ name, name :: path <:+ rel := by
  obtain ⟨rest, rfl⟩ := hsuffix
  rcases List.eq_nil_or_concat' rest with rfl | ⟨outer, name, rfl⟩
  · exact absurd rfl hne
  · exact ⟨name, outer, by simp⟩

/-- Below a name that a directory of the image does not have, it has nothing, and nothing
that could cover it. -/
theorem Source.untouched (hsource : Source d₀ image entry) {name : Str} {rel : Loc}
    (hdir : d₀[path ++ image]? = some .dir) (hnone : d₀[name :: path ++ image]? = none)
    (hrel : name :: path <:+ rel) : d₀[rel ++ image]? = none ∧ ¬ Covered d₀ image rel := by
  have hbelow : ∀ {rel : Loc}, name :: path <:+ rel → d₀[rel ++ image]? = none := by
    intro rel hrel
    by_cases heq : name :: path = rel
    · rw [← heq, hnone]
    · exact hsource.none_below (by rw [hnone]; nofun) hrel heq
  refine ⟨hbelow hrel, ?_⟩
  rintro ⟨above, object, habove, hobject, hleaf⟩
  rcases List.suffix_or_suffix_of_suffix habove hrel with hin | hin
  · rcases List.suffix_cons_iff.mp hin with heq | hin
    · rw [heq, hnone] at hobject
      cases hobject
    · exact hsource.not_covered hdir List.suffix_rfl ⟨above, object, hin, hobject, hleaf⟩
  · rw [hbelow hin] at hobject
    cases hobject

variable {area : Loc → Prop}

/-- The steps below a path of the image keep the image. -/
theorem Isolates.agree (h : Isolates d₀ image entry area v v') (hsource : Source d₀ image entry)
    (hagree : Agree image d₀ v.disk) : Agree image d₀ v'.disk := by
  intro key hkey
  rw [h.outside key, hagree key hkey]
  intro rel heq
  exact absurd (heq ▸ List.suffix_append rel entry) (not_below_of_apart hsource.apart hkey)

/-- Where the image has a directory, a step leaves what was there, or a directory. -/
theorem Isolates.at_dir (h : Isolates d₀ image entry area v v') {rel : Loc}
    (hdir : d₀[rel ++ image]? = some .dir) :
    v'.disk[rel ++ entry]? = v.disk[rel ++ entry]? ∨ v'.disk[rel ++ entry]? = some .dir := by
  by_cases hin : area rel
  · have houtcome := h.inside rel hin
    unfold Outcome at houtcome
    rw [hdir] at houtcome
    exact Or.inr houtcome
  · exact Or.inl (h.outside_rel hin)

theorem Isolates.isDir_base (h : Isolates d₀ image entry area v v')
    (hsource : Source d₀ image entry) (hbase : isDir v.disk entry = true) :
    isDir v'.disk entry = true := by
  have hdir : d₀[[] ++ image]? = some .dir := hsource.dir
  rcases h.at_dir hdir with hsame | hdir'
  · unfold isDir at *
    rwa [show v'.disk[entry]? = v.disk[entry]? from hsame]
  · exact isDir_of_get hdir'

/-- What is left has a directory around it, when the area has one and is all below it. -/
theorem Isolates.closed (h : Isolates d₀ image entry area v v') (hsource : Source d₀ image entry)
    (hclosed : Closed v.disk entry)
    (hupper : ∀ name rel, area (name :: rel) → area rel ∨ isDir v.disk (rel ++ entry))
    (hlower : ∀ name rel, area rel → area (name :: rel) ∨ d₀[rel ++ image]? = some .dir) :
    Closed v'.disk entry := by
  have hkept : ∀ {rel : Loc}, ¬ area rel → isDir v.disk (rel ++ entry) →
      isDir v'.disk (rel ++ entry) := by
    intro rel hout hdir
    unfold isDir at *
    rwa [h.outside_rel hout]
  intro name loc hloc hget
  obtain ⟨rel, rfl⟩ := hloc
  by_cases hrel : area rel
  · have houtcome := h.inside rel hrel
    by_cases hdir : d₀[rel ++ image]? = some .dir
    · rw [Outcome, hdir] at houtcome
      exact isDir_of_get houtcome
    · -- the child is no object of the image, and nothing covers it, or it would be gone
      have hin := (hlower name rel hrel).resolve_right hdir
      have hnone := hsource.none_below hdir (List.suffix_cons name rel) (by simp)
      obtain ⟨hgone, hstays⟩ :
          (Covered d₀ image (name :: rel) → v'.disk[name :: rel ++ entry]? = none) ∧
          (¬ Covered d₀ image (name :: rel) →
            v'.disk[name :: rel ++ entry]? = v.disk[name :: rel ++ entry]?) := by
        have hchild := h.inside _ hin
        rwa [Outcome, hnone] at hchild
      have huncovered : ¬ Covered d₀ image (name :: rel) := fun hcovered => hget (hgone hcovered)
      have hrel_none : d₀[rel ++ image]? = none := by
        by_contra hsome
        obtain ⟨object, hobject⟩ := Option.ne_none_iff_exists'.mp hsome
        exact huncovered ⟨rel, object, List.suffix_cons name rel, hobject, fun heq =>
          hdir (heq ▸ hobject)⟩
      have hrel_uncovered : ¬ Covered d₀ image rel := by
        rintro ⟨above, object, habove, hobject⟩
        exact huncovered ⟨above, object, habove.trans (List.suffix_cons name rel), hobject⟩
      have hsame : v'.disk[rel ++ entry]? = v.disk[rel ++ entry]? := by
        rw [Outcome, hrel_none] at houtcome
        exact houtcome.2 hrel_uncovered
      have hparent : isDir v.disk (rel ++ entry) := by
        apply hclosed name _ (List.suffix_append rel entry)
        rw [← List.cons_append, ← hstays huncovered]
        exact hget
      unfold isDir at *
      rwa [hsame]
  · by_cases hin : area (name :: rel)
    · exact hkept hrel ((hupper name rel hin).resolve_left hrel)
    · apply hkept hrel
      apply hclosed name _ (List.suffix_append rel entry)
      rw [← List.cons_append, ← h.outside_rel hin]
      exact hget

theorem above_of_suffix {rel : Loc} (hne : rel ≠ []) (hsuffix : rel <:+ path) (hrel : rel ≠ path) :
    Above entry path (rel ++ entry) := by
  refine ⟨⟨List.suffix_append rel entry, ne_base_of_ne_nil hne, ?_⟩, fun heq => ?_⟩
  · exact append_suffix_append.mpr hsuffix
  · exact hrel (List.append_cancel_right heq)

theorem Reached.isDir_above (h : Reached d₀ image entry v path) {rel : Loc}
    (hsuffix : rel <:+ path) (hrel : rel ≠ path) : isDir v.disk (rel ++ entry) := by
  by_cases hnil : rel = []
  · rw [hnil]
    exact h.base
  · exact isDir_of_get (h.way _ (above_of_suffix hnil hsuffix hrel))

theorem Reached.sibling (name : Str) {other : Str} (h : Reached d₀ image entry v (name :: path)) :
    Reached d₀ image entry v (other :: path) :=
  { h with way := fun loc habove => h.way loc (above_cons.mpr (above_cons.mp habove)) }

/-- A step below the path keeps it reached. -/
theorem Reached.after (h : Reached d₀ image entry v path) (hsource : Source d₀ image entry)
    (hstep : Isolates d₀ image entry area v v') (hbelow : ∀ rel, area rel → path <:+ rel)
    (hupper : ∀ name rel, area (name :: rel) → area rel ∨ name :: rel = path)
    (hlower : ∀ name rel, area rel → area (name :: rel) ∨ d₀[rel ++ image]? = some .dir) :
    Reached d₀ image entry v' path where
  agree := hstep.agree hsource h.agree
  base := hstep.isDir_base hsource h.base
  closed := by
    apply hstep.closed hsource h.closed _ hlower
    intro name rel hin
    rcases hupper name rel hin with hrel | rfl
    · exact Or.inl hrel
    · exact Or.inr (h.isDir_above (List.suffix_cons name rel) (by simp))
  way := by
    intro loc habove
    rw [hstep.outside loc, h.way loc habove]
    rintro rel rfl hin
    exact way_not_below habove (append_suffix_append.mpr (hbelow rel hin))
  no_link := by
    intro rel target hdir hget
    rcases hstep.at_dir hdir with hsame | hdir'
    · exact h.no_link rel target hdir (hsame ▸ hget)
    · rw [hdir'] at hget
      cases hget

/-- Where the image has a directory, nothing else is in its way. -/
def Free (d₀ : Disk Stored) (image entry : Loc) (v : Volume) : Prop :=
  ∀ rel, d₀[rel ++ image]? = some .dir →
    v.disk[rel ++ entry]? = none ∨ v.disk[rel ++ entry]? = some .dir

theorem Free.after (h : Free d₀ image entry v) (hstep : Isolates d₀ image entry area v v') :
    Free d₀ image entry v' := by
  intro rel hdir
  rcases hstep.at_dir hdir with hsame | hdir'
  · rw [hsame]
    exact h rel hdir
  · exact Or.inr hdir'

/-- The directory at a path is made. -/
theorem Reached.enter (maxLinks : Nat) (h : Reached d₀ image entry v path)
    (hsource : Source d₀ image entry)
    (hdir : d₀[path ++ image]? = some .dir)
    (hget : v.disk[path ++ entry]? = none ∨ v.disk[path ++ entry]? = some .dir) :
    createDirAll maxLinks v.disk entry path = some (mkdirs v.disk entry path, path ++ entry) ∧
      Isolates d₀ image entry (· = path) v { v with disk := mkdirs v.disk entry path } ∧
      ∀ name, Reached d₀ image entry { v with disk := mkdirs v.disk entry path }
        (name :: path) := by
  have hfree : ∀ loc, Way entry path loc → v.disk[loc]? = none ∨ v.disk[loc]? = some .dir := by
    intro loc hway
    by_cases heq : loc = path ++ entry
    · rwa [heq]
    · exact Or.inr (h.way loc ⟨hway, heq⟩)
  have hmade : (mkdirs v.disk entry path)[path ++ entry]? = some .dir := by
    rw [get_mkdirs]
    by_cases hnil : path = []
    · rw [hnil, if_neg fun h => not_way_nil h.1]
      exact isDir_eq_some h.base hsource.entry_ne_nil
    · rcases hget with hnone | hdir'
      · rw [if_pos ⟨way_self hnil, hnone⟩]
      · rw [if_neg (by simp [hdir']), hdir']
  have hstep : Isolates d₀ image entry (· = path) v
      { v with disk := mkdirs v.disk entry path } := by
    refine ⟨fun key hkey => ?_, fun rel hrel => ?_, le_rfl⟩
    · rw [get_mkdirs, if_neg]
      rintro ⟨hway, hnone⟩
      rw [h.way key ⟨hway, fun heq => hkey path heq rfl⟩] at hnone
      cases hnone
    · subst hrel
      rw [Outcome, hdir]
      exact hmade
  refine ⟨createDirAll_free h.base hfree, hstep, fun name => ?_⟩
  have hafter := h.after hsource hstep (fun rel heq => heq ▸ List.suffix_rfl)
    (fun name rel heq => Or.inr heq) (fun name rel heq => Or.inr (heq ▸ hdir))
  refine { hafter with way := fun loc habove => ?_ }
  by_cases heq : loc = path ++ entry
  · rw [heq]
    exact hmade
  · exact hafter.way loc ⟨above_cons.mp habove, heq⟩

/-- A file in its way, and it is not. -/
theorem Reached.blocked (h : Reached d₀ image entry v path) (hsource : Source d₀ image entry)
    (hdir : d₀[path ++ image]? = some .dir)
    (hget : ¬ (v.disk[path ++ entry]? = none ∨ v.disk[path ++ entry]? = some .dir)) :
    createDirAll maxLinks v.disk entry path = none := by
  have hpath : path ≠ [] := by
    rintro rfl
    exact hget (Or.inr (isDir_eq_some h.base hsource.entry_ne_nil))
  rcases hobject : v.disk[path ++ entry]? with _ | object
  · exact absurd (Or.inl hobject) hget
  · cases object with
    | dir => exact absurd (Or.inr hobject) hget
    | link target => exact absurd hobject (h.no_link path target hdir)
    | file stored =>
      apply createDirAll_blocked h.base _ (way_self hpath) hobject
      intro loc target hway
      by_cases heq : loc = path ++ entry
      · rw [heq, hobject]
        nofun
      · rw [h.way loc ⟨hway, heq⟩]
        nofun

/-- Something new in the place of a file or link of the image, and nothing below it. -/
theorem isolates_leaf (hsource : Source d₀ image entry) {object new : Object Stored}
    {next : Nat} (hobject : d₀[path ++ image]? = some object) (hleaf : object ≠ .dir)
    (hnext : v.nextIno ≤ next)
    (houtcome : Outcome d₀ image v.nextIno next path v.disk[path ++ entry]? (some new)) :
    Isolates d₀ image entry (fun rel => path <:+ rel) v
      ⟨(v.disk.remove (path ++ entry)).insert (path ++ entry) new, next⟩ where
  outside key hkey := by
    have hout : ¬ path ++ entry <:+ key := by
      rintro ⟨rest, rfl⟩
      exact hkey (rest ++ path) (by simp) (List.suffix_append rest path)
    have hne : path ++ entry ≠ key := fun heq => hout (heq ▸ List.suffix_rfl)
    rw [get_insert, if_neg hne, get_remove, if_neg hout]
  inside rel hrel := by
    by_cases heq : path = rel
    · rw [← heq, get_insert, if_pos rfl]
      exact houtcome
    · have hnone : d₀[rel ++ image]? = none := by
        apply hsource.none_below _ hrel heq
        rw [hobject]
        exact fun h => hleaf (Option.some.inj h)
      have hne : path ++ entry ≠ rel ++ entry := fun h => heq (List.append_cancel_right h)
      rw [Outcome, hnone, get_insert, if_neg hne, get_remove,
        if_pos (append_suffix_append.mpr hrel)]
      exact ⟨fun _ => rfl, fun hno => absurd ⟨path, object, hrel, hobject, hleaf⟩ hno⟩
  next := hnext

/-- A file or link of the image takes the place of what is there. -/
theorem isolateEntry_leaf (maxLinks : Nat) (isolateDir : Volume → Loc → Option Volume) {name : Str}
    (h : Reached d₀ image entry v (name :: path)) (hsource : Source d₀ image entry)
    {object : Object Stored} (hobject : d₀[name :: path ++ image]? = some object)
    (hleaf : object ≠ .dir) :
    ∃ v', isolateEntry maxLinks image entry isolateDir path v name = some v' ∧
      Isolates d₀ image entry (fun rel => name :: path <:+ rel) v v' := by
  have hsame : v.disk[name :: path ++ image]? = some object := by
    rw [h.agree _ (List.suffix_append (name :: path) image), hobject]
  have hremove : removeEntry maxLinks v.disk entry (name :: path) =
      v.disk.remove (name :: path ++ entry) := by
    apply removeEntry_eq h.closed h.base (by simp)
    intro loc target habove hlink
    rw [h.way loc habove] at hlink
    cases hlink
  have hkept : ∀ loc, Way entry path loc →
      (v.disk.remove (name :: path ++ entry))[loc]? = some .dir := by
    intro loc hway
    rw [get_remove_above (above_cons.mpr hway), h.way loc (above_cons.mpr hway)]
  have hresolve : resolve maxLinks (v.disk.remove (name :: path ++ entry)) entry path =
      some (path ++ entry) := resolve_of_dirs hkept
  have hparent : isDir (v.disk.remove (name :: path ++ entry)) (path ++ entry) := by
    by_cases hnil : path = []
    · subst hnil
      exact isDir_remove h.base (by simp)
    · exact isDir_of_get (hkept _ (way_self hnil))
  unfold isolateEntry
  rw [hsame]
  cases object with
  | dir => exact absurd rfl hleaf
  | file stored =>
    have houtcome : Outcome d₀ image v.nextIno (v.nextIno + 1) (name :: path)
        v.disk[name :: path ++ entry]? (some (.file ⟨v.nextIno, stored.bytes⟩)) := by
      rw [Outcome, hobject]
      exact ⟨v.nextIno, le_rfl, Nat.lt_succ_self _, rfl⟩
    refine ⟨_, ?_, isolates_leaf hsource hobject hleaf (Nat.le_succ v.nextIno) houtcome⟩
    dsimp only
    rw [createAt, hremove, hresolve, Option.bind_eq_bind, Option.bind_some, if_pos hparent]
    rfl
  | link target =>
    have houtcome : Outcome d₀ image v.nextIno v.nextIno (name :: path)
        v.disk[name :: path ++ entry]? (some (.link target)) := by
      rw [Outcome, hobject]
    refine ⟨_, ?_, isolates_leaf hsource hobject hleaf le_rfl houtcome⟩
    dsimp only
    rw [createAt, hremove, hresolve, Option.bind_eq_bind, Option.bind_some, if_pos hparent]
    rfl

/-! ## The walk -/

/-- What isolating a directory promises, for a tree that is not higher than the fuel. -/
def Faithful (d₀ : Disk Stored) (image entry : Loc) (fuel : Nat)
    (isolateDir : Volume → Loc → Option Volume) : Prop :=
  ∀ v path, Reached d₀ image entry v path → d₀[path ++ image]? = some .dir →
    (∀ v', isolateDir v path = some v' →
      Isolates d₀ image entry (fun rel => path <:+ rel) v v') ∧
    (Free d₀ image entry v →
      (∀ rel, d₀[rel ++ (path ++ image)]? ≠ none → rel.length < fuel) →
      ∃ v', isolateDir v path = some v')

variable {isolateDir : Volume → Loc → Option Volume} {fuel : Nat}

theorem isolateEntry_faithful (maxLinks : Nat)
    (hfaithful : Faithful d₀ image entry fuel isolateDir) {name : Str}
    (h : Reached d₀ image entry v (name :: path)) (hsource : Source d₀ image entry)
    (hname : d₀[name :: path ++ image]? ≠ none) :
    (∀ v', isolateEntry maxLinks image entry isolateDir path v name = some v' →
      Isolates d₀ image entry (fun rel => name :: path <:+ rel) v v') ∧
    (Free d₀ image entry v →
      (∀ rel, d₀[rel ++ (path ++ image)]? ≠ none → rel.length < fuel + 1) →
      ∃ v', isolateEntry maxLinks image entry isolateDir path v name = some v') := by
  by_cases hdir : d₀[name :: path ++ image]? = some .dir
  · have hrun : isolateEntry maxLinks image entry isolateDir path v name =
        isolateDir v (name :: path) := by
      rw [isolateEntry, h.agree _ (List.suffix_append (name :: path) image), hdir]
    rw [hrun]
    obtain ⟨hsound, htotal⟩ := hfaithful v (name :: path) h hdir
    refine ⟨hsound, fun hfree hshort => htotal hfree fun rel hrel => ?_⟩
    have hlength := hshort (rel ++ [name]) (by simpa using hrel)
    rw [List.length_append, List.length_singleton] at hlength
    omega
  · obtain ⟨object, hobject⟩ := Option.ne_none_iff_exists'.mp hname
    obtain ⟨v₁, hrun, hstep⟩ := isolateEntry_leaf maxLinks isolateDir
      h hsource hobject fun heq => hdir (heq ▸ hobject)
    rw [hrun]
    exact ⟨fun v' heq => Option.some.inj heq ▸ hstep, fun _ _ => ⟨v₁, rfl⟩⟩

theorem cons_suffix_inj {name other : Str} {rel : Loc} (h : name :: path <:+ rel)
    (h' : other :: path <:+ rel) : name = other := by
  have hsuffix := List.suffix_of_suffix_length_le h h' (by simp)
  exact (List.cons.inj (hsuffix.eq_of_length (by simp))).1

/-- Name after name. -/
theorem foldlM_faithful (maxLinks : Nat) (path : Loc)
    (hfaithful : Faithful d₀ image entry fuel isolateDir)
    (hsource : Source d₀ image entry) {listed : List Str} (hnodup : listed.Nodup)
    (hlisted : ∀ name ∈ listed, d₀[name :: path ++ image]? ≠ none)
    (h : ∀ name, Reached d₀ image entry v (name :: path)) :
    (∀ v', listed.foldlM (isolateEntry maxLinks image entry isolateDir path) v = some v' →
      Isolates d₀ image entry (fun rel => ∃ name ∈ listed, name :: path <:+ rel) v v') ∧
    (Free d₀ image entry v →
      (∀ rel, d₀[rel ++ (path ++ image)]? ≠ none → rel.length < fuel + 1) →
      ∃ v', listed.foldlM (isolateEntry maxLinks image entry isolateDir path) v = some v') := by
  induction listed generalizing v with
  | nil =>
    refine ⟨fun v' heq => ?_, fun _ _ => ⟨v, rfl⟩⟩
    cases heq
    exact Isolates.refl (by simp)
  | cons name rest ih =>
    obtain ⟨hsound, htotal⟩ := isolateEntry_faithful maxLinks hfaithful (h name)
      hsource (hlisted name List.mem_cons_self)
    obtain ⟨hnew, hrest⟩ := List.nodup_cons.mp hnodup
    have hnext : ∀ v₁, Isolates d₀ image entry (fun rel => name :: path <:+ rel) v v₁ →
        ∀ other, Reached d₀ image entry v₁ (other :: path) := by
      intro v₁ hstep other
      apply Reached.sibling name
      apply (h name).after hsource hstep (fun _ hin => hin)
      · intro first rel hin
        exact (List.suffix_cons_iff.mp hin).symm.imp_right Eq.symm
      · intro first rel hin
        exact Or.inl (hin.trans (List.suffix_cons first rel))
    have hrests := fun v₁ hstep => ih (v := v₁) hrest
      (fun other hother => hlisted other (List.mem_cons_of_mem name hother)) (hnext v₁ hstep)
    constructor
    · intro v' hrun
      rw [List.foldlM_cons] at hrun
      obtain ⟨v₁, hfirst, hrun⟩ := Option.bind_eq_some_iff.mp hrun
      have hstep := hsound v₁ hfirst
      have hsteps := hstep.append ((hrests v₁ hstep).1 v' hrun) fun rel hin ⟨other, hother, hin'⟩ =>
        hnew (cons_suffix_inj hin hin' ▸ hother)
      simpa only [List.mem_cons, exists_eq_or_imp] using hsteps
    · intro hfree hshort
      obtain ⟨v₁, hfirst⟩ := htotal hfree hshort
      have hstep := hsound v₁ hfirst
      obtain ⟨v', hrun⟩ := (hrests v₁ hstep).2 (hfree.after hstep) hshort
      refine ⟨v', ?_⟩
      rw [List.foldlM_cons, hfirst]
      exact hrun

variable {order : List Str → List Str}

/-- The walk over a directory of the image does what is promised. -/
theorem isolateCopyTree_faithful (horder : ∀ l, (order l).Perm l)
    (hsource : Source d₀ image entry) (fuel : Nat) :
    Faithful d₀ image entry fuel (isolateCopyTree order maxLinks image entry fuel) := by
  induction fuel with
  | zero =>
    intro v path _ hdir
    refine ⟨fun v' hrun => ?_, fun _ hshort => ?_⟩
    · cases hrun
    · exact absurd (hshort [] (by rw [List.nil_append, hdir]; simp)) (Nat.not_lt_zero _)
  | succ fuel ih =>
    intro v path h hdir
    by_cases hget : v.disk[path ++ entry]? = none ∨ v.disk[path ++ entry]? = some .dir
    · obtain ⟨hmade, hstep, hinside⟩ := h.enter maxLinks hsource hdir hget
      let made : Volume := { v with disk := mkdirs v.disk entry path }
      have hagree : Agree image d₀ made.disk := hstep.agree hsource h.agree
      have hmem : ∀ name, name ∈ order (names made.disk (path ++ image)) ↔
          d₀[name :: path ++ image]? ≠ none := by
        intro name
        rw [(horder _).mem_iff, mem_names, ← List.cons_append,
          hagree _ (List.suffix_append (name :: path) image)]
      have hrun : isolateCopyTree order maxLinks image entry (fuel + 1) v path =
          (order (names made.disk (path ++ image))).foldlM
            (isolateEntry maxLinks image entry
              (isolateCopyTree order maxLinks image entry fuel) path) made := by
        have hdir' : isDir made.disk (path ++ image) := by
          apply isDir_of_get
          rw [hagree _ (List.suffix_append path image), hdir]
        rw [isolateCopyTree, hmade, Option.bind_eq_bind, Option.bind_some]
        dsimp only
        rw [readDir, if_pos hdir', Option.bind_eq_bind, Option.bind_some]
      obtain ⟨hsound, htotal⟩ := foldlM_faithful maxLinks path ih hsource
        ((horder _).nodup_iff.mpr (names_nodup made.disk (path ++ image)))
        (fun name hname => (hmem name).mp hname) hinside
      rw [hrun]
      refine ⟨fun v' hfold => ?_, fun hfree hshort => htotal (hfree.after hstep) hshort⟩
      have hapart : ∀ rel, rel = path → ¬ ∃ name ∈ order (names made.disk (path ++ image)),
          name :: path <:+ rel := by
        rintro rel heq ⟨name, _, hin⟩
        have hlength := hin.length_le
        rw [heq, List.length_cons] at hlength
        omega
      have hsteps := hstep.append (hsound v' hfold) hapart
      apply hsteps.extend
      · rintro rel (rfl | ⟨name, _, hin⟩)
        · exact List.suffix_rfl
        · exact (List.suffix_cons name path).trans hin
      · intro rel hin hout
        obtain ⟨name, hbelow⟩ := exists_child hin fun heq => hout (Or.inl heq)
        have hnone : d₀[name :: path ++ image]? = none := by
          by_contra hsome
          exact hout (Or.inr ⟨name, (hmem name).mpr hsome, hbelow⟩)
        exact hsource.untouched hdir hnone hbelow
    · have hrun : isolateCopyTree order maxLinks image entry (fuel + 1) v path = none := by
        rw [isolateCopyTree, h.blocked hsource hdir hget]
        rfl
      rw [hrun]
      refine ⟨fun v' heq => ?_, fun hfree _ => absurd (hfree path hdir) hget⟩
      cases heq

end Steps

/-! ## The package -/

section Package

variable {order : List Str → List Str} {maxLinks : Nat} {image entry : Loc} {v v' : Volume}
  {placed : List Loc}

theorem Staged.source (h : Staged image entry v placed) : Source v.disk image entry where
  apart := h.apart
  dir := isDir_eq_some h.imageDir fun hnil => h.apart.1 (hnil ▸ List.nil_suffix)
  closed := h.imageClosed

theorem Free.noLinks (h : Free v.disk image entry v) : NoLinks image entry v := by
  intro rel target hdir hlink
  rcases h rel hdir with hget | hget
  · rw [hget] at hlink
    cases hlink
  · rw [hget] at hlink
    cases hlink

theorem Staged.reached (h : Staged image entry v placed) (hlinks : NoLinks image entry v) :
    Reached v.disk image entry v [] where
  agree _ _ := rfl
  base := h.entryDir
  closed := h.entryClosed
  way _ habove := absurd habove.1 not_way_nil
  no_link := hlinks

/-- What isolation leaves of the entry, when it succeeds. -/
theorem isolatePackage_isolates (horder : ∀ l, (order l).Perm l)
    (hstaged : Staged image entry v placed) (hlinks : NoLinks image entry v)
    (hrun : isolatePackage order maxLinks image entry v = some v') :
    Isolates v.disk image entry (fun rel => [] <:+ rel) v v' :=
  (isolateCopyTree_faithful horder hstaged.source (height v.disk) v [] (hstaged.reached hlinks)
    hstaged.source.dir).1 v' hrun

theorem isolatePackage_total (maxLinks : Nat) (horder : ∀ l, (order l).Perm l)
    (hstaged : Staged image entry v placed) (hfree : Free v.disk image entry v) :
    ∃ v', isolatePackage order maxLinks image entry v = some v' := by
  apply (isolateCopyTree_faithful horder hstaged.source (height v.disk) v []
    (hstaged.reached hfree.noLinks) hstaged.source.dir).2 hfree
  intro rel hrel
  obtain ⟨object, hobject⟩ := Option.ne_none_iff_exists'.mp hrel
  have hlength := length_lt_height hobject
  rw [List.length_append] at hlength
  omega

/-- Undisturbed, the entry has every directory of the image. -/
theorem Staged.free (h : Staged image entry v placed) (hclear : Undisturbed image entry v placed) :
    Free v.disk image entry v := by
  intro rel hdir
  by_cases hplaced : ∃ q ∈ placed, q <:+ rel
  · obtain ⟨q, hq, hsuffix⟩ := hplaced
    exact Or.inr (hclear q hq rel .dir (Or.inr hsuffix) hdir).1
  · apply Or.inr (h.dirs rel _ hdir)
    intro q hq hsuffix
    exact hplaced ⟨q, hq, hsuffix⟩

/-- The files outside `node_modules` are the package's own. -/
theorem Isolates.own (h : Isolates v.disk image entry (fun rel => [] <:+ rel) v v')
    (hstaged : Staged image entry v placed) {rel : Loc} (hrel : ¬ [nodeModules] <:+ rel) :
    v'.disk[rel ++ entry]?.map Stored.content = v.disk[rel ++ image]?.map Stored.content ∧
      ∀ stored, v'.disk[rel ++ entry]? = some (.file stored) → v.nextIno ≤ stored.ino := by
  have houtcome := h.inside rel List.nil_suffix
  have hlinked := hstaged.linked rel hrel
  unfold Outcome at houtcome
  split at houtcome
  · rename_i hobject
    rw [houtcome, hobject]
    exact ⟨rfl, nofun⟩
  · rename_i target hobject
    rw [houtcome, hobject]
    exact ⟨rfl, nofun⟩
  · rename_i stored hobject
    obtain ⟨ino, hge, _, hnew⟩ := houtcome
    rw [hnew, hobject]
    refine ⟨rfl, fun stored' heq => ?_⟩
    cases heq
    exact hge
  · rename_i hobject
    have hnone : v'.disk[rel ++ entry]? = none := by
      by_cases hcovered : Covered v.disk image rel
      · exact houtcome.1 hcovered
      · rw [houtcome.2 hcovered, hlinked, hobject]
    rw [hnone, hobject]
    exact ⟨rfl, nofun⟩

/-- What is covered is gone before, too, when the entry has the link that covers it. -/
theorem Staged.none_of_link (h : Staged image entry v placed) {above rel : Loc}
    (habove : above <:+ rel) (hne : above ≠ rel) {target : Str}
    (hlink : v.disk[above ++ entry]? = some (.link target)) : v.disk[rel ++ entry]? = none := by
  by_contra hrel
  have hentry : above ++ entry ≠ entry := by
    intro heq
    have hdir := isDir_eq_some h.entryDir h.source.entry_ne_nil
    rw [← heq, hlink] at hdir
    cases hdir
  have hdir := h.entryClosed.dir_above hrel (List.suffix_append above entry) hentry
    (append_suffix_append.mpr habove) fun heq => hne (List.append_cancel_right heq)
  rw [hlink] at hdir
  cases hdir

/-- Undisturbed, a placed package is left as it was. -/
theorem Isolates.kept (h : Isolates v.disk image entry (fun rel => [] <:+ rel) v v')
    (hstaged : Staged image entry v placed) (hclear : Undisturbed image entry v placed) {q : Loc}
    (hq : q ∈ placed) {rel : Loc} (hrel : q <:+ rel) :
    v'.disk[rel ++ entry]? = v.disk[rel ++ entry]? := by
  have houtcome := h.inside rel List.nil_suffix
  unfold Outcome at houtcome
  split at houtcome
  · rename_i hobject
    rw [houtcome, (hclear q hq rel _ (Or.inr hrel) hobject).1]
  · rename_i target hobject
    rw [houtcome, (hclear q hq rel _ (Or.inr hrel) hobject).1]
  · rename_i stored hobject
    exact absurd rfl ((hclear q hq rel _ (Or.inr hrel) hobject).2 stored)
  · rename_i hnone
    by_cases hcovered : Covered v.disk image rel
    · rw [houtcome.1 hcovered]
      obtain ⟨above, object, habove, hobject, hleaf⟩ := hcovered
      have hne : above ≠ rel := by
        rintro rfl
        rw [hnone] at hobject
        cases hobject
      obtain ⟨hsame, hfile⟩ := hclear q hq above object
        (List.suffix_or_suffix_of_suffix habove hrel) hobject
      cases object with
      | dir => exact absurd rfl hleaf
      | file stored => exact absurd rfl (hfile stored)
      | link target => exact (hstaged.none_of_link habove hne hsame).symm
    · exact houtcome.2 hcovered

theorem isolated_of_undisturbed (horder : ∀ l, (order l).Perm l)
    (hstaged : Staged image entry v placed) (hclear : Undisturbed image entry v placed) :
    ∃ v', isolatePackage order maxLinks image entry v = some v' ∧
      Isolated image entry v v' placed := by
  have hfree := hstaged.free hclear
  obtain ⟨v', hrun⟩ := isolatePackage_total maxLinks horder hstaged hfree
  have hstep := isolatePackage_isolates horder hstaged hfree.noLinks hrun
  have himage : Agree image v.disk v'.disk := hstep.agree hstaged.source fun _ _ => rfl
  refine ⟨v', hrun, ?_, ?_, himage, fun q hq rel => hstep.kept hstaged hclear hq⟩
  · intro rel hrel
    exact (hstep.own hstaged hrel).1
  · intro rel stored hrel hget loc shared hloc hshared
    have hnew := (hstep.own hstaged hrel).2 stored hget
    rw [himage loc hloc] at hshared
    have hold := hstaged.fresh loc shared hshared
    omega

/-- What is above a placed package and is left as a file or link leaves no package. -/
theorem Isolates.uncovered (h : Isolates v.disk image entry (fun rel => [] <:+ rel) v v')
    (hstaged : Staged image entry v placed) {q above : Loc}
    (hkept : v'.disk[q ++ entry]? = some .dir) (habove : above <:+ q) (hne : above ≠ q)
    {object : Object Stored} (hobject : v.disk[above ++ image]? = some object) :
    object = .dir := by
  by_contra hleaf
  have hnone : v.disk[q ++ image]? = none := by
    apply hstaged.source.none_below _ habove hne
    rw [hobject]
    exact fun heq => hleaf (Option.some.inj heq)
  have houtcome := h.inside q List.nil_suffix
  rw [Outcome, hnone] at houtcome
  rw [houtcome.1 ⟨above, object, habove, hobject, hleaf⟩] at hkept
  cases hkept

theorem undisturbed_of_isolated (horder : ∀ l, (order l).Perm l)
    (hstaged : Staged image entry v placed) (hlinks : NoLinks image entry v)
    (hrun : isolatePackage order maxLinks image entry v = some v')
    (hisolated : Isolated image entry v v' placed) : Undisturbed image entry v placed := by
  have hstep := isolatePackage_isolates horder hstaged hlinks hrun
  intro q hq rel object hrel hobject
  have hplace := (hstaged.below q hq).2.2
  have hkept : v'.disk[q ++ entry]? = some .dir := by
    rw [hisolated.placed q hq q List.suffix_rfl, hplace]
  by_cases hin : q <:+ rel
  · -- at the package or below it, what is left is what was there
    have hsame := hisolated.placed q hq rel hin
    have houtcome := hstep.inside rel List.nil_suffix
    rw [Outcome, hobject, hsame] at houtcome
    cases object with
    | dir => exact ⟨houtcome, nofun⟩
    | link target => exact ⟨houtcome, nofun⟩
    | file stored =>
      obtain ⟨ino, hge, _, hget⟩ := houtcome
      have hold := hstaged.fresh _ _ hget
      dsimp only at hold
      omega
  · -- above it there are directories
    have habove : rel <:+ q := hrel.resolve_right hin
    have hne : rel ≠ q := fun heq => hin (heq ▸ List.suffix_rfl)
    rw [hstep.uncovered hstaged hkept habove hne hobject]
    refine ⟨?_, nofun⟩
    by_cases hnil : rel = []
    · rw [hnil]
      exact isDir_eq_some hstaged.entryDir hstaged.source.entry_ne_nil
    · apply hstaged.entryClosed.dir_above _ (List.suffix_append rel entry)
        (ne_base_of_ne_nil hnil) (append_suffix_append.mpr habove)
        fun heq => hne (List.append_cancel_right heq)
      rw [hplace]
      nofun

/-- Isolation leaves the placed packages alone, and does all else, when the image is out of
their way. -/
theorem isolatePackage_isolated_iff (horder : ∀ l, (order l).Perm l)
    (hstaged : Staged image entry v placed) :
    (Undisturbed image entry v placed →
      ∃ v', isolatePackage order maxLinks image entry v = some v' ∧
        Isolated image entry v v' placed) ∧
    (NoLinks image entry v →
      (∃ v', isolatePackage order maxLinks image entry v = some v' ∧
        Isolated image entry v v' placed) → Undisturbed image entry v placed) := by
  constructor
  · exact isolated_of_undisturbed horder hstaged
  · rintro hlinks ⟨v', hrun, hisolated⟩
    exact undisturbed_of_isolated horder hstaged hlinks hrun hisolated

end Package

namespace Bundles

def image : Loc := [lit "image"]

def entry : Loc := [lit "entry"]

def dep : Loc := [lit "dep", nodeModules]

def file (ino : Nat) (byte : UInt8) : Object Stored := .file ⟨ino, [byte]⟩

/-- The image bundles a package; `dep` is placed in the entry. -/
def volume (bundled : Str) : Volume where
  disk := (Std.ExtTreeMap.empty : Disk Stored)
    |>.insert image .dir |>.insert (lit "package.json" :: image) (file 0 1)
    |>.insert (nodeModules :: image) .dir |>.insert (bundled :: nodeModules :: image) .dir
    |>.insert (lit "package.json" :: bundled :: nodeModules :: image) (file 1 2)
    |>.insert entry .dir |>.insert (lit "package.json" :: entry) (file 0 1)
    |>.insert (nodeModules :: entry) .dir |>.insert (bundled :: nodeModules :: entry) .dir
    |>.insert (lit "package.json" :: bundled :: nodeModules :: entry) (file 1 2)
    |>.insert (dep ++ entry) .dir |>.insert (lit "package.json" :: dep ++ entry) (file 2 3)
  nextIno := 3

def older (next : Nat) : Object Stored → Bool
  | .file stored => stored.ino < next
  | _ => true

/-- An object below `src`, unless it is below a path there, is the same below `dst`. -/
def Matched (d : Disk Stored) (src : Str) (dst path key : Loc) (object : Object Stored) : Prop :=
  key.getLast? = some src → ¬ path <:+ key.dropLast → d[key.dropLast ++ dst]? = some object

instance (d : Disk Stored) (src : Str) (dst path key : Loc) (object : Object Stored) :
    Decidable (Matched d src dst path key object) := by
  unfold Matched
  infer_instance

/-- What is to be seen at every object of the disk. -/
def Check (v : Volume) (key : Loc) (object : Object Stored) : Prop :=
  isDir v.disk key.tail = true ∧ object.isLink = false ∧ older v.nextIno object = true ∧
    Matched v.disk (lit "entry") image [nodeModules] key object ∧
    Matched v.disk (lit "image") entry [nodeModules] key object ∧
    (object = .dir → Matched v.disk (lit "image") entry dep key .dir)

instance (v : Volume) (key : Loc) (object : Object Stored) : Decidable (Check v key object) := by
  unfold Check
  infer_instance

theorem staged_of_check {v : Volume} (hcheck : ∀ p ∈ v.disk.toList, Check v p.1 p.2)
    (himage : isDir v.disk image = true) (hentry : isDir v.disk entry = true)
    (hdep : v.disk[dep ++ entry]? = some .dir) :
    Staged image entry v [dep] ∧ NoLinks image entry v := by
  have hget : ∀ {loc object}, v.disk[loc]? = some object → Check v loc object :=
    fun h => hcheck (_, _) (mem_toList.mpr h)
  have hclosed : ∀ base, Closed v.disk base := by
    intro base name loc _ hsome
    obtain ⟨object, hobject⟩ := Option.ne_none_iff_exists'.mp hsome
    exact (hget hobject).1
  refine ⟨⟨⟨by decide, by decide⟩, himage, hentry, hclosed _, hclosed _, ?_, ?_, ?_, ?_⟩, ?_⟩
  · intro loc stored hstored
    simpa [older] using (hget hstored).2.2.1
  · intro q hq
    obtain rfl := List.mem_singleton.mp hq
    exact ⟨by decide, by decide, hdep⟩
  · intro rel hrel
    apply Option.ext
    intro object
    constructor
    · intro hobject
      simpa [Matched, entry, hrel] using (hget hobject).2.2.2.1
    · intro hobject
      simpa [Matched, image, hrel] using (hget hobject).2.2.2.2.1
  · intro rel hrel hobject
    have hout := hrel dep List.mem_cons_self
    simpa [Matched, image, hout] using (hget hobject).2.2.2.2.2 rfl
  · intro rel target _ hlink
    have hno := (hget hlink).2.1
    cases hno

end Bundles

section Results

open Bundles

/-- The image bundles another package. -/
theorem isolatePackage_isolated_other :
    ∃ v', isolatePackage id 40 image entry (volume (lit "other")) = some v' ∧
      Isolated image entry (volume (lit "other")) v' [dep] := by
  have hcheck : ∀ p ∈ (volume (lit "other")).disk.toList, Check (volume (lit "other")) p.1 p.2 := by
    decide +kernel
  obtain ⟨hstaged, -⟩ := staged_of_check hcheck (by decide) (by decide) (by decide)
  have hway : ∀ p ∈ (volume (lit "other")).disk.toList, p.1.getLast? = some (lit "image") →
      (p.1.dropLast <:+ dep ∨ dep <:+ p.1.dropLast) →
        (volume (lit "other")).disk[p.1.dropLast ++ Bundles.entry]? = some p.2 ∧ p.2 = .dir := by
    decide +kernel
  apply (isolatePackage_isolated_iff (fun l => List.Perm.refl l) hstaged).1
  intro q hq rel object hrel hobject
  obtain rfl := List.mem_singleton.mp hq
  have hsame := hway _ (mem_toList.mpr hobject) (by simp [image]) (by simpa [image] using hrel)
  rw [show (rel ++ image).dropLast = rel by simp [image]] at hsame
  refine ⟨hsame.1, ?_⟩
  rw [show object = .dir from hsame.2]
  nofun

/-- The image bundles the package that is placed. -/
theorem isolatePackage_overwrites :
    Staged image entry (volume (lit "dep")) [dep] ∧
      ¬ ∃ v', isolatePackage id 40 image entry (volume (lit "dep")) = some v' ∧
        Isolated image entry (volume (lit "dep")) v' [dep] := by
  have hcheck : ∀ p ∈ (volume (lit "dep")).disk.toList, Check (volume (lit "dep")) p.1 p.2 := by
    decide +kernel
  obtain ⟨hstaged, hlinks⟩ := staged_of_check hcheck (by decide) (by decide) (by decide)
  refine ⟨hstaged, ?_⟩
  rintro ⟨v', hrun, hisolated⟩
  have hclear := undisturbed_of_isolated (fun l => List.Perm.refl l) hstaged hlinks hrun hisolated
  have hbundled : (volume (lit "dep")).disk[(lit "package.json" :: dep) ++ image]? =
      some (file 1 2) := by decide
  obtain ⟨-, hfile⟩ := hclear dep List.mem_cons_self (lit "package.json" :: dep) (file 1 2)
    (Or.inr (by decide)) hbundled
  exact hfile ⟨1, [2]⟩ rfl

end Results

end Isolation
end Bpm
