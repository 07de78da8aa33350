import Bpm.Lib.DirTree
import Bpm.Lib.Folds
import Bpm.Store.PackageImage

/-!
# Linking an image into a project

An extracted image is recreated in a project file by file, either along the sidecar index
or along a walk of its directory.  The index lists files and links under texts of their
paths, so what it cannot say is lost: empty directories, and names and link targets that
are not their own text.  The model is that of a Unix system.
-/

namespace Bpm
namespace LinkTree

open Bytes DirTree PackageImage Sorting

/-- What stands below the target, and at the target itself. -/
abbrev Target := Path → Option (Inode Bytes)

inductive LinkError
  | invalidIndex
  | unsafePath (relative : Str)
  | io
deriving DecidableEq

/-- What is asked of the system, with paths relative to the image and to the target. -/
inductive Call
  | createDirAll (path : Path)
  | linkFile (source dest : Path)
  | makeSymlink (target : Bytes) (path : Path)

def absent : Target := fun _ => none

def Target.set (t : Target) (path : Path) (o : Inode Bytes) : Target :=
  fun p => if p = path then some o else t p

/-- Everything above a path is a directory. -/
def Ready (t : Target) (path : Path) : Prop :=
  ∀ k < path.length, t (path.take k) = some .directory

instance (t : Target) (path : Path) : Decidable (Ready t path) :=
  inferInstanceAs (Decidable (∀ k < path.length, t (path.take k) = some .directory))

section

-- what the system does with a call whose path leads through a link, or that finds something
-- else than it needs
variable (otherwise : DirTree → Call → Target → Except LinkError Target)

section Calls

variable (image : DirTree)

def createDirAll (path : Path) (t : Target) : Except LinkError Target :=
  if ∀ k ≤ path.length, t (path.take k) = none ∨ t (path.take k) = some .directory then
    .ok fun p => if p <+: path then some .directory else t p
  else otherwise image (.createDirAll path) t

/-- A hard link, a clone or a copy: a file with the same content. -/
def linkFile (source dest : Path) (t : Target) : Except LinkError Target :=
  match image.lookup source with
  | some (.file content) =>
      if Ready t dest ∧ t dest = none then .ok (t.set dest (.file content))
      else otherwise image (.linkFile source dest) t
  | _ => otherwise image (.linkFile source dest) t

def makeSymlink (target : Bytes) (path : Path) (t : Target) : Except LinkError Target :=
  if Ready t path ∧ t path = none then .ok (t.set path (.symlink target))
  else otherwise image (.makeSymlink target path) t

/-! ## Along a walk -/

def linkObject (t : Target) (e : Path × Inode Bytes) : Except LinkError Target :=
  match e.2 with
  | .directory => createDirAll otherwise image e.1 t
  | .file _ => linkFile otherwise image e.1 e.1 t
  | .symlink target => makeSymlink otherwise image target e.1 t

def linkTreeByWalkingDirectory : Except LinkError Target := do
  let t ← createDirAll otherwise image [] absent
  image.objects.foldlM (linkObject otherwise image) t

/-! ## Along the index -/

def safeRelativeJoin (relative : Str) : Except LinkError Path :=
  match textPath relative with
  | some path => .ok path
  | none => .error (.unsafePath relative)

/-- Parents are created once; the second component holds those that were. -/
def createParent (path : Path) (s : Target × List Path) : Except LinkError (Target × List Path) :=
  if path.dropLast ∈ s.2 then .ok s
  else do
    let t ← createDirAll otherwise image path.dropLast s.1
    return (t, path.dropLast :: s.2)

def linkEntry (s : Target × List Path) : IndexEntry → Except LinkError (Target × List Path)
  | .file relative => do
      let source ← safeRelativeJoin relative
      let dest ← safeRelativeJoin relative
      let (t, created) ← createParent otherwise image dest s
      let t ← linkFile otherwise image source dest t
      return (t, created)
  | .symlink relative target => do
      let dest ← safeRelativeJoin relative
      let (t, created) ← createParent otherwise image dest s
      let t ← makeSymlink otherwise image (utf8 target) dest t
      return (t, created)

def linkEntriesFromIndex (entries : List IndexEntry) : Except LinkError Target := do
  let t ← createDirAll otherwise image [] absent
  let (t, _) ← entries.foldlM (linkEntry otherwise image) (t, [])
  return t

/-- The index is read before anything is removed; the target is absent from then on. -/
def linkTree (sidecar : Option Bytes) : Except LinkError Target :=
  match sidecar with
  | some bytes =>
      match decodeIndex bytes with
      | some entries => linkEntriesFromIndex otherwise image entries
      | none => .error .invalidIndex
  | none => linkTreeByWalkingDirectory otherwise image

end Calls

/-! ## Trees as far as they are built -/

/-- Some path leads to or through this one. -/
def Covers (paths : List Path) (path : Path) : Prop := path = [] ∨ ∃ p ∈ paths, path <+: p

instance (paths : List Path) (path : Path) : Decidable (Covers paths path) :=
  inferInstanceAs (Decidable (_ ∨ _))

/-- The part of a tree that leads to some paths. -/
def built (tree : Target) (paths : List Path) : Target :=
  fun p => if Covers paths p then tree p else none

/-- Everything above an object is a directory. -/
structure Rooted (tree : Target) : Prop where
  root : tree [] = some .directory
  parent : ∀ {path rel o}, rel ≠ [] → tree (path ++ rel) = some o → tree path = some .directory

theorem built_congr {tree : Target} {l m : List Path} (h : ∀ p, Covers l p ↔ Covers m p) :
    built tree l = built tree m := by
  funext p
  unfold built
  simp only [h p]

theorem covers_append {l m : List Path} {p : Path} :
    Covers (l ++ m) p ↔ Covers l p ∨ Covers m p := by
  unfold Covers
  simp only [List.mem_append, or_and_right, exists_or]
  rw [← or_or_distrib_left]

theorem Covers.upward {l : List Path} {p q : Path} (h : Covers l p) (hq : q <+: p) :
    Covers l q := by
  rcases h with rfl | ⟨path, hmem, hp⟩
  · exact Or.inl (List.prefix_nil.mp hq)
  · exact Or.inr ⟨path, hmem, hq.trans hp⟩

theorem covers_singleton {p q : Path} : Covers [p] q ↔ q = [] ∨ q <+: p := by
  simp [Covers]

/-- What is above a path is above or at its parent. -/
theorem prefix_dropLast {p q : Path} (h : q <+: p) (hne : q ≠ p) : q <+: p.dropLast := by
  obtain ⟨rel, rfl⟩ := h
  have hrel : rel ≠ [] := by
    rintro rfl
    exact hne (List.append_nil q).symm
  rw [List.dropLast_append_of_ne_nil hrel]
  exact List.prefix_append q rel.dropLast

section Build

variable {tree : Target} (htree : Rooted tree) {paths : List Path} {path : Path} {o : Inode Bytes}

include htree

theorem Rooted.above (h : tree path = some o) {q : Path} (hq : q <+: path) (hne : q ≠ path) :
    tree q = some .directory := by
  obtain ⟨rel, rfl⟩ := hq
  apply htree.parent _ h
  rintro rfl
  exact hne (List.append_nil q).symm

theorem Rooted.prefix_directory (h : tree path = some .directory) {q : Path} (hq : q <+: path) :
    tree q = some .directory := by
  by_cases hne : q = path
  · rw [hne, h]
  · exact htree.above h hq hne

/-- Directories can be created along the tree. -/
theorem createDirAll_built {image : DirTree} (h : tree path = some .directory) :
    createDirAll otherwise image path (built tree paths) = .ok (built tree (paths ++ [path])) := by
  have habove : ∀ q, q <+: path → tree q = some .directory := fun q hq =>
    htree.prefix_directory h hq
  unfold createDirAll
  rw [if_pos]
  · congr 1
    funext q
    unfold built
    by_cases hq : q <+: path
    · rw [if_pos hq, if_pos (covers_append.mpr (Or.inr (covers_singleton.mpr (Or.inr hq)))),
        habove q hq]
    · have hiff : Covers (paths ++ [path]) q ↔ Covers paths q := by
        rw [covers_append, covers_singleton]
        constructor
        · rintro (hcovers | rfl | hpath)
          · exact hcovers
          · exact Or.inl rfl
          · exact absurd hpath hq
        · exact Or.inl
      rw [if_neg hq]
      simp only [hiff]
  · intro k _
    unfold built
    split
    · exact Or.inr (habove _ (List.take_prefix k path))
    · exact Or.inl rfl

theorem createDirAll_absent {image : DirTree} :
    createDirAll otherwise image [] absent = .ok (built tree []) := by
  unfold createDirAll absent
  rw [if_pos (fun _ _ => Or.inl rfl)]
  congr 1
  funext q
  unfold built
  by_cases hq : q = []
  · have hcovers : Covers [] q := Or.inl hq
    rw [if_pos (List.prefix_nil.mpr hq), if_pos hcovers, hq, htree.root]
  · have hcovers : ¬ Covers [] q := by simp [Covers, hq]
    rw [if_neg (mt List.prefix_nil.mp hq), if_neg hcovers]

/-- Below what is built, a new path is ready for its object. -/
theorem ready_built (h : tree path = some o) (hparent : Covers paths path.dropLast) :
    Ready (built tree paths) path := by
  intro k hk
  have hne : path.take k ≠ path := by
    intro heq
    have hlength := congrArg List.length heq
    rw [List.length_take] at hlength
    omega
  have habove := List.take_prefix k path
  unfold built
  rw [if_pos (hparent.upward (prefix_dropLast habove hne)), htree.above h habove hne]

omit htree in
theorem built_fresh (hfresh : ¬ Covers paths path) : built tree paths path = none := by
  unfold built
  rw [if_neg hfresh]

omit htree in
theorem built_set (h : tree path = some o) (hparent : Covers paths path.dropLast) :
    (built tree paths).set path o = built tree (paths ++ [path]) := by
  funext q
  unfold Target.set built
  by_cases hq : q = path
  · subst hq
    have hcovers : Covers (paths ++ [q]) q :=
      covers_append.mpr (Or.inr (covers_singleton.mpr (Or.inr (List.prefix_refl q))))
    rw [if_pos rfl, if_pos hcovers, h]
  · have hiff : Covers (paths ++ [path]) q ↔ Covers paths q := by
      rw [covers_append, covers_singleton]
      constructor
      · rintro (hcovers | rfl | hpath)
        · exact hcovers
        · exact Or.inl rfl
        · exact hparent.upward (prefix_dropLast hpath hq)
      · exact Or.inl
    rw [if_neg hq]
    simp only [hiff]

theorem linkFile_built {image : DirTree} {source : Path} {content : Bytes}
    (hsource : image.lookup source = some (.file content)) (h : tree path = some (.file content))
    (hparent : Covers paths path.dropLast) (hfresh : ¬ Covers paths path) :
    linkFile otherwise image source path (built tree paths) =
      .ok (built tree (paths ++ [path])) := by
  unfold linkFile
  rw [hsource]
  dsimp only
  rw [if_pos ⟨ready_built htree h hparent, built_fresh hfresh⟩, built_set h hparent]

theorem makeSymlink_built {image : DirTree} {target : Bytes}
    (h : tree path = some (.symlink target)) (hparent : Covers paths path.dropLast)
    (hfresh : ¬ Covers paths path) :
    makeSymlink otherwise image target path (built tree paths) =
      .ok (built tree (paths ++ [path])) := by
  unfold makeSymlink
  rw [if_pos ⟨ready_built htree h hparent, built_fresh hfresh⟩, built_set h hparent]

end Build

theorem not_prefix_dropLast {path : Path} (hne : path ≠ []) : ¬ path <+: path.dropLast := by
  intro h
  have hlength := h.length_le
  have hpos := List.length_pos_iff.mpr hne
  rw [List.length_dropLast] at hlength
  omega

/-! ## The walk -/

theorem rooted_lookup (image : DirTree) : Rooted image.lookup where
  root := lookup_nil image
  parent := lookup_parent

/-- A step of the walk, after those before it. -/
theorem linkObject_built {image : DirTree} {pre post : List (Path × Inode Bytes)}
    {e : Path × Inode Bytes} (h : image.objects = pre ++ e :: post) :
    linkObject otherwise image (built image.lookup (pre.map Prod.fst)) e =
      .ok (built image.lookup ((pre ++ [e]).map Prod.fst)) := by
  obtain ⟨path, o⟩ := e
  have hmem : (path, o) ∈ image.objects := by
    rw [h]
    exact List.mem_append_right _ List.mem_cons_self
  obtain ⟨hne, hlookup⟩ := mem_objects.mp hmem
  have hparent : Covers (pre.map Prod.fst) path.dropLast := by
    by_cases hroot : path.dropLast = []
    · exact Or.inl hroot
    · have hproper : path.dropLast ≠ path := by
        intro heq
        apply not_prefix_dropLast hne
        rw [heq]
      have hbefore := mem_before h hroot (List.dropLast_prefix path) hproper
      exact Or.inr ⟨_, List.mem_map_of_mem hbefore, List.prefix_refl _⟩
  have hfresh : ¬ Covers (pre.map Prod.fst) path := by
    rintro (hnil | ⟨p, hp, habove⟩)
    · exact hne hnil
    · obtain ⟨e', he', rfl⟩ := List.mem_map.mp hp
      have hpairwise := pairwise_objects image
      rw [h] at hpairwise
      exact (List.pairwise_append.mp hpairwise).2.2 e' he' _ List.mem_cons_self habove
  rw [List.map_append, List.map_singleton]
  cases o with
  | directory => exact createDirAll_built otherwise (rooted_lookup image) hlookup
  | file content =>
      exact linkFile_built otherwise (rooted_lookup image) hlookup hlookup hparent hfresh
  | symlink target =>
      exact makeSymlink_built otherwise (rooted_lookup image) hlookup hparent hfresh

/-- The walk recreates the directory. -/
theorem linkTreeByWalkingDirectory_eq (image : DirTree) :
    linkTreeByWalkingDirectory otherwise image = .ok image.lookup := by
  obtain ⟨t, hfold, rfl⟩ := @Folds.total _ _ _ (linkObject otherwise image) image.objects
    (built image.lookup []) (fun pre t => t = built image.lookup (pre.map Prod.fst)) rfl
    (by
      rintro pre e post _ hsplit rfl
      exact ⟨_, linkObject_built otherwise hsplit, rfl⟩)
  have hall : built image.lookup (image.objects.map Prod.fst) = image.lookup := by
    funext path
    unfold built
    split
    · rfl
    · rename_i hcovers
      cases hlookup : image.lookup path with
      | none => rfl
      | some o =>
          have hne : path ≠ [] := fun hnil => hcovers (Or.inl hnil)
          have hmem : path ∈ image.objects.map Prod.fst :=
            List.mem_map.mpr ⟨_, mem_objects.mpr ⟨hne, hlookup⟩, rfl⟩
          exact absurd (Or.inr ⟨_, hmem, List.prefix_refl _⟩) hcovers
  unfold linkTreeByWalkingDirectory
  rw [createDirAll_absent otherwise (rooted_lookup image)]
  show List.foldlM _ _ _ = _
  rw [hfold, hall]

/-! ## The index -/

/-- The tree with the targets of links as the index gives them. -/
def seen (image : DirTree) : Target := fun path =>
  (image.lookup path).map (Inode.map fun target => utf8 (toStringLossy target))

theorem rooted_seen (image : DirTree) : Rooted (seen image) where
  root := rfl
  parent := by
    intro path rel o hne h
    obtain ⟨o', hlookup, _⟩ := Option.map_eq_some_iff.mp h
    unfold seen
    rw [lookup_parent hne hlookup]
    rfl

theorem path_indexEntry {e : Path × Inode Bytes} {entry : IndexEntry}
    (h : OnDisk.indexEntry e = some entry) : PackageImage.path entry = pathText e.1 := by
  obtain ⟨path, o⟩ := e
  cases o with
  | directory => cases h
  | file _ =>
      cases h
      rfl
  | symlink _ =>
      cases h
      rfl

section Index

variable {image : DirTree} (hplain : image.PlainNames)

/-- The paths of the entries that are linked. -/
def linked (entries : List IndexEntry) : List Path :=
  entries.filterMap fun entry => textPath (PackageImage.path entry)

include hplain

theorem textPath_object {path : Path} {o : Inode Bytes} (h : (path, o) ∈ image.objects) :
    textPath (pathText path) = some path := by
  obtain ⟨hne, hlookup⟩ := mem_objects.mp h
  apply textPath_pathText hne
  intro name hname
  exact ⟨validNames hlookup name hname, hplain _ h name hname⟩

/-- An entry of the index stands for the object at the path that it is read as. -/
theorem textPath_indexEntry {path : Path} {o : Inode Bytes} (h : (path, o) ∈ image.objects)
    {entry : IndexEntry} (hentry : OnDisk.indexEntry (path, o) = some entry) :
    textPath (PackageImage.path entry) = some path := by
  rw [path_indexEntry hentry]
  exact textPath_object hplain h

theorem indexEntry_inj {e e' : Path × Inode Bytes} (he : e ∈ image.objects)
    (he' : e' ∈ image.objects) {entry : IndexEntry} (h : OnDisk.indexEntry e = some entry)
    (h' : OnDisk.indexEntry e' = some entry) : e = e' := by
  obtain ⟨path, o⟩ := e
  obtain ⟨path', o'⟩ := e'
  have hpath : path = path' := by
    apply Option.some.inj
    rw [← textPath_indexEntry hplain he h, ← textPath_indexEntry hplain he' h']
  have ho : o = o' := by
    apply Option.some.inj
    rw [← (mem_objects.mp he).2, ← (mem_objects.mp he').2, hpath]
  rw [hpath, ho]

theorem nodup_collectIndex : (OnDisk.collectIndex image).Nodup := by
  unfold OnDisk.collectIndex
  apply List.pairwise_filterMap.mpr
  apply List.Pairwise.imp_of_mem _ (nodup_objects image)
  intro e e' he he' hne entry hentry entry' hentry' heq
  rw [heq] at hentry
  exact hne (indexEntry_inj hplain he he' hentry hentry')

/-- The state after some entries: their part of the tree, whose directories are known. -/
structure Progress (image : DirTree) (pre : List IndexEntry) (s : Target × List Path) : Prop where
  tree : s.1 = built (seen image) (linked pre)
  created : ∀ c ∈ s.2, Covers (linked pre) c

omit hplain in
theorem createParent_built {pre : List IndexEntry} {s : Target × List Path}
    (hs : Progress image pre s) {path : Path} {o : Inode Bytes}
    (hpath : seen image path = some o) (hne : path ≠ []) :
    ∃ created, createParent otherwise image path s =
        .ok (built (seen image) (linked pre ++ [path.dropLast]), created) ∧
      ∀ c ∈ created, Covers (linked pre ++ [path.dropLast]) c := by
  obtain ⟨t, created⟩ := s
  obtain ⟨rfl, hcreated⟩ := hs
  dsimp only at hcreated
  have hproper : path.dropLast ≠ path := by
    intro heq
    apply not_prefix_dropLast hne
    rw [heq]
  have hparent := (rooted_seen image).above hpath (List.dropLast_prefix path) hproper
  have hmono : ∀ c, Covers (linked pre) c → Covers (linked pre ++ [path.dropLast]) c :=
    fun c hc => covers_append.mpr (Or.inl hc)
  unfold createParent
  split
  · rename_i hmem
    have hiff : ∀ p, Covers (linked pre) p ↔ Covers (linked pre ++ [path.dropLast]) p := by
      intro p
      rw [covers_append, covers_singleton]
      constructor
      · exact Or.inl
      · rintro (hcovers | rfl | habove)
        · exact hcovers
        · exact Or.inl rfl
        · exact (hcreated _ hmem).upward habove
    exact ⟨created, by rw [built_congr hiff], fun c hc => hmono c (hcreated c hc)⟩
  · rw [createDirAll_built otherwise (rooted_seen image) hparent]
    refine ⟨path.dropLast :: created, rfl, List.forall_mem_cons.mpr ⟨?_, ?_⟩⟩
    · exact covers_append.mpr (Or.inr (covers_singleton.mpr (Or.inr (List.prefix_refl _))))
    · exact fun c hc => hmono c (hcreated c hc)

/-- A path that the index lists later is not covered before. -/
theorem not_covers_linked {pre : List IndexEntry} {entry : IndexEntry} {path : Path}
    {o : Inode Bytes} (hpre : ∀ entry' ∈ pre, entry' ∈ OnDisk.collectIndex image)
    (hnew : entry ∉ pre) (hmem : (path, o) ∈ image.objects)
    (hentry : OnDisk.indexEntry (path, o) = some entry) : ¬ Covers (linked pre) path := by
  obtain ⟨hne, hlookup⟩ := mem_objects.mp hmem
  rintro (hnil | ⟨p, hp, habove⟩)
  · exact hne hnil
  · obtain ⟨entry', hentry', htext⟩ := List.mem_filterMap.mp hp
    obtain ⟨⟨path', o'⟩, hmem', hindex⟩ := List.mem_filterMap.mp (hpre entry' hentry')
    have hpath : path' = p := by
      apply Option.some.inj
      rw [← htext]
      exact (textPath_indexEntry hplain hmem' hindex).symm
    rw [← hpath] at habove
    have hlookup' := (mem_objects.mp hmem').2
    by_cases heq : path = path'
    · have ho : o = o' := by
        apply Option.some.inj
        rw [← hlookup, ← hlookup', heq]
      rw [heq, ho, hindex] at hentry
      cases hentry
      exact hnew hentry'
    · have hdirectory := (rooted_lookup image).above hlookup' habove heq
      rw [hlookup] at hdirectory
      cases hdirectory
      cases hentry

omit hplain in
theorem linked_append {pre : List IndexEntry} {entry : IndexEntry} {path : Path}
    (h : textPath (PackageImage.path entry) = some path) :
    linked (pre ++ [entry]) = linked pre ++ [path] := by
  unfold linked
  rw [List.filterMap_append, List.filterMap_cons, h]
  rfl

/-- A step along the index. -/
theorem linkEntry_progress {pre : List IndexEntry} {entry : IndexEntry} {s : Target × List Path}
    (hs : Progress image pre s) (hpre : ∀ entry' ∈ pre, entry' ∈ OnDisk.collectIndex image)
    (hnew : entry ∉ pre) (hmem : entry ∈ OnDisk.collectIndex image) :
    ∃ s', linkEntry otherwise image s entry = .ok s' ∧ Progress image (pre ++ [entry]) s' := by
  obtain ⟨⟨path, o⟩, hobject, hentry⟩ := List.mem_filterMap.mp hmem
  obtain ⟨hne, hlookup⟩ := mem_objects.mp hobject
  have htext := textPath_indexEntry hplain hobject hentry
  have hjoin : safeRelativeJoin (PackageImage.path entry) = .ok path := by
    rw [safeRelativeJoin, htext]
  have hseen : seen image path = some (o.map fun target => utf8 (toStringLossy target)) := by
    rw [seen, hlookup]
    rfl
  obtain ⟨created, hparent, hcreated⟩ := createParent_built otherwise hs hseen hne
  have hcovered : Covers (linked pre ++ [path.dropLast]) path.dropLast :=
    covers_append.mpr (Or.inr (covers_singleton.mpr (Or.inr (List.prefix_refl _))))
  have hfresh : ¬ Covers (linked pre ++ [path.dropLast]) path := by
    rw [covers_append, covers_singleton, not_or, not_or]
    exact ⟨not_covers_linked hplain hpre hnew hobject hentry, hne, not_prefix_dropLast hne⟩
  have hiff : ∀ p, Covers (linked pre ++ [path.dropLast] ++ [path]) p ↔
      Covers (linked pre ++ [path]) p := by
    intro p
    rw [covers_append, covers_append, covers_append, covers_singleton, covers_singleton]
    constructor
    · rintro ((hcovers | rfl | habove) | hpath)
      · exact Or.inl hcovers
      · exact Or.inr (Or.inl rfl)
      · exact Or.inr (Or.inr (habove.trans (List.dropLast_prefix path)))
      · exact Or.inr hpath
    · rintro (hcovers | hpath)
      · exact Or.inl (Or.inl hcovers)
      · exact Or.inr hpath
  have hdone : Progress image (pre ++ [entry])
      (built (seen image) (linked pre ++ [path.dropLast] ++ [path]), created) := by
    rw [built_congr hiff]
    constructor
    · rw [linked_append htext]
    · intro c hc
      rw [linked_append htext, ← hiff]
      exact covers_append.mpr (Or.inl (hcreated c hc))
  cases o with
  | directory => cases hentry
  | file content =>
      cases hentry
      have hlink := linkFile_built otherwise (rooted_seen image) hlookup hseen hcovered hfresh
      refine ⟨_, ?_, hdone⟩
      rw [linkEntry]
      apply Except.bind_eq_ok.mpr
      refine ⟨path, hjoin, Except.bind_eq_ok.mpr ⟨path, hjoin, ?_⟩⟩
      exact Except.bind_eq_ok.mpr ⟨_, hparent, Except.bind_eq_ok.mpr ⟨_, hlink, rfl⟩⟩
  | symlink target =>
      cases hentry
      have hlink := @makeSymlink_built otherwise _ (rooted_seen image) _ _ image _ hseen hcovered
        hfresh
      refine ⟨_, ?_, hdone⟩
      rw [linkEntry]
      apply Except.bind_eq_ok.mpr
      refine ⟨path, hjoin, Except.bind_eq_ok.mpr ⟨_, hparent, ?_⟩⟩
      exact Except.bind_eq_ok.mpr ⟨_, hlink, rfl⟩

/-- The index leads to all files and links, and to the directories above them. -/
theorem linkEntriesFromIndex_eq :
    linkEntriesFromIndex otherwise image (sortBy PackageImage.path (OnDisk.collectIndex image)) =
      .ok (built (seen image) (linked (OnDisk.collectIndex image))) := by
  have hperm := sortBy_perm PackageImage.path (OnDisk.collectIndex image)
  have hstart : Progress image [] (built (seen image) [], []) := ⟨rfl, nofun⟩
  obtain ⟨⟨t, created⟩, hfold, hprogress⟩ := @Folds.total _ _ _ (linkEntry otherwise image)
    (sortBy PackageImage.path (OnDisk.collectIndex image)) _ (Progress image) hstart
    (by
      intro pre entry post s hsplit hs
      have hmem : ∀ entry' ∈ pre ++ entry :: post, entry' ∈ OnDisk.collectIndex image := by
        intro entry' hentry'
        rw [← hsplit] at hentry'
        exact hperm.mem_iff.mp hentry'
      have hnodup := hperm.nodup_iff.mpr (nodup_collectIndex hplain)
      rw [hsplit] at hnodup
      have hnew : entry ∉ pre := fun hin =>
        (List.nodup_append.mp hnodup).2.2 entry hin entry List.mem_cons_self rfl
      exact linkEntry_progress otherwise hplain hs
        (fun entry' hin => hmem entry' (List.mem_append_left _ hin)) hnew
        (hmem entry (List.mem_append_right _ List.mem_cons_self)))
  have hiff : ∀ p, Covers (linked (sortBy PackageImage.path (OnDisk.collectIndex image))) p ↔
      Covers (linked (OnDisk.collectIndex image)) p := by
    intro p
    unfold Covers linked
    simp only [(hperm.filterMap _).mem_iff]
  have htree := hprogress.tree
  rw [built_congr hiff] at htree
  unfold linkEntriesFromIndex
  rw [createDirAll_absent otherwise (rooted_seen image)]
  apply Except.bind_eq_ok.mpr
  refine ⟨_, rfl, Except.bind_eq_ok.mpr ⟨_, hfold, ?_⟩⟩
  exact congrArg Except.ok htree

end Index

/-! ## When both ways agree -/

/-- What the index can say of a directory with plain names: no directory below it is empty,
targets of links are texts, and the limits of the index are kept. -/
structure Linkable (image : DirTree) : Prop where
  nonempty : ∀ path, path ≠ [] → image.lookup path = some .directory →
    ∃ name, (image.lookup (path ++ [name])).isSome = true
  texts : ∀ path target, image.lookup path = some (.symlink target) → ∃ s, target = utf8 s
  limits : WithinLimits (OnDisk.collectIndex image)

theorem short_collectIndex (image : DirTree) :
    ∀ entry ∈ OnDisk.collectIndex image, ShortEntry entry := by
  intro entry hmem
  obtain ⟨⟨path, o⟩, hobject, hentry⟩ := List.mem_filterMap.mp hmem
  obtain ⟨hpath, ho⟩ := image.sized _ hobject
  have hlongest : 3 * longest < 2 ^ 32 := by decide
  have htext := length_pathText path
  dsimp only at hpath
  cases o with
  | directory => cases hentry
  | file _ =>
      cases hentry
      show (utf8 (pathText path)).length < 2 ^ 32
      omega
  | symlink target =>
      cases hentry
      have htarget := length_toStringLossy target
      dsimp only at ho
      exact ⟨by omega, by omega⟩

/-- In a tree without empty directories every directory leads to a file or a link. -/
theorem exists_leaf {image : DirTree}
    (h : ∀ path, path ≠ [] → image.lookup path = some .directory →
      ∃ name, (image.lookup (path ++ [name])).isSome = true)
    {path : Path} (hne : path ≠ []) (hlookup : image.lookup path = some .directory) :
    ∃ p o, (p, o) ∈ image.objects ∧ o ≠ .directory ∧ path <+: p := by
  -- no path is longer than all paths together
  have hbound : ∀ p o, (p, o) ∈ image.objects →
      p.length ≤ (image.objects.map fun e => e.1.length).sum := by
    intro p o hmem
    exact List.single_le_sum (fun _ _ => Nat.zero_le _) _ (List.mem_map.mpr ⟨_, hmem, rfl⟩)
  induction hn : (image.objects.map fun e => e.1.length).sum - path.length using
      Nat.strong_induction_on generalizing path with
  | _ n ih =>
      obtain ⟨name, hsome⟩ := h path hne hlookup
      obtain ⟨o, ho⟩ := Option.isSome_iff_exists.mp hsome
      have hmem : (path ++ [name], o) ∈ image.objects := mem_objects.mpr ⟨by simp, ho⟩
      have hle := hbound _ _ hmem
      rw [List.length_append, List.length_singleton] at hle
      by_cases hleaf : o = .directory
      · rw [hleaf] at ho
        obtain ⟨p, o', hp, ho', habove⟩ := ih _ (by rw [List.length_append]; simp; omega)
          (by simp) ho rfl
        exact ⟨p, o', hp, ho', (List.prefix_append path [name]).trans habove⟩
      · exact ⟨_, o, hmem, hleaf, List.prefix_append path [name]⟩

section Agree

variable {image : DirTree} (hplain : image.PlainNames)

include hplain

theorem mem_linked_iff {path : Path} : path ∈ linked (OnDisk.collectIndex image) ↔
    ∃ o, (path, o) ∈ image.objects ∧ o ≠ .directory := by
  unfold linked
  rw [List.mem_filterMap]
  constructor
  · rintro ⟨entry, hmem, htext⟩
    obtain ⟨⟨p, o⟩, hobject, hentry⟩ := List.mem_filterMap.mp hmem
    have hpath : p = path := by
      apply Option.some.inj
      rw [← htext]
      exact (textPath_indexEntry hplain hobject hentry).symm
    refine ⟨o, hpath ▸ hobject, ?_⟩
    rintro rfl
    cases hentry
  · rintro ⟨o, hobject, hleaf⟩
    cases o with
    | directory => exact absurd rfl hleaf
    | file _ =>
        have hentry := textPath_object hplain hobject
        exact ⟨_, List.mem_filterMap.mpr ⟨_, hobject, rfl⟩, hentry⟩
    | symlink _ =>
        have hentry := textPath_object hplain hobject
        exact ⟨_, List.mem_filterMap.mpr ⟨_, hobject, rfl⟩, hentry⟩

/-- What is linked along the index is the directory exactly when none below it is empty and
all targets are texts. -/
theorem built_eq_lookup_iff :
    built (seen image) (linked (OnDisk.collectIndex image)) = image.lookup ↔
      (∀ path, path ≠ [] → image.lookup path = some .directory →
        ∃ name, (image.lookup (path ++ [name])).isSome = true) ∧
      ∀ path target, image.lookup path = some (.symlink target) → ∃ s, target = utf8 s := by
  constructor
  · intro heq
    refine ⟨?_, ?_⟩
    · intro path hne hlookup
      have hcovers : Covers (linked (OnDisk.collectIndex image)) path := by
        by_contra hno
        have hbuilt := congrFun heq path
        rw [built_fresh hno, hlookup] at hbuilt
        cases hbuilt
      rcases hcovers with hnil | ⟨p, hp, rel, rfl⟩
      · exact absurd hnil hne
      · obtain ⟨o, hobject, hleaf⟩ := (mem_linked_iff hplain).mp hp
        have hbelow := (mem_objects.mp hobject).2
        cases rel with
        | nil =>
            rw [List.append_nil, hlookup] at hbelow
            exact absurd (Option.some.inj hbelow).symm hleaf
        | cons name rel =>
            refine ⟨name, ?_⟩
            cases rel with
            | nil => rw [hbelow]; rfl
            | cons next rel =>
                rw [← List.singleton_append, ← List.append_assoc] at hbelow
                rw [lookup_parent (List.cons_ne_nil next rel) hbelow]
                rfl
    · intro path target hlookup
      have hne : path ≠ [] := by
        rintro rfl
        cases hlookup
      have hmem : path ∈ linked (OnDisk.collectIndex image) :=
        (mem_linked_iff hplain).mpr ⟨_, mem_objects.mpr ⟨hne, hlookup⟩, nofun⟩
      have hcovers : Covers (linked (OnDisk.collectIndex image)) path :=
        Or.inr ⟨path, hmem, List.prefix_refl path⟩
      have hbuilt := congrFun heq path
      unfold built seen at hbuilt
      rw [if_pos hcovers, hlookup] at hbuilt
      have htarget : utf8 (toStringLossy target) = target :=
        Inode.symlink.inj (Option.some.inj hbuilt)
      exact ⟨_, htarget.symm⟩
  · rintro ⟨hnonempty, htexts⟩
    funext path
    unfold built
    by_cases hcovers : Covers (linked (OnDisk.collectIndex image)) path
    · rw [if_pos hcovers]
      unfold seen
      cases hlookup : image.lookup path with
      | none => rfl
      | some o =>
          cases o with
          | directory => rfl
          | file _ => rfl
          | symlink target =>
              obtain ⟨s, rfl⟩ := htexts path target hlookup
              simp only [Option.map_some, Inode.map, toStringLossy_utf8]
    · rw [if_neg hcovers]
      by_contra hsome
      obtain ⟨o, hlookup⟩ := Option.ne_none_iff_exists'.mp (Ne.symm hsome)
      have hne : path ≠ [] := fun hnil => hcovers (Or.inl hnil)
      by_cases hleaf : o = .directory
      · rw [hleaf] at hlookup
        obtain ⟨p, o', hp, ho', habove⟩ := exists_leaf hnonempty hne hlookup
        exact hcovers (Or.inr ⟨p, (mem_linked_iff hplain).mpr ⟨o', hp, ho'⟩, habove⟩)
      · have hmem := (mem_linked_iff hplain).mpr ⟨o, mem_objects.mpr ⟨hne, hlookup⟩, hleaf⟩
        exact hcovers (Or.inr ⟨path, hmem, List.prefix_refl path⟩)

/-- With plain names, the index leads to the directory exactly when it can say all of it. -/
theorem linkTree_index_iff :
    linkTree otherwise image (some (OnDisk.fromDirectoryIndex image)) = .ok image.lookup ↔
      Linkable image := by
  have hperm := sortBy_perm PackageImage.path (OnDisk.collectIndex image)
  have hshort : ∀ entry ∈ sortBy PackageImage.path (OnDisk.collectIndex image),
      ShortEntry entry := fun entry hmem =>
    short_collectIndex image entry (hperm.mem_iff.mp hmem)
  have hlimits : WithinLimits (sortBy PackageImage.path (OnDisk.collectIndex image)) ↔
      WithinLimits (OnDisk.collectIndex image) := by
    unfold WithinLimits
    simp only [hperm.length_eq, hperm.mem_iff]
  unfold linkTree OnDisk.fromDirectoryIndex
  dsimp only
  by_cases hwithin : WithinLimits (OnDisk.collectIndex image)
  · rw [(decodeIndex_encodeIndex_iff hshort).mpr ⟨rfl, hlimits.mpr hwithin⟩]
    dsimp only
    rw [linkEntriesFromIndex_eq otherwise hplain, Except.ok.injEq, built_eq_lookup_iff hplain]
    constructor
    · rintro ⟨hnonempty, htexts⟩
      exact ⟨hnonempty, htexts, hwithin⟩
    · rintro ⟨hnonempty, htexts, _⟩
      exact ⟨hnonempty, htexts⟩
  · have hnone : decodeIndex (encodeIndex
        (sortBy PackageImage.path (OnDisk.collectIndex image))) = none := by
      apply Option.eq_none_iff_forall_not_mem.mpr
      intro entries hdecode
      exact hwithin (hlimits.mp ((decodeIndex_encodeIndex_iff hshort).mp hdecode).2)
    rw [hnone]
    exact iff_of_false nofun fun h => hwithin h.limits

end Agree

/-! ## Names that the index records otherwise -/

def LinkFree (t : Target) : Prop := ∀ path target, t path ≠ some (.symlink target)

def Call.path : Call → Path
  | .createDirAll path => path
  | .linkFile _ dest => dest
  | .makeSymlink _ path => path

/-- Where no links are on the way, a call that succeeds makes none, and it creates nothing but
its path and what is above it. -/
def Confined : Prop :=
  ∀ image call t t', LinkFree image.lookup → LinkFree t → otherwise image call t = .ok t' →
    LinkFree t' ∧ ∀ p, t' p ≠ none → t p ≠ none ∨ p <+: call.path

/-- No links, and only names that are recorded as they are. -/
structure Tidy (t : Target) : Prop where
  linkFree : LinkFree t
  plain : ∀ p, t p ≠ none → ∀ name ∈ p, Plain name

/-- Plain paths can be added. -/
theorem Tidy.extend {t t' : Target} (ht : Tidy t) (h : ∀ p, t' p = t p ∨
    (∀ target, t' p ≠ some (.symlink target)) ∧ ∀ name ∈ p, Plain name) : Tidy t' where
  linkFree p target := by
    rcases h p with heq | ⟨hno, _⟩
    · rw [heq]
      exact ht.linkFree p target
    · exact hno target
  plain p hp := by
    rcases h p with heq | ⟨_, hplain⟩
    · rw [heq] at hp
      exact ht.plain p hp
    · exact hplain

section Names

variable {otherwise} (hconfined : Confined otherwise) {image : DirTree}
  (himage : LinkFree image.lookup)

include hconfined himage

theorem Tidy.call {t t' : Target} (ht : Tidy t) {call : Call}
    (hcall : ∀ name ∈ call.path, Plain name) (h : otherwise image call t = .ok t') : Tidy t' := by
  obtain ⟨hfree, hmade⟩ := hconfined image call t t' himage ht.linkFree h
  refine ⟨hfree, ?_⟩
  intro p hp name hname
  rcases hmade p hp with hold | habove
  · exact ht.plain p hold name hname
  · exact hcall name (habove.subset hname)

theorem Tidy.createDirAll {t t' : Target} (ht : Tidy t) {path : Path}
    (hpath : ∀ name ∈ path, Plain name) (h : createDirAll otherwise image path t = .ok t') :
    Tidy t' := by
  unfold LinkTree.createDirAll at h
  split at h
  · obtain rfl := Except.ok.inj h
    apply ht.extend
    intro p
    by_cases habove : p <+: path
    · rw [if_pos habove]
      exact Or.inr ⟨nofun, fun name hname => hpath name (habove.subset hname)⟩
    · exact Or.inl (if_neg habove)
  · apply ht.call hconfined himage _ h
    exact hpath

theorem Tidy.linkFile {t t' : Target} (ht : Tidy t) {source path : Path}
    (hpath : ∀ name ∈ path, Plain name) (h : linkFile otherwise image source path t = .ok t') :
    Tidy t' := by
  unfold LinkTree.linkFile at h
  split at h
  · split at h
    · obtain rfl := Except.ok.inj h
      apply ht.extend
      intro p
      unfold Target.set
      by_cases heq : p = path
      · rw [if_pos heq, heq]
        exact Or.inr ⟨nofun, hpath⟩
      · exact Or.inl (if_neg heq)
    · apply ht.call hconfined himage _ h
      exact hpath
  · apply ht.call hconfined himage _ h
    exact hpath

/-- An entry for a file creates names that are recorded as they are. -/
theorem Tidy.linkEntry {s s' : Target × List Path} (ht : Tidy s.1) {entry : IndexEntry}
    (hmem : entry ∈ OnDisk.collectIndex image)
    (h : linkEntry otherwise image s entry = .ok s') : Tidy s'.1 := by
  obtain ⟨⟨rel, o⟩, hobject, hentry⟩ := List.mem_filterMap.mp hmem
  cases o with
  | directory => cases hentry
  | symlink target => exact absurd (mem_objects.mp hobject).2 (himage rel target)
  | file content =>
      cases hentry
      rw [LinkTree.linkEntry] at h
      obtain ⟨source, _, hsource⟩ := Except.bind_eq_ok.mp h
      obtain ⟨dest, hdest, hparent⟩ := Except.bind_eq_ok.mp hsource
      obtain ⟨⟨t, created⟩, hcreate, hlink⟩ := Except.bind_eq_ok.mp hparent
      obtain ⟨t', hfile, hend⟩ := Except.bind_eq_ok.mp hlink
      obtain rfl := Except.ok.inj hend
      have hplain : ∀ name ∈ dest, Plain name := by
        unfold safeRelativeJoin at hdest
        split at hdest
        · rename_i path htext
          obtain rfl := Except.ok.inj hdest
          exact plain_textPath htext
        · cases hdest
      have hmade : Tidy t := by
        unfold createParent at hcreate
        split at hcreate
        · obtain rfl := Except.ok.inj hcreate
          exact ht
        · obtain ⟨t₁, hdir, hpair⟩ := Except.bind_eq_ok.mp hcreate
          obtain ⟨rfl, _⟩ := Prod.mk.inj (Except.ok.inj hpair)
          exact ht.createDirAll hconfined himage
            (fun name hname => hplain name (List.dropLast_subset dest hname)) hdir
      exact hmade.linkFile hconfined himage hplain hfile

/-- What is linked along the index of a directory without links has no other names. -/
theorem tidy_linkTree {t : Target}
    (h : linkTree otherwise image (some (OnDisk.fromDirectoryIndex image)) = .ok t) : Tidy t := by
  have hperm := sortBy_perm PackageImage.path (OnDisk.collectIndex image)
  have hshort : ∀ entry ∈ sortBy PackageImage.path (OnDisk.collectIndex image),
      ShortEntry entry := fun entry hmem =>
    short_collectIndex image entry (hperm.mem_iff.mp hmem)
  unfold linkTree OnDisk.fromDirectoryIndex at h
  dsimp only at h
  split at h
  · rename_i entries hdecode
    obtain ⟨rfl, _⟩ := (decodeIndex_encodeIndex_iff hshort).mp hdecode
    obtain ⟨t₀, hroot, hrest⟩ := Except.bind_eq_ok.mp h
    obtain ⟨⟨t₁, created⟩, hfold, hend⟩ := Except.bind_eq_ok.mp hrest
    obtain rfl := Except.ok.inj hend
    have habsent : Tidy absent := ⟨fun _ _ h => (nomatch h), fun p hp => absurd rfl hp⟩
    have hnil : ∀ name ∈ ([] : Path), Plain name := nofun
    have hstart := habsent.createDirAll hconfined himage hnil hroot
    exact @Folds.invariant _ _ _ (LinkTree.linkEntry otherwise image) _ _ _
      (fun _ s => Tidy s.1) hfold hstart
      (fun pre entry post s s' hsplit hs hstep =>
        hs.linkEntry hconfined himage
          (hperm.mem_iff.mp (hsplit ▸ List.mem_append_right _ List.mem_cons_self)) hstep)
  · cases h

end Names

/-- Both ways lead to the same tree. -/
def Agrees (image : DirTree) : Prop :=
  linkTree otherwise image (some (OnDisk.fromDirectoryIndex image)) =
    linkTree otherwise image none

theorem agrees_iff (image : DirTree) : Agrees otherwise image ↔
    linkTree otherwise image (some (OnDisk.fromDirectoryIndex image)) = .ok image.lookup := by
  have hwalk : linkTree otherwise image none = .ok image.lookup :=
    linkTreeByWalkingDirectory_eq otherwise image
  rw [Agrees, hwalk]

/-- The walk recreates every directory.  The index leads to the same tree when it can say all
of the directory, and then only, if names are recorded as they are or there are no links that
a path could lead through. -/
theorem linkTree_agrees (image : DirTree) :
    linkTree otherwise image none = .ok image.lookup ∧
      (image.PlainNames ∧ Linkable image → Agrees otherwise image) ∧
      (image.PlainNames ∨ LinkFree image.lookup ∧ Confined otherwise →
        Agrees otherwise image → image.PlainNames ∧ Linkable image) := by
  refine ⟨linkTreeByWalkingDirectory_eq otherwise image, ?_, ?_⟩
  · rintro ⟨hplain, hlinkable⟩
    exact (agrees_iff otherwise image).mpr ((linkTree_index_iff otherwise hplain).mpr hlinkable)
  · intro hdomain hagrees
    have hindex := (agrees_iff otherwise image).mp hagrees
    have hplain : image.PlainNames := by
      rcases hdomain with hplain | ⟨hfree, hconfined⟩
      · exact hplain
      · have htidy := tidy_linkTree hconfined hfree hindex
        rintro ⟨path, o⟩ hmem name hname
        apply htidy.plain path _ name hname
        rw [(mem_objects.mp hmem).2]
        exact nofun
    exact ⟨hplain, (linkTree_index_iff otherwise hplain).mp hindex⟩

end

/-! ## An empty directory -/

/-- An image that holds nothing but one empty directory. -/
def emptyDirectory : DirTree where
  entries := .cons (tag "d") (.directory .nil) .nil
  valid := ⟨by decide, rfl, trivial, trivial⟩
  sized := by
    intro e he
    obtain rfl := List.mem_singleton.mp he
    exact ⟨by decide, trivial⟩

theorem plainNames_emptyDirectory : emptyDirectory.PlainNames := by
  intro e he name hname
  obtain rfl := List.mem_singleton.mp he
  obtain rfl := List.mem_singleton.mp hname
  exact ⟨['d'], by decide, by decide⟩

/-- The index loses a directory without entries. -/
theorem not_agrees_emptyDirectory : ¬∃ otherwise, Agrees otherwise emptyDirectory := by
  rintro ⟨otherwise, hagrees⟩
  have hlinkable := (linkTree_index_iff otherwise plainNames_emptyDirectory).mp
    ((agrees_iff otherwise emptyDirectory).mp hagrees)
  obtain ⟨name, hsome⟩ := hlinkable.nonempty [tag "d"] (by decide) (by decide)
  cases hsome

end LinkTree
end Bpm
