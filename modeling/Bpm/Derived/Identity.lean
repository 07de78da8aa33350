import Bpm.Lib.DirTree
import Bpm.Lib.Sorting

/-!
# The identity of a derived image

A tree is hashed record by record, each directory's entries in the order of their names.
Paths and link targets come with their lengths, but the content of a file does not: where
it ends is told by the next record alone, and its length counts in the total size only.
-/

namespace Bpm
namespace DirTree

open Bytes Sorting

/-! ## Hashing a tree -/

/-- The parts of a directory in the order of the names. -/
def inOrder (parts : List (Bytes × List (Path × Inode Bytes))) : List (Path × Inode Bytes) :=
  (sortBy (fun part => nameOrder part.1) parts).flatMap Prod.snd

mutual

/-- What `hash_tree` comes upon, in its order. -/
def Node.records (path : Path) : Node → List (Path × Inode Bytes)
  | .file content => [(path, .file content)]
  | .symlink target => [(path, .symlink target)]
  | .directory entries => (path, .directory) :: inOrder (entries.parts path)

def Entries.parts (path : Path) : Entries → List (Bytes × List (Path × Inode Bytes))
  | .nil => []
  | .cons name node rest => (name, node.records (path ++ [name])) :: rest.parts path

end

def hashField (kind : UInt8) (bytes : Bytes) : Bytes := kind :: (u64 bytes.length ++ bytes)

/-- The fields of a record that are hashed before the content. -/
def hashFields (path : Path) : Inode Bytes → Bytes
  | .directory => hashField 100 (pathBytes path)
  | .file _ => hashField 102 (pathBytes path)
  | .symlink target => hashField 108 (pathBytes path) ++ hashField 116 target

def content : Inode Bytes → Bytes
  | .file content => content
  | .directory | .symlink _ => []

def hashRecord (e : Path × Inode Bytes) : Bytes := hashFields e.1 e.2 ++ content e.2

def records (tree : DirTree) : List (Path × Inode Bytes) := inOrder (tree.entries.parts [])

/-- The bytes of all files. -/
def size (tree : DirTree) : Nat := (tree.records.map fun e => (content e.2).length).sum

def hashedStream (tree : DirTree) : Bytes :=
  tag "bpm-derived-tree-v1\x00" ++ tree.records.flatMap hashRecord

/-- The size is counted in 64 bits. -/
def treeIdentity {δ : Type} (blake3 : Bytes → δ) (tree : DirTree) : Option (δ × Nat) :=
  if tree.size < 2 ^ 64 then some (blake3 tree.hashedStream, tree.size) else none

/-! ## Layouts -/

/-- What stands at a path, the content of a file apart. -/
inductive Shape
  | directory
  | file (length : Nat)
  | symlink (target : Bytes)
deriving DecidableEq

def shape : Inode Bytes → Shape
  | .directory => .directory
  | .file content => .file content.length
  | .symlink target => .symlink target

/-- The same paths, kinds, targets and file lengths. -/
def SameLayout (a b : DirTree) : Prop :=
  ∀ path, (a.lookup path).map shape = (b.lookup path).map shape

/-- The bytes of a record that do not depend on any content. -/
def fixedPart (path : Path) : Shape → Bytes
  | .directory => hashFields path .directory
  | .file _ => hashFields path (.file [])
  | .symlink target => hashFields path (.symlink target)

def openPart : Shape → Nat
  | .file length => length
  | .directory | .symlink _ => 0

/-- A record with its content left open. -/
def template (e : Path × Shape) : List (Option UInt8) :=
  (fixedPart e.1 e.2).map some ++ List.replicate (openPart e.2) none

def layout (tree : DirTree) : List (Path × Shape) := tree.records.map fun e => (e.1, shape e.2)

/-- Bytes that stand at the places of a template. -/
def Fills (bytes : Bytes) (t : List (Option UInt8)) : Prop :=
  List.Forall₂ (fun b x => ∀ c ∈ x, b = c) bytes t

/-- Two streams with open places can be filled alike: they are equally long, and no place
that is fixed in both has two values. -/
def Compatible (s t : List (Option UInt8)) : Prop :=
  List.Forall₂ (fun x y => ∀ b ∈ x, ∀ c ∈ y, b = c) s t

/-! ## The order of the records -/

/-- The order of paths, name by name. -/
def Before (e e' : Path × Inode Bytes) : Prop := e.1.map nameOrder < e'.1.map nameOrder

theorem inOrder_perm (parts : List (Bytes × List (Path × Inode Bytes))) :
    (inOrder parts).Perm (parts.flatMap Prod.snd) :=
  (sortBy_perm _ parts).flatMap_right Prod.snd

mutual

theorem Node.records_perm (node : Node) (path : Path) :
    (node.records path).Perm (node.walk path) := by
  match node with
  | .file _ => exact List.Perm.refl _
  | .symlink _ => exact List.Perm.refl _
  | .directory entries =>
      rw [Node.records, Node.walk]
      exact ((inOrder_perm _).trans (Entries.parts_perm entries path)).cons _

theorem Entries.parts_perm (entries : Entries) (path : Path) :
    ((entries.parts path).flatMap Prod.snd).Perm (entries.walk path) := by
  match entries with
  | .nil => exact List.Perm.refl _
  | .cons name node rest =>
      rw [Entries.parts, List.flatMap_cons, Entries.walk]
      exact (Node.records_perm node _).append (Entries.parts_perm rest path)

end

/-- The records are what a walk comes upon. -/
theorem records_perm (tree : DirTree) : tree.records.Perm tree.objects :=
  (inOrder_perm _).trans (Entries.parts_perm tree.entries [])

/-- A part of a directory holds what stands below one name. -/
theorem Entries.mem_parts {entries : Entries} {path : Path}
    {part : Bytes × List (Path × Inode Bytes)} (h : part ∈ entries.parts path) :
    ∃ node : Node, part.2 = node.records (path ++ [part.1]) ∧
      (entries.Valid → entries.find part.1 = some node) := by
  match entries with
  | .nil => cases h
  | .cons name node rest =>
      rw [Entries.parts] at h
      rcases List.mem_cons.mp h with rfl | hin
      · exact ⟨node, rfl, fun _ => if_pos rfl⟩
      · obtain ⟨child, hchild, hfind⟩ := Entries.mem_parts hin
        refine ⟨child, hchild, ?_⟩
        intro hvalid
        unfold Entries.Valid at hvalid
        have hne : name ≠ part.1 := by
          rintro rfl
          rw [hfind hvalid.2.2.2] at hvalid
          cases hvalid.2.1
        rw [Entries.find, if_neg hne]
        exact hfind hvalid.2.2.2

theorem Entries.pairwise_parts {entries : Entries} (h : entries.Valid) (path : Path) :
    (entries.parts path).Pairwise fun part part' => part.1 ≠ part'.1 := by
  cases entries with
  | nil => exact List.Pairwise.nil
  | cons name node rest =>
      unfold Entries.Valid at h
      rw [Entries.parts, List.pairwise_cons]
      refine ⟨?_, Entries.pairwise_parts h.2.2.2 path⟩
      rintro part hmem rfl
      obtain ⟨child, _, hfind⟩ := Entries.mem_parts hmem
      rw [show rest.find part.1 = none from h.2.1] at hfind
      cases hfind h.2.2.2

theorem Entries.path_of_mem_parts {entries : Entries} (h : entries.Valid) {path : Path}
    {part : Bytes × List (Path × Inode Bytes)} (hpart : part ∈ entries.parts path)
    {e : Path × Inode Bytes} (he : e ∈ part.2) : ∃ rel, e.1 = path ++ part.1 :: rel := by
  obtain ⟨node, hrecords, hfind⟩ := Entries.mem_parts hpart
  rw [hrecords] at he
  have hwalk := (Node.records_perm node _).mem_iff.mp he
  obtain ⟨rel, hrel, _⟩ := (Node.mem_walk (Entries.find_valid h (hfind h)).2).mp hwalk
  refine ⟨rel, ?_⟩
  rw [hrel, List.append_assoc, List.singleton_append]

/-- Parts in the order of the names are in the order of the paths. -/
theorem pairwise_inOrder {entries : Entries} (h : entries.Valid) {path : Path}
    (hparts : ∀ part ∈ entries.parts path, part.2.Pairwise Before) :
    (inOrder (entries.parts path)).Pairwise Before := by
  have hperm := sortBy_perm (fun part => nameOrder part.1) (entries.parts path)
  have hmem : ∀ part ∈ sortBy (fun part => nameOrder part.1) (entries.parts path),
      part ∈ entries.parts path := fun part => hperm.mem_iff.mp
  unfold inOrder
  rw [List.pairwise_flatMap]
  refine ⟨fun part hpart => hparts part (hmem part hpart), ?_⟩
  have hsorted := sortBy_sorted (fun part => nameOrder part.1) (entries.parts path)
  have hne := (hperm.pairwise_iff fun {_ _} hne => Ne.symm hne).mpr
    (Entries.pairwise_parts h path)
  apply (hsorted.and hne).imp_of_mem
  rintro part part' hpart hpart' ⟨hle, hdiffer⟩ e he e' he'
  obtain ⟨rel, hrel⟩ := Entries.path_of_mem_parts h (hmem part hpart) he
  obtain ⟨rel', hrel'⟩ := Entries.path_of_mem_parts h (hmem part' hpart') he'
  have hlt : nameOrder part.1 < nameOrder part'.1 :=
    lt_of_le_of_ne hle (nameOrder_injective.ne hdiffer)
  show e.1.map nameOrder < e'.1.map nameOrder
  rw [hrel, hrel', List.map_append, List.map_append, List.map_cons, List.map_cons]
  exact List.append_left_lt (List.cons_lt_cons_iff.mpr (Or.inl hlt))

mutual

theorem Node.pairwise_records {node : Node} (h : node.Valid) (path : Path) :
    (node.records path).Pairwise Before := by
  match node with
  | .file _ => exact List.pairwise_singleton _ _
  | .symlink _ => exact List.pairwise_singleton _ _
  | .directory entries =>
      have hvalid : entries.Valid := by simpa [Node.Valid] using h
      rw [Node.records, List.pairwise_cons]
      refine ⟨?_, pairwise_inOrder hvalid (Entries.pairwise_each hvalid path)⟩
      intro e he
      obtain ⟨part, hpart, hin⟩ := List.mem_flatMap.mp ((inOrder_perm _).mem_iff.mp he)
      obtain ⟨rel, hrel⟩ := Entries.path_of_mem_parts hvalid hpart hin
      show path.map nameOrder < e.1.map nameOrder
      rw [hrel, List.map_append, List.map_cons]
      conv_lhs => rw [← List.append_nil (path.map nameOrder)]
      exact List.append_left_lt (List.nil_lt_cons _ _)

theorem Entries.pairwise_each {entries : Entries} (h : entries.Valid) (path : Path) :
    ∀ part ∈ entries.parts path, part.2.Pairwise Before := by
  match entries with
  | .nil => exact nofun
  | .cons name node rest =>
      unfold Entries.Valid at h
      rw [Entries.parts, List.forall_mem_cons]
      exact ⟨Node.pairwise_records h.2.2.1 _, Entries.pairwise_each h.2.2.2 path⟩

end

/-- The records come in the order of their paths. -/
theorem pairwise_records (tree : DirTree) : tree.records.Pairwise Before :=
  pairwise_inOrder tree.valid (Entries.pairwise_each tree.valid [])

/-! ## Layouts and their lists -/

section

variable {tree a b : DirTree}

theorem mem_records {e : Path × Inode Bytes} : e ∈ tree.records ↔ e ∈ tree.objects :=
  (records_perm tree).mem_iff

theorem mem_layout {path : Path} {seen : Shape} : (path, seen) ∈ tree.layout ↔
    path ≠ [] ∧ (tree.lookup path).map shape = some seen := by
  unfold layout
  rw [List.mem_map]
  constructor
  · rintro ⟨⟨path', o⟩, hmem, heq⟩
    cases heq
    obtain ⟨hne, hlookup⟩ := mem_objects.mp (mem_records.mp hmem)
    exact ⟨hne, by rw [hlookup, Option.map_some]⟩
  · rintro ⟨hne, hmap⟩
    obtain ⟨o, hlookup, rfl⟩ := Option.map_eq_some_iff.mp hmap
    exact ⟨(path, o), mem_records.mpr (mem_objects.mpr ⟨hne, hlookup⟩), rfl⟩

theorem pairwise_layout (tree : DirTree) :
    tree.layout.Pairwise fun e e' => e.1.map nameOrder < e'.1.map nameOrder :=
  List.pairwise_map.mpr (pairwise_records tree)

theorem nodup_layout (tree : DirTree) : tree.layout.Nodup := by
  apply (pairwise_layout tree).imp
  rintro e _ hlt rfl
  exact lt_irrefl _ hlt

/-- The list of a layout depends on the layout alone. -/
theorem sameLayout_iff : SameLayout a b ↔ a.layout = b.layout := by
  constructor
  · intro h
    have hmem : ∀ e, e ∈ a.layout ↔ e ∈ b.layout := by
      rintro ⟨path, seen⟩
      rw [mem_layout, mem_layout, h path]
    have hperm := (List.perm_ext_iff_of_nodup (nodup_layout a) (nodup_layout b)).mpr hmem
    apply List.Perm.eq_of_pairwise _ (pairwise_layout a) (pairwise_layout b) hperm
    intro e e' _ _ hlt hgt
    exact absurd hgt (lt_asymm hlt)
  · intro h path
    by_cases hne : path = []
    · rw [hne, lookup_nil, lookup_nil]
    · apply Option.ext
      intro seen
      have ha := @mem_layout a path seen
      rw [h, mem_layout] at ha
      simpa [hne] using ha.symm

theorem sameLayout_of_same (h : Same a b) : SameLayout a b := by
  intro path
  rw [same_iff.mp h path]

theorem same_of_records_eq (h : a.records = b.records) : Same a b := by
  intro e
  rw [← mem_records, h, mem_records]

theorem size_eq (tree : DirTree) : tree.size = (tree.layout.map fun e => openPart e.2).sum := by
  unfold size layout
  rw [List.map_map]
  apply congrArg List.sum
  apply List.map_congr_left
  rintro ⟨path, o⟩ _
  cases o <;> rfl

end

/-! ## Filling a template -/

theorem Fills.append {bytes bytes' : Bytes} {t t' : List (Option UInt8)} (h : Fills bytes t)
    (h' : Fills bytes' t') : Fills (bytes ++ bytes') (t ++ t') :=
  List.rel_append h h'

theorem fills_map_some {bytes fixed : Bytes} : Fills bytes (fixed.map some) ↔ bytes = fixed := by
  unfold Fills
  rw [List.forall₂_map_right_iff]
  simp [List.forall₂_eq_eq_eq]

theorem fills_replicate (bytes : Bytes) : Fills bytes (List.replicate bytes.length none) := by
  induction bytes with
  | nil => exact List.Forall₂.nil
  | cons b bytes ih => exact List.Forall₂.cons nofun ih

theorem hashFields_eq (path : Path) (o : Inode Bytes) :
    hashFields path o = fixedPart path (shape o) := by
  cases o <;> rfl

theorem length_content (o : Inode Bytes) : (content o).length = openPart (shape o) := by
  cases o <;> rfl

/-- The bytes of a record stand at the places of its template. -/
theorem fills_hashRecord (e : Path × Inode Bytes) :
    Fills (hashRecord e) (template (e.1, shape e.2)) := by
  unfold hashRecord template
  rw [hashFields_eq, ← length_content]
  exact (fills_map_some.mpr rfl).append (fills_replicate _)

theorem fills_records (l : List (Path × Inode Bytes)) :
    Fills (l.flatMap hashRecord) ((l.map fun e => (e.1, shape e.2)).flatMap template) := by
  induction l with
  | nil => exact List.Forall₂.nil
  | cons e l ih =>
      rw [List.map_cons, List.flatMap_cons, List.flatMap_cons]
      exact (fills_hashRecord e).append ih

theorem compatible_of_fills {bytes : Bytes} {t t' : List (Option UInt8)} (h : Fills bytes t)
    (h' : Fills bytes t') : Compatible t t' := by
  induction h generalizing t' with
  | nil =>
      cases h'
      exact List.Forall₂.nil
  | cons hb _ ih =>
      cases h' with
      | cons hb' h' =>
          refine List.Forall₂.cons ?_ (ih h')
          intro c hc c' hc'
          rw [← hb c hc, ← hb' c' hc']

/-- Compatible templates have a filling in common. -/
theorem exists_fills_of_compatible {t t' : List (Option UInt8)} (h : Compatible t t') :
    ∃ bytes, Fills bytes t ∧ Fills bytes t' := by
  induction h with
  | nil => exact ⟨[], List.Forall₂.nil, List.Forall₂.nil⟩
  | @cons x y t t' hxy _ ih =>
      obtain ⟨bytes, hbytes, hbytes'⟩ := ih
      refine ⟨(x <|> y).getD 0 :: bytes, List.Forall₂.cons ?_ hbytes,
        List.Forall₂.cons ?_ hbytes'⟩
      · intro c hc
        rw [Option.mem_def.mp hc]
        rfl
      · intro c hc
        cases x with
        | none =>
            rw [Option.mem_def.mp hc]
            rfl
        | some b => exact hxy b rfl c hc

theorem object_ext {o o' : Inode Bytes} (hshape : shape o = shape o')
    (hcontent : content o = content o') : o = o' := by
  cases o with
  | directory => cases o' <;> first | rfl | cases hshape
  | file _ =>
      cases o' with
      | directory => cases hshape
      | file _ => exact congrArg Inode.file hcontent
      | symlink _ => cases hshape
  | symlink target =>
      cases o' with
      | directory => cases hshape
      | file _ => cases hshape
      | symlink _ => exact congrArg Inode.symlink (Shape.symlink.inj hshape)

/-- Records of one layout that are hashed to the same bytes have the same contents. -/
theorem records_inj {l m : List (Path × Inode Bytes)}
    (hlayout : l.map (fun e => (e.1, shape e.2)) = m.map fun e => (e.1, shape e.2))
    (h : l.flatMap hashRecord = m.flatMap hashRecord) : l = m := by
  induction l generalizing m with
  | nil => exact (List.map_eq_nil_iff.mp hlayout.symm).symm
  | cons e l ih =>
      cases m with
      | nil => cases hlayout
      | cons e' m =>
          obtain ⟨path, o⟩ := e
          obtain ⟨path', o'⟩ := e'
          obtain ⟨hhead, htail⟩ := List.cons.inj hlayout
          obtain ⟨rfl, hshape⟩ : path = path' ∧ shape o = shape o' := Prod.mk.inj hhead
          rw [List.flatMap_cons, List.flatMap_cons, hashRecord, hashRecord] at h
          have hlength : (hashFields path o ++ content o).length =
              (hashFields path o' ++ content o').length := by
            rw [List.length_append, List.length_append, hashFields_eq, hashFields_eq,
              length_content, length_content, hshape]
          obtain ⟨hrecord, hrest⟩ := List.append_inj h hlength
          rw [hashFields_eq, hashFields_eq, hshape] at hrecord
          have hcontent : content o = content o' := List.append_cancel_left hrecord
          rw [object_ext hshape hcontent, ih htail hrest]

/-- The content that a stream has for the file at a path. -/
def fill : List (Path × Shape) → Bytes → Path → Bytes
  | [], _, _ => []
  | e :: l, bytes, path =>
      if e.1 = path then (bytes.take (template e).length).drop (fixedPart e.1 e.2).length
      else fill l (bytes.drop (template e).length) path

/-- An object with another content. -/
def refillObject (f : Path → Bytes) (e : Path × Inode Bytes) : Path × Inode Bytes :=
  (e.1, match e.2 with
    | .file _ => .file (f e.1)
    | .directory => .directory
    | .symlink target => .symlink target)

/-- The new contents are as long as the old ones. -/
def KeepsLengths (f : Path → Bytes) (e : Path × Inode Bytes) : Prop :=
  shape (refillObject f e).2 = shape e.2

theorem hashRecord_refillObject {f : Path → Bytes} {bytes : Bytes} {e : Path × Inode Bytes}
    (h : Fills bytes (template (e.1, shape e.2)))
    (hf : f e.1 = bytes.drop (fixedPart e.1 (shape e.2)).length) :
    hashRecord (refillObject f e) = bytes ∧ KeepsLengths f e := by
  obtain ⟨path, o⟩ := e
  have hfixed : bytes.take (fixedPart path (shape o)).length = fixedPart path (shape o) := by
    simpa using List.forall₂_take_append _ _ _ h
  have hopen := (List.forall₂_drop_append _ _ _ h).length_eq
  rw [List.length_map, List.length_replicate] at hopen
  have hbytes := List.take_append_drop (fixedPart path (shape o)).length bytes
  rw [hfixed] at hbytes
  unfold KeepsLengths hashRecord refillObject
  cases o with
  | file content =>
      dsimp only at hf ⊢
      rw [hf]
      exact ⟨hbytes, congrArg Shape.file hopen⟩
  | directory =>
      have hnil := List.length_eq_zero_iff.mp hopen
      rw [hnil] at hbytes
      exact ⟨hbytes, rfl⟩
  | symlink target =>
      have hnil := List.length_eq_zero_iff.mp hopen
      rw [hnil] at hbytes
      exact ⟨hbytes, rfl⟩

/-- Every stream that fills the templates is the stream of other contents. -/
theorem flatMap_fill {l : List (Path × Inode Bytes)} (hl : l.Pairwise fun e e' => e.1 ≠ e'.1)
    {bytes : Bytes} (h : Fills bytes ((l.map fun e => (e.1, shape e.2)).flatMap template)) :
    let f := fill (l.map fun e => (e.1, shape e.2)) bytes
    (l.map (refillObject f)).flatMap hashRecord = bytes ∧ ∀ e ∈ l, KeepsLengths f e := by
  induction l generalizing bytes with
  | nil =>
      cases h
      exact ⟨rfl, nofun⟩
  | cons e l ih =>
      rw [List.pairwise_cons] at hl
      rw [List.map_cons, List.flatMap_cons] at h
      have hhead := List.forall₂_take_append _ _ _ h
      obtain ⟨htail, hkeeps⟩ := ih hl.2 (List.forall₂_drop_append _ _ _ h)
      intro f
      have hfirst : f e.1 = (bytes.take (template (e.1, shape e.2)).length).drop
          (fixedPart e.1 (shape e.2)).length := if_pos rfl
      have hlater : ∀ e' ∈ l, f e'.1 = fill (l.map fun e => (e.1, shape e.2))
          (bytes.drop (template (e.1, shape e.2)).length) e'.1 := by
        intro e' he'
        exact if_neg (hl.1 e' he')
      have hsame : ∀ e' ∈ l, refillObject f e' = refillObject (fill (l.map fun e =>
          (e.1, shape e.2)) (bytes.drop (template (e.1, shape e.2)).length)) e' := by
        intro e' he'
        unfold refillObject
        rw [hlater e' he']
      obtain ⟨hrecord, hkeep⟩ := hashRecord_refillObject hhead hfirst
      constructor
      · rw [List.map_cons, List.flatMap_cons, hrecord, List.map_congr_left hsame, htail,
          List.take_append_drop]
      · rw [List.forall_mem_cons]
        refine ⟨hkeep, ?_⟩
        intro e' he'
        unfold KeepsLengths
        rw [hsame e' he']
        exact hkeeps e' he'

/-! ## Trees with other contents -/

mutual

def Node.refill (f : Path → Bytes) (path : Path) : Node → Node
  | .file _ => .file (f path)
  | .symlink target => .symlink target
  | .directory entries => .directory (entries.refill f path)

def Entries.refill (f : Path → Bytes) (path : Path) : Entries → Entries
  | .nil => .nil
  | .cons name node rest =>
      .cons name (node.refill f (path ++ [name])) (rest.refill f path)

end

theorem Entries.find_refill (f : Path → Bytes) (path : Path) {entries : Entries} {name : Bytes}
    (h : entries.find name = none) : (entries.refill f path).find name = none := by
  match entries with
  | .nil => rfl
  | .cons other node rest =>
      unfold Entries.find at h
      split at h
      · cases h
      · rename_i hne
        rw [Entries.refill, Entries.find, if_neg hne]
        exact Entries.find_refill f path h

mutual

theorem Node.valid_refill (f : Path → Bytes) (path : Path) {node : Node} (h : node.Valid) :
    (node.refill f path).Valid := by
  match node with
  | .file _ => trivial
  | .symlink _ => trivial
  | .directory entries => exact Entries.valid_refill f path (by simpa [Node.Valid] using h)

theorem Entries.valid_refill (f : Path → Bytes) (path : Path) {entries : Entries}
    (h : entries.Valid) : (entries.refill f path).Valid := by
  match entries with
  | .nil => trivial
  | .cons name node rest =>
      unfold Entries.Valid at h
      obtain ⟨hname, hfresh, hnode, hrest⟩ := h
      exact ⟨hname, Entries.find_refill f path hfresh, Node.valid_refill f _ hnode,
        Entries.valid_refill f path hrest⟩

end

mutual

theorem Node.walk_refill (f : Path → Bytes) (path : Path) (node : Node) :
    (node.refill f path).walk path = (node.walk path).map (refillObject f) := by
  match node with
  | .file _ => rfl
  | .symlink _ => rfl
  | .directory entries =>
      rw [Node.refill, Node.walk, Node.walk, List.map_cons, Entries.walk_refill f path entries]
      rfl

theorem Entries.walk_refill (f : Path → Bytes) (path : Path) (entries : Entries) :
    (entries.refill f path).walk path = (entries.walk path).map (refillObject f) := by
  match entries with
  | .nil => rfl
  | .cons name node rest =>
      rw [Entries.refill, Entries.walk, Entries.walk, List.map_append, Node.walk_refill f _ node,
        Entries.walk_refill f path rest]

end

def refillPart (f : Path → Bytes) (part : Bytes × List (Path × Inode Bytes)) :
    Bytes × List (Path × Inode Bytes) :=
  (part.1, part.2.map (refillObject f))

theorem inOrder_refill (f : Path → Bytes) (parts : List (Bytes × List (Path × Inode Bytes))) :
    inOrder (parts.map (refillPart f)) = (inOrder parts).map (refillObject f) := by
  unfold inOrder
  rw [sortBy_map (fun _ => rfl), List.flatMap_map, List.map_flatMap]
  rfl

mutual

theorem Node.records_refill (f : Path → Bytes) (path : Path) (node : Node) :
    (node.refill f path).records path = (node.records path).map (refillObject f) := by
  match node with
  | .file _ => rfl
  | .symlink _ => rfl
  | .directory entries =>
      rw [Node.refill, Node.records, Node.records, List.map_cons,
        Entries.parts_refill f path entries, inOrder_refill]
      rfl

theorem Entries.parts_refill (f : Path → Bytes) (path : Path) (entries : Entries) :
    (entries.refill f path).parts path = (entries.parts path).map (refillPart f) := by
  match entries with
  | .nil => rfl
  | .cons name node rest =>
      rw [Entries.refill, Entries.parts, Entries.parts, List.map_cons, Node.records_refill f _ node,
        Entries.parts_refill f path rest]
      rfl

end

/-- A tree of the same layout whose files have other contents. -/
def refill (tree : DirTree) (f : Path → Bytes) (h : ∀ e ∈ tree.objects, KeepsLengths f e) :
    DirTree where
  entries := tree.entries.refill f []
  valid := Entries.valid_refill f [] tree.valid
  sized := by
    rw [Entries.walk_refill]
    intro e he
    obtain ⟨⟨path, o⟩, hmem, rfl⟩ := List.mem_map.mp he
    obtain ⟨hpath, ho⟩ := tree.sized _ hmem
    refine ⟨hpath, ?_⟩
    have hkeeps := h _ hmem
    cases o with
    | directory => trivial
    | file content =>
        have hlength : (f path).length = content.length := Shape.file.inj hkeeps
        show (f path).length < addressable
        rw [hlength]
        exact ho
    | symlink target => exact ho

section

variable {tree a b : DirTree} {f : Path → Bytes}

theorem records_refill (h : ∀ e ∈ tree.objects, KeepsLengths f e) :
    (tree.refill f h).records = tree.records.map (refillObject f) := by
  show inOrder ((tree.entries.refill f []).parts []) = _
  rw [Entries.parts_refill, inOrder_refill]
  rfl

theorem sameLayout_refill (h : ∀ e ∈ tree.objects, KeepsLengths f e) :
    SameLayout tree (tree.refill f h) := by
  rw [sameLayout_iff, layout, layout, records_refill, List.map_map]
  apply List.map_congr_left
  rintro ⟨path, o⟩ hmem
  exact Prod.ext rfl (h _ (mem_records.mp hmem)).symm

/-- Whatever fills the templates of a layout is hashed for some contents. -/
theorem exists_contents {bytes : Bytes} (h : Fills bytes (tree.layout.flatMap template)) :
    ∃ other : DirTree, SameLayout tree other ∧ other.records.flatMap hashRecord = bytes := by
  have hpaths : tree.records.Pairwise fun e e' => e.1 ≠ e'.1 := by
    apply (pairwise_records tree).imp
    intro e e' hbefore heq
    unfold Before at hbefore
    rw [heq] at hbefore
    exact lt_irrefl _ hbefore
  obtain ⟨hstream, hkeeps⟩ := flatMap_fill hpaths h
  have hobjects := fun e he => hkeeps e (mem_records.mpr he)
  refine ⟨tree.refill _ hobjects, sameLayout_refill hobjects, ?_⟩
  rw [records_refill]
  exact hstream

end

/-! ## What an identity tells -/

section

variable {δ : Type} (blake3 : Bytes → δ)

/-- `validate_published` compares the recorded identity with that of the image. -/
def identityMatches [DecidableEq δ] (persisted : δ × Nat) (image : DirTree) : Bool :=
  treeIdentity blake3 image = some persisted

theorem treeIdentity_eq_some {tree : DirTree} {identity : δ × Nat} :
    treeIdentity blake3 tree = some identity ↔
      tree.size < 2 ^ 64 ∧ identity = (blake3 tree.hashedStream, tree.size) := by
  unfold treeIdentity
  split
  · rename_i hsize
    rw [Option.some.injEq, eq_comm]
    exact ⟨fun h => ⟨hsize, h⟩, And.right⟩
  · rename_i hsize
    exact ⟨nofun, fun h => absurd h.1 hsize⟩

variable (hblake3 : Function.Injective blake3)

include hblake3

/-- Trees of one identity are hashed from one stream. -/
theorem records_of_identity {a b : DirTree} {identity : δ × Nat}
    (ha : treeIdentity blake3 a = some identity) (hb : treeIdentity blake3 b = some identity) :
    a.size = b.size ∧ a.records.flatMap hashRecord = b.records.flatMap hashRecord := by
  obtain ⟨_, rfl⟩ := (treeIdentity_eq_some blake3).mp ha
  obtain ⟨_, heq⟩ := (treeIdentity_eq_some blake3).mp hb
  obtain ⟨hdigest, hsize⟩ := Prod.mk.inj heq
  exact ⟨hsize, List.append_cancel_left (hblake3 hdigest)⟩

/-- Trees of the same layout are told apart by their identities. -/
theorem same_of_sameLayout {a b : DirTree} {identity : δ × Nat} (hlayout : SameLayout a b)
    (ha : treeIdentity blake3 a = some identity) (hb : treeIdentity blake3 b = some identity) :
    Same a b := by
  apply same_of_records_eq
  exact records_inj (sameLayout_iff.mp hlayout) (records_of_identity blake3 hblake3 ha hb).2

/-- An identity that two trees can have in common, with the contents left open, determines
the tree exactly when the layouts are the same, the files have different sizes in total, or
the two streams have different bytes at a place where neither has a content. -/
theorem treeIdentity_faithful_iff [DecidableEq δ] (a b : DirTree)
    (ha : (treeIdentity blake3 a).isSome = true) :
    (∀ a' b' identity, SameLayout a a' → SameLayout b b' →
      treeIdentity blake3 a' = some identity → identityMatches blake3 identity b' = true →
      Same a' b') ↔
    SameLayout a b ∨ a.size ≠ b.size ∨
      ¬ Compatible (a.layout.flatMap template) (b.layout.flatMap template) := by
  have hsizes : ∀ {tree other : DirTree}, SameLayout tree other → other.size = tree.size := by
    intro tree other h
    rw [size_eq, size_eq, sameLayout_iff.mp h]
  constructor
  · intro h
    by_contra hno
    rw [not_or, not_or, not_not, not_not] at hno
    obtain ⟨hlayout, hsize, hcompatible⟩ := hno
    -- a stream that both layouts admit
    obtain ⟨bytes, hfills, hfills'⟩ := exists_fills_of_compatible hcompatible
    obtain ⟨a', ha', hstream⟩ := exists_contents hfills
    obtain ⟨b', hb', hstream'⟩ := exists_contents hfills'
    obtain ⟨identity, hidentity⟩ := Option.isSome_iff_exists.mp ha
    have hlt : a.size < 2 ^ 64 := ((treeIdentity_eq_some blake3).mp hidentity).1
    have hone : treeIdentity blake3 a' = some (blake3 a'.hashedStream, a'.size) :=
      (treeIdentity_eq_some blake3).mpr ⟨by rw [hsizes ha']; exact hlt, rfl⟩
    have hother : treeIdentity blake3 b' = some (blake3 a'.hashedStream, a'.size) := by
      rw [treeIdentity_eq_some, hashedStream, hashedStream, hstream, hstream', hsizes ha',
        hsizes hb', hsize]
      exact ⟨hsize ▸ hlt, rfl⟩
    have hsame := h a' b' _ ha' hb' hone (decide_eq_true hother)
    apply hlayout
    intro path
    rw [ha' path, sameLayout_of_same hsame path, hb' path]
  · intro h a' b' identity ha' hb' hidentity hmatches
    have hidentity' := of_decide_eq_true hmatches
    obtain ⟨hsize, hstream⟩ := records_of_identity blake3 hblake3 hidentity hidentity'
    rcases h with hlayout | hne | hclash
    · apply same_of_sameLayout blake3 hblake3 _ hidentity hidentity'
      intro path
      rw [← ha' path, hlayout path, hb' path]
    · rw [hsizes ha', hsizes hb'] at hsize
      exact absurd hsize hne
    · have hfills := fills_records a'.records
      have hfills' := fills_records b'.records
      rw [hstream] at hfills
      change Fills _ (a'.layout.flatMap template) at hfills
      change Fills _ (b'.layout.flatMap template) at hfills'
      rw [← sameLayout_iff.mp ha'] at hfills
      rw [← sameLayout_iff.mp hb'] at hfills'
      exact absurd (compatible_of_fills hfills hfills') hclash

end

/-! ## Two trees with one identity -/

/-- A walk that goes by the order of the paths is hashed as it is. -/
theorem records_of_pairwise {tree : DirTree} (h : tree.objects.Pairwise Before) :
    tree.records = tree.objects := by
  apply List.Perm.eq_of_pairwise _ (pairwise_records tree) h (records_perm tree)
  intro e e' _ _ hlt hgt
  exact absurd hgt (lt_asymm hlt)

/-- The bytes that are hashed in front of a content. -/
def header (name : Bytes) : Bytes := hashField 102 name

theorem sized_file {name content : Bytes} (hname : name.length ≤ longest)
    (hcontent : content.length < addressable) : Sized ([name], .file content) :=
  ⟨by simpa [pathBytes] using hname, hcontent⟩

/-- The content of the first file looks like the header of a second. -/
def leading : DirTree where
  entries := .cons (tag "a") (.file (header (tag "b"))) (.cons (tag "c") (.file []) .nil)
  valid := by
    unfold Entries.Valid Entries.Valid Entries.Valid Node.Valid
    decide
  sized := List.forall_mem_cons.mpr ⟨sized_file (by decide) (by decide),
    List.forall_mem_singleton.mpr (sized_file (by decide) (by decide))⟩

/-- The content of the second file looks like the header of a third. -/
def trailing : DirTree where
  entries := .cons (tag "a") (.file []) (.cons (tag "b") (.file (header (tag "c"))) .nil)
  valid := by
    unfold Entries.Valid Entries.Valid Entries.Valid Node.Valid
    decide
  sized := List.forall_mem_cons.mpr ⟨sized_file (by decide) (by decide),
    List.forall_mem_singleton.mpr (sized_file (by decide) (by decide))⟩

theorem records_leading : leading.records = [([tag "a"], .file (header (tag "b"))),
    ([tag "c"], .file [])] := by
  apply records_of_pairwise
  show List.Pairwise Before [([tag "a"], .file (header (tag "b"))), ([tag "c"], .file [])]
  unfold Before
  decide

theorem records_trailing : trailing.records = [([tag "a"], .file []),
    ([tag "b"], .file (header (tag "c")))] := by
  apply records_of_pairwise
  show List.Pairwise Before [([tag "a"], .file []), ([tag "b"], .file (header (tag "c")))]
  unfold Before
  decide

theorem identity_leading {δ : Type} (blake3 : Bytes → δ) : treeIdentity blake3 leading =
    some (blake3 (tag "bpm-derived-tree-v1\x00" ++
      (header (tag "a") ++ header (tag "b") ++ header (tag "c"))), 10) := by
  rw [treeIdentity_eq_some, hashedStream, size, records_leading]
  refine ⟨by decide, ?_⟩
  congr 1

theorem identity_trailing {δ : Type} (blake3 : Bytes → δ) : treeIdentity blake3 trailing =
    some (blake3 (tag "bpm-derived-tree-v1\x00" ++
      (header (tag "a") ++ header (tag "b") ++ header (tag "c"))), 10) := by
  rw [treeIdentity_eq_some, hashedStream, size, records_trailing]
  refine ⟨by decide, ?_⟩
  congr 1

theorem not_same_leading : ¬ Same leading trailing := by
  intro h
  have hb := (h ([tag "c"], .file [])).mp (mem_records.mp (by
    rw [records_leading]
    exact List.mem_cons_of_mem _ List.mem_cons_self))
  rw [← mem_records, records_trailing] at hb
  revert hb
  decide

theorem treeIdentity_confuses : ¬ Same leading trailing ∧
    ∀ (δ : Type) [DecidableEq δ] (blake3 : Bytes → δ), ∃ identity,
      treeIdentity blake3 leading = some identity ∧
      identityMatches blake3 identity trailing = true := by
  refine ⟨not_same_leading, ?_⟩
  intro δ _ blake3
  exact ⟨_, identity_leading blake3, decide_eq_true (identity_trailing blake3)⟩

/-- The digest of BLAKE3 for the stream of `leading`; other streams are not hashed. -/
def sampleDigest : Bytes → Bytes :=
  Equiv.swap (tag "bpm-derived-tree-v1\x00" ++
      (header (tag "a") ++ header (tag "b") ++ header (tag "c")))
    (tag "7a0458225173e79277420817558abedadfd7f9cdd5d7591e6e9f8cc903583a2c")

theorem treeIdentity_faithful_iff_leading :
    (∀ a' b' identity, SameLayout leading a' → SameLayout trailing b' →
      treeIdentity sampleDigest a' = some identity →
      identityMatches sampleDigest identity b' = true → Same a' b') ↔
    SameLayout leading trailing ∨ leading.size ≠ trailing.size ∨
      ¬ Compatible (leading.layout.flatMap template) (trailing.layout.flatMap template) :=
  treeIdentity_faithful_iff sampleDigest (Equiv.injective _) leading trailing
    (by rw [identity_leading]; rfl)

end DirTree
end Bpm
