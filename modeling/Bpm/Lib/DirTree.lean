import Bpm.Lib.Bytes
import Bpm.Lib.FileTree

/-!
# Directory trees

A tree of directories, files and symbolic links as a recursive walk finds it.  Names and
targets are bytes, and a directory lists its entries in the order in which the system
enumerates them.  A path read as text is lossy: what is not UTF-8 is replaced.
-/

namespace Bpm
namespace DirTree

open Bytes Text FileTree

abbrev Path := List Bytes

/-- Names are compared byte by byte. -/
def nameOrder (name : Bytes) : List Nat := name.map UInt8.toNat

theorem nameOrder_injective : Function.Injective nameOrder :=
  List.map_injective_iff.mpr fun _ _ h => UInt8.toNat_inj.mp h

/-- What stands at a path; how the target of a link is given is left open. -/
inductive Inode (τ : Type)
  | directory
  | file (content : Bytes)
  | symlink (target : τ)
deriving DecidableEq

def Inode.map {τ σ : Type} (f : τ → σ) : Inode τ → Inode σ
  | .directory => .directory
  | .file content => .file content
  | .symlink target => .symlink (f target)

mutual

inductive Node
  | file (content : Bytes)
  | symlink (target : Bytes)
  | directory (entries : Entries)

inductive Entries
  | nil
  | cons (name : Bytes) (node : Node) (rest : Entries)

end

def Node.object : Node → Inode Bytes
  | .file content => .file content
  | .symlink target => .symlink target
  | .directory _ => .directory

mutual

/-- What a walk from `path` on comes upon: a directory before what it holds. -/
def Node.walk (path : Path) : Node → List (Path × Inode Bytes)
  | .file content => [(path, .file content)]
  | .symlink target => [(path, .symlink target)]
  | .directory entries => (path, .directory) :: entries.walk path

def Entries.walk (path : Path) : Entries → List (Path × Inode Bytes)
  | .nil => []
  | .cons name node rest => node.walk (path ++ [name]) ++ rest.walk path

end

def Entries.find (name : Bytes) : Entries → Option Node
  | .nil => none
  | .cons other node rest => if other = name then some node else rest.find name

/-- What stands at a path that leads through directories only. -/
def Node.lookup : Node → Path → Option (Inode Bytes)
  | node, [] => some node.object
  | .directory entries, name :: path => (entries.find name).bind fun child => child.lookup path
  | .file _, _ :: _ => none
  | .symlink _, _ :: _ => none

/-- What a directory can hold as a name. -/
def ValidName (name : Bytes) : Prop :=
  name ≠ [] ∧ name ≠ tag "." ∧ name ≠ tag ".." ∧ 0 ∉ name ∧ 47 ∉ name

instance (name : Bytes) : Decidable (ValidName name) := inferInstanceAs (Decidable (_ ∧ _))

mutual

/-- Valid names, and no name twice in one directory. -/
def Node.Valid : Node → Prop
  | .file _ => True
  | .symlink _ => True
  | .directory entries => entries.Valid

def Entries.Valid : Entries → Prop
  | .nil => True
  | .cons name node rest =>
      ValidName name ∧ rest.find name = none ∧ node.Valid ∧ rest.Valid

end

/-! ## Texts of paths -/

def pathBytes (path : Path) : Bytes := (tag "/").intercalate path

/-- How many bytes a character takes that begins with `first`; no character begins with
a byte for which this is 0. -/
def width (first : UInt8) : Nat :=
  if first < 0x80 then 1
  else if 0xC2 ≤ first && first ≤ 0xDF then 2
  else if 0xE0 ≤ first && first ≤ 0xEF then 3
  else if 0xF0 ≤ first && first ≤ 0xF4 then 4
  else 0

def isContinuation (b : UInt8) : Bool := 0x80 ≤ b && b ≤ 0xBF

/-- Whether a character can begin with these two bytes. -/
def continues (first second : UInt8) : Bool :=
  if first = 0xE0 then 0xA0 ≤ second && second ≤ 0xBF
  else if first = 0xED then 0x80 ≤ second && second ≤ 0x9F
  else if first = 0xF0 then 0x90 ≤ second && second ≤ 0xBF
  else if first = 0xF4 then 0x80 ≤ second && second ≤ 0x8F
  else isContinuation second

/-- The bytes in front that make up a character, or the longest beginning of one. -/
def chunkLength : Bytes → Nat
  | [] => 0
  | [_] => 1
  | first :: second :: rest =>
      if 2 ≤ width first && continues first second then
        2 + ((rest.take (width first - 2)).takeWhile isContinuation).length
      else 1

def replaceInvalid : Nat → Bytes → Str
  | 0, _ => []
  | fuel + 1, bytes =>
      if bytes = [] then []
      else (text (bytes.take (chunkLength bytes))).getD ['\uFFFD'] ++
        replaceInvalid fuel (bytes.drop (chunkLength bytes))

/-- `OsStr::to_string_lossy`: each part that is not UTF-8 becomes a replacement character. -/
def toStringLossy (bytes : Bytes) : Str :=
  match text bytes with
  | some s => s
  | none => replaceInvalid bytes.length bytes

def replaceBackslashes (s : Str) : Str := s.map fun c => if c = '\\' then '/' else c

/-- The text under which a path is recorded. -/
def pathText (path : Path) : Str := replaceBackslashes (toStringLossy (pathBytes path))

/-- The names in a path without steps up and without a root. -/
def componentNames : List Component → Option Path
  | [] => some []
  | .normal name :: rest => (componentNames rest).map (utf8 name :: ·)
  | .curDir :: rest => componentNames rest
  | .rootDir :: _ => none
  | .parentDir :: _ => none

/-- The path that a text is read as. -/
def textPath (path : Str) : Option Path := componentNames (components path)

/-- Text that is recorded as it is. -/
def Plain (name : Bytes) : Prop := ∃ s, name = utf8 s ∧ '\\' ∉ s

/-- More than any system allows for a path. -/
def longest : Nat := 2 ^ 30

/-- The lengths of a path and of what stands there. -/
def Sized (e : Path × Inode Bytes) : Prop :=
  (pathBytes e.1).length ≤ longest ∧
    match e.2 with
    | .directory => True
    | .file content => content.length < addressable
    | .symlink target => target.length ≤ longest

end DirTree

/-- A directory on disk. -/
structure DirTree where
  entries : DirTree.Entries
  valid : entries.Valid
  sized : ∀ e ∈ entries.walk [], DirTree.Sized e

namespace DirTree

open Bytes Text FileTree

/-- What lies below the directory, in the order of a walk. -/
def objects (tree : DirTree) : List (Path × Inode Bytes) := tree.entries.walk []

def lookup (tree : DirTree) (path : Path) : Option (Inode Bytes) :=
  (Node.directory tree.entries).lookup path

/-- All names are recorded as they are. -/
def PlainNames (tree : DirTree) : Prop := ∀ e ∈ tree.objects, ∀ name ∈ e.1, Plain name

/-- The same objects at the same paths. -/
def Same (a b : DirTree) : Prop := ∀ e, e ∈ a.objects ↔ e ∈ b.objects

/-! ## Walks and lookups -/

/-- Different objects are alike under a reading of targets only if they are links. -/
theorem Inode.map_eq_map {τ σ : Type} {f : τ → σ} {a b : Inode τ} (h : a.map f = b.map f) :
    a = b ∨ ∃ s t, a = .symlink s ∧ b = .symlink t ∧ f s = f t := by
  cases a with
  | directory =>
      cases b with
      | directory => exact Or.inl rfl
      | file _ => cases h
      | symlink _ => cases h
  | file content =>
      cases b with
      | directory => cases h
      | file content' =>
          obtain rfl : content = content' := Inode.file.inj h
          exact Or.inl rfl
      | symlink _ => cases h
  | symlink s =>
      cases b with
      | directory => cases h
      | file _ => cases h
      | symlink t => exact Or.inr ⟨s, t, rfl, rfl, Inode.symlink.inj h⟩

theorem Entries.find_valid {entries : Entries} (h : entries.Valid) {name : Bytes} {node : Node}
    (hfind : entries.find name = some node) : ValidName name ∧ node.Valid := by
  match entries with
  | .nil => cases hfind
  | .cons other child rest =>
      unfold Entries.Valid at h
      unfold Entries.find at hfind
      split at hfind
      · rename_i heq
        cases hfind
        exact ⟨heq ▸ h.1, h.2.2.1⟩
      · exact Entries.find_valid h.2.2.2 hfind

/-- What holds nothing is all that a walk comes upon. -/
theorem mem_walk_leaf {node : Node} {path p : Path} {o : Inode Bytes}
    (hwalk : node.walk path = [(path, node.object)])
    (hleaf : ∀ name rel, node.lookup (name :: rel) = none) :
    (p, o) ∈ node.walk path ↔ ∃ rel, p = path ++ rel ∧ node.lookup rel = some o := by
  rw [hwalk, List.mem_singleton, Prod.mk.injEq]
  constructor
  · rintro ⟨rfl, rfl⟩
    exact ⟨[], (List.append_nil p).symm, by simp [Node.lookup]⟩
  · rintro ⟨rel, rfl, hlookup⟩
    cases rel with
    | nil =>
        rw [Node.lookup] at hlookup
        exact ⟨List.append_nil path, (Option.some.inj hlookup).symm⟩
    | cons name rel =>
        rw [hleaf] at hlookup
        cases hlookup

mutual

theorem Node.mem_walk {node : Node} (h : node.Valid) {path p : Path} {o : Inode Bytes} :
    (p, o) ∈ node.walk path ↔ ∃ rel, p = path ++ rel ∧ node.lookup rel = some o := by
  match node with
  | .file _ => exact mem_walk_leaf rfl fun _ _ => rfl
  | .symlink _ => exact mem_walk_leaf rfl fun _ _ => rfl
  | .directory entries =>
      rw [Node.walk, List.mem_cons, Prod.mk.injEq, Entries.mem_walk (by simpa [Node.Valid] using h)]
      constructor
      · rintro (⟨rfl, rfl⟩ | ⟨name, rel, rfl, hlookup⟩)
        · exact ⟨[], (List.append_nil p).symm, rfl⟩
        · exact ⟨name :: rel, rfl, hlookup⟩
      · rintro ⟨rel, rfl, hlookup⟩
        cases rel with
        | nil => exact Or.inl ⟨List.append_nil path, (Option.some.inj hlookup).symm⟩
        | cons name rel => exact Or.inr ⟨name, rel, rfl, hlookup⟩

theorem Entries.mem_walk {entries : Entries} (h : entries.Valid) {path p : Path}
    {o : Inode Bytes} : (p, o) ∈ entries.walk path ↔ ∃ name rel, p = path ++ name :: rel ∧
      ((entries.find name).bind fun child => child.lookup rel) = some o := by
  match entries with
  | .nil => simp [Entries.walk, Entries.find]
  | .cons first node rest =>
      unfold Entries.Valid at h
      obtain ⟨_, hfresh, hnode, hrest⟩ := h
      rw [Entries.walk, List.mem_append, Node.mem_walk hnode, Entries.mem_walk hrest]
      constructor
      · rintro (⟨rel, rfl, hlookup⟩ | ⟨name, rel, rfl, hlookup⟩)
        · refine ⟨first, rel, by simp, ?_⟩
          rw [Entries.find, if_pos rfl]
          exact hlookup
        · refine ⟨name, rel, rfl, ?_⟩
          have hne : first ≠ name := by
            rintro rfl
            rw [hfresh] at hlookup
            cases hlookup
          rw [Entries.find, if_neg hne]
          exact hlookup
      · rintro ⟨name, rel, rfl, hlookup⟩
        unfold Entries.find at hlookup
        split at hlookup
        · rename_i heq
          subst heq
          exact Or.inl ⟨rel, by simp, hlookup⟩
        · exact Or.inr ⟨name, rel, rfl, hlookup⟩

end

mutual

theorem Node.pairwise_walk {node : Node} (h : node.Valid) (path : Path) :
    (node.walk path).Pairwise fun e e' => ¬ e'.1 <+: e.1 := by
  match node with
  | .file _ => exact List.pairwise_singleton _ _
  | .symlink _ => exact List.pairwise_singleton _ _
  | .directory entries =>
      have hvalid : entries.Valid := by simpa [Node.Valid] using h
      rw [Node.walk, List.pairwise_cons]
      refine ⟨?_, Entries.pairwise_walk hvalid path⟩
      rintro ⟨p, o⟩ hmem habove
      obtain ⟨name, rel, rfl, _⟩ := (Entries.mem_walk hvalid).mp hmem
      have hlength : (path ++ name :: rel).length ≤ path.length := habove.length_le
      rw [List.length_append, List.length_cons] at hlength
      omega

/-- A walk does not come back to a path, nor to one above it. -/
theorem Entries.pairwise_walk {entries : Entries} (h : entries.Valid) (path : Path) :
    (entries.walk path).Pairwise fun e e' => ¬ e'.1 <+: e.1 := by
  match entries with
  | .nil => exact List.Pairwise.nil
  | .cons first node rest =>
      unfold Entries.Valid at h
      obtain ⟨_, hfresh, hnode, hrest⟩ := h
      rw [Entries.walk, List.pairwise_append]
      refine ⟨Node.pairwise_walk hnode _, Entries.pairwise_walk hrest path, ?_⟩
      rintro ⟨p, o⟩ hleft ⟨p', o'⟩ hright habove
      obtain ⟨rel, rfl, _⟩ := (Node.mem_walk hnode).mp hleft
      obtain ⟨name, rel', rfl, hlookup⟩ := (Entries.mem_walk hrest).mp hright
      have hname : name = first := by
        dsimp only at habove
        rw [List.append_assoc, List.prefix_append_right_inj] at habove
        exact (List.cons_prefix_cons.mp habove).1
      rw [hname, hfresh] at hlookup
      cases hlookup

end

theorem Node.lookup_valid {node : Node} (h : node.Valid) {path : Path} {o : Inode Bytes}
    (hlookup : node.lookup path = some o) : ∀ name ∈ path, ValidName name := by
  induction path generalizing node with
  | nil => exact nofun
  | cons name path ih =>
      cases node with
      | file _ => cases hlookup
      | symlink _ => cases hlookup
      | directory entries =>
          obtain ⟨child, hfind, hchild⟩ := Option.bind_eq_some_iff.mp hlookup
          obtain ⟨hname, hvalid⟩ := Entries.find_valid (by simpa [Node.Valid] using h) hfind
          exact List.forall_mem_cons.mpr ⟨hname, ih hvalid hchild⟩

/-- What has something below it is a directory. -/
theorem Node.lookup_parent {node : Node} {path rel : Path} {o : Inode Bytes} (hne : rel ≠ [])
    (hlookup : node.lookup (path ++ rel) = some o) : node.lookup path = some .directory := by
  induction path generalizing node with
  | nil =>
      cases rel with
      | nil => exact absurd rfl hne
      | cons name rel =>
          cases node with
          | file _ => cases hlookup
          | symlink _ => cases hlookup
          | directory entries => rfl
  | cons name path ih =>
      cases node with
      | file _ => cases hlookup
      | symlink _ => cases hlookup
      | directory entries =>
          obtain ⟨child, hfind, hchild⟩ := Option.bind_eq_some_iff.mp hlookup
          exact Option.bind_eq_some_iff.mpr ⟨child, hfind, ih hchild⟩

section Tree

variable {tree : DirTree} {path : Path} {o : Inode Bytes}

theorem mem_objects : (path, o) ∈ tree.objects ↔ path ≠ [] ∧ tree.lookup path = some o := by
  unfold objects
  rw [Entries.mem_walk tree.valid]
  constructor
  · rintro ⟨name, rel, rfl, hlookup⟩
    exact ⟨List.cons_ne_nil name rel, hlookup⟩
  · rintro ⟨hne, hlookup⟩
    cases path with
    | nil => exact absurd rfl hne
    | cons name rel => exact ⟨name, rel, rfl, hlookup⟩

theorem pairwise_objects (tree : DirTree) :
    tree.objects.Pairwise fun e e' => ¬ e'.1 <+: e.1 :=
  Entries.pairwise_walk tree.valid []

theorem nodup_objects (tree : DirTree) : tree.objects.Nodup := by
  apply (pairwise_objects tree).imp
  rintro e _ hno rfl
  exact hno (List.prefix_refl e.1)

theorem validNames (h : tree.lookup path = some o) : ∀ name ∈ path, ValidName name :=
  Node.lookup_valid (by simpa [Node.Valid] using tree.valid) h

theorem lookup_nil (tree : DirTree) : tree.lookup [] = some .directory := rfl

theorem lookup_parent {rel : Path} (hne : rel ≠ []) (h : tree.lookup (path ++ rel) = some o) :
    tree.lookup path = some .directory :=
  Node.lookup_parent hne h

/-- A walk comes upon a directory before what it holds. -/
theorem mem_before {pre post : List (Path × Inode Bytes)} {above : Path}
    (h : tree.objects = pre ++ (path, o) :: post) (hne : above ≠ []) (habove : above <+: path)
    (hproper : above ≠ path) : (above, .directory) ∈ pre := by
  have hpath : (path, o) ∈ tree.objects := by
    rw [h]
    exact List.mem_append_right _ List.mem_cons_self
  obtain ⟨rel, rfl⟩ := habove
  have hrel : rel ≠ [] := by
    rintro rfl
    exact hproper (List.append_nil above).symm
  have hmem : (above, .directory) ∈ tree.objects :=
    mem_objects.mpr ⟨hne, lookup_parent hrel (mem_objects.mp hpath).2⟩
  have hpairwise := pairwise_objects tree
  rw [h] at hmem hpairwise
  rcases List.mem_append.mp hmem with hpre | hpost
  · exact hpre
  · have hlater := (List.pairwise_cons.mp (List.pairwise_append.mp hpairwise).2.1).1
    rcases List.mem_cons.mp hpost with heq | hin
    · exact absurd (Prod.mk.inj heq).1 hproper
    · exact absurd (List.prefix_append above rel) (hlater _ hin)

/-- A tree is what its lookups say, whatever the order of enumeration. -/
theorem same_iff {a b : DirTree} : Same a b ↔ ∀ path, a.lookup path = b.lookup path := by
  constructor
  · intro h path
    cases path with
    | nil => rfl
    | cons name path =>
        apply Option.ext
        intro o
        have hiff := h (name :: path, o)
        rw [mem_objects, mem_objects] at hiff
        simpa using hiff
  · rintro h ⟨path, o⟩
    rw [mem_objects, mem_objects, h]

end Tree

/-! ## Reading texts -/

theorem toStringLossy_utf8 (s : Str) : toStringLossy (utf8 s) = s := by
  rw [toStringLossy, text_utf8]

theorem chunkLength_pos {bytes : Bytes} (h : bytes ≠ []) : 0 < chunkLength bytes := by
  match bytes with
  | [_] => exact Nat.one_pos
  | first :: second :: rest =>
      rw [chunkLength]
      split <;> omega

/-- A replacement character takes three bytes. -/
theorem length_replaceInvalid (fuel : Nat) (bytes : Bytes) :
    (utf8 (replaceInvalid fuel bytes)).length ≤ 3 * bytes.length := by
  induction fuel generalizing bytes with
  | zero => exact Nat.zero_le _
  | succ fuel ih =>
      rw [replaceInvalid]
      split
      · exact Nat.zero_le _
      · rename_i hne
        have hpos := chunkLength_pos hne
        have hlen := List.length_pos_iff.mpr hne
        have hrest := ih (bytes.drop (chunkLength bytes))
        have hfirst : (utf8 ((text (bytes.take (chunkLength bytes))).getD ['\uFFFD'])).length ≤
            3 * (bytes.take (chunkLength bytes)).length := by
          cases htext : text (bytes.take (chunkLength bytes)) with
          | none =>
              have hthree : (utf8 ['\uFFFD']).length = 3 := by decide
              rw [Option.getD_none, hthree, List.length_take]
              omega
          | some s =>
              rw [Option.getD_some, text_eq_some.mp htext]
              omega
        rw [List.length_take] at hfirst
        rw [List.length_drop] at hrest
        rw [utf8, List.flatMap_append, List.length_append]
        unfold utf8 at hfirst hrest
        omega

theorem length_toStringLossy (bytes : Bytes) :
    (utf8 (toStringLossy bytes)).length ≤ 3 * bytes.length := by
  unfold toStringLossy
  split
  · rename_i s htext
    rw [text_eq_some.mp htext]
    omega
  · exact length_replaceInvalid _ _

theorem length_replaceBackslashes (s : Str) :
    (utf8 (replaceBackslashes s)).length = (utf8 s).length := by
  induction s with
  | nil => rfl
  | cons c s ih =>
      have hc : (String.utf8EncodeChar (if c = '\\' then '/' else c)).length =
          (String.utf8EncodeChar c).length := by
        split
        · rename_i heq
          rw [heq]
          decide
        · rfl
      unfold utf8 replaceBackslashes at *
      rw [List.map_cons, List.flatMap_cons, List.flatMap_cons, List.length_append,
        List.length_append, hc, ih]

theorem length_pathText (path : Path) :
    (utf8 (pathText path)).length ≤ 3 * (pathBytes path).length := by
  rw [pathText, length_replaceBackslashes]
  exact length_toStringLossy _

theorem replaceBackslashes_of_notMem {s : Str} (h : '\\' ∉ s) : replaceBackslashes s = s := by
  have hkeep : ∀ c ∈ s, (if c = '\\' then '/' else c) = id c := by
    intro c hc
    rw [if_neg]
    · rfl
    · rintro rfl
      exact h hc
  rw [replaceBackslashes, List.map_congr_left hkeep, List.map_id]

theorem utf8_join (parts : List Str) :
    utf8 (join ['/'] parts) = pathBytes (parts.map utf8) := by
  unfold join pathBytes
  induction parts with
  | nil => rfl
  | cons part parts ih =>
      cases parts with
      | nil => simp
      | cons next rest =>
          rw [List.intercalate_cons_cons, List.map_cons, List.map_cons, List.intercalate_cons_cons,
            ← List.map_cons, ← ih]
          simp [utf8, tag]

/-- Plain names as texts. -/
theorem exists_texts {path : Path} (h : ∀ name ∈ path, ValidName name ∧ Plain name) :
    ∃ parts : List Str, path = parts.map utf8 ∧ ∀ part ∈ parts,
      '\\' ∉ part ∧ '/' ∉ part ∧ part ≠ [] ∧ part ≠ ['.'] ∧ part ≠ ['.', '.'] := by
  induction path with
  | nil => exact ⟨[], rfl, nofun⟩
  | cons name path ih =>
      rw [List.forall_mem_cons] at h
      obtain ⟨⟨hvalid, s, rfl, hs⟩, hpath⟩ := h
      obtain ⟨parts, rfl, hparts⟩ := ih hpath
      obtain ⟨hne, hdot, hdots, _, hslash⟩ := hvalid
      refine ⟨s :: parts, rfl, List.forall_mem_cons.mpr ⟨⟨hs, ?_, ?_, ?_, ?_⟩, hparts⟩⟩
      · intro hmem
        exact hslash (List.mem_flatMap.mpr ⟨'/', hmem, by decide⟩)
      · rintro rfl
        exact hne rfl
      · rintro rfl
        exact hdot (by decide)
      · rintro rfl
        exact hdots (by decide)

theorem componentNames_names (parts : List Str) :
    componentNames (parts.map .normal) = some (parts.map utf8) := by
  induction parts with
  | nil => rfl
  | cons part parts ih => rw [List.map_cons, componentNames, ih, Option.map_some, List.map_cons]

theorem mem_componentNames {l : List Component} {path : Path} (h : componentNames l = some path)
    {name : Bytes} (hname : name ∈ path) : ∃ s, .normal s ∈ l ∧ name = utf8 s := by
  induction l generalizing path with
  | nil =>
      cases h
      cases hname
  | cons c l ih =>
      cases c with
      | rootDir => cases h
      | parentDir => cases h
      | curDir =>
          obtain ⟨s, hs, heq⟩ := ih h hname
          exact ⟨s, List.mem_cons_of_mem _ hs, heq⟩
      | normal part =>
          obtain ⟨rest, hrest, rfl⟩ := Option.map_eq_some_iff.mp h
          rcases List.mem_cons.mp hname with rfl | hin
          · exact ⟨part, List.mem_cons_self, rfl⟩
          · obtain ⟨s, hs, heq⟩ := ih hrest hin
            exact ⟨s, List.mem_cons_of_mem _ hs, heq⟩

/-- A text is read as a path of plain names, if it is recorded so. -/
theorem plain_textPath {rel path : Path} (h : textPath (pathText rel) = some path) :
    ∀ name ∈ path, Plain name := by
  intro name hname
  obtain ⟨s, hs, rfl⟩ := mem_componentNames h hname
  refine ⟨s, rfl, ?_⟩
  intro hbackslash
  have hmem := (mem_splitOn (mem_splitOn_of_components hs)).2 hbackslash
  obtain ⟨c, _, hc⟩ := List.mem_map.mp hmem
  split at hc
  · cases hc
  · rename_i hne
    exact hne hc

/-- The text of a path of plain names is read as this path. -/
theorem textPath_pathText {path : Path} (hne : path ≠ [])
    (h : ∀ name ∈ path, ValidName name ∧ Plain name) : textPath (pathText path) = some path := by
  obtain ⟨parts, rfl, hparts⟩ := exists_texts h
  have hne' : parts ≠ [] := by
    rintro rfl
    exact hne rfl
  have hsplit : (join ['/'] parts).splitOn '/' = parts :=
    List.splitOn_intercalate '/' (fun part hpart => (hparts part hpart).2.1) hne'
  have hbackslash : '\\' ∉ join ['/'] parts := by
    intro hmem
    obtain ⟨part, hpart, hin⟩ := @exists_mem_splitOnP (· == '/') _ _ hmem rfl
    rw [show (join ['/'] parts).splitOnP (· == '/') = parts from hsplit] at hpart
    exact (hparts part hpart).1 hin
  have hsegment : ∀ part ∈ (join ['/'] parts).splitOn '/',
      FileTree.segment part = some (.normal part) := by
    intro part hpart
    rw [hsplit] at hpart
    obtain ⟨_, _, hempty, hdot, hdots⟩ := hparts part hpart
    unfold FileTree.segment
    rw [if_neg (not_or.mpr ⟨hempty, hdot⟩), if_neg hdots]
  rw [pathText, ← utf8_join, toStringLossy_utf8, replaceBackslashes_of_notMem hbackslash, textPath,
    components_of_segments hsegment, hsplit, componentNames_names]

end DirTree
end Bpm
