import Bpm.Lib.DirTree
import Bpm.Lib.Sorting

/-!
# Tree fingerprints

A directory that a project received as a copy is removed only while its fingerprint is
that of its source.  The fingerprint is a hash over all entries in the order of their
relative paths: kind, path and content, each behind its length.  Targets of links are
hashed as texts, and targets that are not UTF-8 can have the same text.
-/

namespace Bpm
namespace Fingerprint

open Bytes DirTree Sorting Text

def identityTree : Str := lit "tree-blake3-v1:"

/-! ## The hashed stream -/

def relativeString (path : Path) : Str := replaceBackslashes (toStringLossy (pathBytes path))

def collectRelativeEntries (root : DirTree) : List Str :=
  root.objects.map fun e => relativeString e.1

def lenStr (bytes : Bytes) : Bytes := u64 bytes.length ++ bytes

def kind {τ : Type} : Inode τ → UInt8
  | .symlink _ => 115
  | .directory => 100
  | .file _ => 102

/-- Read until nothing is expected any more; the file ends early for `none`. -/
def readChunks (remaining : Nat) (file : Bytes) : Option (Bytes × Bytes) :=
  if remaining = 0 then some ([], file)
  else if file.take (min remaining 65536) = [] then none
  else
    (readChunks (remaining - (file.take (min remaining 65536)).length)
      (file.drop (min remaining 65536))).map fun (hashed, rest) =>
        (file.take (min remaining 65536) ++ hashed, rest)
termination_by remaining
decreasing_by
  have hpos := List.length_pos_iff.mpr ‹¬file.take (min remaining 65536) = []›
  omega

/-- What is hashed of a file, which must neither end early nor have grown. -/
def hashFileContents (file : Bytes) (expectedLen : Nat) : Option Bytes :=
  match readChunks expectedLen file with
  | some (hashed, []) => some (u64 expectedLen ++ hashed)
  | _ => none

def hashContent : Inode Bytes → Option Bytes
  | .symlink target => some (lenStr (utf8 (toStringLossy target)))
  | .file content => hashFileContents content content.length
  | .directory => some []

/-- What is hashed for one entry, which is looked up under its relative path. -/
def hashEntry (root : DirTree) (rel : Str) : Option Bytes := do
  let path ← textPath rel
  let object ← root.lookup path
  let content ← hashContent object
  return kind object :: (lenStr (utf8 rel) ++ content)

def stream (root : DirTree) : Option Bytes := do
  let hashed ← (sortBy (fun rel => rel) (collectRelativeEntries root)).mapM (hashEntry root)
  return hashed.flatten

section

-- the hash in hexadecimal digits
variable (blake3 : Bytes → Str)

def treeFingerprint (root : DirTree) : Option Str :=
  (stream root).map fun bytes => identityTree ++ blake3 bytes

/-- The check before a copy of `source` is removed. -/
def safeToRemove (live source : DirTree) : Bool :=
  match treeFingerprint blake3 live, treeFingerprint blake3 source with
  | some live, some expected => live == expected
  | _, _ => false

end

/-! ## What a fingerprint sees -/

/-- The objects at a path agree, with targets of links as texts. -/
def LooksAlike (a b : DirTree) : Prop :=
  ∀ path, (a.lookup path).map (Inode.map toStringLossy) =
    (b.lookup path).map (Inode.map toStringLossy)

/-- The trees differ, and only in link targets that have the same text. -/
structure Confused (a b : DirTree) : Prop where
  alike : LooksAlike a b
  differ : ∃ path s t, a.lookup path = some (.symlink s) ∧ b.lookup path = some (.symlink t) ∧
    toStringLossy s = toStringLossy t ∧ s ≠ t

/-- The bytes that are hashed for a path with what is seen there. -/
def piece (e : Str × Inode Str) : Bytes :=
  kind e.2 :: (lenStr (utf8 e.1) ++ match e.2 with
    | .symlink target => lenStr (utf8 target)
    | .file content => u64 content.length ++ content
    | .directory => [])

/-- The lengths of a path and of what is seen there. -/
def Measured (e : Str × Inode Str) : Prop :=
  (utf8 e.1).length < 2 ^ 64 ∧
    match e.2 with
    | .symlink target => (utf8 target).length < 2 ^ 64
    | .file content => content.length < 2 ^ 64
    | .directory => True

def sight (root : DirTree) : List (Str × Inode Str) :=
  root.objects.map fun e => (relativeString e.1, e.2.map toStringLossy)

/-! ## The stream of a tree with plain names -/

/-- A file that does not change is read to its end. -/
theorem readChunks_length (file : Bytes) : readChunks file.length file = some (file, []) := by
  induction hn : file.length using Nat.strong_induction_on generalizing file with
  | _ n ih =>
      subst hn
      rw [readChunks]
      split
      · rename_i hzero
        rw [List.length_eq_zero_iff.mp hzero]
      · rename_i hne
        have hmin : 0 < min file.length 65536 := by omega
        have htake : file.take (min file.length 65536) ≠ [] := by
          rw [← List.length_pos_iff, List.length_take]
          omega
        have hrest : file.length - (file.take (min file.length 65536)).length =
            (file.drop (min file.length 65536)).length := by
          rw [List.length_take, List.length_drop]
          omega
        have hlt : (file.drop (min file.length 65536)).length < file.length := by
          rw [List.length_drop]
          omega
        rw [if_neg htake, hrest, ih _ hlt _ rfl, Option.map_some]
        dsimp only
        rw [List.take_append_drop]

theorem hashFileContents_length (file : Bytes) :
    hashFileContents file file.length = some (u64 file.length ++ file) := by
  rw [hashFileContents, readChunks_length]

theorem mapM_eq_some_map {α β : Type} {f : α → Option β} {g : α → β} {l : List α}
    (h : ∀ a ∈ l, f a = some (g a)) : l.mapM f = some (l.map g) := by
  induction l with
  | nil => rfl
  | cons a l ih =>
      rw [List.forall_mem_cons] at h
      rw [List.mapM_cons, h.1, ih h.2]
      rfl

section Plain

variable {root : DirTree} (hplain : root.PlainNames)

include hplain

/-- An entry is found again under the text of its path. -/
theorem textPath_relativeString {path : Path} {o : Inode Bytes} (h : (path, o) ∈ root.objects) :
    textPath (relativeString path) = some path := by
  obtain ⟨hne, hlookup⟩ := mem_objects.mp h
  apply textPath_pathText hne
  intro name hname
  exact ⟨validNames hlookup name hname, hplain _ h name hname⟩

theorem hashEntry_eq {e : Path × Inode Bytes} (h : e ∈ root.objects) :
    hashEntry root (relativeString e.1) =
      some (piece (relativeString e.1, e.2.map toStringLossy)) := by
  obtain ⟨path, o⟩ := e
  have hlookup := (mem_objects.mp h).2
  unfold hashEntry
  rw [textPath_relativeString hplain h]
  cases o <;> simp [hlookup, hashContent, hashFileContents_length, piece, kind, Inode.map]

theorem stream_eq :
    stream root = some ((sortBy Prod.fst (sight root)).flatMap piece) := by
  have hrels : collectRelativeEntries root = (sight root).map Prod.fst := by
    rw [collectRelativeEntries, sight, List.map_map]
    rfl
  have hsort : sortBy (fun rel => rel) (collectRelativeEntries root) =
      (sortBy Prod.fst (sight root)).map Prod.fst := by
    rw [hrels]
    exact sortBy_map (fun _ => rfl) _
  have hmap : ((sortBy Prod.fst (sight root)).map Prod.fst).mapM (hashEntry root) =
      some ((sortBy Prod.fst (sight root)).map piece) := by
    rw [List.mapM_map]
    apply mapM_eq_some_map
    intro seen hseen
    obtain ⟨e, he, rfl⟩ := List.mem_map.mp ((sortBy_perm Prod.fst _).mem_iff.mp hseen)
    exact hashEntry_eq hplain he
  rw [stream, hsort, hmap]
  simp [List.flatMap]

end Plain

/-! ## Telling streams apart -/

theorem piece_ne_nil (e : Str × Inode Str) : piece e ≠ [] := List.cons_ne_nil _ _

theorem lenStr_append_inj {x y r r' : Bytes} (hx : x.length < 2 ^ 64) (hy : y.length < 2 ^ 64)
    (h : lenStr x ++ r = lenStr y ++ r') : x = y ∧ r = r' := by
  have hbound : (2 : Nat) ^ 64 = 256 ^ 8 := by decide
  rw [hbound] at hx hy
  rw [lenStr, lenStr, List.append_assoc, List.append_assoc] at h
  exact sized_append_inj hx hy h

/-- The hashed bytes of an entry end where its lengths say. -/
theorem piece_append_inj {e e' : Str × Inode Str} {r r' : Bytes} (he : Measured e)
    (he' : Measured e') (h : piece e ++ r = piece e' ++ r') : e = e' ∧ r = r' := by
  obtain ⟨rel, o⟩ := e
  obtain ⟨rel', o'⟩ := e'
  unfold piece at h
  rw [List.cons_append, List.cons_append, List.append_assoc, List.append_assoc] at h
  obtain ⟨hkind, hrest⟩ := List.cons.inj h
  obtain ⟨hutf8, hbody⟩ := lenStr_append_inj he.1 he'.1 hrest
  have hrel : rel = rel' := utf8_inj hutf8
  cases o with
  | directory =>
      cases o' with
      | directory => exact ⟨by rw [hrel], hbody⟩
      | file _ => cases hkind
      | symlink _ => cases hkind
  | file content =>
      cases o' with
      | directory => cases hkind
      | file content' =>
          obtain ⟨hcontent, hr⟩ := lenStr_append_inj he.2 he'.2 hbody
          exact ⟨by rw [hrel, hcontent], hr⟩
      | symlink _ => cases hkind
  | symlink target =>
      cases o' with
      | directory => cases hkind
      | file _ => cases hkind
      | symlink target' =>
          obtain ⟨htarget, hr⟩ := lenStr_append_inj he.2 he'.2 hbody
          exact ⟨by rw [hrel, utf8_inj htarget], hr⟩

theorem measured_sight {root : DirTree} {e : Str × Inode Str} (h : e ∈ sight root) :
    Measured e := by
  obtain ⟨⟨path, o⟩, hmem, rfl⟩ := List.mem_map.mp h
  obtain ⟨hpath, ho⟩ := root.sized _ hmem
  have hlongest : 3 * longest < 2 ^ 64 ∧ addressable < 2 ^ 64 := by decide
  have hrel := length_pathText path
  constructor
  · show (utf8 (pathText path)).length < 2 ^ 64
    dsimp only at hpath
    omega
  · cases o with
    | directory => trivial
    | file content =>
        show content.length < 2 ^ 64
        dsimp only at ho
        omega
    | symlink target =>
        show (utf8 (toStringLossy target)).length < 2 ^ 64
        have htarget := length_toStringLossy target
        dsimp only at ho
        omega

/-! ## What the fingerprint determines -/

theorem mem_sight {root : DirTree} {e : Str × Inode Str} : e ∈ sight root ↔
    ∃ path, path ≠ [] ∧ relativeString path = e.1 ∧
      (root.lookup path).map (Inode.map toStringLossy) = some e.2 := by
  unfold sight
  rw [List.mem_map]
  constructor
  · rintro ⟨⟨path, o⟩, hmem, rfl⟩
    obtain ⟨hne, hlookup⟩ := mem_objects.mp hmem
    exact ⟨path, hne, rfl, by rw [hlookup]; rfl⟩
  · rintro ⟨path, hne, hrel, hmap⟩
    obtain ⟨o, hlookup, ho⟩ := Option.map_eq_some_iff.mp hmap
    exact ⟨(path, o), mem_objects.mpr ⟨hne, hlookup⟩, Prod.ext hrel ho⟩

section Pair

variable {a b : DirTree} (ha : a.PlainNames) (hb : b.PlainNames)

/-- Trees that look alike show the same entries. -/
theorem LooksAlike.mem_sight_iff (h : LooksAlike a b) (e : Str × Inode Str) :
    e ∈ sight a ↔ e ∈ sight b := by
  rw [mem_sight, mem_sight]
  simp only [h _]

include ha

/-- The texts of paths tell the objects of a tree apart. -/
theorem objects_inj {e e' : Path × Inode Bytes} (he : e ∈ a.objects) (he' : e' ∈ a.objects)
    (h : relativeString e.1 = relativeString e'.1) : e = e' := by
  obtain ⟨path, o⟩ := e
  obtain ⟨path', o'⟩ := e'
  have hpath : path = path' := by
    apply Option.some.inj
    rw [← textPath_relativeString ha he, ← textPath_relativeString ha he']
    exact congrArg textPath h
  have ho : o = o' := by
    apply Option.some.inj
    rw [← (mem_objects.mp he).2, ← (mem_objects.mp he').2, hpath]
  rw [hpath, ho]

theorem sight_inj {e e' : Str × Inode Str} (he : e ∈ sight a) (he' : e' ∈ sight a)
    (h : e.1 = e'.1) : e = e' := by
  obtain ⟨_, hmem, rfl⟩ := List.mem_map.mp he
  obtain ⟨_, hmem', rfl⟩ := List.mem_map.mp he'
  rw [objects_inj ha hmem hmem' h]

theorem nodup_sight : (sight a).Nodup := by
  apply (nodup_objects a).map_on
  intro e he e' he' h
  exact objects_inj ha he he' (Prod.mk.inj h).1

include hb

theorem sorted_sight_eq (h : LooksAlike a b) :
    sortBy Prod.fst (sight a) = sortBy Prod.fst (sight b) := by
  apply sortBy_eq_of_perm
  · intro e he e' he' hkey
    exact sight_inj ha he he' hkey
  · exact (List.perm_ext_iff_of_nodup (nodup_sight ha) (nodup_sight hb)).mpr
      h.mem_sight_iff

/-- What is shown at a path is found again in a tree that shows the same entries. -/
theorem lookup_of_mem_sight (h : ∀ e ∈ sight a, e ∈ sight b) {path : Path} {o : Inode Str}
    (hlookup : (a.lookup path).map (Inode.map toStringLossy) = some o) :
    (b.lookup path).map (Inode.map toStringLossy) = some o := by
  by_cases hne : path = []
  · rw [hne] at hlookup ⊢
    exact hlookup
  obtain ⟨path', hne', hrel, hlookup'⟩ :=
    mem_sight.mp (h (relativeString path, o) (mem_sight.mpr ⟨path, hne, rfl, hlookup⟩))
  obtain ⟨oa, hoa, _⟩ := Option.map_eq_some_iff.mp hlookup
  obtain ⟨ob, hob, _⟩ := Option.map_eq_some_iff.mp hlookup'
  have hpath : path' = path := by
    apply Option.some.inj
    rw [← textPath_relativeString ha (mem_objects.mpr ⟨hne, hoa⟩),
      ← textPath_relativeString hb (mem_objects.mpr ⟨hne', hob⟩)]
    exact congrArg textPath hrel
  rwa [← hpath]

theorem looksAlike_of_sorted_eq
    (h : sortBy Prod.fst (sight a) = sortBy Prod.fst (sight b)) : LooksAlike a b := by
  have hmem : ∀ e, e ∈ sight a ↔ e ∈ sight b := by
    intro e
    rw [← (sortBy_perm Prod.fst (sight a)).mem_iff, h, (sortBy_perm Prod.fst (sight b)).mem_iff]
  intro path
  apply Option.ext
  intro o
  exact ⟨lookup_of_mem_sight ha hb (fun e => (hmem e).mp),
    lookup_of_mem_sight hb ha (fun e => (hmem e).mpr)⟩

/-- Streams agree exactly when the trees look alike. -/
theorem stream_eq_iff : stream a = stream b ↔ LooksAlike a b := by
  rw [stream_eq ha, stream_eq hb, Option.some.injEq]
  constructor
  · intro h
    have hmeasured : ∀ root : DirTree, ∀ e ∈ sortBy Prod.fst (sight root), Measured e := by
      intro root e hmem
      exact measured_sight ((sortBy_perm Prod.fst (sight root)).mem_iff.mp hmem)
    have hview := @flatMap_inj _ _ piece id Measured piece_ne_nil piece_append_inj _ _
      (hmeasured a) (hmeasured b) h
    rw [List.map_id, List.map_id] at hview
    exact looksAlike_of_sorted_eq ha hb hview
  · intro h
    rw [sorted_sight_eq ha hb h]

end Pair

theorem looksAlike_of_same {a b : DirTree} (h : Same a b) : LooksAlike a b := by
  intro path
  rw [same_iff.mp h path]

/-- Trees that look alike are the same, unless links have targets of the same text. -/
theorem confused_iff {a b : DirTree} : Confused a b ↔ LooksAlike a b ∧ ¬ Same a b := by
  constructor
  · rintro ⟨halike, path, s, t, hs, ht, _, hne⟩
    refine ⟨halike, ?_⟩
    intro hsame
    rw [same_iff.mp hsame path, ht] at hs
    cases hs
    exact hne rfl
  · rintro ⟨halike, hsame⟩
    refine ⟨halike, ?_⟩
    rw [same_iff, not_forall] at hsame
    obtain ⟨path, hne⟩ := hsame
    have hpath := halike path
    cases hoa : a.lookup path with
    | none =>
        rw [hoa] at hpath hne
        exact absurd (Option.map_eq_none_iff.mp hpath.symm).symm hne
    | some oa =>
        cases hob : b.lookup path with
        | none =>
            rw [hoa, hob] at hpath
            cases hpath
        | some ob =>
            rw [hoa, hob] at hpath hne
            rcases Inode.map_eq_map (Option.some.inj hpath) with heq | ⟨s, t, rfl, rfl, htext⟩
            · exact absurd (congrArg some heq) hne
            · refine ⟨path, s, t, hoa, hob, htext, ?_⟩
              rintro rfl
              exact hne rfl

section

variable (blake3 : Bytes → Str)

theorem treeFingerprint_isSome {root : DirTree} (h : root.PlainNames) :
    (treeFingerprint blake3 root).isSome = true := by
  rw [treeFingerprint, stream_eq h]
  rfl

variable (hblake3 : Function.Injective blake3)

include hblake3

theorem treeFingerprint_eq_iff {a b : DirTree} (ha : a.PlainNames) (hb : b.PlainNames) :
    treeFingerprint blake3 a = treeFingerprint blake3 b ↔ LooksAlike a b := by
  rw [← stream_eq_iff ha hb]
  have hinj : Function.Injective fun bytes => identityTree ++ blake3 bytes := by
    intro x y h
    exact hblake3 (List.append_cancel_left h)
  exact (Option.map_injective hinj).eq_iff

/-- A copy counts as unchanged exactly when it looks like its source. -/
theorem safeToRemove_iff {live source : DirTree} (hlive : live.PlainNames)
    (hsource : source.PlainNames) :
    safeToRemove blake3 live source = true ↔ LooksAlike live source := by
  rw [← treeFingerprint_eq_iff blake3 hblake3 hlive hsource]
  obtain ⟨x, hx⟩ := Option.isSome_iff_exists.mp (treeFingerprint_isSome blake3 hlive)
  obtain ⟨y, hy⟩ := Option.isSome_iff_exists.mp (treeFingerprint_isSome blake3 hsource)
  rw [safeToRemove, hx, hy]
  simp

/-- The fingerprint exists, and it depends on the set of objects only, not on the order of
enumeration.  It determines this set, unless links have targets of the same text. -/
theorem treeFingerprint_determines_iff (a b : DirTree) (ha : a.PlainNames) (hb : b.PlainNames) :
    ((treeFingerprint blake3 a = treeFingerprint blake3 b ↔ Same a b) ↔ ¬ Confused a b) ∧
      (Same a b → treeFingerprint blake3 a = treeFingerprint blake3 b) ∧
      (treeFingerprint blake3 a).isSome = true := by
  rw [confused_iff, treeFingerprint_eq_iff blake3 hblake3 ha hb]
  refine ⟨⟨?_, ?_⟩, looksAlike_of_same, treeFingerprint_isSome blake3 ha⟩
  · rintro hiff ⟨halike, hne⟩
    exact hne (hiff.mp halike)
  · intro hno
    refine ⟨?_, looksAlike_of_same⟩
    intro halike
    by_contra hne
    exact hno ⟨halike, hne⟩

end

/-! ## Two trees with one fingerprint -/

def emptyTree : DirTree where
  entries := .nil
  valid := trivial
  sized := nofun

/-- A directory that holds one link. -/
def linkTree (target : Bytes) (h : target.length ≤ longest) : DirTree where
  entries := .cons (tag "l") (.symlink target) .nil
  valid := ⟨by decide, rfl, trivial, trivial⟩
  sized := by
    intro e he
    obtain rfl := List.mem_singleton.mp he
    have hpath : (pathBytes [tag "l"]).length ≤ longest := by decide
    exact ⟨hpath, h⟩

theorem plainNames_linkTree (target : Bytes) (h : target.length ≤ longest) :
    (linkTree target h).PlainNames := by
  intro e he name hname
  obtain rfl := List.mem_singleton.mp he
  obtain rfl := List.mem_singleton.mp hname
  exact ⟨['l'], by decide, by decide⟩

theorem lookup_linkTree (target : Bytes) (h : target.length ≤ longest) (path : Path) :
    (linkTree target h).lookup path =
      if path = [] then some .directory
      else if path = [tag "l"] then some (.symlink target) else none := by
  cases path with
  | nil => rfl
  | cons name path =>
      show ((if tag "l" = name then some (Node.symlink target) else none).bind _) = _
      by_cases hname : tag "l" = name
      · subst hname
        cases path <;> simp [Node.lookup, Node.object]
      · simp [hname, Ne.symm hname]

def linkFF : DirTree := linkTree [0xFF] (by decide)

def linkFE : DirTree := linkTree [0xFE] (by decide)

theorem toStringLossy_ff : toStringLossy [0xFF] = toStringLossy [0xFE] := by
  decide

/-- Targets of one byte that is not UTF-8 are not told apart. -/
theorem treeFingerprint_confuses : linkFF.PlainNames ∧ linkFE.PlainNames ∧
    ∀ blake3, ¬ (treeFingerprint blake3 linkFF = treeFingerprint blake3 linkFE ↔
      Same linkFF linkFE) := by
  have hff : linkFF.PlainNames := plainNames_linkTree _ _
  have hfe : linkFE.PlainNames := plainNames_linkTree _ _
  refine ⟨hff, hfe, ?_⟩
  intro blake3 hiff
  have halike : LooksAlike linkFF linkFE := by
    intro path
    rw [linkFF, linkFE, lookup_linkTree, lookup_linkTree]
    split
    · rfl
    · split
      · simp [Inode.map, toStringLossy_ff]
      · rfl
  have hfingerprint : treeFingerprint blake3 linkFF = treeFingerprint blake3 linkFE := by
    rw [treeFingerprint, treeFingerprint, (stream_eq_iff hff hfe).mpr halike]
  have hsame := same_iff.mp (hiff.mp hfingerprint) [tag "l"]
  rw [linkFF, linkFE, lookup_linkTree, lookup_linkTree] at hsame
  revert hsame
  decide

def linkX : DirTree := linkTree (tag "x") (by decide)

/-- The digests of BLAKE3 for the streams of `emptyTree` and `linkX`; other streams are not
hashed. -/
def sampleHash (bytes : Bytes) : Str :=
  (Equiv.swap [] (tag "af1349b9f5f9a1a6a0404dea36dcc9499bcb25c9adc112b7cc9a93cae41f3262")
    (Equiv.swap [115, 1, 0, 0, 0, 0, 0, 0, 0, 108, 1, 0, 0, 0, 0, 0, 0, 0, 120]
      (tag "f8a66db40e5f1bc1b8abc7cc4177fe98e8940d2c3f6e1ebd4cdd998e82d0c185") bytes)).map
    fun b => Char.ofNat b.toNat

theorem sampleHash_injective : Function.Injective sampleHash := by
  have hnat : ∀ b : UInt8, (Char.ofNat b.toNat).toNat = b.toNat := by
    intro b
    have hb := b.toNat_lt
    have hvalid : b.toNat.isValidChar := Or.inl (by omega)
    rw [Char.toNat_ofNat, if_pos hvalid]
  have hchar : Function.Injective fun b : UInt8 => Char.ofNat b.toNat := by
    intro b b' h
    apply UInt8.toNat_inj.mp
    rw [← hnat b, ← hnat b']
    exact congrArg Char.toNat h
  have hmap : Function.Injective (List.map fun b : UInt8 => Char.ofNat b.toNat) :=
    List.map_injective_iff.mpr hchar
  exact hmap.comp ((Equiv.injective _).comp (Equiv.injective _))

theorem treeFingerprint_determines_iff_sample :
    ((treeFingerprint sampleHash emptyTree = treeFingerprint sampleHash linkX ↔
      Same emptyTree linkX) ↔ ¬ Confused emptyTree linkX) ∧
    (Same emptyTree linkX →
      treeFingerprint sampleHash emptyTree = treeFingerprint sampleHash linkX) ∧
    (treeFingerprint sampleHash emptyTree).isSome = true :=
  treeFingerprint_determines_iff sampleHash sampleHash_injective emptyTree linkX
    (fun _ h => nomatch h) (plainNames_linkTree _ _)

example : sampleHash [] =
    lit "af1349b9f5f9a1a6a0404dea36dcc9499bcb25c9adc112b7cc9a93cae41f3262" := by
  decide

end Fingerprint
end Bpm
