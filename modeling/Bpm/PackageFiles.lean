import Bpm.Lib.DebugText
import Bpm.Lib.DirTree
import Bpm.Lib.Json
import Bpm.Lib.Sorting

/-!
# The files of a published package

Which files are published is decided by four filters: names that are never published, names
at the root that always are, the patterns of the manifest, and an ignore file.  Patterns and
ignore files are read as those of git: a pattern without a slash in front or inside matches
at every depth.
-/

namespace Bpm
namespace PackageFiles

open Bytes DirTree Sorting Text

/-! ## Matching -/

inductive Match
  | none | ignore | whitelist
deriving DecidableEq

/-- What is used of the `ignore` crate, for matchers of a type `M`. -/
structure IgnoreCrate (M : Type) where
  /-- `GitignoreBuilder::add_line`, with the text of its error. -/
  addLine : Str → Except Str Unit
  /-- `GitignoreBuilder::add`, for a file of this content. -/
  add : Bytes → Except Str Unit
  buildLines : List Str → Except Str M
  buildFile : Bytes → Except Str M
  /-- `matched_path_or_any_parents`, for a path that is not a directory. -/
  matched : M → Str → Match
  /-- Whether the pattern of a line matches a path, which is a directory or not. -/
  lineMatches : Str → Bool → Str → Bool

/-- The line of a pattern that is neither a comment nor negated. -/
def Positive (line : Str) : Prop := line.head? ≠ some '!' ∧ line.head? ≠ some '#'

/-- A slash in front or inside, not at the end. -/
def HasSlash (line : Str) : Prop := '/' ∈ line.dropLast

instance (line : Str) : Decidable (Positive line) := inferInstanceAs (Decidable (_ ∧ _))

instance (line : Str) : Decidable (HasSlash line) := inferInstanceAs (Decidable (_ ∈ _))

/-- The pattern taken at the root. -/
def atRoot (line : Str) : Str := if line.head? = some '/' then line else '/' :: line

/-- A path and the directories above it; only the latter are directories. -/
def selfAndParents (path : Str) : List (Str × Bool) :=
  (path, false) ::
    ((path.splitOn '/').inits.dropLast.filter (· ≠ [])).map fun parts => (join ['/'] parts, true)

/-- The documented reading of patterns. -/
structure Documented {M : Type} (crate : IgnoreCrate M) : Prop where
  /-- A path is ignored for a line that matches it or a directory above it. -/
  some_line : ∀ {lines m path}, crate.buildLines lines = .ok m →
    crate.matched m path = .ignore → ∃ line ∈ lines, Positive line ∧
      ∃ q ∈ selfAndParents path, crate.lineMatches line q.2 q.1 = true
  /-- A pattern with a slash in front or inside is relative to the root. -/
  anchored : ∀ {line q dir}, Positive line → HasSlash line →
    crate.lineMatches line dir q = true → crate.lineMatches (atRoot line) dir q = true
  /-- Any other pattern matches names, at every depth. -/
  by_name : ∀ {line q dir}, Positive line → ¬ HasSlash line →
    crate.lineMatches line dir q = true →
      crate.lineMatches (atRoot line) dir (lastSegment q) = true

/-! ## The filters -/

def isDefaultExclude (path : Str) : Bool :=
  let lower := asciiLower path
  lower == lit "bpm.lock" || lower == lit "package-lock.json" || lower == lit "yarn.lock" ||
    lower == lit "pnpm-lock.yaml" || lower == lit "bun.lockb" || lower == lit ".npmrc" ||
    (lit "/.npmrc").isSuffixOf lower || (lit ".tmp").isSuffixOf lower ||
    (lit ".git/").isPrefixOf lower || (lit "node_modules/").isPrefixOf lower ||
    (lit "target/").isPrefixOf lower

def isAlwaysInclude (path : Str) : Bool :=
  let lower := asciiLower path
  lower == lit "package.json" || (lit "readme").isPrefixOf lower ||
    (lit "license").isPrefixOf lower

/-- What is not even looked at, at any depth. -/
def isSkipped (name : Bytes) : Bool :=
  [lit "node_modules", lit ".git", lit ".bpm", lit "target"].contains (toStringLossy name)

def normalizeManifestPath (value : Str) : Str :=
  let relative := dropRepeats ['.', '/'] (trim value).length (trim value)
  replaceBackslashes ((relative.dropWhile (· == '/')).rdropWhile (· == '/'))

/-- The texts of the list `files` of a manifest. -/
def filesEntries (manifest : Json) : List Str :=
  match manifest with
  | .obj fields =>
      match fields.find? fun field => field.1 = lit "files" with
      | some (_, .arr items) => items.filterMap Json.asStr?
      | _ => []
  | _ => []

def declaredPatterns (manifest : Json) : List Str :=
  (filesEntries manifest).map normalizeManifestPath

/-- The patterns that are given to the matcher. -/
def patterns (manifest : Json) : List Str := (declaredPatterns manifest).filter (· ≠ [])

section

variable {M : Type} (crate : IgnoreCrate M) (printable : Char → Bool) (root : Str)

def addPattern (pattern : Str) : Except Str Unit :=
  match crate.addLine pattern with
  | .ok () => .ok ()
  | .error error => .error (lit "invalid package files pattern " ++
      DebugText.text printable pattern ++ lit ": " ++ error)

def buildManifestFilesMatcher (manifest : Json) : Except Str (Option M) :=
  if patterns manifest = [] then .ok none
  else do
    (patterns manifest).forM (addPattern crate printable)
    let m ← crate.buildLines (patterns manifest)
    return some m

def addIgnoreFile (name : String) (content : Bytes) : Except Str M :=
  match crate.add content with
  | .ok () => crate.buildFile content
  | .error error => .error (lit "failed to parse ignore file " ++ root ++ ['/'] ++ lit name ++
      lit ": " ++ error)

/-- The ignore file in effect; where a link stands in its place, `collect_files` fails. -/
def loadIgnoreMatcher (tree : DirTree) : Except Str (Option M) :=
  match tree.lookup [tag ".npmignore"] with
  | some (.file content) => (addIgnoreFile crate root ".npmignore" content).map some
  | _ =>
      match tree.lookup [tag ".gitignore"] with
      | some (.file content) => (addIgnoreFile crate root ".gitignore" content).map some
      | _ => .ok none

def validatePublishSymlink (rel : Str) : Str :=
  lit "publish does not support symlink entries (symlinks are always rejected, " ++
    lit "including those that may resolve outside project root): " ++ rel

/-- The files found below each name, in the order of the names. -/
def inNameOrder (parts : List (Bytes × Except Str (List Str))) : Except Str (List Str) := do
  let found ← (sortBy (fun part => nameOrder part.1) parts).mapM Prod.snd
  return found.flatten

mutual

/-- `collect_files`, at one entry of a directory. -/
def collectNode (path : Path) : Node → Except Str (List Str)
  | .file _ => .ok [pathText path]
  | .symlink _ => .error (validatePublishSymlink (pathText path))
  | .directory entries => inNameOrder (collectParts path entries)

def collectParts (path : Path) : Entries → List (Bytes × Except Str (List Str))
  | .nil => []
  | .cons name node rest =>
      if isSkipped name then collectParts path rest
      else (name, collectNode (path ++ [name]) node) :: collectParts path rest

end

def collectFiles (tree : DirTree) : Except Str (List Str) :=
  inNameOrder (collectParts [] tree.entries)

def shouldPublish (declared ignored : Option M) (path : Str) : Bool :=
  if isDefaultExclude path then false
  else if isAlwaysInclude path then true
  else if declared.any fun m => crate.matched m path != .ignore then false
  else !ignored.any fun m => crate.matched m path == .ignore

/-- Regular files at the root that are published in any case. -/
def alwaysInclude (tree : DirTree) : List Str :=
  tree.objects.filterMap fun
    | ([name], .file _) =>
        if isAlwaysInclude (toStringLossy name) then some (toStringLossy name) else none
    | _ => none

def packageFileList (tree : DirTree) (manifest : Json) : Except Str (List Str) := do
  let declared ← buildManifestFilesMatcher crate printable manifest
  let ignored ← loadIgnoreMatcher crate root tree
  let files ← collectFiles tree
  return ((files.filter (shouldPublish crate declared ignored) ++ alwaysInclude tree).foldl
    (fun set path => set.insert path ()) (∅ : Map Unit)).keys

end

/-! ## What may be published -/

/-- Listed at the root: the manifest, a readme or a licence. -/
def RootIncluded (path : Str) : Prop := '/' ∉ path ∧ isAlwaysInclude path = true

section

variable {M : Type} (crate : IgnoreCrate M) (printable : Char → Bool) (root : Str)
  (tree : DirTree) (manifest : Json)

/-- The ignore file in effect ignores the path. -/
def Ignored (path : Str) : Prop :=
  ∃ m, loadIgnoreMatcher crate root tree = .ok (some m) ∧ crate.matched m path = .ignore

/-- The path lies at or below a match of a declared pattern taken at the root. -/
def Declared (path : Str) : Prop :=
  ∃ pattern ∈ declaredPatterns manifest, pattern = [] ∨ Positive pattern ∧
    ∃ q ∈ selfAndParents path, crate.lineMatches (atRoot pattern) q.2 q.1 = true

/-- A regular file, in no directory that is left out, whose path is recorded so. -/
def IsFile (path : Str) : Prop :=
  ∃ names content, tree.lookup names = some (.file content) ∧
    (path = pathText names ∨ ∃ name, names = [name] ∧ path = toStringLossy name) ∧
    ∀ name ∈ names, isSkipped name = false

/-- What a published path has to meet. -/
structure Allowed (path : Str) : Prop where
  file : IsFile tree path
  not_excluded : isDefaultExclude path = false
  chosen : RootIncluded path ∨ ¬ Ignored crate root tree path ∧
    (declaredPatterns manifest ≠ [] → Declared crate manifest path)

/-- A file in reach of `collect_files`. -/
def Collected (path : Str) : Prop := ∃ files, collectFiles tree = .ok files ∧ path ∈ files

/-- The files that are published although they may not be. -/
inductive Misplaced (path : Str) : Prop
  /-- A readme or a licence at the root that is a temporary file. -/
  | temporary (hroot : path ∈ alwaysInclude tree)
      (htmp : (lit ".tmp").isSuffixOf (asciiLower path) = true)
  /-- A file below a directory with a name like `readme` or `license`. -/
  | nested (hfile : Collected tree path) (hkept : isDefaultExclude path = false)
      (hname : isAlwaysInclude path = true) (hnested : '/' ∈ path)
      (hout : Ignored crate root tree path ∨
        declaredPatterns manifest ≠ [] ∧ ¬ Declared crate manifest path)
  /-- A file that only a pattern without a slash matches, below some directory. -/
  | unanchored (hfile : Collected tree path) (hkept : isDefaultExclude path = false)
      (hname : isAlwaysInclude path = false) (hignored : ¬ Ignored crate root tree path)
      (hout : ¬ Declared crate manifest path)
      (haccepted : ∃ m, buildManifestFilesMatcher crate printable manifest = .ok (some m) ∧
        crate.matched m path = .ignore)
      (hpattern : ∃ pattern ∈ patterns manifest, Positive pattern ∧ ¬ HasSlash pattern ∧
        ∃ q ∈ selfAndParents path, '/' ∈ q.1 ∧
          crate.lineMatches (atRoot pattern) q.2 (lastSegment q.1) = true)

end

/-! ## Files that are collected -/

theorem exists_of_mapM_ok {α β : Type} {f : α → Except Str β} {l : List α} {r : List β}
    (h : l.mapM f = .ok r) {b : β} (hb : b ∈ r) : ∃ a ∈ l, f a = .ok b := by
  induction l generalizing r with
  | nil =>
      cases h
      cases hb
  | cons a l ih =>
      rw [List.mapM_cons] at h
      cases hf : f a with
      | error e =>
          rw [hf] at h
          cases h
      | ok b' =>
          rw [hf] at h
          change (l.mapM f >>= fun bs => pure (b' :: bs)) = .ok r at h
          cases hl : l.mapM f with
          | error e =>
              rw [hl] at h
              cases h
          | ok bs =>
              rw [hl] at h
              cases h
              rcases List.mem_cons.mp hb with rfl | hin
              · exact ⟨a, List.mem_cons_self, hf⟩
              · obtain ⟨a', ha', hf'⟩ := ih hl hin
                exact ⟨a', List.mem_cons_of_mem _ ha', hf'⟩

/-- What is found in a directory is found at one of its names. -/
theorem mem_inNameOrder {parts : List (Bytes × Except Str (List Str))} {files : List Str}
    (h : inNameOrder parts = .ok files) {path : Str} (hpath : path ∈ files) :
    ∃ part ∈ parts, ∃ found, part.2 = .ok found ∧ path ∈ found := by
  unfold inNameOrder at h
  cases hfound : (sortBy (fun part => nameOrder part.1) parts).mapM Prod.snd with
  | error e =>
      rw [hfound] at h
      cases h
  | ok found =>
      rw [hfound] at h
      cases h
      obtain ⟨l, hl, hin⟩ := List.mem_flatten.mp hpath
      obtain ⟨part, hpart, hok⟩ := exists_of_mapM_ok hfound hl
      exact ⟨part, (sortBy_perm _ parts).mem_iff.mp hpart, l, hok, hin⟩

/-- A file in a walk, in no directory that is left out below the start. -/
def Found (walk : List (Path × Inode Bytes)) (path : Path) (text : Str) : Prop :=
  ∃ rel content, (path ++ rel, .file content) ∈ walk ∧ text = pathText (path ++ rel) ∧
    ∀ name ∈ rel, isSkipped name = false

mutual

theorem collectNode_found {path : Path} {node : Node} {files : List Str}
    (h : collectNode path node = .ok files) {text : Str} (htext : text ∈ files) :
    Found (node.walk path) path text := by
  match node with
  | .file content =>
      cases h
      obtain rfl := List.mem_singleton.mp htext
      refine ⟨[], content, ?_, ?_, nofun⟩
      · rw [List.append_nil]
        exact List.mem_singleton_self _
      · rw [List.append_nil]
  | .symlink _ => cases h
  | .directory entries =>
      rw [collectNode] at h
      obtain ⟨part, hpart, found, hfound, hin⟩ := mem_inNameOrder h htext
      obtain ⟨rel, content, hmem, heq, hkept⟩ := collectParts_found hpart hfound hin
      exact ⟨rel, content, List.mem_cons_of_mem _ hmem, heq, hkept⟩

theorem collectParts_found {path : Path} {entries : Entries}
    {part : Bytes × Except Str (List Str)} (hpart : part ∈ collectParts path entries)
    {found : List Str} (hfound : part.2 = .ok found) {text : Str} (htext : text ∈ found) :
    Found (entries.walk path) path text := by
  match entries with
  | .nil => cases hpart
  | .cons name node rest =>
      have hlater : part ∈ collectParts path rest →
          Found (Entries.walk path (.cons name node rest)) path text := by
        intro hin
        obtain ⟨rel, content, hmem, heq, hkept⟩ := collectParts_found hin hfound htext
        exact ⟨rel, content, List.mem_append_right _ hmem, heq, hkept⟩
      rw [collectParts] at hpart
      split at hpart
      · exact hlater hpart
      · rename_i hskipped
        rcases List.mem_cons.mp hpart with rfl | hin
        · obtain ⟨rel, content, hmem, heq, hkept⟩ := collectNode_found hfound htext
          rw [List.append_assoc] at hmem heq
          refine ⟨[name] ++ rel, content, List.mem_append_left _ hmem, heq, ?_⟩
          rw [List.singleton_append, List.forall_mem_cons]
          exact ⟨by simpa using hskipped, hkept⟩
        · exact hlater hin

end

theorem isFile_of_collected {tree : DirTree} {path : Str} (h : Collected tree path) :
    IsFile tree path := by
  obtain ⟨files, hfiles, hpath⟩ := h
  obtain ⟨part, hpart, found, hfound, hin⟩ := mem_inNameOrder hfiles hpath
  obtain ⟨rel, content, hmem, heq, hkept⟩ := collectParts_found hpart hfound hin
  exact ⟨rel, content, (mem_objects.mp hmem).2, Or.inl heq, hkept⟩

/-! ## Files at the root -/

theorem slash_mem_replaceInvalid {fuel : Nat} {bytes : Bytes}
    (h : '/' ∈ replaceInvalid fuel bytes) : (47 : UInt8) ∈ bytes := by
  induction fuel generalizing bytes with
  | zero => cases h
  | succ fuel ih =>
      rw [replaceInvalid] at h
      split at h
      · cases h
      · rcases List.mem_append.mp h with hin | hin
        · cases htext : text (bytes.take (chunkLength bytes)) with
          | none =>
              rw [htext] at hin
              simp at hin
          | some s =>
              rw [htext] at hin
              have hmem : (47 : UInt8) ∈ bytes.take (chunkLength bytes) := by
                rw [text_eq_some.mp htext]
                exact List.mem_flatMap.mpr ⟨'/', hin, by decide⟩
              exact List.mem_of_mem_take hmem
        · exact List.mem_of_mem_drop (ih hin)

theorem slash_notMem_toStringLossy {name : Bytes} (h : ValidName name) :
    '/' ∉ toStringLossy name := by
  intro hmem
  apply h.2.2.2.2
  unfold toStringLossy at hmem
  cases htext : text name with
  | none =>
      rw [htext] at hmem
      exact slash_mem_replaceInvalid hmem
  | some s =>
      rw [htext] at hmem
      rw [text_eq_some.mp htext]
      exact List.mem_flatMap.mpr ⟨'/', hmem, by decide⟩

theorem mem_alwaysInclude {tree : DirTree} {path : Str} : path ∈ alwaysInclude tree ↔
    ∃ name content, tree.lookup [name] = some (.file content) ∧ path = toStringLossy name ∧
      isAlwaysInclude path = true := by
  unfold alwaysInclude
  rw [List.mem_filterMap]
  constructor
  · rintro ⟨⟨names, o⟩, hmem, hsome⟩
    split at hsome
    · rename_i name content heq
      cases heq
      split at hsome
      · rename_i halways
        cases hsome
        exact ⟨name, content, (mem_objects.mp hmem).2, rfl, halways⟩
      · cases hsome
    · cases hsome
  · rintro ⟨name, content, hlookup, rfl, halways⟩
    refine ⟨([name], .file content), mem_objects.mpr ⟨List.cons_ne_nil _ _, hlookup⟩, ?_⟩
    exact if_pos halways

theorem rootIncluded_of_alwaysInclude {tree : DirTree} {path : Str}
    (h : path ∈ alwaysInclude tree) : RootIncluded path := by
  obtain ⟨name, content, hlookup, rfl, halways⟩ := mem_alwaysInclude.mp h
  exact ⟨slash_notMem_toStringLossy (validNames hlookup name List.mem_cons_self), halways⟩

theorem toLower_eq_slash {c : Char} (h : c.toLower = '/') : c = '/' := by
  unfold Char.toLower at h
  split at h
  · rename_i hrange
    have hval : c.val + ('a'.val - 'A'.val) = '/'.val := congrArg Char.val h
    have hnat := UInt32.toNat_inj.mpr hval
    have hdiff : ('a'.val - 'A'.val).toNat = 32 := by decide
    have hslash : ('/'.val).toNat = 47 := by decide
    have hle : 65 ≤ c.val.toNat := UInt32.le_iff_toNat_le.mp hrange.1
    have hge : c.val.toNat ≤ 90 := UInt32.le_iff_toNat_le.mp hrange.2
    rw [UInt32.toNat_add, hdiff, hslash] at hnat
    omega
  · exact h

theorem slash_mem_asciiLower {s : Str} (h : '/' ∈ asciiLower s) : '/' ∈ s := by
  obtain ⟨c, hc, hlower⟩ := List.mem_map.mp h
  rwa [toLower_eq_slash hlower] at hc

/-- Of the names that are never published only `*.tmp` can begin otherwise. -/
theorem isDefaultExclude_of_head {path : Str} {c : Char} {rest : Str}
    (hlower : asciiLower path = c :: rest) (hc : c ∉ ['b', 'p', 'y', '.', 'n', 't'])
    (hslash : '/' ∉ path) :
    isDefaultExclude path = (lit ".tmp").isSuffixOf (asciiLower path) := by
  have hnpmrc : (lit "/.npmrc").isSuffixOf (asciiLower path) = false := by
    rw [Bool.eq_false_iff, ne_eq, List.isSuffixOf_iff_suffix]
    intro hsuffix
    exact hslash (slash_mem_asciiLower (hsuffix.subset List.mem_cons_self))
  simp only [List.mem_cons, List.not_mem_nil, or_false, not_or] at hc
  unfold isDefaultExclude
  dsimp only
  rw [hnpmrc, hlower]
  obtain ⟨hb, hp, hy, hdot, hn, ht⟩ := hc
  simp [lit, List.isPrefixOf, beq_false_of_ne hb, beq_false_of_ne hp, beq_false_of_ne hy,
    beq_false_of_ne hdot, beq_false_of_ne (Ne.symm hdot), beq_false_of_ne (Ne.symm hn),
    beq_false_of_ne (Ne.symm ht)]

theorem isDefaultExclude_of_root {path : Str} (h : RootIncluded path) :
    isDefaultExclude path = (lit ".tmp").isSuffixOf (asciiLower path) := by
  obtain ⟨hslash, halways⟩ := h
  unfold isAlwaysInclude at halways
  simp only [Bool.or_eq_true, beq_iff_eq, List.isPrefixOf_iff_prefix] at halways
  rcases halways with (hjson | ⟨rest, hrest⟩) | ⟨rest, hrest⟩
  · unfold isDefaultExclude
    rw [hjson]
    decide
  · exact isDefaultExclude_of_head (c := 'r') hrest.symm (by decide) hslash
  · exact isDefaultExclude_of_head (c := 'l') hrest.symm (by decide) hslash

theorem isSkipped_of_always {name : Bytes} (h : isAlwaysInclude (toStringLossy name) = true) :
    isSkipped name = false := by
  rw [Bool.eq_false_iff]
  intro hskipped
  unfold isSkipped at hskipped
  rw [List.contains_iff_mem] at hskipped
  have hno : ∀ text ∈ [lit "node_modules", lit ".git", lit ".bpm", lit "target"],
      isAlwaysInclude text = false := by decide
  rw [hno _ hskipped] at h
  cases h

theorem isFile_of_alwaysInclude {tree : DirTree} {path : Str} (h : path ∈ alwaysInclude tree) :
    IsFile tree path := by
  obtain ⟨name, content, hlookup, rfl, halways⟩ := mem_alwaysInclude.mp h
  refine ⟨[name], content, hlookup, Or.inr ⟨name, rfl, rfl⟩, ?_⟩
  rw [List.forall_mem_singleton]
  exact isSkipped_of_always halways

/-! ## The published files -/

section

variable {M : Type} {crate : IgnoreCrate M} {printable : Char → Bool} {root : Str}
  {tree : DirTree} {manifest : Json} {files : List Str}

theorem contains_collected {l : List Str} {set : Map Unit} {path : Str} :
    (l.foldl (fun set path => set.insert path ()) set).contains path = true ↔
      path ∈ l ∨ set.contains path = true := by
  induction l generalizing set with
  | nil => simp
  | cons x l ih =>
      rw [List.foldl_cons, ih, Map.contains_insert, Bool.or_eq_true, decide_eq_true_iff,
        List.mem_cons, eq_comm (a := x), or_left_comm, or_assoc]

/-- A file is listed for one of two reasons. -/
theorem mem_packageFileList (h : packageFileList crate printable root tree manifest = .ok files) :
    ∃ declared ignored collected,
      buildManifestFilesMatcher crate printable manifest = .ok declared ∧
      loadIgnoreMatcher crate root tree = .ok ignored ∧ collectFiles tree = .ok collected ∧
      ∀ path, path ∈ files ↔
        (path ∈ collected ∧ shouldPublish crate declared ignored path = true) ∨
          path ∈ alwaysInclude tree := by
  unfold packageFileList at h
  cases hdeclared : buildManifestFilesMatcher crate printable manifest with
  | error e =>
      rw [hdeclared] at h
      cases h
  | ok declared =>
      cases hignored : loadIgnoreMatcher crate root tree with
      | error e =>
          rw [hdeclared, hignored] at h
          cases h
      | ok ignored =>
          cases hcollected : collectFiles tree with
          | error e =>
              rw [hdeclared, hignored, hcollected] at h
              cases h
          | ok collected =>
              rw [hdeclared, hignored, hcollected] at h
              cases h
              refine ⟨declared, ignored, collected, rfl, rfl, rfl, ?_⟩
              intro path
              rw [Std.ExtTreeMap.mem_keys, ← Std.ExtTreeMap.contains_iff_mem, contains_collected,
                List.mem_append, List.mem_filter]
              simp

theorem shouldPublish_iff {declared ignored : Option M} {path : Str} :
    shouldPublish crate declared ignored path = true ↔ isDefaultExclude path = false ∧
      (isAlwaysInclude path = true ∨ (∀ m ∈ declared, crate.matched m path = .ignore) ∧
        ∀ m ∈ ignored, crate.matched m path ≠ .ignore) := by
  unfold shouldPublish
  cases isDefaultExclude path <;> cases isAlwaysInclude path <;> cases declared <;>
    cases ignored <;> simp

theorem lastSegment_of_notMem {path : Str} (h : '/' ∉ path) : lastSegment path = path := by
  unfold lastSegment
  rw [List.splitOn_eq_singleton h]
  rfl

theorem matcher_eq_ok {declared : Option M}
    (h : buildManifestFilesMatcher crate printable manifest = .ok declared) :
    (declared = none ∧ patterns manifest = []) ∨
      ∃ m, declared = some m ∧ crate.buildLines (patterns manifest) = .ok m := by
  unfold buildManifestFilesMatcher at h
  split at h
  · rename_i hnil
    cases h
    exact Or.inl ⟨rfl, hnil⟩
  · cases hforM : (patterns manifest).forM (addPattern crate printable) with
    | error e =>
        rw [hforM] at h
        cases h
    | ok _ =>
        rw [hforM] at h
        cases hlines : crate.buildLines (patterns manifest) with
        | error e =>
            rw [hlines] at h
            cases h
        | ok m =>
            rw [hlines] at h
            cases h
            exact Or.inr ⟨m, rfl, rfl⟩

variable (hcrate : Documented crate)

include hcrate

/-- What the matcher accepts is declared, or a pattern without a slash matches below a
directory. -/
theorem declared_or_pattern {m : M} {path : Str}
    (hbuild : buildManifestFilesMatcher crate printable manifest = .ok (some m))
    (hmatched : crate.matched m path = .ignore) : Declared crate manifest path ∨
      ∃ pattern ∈ patterns manifest, Positive pattern ∧ ¬ HasSlash pattern ∧
        ∃ q ∈ selfAndParents path, '/' ∈ q.1 ∧
          crate.lineMatches (atRoot pattern) q.2 (lastSegment q.1) = true := by
  obtain ⟨_, heq, hlines⟩ := (matcher_eq_ok hbuild).resolve_left nofun
  cases heq
  obtain ⟨pattern, hpattern, hpositive, q, hq, hmatches⟩ := hcrate.some_line hlines hmatched
  have hdeclared := (List.mem_filter.mp hpattern).1
  by_cases hslash : HasSlash pattern
  · exact Or.inl ⟨pattern, hdeclared, Or.inr ⟨hpositive, q, hq,
      hcrate.anchored hpositive hslash hmatches⟩⟩
  · have hname := hcrate.by_name hpositive hslash hmatches
    by_cases hnested : '/' ∈ q.1
    · exact Or.inr ⟨pattern, hpattern, hpositive, hslash, q, hq, hnested, hname⟩
    · rw [lastSegment_of_notMem hnested] at hname
      exact Or.inl ⟨pattern, hdeclared, Or.inr ⟨hpositive, q, hq, hname⟩⟩

/-- All published files may be published exactly when no file of the three kinds is there. -/
theorem packageFileList_allowed_iff
    (h : packageFileList crate printable root tree manifest = .ok files) :
    (∀ path ∈ files, Allowed crate root tree manifest path) ↔
      ∀ path, ¬ Misplaced crate printable root tree manifest path := by
  obtain ⟨declared, ignored, collected, hdeclared, hignored, hcollected, hmem⟩ :=
    mem_packageFileList h
  have hignored_iff : ∀ path, Ignored crate root tree path ↔
      ∃ m ∈ ignored, crate.matched m path = .ignore := by
    intro path
    unfold Ignored
    rw [hignored]
    simp
  constructor
  · intro hall path hbad
    cases hbad with
    | temporary hroot htmp =>
        have hallowed := hall path ((hmem path).mpr (Or.inr hroot))
        have hexclude := isDefaultExclude_of_root (rootIncluded_of_alwaysInclude hroot)
        rw [hallowed.not_excluded, htmp] at hexclude
        cases hexclude
    | nested hfile hkept hname hnested hout =>
        obtain ⟨collected', hcollected', hin⟩ := hfile
        rw [hcollected] at hcollected'
        cases hcollected'
        have hpublished : shouldPublish crate declared ignored path = true :=
          shouldPublish_iff.mpr ⟨hkept, Or.inl hname⟩
        rcases (hall path ((hmem path).mpr (Or.inl ⟨hin, hpublished⟩))).chosen with hroot | hchosen
        · exact hroot.1 hnested
        · rcases hout with hin' | ⟨hne, hno⟩
          · exact hchosen.1 hin'
          · exact hno (hchosen.2 hne)
    | unanchored hfile hkept hname hignore hout haccepted hpattern =>
        obtain ⟨collected', hcollected', hin⟩ := hfile
        rw [hcollected] at hcollected'
        cases hcollected'
        obtain ⟨m, hbuild, hmatched⟩ := haccepted
        rw [hdeclared] at hbuild
        cases hbuild
        have hpublished : shouldPublish crate (some m) ignored path = true := by
          refine shouldPublish_iff.mpr ⟨hkept, Or.inr ⟨?_, ?_⟩⟩
          · intro m' hm'
            rwa [← Option.some.inj hm']
          · intro m' hm' hmatched'
            exact hignore ((hignored_iff path).mpr ⟨m', hm', hmatched'⟩)
        rcases (hall path ((hmem path).mpr (Or.inl ⟨hin, hpublished⟩))).chosen with hroot | hchosen
        · rw [hroot.2] at hname
          cases hname
        · obtain ⟨pattern, hpattern, _⟩ := hpattern
          exact hout (hchosen.2 (List.ne_nil_of_mem (List.mem_filter.mp hpattern).1))
  · intro hnone path hpath
    rcases (hmem path).mp hpath with ⟨hin, hpublished⟩ | hroot
    · have hfile : Collected tree path := ⟨collected, hcollected, hin⟩
      obtain ⟨hkept, hreason⟩ := shouldPublish_iff.mp hpublished
      refine ⟨isFile_of_collected hfile, hkept, ?_⟩
      by_cases hname : isAlwaysInclude path = true
      · by_cases hnested : '/' ∈ path
        · right
          by_contra hout
          apply hnone path
          refine .nested hfile hkept hname hnested ?_
          rw [not_and_or, not_not, Classical.not_imp] at hout
          exact hout
        · exact Or.inl ⟨hnested, hname⟩
      · obtain ⟨haccepted, hnot⟩ := hreason.resolve_left hname
        have hignore : ¬ Ignored crate root tree path := by
          rw [hignored_iff]
          rintro ⟨m, hm, hmatched⟩
          exact hnot m hm hmatched
        refine Or.inr ⟨hignore, ?_⟩
        intro hne
        by_contra hout
        cases declared with
        | none =>
            -- without a matcher all patterns are empty and stand for the root itself
            have hpatterns := ((matcher_eq_ok hdeclared).resolve_right nofun).2
            obtain ⟨pattern, hpattern⟩ := List.exists_mem_of_ne_nil _ hne
            refine hout ⟨pattern, hpattern, Or.inl ?_⟩
            by_contra hne'
            have hin' : pattern ∈ patterns manifest :=
              List.mem_filter.mpr ⟨hpattern, decide_eq_true hne'⟩
            rw [hpatterns] at hin'
            cases hin'
        | some m =>
            have hmatched := haccepted m rfl
            have hpattern := (declared_or_pattern hcrate hdeclared hmatched).resolve_left hout
            exact hnone path (.unanchored hfile hkept (by simpa using hname) hignore hout
              ⟨m, hdeclared, hmatched⟩ hpattern)
    · have hincluded := rootIncluded_of_alwaysInclude hroot
      refine ⟨isFile_of_alwaysInclude hroot, ?_, Or.inl hincluded⟩
      rw [isDefaultExclude_of_root hincluded, Bool.eq_false_iff]
      intro htmp
      exact hnone path (.temporary hroot htmp)

end

/-! ## Projects that publish too much -/

namespace Literal

/-- A pattern without wildcards, as the path or the name that it stands for. -/
def body (line : Str) : Str :=
  (line.dropWhile (· == '/')).rdropWhile (· == '/')

def lineMatches (line : Str) (dir : Bool) (q : Str) : Bool :=
  !line.isEmpty && (line.getLast? != some '/' || dir) &&
    if HasSlash line then q == body line else lastSegment q == body line

theorem lineMatches_iff {line q : Str} {dir : Bool} : lineMatches line dir q = true ↔
    line ≠ [] ∧ (line.getLast? = some '/' → dir = true) ∧
      (if HasSlash line then q else lastSegment q) = body line := by
  unfold lineMatches
  cases dir <;> split <;> simp [and_assoc]

/-- Patterns without wildcards; ignore files are not read. -/
def crate : IgnoreCrate (List Str) where
  addLine _ := .ok ()
  add _ := .ok ()
  buildLines := .ok
  buildFile _ := .ok []
  matched lines path :=
    if lines.any fun line => decide (Positive line) &&
      (selfAndParents path).any fun q => lineMatches line q.2 q.1 then .ignore else .none
  lineMatches := lineMatches

theorem body_atRoot (line : Str) : body (atRoot line) = body line := by
  unfold atRoot
  split
  · rfl
  · unfold body
    rw [List.dropWhile_cons_of_pos rfl]

theorem getLast_atRoot {line : Str} (hne : line ≠ []) : (atRoot line).getLast? = line.getLast? := by
  unfold atRoot
  split
  · rfl
  · exact List.getLast?_cons_of_ne_nil hne

theorem hasSlash_atRoot {line : Str} (hne : line ≠ []) (h : line.head? ≠ some '/') :
    HasSlash (atRoot line) := by
  rw [HasSlash, atRoot, if_neg h, List.dropLast_cons_of_ne_nil hne]
  exact List.mem_cons_self

theorem slash_notMem_lastSegment (q : Str) : '/' ∉ lastSegment q := by
  unfold lastSegment
  rw [List.getLastD_eq_getLast?]
  have hne := List.splitOn_ne_nil '/' q
  rw [List.getLast?_eq_some_getLast hne]
  exact (mem_splitOn (List.getLast_mem hne)).1

theorem documented : Documented crate where
  some_line := by
    intro lines m path hbuild hmatched
    cases hbuild
    unfold crate at hmatched
    dsimp only at hmatched
    split at hmatched
    · rename_i hany
      obtain ⟨line, hline, hboth⟩ := List.any_eq_true.mp hany
      rw [Bool.and_eq_true, decide_eq_true_eq, List.any_eq_true] at hboth
      exact ⟨line, hline, hboth.1, hboth.2⟩
    · cases hmatched
  anchored := by
    intro line q dir _ hslash hmatches
    change lineMatches line dir q = true at hmatches
    show lineMatches (atRoot line) dir q = true
    rw [lineMatches_iff] at hmatches ⊢
    obtain ⟨hne, hlast, hbody⟩ := hmatches
    have hslash' : HasSlash (atRoot line) := by
      by_cases hhead : line.head? = some '/'
      · rw [atRoot, if_pos hhead]
        exact hslash
      · exact hasSlash_atRoot hne hhead
    rw [if_pos hslash] at hbody
    rw [getLast_atRoot hne, if_pos hslash', body_atRoot]
    exact ⟨by unfold atRoot; split <;> simp [hne], hlast, hbody⟩
  by_name := by
    intro line q dir _ hslash hmatches
    change lineMatches line dir q = true at hmatches
    show lineMatches (atRoot line) dir (lastSegment q) = true
    rw [lineMatches_iff] at hmatches ⊢
    obtain ⟨hne, hlast, hbody⟩ := hmatches
    rw [if_neg hslash] at hbody
    rw [getLast_atRoot hne, body_atRoot, lastSegment_of_notMem (slash_notMem_lastSegment q), ite_self]
    exact ⟨by unfold atRoot; split <;> simp [hne], hlast, hbody⟩

end Literal

def manifestWith (files : List String) : Json :=
  .obj [(lit "files", .arr (files.map fun file => .str (lit file)))]

/-- A manifest, and a directory of drafts. -/
def drafts : DirTree where
  entries := .cons (tag "package.json") (.file [])
    (.cons (tag "readme-drafts") (.directory (.cons (tag "notes.txt") (.file []) .nil)) .nil)
  valid := ⟨by decide, rfl, trivial, by decide, rfl, ⟨by decide, rfl, trivial, trivial⟩, trivial⟩
  sized := List.forall_mem_cons.mpr ⟨⟨by decide, by decide⟩,
    List.forall_mem_cons.mpr ⟨⟨by decide, trivial⟩,
      List.forall_mem_singleton.mpr ⟨by decide, by decide⟩⟩⟩

theorem collectFiles_drafts :
    collectFiles drafts = .ok [lit "package.json", lit "readme-drafts/notes.txt"] := by
  have hsorted : (collectParts [] drafts.entries).Pairwise fun part part' =>
      nameOrder part.1 ≤ nameOrder part'.1 := by
    decide +kernel
  unfold collectFiles inNameOrder
  rw [sortBy_of_sorted hsorted]
  decide +kernel

theorem list_drafts : packageFileList Literal.crate (fun _ => true) (lit "/p") drafts
    (manifestWith ["dist"]) = .ok [lit "package.json", lit "readme-drafts/notes.txt"] := by
  unfold packageFileList
  rw [collectFiles_drafts]
  decide +kernel

theorem not_declared_drafts :
    ¬ Declared Literal.crate (manifestWith ["dist"]) (lit "readme-drafts/notes.txt") := by
  have hpatterns : declaredPatterns (manifestWith ["dist"]) = [lit "dist"] := by decide +kernel
  rintro ⟨pattern, hpattern, hmatch⟩
  rw [hpatterns] at hpattern
  obtain rfl := List.mem_singleton.mp hpattern
  rcases hmatch with hnil | ⟨_, hq⟩
  · cases hnil
  · revert hq
    decide +kernel

/-- The drafts are published, although only `dist` is to be. -/
theorem packageFileList_publishes_drafts : ∃ files,
    packageFileList Literal.crate (fun _ => true) (lit "/p") drafts (manifestWith ["dist"]) =
      .ok files ∧
    ¬ ∀ path ∈ files, Allowed Literal.crate (lit "/p") drafts (manifestWith ["dist"]) path := by
  refine ⟨_, list_drafts, ?_⟩
  intro hall
  have hallowed := hall (lit "readme-drafts/notes.txt") (List.mem_cons_of_mem _ List.mem_cons_self)
  rcases hallowed.chosen with hroot | ⟨_, hdeclared⟩
  · exact hroot.1 (by decide)
  · exact not_declared_drafts (hdeclared (by decide +kernel))

theorem packageFileList_allowed_iff_drafts :
    (∀ path ∈ [lit "package.json", lit "readme-drafts/notes.txt"],
      Allowed Literal.crate (lit "/p") drafts (manifestWith ["dist"]) path) ↔
    ∀ path, ¬ Misplaced Literal.crate (fun _ => true) (lit "/p") drafts (manifestWith ["dist"])
      path :=
  packageFileList_allowed_iff Literal.documented list_drafts

end PackageFiles
end Bpm
