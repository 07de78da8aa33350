import Bpm.Resolver.GitSources

/-!
# Which commit a Git reference names

`git ls-remote` lists every reference of the remote that is the requested one or ends in
it behind a slash, in the order of the names, and the commit of an annotated tag on a line
of its own.  The program takes the first of these lines, or else the last of all.
-/

namespace Bpm

open Text

namespace GitSource

/-- A commit or a tag object. -/
structure ObjectId where
  hex : Str
  full : isFullGitCommit hex = true
  lower : asciiLower hex = hex
deriving DecidableEq

/-- A reference of a remote; Git keeps blanks, control characters and `^` out of names. -/
structure RemoteRef where
  name : Str
  object : ObjectId
  /-- The commit of an annotated tag. -/
  peeled : Option ObjectId
  named : name = lit "HEAD" ∨ lit "refs/" <+: name
  plain : ∀ c ∈ name, 32 < c.toNat ∧ c ≠ '^'
deriving DecidableEq

namespace RemoteRef

def commit (ref : RemoteRef) : ObjectId := ref.peeled.getD ref.object

/-- The lines for a reference. -/
def lines (ref : RemoteRef) : List Str :=
  (ref.object.hex ++ '\t' :: ref.name) ::
    (ref.peeled.map fun commit => commit.hex ++ '\t' :: (ref.name ++ lit "^\x7b\x7d")).toList

/-- The second line is known as that of an annotated tag. -/
def annotated (ref : RemoteRef) : Bool := ref.peeled.isSome && !ref.name.any isSpace

end RemoteRef

/-- The references of a remote in the order of their names. -/
structure RemoteRefs where
  refs : List RemoteRef
  sorted : (refs.map (·.name)).Pairwise (· < ·)

namespace RemoteRefs

def listed (remote : RemoteRefs) (requested : Str) : List RemoteRef :=
  remote.refs.filter fun ref =>
    ref.name == requested || ('/' :: requested).isSuffixOf ref.name

/-- What `git ls-remote` prints. -/
def lsRemote (remote : RemoteRefs) (requested : Str) : List Str :=
  (remote.listed requested).flatMap (·.lines)

end RemoteRefs

/-- The names a reference stands for. -/
def meant (requested name : Str) : Bool :=
  name == lit "refs/heads/" ++ requested || name == lit "refs/tags/" ++ requested ||
    (requested == lit "HEAD" && name == lit "HEAD")

/-- If the remote has the branch or the tag, the commit is that of one of them. -/
def Faithful (remote : RemoteRefs) (requested : Str) (answer : Option Str) : Prop :=
  (∃ ref ∈ remote.refs, meant requested ref.name = true) →
    ∃ ref ∈ remote.refs, meant requested ref.name = true ∧ answer = some ref.commit.hex

/-- The first annotated tag that is listed, or else the last reference. -/
def picked (listed : List RemoteRef) : Option RemoteRef :=
  (listed.find? (·.annotated)).or listed.getLast?

/-- What is listed first of the annotated tags, or else last, is the branch or the tag, or
has the commit of one of them. -/
def PicksMeant (remote : RemoteRefs) (requested : Str) : Prop :=
  ∀ ref ∈ picked (remote.listed requested),
    meant requested ref.name = true ∨
      ∃ other ∈ remote.refs, meant requested other.name = true ∧ other.commit = ref.commit

/-! ## Reading the lines -/

variable {ref : RemoteRef}

theorem hex_word (id : ObjectId) : id.hex ≠ [] ∧ ∀ c ∈ id.hex, isSpace c = false := by
  have hfull := id.full
  rw [isFullGitCommit, Bool.and_eq_true, beq_iff_eq, List.all_eq_true] at hfull
  constructor
  · intro hnil
    rw [hnil] at hfull
    exact absurd hfull.1 (by decide)
  · intro c hc
    have hdigit := hfull.2 c hc
    simp only [Bool.or_eq_true, Bool.and_eq_true, decide_eq_true_eq, Char.le_def,
      UInt32.le_iff_toNat_le] at hdigit
    have hrange : 48 ≤ c.toNat ∧ c.toNat ≤ 102 := by
      have h0 : '0'.val.toNat = 48 := rfl
      have h9 : '9'.val.toNat = 57 := rfl
      have ha : 'a'.val.toNat = 97 := rfl
      have hf : 'f'.val.toNat = 102 := rfl
      have hA : 'A'.val.toNat = 65 := rfl
      have hF : 'F'.val.toNat = 70 := rfl
      show 48 ≤ c.val.toNat ∧ c.val.toNat ≤ 102
      omega
    simp only [isSpace, Bool.or_eq_false_iff, Bool.and_eq_false_iff, decide_eq_false_iff_not,
      beq_eq_false_iff_ne]
    omega

theorem name_head (ref : RemoteRef) : ∀ c ∈ ref.name.head?, isSpace c = false := by
  rcases ref.named with h | ⟨rest, h⟩
  · intro c hc
    rw [h] at hc
    cases hc
    decide
  · intro c hc
    rw [← h] at hc
    cases hc
    decide

/-- The words of a line: the object, and what begins the name. -/
theorem splitWhitespace_line (id : ObjectId) (ref : RemoteRef) (mark : Str) :
    ∃ fields, splitWhitespace (id.hex ++ '\t' :: (ref.name ++ mark)) = id.hex :: fields ∧
      fields.headD [] = (ref.name ++ mark).takeWhile fun c => !isSpace c := by
  obtain ⟨hne, hword⟩ := hex_word id
  refine ⟨_, splitWhitespace_word hne hword (by decide) _, head_splitWhitespace ?_⟩
  have hname : ref.name ≠ [] := by
    rcases ref.named with h | ⟨rest, h⟩
    · rw [h]
      decide
    · rw [← h]
      exact nofun
  rw [List.head?_append_of_ne_nil _ hname]
  exact name_head ref

theorem selectCommit_line (id : ObjectId) (ref : RemoteRef) (mark : Str) (rest : List Str)
    (candidate : Option Str) :
    selectCommit ((id.hex ++ '\t' :: (ref.name ++ mark)) :: rest) candidate =
      if (lit "^\x7b\x7d").isSuffixOf ((ref.name ++ mark).takeWhile fun c => !isSpace c) then
        some id.hex
      else selectCommit rest (some id.hex) := by
  obtain ⟨fields, hwords, hname⟩ := splitWhitespace_line id ref mark
  rw [selectCommit, hwords]
  simp only [id.full, id.lower, hname, Bool.not_true, Bool.false_eq_true, if_false]

/-- Within a name there is no mark of a peeled tag. -/
theorem mark_notSuffix {word : Str} (ref : RemoteRef) (h : word ⊆ ref.name) :
    (lit "^\x7b\x7d").isSuffixOf word = false := by
  rw [← Bool.not_eq_true, List.isSuffixOf_iff_suffix]
  intro hsuffix
  have hmark : '^' ∈ word := hsuffix.subset (by decide)
  exact (ref.plain '^' (h hmark)).2 rfl

theorem peeledWord_isSuffix (ref : RemoteRef) :
    (lit "^\x7b\x7d").isSuffixOf
      ((ref.name ++ lit "^\x7b\x7d").takeWhile fun c => !isSpace c) = !ref.name.any isSpace := by
  by_cases hspace : ref.name.any isSpace = true
  · have hshort : (ref.name ++ lit "^\x7b\x7d").takeWhile (fun c => !isSpace c) =
        ref.name.takeWhile fun c => !isSpace c := by
      rw [List.takeWhile_append, if_neg]
      intro hlength
      rw [List.any_eq_true] at hspace
      obtain ⟨c, hc, hspace⟩ := hspace
      have hwhole := (List.takeWhile_prefix _).eq_of_length hlength
      rw [← hwhole] at hc
      have hnot := List.mem_takeWhile_imp hc
      rw [hspace] at hnot
      cases hnot
    rw [hshort, hspace, mark_notSuffix ref (List.takeWhile_prefix _).subset]
    rfl
  · rw [Bool.not_eq_true, List.any_eq_false] at hspace
    have hall : ∀ c ∈ ref.name, (!isSpace c) = true := by
      intro c hc
      rw [Bool.not_eq_true']
      exact Bool.eq_false_iff.mpr (hspace c hc)
    rw [List.takeWhile_append_of_pos hall, List.any_eq_false.mpr hspace,
      show (lit "^\x7b\x7d").takeWhile (fun c => !isSpace c) = lit "^\x7b\x7d" by decide,
      Bool.not_false, List.isSuffixOf_iff_suffix]
    exact List.suffix_append _ _

/-- One reference: its commit is returned at once, or is the candidate behind its lines. -/
theorem selectCommit_ref (ref : RemoteRef) (rest : List Str) (candidate : Option Str) :
    selectCommit (ref.lines ++ rest) candidate =
      if ref.annotated then some ref.commit.hex
      else selectCommit rest (some ref.commit.hex) := by
  have hplain := selectCommit_line ref.object ref []
    ((ref.peeled.map fun commit =>
      commit.hex ++ '\t' :: (ref.name ++ lit "^\x7b\x7d")).toList ++ rest) candidate
  rw [List.append_nil, if_neg (by
    rw [mark_notSuffix ref (List.takeWhile_prefix _).subset]
    exact Bool.false_ne_true)] at hplain
  rw [RemoteRef.lines, List.cons_append, hplain, RemoteRef.annotated, RemoteRef.commit]
  rcases ref.peeled with _ | commit
  · rfl
  · rw [Option.map_some, Option.toList_some, List.singleton_append, selectCommit_line,
      peeledWord_isSuffix]
    rfl

/-- All references that are listed. -/
theorem selectCommit_refs (listed : List RemoteRef) (candidate : Option Str) :
    selectCommit (listed.flatMap (·.lines)) candidate =
      ((picked listed).map (·.commit.hex)).or candidate := by
  induction listed generalizing candidate with
  | nil => rfl
  | cons ref listed ih =>
      rw [List.flatMap_cons, selectCommit_ref, ih, picked, picked, List.find?_cons,
        List.getLast?_cons]
      generalize listed.find? (fun ref => ref.annotated) = first
      generalize listed.getLast? = last
      rcases ref.annotated with _ | _
      · rcases first with _ | first
        · rcases last with _ | last <;> rfl
        · rfl
      · rfl

theorem ObjectId.hex_injective {a b : ObjectId} (h : a.hex = b.hex) : a = b := by
  rcases a with ⟨_, _, _⟩
  rcases b with ⟨_, _, _⟩
  cases h
  rfl

theorem mem_of_picked {listed : List RemoteRef} {ref : RemoteRef} (h : picked listed = some ref) :
    ref ∈ listed := by
  rcases Option.or_eq_some_iff.mp h with hfirst | ⟨_, hlast⟩
  · exact List.mem_of_find?_eq_some hfirst
  · exact List.mem_of_getLast? hlast

/-- The branch and the tag are listed. -/
theorem mem_listed_of_meant {remote : RemoteRefs} {requested : Str} {ref : RemoteRef}
    (hmem : ref ∈ remote.refs) (hmeant : meant requested ref.name = true) :
    ref ∈ remote.listed requested := by
  refine List.mem_filter.mpr ⟨hmem, ?_⟩
  rw [Bool.or_eq_true, beq_iff_eq, List.isSuffixOf_iff_suffix]
  simp only [meant, Bool.or_eq_true, Bool.and_eq_true, beq_iff_eq] at hmeant
  rcases hmeant with (hbranch | htag) | ⟨hrequested, hhead⟩
  · right
    rw [hbranch]
    refine ⟨lit "refs/heads", ?_⟩
    rw [List.append_cons, show lit "refs/heads" ++ ['/'] = lit "refs/heads/" from rfl]
  · right
    rw [htag]
    refine ⟨lit "refs/tags", ?_⟩
    rw [List.append_cons, show lit "refs/tags" ++ ['/'] = lit "refs/tags/" from rfl]
  · left
    rw [hhead, hrequested]

/-- The commit that is chosen is that of the branch or the tag exactly if the line that is
chosen belongs to one of them, or has a commit of theirs. -/
theorem resolveGitCommit_faithful_iff {σ κ : Type} (git : Git σ κ) (state : σ) (url : Str)
    (reference : Option Str) (remote : RemoteRefs)
    (hreference : reference.filter isFullGitCommit = none)
    (hrequested : isOptionValue (reference.getD (lit "HEAD")) = false)
    (hurl : isOptionValue (gitCloneUrl url) = false)
    (hls : git.lsRemote state (gitCloneUrl url) (reference.getD (lit "HEAD")) =
      some (remote.lsRemote (reference.getD (lit "HEAD")))) :
    Faithful remote (reference.getD (lit "HEAD")) (resolveGitCommit git state url reference) ↔
      ((∃ ref ∈ remote.refs, meant (reference.getD (lit "HEAD")) ref.name = true) →
        PicksMeant remote (reference.getD (lit "HEAD"))) := by
  generalize hr : reference.getD (lit "HEAD") = requested at *
  have hanswer : resolveGitCommit git state url reference =
      (picked (remote.listed requested)).map (·.commit.hex) := by
    rw [resolveGitCommit, hreference]
    dsimp only
    rw [hr, hrequested, hurl, hls, Bool.or_self, if_neg Bool.false_ne_true, Option.bind_some,
      RemoteRefs.lsRemote, selectCommit_refs, Option.or_none]
  rw [hanswer]
  refine imp_congr_right fun hmeant => ?_
  have hpicked : ∃ ref, picked (remote.listed requested) = some ref := by
    obtain ⟨ref, hmem, hmeant⟩ := hmeant
    have hlisted := mem_listed_of_meant hmem hmeant
    rw [← Option.isSome_iff_exists, picked, Option.isSome_or, Bool.or_eq_true]
    right
    rw [Option.isSome_iff_ne_none, ne_eq, List.getLast?_eq_none_iff]
    exact List.ne_nil_of_mem hlisted
  obtain ⟨ref, hpicked⟩ := hpicked
  have hmem : ref ∈ remote.refs := (List.mem_filter.mp (mem_of_picked hpicked)).1
  rw [PicksMeant, hpicked, Option.map_some]
  constructor
  · rintro ⟨other, hother, hmeant, hcommit⟩ _ ⟨⟩
    exact .inr ⟨other, hother, hmeant, (ObjectId.hex_injective (Option.some.inj hcommit)).symm⟩
  · intro h
    rcases h ref rfl with hmeant | ⟨other, hother, hmeant, hcommit⟩
    · exact ⟨ref, hmem, hmeant, rfl⟩
    · exact ⟨other, hother, hmeant, by rw [hcommit]⟩

/-! ## Branches of one last name -/

namespace Branches

def mainId : ObjectId := ⟨List.replicate 40 'a', by decide, by decide⟩

def releaseId : ObjectId := ⟨List.replicate 40 'b', by decide, by decide⟩

def mainRef : RemoteRef where
  name := lit "refs/heads/main"
  object := mainId
  peeled := none
  named := .inr ⟨lit "heads/main", rfl⟩
  plain := by simp [lit]

def releaseRef : RemoteRef where
  name := lit "refs/heads/release/main"
  object := releaseId
  peeled := none
  named := .inr ⟨lit "heads/release/main", rfl⟩
  plain := by simp [lit]

def remote : RemoteRefs := ⟨[mainRef, releaseRef], by decide⟩

def lone : RemoteRefs := ⟨[mainRef], by decide⟩

def git (remote : RemoteRefs) : Git Unit Unit where
  lsRemote _ _ requested := some (remote.lsRemote requested)
  archived _ _ _ := none
  tree _ _ := []
  hosted _ := []
  pack bytes := some bytes
  manifestParses _ := true
  extracts _ := true
  sourceKey _ _ := ()

theorem resolveGitCommit_faithful_iff_lone :
    Faithful lone (lit "main")
      (resolveGitCommit (git lone) () (lit "ssh://git.example/repo") (some (lit "main"))) ↔
      ((∃ ref ∈ lone.refs, meant (lit "main") ref.name = true) → PicksMeant lone (lit "main")) :=
  resolveGitCommit_faithful_iff (git lone) () (lit "ssh://git.example/repo") (some (lit "main")) lone
    (by decide) (by decide) (by decide) rfl

/-- The branch `release/main` is taken for `main`. -/
theorem resolveGitCommit_unfaithful : ¬Faithful remote (lit "main")
    (resolveGitCommit (git remote) () (lit "ssh://git.example/repo") (some (lit "main"))) := by
  intro h
  obtain ⟨ref, hmem, hmeant, hanswer⟩ := h ⟨mainRef, by decide, by decide⟩
  revert ref
  decide

end Branches

end GitSource
end Bpm
