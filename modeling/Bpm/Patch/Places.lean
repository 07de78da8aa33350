import Bpm.Lib.Folds
import Bpm.Patch.Parse

/-!
# Where a patch text is cut

The parser cuts a line behind its first byte only inside a hunk.  Which lines stand there is
determined by the headers before them: `Place.after` reads the headers and nothing else.  A
line inside a hunk that does not begin with an ASCII character is the only thing that makes
the parser panic; applying a patch never does.
-/

namespace Bpm

open Text Lines

namespace Patch

/-- A computation that comes to a value or an error. -/
def Returns {α : Type} (r : Result α) : Prop := r ≠ .error .panic

/-- Where a line of a patch text stands. -/
inductive Place
  | outside
  | target
  | file
  | hunk
deriving DecidableEq

/-- The lines that a hunk may consist of. -/
def isHunkLine (line : Str) : Bool :=
  line = noNewline || line.head?.any fun kind => kind ∈ [' ', '-', '+']

/-- Behind a line of a file that is `kept` if it is not a header. -/
def Place.within (place : Place) (kept : Bool) (line : Str) : Option Place :=
  if isOldHeader line then some .target
  else if isHunkHeader line then
    if (parseOldStart line).isOk then some .hunk else none
  else if kept then some place
  else none

/-- The place behind a line; `none` when the text is refused there. -/
def Place.after : Place → Str → Option Place
  | .outside, line => some (if isOldHeader line then .target else .outside)
  | .target, line =>
      if isNewHeader line && (normalizePatchPath (trimStartMatches (lit "+++ ") line)).isOk then
        some .file
      else none
  | .file, line => Place.file.within true line
  | .hunk, line => Place.hunk.within (isHunkLine line) line

def startsAscii (line : Str) : Bool := line.head?.any fun c => c.toNat < 128

/-- Every line that is read inside a hunk begins with an ASCII character. -/
def HunkLinesReadable (text : Str) : Prop :=
  ∀ before line after, lines text = before ++ line :: after →
    before.foldlM Place.after .outside = some .hunk → startsAscii line = true

def Mode.place : Mode → Place
  | .outside => .outside
  | .target => .target
  | .file .. => .file
  | .hunk .. => .hunk

/-- What a parser does with a line: it moves to the next place, refuses the line, or cannot
cut it. -/
inductive Stepped (p : Parser) (line : Str) : Result Parser → Prop
  | moved {p' : Parser} (h : p.mode.place.after line = some p'.mode.place) :
      Stepped p line (.ok p')
  | refused {e : PatchError} (h : p.mode.place.after line = none) :
      Stepped p line (.error (.error e))
  | panicked (hplace : p.mode.place = .hunk) (hline : startsAscii line = false) :
      Stepped p line (.error .panic)

theorem normalizePatchPath_returns (value : Str) : Returns (normalizePatchPath value) := by
  simp only [normalizePatchPath, Returns]
  split
  · simp [malformed]
  · split
    · simp [malformed]
    · simp

theorem parseOldStart_returns (header : Str) : Returns (parseOldStart header) := by
  simp only [parseOldStart, Returns]
  split
  · simp [malformed]
  · split
    · simp
    · simp [malformed]

/-- The two outcomes of a computation that returns. -/
theorem Returns.cases {α : Type} {r : Result α} (h : Returns r) :
    (∃ a, r = .ok a) ∨ ∃ e, r = .error (.error e) := by
  cases r with
  | ok a => exact .inl ⟨a, rfl⟩
  | error f =>
      cases f with
      | panic => exact absurd rfl h
      | error e => exact .inr ⟨e, rfl⟩

/-- Outside the hunks of a file, a line is read as `Place.after` says. -/
theorem fileLine_stepped (patches : List FilePatch) (target : Str) (hunks : List Hunk)
    {p : Parser} {line : Str} {place : Place} {kept : Bool}
    (hafter : p.mode.place.after line = place.within kept line)
    (hplace : place = .file ∧ kept = true ∨ (isHunkHeader line || isOldHeader line) = true) :
    Stepped p line (fileLine patches target hunks line) := by
  unfold fileLine
  unfold Place.within at hafter
  by_cases hold : isOldHeader line = true
  · rw [if_pos hold] at hafter ⊢
    exact .moved hafter
  rw [if_neg hold] at hafter ⊢
  by_cases hhunk : isHunkHeader line = true
  · rw [if_pos hhunk] at hafter ⊢
    rcases (parseOldStart_returns line).cases with ⟨n, hn⟩ | ⟨e, he⟩
    · rw [hn] at hafter ⊢
      exact .moved hafter
    · rw [he] at hafter ⊢
      exact .refused hafter
  · rw [if_neg hhunk] at hafter ⊢
    rcases hplace with ⟨rfl, rfl⟩ | h
    · exact .moved hafter
    · simp [hhunk, hold] at h

/-- A line of a hunk is kept, refused or not cut. -/
theorem hunkLine_cases (line : Str) :
    (∃ read, hunkLine line = .ok read) ∧ isHunkLine line = true ∨
      (∃ e, hunkLine line = .error (.error e)) ∧ isHunkLine line = false ∨
      hunkLine line = .error .panic ∧ startsAscii line = false := by
  unfold hunkLine
  by_cases hmark : line = noNewline
  · exact .inl ⟨⟨none, by rw [if_pos hmark]⟩, by simp [isHunkLine, hmark]⟩
  rw [if_neg hmark]
  cases line with
  | nil => exact .inr (.inr ⟨rfl, rfl⟩)
  | cons kind value =>
      by_cases hascii : kind.toNat < 128
      · have hsplit : splitFirst (kind :: value) = .ok (kind, value) := by
          simp [splitFirst, hascii]
        by_cases hkind : kind ∈ [' ', '-', '+']
        · left
          refine ⟨?_, by simpa [isHunkLine] using Or.inr (by simpa using hkind)⟩
          rw [hsplit]
          simp only [List.mem_cons, List.not_mem_nil, or_false] at hkind
          rcases hkind with rfl | rfl | rfl
          · exact ⟨_, rfl⟩
          · exact ⟨_, rfl⟩
          · exact ⟨_, rfl⟩
        · right; left
          simp only [List.mem_cons, List.not_mem_nil, or_false, not_or] at hkind
          refine ⟨⟨.malformed (.badHunkLine (kind :: value)), ?_⟩, ?_⟩
          · rw [hsplit]
            simp [bind, Except.bind, hkind, malformed]
          · simp [isHunkLine, hmark, hkind]
      · right; right
        have hsplit : splitFirst (kind :: value) = .error .panic := by simp [splitFirst, hascii]
        exact ⟨by rw [hsplit]; rfl, by simp [startsAscii, hascii]⟩

theorem step_stepped (p : Parser) (line : Str) : Stepped p line (p.step line) := by
  obtain ⟨patches, mode⟩ := p
  cases mode with
  | outside =>
      by_cases hold : isOldHeader line = true
      · exact .moved (by simp [Place.after, Mode.place, hold])
      · exact .moved (by simp [Place.after, Mode.place, hold])
  | target =>
      simp only [Parser.step]
      by_cases hnew : isNewHeader line = true
      · rw [if_pos hnew]
        rcases (normalizePatchPath_returns (trimStartMatches (lit "+++ ") line)).cases with
          ⟨target, h⟩ | ⟨e, h⟩
        · rw [h]
          exact .moved (by simp [Place.after, Mode.place, hnew, h, Except.isOk, Except.toBool])
        · rw [h]
          exact .refused (by simp [Place.after, Mode.place, hnew, h, Except.isOk, Except.toBool])
      · rw [if_neg hnew]
        exact .refused (by simp [Place.after, Mode.place, hnew])
  | file target hunks => exact fileLine_stepped _ _ _ rfl (.inl ⟨rfl, rfl⟩)
  | hunk target hunks oldStart collected =>
      simp only [Parser.step]
      by_cases hheader : (isHunkHeader line || isOldHeader line) = true
      · rw [if_pos hheader]
        exact fileLine_stepped _ _ _ rfl (.inr hheader)
      · rw [if_neg hheader]
        simp only [Bool.or_eq_true, not_or] at hheader
        rcases hunkLine_cases line with ⟨⟨read, h⟩, hok⟩ | ⟨⟨e, h⟩, hbad⟩ | ⟨h, hascii⟩
        · rw [h]
          exact .moved (by simp [Place.after, Place.within, Mode.place, hheader, hok])
        · rw [h]
          exact .refused (by simp [Place.after, Place.within, Mode.place, hheader, hbad])
        · rw [h]
          exact .panicked rfl hascii

/-- In a hunk, a line that does not begin with an ASCII character cannot be cut. -/
theorem step_panics {p : Parser} {line : Str} (hplace : p.mode.place = .hunk)
    (hline : startsAscii line = false) : p.step line = .error .panic := by
  have hheader : ∀ {header : Str}, startsAscii header = true → header ≠ [] →
      header.isPrefixOf line = false := by
    intro header hascii hne
    by_contra hprefix
    have hin : header <+: line := by simpa using hprefix
    obtain ⟨rest, rfl⟩ := hin
    cases header with
    | nil => exact hne rfl
    | cons c header => simp [startsAscii] at hline hascii; omega
  have hold : isOldHeader line = false := hheader (by decide) (by decide)
  have hhunk : isHunkHeader line = false := hheader (by decide) (by decide)
  have hmark : line ≠ noNewline := by
    rintro rfl
    exact absurd hline (by decide)
  have hsplit : splitFirst line = .error .panic := by
    cases line with
    | nil => rfl
    | cons c value =>
        have hc : ¬c.toNat < 128 := by simpa [startsAscii] using hline
        simp [splitFirst, hc]
  obtain ⟨patches, mode⟩ := p
  cases mode with
  | outside => cases hplace
  | target => cases hplace
  | file target hunks => cases hplace
  | hunk target hunks oldStart collected =>
      simp [Parser.step, hold, hhunk, hunkLine, hmark, hsplit, bind, Except.bind]

theorem finish_returns (p : Parser) : Returns p.finish := by
  unfold Parser.finish Returns
  split
  · simp [malformed]
  · split
    · simp
    · simp

/-- A run panics exactly when one of its lines stands in a hunk and cannot be cut. -/
theorem run_returns_iff (ls : List Str) (p : Parser) : Returns (p.run ls) ↔
    ∀ before line after, ls = before ++ line :: after →
      before.foldlM Place.after p.mode.place = some .hunk → startsAscii line = true := by
  induction ls generalizing p with
  | nil => simpa [Parser.run, bind, Except.bind, pure, Except.pure] using finish_returns p
  | cons first ls ih =>
      have hstep := step_stepped p first
      have hrun : p.run (first :: ls) = p.step first >>= fun p' => p'.run ls := by
        simp [Parser.run, List.foldlM_cons]
      -- the line at the front, and the lines behind it
      have hsplit : (∀ before line after, first :: ls = before ++ line :: after →
            before.foldlM Place.after p.mode.place = some .hunk → startsAscii line = true) ↔
          (p.mode.place = .hunk → startsAscii first = true) ∧
            ∀ place, p.mode.place.after first = some place →
              ∀ before line after, ls = before ++ line :: after →
                before.foldlM Place.after place = some .hunk → startsAscii line = true := by
        constructor
        · intro h
          refine ⟨fun hplace => h [] first ls rfl (by simp [hplace]), ?_⟩
          intro place hplace before line after heq hbefore
          exact h (first :: before) line after (by rw [heq]; rfl)
            (by simp [List.foldlM_cons, hplace, hbefore])
        · intro ⟨hfront, hrest⟩ before line after heq hbefore
          cases before with
          | nil =>
              obtain ⟨rfl, rfl⟩ := List.cons.inj heq
              exact hfront (by simpa using hbefore)
          | cons b before =>
              obtain ⟨rfl, rfl⟩ := List.cons.inj heq
              rw [List.foldlM_cons] at hbefore
              obtain ⟨place, hplace, hbefore⟩ := Option.bind_eq_some_iff.mp hbefore
              exact hrest place hplace before line after rfl hbefore
      have hascii : p.step first ≠ .error .panic → p.mode.place = .hunk →
          startsAscii first = true := by
        intro hne hplace
        by_contra hline
        exact hne (step_panics hplace (by simpa using hline))
      rw [hrun, hsplit]
      generalize p.step first = outcome at hstep hascii
      cases hstep with
      | moved h =>
          rename_i p'
          have hfront := hascii (by simp)
          have hrest := ih p'
          rw [h]
          constructor
          · intro hreturns
            refine ⟨hfront, fun place hplace => ?_⟩
            cases hplace
            exact hrest.mp hreturns
          · intro hall
            exact hrest.mpr (hall.2 _ rfl)
      | refused h =>
          have hfront := hascii (by simp)
          simpa [bind, Except.bind, h, Returns] using hfront
      | panicked hplace hline =>
          simp [bind, Except.bind, Returns, hplace, hline]

/-! ## Applying -/

theorem expectLine_returns (path : Str) (original : List Str) (cursor : Nat) (expected : Str) :
    Returns (expectLine path original cursor expected) := by
  unfold expectLine Returns
  split
  · simp
  · simp [mismatch]

/-- A step that finds its line leaves the cursor inside the file. -/
theorem applyLine_returns (path : Str) {original : List Str} {p : Progress} (line : HunkLine)
    (hcursor : p.cursor ≤ original.length) : Returns (applyLine path original p line) ∧
      ∀ p', applyLine path original p line = .ok p' → p'.cursor ≤ original.length := by
  have hexpect : ∀ {value : Str}, expectLine path original p.cursor value = .ok () →
      p.cursor + 1 ≤ original.length := by
    intro value h
    unfold expectLine at h
    split at h
    · rename_i hfound
      exact (List.getElem?_eq_some_iff.mp hfound).choose
    · cases h
  have hmatched : ∀ {value : Str} {q : Progress}, q.cursor = p.cursor + 1 →
      Returns (expectLine path original p.cursor value >>= fun _ => Except.ok q) ∧
        ∀ p', (expectLine path original p.cursor value >>= fun _ => Except.ok q) = .ok p' →
          p'.cursor ≤ original.length := by
    intro value q hq
    rcases (expectLine_returns path original p.cursor value).cases with ⟨⟨⟩, h⟩ | ⟨e, h⟩
    · have hle := hexpect h
      rw [h]
      refine ⟨by simp [Returns, bind, Except.bind], fun p' hp' => ?_⟩
      cases hp'
      omega
    · rw [h]
      exact ⟨by simp [Returns, bind, Except.bind], fun p' hp' => by cases hp'⟩
  cases line with
  | context value => exact hmatched rfl
  | remove value => exact hmatched rfl
  | add value =>
      refine ⟨by simp [applyLine, Returns], fun p' hp' => ?_⟩
      cases hp'
      exact hcursor

theorem slice_returns {lines : List Str} {first last : Nat} (hle : first ≤ last)
    (hlast : last ≤ lines.length) : ∃ part, slice lines first last = .ok part :=
  ⟨_, by rw [slice, if_pos ⟨hle, hlast⟩]⟩

/-- A fold returns when every step does and keeps what the next one needs. -/
theorem foldlM_returns {σ α : Type} {f : σ → α → Result σ} {I : σ → Prop}
    (hstep : ∀ s x, I s → Returns (f s x) ∧ ∀ s', f s x = .ok s' → I s') (l : List α) {s : σ}
    (hs : I s) : Returns (l.foldlM f s) ∧ ∀ s', l.foldlM f s = .ok s' → I s' := by
  induction l generalizing s with
  | nil => exact ⟨by simp [Returns, pure, Except.pure], fun s' h => by cases h; exact hs⟩
  | cons x l ih =>
      obtain ⟨hreturns, hkeep⟩ := hstep s x hs
      rw [List.foldlM_cons]
      rcases hreturns.cases with ⟨t, ht⟩ | ⟨e, he⟩
      · rw [ht]
        exact ih (hkeep t ht)
      · rw [he]
        exact ⟨by simp [Returns, bind, Except.bind], fun s' h => by cases h⟩

theorem applyHunk_returns (path : Str) {original : List Str} {p : Progress} (hunk : Hunk) :
    Returns (applyHunk path original p hunk) ∧
      ∀ p', applyHunk path original p hunk = .ok p' → p'.cursor ≤ original.length := by
  simp only [applyHunk]
  split
  · exact ⟨by simp [Returns, mismatch], fun p' h => by cases h⟩
  · rename_i hinside
    rw [not_or, not_lt, not_lt] at hinside
    obtain ⟨part, hpart⟩ := slice_returns hinside.1 hinside.2
    rw [hpart]
    exact foldlM_returns (I := fun q : Progress => q.cursor ≤ original.length)
      (fun q line hq => applyLine_returns path line hq) hunk.lines hinside.2

/-- Applying a patch comes to a text or an error, whatever the patch. -/
theorem applyFilePatch_returns (path original : Str) (patch : FilePatch) :
    Returns (applyFilePatch path original patch) := by
  have hhunks := foldlM_returns (I := fun q : Progress => q.cursor ≤ (splitLines original).length)
    (f := applyHunk path (splitLines original)) (fun _ hunk _ => applyHunk_returns path hunk)
    patch.hunks (s := Progress.mk [] 0) (Nat.zero_le _)
  unfold applyFilePatch
  rcases hhunks.1.cases with ⟨p, hp⟩ | ⟨e, he⟩
  · obtain ⟨rest, hrest⟩ := slice_returns (hhunks.2 p hp) le_rfl
    simp [hp, hrest, Returns, bind, Except.bind]
  · simp [he, Returns, bind, Except.bind]

/-- Reading a patch text and applying patches comes to a value or an error exactly when every
line that is read inside a hunk begins with an ASCII character. -/
theorem patch_returns_iff (text : Str) :
    (Returns (parsePatch text) ∧
      ∀ path original patch, Returns (applyFilePatch path original patch)) ↔
    HunkLinesReadable text := by
  constructor
  · intro h
    exact (run_returns_iff (lines text) ⟨[], .outside⟩).mp h.1
  · intro h
    exact ⟨(run_returns_iff (lines text) ⟨[], .outside⟩).mpr h, applyFilePatch_returns⟩

/-- An empty line in a hunk. -/
theorem parsePatch_empty_line : ¬∀ text path original,
    Returns (parsePatch text) ∧ ∀ patch, Returns (applyFilePatch path original patch) := by
  intro h
  have hreturns := (h (lit "--- a/x\n+++ b/x\n@@ -1 +1 @@\n\n") [] []).1
  exact absurd (by decide : parsePatch (lit "--- a/x\n+++ b/x\n@@ -1 +1 @@\n\n") =
    .error .panic) hreturns

end Patch
end Bpm
