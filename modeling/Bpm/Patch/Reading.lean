import Bpm.Patch.Standard

/-!
# Reading a unified diff

The shown lines of a hunk are read back one by one, without a carriage return at their end
and with a line feed in any case.  A removed line that begins with two hyphens and a blank is
shown as three, and is read as the header of another file.
-/

namespace Bpm

open Text Lines

namespace Patch

/-- What is read where a line is shown. -/
def readLine (line : Str) : Str := stripReturn (body line) ++ ['\n']

def Change.parsed : Change → HunkLine
  | .keep line => .context (readLine line)
  | .remove line => .remove (readLine line)
  | .add line => .add (readLine line)

/-- A removed line that looks like the header of a file. -/
def Change.headerLike (c : Change) : Bool :=
  match c with
  | .remove line => (lit "-- ").isPrefixOf line
  | _ => false

def parsedHunks : Nat → List Edit → List Hunk
  | _, [] => []
  | before, e :: edits =>
      ⟨Edit.start (before + e.gap.length) e.old.length, e.changes.map Change.parsed⟩ ::
        parsedHunks (before + e.gap.length + e.old.length) edits

/-- The numbers that the hunk headers give for the old text. -/
def oldStarts (before : Nat) (edits : List Edit) : List Nat :=
  (parsedHunks before edits).map Hunk.oldStart

theorem stripReturn_append {a b : Str} (h : a.getLast? ≠ some '\r') :
    stripReturn (a ++ b) = a ++ stripReturn b := by
  cases hb : b with
  | nil => simp [stripReturn, h]
  | cons c rest =>
      have hne : b ≠ [] := by simp [hb]
      have hlast : (a ++ b).getLast? = b.getLast? := by
        rw [List.getLast?_append, List.getLast?_eq_some_getLast hne]
        rfl
      rw [← hb]
      unfold stripReturn
      rw [hlast]
      split
      · rw [List.dropLast_append_of_ne_nil hne]
      · rfl

theorem stripReturn_of_notMem {line : Str} (h : '\r' ∉ line) : stripReturn line = line := by
  unfold stripReturn
  split
  · rename_i hlast
    exact absurd (List.mem_of_getLast? hlast) h
  · rfl

/-! ## Headers -/

theorem nat_isDigit {n : Nat} {c : Char} (h : c ∈ DebugText.nat n) : c.isDigit = true :=
  Nat.isDigit_of_mem_toDigits (by decide) (by decide) h

theorem isSpace_of_isDigit {c : Char} (h : c.isDigit = true) : isSpace c = false := by
  simp only [Char.isDigit, Bool.and_eq_true, decide_eq_true_eq] at h
  have hlow : 48 ≤ c.toNat := h.1
  have hhigh : c.toNat ≤ 57 := h.2
  simp only [isSpace, Bool.or_eq_false_iff, Bool.and_eq_false_iff, decide_eq_false_iff_not,
    beq_eq_false_iff_ne]
  omega

/-- Reading the digits of a number gives it back, if it is in range. -/
theorem parseUsize_nat (n : Nat) :
    parseUsize (DebugText.nat n) = if n < 2 ^ 64 then some n else none := by
  have hne : DebugText.nat n ≠ [] := by
    have := Nat.length_toDigits_pos (b := 10) (n := n)
    intro heq
    rw [show Nat.toDigits 10 n = DebugText.nat n from rfl, heq] at this
    simp at this
  have hplus : stripPrefix ['+'] (DebugText.nat n) = none := by
    have hhead : (['+'] : Str).isPrefixOf (DebugText.nat n) = false := by
      cases hdigits : DebugText.nat n with
      | nil => rfl
      | cons c rest =>
          have hc : c.isDigit = true := nat_isDigit (n := n) (by simp [hdigits])
          have hne : c ≠ '+' := by
            rintro rfl
            exact absurd hc (by decide)
          simpa [List.isPrefixOf] using fun heq => hne heq.symm
    rw [stripPrefix, hhead]
    rfl
  have hall : (DebugText.nat n).all Char.isDigit = true :=
    List.all_eq_true.mpr fun c hc => nat_isDigit hc
  have hvalue : Nat.ofDigitChars 10 (DebugText.nat n) 0 = n := Nat.ofDigitChars_ten_toDigits
  simp [parseUsize, hplus, hall, hvalue, hne]

theorem range_plain {e : Edit} {before count : Nat} {c : Char} (h : c ∈ e.range before count) :
    c.isDigit = true ∨ c = ',' := by
  rcases List.mem_append.mp h with h | h
  · exact .inl (nat_isDigit h)
  · split at h
    · cases h
    · rcases List.mem_cons.mp h with h | h
      · exact .inr h
      · exact .inl (nat_isDigit h)

/-- The number that a range begins with. -/
theorem head_splitOn_range (e : Edit) (before count : Nat) :
    ((e.range before count).splitOn ',').head? =
      some (DebugText.nat (Edit.start before count)) := by
  have hcomma : ∀ n, ',' ∉ DebugText.nat n := by
    intro n hmem
    exact absurd (nat_isDigit hmem) (by decide)
  unfold Edit.range
  split
  · rw [List.append_nil, List.splitOn_eq_singleton (hcomma _)]
    rfl
  · rw [List.splitOn_append_cons_self_of_not_mem (hcomma _)]
    rfl

theorem trimStartMatches_none {p s : Str} (h : p.isPrefixOf s = false) :
    trimStartMatches p s = s := by
  unfold trimStartMatches
  cases s.length with
  | zero => rfl
  | succ n => simp [dropRepeats, h]

theorem trimStartMatches_once {c : Char} {s : Str} (h : ([c] : Str).isPrefixOf s = false) :
    trimStartMatches [c] (c :: s) = s := by
  have hrest := trimStartMatches_none h
  unfold trimStartMatches at hrest ⊢
  simpa [dropRepeats, List.isPrefixOf] using hrest

theorem isSpace_range {e : Edit} {before count : Nat} {c : Char}
    (h : c ∈ e.range before count) : isSpace c = false := by
  rcases range_plain h with h | rfl
  · exact isSpace_of_isDigit h
  · decide

/-- The header of a hunk gives the first line of its old range. -/
theorem parseOldStart_header (e : Edit) (before newBefore : Nat) :
    parseOldStart (stripReturn (e.header before newBefore)) =
      if Edit.start before e.old.length < 2 ^ 64 then .ok (Edit.start before e.old.length)
      else malformed (.badHunkHeader (stripReturn (e.header before newBefore))) := by
  generalize htail : ('+' :: e.range newBefore e.new.length) ++ lit " @@" = tail
  have hstrip : stripReturn (e.header before newBefore) =
      lit "@@" ++ ' ' :: ('-' :: e.range before e.old.length) ++
        ' ' :: (tail ++ stripReturn e.heading) := by
    have hlast : (lit "@@" ++ ' ' :: ('-' :: e.range before e.old.length) ++
        ' ' :: tail).getLast? ≠ some '\r' := by
      have hend : lit "@@" ++ ' ' :: ('-' :: e.range before e.old.length) ++ ' ' :: tail =
          (lit "@@" ++ ' ' :: ('-' :: e.range before e.old.length) ++
            ' ' :: '+' :: e.range newBefore e.new.length) ++ lit " @@" := by
        simp [← htail]
      rw [hend, List.getLast?_append]
      simp [lit]
    have := stripReturn_append (b := e.heading) hlast
    simpa [Edit.header, ← htail] using this
  have hwords : splitWhitespace (stripReturn (e.header before newBefore)) =
      lit "@@" :: ('-' :: e.range before e.old.length) ::
        splitWhitespace (tail ++ stripReturn e.heading) := by
    have hrange : ∀ c ∈ '-' :: e.range before e.old.length, isSpace c = false := by
      intro c hc
      rcases List.mem_cons.mp hc with rfl | hc
      · decide
      · exact isSpace_range hc
    have hmarks : ∀ c ∈ lit "@@", isSpace c = false := by
      have hat : isSpace '@' = false := by decide
      simpa [lit] using hat
    rw [hstrip, List.append_assoc, List.cons_append, splitWhitespace_word (by simp [lit]) hmarks
      (by decide), splitWhitespace_word (by simp) hrange (by decide)]
  have hhyphen : (['-'] : Str).isPrefixOf (e.range before e.old.length) = false := by
    cases hrange : e.range before e.old.length with
    | nil => rfl
    | cons c rest =>
        have hin : c ∈ e.range before e.old.length := by simp [hrange]
        have hc := range_plain hin
        have hne : c ≠ '-' := by
          rintro rfl
          rcases hc with hc | hc
          · exact absurd hc (by decide)
          · exact absurd hc (by decide)
        simpa [List.isPrefixOf] using fun heq => hne heq.symm
  have hfind : (splitWhitespace (stripReturn (e.header before newBefore))).find?
      (fun part => ['-'].isPrefixOf part) = some ('-' :: e.range before e.old.length) := by
    rw [hwords]
    simp [List.find?, lit, List.isPrefixOf]
  simp only [parseOldStart, hfind, trimStartMatches_once hhyphen, head_splitOn_range,
    Option.getD_some, parseUsize_nat]
  split
  · rename_i h
    split at h
    · rename_i hlt
      cases h
      rw [if_pos hlt]
    · cases h
  · rename_i h
    split at h
    · cases h
    · rename_i hlt
      rw [if_neg hlt]

/-! ## The lines of a hunk -/

theorem isPrefixOf_stripReturn {p line : Str} (h : '\r' ∉ p) :
    p.isPrefixOf (stripReturn line) = p.isPrefixOf line := by
  have hsub : stripReturn line <+: line := by
    unfold stripReturn
    split
    · exact List.dropLast_prefix line
    · exact List.prefix_refl line
  rw [Bool.eq_iff_iff, List.isPrefixOf_iff_prefix, List.isPrefixOf_iff_prefix]
  constructor
  · intro hp
    exact hp.trans hsub
  · intro ⟨rest, hrest⟩
    have hlast : p.getLast? ≠ some '\r' := fun heq => h (List.mem_of_getLast? heq)
    rw [← hrest, stripReturn_append hlast]
    exact List.prefix_append _ _

theorem isPrefixOf_body {p line : Str} (h : '\n' ∉ p) :
    p.isPrefixOf (body line) = p.isPrefixOf line := by
  unfold body
  split
  · rename_i hlast
    obtain ⟨front, rfl⟩ := List.getLast?_eq_some_iff.mp hlast
    rw [List.dropLast_concat, Bool.eq_iff_iff, List.isPrefixOf_iff_prefix,
      List.isPrefixOf_iff_prefix]
    constructor
    · intro hp
      exact hp.trans (List.prefix_append _ _)
    · intro hp
      rcases List.prefix_concat_iff.mp hp with rfl | hp
      · simp at h
      · exact hp
  · rfl

/-- How the first shown line of a change is read. -/
def Change.firstShown (c : Change) : Str := c.kind :: stripReturn (body c.line)

theorem Change.kind_ne (c : Change) {x : Char} (h : x ∉ [' ', '-', '+']) : c.kind ≠ x := by
  rintro rfl
  cases c with
  | keep line => simp [Change.kind] at h
  | remove line => simp [Change.kind] at h
  | add line => simp [Change.kind] at h

theorem Change.shown_stripped (c : Change) : c.shown.map stripReturn =
    c.firstShown :: if c.line.getLast? = some '\n' then [] else [noNewline] := by
  have hkind : ([c.kind] : Str).getLast? ≠ some '\r' := by
    simpa using c.kind_ne (by decide)
  have hfirst : stripReturn (c.kind :: body c.line) = c.firstShown :=
    stripReturn_append (b := body c.line) hkind
  unfold Change.shown
  split
  · simp [hfirst]
  · have hmark : stripReturn noNewline = noNewline := by decide
    simp [hfirst, hmark]

theorem isOldHeader_firstShown (c : Change) : isOldHeader c.firstShown = c.headerLike := by
  cases c with
  | keep line => rfl
  | add line => rfl
  | remove line =>
      have hfront : isOldHeader (Change.firstShown (.remove line)) =
          (lit "-- ").isPrefixOf (stripReturn (body line)) := by
        simp [isOldHeader, Change.firstShown, Change.kind, Change.line, lit]
      rw [hfront, isPrefixOf_stripReturn (by decide), isPrefixOf_body (by decide)]
      rfl

theorem isHunkHeader_firstShown (c : Change) : isHunkHeader c.firstShown = false := by
  cases c with
  | keep line => rfl
  | remove line => rfl
  | add line => rfl

theorem hunkLine_firstShown (c : Change) : hunkLine c.firstShown = .ok (some c.parsed) := by
  have hmark : c.firstShown ≠ noNewline := by
    have hhead : c.kind ≠ '\\' := c.kind_ne (by decide)
    intro heq
    exact hhead (List.cons.inj heq).1
  unfold hunkLine
  rw [if_neg hmark]
  cases c with
  | keep line => rfl
  | remove line => rfl
  | add line => rfl

/-- The shown lines of a change are read as the change. -/
theorem foldlM_shown {c : Change} (hc : c.headerLike = false) (ps : List FilePatch) (t : Str)
    (hs : List Hunk) (n : Nat) (acc : List HunkLine) :
    (c.shown.map stripReturn).foldlM Parser.step ⟨ps, .hunk t hs n acc⟩ =
      .ok ⟨ps, .hunk t hs n (acc ++ [c.parsed])⟩ := by
  have hfirst : Parser.step ⟨ps, .hunk t hs n acc⟩ c.firstShown =
      .ok ⟨ps, .hunk t hs n (acc ++ [c.parsed])⟩ := by
    simp [Parser.step, isHunkHeader_firstShown, isOldHeader_firstShown, hc, hunkLine_firstShown,
      bind, Except.bind]
  have hmark : ∀ acc, Parser.step ⟨ps, .hunk t hs n acc⟩ noNewline =
      .ok ⟨ps, .hunk t hs n acc⟩ := by
    intro acc
    have hheaders : isHunkHeader noNewline = false ∧ isOldHeader noNewline = false := by decide
    simp [Parser.step, hheaders, hunkLine, bind, Except.bind]
  rw [Change.shown_stripped, List.foldlM_cons, hfirst]
  split
  · rfl
  · simp [bind, Except.bind, hmark, pure, Except.pure]

theorem foldlM_changes {changes : List Change} (hc : ∀ c ∈ changes, c.headerLike = false)
    (ps : List FilePatch) (t : Str) (hs : List Hunk) (n : Nat) (acc : List HunkLine) :
    ((changes.flatMap Change.shown).map stripReturn).foldlM Parser.step
        ⟨ps, .hunk t hs n acc⟩ =
      .ok ⟨ps, .hunk t hs n (acc ++ changes.map Change.parsed)⟩ := by
  induction changes generalizing acc with
  | nil => simp [pure, Except.pure]
  | cons c changes ih =>
      have hrest := ih (fun d hd => hc d (List.mem_cons_of_mem _ hd)) (acc ++ [c.parsed])
      rw [List.flatMap_cons, List.map_append, List.foldlM_append, foldlM_shown (hc c (by simp))]
      simpa [bind, Except.bind] using hrest

end Patch
end Bpm
