import Bpm.Patch.Reading

/-!
# Which diffs are read back

A diff of several files is read as one patch for each of its files exactly when no removed
line looks like the header of a file, every label names a path in the package, every line
number is in range, and only the first file has lines before its header.
-/

namespace Bpm

open Text Lines

namespace Patch

/-- The patch being read, if its file ended here. -/
def Mode.closed : Mode → Option FilePatch
  | .outside | .target => none
  | .file t hs => some ⟨t, hs⟩
  | .hunk t hs n acc => some ⟨t, hs ++ [⟨n, acc⟩]⟩

theorem collected_of_closed {p : Parser} {patch : FilePatch} (h : p.mode.closed = some patch) :
    p.collected = p.patches ++ [patch] := by
  obtain ⟨ps, mode⟩ := p
  cases mode with
  | outside => cases h
  | target => cases h
  | file t hs => cases h; rfl
  | hunk t hs n acc => cases h; rfl

/-- A header closes the hunk before it. -/
theorem step_header {p : Parser} {patch : FilePatch} {line : Str}
    (h : p.mode.closed = some patch) (hline : (isHunkHeader line || isOldHeader line) = true) :
    p.step line = fileLine p.patches patch.target patch.hunks line := by
  obtain ⟨ps, mode⟩ := p
  cases mode with
  | outside => cases h
  | target => cases h
  | file t hs => cases h; rfl
  | hunk t hs n acc =>
      cases h
      simp only [Parser.step, hline, if_true]

theorem header_isHunkHeader (e : Edit) (b nb : Nat) :
    isHunkHeader (stripReturn (e.header b nb)) = true := by
  rw [isHunkHeader, isPrefixOf_stripReturn (by decide)]
  rfl

theorem header_isOldHeader (e : Edit) (b nb : Nat) :
    isOldHeader (stripReturn (e.header b nb)) = false := by
  rw [isOldHeader, isPrefixOf_stripReturn (by decide)]
  rfl

/-- The hunks of a file are read while their numbers are in range. -/
theorem foldlM_edits {edits : List Edit} (hc : ∀ e ∈ edits, ∀ c ∈ e.changes, c.headerLike = false)
    {p : Parser} {patch : FilePatch} (h : p.mode.closed = some patch) (b nb : Nat) :
    (∀ n ∈ oldStarts b edits, n < 2 ^ 64) ∧
        (∃ q, ((showEdits b nb edits).map stripReturn).foldlM Parser.step p = .ok q ∧
          q.patches = p.patches ∧
          q.mode.closed = some { patch with hunks := patch.hunks ++ parsedHunks b edits } ∧
          (edits ≠ [] → q.mode.place = .hunk)) ∨
      ¬(∀ n ∈ oldStarts b edits, n < 2 ^ 64) ∧
        ∃ e, ((showEdits b nb edits).map stripReturn).foldlM Parser.step p = .error e := by
  induction edits generalizing p patch b nb with
  | nil => exact .inl ⟨by simp [oldStarts, parsedHunks], p, rfl, rfl, by simpa [parsedHunks] using h,
      fun hne => absurd rfl hne⟩
  | cons e edits ih =>
      have hheader := header_isHunkHeader e (b + e.gap.length) (nb + e.gap.length)
      have hstep : p.step (stripReturn (e.header (b + e.gap.length) (nb + e.gap.length))) =
          if Edit.start (b + e.gap.length) e.old.length < 2 ^ 64 then
            .ok ⟨p.patches, .hunk patch.target patch.hunks
              (Edit.start (b + e.gap.length) e.old.length) []⟩
          else malformed (.badHunkHeader
            (stripReturn (e.header (b + e.gap.length) (nb + e.gap.length)))) := by
        rw [step_header h (by simp [hheader]), fileLine, header_isOldHeader, hheader,
          parseOldStart_header]
        simp only [Bool.false_eq_true, if_false, if_true]
        split
        · rfl
        · rfl
      have hstarts : oldStarts b (e :: edits) = Edit.start (b + e.gap.length) e.old.length ::
          oldStarts (b + e.gap.length + e.old.length) edits := rfl
      have hlines : (showEdits b nb (e :: edits)).map stripReturn =
          stripReturn (e.header (b + e.gap.length) (nb + e.gap.length)) ::
            ((e.changes.flatMap Change.shown).map stripReturn ++
              (showEdits (b + e.gap.length + e.old.length) (nb + e.gap.length + e.new.length)
                edits).map stripReturn) := by
        simp [showEdits]
      rw [hlines, List.foldlM_cons, hstep, hstarts]
      by_cases hlt : Edit.start (b + e.gap.length) e.old.length < 2 ^ 64
      · rw [if_pos hlt]
        simp only [bind, Except.bind, List.foldlM_append,
          foldlM_changes (hc e (by simp)), List.nil_append]
        have hrest := ih (fun e' he' => hc e' (List.mem_cons_of_mem _ he'))
          (p := ⟨p.patches, .hunk patch.target patch.hunks
            (Edit.start (b + e.gap.length) e.old.length) (e.changes.map Change.parsed)⟩)
          rfl (b + e.gap.length + e.old.length) (nb + e.gap.length + e.new.length)
        rcases hrest with ⟨hall, q, hq, hpatches, hclosed, hplace⟩ | ⟨hnot, hfail⟩
        · left
          refine ⟨List.forall_mem_cons.mpr ⟨hlt, hall⟩, q, hq, hpatches, ?_, ?_⟩
          · rw [hclosed]
            simp [parsedHunks]
          · intro _
            by_cases hne : edits = []
            · subst hne
              cases hq
              rfl
            · exact hplace hne
        · right
          exact ⟨fun hall => hnot fun n hn => hall n (List.mem_cons_of_mem _ hn), hfail⟩
      · right
        rw [if_neg hlt]
        exact ⟨fun hall => hlt (hall _ (by simp)), _, rfl⟩

/-! ## One file -/

/-- The path that the label of the new text names. -/
def FileDiff.target (d : FileDiff) : Result Str :=
  normalizePatchPath (trimStartMatches (lit "+++ ") d.newHeader)

/-- What is required of the headers of a file. -/
structure FileDiff.Readable (d : FileDiff) : Prop where
  label : d.target.isOk = true
  starts : ∀ n ∈ oldStarts 0 d.edits, n < 2 ^ 64

/-- The patch that a file is read as. -/
structure FileDiff.ReadAs (d : FileDiff) (patch : FilePatch) : Prop where
  target : d.target = .ok patch.target
  hunks : patch.hunks = parsedHunks 0 d.edits

/-- At the start of a text or behind a file. -/
def Between (p : Parser) : Prop := p = ⟨[], .outside⟩ ∨ p.mode.place = .hunk

theorem closed_of_hunk {p : Parser} (h : p.mode.place = .hunk) :
    ∃ patch, p.mode.closed = some patch := by
  obtain ⟨ps, mode⟩ := p
  cases mode with
  | outside => cases h
  | target => cases h
  | file t hs => cases h
  | hunk t hs n acc => exact ⟨_, rfl⟩

theorem step_oldHeader (d : FileDiff) {p : Parser} (hp : Between p) :
    p.step (stripReturn d.oldHeader) = .ok ⟨p.collected, .target⟩ := by
  have hheader : isOldHeader (stripReturn d.oldHeader) = true := by
    rw [isOldHeader, isPrefixOf_stripReturn (by decide)]
    exact List.isPrefixOf_iff_prefix.mpr (List.prefix_append _ _)
  rcases hp with rfl | hplace
  · simp [Parser.step, hheader, Parser.collected]
  · obtain ⟨patch, hclosed⟩ := closed_of_hunk hplace
    rw [step_header hclosed (by simp [hheader]), fileLine, hheader, if_pos rfl,
      collected_of_closed hclosed]

theorem step_newHeader (d : FileDiff) (ps : List FilePatch) :
    Parser.step ⟨ps, .target⟩ (stripReturn d.newHeader) =
      d.target >>= fun t => .ok ⟨ps, .file t []⟩ := by
  have hplain : stripReturn d.newHeader = d.newHeader := by
    have hprefix : '\r' ∉ lit "+++ " := by decide
    apply stripReturn_of_notMem
    intro hmem
    rcases List.mem_append.mp hmem with h | h
    · exact hprefix h
    · exact d.newLabel_line.2 h
  have hheader : isNewHeader d.newHeader = true :=
    List.isPrefixOf_iff_prefix.mpr (List.prefix_append _ _)
  rw [hplain]
  simp [Parser.step, hheader, FileDiff.target]

/-- Before the first file, the lines of a tool are skipped; in a hunk they are refused. -/
theorem foldlM_preamble (d : FileDiff) {p : Parser} (hp : Between p) :
    (p.mode.place = .hunk → d.preamble = []) ∧
        (d.preamble.map stripReturn).foldlM Parser.step p = .ok p ∨
      ¬(p.mode.place = .hunk → d.preamble = []) ∧
        ∃ e, (d.preamble.map stripReturn).foldlM Parser.step p = .error e := by
  have hword : ∀ line ∈ d.preamble, ∃ c rest, stripReturn line = c :: rest ∧ c.isAlpha = true := by
    intro line hline
    have halpha := (d.preamble_word line hline).2
    cases line with
    | nil => cases halpha
    | cons c rest =>
        have hc : c.isAlpha = true := by simpa using halpha
        have hne : ([c] : Str).getLast? ≠ some '\r' := by
          intro heq
          have : c = '\r' := by simpa using heq
          subst this
          exact absurd hc (by decide)
        exact ⟨c, stripReturn rest, stripReturn_append (b := rest) hne, hc⟩
  have hheader : ∀ {c : Char} {rest : Str}, c.isAlpha = true →
      isOldHeader (c :: rest) = false ∧ isHunkHeader (c :: rest) = false := by
    intro c rest hc
    have hhyphen : c ≠ '-' := by rintro rfl; exact absurd hc (by decide)
    have hat : c ≠ '@' := by rintro rfl; exact absurd hc (by decide)
    exact ⟨by simpa [isOldHeader, lit, List.isPrefixOf] using fun h => absurd h.symm hhyphen,
      by simpa [isHunkHeader, lit, List.isPrefixOf] using fun h => absurd h.symm hat⟩
  rcases hp with rfl | hplace
  · left
    refine ⟨(fun h => by cases h), Folds.same fun line hline => ?_⟩
    obtain ⟨shown, hshown, rfl⟩ := List.mem_map.mp hline
    obtain ⟨c, rest, heq, hc⟩ := hword shown hshown
    rw [heq]
    simp [Parser.step, (hheader hc).1]
  · cases hpreamble : d.preamble with
    | nil => exact .inl ⟨fun _ => rfl, rfl⟩
    | cons line more =>
        right
        obtain ⟨c, rest, heq, hc⟩ := hword line (by simp [hpreamble])
        have hkind : c ∉ ['\\', ' ', '-', '+'] := by
          intro hmem
          simp only [List.mem_cons, List.not_mem_nil, or_false] at hmem
          rcases hmem with rfl | rfl | rfl | rfl
          · exact absurd hc (by decide)
          · exact absurd hc (by decide)
          · exact absurd hc (by decide)
          · exact absurd hc (by decide)
        have hrefused : isHunkLine (c :: rest) = false := by
          simp only [List.mem_cons, List.not_mem_nil, or_false, not_or] at hkind
          have hmark : (c :: rest) ≠ noNewline := fun h => hkind.1 (List.cons.inj h).1
          simp [isHunkLine, hmark, hkind]
        have hafter : p.mode.place.after (c :: rest) = none := by
          rw [hplace, Place.after, Place.within, (hheader hc).1, (hheader hc).2, hrefused]
          rfl
        have hfail : ∃ e, p.step (c :: rest) = .error e := by
          have hstep := step_stepped p (c :: rest)
          generalize p.step (c :: rest) = outcome at hstep
          cases hstep with
          | moved h => rw [hafter] at h; cases h
          | refused h => exact ⟨_, rfl⟩
          | panicked h h' => exact ⟨_, rfl⟩
        obtain ⟨e, he⟩ := hfail
        refine ⟨fun h => by simpa using h hplace, e, ?_⟩
        rw [List.map_cons, List.foldlM_cons, heq, he]
        rfl

/-- Whether no removed line of a file looks like a file header. -/
def FileDiff.Unmistakable (d : FileDiff) : Prop :=
  ∀ e ∈ d.edits, ∀ c ∈ e.changes, c.headerLike = false

theorem foldlM_file {d : FileDiff} (hd : d.Unmistakable) {p : Parser} (hp : Between p) :
    ((p.mode.place = .hunk → d.preamble = []) ∧ d.Readable) ∧
        (∃ q patch, (d.shown.map stripReturn).foldlM Parser.step p = .ok q ∧
          q.collected = p.collected ++ [patch] ∧ d.ReadAs patch ∧ q.mode.place = .hunk) ∨
      ¬((p.mode.place = .hunk → d.preamble = []) ∧ d.Readable) ∧
        ∃ e, (d.shown.map stripReturn).foldlM Parser.step p = .error e := by
  have hlines : d.shown.map stripReturn = d.preamble.map stripReturn ++
      stripReturn d.oldHeader :: stripReturn d.newHeader ::
        (showEdits 0 0 d.edits).map stripReturn := by
    simp [FileDiff.shown]
  rw [hlines, List.foldlM_append]
  rcases foldlM_preamble d hp with ⟨hpreamble, hfold⟩ | ⟨hpreamble, e, hfold⟩
  · simp only [hfold, bind, Except.bind, List.foldlM_cons, step_oldHeader d hp,
      step_newHeader d p.collected]
    cases htarget : d.target with
    | error e =>
        right
        exact ⟨fun h => by simpa [htarget, Except.isOk, Except.toBool] using h.2.label, e, rfl⟩
    | ok t =>
        have hopen : Mode.closed (.file t []) = some ⟨t, []⟩ := rfl
        rcases foldlM_edits hd (p := ⟨p.collected, .file t []⟩) hopen 0 0 with
          ⟨hstarts, q, hq, hpatches, hclosed, hplace⟩ | ⟨hstarts, e, he⟩
        · left
          refine ⟨⟨hpreamble, ⟨by simp [htarget, Except.isOk, Except.toBool], hstarts⟩⟩, q,
            ⟨t, parsedHunks 0 d.edits⟩, hq, ?_, ⟨htarget, rfl⟩, hplace d.edits_ne⟩
          rw [collected_of_closed hclosed, hpatches]
          rfl
        · right
          exact ⟨fun h => hstarts h.2.starts, e, he⟩
  · right
    exact ⟨fun h => hpreamble h.1, e, by rw [hfold]; rfl⟩

/-! ## Several files -/

/-- What is required of the headers of a diff; `inside` says whether it continues another. -/
structure HeadersReadable (inside : Prop) (ds : List FileDiff) : Prop where
  first : inside → ∀ d ∈ ds, d.preamble = []
  later : ∀ d ∈ ds.tail, d.preamble = []
  files : ∀ d ∈ ds, d.Readable

theorem foldlM_files {ds : List FileDiff} (hds : ∀ d ∈ ds, d.Unmistakable) {p : Parser}
    (hp : Between p) :
    HeadersReadable (p.mode.place = .hunk) ds ∧
        (∃ q patches, ((ds.flatMap FileDiff.shown).map stripReturn).foldlM Parser.step p = .ok q ∧
          q.collected = p.collected ++ patches ∧ List.Forall₂ FileDiff.ReadAs ds patches ∧
          Between q) ∨
      ¬HeadersReadable (p.mode.place = .hunk) ds ∧
        ∃ e, ((ds.flatMap FileDiff.shown).map stripReturn).foldlM Parser.step p = .error e := by
  induction ds generalizing p with
  | nil => exact .inl ⟨⟨by simp, by simp, by simp⟩, p, [], rfl, by simp, .nil, hp⟩
  | cons d ds ih =>
      rw [List.flatMap_cons, List.map_append, List.foldlM_append]
      rcases foldlM_file (hds d (by simp)) hp with
        ⟨⟨hpreamble, hd⟩, q, patch, hq, hcollected, hread, hplace⟩ | ⟨hnot, e, he⟩
      · rw [hq]
        simp only [bind, Except.bind]
        -- behind a file the parser is in a hunk
        have hlater : HeadersReadable (p.mode.place = .hunk) (d :: ds) ↔
            HeadersReadable (q.mode.place = .hunk) ds := by
          constructor
          · intro h
            exact ⟨fun _ => h.later, fun d' h' => h.later d' (List.mem_of_mem_tail h'),
              fun d' h' => h.files d' (List.mem_cons_of_mem _ h')⟩
          · intro h
            refine ⟨fun hp d' h' => ?_, h.first hplace, List.forall_mem_cons.mpr ⟨hd, h.files⟩⟩
            rcases List.mem_cons.mp h' with rfl | h'
            · exact hpreamble hp
            · exact h.first hplace d' h'
        rw [hlater]
        rcases ih (fun d' h' => hds d' (List.mem_cons_of_mem _ h')) (.inr hplace) with
          ⟨hall, r, patches, hr, hrest, hreads, hbetween⟩ | hfail
        · left
          exact ⟨hall, r, patch :: patches, hr, by rw [hrest, hcollected]; simp,
            .cons hread hreads, hbetween⟩
        · exact .inr hfail
      · right
        exact ⟨fun h => hnot ⟨fun hp => h.first hp d (by simp), h.files d (by simp)⟩, e,
          by rw [he]; rfl⟩

/-! ## Lines without line feeds inside -/

theorem body_of_isLines {l : List Str} (h : IsLines l) {line : Str} (hline : line ∈ l) :
    '\n' ∉ body line := by
  induction h with
  | nil => cases hline
  | last hne hbody =>
      obtain rfl := List.mem_singleton.mp hline
      unfold body
      split
      · exact fun hmem => hbody ((List.dropLast_prefix _).subset hmem)
      · exact hbody
  | cons hfirst hrest ih =>
      rcases List.mem_cons.mp hline with rfl | hin
      · obtain ⟨front, hfront, rfl⟩ := hfirst
        simpa [body] using hfront
      · exact ih hin

theorem FileDiff.line_mem (d : FileDiff) {e : Edit} (he : e ∈ d.edits) {c : Change}
    (hc : c ∈ e.changes) :
    c.line ∈ oldLines d.edits d.rest ∨ c.line ∈ newLines d.edits d.rest := by
  have hold : ∀ {line : Str}, line ∈ c.old → line ∈ oldLines d.edits d.rest := by
    intro line hline
    refine List.mem_append_left _ (List.mem_flatMap.mpr ⟨e, he, List.mem_append_right _ ?_⟩)
    exact List.mem_flatMap.mpr ⟨c, hc, hline⟩
  have hnew : ∀ {line : Str}, line ∈ c.new → line ∈ newLines d.edits d.rest := by
    intro line hline
    refine List.mem_append_left _ (List.mem_flatMap.mpr ⟨e, he, List.mem_append_right _ ?_⟩)
    exact List.mem_flatMap.mpr ⟨c, hc, hline⟩
  cases c with
  | keep line => exact .inl (hold (by simp [Change.old, Change.line]))
  | remove line => exact .inl (hold (by simp [Change.old, Change.line]))
  | add line => exact .inr (hnew (by simp [Change.new, Change.line]))

theorem newline_notMem_header {e : Edit} (h : '\n' ∉ e.heading) (b nb : Nat) :
    '\n' ∉ e.header b nb := by
  have hrange : ∀ before count, '\n' ∉ e.range before count := by
    intro before count hmem
    rcases range_plain hmem with h | h
    · exact absurd h (by decide)
    · exact absurd h (by decide)
  simp [Edit.header, lit, hrange, h]

theorem newline_notMem_shown {c : Change} (h : '\n' ∉ body c.line) :
    ∀ line ∈ c.shown, '\n' ∉ line := by
  have hmark : '\n' ∉ noNewline := by decide
  have hkind : '\n' ≠ c.kind := fun heq => c.kind_ne (by decide) heq.symm
  unfold Change.shown
  intro line hline
  rcases List.mem_cons.mp hline with rfl | hline
  · simp [hkind, h]
  · split at hline
    · cases hline
    · obtain rfl := List.mem_singleton.mp hline
      exact hmark

theorem mem_showEdits {b nb : Nat} {edits : List Edit} {line : Str}
    (h : line ∈ showEdits b nb edits) : ∃ e ∈ edits,
      (∃ b nb, line = e.header b nb) ∨ ∃ c ∈ e.changes, line ∈ c.shown := by
  induction edits generalizing b nb with
  | nil => cases h
  | cons e edits ih =>
      simp only [showEdits, List.mem_cons, List.mem_append, List.cons_append] at h
      rcases h with rfl | h | h
      · exact ⟨e, by simp, .inl ⟨_, _, rfl⟩⟩
      · exact ⟨e, by simp, .inr (List.mem_flatMap.mp h)⟩
      · obtain ⟨e', he', hline⟩ := ih h
        exact ⟨e', List.mem_cons_of_mem _ he', hline⟩

theorem FileDiff.newline_notMem (d : FileDiff) : ∀ line ∈ d.shown, '\n' ∉ line := by
  have hbody : ∀ e ∈ d.edits, ∀ c ∈ e.changes, '\n' ∉ body c.line := by
    intro e he c hc
    rcases d.line_mem he hc with h | h
    · exact body_of_isLines d.old_isLines h
    · exact body_of_isLines d.new_isLines h
  have hmarks : '\n' ∉ lit "--- " ∧ '\n' ∉ lit "+++ " := by decide
  intro line hline
  rcases List.mem_append.mp hline with hline | hline
  · exact (d.preamble_word line hline).1
  rcases List.mem_cons.mp hline with rfl | hline
  · simp [FileDiff.oldHeader, hmarks, d.oldLabel_line]
  rcases List.mem_cons.mp hline with rfl | hline
  · simp [FileDiff.newHeader, hmarks, d.newLabel_line]
  obtain ⟨e, he, ⟨b, nb, rfl⟩ | ⟨c, hc, hshown⟩⟩ := mem_showEdits hline
  · exact newline_notMem_header (d.heading_line e he) b nb
  · exact newline_notMem_shown (hbody e he c hc) line hshown

theorem lines_render (ds : List FileDiff) :
    lines (render ds) = (ds.flatMap FileDiff.shown).map stripReturn := by
  refine lines_unlines fun line hline => ?_
  obtain ⟨d, -, hshown⟩ := List.mem_flatMap.mp hline
  exact d.newline_notMem line hshown

/-! ## The number of patches -/

/-- The files opened so far. -/
def Parser.opened (p : Parser) : Nat :=
  p.patches.length + if p.mode.place = .outside then 0 else 1

theorem fileLine_opened {ps : List FilePatch} {t : Str} {hs : List Hunk} {line : Str}
    {p : Parser} (h : fileLine ps t hs line = .ok p) :
    p.opened = ps.length + 1 + if isOldHeader line then 1 else 0 := by
  unfold fileLine at h
  split at h
  · rename_i hold
    cases h
    simp [Parser.opened, Mode.place, hold]
  · rename_i hold
    split at h
    · obtain ⟨n, -, h⟩ := Except.bind_eq_ok.mp h
      cases h
      simp [Parser.opened, Mode.place, hold]
    · cases h
      simp [Parser.opened, Mode.place, hold]

/-- Every file header opens a file, and nothing else does. -/
theorem step_opened {p p' : Parser} {line : Str} (h : p.step line = .ok p') :
    p'.opened = p.opened + if isOldHeader line then 1 else 0 := by
  obtain ⟨ps, mode⟩ := p
  cases mode with
  | outside =>
      simp only [Parser.step] at h
      split at h
      · rename_i hold
        cases h
        simp [Parser.opened, Mode.place, hold]
      · rename_i hold
        cases h
        simp [Parser.opened, Mode.place, hold]
  | target =>
      simp only [Parser.step] at h
      split at h
      · rename_i hnew
        obtain ⟨t, -, h⟩ := Except.bind_eq_ok.mp h
        cases h
        have hold : isOldHeader line = false := by
          obtain ⟨rest, rfl⟩ := List.isPrefixOf_iff_prefix.mp hnew
          rfl
        simp [Parser.opened, Mode.place, hold]
      · cases h
  | file t hs => exact fileLine_opened h
  | hunk t hs n acc =>
      simp only [Parser.step] at h
      split at h
      · exact fileLine_opened h
      · rename_i hheader
        have hold : isOldHeader line = false := by simp_all
        obtain ⟨read, -, h⟩ := Except.bind_eq_ok.mp h
        cases h
        simp [Parser.opened, Mode.place, hold]

theorem foldlM_opened {ls : List Str} {p q : Parser} (h : ls.foldlM Parser.step p = .ok q) :
    q.opened = p.opened + ls.countP isOldHeader := by
  induction ls generalizing p with
  | nil => cases h; rfl
  | cons line ls ih =>
      rw [List.foldlM_cons] at h
      obtain ⟨p', hstep, h⟩ := Except.bind_eq_ok.mp h
      rw [ih h, step_opened hstep, List.countP_cons]
      omega

/-- A text is read as one patch for each of its lines that look like a file header. -/
theorem parsePatch_length {text : Str} {patches : List FilePatch}
    (h : parsePatch text = .ok patches) :
    patches.length = (lines text).countP isOldHeader := by
  obtain ⟨q, hq, hfinish⟩ := Except.bind_eq_ok.mp h
  have hopened := foldlM_opened hq
  have hcollected : patches.length = q.opened := by
    obtain ⟨ps, mode⟩ := q
    unfold Parser.finish at hfinish
    split at hfinish
    · cases hfinish
    · rename_i htarget
      split at hfinish
      · cases hfinish
      · cases hfinish
        cases mode with
        | outside => simp [Parser.collected, Parser.opened, Mode.place]
        | target => exact absurd rfl htarget
        | file t hs => simp [Parser.collected, Parser.opened, Mode.place]
        | hunk t hs n acc => simp [Parser.collected, Parser.opened, Mode.place]
  rw [hcollected, hopened]
  simp [Parser.opened, Mode.place]

theorem firstShown_mem {b nb : Nat} {edits : List Edit} {e : Edit} (he : e ∈ edits) {c : Change}
    (hc : c ∈ e.changes) : c.firstShown ∈ (showEdits b nb edits).map stripReturn := by
  induction edits generalizing b nb with
  | nil => cases he
  | cons first edits ih =>
      simp only [showEdits, List.map_cons, List.map_append, List.cons_append, List.mem_cons,
        List.mem_append]
      rcases List.mem_cons.mp he with rfl | he
      · right; left
        have hshown : c.firstShown ∈ c.shown.map stripReturn := by
          rw [Change.shown_stripped]
          exact List.mem_cons_self
        obtain ⟨line, hline, heq⟩ := List.mem_map.mp hshown
        exact heq ▸ List.mem_map_of_mem (List.mem_flatMap.mpr ⟨c, hc, hline⟩)
      · exact .inr (.inr (ih he))

theorem countP_shown (d : FileDiff) : 1 ≤ (d.shown.map stripReturn).countP isOldHeader ∧
    (¬d.Unmistakable → 2 ≤ (d.shown.map stripReturn).countP isOldHeader) := by
  have hheader : isOldHeader (stripReturn d.oldHeader) = true := by
    rw [isOldHeader, isPrefixOf_stripReturn (by decide)]
    exact List.isPrefixOf_iff_prefix.mpr (List.prefix_append _ _)
  have hlines : d.shown.map stripReturn = d.preamble.map stripReturn ++
      stripReturn d.oldHeader :: stripReturn d.newHeader ::
        (showEdits 0 0 d.edits).map stripReturn := by
    simp [FileDiff.shown]
  rw [hlines, List.countP_append, List.countP_cons_of_pos hheader, List.countP_cons]
  refine ⟨by omega, fun hmistakable => ?_⟩
  unfold FileDiff.Unmistakable at hmistakable
  push Not at hmistakable
  obtain ⟨e, he, c, hc, hlike⟩ := hmistakable
  have hpos : 0 < ((showEdits 0 0 d.edits).map stripReturn).countP isOldHeader := by
    refine List.countP_pos_iff.mpr ⟨c.firstShown, firstShown_mem he hc, ?_⟩
    rw [isOldHeader_firstShown]
    simpa using hlike
  omega

/-- More file headers than files, when a removed line looks like one. -/
theorem countP_files {ds : List FileDiff} :
    ds.length ≤ ((ds.flatMap FileDiff.shown).map stripReturn).countP isOldHeader ∧
      ((∃ d ∈ ds, ¬d.Unmistakable) →
        ds.length < ((ds.flatMap FileDiff.shown).map stripReturn).countP isOldHeader) := by
  induction ds with
  | nil => simp
  | cons d ds ih =>
      have hd := countP_shown d
      rw [List.flatMap_cons, List.map_append, List.countP_append, List.length_cons]
      refine ⟨by omega, fun hmistakable => ?_⟩
      obtain ⟨d', hd', hnot⟩ := hmistakable
      rcases List.mem_cons.mp hd' with rfl | hin
      · have := hd.2 hnot
        omega
      · have := ih.2 ⟨d', hin, hnot⟩
        omega

/-! ## Reading a diff -/

theorem between_finish {q : Parser} (h : Between q) :
    q.finish = if q.collected.isEmpty then .error (.error .empty) else .ok q.collected := by
  have htarget : q.mode ≠ .target := by
    rcases h with rfl | hplace
    · simp
    · rintro heq
      rw [heq] at hplace
      cases hplace
  rw [Parser.finish, if_neg htarget]

/-- What the reader makes of a diff whose lines are told apart from its headers. -/
theorem parsePatch_render {ds : List FileDiff} (hds : ∀ d ∈ ds, d.Unmistakable) :
    (ds ≠ [] ∧ HeadersReadable False ds) ∧
        (∃ patches, parsePatch (render ds) = .ok patches ∧
          List.Forall₂ FileDiff.ReadAs ds patches) ∨
      ¬(ds ≠ [] ∧ HeadersReadable False ds) ∧ ∃ e, parsePatch (render ds) = .error e := by
  have hinside : ((⟨[], .outside⟩ : Parser).mode.place = .hunk) ↔ False := by
    simp [Mode.place]
  have hfold := foldlM_files hds (p := ⟨[], .outside⟩) (.inl rfl)
  rw [hinside, ← lines_render] at hfold
  unfold parsePatch Parser.run
  rcases hfold with ⟨hread, q, patches, hq, hcollected, hreads, hbetween⟩ | ⟨hnot, e, he⟩
  · have hpatches : q.collected = patches := by simpa [Parser.collected] using hcollected
    simp only [hq, bind, Except.bind, between_finish hbetween, hpatches]
    cases hreads with
    | nil => exact .inr ⟨fun h => h.1 rfl, _, rfl⟩
    | cons hfirst hrest => exact .inl ⟨⟨by simp, hread⟩, _, rfl, .cons hfirst hrest⟩
  · exact .inr ⟨fun h => hnot h.2, e, by rw [he]; rfl⟩

/-- A diff is read as one patch for each of its files exactly when its headers can be read
and no line is taken for a header. -/
theorem parsePatch_render_iff (ds : List FileDiff) :
    (∃ patches, parsePatch (render ds) = .ok patches ∧ patches.length = ds.length) ↔
      (ds ≠ [] ∧ HeadersReadable False ds) ∧ ∀ d ∈ ds, d.Unmistakable := by
  constructor
  · intro ⟨patches, hparse, hlength⟩
    have hunmistakable : ∀ d ∈ ds, d.Unmistakable := by
      by_contra hnot
      push Not at hnot
      have hcount := countP_files.2 hnot
      have hpatches := parsePatch_length hparse
      rw [lines_render] at hpatches
      omega
    rcases parsePatch_render hunmistakable with ⟨hread, -⟩ | ⟨-, e, he⟩
    · exact ⟨hread, hunmistakable⟩
    · rw [he] at hparse
      cases hparse
  · intro ⟨hread, hunmistakable⟩
    rcases parsePatch_render hunmistakable with ⟨-, patches, hparse, hreads⟩ | ⟨hnot, -⟩
    · exact ⟨patches, hparse, hreads.length_eq.symm⟩
    · exact absurd hread hnot

end Patch
end Bpm
