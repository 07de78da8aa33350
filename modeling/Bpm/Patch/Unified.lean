import Bpm.Patch.Accepted

/-!
# Applying a unified diff

A hunk whose old range is empty stands behind the line that its header names, but the code
goes to the line before that one, as for other hunks; the lines are then added before the
last line of the gap instead of behind it.  With this in mind, the output of the code is
computed hunk by hunk and compared with the new text.
-/

namespace Bpm

open Text Lines

namespace Patch

/-- Lines that are read as they are. -/
def Plain (line : Str) : Prop := readLine line = line

namespace Edit

/-- The lines that the code writes for a hunk. -/
def written (e : Edit) : List Str := e.new.map readLine

/-- What the code makes of the gap and the hunk behind it. -/
def applied (e : Edit) : List Str :=
  if e.old = [] then e.gap.dropLast ++ e.written ++ e.gap.getLast?.toList
  else e.gap ++ e.written

end Edit

theorem expectLine_found {path : Str} {original : List Str} {k : Nat} {line : Str}
    {more : List Str} (h : line :: more <+: original.drop k) (expected : Str) :
    expectLine path original k expected =
      if line = expected then .ok () else mismatch path (k + 1) := by
  obtain ⟨post, hpost⟩ := h
  have hline : original[k]? = some line := by
    rw [← List.head?_drop, ← hpost]
    rfl
  unfold expectLine
  rw [hline]
  by_cases heq : line = expected
  · simp [heq]
  · simp [heq]

theorem drop_of_cons {original : List Str} {k : Nat} {line : Str} {more : List Str}
    (h : line :: more <+: original.drop k) : more <+: original.drop (k + 1) := by
  obtain ⟨post, hpost⟩ := h
  refine ⟨post, ?_⟩
  rw [← List.drop_drop, ← hpost]
  rfl

/-- The lines of a hunk are applied when the lines it keeps and removes are read as they
are. -/
theorem foldlM_applyLine (path : Str) {original : List Str} {changes : List Change}
    (out : List Str) {k : Nat} (h : changes.flatMap Change.old <+: original.drop k) :
    (∀ line ∈ changes.flatMap Change.old, Plain line) ∧
        (changes.map Change.parsed).foldlM (applyLine path original) ⟨out, k⟩ =
          .ok ⟨out ++ (changes.flatMap Change.new).map readLine,
            k + (changes.flatMap Change.old).length⟩ ∨
      ¬(∀ line ∈ changes.flatMap Change.old, Plain line) ∧
        ∃ e, (changes.map Change.parsed).foldlM (applyLine path original) ⟨out, k⟩ =
          .error e := by
  induction changes generalizing out k with
  | nil => exact .inl ⟨by simp, by simp [pure, Except.pure]⟩
  | cons c changes ih =>
      -- a line of the old text has to be found; an added one need not be
      have hmatch : ∀ (line : Str) (out' : List Str),
          line :: changes.flatMap Change.old <+: original.drop k →
          (∀ l ∈ line :: changes.flatMap Change.old, Plain l) ∧
            ((expectLine path original k (readLine line) >>= fun _ =>
              Except.ok (Progress.mk out' (k + 1))) >>= fun p =>
              (changes.map Change.parsed).foldlM (applyLine path original) p) =
              .ok ⟨out' ++ (changes.flatMap Change.new).map readLine,
                k + (line :: changes.flatMap Change.old).length⟩ ∨
          ¬(∀ l ∈ line :: changes.flatMap Change.old, Plain l) ∧
            ∃ e, ((expectLine path original k (readLine line) >>= fun _ =>
              Except.ok (Progress.mk out' (k + 1))) >>= fun p =>
              (changes.map Change.parsed).foldlM (applyLine path original) p) = .error e := by
        intro line out' hprefix
        rw [expectLine_found hprefix]
        by_cases hplain : line = readLine line
        · rw [if_pos hplain]
          rcases ih out' (drop_of_cons hprefix) with ⟨hall, hfold⟩ | ⟨hnot, hfail⟩
          · left
            refine ⟨List.forall_mem_cons.mpr ⟨hplain.symm, hall⟩, ?_⟩
            simp only [bind, Except.bind, hfold, List.length_cons]
            congr 2
            omega
          · right
            exact ⟨fun hall => hnot fun l hl => hall l (List.mem_cons_of_mem _ hl), hfail⟩
        · rw [if_neg hplain]
          exact .inr ⟨fun hall => hplain (hall line (by simp)).symm, _, rfl⟩
      rw [List.map_cons, List.foldlM_cons, List.flatMap_cons, List.flatMap_cons]
      rw [List.flatMap_cons] at h
      cases c with
      | keep line =>
          have := hmatch line (out ++ [readLine line]) h
          simpa [Change.old, Change.new, Change.parsed, applyLine] using this
      | remove line =>
          have := hmatch line out h
          simpa [Change.old, Change.new, Change.parsed, applyLine] using this
      | add line =>
          have := ih (out ++ [readLine line]) h
          simpa [Change.old, Change.new, Change.parsed, applyLine, bind, Except.bind] using this

theorem slice_take {L : List Str} {k stop : Nat} (hk : k ≤ stop) (hstop : stop ≤ L.length) :
    slice L k stop = .ok ((L.take stop).drop k) := by
  rw [slice, if_pos ⟨hk, hstop⟩, List.drop_take]

theorem dropLast_getLast {α : Type} (l : List α) : l.dropLast ++ l.getLast?.toList = l := by
  cases h : l.getLast? with
  | none => simp [List.getLast?_eq_none_iff.mp h]
  | some a => exact List.dropLast_append_getLast? a h

/-- The hunk that an edit behind `before` lines is read as. -/
def Edit.parsed (e : Edit) (before : Nat) : Hunk :=
  ⟨Edit.start (before + e.gap.length) e.old.length, e.changes.map Change.parsed⟩

/-- What a hunk leaves: an output that the unread rest of the gap completes. -/
structure Caught (pre out : List Str) (p : Progress) : Prop where
  inside : p.cursor ≤ pre.length
  output : p.output ++ pre.drop p.cursor = out

theorem applyHunk_parsed (path : Str) {pre out : List Str} (post : List Str) {e : Edit}
    {p : Progress} (hp : Caught pre out p) (hgap : e.gap ≠ [] ∨ pre = []) :
    (∀ line ∈ e.old, Plain line) ∧
        (∃ q, applyHunk path (pre ++ e.gap ++ e.old ++ post) p (e.parsed pre.length) = .ok q ∧
          Caught (pre ++ e.gap ++ e.old) (out ++ e.applied) q) ∨
      ¬(∀ line ∈ e.old, Plain line) ∧
        ∃ f, applyHunk path (pre ++ e.gap ++ e.old ++ post) p (e.parsed pre.length) = .error f := by
  obtain ⟨hinside, hout⟩ := hp
  generalize hL : pre ++ e.gap ++ e.old ++ post = L
  -- the part of the gap that is copied before the hunk, and the rest of it
  obtain ⟨copied, left, hsplit, hstop, hstop', happlied⟩ : ∃ copied left : List Str,
      e.gap = copied ++ left ∧
      (e.parsed pre.length).oldStart - 1 = pre.length + copied.length ∧
      (e.old = [] ∨ left = []) ∧
      e.applied = copied ++ e.written ++ left := by
    by_cases hold : e.old = []
    · refine ⟨e.gap.dropLast, e.gap.getLast?.toList, ?_, ?_, .inl hold, ?_⟩
      · exact (dropLast_getLast e.gap).symm
      · rcases hgap with hgap | rfl
        · have hpos := List.length_pos_iff.mpr hgap
          simp only [Edit.parsed, Edit.start, hold, List.length_nil, if_true,
            List.length_dropLast]
          omega
        · simp [Edit.parsed, Edit.start, hold]
      · rw [Edit.applied, if_pos hold]
    · refine ⟨e.gap, [], (List.append_nil _).symm, ?_, .inr rfl, ?_⟩
      · have hne : e.old.length ≠ 0 := by simpa using hold
        simp [Edit.parsed, Edit.start, hne]
      · rw [Edit.applied, if_neg hold, List.append_nil]
  have hstart : pre.length + copied.length ≤ L.length := by
    rw [← hL, hsplit]
    simp only [List.length_append]
    omega
  have htake : L.take (pre.length + copied.length) = pre ++ copied := by
    have : L = (pre ++ copied) ++ (left ++ e.old ++ post) := by
      rw [← hL, hsplit]
      simp
    rw [this, ← List.length_append, List.take_left]
  have hcopy : (pre ++ copied).drop p.cursor = pre.drop p.cursor ++ copied :=
    List.drop_append_of_le_length hinside
  have hprefix : e.old <+: L.drop (pre.length + copied.length) := by
    rcases hstop' with hold | hleft
    · rw [hold]
      exact List.nil_prefix
    · have : L = (pre ++ copied) ++ (e.old ++ post) := by
        rw [← hL, hsplit, hleft]
        simp
      rw [this, ← List.length_append, List.drop_left]
      exact List.prefix_append _ _
  have hrest : (pre ++ e.gap ++ e.old).drop (pre.length + copied.length + e.old.length) =
      left := by
    rcases hstop' with hold | hleft
    · have : pre ++ e.gap ++ e.old = (pre ++ copied) ++ left := by
        rw [hold, hsplit]
        simp
      rw [this, hold, ← List.length_append]
      exact List.drop_left
    · rw [hleft]
      refine List.drop_eq_nil_of_le ?_
      rw [hsplit, hleft]
      simp only [List.append_nil, List.length_append]
      omega
  have happly : applyHunk path L p (e.parsed pre.length) =
      (e.changes.map Change.parsed).foldlM (applyLine path L)
        ⟨p.output ++ (pre.drop p.cursor ++ copied), pre.length + copied.length⟩ := by
    have hguard : ¬((e.parsed pre.length).oldStart - 1 < p.cursor ∨
        L.length < (e.parsed pre.length).oldStart - 1) := by
      rw [hstop]
      omega
    unfold applyHunk
    simp only [if_neg hguard]
    rw [hstop, slice_take (by omega) hstart, htake, hcopy]
    rfl
  rw [happly]
  rcases foldlM_applyLine path (p.output ++ (pre.drop p.cursor ++ copied)) hprefix with
    ⟨hall, hfold⟩ | hfail
  · left
    refine ⟨hall, _, hfold, ?_, ?_⟩
    · rw [hsplit]
      simp only [List.length_append]
      change pre.length + copied.length + e.old.length ≤ _
      omega
    · change (p.output ++ (pre.drop p.cursor ++ copied) ++ e.written) ++
        (pre ++ e.gap ++ e.old).drop (pre.length + copied.length + e.old.length) = _
      rw [hrest, happlied, ← hout]
      simp
  · exact .inr hfail

/-- The hunks of a file, one after the other. -/
theorem foldlM_applyHunk (path : Str) (edits : List Edit) (rest : List Str) {pre out : List Str}
    {p : Progress}
    (hp : Caught pre out p) (hapart : ∀ e ∈ edits.tail, e.gap ≠ [])
    (hgap : (∀ e ∈ edits, e.gap ≠ []) ∨ pre = []) :
    (∀ e ∈ edits, ∀ line ∈ e.old, Plain line) ∧
        (∃ q, (parsedHunks pre.length edits).foldlM (applyHunk path (pre ++ oldLines edits rest)) p
            = .ok q ∧ q.cursor ≤ (pre ++ oldLines edits rest).length ∧
          q.output ++ (pre ++ oldLines edits rest).drop q.cursor =
            out ++ edits.flatMap Edit.applied ++ rest) ∨
      ¬(∀ e ∈ edits, ∀ line ∈ e.old, Plain line) ∧
        ∃ f, (parsedHunks pre.length edits).foldlM (applyHunk path (pre ++ oldLines edits rest)) p
          = .error f := by
  induction edits generalizing pre out p with
  | nil =>
      left
      refine ⟨by simp, p, rfl, ?_, ?_⟩
      · have := hp.inside
        simp only [List.length_append]
        omega
      · rw [List.drop_append_of_le_length hp.inside, ← List.append_assoc, hp.output]
        simp [oldLines]
  | cons e edits ih =>
      have hlines : pre ++ oldLines (e :: edits) rest =
          pre ++ e.gap ++ e.old ++ oldLines edits rest := by
        simp [oldLines]
      have hfirst := applyHunk_parsed path (oldLines edits rest) hp
        (e := e) (hgap.imp_left fun h => h e (by simp))
      have hhunks : parsedHunks pre.length (e :: edits) =
          e.parsed pre.length :: parsedHunks (pre ++ e.gap ++ e.old).length edits := by
        simp [parsedHunks, Edit.parsed, Nat.add_assoc]
      rw [hlines, hhunks, List.foldlM_cons]
      rcases hfirst with ⟨hplain, q, hq, hcaught⟩ | ⟨hnot, f, hf⟩
      · rw [hq]
        rcases ih hcaught (fun e' h' => hapart e' (List.mem_of_mem_tail h'))
          (.inl hapart) with ⟨hall, r, hr, hle, hout⟩ | ⟨hnot, hfail⟩
        · left
          refine ⟨List.forall_mem_cons.mpr ⟨hplain, hall⟩, r, hr, hle, ?_⟩
          rw [hout]
          simp
        · exact .inr ⟨fun hall => hnot fun e' h' => hall e' (List.mem_cons_of_mem _ h'), hfail⟩
      · rw [hf]
        exact .inr ⟨fun hall => hnot (hall e (by simp)), f, rfl⟩

/-- What the code makes of the old text. -/
theorem applyFilePatch_readAs (path : Str) {d : FileDiff} {patch : FilePatch}
    (h : d.ReadAs patch) :
    (∀ e ∈ d.edits, ∀ line ∈ e.old, Plain line) ∧
        applyFilePatch path d.old patch = .ok (d.edits.flatMap Edit.applied ++ d.rest).flatten ∨
      ¬(∀ e ∈ d.edits, ∀ line ∈ e.old, Plain line) ∧
        ∃ f, applyFilePatch path d.old patch = .error f := by
  have hlines : splitLines d.old = oldLines d.edits d.rest := pieces_flatten d.old_isLines
  have hcaught : Caught [] [] ⟨[], 0⟩ := ⟨le_rfl, rfl⟩
  have hhunks := foldlM_applyHunk path d.edits d.rest hcaught d.apart (.inr rfl)
  unfold applyFilePatch
  simp only [hlines, h.hunks]
  simp only [List.nil_append, List.length_nil] at hhunks
  rcases hhunks with ⟨hall, q, hq, hle, hout⟩ | ⟨hnot, f, hf⟩
  · left
    refine ⟨hall, ?_⟩
    simp only [hq, bind, Except.bind, slice_take hle le_rfl, List.take_length, hout]
  · exact .inr ⟨hnot, f, by rw [hf]; rfl⟩

/-! ## Lines that are read as they are -/

theorem plain_iff {line : Str} : Plain line ↔
    line.getLast? = some '\n' ∧ (body line).getLast? ≠ some '\r' := by
  unfold Plain readLine
  by_cases hend : line.getLast? = some '\n'
  · obtain ⟨front, rfl⟩ := List.getLast?_eq_some_iff.mp hend
    have hbody : body (front ++ ['\n']) = front := by simp [body]
    rw [hbody, List.append_left_inj]
    simp only [List.getLast?_concat, true_and]
    constructor
    · intro hstrip hreturn
      obtain ⟨text, rfl⟩ := List.getLast?_eq_some_iff.mp hreturn
      have := congrArg List.length hstrip
      simp [stripReturn] at this
    · intro hreturn
      rw [stripReturn, if_neg hreturn]
  · refine iff_of_false (fun heq => hend ?_) fun h => hend h.1
    rw [← heq]
    simp

theorem count_readLine {line : Str} (h : '\n' ∉ body line) :
    line.count '\n' ≤ (readLine line).count '\n' ∧
      (line.count '\n' = (readLine line).count '\n' → line.getLast? = some '\n') := by
  have hread : 1 ≤ (readLine line).count '\n' := by
    rw [readLine, List.count_append]
    simp
  by_cases hend : line.getLast? = some '\n'
  · obtain ⟨front, rfl⟩ := List.getLast?_eq_some_iff.mp hend
    have hfront : '\n' ∉ front := by simpa [body] using h
    have hcount : (front ++ ['\n']).count '\n' = 1 := by
      simp [List.count_append, List.count_eq_zero_of_not_mem hfront]
    exact ⟨by omega, fun _ => hend⟩
  · have hcount : line.count '\n' = 0 := by
      have : body line = line := by rw [body, if_neg hend]
      rw [this] at h
      exact List.count_eq_zero_of_not_mem h
    exact ⟨by omega, fun heq => by omega⟩

theorem count_readLine_return {line : Str} (hend : line.getLast? = some '\n') :
    (readLine line).count '\r' ≤ line.count '\r' ∧
      ((readLine line).count '\r' = line.count '\r' → Plain line) := by
  obtain ⟨front, rfl⟩ := List.getLast?_eq_some_iff.mp hend
  have hbody : body (front ++ ['\n']) = front := by simp [body]
  by_cases hreturn : front.getLast? = some '\r'
  · obtain ⟨text, rfl⟩ := List.getLast?_eq_some_iff.mp hreturn
    have hread : readLine (text ++ ['\r'] ++ ['\n']) = text ++ ['\n'] := by
      rw [readLine, hbody]
      simp [stripReturn]
    rw [hread]
    simp only [List.count_append]
    exact ⟨by simp, fun heq => by simp at heq⟩
  · have hplain : Plain (front ++ ['\n']) := plain_iff.mpr ⟨hend, by rwa [hbody]⟩
    exact ⟨by rw [hplain], fun _ => hplain⟩

theorem eq_of_sum_eq {α : Type} {l : List α} {f g : α → Nat} (hle : ∀ x ∈ l, f x ≤ g x)
    (hsum : (l.map f).sum = (l.map g).sum) : ∀ x ∈ l, f x = g x := by
  have hrest : ∀ {l : List α}, (∀ x ∈ l, f x ≤ g x) → (l.map f).sum ≤ (l.map g).sum :=
    fun h => List.sum_le_sum h
  induction l with
  | nil => simp
  | cons x l ih =>
      have hx := hle x (by simp)
      have hl := fun y hy => hle y (List.mem_cons_of_mem x hy)
      have hsums := hrest hl
      simp only [List.map_cons, List.sum_cons] at hsum
      have hhead : f x = g x := by omega
      exact List.forall_mem_cons.mpr ⟨hhead, ih hl (by omega)⟩

/-- When both texts have as many of a character, so have the new lines and what is written
for them. -/
theorem sum_count_eq (c : Char) {edits : List Edit} {rest : List Str}
    (heq : (edits.flatMap Edit.applied ++ rest).flatten = (newLines edits rest).flatten) :
    (edits.map fun e => (e.new.map fun line => line.count c).sum).sum =
      (edits.map fun e => (e.new.map fun line => (readLine line).count c).sum).sum := by
  have happlied : ∀ e : Edit, e.applied.flatten.count c =
      e.gap.flatten.count c + (e.new.map fun line => (readLine line).count c).sum := by
    intro e
    have hwritten : e.written.flatten.count c =
        (e.new.map fun line => (readLine line).count c).sum := by
      rw [List.count_flatten, Edit.written, List.map_map]
      rfl
    unfold Edit.applied
    split
    · have hgap : e.gap.flatten.count c =
          e.gap.dropLast.flatten.count c + e.gap.getLast?.toList.flatten.count c := by
        rw [← List.count_append, ← List.flatten_append, dropLast_getLast]
      rw [List.flatten_append, List.flatten_append, List.count_append, List.count_append, hwritten]
      omega
    · rw [List.flatten_append, List.count_append, hwritten]
  have hnew : ∀ e : Edit, (e.gap ++ e.new).flatten.count c =
      e.gap.flatten.count c + (e.new.map fun line => line.count c).sum := by
    intro e
    rw [List.flatten_append, List.count_append, List.count_flatten (l := e.new)]
  have hsum : ∀ edits : List Edit, (edits.flatMap Edit.applied).flatten.count c +
        (edits.map fun e => (e.new.map fun line => line.count c).sum).sum =
      (edits.flatMap fun e => e.gap ++ e.new).flatten.count c +
        (edits.map fun e => (e.new.map fun line => (readLine line).count c).sum).sum := by
    intro edits
    induction edits with
    | nil => rfl
    | cons e edits ih =>
        have hsplit : ∀ l l' : List Str, (l ++ l').flatten.count c =
            l.flatten.count c + l'.flatten.count c := by
          intro l l'
          rw [List.flatten_append, List.count_append]
        rw [List.flatMap_cons, List.flatMap_cons, hsplit e.applied, happlied,
          hsplit (e.gap ++ e.new), hnew, List.map_cons, List.map_cons, List.sum_cons,
          List.sum_cons]
        omega
  have hcount := congrArg (List.count c) heq
  rw [newLines, List.flatten_append, List.flatten_append, List.count_append,
    List.count_append] at hcount
  have := hsum edits
  omega

theorem FileDiff.newline_notMem_body (d : FileDiff) {e : Edit} (he : e ∈ d.edits) {line : Str}
    (hline : line ∈ e.new) : '\n' ∉ body line :=
  body_of_isLines d.new_isLines (List.mem_append_left _
    (List.mem_flatMap.mpr ⟨e, he, List.mem_append_right _ hline⟩))

/-- When the code comes to the new text, it has read every new line as it is. -/
theorem plain_of_flatten_eq {d : FileDiff}
    (heq : (d.edits.flatMap Edit.applied ++ d.rest).flatten = d.new) :
    ∀ e ∈ d.edits, ∀ line ∈ e.new, Plain line := by
  have hnewline : ∀ e ∈ d.edits, ∀ line ∈ e.new,
      line.count '\n' ≤ (readLine line).count '\n' := fun e he line hline =>
    (count_readLine (d.newline_notMem_body he hline)).1
  have hended : ∀ e ∈ d.edits, ∀ line ∈ e.new, line.getLast? = some '\n' := by
    intro e he line hline
    have hsums := eq_of_sum_eq (fun e he => List.sum_le_sum (hnewline e he))
      (sum_count_eq '\n' heq) e he
    have hcount := eq_of_sum_eq (hnewline e he) hsums line hline
    exact (count_readLine (d.newline_notMem_body he hline)).2 hcount
  have hreturn : ∀ e ∈ d.edits, ∀ line ∈ e.new,
      (readLine line).count '\r' ≤ line.count '\r' := fun e he line hline =>
    (count_readLine_return (hended e he line hline)).1
  intro e he line hline
  have hsums := eq_of_sum_eq (fun e he => List.sum_le_sum (hreturn e he))
    (sum_count_eq '\r' heq).symm e he
  have hcount := eq_of_sum_eq (hreturn e he) hsums line hline
  exact (count_readLine_return (hended e he line hline)).2 hcount

/-! ## Where added lines stand -/

/-- The lines of a gap are followed by other lines. -/
theorem FileDiff.gap_terminated (d : FileDiff) {e : Edit} (he : e ∈ d.edits) :
    ∀ line ∈ e.gap, Terminated line := by
  obtain ⟨before, after, hsplit⟩ := List.append_of_mem he
  have hold := d.old_isLines
  have hnew := d.new_isLines
  simp only [oldLines, newLines, hsplit, List.flatMap_append, List.flatMap_cons,
    List.append_assoc] at hold hnew
  intro line hline
  cases hchanges : e.changes with
  | nil => exact absurd hchanges (d.changes_ne e he)
  | cons c changes =>
      by_cases hadd : c.old = []
      · have hne : e.new ≠ [] := by
          cases c with
          | keep line => cases hadd
          | remove line => cases hadd
          | add line => simp [Edit.new, hchanges, Change.new]
        exact hnew.of_append.terminated (by simp [hne]) hline
      · have hne : e.old ≠ [] := by simp [Edit.old, hchanges, hadd]
        exact hold.of_append.terminated (by simp [hne]) hline

theorem append_concat_comm {α : Type} {l : List α} {a : α} :
    l ++ [a] = a :: l ↔ ∀ x ∈ l, x = a := by
  induction l with
  | nil => simp
  | cons x l ih =>
      rw [List.cons_append, List.cons.injEq, List.forall_mem_cons]
      constructor
      · rintro ⟨rfl, h⟩
        exact ⟨rfl, ih.mp h⟩
      · rintro ⟨rfl, h⟩
        exact ⟨rfl, ih.mpr h⟩

theorem Edit.written_eq {e : Edit} (hplain : ∀ line ∈ e.new, Plain line) : e.written = e.new := by
  have : e.new.map readLine = e.new.map id := List.map_congr_left hplain
  rw [Edit.written, this, List.map_id]

/-- A hunk leads to its new lines unless it adds lines behind one that they differ from. -/
theorem applied_eq_iff {e : Edit} (hplain : ∀ line ∈ e.new, Plain line) :
    e.applied = e.gap ++ e.new ↔
      (e.old = [] → ∀ last ∈ e.gap.getLast?, ∀ line ∈ e.new, line = last) := by
  unfold Edit.applied
  rw [Edit.written_eq hplain]
  split
  · rename_i hold
    cases hlast : e.gap.getLast? with
    | none => simp [List.getLast?_eq_none_iff.mp hlast]
    | some a =>
        obtain ⟨front, hfront⟩ := List.getLast?_eq_some_iff.mp hlast
        rw [hfront]
        simp only [List.dropLast_concat, Option.toList_some, List.append_assoc,
          List.append_cancel_left_eq, List.cons_append, List.nil_append, append_concat_comm]
        simp [hold]
  · rename_i hold
    simp [hold]

theorem flatMap_eq_iff {α β : Type} {f g : α → List β} (hlength : ∀ x, (f x).length = (g x).length)
    {l : List α} : l.flatMap f = l.flatMap g ↔ ∀ x ∈ l, f x = g x := by
  induction l with
  | nil => simp
  | cons x l ih =>
      rw [List.flatMap_cons, List.flatMap_cons, List.forall_mem_cons, ← ih]
      constructor
      · exact fun h => List.append_inj h (hlength x)
      · intro ⟨hx, hl⟩
        rw [hx, hl]

theorem Edit.applied_perm {e : Edit} (hplain : ∀ line ∈ e.new, Plain line) :
    e.applied.Perm (e.gap ++ e.new) := by
  unfold Edit.applied
  rw [Edit.written_eq hplain]
  split
  · have hswap : (e.gap.dropLast ++ e.new ++ e.gap.getLast?.toList).Perm
        (e.gap.dropLast ++ e.gap.getLast?.toList ++ e.new) := by
      rw [List.append_assoc, List.append_assoc]
      exact List.perm_append_comm.append_left _
    rwa [dropLast_getLast] at hswap
  · exact List.Perm.refl _

/-- What the code writes is a list of lines, too. -/
theorem FileDiff.applied_isLines (d : FileDiff) (hplain : ∀ e ∈ d.edits, ∀ line ∈ e.new, Plain line) :
    IsLines (d.edits.flatMap Edit.applied ++ d.rest) := by
  refine IsLines.append (fun line hline => ?_) d.new_isLines.of_append
  obtain ⟨e, he, happlied⟩ := List.mem_flatMap.mp hline
  rcases List.mem_append.mp ((Edit.applied_perm (hplain e he)).mem_iff.mp happlied) with h | h
  · exact d.gap_terminated he line h
  · obtain ⟨front, rfl⟩ := List.getLast?_eq_some_iff.mp (plain_iff.mp (hplain e he _ h)).1
    have hbody := d.newline_notMem_body he h
    exact ⟨front, by simpa [body] using hbody, rfl⟩

theorem FileDiff.flatten_eq_iff (d : FileDiff) :
    (d.edits.flatMap Edit.applied ++ d.rest).flatten = d.new ↔
      (∀ e ∈ d.edits, ∀ line ∈ e.new, Plain line) ∧
        ∀ e ∈ d.edits, e.old = [] → ∀ last ∈ e.gap.getLast?, ∀ line ∈ e.new, line = last := by
  have hlists : (∀ e ∈ d.edits, ∀ line ∈ e.new, Plain line) →
      ((d.edits.flatMap Edit.applied ++ d.rest).flatten = d.new ↔
        ∀ e ∈ d.edits, e.old = [] → ∀ last ∈ e.gap.getLast?, ∀ line ∈ e.new, line = last) := by
    intro hplain
    have hlength : ∀ e : Edit, e.applied.length = (e.gap ++ e.new).length := by
      intro e
      have hgap := congrArg List.length (dropLast_getLast e.gap)
      unfold Edit.applied Edit.written
      split
      · simp only [List.length_append, List.length_map] at hgap ⊢
        omega
      · simp
    calc (d.edits.flatMap Edit.applied ++ d.rest).flatten = d.new
        ↔ d.edits.flatMap Edit.applied ++ d.rest = newLines d.edits d.rest :=
          ⟨fun h => IsLines.flatten_inj (d.applied_isLines hplain) d.new_isLines h,
            fun h => by rw [h]; rfl⟩
      _ ↔ d.edits.flatMap Edit.applied = d.edits.flatMap fun e => e.gap ++ e.new :=
          List.append_left_inj _
      _ ↔ ∀ e ∈ d.edits, e.applied = e.gap ++ e.new := flatMap_eq_iff hlength
      _ ↔ _ := forall₂_congr fun e he => applied_eq_iff (hplain e he)
  constructor
  · intro heq
    have hplain := plain_of_flatten_eq heq
    exact ⟨hplain, (hlists hplain).mp heq⟩
  · intro ⟨hplain, hinsert⟩
    exact (hlists hplain).mpr hinsert

/-! ## The diffs that are applied -/

/-- A patch that names the path of a file and leads from its old text to its new one. -/
structure FileDiff.AppliedBy (d : FileDiff) (patch : FilePatch) : Prop where
  target : d.target = .ok patch.target
  applies : ∀ path, applyFilePatch path d.old patch = .ok d.new

/-- A diff that is read as patches which lead from the old texts to the new ones. -/
def Applies (ds : List FileDiff) : Prop :=
  ∃ patches, parsePatch (render ds) = .ok patches ∧ List.Forall₂ FileDiff.AppliedBy ds patches

/-- What the diff of a file has to look like. -/
structure FileDiff.Supported (d : FileDiff) : Prop where
  readable : d.Readable
  /-- No removed line begins with two hyphens and a blank. -/
  unmistakable : d.Unmistakable
  /-- Every shown line has its line feed, and no carriage return before it. -/
  endings : ∀ e ∈ d.edits, ∀ c ∈ e.changes,
    c.line.getLast? = some '\n' ∧ (body c.line).getLast? ≠ some '\r'
  /-- A hunk without lines of the old text stands at the start or repeats the line before. -/
  insertions : ∀ e ∈ d.edits, e.old = [] → ∀ last ∈ e.gap.getLast?, ∀ line ∈ e.new, line = last

structure Supported (ds : List FileDiff) : Prop where
  files_ne : ds ≠ []
  /-- Only the first file has lines before its header. -/
  preambles : ∀ d ∈ ds.tail, d.preamble = []
  files : ∀ d ∈ ds, d.Supported

theorem plain_changes_iff {e : Edit} :
    (∀ c ∈ e.changes, c.line.getLast? = some '\n' ∧ (body c.line).getLast? ≠ some '\r') ↔
      (∀ line ∈ e.old, Plain line) ∧ ∀ line ∈ e.new, Plain line := by
  have hchange : ∀ c : Change, (c.line.getLast? = some '\n' ∧
      (body c.line).getLast? ≠ some '\r') ↔
      (∀ line ∈ c.old, Plain line) ∧ ∀ line ∈ c.new, Plain line := by
    intro c
    rw [← plain_iff]
    cases c with
    | keep line => simp [Change.old, Change.new, Change.line]
    | remove line => simp [Change.old, Change.new, Change.line]
    | add line => simp [Change.old, Change.new, Change.line]
  simp only [hchange, Edit.old, Edit.new, List.mem_flatMap]
  constructor
  · intro h
    constructor
    · rintro line ⟨c, hc, hline⟩
      exact (h c hc).1 line hline
    · rintro line ⟨c, hc, hline⟩
      exact (h c hc).2 line hline
  · rintro ⟨hold, hnew⟩ c hc
    exact ⟨fun line hline => hold line ⟨c, hc, hline⟩, fun line hline => hnew line ⟨c, hc, hline⟩⟩

/-- A patch that a diff is read as leads to the new text if the lines are. -/
theorem FileDiff.appliedBy_iff {d : FileDiff} {patch : FilePatch} (h : d.ReadAs patch) :
    d.AppliedBy patch ↔
      (∀ e ∈ d.edits, ∀ c ∈ e.changes,
        c.line.getLast? = some '\n' ∧ (body c.line).getLast? ≠ some '\r') ∧
      ∀ e ∈ d.edits, e.old = [] → ∀ last ∈ e.gap.getLast?, ∀ line ∈ e.new, line = last := by
  have hplain : (∀ e ∈ d.edits, ∀ c ∈ e.changes,
        c.line.getLast? = some '\n' ∧ (body c.line).getLast? ≠ some '\r') ↔
      (∀ e ∈ d.edits, ∀ line ∈ e.old, Plain line) ∧ ∀ e ∈ d.edits, ∀ line ∈ e.new, Plain line := by
    simp only [plain_changes_iff]
    exact ⟨fun h => ⟨fun e he => (h e he).1, fun e he => (h e he).2⟩,
      fun h e he => ⟨h.1 e he, h.2 e he⟩⟩
  rw [hplain, and_assoc, ← d.flatten_eq_iff]
  constructor
  · intro happlied
    rcases applyFilePatch_readAs [] h with ⟨hold, hrun⟩ | ⟨-, f, hf⟩
    · rw [happlied.applies []] at hrun
      exact ⟨hold, (Except.ok.inj hrun).symm⟩
    · rw [happlied.applies []] at hf
      cases hf
  · intro ⟨hold, hflatten⟩
    refine ⟨h.target, fun path => ?_⟩
    rcases applyFilePatch_readAs path h with ⟨-, hrun⟩ | ⟨hnot, -⟩
    · rw [hrun, hflatten]
    · exact absurd hold hnot

theorem forall₂_appliedBy {ds : List FileDiff} {patches : List FilePatch}
    (h : List.Forall₂ FileDiff.ReadAs ds patches) :
    List.Forall₂ FileDiff.AppliedBy ds patches ↔
      ∀ d ∈ ds, (∀ e ∈ d.edits, ∀ c ∈ e.changes,
        c.line.getLast? = some '\n' ∧ (body c.line).getLast? ≠ some '\r') ∧
      ∀ e ∈ d.edits, e.old = [] → ∀ last ∈ e.gap.getLast?, ∀ line ∈ e.new, line = last := by
  induction h with
  | nil => simp
  | cons hfirst hrest ih =>
      rw [List.forall₂_cons, List.forall_mem_cons, FileDiff.appliedBy_iff hfirst, ih]

/-- A unified diff is read and leads from its old texts to its new ones exactly when its
headers can be read and told from its lines, all shown lines end with a line feed alone, and
lines are only inserted at the start of a text or behind an equal line. -/
theorem applies_iff (ds : List FileDiff) : Applies ds ↔ Supported ds := by
  constructor
  · intro ⟨patches, hparse, happlied⟩
    have hlength := happlied.length_eq.symm
    obtain ⟨⟨hne, hheaders⟩, hunmistakable⟩ :=
      (parsePatch_render_iff ds).mp ⟨patches, hparse, hlength⟩
    rcases parsePatch_render hunmistakable with ⟨-, patches', hparse', hreads⟩ | ⟨hnot, -⟩
    · obtain rfl : patches = patches' := Except.ok.inj (hparse.symm.trans hparse')
      have hfiles := (forall₂_appliedBy hreads).mp happlied
      exact ⟨hne, hheaders.later, fun d hd => ⟨hheaders.files d hd, hunmistakable d hd,
        (hfiles d hd).1, (hfiles d hd).2⟩⟩
    · exact absurd ⟨hne, hheaders⟩ hnot
  · intro h
    have hheaders : ds ≠ [] ∧ HeadersReadable False ds :=
      ⟨h.files_ne, ⟨False.elim, h.preambles, fun d hd => (h.files d hd).readable⟩⟩
    rcases parsePatch_render fun d hd => (h.files d hd).unmistakable with
      ⟨-, patches, hparse, hreads⟩ | ⟨hnot, -⟩
    · exact ⟨patches, hparse, (forall₂_appliedBy hreads).mpr fun d hd =>
        ⟨(h.files d hd).endings, (h.files d hd).insertions⟩⟩
    · exact absurd hheaders hnot

namespace Example

/-- A line is inserted between two others, and no unchanged line is shown. -/
def insertion : FileDiff where
  preamble := []
  oldLabel := lit "a/x"
  newLabel := lit "b/x"
  edits := [⟨[lit "a\n"], [.add (lit "x\n")], [], false⟩]
  rest := [lit "b\n"]
  preamble_word := by simp
  oldLabel_line := by decide
  newLabel_line := by decide
  heading_line := by simp
  edits_ne := by simp
  changes_ne := by simp
  apart := by simp
  old_isLines := .cons ⟨['a'], by decide, rfl⟩ (.cons ⟨['b'], by decide, rfl⟩ .nil)
  new_isLines := .cons ⟨['a'], by decide, rfl⟩
    (.cons ⟨['x'], by decide, rfl⟩ (.cons ⟨['b'], by decide, rfl⟩ .nil))

/-- The line is inserted one line too early. -/
theorem insertion_not_applied : ¬∀ ds : List FileDiff, ds ≠ [] → Applies ds := by
  intro h
  obtain ⟨patches, hparse, happlied⟩ := h [insertion] (by simp)
  have hread : parsePatch (render [insertion]) =
      .ok [⟨lit "x", [⟨1, [.add (lit "x\n")]⟩]⟩] := by decide
  rw [hread] at hparse
  obtain rfl := Except.ok.inj hparse
  have hwrong : applyFilePatch [] insertion.old ⟨lit "x", [⟨1, [.add (lit "x\n")]⟩]⟩ =
      .ok (lit "x\na\nb\n") := by decide
  cases happlied with
  | cons hfirst hrest =>
      have := hfirst.applies []
      rw [hwrong] at this
      exact absurd (Except.ok.inj this) (by decide)

end Example

end Patch
end Bpm
