import Bpm.Interchange.PnpmReading

/-!
# Which lines of pnpm's YAML are read

`scanLines` tells how reading the lines of a document ends: a line is in one of the open
blocks or opens one, it is refused, or the document is a sequence that is over, and the line
is ignored with all lines behind it.  The reader follows the scan, so it goes on for ever
exactly when it comes to a flow sequence that does.
-/

namespace Bpm

open Text Fuel

namespace PnpmYaml

/-! ## Lines -/

/-- An open block. -/
structure OpenBlock where
  indent : Nat
  isSeq : Bool
deriving DecidableEq

/-- What a line is to the open blocks. -/
inductive Standing
  | item (blocks : List OpenBlock)
  | entry (blocks : List OpenBlock)
  | refused
  | ignored
deriving DecidableEq

/-- Close the blocks that a line is not in. -/
def settle : List OpenBlock → BlockLine → Standing
  | [], _ => .ignored
  | block :: blocks, line =>
      if block.isSeq then
        if line.indent = block.indent ∧ isItem line.text = true then .item (block :: blocks)
        else settle blocks line
      else if line.indent < block.indent then settle blocks line
      else if line.indent ≠ block.indent then .refused
      else .entry (block :: blocks)

/-- A line behind a key without a value may open a block. -/
def standing (blocks : List OpenBlock) (expecting : Bool) (line : BlockLine) : Standing :=
  if expecting = true ∧ blocks.head?.any (·.indent < line.indent) = true then
    settle (⟨line.indent, isItem line.text⟩ :: blocks) line
  else settle blocks line

/-- What comes behind what is read. -/
def Verdict.onward (verdict next : Verdict) : Verdict :=
  match verdict with
  | .read _ => next
  | .refused => .refused
  | .stuck => .stuck

/-- How reading the lines of a document ends. -/
def scanLines : List OpenBlock → Bool → List BlockLine → Verdict
  | _, _, [] => .read []
  | blocks, expecting, line :: lines =>
      match standing blocks expecting line with
      | .ignored => .read []
      | .refused => .refused
      | .item blocks =>
          let rest := itemText line.text
          if rest.isEmpty then scanLines blocks false lines
          else if (splitKey rest).isSome then .refused
          else (scanInline rest).onward (scanLines blocks false lines)
      | .entry blocks =>
          match splitKey line.text with
          | none => .refused
          | some (_, none) => scanLines blocks true lines
          | some (_, some value) => (scanInline value).onward (scanLines blocks false lines)

/-- How reading a document ends. -/
def scanDocument (lines : List BlockLine) : Verdict :=
  match lines with
  | [] => .read []
  | line :: _ => scanLines [⟨0, line.indent = 0 && isItem line.text⟩] false lines

/-- How reading documents ends; the first refusal is the last one read. -/
def scanAll : List (List BlockLine) → Verdict
  | [] => .read []
  | lines :: documents => (scanDocument lines).onward (scanAll documents)

/-! ## The descent follows the lines -/

/-- A reader of lines that goes where the scan goes, and on from the lines that it leaves. -/
inductive Tracked (f : Nat → Result (Yaml × List BlockLine)) (size : Nat)
    (scan : List OpenBlock → Verdict) (next : List OpenBlock → List BlockLine → Verdict) : Prop
  | read (tree : Yaml) (rest : List BlockLine)
      (hsettles : Settles .outOfFuel f (.ok (tree, rest))) (hsize : rest.length ≤ size)
      (hscan : ∀ below, scan below = next below rest)
  | refused (e : ReadError) (hne : e ≠ .outOfFuel) (hsettles : Settles .outOfFuel f (.error e))
      (hscan : ∀ below, scan below = .refused)
  | endless (h : Endless .outOfFuel f) (hscan : ∀ below, scan below = .stuck)

namespace Tracked

variable {f : Nat → Result (Yaml × List BlockLine)} {size size' : Nat}
  {scan scan' : List OpenBlock → Verdict} {next next' : List OpenBlock → List BlockLine → Verdict}

theorem succ {g : Nat → Result (Yaml × List BlockLine)} (h : Tracked f size scan next)
    (hzero : g 0 = .error .outOfFuel) (hsucc : ∀ m, g (m + 1) = f m) :
    Tracked g size scan next := by
  cases h with
  | read tree rest hsettles hsize hscan =>
      exact .read tree rest (hsettles.succ hzero hsucc) hsize hscan
  | refused e hne hsettles hscan => exact .refused e hne (hsettles.succ hzero hsucc) hscan
  | endless h hscan => exact .endless (h.succ hzero hsucc) hscan

theorem mono (h : Tracked f size scan next) (hle : size ≤ size') : Tracked f size' scan next := by
  cases h with
  | read tree rest hsettles hsize hscan => exact .read tree rest hsettles (hsize.trans hle) hscan
  | refused e hne hsettles hscan => exact .refused e hne hsettles hscan
  | endless h hscan => exact .endless h hscan

theorem congr (h : Tracked f size scan next) (hscan : ∀ below, scan' below = scan below) :
    Tracked f size scan' next := by
  have : scan' = scan := funext hscan
  exact this ▸ h

/-- The same reader inside a block. -/
theorem inside (h : Tracked f size scan next) (block : OpenBlock) :
    Tracked f size (fun below => scan (block :: below)) fun below => next (block :: below) := by
  cases h with
  | read tree rest hsettles hsize hscan =>
      exact .read tree rest hsettles hsize fun below => hscan _
  | refused e hne hsettles hscan => exact .refused e hne hsettles fun below => hscan _
  | endless h hscan => exact .endless h fun below => hscan _

theorem andThen {g : Nat → Yaml × List BlockLine → Result (Yaml × List BlockLine)}
    (h : Tracked f size scan next)
    (hnext : ∀ tree rest, rest.length ≤ size →
      Tracked (fun m => g m (tree, rest)) size' (fun below => next below rest) next') :
    Tracked (fun m => f m >>= g m) size' scan next' := by
  cases h with
  | read tree rest hsettles hsize hscan =>
      cases hnext tree rest hsize with
      | read tree' rest' hsettles' hsize' hscan' =>
          exact .read tree' rest' (hsettles.andThen hsettles') hsize' fun b =>
            (hscan b).trans (hscan' b)
      | refused e hne hsettles' hscan' =>
          exact .refused e hne (hsettles.andThen hsettles') fun b => (hscan b).trans (hscan' b)
      | endless h' hscan' =>
          exact .endless (h'.andThen_right hsettles) fun b => (hscan b).trans (hscan' b)
  | refused e hne hsettles hscan => exact .refused e hne hsettles.andThen_error hscan
  | endless h hscan => exact .endless h.andThen_left hscan

end Tracked

/-- The value of a line, then the lines behind it. -/
theorem Ends.andThen {f : Nat → Result Yaml} {verdict : Verdict}
    {g : Nat → Yaml → Result (Yaml × List BlockLine)} {size : Nat}
    {scan scan' : List OpenBlock → Verdict} {next : List OpenBlock → List BlockLine → Verdict}
    (h : Ends f verdict)
    (hscan : ∀ below, scan below = verdict.onward (scan' below))
    (hnext : ∀ tree, Tracked (fun m => g m tree) size scan' next) :
    Tracked (fun m => f m >>= g m) size scan next := by
  cases h with
  | read tree hsettles hread =>
      subst hread
      cases hnext tree with
      | read tree' rest' hsettles' hsize' hscan' =>
          exact .read tree' rest' (hsettles.andThen hsettles') hsize' fun b =>
            (hscan b).trans (hscan' b)
      | refused e hne hsettles' hscan' =>
          exact .refused e hne (hsettles.andThen hsettles') fun b => (hscan b).trans (hscan' b)
      | endless h' hscan' =>
          exact .endless (h'.andThen_right hsettles) fun b => (hscan b).trans (hscan' b)
  | refused e hne hsettles hrefused =>
      subst hrefused
      exact .refused e hne hsettles.andThen_error hscan
  | endless hendless hstuck =>
      subst hstuck
      exact .endless hendless.andThen_left hscan

/-- Lines that continue the blocks around a block. -/
def continueLines (below : List OpenBlock) (lines : List BlockLine) : Verdict :=
  scanLines below false lines

/-- What a block does not read is not in it. -/
theorem scanLines_settle {blocks blocks' : List OpenBlock} {line : BlockLine}
    (h : settle blocks line = settle blocks' line) (lines : List BlockLine) :
    scanLines blocks false (line :: lines) = scanLines blocks' false (line :: lines) := by
  have hstanding : standing blocks false line = standing blocks' false line := by
    simpa [standing] using h
  rw [scanLines, scanLines, hstanding]

theorem parseItems_tracked (indent : Nat) (lines : List BlockLine) (items : List Yaml) :
    Tracked (fun m => parseItems m indent lines items) lines.length
      (fun below => scanLines (⟨indent, true⟩ :: below) false lines) continueLines := by
  induction lines generalizing items with
  | nil => exact .read (.seq items) [] (Settles.const _) le_rfl fun below => rfl
  | cons line lines ih =>
      by_cases hitem : line.indent = indent ∧ isItem line.text = true
      · have hstanding : ∀ below, standing (⟨indent, true⟩ :: below) false line =
            .item (⟨indent, true⟩ :: below) := by
          intro below
          simp [standing, settle, hitem]
        have hgo : ¬(line.indent ≠ indent ∨ isItem line.text = false) := by
          simp [hitem]
        have hscan : ∀ below, scanLines (⟨indent, true⟩ :: below) false (line :: lines) =
            if (itemText line.text).isEmpty then scanLines (⟨indent, true⟩ :: below) false lines
            else if (splitKey (itemText line.text)).isSome then .refused
            else (scanInline (itemText line.text)).onward
              (scanLines (⟨indent, true⟩ :: below) false lines) := by
          intro below
          rw [scanLines, hstanding]
        simp only [parseItems, if_neg hgo]
        by_cases hempty : (itemText line.text).isEmpty = true
        · simp only [if_pos hempty]
          simp only [if_pos hempty] at hscan
          exact ((ih (items ++ [.str []])).congr hscan).mono (Nat.le_succ _)
        · simp only [if_neg hempty]
          simp only [if_neg hempty] at hscan
          by_cases hkey : (splitKey (itemText line.text)).isSome = true
          · simp only [if_pos hkey]
            simp only [if_pos hkey] at hscan
            exact .refused (.sequenceOfMaps (itemText line.text)) (by simp) (Settles.const _) hscan
          · simp only [if_neg hkey]
            simp only [if_neg hkey] at hscan
            exact (parseInline_ends (itemText line.text)).andThen hscan
              fun tree => (ih (items ++ [tree])).mono (Nat.le_succ _)
      · have hstop : line.indent ≠ indent ∨ isItem line.text = false := by
          by_cases hindent : line.indent = indent
          · exact .inr (by simpa [hindent] using hitem)
          · exact .inl hindent
        simp only [parseItems, if_pos hstop]
        refine .read (.seq items) (line :: lines) (Settles.const _) le_rfl fun below => ?_
        refine scanLines_settle ?_ lines
        simp only [settle, if_true, if_neg hitem]

/-- A child block is followed when maps are, down to the lines that it has. -/
theorem parseChild_tracked {n : Nat}
    (hentries : ∀ indent (lines : List BlockLine), lines.length < n → ∀ entries,
      Tracked (fun m => parseEntries m indent lines entries) lines.length
        (fun below => scanLines (⟨indent, false⟩ :: below) false lines) continueLines)
    (indent : Nat) {lines : List BlockLine} (hn : lines.length < n) :
    Tracked (fun m => parseChild m indent lines) lines.length
      (fun below => scanLines (⟨indent, false⟩ :: below) true lines)
      fun below => continueLines (⟨indent, false⟩ :: below) := by
  cases lines with
  | nil => exact .read (.str []) [] ((Settles.const _).succ rfl fun _ => rfl) le_rfl fun _ => rfl
  | cons child lines =>
      by_cases hdeep : indent < child.indent
      · -- the child opens a block of its own
        have hscan : ∀ below, scanLines (⟨indent, false⟩ :: below) true (child :: lines) =
            scanLines (⟨child.indent, isItem child.text⟩ :: ⟨indent, false⟩ :: below) false
              (child :: lines) := by
          intro below
          have hstanding : standing (⟨indent, false⟩ :: below) true child =
              standing (⟨child.indent, isItem child.text⟩ :: ⟨indent, false⟩ :: below) false
                child := by
            simp [standing, hdeep]
          rw [scanLines, scanLines, hstanding]
        have hblock : Tracked (fun m => parseBlock m child.indent (child :: lines))
            (child :: lines).length
            (fun below => scanLines (⟨child.indent, isItem child.text⟩ :: ⟨indent, false⟩ :: below)
              false (child :: lines))
            fun below => continueLines (⟨indent, false⟩ :: below) := by
          by_cases hitem : isItem child.text = true
          · have hitems := parseItems_tracked child.indent (child :: lines) []
            rw [hitem]
            refine (hitems.inside ⟨indent, false⟩).succ rfl fun m => ?_
            simp [parseBlock, hitem]
          · have hmap := hentries child.indent (child :: lines) hn []
            have hitem : isItem child.text = false := by simpa using hitem
            rw [hitem]
            refine (hmap.inside ⟨indent, false⟩).succ rfl fun m => ?_
            simp [parseBlock, hitem]
        refine (hblock.congr hscan).succ rfl fun m => ?_
        simp only [parseChild, if_pos hdeep]
      · have hscan : ∀ below, scanLines (⟨indent, false⟩ :: below) true (child :: lines) =
            continueLines (⟨indent, false⟩ :: below) (child :: lines) := by
          intro below
          have hstanding : standing (⟨indent, false⟩ :: below) true child =
              standing (⟨indent, false⟩ :: below) false child := by
            simp [standing, hdeep]
          rw [continueLines, scanLines, scanLines, hstanding]
        refine .read (.str []) (child :: lines) ((Settles.const _).succ rfl fun m => ?_) le_rfl hscan
        simp only [parseChild, if_neg hdeep]

theorem parseEntries_tracked (n : Nat) : ∀ indent (lines : List BlockLine), lines.length < n →
    ∀ entries, Tracked (fun m => parseEntries m indent lines entries) lines.length
      (fun below => scanLines (⟨indent, false⟩ :: below) false lines) continueLines := by
  induction n with
  | zero => exact fun _ _ h => absurd h (Nat.not_lt_zero _)
  | succ n ih =>
      intro indent lines hn entries
      cases lines with
      | nil =>
          exact .read (.map entries) [] ((Settles.const _).succ rfl fun _ => rfl) le_rfl
            fun _ => rfl
      | cons line lines =>
          have hlines : lines.length < n := by simpa using hn
          by_cases hout : line.indent < indent
          · refine .read (.map entries) (line :: lines) ((Settles.const _).succ rfl fun m => ?_)
              le_rfl fun below => ?_
            · simp only [parseEntries, if_pos hout]
            · refine scanLines_settle ?_ lines
              simp [settle, hout]
          by_cases hindent : line.indent = indent
          · have hsame : ¬line.indent ≠ indent := not_not.mpr hindent
            have hstanding : ∀ below, standing (⟨indent, false⟩ :: below) false line =
                .entry (⟨indent, false⟩ :: below) := by
              intro below
              simp [standing, settle, hindent]
            cases hkey : splitKey line.text with
            | none =>
                refine .refused (.notAnEntry line.text) (by simp)
                  ((Settles.const _).succ rfl fun m => ?_) fun below => ?_
                · simp only [parseEntries, if_neg hout, if_neg hsame, hkey]
                · rw [scanLines, hstanding]
                  simp only [hkey]
            | some parts =>
                obtain ⟨key, value⟩ := parts
                cases value with
                | some value =>
                    have hscan : ∀ below, scanLines (⟨indent, false⟩ :: below) false
                        (line :: lines) = (scanInline value).onward
                          (scanLines (⟨indent, false⟩ :: below) false lines) := by
                      intro below
                      rw [scanLines, hstanding]
                      simp only [hkey]
                    have hseq := (parseInline_ends value).andThen
                      (g := fun m node => parseEntries m indent lines (entries ++ [(key, node)]))
                      hscan fun tree => (ih indent lines hlines (entries ++ [(key, tree)])).mono
                        (Nat.le_succ _)
                    refine hseq.succ rfl fun m => ?_
                    simp only [parseEntries, if_neg hout, if_neg hsame, hkey]
                | none =>
                    have hscan : ∀ below, scanLines (⟨indent, false⟩ :: below) false
                        (line :: lines) = scanLines (⟨indent, false⟩ :: below) true lines := by
                      intro below
                      rw [scanLines, hstanding]
                      simp only [hkey]
                    have hseq : Tracked (fun m => parseChild m indent lines >>= fun p =>
                        parseEntries m indent p.2 (entries ++ [(key, p.1)])) (line :: lines).length
                        (fun below => scanLines (⟨indent, false⟩ :: below) false (line :: lines))
                        continueLines :=
                      ((parseChild_tracked ih indent hlines).congr hscan).andThen
                        fun tree rest hrest => (ih indent rest (by omega)
                          (entries ++ [(key, tree)])).mono (by simp only [List.length_cons]; omega)
                    refine hseq.succ rfl fun m => ?_
                    simp only [parseEntries, if_neg hout, if_neg hsame, hkey]
          · refine .refused (.unexpectedIndent line.text) (by simp)
              ((Settles.const _).succ rfl fun m => ?_) fun below => ?_
            · simp only [parseEntries, if_neg hout, ne_eq, hindent, not_false_eq_true, if_true]
            · rw [scanLines]
              simp [standing, settle, hout, hindent]

/-! ## Whole texts -/

theorem Ends.seq {α β : Type} {f : Nat → Result α} {g : Nat → α → Result β}
    {verdict verdict' : Verdict} (h : Ends f verdict)
    (hnext : ∀ a, Ends (fun m => g m a) verdict') :
    Ends (fun m => f m >>= g m) (verdict.onward verdict') := by
  cases h with
  | read a hsettles hread =>
      subst hread
      cases hnext a with
      | read b hsettles' hread' => exact .read b (hsettles.andThen hsettles') hread'
      | refused e hne hsettles' hrefused =>
          exact .refused e hne (hsettles.andThen hsettles') hrefused
      | endless hendless hstuck => exact .endless (hendless.andThen_right hsettles) hstuck
  | refused e hne hsettles hrefused =>
      subst hrefused
      exact .refused e hne hsettles.andThen_error rfl
  | endless hendless hstuck =>
      subst hstuck
      exact .endless hendless.andThen_left rfl

/-- What is left behind the outermost block is not read. -/
theorem continueLines_nil (lines : List BlockLine) : continueLines [] lines = .read [] := by
  cases lines with
  | nil => rfl
  | cons line lines => rfl

theorem Tracked.ends {f : Nat → Result (Yaml × List BlockLine)} {size : Nat}
    {scan : List OpenBlock → Verdict} (h : Tracked f size scan continueLines) :
    Ends (fun m => f m >>= fun p => .ok p.1) (scan []) := by
  cases h with
  | read tree rest hsettles hsize hscan =>
      exact .read tree (hsettles.andThen (Settles.const _))
        ((hscan []).trans (continueLines_nil rest))
  | refused e hne hsettles hscan => exact .refused e hne hsettles.andThen_error (hscan [])
  | endless h hscan => exact .endless h.andThen_left (hscan [])

theorem parseDocument_ends (lines : List BlockLine) :
    Ends (fun m => parseDocument m lines) (scanDocument lines) := by
  cases lines with
  | nil =>
      refine .read (.str []) (Settles.andThen (a := (Yaml.str [], [])) ?_ (Settles.const _)) rfl
      exact (Settles.const _).succ rfl fun m => rfl
  | cons line lines =>
      by_cases hitem : line.indent = 0 ∧ isItem line.text = true
      · have hitems := (parseItems_tracked 0 (line :: lines) []).succ
          (g := fun m => parseBlock m 0 (line :: lines)) rfl fun m => by
            simp only [parseBlock, if_pos hitem]
        have hscan : scanDocument (line :: lines) = scanLines [⟨0, true⟩] false (line :: lines) := by
          simp [scanDocument, hitem]
        rw [hscan]
        exact hitems.ends
      · have hmap := (parseEntries_tracked _ 0 (line :: lines) (Nat.lt_succ_self _) []).succ
          (g := fun m => parseBlock m 0 (line :: lines)) rfl fun m => by
            simp only [parseBlock, if_neg hitem, if_pos (Nat.zero_le line.indent)]
        have hscan : scanDocument (line :: lines) =
            scanLines [⟨0, false⟩] false (line :: lines) := by
          have hseq : (decide (line.indent = 0) && isItem line.text) = false := by
            simpa using hitem
          simp only [scanDocument, hseq]
        rw [hscan]
        exact hmap.ends

theorem documents_end (documents : List (List BlockLine)) :
    Ends (fun m => documents.mapM (parseDocument m)) (scanAll documents) := by
  induction documents with
  | nil => exact .read [] (Settles.const _) rfl
  | cons lines documents ih =>
      have hseq : Ends (fun m => parseDocument m lines >>= fun document =>
          documents.mapM (parseDocument m) >>= fun rest => .ok (document :: rest))
          ((scanDocument lines).onward (scanAll documents)) := by
        refine (parseDocument_ends lines).seq fun document => ?_
        · cases ih with
          | read rest hsettles hread =>
              exact .read (document :: rest) (hsettles.andThen (Settles.const _)) hread
          | refused e hne hsettles hrefused => exact .refused e hne hsettles.andThen_error hrefused
          | endless hendless hstuck => exact .endless hendless.andThen_left hstuck
      simp only [List.mapM_cons]
      exact hseq

theorem foldlM_error {σ α : Type} {f : σ → α → Result σ} {l : List α} {s : σ} {e : ReadError}
    (h : l.foldlM f s = .error e) : ∃ s x, f s x = .error e := by
  induction l generalizing s with
  | nil => cases h
  | cons x l ih =>
      rw [List.foldlM_cons] at h
      cases hx : f s x with
      | error e' =>
          rw [hx] at h
          cases h
          exact ⟨s, x, hx⟩
      | ok s' =>
          rw [hx] at h
          exact ih h

theorem ordinary_error {scan : Scan} {indent : Nat} {text : Str} {e : ReadError}
    (h : scan.ordinary indent text = .error e) : e ≠ .outOfFuel := by
  unfold Scan.ordinary at h
  split at h
  · cases h
  · split at h
    · cases h
      simp
    · split at h
      · cases h
        simp
      · cases h

/-- Cutting a text into documents needs no fuel. -/
theorem scanDocuments_error {text : Str} {e : ReadError} (h : scanDocuments text = .error e) :
    e ≠ .outOfFuel := by
  cases hfold : (Lines.lines text).foldlM Scan.step ⟨[], [], none⟩ with
  | ok scan =>
      simp only [scanDocuments, hfold, bind, Except.bind] at h
      cases h
  | error e' =>
      simp only [scanDocuments, hfold, bind, Except.bind] at h
      cases h
      obtain ⟨scan, raw, hstep⟩ := foldlM_error hfold
      simp only [Scan.step] at hstep
      split at hstep
      · cases hstep
      · split at hstep
        · cases hstep
        · split at hstep
          · split at hstep
            · cases hstep
            · exact ordinary_error hstep
          · exact ordinary_error hstep

/-- The reader comes to a value or an error exactly when it does not come to the end of a line
or to a closing brace where an item of a flow sequence should begin. -/
theorem parseDocuments_terminates_iff (text : Str) :
    (∃ fuel, parseDocuments fuel text ≠ .error .outOfFuel) ↔
      ∀ documents, scanDocuments text = .ok documents → scanAll documents ≠ .stuck := by
  cases hscan : scanDocuments text with
  | error e =>
      have hparse : parseDocuments 0 text = .error e := by
        simp [parseDocuments, hscan, bind, Except.bind]
      refine ⟨fun _ documents h => (by cases h), fun _ => ⟨0, ?_⟩⟩
      rw [hparse]
      intro heq
      exact scanDocuments_error hscan (Except.error.inj heq)
  | ok documents =>
      have hparse : ∀ fuel, parseDocuments fuel text = documents.mapM (parseDocument fuel) := by
        intro fuel
        simp [parseDocuments, hscan, bind, Except.bind]
      have hends := documents_end documents
      constructor
      · intro ⟨fuel, hfuel⟩ documents' heq hstuck
        cases heq
        rw [hparse] at hfuel
        cases hends with
        | read trees hsettles hread => rw [hstuck] at hread; cases hread
        | refused e hne hsettles hrefused => rw [hstuck] at hrefused; cases hrefused
        | endless hendless _ => exact hfuel (hendless fuel)
      · intro h
        have hgo := h documents rfl
        cases hends with
        | read trees hsettles _ =>
            obtain ⟨fuel, hfuel⟩ := hsettles.reached
            exact ⟨fuel, by rw [hparse, hfuel]; simp⟩
        | refused e hne hsettles _ =>
            obtain ⟨fuel, hfuel⟩ := hsettles.reached
            exact ⟨fuel, by rw [hparse, hfuel]; simpa using hne⟩
        | endless _ hstuck => exact absurd hstuck hgo

/-- A flow sequence that is not closed is read for ever. -/
theorem parseDocuments_endless :
    ¬∀ text, ∃ fuel, parseDocuments fuel text ≠ .error .outOfFuel := by
  intro h
  obtain ⟨fuel, hfuel⟩ := h (lit "a: [b")
  have hscan : scanDocuments (lit "a: [b") = .ok [[⟨0, lit "a: [b"⟩]] := by decide
  have hparse : parseDocuments fuel (lit "a: [b") =
      [[⟨0, lit "a: [b"⟩]].mapM (parseDocument fuel) := by
    simp [parseDocuments, hscan, bind, Except.bind]
  rw [hparse] at hfuel
  have hstuck : scanAll [[⟨0, lit "a: [b"⟩]] = .stuck := by decide
  cases documents_end [[⟨0, lit "a: [b"⟩]] with
  | read trees hsettles hread => rw [hstuck] at hread; cases hread
  | refused e hne hsettles hrefused => rw [hstuck] at hrefused; cases hrefused
  | endless hendless _ => exact hfuel (hendless fuel)

end PnpmYaml
end Bpm
