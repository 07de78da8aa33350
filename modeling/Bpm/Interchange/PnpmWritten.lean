import Bpm.Interchange.PnpmNodes

/-!
# Reading written documents

Each written line comes through the scan as it stands unless it holds a number sign behind a
blank, which the scan takes for a comment.  A document is read back exactly when no line
does and its root is a block that is read back.
-/

namespace Bpm

open Text Fuel

namespace PnpmYaml

/-! ## Written lines -/

/-- A text without line ends. -/
def OneLine (text : Str) : Prop := '\n' ∉ text ∧ '\r' ∉ text

/-- A line that the scan takes as it stands, comments apart. -/
structure LineText (text : Str) : Prop where
  solid : Solid text
  oneLine : OneLine text
  first : ∀ c ∈ text.head?, c ∉ ['#', '&', '*', '|']
  second : (lit "? ").isPrefixOf text = false

theorem lineText_key {key : Scalar} (hvalid : key.Valid) {rest : Str}
    (hlast : ∃ init c, key.token ++ rest = init ++ [c] ∧ isSpace c = false)
    (hline : OneLine rest) : LineText (key.token ++ rest) := by
  have hlead := Scalar.token_lead hvalid
  have htoken := token_oneLine hvalid
  obtain ⟨c, token, heq, hspace⟩ := hlead.solid.head
  refine ⟨⟨⟨c, token ++ rest, by rw [heq, List.cons_append], hspace⟩, hlast⟩,
    ⟨by simp [htoken.1, hline.1], by simp [htoken.2, hline.2]⟩, fun x hx => ?_, ?_⟩
  · obtain rfl : c = x := by simpa [heq] using hx
    have hfirst := hlead.first c (by simp [heq])
    simp only [List.mem_cons, List.not_mem_nil, or_false, not_or] at hfirst ⊢
    tauto
  · by_cases hc : c = '?'
    · -- A question mark at the beginning of a token has no blank behind it.
      have hsecond := hlead.second c token heq (by simp [hc])
      cases token with
      | nil => simp at hsecond
      | cons x token =>
          have hx : x ≠ ' ' := by
            rintro rfl
            simp [isSpace] at hsecond
          simp [heq, lit, List.isPrefixOf, Ne.symm hx]
    · simp [heq, lit, List.isPrefixOf, Ne.symm hc]

theorem lineText_cons {c : Char} (hc : c ∉ ['#', '&', '*', '|', '?', '\n', '\r'])
    (hspace : isSpace c = false) {rest : Str}
    (hlast : ∃ init d, rest = init ++ [d] ∧ isSpace d = false)
    (hline : OneLine rest) : LineText (c :: rest) := by
  obtain ⟨init, d, hrest, hd⟩ := hlast
  simp only [List.mem_cons, List.not_mem_nil, or_false, not_or] at hc
  refine ⟨⟨⟨c, rest, rfl, hspace⟩, ⟨c :: init, d, by rw [hrest, List.cons_append], hd⟩⟩,
    ⟨?_, ?_⟩, fun x hx => ?_, ?_⟩
  · simpa [Ne.symm hc.2.2.2.2.2.1] using hline.1
  · simpa [Ne.symm hc.2.2.2.2.2.2] using hline.2
  · obtain rfl : c = x := by simpa using hx
    simp only [List.mem_cons, List.not_mem_nil, or_false, not_or]
    tauto
  · simp [lit, List.isPrefixOf, Ne.symm hc.2.2.2.2.1]

mutual

theorem Flow.render_oneLine (v : Flow) (h : v.Valid) : OneLine v.render := by
  cases v with
  | scalar s =>
      simp only [Flow.Valid, Scalar.ValidFlow] at h
      exact token_oneLine h.1
  | map entries =>
      simp only [Flow.Valid] at h
      have hentries := FlowEntries.render_oneLine entries h
      simpa [OneLine, Flow.render] using hentries
  | seq items =>
      simp only [Flow.Valid] at h
      have hitems := FlowItems.render_oneLine items h
      simpa [OneLine, Flow.render] using hitems

theorem FlowEntries.render_oneLine (entries : FlowEntries) (h : entries.Valid) :
    OneLine entries.render := by
  cases entries with
  | nil => simp [OneLine, FlowEntries.render]
  | cons key value rest =>
      simp only [FlowEntries.Valid, Scalar.ValidFlow] at h
      have hkey := token_oneLine h.1.1
      have hvalue := Flow.render_oneLine value h.2.1
      have hrest := FlowEntries.render_oneLine rest h.2.2
      have hcomma : OneLine rest.comma := by cases rest <;> simp [OneLine, FlowEntries.comma]
      unfold OneLine at hvalue hrest hcomma ⊢
      simp only [FlowEntries.render, List.mem_append, List.mem_cons]
      refine ⟨?_, ?_⟩
      · simp [hkey.1, hvalue.1, hrest.1, hcomma.1]
      · simp [hkey.2, hvalue.2, hrest.2, hcomma.2]

theorem FlowItems.render_oneLine (items : FlowItems) (h : items.Valid) : OneLine items.render := by
  cases items with
  | nil => simp [OneLine, FlowItems.render]
  | cons item rest =>
      simp only [FlowItems.Valid] at h
      have hitem := Flow.render_oneLine item h.1
      have hrest := FlowItems.render_oneLine rest h.2
      have hcomma : OneLine rest.comma := by cases rest <;> simp [OneLine, FlowItems.comma]
      unfold OneLine at hitem hrest hcomma ⊢
      simp only [FlowItems.render, List.mem_append]
      exact ⟨by simp [hitem.1, hrest.1, hcomma.1], by simp [hitem.2, hrest.2, hcomma.2]⟩

end

theorem Flow.render_line {v : Flow} (h : v.ValidInline) :
    (∃ init c, v.render = init ++ [c] ∧ isSpace c = false) ∧ OneLine v.render := by
  refine ⟨(Flow.opening h).solid.last, ?_⟩
  by_cases hscalar : ∃ s, v = .scalar s
  · obtain ⟨s, rfl⟩ := hscalar
    exact token_oneLine (by simpa [Flow.ValidInline] using h)
  · exact Flow.render_oneLine v (Flow.valid_of_inline h fun s heq => hscalar ⟨s, heq⟩).1

theorem lineText_hyphen {text : Str} (h : LineText text) : LineText ('-' :: ' ' :: text) := by
  obtain ⟨init, c, htext, hc⟩ := h.solid.last
  have hline : OneLine (' ' :: text) := by
    simpa [OneLine] using h.oneLine
  exact lineText_cons (by decide) (by decide) ⟨' ' :: init, c, by rw [htext, List.cons_append], hc⟩
    hline

theorem hyphened_lineText (indent : Nat) {lines : List BlockLine}
    (h : ∀ line ∈ lines, LineText line.text) : ∀ line ∈ hyphened indent lines, LineText line.text := by
  cases lines with
  | nil => simp [hyphened]
  | cons first lines =>
      intro line hline
      rcases List.mem_cons.mp hline with rfl | hin
      · exact lineText_hyphen (h first List.mem_cons_self)
      · exact h line (List.mem_cons_of_mem first hin)

theorem lineText_entry {key : Scalar} (hvalid : key.Valid) {flow : Flow} (h : flow.ValidInline) :
    LineText (key.token ++ ':' :: ' ' :: flow.render) := by
  obtain ⟨⟨init, c, hrender, hc⟩, hline⟩ := Flow.render_line h
  refine lineText_key hvalid ⟨key.token ++ ':' :: ' ' :: init, c, ?_, hc⟩ ?_
  · simp only [hrender, List.append_assoc, List.cons_append]
  · simpa [OneLine] using hline

theorem lineText_parent {key : Scalar} (hvalid : key.Valid) : LineText (key.token ++ [':']) :=
  lineText_key hvalid ⟨key.token, ':', rfl, by decide⟩ (by simp [OneLine])

theorem lineText_item {flow : Flow} (h : flow.ValidInline) :
    LineText ('-' :: ' ' :: flow.render) := by
  obtain ⟨⟨init, c, hrender, hc⟩, hline⟩ := Flow.render_line h
  refine lineText_cons (by decide) (by decide) ⟨' ' :: init, c, ?_, hc⟩ ?_
  · rw [hrender, List.cons_append]
  · simpa [OneLine] using hline

/-- What stands alone on the only line of a document. -/
theorem lineText_flow {flow : Flow} (h : flow.ValidInline) : LineText flow.render := by
  have hline := (Flow.render_line h).2
  cases flow with
  | scalar s =>
      have hvalid : s.Valid := by simpa [Flow.ValidInline] using h
      have hlast := (Scalar.token_lead hvalid).solid.last
      have htext : LineText (s.token ++ []) :=
        lineText_key hvalid (by simpa using hlast) (by simp [OneLine])
      simpa [Flow.render] using htext
  | map entries =>
      refine lineText_cons (by decide) (by decide) ⟨entries.render, '}', rfl, by decide⟩ ?_
      simpa [OneLine, Flow.render] using hline
  | seq items =>
      refine lineText_cons (by decide) (by decide) ⟨items.render, ']', rfl, by decide⟩ ?_
      simpa [OneLine, Flow.render] using hline

mutual

theorem Entries.lineText (entries : Entries) (h : entries.Valid) (step indent : Nat) :
    ∀ line ∈ entries.lines step indent, LineText line.text := by
  cases entries with
  | nil => simp [Entries.lines]
  | cons key value others =>
      simp only [Entries.Valid] at h
      have hothers := Entries.lineText others h.2.2 step indent
      cases value with
      | inline flow =>
          simp only [Node.Valid] at h
          simp only [Entries.lines, List.forall_mem_cons]
          exact ⟨lineText_entry h.1 h.2.1, hothers⟩
      | map inner =>
          simp only [Node.Valid] at h
          have hinner := Entries.lineText inner h.2.1.2 step (indent + step)
          simp only [Entries.lines, List.forall_mem_cons, List.forall_mem_append]
          exact ⟨lineText_parent h.1, hinner, hothers⟩
      | seq inner =>
          simp only [Node.Valid] at h
          have hinner := Items.lineText inner h.2.1.2 step (indent + step)
          simp only [Entries.lines, List.forall_mem_cons, List.forall_mem_append]
          exact ⟨lineText_parent h.1, hinner, hothers⟩

theorem Items.lineText (items : Items) (h : items.Valid) (step indent : Nat) :
    ∀ line ∈ items.lines step indent, LineText line.text := by
  cases items with
  | nil => simp [Items.lines]
  | cons item others =>
      simp only [Items.Valid] at h
      have hothers := Items.lineText others h.2 step indent
      cases item with
      | inline flow =>
          simp only [Node.Valid] at h
          simp only [Items.lines, List.forall_mem_cons]
          exact ⟨lineText_item h.1, hothers⟩
      | map inner =>
          simp only [Node.Valid] at h
          have hinner := hyphened_lineText indent
            (Entries.lineText inner h.1.2 step (indent + 2))
          simp only [Items.lines, List.forall_mem_append]
          exact ⟨hinner, hothers⟩
      | seq inner =>
          simp only [Node.Valid] at h
          have hinner := hyphened_lineText indent
            (Items.lineText inner h.1.2 step (indent + 2))
          simp only [Items.lines, List.forall_mem_append]
          exact ⟨hinner, hothers⟩

end

theorem Node.lineText {node : Node} (h : node.Valid) (step indent : Nat) :
    ∀ line ∈ node.lines step indent, LineText line.text := by
  cases node with
  | inline flow =>
      simp only [Node.Valid] at h
      simpa [Node.lines] using lineText_flow h
  | map entries =>
      simp only [Node.Valid] at h
      simpa only [Node.lines] using Entries.lineText entries h.2 step indent
  | seq items =>
      simp only [Node.Valid] at h
      simpa only [Node.lines] using Items.lineText items h.2 step indent

/-! ## The scan of written lines -/

/-- A line with its indentation. -/
def BlockLine.raw (line : BlockLine) : Str := List.replicate line.indent ' ' ++ line.text

theorem byteLength_append (a b : Str) : byteLength (a ++ b) = byteLength a + byteLength b := by
  simp [byteLength]

theorem byteLength_blanks (n : Nat) : byteLength (List.replicate n ' ') = n := by
  induction n with
  | zero => rfl
  | succ n ih =>
      have hone : byteLength [' '] = 1 := by decide
      rw [List.replicate_succ, ← List.singleton_append, byteLength_append, ih, hone]
      omega

theorem BlockLine.trimEnd_raw {line : BlockLine} (h : Solid line.text) :
    trimEnd line.raw = line.raw := by
  obtain ⟨init, c, htext, hc⟩ := h.last
  rw [BlockLine.raw, htext, ← List.append_assoc, Text.trimEnd, List.rdropWhile_concat_neg]
  simpa using hc

theorem BlockLine.trimStart_raw {line : BlockLine} (h : Solid line.text) :
    trimStart line.raw = line.text := by
  have hblanks : ∀ c ∈ List.replicate line.indent ' ', isSpace c = true := by
    intro c hc
    obtain rfl := List.eq_of_mem_replicate hc
    decide
  rw [BlockLine.raw, trimStart, List.dropWhile_append_of_pos hblanks]
  exact h.trimStart

/-- A document marker is not indented. -/
theorem BlockLine.not_separator {line : BlockLine}
    (h : line.text ≠ lit "---" ∧ line.text ≠ lit "...") : isSeparator line.raw = false := by
  unfold BlockLine.raw isSeparator
  cases line.indent with
  | zero => simpa using h
  | succ n => simp [List.replicate_succ, lit]

theorem step_raw {line : BlockLine} (h : LineText line.text)
    (hmark : line.text ≠ lit "---" ∧ line.text ≠ lit "...") (documents : List (List BlockLine))
    (current : List BlockLine) :
    Scan.step ⟨documents, current, none⟩ line.raw =
      if contains (lit " #") line.text = true then .error (.inlineComment line.text)
      else .ok ⟨documents, current ++ [line], none⟩ := by
  obtain ⟨c, rest, htext, -⟩ := h.solid.head
  have hfirst := h.first c (by simp [htext])
  simp only [List.mem_cons, List.not_mem_nil, or_false, not_or] at hfirst
  have hignored : isIgnored line.text = false := by
    simp [isIgnored, htext, List.isPrefixOf, Ne.symm hfirst.1]
  have hkey : stripPrefix (lit "? ") line.text = none := by
    simp [stripPrefix, h.second]
  have hanchor : line.text.head?.any (· ∈ ['&', '*', '|']) = false := by
    simp [htext, hfirst.2.1, hfirst.2.2.1, hfirst.2.2.2]
  have hindent : byteLength line.raw - byteLength line.text = line.indent := by
    rw [BlockLine.raw, byteLength_append, byteLength_blanks]
    omega
  simp only [Scan.step, BlockLine.trimEnd_raw h.solid, BlockLine.not_separator hmark,
    BlockLine.trimStart_raw h.solid, hignored, if_neg Bool.false_ne_true, hindent, Scan.ordinary,
    hkey, hanchor, Scan.push]

theorem scan_lines {lines : List BlockLine}
    (h : ∀ line ∈ lines, LineText line.text ∧ line.text ≠ lit "---" ∧ line.text ≠ lit "...")
    (documents : List (List BlockLine)) (current : List BlockLine) :
    ((∀ line ∈ lines, contains (lit " #") line.text = false) →
      (lines.map BlockLine.raw).foldlM Scan.step ⟨documents, current, none⟩ =
        .ok ⟨documents, current ++ lines, none⟩) ∧
    (∀ scan, (lines.map BlockLine.raw).foldlM Scan.step ⟨documents, current, none⟩ = .ok scan →
      ∀ line ∈ lines, contains (lit " #") line.text = false) := by
  induction lines generalizing current with
  | nil => simp [pure, Except.pure]
  | cons line lines ih =>
      obtain ⟨htext, hmark⟩ := h line List.mem_cons_self
      have hstep := step_raw htext hmark documents current
      have hrest := ih (fun line hin => h line (List.mem_cons_of_mem _ hin)) (current ++ [line])
      simp only [List.map_cons, List.foldlM_cons, List.forall_mem_cons]
      constructor
      · rintro ⟨hline, hlines⟩
        rw [if_neg (by simp [hline])] at hstep
        rw [hstep]
        simpa [bind, Except.bind] using hrest.1 hlines
      · intro scan hscan
        by_cases hline : contains (lit " #") line.text = true
        · rw [hstep, if_pos hline] at hscan
          cases hscan
        · rw [hstep, if_neg hline] at hscan
          exact ⟨by simpa using hline, hrest.2 scan hscan⟩

theorem lines_textOf {lines : List BlockLine} (h : ∀ line ∈ lines, LineText line.text) :
    Lines.lines (textOf lines) = lines.map BlockLine.raw := by
  have hfeed : ∀ raw ∈ lines.map BlockLine.raw, '\n' ∉ raw := by
    intro raw hraw
    obtain ⟨line, hline, rfl⟩ := List.mem_map.mp hraw
    simp [BlockLine.raw, (h line hline).oneLine.1]
  have hreturn : ∀ raw ∈ lines.map BlockLine.raw, Lines.stripReturn raw = raw := by
    intro raw hraw
    obtain ⟨line, hline, rfl⟩ := List.mem_map.mp hraw
    obtain ⟨init, c, htext, hc⟩ := (h line hline).solid.last
    have hlast : line.raw.getLast? ≠ some '\r' := by
      rw [BlockLine.raw, htext, ← List.append_assoc, List.getLast?_concat]
      rintro heq
      cases heq
      exact absurd hc (by decide)
    rw [Lines.stripReturn, if_neg hlast]
  have hlines := Lines.lines_unlines hfeed
  rw [List.map_congr_left hreturn, List.map_id'] at hlines
  exact hlines

namespace Written

theorem lineTexts (d : Written) :
    ∀ line ∈ d.lines, LineText line.text ∧ line.text ≠ lit "---" ∧ line.text ≠ lit "..." :=
  fun line hline => ⟨Node.lineText d.valid d.step 0 line hline, d.unmarked line hline⟩

theorem lines_ne_nil (d : Written) : d.lines ≠ [] := by
  have hvalid := d.valid
  unfold Written.lines
  cases hroot : d.root with
  | inline flow => simp [Node.lines]
  | map entries =>
      simp only [hroot, Node.Valid] at hvalid
      obtain ⟨key, rest, lines, -, hlines⟩ := Entries.lines_first hvalid.1 hvalid.2 d.step 0
      simp [Node.lines, hlines]
  | seq items =>
      simp only [hroot, Node.Valid] at hvalid
      obtain ⟨text, lines, hlines⟩ := Items.lines_first items hvalid.1 hvalid.2 d.step 0
      simp [Node.lines, hlines]

theorem close_lines (d : Written) :
    (Scan.flush ⟨[], [] ++ d.lines, none⟩).close.documents = [d.lines] := by
  have hempty : d.lines.isEmpty = false := by simpa using d.lines_ne_nil
  simp [Scan.flush, Scan.close, hempty]

theorem parseDocument_eq_ok {fuel : Nat} {lines : List BlockLine} {tree : Yaml} :
    [lines].mapM (parseDocument fuel) = .ok [tree] ↔
      ∃ rest, parseBlock fuel 0 lines = .ok (tree, rest) := by
  rw [List.mapM_cons, List.mapM_nil]
  simp only [Except.bind_eq_ok, parseDocument]
  constructor
  · rintro ⟨tree', ⟨parts, hparts, htree⟩, others, hnil, heq⟩
    cases htree
    cases hnil
    obtain rfl : parts.1 = tree := by simpa [pure, Except.pure] using heq
    exact ⟨parts.2, hparts⟩
  · rintro ⟨rest, hread⟩
    exact ⟨tree, ⟨(tree, rest), hread, rfl⟩, [], rfl, rfl⟩

/-- A document is read as the only one, if no line has what looks like a comment. -/
theorem parseDocuments_text (d : Written) (fuel : Nat) (tree : Yaml) :
    parseDocuments fuel d.text = .ok [tree] ↔
      (∀ line ∈ d.lines, contains (lit " #") line.text = false) ∧
        ∃ rest, parseBlock fuel 0 d.lines = .ok (tree, rest) := by
  have hscan := scan_lines d.lineTexts [] []
  have hlines := lines_textOf fun line hline => (d.lineTexts line hline).1
  simp only [parseDocuments, scanDocuments, Written.text, hlines]
  constructor
  · intro h
    obtain ⟨documents, hdocuments, h⟩ := Except.bind_eq_ok.mp h
    obtain ⟨scan, hfold, hclose⟩ := Except.bind_eq_ok.mp hdocuments
    have hclean := hscan.2 scan hfold
    obtain rfl := Except.ok.inj (hfold.symm.trans (hscan.1 hclean))
    obtain rfl := Except.ok.inj hclose
    rw [close_lines] at h
    exact ⟨hclean, parseDocument_eq_ok.mp h⟩
  · rintro ⟨hclean, hread⟩
    rw [hscan.1 hclean]
    simp only [bind, Except.bind, close_lines]
    exact parseDocument_eq_ok.mpr hread

end Written

/-! ## The root -/

theorem Scalar.length_text_le (s : Scalar) : s.text.length ≤ s.token.length := by
  have hflat (f : Char → Str) (hf : ∀ c, 1 ≤ (f c).length) (text : Str) :
      text.length ≤ (text.flatMap f).length := by
    induction text with
    | nil => simp
    | cons c text ih =>
        have hc := hf c
        simp only [List.flatMap_cons, List.length_append, List.length_cons]
        omega
  unfold token
  cases s.style with
  | bare => exact le_rfl
  | single =>
      have hbody := hflat (fun c => if c = '\x27' then [c, c] else [c])
        (fun c => by split <;> simp) s.text
      simp only [List.cons_append, List.length_cons, List.length_append, doubled]
      omega
  | double =>
      have hbody := hflat (fun c => if c = '"' ∨ c = '\\' then ['\\', c] else [c])
        (fun c => by split <;> simp) s.text
      simp only [List.cons_append, List.length_cons, List.length_append, escaped]
      omega

/-- With a brace in front, no key is read. -/
theorem brace_not_read {key : Scalar} (hvalid : key.Valid) {rest : Str} {value : Option Str} :
    splitKey ('{' :: (key.token ++ ':' :: rest)) ≠ some (key.text, value) := by
  intro h
  obtain ⟨⟨before, behind⟩, hsplit, hparts⟩ := Option.map_eq_some_iff.mp h
  have hkey : unquote before = key.text := (Prod.mk.inj hparts).1
  obtain ⟨mid, hmid, htext⟩ := splitColon_eq hsplit
  obtain rfl : before = mid := by simpa using hmid
  have hcount : before.count ':' = ('{' :: key.token).count ':' := by
    rw [← count_colon_unquote, hkey, ← Scalar.count_colon_token]
    simp
  obtain ⟨rfl, -⟩ := split_at_colon (b := '{' :: key.token) htext.symm hcount
  -- The brace is part of the key that is read.
  have hlead := Scalar.token_lead hvalid
  obtain ⟨init, c, htoken, hc⟩ := hlead.solid.last
  have hsolid : Solid ('{' :: key.token) :=
    ⟨⟨'{', key.token, rfl, by decide⟩, ⟨'{' :: init, c, by rw [htoken, List.cons_append], hc⟩⟩
  have hread : unquote ('{' :: key.token) = '{' :: key.token := by
    simp [unquote, hsolid.trim, between]
  rw [hread] at hkey
  have hlength := congrArg List.length hkey
  have hle := Scalar.length_text_le key
  simp only [List.length_cons] at hlength
  omega

theorem isItem_render {flow : Flow} (h : flow.ValidInline) : isItem flow.render = false := by
  cases flow with
  | scalar s =>
      have hitem := isItem_key (by simpa [Flow.ValidInline] using h : s.Valid) []
      simpa [Flow.render] using hitem
  | map entries => simp [Flow.render, isItem, lit, List.isPrefixOf]
  | seq items => simp [Flow.render, isItem, lit, List.isPrefixOf]

/-- A map with one entry, whose line is read as the key of an entry. -/
theorem entry_of_parseEntries {fuel : Nat} {text : Str} {tree : Yaml} {rest : List BlockLine}
    (h : parseEntries fuel 0 [⟨0, text⟩] [] = .ok (tree, rest)) :
    ∃ key value node, splitKey text = some (key, value) ∧ tree = .map [(key, node)] := by
  have hend {fuel : Nat} {entries : List (Str × Yaml)} {lines : List BlockLine}
      (hlines : lines = []) (h : parseEntries fuel 0 lines entries = .ok (tree, rest)) :
      tree = .map entries := by
    subst hlines
    cases fuel with
    | zero => cases h
    | succ fuel =>
        cases h
        rfl
  cases fuel with
  | zero => cases h
  | succ fuel =>
      rw [parseEntries] at h
      simp only [lt_irrefl, if_false, ne_eq, not_true_eq_false] at h
      split at h
      · cases h
      · rename_i key inline hsplit
        obtain ⟨node, -, h⟩ := Except.bind_eq_ok.mp h
        exact ⟨key, some inline, node, hsplit, hend rfl h⟩
      · rename_i key hsplit
        obtain ⟨parts, hchild, h⟩ := Except.bind_eq_ok.mp h
        refine ⟨key, none, parts.1, hsplit, hend ?_ h⟩
        cases fuel with
        | zero => cases hchild
        | succ fuel =>
            cases hchild
            rfl

/-- What stands alone on a line is not a document. -/
theorem inline_not_read {flow : Flow} (h : flow.ValidInline) (fuel : Nat)
    (rest : List BlockLine) : parseBlock fuel 0 [⟨0, flow.render⟩] ≠ .ok (flow.value, rest) := by
  intro hread
  cases fuel with
  | zero => cases hread
  | succ fuel =>
      have hentries : parseEntries fuel 0 [⟨0, flow.render⟩] [] = .ok (flow.value, rest) := by
        simpa [parseBlock, isItem_render h] using hread
      obtain ⟨key, value, node, hsplit, htree⟩ := entry_of_parseEntries hentries
      cases flow with
      | scalar s => cases htree
      | seq items => cases htree
      | map entries =>
          cases entries with
          | nil => cases htree
          | cons key' value' others =>
              obtain rfl : key'.text = key := by
                have hlist := Yaml.map.inj htree
                simp only [FlowEntries.value, List.cons.injEq, Prod.mk.injEq] at hlist
                exact hlist.1.1
              have hvalid : key'.Valid := by
                simp only [Flow.ValidInline, FlowEntries.Valid] at h
                exact h.1.1
              simp only [Flow.render, FlowEntries.render, List.append_assoc, List.cons_append]
                at hsplit
              exact brace_not_read hvalid hsplit

/-! ## Which documents are read back -/

/-- A block as the root, read back, without number signs behind blanks. -/
structure Written.Supported (d : Written) : Prop where
  root : ∀ flow, d.root ≠ .inline flow
  good : d.root.Good
  clean : ∀ line ∈ d.lines, contains (lit " #") line.text = false

theorem root_reads {node : Node} (hvalid : node.Valid) {step : Nat} (hstep : 0 < step) :
    (∃ fuel rest, parseBlock fuel 0 (node.lines step 0) = .ok (node.value, rest)) ↔
      (∀ flow, node ≠ .inline flow) ∧ node.Good := by
  have hshallow : Shallower 0 [] := by
    intro line hline
    cases hline
  cases node with
  | inline flow =>
      simp only [Node.Valid] at hvalid
      refine ⟨fun ⟨fuel, rest, hread⟩ => ?_, fun h => absurd rfl (h.1 flow)⟩
      exact absurd hread (inline_not_read hvalid fuel rest)
  | map entries =>
      simp only [Node.Valid] at hvalid
      have hblock := parseBlock_map hvalid.1 hvalid.2 step 0 []
      simp only [List.append_nil] at hblock
      simp only [Node.lines, Node.value, Node.Good, ne_eq, reduceCtorEq, not_false_eq_true,
        implies_true, true_and]
      constructor
      · rintro ⟨fuel, rest, hread⟩
        cases fuel with
        | zero => cases hread
        | succ fuel =>
            rw [hblock] at hread
            have hentries : parseEntries fuel 0 (entries.lines step 0 ++ []) [] =
                .ok (.map ([] ++ entries.value), rest) := by
              simpa using hread
            exact Entries.good_of_read entries hvalid.2 hstep hshallow hentries
      · intro hgood
        obtain ⟨fuel, hread⟩ := (Entries.reads entries hvalid.2 hgood hstep hshallow []).reached
        exact ⟨fuel + 1, [], by rw [hblock]; simpa using hread⟩
  | seq items =>
      simp only [Node.Valid] at hvalid
      have hblock := parseBlock_seq hvalid.1 hvalid.2 step 0 []
      simp only [List.append_nil] at hblock
      simp only [Node.lines, Node.value, Node.Good, ne_eq, reduceCtorEq, not_false_eq_true,
        implies_true, true_and]
      constructor
      · rintro ⟨fuel, rest, hread⟩
        cases fuel with
        | zero => cases hread
        | succ fuel =>
            rw [hblock] at hread
            have hitems : parseItems fuel 0 (items.lines step 0 ++ []) [] =
                .ok (.seq ([] ++ items.value), rest) := by
              simpa using hread
            exact Items.good_of_read items hvalid.2 hitems
      · intro hgood
        obtain ⟨fuel, hread⟩ := (Items.reads items hvalid.2 hgood step hshallow []).reached
        exact ⟨fuel + 1, [], by rw [hblock]; simpa using hread⟩

theorem Written.read_iff_supported (d : Written) :
    (∃ fuel, parseDocuments fuel d.text = .ok [d.root.value]) ↔ d.Supported := by
  have hroot := root_reads d.valid d.step_pos
  simp only [Written.parseDocuments_text]
  constructor
  · rintro ⟨fuel, hclean, rest, hread⟩
    obtain ⟨hblock, hgood⟩ := hroot.mp ⟨fuel, rest, hread⟩
    exact ⟨hblock, hgood, hclean⟩
  · intro h
    obtain ⟨fuel, rest, hread⟩ := hroot.mpr ⟨h.root, h.good⟩
    exact ⟨fuel, h.clean, rest, hread⟩

end PnpmYaml
end Bpm
