import Bpm.Interchange.PnpmWritten

/-!
# Which lines become part of a document

The grammar of blocks says what each line contributes: an item of a sequence, an entry of a
map, or the key of an entry with a block below it.  A tree accounts for lines if it is
derived from them, with each line used once.  The reader ignores what stands behind a
sequence at the beginning of a document, and nothing else.
-/

namespace Bpm

open Text

namespace PnpmYaml

/-! ## What lines contribute -/

/-- What a text on a line stands for. -/
def InlineOf (text : Str) (tree : Yaml) : Prop := ∃ fuel, parseInline fuel text = .ok tree

/-- Each line is an item. -/
inductive ItemsOf (indent : Nat) : List BlockLine → List Yaml → Prop
  | nil : ItemsOf indent [] []
  | missing {line : BlockLine} {lines : List BlockLine} {items : List Yaml}
      (hindent : line.indent = indent) (hitem : isItem line.text = true)
      (htext : itemText line.text = []) (hrest : ItemsOf indent lines items) :
      ItemsOf indent (line :: lines) (.str [] :: items)
  | item {line : BlockLine} {lines : List BlockLine} {items : List Yaml} {tree : Yaml}
      (hindent : line.indent = indent) (hitem : isItem line.text = true)
      (htext : InlineOf (itemText line.text) tree) (hrest : ItemsOf indent lines items) :
      ItemsOf indent (line :: lines) (tree :: items)

mutual

/-- Each line is an entry or is below one. -/
inductive EntriesOf : Nat → List BlockLine → List (Str × Yaml) → Prop
  | nil {indent : Nat} : EntriesOf indent [] []
  | entry {indent : Nat} {line : BlockLine} {lines : List BlockLine}
      {entries : List (Str × Yaml)} {key value : Str} {tree : Yaml}
      (hindent : line.indent = indent) (hkey : splitKey line.text = some (key, some value))
      (hvalue : InlineOf value tree) (hrest : EntriesOf indent lines entries) :
      EntriesOf indent (line :: lines) ((key, tree) :: entries)
  | missing {indent : Nat} {line : BlockLine} {lines : List BlockLine}
      {entries : List (Str × Yaml)} {key : Str} (hindent : line.indent = indent)
      (hkey : splitKey line.text = some (key, none)) (hrest : EntriesOf indent lines entries) :
      EntriesOf indent (line :: lines) ((key, .str []) :: entries)
  | block {indent deeper : Nat} {line : BlockLine} {below lines : List BlockLine}
      {entries : List (Str × Yaml)} {key : Str} {tree : Yaml} (hindent : line.indent = indent)
      (hkey : splitKey line.text = some (key, none)) (hdeeper : indent < deeper)
      (hbelow : BlockOf deeper below tree) (hrest : EntriesOf indent lines entries) :
      EntriesOf indent (line :: (below ++ lines)) ((key, tree) :: entries)

/-- The lines of a sequence or a map. -/
inductive BlockOf : Nat → List BlockLine → Yaml → Prop
  | seq {indent : Nat} {lines : List BlockLine} {items : List Yaml}
      (h : ItemsOf indent lines items) : BlockOf indent lines (.seq items)
  | map {indent : Nat} {lines : List BlockLine} {entries : List (Str × Yaml)}
      (h : EntriesOf indent lines entries) : BlockOf indent lines (.map entries)

end

/-! ## What is read is derived from the lines that are used -/

/-- The lines behind a sequence do not begin with another item of it. -/
theorem parseItems_sound {fuel indent : Nat} {lines rest : List BlockLine} {before : List Yaml}
    {tree : Yaml} (h : parseItems fuel indent lines before = .ok (tree, rest)) :
    ∃ used items, lines = used ++ rest ∧ tree = .seq (before ++ items) ∧
      ItemsOf indent used items ∧
      ∀ line ∈ rest.head?, ¬(line.indent = indent ∧ isItem line.text = true) := by
  induction lines generalizing before with
  | nil =>
      cases h
      exact ⟨[], [], rfl, by simp, .nil, by simp⟩
  | cons line lines ih =>
      rw [parseItems] at h
      split at h
      · rename_i hstop
        cases h
        refine ⟨[], [], rfl, by simp, .nil, fun first hfirst hitem => ?_⟩
        obtain rfl : line = first := by simpa using hfirst
        rcases hstop with hstop | hstop
        · exact hstop hitem.1
        · simp [hitem.2] at hstop
      · rename_i hgo
        push Not at hgo
        have hitem : isItem line.text = true := by simpa using hgo.2
        simp only at h
        split at h
        · rename_i hempty
          obtain ⟨used, items, hlines, htree, hused, hrest⟩ := ih h
          exact ⟨line :: used, .str [] :: items, by simp [hlines], by simpa using htree,
            .missing hgo.1 hitem (by simpa using hempty) hused, hrest⟩
        · split at h
          · cases h
          · obtain ⟨item, hread, h⟩ := Except.bind_eq_ok.mp h
            obtain ⟨used, items, hlines, htree, hused, hrest⟩ := ih h
            exact ⟨line :: used, item :: items, by simp [hlines], by simpa using htree,
              .item hgo.1 hitem ⟨fuel, hread⟩ hused, hrest⟩

/-- What is below a key, if the blocks there are derived from their lines. -/
theorem parseChild_sound {fuel : Nat}
    (hentries : ∀ fuel' < fuel, ∀ {indent : Nat} {lines rest : List BlockLine}
      {before : List (Str × Yaml)} {tree : Yaml},
      parseEntries fuel' indent lines before = .ok (tree, rest) →
        ∃ used entries, lines = used ++ rest ∧ tree = .map (before ++ entries) ∧
          EntriesOf indent used entries ∧ Shallower indent rest)
    {indent : Nat} {lines rest : List BlockLine} {tree : Yaml}
    (h : parseChild fuel indent lines = .ok (tree, rest)) :
    (tree = .str [] ∧ rest = lines) ∨
      ∃ deeper used, indent < deeper ∧ lines = used ++ rest ∧ BlockOf deeper used tree := by
  cases fuel with
  | zero => cases h
  | succ fuel =>
      cases lines with
      | nil =>
          cases h
          exact .inl ⟨rfl, rfl⟩
      | cons child lines =>
          rw [parseChild] at h
          split at h
          · rename_i hdeep
            right
            refine ⟨child.indent, ?_⟩
            cases fuel with
            | zero => cases h
            | succ fuel =>
                rw [parseBlock] at h
                split at h
                · obtain ⟨used, items, hlines, rfl, hused, -⟩ := parseItems_sound h
                  exact ⟨used, hdeep, hlines, .seq hused⟩
                · rw [if_pos le_rfl] at h
                  obtain ⟨used, entries, hlines, rfl, hused, -⟩ := hentries fuel (by omega) h
                  exact ⟨used, hdeep, hlines, .map hused⟩
          · cases h
            exact .inl ⟨rfl, rfl⟩

theorem parseEntries_sound (fuel : Nat) {indent : Nat} {lines rest : List BlockLine}
    {before : List (Str × Yaml)} {tree : Yaml}
    (h : parseEntries fuel indent lines before = .ok (tree, rest)) :
    ∃ used entries, lines = used ++ rest ∧ tree = .map (before ++ entries) ∧
      EntriesOf indent used entries ∧ Shallower indent rest := by
  induction fuel using Nat.strong_induction_on generalizing indent lines rest before tree with
  | _ fuel ih =>
      cases fuel with
      | zero => cases h
      | succ fuel =>
          cases lines with
          | nil =>
              cases h
              exact ⟨[], [], rfl, by simp, .nil, by simp [Shallower]⟩
          | cons line lines =>
              rw [parseEntries] at h
              split at h
              · rename_i hout
                cases h
                exact ⟨[], [], rfl, by simp, .nil, by simpa [Shallower] using hout⟩
              · split at h
                · cases h
                · rename_i hindent
                  have hindent : line.indent = indent := not_not.mp hindent
                  split at h
                  · cases h
                  · rename_i key inline hkey
                    obtain ⟨node, hread, h⟩ := Except.bind_eq_ok.mp h
                    obtain ⟨used, entries, hlines, htree, hused, hrest⟩ :=
                      ih fuel (Nat.lt_succ_self fuel) h
                    exact ⟨line :: used, (key, node) :: entries, by simp [hlines],
                      by simpa using htree, .entry hindent hkey ⟨fuel, hread⟩ hused, hrest⟩
                  · rename_i key hkey
                    obtain ⟨⟨node, behind⟩, hchild, h⟩ := Except.bind_eq_ok.mp h
                    obtain ⟨used, entries, hlines, htree, hused, hrest⟩ :=
                      ih fuel (Nat.lt_succ_self fuel) h
                    have hbelow := parseChild_sound
                      (fun fuel' hlt => ih fuel' (Nat.lt_succ_of_lt hlt)) hchild
                    rcases hbelow with ⟨rfl, rfl⟩ | ⟨deeper, below, hdeeper, rfl, hblock⟩
                    · exact ⟨line :: used, (key, .str []) :: entries, by simp [hlines],
                        by simpa using htree, .missing hindent hkey hused, hrest⟩
                    · exact ⟨line :: (below ++ used), (key, node) :: entries, by simp [hlines],
                        by simpa using htree, .block hindent hkey hdeeper hblock hused, hrest⟩

/-! ## Documents -/

/-- A document that begins as a sequence goes on as one. -/
def Uniform (lines : List BlockLine) : Prop :=
  ∀ line ∈ lines.head?, line.indent = 0 ∧ isItem line.text = true →
    ∀ line ∈ lines, line.indent = 0 ∧ isItem line.text = true

theorem ItemsOf.isItem {indent : Nat} {lines : List BlockLine} {items : List Yaml}
    (h : ItemsOf indent lines items) :
    ∀ line ∈ lines, line.indent = indent ∧ PnpmYaml.isItem line.text = true := by
  induction h with
  | nil => simp
  | missing hindent hitem htext hrest ih => exact List.forall_mem_cons.mpr ⟨⟨hindent, hitem⟩, ih⟩
  | item hindent hitem htext hrest ih => exact List.forall_mem_cons.mpr ⟨⟨hindent, hitem⟩, ih⟩

/-- A document that is read accounts for its lines unless lines stand behind a sequence. -/
theorem parseDocument_accounts {fuel : Nat} {lines : List BlockLine} (hne : lines ≠ [])
    {tree : Yaml} (h : parseDocument fuel lines = .ok tree) : BlockOf 0 lines tree ↔ Uniform lines := by
  obtain ⟨⟨tree', rest⟩, hblock, heq⟩ := Except.bind_eq_ok.mp h
  obtain rfl : tree' = tree := Except.ok.inj heq
  cases fuel with
  | zero => cases hblock
  | succ fuel =>
      cases lines with
      | nil => exact absurd rfl hne
      | cons line lines =>
          rw [parseBlock] at hblock
          split at hblock
          · rename_i hitem
            obtain ⟨used, items, hlines, rfl, hused, hrest⟩ := parseItems_sound hblock
            constructor
            · intro hderived
              cases hderived with
              | seq hall => exact fun _ _ _ => hall.isItem
            · intro huniform
              have hall := huniform line rfl hitem
              -- The line behind the sequence would be another item.
              obtain rfl : rest = [] := by
                cases rest with
                | nil => rfl
                | cons first rest =>
                    exact absurd (hall first (by simp [hlines])) (hrest first rfl)
              rw [hlines, List.append_nil]
              exact .seq hused
          · rename_i hitem
            rw [if_pos (Nat.zero_le _)] at hblock
            obtain ⟨used, entries, hlines, rfl, hused, hrest⟩ := parseEntries_sound fuel hblock
            refine iff_of_true ?_ fun first hfirst hfirstItem => ?_
            · obtain rfl : rest = [] := by
                cases rest with
                | nil => rfl
                | cons first rest => exact absurd (hrest first rfl) (Nat.not_lt_zero _)
              rw [hlines, List.append_nil]
              exact .map hused
            · obtain rfl : line = first := by simpa using hfirst
              exact absurd hfirstItem hitem

/-! ## What the lines of a text contribute to its documents -/

/-- A line that is neither blank nor a comment nor a document marker, without its indentation. -/
structure Content (raw : Str) (line : BlockLine) : Prop where
  unmarked : isSeparator (trimEnd raw) = false
  text : trimStart (trimEnd raw) = line.text
  content : isIgnored line.text = false
  indent : byteLength (trimEnd raw) - byteLength line.text = line.indent

/-- The line with the value of an explicit key. -/
def IsValue (key line : BlockLine) : Prop :=
  [':'].isPrefixOf line.text = true ∧ line.indent = key.indent

/-- A key without a value. -/
def loneKey (key : BlockLine) : BlockLine := ⟨key.indent, key.text ++ [':']⟩

/-- An explicit key and its value as ordinary lines. -/
def entryLines (key : BlockLine) (inline : Str) : List BlockLine :=
  match splitKey inline with
  | some (name, some value) => [loneKey key, ⟨key.indent + 2, name ++ lit ": " ++ value⟩]
  | some (name, none) => [loneKey key, ⟨key.indent + 2, name ++ [':']⟩]
  | none => [⟨key.indent, key.text ++ lit ": " ++ inline⟩]

/-- The lines of a text, behind an explicit key if one waits for its value: those of the
document that goes on, and those of the documents behind it. -/
inductive Gathers : Option BlockLine → List Str → List BlockLine → List (List BlockLine) → Prop
  | done : Gathers none [] [] []
  | last {key : BlockLine} : Gathers (some key) [] [loneKey key] []
  | cut {pending : Option BlockLine} {raw : Str} {raws : List Str} {lines : List BlockLine}
      {others : List (List BlockLine)} (hmark : isSeparator (trimEnd raw) = true)
      (hrest : Gathers pending raws lines others) :
      Gathers pending (raw :: raws) [] (lines :: others)
  | skip {pending : Option BlockLine} {raw : Str} {raws : List Str} {lines : List BlockLine}
      {others : List (List BlockLine)} (hunmarked : isSeparator (trimEnd raw) = false)
      (hignored : isIgnored (trimStart (trimEnd raw)) = true)
      (hrest : Gathers pending raws lines others) : Gathers pending (raw :: raws) lines others
  | line {raw : Str} {raws : List Str} {line : BlockLine} {lines : List BlockLine}
      {others : List (List BlockLine)} (hcontent : Content raw line)
      (hkey : stripPrefix (lit "? ") line.text = none)
      (hrest : Gathers none raws lines others) : Gathers none (raw :: raws) (line :: lines) others
  | key {raw key : Str} {raws : List Str} {line : BlockLine} {lines : List BlockLine}
      {others : List (List BlockLine)} (hcontent : Content raw line)
      (hkey : stripPrefix (lit "? ") line.text = some key)
      (hrest : Gathers (some ⟨line.indent, unquote key⟩) raws lines others) :
      Gathers none (raw :: raws) lines others
  | value {raw : Str} {raws : List Str} {key line : BlockLine} {lines : List BlockLine}
      {others : List (List BlockLine)} (hcontent : Content raw line) (hvalue : IsValue key line)
      (hrest : Gathers none raws lines others) :
      Gathers (some key) (raw :: raws) (entryLines key (trim line.text.tail) ++ lines) others
  | lone {raw : Str} {raws : List Str} {key line : BlockLine} {lines : List BlockLine}
      {others : List (List BlockLine)} (hcontent : Content raw line) (hvalue : ¬IsValue key line)
      (hrest : Gathers none (raw :: raws) lines others) :
      Gathers (some key) (raw :: raws) (loneKey key :: lines) others

/-- A document has a line. -/
def documentsOf (groups : List (List BlockLine)) : List (List BlockLine) :=
  groups.filter fun lines => !lines.isEmpty

/-- Each line of a text that is neither blank nor a comment is part of a document, and the
document's tree is derived from its lines. -/
def Accounted (text : Str) (trees : List Yaml) : Prop :=
  ∃ lines others, Gathers none (Lines.lines text) lines others ∧
    List.Forall₂ (BlockOf 0) (documentsOf (lines :: others)) trees

/-- No document goes on behind a sequence that it began as. -/
def UniformText (text : Str) : Prop :=
  ∀ lines others, Gathers none (Lines.lines text) lines others →
    ∀ group ∈ documentsOf (lines :: others), Uniform group

/-! ## The scan gathers the lines -/

theorem explicit_eq (scan : Scan) (key : BlockLine) (inline : Str) :
    scan.explicit key inline = { scan with current := scan.current ++ entryLines key inline } := by
  unfold Scan.explicit entryLines
  cases hsplit : splitKey inline with
  | none => rfl
  | some parts =>
      obtain ⟨name, value⟩ := parts
      cases value with
      | none => simp [Scan.push, loneKey]
      | some value => simp [Scan.push, loneKey]

variable {scan : Scan} {raw : Str} {line : BlockLine}

theorem step_cut (hmark : isSeparator (trimEnd raw) = true) : scan.step raw = .ok scan.close := by
  simp [Scan.step, hmark]

theorem step_skip (hunmarked : isSeparator (trimEnd raw) = false)
    (hignored : isIgnored (trimStart (trimEnd raw)) = true) : scan.step raw = .ok scan := by
  simp [Scan.step, hunmarked, hignored]

theorem step_content (h : Content raw line) (hpending : scan.pending = none) :
    scan.step raw = scan.ordinary line.indent line.text := by
  simp [Scan.step, h.unmarked, h.text, h.content, h.indent, hpending]

theorem step_value (h : Content raw line) {key : BlockLine} (hpending : scan.pending = some key)
    (hvalue : IsValue key line) :
    scan.step raw = .ok { scan with
      current := scan.current ++ entryLines key (trim line.text.tail), pending := none } := by
  unfold IsValue at hvalue
  simp only [Scan.step, h.unmarked, h.text, h.content, h.indent, hpending, if_neg Bool.false_ne_true,
    if_pos hvalue, explicit_eq]

theorem step_lone (h : Content raw line) {key : BlockLine} (hpending : scan.pending = some key)
    (hvalue : ¬IsValue key line) :
    scan.step raw = Scan.step { scan with current := scan.current ++ [loneKey key], pending := none }
      raw := by
  have hflush : scan.flush =
      { scan with current := scan.current ++ [loneKey key], pending := none } := by
    simp [Scan.flush, hpending, Scan.push, loneKey]
  have hnone : scan.flush.pending = none := by rw [hflush]
  rw [← hflush, step_content h hnone]
  unfold IsValue at hvalue
  simp only [Scan.step, h.unmarked, h.text, h.content, h.indent, hpending, if_neg Bool.false_ne_true,
    if_neg hvalue]

theorem ordinary_ok {indent : Nat} {text : Str} {next : Scan}
    (h : scan.ordinary indent text = .ok next) :
    (∃ key, stripPrefix (lit "? ") text = some key ∧
      next = { scan with pending := some ⟨indent, unquote key⟩ }) ∨
    stripPrefix (lit "? ") text = none ∧
      next = { scan with current := scan.current ++ [⟨indent, text⟩] } := by
  unfold Scan.ordinary at h
  split at h
  · rename_i key hkey
    exact .inl ⟨key, hkey, (Except.ok.inj h).symm⟩
  · rename_i hkey
    split at h
    · cases h
    · split at h
      · cases h
      · exact .inr ⟨hkey, (Except.ok.inj h).symm⟩

theorem content_of_not_ignored {raw : Str} (hunmarked : isSeparator (trimEnd raw) = false)
    (hignored : isIgnored (trimStart (trimEnd raw)) = false) : ∃ line, Content raw line :=
  ⟨⟨byteLength (trimEnd raw) - byteLength (trimStart (trimEnd raw)), trimStart (trimEnd raw)⟩,
    hunmarked, rfl, hignored, rfl⟩

/-- A text that the scan comes through has its lines gathered. -/
theorem gathers_of_scan (raws : List Str) {scan scan' : Scan}
    (h : raws.foldlM Scan.step scan = .ok scan') :
    ∃ lines others, Gathers scan.pending raws lines others := by
  induction raws generalizing scan with
  | nil =>
      cases hpending : scan.pending with
      | none => exact ⟨_, _, .done⟩
      | some key => exact ⟨_, _, .last⟩
  | cons raw raws ih =>
      rw [List.foldlM_cons] at h
      obtain ⟨next, hstep, hrest⟩ := Except.bind_eq_ok.mp h
      have hnone {scan : Scan} {line : BlockLine} (hcontent : Content raw line)
          (hpending : scan.pending = none) (hstep : scan.step raw = .ok next) :
          ∃ lines others, Gathers none (raw :: raws) lines others := by
        obtain ⟨lines, others, hgathers⟩ := ih hrest
        rw [step_content hcontent hpending] at hstep
        rcases ordinary_ok hstep with ⟨key, hkey, rfl⟩ | ⟨hkey, rfl⟩
        · exact ⟨lines, others, .key hcontent hkey hgathers⟩
        · simp only [hpending] at hgathers
          exact ⟨line :: lines, others, .line hcontent hkey hgathers⟩
      by_cases hmark : isSeparator (trimEnd raw) = true
      · rw [step_cut hmark] at hstep
        cases hstep
        obtain ⟨lines, others, hgathers⟩ := ih hrest
        have hpending : scan.close.pending = scan.pending := by
          unfold Scan.close
          split <;> rfl
        exact ⟨[], lines :: others, .cut hmark (hpending ▸ hgathers)⟩
      have hunmarked : isSeparator (trimEnd raw) = false := by simpa using hmark
      by_cases hignored : isIgnored (trimStart (trimEnd raw)) = true
      · rw [step_skip hunmarked hignored] at hstep
        cases hstep
        obtain ⟨lines, others, hgathers⟩ := ih hrest
        exact ⟨lines, others, .skip hunmarked hignored hgathers⟩
      obtain ⟨line, hcontent⟩ := content_of_not_ignored hunmarked (by simpa using hignored)
      cases hpending : scan.pending with
      | none => exact hnone hcontent hpending hstep
      | some key =>
          by_cases hvalue : IsValue key line
          · rw [step_value hcontent hpending hvalue] at hstep
            cases hstep
            obtain ⟨lines, others, hgathers⟩ := ih hrest
            exact ⟨_, others, .value hcontent hvalue hgathers⟩
          · rw [step_lone hcontent hpending hvalue] at hstep
            obtain ⟨lines, others, hgathers⟩ := hnone hcontent rfl hstep
            exact ⟨_, others, .lone hcontent hvalue hgathers⟩

theorem documentsOf_cons (lines : List BlockLine) (others : List (List BlockLine)) :
    documentsOf (lines :: others) = documentsOf [lines] ++ documentsOf others := by
  unfold documentsOf
  rw [← List.filter_append]
  rfl

theorem close_documents (scan : Scan) :
    scan.close.documents = scan.documents ++ documentsOf [scan.current] := by
  unfold Scan.close documentsOf
  cases hcurrent : scan.current.isEmpty with
  | true => simp [hcurrent]
  | false => simp [hcurrent]

/-- The documents of the scan are the gathered lines. -/
theorem scan_of_gathers {pending : Option BlockLine} {raws : List Str} {lines : List BlockLine}
    {others : List (List BlockLine)} (hgathers : Gathers pending raws lines others)
    {scan scan' : Scan} (hpending : scan.pending = pending)
    (h : raws.foldlM Scan.step scan = .ok scan') :
    scan'.flush.close.documents =
      scan.documents ++ documentsOf ((scan.current ++ lines) :: others) := by
  induction hgathers generalizing scan with
  | done =>
      obtain rfl : scan = scan' := Except.ok.inj h
      have hflush : scan.flush = scan := by simp [Scan.flush, hpending]
      rw [hflush, close_documents, List.append_nil]
  | last =>
      obtain rfl : scan = scan' := Except.ok.inj h
      rw [close_documents]
      simp [Scan.flush, hpending, Scan.push, loneKey]
  | cut hmark hrest ih =>
      rw [List.foldlM_cons, step_cut hmark] at h
      have hclose : scan.close.pending = scan.pending ∧ scan.close.current = [] := by
        unfold Scan.close
        split
        · rename_i hempty
          exact ⟨rfl, by simpa using hempty⟩
        · exact ⟨rfl, rfl⟩
      rw [ih (hclose.1.trans hpending) h, close_documents, hclose.2, List.append_nil,
        List.nil_append, documentsOf_cons scan.current (_ :: _), List.append_assoc]
  | skip hunmarked hignored hrest ih =>
      rw [List.foldlM_cons, step_skip hunmarked hignored] at h
      exact ih hpending h
  | line hcontent hkey hrest ih =>
      rw [List.foldlM_cons] at h
      obtain ⟨next, hstep, hfold⟩ := Except.bind_eq_ok.mp h
      rw [step_content hcontent hpending] at hstep
      rcases ordinary_ok hstep with ⟨key', hkey', -⟩ | ⟨-, hnext⟩
      · rw [hkey] at hkey'
        cases hkey'
      · rw [ih (by rw [hnext]; exact hpending) hfold, hnext]
        simp
  | key hcontent hkey hrest ih =>
      rw [List.foldlM_cons] at h
      obtain ⟨next, hstep, hfold⟩ := Except.bind_eq_ok.mp h
      rw [step_content hcontent hpending] at hstep
      rcases ordinary_ok hstep with ⟨key', hkey', hnext⟩ | ⟨hkey', -⟩
      · obtain rfl := Option.some.inj (hkey.symm.trans hkey')
        rw [ih (by rw [hnext]) hfold, hnext]
      · rw [hkey] at hkey'
        cases hkey'
  | value hcontent hvalue hrest ih =>
      rw [List.foldlM_cons] at h
      obtain ⟨next, hstep, hfold⟩ := Except.bind_eq_ok.mp h
      have hnext := Except.ok.inj ((step_value hcontent hpending hvalue).symm.trans hstep)
      rw [ih (by rw [← hnext]) hfold, ← hnext, List.append_assoc]
  | lone hcontent hvalue hrest ih =>
      rw [List.foldlM_cons, step_lone hcontent hpending hvalue, ← List.foldlM_cons] at h
      rw [ih (by rfl) h]
      simp

theorem scanDocuments_eq {text : Str} {documents : List (List BlockLine)}
    (h : scanDocuments text = .ok documents) :
    (∃ lines others, Gathers none (Lines.lines text) lines others) ∧
      ∀ lines others, Gathers none (Lines.lines text) lines others →
        documents = documentsOf (lines :: others) := by
  obtain ⟨scan, hfold, hclose⟩ := Except.bind_eq_ok.mp h
  cases hclose
  refine ⟨gathers_of_scan _ hfold, fun lines others hgathers => ?_⟩
  simpa using scan_of_gathers hgathers rfl hfold

theorem documents_account {fuel : Nat} {groups : List (List BlockLine)} {trees : List Yaml}
    (hne : ∀ group ∈ groups, group ≠ [])
    (h : groups.mapM (parseDocument fuel) = .ok trees) :
    List.Forall₂ (BlockOf 0) groups trees ↔ ∀ group ∈ groups, Uniform group := by
  induction groups generalizing trees with
  | nil =>
      cases h
      simp
  | cons group groups ih =>
      rw [List.mapM_cons] at h
      obtain ⟨tree, hread, h⟩ := Except.bind_eq_ok.mp h
      obtain ⟨rest, hrest, h⟩ := Except.bind_eq_ok.mp h
      cases h
      rw [List.forall₂_cons, List.forall_mem_cons,
        parseDocument_accounts (hne group List.mem_cons_self) hread,
        ih (fun group hin => hne group (List.mem_cons_of_mem _ hin)) hrest]

/-- What is read accounts for every line unless lines stand behind a sequence at the beginning
of a document. -/
theorem accounted_iff_uniform {text : Str} {fuel : Nat} {trees : List Yaml}
    (h : parseDocuments fuel text = .ok trees) : Accounted text trees ↔ UniformText text := by
  obtain ⟨documents, hscan, hread⟩ := Except.bind_eq_ok.mp h
  obtain ⟨⟨lines, others, hgathers⟩, hunique⟩ := scanDocuments_eq hscan
  have hne : ∀ group ∈ documents, group ≠ [] := by
    rw [hunique lines others hgathers]
    intro group hgroup hempty
    simp [documentsOf, hempty] at hgroup
  have hall := documents_account hne hread
  unfold Accounted UniformText
  constructor
  · rintro ⟨lines', others', hgathers', htrees⟩ lines'' others'' hgathers''
    rw [← hunique lines' others' hgathers'] at htrees
    rw [← hunique lines'' others'' hgathers'']
    exact hall.mp htrees
  · intro huniform
    refine ⟨lines, others, hgathers, ?_⟩
    have hgroups := huniform lines others hgathers
    rw [← hunique lines others hgathers] at hgroups ⊢
    exact hall.mpr hgroups

/-! ## What the reader gives back and what it drops -/

/-- Written documents are read back exactly where they are supported, and a text that is read
accounts for each of its lines exactly where no document goes on behind a sequence. -/
theorem parseDocuments_faithful_iff (d : Written) (text : Str) :
    ((∃ fuel, parseDocuments fuel d.text = .ok [d.root.value]) ↔ d.Supported) ∧
      ∀ fuel trees, parseDocuments fuel text = .ok trees →
        (Accounted text trees ↔ UniformText text) :=
  ⟨d.read_iff_supported, fun _ _ h => accounted_iff_uniform h⟩

namespace Example

def bare (c : Char) : Scalar := ⟨.bare, [c]⟩

/-- A map with the entry `a`, which has a sequence in a map on its line. -/
def nestedFlow : Node :=
  .map (.cons (bare 'a')
    (.inline (.map (.cons (bare 'b') (.seq (.cons (.scalar (bare 'c')) .nil)) .nil))) .nil)

theorem bare_valid {c : Char} (hlead : c ∉ Scalar.indicators) (htrim : trim [c] = [c])
    (hline : c ≠ '\n' ∧ c ≠ '\r') (hcolon : c ≠ ':') : (bare c).Valid := by
  refine ⟨?_, fun _ => ⟨⟨c, [], rfl, .inl hlead⟩, htrim, ?_, ?_, ?_⟩⟩
  · simpa [bare, eq_comm] using hline
  · simp [bare, contains, lit, List.isPrefixOf]
  · simpa [bare] using hcolon
  · simp [bare, contains, lit, List.isPrefixOf]

theorem nestedFlow_valid : nestedFlow.Valid := by
  have ha : (bare 'a').Valid :=
    bare_valid (by decide) (by decide) (by decide) (by decide)
  have hb : (bare 'b').Valid :=
    bare_valid (by decide) (by decide) (by decide) (by decide)
  have hc : (bare 'c').Valid :=
    bare_valid (by decide) (by decide) (by decide) (by decide)
  simp only [nestedFlow, Node.Valid, Entries.Valid, Flow.ValidInline, FlowEntries.Valid, Flow.Valid,
    FlowItems.Valid, Scalar.ValidFlow, ha, hb, hc, true_and, and_true]
  refine ⟨by simp, fun _ c hc => ?_, fun _ c hc => ?_⟩
  · obtain rfl : c = 'b' := by simpa [bare] using hc
    decide
  · obtain rfl : c = 'c' := by simpa [bare] using hc
    decide

def nested : Written where
  root := nestedFlow
  step := 2
  step_pos := by decide
  valid := nestedFlow_valid
  unmarked := by decide

/-- A sequence with an entry behind it. -/
def sequenceThenEntry : Str := lit "- a\nb: c\n"

theorem sequenceThenEntry_scan :
    scanDocuments sequenceThenEntry = .ok [[⟨0, lit "- a"⟩, ⟨0, lit "b: c"⟩]] := by
  decide

theorem sequenceThenEntry_read :
    parseDocuments 1 sequenceThenEntry = .ok [.seq [.str (lit "a")]] := by
  have hfirst : isItem (lit "- a") = true ∧ itemText (lit "- a") = lit "a" := by decide
  have hitem : splitKey (lit "a") = none ∧ opensFlow (lit "a") = false ∧
      (lit "a").contains '\n' = false ∧ unquote (lit "a") = lit "a" ∧
        (lit "a").isEmpty = false := by
    decide
  have hsecond : isItem (lit "b: c") = false := by decide
  simp only [parseDocuments, sequenceThenEntry_scan, bind, Except.bind, List.mapM_cons,
    List.mapM_nil, parseDocument, parseBlock, parseItems, parseInline, hfirst, hitem, hsecond]
  simp [pure, Except.pure]

theorem parseDocuments_faithful_sequence :
    Accounted sequenceThenEntry [.seq [.str (lit "a")]] ↔ UniformText sequenceThenEntry :=
  (parseDocuments_faithful_iff nested sequenceThenEntry).2 1 _ sequenceThenEntry_read

/-- A collection as a value in a flow map is not read back, and the line behind the sequence
is dropped. -/
theorem parseDocuments_unfaithful :
    nested.text = lit "a: \x7bb: [c]\x7d\n" ∧
    (¬∃ fuel, parseDocuments fuel nested.text = .ok [nested.root.value]) ∧
    (∃ fuel trees, parseDocuments fuel sequenceThenEntry = .ok trees ∧
      ¬Accounted sequenceThenEntry trees) := by
  refine ⟨by decide, fun hread => ?_, 1, _, sequenceThenEntry_read, fun haccounted => ?_⟩
  · have hgood := (nested.read_iff_supported.mp hread).good
    simp [nested, nestedFlow, Node.Good, Entries.Good, Flow.GoodInline, FlowEntries.Good] at hgood
  · obtain ⟨⟨lines, others, hgathers⟩, hunique⟩ := scanDocuments_eq sequenceThenEntry_scan
    have huniform := (accounted_iff_uniform sequenceThenEntry_read).mp haccounted lines others hgathers
    rw [← hunique lines others hgathers] at huniform
    have hall := huniform _ (List.mem_singleton_self _) ⟨0, lit "- a"⟩ rfl (by decide)
      ⟨0, lit "b: c"⟩ (by simp)
    exact absurd hall (by decide)

end Example

end PnpmYaml
end Bpm
