import Bpm.Interchange.PnpmFlows

/-!
# Reading written blocks

A block is read back exactly when its keys are good, what it has on single lines is read
back, and the items of its sequences are on single lines without a separator: a collection
in block style is not recognised behind a hyphen.
-/

namespace Bpm

open Text Fuel

namespace PnpmYaml

/-! ## Which blocks are read back -/

/-- What is read back on a line of its own. -/
def Flow.GoodInline : Flow → Prop
  | .scalar s => s.Plain
  | .map entries => entries.Good
  | .seq items => items.Good

mutual

def Node.Good : Node → Prop
  | .inline flow => flow.GoodInline
  | .map entries => entries.Good
  | .seq items => items.Good

def Entries.Good : Entries → Prop
  | .nil => True
  | .cons key value rest => key.GoodKey endsKey ∧ value.Good ∧ rest.Good

def Items.Good : Items → Prop
  | .nil => True
  | .cons (.inline flow) rest => flow.GoodInline ∧ splitKey flow.render = none ∧ rest.Good
  | .cons (.map _) _ => False
  | .cons (.seq _) _ => False

end

/-! ## Values on a line -/

theorem Flow.opensFlow_render {v : Flow} (h : v.ValidInline) :
    opensFlow v.render = true ↔ ∀ s, v ≠ .scalar s := by
  cases v with
  | scalar s =>
      have hopens := token_opens (by simpa [Flow.ValidInline] using h : s.Valid) []
      simp only [List.append_nil] at hopens
      simp [Flow.render, hopens]
  | map entries => simp [Flow.render, opensFlow]
  | seq items => simp [Flow.render, opensFlow]

theorem token_oneLine {s : Scalar} (h : s.Valid) : '\n' ∉ s.token ∧ '\r' ∉ s.token :=
  ⟨fun hin => h.oneLine.1 (Scalar.mem_text_of_mem_token hin (by decide)),
    fun hin => h.oneLine.2 (Scalar.mem_text_of_mem_token hin (by decide))⟩

theorem closed_nil : Closed [] := by
  intro c hc
  cases hc

/-- A scalar on a line of its own is read without its marks. -/
theorem parseInline_scalar {s : Scalar} (h : s.Valid) (fuel : Nat) :
    parseInline fuel s.token = .ok (.str (unquote s.token)) := by
  have hopens := token_opens h []
  have hline : s.token.contains '\n' = false := by
    simpa using (token_oneLine h).1
  simp only [List.append_nil] at hopens
  simp only [parseInline, hopens, hline, if_neg Bool.false_ne_true]

theorem parseInline_collection {v : Flow} (h : v.ValidInline) (hne : ∀ s, v ≠ .scalar s)
    (fuel : Nat) : parseInline fuel v.render = (parseFlow fuel (v.render ++ []) >>= fun parts =>
      if (trim parts.2).isEmpty then .ok parts.1 else .error (.trailingContent parts.2)) := by
  rw [List.append_nil]
  simp only [parseInline, (Flow.opensFlow_render h).mpr hne, if_true]

theorem Flow.valid_of_inline {v : Flow} (h : v.ValidInline) (hne : ∀ s, v ≠ .scalar s) :
    v.Valid ∧ (v.GoodInline ↔ v.Good) := by
  cases v with
  | scalar s => exact absurd rfl (hne s)
  | map entries => simpa [Flow.Valid, Flow.ValidInline, Flow.Good, Flow.GoodInline] using h
  | seq items => simpa [Flow.Valid, Flow.ValidInline, Flow.Good, Flow.GoodInline] using h

theorem Flow.reads_inline (v : Flow) (h : v.ValidInline) (hgood : v.GoodInline) :
    Settles .outOfFuel (fun fuel => parseInline fuel v.render) (.ok v.value) := by
  by_cases hscalar : ∃ s, v = .scalar s
  · obtain ⟨s, rfl⟩ := hscalar
    have hvalid : s.Valid := by simpa [Flow.ValidInline] using h
    have hplain : s.Plain := by simpa [Flow.GoodInline] using hgood
    have hread : (fun fuel => parseInline fuel (Flow.scalar s).render) =
        fun _ => .ok (Flow.scalar s).value := by
      funext fuel
      simp [Flow.render, Flow.value, parseInline_scalar hvalid, (Scalar.unquote_token hvalid).mpr hplain]
    rw [hread]
    exact Settles.const _
  · have hne : ∀ s, v ≠ .scalar s := fun s heq => hscalar ⟨s, heq⟩
    obtain ⟨hvalid, hiff⟩ := Flow.valid_of_inline h hne
    simp only [parseInline_collection h hne]
    exact (Flow.reads v hvalid (hiff.mp hgood) closed_nil).andThen (Settles.const _)

theorem Flow.goodInline_of_read (v : Flow) (h : v.ValidInline) {fuel : Nat}
    (hread : parseInline fuel v.render = .ok v.value) : v.GoodInline := by
  by_cases hscalar : ∃ s, v = .scalar s
  · obtain ⟨s, rfl⟩ := hscalar
    have hvalid : s.Valid := by simpa [Flow.ValidInline] using h
    have hstr : parseInline fuel s.token = .ok (.str s.text) := by
      simpa [Flow.render, Flow.value] using hread
    rw [parseInline_scalar hvalid] at hstr
    simp only [Flow.GoodInline]
    exact (Scalar.unquote_token hvalid).mp (Yaml.str.inj (Except.ok.inj hstr))
  · have hne : ∀ s, v ≠ .scalar s := fun s heq => hscalar ⟨s, heq⟩
    obtain ⟨hvalid, hiff⟩ := Flow.valid_of_inline h hne
    rw [parseInline_collection h hne] at hread
    obtain ⟨⟨tree, rest⟩, hflow, hend⟩ := Except.bind_eq_ok.mp hread
    simp only at hend
    split at hend
    · cases hend
      exact hiff.mpr (Flow.good_of_read v hvalid closed_nil hflow)
    · cases hend

/-! ## Written lines -/

/-- What a line with a key has behind the colon. -/
def valuePart (rest : Str) : Option Str := if (trim rest).isEmpty then none else some (trim rest)

theorem splitKey_good {key : Scalar} (hvalid : key.Valid) (hgood : key.GoodKey endsKey) {rest : Str}
    (hends : endsKey rest = true) :
    splitKey (key.token ++ ':' :: rest) = some (key.text, valuePart rest) := by
  obtain ⟨hsplit, hkey⟩ := hgood.split endsKey_near hvalid rest hends
  simp only [splitKey, hsplit, Option.map_some, hkey, valuePart]

theorem goodKey_of_splitKey {key : Scalar} (hvalid : key.Valid) {rest : Str} {value : Option Str}
    (h : splitKey (key.token ++ ':' :: rest) = some (key.text, value)) :
    key.GoodKey endsKey ∧ value = valuePart rest := by
  obtain ⟨⟨key', rest'⟩, hsplit, hparts⟩ := Option.map_eq_some_iff.mp h
  have hpair := Prod.mk.inj hparts
  obtain ⟨hgood, rfl⟩ := Scalar.goodKey_of_split endsKey_near hvalid hsplit hpair.1
  exact ⟨hgood, hpair.2.symm⟩

theorem valuePart_render {v : Flow} (h : v.ValidInline) :
    valuePart (' ' :: v.render) = some v.render := by
  have hsolid := (Flow.opening h).solid
  have hempty : v.render.isEmpty = false := by simpa using hsolid.ne_nil
  simp only [valuePart, hsolid.trim_space, hempty, if_neg Bool.false_ne_true]

theorem isItem_key {key : Scalar} (hvalid : key.Valid) (rest : Str) :
    isItem (key.token ++ rest) = false := by
  have hlead := Scalar.token_lead hvalid
  obtain ⟨c, token, htoken, -⟩ := hlead.solid.head
  by_cases hc : c = '-'
  · -- A hyphen at the beginning of a token has no blank behind it.
    have hsecond := hlead.second c token htoken (by simp [hc])
    cases token with
    | nil => simp at hsecond
    | cons d token =>
        have hd : d ≠ ' ' := by
          rintro rfl
          simp [isSpace] at hsecond
        simp [htoken, isItem, lit, List.isPrefixOf, Ne.symm hd]
  · simp [htoken, isItem, lit, List.isPrefixOf, hc, Ne.symm hc]

theorem isItem_hyphen (text : Str) : isItem ('-' :: ' ' :: text) = true := by
  simp [isItem, lit]

theorem itemText_hyphen (text : Str) : itemText ('-' :: ' ' :: text) = trim text := by
  simp [itemText, stripPrefix, lit]

theorem Entries.lines_first {entries : Entries} (hne : entries ≠ .nil) (hvalid : entries.Valid)
    (step indent : Nat) : ∃ key rest lines, key.Valid ∧
      entries.lines step indent = ⟨indent, Scalar.token key ++ ':' :: rest⟩ :: lines := by
  cases entries with
  | nil => exact absurd rfl hne
  | cons key value others =>
      simp only [Entries.Valid] at hvalid
      cases value with
      | inline flow => exact ⟨key, _, _, hvalid.1, by rw [Entries.lines]⟩
      | map inner => exact ⟨key, _, _, hvalid.1, by rw [Entries.lines]⟩
      | seq inner => exact ⟨key, _, _, hvalid.1, by rw [Entries.lines]⟩

theorem Items.lines_first (items : Items) (hne : items ≠ .nil) (hvalid : items.Valid)
    (step indent : Nat) : ∃ text lines,
      items.lines step indent = ⟨indent, '-' :: ' ' :: text⟩ :: lines := by
  cases items with
  | nil => exact absurd rfl hne
  | cons item others =>
      simp only [Items.Valid] at hvalid
      cases item with
      | inline flow => exact ⟨_, _, by rw [Items.lines]⟩
      | map inner =>
          simp only [Node.Valid] at hvalid
          obtain ⟨key, rest, lines, -, hlines⟩ :=
            Entries.lines_first hvalid.1.1 hvalid.1.2 step (indent + 2)
          exact ⟨_, _, by rw [Items.lines, hlines, hyphened, List.cons_append]⟩
      | seq inner =>
          simp only [Node.Valid] at hvalid
          obtain ⟨text, lines, hlines⟩ := Items.lines_first inner hvalid.1.1 hvalid.1.2 step (indent + 2)
          exact ⟨_, _, by rw [Items.lines, hlines, hyphened, List.cons_append]⟩

/-- The lines behind a block are not as deep as it is. -/
def Shallower (indent : Nat) (rest : List BlockLine) : Prop :=
  ∀ line ∈ rest.head?, line.indent < indent

theorem Entries.shallower {entries : Entries} (hvalid : entries.Valid) {step : Nat}
    (hstep : 0 < step) {indent : Nat} {rest : List BlockLine} (hrest : Shallower indent rest) :
    Shallower (indent + step) (entries.lines step indent ++ rest) := by
  cases entries with
  | nil =>
      intro line hline
      have hindent := hrest line (by simpa [Entries.lines] using hline)
      omega
  | cons key value others =>
      obtain ⟨key', rest', lines, -, hlines⟩ := Entries.lines_first (by simp) hvalid step indent
      intro line hline
      rw [hlines] at hline
      obtain rfl : _ = line := by simpa using hline
      simpa using hstep

theorem parseItems_rest {indent : Nat} {rest : List BlockLine} (hrest : Shallower indent rest)
    (fuel : Nat) (items : List Yaml) :
    parseItems fuel indent rest items = .ok (.seq items, rest) := by
  cases rest with
  | nil => rfl
  | cons line lines =>
      have hline := hrest line rfl
      rw [parseItems, if_pos (.inl (by omega))]

theorem parseEntries_rest {indent : Nat} {rest : List BlockLine} (hrest : Shallower indent rest)
    (fuel : Nat) (entries : List (Str × Yaml)) :
    parseEntries (fuel + 1) indent rest entries = .ok (.map entries, rest) := by
  cases rest with
  | nil => rfl
  | cons line lines =>
      have hline := hrest line rfl
      rw [parseEntries, if_pos hline]

/-! ## Good blocks are read back -/

/-- The items of a sequence that are on single lines. -/
theorem parseItems_inline {flow : Flow} (hvalid : flow.ValidInline)
    (hkey : splitKey flow.render = none) (fuel indent : Nat) (lines : List BlockLine)
    (before : List Yaml) :
    parseItems fuel indent (⟨indent, '-' :: ' ' :: flow.render⟩ :: lines) before =
      (parseInline fuel flow.render >>= fun item =>
        parseItems fuel indent lines (before ++ [item])) := by
  have hsolid := (Flow.opening hvalid).solid
  have htext : itemText ('-' :: ' ' :: flow.render) = flow.render := by
    rw [itemText_hyphen, hsolid.trim]
  have hempty : flow.render.isEmpty = false := by simpa using hsolid.ne_nil
  rw [parseItems]
  simp [isItem_hyphen, htext, hempty, hkey]

theorem Items.reads (items : Items) (hvalid : items.Valid) (hgood : items.Good) (step : Nat)
    {indent : Nat} {rest : List BlockLine} (hrest : Shallower indent rest) (before : List Yaml) :
    Settles .outOfFuel (fun fuel => parseItems fuel indent (items.lines step indent ++ rest) before)
      (.ok (.seq (before ++ items.value), rest)) := by
  cases items with
  | nil =>
      simp only [Items.lines, Items.value, List.nil_append, List.append_nil,
        parseItems_rest hrest]
      exact Settles.const _
  | cons item others =>
      cases item with
      | map inner => exact absurd hgood (by simp [Items.Good])
      | seq inner => exact absurd hgood (by simp [Items.Good])
      | inline flow =>
          simp only [Items.Valid, Node.Valid] at hvalid
          simp only [Items.Good] at hgood
          have hothers := Items.reads others hvalid.2 hgood.2.2 step hrest (before ++ [flow.value])
          simp only [Items.lines, List.cons_append, parseItems_inline hvalid.1 hgood.2.1]
          have hseq := (Flow.reads_inline flow hvalid.1 hgood.1).andThen
            (g := fun fuel item => parseItems fuel indent (others.lines step indent ++ rest)
              (before ++ [item])) hothers
          simpa [Items.value, Node.value] using hseq

theorem parseBlock_map {inner : Entries} (hne : inner ≠ .nil) (hvalid : inner.Valid)
    (step indent : Nat) (rest : List BlockLine) (fuel : Nat) :
    parseBlock (fuel + 1) indent (inner.lines step indent ++ rest) =
      parseEntries fuel indent (inner.lines step indent ++ rest) [] := by
  obtain ⟨key, behind, lines, hkey, hlines⟩ := Entries.lines_first hne hvalid step indent
  simp [hlines, parseBlock, isItem_key hkey]

theorem parseBlock_seq {inner : Items} (hne : inner ≠ .nil) (hvalid : inner.Valid)
    (step indent : Nat) (rest : List BlockLine) (fuel : Nat) :
    parseBlock (fuel + 1) indent (inner.lines step indent ++ rest) =
      parseItems fuel indent (inner.lines step indent ++ rest) [] := by
  obtain ⟨text, lines, hlines⟩ := Items.lines_first inner hne hvalid step indent
  simp [hlines, parseBlock, isItem_hyphen]

/-- The block below a key is read where it begins. -/
theorem parseChild_map {inner : Entries} (hne : inner ≠ .nil) (hvalid : inner.Valid)
    {step : Nat} (hstep : 0 < step) (indent : Nat) (rest : List BlockLine) (fuel : Nat) :
    parseChild (fuel + 1) indent (inner.lines step (indent + step) ++ rest) =
      parseBlock fuel (indent + step) (inner.lines step (indent + step) ++ rest) := by
  obtain ⟨key, behind, lines, hkey, hlines⟩ := Entries.lines_first hne hvalid step (indent + step)
  rw [hlines, List.cons_append, parseChild, if_pos (by simpa using hstep)]

theorem parseChild_seq {inner : Items} (hne : inner ≠ .nil) (hvalid : inner.Valid)
    {step : Nat} (hstep : 0 < step) (indent : Nat) (rest : List BlockLine) (fuel : Nat) :
    parseChild (fuel + 1) indent (inner.lines step (indent + step) ++ rest) =
      parseBlock fuel (indent + step) (inner.lines step (indent + step) ++ rest) := by
  obtain ⟨text, lines, hlines⟩ := Items.lines_first inner hne hvalid step (indent + step)
  rw [hlines, List.cons_append, parseChild, if_pos (by simpa using hstep)]

theorem parseEntries_inline {key : Scalar} (hvalid : key.Valid) (hgood : key.GoodKey endsKey)
    {flow : Flow} (hflow : flow.ValidInline) (fuel indent : Nat) (lines : List BlockLine)
    (before : List (Str × Yaml)) :
    parseEntries (fuel + 1) indent (⟨indent, key.token ++ ':' :: ' ' :: flow.render⟩ :: lines)
      before = (parseInline fuel flow.render >>= fun node =>
        parseEntries fuel indent lines (before ++ [(key.text, node)])) := by
  have hsplit : splitKey (key.token ++ ':' :: ' ' :: flow.render) =
      some (key.text, some flow.render) := by
    rw [splitKey_good hvalid hgood rfl, valuePart_render hflow]
  rw [parseEntries]
  simp only [lt_irrefl, if_false, ne_eq, not_true_eq_false, hsplit]

theorem parseEntries_child {key : Scalar} (hvalid : key.Valid) (hgood : key.GoodKey endsKey)
    (fuel indent : Nat) (lines : List BlockLine) (before : List (Str × Yaml)) :
    parseEntries (fuel + 1) indent (⟨indent, key.token ++ [':']⟩ :: lines) before =
      (parseChild fuel indent lines >>= fun parts =>
        parseEntries fuel indent parts.2 (before ++ [(key.text, parts.1)])) := by
  have hsplit : splitKey (key.token ++ [':']) = some (key.text, none) :=
    splitKey_good hvalid hgood rfl
  rw [parseEntries]
  simp only [lt_irrefl, if_false, ne_eq, not_true_eq_false, hsplit]

theorem Entries.reads (entries : Entries) (hvalid : entries.Valid) (hgood : entries.Good)
    {step : Nat} (hstep : 0 < step) {indent : Nat} {rest : List BlockLine}
    (hrest : Shallower indent rest) (before : List (Str × Yaml)) :
    Settles .outOfFuel
      (fun fuel => parseEntries fuel indent (entries.lines step indent ++ rest) before)
      (.ok (.map (before ++ entries.value), rest)) := by
  cases entries with
  | nil =>
      refine (Settles.const _).succ rfl fun fuel => ?_
      simp only [Entries.lines, Entries.value, List.nil_append, List.append_nil,
        parseEntries_rest hrest]
  | cons key value others =>
      simp only [Entries.Valid] at hvalid
      simp only [Entries.Good] at hgood
      have hbehind : Shallower (indent + step) (others.lines step indent ++ rest) :=
        Entries.shallower hvalid.2.2 hstep hrest
      have hothers := Entries.reads others hvalid.2.2 hgood.2.2 hstep hrest
        (before ++ [(key.text, value.value)])
      have htotal : (before ++ [(key.text, value.value)]) ++ others.value =
          before ++ (Entries.cons key value others).value := by
        simp [Entries.value]
      rw [htotal] at hothers
      cases value with
      | inline flow =>
          simp only [Node.Valid] at hvalid
          simp only [Node.Good] at hgood
          refine ((Flow.reads_inline flow hvalid.2.1 hgood.2.1).andThen
            (g := fun fuel node => parseEntries fuel indent (others.lines step indent ++ rest)
              (before ++ [(key.text, node)])) hothers).succ rfl fun fuel => ?_
          simp only [Entries.lines, List.cons_append]
          exact parseEntries_inline hvalid.1 hgood.1 hvalid.2.1 fuel indent _ before
      | map inner =>
          simp only [Node.Valid] at hvalid
          simp only [Node.Good] at hgood
          have hinner := Entries.reads inner hvalid.2.1.2 hgood.2.1 hstep hbehind []
          have hblock := hinner.succ (g := fun fuel => parseBlock fuel (indent + step)
              (inner.lines step (indent + step) ++ (others.lines step indent ++ rest)))
            rfl (parseBlock_map hvalid.2.1.1 hvalid.2.1.2 step _ _)
          have hchild := hblock.succ (g := fun fuel => parseChild fuel indent
              (inner.lines step (indent + step) ++ (others.lines step indent ++ rest)))
            rfl (parseChild_map hvalid.2.1.1 hvalid.2.1.2 hstep indent _)
          refine (hchild.andThen (g := fun fuel parts => parseEntries fuel indent parts.2
            (before ++ [(key.text, parts.1)])) hothers).succ rfl fun fuel => ?_
          simp only [Entries.lines, List.cons_append, List.append_assoc]
          exact parseEntries_child hvalid.1 hgood.1 fuel indent _ before
      | seq inner =>
          simp only [Node.Valid] at hvalid
          simp only [Node.Good] at hgood
          have hinner := Items.reads inner hvalid.2.1.2 hgood.2.1 step hbehind []
          have hblock := hinner.succ (g := fun fuel => parseBlock fuel (indent + step)
              (inner.lines step (indent + step) ++ (others.lines step indent ++ rest)))
            rfl (parseBlock_seq hvalid.2.1.1 hvalid.2.1.2 step _ _)
          have hchild := hblock.succ (g := fun fuel => parseChild fuel indent
              (inner.lines step (indent + step) ++ (others.lines step indent ++ rest)))
            rfl (parseChild_seq hvalid.2.1.1 hvalid.2.1.2 hstep indent _)
          refine (hchild.andThen (g := fun fuel parts => parseEntries fuel indent parts.2
            (before ++ [(key.text, parts.1)])) hothers).succ rfl fun fuel => ?_
          simp only [Entries.lines, List.cons_append, List.append_assoc]
          exact parseEntries_child hvalid.1 hgood.1 fuel indent _ before

/-! ## Only good blocks are read back -/

theorem parseItems_appends {fuel indent : Nat} {lines rest : List BlockLine} {before : List Yaml}
    {tree : Yaml} (h : parseItems fuel indent lines before = .ok (tree, rest)) :
    ∃ items, tree = .seq (before ++ items) := by
  induction lines generalizing before with
  | nil =>
      cases h
      exact ⟨[], by simp⟩
  | cons line lines ih =>
      have hnext {item : Yaml} (h : parseItems fuel indent lines (before ++ [item]) = .ok (tree, rest)) :
          ∃ items, tree = .seq (before ++ items) := by
        obtain ⟨items, htree⟩ := ih h
        exact ⟨item :: items, by simpa using htree⟩
      rw [parseItems] at h
      split at h
      · cases h
        exact ⟨[], by simp⟩
      · simp only at h
        split at h
        · exact hnext h
        · split at h
          · cases h
          · obtain ⟨item, -, h⟩ := Except.bind_eq_ok.mp h
            exact hnext h

theorem parseEntries_appends {fuel indent : Nat} {lines rest : List BlockLine}
    {before : List (Str × Yaml)} {tree : Yaml}
    (h : parseEntries fuel indent lines before = .ok (tree, rest)) :
    ∃ entries, tree = .map (before ++ entries) := by
  induction fuel generalizing lines before with
  | zero => cases h
  | succ fuel ih =>
      cases lines with
      | nil =>
          cases h
          exact ⟨[], by simp⟩
      | cons line lines =>
          have hnext {entry : Str × Yaml} {lines : List BlockLine}
              (h : parseEntries fuel indent lines (before ++ [entry]) = .ok (tree, rest)) :
              ∃ entries, tree = .map (before ++ entries) := by
            obtain ⟨entries, htree⟩ := ih h
            exact ⟨entry :: entries, by simpa using htree⟩
          rw [parseEntries] at h
          split at h
          · cases h
            exact ⟨[], by simp⟩
          · split at h
            · cases h
            · split at h
              · cases h
              · obtain ⟨node, -, h⟩ := Except.bind_eq_ok.mp h
                exact hnext h
              · obtain ⟨parts, -, h⟩ := Except.bind_eq_ok.mp h
                exact hnext h

/-- The first entry that is read is the first one written only if its key is good. -/
theorem goodKey_of_parseEntries {key : Scalar} (hvalid : key.Valid) {fuel indent : Nat}
    {behind : Str} {lines rest : List BlockLine} {before others : List (Str × Yaml)} {value : Yaml}
    (h : parseEntries fuel indent (⟨indent, key.token ++ ':' :: behind⟩ :: lines) before =
      .ok (.map (before ++ (key.text, value) :: others), rest)) : key.GoodKey endsKey := by
  have hfirst {entry : Str × Yaml} {fuel : Nat} {lines : List BlockLine}
      (h : parseEntries fuel indent lines (before ++ [entry]) =
        .ok (.map (before ++ (key.text, value) :: others), rest)) : entry = (key.text, value) := by
    obtain ⟨more, hmore⟩ := parseEntries_appends h
    have hlist := Yaml.map.inj hmore
    simp only [List.append_assoc, List.append_cancel_left_eq, List.singleton_append,
      List.cons.injEq] at hlist
    exact hlist.1.symm
  cases fuel with
  | zero => cases h
  | succ fuel =>
      rw [parseEntries] at h
      simp only [lt_irrefl, if_false, ne_eq, not_true_eq_false] at h
      split at h
      · cases h
      · rename_i key' inline hsplit
        obtain ⟨node, -, h⟩ := Except.bind_eq_ok.mp h
        cases hfirst h
        exact (goodKey_of_splitKey hvalid hsplit).1
      · rename_i key' hsplit
        obtain ⟨parts, -, h⟩ := Except.bind_eq_ok.mp h
        cases hfirst h
        exact (goodKey_of_splitKey hvalid hsplit).1

/-- The first item that is read is the one that was written. -/
theorem item_of_appends {fuel indent : Nat} {lines rest : List BlockLine} {before others : List Yaml}
    {item item' : Yaml} (h : parseItems fuel indent lines (before ++ [item']) =
      .ok (.seq (before ++ item :: others), rest)) : item' = item := by
  obtain ⟨more, hmore⟩ := parseItems_appends h
  have hlist := Yaml.seq.inj hmore
  simp only [List.append_assoc, List.append_cancel_left_eq, List.singleton_append,
    List.cons.injEq] at hlist
  exact hlist.1.symm

theorem opensFlow_trim {c : Char} {text : Str} (hspace : isSpace c = false)
    (hopens : opensFlow (c :: text) = false) : opensFlow (trim (c :: text)) = false := by
  have hstart : trimStart (c :: text) = c :: text := by simp [trimStart, hspace]
  have hprefix : trim (c :: text) <+: c :: text := by
    rw [trim, hstart]
    exact List.rdropWhile_prefix isSpace _
  obtain ⟨behind, hbehind⟩ := hprefix
  cases htrim : trim (c :: text) with
  | nil => rfl
  | cons d rest =>
      rw [htrim, List.cons_append] at hbehind
      obtain ⟨rfl, -⟩ := List.cons.inj hbehind
      exact hopens

/-- Behind a hyphen, a text that does not open a flow collection is a scalar or refused. -/
theorem item_is_scalar {text : Str} (hopens : opensFlow (trim text) = false) {fuel indent : Nat}
    {lines rest : List BlockLine} {before others : List Yaml} {item : Yaml}
    (h : parseItems fuel indent (⟨indent, '-' :: ' ' :: text⟩ :: lines) before =
      .ok (.seq (before ++ item :: others), rest)) : ∃ s, item = .str s := by
  rw [parseItems] at h
  simp only [isItem_hyphen, itemText_hyphen, ne_eq, not_true_eq_false, false_or,
    Bool.true_eq_false, if_false] at h
  split at h
  · exact ⟨[], (item_of_appends h).symm⟩
  · split at h
    · cases h
    · obtain ⟨node, hnode, h⟩ := Except.bind_eq_ok.mp h
      obtain rfl := item_of_appends h
      rw [parseInline, if_neg (by simp [hopens])] at hnode
      split at hnode
      · cases hnode
      · cases hnode
        exact ⟨_, rfl⟩

theorem Items.good_of_read (items : Items) (hvalid : items.Valid) {step fuel indent : Nat}
    {rest rest' : List BlockLine} {before : List Yaml}
    (h : parseItems fuel indent (items.lines step indent ++ rest) before =
      .ok (.seq (before ++ items.value), rest')) : items.Good := by
  cases items with
  | nil => simp [Items.Good]
  | cons item others =>
      simp only [Items.Valid] at hvalid
      cases item with
      | map inner =>
          simp only [Node.Valid] at hvalid
          obtain ⟨key, behind, lines, hkey, hlines⟩ :=
            Entries.lines_first hvalid.1.1 hvalid.1.2 step (indent + 2)
          obtain ⟨c, token, htoken, hspace⟩ := (Scalar.token_lead hkey).solid.head
          have hopens := token_opens hkey (':' :: behind)
          rw [htoken, List.cons_append] at hopens
          rw [Items.lines, hlines, hyphened, List.cons_append, List.cons_append, htoken,
            List.cons_append, Items.value, Node.value] at h
          obtain ⟨s, hs⟩ := item_is_scalar (opensFlow_trim hspace hopens) h
          cases hs
      | seq inner =>
          simp only [Node.Valid] at hvalid
          obtain ⟨text, lines, hlines⟩ :=
            Items.lines_first inner hvalid.1.1 hvalid.1.2 step (indent + 2)
          rw [Items.lines, hlines, hyphened, List.cons_append, List.cons_append, Items.value,
            Node.value] at h
          obtain ⟨s, hs⟩ := item_is_scalar (opensFlow_trim (by decide) rfl) h
          cases hs
      | inline flow =>
          simp only [Node.Valid] at hvalid
          have hkey : splitKey flow.render = none := by
            by_contra hsome
            have hsolid := (Flow.opening hvalid.1).solid
            have hempty : flow.render.isEmpty = false := by simpa using hsolid.ne_nil
            have hsome : (splitKey flow.render).isSome = true := Option.isSome_iff_ne_none.mpr hsome
            rw [Items.lines, List.cons_append, parseItems] at h
            simp [isItem_hyphen, itemText_hyphen, hsolid.trim, hempty, hsome] at h
          rw [Items.lines, List.cons_append, parseItems_inline hvalid.1 hkey] at h
          obtain ⟨node, hnode, hnext⟩ := Except.bind_eq_ok.mp h
          rw [Items.value, Node.value] at hnext
          obtain rfl := item_of_appends hnext
          have hgood := Flow.goodInline_of_read flow hvalid.1 hnode
          have htotal : before ++ flow.value :: others.value =
              (before ++ [flow.value]) ++ others.value := by simp
          rw [htotal] at hnext
          have hothers := Items.good_of_read others hvalid.2 hnext
          simp only [Items.Good]
          exact ⟨hgood, hkey, hothers⟩

theorem entry_of_appends {fuel indent : Nat} {lines rest : List BlockLine}
    {before others : List (Str × Yaml)} {key : Str} {value value' : Yaml}
    (h : parseEntries fuel indent lines (before ++ [(key, value')]) =
      .ok (.map (before ++ (key, value) :: others), rest)) : value' = value := by
  obtain ⟨more, hmore⟩ := parseEntries_appends h
  have hlist := Yaml.map.inj hmore
  simp only [List.append_assoc, List.append_cancel_left_eq, List.singleton_append,
    List.cons.injEq, Prod.mk.injEq] at hlist
  exact hlist.1.2.symm

/-- A block that is read below a key is read where it begins. -/
theorem below_of_child (f g : Nat → Result (Yaml × List BlockLine))
    {k : Nat → Result (Yaml × List BlockLine)} (hchild : ∀ fuel, f (fuel + 1) = g fuel) (hblock : ∀ fuel, g (fuel + 1) = k fuel)
    (hzero : f 0 = .error .outOfFuel) (hone : g 0 = .error .outOfFuel) {fuel : Nat}
    {parts : Yaml × List BlockLine} (h : f fuel = .ok parts) : ∃ fuel, k fuel = .ok parts := by
  cases fuel with
  | zero =>
      rw [hzero] at h
      cases h
  | succ fuel =>
      rw [hchild] at h
      cases fuel with
      | zero =>
          rw [hone] at h
          cases h
      | succ fuel => exact ⟨fuel, hblock fuel ▸ h⟩

theorem Entries.good_of_read (entries : Entries) (hvalid : entries.Valid) {step : Nat}
    (hstep : 0 < step) {fuel indent : Nat} {rest rest' : List BlockLine}
    (hrest : Shallower indent rest) {before : List (Str × Yaml)}
    (h : parseEntries fuel indent (entries.lines step indent ++ rest) before =
      .ok (.map (before ++ entries.value), rest')) : entries.Good := by
  cases entries with
  | nil => simp [Entries.Good]
  | cons key value others =>
      simp only [Entries.Valid] at hvalid
      have hbehind : Shallower (indent + step) (others.lines step indent ++ rest) :=
        Entries.shallower hvalid.2.2 hstep hrest
      have htotal : before ++ (key.text, value.value) :: others.value =
          (before ++ [(key.text, value.value)]) ++ others.value := by simp
      cases fuel with
      | zero => cases h
      | succ fuel =>
          rw [Entries.value] at h
          cases value with
          | inline flow =>
              simp only [Node.Valid] at hvalid
              rw [Entries.lines, List.cons_append] at h
              have hkey := goodKey_of_parseEntries hvalid.1 h
              rw [parseEntries_inline hvalid.1 hkey hvalid.2.1] at h
              obtain ⟨node, hnode, hnext⟩ := Except.bind_eq_ok.mp h
              obtain rfl := entry_of_appends hnext
              have hgood := Flow.goodInline_of_read flow hvalid.2.1 hnode
              rw [htotal] at hnext
              have hothers := Entries.good_of_read others hvalid.2.2 hstep hrest hnext
              simp only [Entries.Good, Node.Good]
              exact ⟨hkey, hgood, hothers⟩
          | map inner =>
              simp only [Node.Valid] at hvalid
              rw [Entries.lines, List.cons_append, List.append_assoc] at h
              have hkey := goodKey_of_parseEntries hvalid.1 h
              rw [parseEntries_child hvalid.1 hkey] at h
              obtain ⟨⟨node, behind⟩, hnode, hnext⟩ := Except.bind_eq_ok.mp h
              obtain rfl := entry_of_appends hnext
              have hinner : ∃ fuel, parseEntries fuel (indent + step)
                  (inner.lines step (indent + step) ++ (others.lines step indent ++ rest)) [] =
                    .ok (.map ([] ++ inner.value), behind) :=
                below_of_child (fun fuel => parseChild fuel indent _)
                  (fun fuel => parseBlock fuel (indent + step) _)
                  (parseChild_map hvalid.2.1.1 hvalid.2.1.2 hstep indent _)
                  (parseBlock_map hvalid.2.1.1 hvalid.2.1.2 step _ _) rfl rfl hnode
              obtain ⟨fuel', hread⟩ := hinner
              have hgood := Entries.good_of_read inner hvalid.2.1.2 hstep hbehind hread
              -- What stands behind the block is left.
              have hsettles := Entries.reads inner hvalid.2.1.2 hgood hstep hbehind []
              have heq := hsettles.eq (m := fuel') (by rw [hread]; simp)
              obtain rfl : behind = _ := (Prod.mk.inj (Except.ok.inj (hread.symm.trans heq))).2
              rw [htotal] at hnext
              have hothers := Entries.good_of_read others hvalid.2.2 hstep hrest hnext
              simp only [Entries.Good, Node.Good]
              exact ⟨hkey, hgood, hothers⟩
          | seq inner =>
              simp only [Node.Valid] at hvalid
              rw [Entries.lines, List.cons_append, List.append_assoc] at h
              have hkey := goodKey_of_parseEntries hvalid.1 h
              rw [parseEntries_child hvalid.1 hkey] at h
              obtain ⟨⟨node, behind⟩, hnode, hnext⟩ := Except.bind_eq_ok.mp h
              obtain rfl := entry_of_appends hnext
              have hinner : ∃ fuel, parseItems fuel (indent + step)
                  (inner.lines step (indent + step) ++ (others.lines step indent ++ rest)) [] =
                    .ok (.seq ([] ++ inner.value), behind) :=
                below_of_child (fun fuel => parseChild fuel indent _)
                  (fun fuel => parseBlock fuel (indent + step) _)
                  (parseChild_seq hvalid.2.1.1 hvalid.2.1.2 hstep indent _)
                  (parseBlock_seq hvalid.2.1.1 hvalid.2.1.2 step _ _) rfl rfl hnode
              obtain ⟨fuel', hread⟩ := hinner
              have hgood := Items.good_of_read inner hvalid.2.1.2 hread
              have hsettles := Items.reads inner hvalid.2.1.2 hgood step hbehind []
              have heq := hsettles.eq (m := fuel') (by rw [hread]; simp)
              obtain rfl : behind = _ := (Prod.mk.inj (Except.ok.inj (hread.symm.trans heq))).2
              rw [htotal] at hnext
              have hothers := Entries.good_of_read others hvalid.2.2 hstep hrest hnext
              simp only [Entries.Good, Node.Good]
              exact ⟨hkey, hgood, hothers⟩

end PnpmYaml
end Bpm
