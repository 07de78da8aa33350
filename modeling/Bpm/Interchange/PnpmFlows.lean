import Bpm.Interchange.PnpmScalars
import Bpm.Lib.Folds

/-!
# Reading written flow collections

A flow collection is read back exactly when its keys are good, the values of its maps are
scalars (a blank stands before them, so that no collection is recognised there), and no
scalar in it holds one of the characters that end one.
-/

namespace Bpm

open Text Fuel

namespace PnpmYaml

/-! ## Which flow collections are read back -/

/-- A scalar in a flow collection that is read up to its end. -/
structure Scalar.GoodFlow (s : Scalar) : Prop where
  plain : s.Plain
  unbroken : ∀ c ∈ s.token, endsScalar c = false

mutual

def Flow.Good : Flow → Prop
  | .scalar s => s.GoodFlow
  | .map entries => entries.Good
  | .seq items => items.Good

def FlowEntries.Good : FlowEntries → Prop
  | .nil => True
  | .cons key (.scalar s) rest => key.GoodKey (fun _ => true) ∧ s.GoodFlow ∧ rest.Good
  | .cons _ (.map _) _ => False
  | .cons _ (.seq _) _ => False

def FlowItems.Good : FlowItems → Prop
  | .nil => True
  | .cons item rest => item.Good ∧ rest.Good

end

/-! ## Scalars in a flow collection -/

/-- What stands behind an element: nothing, or a character that ends a scalar. -/
def Closed (suffix : Str) : Prop := ∀ c ∈ suffix.head?, endsScalar c = true

theorem closed_cons {c : Char} (hc : endsScalar c = true) (suffix : Str) : Closed (c :: suffix) := by
  intro d hd
  obtain rfl : c = d := by simpa using hd
  exact hc

theorem parseFlow_scalar {text : Str} (h : opensFlow text = false) (fuel : Nat) :
    parseFlow (fuel + 1) text = .ok (.str (unquote (text.takeWhile fun c => !endsScalar c)),
      text.dropWhile fun c => !endsScalar c) := by
  unfold parseFlow
  split
  · cases h
  · cases h
  · rfl

/-- Blanks in front do not matter to a token. -/
theorem unquote_space (token : Str) : unquote (' ' :: token) = unquote token := rfl

/-- A scalar is cut at the first character that ends one. -/
theorem scalar_cut {s : Scalar} (hvalid : s.Valid) {suffix : Str} (hsuffix : Closed suffix) :
    (unquote ((s.token ++ suffix).takeWhile fun c => !endsScalar c) = s.text ↔ s.GoodFlow) ∧
      (s.GoodFlow → (s.token ++ suffix).dropWhile (fun c => !endsScalar c) = suffix) := by
  have hstop : suffix.takeWhile (fun c => !endsScalar c) = [] ∧
      suffix.dropWhile (fun c => !endsScalar c) = suffix := by
    cases suffix with
    | nil => exact ⟨rfl, rfl⟩
    | cons c suffix =>
        have hc := hsuffix c rfl
        simp [hc]
  have hwhole (h : ∀ c ∈ s.token, endsScalar c = false) :
      (s.token ++ suffix).takeWhile (fun c => !endsScalar c) = s.token ∧
      (s.token ++ suffix).dropWhile (fun c => !endsScalar c) = suffix := by
    have hall : ∀ c ∈ s.token, (!endsScalar c) = true := fun c hc => by simp [h c hc]
    rw [List.takeWhile_append_of_pos hall, List.dropWhile_append_of_pos hall, hstop.1, hstop.2]
    simp
  refine ⟨⟨fun h => ?_, fun h => ?_⟩, fun h => (hwhole h.unbroken).2⟩
  · -- A character that ends a scalar would be in the text, but not in what is read.
    have hunbroken : ∀ c ∈ s.token, endsScalar c = false := by
      intro c hc
      by_contra hends
      have hends : endsScalar c = true := by simpa using hends
      have hmark : c ∉ ['\x27', '"', '\\'] := by
        intro hin
        simp only [List.mem_cons, List.not_mem_nil, or_false] at hin
        rcases hin with rfl | rfl | rfl <;> exact absurd hends (by decide)
      have hread := Scalar.mem_text_of_mem_token hc hmark
      rw [← h] at hread
      have hcut := List.mem_takeWhile_imp (mem_unquote hread)
      simp [hends] at hcut
    rw [(hwhole hunbroken).1] at h
    exact ⟨(Scalar.unquote_token hvalid).mp h, hunbroken⟩
  · rw [(hwhole h.unbroken).1]
    exact (Scalar.unquote_token hvalid).mpr h.plain

theorem token_opens {s : Scalar} (hvalid : s.Valid) (suffix : Str) :
    opensFlow (s.token ++ suffix) = false := by
  have hlead := Scalar.token_lead hvalid
  obtain ⟨c, rest, htoken, -⟩ := hlead.solid.head
  have hc := hlead.first c (by simp [htoken])
  simp only [List.mem_cons, List.not_mem_nil, or_false, not_or] at hc
  simp [htoken, opensFlow, hc]

/-! ## Written flow collections -/

/-- The first character of what is written on a line. -/
structure Opening (text : Str) : Prop where
  solid : Solid text
  first : ∀ c ∈ text.head?, c ≠ ',' ∧ c ≠ ']' ∧ c ≠ '}'

theorem token_opening {s : Scalar} (hvalid : s.Valid) : Opening s.token := by
  have hlead := Scalar.token_lead hvalid
  refine ⟨hlead.solid, fun c hc => ?_⟩
  have hfirst := hlead.first c hc
  simp only [List.mem_cons, List.not_mem_nil, or_false, not_or] at hfirst
  tauto

theorem solid_brackets {first last : Char} (hfirst : isSpace first = false)
    (hlast : isSpace last = false) (body : Str) : Solid (first :: (body ++ [last])) :=
  ⟨⟨first, body ++ [last], rfl, hfirst⟩, ⟨first :: body, last, rfl, hlast⟩⟩

theorem Flow.opening {v : Flow} (h : v.ValidInline) : Opening v.render := by
  cases v with
  | scalar s => exact token_opening (by simpa [Flow.ValidInline] using h)
  | map entries =>
      refine ⟨by simpa [Flow.render] using solid_brackets (by decide) (by decide) _, fun c hc => ?_⟩
      obtain rfl : '{' = c := by simpa [Flow.render] using hc
      decide
  | seq items =>
      refine ⟨by simpa [Flow.render] using solid_brackets (by decide) (by decide) _, fun c hc => ?_⟩
      obtain rfl : '[' = c := by simpa [Flow.render] using hc
      decide

theorem Flow.Valid.inline {v : Flow} (h : v.Valid) : v.ValidInline := by
  cases v with
  | scalar s =>
      simp only [Flow.Valid, Scalar.ValidFlow] at h
      simpa [Flow.ValidInline] using h.1
  | map entries => simpa [Flow.ValidInline, Flow.Valid] using h
  | seq items => simpa [Flow.ValidInline, Flow.Valid] using h

theorem Opening.trimStart {text : Str} (h : Opening text) (suffix : Str) :
    Text.trimStart (text ++ suffix) = text ++ suffix := by
  obtain ⟨c, rest, rfl, hc⟩ := h.solid.head
  simp [Text.trimStart, hc]

theorem Opening.stripPrefix {text : Str} (h : Opening text) {mark : Char}
    (hmark : mark = ',' ∨ mark = ']' ∨ mark = '}') (suffix : Str) :
    Text.stripPrefix [mark] (text ++ suffix) = none := by
  obtain ⟨c, rest, rfl, -⟩ := h.solid.head
  have hc := h.first c rfl
  have hne : mark ≠ c := by
    rintro rfl
    tauto
  simp [Text.stripPrefix, hne]

/-- The text behind a comma begins with a blank. -/
theorem parseFlowItems_space (fuel : Nat) (text : Str) (items : List Yaml) :
    parseFlowItems fuel (' ' :: text) items = parseFlowItems fuel text items := by
  cases fuel <;> rfl

theorem parseFlowEntries_space (fuel : Nat) (text : Str) (entries : List (Str × Yaml)) :
    parseFlowEntries fuel (' ' :: text) entries = parseFlowEntries fuel text entries := by
  cases fuel <;> rfl

/-- Behind an item, the next ones are read. -/
theorem parseFlowItems_next (rest : FlowItems) (suffix : Str) (fuel : Nat) (items : List Yaml) :
    parseFlowItems fuel (afterElement (rest.comma ++ (rest.render ++ ']' :: suffix))) items =
      parseFlowItems fuel (rest.render ++ ']' :: suffix) items := by
  cases rest with
  | nil => rfl
  | cons item rest => exact parseFlowItems_space fuel _ items

theorem parseFlowEntries_next (rest : FlowEntries) (suffix : Str) (fuel : Nat)
    (entries : List (Str × Yaml)) :
    parseFlowEntries fuel (afterElement (rest.comma ++ (rest.render ++ '}' :: suffix))) entries =
      parseFlowEntries fuel (rest.render ++ '}' :: suffix) entries := by
  cases rest with
  | nil => rfl
  | cons key value rest => exact parseFlowEntries_space fuel _ entries

theorem closed_items (rest : FlowItems) (suffix : Str) :
    Closed (rest.comma ++ (rest.render ++ ']' :: suffix)) := by
  cases rest with
  | nil => exact closed_cons (by decide) suffix
  | cons item rest => exact closed_cons (by decide) _

theorem closed_entries (rest : FlowEntries) (suffix : Str) :
    Closed (rest.comma ++ (rest.render ++ '}' :: suffix)) := by
  cases rest with
  | nil => exact closed_cons (by decide) suffix
  | cons key value rest => exact closed_cons (by decide) _

/-! ## Good collections are read back -/

theorem splitFlowKey_good {key : Scalar} (hvalid : key.Valid)
    (hgood : key.GoodKey fun _ => true) (rest : Str) :
    splitFlowKey (key.token ++ ':' :: rest) = .ok (key.text, rest) := by
  have hsplit := hgood.split always_near hvalid rest rfl
  unfold splitFlowKey
  rw [hsplit.1, ← hsplit.2]

/-- A scalar behind the blank of a flow map. -/
theorem parseFlow_blank {s : Scalar} (suffix : Str) (fuel : Nat) :
    parseFlow (fuel + 1) (' ' :: (s.token ++ suffix)) =
      .ok (.str (unquote ((s.token ++ suffix).takeWhile fun c => !endsScalar c)),
        (s.token ++ suffix).dropWhile fun c => !endsScalar c) := by
  rw [parseFlow_scalar rfl, List.takeWhile_cons_of_pos (by decide),
    List.dropWhile_cons_of_pos (by decide), unquote_space]

mutual

theorem Flow.reads (v : Flow) (hvalid : v.Valid) (hgood : v.Good) {suffix : Str}
    (hsuffix : Closed suffix) :
    Settles .outOfFuel (fun fuel => parseFlow fuel (v.render ++ suffix)) (.ok (v.value, suffix)) := by
  cases v with
  | scalar s =>
      simp only [Flow.Valid, Scalar.ValidFlow] at hvalid
      simp only [Flow.Good] at hgood
      obtain ⟨hcut, hrest⟩ := scalar_cut hvalid.1 hsuffix
      refine (Settles.const _).succ rfl fun fuel => ?_
      change parseFlow (fuel + 1) (s.token ++ suffix) = _
      rw [parseFlow_scalar (token_opens hvalid.1 suffix), hcut.mpr hgood, hrest hgood]
      rfl
  | map entries =>
      simp only [Flow.Valid] at hvalid
      simp only [Flow.Good] at hgood
      refine (FlowEntries.reads entries hvalid hgood suffix []).succ rfl fun fuel => ?_
      simp [Flow.render, parseFlow]
  | seq items =>
      simp only [Flow.Valid] at hvalid
      simp only [Flow.Good] at hgood
      refine (FlowItems.reads items hvalid hgood suffix []).succ rfl fun fuel => ?_
      simp [Flow.render, parseFlow]

theorem FlowEntries.reads (entries : FlowEntries) (hvalid : entries.Valid) (hgood : entries.Good)
    (suffix : Str) (before : List (Str × Yaml)) :
    Settles .outOfFuel (fun fuel => parseFlowEntries fuel (entries.render ++ '}' :: suffix) before)
      (.ok (.map (before ++ entries.value), suffix)) := by
  cases entries with
  | nil =>
      refine (Settles.const _).succ rfl fun fuel => ?_
      simp [FlowEntries.render, FlowEntries.value, parseFlowEntries, Text.trimStart, isSpace,
        Text.stripPrefix]
  | cons key value rest =>
      cases value with
      | map entries => exact absurd hgood (by simp [FlowEntries.Good])
      | seq items => exact absurd hgood (by simp [FlowEntries.Good])
      | scalar s =>
          simp only [FlowEntries.Valid, Flow.Valid, Scalar.ValidFlow] at hvalid
          simp only [FlowEntries.Good] at hgood
          obtain ⟨hcut, hbehind⟩ := scalar_cut hvalid.2.1.1 (closed_entries rest suffix)
          have hopening := token_opening hvalid.1.1
          have hrest := FlowEntries.reads rest hvalid.2.2 hgood.2.2 suffix
            (before ++ [(key.text, .str s.text)])
          have hvalue : Settles .outOfFuel
              (fun fuel => parseFlow fuel (' ' :: (s.token ++
                (rest.comma ++ (rest.render ++ '}' :: suffix)))))
              (.ok (.str s.text, rest.comma ++ (rest.render ++ '}' :: suffix))) := by
            refine (Settles.const _).succ rfl fun fuel => ?_
            rw [parseFlow_blank, hcut.mpr hgood.2.1, hbehind hgood.2.1]
          have hnext : Settles .outOfFuel
              (fun fuel => parseFlowEntries fuel
                (afterElement (rest.comma ++ (rest.render ++ '}' :: suffix)))
                (before ++ [(key.text, .str s.text)]))
              (.ok (.map (before ++ (key.text, .str s.text) :: rest.value), suffix)) := by
            simpa only [parseFlowEntries_next, List.append_assoc, List.singleton_append] using hrest
          refine (hvalue.andThen (g := fun fuel parts => parseFlowEntries fuel
            (afterElement parts.2) (before ++ [(key.text, parts.1)])) hnext).succ rfl fun fuel => ?_
          simp only [FlowEntries.render, Flow.render, List.append_assoc, List.cons_append]
          conv_lhs => unfold parseFlowEntries
          simp only [hopening.trimStart, hopening.stripPrefix (.inr (.inr rfl)),
            splitFlowKey_good hvalid.1.1 hgood.1]
          rfl

theorem FlowItems.reads (items : FlowItems) (hvalid : items.Valid) (hgood : items.Good)
    (suffix : Str) (before : List Yaml) :
    Settles .outOfFuel (fun fuel => parseFlowItems fuel (items.render ++ ']' :: suffix) before)
      (.ok (.seq (before ++ items.value), suffix)) := by
  cases items with
  | nil =>
      refine (Settles.const _).succ rfl fun fuel => ?_
      simp [FlowItems.render, FlowItems.value, parseFlowItems, Text.trimStart, isSpace,
        Text.stripPrefix]
  | cons item rest =>
      simp only [FlowItems.Valid] at hvalid
      simp only [FlowItems.Good] at hgood
      have hopening := Flow.opening (Flow.Valid.inline hvalid.1)
      have hitem := Flow.reads item hvalid.1 hgood.1 (closed_items rest suffix)
      have hrest := FlowItems.reads rest hvalid.2 hgood.2 suffix (before ++ [item.value])
      have hnext : Settles .outOfFuel
          (fun fuel => parseFlowItems fuel
            (afterElement (rest.comma ++ (rest.render ++ ']' :: suffix))) (before ++ [item.value]))
          (.ok (.seq (before ++ item.value :: rest.value), suffix)) := by
        simpa only [parseFlowItems_next, List.append_assoc, List.singleton_append] using hrest
      refine (hitem.andThen (g := fun fuel parts => parseFlowItems fuel (afterElement parts.2)
        (before ++ [parts.1])) hnext).succ rfl fun fuel => ?_
      simp only [FlowItems.render, List.append_assoc]
      conv_lhs => unfold parseFlowItems
      simp only [hopening.trimStart, hopening.stripPrefix (.inr (.inl rfl))]

end

/-! ## Only good collections are read back -/

theorem goodKey_of_splitFlowKey {key : Scalar} (hvalid : key.Valid) {rest behind : Str}
    (h : splitFlowKey (key.token ++ ':' :: rest) = .ok (key.text, behind)) :
    key.GoodKey (fun _ => true) ∧ behind = rest := by
  unfold splitFlowKey at h
  split at h
  · rename_i key' rest' hsplit
    have hparts := Prod.mk.inj (Except.ok.inj h)
    obtain ⟨hgood, hrest⟩ := Scalar.goodKey_of_split always_near hvalid hsplit hparts.1
    exact ⟨hgood, hparts.2.symm.trans hrest⟩
  · cases h

/-- What is read comes behind what was read before. -/
theorem parseFlowItems_appends {fuel : Nat} {text rest : Str} {before : List Yaml} {tree : Yaml}
    (h : parseFlowItems fuel text before = .ok (tree, rest)) :
    ∃ items, tree = .seq (before ++ items) := by
  induction fuel generalizing text before with
  | zero => cases h
  | succ fuel ih =>
      unfold parseFlowItems at h
      simp only at h
      split at h
      · cases h
        exact ⟨[], by simp⟩
      · obtain ⟨⟨item, behind⟩, -, hnext⟩ := Except.bind_eq_ok.mp h
        obtain ⟨items, htree⟩ := ih hnext
        exact ⟨item :: items, by simpa using htree⟩

theorem parseFlowEntries_appends {fuel : Nat} {text rest : Str} {before : List (Str × Yaml)}
    {tree : Yaml} (h : parseFlowEntries fuel text before = .ok (tree, rest)) :
    ∃ entries, tree = .map (before ++ entries) := by
  induction fuel generalizing text before with
  | zero => cases h
  | succ fuel ih =>
      unfold parseFlowEntries at h
      simp only at h
      split at h
      · cases h
        exact ⟨[], by simp⟩
      · obtain ⟨⟨key, behind⟩, -, hvalue⟩ := Except.bind_eq_ok.mp h
        obtain ⟨⟨value, behind'⟩, -, hnext⟩ := Except.bind_eq_ok.mp hvalue
        obtain ⟨entries, htree⟩ := ih hnext
        exact ⟨(key, value) :: entries, by simpa using htree⟩

mutual

theorem Flow.good_of_read (v : Flow) (hvalid : v.Valid) {suffix : Str} (hsuffix : Closed suffix)
    {fuel : Nat} {rest : Str} (h : parseFlow fuel (v.render ++ suffix) = .ok (v.value, rest)) :
    v.Good := by
  cases v with
  | scalar s =>
      simp only [Flow.Valid, Scalar.ValidFlow] at hvalid
      simp only [Flow.Good]
      cases fuel with
      | zero => cases h
      | succ fuel =>
          change parseFlow (fuel + 1) (s.token ++ suffix) = .ok (.str s.text, rest) at h
          rw [parseFlow_scalar (token_opens hvalid.1 suffix)] at h
          refine (scalar_cut hvalid.1 hsuffix).1.mp ?_
          exact Yaml.str.inj (Prod.mk.inj (Except.ok.inj h)).1
  | map entries =>
      simp only [Flow.Valid] at hvalid
      simp only [Flow.Good]
      cases fuel with
      | zero => cases h
      | succ fuel =>
          have hread : parseFlowEntries fuel (entries.render ++ '}' :: suffix) [] =
              .ok (.map ([] ++ entries.value), rest) := by
            simpa [Flow.render, Flow.value, parseFlow] using h
          exact FlowEntries.good_of_read entries hvalid hread
  | seq items =>
      simp only [Flow.Valid] at hvalid
      simp only [Flow.Good]
      cases fuel with
      | zero => cases h
      | succ fuel =>
          have hread : parseFlowItems fuel (items.render ++ ']' :: suffix) [] =
              .ok (.seq ([] ++ items.value), rest) := by
            simpa [Flow.render, Flow.value, parseFlow] using h
          exact FlowItems.good_of_read items hvalid hread

theorem FlowEntries.good_of_read (entries : FlowEntries) (hvalid : entries.Valid) {suffix : Str}
    {before : List (Str × Yaml)} {fuel : Nat} {rest : Str}
    (h : parseFlowEntries fuel (entries.render ++ '}' :: suffix) before =
      .ok (.map (before ++ entries.value), rest)) : entries.Good := by
  cases entries with
  | nil => simp [FlowEntries.Good]
  | cons key value others =>
      simp only [FlowEntries.Valid] at hvalid
      have hopening := token_opening hvalid.1.1
      cases fuel with
      | zero => cases h
      | succ fuel =>
          simp only [FlowEntries.render, List.append_assoc, List.cons_append] at h
          unfold parseFlowEntries at h
          simp only [hopening.trimStart, hopening.stripPrefix (.inr (.inr rfl))] at h
          obtain ⟨⟨key', behind⟩, hkey, h⟩ := Except.bind_eq_ok.mp h
          obtain ⟨⟨value', behind'⟩, hvalue, hnext⟩ := Except.bind_eq_ok.mp h
          -- The entry that is read is the one that was written.
          obtain ⟨more, hmore⟩ := parseFlowEntries_appends hnext
          have hentry : (key', value') = (key.text, value.value) := by
            have hlist := Yaml.map.inj hmore
            simp only [FlowEntries.value, List.append_assoc, List.append_cancel_left_eq,
              List.singleton_append, List.cons.injEq] at hlist
            exact hlist.1.symm
          cases hentry
          obtain ⟨hgoodKey, rfl⟩ := goodKey_of_splitFlowKey hvalid.1.1 hkey
          cases fuel with
          | zero => cases hvalue
          | succ fuel =>
              cases value with
              | map inner =>
                  -- Behind the blank no collection is recognised.
                  rw [parseFlow_scalar rfl] at hvalue
                  cases (Prod.mk.inj (Except.ok.inj hvalue)).1
              | seq inner =>
                  rw [parseFlow_scalar rfl] at hvalue
                  cases (Prod.mk.inj (Except.ok.inj hvalue)).1
              | scalar s =>
                  simp only [Flow.Valid, Scalar.ValidFlow] at hvalid
                  obtain ⟨hcut, hbehind⟩ := scalar_cut hvalid.2.1.1 (closed_entries others suffix)
                  have hparts := Prod.mk.inj (Except.ok.inj (parseFlow_blank (s := s) _ _ ▸ hvalue))
                  have hgoodValue : s.GoodFlow := hcut.mp (Yaml.str.inj hparts.1)
                  obtain rfl : behind' = _ := hparts.2.symm.trans (hbehind hgoodValue)
                  have hread : parseFlowEntries (fuel + 1) (others.render ++ '}' :: suffix)
                      (before ++ [(key.text, .str s.text)]) =
                        .ok (.map ((before ++ [(key.text, .str s.text)]) ++ others.value), rest) := by
                    simpa [parseFlowEntries_next, FlowEntries.value, Flow.value] using hnext
                  have hothers := FlowEntries.good_of_read others hvalid.2.2 hread
                  simp [FlowEntries.Good, hgoodKey, hgoodValue, hothers]

theorem FlowItems.good_of_read (items : FlowItems) (hvalid : items.Valid) {suffix : Str}
    {before : List Yaml} {fuel : Nat} {rest : Str}
    (h : parseFlowItems fuel (items.render ++ ']' :: suffix) before =
      .ok (.seq (before ++ items.value), rest)) : items.Good := by
  cases items with
  | nil => simp [FlowItems.Good]
  | cons item others =>
      simp only [FlowItems.Valid] at hvalid
      have hopening := Flow.opening (Flow.Valid.inline hvalid.1)
      cases fuel with
      | zero => cases h
      | succ fuel =>
          simp only [FlowItems.render, List.append_assoc] at h
          unfold parseFlowItems at h
          simp only [hopening.trimStart, hopening.stripPrefix (.inr (.inl rfl))] at h
          obtain ⟨⟨item', behind⟩, hitem, hnext⟩ := Except.bind_eq_ok.mp h
          obtain ⟨more, hmore⟩ := parseFlowItems_appends hnext
          have hread : item' = item.value := by
            have hlist := Yaml.seq.inj hmore
            simp only [FlowItems.value, List.append_assoc, List.append_cancel_left_eq,
              List.singleton_append, List.cons.injEq] at hlist
            exact hlist.1.symm
          subst hread
          have hgood := Flow.good_of_read item hvalid.1 (closed_items others suffix) hitem
          have hsettles := Flow.reads item hvalid.1 hgood (closed_items others suffix)
          have heq := hsettles.eq (m := fuel) (by rw [hitem]; simp)
          obtain rfl : behind = _ := (Prod.mk.inj (Except.ok.inj (hitem.symm.trans heq))).2
          have hread : parseFlowItems fuel (others.render ++ ']' :: suffix)
              (before ++ [item.value]) =
                .ok (.seq ((before ++ [item.value]) ++ others.value), rest) := by
            simpa [parseFlowItems_next, FlowItems.value] using hnext
          have hothers := FlowItems.good_of_read others hvalid.2 hread
          simp [FlowItems.Good, hgood, hothers]

end

end PnpmYaml
end Bpm
