import Bpm.Interchange.PnpmTrees

/-!
# Reading written scalars and keys

Removing the quotation marks gives a scalar back unless it has escapes.  The search for the
colon behind a key lets marks of either kind open and close, so that it comes through a key
only if its marks are even in number and hide every separator; where it stops elsewhere, the
key that is read has another number of colons.
-/

namespace Bpm

open Text

namespace PnpmYaml

/-! ## Texts without white space at their ends -/

/-- A text that neither begins nor ends with white space. -/
structure Solid (s : Str) : Prop where
  head : ∃ c rest, s = c :: rest ∧ isSpace c = false
  last : ∃ init c, s = init ++ [c] ∧ isSpace c = false

theorem Solid.ne_nil {s : Str} (h : Solid s) : s ≠ [] := by
  obtain ⟨c, rest, rfl, -⟩ := h.head
  simp

theorem Solid.append {a b : Str} (ha : Solid a) (hb : Solid b) (mid : Str) :
    Solid (a ++ (mid ++ b)) := by
  obtain ⟨c, rest, rfl, hc⟩ := ha.head
  obtain ⟨init, d, rfl, hd⟩ := hb.last
  exact ⟨⟨c, rest ++ (mid ++ (init ++ [d])), by simp, hc⟩,
    ⟨c :: rest ++ (mid ++ init), d, by simp, hd⟩⟩

theorem Solid.trimStart {s : Str} (h : Solid s) : trimStart s = s := by
  obtain ⟨c, rest, rfl, hc⟩ := h.head
  simp [Text.trimStart, hc]

theorem Solid.trimEnd {s : Str} (h : Solid s) : trimEnd s = s := by
  obtain ⟨init, c, rfl, hc⟩ := h.last
  simp [Text.trimEnd, hc]

theorem Solid.trim {s : Str} (h : Solid s) : trim s = s := by
  unfold Text.trim
  rw [h.trimStart, h.trimEnd]

theorem Solid.trim_space {s : Str} (h : Solid s) : Text.trim (' ' :: s) = s := by
  have hstart : Text.trimStart (' ' :: s) = Text.trimStart s := rfl
  unfold Text.trim
  rw [hstart, h.trimStart, h.trimEnd]

theorem solid_of_trim {s : Str} (hne : s ≠ []) (h : Text.trim s = s) : Solid s := by
  constructor
  · obtain ⟨c, rest, rfl⟩ := List.exists_cons_of_ne_nil hne
    refine ⟨c, rest, rfl, Bool.eq_false_iff.mpr fun hc => ?_⟩
    -- A first blank would be trimmed away.
    have hlength : (Text.trim (c :: rest)).length ≤ rest.length := by
      have hstart : Text.trimStart (c :: rest) = Text.trimStart rest := by
        simp [Text.trimStart, hc]
      unfold Text.trim
      rw [hstart]
      exact (List.rdropWhile_prefix isSpace _).length_le.trans (trimStart_length rest)
    rw [h] at hlength
    simp at hlength
  · rcases List.eq_nil_or_concat s with hnil | ⟨init, c, rfl⟩
    · exact absurd hnil hne
    · refine ⟨init, c, List.concat_eq_append, Bool.eq_false_iff.mpr fun hc => ?_⟩
      rw [List.concat_eq_append] at h
      have hlength : (Text.trim (init ++ [c])).length ≤ init.length := by
        have htrim : Text.trim (init ++ [c]) <+: Text.trimEnd (Text.trimStart (init ++ [c])) :=
          List.prefix_refl _
        have hend : (Text.trimStart (init ++ [c])).rdropWhile isSpace =
            (Text.trimStart init).rdropWhile isSpace := by
          unfold Text.trimStart
          rw [List.dropWhile_append]
          split
          · rename_i hnil
            have hinit : init.dropWhile isSpace = [] := by simpa using hnil
            simp [hc, hinit]
          · rw [List.rdropWhile_concat_pos _ _ _ hc]
        have hle := htrim.length_le
        unfold Text.trimEnd at hle
        rw [hend] at hle
        exact hle.trans ((List.rdropWhile_prefix isSpace _).length_le.trans (trimStart_length init))
      rw [h] at hlength
      simp at hlength

namespace Scalar

/-- A scalar that is read as it is: in double marks, nothing is escaped. -/
def Plain (s : Scalar) : Prop := s.style = .double → '"' ∉ s.text ∧ '\\' ∉ s.text

/-! ## Tokens -/

/-- How a token begins. -/
structure Lead (token : Str) : Prop where
  solid : Solid token
  first : ∀ c ∈ token.head?,
    c ∉ [',', '[', ']', '{', '}', '#', '&', '*', '!', '|', '>', '%', '@', '\x60']
  second : ∀ c rest, token = c :: rest → c ∈ ['-', '?', ':'] →
    rest.head?.any (fun c => !isSpace c) = true
  lastColon : token.getLast? ≠ some ':'

theorem token_lead {s : Scalar} (h : s.Valid) : Lead s.token := by
  unfold token
  cases hstyle : s.style with
  | bare =>
      obtain ⟨c, rest, htext, hlead⟩ := (h.bare hstyle).lead
      have hsolid : Solid s.text := solid_of_trim (by simp [htext]) (h.bare hstyle).trimmed
      refine ⟨hsolid, fun d hd => ?_, fun d rest' heq hd => ?_, (h.bare hstyle).noColon⟩
      · obtain rfl : c = d := by simpa [htext] using hd
        rcases hlead with hlead | ⟨hlead, -⟩
        · intro hin
          exact hlead (by simp only [indicators, List.mem_cons, List.not_mem_nil, or_false] at hin ⊢
                          tauto)
        · simp only [List.mem_cons, List.not_mem_nil, or_false] at hlead ⊢
          rcases hlead with rfl | rfl | rfl <;> decide
      · rw [htext] at heq
        obtain ⟨rfl, rfl⟩ := List.cons.inj heq
        rcases hlead with hlead | ⟨-, hrest⟩
        · refine absurd ?_ hlead
          simp only [indicators, List.mem_cons, List.not_mem_nil, or_false] at hd ⊢
          tauto
        · exact hrest
  | single =>
      refine ⟨⟨⟨'\x27', doubled s.text ++ ['\x27'], rfl, by decide⟩,
        ⟨'\x27' :: doubled s.text, '\x27', rfl, by decide⟩⟩, fun d hd => ?_, fun d rest heq hd => ?_,
        by rw [List.getLast?_concat]; decide⟩
      · obtain rfl : '\x27' = d := by simpa using hd
        decide
      · obtain ⟨rfl, -⟩ := List.cons.inj heq
        exact absurd hd (by decide)
  | double =>
      refine ⟨⟨⟨'"', escaped s.text ++ ['"'], rfl, by decide⟩,
        ⟨'"' :: escaped s.text, '"', rfl, by decide⟩⟩, fun d hd => ?_, fun d rest heq hd => ?_,
        by rw [List.getLast?_concat]; decide⟩
      · obtain rfl : '"' = d := by simpa using hd
        decide
      · obtain ⟨rfl, -⟩ := List.cons.inj heq
        exact absurd hd (by decide)

theorem collapseQuotes_doubled (s : Str) : collapseQuotes (doubled s) = s := by
  induction s with
  | nil => rfl
  | cons c s ih =>
      by_cases hc : c = '\x27'
      · subst hc
        change collapseQuotes ('\x27' :: '\x27' :: doubled s) = _
        rw [collapseQuotes, ih]
      · have hcons : doubled (c :: s) = c :: doubled s := by simp [doubled, hc]
        rw [hcons, collapseQuotes, ih]
        intro rest heq
        exact absurd heq hc

theorem length_escaped (s : Str) :
    (escaped s).length = s.length + s.countP fun c => c = '"' ∨ c = '\\' := by
  induction s with
  | nil => rfl
  | cons c s ih =>
      by_cases hc : c = '"' ∨ c = '\\'
      · have hcons : escaped (c :: s) = '\\' :: c :: escaped s := by simp [escaped, hc]
        rw [hcons, List.countP_cons_of_pos (by simpa using hc)]
        simp only [List.length_cons, ih]
        omega
      · have hcons : escaped (c :: s) = c :: escaped s := by simp [escaped, hc]
        rw [hcons, List.countP_cons_of_neg (by simpa using hc)]
        simp only [List.length_cons, ih]
        omega

theorem escaped_eq_self_iff (s : Str) : escaped s = s ↔ '"' ∉ s ∧ '\\' ∉ s := by
  constructor
  · intro h
    have hlength := length_escaped s
    rw [h] at hlength
    have hnone : s.countP (fun c => c = '"' ∨ c = '\\') = 0 := by omega
    have hall := List.countP_eq_zero.mp hnone
    exact ⟨fun hin => hall _ hin (by simp), fun hin => hall _ hin (by simp)⟩
  · rintro ⟨hquote, hslash⟩
    unfold escaped
    induction s with
    | nil => rfl
    | cons c s ih =>
        have hc : ¬(c = '"' ∨ c = '\\') := by
          rintro (rfl | rfl)
          · exact hquote List.mem_cons_self
          · exact hslash List.mem_cons_self
        rw [List.flatMap_cons, if_neg hc, ih (fun hin => hquote (List.mem_cons_of_mem c hin))
          (fun hin => hslash (List.mem_cons_of_mem c hin))]
        rfl

/-- Removing the marks of a token gives its text exactly when nothing is escaped. -/
theorem unquote_token {s : Scalar} (h : s.Valid) : unquote s.token = s.text ↔ s.Plain := by
  have hlead := token_lead h
  unfold unquote Plain
  simp only [hlead.solid.trim]
  cases hstyle : s.style with
  | bare =>
      obtain ⟨c, rest, htext, hfirst⟩ := (h.bare hstyle).lead
      have hmarks : c ≠ '\x27' ∧ c ≠ '"' := by
        rcases hfirst with hfirst | ⟨hfirst, -⟩
        · constructor
          · rintro rfl
            exact hfirst (by decide)
          · rintro rfl
            exact hfirst (by decide)
        · simp only [List.mem_cons, List.not_mem_nil, or_false] at hfirst
          rcases hfirst with rfl | rfl | rfl <;> decide
      have htoken : s.token = s.text := by simp [token, hstyle]
      have hbetween (mark : Char) (hmark : c ≠ mark) : between mark s.text = none := by
        simp [htext, between, hmark]
      simp [htoken, hbetween _ hmarks.1, hbetween _ hmarks.2]
  | single =>
      have hbetween : between '\x27' s.token = some (doubled s.text) := by
        simp only [token, hstyle, List.cons_append, between, List.getLast?_concat, and_self,
          if_true, List.dropLast_concat]
      simp [hbetween, collapseQuotes_doubled]
  | double =>
      have hsingle : between '\x27' s.token = none := by
        simp [token, hstyle, between]
      have hdouble : between '"' s.token = some (escaped s.text) := by
        simp only [token, hstyle, List.cons_append, between, List.getLast?_concat, and_self,
          if_true, List.dropLast_concat]
      simpa [hsingle, hdouble] using escaped_eq_self_iff s.text

theorem mem_token {s : Scalar} {c : Char} (h : c ∈ s.text) : c ∈ s.token := by
  unfold token
  cases s.style with
  | bare => exact h
  | single =>
      have hin : c ∈ doubled s.text := by
        refine List.mem_flatMap.mpr ⟨c, h, ?_⟩
        split <;> simp
      simp [hin]
  | double =>
      have hin : c ∈ escaped s.text := by
        refine List.mem_flatMap.mpr ⟨c, h, ?_⟩
        split <;> simp
      simp [hin]

/-- Only marks and backslashes are added. -/
theorem mem_text_of_mem_token {s : Scalar} {c : Char} (h : c ∈ s.token)
    (hmark : c ∉ ['\x27', '"', '\\']) : c ∈ s.text := by
  simp only [List.mem_cons, List.not_mem_nil, or_false, not_or] at hmark
  unfold token at h
  cases hstyle : s.style with
  | bare => simpa [hstyle] using h
  | single =>
      simp only [hstyle, List.cons_append, List.mem_cons, List.mem_append, List.not_mem_nil,
        or_false, hmark.1, false_or] at h
      obtain ⟨d, hd, hin⟩ := List.mem_flatMap.mp h
      split at hin <;> simp_all
  | double =>
      simp only [hstyle, List.cons_append, List.mem_cons, List.mem_append, List.not_mem_nil,
        or_false, hmark.2.1, false_or] at h
      obtain ⟨d, hd, hin⟩ := List.mem_flatMap.mp h
      split at hin <;> simp_all

theorem count_colon_token (s : Scalar) : s.token.count ':' = s.text.count ':' := by
  have hflat (f : Char → Str) (hf : ∀ c, (f c).count ':' = [c].count ':') (text : Str) :
      (text.flatMap f).count ':' = text.count ':' := by
    induction text with
    | nil => rfl
    | cons c text ih =>
        rw [List.flatMap_cons, List.count_append, ih, hf, ← List.count_append]
        rfl
  have hdoubled : (doubled s.text).count ':' = s.text.count ':' := by
    refine hflat _ (fun c => ?_) s.text
    split
    · rename_i hc
      subst hc
      decide
    · rfl
  have hescaped : (escaped s.text).count ':' = s.text.count ':' := by
    refine hflat _ (fun c => ?_) s.text
    split
    · rename_i hc
      rcases hc with rfl | rfl <;> decide
    · rfl
  unfold token
  cases s.style with
  | bare => rfl
  | single => simp [hdoubled]
  | double => simp [hescaped]

end Scalar

/-! ## What removing marks keeps -/

theorem exists_trim (s : Str) :
    ∃ pre post, s = pre ++ (trim s ++ post) ∧ (∀ c ∈ pre, isSpace c = true) ∧
      ∀ c ∈ post, isSpace c = true := by
  refine ⟨s.takeWhile isSpace, (trimStart s).rtakeWhile isSpace, ?_,
    fun c hc => List.mem_takeWhile_imp hc, fun c hc => ?_⟩
  · rw [trim, trimEnd, List.rdropWhile_append_rtakeWhile, trimStart, List.takeWhile_append_dropWhile]
  · unfold List.rtakeWhile at hc
    exact List.mem_takeWhile_imp (List.mem_reverse.mp hc)

theorem count_colon_trim (s : Str) : (trim s).count ':' = s.count ':' := by
  obtain ⟨pre, post, heq, hpre, hpost⟩ := exists_trim s
  have hnone (l : Str) (h : ∀ c ∈ l, isSpace c = true) : l.count ':' = 0 :=
    List.count_eq_zero.mpr fun hin => absurd (h ':' hin) (by decide)
  conv_rhs => rw [heq]
  rw [List.count_append, List.count_append, hnone pre hpre, hnone post hpost]
  omega

theorem count_colon_collapse (s : Str) : (collapseQuotes s).count ':' = s.count ':' := by
  fun_induction collapseQuotes s with
  | case1 rest ih => simp [ih]
  | case2 c rest _ ih => simp [List.count_cons, ih]
  | case3 => rfl

theorem mem_collapse {c : Char} {s : Str} (h : c ∈ collapseQuotes s) : c ∈ s := by
  fun_induction collapseQuotes s with
  | case1 rest ih => grind
  | case2 d rest _ ih => grind
  | case3 => cases h

theorem between_eq_some {mark : Char} {token body : Str} (h : between mark token = some body) :
    token = mark :: body ++ [mark] := by
  unfold between at h
  cases token with
  | nil => cases h
  | cons c rest =>
      simp only at h
      split at h
      · rename_i hmark
        cases h
        rw [hmark.1, List.cons_append, List.dropLast_append_getLast? mark hmark.2]
      · cases h

/-- Every colon stays. -/
theorem count_colon_unquote (token : Str) : (unquote token).count ':' = token.count ':' := by
  have hbody {mark : Char} {s body : Str} (hmark : mark ≠ ':') (h : between mark s = some body) :
      body.count ':' = s.count ':' := by
    rw [between_eq_some h]
    simp [hmark]
  rw [← count_colon_trim token]
  unfold unquote
  simp only
  split
  · rename_i body hsome
    rw [count_colon_collapse, hbody (by decide) hsome]
  · cases hdouble : between '"' (trim token) with
    | none => rfl
    | some body => exact hbody (by decide) hdouble

theorem mem_unquote {c : Char} {token : Str} (h : c ∈ unquote token) : c ∈ token := by
  have hbody {mark : Char} {s body : Str} (hsome : between mark s = some body) (hin : c ∈ body) :
      c ∈ s := by
    rw [between_eq_some hsome]
    simp [hin]
  refine mem_of_mem_trim ?_
  unfold unquote at h
  simp only at h
  split at h
  · rename_i body hsome
    exact hbody hsome (mem_collapse h)
  · cases hdouble : between '"' (trim token) with
    | none => simpa [hdouble] using h
    | some body => exact hbody hdouble (by simpa [hdouble] using h)

/-! ## The search for the colon -/

/-- Whether the search comes through a text, and out of its quotation marks. -/
def comesThrough (ends : Str → Bool) : Bool → Str → Bool
  | quoted, [] => !quoted
  | true, c :: rest => comesThrough ends (!isQuote c) rest
  | false, c :: rest =>
      if isQuote c then comesThrough ends true rest
      else !(c = ':' && ends rest) && comesThrough ends false rest

/-- What is asked of the text behind a colon is asked of its first character. -/
def Near (ends : Str → Bool) : Prop := ∀ c s t, ends (c :: (s ++ t)) = ends (c :: s)

theorem endsKey_near : Near endsKey := fun _ _ _ => rfl

theorem always_near : Near fun _ => true := fun _ _ _ => rfl

variable {ends : Str → Bool}

theorem splitColon_eq {quoted : Bool} {before text key rest : Str}
    (h : splitColon ends quoted before text = some (key, rest)) :
    ∃ mid, key = before ++ mid ∧ text = mid ++ ':' :: rest := by
  induction text generalizing quoted before with
  | nil => cases quoted <;> cases h
  | cons c text ih =>
      have hnext {q : Bool} (h : splitColon ends q (before ++ [c]) text = some (key, rest)) :
          ∃ mid, key = before ++ mid ∧ c :: text = mid ++ ':' :: rest := by
        obtain ⟨mid, hkey, htext⟩ := ih h
        exact ⟨c :: mid, by simp [hkey], by simp [htext]⟩
      cases quoted with
      | true => exact hnext h
      | false =>
          simp only [splitColon] at h
          split at h
          · exact hnext h
          · split at h
            · rename_i hcolon
              cases h
              have hc : c = ':' := of_decide_eq_true ((Bool.and_eq_true _ _).mp hcolon).1
              exact ⟨[], by simp, by simp [hc]⟩
            · exact hnext h

theorem getLast?_tail_ne {c : Char} {token : Str} (h : (c :: token).getLast? ≠ some ':') :
    token.getLast? ≠ some ':' := by
  cases token with
  | nil => simp
  | cons d token => simpa using h

/-- Inside a token, what stands behind the token is out of sight. -/
theorem ends_inside (hnear : Near ends) {token rest : Str}
    (hlast : (':' :: token).getLast? ≠ some ':') : ends (token ++ ':' :: rest) = ends token := by
  cases token with
  | nil => exact absurd rfl hlast
  | cons d token => exact hnear d token _

/-- A search that comes through a token stops at the colon behind it. -/
theorem splitColon_through (hnear : Near ends) {quoted : Bool} {before token rest : Str}
    (hlast : token.getLast? ≠ some ':') (hends : ends rest = true)
    (h : comesThrough ends quoted token = true) :
    splitColon ends quoted before (token ++ ':' :: rest) = some (before ++ token, rest) := by
  induction token generalizing quoted before with
  | nil =>
      have hquoted : quoted = false := by simpa [comesThrough] using h
      have hmark : isQuote ':' = false := by decide
      subst hquoted
      simp [splitColon, hmark, hends]
  | cons c token ih =>
      have hnext {q : Bool} (h : comesThrough ends q token = true) :
          splitColon ends q (before ++ [c]) (token ++ ':' :: rest) =
            some (before ++ c :: token, rest) := by
        rw [ih (getLast?_tail_ne hlast) h]
        simp
      rw [List.cons_append]
      cases quoted with
      | true => exact hnext h
      | false =>
          simp only [comesThrough] at h
          simp only [splitColon]
          split
          · rename_i hquote
            rw [if_pos hquote] at h
            exact hnext h
          · rename_i hquote
            rw [if_neg hquote, Bool.and_eq_true] at h
            have hstop : (decide (c = ':') && ends (token ++ ':' :: rest)) = false := by
              by_cases hc : c = ':'
              · subst hc
                rw [ends_inside hnear hlast]
                simpa using h.1
              · simp [hc]
            rw [hstop]
            exact hnext h.2

/-- A search that stops behind a token has come through it. -/
theorem comesThrough_of_splitColon (hnear : Near ends) {quoted : Bool}
    {before token rest rest' : Str} (hlast : token.getLast? ≠ some ':')
    (h : splitColon ends quoted before (token ++ ':' :: rest) = some (before ++ token, rest')) :
    comesThrough ends quoted token = true := by
  induction token generalizing quoted before with
  | nil =>
      cases quoted with
      | false => rfl
      | true =>
          have h' : splitColon ends (!isQuote ':') (before ++ [':']) rest = some (before ++ [], rest') := h
          obtain ⟨mid, hkey, -⟩ := splitColon_eq h'
          have hlength := congrArg List.length hkey
          simp only [List.append_nil, List.length_append, List.length_singleton] at hlength
          omega
  | cons c token ih =>
      have hnext {q : Bool} (h : splitColon ends q (before ++ [c]) (token ++ ':' :: rest) =
          some (before ++ c :: token, rest')) : comesThrough ends q token = true := by
        have htotal : before ++ c :: token = (before ++ [c]) ++ token := by simp
        rw [htotal] at h
        exact ih (getLast?_tail_ne hlast) h
      rw [List.cons_append] at h
      cases quoted with
      | true => exact hnext h
      | false =>
          simp only [splitColon] at h
          simp only [comesThrough]
          split at h
          · rename_i hquote
            rw [if_pos hquote]
            exact hnext h
          · rename_i hquote
            rw [if_neg hquote, Bool.and_eq_true]
            split at h
            · have hlength := congrArg (fun parts => (parts.map fun p => p.1.length)) h
              simp at hlength
            · rename_i hstop
              refine ⟨?_, hnext h⟩
              by_cases hc : c = ':'
              · subst hc
                rw [ends_inside hnear hlast] at hstop
                simpa using hstop
              · simp [hc]

/-- The number of colons in front tells at which colon a text is split. -/
theorem split_at_colon {a b rest rest' : Str} (heq : a ++ ':' :: rest = b ++ ':' :: rest')
    (hcount : a.count ':' = b.count ':') : a = b ∧ rest = rest' := by
  induction a generalizing b with
  | nil =>
      cases b with
      | nil => exact ⟨rfl, (List.cons.inj heq).2⟩
      | cons c b =>
          obtain ⟨rfl, -⟩ := List.cons.inj heq
          simp at hcount
  | cons c a ih =>
      cases b with
      | nil =>
          obtain ⟨rfl, -⟩ := List.cons.inj heq
          simp at hcount
      | cons d b =>
          obtain ⟨rfl, htail⟩ := List.cons.inj heq
          have hcount' : a.count ':' = b.count ':' := by
            simp only [List.count_cons] at hcount
            omega
          obtain ⟨rfl, rfl⟩ := ih htail hcount'
          exact ⟨rfl, rfl⟩

namespace Scalar

/-- A key that is read back in front of its colon. -/
structure GoodKey (ends : Str → Bool) (s : Scalar) : Prop where
  through : comesThrough ends false s.token = true
  plain : s.Plain

theorem GoodKey.split (hnear : Near ends) {s : Scalar} (h : GoodKey ends s) (hvalid : s.Valid)
    (rest : Str) (hends : ends rest = true) :
    splitColon ends false [] (s.token ++ ':' :: rest) = some (s.token, rest) ∧
      unquote s.token = s.text :=
  ⟨splitColon_through hnear (token_lead hvalid).lastColon hends h.through,
    (unquote_token hvalid).mpr h.plain⟩

/-- The search for the colon finds the right key only where the key is good. -/
theorem goodKey_of_split (hnear : Near ends) {s : Scalar} (hvalid : s.Valid)
    {key rest rest' : Str}
    (h : splitColon ends false [] (s.token ++ ':' :: rest) = some (key, rest'))
    (hkey : unquote key = s.text) : GoodKey ends s ∧ rest' = rest := by
  obtain ⟨mid, hmid, htext⟩ := splitColon_eq h
  obtain rfl : key = mid := by simpa using hmid
  have hcount : key.count ':' = s.token.count ':' := by
    rw [← count_colon_unquote, hkey, count_colon_token]
  obtain ⟨rfl, rfl⟩ := split_at_colon htext.symm hcount
  have hsplit : splitColon ends false [] (s.token ++ ':' :: rest') = some ([] ++ s.token, rest') := h
  exact ⟨⟨comesThrough_of_splitColon hnear (token_lead hvalid).lastColon hsplit,
    (unquote_token hvalid).mp hkey⟩, rfl⟩

end Scalar

end PnpmYaml
end Bpm
