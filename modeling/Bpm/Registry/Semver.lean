import Bpm.Registry.Request

/-!
# Two readings of a request text

`parse_spec` reads a bare version as exact, `VersionRange::parse` hands every
alternative to `semver`, where a bare version is a caret requirement; `parse_spec`
also accepts blank texts and the tag `latest`, which are no ranges.  The module
computes both readings and shows where they meet: for one text, and for the
alternatives of a disjunction.
-/

namespace Bpm

open Text

/-- The order of pre-release parts behind equal numbers. -/
def preLe (crates : Crates) (e v : Version) : Bool :=
  crates.leVersion { e with build := [] } { e with pre := v.pre, build := [] }

/-- What the caret requirement on the full version `e` admits: nothing left of the
first nonzero number may change, and a pre-release only of the same release. -/
def compatible (crates : Crates) (e v : Version) : Bool :=
  v.major = e.major &&
    (if 0 < e.major then
      e.minor < v.minor ||
        (v.minor = e.minor && (e.patch < v.patch || (v.patch = e.patch && preLe crates e v)))
    else if 0 < e.minor then
      v.minor = e.minor && (e.patch < v.patch || (v.patch = e.patch && preLe crates e v))
    else
      v.minor = e.minor && v.patch = e.patch && preLe crates e v) &&
    (v.pre.isEmpty || (!e.pre.isEmpty && v.minor = e.minor && v.patch = e.patch))

/-- What bpm relies on when both readings meet in `semver`: the characters of version
texts, two marks that no requirement holds, `latest` is no requirement, and a bare
version is a caret requirement. -/
structure Crates.Semver (crates : Crates) : Prop extends crates.Lawful where
  version_ne : ∀ {s v}, crates.parseVersion s = some v → s ≠ []
  version_chars : ∀ {s v}, crates.parseVersion s = some v →
    ∀ c ∈ s, c.isAlphanum = true ∨ c ∈ ['.', '-', '+']
  req_marks : ∀ {s r}, crates.parseReq s = some r → '@' ∉ s ∧ '|' ∉ s
  req_latest : crates.parseReq (lit "latest") = none
  bare : ∀ {s e}, crates.parseVersion s = some e → ∃ req, crates.parseReq s = some req ∧
    ∀ v, crates.reqMatches req v = compatible crates e v
  le_refl : ∀ v, crates.leVersion v v = true

/-- `VersionRange::parse(r)` followed by `matches`. -/
def rangeAccepts (crates : Crates) (r : Str) (v : Version) : Bool :=
  (VersionRange.parse crates r).any (·.matchesVersion crates v)

/-! ## Version texts -/

/-- A character of a version text. -/
def versionChar (c : Char) : Bool := c.isAlphanum || c ∈ ['.', '-', '+']

theorem versionChar_plain {c : Char} (h : versionChar c = true) :
    isSpace c = false ∧ c ∉ ['@', '|', '^', '~', '>', '<', '=', '*'] := by
  have hcode : c.toNat ≤ 122 ∧ 43 ≤ c.toNat ∧ c.toNat ≠ 60 ∧ c.toNat ≠ 61 ∧ c.toNat ≠ 62 ∧
      c.toNat ≠ 64 ∧ c.toNat ≠ 94 := by
    simp only [versionChar, Char.isAlphanum, Char.isAlpha, Char.isUpper, Char.isLower,
      Char.isDigit, Bool.or_eq_true, Bool.and_eq_true, decide_eq_true_eq] at h
    rcases h with (((h | h) | h) | h)
    · have h1 : 65 ≤ c.toNat := h.1
      have h2 : c.toNat ≤ 90 := h.2
      omega
    · have h1 : 97 ≤ c.toNat := h.1
      have h2 : c.toNat ≤ 122 := h.2
      omega
    · have h1 : 48 ≤ c.toNat := h.1
      have h2 : c.toNat ≤ 57 := h.2
      omega
    · simp only [List.mem_cons, List.not_mem_nil, or_false] at h
      rcases h with rfl | rfl | rfl <;> decide
  constructor
  · simp only [isSpace, Bool.or_eq_false_iff, Bool.and_eq_false_iff, decide_eq_false_iff_not,
      beq_eq_false_iff_ne]
    omega
  · simp only [List.mem_cons, List.not_mem_nil, or_false, not_or]
    refine ⟨?_, ?_, ?_, ?_, ?_, ?_, ?_, ?_⟩ <;> rintro rfl <;> revert hcode <;> decide

theorem version_versionChar {crates : Crates} (hcrates : crates.Semver) {s : Str} {v : Version}
    (h : crates.parseVersion s = some v) {c : Char} (hc : c ∈ s) : versionChar c = true := by
  rcases hcrates.version_chars h c hc with hchar | hchar <;> simp [versionChar, hchar]

/-- A text of one word that is no operator is its own normal form. -/
theorem normalize_word {s : Str} (hne : s ≠ []) (hspace : ∀ c ∈ s, isSpace c = false)
    (hoperator : isOperatorToken s = false) : normalizeComparatorWhitespace s = s := by
  have hwords : splitWhitespace s = [s] := by
    unfold splitWhitespace
    rw [List.splitOnP_eq_singleton fun c hc => by simp [hspace c hc]]
    simp [hne]
  unfold normalizeComparatorWhitespace
  rw [hwords]
  simp [glueOperators, hoperator, joinComparator]

theorem isOperatorToken_version {crates : Crates} (hcrates : crates.Semver) {s : Str}
    {v : Version} (h : crates.parseVersion s = some v) : isOperatorToken s = false := by
  obtain ⟨c, rest, rfl⟩ := List.exists_cons_of_ne_nil (hcrates.version_ne h)
  have hplain := (versionChar_plain (version_versionChar hcrates h List.mem_cons_self)).2
  simp only [List.mem_cons, List.not_mem_nil, or_false, not_or] at hplain
  simp [isOperatorToken, hplain]

theorem trim_of_plain {s : Str} (hspace : ∀ c ∈ s, isSpace c = false) : trim s = s := by
  have hstart : trimStart s = s := by
    cases s with
    | nil => rfl
    | cons c s => simp [trimStart, hspace c List.mem_cons_self]
  unfold trim
  rw [hstart, trimEnd, List.rdropWhile_eq_self_iff]
  intro hne
  simp [hspace _ (List.getLast_mem hne)]

/-! ## The range reading -/

/-- Only the trimmed parts of a range text are read. -/
theorem parseRequirements_congr {crates : Crates} {parts parts' : List Str}
    (h : parts.map trim = parts'.map trim) :
    parseRequirements crates parts = parseRequirements crates parts' := by
  induction parts generalizing parts' with
  | nil =>
      cases parts' with
      | nil => rfl
      | cons part' parts' => cases h
  | cons part parts ih =>
      cases parts' with
      | nil => cases h
      | cons part' parts' =>
          rw [List.map_cons, List.map_cons, List.cons.injEq] at h
          rw [parseRequirements, parseRequirements, h.1, ih h.2]

theorem rangeAccepts_trim (crates : Crates) (r : Str) (v : Version) :
    rangeAccepts crates (trim r) v = rangeAccepts crates r v := by
  have hsep : ∀ c ∈ ['|', '|'], isSpace c = false := by
    intro c hc
    simp only [List.mem_cons, List.not_mem_nil, or_false, or_self] at hc
    rw [hc]
    decide
  unfold rangeAccepts VersionRange.parse
  rw [parseRequirements_congr (map_trim_splitStr_trim (by simp) hsep r)]

/-- An accepted range text holds no mark but the separators. -/
theorem parseRequirements_marks {crates : Crates} (hcrates : crates.Semver) {parts : List Str}
    {reqs : List VersionReq} (h : parseRequirements crates parts = some reqs) {part : Str}
    (hpart : part ∈ parts) : '@' ∉ part ∧ '|' ∉ part := by
  induction parts generalizing reqs with
  | nil => cases hpart
  | cons first rest ih =>
      unfold parseRequirements at h
      simp only at h
      split at h
      · cases h
      · split at h
        · cases h
        · rename_i req hreq
          obtain ⟨reqs', hrest, _⟩ := Option.map_eq_some_iff.mp h
          rcases List.mem_cons.mp hpart with rfl | hin
          · have hmarks := hcrates.req_marks hreq
            exact ⟨fun hc => hmarks.1 (mem_normalizeComparatorWhitespace
                (mem_trim hc (by decide)) (by decide)),
              fun hc => hmarks.2 (mem_normalizeComparatorWhitespace
                (mem_trim hc (by decide)) (by decide))⟩
          · exact ih hrest hin

theorem rangeAccepts_of_at {crates : Crates} (hcrates : crates.Semver) {r : Str}
    (h : '@' ∈ r) (v : Version) : rangeAccepts crates r v = false := by
  have hnone : VersionRange.parse crates r = none := by
    refine Option.map_eq_none_iff.mpr ?_
    cases hreqs : parseRequirements crates (splitStr ['|', '|'] r) with
    | none => rfl
    | some reqs =>
        obtain ⟨part, hpart, hin⟩ := exists_mem_splitStr ['|', '|'] (by simp) (by decide) h
        exact absurd hin (parseRequirements_marks hcrates hreqs hpart).1
  simp [rangeAccepts, hnone]

/-- A text without separator is one part. -/
theorem splitStr_word {s : Str} (h : '|' ∉ s) : splitStr ['|', '|'] s = [s] := by
  unfold splitStr
  rw [splitStrAux_of_notMem (by simp) (fun c hc => by
    simp only [List.mem_cons, List.not_mem_nil, or_false, or_self]
    rintro rfl
    exact h hc)]
  simp

theorem rangeAccepts_word (crates : Crates) {s : Str} (hne : s ≠ [])
    (hspace : ∀ c ∈ s, isSpace c = false) (hoperator : isOperatorToken s = false)
    (hmark : '|' ∉ s) (v : Version) :
    rangeAccepts crates s v = (crates.parseReq s).any (crates.reqMatches · v) := by
  unfold rangeAccepts VersionRange.parse
  rw [splitStr_word hmark]
  simp only [parseRequirements, trim_of_plain hspace, normalize_word hne hspace hoperator,
    List.isEmpty_eq_false_iff.mpr hne]
  cases crates.parseReq s with
  | none => rfl
  | some req => simp [VersionRange.matchesVersion]

/-- As a range, a bare version admits what is compatible with it. -/
theorem rangeAccepts_version {crates : Crates} (hcrates : crates.Semver) {s : Str} {e : Version}
    (h : crates.parseVersion s = some e) (v : Version) :
    rangeAccepts crates s v = compatible crates e v := by
  have hplain := fun c hc => versionChar_plain (version_versionChar hcrates h (c := c) hc)
  rw [rangeAccepts_word crates (hcrates.version_ne h) (fun c hc => (hplain c hc).1)
    (isOperatorToken_version hcrates h) (fun hc => (hplain _ hc).2 (by decide))]
  obtain ⟨req, hreq, hmatches⟩ := hcrates.bare h
  simp [hreq, hmatches]

theorem rangeAccepts_nil (crates : Crates) (v : Version) : rangeAccepts crates [] v = false := rfl

/-- A tag is no range. -/
theorem rangeAccepts_latest {crates : Crates} (hcrates : crates.Semver) (v : Version) :
    rangeAccepts crates (lit "latest") v = false := by
  have hplain := List.all_eq_true.mp (show (lit "latest").all versionChar = true from rfl)
  rw [rangeAccepts_word crates (by decide) (fun c hc => (versionChar_plain (hplain c hc)).1)
    (by decide) (by decide), hcrates.req_latest]
  rfl

theorem compatible_refl {crates : Crates} (hcrates : crates.Semver) (e : Version) :
    compatible crates e e = true := by
  have hpre : preLe crates e e = true := hcrates.le_refl _
  unfold compatible
  rw [hpre]
  by_cases hmajor : 0 < e.major <;> by_cases hminor : 0 < e.minor <;>
    cases hempty : e.pre.isEmpty <;> simp [hmajor, hminor]

/-! ## The request reading -/

theorem rsplitOnce_of_notMem {s : Str} {c : Char} (h : c ∉ s) : rsplitOnce [c] s = none := by
  cases hsplit : rsplitOnce [c] s with
  | none => rfl
  | some parts =>
      refine absurd ?_ h
      rw [rsplitOnce_eq_append hsplit]
      simp

theorem rsplitOnce_of_mem {s : Str} {c : Char} (h : c ∈ s) : rsplitOnce [c] s ≠ none := by
  induction s with
  | nil => cases h
  | cons d s ih =>
      unfold rsplitOnce
      split
      · simp
      · rename_i hnone
        rcases List.mem_cons.mp h with rfl | hin
        · simp
        · exact absurd hnone (ih hin)

theorem trim_trimEnd (s : Str) : trim (trimEnd s) = trim s := by
  obtain ⟨w, hw, hspace⟩ := trimEnd_append_tail s
  conv_rhs => rw [hw]
  rw [trim_append_space hspace]

/-- What a parsed request text decides about a version. -/
theorem requestMatches_eq {crates : Crates} (r : Str) (v : Version) (h : '@' ∉ r) :
    requestMatches crates r v =
      (parseRequest crates (trim (lit "pkg@" ++ r)) (some (trimEnd r))).toOption.any
        (·.accepts crates v) := by
  have hpkg : trimStart (lit "pkg") = lit "pkg" := by decide
  have hne : lit "pkg" ≠ [] := by decide
  have htrim : trim (lit "pkg@" ++ r) = lit "pkg" ++ '@' :: trimEnd r := by
    change trim (lit "pkg" ++ '@' :: r) = _
    rw [trim_append_at (by rw [hpkg]; exact hne), hpkg]
  have hsplit : rsplitOnce ['@'] (trimEnd r) = none :=
    rsplitOnce_of_notMem fun hc => h ((List.rdropWhile_prefix isSpace r).subset hc)
  unfold requestMatches parseSpec
  rw [htrim]
  simp only [List.append_eq_nil_iff, reduceCtorEq, and_false, List.isEmpty_iff, if_false,
    splitSpec_of_none hne hsplit]
  rw [if_neg (by decide)]
  cases parseRequest crates (lit "pkg" ++ '@' :: trimEnd r) (some (trimEnd r)) with
  | error e => rfl
  | ok req => cases req <;> rfl

theorem requestMatches_of_at {crates : Crates} {r : Str} (h : '@' ∈ r) (v : Version) :
    requestMatches crates r v = false := by
  unfold requestMatches
  cases hspec : parseSpec crates (lit "pkg@" ++ r) with
  | error e => rfl
  | ok parsed =>
      have hspec : parseSpec crates (lit "pkg" ++ '@' :: r) = .ok parsed := hspec
      have hnone := (parseSpec_ok (by decide) hspec).1
      exact absurd hnone (rsplitOnce_of_mem (by
        have hin := mem_trim h (by decide)
        rw [← trim_trimEnd] at hin
        exact mem_of_mem_trim hin))

/-- The request reading in terms of the range reading. -/
theorem requestMatches_of_trim {crates : Crates} (hcrates : crates.Semver) {r : Str}
    (h : '@' ∉ r) (v : Version) :
    requestMatches crates r v =
      if trim r = [] ∨ trim r = lit "latest" then true
      else ((crates.parseVersion (trim r)).map (decide <| · = v)).getD
        (rangeAccepts crates r v) := by
  rw [requestMatches_eq r v h, ← rangeAccepts_trim]
  unfold parseRequest
  simp only [Option.map_some, trim_trimEnd]
  split
  · rfl
  · split
    · rename_i hhead
      -- a version text does not start with an operator
      have hversion : crates.parseVersion (trim r) = none := by
        cases hparse : crates.parseVersion (trim r) with
        | none => rfl
        | some e =>
            obtain ⟨c, rest, hcons⟩ := List.exists_cons_of_ne_nil (hcrates.version_ne hparse)
            have hplain := (versionChar_plain (version_versionChar hcrates hparse
              (c := c) (by rw [hcons]; exact List.mem_cons_self))).2
            rw [hcons] at hhead
            simp only [List.head?_cons, Option.any_some, decide_eq_true_eq] at hhead
            exact absurd (List.mem_cons_of_mem _ (List.mem_cons_of_mem _ hhead)) hplain
      rw [hversion]
      unfold rangeAccepts
      cases VersionRange.parse crates (trim r) <;> rfl
    · cases crates.parseVersion (trim r) with
      | some e => rfl
      | none =>
          unfold rangeAccepts
          cases VersionRange.parse crates (trim r) <;> rfl

/-- A version alone admits itself only. -/
def ExactAgrees (crates : Crates) (r : Str) (v : Version) : Prop :=
  ∀ e, crates.parseVersion (trim r) = some e → compatible crates e v = true → v = e

/-- Both readings of a text agree on a version exactly when the text is neither blank nor
the tag, and what is compatible with a bare version is that version. -/
theorem requestMatches_eq_rangeAccepts_iff {crates : Crates} (hcrates : crates.Semver)
    (r : Str) (v : Version) :
    requestMatches crates r v = rangeAccepts crates r v ↔
      trim r ≠ [] ∧ trim r ≠ lit "latest" ∧ ExactAgrees crates r v := by
  by_cases hat : '@' ∈ r
  · have hin : '@' ∈ trim r := mem_trim hat (by decide)
    rw [requestMatches_of_at hat, rangeAccepts_of_at hcrates hat]
    refine iff_of_true rfl ⟨fun h => ?_, fun h => ?_, fun e he _ => ?_⟩
    · rw [h] at hin
      cases hin
    · rw [h] at hin
      revert hin
      decide
    · exact absurd (by decide) (versionChar_plain (version_versionChar hcrates he hin)).2
  · rw [requestMatches_of_trim hcrates hat]
    by_cases hblank : trim r = [] ∨ trim r = lit "latest"
    · have hrange : rangeAccepts crates r v = false := by
        rw [← rangeAccepts_trim]
        rcases hblank with h | h <;> rw [h]
        · exact rangeAccepts_nil crates v
        · exact rangeAccepts_latest hcrates v
      rw [if_pos hblank, hrange]
      refine iff_of_false (by decide) fun h => ?_
      exact hblank.elim h.1 h.2.1
    · rw [if_neg hblank]
      rw [not_or] at hblank
      cases hparse : crates.parseVersion (trim r) with
      | none =>
          refine iff_of_true rfl ⟨hblank.1, hblank.2, fun e he _ => ?_⟩
          rw [hparse] at he
          cases he
      | some e =>
          rw [← rangeAccepts_trim, rangeAccepts_version hcrates hparse, Option.map_some,
            Option.getD_some]
          constructor
          · intro h
            refine ⟨hblank.1, hblank.2, fun e' he' hcompatible => ?_⟩
            rw [hparse] at he'
            cases he'
            rw [hcompatible] at h
            exact (of_decide_eq_true h).symm
          · rintro ⟨-, -, h⟩
            by_cases hev : e = v
            · rw [decide_eq_true hev, ← hev, compatible_refl hcrates]
            · rw [decide_eq_false hev]
              cases hcompatible : compatible crates e v with
              | false => rfl
              | true => exact absurd (h e hparse hcompatible).symm hev

end Bpm
