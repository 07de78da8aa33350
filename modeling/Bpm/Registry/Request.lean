import Bpm.Registry.Packument
import Bpm.Resolver.Sources

/-!
# What a request text means

The same request text is parsed behind the registry name, to select a version,
and behind the dummy name `pkg`, to test one.  Both parses agree, since the last
`@` of the text is the one that was put there; a blank name would shift it, but a
text that then parses as a scoped name is a Git shorthand and no registry request.
-/

namespace Bpm

open Text

/-! ## Characters of an accepted request -/

theorem mem_glueOperators {c : Char} {tokens : List Str} {pending : Option Str}
    (h : (∃ token ∈ tokens, c ∈ token) ∨ c ∈ pending.getD []) :
    ∃ part ∈ glueOperators tokens pending, c ∈ part := by
  induction tokens generalizing pending with
  | nil =>
      rcases h with ⟨token, htoken, _⟩ | h
      · cases htoken
      · cases pending with
        | none => cases h
        | some operator => exact ⟨operator, List.mem_cons_self, h⟩
  | cons token rest ih =>
      unfold glueOperators
      split
      · refine ih ?_
        rcases h with ⟨t, ht, hc⟩ | h
        · rcases List.mem_cons.mp ht with rfl | ht
          · exact Or.inr (List.mem_append_right _ hc)
          · exact Or.inl ⟨t, ht, hc⟩
        · exact Or.inr (List.mem_append_left _ h)
      · rcases h with ⟨t, ht, hc⟩ | h
        · rcases List.mem_cons.mp ht with rfl | ht
          · exact ⟨_, List.mem_cons_self, List.mem_append_right _ hc⟩
          · obtain ⟨part, hpart, hin⟩ := ih (Or.inl ⟨t, ht, hc⟩ : _ ∨ c ∈ (none : Option Str).getD [])
            exact ⟨part, List.mem_cons_of_mem _ hpart, hin⟩
        · exact ⟨_, List.mem_cons_self, List.mem_append_left _ h⟩

theorem mem_joinComparator {c : Char} {joined comparator : Str}
    (h : c ∈ joined ∨ c ∈ comparator) : c ∈ joinComparator joined comparator := by
  unfold joinComparator
  split
  · rename_i hempty
    rcases h with h | h
    · have : joined = [] := by simpa using hempty
      simp [this] at h
    · exact h
  · split <;> rcases h with h | h <;> simp [h]

theorem mem_foldl_joinComparator {c : Char} {parts : List Str} {joined : Str}
    (h : c ∈ joined ∨ ∃ part ∈ parts, c ∈ part) : c ∈ parts.foldl joinComparator joined := by
  induction parts generalizing joined with
  | nil => simpa using h
  | cons part parts ih =>
      refine ih ?_
      rcases h with h | ⟨p, hp, hc⟩
      · exact Or.inl (mem_joinComparator (Or.inl h))
      · rcases List.mem_cons.mp hp with rfl | hp
        · exact Or.inl (mem_joinComparator (Or.inr hc))
        · exact Or.inr ⟨p, hp, hc⟩

/-- Normalizing a comparator list loses no character but white space. -/
theorem mem_normalizeComparatorWhitespace {c : Char} {part : Str} (hc : c ∈ part)
    (hspace : isSpace c = false) : c ∈ normalizeComparatorWhitespace part := by
  obtain ⟨word, hword, hin⟩ := exists_mem_splitWhitespace hc hspace
  exact mem_foldl_joinComparator (Or.inr (mem_glueOperators (Or.inl ⟨word, hword, hin⟩)))

theorem parseRequirements_text {crates : Crates} (hcrates : crates.Lawful) {parts : List Str}
    {reqs : List VersionReq} (h : parseRequirements crates parts = some reqs) {part : Str}
    (hpart : part ∈ parts) : '/' ∉ part ∧ ':' ∉ part := by
  induction parts generalizing reqs with
  | nil => cases hpart
  | cons first rest ih =>
      unfold parseRequirements at h
      simp only at h
      split at h
      · cases h
      · split at h
        · cases h
        · rename_i req hreq
          obtain ⟨reqs', hrest, _⟩ := Option.map_eq_some_iff.mp h
          rcases List.mem_cons.mp hpart with rfl | hin
          · have htext := hcrates.req_text _ _ hreq
            constructor
            · intro hc
              exact htext.1 (mem_normalizeComparatorWhitespace
                (mem_trim hc (by decide)) (by decide))
            · intro hc
              exact htext.2 (mem_normalizeComparatorWhitespace
                (mem_trim hc (by decide)) (by decide))
          · exact ih hrest hin

theorem versionRange_text {crates : Crates} (hcrates : crates.Lawful) {text : Str}
    {range : VersionRange} (h : VersionRange.parse crates text = some range) :
    '/' ∉ text ∧ ':' ∉ text := by
  obtain ⟨reqs, hreqs, _⟩ := Option.map_eq_some_iff.mp h
  constructor
  · intro hc
    obtain ⟨part, hpart, hin⟩ := exists_mem_splitStr ['|', '|'] (by simp) (by decide) hc
    exact (parseRequirements_text hcrates hreqs hpart).1 hin
  · intro hc
    obtain ⟨part, hpart, hin⟩ := exists_mem_splitStr ['|', '|'] (by simp) (by decide) hc
    exact (parseRequirements_text hcrates hreqs hpart).2 hin

/-- An accepted request text holds neither a slash nor a colon. -/
theorem parseRequest_text {crates : Crates} (hcrates : crates.Lawful) {spec text : Str}
    {req : VersionRequest} (h : parseRequest crates spec (some text) = .ok req) :
    '/' ∉ text ∧ ':' ∉ text := by
  have key : '/' ∉ trim text ∧ ':' ∉ trim text → '/' ∉ text ∧ ':' ∉ text := by
    rintro ⟨hslash, hcolon⟩
    exact ⟨fun hc => hslash (mem_trim hc (by decide)), fun hc => hcolon (mem_trim hc (by decide))⟩
  refine key ?_
  unfold parseRequest at h
  simp only [Option.map_some] at h
  split at h
  · rename_i hlatest
    rcases hlatest with hlatest | hlatest <;> rw [hlatest] <;> decide
  · split at h
    · split at h
      · rename_i range hrange
        exact versionRange_text hcrates hrange
      · cases h
    · split at h
      · rename_i version hversion
        exact hcrates.version_text _ _ hversion
      · split at h
        · rename_i range hrange
          exact versionRange_text hcrates hrange
        · cases h

/-! ## Valid names -/

/-- The code points that a name segment may hold. -/
theorem validNameSegment_code {segment : Str} {upper : Bool}
    (h : validNameSegment segment upper = true) {c : Char} (hc : c ∈ segment) :
    45 ≤ c.toNat ∧ c.toNat ≤ 122 ∧ c.toNat ≠ 47 ∧ c.toNat ≠ 58 ∧ c.toNat ≠ 64 := by
  unfold validNameSegment at h
  split at h
  · cases h
  · simp only [Bool.and_eq_true, List.all_eq_true] at h
    have hchar := h.2 c hc
    simp only [Bool.or_eq_true, isAsciiAlnum, Bool.and_eq_true, decide_eq_true_eq] at hchar
    rcases hchar with ((hlower | hdigit) | ⟨_, hupper⟩) | hmark
    · simp only [Char.isLower, Bool.and_eq_true, decide_eq_true_eq] at hlower
      have h1 : 97 ≤ c.toNat := hlower.1
      have h2 : c.toNat ≤ 122 := hlower.2
      omega
    · simp only [Char.isDigit, Bool.and_eq_true, decide_eq_true_eq] at hdigit
      have h1 : 48 ≤ c.toNat := hdigit.1
      have h2 : c.toNat ≤ 57 := hdigit.2
      omega
    · simp only [Char.isUpper, decide_eq_true_eq] at hupper
      have h1 : 65 ≤ c.toNat := hupper.1
      have h2 : c.toNat ≤ 90 := hupper.2
      omega
    · simp only [List.mem_cons, List.not_mem_nil, or_false] at hmark
      rcases hmark with rfl | rfl | rfl <;> decide

theorem validNameSegment_char {segment : Str} {upper : Bool}
    (h : validNameSegment segment upper = true) :
    '@' ∉ segment ∧ '/' ∉ segment ∧ ':' ∉ segment := by
  refine ⟨fun hc => ?_, fun hc => ?_, fun hc => ?_⟩ <;>
    have hcode := validNameSegment_code h hc <;> revert hcode <;> decide

theorem validNameSegment_ne_nil {segment : Str} {upper : Bool}
    (h : validNameSegment segment upper = true) : segment ≠ [] := by
  rintro rfl
  cases h

/-- A valid name is one segment, or a scope and a segment. -/
theorem validNpmName_shape {name : Str} {upper : Bool} (h : validNpmName name upper = true) :
    (validNameSegment name upper = true ∧ stripPrefix ['@'] name = none) ∨
      ∃ scope pkg, name = '@' :: scope ++ '/' :: pkg ∧
        validNameSegment scope upper = true ∧ validNameSegment pkg upper = true := by
  unfold validNpmName at h
  split at h
  · cases h
  · split at h
    · rename_i rest hrest
      split at h
      · rename_i scope pkg hsplit
        simp only [Bool.and_eq_true] at h
        have hname : name = '@' :: rest := by
          unfold stripPrefix at hrest
          split at hrest
          · rename_i hprefix
            obtain ⟨t, ht⟩ := List.isPrefixOf_iff_prefix.mp hprefix
            rw [← ht] at hrest ⊢
            simpa using hrest
          · cases hrest
        refine Or.inr ⟨scope, pkg, ?_, h.1, h.2⟩
        rw [hname, splitOnce_eq_append hsplit]
        simp
      · cases h
    · rename_i hstrip
      exact Or.inl ⟨h, hstrip⟩

/-- Only the scope marker of a valid name is an `@`. -/
theorem validNpmName_tail {c : Char} {name : Str} {upper : Bool}
    (h : validNpmName (c :: name) upper = true) : '@' ∉ name := by
  rcases validNpmName_shape h with ⟨hsegment, _⟩ | ⟨scope, pkg, hname, hscope, hpkg⟩
  · exact fun hc => (validNameSegment_char hsegment).1 (List.mem_cons_of_mem _ hc)
  · rw [(List.cons.inj hname).2]
    intro hc
    rcases List.mem_append.mp hc with hc | hc
    · exact (validNameSegment_char hscope).1 hc
    · rcases List.mem_cons.mp hc with hc | hc
      · cases hc
      · exact (validNameSegment_char hpkg).1 hc

/-- A valid name has a character that is no white space. -/
theorem validNpmName_not_blank {name : Str} {upper : Bool}
    (h : validNpmName name upper = true) : trimStart name ≠ [] := by
  intro hblank
  have hall : ∀ c ∈ name, isSpace c = true := by
    simpa [trimStart, List.dropWhile_eq_nil_iff] using hblank
  rcases validNpmName_shape h with ⟨hsegment, _⟩ | ⟨scope, pkg, hname, _, _⟩
  · obtain ⟨c, rest, rfl⟩ := List.exists_cons_of_ne_nil (validNameSegment_ne_nil hsegment)
    have hcode := validNameSegment_code hsegment List.mem_cons_self
    have hspace := hall c List.mem_cons_self
    simp only [isSpace, Bool.or_eq_true, Bool.and_eq_true, decide_eq_true_eq,
      beq_iff_eq] at hspace
    omega
  · have hat := hall '@' (by rw [hname]; exact List.mem_cons_self)
    revert hat
    decide

/-! ## The request behind a name -/

/-- The separator put behind a name is the last `@` when the request text has
none. -/
theorem splitSpec_of_none {name text : Str} (hname : name ≠ [])
    (htext : rsplitOnce ['@'] text = none) :
    splitSpec (name ++ '@' :: text) = (name, some text) := by
  obtain ⟨c, rest, rfl⟩ := List.exists_cons_of_ne_nil hname
  have hsplit : rsplitOnce ['@'] ('@' :: text) = some ([], text) := by
    simp [rsplitOnce, htext]
  unfold splitSpec
  rw [rsplitOnce_append_left (c :: rest) hsplit]
  simp

/-- An `@` in the request text moves the separator into it. -/
theorem splitSpec_of_some {name text a b : Str} (hname : name ≠ [])
    (htext : rsplitOnce ['@'] text = some (a, b)) :
    splitSpec (name ++ '@' :: text) = (name ++ '@' :: a, some b) := by
  obtain ⟨c, rest, rfl⟩ := List.exists_cons_of_ne_nil hname
  have hsplit : rsplitOnce ['@'] ('@' :: text) = some ('@' :: a, b) := by
    simp [rsplitOnce, htext]
  unfold splitSpec
  rw [rsplitOnce_append_left (c :: rest) hsplit]
  simp

/-- The outcome of parsing a request does not depend on the text it is quoted
from. -/
theorem parseRequest_congr {crates : Crates} {spec spec' : Str} {text : Option Str}
    {req : VersionRequest} (h : parseRequest crates spec text = .ok req) :
    parseRequest crates spec' text = .ok req := by
  unfold parseRequest at h ⊢
  split at h
  · exact h
  · split at h
    · rename_i hlatest
      rw [if_pos hlatest]
      exact h
    · rename_i hlatest
      rw [if_neg hlatest]
      split at h
      · rename_i hrange
        rw [if_pos hrange]
        split at h
        · exact h
        · cases h
      · rename_i hrange
        rw [if_neg hrange]
        split at h
        · exact h
        · split at h
          · exact h
          · cases h

theorem trim_append_at {name text : Str} (hname : trimStart name ≠ []) :
    trim (name ++ '@' :: text) = trimStart name ++ '@' :: trimEnd text := by
  unfold trim
  rw [trimStart_append hname, trimEnd_append_cons (by decide)]

/-- A specification with a name that is not blank asks for what its request text
asks for. -/
theorem parseSpec_ok {crates : Crates} {name text : Str} (hname : trimStart name ≠ [])
    {parsed : PackageSpec} (h : parseSpec crates (name ++ '@' :: text) = .ok parsed) :
    rsplitOnce ['@'] (trimEnd text) = none ∧ parsed.name = trimStart name ∧
      ∀ spec, parseRequest crates spec (some (trimEnd text)) = .ok parsed.req := by
  unfold parseSpec at h
  rw [trim_append_at hname] at h
  simp only [List.append_eq_nil_iff, reduceCtorEq, and_false, List.isEmpty_iff, if_false] at h
  cases htext : rsplitOnce ['@'] (trimEnd text) with
  | none =>
      rw [splitSpec_of_none hname htext] at h
      simp only at h
      split at h
      · cases h
      · split at h
        · cases h
        · rename_i req hreq
          cases h
          exact ⟨rfl, rfl, fun spec => parseRequest_congr hreq⟩
  | some parts =>
      -- A second `@` would stand inside the name.
      obtain ⟨a, b⟩ := parts
      rw [splitSpec_of_some hname htext] at h
      simp only at h
      split at h
      · cases h
      · rename_i hvalid
        obtain ⟨c, rest, hcons⟩ := List.exists_cons_of_ne_nil hname
        have hvalid' : validNpmName (c :: (rest ++ '@' :: a)) true = true := by
          rw [hcons] at hvalid
          simpa [isValidNpmReadName] using hvalid
        exact absurd (List.mem_append_right rest List.mem_cons_self) (validNpmName_tail hvalid')

theorem parseSpec_name_valid {crates : Crates} {text : Str} {parsed : PackageSpec}
    (h : parseSpec crates text = .ok parsed) : isValidNpmReadName parsed.name = true := by
  unfold parseSpec at h
  simp only at h
  split at h
  · cases h
  · split at h
    · cases h
    · rename_i hvalid
      split at h
      · cases h
      · cases h
        simpa using hvalid

/-- Whether a version is what a request asks for. -/
def VersionRequest.accepts (crates : Crates) (req : VersionRequest) (version : Version) : Bool :=
  match req with
  | .latest => true
  | .exact expected => expected = version
  | .range r => r.matchesVersion crates version

/-- Testing a request text agrees with parsing it behind any name. -/
theorem requestMatches_eq_accepts {crates : Crates} {name text : Str}
    (hname : trimStart name ≠ []) {parsed : PackageSpec}
    (h : parseSpec crates (name ++ '@' :: text) = .ok parsed) (version : Version) :
    requestMatches crates text version = parsed.req.accepts crates version := by
  obtain ⟨htext, _, hreq⟩ := parseSpec_ok hname h
  have hpkg : trimStart (lit "pkg") = lit "pkg" := by decide
  have hne : lit "pkg" ≠ [] := by decide
  have htrim : trim (lit "pkg" ++ '@' :: text) = lit "pkg" ++ '@' :: trimEnd text := by
    rw [trim_append_at (by rw [hpkg]; exact hne), hpkg]
  have hspec : parseSpec crates (lit "pkg@" ++ text) = .ok ⟨lit "pkg", parsed.req⟩ := by
    change parseSpec crates (lit "pkg" ++ '@' :: text) = _
    unfold parseSpec
    rw [htrim]
    simp only [List.append_eq_nil_iff, reduceCtorEq, and_false, List.isEmpty_iff, if_false,
      splitSpec_of_none hne htext, hreq]
    rw [if_neg (by decide)]
  cases hcase : parsed.req with
  | latest | exact | range =>
      rw [hcase] at hspec
      simp [requestMatches, VersionRequest.accepts, hspec]

/-! ## Blank names -/

theorem stripPrefix_eq_none {p s : Str} {c : Char} (hp : c ∈ p) (hs : c ∉ s) :
    stripPrefix p s = none := by
  unfold stripPrefix
  rw [if_neg]
  intro h
  exact hs ((List.isPrefixOf_iff_prefix.mp h).subset hp)

theorem splitOn_slash {a b : Str} (ha : '/' ∉ a) (hb : '/' ∉ b) :
    List.splitOn '/' (a ++ '/' :: b) = [a, b] := by
  induction a with
  | nil =>
      have hsingle : List.splitOn '/' b = [b] := by
        refine List.splitOnP_eq_singleton fun c hc => ?_
        simpa using fun h : c = '/' => hb (h ▸ hc)
      simpa [List.splitOn, List.splitOnP_cons_eq_if_modifyHead] using hsingle
  | cons c a ih =>
      have hc : c ≠ '/' := fun h => ha (h ▸ List.mem_cons_self)
      have hrest := ih fun h => ha (List.mem_cons_of_mem _ h)
      unfold List.splitOn at hrest ⊢
      rw [List.cons_append, List.splitOnP_cons_eq_if_modifyHead, hrest]
      simp [hc]

/-- `owner/repo` is a Git shorthand. -/
theorem parse_owner_repo {owner repo : Str} (howner : owner ≠ []) (hrepo : repo ≠ [])
    (howner' : '/' ∉ owner ∧ ':' ∉ owner) (hrepo' : '/' ∉ repo ∧ ':' ∉ repo) :
    DependencySource.parse (owner ++ '/' :: repo) ≠ none := by
  have hcolon : ':' ∉ owner ++ '/' :: repo := by
    simp [howner'.2, hrepo'.2]
  have hhosted : looksLikeHostedGit (owner ++ '/' :: repo) = true := by
    have hnone : hostedGitPrefixes.findSome? (stripPrefix · (owner ++ '/' :: repo)) = none := by
      refine List.findSome?_eq_none_iff.mpr fun p hp => stripPrefix_eq_none ?_ hcolon
      revert p
      decide
    unfold looksLikeHostedGit
    rw [hnone, splitOn_slash howner'.1 hrepo'.1]
    simp [howner, hrepo, howner'.2, hrepo'.2]
  unfold DependencySource.parse
  rw [stripPrefix_eq_none (c := ':') (by decide) hcolon]
  unfold parsePlainSource
  rw [stripPrefix_eq_none (c := ':') (by decide) hcolon,
    stripPrefix_eq_none (c := ':') (by decide) hcolon]
  simp only [Option.or_none, hhosted, Bool.or_true, if_true]
  split
  · simp
  · split <;> simp

/-- Trailing white space is part of the repository name of a shorthand. -/
theorem trimEnd_append_tail (s : Str) : ∃ t, s = trimEnd s ++ t ∧ ∀ c ∈ t, isSpace c = true :=
  ⟨s.rtakeWhile isSpace, List.rdropWhile_append_rtakeWhile.symm,
    fun _ hc => List.mem_rtakeWhile_imp hc⟩

/-- A blank name in front of a request text that parses: the text is a Git
shorthand. -/
theorem parse_of_blank {crates : Crates} (hcrates : crates.Lawful) {name text : Str}
    (hblank : trimStart name = []) {parsed : PackageSpec}
    (h : parseSpec crates (name ++ '@' :: text) = .ok parsed) :
    DependencySource.parse text ≠ none := by
  have htrim : trim (name ++ '@' :: text) = '@' :: trimEnd text := by
    have hall : ∀ c ∈ name, isSpace c = true := by
      simpa [trimStart, List.dropWhile_eq_nil_iff] using hblank
    have hstart : trimStart (name ++ '@' :: text) = '@' :: text := by
      unfold trimStart
      rw [List.dropWhile_append_of_pos hall]
      simp [show isSpace '@' = false by decide]
    unfold trim
    rw [hstart]
    exact trimEnd_append_cons (a := []) (by decide)
  obtain ⟨tail, htail, hspaces⟩ := trimEnd_append_tail text
  have hclean : ∀ c : Char, isSpace c = false → c ∉ tail := by
    intro c hc hmem
    rw [hspaces c hmem] at hc
    cases hc
  -- Whatever follows the scoped name has no slash and no colon.
  have key : ∀ {scope pkg : Str} (rest : Str), trimEnd text = scope ++ '/' :: pkg ++ rest →
      validNameSegment scope true = true → validNameSegment pkg true = true →
      '/' ∉ rest ∧ ':' ∉ rest → DependencySource.parse text ≠ none := by
    intro scope pkg rest htext hscope hpkg hrest
    have hs := validNameSegment_char hscope
    have hp := validNameSegment_char hpkg
    have heq : text = scope ++ '/' :: (pkg ++ rest ++ tail) := by
      rw [htail, htext]
      simp
    rw [heq]
    refine parse_owner_repo (validNameSegment_ne_nil hscope) ?_ ⟨hs.2.1, hs.2.2⟩ ?_
    · intro hnil
      exact validNameSegment_ne_nil hpkg (List.append_eq_nil_iff.mp
        (List.append_eq_nil_iff.mp hnil).1).1
    · constructor
      · simp [hp.2.1, hrest.1, hclean '/' (by decide)]
      · simp [hp.2.2, hrest.2, hclean ':' (by decide)]
  unfold parseSpec at h
  rw [htrim] at h
  simp only [List.isEmpty_cons] at h
  cases hsplit : rsplitOnce ['@'] (trimEnd text) with
  | none =>
      have hspec : splitSpec ('@' :: trimEnd text) = ('@' :: trimEnd text, none) := by
        simp [splitSpec, rsplitOnce, hsplit]
      rw [hspec] at h
      simp only [Bool.false_eq_true, if_false] at h
      split at h
      · cases h
      · rename_i hvalid
        have hvalid' : validNpmName ('@' :: trimEnd text) true = true := by
          simpa [isValidNpmReadName] using hvalid
        rcases validNpmName_shape hvalid' with ⟨hsegment, _⟩ | ⟨scope, pkg, hname, hscope, hpkg⟩
        · exact absurd List.mem_cons_self (validNameSegment_char hsegment).1
        · refine key [] ?_ hscope hpkg (by simp)
          rw [(List.cons.inj hname).2]
          simp
  | some parts =>
      obtain ⟨a, b⟩ := parts
      have hspec : splitSpec ('@' :: trimEnd text) = ('@' :: a, some b) := by
        simp [splitSpec, rsplitOnce, hsplit]
      rw [hspec] at h
      simp only [Bool.false_eq_true, if_false] at h
      split at h
      · cases h
      · rename_i hvalid
        split at h
        · cases h
        · rename_i req hreq
          have hvalid' : validNpmName ('@' :: a) true = true := by
            simpa [isValidNpmReadName] using hvalid
          rcases validNpmName_shape hvalid' with ⟨hsegment, _⟩ | ⟨scope, pkg, hname, hscope, hpkg⟩
          · exact absurd List.mem_cons_self (validNameSegment_char hsegment).1
          · have hb := parseRequest_text hcrates hreq
            refine key ('@' :: b) ?_ hscope hpkg (by simp [hb.1, hb.2])
            rw [rsplitOnce_eq_append hsplit, (List.cons.inj hname).2]
            simp

/-- A registry request names a package. -/
theorem registryRequest_not_blank {crates : Crates} (hcrates : crates.Lawful)
    {name spec : Str} (hsource : DependencySource.parse spec = none) {parsed : PackageSpec}
    (h : parseSpec crates ((registryRequest crates name spec).1 ++ '@' ::
      (registryRequest crates name spec).2) = .ok parsed) :
    trimStart (registryRequest crates name spec).1 ≠ [] := by
  have hplain : parseSpec crates (name ++ '@' :: spec) = .ok parsed → trimStart name ≠ [] :=
    fun h hblank => parse_of_blank hcrates hblank h hsource
  unfold registryRequest at h ⊢
  split at h
  · exact hplain h
  · rename_i target htarget
    split at h
    · rename_i inner hinner
      exact validNpmName_not_blank (parseSpec_name_valid hinner)
    · exact hplain h

end Bpm
