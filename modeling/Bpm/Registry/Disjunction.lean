import Bpm.Registry.Release
import Bpm.Registry.Semver

/-!
# Disjunctions of requests

`A || B` is read as a range whose alternatives go to `semver` one by one.  It admits
what `A` or what `B` admits exactly when no alternative is read differently alone:
blank texts and `latest` are requests but no alternatives, and a bare version is exact
alone but a caret requirement inside.
-/

namespace Bpm

open Text

/-- A range text that `parse_spec` accepts as a version request. -/
def AcceptedRequest (crates : Crates) (r : Str) : Prop :=
  ∃ parsed, parseSpec crates (lit "pkg@" ++ r) = .ok parsed

/-- The texts between the separators of a disjunction. -/
def alternatives (r : Str) : List Str := splitStr ['|', '|'] r

def disjunction (a b : Str) : Str := a ++ lit " || " ++ b

/-- What one alternative of a disjunction admits. -/
def alternativeAccepts (crates : Crates) (p : Str) (v : Version) : Bool :=
  (parseRequirements crates [p]).any fun reqs => reqs.any (crates.reqMatches · v)

/-- `A || B` means `A` or `B`, and every alternative means what it means alone. -/
structure Disjoins (crates : Crates) (a b : Str) (v : Version) : Prop where
  either : requestMatches crates (disjunction a b) v = true ↔
    requestMatches crates a v = true ∨ requestMatches crates b v = true
  alone : ∀ p ∈ alternatives (disjunction a b),
    alternativeAccepts crates p v = requestMatches crates p v

/-- The text asks for more than whatever is newest. -/
def Constrains (r : Str) : Prop := trim r ≠ [] ∧ trim r ≠ lit "latest"

instance (r : Str) : Decidable (Constrains r) := inferInstanceAs (Decidable (_ ∧ _))

/-! ## Alternatives of a range -/

theorem alternativeAccepts_eq (crates : Crates) {p : Str} (h : '|' ∉ p) (v : Version) :
    alternativeAccepts crates p v = rangeAccepts crates p v := by
  unfold alternativeAccepts rangeAccepts VersionRange.parse
  rw [splitStr_word h]
  cases parseRequirements crates [p] <;> rfl

/-- A parsed list of alternatives admits what one of them admits. -/
theorem any_parseRequirements {crates : Crates} {parts : List Str} {reqs : List VersionReq}
    (h : parseRequirements crates parts = some reqs) (v : Version) :
    reqs.any (crates.reqMatches · v) = parts.any (alternativeAccepts crates · v) := by
  induction parts generalizing reqs with
  | nil =>
      cases h
      rfl
  | cons part rest ih =>
      unfold parseRequirements at h
      simp only at h
      split at h
      · cases h
      · rename_i hempty
        split at h
        · cases h
        · rename_i req hreq
          obtain ⟨reqs', hrest, rfl⟩ := Option.map_eq_some_iff.mp h
          have hpart : alternativeAccepts crates part v = crates.reqMatches req v := by
            simp [alternativeAccepts, parseRequirements, hempty, hreq]
          rw [List.any_cons, List.any_cons, ih hrest, hpart]

/-- Every alternative of a range constrains. -/
theorem constrains_of_parsed {crates : Crates} (hcrates : crates.Semver) {parts : List Str}
    {reqs : List VersionReq} (h : parseRequirements crates parts = some reqs) {part : Str}
    (hpart : part ∈ parts) : Constrains part := by
  induction parts generalizing reqs with
  | nil => cases hpart
  | cons first rest ih =>
      unfold parseRequirements at h
      simp only at h
      split at h
      · cases h
      · rename_i hempty
        split at h
        · cases h
        · rename_i req hreq
          obtain ⟨reqs', hrest, _⟩ := Option.map_eq_some_iff.mp h
          rcases List.mem_cons.mp hpart with rfl | hin
          · constructor <;> intro htrim <;> rw [htrim] at hempty hreq
            · exact hempty rfl
            · have hword : normalizeComparatorWhitespace (lit "latest") = lit "latest" := by
                decide
              rw [hword, hcrates.req_latest] at hreq
              cases hreq
          · exact ih hrest hin

theorem parsed_append {crates : Crates} {parts parts' : List Str} {reqs reqs' : List VersionReq}
    (h : parseRequirements crates parts = some reqs)
    (h' : parseRequirements crates parts' = some reqs') :
    parseRequirements crates (parts ++ parts') = some (reqs ++ reqs') := by
  induction parts generalizing reqs with
  | nil =>
      cases h
      exact h'
  | cons part rest ih =>
      unfold parseRequirements at h
      simp only at h
      split at h
      · cases h
      · rename_i hempty
        split at h
        · cases h
        · rename_i req hreq
          obtain ⟨tail, hrest, rfl⟩ := Option.map_eq_some_iff.mp h
          rw [List.cons_append, parseRequirements]
          simp [hempty, hreq, ih hrest]

theorem parsed_of_append {crates : Crates} {parts parts' : List Str} {reqs : List VersionReq}
    (h : parseRequirements crates (parts ++ parts') = some reqs) :
    (parseRequirements crates parts).isSome = true := by
  induction parts generalizing reqs with
  | nil => rfl
  | cons part rest ih =>
      rw [List.cons_append] at h
      unfold parseRequirements at h ⊢
      simp only at h ⊢
      split at h
      · cases h
      · rename_i hempty
        split at h
        · cases h
        · rename_i req hreq
          obtain ⟨tail, hrest, rfl⟩ := Option.map_eq_some_iff.mp h
          simp [hempty, ih hrest]

/-- White space around the separator belongs to no alternative. -/
theorem alternatives_disjunction {a : Str} (hfree : ∀ p ∈ alternatives a, '|' ∉ p) (b : Str) :
    (alternatives (disjunction a b)).map trim = (alternatives a ++ alternatives b).map trim := by
  have hspace : ∀ c ∈ [' '], isSpace c = true := by
    intro c hc
    rw [List.mem_singleton.mp hc]
    decide
  have hsep : ∀ c ∈ [' '], c ∉ ['|', '|'] := by simp
  have hne : ['|', '|'] ≠ [] := by simp
  have hleft : (alternatives (a ++ [' '])).map trim = (alternatives a).map trim :=
    map_trim_splitStrAux_append hne hspace hsep a 0 []
  have hright : (alternatives (' ' :: b)).map trim = (alternatives b).map trim := by
    unfold alternatives splitStr
    rw [show ' ' :: b = [' '] ++ b from rfl, splitStrAux_collect hne hsep]
    exact map_trim_splitStrAux_acc hspace b 0 []
  have hfree' : ∀ p ∈ splitStr ['|', '|'] (a ++ [' ']), ∀ c ∈ ['|', '|'], c ∉ p := by
    intro p hp c hc hin
    simp only [List.mem_cons, List.not_mem_nil, or_false, or_self] at hc
    subst hc
    have htrim := List.mem_map_of_mem (f := trim) hp
    rw [show (splitStr ['|', '|'] (a ++ [' '])).map trim = _ from hleft] at htrim
    obtain ⟨q, hq, hqp⟩ := List.mem_map.mp htrim
    have hbar : '|' ∈ trim p := mem_trim hin (by decide)
    rw [← hqp] at hbar
    exact hfree q hq (mem_of_mem_trim hbar)
  have hsplit : alternatives (disjunction a b) =
      alternatives (a ++ [' ']) ++ alternatives (' ' :: b) := by
    have hshape : disjunction a b = (a ++ [' ']) ++ (['|', '|'] ++ ' ' :: b) := by
      simp [disjunction, lit]
    rw [alternatives, hshape, splitStr_append hne hfree']
    rfl
  rw [hsplit, List.map_append, List.map_append, hleft, hright]

/-! ## Accepted requests -/

theorem AcceptedRequest.notMem_at {crates : Crates} {r : Str} (h : AcceptedRequest crates r) :
    '@' ∉ r := by
  intro hat
  obtain ⟨parsed, hparsed⟩ := h
  change parseSpec crates (lit "pkg" ++ '@' :: r) = _ at hparsed
  have hnone := (parseSpec_ok (by decide) hparsed).1
  refine rsplitOnce_of_mem ?_ hnone
  have hin := mem_trim hat (by decide)
  rw [← trim_trimEnd] at hin
  exact mem_of_mem_trim hin

/-- Every text without separator that constrains and is accepted is a range too. -/
theorem AcceptedRequest.parsed {crates : Crates} (hcrates : crates.Semver) {r : Str}
    (h : AcceptedRequest crates r) (hconstrains : Constrains r) :
    ∃ reqs, parseRequirements crates (alternatives r) = some reqs := by
  have hat := h.notMem_at
  obtain ⟨parsed, hparsed⟩ := h
  change parseSpec crates (lit "pkg" ++ '@' :: r) = _ at hparsed
  have hreq := (parseSpec_ok (by decide) hparsed).2.2 []
  have hrange : ∀ {range}, VersionRange.parse crates (trim r) = some range →
      ∃ reqs, parseRequirements crates (alternatives r) = some reqs := by
    intro range hrange
    obtain ⟨reqs, hreqs, _⟩ := Option.map_eq_some_iff.mp hrange
    have hsep : ∀ c ∈ ['|', '|'], isSpace c = false := by
      intro c hc
      simp only [List.mem_cons, List.not_mem_nil, or_false, or_self] at hc
      rw [hc]
      decide
    exact ⟨reqs, by
      rw [← hreqs]
      exact parseRequirements_congr (map_trim_splitStr_trim (by simp) hsep r).symm⟩
  unfold parseRequest at hreq
  simp only [Option.map_some, trim_trimEnd] at hreq
  rw [if_neg (not_or.mpr hconstrains)] at hreq
  split at hreq
  · split at hreq
    · rename_i range hparse
      exact hrange hparse
    · cases hreq
  · split at hreq
    · rename_i e hversion
      have haccepts := rangeAccepts_version hcrates hversion e
      rw [compatible_refl hcrates] at haccepts
      obtain ⟨range, hparse, _⟩ := (Option.any_eq_true _ _).mp haccepts
      exact hrange hparse
    · split at hreq
      · rename_i range hparse
        exact hrange hparse
      · cases hreq

theorem bar_notMem_of_unconstrained {r : Str} (h : ¬ Constrains r) : '|' ∉ r := by
  refine fun hbar => h ?_
  have hin : '|' ∈ trim r := mem_trim hbar (by decide)
  constructor <;> intro htrim <;> rw [htrim] at hin
  · cases hin
  · revert hin
    decide

/-- A request that is no range is one alternative. -/
theorem alternatives_unconstrained {r : Str} (h : ¬ Constrains r) : alternatives r = [r] :=
  splitStr_word (bar_notMem_of_unconstrained h)

theorem AcceptedRequest.free {crates : Crates} (hcrates : crates.Semver) {r : Str}
    (h : AcceptedRequest crates r) : ∀ p ∈ alternatives r, '|' ∉ p := by
  intro p hp
  by_cases hconstrains : Constrains r
  · obtain ⟨reqs, hreqs⟩ := h.parsed hcrates hconstrains
    exact (parseRequirements_marks hcrates hreqs hp).2
  · rw [alternatives_unconstrained hconstrains] at hp
    rw [List.mem_singleton.mp hp]
    exact bar_notMem_of_unconstrained hconstrains

/-- An unconstrained alternative spoils the whole range. -/
theorem parseRequirements_disjunction_none {crates : Crates} (hcrates : crates.Semver)
    {a b : Str} (ha : AcceptedRequest crates a) (h : ¬ (Constrains a ∧ Constrains b)) :
    parseRequirements crates (alternatives (disjunction a b)) = none := by
  cases hreqs : parseRequirements crates (alternatives (disjunction a b)) with
  | none => rfl
  | some reqs =>
      rw [parseRequirements_congr (alternatives_disjunction (ha.free hcrates) b)] at hreqs
      refine absurd ⟨?_, ?_⟩ h
      · by_contra hconstrains
        rw [alternatives_unconstrained hconstrains] at hreqs
        exact hconstrains (constrains_of_parsed hcrates hreqs List.mem_cons_self)
      · by_contra hconstrains
        rw [alternatives_unconstrained hconstrains] at hreqs
        exact hconstrains (constrains_of_parsed hcrates hreqs
          (List.mem_append_right _ List.mem_cons_self))

/-! ## Disjunctions -/

/-- A disjunction is read as a range. -/
theorem requestMatches_disjunction {crates : Crates} (hcrates : crates.Semver) (a b : Str)
    (v : Version) :
    requestMatches crates (disjunction a b) v = rangeAccepts crates (disjunction a b) v := by
  have hbar : '|' ∈ trim (disjunction a b) :=
    mem_trim (by simp [disjunction, lit]) (by decide)
  rw [requestMatches_eq_rangeAccepts_iff hcrates]
  refine ⟨fun h => ?_, fun h => ?_, fun e he _ => ?_⟩
  · rw [h] at hbar
    cases hbar
  · rw [h] at hbar
    revert hbar
    decide
  · exact absurd (by decide) (versionChar_plain (version_versionChar hcrates he hbar)).2

theorem rangeAccepts_of_parsed {crates : Crates} {r : Str} {reqs : List VersionReq}
    (h : parseRequirements crates (alternatives r) = some reqs) (v : Version) :
    rangeAccepts crates r v = (alternatives r).any (alternativeAccepts crates · v) := by
  rw [← any_parseRequirements h]
  unfold alternatives at h
  simp [rangeAccepts, VersionRange.parse, h, VersionRange.matchesVersion]

theorem ExactAgrees.congr {crates : Crates} {p q : Str} {v : Version} (h : trim p = trim q)
    (hp : ExactAgrees crates p v) : ExactAgrees crates q v := by
  unfold ExactAgrees at hp ⊢
  rwa [← h]

/-- What the alternatives of an accepted request admit alone, it admits. -/
theorem requestMatches_of_alternatives {crates : Crates} (hcrates : crates.Semver) {r : Str}
    (h : AcceptedRequest crates r) (hconstrains : Constrains r) {v : Version}
    (hexact : ∀ p ∈ alternatives r, ExactAgrees crates p v) :
    requestMatches crates r v = (alternatives r).any (alternativeAccepts crates · v) := by
  obtain ⟨reqs, hreqs⟩ := h.parsed hcrates hconstrains
  rw [← rangeAccepts_of_parsed hreqs, requestMatches_eq_rangeAccepts_iff hcrates]
  refine ⟨hconstrains.1, hconstrains.2, fun e he => ?_⟩
  -- a bare version is its own only alternative
  have hbar : '|' ∉ r := by
    intro hbar
    have hin := mem_trim hbar (by decide)
    exact absurd (by decide) (versionChar_plain (version_versionChar hcrates he hin)).2
  have hsingle : alternatives r = [r] := splitStr_word hbar
  exact hexact r (by rw [hsingle]; exact List.mem_cons_self) e he

/-- A disjunction of accepted requests means their disjunction, alternative by
alternative, exactly when both constrain and no alternative is a bare version that
something else is compatible with. -/
theorem disjoins_iff {crates : Crates} (hcrates : crates.Semver) {a b : Str}
    (ha : AcceptedRequest crates a) (hb : AcceptedRequest crates b) (v : Version) :
    Disjoins crates a b v ↔
      Constrains a ∧ Constrains b ∧
        ∀ p ∈ alternatives a ++ alternatives b, ExactAgrees crates p v := by
  have hrange := requestMatches_disjunction hcrates a b v
  by_cases hconstrains : Constrains a ∧ Constrains b
  · obtain ⟨ra, hra⟩ := ha.parsed hcrates hconstrains.1
    obtain ⟨rb, hrb⟩ := hb.parsed hcrates hconstrains.2
    have htrims := alternatives_disjunction (ha.free hcrates) b
    have hparsed : parseRequirements crates (alternatives (disjunction a b)) = some (ra ++ rb) := by
      rw [parseRequirements_congr htrims]
      exact parsed_append hra hrb
    have halone : ∀ p ∈ alternatives (disjunction a b),
        alternativeAccepts crates p v = requestMatches crates p v ↔ ExactAgrees crates p v := by
      intro p hp
      have hp' := constrains_of_parsed hcrates hparsed hp
      rw [alternativeAccepts_eq crates (parseRequirements_marks hcrates hparsed hp).2, eq_comm,
        requestMatches_eq_rangeAccepts_iff hcrates]
      exact ⟨fun h => h.2.2, fun h => ⟨hp'.1, hp'.2, h⟩⟩
    constructor
    · intro h
      refine ⟨hconstrains.1, hconstrains.2, fun p hp => ?_⟩
      have hmem := List.mem_map_of_mem (f := trim) hp
      rw [← htrims] at hmem
      obtain ⟨q, hq, hqp⟩ := List.mem_map.mp hmem
      exact ((halone q hq).mp (h.alone q hq)).congr hqp
    · rintro ⟨-, -, hexact⟩
      have hparts : ∀ p ∈ alternatives (disjunction a b), ExactAgrees crates p v := by
        intro p hp
        have hmem := List.mem_map_of_mem (f := trim) hp
        rw [htrims] at hmem
        obtain ⟨q, hq, hqp⟩ := List.mem_map.mp hmem
        exact (hexact q hq).congr hqp
      refine ⟨?_, fun p hp => (halone p hp).mpr (hparts p hp)⟩
      have hany : rangeAccepts crates (disjunction a b) v =
          (alternatives a ++ alternatives b).any (alternativeAccepts crates · v) := by
        rw [rangeAccepts_of_parsed hparsed, ← any_parseRequirements hparsed,
          ← any_parseRequirements (parsed_append hra hrb)]
      rw [hrange, hany, List.any_append, Bool.or_eq_true,
        requestMatches_of_alternatives hcrates ha hconstrains.1 fun p hp =>
          hexact p (List.mem_append_left _ hp),
        requestMatches_of_alternatives hcrates hb hconstrains.2 fun p hp =>
          hexact p (List.mem_append_right _ hp)]
  · refine iff_of_false (fun h => ?_) fun h => hconstrains ⟨h.1, h.2.1⟩
    -- the disjunction is no range, while one of its sides admits everything
    have hnone := parseRequirements_disjunction_none hcrates ha hconstrains
    have hreject : requestMatches crates (disjunction a b) v = false := by
      rw [hrange]
      unfold alternatives at hnone
      simp [rangeAccepts, VersionRange.parse, hnone]
    have hall : ∀ r : Str, '@' ∉ r → ¬ Constrains r → requestMatches crates r v = true := by
      intro r hat hr
      rw [requestMatches_of_trim hcrates hat, if_pos (not_and_or.mp hr |>.imp not_not.mp not_not.mp)]
    have haccept : requestMatches crates a v = true ∨ requestMatches crates b v = true :=
      (not_and_or.mp hconstrains).imp (hall a ha.notMem_at) (hall b hb.notMem_at)
    rw [h.either.mpr haccept] at hreject
    cases hreject

/-! ## Plain releases -/

namespace Release

theorem digit_of {c : Char} {n : Nat} (h : digit? c = some n) : c.isDigit = true := by
  unfold digit? at h
  split at h
  · assumption
  · cases h

theorem digit_ne {c : Char} {n : Nat} (h : digit? c = some n) : c ≠ '@' ∧ c ≠ '|' := by
  have hdigit := digit_of h
  constructor <;> rintro rfl <;> revert hdigit <;> decide

theorem parseVersion_shape {s : Str} {v : Version} (h : parseVersion s = some v) :
    ∃ a b c, s = [a, '.', b, '.', c] ∧ plainText s = true ∧ digit? a = some v.major ∧
      digit? b = some v.minor ∧ digit? c = some v.patch ∧ v.pre = [] := by
  have hplain := (parseVersion_some h).2
  unfold parseVersion at h
  split at h
  · rename_i a b c
    simp only [Option.bind_eq_bind, Option.bind_eq_some_iff, Option.ite_none_right_eq_some] at h
    obtain ⟨x, hx, y, hy, z, hz, _, heq⟩ := h
    cases heq
    exact ⟨a, b, c, rfl, hplain, hx, hy, hz, rfl⟩
  · cases h

theorem caret_marks {s : Str} {r : VersionReq} (h : caret s = some r) : '@' ∉ s ∧ '|' ∉ s := by
  unfold caret at h
  split at h
  · simp only [Option.bind_eq_bind, Option.bind_eq_some_iff] at h
    obtain ⟨x, hx, _⟩ := h
    simp [(digit_ne hx).1.symm, (digit_ne hx).2.symm]
  · simp only [Option.bind_eq_bind, Option.bind_eq_some_iff] at h
    obtain ⟨x, hx, y, hy, z, hz, _⟩ := h
    simp [(digit_ne hx).1.symm, (digit_ne hx).2.symm, (digit_ne hy).1.symm, (digit_ne hy).2.symm,
      (digit_ne hz).1.symm, (digit_ne hz).2.symm]
  · cases h

theorem parseReq_of_caret {s : Str} (hplain : plainText s = true) {c : Char} {rest : Str}
    (hs : s = c :: rest) (hstar : c ≠ '*') (hhat : c ≠ '^') : parseReq s = caret s := by
  subst hs
  unfold parseReq
  rw [if_pos hplain]
  split
  · rename_i heq
    exact absurd (List.cons.inj heq).1 hstar
  · rename_i heq
    exact absurd (List.cons.inj heq).1 hhat
  · rfl

theorem leVersion_refl (v : Version) : leVersion v v = true := by
  simp [leVersion]

/-- A caret requirement on a plain release is what `compatible` says. -/
theorem comparatorMatches_eq (e v : Version) (he : e.pre = []) :
    (comparatorMatches ⟨.caret, e.major, some e.minor, some e.patch, []⟩ v && v.pre.isEmpty) =
      compatible crates e v := by
  have hle : v.pre = [] → preLe crates e v = true := by
    intro hv
    have hsame : ({ e with pre := v.pre, build := [] } : Version) = { e with build := [] } := by
      rw [hv, he]
    rw [preLe, hsame]
    exact leVersion_refl _
  by_cases hv : v.pre = []
  · have hpre := hle hv
    simp only [comparatorMatches, compatible, hpre, hv, he, List.isEmpty_nil, Bool.and_true,
      Bool.true_or]
    by_cases hmajor : 0 < e.major
    · simp only [hmajor, if_true]
      grind
    · by_cases hminor : 0 < e.minor
      · simp only [hmajor, hminor, if_false, if_true]
        grind
      · simp only [hmajor, hminor, if_false]
  · have hempty : v.pre.isEmpty = false := by simpa using hv
    simp [compatible, he, hempty]

theorem crates_semver : crates.Semver where
  toLawful := crates_lawful
  version_ne h := by
    obtain ⟨a, b, c, rfl, _⟩ := parseVersion_shape h
    simp
  version_chars h := by
    obtain ⟨a, b, c, rfl, _, ha, hb, hc, _⟩ := parseVersion_shape h
    intro d hd
    simp only [List.mem_cons, List.not_mem_nil, or_false] at hd
    rcases hd with rfl | rfl | rfl | rfl | rfl
    · simp [Char.isAlphanum, digit_of ha]
    · simp
    · simp [Char.isAlphanum, digit_of hb]
    · simp
    · simp [Char.isAlphanum, digit_of hc]
  req_marks h := by
    change parseReq _ = _ at h
    unfold parseReq at h
    split at h
    · split at h
      · decide
      · have hrest := caret_marks h
        simp [hrest]
      · exact caret_marks h
    · cases h
  req_latest := by decide
  bare h := by
    obtain ⟨a, b, c, hs, hplain, ha, hb, hc, hpre⟩ := parseVersion_shape h
    have hdigit := digit_of ha
    have hstar : a ≠ '*' ∧ a ≠ '^' := by
      constructor <;> rintro rfl <;> revert hdigit <;> decide
    have hcaret := parseReq_of_caret hplain hs hstar.1 hstar.2
    refine ⟨_, hcaret.trans (by rw [hs]; simp [caret, ha, hb, hc]; rfl), fun v => ?_⟩
    simpa [crates] using comparatorMatches_eq _ v hpre
  le_refl := leVersion_refl

end Release

/-- Two caret ranges. -/
theorem disjoins_carets :
    Disjoins Release.crates (lit "^1.0.0") (lit "^2.0.0") (Release.version 1 3 0) :=
  (disjoins_iff Release.crates_semver ⟨_, rfl⟩ ⟨_, rfl⟩ _).mpr ⟨by decide, by decide, by
    have hnone : (alternatives (lit "^1.0.0") ++ alternatives (lit "^2.0.0")).all
        (fun p => (Release.crates.parseVersion (trim p)).isNone) = true := by decide
    intro p hp e he
    have hp := List.all_eq_true.mp hnone p hp
    rw [he] at hp
    cases hp⟩

/-- `1.2.3` alone admits only itself; inside of a disjunction it admits `1.3.0`. -/
theorem not_disjoins_bare :
    AcceptedRequest Release.crates (lit "1.2.3") ∧ AcceptedRequest Release.crates (lit "^2.0.0") ∧
      ¬ Disjoins Release.crates (lit "1.2.3") (lit "^2.0.0") (Release.version 1 3 0) := by
  refine ⟨⟨_, rfl⟩, ⟨_, rfl⟩, fun h => ?_⟩
  have hmatch : requestMatches Release.crates (disjunction (lit "1.2.3") (lit "^2.0.0"))
      (Release.version 1 3 0) = true := by decide
  have hnot : requestMatches Release.crates (lit "1.2.3") (Release.version 1 3 0) = false ∧
      requestMatches Release.crates (lit "^2.0.0") (Release.version 1 3 0) = false := by
    decide
  have heither := h.either.mp hmatch
  rw [hnot.1, hnot.2] at heither
  simp at heither

end Bpm
