import Bpm.Lib.Intervals
import Bpm.Registry.Release
import Bpm.Resolver.Overrides

/-!
# Requirements with a common version

A comparator without pre-release parts accepts the releases of a half-open interval.  The
conflict check of overrides probes finitely many versions.  The lowest release of every
interval is among them, except behind a strict bound on a minor version: the lowest release
above `>1.2` is `1.3.0`, and it is not probed.
-/

namespace Bpm

/-- The numbers of a version. -/
def Version.numbers (v : Version) : Triple := triple v.major v.minor v.patch

/-- A release; its numbers fit in 64 bits. -/
structure Version.IsRelease (v : Version) : Prop where
  pre : v.pre = []
  major : v.major < 2 ^ 64
  minor : v.minor < 2 ^ 64
  patch : v.patch < 2 ^ 64

namespace Comparator

/-- A comparator without a pre-release part, whose missing parts are the last ones. -/
structure Numeric (c : Comparator) : Prop where
  pre : c.pre = []
  major : c.major < 2 ^ 64
  minor : ∀ m ∈ c.minor, m < 2 ^ 64
  patch : ∀ p ∈ c.patch, p < 2 ^ 64
  partial_last : c.minor = none → c.patch = none

/-- The version that is written in a comparator, missing parts read as zero. -/
def spelled (c : Comparator) : Triple := triple c.major (c.minor.getD 0) (c.patch.getD 0)

/-- Behind all versions that agree with the parts that are written. -/
def past (c : Comparator) : Triple :=
  match c.minor, c.patch with
  | none, _ => triple (c.major + 1) 0 0
  | some m, none => triple c.major (m + 1) 0
  | some m, some p => triple c.major m (p + 1)

def tildeEnd (c : Comparator) : Triple :=
  match c.minor with
  | none => triple (c.major + 1) 0 0
  | some m => triple c.major (m + 1) 0

/-- Nothing left of the first nonzero part may change. -/
def caretEnd (c : Comparator) : Triple :=
  match c.minor, c.patch with
  | none, _ => triple (c.major + 1) 0 0
  | some m, patch =>
      if 0 < c.major then triple (c.major + 1) 0 0
      else if 0 < m then triple c.major (m + 1) 0
      else
        match patch with
        | none => triple c.major (m + 1) 0
        | some p => triple c.major m (p + 1)

/-- The releases that a comparator accepts, as `semver` documents its operators. -/
def interval (c : Comparator) : Interval Triple :=
  match c.op with
  | .exact | .wildcard => ⟨c.spelled, some c.past⟩
  | .greater => ⟨c.past, none⟩
  | .greaterEq => ⟨c.spelled, none⟩
  | .less => ⟨triple 0 0 0, some c.spelled⟩
  | .lessEq => ⟨triple 0 0 0, some c.past⟩
  | .tilde => ⟨c.spelled, some c.tildeEnd⟩
  | .caret => ⟨c.spelled, some c.caretEnd⟩

end Comparator

/-- Requirements of numeric comparators. -/
def VersionReq.Numeric (r : VersionReq) : Prop := ∀ c ∈ r.comparators, c.Numeric

/-- `semver` matches releases against requirements as it documents its operators. -/
def Crates.MatchesReleases (crates : Crates) : Prop :=
  ∀ r v, r.Numeric → Version.IsRelease v →
    (crates.reqMatches r v = true ↔ ∀ c ∈ r.comparators, c.interval.Contains v.numbers)

namespace Intersection

/-- A release satisfies both requirements. -/
def Common (l r : VersionReq) (n : Triple) : Prop :=
  ∀ c ∈ l.comparators ++ r.comparators, c.interval.Contains n

/-- Where a strict bound on a minor version is what starts the common releases, the next
major version or a version that is written in a comparator is common, too. -/
def Probed (l r : VersionReq) : Prop :=
  ∀ c ∈ l.comparators ++ r.comparators, ∀ m, c.op = .greater → c.minor = some m →
    (∀ p ∈ c.patch, p + 1 = 2 ^ 64) → m + 1 < 2 ^ 64 → Common l r (triple c.major (m + 1) 0) →
      c.major + 1 < 2 ^ 64 ∧ Common l r (triple (c.major + 1) 0 0) ∨
        ∃ d ∈ l.comparators ++ r.comparators, Common l r d.spelled

theorem common_iff {crates : Crates} (hcrates : crates.MatchesReleases) {l r : VersionReq}
    (hl : l.Numeric) (hr : r.Numeric) {v : Version} (hv : v.IsRelease) :
    (crates.reqMatches l v && crates.reqMatches r v) = true ↔ Common l r v.numbers := by
  rw [Bool.and_eq_true, hcrates l v hl hv, hcrates r v hr hv, Common]
  constructor
  · intro ⟨hleft, hright⟩ c hc
    rcases List.mem_append.mp hc with h | h
    · exact hleft c h
    · exact hright c h
  · intro h
    exact ⟨fun c hc => h c (List.mem_append_left _ hc), fun c hc => h c (List.mem_append_right _ hc)⟩

/-- The numbers of the versions that are probed. -/
inductive Candidate (cs : List Comparator) : Triple → Prop
  | zero : Candidate cs (triple 0 0 0)
  | spelled {c : Comparator} (hc : c ∈ cs) : Candidate cs c.spelled
  | nextPatch {c : Comparator} (hc : c ∈ cs) : Candidate cs
      (triple c.major (c.minor.getD 0) (min (c.patch.getD 0 + 1) (2 ^ 64 - 1)))
  | nextMajor {c : Comparator} (hc : c ∈ cs) :
      Candidate cs (triple (min (c.major + 1) (2 ^ 64 - 1)) 0 0)

theorem mem_boundaryCandidates {cs : List Comparator} (hcs : ∀ c ∈ cs, c.Numeric) {v : Version}
    (h : v ∈ boundaryCandidates cs) : v.IsRelease ∧ Candidate cs v.numbers := by
  rcases List.mem_cons.mp h with rfl | h
  · exact ⟨⟨rfl, by decide, by decide, by decide⟩, .zero⟩
  obtain ⟨c, hc, hv⟩ := List.mem_flatMap.mp h
  have hnumeric := hcs c hc
  have hminor : c.minor.getD 0 < 2 ^ 64 := by
    cases hm : c.minor with
    | none => decide
    | some m => exact hnumeric.minor m hm
  have hpatch : c.patch.getD 0 < 2 ^ 64 := by
    cases hp : c.patch with
    | none => decide
    | some p => exact hnumeric.patch p hp
  simp only [List.mem_cons, List.not_mem_nil, or_false] at hv
  rcases hv with rfl | rfl | rfl
  · exact ⟨⟨rfl, hnumeric.major, hminor, hpatch⟩, .spelled hc⟩
  · exact ⟨⟨rfl, hnumeric.major, hminor, by change min _ _ < _; omega⟩, .nextPatch hc⟩
  · exact ⟨⟨rfl, by change min _ _ < _; omega, Nat.two_pow_pos 64, Nat.two_pow_pos 64⟩,
      .nextMajor hc⟩

theorem exists_boundaryCandidate {cs : List Comparator} {n : Triple} (h : Candidate cs n) :
    ∃ v ∈ boundaryCandidates cs, v.numbers = n := by
  have hmem : ∀ {c : Comparator} {v : Version}, c ∈ cs →
      v ∈ [(⟨c.major, c.minor.getD 0, c.patch.getD 0, [], []⟩ : Version),
        ⟨c.major, c.minor.getD 0, min (c.patch.getD 0 + 1) (2 ^ 64 - 1), [], []⟩,
        ⟨min (c.major + 1) (2 ^ 64 - 1), 0, 0, [], []⟩] → v ∈ boundaryCandidates cs :=
    fun hc hv => List.mem_cons_of_mem _ (List.mem_flatMap.mpr ⟨_, hc, hv⟩)
  cases h with
  | zero => exact ⟨⟨0, 0, 0, [], []⟩, List.mem_cons_self, rfl⟩
  | spelled hc => exact ⟨_, hmem hc List.mem_cons_self, rfl⟩
  | nextPatch hc => exact ⟨_, hmem hc (List.mem_cons_of_mem _ List.mem_cons_self), rfl⟩
  | nextMajor hc => exact ⟨_, hmem hc (List.mem_cons_of_mem _ (List.mem_cons_of_mem _ List.mem_cons_self)), rfl⟩

/-- The check finds a common version exactly when a candidate is one. -/
theorem rangesIntersect_iff {crates : Crates} (hcrates : crates.MatchesReleases)
    {l r : VersionReq} (hl : l.Numeric) (hr : r.Numeric) :
    rangesIntersect crates l r = true ↔
      ∃ n, Candidate (l.comparators ++ r.comparators) n ∧ Common l r n := by
  have hcs : ∀ c ∈ l.comparators ++ r.comparators, c.Numeric := by
    intro c hc
    rcases List.mem_append.mp hc with h | h
    · exact hl c h
    · exact hr c h
  unfold rangesIntersect
  rw [List.any_eq_true]
  constructor
  · intro ⟨v, hv, hmatch⟩
    obtain ⟨hrelease, hcandidate⟩ := mem_boundaryCandidates hcs hv
    exact ⟨v.numbers, hcandidate, (common_iff hcrates hl hr hrelease).mp hmatch⟩
  · intro ⟨n, hn, hcommon⟩
    obtain ⟨v, hv, rfl⟩ := exists_boundaryCandidate hn
    exact ⟨v, hv, (common_iff hcrates hl hr (mem_boundaryCandidates hcs hv).1).mpr hcommon⟩

/-- Behind a strict bound on a minor version, the lowest release is the next minor one. -/
theorem past_le_iff {c : Comparator} {m : Nat} (hminor : c.minor = some m)
    (hpatch : ∀ p ∈ c.patch, p + 1 = 2 ^ 64) {x y z : Nat} (hz : z < 2 ^ 64) :
    c.past ≤ triple x y z ↔ triple c.major (m + 1) 0 ≤ triple x y z := by
  unfold Comparator.past
  rw [hminor]
  cases hp : c.patch with
  | none => rfl
  | some p =>
      have := hpatch p hp
      simp only [triple_le]
      omega

/-- The checks find the common versions that the probes can reach. -/
theorem probed_of_found {l r : VersionReq} (hl : l.Numeric) (hr : r.Numeric)
    (h : (∃ v : Version, v.IsRelease ∧ Common l r v.numbers) →
      ∃ n, Candidate (l.comparators ++ r.comparators) n ∧ Common l r n) : Probed l r := by
  intro c hc m hop hminor hpatch hm hfirst
  have hnumeric : ∀ d ∈ l.comparators ++ r.comparators, d.Numeric := by
    intro d hd
    rcases List.mem_append.mp hd with hd | hd
    · exact hl d hd
    · exact hr d hd
  have hmajor := (hnumeric c hc).major
  obtain ⟨n, hn, hcommon⟩ := h ⟨⟨c.major, m + 1, 0, [], []⟩,
    ⟨rfl, hmajor, hm, Nat.two_pow_pos 64⟩, hfirst⟩
  -- every common release is behind the bound
  have hbehind : ∀ {x y z : Nat}, z < 2 ^ 64 → Common l r (triple x y z) →
      triple c.major (m + 1) 0 ≤ triple x y z := by
    intro x y z hz hxyz
    have hlow := (hxyz c hc).1
    rw [Comparator.interval, hop] at hlow
    exact (past_le_iff hminor hpatch hz).mp hlow
  cases hn with
  | zero =>
      have := hbehind (Nat.two_pow_pos 64) hcommon
      rw [triple_le] at this
      omega
  | spelled hd => exact .inr ⟨_, hd, hcommon⟩
  | nextPatch hd =>
      rename_i d
      right
      refine ⟨d, hd, fun e he => ?_⟩
      have hsmall : d.patch.getD 0 < 2 ^ 64 := by
        cases hp : d.patch with
        | none => exact Nat.two_pow_pos 64
        | some p => exact (hnumeric d hd).patch p hp
      have hle : d.spelled ≤ triple d.major (d.minor.getD 0)
          (min (d.patch.getD 0 + 1) (2 ^ 64 - 1)) := by
        unfold Comparator.spelled
        rw [triple_le]
        omega
      refine (hcommon e he).below ?_ hle
      -- the lowest release of `e` is at most `first`, so it is not the next patch
      by_contra hlow
      have hbelow := hbehind (z := min (d.patch.getD 0 + 1) (2 ^ 64 - 1)) (by omega) hcommon
      have hstart : e.interval.low ≤ triple c.major (m + 1) 0 := (hfirst e he).1
      have hgap : d.spelled < triple c.major (m + 1) 0 := (not_le.mp hlow).trans_le hstart
      unfold Comparator.spelled at hgap
      rw [triple_lt] at hgap
      rw [triple_le] at hbelow
      omega
  | nextMajor hd =>
      rename_i d
      left
      have hbelow := hbehind (z := 0) (Nat.two_pow_pos 64) hcommon
      rw [triple_le] at hbelow
      refine ⟨by omega, fun e he => (hcommon e he).below ?_ ?_⟩
      · refine (hfirst e he).1.trans ?_
        rw [triple_le]
        omega
      · rw [triple_le]
        omega

theorem found_of_probed {l r : VersionReq} (hl : l.Numeric) (hr : r.Numeric) (h : Probed l r)
    {v : Version} (hv : v.IsRelease) (hcommon : Common l r v.numbers) :
    ∃ n, Candidate (l.comparators ++ r.comparators) n ∧ Common l r n := by
  by_cases hne : l.comparators ++ r.comparators = []
  · exact ⟨_, .zero, by simp [Common, hne]⟩
  have hintervals : (l.comparators ++ r.comparators).map Comparator.interval ≠ [] := by
    simpa using hne
  obtain ⟨i, hi, hlow, hcommons⟩ := Interval.exists_common hintervals
    (List.forall_mem_map.mpr hcommon)
  obtain ⟨c, hc, rfl⟩ := List.mem_map.mp hi
  -- all releases from the greatest lower bound up to `v` are common
  have hbetween : ∀ n, c.interval.low ≤ n → n ≤ v.numbers → Common l r n :=
    fun n hn hle d hd => hcommons n hn hle _ (List.mem_map_of_mem hd)
  have hnumeric : c.Numeric := by
    rcases List.mem_append.mp hc with hc | hc
    · exact hl c hc
    · exact hr c hc
  have hmajor := hnumeric.major
  have hvmajor := hv.major
  have hvminor := hv.minor
  have hvpatch := hv.patch
  have hzero : c.interval.low = triple 0 0 0 → ∃ n,
      Candidate (l.comparators ++ r.comparators) n ∧ Common l r n := by
    intro heq
    exact ⟨_, .zero, hbetween _ heq.le (heq ▸ hlow)⟩
  have hspelled : c.interval.low = c.spelled → ∃ n,
      Candidate (l.comparators ++ r.comparators) n ∧ Common l r n := by
    intro heq
    exact ⟨_, .spelled hc, hbetween _ heq.le (heq ▸ hlow)⟩
  have hnextMajor : c.interval.low ≤ triple (c.major + 1) 0 0 →
      triple (c.major + 1) 0 0 ≤ v.numbers → ∃ n,
      Candidate (l.comparators ++ r.comparators) n ∧ Common l r n := by
    intro hfrom hto
    have hle := hto
    unfold Version.numbers at hle
    rw [triple_le] at hle
    have hmin : min (c.major + 1) (2 ^ 64 - 1) = c.major + 1 := by omega
    exact ⟨_, .nextMajor hc, by rw [hmin]; exact hbetween _ hfrom hto⟩
  cases hop : c.op with
  | exact => exact hspelled (by rw [Comparator.interval, hop])
  | greaterEq => exact hspelled (by rw [Comparator.interval, hop])
  | less => exact hzero (by rw [Comparator.interval, hop])
  | lessEq => exact hzero (by rw [Comparator.interval, hop])
  | tilde => exact hspelled (by rw [Comparator.interval, hop])
  | caret => exact hspelled (by rw [Comparator.interval, hop])
  | wildcard => exact hspelled (by rw [Comparator.interval, hop])
  | greater =>
      have hpast : c.interval.low = c.past := by rw [Comparator.interval, hop]
      cases hminor : c.minor with
      | none =>
          have hnext : c.past = triple (c.major + 1) 0 0 := by rw [Comparator.past, hminor]
          exact hnextMajor (hpast.trans hnext).le (hnext ▸ hpast ▸ hlow)
      | some m =>
          by_cases hpatch : ∀ p ∈ c.patch, p + 1 = 2 ^ 64
          · -- the lowest release is the next minor version, if there is one
            have hfirst : triple c.major (m + 1) 0 ≤ v.numbers :=
              (past_le_iff hminor hpatch hvpatch).mp (hpast ▸ hlow)
            have hfrom : c.interval.low ≤ triple c.major (m + 1) 0 := by
              rw [hpast]
              exact (past_le_iff hminor hpatch (Nat.two_pow_pos 64)).mpr le_rfl
            by_cases hm : m + 1 < 2 ^ 64
            · rcases h c hc m hop hminor hpatch hm (hbetween _ hfrom hfirst) with
                ⟨hsmall, hnext⟩ | ⟨d, hd, hnext⟩
              · have hmin : min (c.major + 1) (2 ^ 64 - 1) = c.major + 1 := by omega
                exact ⟨_, .nextMajor hc, by rw [hmin]; exact hnext⟩
              · exact ⟨_, .spelled hd, hnext⟩
            · refine hnextMajor (hfrom.trans ?_) ?_
              · rw [triple_le]
                omega
              · unfold Version.numbers at hfirst ⊢
                rw [triple_le] at hfirst ⊢
                omega
          · push Not at hpatch
            obtain ⟨p, hp, hlast⟩ := hpatch
            have hsmall := hnumeric.patch p hp
            have hp' : c.patch = some p := hp
            have hnext : c.past = triple c.major (c.minor.getD 0)
                (min (c.patch.getD 0 + 1) (2 ^ 64 - 1)) := by
              have hmin : min (p + 1) (2 ^ 64 - 1) = p + 1 := by omega
              rw [Comparator.past, hminor, hp', Option.getD_some, Option.getD_some, hmin]
            exact ⟨_, .nextPatch hc, hbetween _ (hpast.trans hnext).le (hnext ▸ hpast ▸ hlow)⟩

end Intersection

open Intersection in
/-- The conflict check agrees with the existence of a common release exactly when no such
release is hidden behind a strict bound on a minor version. -/
theorem rangesIntersect_exact_iff {crates : Crates} (hcrates : crates.MatchesReleases)
    {l r : VersionReq} (hl : l.Numeric) (hr : r.Numeric) :
    (rangesIntersect crates l r = true ↔
      ∃ v : Version, v.IsRelease ∧ crates.reqMatches l v = true ∧ crates.reqMatches r v = true) ↔
    Probed l r := by
  have hexists : (∃ v : Version, v.IsRelease ∧ crates.reqMatches l v = true ∧
      crates.reqMatches r v = true) ↔ ∃ v : Version, v.IsRelease ∧ Common l r v.numbers := by
    refine exists_congr fun v => and_congr_right fun hv => ?_
    rw [← common_iff hcrates hl hr hv, Bool.and_eq_true]
  rw [hexists, rangesIntersect_iff hcrates hl hr]
  constructor
  · intro h
    exact probed_of_found hl hr h.mpr
  · intro h
    constructor
    · intro hfound
      have hmatch := (rangesIntersect_iff hcrates hl hr).mpr hfound
      obtain ⟨v, hv, hboth⟩ := List.any_eq_true.mp hmatch
      have hrelease := (mem_boundaryCandidates (fun c hc =>
        (List.mem_append.mp hc).elim (hl c) (hr c)) hv).1
      exact ⟨v, hrelease, (common_iff hcrates hl hr hrelease).mp hboth⟩
    · intro ⟨v, hv, hcommon⟩
      exact found_of_probed hl hr h hv hcommon

namespace Intersection.Example

/-- Releases are matched as documented; pre-releases are not needed here. -/
def crates : Crates :=
  { Release.crates with
    reqMatches := fun r v =>
      v.pre.isEmpty && r.comparators.all fun c => decide (c.interval.Contains v.numbers) }

theorem crates_matches : crates.MatchesReleases := by
  intro r v _ hv
  simp [crates, hv.pre]

/-- `>1.2` -/
def aboveMinor : VersionReq := ⟨[⟨.greater, 1, some 2, none, []⟩]⟩

/-- `<1.4` -/
def belowMinor : VersionReq := ⟨[⟨.less, 1, some 4, none, []⟩]⟩

theorem aboveMinor_numeric : aboveMinor.Numeric := by
  intro c hc
  obtain rfl := List.mem_singleton.mp hc
  exact ⟨rfl, by decide, by simp, by simp, by simp⟩

theorem belowMinor_numeric : belowMinor.Numeric := by
  intro c hc
  obtain rfl := List.mem_singleton.mp hc
  exact ⟨rfl, by decide, by simp, by simp, by simp⟩

theorem rangesIntersect_exact_minor :
    (rangesIntersect crates aboveMinor belowMinor = true ↔
      ∃ v : Version, v.IsRelease ∧ crates.reqMatches aboveMinor v = true ∧
        crates.reqMatches belowMinor v = true) ↔
    Probed aboveMinor belowMinor :=
  rangesIntersect_exact_iff crates_matches aboveMinor_numeric belowMinor_numeric

/-- The releases of `1.3` satisfy both `>1.2` and `<1.4`. -/
theorem rangesIntersect_incomplete : ¬∀ crates : Crates, crates.MatchesReleases →
    ∀ l r : VersionReq, l.Numeric → r.Numeric →
      (rangesIntersect crates l r = true ↔ ∃ v : Version, v.IsRelease ∧
        crates.reqMatches l v = true ∧ crates.reqMatches r v = true) := by
  intro h
  have hcommon : rangesIntersect crates aboveMinor belowMinor = true :=
    (h crates crates_matches aboveMinor belowMinor aboveMinor_numeric belowMinor_numeric).mpr
      ⟨⟨1, 3, 0, [], []⟩, ⟨rfl, by decide, by decide, by decide⟩, by decide,
        by decide⟩
  have hmissed : rangesIntersect crates aboveMinor belowMinor = false := by decide
  rw [hmissed] at hcommon
  cases hcommon

end Intersection.Example

end Bpm
