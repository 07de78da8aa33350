import Bpm.Http.Config

/-!
# Redacted URLs

The text of a URL is cut by hand before it is displayed, while a URL parser decides where
requests go.  The parser skips blanks around the text and tabs and line breaks anywhere,
takes any slashes and backslashes before the authority, ends the authority at the next of
them, and takes what comes before the last `@` in it for user information.
-/

namespace Bpm

open Text

namespace Redaction

/-- What a URL parser removes wherever it stands. -/
def ignorable (c : Char) : Bool := c == '\t' || c == '\n' || c == '\r'

/-- A control character or a space, which a URL parser skips at both ends. -/
def blank (c : Char) : Bool := c.toNat ≤ 32

def slashLike (c : Char) : Bool := c == '/' || c == '\\' || ignorable c

/-- What does not end an authority. -/
def inAuthority (c : Char) : Bool := !(lit "/\\?#").contains c

/-- A web URL without user information, query and fragment, as it is written. -/
structure Spelling where
  lead : Str
  scheme : Str
  slashes : Str
  /-- The host with its port. -/
  host : Str
  path : Str
  trail : Str
  lead_blank : ∀ c ∈ lead, blank c = true
  scheme_web : asciiLower (scheme.filter fun c => !ignorable c) ∈ [lit "http", lit "https"]
  slashes_only : ∀ c ∈ slashes, c = '/' ∨ c = '\\' ∨ ignorable c = true
  host_ne : host ≠ []
  host_chars : ∀ c ∈ host, c ∉ lit "/\\?#@" ∧ (blank c = true → ignorable c = true)
  path_head : ∀ c ∈ path.head?, c = '/' ∨ c = '\\'
  path_chars : ∀ c ∈ path, c ≠ '?' ∧ c ≠ '#'
  trail_blank : ∀ c ∈ trail, blank c = true

/-- The parts that are not to be shown. -/
structure Hidden where
  userInfo : Option Str
  query : Option Str
  fragment : Option Str
  userInfo_chars : ∀ info ∈ userInfo, ∀ c ∈ info, c ∉ lit "/\\?#"
  query_chars : ∀ text ∈ query, '#' ∉ text

namespace Hidden

/-- User information with its `@`. -/
def credentials (hidden : Hidden) : Str := hidden.userInfo.elim [] (· ++ ['@'])

/-- Query and fragment. -/
def suffix (hidden : Hidden) : Str :=
  hidden.query.elim [] ('?' :: ·) ++ hidden.fragment.elim [] ('#' :: ·)

def nothing : Hidden := ⟨none, none, none, nofun, nofun⟩

def userQuery : Hidden := ⟨some ['u'], some [], none, by simp [lit], by simp⟩

def emptyQuery : Hidden := ⟨none, some [], none, nofun, by simp⟩

end Hidden

namespace Spelling

/-- The text up to the authority. -/
def start (k : Spelling) : Str := k.lead ++ k.scheme ++ ':' :: k.slashes

def spell (k : Spelling) (hidden : Hidden) : Str :=
  k.start ++ hidden.credentials ++ k.host ++ k.path ++ hidden.suffix ++ k.trail

/-- The path ends in a blank, which is a part of it before a query or a fragment only. -/
def Open (k : Spelling) : Prop :=
  ∃ c ∈ (k.path.filter fun c => !ignorable c).getLast?, blank c = true

/-- What is hidden leaves the path as it is. -/
def Admits (k : Spelling) (hidden : Hidden) : Prop := k.Open → hidden.suffix ≠ []

/-- Exactly two slashes come before the authority, or others behind them while an `@` in the
path ends before its first slash what is cut off, and no blanks come last; or no `://` is
found at all. -/
def Concealing (k : Spelling) : Prop :=
  (∃ more, k.slashes = '/' :: '/' :: more ∧ '/' ∉ more ∧
    (more = [] ∨ '@' ∈ k.path.takeWhile (· != '/')) ∧ (k.trail = [] ∨ k.Open)) ∨
  (¬['/', '/'] <+: k.slashes ∧ contains (lit "://") (k.host ++ k.path) = false)

/-- All that the redactor looks at. -/
def shown (k : Spelling) (hidden : Hidden) : Str :=
  hidden.credentials ++ k.host ++ k.path ++ if hidden.suffix = [] then k.trail else []

end Spelling

/-! ## Reading the parts -/

/-- What comes after the last `@`, or else everything. -/
def afterAt (authority : Str) : Str := ((rsplitOnce ['@'] authority).map (·.2)).getD authority

theorem rsplitOnce_at_none {s : Str} (h : '@' ∉ s) : rsplitOnce ['@'] s = none := by
  rcases hs : rsplitOnce ['@'] s with _ | ⟨a, b⟩
  · rfl
  · rw [rsplitOnce_eq_append hs] at h
    simp at h

theorem afterAt_of_notMem {s : Str} (h : '@' ∉ s) : afterAt s = s := by
  rw [afterAt, rsplitOnce_at_none h]
  rfl

theorem afterAt_append (x y : Str) : afterAt (x ++ '@' :: y) = afterAt y := by
  rcases hy : rsplitOnce ['@'] y with _ | ⟨a, b⟩
  · have hsplit : rsplitOnce ['@'] ('@' :: y) = some ([], y) := by simp [rsplitOnce, hy]
    rw [afterAt, afterAt, rsplitOnce_append_left x hsplit, hy]
    rfl
  · have hsplit := rsplitOnce_append_left (x ++ ['@']) hy
    rw [List.append_assoc] at hsplit
    rw [afterAt, afterAt, hy]
    show ((rsplitOnce ['@'] (x ++ (['@'] ++ y))).map (·.2)).getD _ = _
    rw [hsplit]
    rfl

theorem afterAt_append_of_mem (x : Str) {y : Str} (h : '@' ∈ y) : afterAt (x ++ y) = afterAt y := by
  obtain ⟨a, b, rfl⟩ := List.append_of_mem h
  rw [← List.append_assoc, afterAt_append, afterAt_append]

theorem afterAt_append_right (s : Str) {t : Str} (h : '@' ∉ t) :
    afterAt (s ++ t) = afterAt s ++ t := by
  by_cases hs : '@' ∈ s
  · obtain ⟨y, x, hsplit, hy⟩ := List.eq_append_cons_of_mem (List.mem_reverse.mpr hs)
    have hlast : s = x.reverse ++ '@' :: y.reverse := by
      rw [← List.reverse_reverse s, hsplit]
      simp
    have hy : '@' ∉ y.reverse := by simpa using hy
    have hboth : '@' ∉ y.reverse ++ t := by simp [hy, h]
    rw [hlast, List.append_assoc, List.cons_append, afterAt_append, afterAt_append,
      afterAt_of_notMem hy, afterAt_of_notMem hboth]
  · have hboth : '@' ∉ s ++ t := by simp [hs, h]
    rw [afterAt_of_notMem hs, afterAt_of_notMem hboth]

/-! ## The parts of a spelling -/

namespace Spelling

variable (k : Spelling)

theorem mem_scheme {c : Char} (h : c ∈ k.scheme) :
    ignorable c = true ∨ c.toLower ∈ lit "https" := by
  by_cases hc : ignorable c = true
  · exact .inl hc
  · right
    have hmem : c.toLower ∈ asciiLower (k.scheme.filter fun c => !ignorable c) := by
      apply List.mem_map_of_mem
      simp [h, hc]
    have hweb := k.scheme_web
    rw [List.mem_cons, List.mem_singleton] at hweb
    rcases hweb with heq | heq
    · rw [heq] at hmem
      exact List.mem_of_mem_dropLast (l := lit "https") hmem
    · rwa [heq] at hmem

/-- Signs do not occur before the colon. -/
theorem sign_notMem {c : Char} (hblank : blank c = false) (hignorable : ignorable c = false)
    (hlower : c.toLower ∉ lit "https") : c ∉ k.lead ++ k.scheme := by
  rw [List.mem_append]
  rintro (hlead | hscheme)
  · rw [k.lead_blank c hlead] at hblank
    cases hblank
  · rcases k.mem_scheme hscheme with h | h
    · rw [h] at hignorable
      cases hignorable
    · exact hlower h

theorem slashes_notMem {c : Char} (hslash : c ≠ '/') (hback : c ≠ '\\')
    (hignorable : ignorable c = false) : c ∉ k.slashes := by
  intro hc
  rcases k.slashes_only c hc with h | h | h
  · exact hslash h
  · exact hback h
  · rw [h] at hignorable
    cases hignorable

theorem host_notMem {c : Char} (h : c ∈ lit "/\\?#@") : c ∉ k.host :=
  fun hc => (k.host_chars c hc).1 h

theorem trail_notMem {c : Char} (hblank : blank c = false) : c ∉ k.trail := by
  intro hc
  rw [k.trail_blank c hc] at hblank
  cases hblank

theorem credentials_notMem (hidden : Hidden) {c : Char} (h : c ∈ lit "/\\?#") :
    c ∉ hidden.credentials := by
  unfold Hidden.credentials
  rcases hinfo : hidden.userInfo with _ | info
  · exact List.not_mem_nil
  · show c ∉ info ++ ['@']
    rw [List.mem_append, List.mem_singleton]
    rintro (hmem | rfl)
    · exact hidden.userInfo_chars info hinfo c hmem h
    · exact absurd h (by decide)

/-- The authority does not begin with a slash. -/
theorem authority_head (hidden : Hidden) (rest : Str) :
    ∃ c more, hidden.credentials ++ k.host ++ rest = c :: more ∧ c ≠ '/' := by
  have hall : ∀ c ∈ hidden.credentials ++ k.host, c ≠ '/' := by
    intro c hc heq
    rw [heq, List.mem_append] at hc
    rcases hc with h | h
    · exact credentials_notMem hidden (by decide) h
    · exact k.host_notMem (by decide) h
  rcases hauthority : hidden.credentials ++ k.host with _ | ⟨c, more⟩
  · exact absurd (List.append_eq_nil_iff.mp hauthority).2 k.host_ne
  · exact ⟨c, more ++ rest, rfl, hall c (by rw [hauthority]; exact List.mem_cons_self)⟩

/-- Before query and fragment there is no mark that begins one. -/
theorem mark_notMem (hidden : Hidden) {c : Char} (hc : c = '?' ∨ c = '#') :
    c ∉ k.start ++ hidden.credentials ++ k.host ++ k.path ∧ c ∉ k.trail := by
  have hpath : c ∉ k.path := by
    intro h
    rcases hc with rfl | rfl
    · exact (k.path_chars _ h).1 rfl
    · exact (k.path_chars _ h).2 rfl
  have hstart : c ∉ k.lead ++ k.scheme ∧ c ≠ ':' ∧ c ∉ k.slashes ∧ c ∉ k.trail := by
    rcases hc with rfl | rfl
    · exact ⟨k.sign_notMem rfl rfl (by decide), by decide,
        k.slashes_notMem (by decide) (by decide) rfl, k.trail_notMem rfl⟩
    · exact ⟨k.sign_notMem rfl rfl (by decide), by decide,
        k.slashes_notMem (by decide) (by decide) rfl, k.trail_notMem rfl⟩
  have hmark : c ∈ lit "/\\?#" ∧ c ∈ lit "/\\?#@" := by
    rcases hc with rfl | rfl <;> decide
  obtain ⟨hbefore, hcolon, hslashes, htrail⟩ := hstart
  refine ⟨?_, htrail⟩
  unfold start
  rw [List.mem_append, List.mem_append, List.mem_append, List.mem_append, List.mem_cons]
  rintro ((((h | h | h) | h) | h) | h)
  · exact hbefore h
  · exact hcolon h
  · exact hslashes h
  · exact credentials_notMem hidden hmark.1 h
  · exact k.host_notMem hmark.2 h
  · exact hpath h

/-- Query and fragment are cut off, with the blanks behind them. -/
theorem takeWhile_spell (hidden : Hidden) :
    (k.spell hidden).takeWhile (fun c => c != '?' && c != '#') = k.start ++ k.shown hidden := by
  have hpass : ∀ text : Str, '?' ∉ text → '#' ∉ text →
      ∀ c ∈ text, (c != '?' && c != '#') = true := by
    intro text hquery hfragment c hc
    rw [Bool.and_eq_true, bne_iff_ne, bne_iff_ne]
    constructor
    · rintro rfl
      exact hquery hc
    · rintro rfl
      exact hfragment hc
  obtain ⟨hquery, hqueryTrail⟩ := k.mark_notMem hidden (.inl rfl)
  obtain ⟨hfragment, hfragmentTrail⟩ := k.mark_notMem hidden (.inr rfl)
  have hrest : (hidden.suffix ++ k.trail).takeWhile (fun c => c != '?' && c != '#') =
      if hidden.suffix = [] then k.trail else [] := by
    unfold Hidden.suffix
    rcases hidden.query with _ | query
    · rcases hidden.fragment with _ | fragment
      · exact List.takeWhile_eq_self_iff.mpr (hpass _ hqueryTrail hfragmentTrail)
      · rfl
    · rfl
  rw [spell, List.append_assoc _ hidden.suffix,
    List.takeWhile_append_of_pos (hpass _ hquery hfragment), hrest, shown]
  simp only [List.append_assoc]

theorem not_slashes_authority (hslashes : ¬['/', '/'] <+: k.slashes) (hidden : Hidden)
    (rest : Str) : ¬['/', '/'] <+: k.slashes ++ (hidden.credentials ++ k.host ++ rest) := by
  obtain ⟨c, more, hauthority, hc⟩ := k.authority_head hidden rest
  rw [hauthority]
  rcases hk : k.slashes with _ | ⟨x, _ | ⟨y, slashes⟩⟩
  · simp [Ne.symm hc]
  · simp [Ne.symm hc]
  · rw [hk] at hslashes
    simpa using hslashes

theorem splitOnce_credentials (hidden : Hidden) (rest : Str) :
    splitOnce (lit "://") (hidden.credentials ++ (k.host ++ rest)) =
      (splitOnce (lit "://") (k.host ++ rest)).map fun parts =>
        (hidden.credentials ++ parts.1, parts.2) := by
  apply splitOnce_skip
  rintro (_ | ⟨c, t⟩) ht hne hprefix
  · exact hne rfl
  · have hslash : ['/'] <+: t ++ (k.host ++ rest) := by
      rw [List.cons_append] at hprefix
      have htail := (List.cons_prefix_cons.mp hprefix).2
      exact (List.prefix_append ['/'] ['/']).trans htail
    rcases t with _ | ⟨x, t⟩
    · obtain ⟨y, more, hhost, hy⟩ := k.authority_head .nothing rest
      rw [List.nil_append, show k.host ++ rest = y :: more from hhost] at hslash
      exact hy (List.cons_prefix_cons.mp hslash).1.symm
    · have hx : '/' = x := (List.cons_prefix_cons.mp hslash).1
      exact credentials_notMem hidden (c := '/') (by decide) (ht.subset (by simp [← hx]))

/-- No `://` begins before the host, unless two slashes follow the scheme. -/
theorem splitOnce_start (hslashes : ¬['/', '/'] <+: k.slashes) (hidden : Hidden) (rest : Str) :
    splitOnce (lit "://") (k.start ++ (hidden.credentials ++ (k.host ++ rest))) =
      (splitOnce (lit "://") (k.host ++ rest)).map fun parts =>
        (k.start ++ hidden.credentials ++ parts.1, parts.2) := by
  have hbefore : ':' ∉ k.lead ++ k.scheme := k.sign_notMem rfl rfl (by decide)
  have hcolon : ':' ∉ k.slashes := k.slashes_notMem (by decide) (by decide) rfl
  have hnot := k.not_slashes_authority hslashes hidden rest
  have hhead :
      splitOnce (lit "://") (':' :: (k.slashes ++ (hidden.credentials ++ (k.host ++ rest)))) =
      (splitOnce (lit "://") (k.slashes ++ (hidden.credentials ++ (k.host ++ rest)))).map
        fun parts => (':' :: parts.1, parts.2) := by
    rw [splitOnce, if_neg]
    rw [List.isPrefixOf_iff_prefix]
    intro hprefix
    rw [List.append_assoc] at hnot
    exact hnot (List.cons_prefix_cons.mp hprefix).2
  rw [start, List.append_assoc, List.cons_append]
  rw [show lit "://" = ':' :: ['/', '/'] from rfl] at hhead ⊢
  rw [splitOnce_skip_of_notMem hbefore, hhead, splitOnce_skip_of_notMem hcolon]
  rw [show ':' :: ['/', '/'] = lit "://" from rfl, splitOnce_credentials]
  simp only [Option.map_map]
  congr 1
  funext parts
  simp [Function.comp]

/-- Behind two slashes the text is split at the colon of the scheme. -/
theorem splitOnce_slashes {more : Str} (hslashes : k.slashes = '/' :: '/' :: more) (rest : Str) :
    splitOnce (lit "://") (k.start ++ rest) = some (k.lead ++ k.scheme, more ++ rest) := by
  have hbefore : ':' ∉ k.lead ++ k.scheme := k.sign_notMem rfl rfl (by decide)
  have hsplit : splitOnce (lit "://") (lit "://" ++ (more ++ rest)) = some ([], more ++ rest) :=
    splitOnce_of_prefix (by decide)
  rw [start, hslashes, List.append_assoc]
  rw [show lit "://" = ':' :: ['/', '/'] from rfl] at hsplit ⊢
  rw [splitOnce_skip_of_notMem hbefore]
  rw [show ':' :: '/' :: '/' :: more ++ rest = ':' :: ['/', '/'] ++ (more ++ rest) from rfl, hsplit]
  simp

/-! ## What is displayed -/

/-- Host and path of what comes behind `://`. -/
def display (remainder : Str) : Str :=
  afterAt (remainder.takeWhile (· != '/')) ++ remainder.dropWhile (· != '/')

theorem redactUrl_spell (hidden : Hidden) : redactUrl (k.spell hidden) =
    match splitOnce (lit "://") (k.start ++ k.shown hidden) with
    | none => lit "<invalid-url>"
    | some (scheme, remainder) => asciiLower scheme ++ lit "://" ++ display remainder := by
  unfold redactUrl
  rw [takeWhile_spell]
  dsimp only
  generalize splitOnce (lit "://") (k.start ++ k.shown hidden) = parts
  rcases parts with _ | ⟨scheme, remainder⟩
  · rfl
  · simp only [display, afterAt, List.append_assoc]

theorem redactUrl_slashes {more : Str} (hslashes : k.slashes = '/' :: '/' :: more)
    (hidden : Hidden) : redactUrl (k.spell hidden) =
      asciiLower (k.lead ++ k.scheme) ++ lit "://" ++ display (more ++ k.shown hidden) := by
  rw [redactUrl_spell, k.splitOnce_slashes hslashes]

/-- The part before the next slash. -/
theorem display_append {a : Str} (h : '/' ∉ a) (b : Str) :
    display (a ++ b) = afterAt (a ++ b.takeWhile (· != '/')) ++ b.dropWhile (· != '/') := by
  have hall : ∀ c ∈ a, (c != '/') = true := by
    intro c hc
    rw [bne_iff_ne]
    rintro rfl
    exact h hc
  rw [display, List.takeWhile_append_of_pos hall, List.dropWhile_append_of_pos hall]

/-- A slash ends the authority, so nothing behind it is cut. -/
theorem display_append_of_mem {a : Str} (h : '/' ∈ a) (b : Str) :
    display (a ++ b) = display a ++ b := by
  obtain ⟨x, y, rfl, hx⟩ := List.eq_append_cons_of_mem h
  rw [List.append_assoc, List.cons_append, display_append hx, display_append hx]
  simp

/-- Blanks at the end stay there. -/
theorem display_append_right (a : Str) {b : Str} (hslash : '/' ∉ b) (hat : '@' ∉ b) :
    display (a ++ b) = display a ++ b := by
  by_cases h : '/' ∈ a
  · exact display_append_of_mem h b
  · have hall : ∀ c ∈ b, (c != '/') = true := by
      intro c hc
      rw [bne_iff_ne]
      rintro rfl
      exact hslash hc
    have hself := display_append h []
    rw [List.append_nil] at hself
    rw [display_append h, hself, List.takeWhile_eq_self_iff.mpr hall,
      List.dropWhile_eq_nil_iff.mpr hall]
    simp [afterAt_append_right a hat]

theorem not_ends_of_notMem {more : Str} (h : k.slashes = '/' :: '/' :: more) : '@' ∉ more := by
  intro hat
  exact k.slashes_notMem (c := '@') (by decide) (by decide) rfl (by simp [h, hat])

/-- Blanks at the end are shown with the path, unless it is not the end. -/
theorem Admits.trail {k : Spelling} {hidden : Hidden} (hadmits : k.Admits hidden)
    (htrail : k.trail = [] ∨ k.Open) : (if hidden.suffix = [] then k.trail else []) = [] := by
  by_cases hsuffix : hidden.suffix = []
  · rw [if_pos hsuffix]
    rcases htrail with hnil | hopen
    · exact hnil
    · exact absurd hsuffix (hadmits hopen)
  · rw [if_neg hsuffix]

/-- Behind two slashes alone, or before an `@` of the path, nothing hidden is left. -/
theorem display_shown {more : Str} (hfree : '/' ∉ more)
    (hmore : more = [] ∨ '@' ∈ k.path.takeWhile (· != '/')) (htrail : k.trail = [] ∨ k.Open)
    {hidden : Hidden} (hadmits : k.Admits hidden) :
    display (more ++ k.shown hidden) = display (k.host ++ k.path) := by
  have hhost : '/' ∉ k.host := k.host_notMem (by decide)
  have hcredentials : '/' ∉ hidden.credentials := credentials_notMem hidden (by decide)
  have hbefore : '/' ∉ more ++ (hidden.credentials ++ k.host) := by
    simp [hfree, hcredentials, hhost]
  have hshown : more ++ k.shown hidden = more ++ (hidden.credentials ++ k.host) ++ k.path := by
    simp [shown, hadmits.trail htrail]
  rw [hshown, display_append hbefore, display_append hhost]
  congr 1
  rcases hmore with rfl | hat
  · unfold Hidden.credentials
    rcases hidden.userInfo with _ | info
    · rfl
    · show afterAt ([] ++ (info ++ ['@'] ++ k.host) ++ _) = _
      rw [List.nil_append, List.append_assoc, List.append_assoc, List.singleton_append,
        afterAt_append]
  · rw [afterAt_append_of_mem _ hat, afterAt_append_of_mem _ hat]

theorem shown_emptyQuery : k.shown .emptyQuery = k.host ++ k.path := by
  simp [shown, Hidden.credentials, Hidden.suffix, Hidden.emptyQuery]

theorem shown_userQuery : k.shown .userQuery = ['u', '@'] ++ (k.host ++ k.path) := by
  simp [shown, Hidden.credentials, Hidden.suffix, Hidden.userQuery]

theorem admits_query {hidden : Hidden} (h : hidden.suffix ≠ []) : k.Admits hidden := fun _ => h

/-- Otherwise some hidden part changes the length of what is displayed. -/
theorem display_differs {more : Str} (hslashes : k.slashes = '/' :: '/' :: more)
    (h : ¬('/' ∉ more ∧ (more = [] ∨ '@' ∈ k.path.takeWhile (· != '/')) ∧
      (k.trail = [] ∨ k.Open))) :
    ∃ hidden, k.Admits hidden ∧
      display (more ++ k.shown hidden) ≠ display (more ++ k.shown .emptyQuery) := by
  by_cases hfree : '/' ∈ more
  · refine ⟨.userQuery, k.admits_query nofun, ?_⟩
    intro heq
    have hlength := congrArg List.length heq
    rw [display_append_of_mem hfree, display_append_of_mem hfree, shown_userQuery,
      shown_emptyQuery] at hlength
    simp at hlength
    omega
  by_cases hmore : more = [] ∨ '@' ∈ k.path.takeWhile (· != '/')
  · have htrail : k.trail ≠ [] ∧ ¬k.Open := by
      rw [ne_eq, ← not_or]
      intro htrail
      exact h ⟨hfree, hmore, htrail⟩
    refine ⟨.nothing, fun hopen => absurd hopen htrail.2, ?_⟩
    have hnothing : k.shown .nothing = k.host ++ k.path ++ k.trail := by
      simp [shown, Hidden.credentials, Hidden.suffix, Hidden.nothing]
    intro heq
    have hlength := congrArg List.length heq
    rw [hnothing, shown_emptyQuery, ← List.append_assoc more (k.host ++ k.path),
      display_append_right _ (k.trail_notMem rfl) (k.trail_notMem rfl),
      List.length_append] at hlength
    have hpos := List.length_pos_iff.mpr htrail.1
    omega
  · rw [not_or] at hmore
    refine ⟨.userQuery, k.admits_query nofun, ?_⟩
    intro heq
    have hhost : '/' ∉ k.host ∧ '@' ∉ k.host :=
      ⟨k.host_notMem (by decide), k.host_notMem (by decide)⟩
    have hu : '/' ∉ more ++ ['u', '@'] ++ k.host := by simp [hfree, hhost.1]
    have hn : '/' ∉ more ++ k.host := by simp [hfree, hhost.1]
    have hplain : '@' ∉ k.host ++ k.path.takeWhile (· != '/') := by simp [hhost.2, hmore.2]
    have hall : '@' ∉ more ++ k.host ++ k.path.takeWhile (· != '/') := by
      simp [hhost.2, hmore.2, k.not_ends_of_notMem hslashes]
    rw [shown_userQuery, shown_emptyQuery, ← List.append_assoc, ← List.append_assoc,
      display_append hu, ← List.append_assoc, display_append hn, List.append_cancel_right_eq] at heq
    have hcut : more ++ ['u', '@'] ++ k.host ++ k.path.takeWhile (· != '/') =
        (more ++ ['u']) ++ '@' :: (k.host ++ k.path.takeWhile (· != '/')) := by simp
    rw [afterAt_of_notMem hall, hcut, afterAt_append, afterAt_of_notMem hplain,
      List.append_assoc] at heq
    exact hmore.1 (List.append_left_eq_self.mp heq.symm)

/-- Without two slashes behind the scheme, `://` is found in host and path or not at all. -/
theorem redactUrl_no_slashes (hslashes : ¬['/', '/'] <+: k.slashes) (hidden : Hidden) :
    redactUrl (k.spell hidden) =
      match splitOnce (lit "://")
        (k.host ++ (k.path ++ if hidden.suffix = [] then k.trail else [])) with
      | none => lit "<invalid-url>"
      | some (before, remainder) =>
          asciiLower (k.start ++ hidden.credentials ++ before) ++ lit "://" ++
            display remainder := by
  rw [redactUrl_spell, shown, List.append_assoc, List.append_assoc,
    k.splitOnce_start hslashes]
  generalize splitOnce (lit "://") _ = parts
  rcases parts with _ | parts
  · rfl
  · rfl

/-- Blanks do not complete a `://`. -/
theorem splitOnce_none (h : contains (lit "://") (k.host ++ k.path) = false) {t : Str}
    (ht : t ⊆ k.trail) : splitOnce (lit "://") (k.host ++ (k.path ++ t)) = none := by
  rw [splitOnce_none_iff (by decide), ← List.append_assoc, ← Bool.not_eq_true,
    contains_eq_true_iff]
  rintro ⟨a, b, hsplit⟩
  rw [← Bool.not_eq_true, contains_eq_true_iff] at h
  rcases List.append_eq_append_iff.mp hsplit with ⟨y, hy, hb⟩ | ⟨y, hy, hb⟩
  · rcases y.eq_nil_or_concat with rfl | ⟨y, c, rfl⟩
    · rw [List.append_nil] at hy
      exact h ⟨a, [], by rw [List.append_nil, hy]⟩
    · have hc : '/' = c := by
        have hlast := congrArg List.getLast? hy
        simpa [lit] using hlast
      have hmem : '/' ∈ k.trail := ht (by simp [hb, ← hc])
      exact k.trail_notMem rfl hmem
  · exact h ⟨a, y, hy⟩

theorem redactUrl_conceals : (∀ a b, k.Admits a → k.Admits b →
    redactUrl (k.spell a) = redactUrl (k.spell b)) ↔ k.Concealing := by
  by_cases hslashes : ['/', '/'] <+: k.slashes
  · obtain ⟨more, hmore⟩ := hslashes
    have hmore : k.slashes = '/' :: '/' :: more := hmore.symm
    have hsame : ∀ a b, redactUrl (k.spell a) = redactUrl (k.spell b) ↔
        display (more ++ k.shown a) = display (more ++ k.shown b) := by
      intro a b
      rw [k.redactUrl_slashes hmore, k.redactUrl_slashes hmore, List.append_cancel_left_eq]
    simp only [hsame]
    constructor
    · intro h
      by_contra hnot
      obtain ⟨hidden, hadmits, hdiffers⟩ := k.display_differs hmore
        fun hrest => hnot (.inl ⟨more, hmore, hrest⟩)
      exact hdiffers (h _ _ hadmits (k.admits_query nofun))
    · rintro (⟨more', hmore', hfree, hends, htrail⟩ | ⟨hno, _⟩)
      · have heq : more' = more := by
          rw [hmore] at hmore'
          simpa using hmore'.symm
        subst heq
        intro a b ha hb
        rw [k.display_shown hfree hends htrail ha, k.display_shown hfree hends htrail hb]
      · exact absurd ⟨more, hmore.symm⟩ hno
  · constructor
    · intro h
      refine .inr ⟨hslashes, ?_⟩
      by_contra hcontains
      have huser := h .userQuery .emptyQuery (k.admits_query nofun) (k.admits_query nofun)
      rw [k.redactUrl_no_slashes hslashes, k.redactUrl_no_slashes hslashes,
        if_neg nofun, if_neg nofun, List.append_nil] at huser
      rcases hsplit : splitOnce (lit "://") (k.host ++ k.path) with _ | parts
      · rw [splitOnce_none_iff (by decide)] at hsplit
        exact hcontains hsplit
      · rw [hsplit] at huser
        have hlength := congrArg List.length huser
        simp [asciiLower, Hidden.credentials, Hidden.userQuery, Hidden.emptyQuery] at hlength
        omega
    · rintro (⟨more, hmore, _⟩ | ⟨_, hcontains⟩)
      · exact absurd ⟨more, hmore.symm⟩ hslashes
      · have hinvalid : ∀ hidden, redactUrl (k.spell hidden) = lit "<invalid-url>" := by
          intro hidden
          rw [k.redactUrl_no_slashes hslashes, k.splitOnce_none hcontains]
          split
          · exact List.Subset.refl _
          · exact List.nil_subset _
        intro a b _ _
        rw [hinvalid, hinvalid]

theorem afterAt_split (authority : Str) : ∃ info : Option Str,
    info.elim [] (· ++ ['@']) ++ afterAt authority = authority ∧ '@' ∉ afterAt authority := by
  by_cases hat : '@' ∈ authority
  · obtain ⟨y, x, hsplit, hy⟩ := List.eq_append_cons_of_mem (List.mem_reverse.mpr hat)
    have hlast : authority = x.reverse ++ '@' :: y.reverse := by
      rw [← List.reverse_reverse authority, hsplit]
      simp
    have hy : '@' ∉ y.reverse := by simpa using hy
    refine ⟨some x.reverse, ?_⟩
    rw [hlast, afterAt_append, afterAt_of_notMem hy]
    exact ⟨by simp, hy⟩
  · rw [afterAt_of_notMem hat]
    exact ⟨none, rfl, hat⟩

theorem head?_dropWhile {p : Char → Bool} {text : Str} {c : Char}
    (h : c ∈ (text.dropWhile p).head?) : p c = false := by
  have hnot := List.head?_dropWhile_not p text
  rw [Option.mem_def] at h
  rw [h] at hnot
  simpa using hnot

/-- What comes behind a path is a query and a fragment. -/
theorem exists_suffix {text : Str} (h : ∀ c ∈ text.head?, c = '?' ∨ c = '#') :
    ∃ query fragment : Option Str, (∀ text ∈ query, '#' ∉ text) ∧
      query.elim [] ('?' :: ·) ++ fragment.elim [] ('#' :: ·) = text := by
  have hfragment : ∀ text : Str, (∀ c ∈ text.head?, c = '#') →
      ∃ fragment : Option Str, fragment.elim [] ('#' :: ·) = text := by
    rintro (_ | ⟨c, text⟩) hhead
    · exact ⟨none, rfl⟩
    · obtain rfl := hhead c rfl
      exact ⟨some text, rfl⟩
  rcases text with _ | ⟨c, text⟩
  · exact ⟨none, none, nofun, rfl⟩
  · rcases h c rfl with rfl | rfl
    · obtain ⟨fragment, hrest⟩ := hfragment (text.dropWhile (· != '#')) (by
        intro c hc
        simpa using head?_dropWhile hc)
      refine ⟨some (text.takeWhile (· != '#')), fragment, ?_, ?_⟩
      · rintro _ ⟨⟩ hmem
        simpa using List.mem_takeWhile_imp hmem
      · rw [hrest, Option.elim_some, List.cons_append, List.takeWhile_append_dropWhile]
    · exact ⟨none, some text, nofun, rfl⟩

theorem blank_of_ignorable {c : Char} (h : ignorable c = true) : blank c = true := by
  simp only [ignorable, Bool.or_eq_true, beq_iff_eq] at h
  rcases h with (rfl | rfl) | rfl <;> rfl

/-- A path at the end of a text that does not end in a blank. -/
theorem not_open_of_suffix {rest : Str} (hrest : ∀ c ∈ rest.getLast?, blank c = false)
    (hpath : k.path <:+ rest) : ¬k.Open := by
  rintro ⟨c, hc, hblank⟩
  obtain ⟨before, rfl⟩ := hpath
  rcases k.path.eq_nil_or_concat with hnil | ⟨path, d, hconcat⟩
  · simp [hnil] at hc
  · have hd : blank d = false := hrest d (by simp [hconcat])
    have hkept : ignorable d = false := by
      by_contra h
      rw [blank_of_ignorable (Bool.not_eq_false _ ▸ h)] at hd
      cases hd
    have hlast : d = c := by simpa [hconcat, hkept] using hc
    rw [hlast, hblank] at hd
    cases hd

/-- Every text behind a web scheme is spelled so, if its host is one. -/
theorem exists_spell {lead scheme rest trail : Str} (hlead : ∀ c ∈ lead, blank c = true)
    (hscheme : asciiLower (scheme.filter fun c => !ignorable c) ∈ [lit "http", lit "https"])
    (hne : afterAt ((rest.dropWhile slashLike).takeWhile inAuthority) ≠ [])
    (hhost : ∀ c ∈ afterAt ((rest.dropWhile slashLike).takeWhile inAuthority),
      blank c = true → ignorable c = true)
    (hrest : ∀ c ∈ rest.getLast?, blank c = false) (htrail : ∀ c ∈ trail, blank c = true) :
    ∃ k : Spelling, ∃ hidden, k.Admits hidden ∧
      k.spell hidden = lead ++ scheme ++ ':' :: rest ++ trail := by
  obtain ⟨info, hinfo, hat⟩ := afterAt_split ((rest.dropWhile slashLike).takeWhile inAuthority)
  have hauthority : ∀ c ∈ (rest.dropWhile slashLike).takeWhile inAuthority,
      c ∉ lit "/\\?#" := by
    intro c hc
    simpa [inAuthority] using List.mem_takeWhile_imp hc
  have hinfoChars : ∀ text ∈ info, ∀ c ∈ text, c ∉ lit "/\\?#" := by
    rintro text rfl c hc
    apply hauthority
    rw [← hinfo]
    simp [hc]
  have hhostChars : ∀ c ∈ afterAt ((rest.dropWhile slashLike).takeWhile inAuthority),
      c ∉ lit "/\\?#@" := by
    intro c hc hmem
    have hold := hauthority c (by rw [← hinfo]; exact List.mem_append_right _ hc)
    have hcases : c ∈ lit "/\\?#" ∨ c = '@' := by
      simpa [lit, or_assoc] using hmem
    rcases hcases with h | rfl
    · exact hold h
    · exact hat hc
  obtain ⟨query, fragment, hquery, hsuffix⟩ := @exists_suffix
    (((rest.dropWhile slashLike).dropWhile inAuthority).dropWhile
      fun c => c != '?' && c != '#') (by
    intro c hc
    have hmark := head?_dropWhile hc
    rwa [Bool.and_eq_false_iff, bne_eq_false_iff_eq, bne_eq_false_iff_eq] at hmark)
  refine ⟨{
    lead := lead
    scheme := scheme
    slashes := rest.takeWhile slashLike
    host := afterAt ((rest.dropWhile slashLike).takeWhile inAuthority)
    path := ((rest.dropWhile slashLike).dropWhile inAuthority).takeWhile
      fun c => c != '?' && c != '#'
    trail := trail
    lead_blank := hlead
    scheme_web := hscheme
    slashes_only := ?_
    host_ne := hne
    host_chars := fun c hc => ⟨hhostChars c hc, hhost c hc⟩
    path_head := ?_
    path_chars := ?_
    trail_blank := htrail }, ⟨info, query, fragment, hinfoChars, hquery⟩, ?_, ?_⟩
  · intro c hc
    simpa [slashLike, or_assoc] using List.mem_takeWhile_imp hc
  · intro c hc
    rw [List.head?_takeWhile, Option.mem_def, Option.filter_eq_some_iff] at hc
    obtain ⟨hhead, hpath⟩ := hc
    have hmark : c = '/' ∨ c = '\\' ∨ c = '?' ∨ c = '#' := by
      have hends := head?_dropWhile hhead
      simp only [inAuthority, Bool.not_eq_false', List.contains_iff_mem] at hends
      simpa [lit] using hends
    rcases hmark with rfl | rfl | rfl | rfl
    · exact .inl rfl
    · exact .inr rfl
    · cases hpath
    · cases hpath
  · intro c hc
    simpa using List.mem_takeWhile_imp hc
  · intro hopen hnil
    refine absurd hopen (not_open_of_suffix _ hrest ?_)
    have hwhole := List.takeWhile_append_dropWhile (p := fun c => c != '?' && c != '#')
      (l := (rest.dropWhile slashLike).dropWhile inAuthority)
    rw [← hsuffix, show _ ++ _ = [] from hnil, List.append_nil] at hwhole
    show List.takeWhile _ _ <:+ rest
    rw [hwhole]
    exact (List.dropWhile_suffix _).trans (List.dropWhile_suffix _)
  · have hparts : rest = rest.takeWhile slashLike ++ ((rest.dropWhile slashLike).takeWhile inAuthority ++
        (rest.dropWhile slashLike).dropWhile inAuthority) := by
      rw [List.takeWhile_append_dropWhile, List.takeWhile_append_dropWhile]
    show lead ++ scheme ++ ':' :: rest.takeWhile slashLike ++ info.elim [] (· ++ ['@']) ++ _ ++ _ ++
      (query.elim [] ('?' :: ·) ++ fragment.elim [] ('#' :: ·)) ++ trail = _
    rw [hsuffix, List.append_assoc _ (info.elim _ _), hinfo, List.append_assoc _ (List.takeWhile _ _),
      List.takeWhile_append_dropWhile]
    conv_rhs => rw [hparts]
    simp only [List.append_assoc, List.cons_append]

end Spelling

/-- User information, query and fragment make no difference to what is accepted. -/
def Tolerant (accepts : Str → Prop) : Prop :=
  ∀ (k : Spelling) (a b : Hidden), accepts (k.spell a) → accepts (k.spell b)

/-- Accepted URLs that differ in their hidden parts only are displayed alike exactly for these
spellings. -/
theorem redactUrl_conceals_iff (accepts : Str → Prop) (htolerant : Tolerant accepts)
    (k : Spelling) (haccepted : accepts (k.spell .nothing)) :
    (∀ a b, k.Admits a → k.Admits b → accepts (k.spell a) → accepts (k.spell b) →
      redactUrl (k.spell a) = redactUrl (k.spell b)) ↔ k.Concealing := by
  rw [← k.redactUrl_conceals]
  constructor
  · intro h a b ha hb
    exact h a b ha hb (htolerant k _ a haccepted) (htolerant k _ b haccepted)
  · intro h a b ha hb _ _
    exact h a b ha hb

/-- The URL of a package. -/
def packageSpelling : Spelling where
  lead := []
  scheme := lit "https"
  slashes := lit "//"
  host := lit "r.test:8443"
  path := lit "/lodash"
  trail := []
  lead_blank := nofun
  scheme_web := by decide
  slashes_only := by simp [lit]
  host_ne := by decide
  host_chars := by simp [lit, blank]
  path_head := by simp [lit]
  path_chars := by simp [lit]
  trail_blank := nofun

theorem redactUrl_conceals_iff_package :
    (∀ a b, packageSpelling.Admits a → packageSpelling.Admits b → True → True →
      redactUrl (packageSpelling.spell a) = redactUrl (packageSpelling.spell b)) ↔
        packageSpelling.Concealing :=
  redactUrl_conceals_iff (fun _ => True) (fun _ _ _ _ => trivial) packageSpelling trivial

/-- The same with a third slash, which a URL parser skips. -/
def thirdSlash : Spelling :=
  { packageSpelling with
    slashes := lit "///"
    slashes_only := by simp [lit] }

def password : Hidden := ⟨some (lit "user:secret"), none, none, by simp [lit], nofun⟩

theorem redactUrl_reveals :
    thirdSlash.spell password = lit "https:///user:secret@r.test:8443/lodash" ∧
      thirdSlash.spell .nothing = lit "https:///r.test:8443/lodash" ∧
      redactUrl (thirdSlash.spell password) = lit "https:///user:secret@r.test:8443/lodash" ∧
      redactUrl (thirdSlash.spell .nothing) ≠ redactUrl (thirdSlash.spell password) := by
  decide

end Redaction
end Bpm
