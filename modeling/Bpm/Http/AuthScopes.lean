import Bpm.Http.Npmrc
import Bpm.Lib.DebugText

/-!
# Which token a request gets

A scope is written without a scheme and is kept as an `https` URL has it, while a request
may go to an `http` URL.  A port that is the default of one of the schemes and is written
out is kept or dropped by the wrong one of them.
-/

namespace Bpm

open Text

/-! ## The last of the longest -/

section Longest

variable {α : Type} {key : α → Nat} {l : List α} {x : α}

theorem maxByKey_eq_none_iff : maxByKey key l = none ↔ l = [] := by
  cases l with
  | nil => exact iff_of_true rfl rfl
  | cons x l =>
      refine iff_of_false ?_ (List.cons_ne_nil x l)
      intro h
      rw [maxByKey] at h
      split at h
      · cases h
      · split at h <;> cases h

/-- Nothing before it is longer, and what comes after it is shorter. -/
theorem maxByKey_eq_some_iff : maxByKey key l = some x ↔
    ∃ before after, l = before ++ x :: after ∧ (∀ y ∈ before, key y ≤ key x) ∧
      ∀ y ∈ after, key y < key x := by
  induction l generalizing x with
  | nil => simp [maxByKey]
  | cons y l ih =>
      have hsplit : (∃ before after, y :: l = before ++ x :: after ∧
          (∀ z ∈ before, key z ≤ key x) ∧ ∀ z ∈ after, key z < key x) ↔
          (y = x ∧ ∀ z ∈ l, key z < key x) ∨ (key y ≤ key x ∧ maxByKey key l = some x) := by
        rw [ih]
        constructor
        · rintro ⟨_ | ⟨z, before⟩, after, heq, hbefore, hafter⟩
          · obtain ⟨rfl, rfl⟩ := List.cons_eq_cons.mp heq
            exact .inl ⟨rfl, hafter⟩
          · obtain ⟨rfl, rfl⟩ := List.cons_eq_cons.mp heq
            rw [List.forall_mem_cons] at hbefore
            exact .inr ⟨hbefore.1, before, after, rfl, hbefore.2, hafter⟩
        · rintro (⟨rfl, hall⟩ | ⟨hle, before, after, rfl, hbefore, hafter⟩)
          · exact ⟨[], l, rfl, nofun, hall⟩
          · exact ⟨y :: before, after, rfl, List.forall_mem_cons.mpr ⟨hle, hbefore⟩, hafter⟩
      rw [hsplit, maxByKey]
      rcases hmax : maxByKey key l with _ | z
      · rw [maxByKey_eq_none_iff.mp hmax]
        simp
      · obtain ⟨before, after, hl, hbefore, hafter⟩ := ih.mp hmax
        have hbound : ∀ w ∈ l, key w ≤ key z := by
          intro w hw
          rw [hl, List.mem_append, List.mem_cons] at hw
          rcases hw with h | rfl | h
          · exact hbefore w h
          · exact le_rfl
          · exact (hafter w h).le
        have hz : z ∈ l := by simp [hl]
        dsimp only
        split
        · rename_i hle
          constructor
          · intro h
            cases h
            exact .inr ⟨hle, rfl⟩
          · rintro (⟨rfl, hall⟩ | ⟨_, h⟩)
            · have := hall z hz
              omega
            · exact h
        · rename_i hlt
          constructor
          · intro h
            cases h
            refine .inl ⟨rfl, ?_⟩
            intro w hw
            have := hbound w hw
            omega
          · rintro (⟨rfl, _⟩ | ⟨hle, h⟩)
            · rfl
            · cases h
              exact absurd hle hlt

theorem maxByKey_map {β : Type} (f : β → α) (l : List β) :
    maxByKey key (l.map f) = (maxByKey (fun y => key (f y)) l).map f := by
  induction l with
  | nil => rfl
  | cons y l ih =>
      rw [List.map_cons, maxByKey, ih, maxByKey]
      rcases maxByKey (fun y => key (f y)) l with _ | z
      · rfl
      · dsimp only [Option.map_some]
        split <;> rfl

theorem maxByKey_mem (h : maxByKey key l = some x) : x ∈ l ∧ ∀ y ∈ l, key y ≤ key x := by
  obtain ⟨before, after, rfl, hbefore, hafter⟩ := maxByKey_eq_some_iff.mp h
  refine ⟨by simp, ?_⟩
  intro y hy
  rw [List.mem_append, List.mem_cons] at hy
  rcases hy with h | rfl | h
  · exact hbefore y h
  · exact le_rfl
  · exact (hafter y h).le

theorem maxByKey_filter_eq_some_iff {p : α → Bool} : maxByKey key (l.filter p) = some x ↔
    ∃ before after, l = before ++ x :: after ∧ p x = true ∧
      (∀ y ∈ before, p y = true → key y ≤ key x) ∧ ∀ y ∈ after, p y = true → key y < key x := by
  rw [maxByKey_eq_some_iff]
  constructor
  · rintro ⟨before, after, heq, hbefore, hafter⟩
    obtain ⟨a, rest, rfl, rfl, hrest⟩ := List.filter_eq_append_iff.mp heq
    obtain ⟨b, c, rfl, hb, hx, rfl⟩ := List.filter_eq_cons_iff.mp hrest
    refine ⟨a ++ b, c, by rw [List.append_assoc], hx, ?_, ?_⟩
    · intro y hy hpy
      rcases List.mem_append.mp hy with ha | hmem
      · exact hbefore y (List.mem_filter.mpr ⟨ha, hpy⟩)
      · exact absurd hpy (hb y hmem)
    · intro y hy hpy
      exact hafter y (List.mem_filter.mpr ⟨hy, hpy⟩)
  · rintro ⟨before, after, rfl, hx, hbefore, hafter⟩
    refine ⟨before.filter p, after.filter p, ?_, ?_, ?_⟩
    · rw [List.filter_append, List.filter_cons_of_pos hx]
    · intro y hy
      exact hbefore y (List.mem_filter.mp hy).1 (List.mem_filter.mp hy).2
    · intro y hy
      exact hafter y (List.mem_filter.mp hy).1 (List.mem_filter.mp hy).2

/-- The last of the longest is that of any part it is in. -/
theorem maxByKey_filter {p q : α → Bool} (hpq : ∀ y, q y = true → p y = true)
    (h : maxByKey key (l.filter p) = some x) (hx : q x = true) :
    maxByKey key (l.filter q) = some x := by
  obtain ⟨before, after, heq, _, hbefore, hafter⟩ := maxByKey_filter_eq_some_iff.mp h
  rw [maxByKey_filter_eq_some_iff]
  exact ⟨before, after, heq, hx, fun y hy hqy => hbefore y hy (hpq y hqy),
    fun y hy hqy => hafter y hy (hpq y hqy)⟩

end Longest

/-! ## Web URLs -/

def defaultPort (scheme : Str) : UInt16 := if scheme = lit "http" then 80 else 443

/-- A port as it is printed: not, if it is the default. -/
def portText (scheme : Str) (port : UInt16) : Str :=
  if port = defaultPort scheme then [] else ':' :: DebugText.nat port.toNat

/-- Two readings of one text, as `http` and as `https`: they differ in the port only, which
is the one that is written, or else the default. -/
def ReadAlike : Option Url → Option Url → Prop
  | none, none => True
  | some a, some b =>
      a.scheme = lit "http" ∧ b.scheme = lit "https" ∧
      a = { b with
        serialization := a.serialization, scheme := a.scheme, port := a.port,
        hostPort := a.hostPort } ∧
      ∃ written : Option UInt16,
        a.port = some (written.getD 80) ∧ b.port = some (written.getD 443)
  | _, _ => False

/-- What the URL library promises of web URLs: host and port make up the authority, without
capitals and without a default port, colons occur in a host between its brackets only, and
the path begins with a slash. -/
structure UrlCrate.Web (crate : UrlCrate) : Prop where
  alike : ∀ raw, ReadAlike (crate.parse (lit "http://" ++ raw)) (crate.parse (lit "https://" ++ raw))
  authority : ∀ text url, crate.parse text = some url → url.isHttp = true →
    ∃ host port, url.host = some host ∧ url.port = some port ∧
      url.hostPort = host ++ portText url.scheme port ∧
      (':' ∈ host → host.getLast? = some ']')
  lower : ∀ text url, crate.parse text = some url → url.isHttp = true →
    asciiLower url.hostPort = url.hostPort
  path_slash : ∀ text url, crate.parse text = some url → url.isHttp = true →
    url.path.head? = some '/'

theorem portText_eq_iff {scheme scheme' : Str} {port port' : UInt16} :
    portText scheme port = portText scheme' port' ↔
      (port = defaultPort scheme ∧ port' = defaultPort scheme') ∨
        (port ≠ defaultPort scheme ∧ port' ≠ defaultPort scheme' ∧ port = port') := by
  unfold portText
  split
  · split
    · simp_all
    · simp_all
  · split
    · simp_all
    · rename_i hne hne'
      have hdigits : DebugText.nat port.toNat = DebugText.nat port'.toNat ↔ port = port' := by
        constructor
        · intro h
          exact UInt16.toNat_inj.mp (DebugText.toDigits_inj (by decide) (by decide) h)
        · rintro rfl
          rfl
      simp [hne, hne', hdigits]

/-- A host does not end like a port. -/
theorem port_notMem_host {host t : Str} {scheme scheme' : Str} {port port' : UInt16}
    (hhost : ':' ∈ host ++ t → (host ++ t).getLast? = some ']')
    (h : portText scheme port = t ++ portText scheme' port') : t = [] := by
  rcases t with _ | ⟨c, t⟩
  · rfl
  · exfalso
    rw [portText] at h
    split at h
    · cases h
    · obtain ⟨rfl, hdigits⟩ := List.cons_eq_cons.mp h
      rw [List.append_eq] at hdigits
      have hall : ∀ c ∈ DebugText.nat port.toNat, c.isDigit = true := fun c hc =>
        Nat.isDigit_of_mem_toDigits (by decide) (by decide) hc
      have hnil : portText scheme' port' = [] := by
        unfold portText
        split
        · rfl
        · rename_i hne
          rw [portText, if_neg hne] at hdigits
          exact absurd (hall ':' (by simp [hdigits])) (by decide)
      rw [hnil, List.append_nil] at hdigits
      have hlast := hhost (by simp)
      have hpos := Nat.length_toDigits_pos (b := 10) (n := port.toNat)
      rcases t.eq_nil_or_concat with rfl | ⟨t, d, rfl⟩
      · rw [show Nat.toDigits 10 port.toNat = DebugText.nat port.toNat from rfl, hdigits] at hpos
        exact absurd hpos (by decide)
      · have hd : d = ']' := by
          rw [List.concat_eq_append, ← List.cons_append, ← List.append_assoc,
            List.getLast?_concat] at hlast
          exact Option.some.inj hlast
        exact absurd (hall d (by simp [hdigits])) (by rw [hd]; decide)

theorem host_port_inj {host host' : Str} {scheme scheme' : Str} {port port' : UInt16}
    (hhost : ':' ∈ host → host.getLast? = some ']')
    (hhost' : ':' ∈ host' → host'.getLast? = some ']') :
    host ++ portText scheme port = host' ++ portText scheme' port' ↔
      host = host' ∧ portText scheme port = portText scheme' port' := by
  constructor
  · intro h
    rcases List.append_eq_append_iff.mp h with ⟨t, rfl, hport⟩ | ⟨t, rfl, hport⟩
    · obtain rfl := port_notMem_host hhost' hport
      exact ⟨by simp, by simpa using hport⟩
    · obtain rfl := port_notMem_host hhost hport
      exact ⟨by simp, by simpa using hport.symm⟩
  · rintro ⟨rfl, h⟩
    rw [h]

/-! ## Directories -/

/-- The parts of a path between its slashes. -/
def segments (path : Str) : List Str := path.splitOn '/'

/-- A scope's path, its last slashes apart. -/
def directory (path : Str) : Str := path.rdropWhile (· == '/')

/-- Every part with a slash behind it. -/
theorem flatMap_segments (path : Str) : (segments path).flatMap (· ++ ['/']) = path ++ ['/'] := by
  have hjoin : ∀ parts : List Str, parts ≠ [] →
      parts.flatMap (· ++ ['/']) = ['/'].intercalate parts ++ ['/'] := by
    intro parts
    induction parts with
    | nil => exact fun h => absurd rfl h
    | cons part parts ih =>
        intro _
        rcases parts with _ | ⟨next, parts⟩
        · simp
        · rw [List.flatMap_cons, ih (List.cons_ne_nil _ _)]
          simp [List.intercalate]
  rw [segments, hjoin _ (List.splitOn_ne_nil '/' path), List.intercalate_splitOn]

theorem segments_prefix_iff {dir path : Str} :
    segments dir <+: segments path ↔ dir ++ ['/'] <+: path ++ ['/'] := by
  constructor
  · rintro ⟨rest, hrest⟩
    rw [← flatMap_segments, ← flatMap_segments, ← hrest, List.flatMap_append]
    exact List.prefix_append _ _
  · rintro ⟨rest, hrest⟩
    rcases rest.eq_nil_or_concat with rfl | ⟨rest, c, rfl⟩
    · rw [List.append_nil] at hrest
      rw [List.append_cancel_right hrest]
    · rw [List.concat_eq_append, ← List.append_assoc] at hrest
      obtain ⟨hpath, _⟩ := List.append_inj' hrest rfl
      rw [← hpath, segments, segments, List.append_assoc, List.singleton_append,
        List.splitOn_append_cons_self]
      exact List.prefix_append _ _

theorem directoryPrefix_eq (path : Str) : directoryPrefix path = directory path ++ ['/'] := by
  rw [directoryPrefix, directory]
  split
  · rename_i hempty
    rw [List.isEmpty_iff.mp hempty]
    rfl
  · rfl

theorem rdropWhile_directoryPrefix (path : Str) :
    (directoryPrefix path).rdropWhile (· == '/') = directory path := by
  rw [directoryPrefix_eq, List.rdropWhile_concat_pos _ _ _ (by rfl), directory,
    List.rdropWhile_idempotent]

/-- The test on the texts is one on whole parts of the paths. -/
theorem pathIsWithinAuthScope_iff {path scopePath : Str} (hpath : path.head? = some '/') :
    pathIsWithinAuthScope path (directoryPrefix scopePath) = true ↔
      segments (directory scopePath) <+: segments path := by
  rw [segments_prefix_iff, pathIsWithinAuthScope, rdropWhile_directoryPrefix, Bool.or_eq_true,
    List.isPrefixOf_iff_prefix, Bool.and_eq_true, bne_iff_ne, beq_iff_eq, directoryPrefix_eq]
  constructor
  · rintro (hfront | ⟨_, rfl⟩)
    · exact hfront.trans (List.prefix_append _ _)
    · exact List.prefix_rfl
  · rintro ⟨rest, hrest⟩
    rcases rest.eq_nil_or_concat with rfl | ⟨rest, c, rfl⟩
    · right
      rw [List.append_nil] at hrest
      rw [List.append_cancel_right hrest]
      refine ⟨?_, rfl⟩
      intro hroot
      have hnil : path = [] := by simpa using hroot
      rw [hnil] at hpath
      cases hpath
    · left
      rw [List.concat_eq_append, ← List.append_assoc] at hrest
      obtain ⟨rfl, _⟩ := List.append_inj' hrest rfl
      exact List.prefix_append _ _

theorem byteLength_append (a b : Str) : byteLength (a ++ b) = byteLength a + byteLength b := by
  simp [byteLength]

theorem byteLength_pos {s : Str} (h : s ≠ []) : 0 < byteLength s := by
  rcases s with _ | ⟨c, s⟩
  · exact absurd rfl h
  · have := c.utf8Size_pos
    simp only [byteLength, List.map_cons, List.sum_cons]
    omega

/-- Of the directories around a path, the length determines which one it is. -/
theorem directoryPrefix_inj {path a b : Str} (ha : segments (directory a) <+: segments path)
    (hb : segments (directory b) <+: segments path)
    (h : byteLength (directoryPrefix a) = byteLength (directoryPrefix b)) :
    directoryPrefix a = directoryPrefix b := by
  rw [segments_prefix_iff, ← directoryPrefix_eq] at ha hb
  have hsame : ∀ {s t : Str}, s <+: t → byteLength s = byteLength t → s = t := by
    rintro s _ ⟨rest, rfl⟩ hlength
    rw [byteLength_append] at hlength
    by_cases hrest : rest = []
    · rw [hrest, List.append_nil]
    · have := byteLength_pos hrest
      omega
  rcases List.prefix_or_prefix_of_prefix ha hb with hab | hba
  · exact hsame hab h
  · exact (hsame hba h.symm).symm

/-! ## Scopes and their tokens -/

/-- The scopes as they are written, with their tokens, in the order of the settings. -/
def tokenScopes (settings : List (Str × Str)) : List (Str × Str) :=
  settings.filterMap fun setting => (authScopeText setting.1).map (·, setting.2)

/-- A scope as it is kept. -/
def readScope (crate : UrlCrate) (raw : Str) : Option AuthScope :=
  match parseAuthScope crate (lit "//" ++ raw ++ lit ":_authToken") with
  | .ok scope => some scope
  | .error _ => none

/-- The scope applies to the URL's host and directory, whatever the ports are. -/
def surrounds (url scope : Url) : Bool :=
  scope.host == url.host && (segments (directory scope.path)).isPrefixOf (segments url.path)

/-- With the scheme of the URL, the scope has its host and its port and is a directory around
its path or the path itself. -/
def covers (crate : UrlCrate) (url : Url) (raw : Str) : Bool :=
  (crate.parse (url.scheme ++ lit "://" ++ raw)).any fun scope =>
    surrounds url scope && scope.port == url.port

def scopeLength (crate : UrlCrate) (raw : Str) : Nat :=
  ((readScope crate raw).map fun scope => byteLength scope.pathPrefix).getD 0

/-- A token for the URL is there if a scope covers it, and is that of the longest such scope,
which is one directory; where it is written twice, the later token counts. -/
structure Answered (crate : UrlCrate) (url : Url) (scopes : List (Str × Str))
    (answer : Option Str) : Prop where
  isSome_iff : answer.isSome = true ↔ ∃ s ∈ scopes, covers crate url s.1 = true
  longest : ∀ token ∈ answer, ∃ before raw after, scopes = before ++ (raw, token) :: after ∧
    covers crate url raw = true ∧
    (∀ s ∈ before, covers crate url s.1 = true → scopeLength crate s.1 ≤ scopeLength crate raw) ∧
    ∀ s ∈ after, covers crate url s.1 = true → scopeLength crate s.1 < scopeLength crate raw
  unique : ∀ s ∈ scopes, ∀ t ∈ scopes, covers crate url s.1 = true → covers crate url t.1 = true →
    scopeLength crate s.1 = scopeLength crate t.1 →
    (readScope crate s.1).map (·.pathPrefix) = (readScope crate t.1).map (·.pathPrefix)

/-- The last of the longest scopes that pass a test. -/
def select (crate : UrlCrate) (test : Str → Bool) (scopes : List (Str × Str)) :
    Option (Str × Str) :=
  maxByKey (fun s => scopeLength crate s.1) (scopes.filter fun s => test s.1)

/-- How the kept scope is compared with the URL. -/
def matchesScope (crate : UrlCrate) (target : RequestTarget) (raw : Str) : Bool :=
  (readScope crate raw).any fun scope =>
    scope.authority == target.authority && pathIsWithinAuthScope target.path scope.pathPrefix

/-- The port is written out: with either scheme the scope has it. -/
def writesPort (crate : UrlCrate) (raw : Str) (port : UInt16) : Bool :=
  [lit "http", lit "https"].all fun scheme =>
    (crate.parse (scheme ++ lit "://" ++ raw)).any fun scope => scope.port == some port

/-- The URL is an `http` URL, and the scope writes out a port that is the default of one of
the schemes: 443, while the URL has 443 or none, or 80, while the URL has none. -/
def misread (crate : UrlCrate) (url : Url) (raw : Str) : Bool :=
  url.scheme == lit "http" &&
    (crate.parse (url.scheme ++ lit "://" ++ raw)).any (surrounds url) &&
    (writesPort crate raw 443 && [some 80, some 443].contains url.port ||
      writesPort crate raw 80 && url.port == some 80)

/-- Of the scopes that cover the URL or are misread, the last of the longest is not misread. -/
def Unharmed (crate : UrlCrate) (url : Url) (scopes : List Str) : Prop :=
  ∀ raw, maxByKey (scopeLength crate)
    (scopes.filter fun raw => covers crate url raw || misread crate url raw) = some raw →
      misread crate url raw = false

/-! ## The kept tokens -/

section

variable {crate : UrlCrate}

/-- The token is the last one that is written for the scope. -/
def Latest (crate : UrlCrate) (scopes : List (Str × Str)) (scope : AuthScope) (token : Str) :
    Prop :=
  ∃ before raw after, scopes = before ++ (raw, token) :: after ∧
    readScope crate raw = some scope ∧ ∀ s ∈ after, readScope crate s.1 ≠ some scope

theorem latest_concat {scopes : List (Str × Str)} {raw value token : Str} {scope : AuthScope} :
    Latest crate (scopes ++ [(raw, value)]) scope token ↔
      (readScope crate raw = some scope ∧ token = value) ∨
        (readScope crate raw ≠ some scope ∧ Latest crate scopes scope token) := by
  constructor
  · rintro ⟨before, raw', after, heq, hscope, hafter⟩
    rcases after.eq_nil_or_concat with rfl | ⟨after, last, rfl⟩
    · obtain ⟨_, hlast⟩ := List.append_inj' heq rfl
      cases hlast
      exact .inl ⟨hscope, rfl⟩
    · rw [List.concat_eq_append, ← List.cons_append, ← List.append_assoc] at heq
      obtain ⟨rfl, hlast⟩ := List.append_inj' heq rfl
      cases hlast
      have hother : readScope crate raw ≠ some scope := hafter (raw, value) (by simp)
      refine .inr ⟨hother, before, raw', after, rfl, hscope, ?_⟩
      intro s hs
      exact hafter s (by simp [hs])
  · rintro (⟨hscope, rfl⟩ | ⟨hother, before, raw', after, rfl, hscope, hafter⟩)
    · exact ⟨scopes, raw, [], rfl, hscope, nofun⟩
    · refine ⟨before, raw', after ++ [(raw, value)], by simp, hscope, ?_⟩
      intro s hs
      rcases List.mem_append.mp hs with h | h
      · exact hafter s h
      · rw [List.mem_singleton.mp h]
        exact hother

theorem tokenScopes_concat (settings : List (Str × Str)) (setting : Str × Str) :
    tokenScopes (settings ++ [setting]) = tokenScopes settings ++
      ((authScopeText setting.1).map (·, setting.2)).toList := by
  rw [tokenScopes, List.filterMap_append, ← tokenScopes]
  rw [List.filterMap_cons]
  rcases (authScopeText setting.1).map (·, setting.2) with _ | s <;> rfl

/-- After the settings every scope is kept with the last token that is written for it. -/
theorem authTokens_settings {settings : List (Str × Str)} {config : NpmConfig}
    (h : NpmConfig.default.applySettings crate settings = .ok config) :
    (∀ s ∈ tokenScopes settings, (readScope crate s.1).isSome = true) ∧
      ∀ scope token, (scope, token) ∈ config.authTokens ↔
        Latest crate (tokenScopes settings) scope token := by
  refine Folds.invariant
    (I := fun settings config =>
      (∀ s ∈ tokenScopes settings, (readScope crate s.1).isSome = true) ∧
        ∀ scope token, (scope, token) ∈ config.authTokens ↔
          Latest crate (tokenScopes settings) scope token) h ?_ ?_
  · refine ⟨nofun, fun scope token => iff_of_false nofun ?_⟩
    rintro ⟨before, raw, after, heq, _⟩
    simp [tokenScopes] at heq
  · rintro pre ⟨key, value⟩ post config config' _ ⟨hread, htokens⟩ happly
    dsimp only at happly
    rw [tokenScopes_concat]
    rcases hkey : authScopeText key with _ | raw
    · rw [Option.map_none, Option.toList_none, List.append_nil,
        (NpmConfig.applyValue_other (by rw [hkey]; rfl) happly).1]
      exact ⟨hread, htokens⟩
    · rw [NpmConfig.applyValue_token (by rw [hkey]; rfl)] at happly
      split at happly
      · cases happly
      · obtain ⟨kept, hkept, rfl⟩ := Except.map_eq_ok.mp happly
        have hraw : readScope crate raw = some kept := by
          rw [readScope, ← NpmConfig.authScopeText_eq_some hkey, hkept]
        refine ⟨?_, ?_⟩
        · intro s hs
          rcases List.mem_append.mp hs with h | h
          · exact hread s h
          · rw [List.mem_singleton.mp h, hraw]
            rfl
        · intro scope token
          rw [Option.map_some, Option.toList_some, latest_concat, ← htokens, hraw,
            ne_eq, Option.some.injEq, NpmConfig.insertToken, List.mem_cons, List.mem_filter,
            bne_iff_ne, Prod.mk.injEq]
          dsimp only
          tauto

theorem parseHttpTarget_eq_some {value : Str} {target : RequestTarget}
    (h : parseHttpTarget crate value = some target) :
    ∃ url, crate.parse value = some url ∧ url.isHttp = true ∧
      target.authority = asciiLower url.hostPort ∧ target.path = url.path := by
  unfold parseHttpTarget at h
  split at h
  · cases h
  split at h
  · cases h
  rename_i url hparse
  split at h
  · cases h
  · rename_i hguard
    cases h
    simp only [Bool.or_eq_true, not_or, Bool.not_eq_true', Bool.not_eq_false] at hguard
    exact ⟨url, hparse, hguard.1.1.1.1, rfl, rfl⟩

theorem readScope_eq_some {raw : Str} {scope : AuthScope} (h : readScope crate raw = some scope) :
    ∃ url, crate.parse (lit "https://" ++ raw) = some url ∧ url.isHttp = true ∧
      scope = ⟨asciiLower url.hostPort, directoryPrefix url.path⟩ := by
  unfold readScope parseAuthScope at h
  rw [NpmConfig.authScopeText_key] at h
  dsimp only at h
  split at h
  · rename_i hok
    cases h
    split at hok
    · cases hok
    split at hok
    · cases hok
    rename_i target htarget
    split at hok
    · cases hok
    · obtain ⟨url, hparse, hhttp, hauthority, hpath⟩ := parseHttpTarget_eq_some htarget
      cases hok
      exact ⟨url, hparse, hhttp, by rw [hauthority, hpath]⟩
  · cases h

/-- Kept scopes that match one URL are told apart by their lengths. -/
theorem matching_inj {target : RequestTarget} (hpath : target.path.head? = some '/')
    {raw raw' : Str} {scope scope' : AuthScope}
    (hscope : readScope crate raw = some scope) (hscope' : readScope crate raw' = some scope')
    (hmatch : scope.authority = target.authority ∧
      pathIsWithinAuthScope target.path scope.pathPrefix = true)
    (hmatch' : scope'.authority = target.authority ∧
      pathIsWithinAuthScope target.path scope'.pathPrefix = true)
    (hlength : byteLength scope.pathPrefix = byteLength scope'.pathPrefix) : scope = scope' := by
  obtain ⟨url, _, _, rfl⟩ := readScope_eq_some hscope
  obtain ⟨url', _, _, rfl⟩ := readScope_eq_some hscope'
  rw [pathIsWithinAuthScope_iff hpath] at hmatch hmatch'
  rw [AuthScope.mk.injEq]
  exact ⟨hmatch.1.trans hmatch'.1.symm, directoryPrefix_inj hmatch.2 hmatch'.2 hlength⟩

theorem matchesScope_iff {target : RequestTarget} {raw : Str} {scope : AuthScope}
    (h : readScope crate raw = some scope) : matchesScope crate target raw = true ↔
      scope.authority = target.authority ∧
        pathIsWithinAuthScope target.path scope.pathPrefix = true := by
  rw [matchesScope, h, Option.any_some, Bool.and_eq_true, beq_iff_eq]

theorem scopeLength_eq {raw : Str} {scope : AuthScope} (h : readScope crate raw = some scope) :
    scopeLength crate raw = byteLength scope.pathPrefix := by
  rw [scopeLength, h]
  rfl

/-- The program's answer is the token of the last of the longest scopes that match. -/
theorem authTokenForUrl_eq_select {settings : List (Str × Str)} {config : NpmConfig} {text : Str}
    {target : RequestTarget} (h : NpmConfig.default.applySettings crate settings = .ok config)
    (htarget : parseHttpTarget crate text = some target)
    (hpath : target.path.head? = some '/') :
    config.authTokenForUrl crate text =
      (select crate (matchesScope crate target) (tokenScopes settings)).map (·.2) := by
  obtain ⟨hread, htokens⟩ := authTokens_settings h
  -- What is kept and matches comes from a setting that matches.
  have horigin : ∀ scope token, (scope, token) ∈ config.authTokens →
      (scope.authority == target.authority &&
        pathIsWithinAuthScope target.path scope.pathPrefix) = true →
      ∃ raw, (raw, token) ∈ tokenScopes settings ∧ readScope crate raw = some scope ∧
        matchesScope crate target raw = true := by
    intro scope token hmem hmatch
    obtain ⟨before, raw, after, heq, hscope, _⟩ := (htokens scope token).mp hmem
    rw [Bool.and_eq_true, beq_iff_eq] at hmatch
    exact ⟨raw, by simp [heq], hscope, (matchesScope_iff hscope).mpr hmatch⟩
  unfold NpmConfig.authTokenForUrl select
  rw [htarget]
  dsimp only
  rcases hselect : maxByKey (fun s => scopeLength crate s.1)
    ((tokenScopes settings).filter fun s => matchesScope crate target s.1) with _ | ⟨raw, token⟩
  · rw [hselect]
    rw [maxByKey_eq_none_iff, List.filter_eq_nil_iff] at hselect
    rw [Option.map_none, Option.map_eq_none_iff, maxByKey_eq_none_iff, List.filter_eq_nil_iff]
    rintro ⟨scope, token⟩ hmem hmatch
    obtain ⟨raw, hraw, _, hmatches⟩ := horigin scope token hmem hmatch
    exact hselect _ hraw hmatches
  · obtain ⟨before, after, heq, hraw, hbefore, hafter⟩ := maxByKey_filter_eq_some_iff.mp hselect
    have hlongest := (maxByKey_mem hselect).2
    obtain ⟨scope, hscope⟩ := Option.isSome_iff_exists.mp (hread (raw, token) (by simp [heq]))
    have hmatch := (matchesScope_iff hscope).mp hraw
    have hkept : (scope, token) ∈ config.authTokens := by
      rw [htokens]
      refine ⟨before, raw, after, heq, hscope, ?_⟩
      intro s hs hsame
      have hlt := hafter s hs ((matchesScope_iff hsame).mpr hmatch)
      rw [scopeLength_eq hsame, scopeLength_eq hscope] at hlt
      exact lt_irrefl _ hlt
    have hpasses : (scope.authority == target.authority &&
        pathIsWithinAuthScope target.path scope.pathPrefix) = true := by
      rw [Bool.and_eq_true, beq_iff_eq]
      exact hmatch
    rcases hmax : maxByKey (fun entry : AuthScope × Str => byteLength entry.1.pathPrefix)
      (config.authTokens.filter fun entry => entry.1.authority == target.authority &&
        pathIsWithinAuthScope target.path entry.1.pathPrefix) with _ | ⟨scope', token'⟩
    · rw [maxByKey_eq_none_iff, List.filter_eq_nil_iff] at hmax
      exact absurd hpasses (hmax _ hkept)
    · obtain ⟨hmem, hgreatest⟩ := maxByKey_mem hmax
      obtain ⟨hkept', hpasses'⟩ := List.mem_filter.mp hmem
      obtain ⟨raw', hraw', hscope', hmatches'⟩ := horigin scope' token' hkept' hpasses'
      have hge := hgreatest (scope, token) (List.mem_filter.mpr ⟨hkept, hpasses⟩)
      have hle := hlongest (raw', token') (List.mem_filter.mpr ⟨hraw', hmatches'⟩)
      rw [scopeLength_eq hscope', scopeLength_eq hscope] at hle
      have hsame : scope = scope' := matching_inj hpath hscope hscope' hmatch
        ((matchesScope_iff hscope').mp hmatches') (le_antisymm hge hle)
      have hentry := List.inj_on_of_nodup_map config.nodup hkept hkept' hsame
      rw [hselect, ← hentry]
      rfl

/-- For an `http` URL: a port is dropped as `https` would have it, and is compared with one
that is dropped as `http` has it. -/
theorem ports_agree_iff (written : Option UInt16) (port : UInt16) :
    (portText (lit "https") (written.getD 443) = portText (lit "http") port ↔
      written.getD 80 = port) ↔
        ¬(written = some 443 ∧ (port = 80 ∨ port = 443) ∨ written = some 80 ∧ port = 80) := by
  have hdefault : defaultPort (lit "http") = 80 ∧ defaultPort (lit "https") = 443 := by decide
  rw [portText_eq_iff, hdefault.1, hdefault.2]
  rcases written with _ | written
  · by_cases h : port = 80
    · subst h
      decide
    · simp [h, Ne.symm h]
  · by_cases h80 : port = 80
    · subst h80
      by_cases hw : written = 443
      · subst hw
        decide
      · by_cases hw' : written = 80
        · subst hw'
          decide
        · simp [hw, hw']
    · by_cases hw : written = 443
      · subst hw
        simp [h80, eq_comm]
      · simp [hw, h80]

/-- The program reads a scope as it is meant exactly if it does not misread it. -/
theorem matchesScope_eq_covers_iff (hweb : crate.Web) {text raw : Str} {url : Url}
    {target : RequestTarget} (hparse : crate.parse text = some url)
    (htarget : parseHttpTarget crate text = some target)
    (hraw : (readScope crate raw).isSome = true) :
    matchesScope crate target raw = covers crate url raw ↔ misread crate url raw = false := by
  obtain ⟨scope, hscope⟩ := Option.isSome_iff_exists.mp hraw
  obtain ⟨kept, hkept, hkeptHttp, rfl⟩ := readScope_eq_some hscope
  obtain ⟨url', hurl', hhttp, hauthority, hpath⟩ := parseHttpTarget_eq_some htarget
  obtain rfl : url = url' := Option.some.inj (hparse.symm.trans hurl')
  have halike := hweb.alike raw
  rw [hkept] at halike
  rcases hplain : crate.parse (lit "http://" ++ raw) with _ | plain
  · rw [hplain] at halike
    exact halike.elim
  rw [hplain] at halike
  obtain ⟨hplainScheme, hkeptScheme, hsame, written, hplainPort, hkeptPort⟩ := halike
  obtain ⟨host, port, hhost, hport, hhostPort, hbrackets⟩ := hweb.authority _ _ hparse hhttp
  obtain ⟨host', port', hhost', hport', hhostPort', hbrackets'⟩ :=
    hweb.authority _ _ hkept hkeptHttp
  have hplainHost : plain.host = some host' := by rw [hsame]; exact hhost'
  have hplainPath : plain.path = kept.path := by rw [hsame]
  obtain rfl : port' = written.getD 443 := Option.some.inj (hport'.symm.trans hkeptPort)
  have hmatches : matchesScope crate target raw = true ↔
      surrounds url kept = true ∧
        portText (lit "https") (written.getD 443) = portText url.scheme port := by
    rw [matchesScope_iff hscope, hauthority, hpath, hweb.lower _ _ hparse hhttp,
      hweb.lower _ _ hkept hkeptHttp, pathIsWithinAuthScope_iff (hweb.path_slash _ _ hparse hhttp),
      hhostPort, hhostPort', host_port_inj hbrackets' hbrackets, hkeptScheme, surrounds,
      Bool.and_eq_true, beq_iff_eq, hhost, hhost', Option.some.injEq, List.isPrefixOf_iff_prefix]
    tauto
  have hscheme : url.scheme = lit "http" ∨ url.scheme = lit "https" := by
    simpa [Url.isHttp] using hhttp
  rcases hscheme with hs | hs
  · have hcovers : covers crate url raw = true ↔
        surrounds url kept = true ∧ written.getD 80 = port := by
      rw [covers, hs, show lit "http" ++ lit "://" ++ raw = lit "http://" ++ raw from rfl, hplain,
        Option.any_some, Bool.and_eq_true, beq_iff_eq, hplainPort, hport, Option.some.injEq,
        surrounds, surrounds, hplainHost, hhost', hplainPath]
    have hwrites : ∀ p, writesPort crate raw p = true ↔ written = some p := by
      intro p
      simp only [writesPort, List.all_cons, List.all_nil, Bool.and_true, Bool.and_eq_true]
      rw [show lit "http" ++ lit "://" ++ raw = lit "http://" ++ raw from rfl,
        show lit "https" ++ lit "://" ++ raw = lit "https://" ++ raw from rfl, hplain, hkept,
        Option.any_some, Option.any_some, beq_iff_eq, beq_iff_eq, hplainPort, hkeptPort,
        Option.some.injEq, Option.some.injEq]
      rcases written with _ | w
      · simp only [Option.getD_none, reduceCtorEq, iff_false, not_and]
        rintro rfl
        decide
      · simp
    have hmisread : misread crate url raw = true ↔ surrounds url kept = true ∧
        (written = some 443 ∧ (port = 80 ∨ port = 443) ∨ written = some 80 ∧ port = 80) := by
      simp only [misread, Bool.and_eq_true, Bool.or_eq_true, hwrites, beq_iff_eq, hport]
      rw [hs, show lit "http" ++ lit "://" ++ raw = lit "http://" ++ raw from rfl, hplain,
        Option.any_some, surrounds, surrounds, hplainHost, hhost', hplainPath]
      simp
    rw [Bool.eq_iff_iff, ← Bool.not_eq_true, hmatches, hcovers, hmisread, hs]
    rw [and_congr_right_iff, ports_agree_iff, not_and]
  · have hcovers : covers crate url raw = true ↔
        surrounds url kept = true ∧ written.getD 443 = port := by
      rw [covers, hs, show lit "https" ++ lit "://" ++ raw = lit "https://" ++ raw from rfl, hkept,
        Option.any_some, Bool.and_eq_true, beq_iff_eq, hkeptPort, hport, Option.some.injEq]
    have hports : portText (lit "https") (written.getD 443) = portText (lit "https") port ↔
        written.getD 443 = port := by
      rw [portText_eq_iff]
      constructor
      · rintro (⟨h, h'⟩ | ⟨_, _, h⟩)
        · rw [h, h']
        · exact h
      · rintro rfl
        by_cases h : written.getD 443 = defaultPort (lit "https")
        · exact .inl ⟨h, h⟩
        · exact .inr ⟨h, h, rfl⟩
    have hmisread : misread crate url raw = false := by
      rw [misread, hs]
      rfl
    refine iff_of_true ?_ hmisread
    rw [Bool.eq_iff_iff, hmatches, hcovers, hs, hports]

/-- What covers the URL is kept as a directory around its path. -/
theorem directory_of_covers (hweb : crate.Web) {url : Url} {raw : Str} {scope : AuthScope}
    (hhttp : url.isHttp = true) (hscope : readScope crate raw = some scope)
    (hcovers : covers crate url raw = true) :
    ∃ path, scope.pathPrefix = directoryPrefix path ∧
      segments (directory path) <+: segments url.path := by
  obtain ⟨kept, hkept, _, rfl⟩ := readScope_eq_some hscope
  refine ⟨kept.path, rfl, ?_⟩
  obtain ⟨scope, hparse, hcheck⟩ := (Option.any_eq_true _ _).mp hcovers
  obtain ⟨hsurrounds, _⟩ := Bool.and_eq_true_iff.mp hcheck
  have hdir := List.isPrefixOf_iff_prefix.mp (Bool.and_eq_true_iff.mp hsurrounds).2
  have hpath : scope.path = kept.path := by
    have halike := hweb.alike raw
    have hscheme : url.scheme = lit "http" ∨ url.scheme = lit "https" := by
      simpa [Url.isHttp] using hhttp
    rcases hscheme with hs | hs
    · rw [hs, show lit "http" ++ lit "://" ++ raw = lit "http://" ++ raw from rfl] at hparse
      rw [hparse, hkept] at halike
      rw [halike.2.2.1]
    · rw [hs, show lit "https" ++ lit "://" ++ raw = lit "https://" ++ raw from rfl, hkept] at hparse
      rw [Option.some.inj hparse]
  rwa [hpath] at hdir

/-- Covering scopes of one length are one directory. -/
theorem covers_unique (hweb : crate.Web) {url : Url} {raw raw' : Str} (hhttp : url.isHttp = true)
    (hread : (readScope crate raw).isSome = true) (hread' : (readScope crate raw').isSome = true)
    (hcovers : covers crate url raw = true) (hcovers' : covers crate url raw' = true)
    (hlength : scopeLength crate raw = scopeLength crate raw') :
    (readScope crate raw).map (·.pathPrefix) = (readScope crate raw').map (·.pathPrefix) := by
  obtain ⟨scope, hscope⟩ := Option.isSome_iff_exists.mp hread
  obtain ⟨scope', hscope'⟩ := Option.isSome_iff_exists.mp hread'
  obtain ⟨path, hpath, hdir⟩ := directory_of_covers hweb hhttp hscope hcovers
  obtain ⟨path', hpath', hdir'⟩ := directory_of_covers hweb hhttp hscope' hcovers'
  rw [scopeLength_eq hscope, scopeLength_eq hscope', hpath, hpath'] at hlength
  rw [hscope, hscope', Option.map_some, Option.map_some, hpath, hpath',
    directoryPrefix_inj hdir hdir' hlength]

theorem tokenScopes_keys {a b : List (Str × Str)} (h : a.map (·.1) = b.map (·.1)) :
    (tokenScopes a).map (·.1) = (tokenScopes b).map (·.1) := by
  have hkeys : ∀ l : List (Str × Str),
      (tokenScopes l).map (·.1) = (l.map (·.1)).filterMap authScopeText := by
    intro l
    rw [tokenScopes, List.map_filterMap, List.filterMap_map]
    congr 1
    funext setting
    simp [Function.comp_def]
  rw [hkeys, hkeys, h]

/-- A scope that passes one of the tests covers the URL or is misread. -/
theorem matches_or_covers (hweb : crate.Web) {text raw : Str} {url : Url}
    {target : RequestTarget} (hparse : crate.parse text = some url)
    (htarget : parseHttpTarget crate text = some target)
    (hraw : (readScope crate raw).isSome = true) :
    (covers crate url raw || misread crate url raw) =
      (matchesScope crate target raw || covers crate url raw) := by
  have hiff := matchesScope_eq_covers_iff hweb hparse htarget hraw
  revert hiff
  rcases matchesScope crate target raw <;> rcases covers crate url raw <;>
    rcases misread crate url raw <;> decide

theorem filter_concerned (hweb : crate.Web) {text : Str} {url : Url}
    {target : RequestTarget} (hparse : crate.parse text = some url)
    (htarget : parseHttpTarget crate text = some target) {scopes : List (Str × Str)}
    (hread : ∀ s ∈ scopes, (readScope crate s.1).isSome = true) :
    (scopes.map (·.1)).filter (fun raw => covers crate url raw || misread crate url raw) =
      (scopes.filter fun s => matchesScope crate target s.1 || covers crate url s.1).map (·.1) := by
  rw [List.filter_map]
  congr 1
  apply List.filter_congr
  intro s hs
  exact matches_or_covers hweb hparse htarget (hread s hs)

/-- The answer, where the last of the longest scopes is read as it is meant. -/
theorem answered_of_unharmed (hweb : crate.Web) {settings : List (Str × Str)}
    {config : NpmConfig} {text : Str} {url : Url} {target : RequestTarget}
    (h : NpmConfig.default.applySettings crate settings = .ok config)
    (hparse : crate.parse text = some url) (htarget : parseHttpTarget crate text = some target)
    (hunharmed : Unharmed crate url ((tokenScopes settings).map (·.1))) :
    Answered crate url (tokenScopes settings) (config.authTokenForUrl crate text) := by
  obtain ⟨url', hurl', hhttp, _, hpath⟩ := parseHttpTarget_eq_some htarget
  obtain rfl : url = url' := Option.some.inj (hparse.symm.trans hurl')
  have hread := (authTokens_settings h).1
  have hslash : target.path.head? = some '/' := by
    rw [hpath]
    exact hweb.path_slash _ _ hparse hhttp
  have hunique : ∀ s ∈ tokenScopes settings, ∀ t ∈ tokenScopes settings,
      covers crate url s.1 = true → covers crate url t.1 = true →
      scopeLength crate s.1 = scopeLength crate t.1 →
      (readScope crate s.1).map (·.pathPrefix) = (readScope crate t.1).map (·.pathPrefix) :=
    fun s hs t ht hcovers hcovers' hlength =>
      covers_unique hweb hhttp (hread s hs) (hread t ht) hcovers hcovers' hlength
  rw [authTokenForUrl_eq_select h htarget hslash]
  rw [Unharmed, filter_concerned hweb hparse htarget hread, maxByKey_map] at hunharmed
  rcases hmax : maxByKey (fun s => scopeLength crate s.1) ((tokenScopes settings).filter
    fun s => matchesScope crate target s.1 || covers crate url s.1) with _ | ⟨raw, token⟩
  · rw [maxByKey_eq_none_iff, List.filter_eq_nil_iff] at hmax
    have hnone : select crate (matchesScope crate target) (tokenScopes settings) = none := by
      rw [select, maxByKey_eq_none_iff, List.filter_eq_nil_iff]
      intro s hs hmatches
      exact hmax s hs (by rw [hmatches, Bool.true_or])
    rw [hnone]
    refine ⟨iff_of_false nofun ?_, nofun, hunique⟩
    rintro ⟨s, hs, hcovers⟩
    exact hmax s hs (by rw [hcovers, Bool.or_true])
  · obtain ⟨hmem, heither⟩ := List.mem_filter.mp (maxByKey_mem hmax).1
    have hplain := hunharmed raw (by rw [hmax]; rfl)
    rw [← matchesScope_eq_covers_iff hweb hparse htarget (hread _ hmem)] at hplain
    have hcovers : covers crate url raw = true := by
      rw [hplain, Bool.or_self] at heither
      exact heither
    have hselect : select crate (matchesScope crate target) (tokenScopes settings) =
        some (raw, token) := by
      apply maxByKey_filter _ hmax
      · rw [hplain, hcovers]
      · intro s hs
        rw [hs, Bool.true_or]
    have hlast : select crate (covers crate url) (tokenScopes settings) = some (raw, token) := by
      apply maxByKey_filter _ hmax hcovers
      intro s hs
      rw [hs, Bool.or_true]
    obtain ⟨before, after, heq, _, hbefore, hafter⟩ := maxByKey_filter_eq_some_iff.mp hlast
    rw [hselect]
    refine ⟨iff_of_true rfl ⟨_, hmem, hcovers⟩, ?_, hunique⟩
    rintro _ ⟨⟩
    exact ⟨before, raw, after, heq, hcovers, hbefore, hafter⟩

/-! ## Telling tokens apart -/

theorem map_ok {ε α β γ : Type} {x : Except ε α} {f : α → β} {b : β} (h : x.map f = .ok b)
    (g : α → γ) : ∃ c, x.map g = .ok c := by
  obtain ⟨a, rfl, _⟩ := Except.map_eq_ok.mp h
  exact ⟨g a, rfl⟩

theorem network_applyValue_ok {network network' : NetworkConfig} {key value : Str}
    (h : network.applyValue key value = .ok network') (other : NetworkConfig) :
    ∃ other', other.applyValue key value = .ok other' := by
  unfold NetworkConfig.applyValue at h ⊢
  split at h
  · rename_i hkey
    rw [if_pos hkey]
    exact map_ok h _
  rename_i hkey
  rw [if_neg hkey]
  clear hkey
  split at h
  · rename_i hkey
    rw [if_pos hkey]
    exact map_ok h _
  rename_i hkey
  rw [if_neg hkey]
  clear hkey
  split at h
  · rename_i hkey
    rw [if_pos hkey]
    exact map_ok h _
  rename_i hkey
  rw [if_neg hkey]
  clear hkey
  split at h
  · rename_i hkey
    rw [if_pos hkey]
    exact map_ok h _
  rename_i hkey
  rw [if_neg hkey]
  clear hkey
  split at h
  · rename_i hkey
    rw [if_pos hkey]
    exact map_ok h _
  rename_i hkey
  rw [if_neg hkey]
  clear hkey
  exact ⟨other, rfl⟩

/-- Whether a setting is accepted depends on its key and its value alone. -/
theorem applyValue_ok {config config' : NpmConfig} {key value : Str}
    (h : config.applyValue crate key value = .ok config') (other : NpmConfig) :
    ∃ other', other.applyValue crate key value = .ok other' := by
  unfold NpmConfig.applyValue at h ⊢
  split at h
  · rename_i hkey
    rw [if_pos hkey]
    exact map_ok h _
  rename_i hkey
  rw [if_neg hkey]
  split at h
  · split at h
    · cases h
    · rename_i hvalid
      rw [if_neg hvalid]
      exact map_ok h _
  split at h
  · rename_i htoken
    rw [if_pos htoken]
    split at h
    · cases h
    · rename_i hvalue
      rw [if_neg hvalue]
      exact map_ok h _
  · rename_i htoken
    rw [if_neg htoken]
    obtain ⟨network, hnetwork, _⟩ := Except.map_eq_ok.mp h
    obtain ⟨other', hother⟩ := network_applyValue_ok hnetwork other.network
    exact ⟨_, Except.map_eq_ok.mpr ⟨other', hother, rfl⟩⟩

/-- Every token replaced by its own key. -/
def relabel (setting : Str × Str) : Str × Str :=
  if (authScopeText setting.1).isSome then (setting.1, setting.1) else setting

theorem relabel_loads {settings : List (Str × Str)} {config : NpmConfig}
    (h : NpmConfig.default.applySettings crate settings = .ok config) :
    ∃ config', NpmConfig.default.applySettings crate (settings.map relabel) = .ok config' := by
  have hall : ∀ setting ∈ settings, ∀ other : NpmConfig,
      ∃ other', other.applyValue crate setting.1 setting.2 = .ok other' :=
    Folds.invariant (I := fun settings _ => ∀ setting ∈ settings, ∀ other : NpmConfig,
      ∃ other', other.applyValue crate setting.1 setting.2 = .ok other') h nofun (by
        intro pre setting post config config' _ hpre happly s hs
        rcases List.mem_append.mp hs with hmem | hmem
        · exact hpre s hmem
        · rw [List.mem_singleton.mp hmem]
          exact applyValue_ok happly)
  obtain ⟨config', hconfig', _⟩ := Folds.total (I := fun _ _ => True)
    (f := fun (config : NpmConfig) (setting : Str × Str) =>
      config.applyValue crate setting.1 setting.2)
    (l := settings.map relabel) (s := NpmConfig.default) trivial (by
      intro pre setting post config hsplit _
      obtain ⟨original, hmem, rfl⟩ := List.mem_map.mp (show setting ∈ settings.map relabel by
        simp [hsplit])
      obtain ⟨config', hconfig'⟩ := hall original hmem config
      rw [relabel]
      split
      · rename_i htoken
        rw [NpmConfig.applyValue_token htoken] at hconfig'
        split at hconfig'
        · cases hconfig'
        · obtain ⟨raw, hraw⟩ := Option.isSome_iff_exists.mp htoken
          have hkey : original.1.isEmpty = false := by
            rw [NpmConfig.authScopeText_eq_some hraw]
            rfl
          obtain ⟨kept, hkept, _⟩ := Except.map_eq_ok.mp hconfig'
          refine ⟨config.insertToken kept original.1, ?_, trivial⟩
          rw [NpmConfig.applyValue_token htoken, hkey, hkept]
          rfl
      · exact ⟨config', hconfig', trivial⟩)
  exact ⟨config', hconfig'⟩

theorem relabel_keys (settings : List (Str × Str)) :
    (settings.map relabel).map (·.1) = settings.map (·.1) := by
  rw [List.map_map]
  apply List.map_congr_left
  intro setting _
  simp only [relabel, Function.comp_apply]
  split <;> rfl

theorem relabel_token {settings : List (Str × Str)} {s : Str × Str}
    (h : s ∈ tokenScopes (settings.map relabel)) :
    s.2 = lit "//" ++ s.1 ++ lit ":_authToken" := by
  obtain ⟨setting, hsetting, hs⟩ := List.mem_filterMap.mp h
  obtain ⟨original, _, rfl⟩ := List.mem_map.mp hsetting
  obtain ⟨raw, hraw, rfl⟩ := Option.map_eq_some_iff.mp hs
  have hkey : (relabel original).1 = original.1 := by
    rw [relabel]
    split <;> rfl
  rw [hkey] at hraw
  rw [relabel, if_pos (by rw [hraw]; rfl)]
  exact NpmConfig.authScopeText_eq_some hraw

/-- Different scopes have different tokens then. -/
theorem relabel_inj {settings : List (Str × Str)} {s t : Str × Str}
    (hs : s ∈ tokenScopes (settings.map relabel)) (ht : t ∈ tokenScopes (settings.map relabel))
    (h : s.2 = t.2) : s = t := by
  have hscopes := congrArg authScopeText h
  rw [relabel_token hs, relabel_token ht, NpmConfig.authScopeText_key,
    NpmConfig.authScopeText_key] at hscopes
  exact Prod.ext (Option.some.inj hscopes) h

/-- Where the last of the longest is misread, some tokens give a wrong answer. -/
theorem unharmed_of_answered (hweb : crate.Web) {settings : List (Str × Str)}
    {config : NpmConfig} {text : Str} {url : Url} {target : RequestTarget}
    (h : NpmConfig.default.applySettings crate (settings.map relabel) = .ok config)
    (hparse : crate.parse text = some url) (htarget : parseHttpTarget crate text = some target)
    (hanswered : Answered crate url (tokenScopes (settings.map relabel))
      (config.authTokenForUrl crate text)) :
    Unharmed crate url ((tokenScopes (settings.map relabel)).map (·.1)) := by
  obtain ⟨url', hurl', hhttp, _, hpath⟩ := parseHttpTarget_eq_some htarget
  obtain rfl : url = url' := Option.some.inj (hparse.symm.trans hurl')
  have hread := (authTokens_settings h).1
  have hslash : target.path.head? = some '/' := by
    rw [hpath]
    exact hweb.path_slash _ _ hparse hhttp
  rw [authTokenForUrl_eq_select h htarget hslash] at hanswered
  intro raw hmax
  rw [filter_concerned hweb hparse htarget hread, maxByKey_map] at hmax
  obtain ⟨⟨raw', token⟩, hlast, rfl⟩ := Option.map_eq_some_iff.mp hmax
  obtain ⟨hmem, heither⟩ := List.mem_filter.mp (maxByKey_mem hlast).1
  dsimp only at heither ⊢
  by_contra hmisread
  have hdiffers := mt (matchesScope_eq_covers_iff hweb hparse htarget (hread _ hmem)).mp hmisread
  rcases hcovers : covers crate url raw' with _ | _
  · -- The program takes a scope that does not cover the URL.
    have hmatches : matchesScope crate target raw' = true := by
      rw [hcovers, Bool.not_eq_false] at hdiffers
      exact hdiffers
    have hselect : select crate (matchesScope crate target) (tokenScopes (settings.map relabel)) =
        some (raw', token) := by
      apply maxByKey_filter _ hlast hmatches
      intro s hs
      rw [hs, Bool.true_or]
    rw [hselect] at hanswered
    obtain ⟨before, other, after, heq, hother, _⟩ := hanswered.longest token rfl
    have hsame := relabel_inj (s := (other, token)) (by simp [heq]) hmem rfl
    cases hsame
    rw [hcovers] at hother
    cases hother
  · -- The program passes over the scope that is meant.
    have hselect : select crate (covers crate url) (tokenScopes (settings.map relabel)) =
        some (raw', token) := by
      apply maxByKey_filter _ hlast hcovers
      intro s hs
      rw [hs, Bool.or_true]
    obtain ⟨answer, hanswer⟩ := Option.isSome_iff_exists.mp
      (hanswered.isSome_iff.mpr ⟨_, hmem, hcovers⟩)
    obtain ⟨⟨taken, _⟩, htaken, rfl⟩ := Option.map_eq_some_iff.mp hanswer
    obtain ⟨htakenMem, htakenMatches⟩ := List.mem_filter.mp (maxByKey_mem htaken).1
    obtain ⟨before, other, after, heq, hother, hbefore, hafter⟩ := hanswered.longest _ hanswer
    have hlongest := maxByKey_filter_eq_some_iff.mpr ⟨before, after, heq, hother, hbefore, hafter⟩
    cases relabel_inj (s := (other, _)) (by simp [heq]) htakenMem rfl
    cases hselect.symm.trans hlongest
    rw [hcovers] at hdiffers
    exact hdiffers htakenMatches

/-- For all tokens under the given keys the answer is the one that the scopes say, exactly if
the last of the longest of those that concern the URL is not misread. -/
theorem authTokenForUrl_answers_iff (crate : UrlCrate) (hweb : crate.Web)
    (settings : List (Str × Str)) (text : Str) (url : Url) (target : RequestTarget)
    (hload : ∃ config, NpmConfig.default.applySettings crate settings = .ok config)
    (hparse : crate.parse text = some url) (htarget : parseHttpTarget crate text = some target) :
    (∀ settings' config, settings'.map (·.1) = settings.map (·.1) →
      NpmConfig.default.applySettings crate settings' = .ok config →
      Answered crate url (tokenScopes settings') (config.authTokenForUrl crate text)) ↔
        Unharmed crate url ((tokenScopes settings).map (·.1)) := by
  constructor
  · intro h
    obtain ⟨config, hconfig⟩ := hload
    obtain ⟨config', hconfig'⟩ := relabel_loads hconfig
    have hunharmed := unharmed_of_answered hweb hconfig' hparse htarget
      (h _ _ (relabel_keys settings) hconfig')
    rwa [tokenScopes_keys (relabel_keys settings)] at hunharmed
  · intro h settings' config hkeys hconfig
    rw [← tokenScopes_keys hkeys] at h
    exact answered_of_unharmed hweb hconfig hparse htarget h

end

section Ports

/-- The URLs of one host, with a port that is written or not. -/
def portUrl (scheme : Str) (written : Option UInt16) (path : Str) : Url where
  serialization := scheme ++ lit "://r.test" ++
    portText scheme (written.getD (defaultPort scheme)) ++ path
  scheme := scheme
  username := []
  password := none
  userInfo := []
  host := some (lit "r.test")
  port := some (written.getD (defaultPort scheme))
  hostPort := lit "r.test" ++ portText scheme (written.getD (defaultPort scheme))
  path := path
  query := none
  fragment := none

def portTexts : List (Str × Option UInt16 × Str) :=
  [(lit "r.test/", none, lit "/"), (lit "r.test:443/", some 443, lit "/"),
    (lit "r.test/x", none, lit "/x")]

def portUrls (text : Str) : Option Url :=
  [lit "http", lit "https"].findSome? fun scheme =>
    (stripPrefix (scheme ++ lit "://") text).bind fun raw =>
      (portTexts.find? (·.1 == raw)).map fun entry => portUrl scheme entry.2.1 entry.2.2

theorem portUrls_http (raw : Str) : portUrls (lit "http://" ++ raw) =
    (portTexts.find? (·.1 == raw)).map fun entry => portUrl (lit "http") entry.2.1 entry.2.2 := by
  rw [portUrls, List.findSome?_cons, List.findSome?_cons, List.findSome?_nil,
    show lit "http" ++ lit "://" = lit "http://" from rfl, stripPrefix_append, Option.bind_some,
    show stripPrefix (lit "https" ++ lit "://") (lit "http://" ++ raw) = none from rfl,
    Option.bind_none]
  generalize Option.map _ (List.find? _ portTexts) = url
  rcases url with _ | url <;> rfl

theorem portUrls_https (raw : Str) : portUrls (lit "https://" ++ raw) =
    (portTexts.find? (·.1 == raw)).map fun entry => portUrl (lit "https") entry.2.1 entry.2.2 := by
  rw [portUrls, List.findSome?_cons, List.findSome?_cons, List.findSome?_nil,
    show lit "https" ++ lit "://" = lit "https://" from rfl, stripPrefix_append, Option.bind_some,
    show stripPrefix (lit "http" ++ lit "://") (lit "https://" ++ raw) = none from rfl,
    Option.bind_none]
  generalize Option.map _ (List.find? _ portTexts) = url
  rcases url with _ | url <;> rfl

theorem portUrls_eq_some {text : Str} {url : Url} (h : portUrls text = some url) :
    ∃ scheme ∈ [lit "http", lit "https"], ∃ entry ∈ portTexts,
      url = portUrl scheme entry.2.1 entry.2.2 := by
  obtain ⟨scheme, hscheme, hurl⟩ := List.exists_of_findSome?_eq_some h
  obtain ⟨raw, _, hraw⟩ := Option.bind_eq_some_iff.mp hurl
  obtain ⟨entry, hentry, rfl⟩ := Option.map_eq_some_iff.mp hraw
  exact ⟨scheme, hscheme, entry, List.mem_of_find?_eq_some hentry, rfl⟩

theorem portUrls_serialization {text : Str} {url : Url} (h : portUrls text = some url) :
    portUrls url.serialization = some url ∧ trim url.serialization = url.serialization := by
  obtain ⟨scheme, hscheme, entry, hentry, rfl⟩ := portUrls_eq_some h
  clear h
  revert scheme entry
  decide

def portCrate : UrlCrate where
  parse := portUrls
  parseError _ := lit "relative URL without a base"
  join _ := portUrls
  parse_serialization _ _ h := (portUrls_serialization h).1
  join_parses _ _ _ _ h := (portUrls_serialization h).1
  trim_serialization _ _ h := (portUrls_serialization h).2

theorem portCrate_web : portCrate.Web where
  alike := by
    intro raw
    show ReadAlike (portUrls (lit "http://" ++ raw)) (portUrls (lit "https://" ++ raw))
    rw [portUrls_http, portUrls_https]
    generalize List.find? _ portTexts = found
    rcases found with _ | ⟨_, written, path⟩
    · trivial
    · exact ⟨rfl, rfl, rfl, written, rfl, rfl⟩
  authority := by
    intro text url h _
    obtain ⟨scheme, _, entry, _, rfl⟩ := portUrls_eq_some h
    exact ⟨_, _, rfl, rfl, rfl, by simp [lit]⟩
  lower := by
    intro text url h hhttp
    clear hhttp
    obtain ⟨scheme, hscheme, entry, hentry, rfl⟩ := portUrls_eq_some h
    clear h
    revert scheme entry
    decide
  path_slash := by
    intro text url h hhttp
    clear hhttp
    obtain ⟨scheme, hscheme, entry, hentry, rfl⟩ := portUrls_eq_some h
    clear h
    revert scheme entry
    decide

def portSettings : List (Str × Str) := [(lit "//r.test:443/:_authToken", lit "secret")]

/-- For an `https` URL the same scope is read as it is meant. -/
theorem authTokenForUrl_answers_iff_https :
    (∀ settings' config, settings'.map (·.1) = portSettings.map (·.1) →
      NpmConfig.default.applySettings portCrate settings' = .ok config →
      Answered portCrate (portUrl (lit "https") none (lit "/x")) (tokenScopes settings')
        (config.authTokenForUrl portCrate (lit "https://r.test/x"))) ↔
      Unharmed portCrate (portUrl (lit "https") none (lit "/x"))
        ((tokenScopes portSettings).map (·.1)) :=
  authTokenForUrl_answers_iff portCrate portCrate_web portSettings (lit "https://r.test/x")
    (portUrl (lit "https") none (lit "/x")) ⟨lit "https", lit "r.test", lit "/x", false, false⟩
    ⟨_, rfl⟩ (by decide) rfl

/-- A token for port 443 goes to port 80. -/
theorem authTokenForUrl_sends_to_other_port :
    ∃ config, NpmConfig.default.applySettings portCrate portSettings = .ok config ∧
      config.authTokenForUrl portCrate (lit "http://r.test/x") = some (lit "secret") ∧
      portCrate.parse (lit "http://r.test/x") = some (portUrl (lit "http") none (lit "/x")) ∧
      ∀ s ∈ tokenScopes portSettings,
        covers portCrate (portUrl (lit "http") none (lit "/x")) s.1 = false :=
  ⟨_, rfl, by decide, by decide, by decide⟩

end Ports
end Bpm
