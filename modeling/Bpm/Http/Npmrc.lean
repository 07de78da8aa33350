import Bpm.Http.Config
import Bpm.Lib.Folds
import Bpm.Lib.Lines

/-!
# Reading npmrc files

The user's file comes before the project's, and every line is a setting that replaces
what an earlier one said.  Settings that the program does not use are skipped.  The
token of a scope is kept under the scope's normal form, which is that of an `https` URL.
-/

namespace Bpm

open Text

inductive ConfigError
  | read (path error : Str)
  | syntaxError (path : Str) (line : Nat) (message : Str)
  | invalid (message : Str)

/-! ## Values -/

def normalizeRegistry (crate : UrlCrate) (value : Str) : Except Str Str :=
  match parseHttpTarget crate value with
  | none => .error (lit "registry must be an absolute http:// or https:// URL without credentials")
  | some target =>
      if target.hasQuery || target.hasFragment then
        .error (lit "registry URL must not contain a query or fragment")
      else
        .ok (target.scheme ++ lit "://" ++ target.authority ++ target.path.rdropWhile (· == '/'))

/-- The text between `//` and `:_authToken` in the key of a token. -/
def authScopeText (key : Str) : Option Str :=
  (stripPrefix (lit "//") key).bind fun key =>
    (stripPrefix (lit ":_authToken").reverse key.reverse).map List.reverse

/-- The directory of a path, with its terminal slash. -/
def directoryPrefix (path : Str) : Str :=
  let path := path.rdropWhile (· == '/')
  if path.isEmpty then ['/'] else path ++ ['/']

def parseAuthScope (crate : UrlCrate) (key : Str) : Except Str AuthScope :=
  match authScopeText key with
  | none => .error (lit "invalid auth token key")
  | some raw =>
      if !raw.contains '/' then .error (lit "auth token key must include a host and `/` path")
      else
        match parseHttpTarget crate (lit "https://" ++ raw) with
        | none => .error (lit "invalid host-scoped auth token key")
        | some target =>
            if target.hasQuery || target.hasFragment then
              .error (lit "invalid host-scoped auth token key")
            else .ok ⟨target.authority, directoryPrefix target.path⟩

def validScope (scope : Str) : Bool :=
  scope.head?.any Char.isLower &&
    scope.all fun c => c.isLower || c.isDigit || c == '.' || c == '-' || c == '_'

/-- `str::parse` for an unsigned type of the given width. -/
def parseUnsigned (bits : Nat) (s : Str) : Option Nat :=
  let digits := (stripPrefix ['+'] s).getD s
  if !digits.isEmpty && digits.all Char.isDigit then
    let n := Nat.ofDigitChars 10 digits 0
    if n < 2 ^ bits then some n else none
  else none

def parseNumber (bits : Nat) (value key : Str) (allowZero : Bool) : Except Str Nat :=
  match parseUnsigned bits value with
  | none => .error (key ++ lit " must be a non-negative integer")
  | some parsed =>
      if !allowZero && parsed == 0 then .error (key ++ lit " must be greater than zero")
      else .ok parsed

def parseDuration (value key : Str) : Except Str Duration :=
  (parseNumber 64 value key false).map fun milliseconds => .fromMillis (.ofNat milliseconds)

/-- Replace references to variables; `fuel` bounds their number. -/
def expandReferences (environment : Str → Option Str) : Nat → Str → Except Str Str
  | 0, rest => .ok rest
  | fuel + 1, rest =>
      match splitOnce (lit "$\x7b") rest with
      | none => .ok rest
      | some (before, reference) =>
          match splitOnce (lit "\x7d") reference with
          | none => .error (lit "unterminated environment variable reference")
          | some (name, rest) =>
              if name.isEmpty || !name.all (fun c => c.isAlphanum || c == '_') then
                .error (lit "invalid environment variable reference")
              else
                match environment name with
                | none => .error (lit "environment variable `" ++ name ++ lit "` is not set")
                | some replacement =>
                    (expandReferences environment fuel rest).map fun expanded =>
                      before ++ replacement ++ expanded

def expandEnvironment (environment : Str → Option Str) (value : Str) : Except Str Str :=
  expandReferences environment value.length value

/-! ## Settings -/

def NetworkConfig.applyValue (network : NetworkConfig) (key value : Str) :
    Except Str NetworkConfig :=
  if asciiLower key = lit "fetch-retries" then
    (parseNumber 64 value (lit "fetch-retries") true).map fun n => { network with retries := n }
  else if asciiLower key = lit "fetch-retry-factor" then
    (parseNumber 32 value (lit "fetch-retry-factor") false).map fun n =>
      { network with retryFactor := .ofNat n }
  else if asciiLower key = lit "fetch-retry-mintimeout" then
    (parseDuration value key).map fun d => { network with retryMinTimeout := d }
  else if asciiLower key = lit "fetch-retry-maxtimeout" then
    (parseDuration value key).map fun d => { network with retryMaxTimeout := d }
  else if asciiLower key = lit "fetch-timeout" then
    (parseDuration value key).map fun d => { network with fetchTimeout := d }
  else .ok network

namespace NpmConfig

/-- Insert a token, in place of the one that the scope had. -/
def insertToken (config : NpmConfig) (scope : AuthScope) (token : Str) : NpmConfig :=
  { config with
    authTokens := (scope, token) :: config.authTokens.filter fun entry => entry.1 != scope
    nodup := by
      rw [List.map_cons, List.nodup_cons]
      constructor
      · rw [List.mem_map]
        rintro ⟨entry, hentry, rfl⟩
        simpa using (List.mem_filter.mp hentry).2
      · exact config.nodup.sublist (List.filter_sublist.map _) }

def applyValue (crate : UrlCrate) (config : NpmConfig) (key value : Str) :
    Except Str NpmConfig :=
  if asciiLower key = lit "registry" then
    (normalizeRegistry crate value).map fun registry => { config with registry := registry }
  else
    match (stripPrefix ['@'] key).bind fun key =>
      (stripPrefix (lit ":registry").reverse key.reverse).map List.reverse with
    | some scope =>
        if !validScope scope then .error (lit "invalid scoped registry key")
        else
          (normalizeRegistry crate value).map fun registry =>
            { config with scopedRegistries := config.scopedRegistries.insert scope registry }
    | none =>
        if (authScopeText key).isSome then
          if value.isEmpty then .error (lit "auth token must not be empty")
          else (parseAuthScope crate key).map fun scope => config.insertToken scope value
        else
          (config.network.applyValue key value).map fun network =>
            { config with network := network }

def applyLine (crate : UrlCrate) (environment : Str → Option Str) (path : Str)
    (config : NpmConfig) (numbered : Str × Nat) : Except ConfigError NpmConfig :=
  let line := trim numbered.1
  let invalid := ConfigError.syntaxError path (numbered.2 + 1)
  if line.isEmpty || line.head? == some '#' || line.head? == some ';' then .ok config
  else
    match splitOnce ['='] line with
    | none => .error (invalid (lit "expected `key=value`"))
    | some (rawKey, rawValue) =>
        let key := trim rawKey
        if key.isEmpty then .error (invalid (lit "configuration key is empty"))
        else
          match expandEnvironment environment (trim rawValue) with
          | .error message => .error (invalid message)
          | .ok value => (config.applyValue crate key value).mapError invalid

def applySource (crate : UrlCrate) (environment : Str → Option Str) (config : NpmConfig)
    (path source : Str) : Except ConfigError NpmConfig :=
  (Lines.lines source).zipIdx.foldlM (applyLine crate environment path) config

def validate (config : NpmConfig) : Except ConfigError Unit :=
  if config.network.retryMinTimeout > config.network.retryMaxTimeout then
    .error (.invalid (lit "fetch-retry-mintimeout must not exceed fetch-retry-maxtimeout"))
  else .ok ()

/-- The files in order of precedence; what there is to read of each, `none` if it is missing. -/
def loadPaths (crate : UrlCrate) (environment : Str → Option Str)
    (files : List (Str × Except Str (Option Str))) : Except ConfigError NpmConfig := do
  let config ← files.foldlM (fun config (path, source) =>
    match source with
    | .ok none => .ok config
    | .ok (some source) => config.applySource crate environment path source
    | .error error => .error (.read path error)) NpmConfig.default
  config.validate
  return config

/-! ## What a setting changes -/

theorem authScopeText_eq_some {key raw : Str} (h : authScopeText key = some raw) :
    key = lit "//" ++ raw ++ lit ":_authToken" := by
  unfold authScopeText at h
  obtain ⟨rest, hrest, hraw⟩ := Option.bind_eq_some_iff.mp h
  obtain ⟨back, hback, rfl⟩ := Option.map_eq_some_iff.mp hraw
  have hrev := stripPrefix_eq_some hback
  rw [stripPrefix_eq_some hrest, List.append_assoc]
  congr 1
  rw [← List.reverse_reverse rest, hrev, List.reverse_append, List.reverse_reverse]

theorem authScopeText_key (raw : Str) :
    authScopeText (lit "//" ++ raw ++ lit ":_authToken") = some raw := by
  simp [authScopeText, stripPrefix_append]

section

variable {crate : UrlCrate} {config config' : NpmConfig} {key value : Str}

/-- The setting of a token. -/
theorem applyValue_token (h : (authScopeText key).isSome = true) :
    config.applyValue crate key value =
      if value.isEmpty then .error (lit "auth token must not be empty")
      else (parseAuthScope crate key).map fun scope => config.insertToken scope value := by
  obtain ⟨raw, hraw⟩ := Option.isSome_iff_exists.mp h
  have hslash : key.head? = some '/' := by
    rw [authScopeText_eq_some hraw]
    rfl
  have hregistry : asciiLower key ≠ lit "registry" := by
    intro heq
    have hhead := congrArg List.head? heq
    rw [asciiLower, List.head?_map, hslash] at hhead
    cases hhead
  have hscoped : stripPrefix ['@'] key = none := by
    rcases key with _ | ⟨c, key⟩
    · rfl
    · cases hslash
      rfl
  unfold applyValue
  rw [if_neg hregistry, hscoped, Option.bind_none]
  dsimp only
  rw [if_pos h]

/-- Any other setting leaves the tokens alone, and changes the network settings as a
network setting or not at all. -/
theorem applyValue_other (h : (authScopeText key).isSome = false)
    (hok : config.applyValue crate key value = .ok config') :
    config'.authTokens = config.authTokens ∧
      (config'.network = config.network ∨
        config.network.applyValue key value = .ok config'.network) := by
  unfold applyValue at hok
  split at hok
  · obtain ⟨registry, _, rfl⟩ := Except.map_eq_ok.mp hok
    exact ⟨rfl, .inl rfl⟩
  split at hok
  · split at hok
    · cases hok
    · obtain ⟨registry, _, rfl⟩ := Except.map_eq_ok.mp hok
      exact ⟨rfl, .inl rfl⟩
  · rw [h, if_neg Bool.false_ne_true] at hok
    obtain ⟨network, hnetwork, rfl⟩ := Except.map_eq_ok.mp hok
    exact ⟨rfl, .inr hnetwork⟩

end

/-- Apply settings one after the other. -/
def applySettings (crate : UrlCrate) (config : NpmConfig) (settings : List (Str × Str)) :
    Except Str NpmConfig :=
  settings.foldlM (fun config setting => config.applyValue crate setting.1 setting.2) config

section

variable {crate : UrlCrate} {environment : Str → Option Str} {config config' : NpmConfig}

theorem applySettings_append {config₁ config₂ config₃ : NpmConfig} {a b : List (Str × Str)}
    (ha : config₁.applySettings crate a = .ok config₂)
    (hb : config₂.applySettings crate b = .ok config₃) :
    config₁.applySettings crate (a ++ b) = .ok config₃ := by
  unfold applySettings at ha hb ⊢
  rw [List.foldlM_append, ha]
  exact hb

theorem applyLine_settings {path : Str} {numbered : Str × Nat}
    (h : applyLine crate environment path config numbered = .ok config') :
    ∃ settings, config.applySettings crate settings = .ok config' := by
  unfold applyLine at h
  dsimp only at h
  split at h
  · cases h
    exact ⟨[], rfl⟩
  split at h
  · cases h
  split at h
  · cases h
  split at h
  · cases h
  · rename_i rawKey _ _ _ _ value _
    rcases happly : config.applyValue crate (trim rawKey) value with message | config''
    · rw [happly] at h
      cases h
    · rw [happly] at h
      cases h
      refine ⟨[(trim rawKey, value)], ?_⟩
      rw [applySettings, List.foldlM_cons, happly]
      rfl

theorem applySource_settings {path source : Str}
    (h : config.applySource crate environment path source = .ok config') :
    ∃ settings, config.applySettings crate settings = .ok config' := by
  have hall := Folds.invariant
    (I := fun _ config' => ∃ settings, config.applySettings crate settings = .ok config') h
    ⟨[], rfl⟩ (by
      rintro _ _ _ config₁ config₂ _ ⟨settings, hsettings⟩ hline
      obtain ⟨more, hmore⟩ := applyLine_settings hline
      exact ⟨_, applySettings_append hsettings hmore⟩)
  exact hall

/-- A configuration that is loaded comes from settings, and is validated. -/
theorem loadPaths_settings {files : List (Str × Except Str (Option Str))}
    (h : loadPaths crate environment files = .ok config) :
    (∃ settings, NpmConfig.default.applySettings crate settings = .ok config) ∧
      config.validate = .ok () := by
  unfold loadPaths at h
  obtain ⟨config', hfold, hrest⟩ := Except.bind_eq_ok.mp h
  obtain ⟨_, hvalid, hconfig⟩ := Except.bind_eq_ok.mp hrest
  cases hconfig
  refine ⟨?_, hvalid⟩
  have hall := Folds.invariant
    (I := fun _ config => ∃ settings, NpmConfig.default.applySettings crate settings = .ok config)
    hfold ⟨[], rfl⟩ (by
      rintro _ ⟨path, source⟩ _ config₁ config₂ _ ⟨settings, hsettings⟩ hfile
      rcases source with error | _ | source
      · cases hfile
      · cases hfile
        exact ⟨settings, hsettings⟩
      · obtain ⟨more, hmore⟩ := applySource_settings hfile
        exact ⟨_, applySettings_append hsettings hmore⟩)
  exact hall

end

end NpmConfig

/-! ## Network settings -/

/-- The factor and the bounds of a delay are positive, and the bounds are in order. -/
structure NetworkConfig.Valid (network : NetworkConfig) : Prop where
  factor_pos : 0 < network.retryFactor.toNat
  min_pos : 0 < network.retryMinTimeout.nanos
  min_le_max : network.retryMinTimeout ≤ network.retryMaxTimeout

theorem parseNumber_bounds {bits n : Nat} {value key : Str}
    (h : parseNumber bits value key false = .ok n) : 0 < n ∧ n < 2 ^ bits := by
  unfold parseNumber at h
  split at h
  · cases h
  · rename_i parsed hparsed
    split at h
    · cases h
    · rename_i hzero
      cases h
      constructor
      · simp at hzero
        omega
      · unfold parseUnsigned at hparsed
        dsimp only at hparsed
        split at hparsed
        · split at hparsed
          · rename_i hlt
            cases hparsed
            exact hlt
          · cases hparsed
        · cases hparsed

theorem parseDuration_pos {value key : Str} {d : Duration} (h : parseDuration value key = .ok d) :
    0 < d.nanos := by
  obtain ⟨n, hn, rfl⟩ := Except.map_eq_ok.mp h
  obtain ⟨hpos, hlt⟩ := parseNumber_bounds hn
  show 0 < (UInt64.ofNat n).toNat * 10 ^ 6
  rw [UInt64.toNat_ofNat_of_lt' hlt]
  omega

theorem NetworkConfig.applyValue_pos {network network' : NetworkConfig} {key value : Str}
    (h : network.applyValue key value = .ok network')
    (hfactor : 0 < network.retryFactor.toNat) (hmin : 0 < network.retryMinTimeout.nanos) :
    0 < network'.retryFactor.toNat ∧ 0 < network'.retryMinTimeout.nanos := by
  unfold NetworkConfig.applyValue at h
  split at h
  · obtain ⟨n, _, rfl⟩ := Except.map_eq_ok.mp h
    exact ⟨hfactor, hmin⟩
  split at h
  · obtain ⟨n, hn, rfl⟩ := Except.map_eq_ok.mp h
    obtain ⟨hpos, hlt⟩ := parseNumber_bounds hn
    refine ⟨?_, hmin⟩
    show 0 < (UInt32.ofNat n).toNat
    rwa [UInt32.toNat_ofNat_of_lt' hlt]
  split at h
  · obtain ⟨d, hd, rfl⟩ := Except.map_eq_ok.mp h
    exact ⟨hfactor, parseDuration_pos hd⟩
  split at h
  · obtain ⟨d, _, rfl⟩ := Except.map_eq_ok.mp h
    exact ⟨hfactor, hmin⟩
  split at h
  · obtain ⟨d, _, rfl⟩ := Except.map_eq_ok.mp h
    exact ⟨hfactor, hmin⟩
  · cases h
    exact ⟨hfactor, hmin⟩

/-- The network settings of a configuration that is loaded. -/
theorem NpmConfig.loadPaths_network {crate : UrlCrate} {environment : Str → Option Str}
    {files : List (Str × Except Str (Option Str))} {config : NpmConfig}
    (h : loadPaths crate environment files = .ok config) : config.network.Valid := by
  obtain ⟨⟨settings, hsettings⟩, hvalid⟩ := loadPaths_settings h
  obtain ⟨hfactor, hmin⟩ := Folds.invariant
    (I := fun _ config =>
      0 < config.network.retryFactor.toNat ∧ 0 < config.network.retryMinTimeout.nanos)
    hsettings (by decide) (by
      rintro _ ⟨key, value⟩ _ config₁ config₂ _ ⟨hfactor, hmin⟩ happly
      dsimp only at happly
      by_cases htoken : (authScopeText key).isSome = true
      · rw [applyValue_token htoken] at happly
        split at happly
        · cases happly
        · obtain ⟨scope, _, rfl⟩ := Except.map_eq_ok.mp happly
          exact ⟨hfactor, hmin⟩
      · rcases (applyValue_other (Bool.eq_false_iff.mpr htoken) happly).2 with heq | hnetwork
        · rw [heq]
          exact ⟨hfactor, hmin⟩
        · exact NetworkConfig.applyValue_pos hnetwork hfactor hmin)
  refine ⟨hfactor, hmin, ?_⟩
  unfold validate at hvalid
  split at hvalid
  · cases hvalid
  · rename_i hle
    exact not_lt.mp hle

end Bpm
