import Bpm.Lifecycle.Runner

/-!
# Every phase once

What a pass starts for one package are its declared phases, each once and in order, up
to the first that fails.  The exception is a package whose image fails to be published
after the build: its scripts run a second time.
-/

namespace Bpm
namespace Lifecycle

open Text DerivedStore

variable {σ δ ε α : Type} {host : LifecycleHost σ δ} {input : LifecycleInput}

/-- The phases of one package: each once, in order, none after a failure. -/
structure Once (events : List Started) : Prop where
  once : (events.map Started.phase).Nodup
  ordered : (events.map Started.phase).Sublist phases
  stops : ∀ first event rest, events = first ++ event :: rest → rest ≠ [] → event.code = 0

/-- What was started for the package at a place of the lockfile. -/
def eventsOf (index : Nat) (events : List Started) : List Started :=
  events.filter fun e => e.package == index

def Orderly (events : List Started) : Prop := ∀ index, Once (eventsOf index events)

theorem phases_nodup : phases.Nodup := by decide

theorem once_nil : Once [] := by
  refine ⟨List.nodup_nil, List.nil_sublist _, fun first event rest h => ?_⟩
  simp at h

/-! ## One attempt at the phases of a package -/

/-- The phases are started in order, up to the first that fails. -/
structure Attempt (index : Nat) (names : List Str) (events : List Started) : Prop where
  package : ∀ e ∈ events, e.package = index
  started : events.map Started.phase <+: names
  stops : ∀ first event rest, events = first ++ event :: rest → rest ≠ [] → event.code = 0

theorem declared_sublist (scripts : Map Str) :
    ((declared scripts).map Prod.fst).Sublist phases := by
  unfold declared
  generalize phases = names
  induction names with
  | nil => exact List.nil_sublist _
  | cons phase rest ih =>
    rw [List.filterMap_cons]
    cases hscript : scripts[phase]? with
    | none => exact ih.cons phase
    | some command => exact ih.cons_cons phase

theorem Attempt.once {index : Nat} {names : List Str} {events : List Started}
    (h : Attempt index names events) (hnames : names.Sublist phases) : Once events where
  once := phases_nodup.sublist (h.started.sublist.trans hnames)
  ordered := h.started.sublist.trans hnames
  stops := h.stops

/-- A run over the phases: what is started, and that all of it succeeds when the run does. -/
theorem runPhases_spec (index : Nat) (pkg : PackageEntry) (cwd : Str)
    (record : LifecycleOutcome → Int → Pass σ → Pass σ) (failure : Str → Int → ε)
    (hrecord : ∀ outcome code s, (record outcome code s).started = s.started)
    (todo : List (Str × Str)) (s : Pass σ) :
    ∃ events, (runPhases host index pkg cwd record failure todo s).2.started =
        s.started ++ events ∧ Attempt index (todo.map Prod.fst) events ∧
      (todo ≠ [] → events ≠ []) ∧
      ((runPhases host index pkg cwd record failure todo s).1 = .ok () →
        events.map Started.phase = todo.map Prod.fst) := by
  induction todo generalizing s with
  | nil =>
    exact ⟨[], (List.append_nil _).symm, ⟨nofun, List.nil_prefix, fun _ _ _ h => by simp at h⟩,
      fun h => absurd rfl h, fun _ => rfl⟩
  | cons step rest ih =>
    obtain ⟨phase, command⟩ := step
    obtain ⟨s₁, code, hscript, hstarted⟩ : ∃ s₁ code,
        runScript (ε := ε) host index pkg cwd phase command s = (.ok code, s₁) ∧
          s₁.started = s.started ++ [⟨index, phase, code⟩] := ⟨_, _, rfl, rfl⟩
    have hmodified : ∀ f : Unit → Run ε (Pass σ) Unit,
        (Run.modify (record ⟨pkg.name, phase, command, true, some code⟩ code) >>= f) s₁ =
          f () (record ⟨pkg.name, phase, command, true, some code⟩ code s₁) := fun _ => rfl
    rw [runPhases, Run.bind_ok hscript, hmodified]
    by_cases hcode : code = 0
    · rw [if_neg (not_not.mpr hcode)]
      obtain ⟨events, hrun, hattempt, _, hall⟩ :=
        ih (record ⟨pkg.name, phase, command, true, some code⟩ code s₁)
      refine ⟨⟨index, phase, code⟩ :: events, ?_, ⟨?_, ?_, ?_⟩, fun _ => by simp, fun hok => ?_⟩
      · rw [hrun, hrecord, hstarted, List.append_assoc, List.singleton_append]
      · intro e he
        rcases List.mem_cons.mp he with rfl | he
        · rfl
        · exact hattempt.package e he
      · rw [List.map_cons, List.map_cons]
        exact (List.prefix_cons_inj phase).mpr hattempt.started
      · intro first event later h hlater
        cases first with
        | nil => rw [← (List.cons.inj h).1]; exact hcode
        | cons head tail => exact hattempt.stops tail event later (List.cons.inj h).2 hlater
      · rw [List.map_cons, List.map_cons, hall hok]
    · rw [if_pos hcode]
      refine ⟨[⟨index, phase, code⟩], (hrecord _ _ _).trans hstarted, ⟨?_, ?_, ?_⟩,
        fun _ => by simp, nofun⟩
      · simp
      · simp
      · intro first event later h hlater
        cases first with
        | nil => exact absurd (List.cons.inj h).2.symm hlater
        | cons head tail => simp at h

/-! ## What starts nothing -/

theorem outside_silent (m : Run ε σ α) : Silent Pass.started (outside m) :=
  fun _ => Run.Keeps.zoom fun _ _ ht => ht

theorem modify_silent {f : Pass σ → Pass σ} (h : ∀ s, (f s).started = s.started) :
    Silent Pass.started (Run.modify f : Run ε (Pass σ) Unit) :=
  fun _ => Run.Keeps.modify (fun s hs => (h s).trans hs) trivial

theorem inPass_silent (host : DerivedHost σ δ) : SilentHost (inPass host) Pass.started where
  acquireLock _ := outside_silent _
  releaseLock _ _ := rfl
  validatePublished _ _ := outside_silent _
  accessDerived _ := outside_silent _
  createStaging _ := outside_silent _
  dropStaging _ _ := rfl
  copyTree _ _ := outside_silent _
  validateTree _ := outside_silent _
  treeIdentity _ := outside_silent _
  writeMetadata _ _ _ := outside_silent _
  sealTreeContents _ := outside_silent _
  createParent _ := outside_silent _
  rename _ _ := outside_silent _
  sealPath _ := outside_silent _
  recordFor _ := outside_silent _
  publishDerived _ := outside_silent _

theorem isolateShared_silent (image entry : Str) :
    Silent Pass.started (isolateShared host image entry) := by
  intro c
  refine Run.Keeps.get_bind fun s => ?_
  split
  · exact outside_silent _ c
  · exact Run.Keeps.pure trivial

theorem provideNodeGyp_started (scripts : Map Str) (s : Pass σ) :
    (provideNodeGyp host scripts s).started = s.started := by
  unfold provideNodeGyp
  split <;> rfl

theorem lifecycleScripts_silent (id : ArtifactId) :
    Silent Pass.started (lifecycleScripts host id) := by
  refine (outside_silent _).bind fun scripts =>
    (modify_silent (provideNodeGyp_started scripts)).bind fun _ => ?_
  split
  · exact Silent.pure _
  · exact (modify_silent fun _ => rfl).bind fun _ => Silent.pure _

theorem settleDerived_silent (pkg : PackageEntry) (scripts : Map Str) (entry : Str)
    (result : Except DerivedError (EnsureDerived δ)) :
    Silent Pass.started (settleDerived host pkg scripts entry result) := by
  rcases result with (_ | _) | (_ | _ | _)
  · exact Silent.pure _
  · exact fun _ => Run.Keeps.fail
  · exact (outside_silent _).bind fun _ => (modify_silent fun _ => rfl).bind fun _ => Silent.pure _
  · exact (modify_silent fun _ => rfl).bind fun _ => (modify_silent fun _ => rfl).bind fun _ =>
      Silent.pure _
  · exact Silent.pure _

/-! ## The callback and the ordinary execution -/

/-- A computation that makes one attempt at the phases, a full one if it succeeds. -/
def Starts (index : Nat) (names : List Str) (m : Run ε (Pass σ) Unit) : Prop :=
  ∀ s, ∃ events, (m s).2.started = s.started ++ events ∧ Attempt index names events ∧
    ((m s).1 = .ok () → events.map Started.phase = names)

theorem attempt_nil (index : Nat) (names : List Str) : Attempt index names [] :=
  ⟨nofun, List.nil_prefix, fun _ _ _ h => by simp at h⟩

theorem Starts.after {index : Nat} {names : List Str} {m : Run ε (Pass σ) α}
    {f : α → Run ε (Pass σ) Unit} (hm : Silent Pass.started m)
    (hf : ∀ a, Starts index names (f a)) : Starts index names (m >>= f) := by
  intro s
  cases hrun : m s with
  | mk r s₁ =>
    have hsame : s₁.started = s.started := hm.eq hrun
    cases r with
    | error e =>
      rw [Run.bind_error hrun]
      exact ⟨[], by rw [hsame, List.append_nil], attempt_nil index names, nofun⟩
    | ok a =>
      rw [Run.bind_ok hrun]
      obtain ⟨events, hstarted, hattempt, hall⟩ := hf a s₁
      exact ⟨events, by rw [hstarted, hsame], hattempt, hall⟩

theorem Starts.before {index : Nat} {names : List Str} {m : Run ε (Pass σ) Unit}
    {f : Unit → Run ε (Pass σ) Unit} (hm : Starts index names m)
    (hf : ∀ a, Silent Pass.started (f a)) : Starts index names (m >>= f) := by
  intro s
  obtain ⟨events, hstarted, hattempt, hall⟩ := hm s
  cases hrun : m s with
  | mk r s₁ =>
    rw [hrun] at hstarted hall
    cases r with
    | error e =>
      rw [Run.bind_error hrun]
      exact ⟨events, hstarted, hattempt, nofun⟩
    | ok a =>
      rw [Run.bind_ok hrun]
      refine ⟨events, ?_, hattempt, fun _ => hall rfl⟩
      have hsame : (f a s₁).2.started = s₁.started := (hf a).eq rfl
      rw [hsame]
      exact hstarted

theorem Starts.cleanup {index : Nat} {names : List Str} {m : Run ε (Pass σ) Unit}
    {release : Pass σ → Pass σ} (hm : Starts index names m)
    (hrelease : ∀ s, (release s).started = s.started) :
    Starts index names (Run.cleanup release m) := by
  intro s
  obtain ⟨events, hstarted, hattempt, hall⟩ := hm s
  exact ⟨events, (hrelease _).trans hstarted, hattempt, hall⟩

theorem runPhases_starts (index : Nat) (pkg : PackageEntry) (cwd : Str)
    (record : LifecycleOutcome → Int → Pass σ → Pass σ) (failure : Str → Int → ε)
    (hrecord : ∀ outcome code s, (record outcome code s).started = s.started)
    (todo : List (Str × Str)) :
    Starts index (todo.map Prod.fst) (runPhases host index pkg cwd record failure todo) := by
  intro s
  obtain ⟨events, hstarted, hattempt, _, hall⟩ :=
    runPhases_spec index pkg cwd record failure hrecord todo s
  exact ⟨events, hstarted, hattempt, hall⟩

/-- The names of the phases that a package declares. -/
def declaredNames (scripts : Map Str) : List Str := (declared scripts).map Prod.fst

theorem buildInEntry_starts (host : LifecycleHost σ δ) (index : Nat) (pkg : PackageEntry) (scripts : Map Str)
    (image entry staging : Str) :
    Starts index (declaredNames scripts)
      (buildInEntry host index pkg scripts image entry staging) := by
  have hisolate : Silent Pass.started
      (Run.mapError (sandboxIoFailure pkg) (isolateShared host image entry)) :=
    fun c => (isolateShared_silent image entry c).mapError
  have hsnapshot : Silent Pass.started
      (Run.mapError (sandboxIoFailure pkg) (outside (host.snapshotPkgTree entry staging))) :=
    fun c => (outside_silent _ c).mapError
  refine Starts.after hisolate fun _ => ?_
  exact (runPhases_starts index pkg entry recordLocal _ (fun _ _ _ => rfl) (declared scripts)).before
    fun _ => hsnapshot

theorem runIn_starts (index : Nat) (pkg : PackageEntry) (scripts : Map Str) (cwd : Str) :
    Starts index (declaredNames scripts) (runIn host index pkg scripts cwd) :=
  runPhases_starts index pkg cwd recordPhase _ (fun _ _ _ => rfl) (declared scripts)

/-- Whatever the ordinary execution does, it is one attempt. -/
theorem runInPlace_attempt (host : LifecycleHost σ δ) (input : LifecycleInput) (index : Nat)
    (pkg : PackageEntry) (id : ArtifactId) (scripts : Map Str) (s : Pass σ) :
    ∃ events, (runInPlace host input index pkg id scripts s).2.started = s.started ++ events ∧
      Attempt index (declaredNames scripts) events := by
  have hnothing : ∃ events : List Started, s.started = s.started ++ events ∧
      Attempt index (declaredNames scripts) events :=
    ⟨[], (List.append_nil _).symm, attempt_nil _ _⟩
  have hweaken : ∀ {m : Run LifecycleError (Pass σ) Unit}, Starts index (declaredNames scripts) m →
      ∃ events, (m s).2.started = s.started ++ events ∧
        Attempt index (declaredNames scripts) events := by
    intro m hm
    obtain ⟨events, hstarted, hattempt, _⟩ := hm s
    exact ⟨events, hstarted, hattempt⟩
  unfold runInPlace
  cases input.volumePath with
  | some vol =>
    have hget : ∀ f : Pass σ → Run LifecycleError (Pass σ) Unit, (Run.get >>= f) s = f s s :=
      fun _ => rfl
    simp only [hget]
    split
    · refine hweaken (Starts.after (isolateShared_silent _ _) fun _ =>
        Starts.after (modify_silent fun _ => rfl) fun _ => runIn_starts _ _ _ _)
    · exact hnothing
  | none =>
    refine hweaken (Starts.after (outside_silent _) fun dir => Starts.cleanup ?_ fun _ => rfl)
    exact Starts.after (outside_silent _) fun _ => runIn_starts _ _ _ _

/-- In an entry that is there and can be given files of its own, a script is started. -/
theorem runInPlace_starts_some (index : Nat) {pkg : PackageEntry} {id : ArtifactId}
    {scripts : Map Str} {s s₁ : Pass σ} {vol : Str} (hvolume : input.volumePath = some vol)
    (hscripts : declared scripts ≠ []) (hdir : host.isDir (join vol pkg.path) s.world = true)
    (hisolate : isolateShared host (host.imagePath id) (join vol pkg.path) s = (.ok (), s₁)) :
    ∃ events, (runInPlace host input index pkg id scripts s).2.started = s.started ++ events ∧
      Attempt index (declaredNames scripts) events ∧ events ≠ [] := by
  obtain ⟨events, hstarted, hattempt, hsome, _⟩ := runPhases_spec index pkg (join vol pkg.path)
    recordPhase (LifecycleError.requiredScriptFailure pkg.name) (fun _ _ _ => rfl)
    (declared scripts) (addDerivedPath pkg.path s₁)
  have hrun : runInPlace host input index pkg id scripts s =
      runIn host index pkg scripts (join vol pkg.path) (addDerivedPath pkg.path s₁) := by
    unfold runInPlace
    rw [hvolume]
    have hget : ∀ f : Pass σ → Run LifecycleError (Pass σ) Unit, (Run.get >>= f) s = f s s :=
      fun _ => rfl
    simp only [hget, hdir, if_true]
    rw [Run.bind_ok hisolate]
    rfl
  refine ⟨events, ?_, hattempt, hsome hscripts⟩
  rw [hrun]
  have hsame : s₁.started = s.started := (isolateShared_silent _ _).eq hisolate
  rw [← hsame]
  exact hstarted

/-- In an entry that is gone or cannot be given files of its own, no script is started. -/
theorem runInPlace_starts_none {index : Nat} {pkg : PackageEntry} {id : ArtifactId}
    {scripts : Map Str} {s : Pass σ} {vol : Str} (hvolume : input.volumePath = some vol)
    (h : ∀ s', host.isDir (join vol pkg.path) s.world = true →
      isolateShared host (host.imagePath id) (join vol pkg.path) s ≠ (.ok (), s')) :
    (runInPlace host input index pkg id scripts s).2.started = s.started := by
  unfold runInPlace
  rw [hvolume]
  have hget : ∀ f : Pass σ → Run LifecycleError (Pass σ) Unit, (Run.get >>= f) s = f s s :=
    fun _ => rfl
  simp only [hget]
  split
  · rename_i hdir
    cases hisolate : isolateShared host (host.imagePath id) (join vol pkg.path) s with
    | mk r s₁ =>
      cases r with
      | ok _ => exact absurd hisolate (h s₁ hdir)
      | error e =>
        rw [Run.bind_error hisolate]
        exact (isolateShared_silent _ _).eq hisolate
  · rfl

/-! ## One package -/

section Package

variable (host input) (derived : Option RuntimeIdentity) (package : PackageEntry × Nat)

/-- The image of the package is built, a step of the store after the build fails, and the
entry is still a directory that can be given files of its own. -/
inductive ScriptsRerun (id : ArtifactId) (scripts : Map Str) (s : Pass σ) : Prop
  | intro {vol : Str} {runtime : RuntimeIdentity} {s₁ s₂ : Pass σ}
      (hvolume : input.volumePath = some vol) (hderived : derived = some runtime)
      (hdir : host.isDir (join vol package.1.path) s.world = true)
      (hfails : FailsAfterBuild (inPass host.toDerivedHost)
        (derivedInputs host input package.1 id scripts runtime) (host.imagePath id)
        (buildInEntry host package.2 package.1 scripts (host.imagePath id)
          (join vol package.1.path)) { s with localOutcomes := [] } s₁)
      (hagain : host.isDir (join vol package.1.path) s₁.world = true)
      (hisolate : isolateShared host (host.imagePath id) (join vol package.1.path) s₁ = (.ok (), s₂))

/-- The package is one with scripts, and they are run again after a build. -/
def Reruns (s : Pass σ) : Prop :=
  ∃ id scripts s₁, artifactOf input package.2 package.1 = some id ∧
    lifecycleScripts host id s = (.ok (some scripts), s₁) ∧
    ScriptsRerun host input derived package id scripts s₁

end Package

variable {derived : Option RuntimeIdentity} {package : PackageEntry × Nat} {id : ArtifactId}
  {scripts : Map Str}

/-- A build that is followed by a failure of the store has started every phase. -/
theorem started_of_failsAfterBuild {inputs : DerivedInputs} {image entry : Str} {s s' : Pass σ}
    (h : FailsAfterBuild (inPass host.toDerivedHost) inputs image
      (buildInEntry host package.2 package.1 scripts image entry) s s') :
    ∃ events, s'.started = s.started ++ events ∧
      Attempt package.2 (declaredNames scripts) events ∧
      events.map Started.phase = declaredNames scripts := by
  have hhost := inPass_silent host.toDerivedHost
  cases h with
  | @intro staging message s₁ s₂ s₃ s₄ s₅ hlock hmiss hstaging hcopy hbuild hpublish =>
    have h₁ : s₁.started = s.started := (hhost.acquireLock _).eq hlock
    have h₂ : s₂.started = s₁.started := (hhost.createStaging _).eq hstaging
    have h₃ : s₃.started = s₂.started := (hhost.copyTree _ _).eq hcopy
    have h₅ : s₅.started = s₄.started := (publish_silent hhost _ _ _).eq hpublish
    obtain ⟨events, hstarted, hattempt, hall⟩ :=
      buildInEntry_starts host package.2 package.1 scripts image entry (stagingImage staging) s₃
    rw [hbuild] at hstarted hall
    refine ⟨events, ?_, hattempt, hall rfl⟩
    calc s₅.started = s₄.started := h₅
      _ = s₃.started ++ events := hstarted
      _ = s.started ++ events := by rw [h₃, h₂, h₁]

theorem once_of_attempt {events : List Started}
    (h : Attempt package.2 (declaredNames scripts) events) : Once events :=
  h.once (declared_sublist scripts)

/-- A second attempt starts a phase again. -/
theorem not_once_append {first second : List Started}
    (hfirst : first.map Started.phase = declaredNames scripts)
    (hsecond : Attempt package.2 (declaredNames scripts) second) (hne : second ≠ []) :
    ¬Once (first ++ second) := by
  intro h
  obtain ⟨event, rest, rfl⟩ := List.exists_cons_of_ne_nil hne
  have hmem : event.phase ∈ declaredNames scripts :=
    hsecond.started.subset (by rw [List.map_cons]; exact List.mem_cons_self)
  have hnodup := h.once
  rw [List.map_append, hfirst, List.nodup_append] at hnodup
  exact hnodup.2.2 event.phase hmem event.phase
    (by rw [List.map_cons]; exact List.mem_cons_self) rfl

/-- What follows the store of derived images. -/
theorem runScripts_eq {vol : Str} {runtime : RuntimeIdentity} {s s₁ : Pass σ}
    {r : Except DerivedError (EnsureDerived δ)} (hvolume : input.volumePath = some vol)
    (hderived : derived = some runtime)
    (hdir : host.isDir (join vol package.1.path) s.world = true)
    (hensure : ensureDerived host input package.2 package.1 id scripts runtime
      (join vol package.1.path) { s with localOutcomes := [] } = (r, s₁)) :
    runScripts host input derived package id scripts s =
      (settleDerived host package.1 scripts (join vol package.1.path) r >>= fun done =>
        if done then pure () else runInPlace host input package.2 package.1 id scripts) s₁ := by
  have hget : ∀ f : Pass σ → Run LifecycleError (Pass σ) Bool, (Run.get >>= f) s = f s s :=
    fun _ => rfl
  have hderivedPath : derivedPath host input package.2 package.1 id scripts runtime
      (join vol package.1.path) s =
        settleDerived host package.1 scripts (join vol package.1.path) r s₁ := by
    unfold derivedPath
    have hcleared : (Run.modify fun s => { s with localOutcomes := [] } :
        Run LifecycleError (Pass σ) Unit) s = (.ok (), { s with localOutcomes := [] }) := rfl
    rw [hget, if_pos hdir, Run.bind_ok hcleared, Run.bind_ok (Run.attempt_eq hensure)]
  unfold runScripts
  rw [hvolume, hderived]
  change (derivedPath host input package.2 package.1 id scripts runtime
    (join vol package.1.path) >>= _) s = _
  rw [Run.bind_apply, Run.bind_apply, hderivedPath]

/-- A package that the store has settled starts nothing more. -/
theorem settled_started {entry : Str} {outcome : EnsureDerived δ} (hskipped : outcome ≠ .skipped)
    (s : Pass σ) :
    ((settleDerived host package.1 scripts entry (.ok outcome) >>= fun done =>
      if done then pure () else runInPlace host input package.2 package.1 id scripts) s).2.started =
      s.started := by
  have hdone : Run.Keeps (fun t => t.started = s.started) (· = true)
      (settleDerived host package.1 scripts entry (.ok outcome)) := by
    cases outcome with
    | skipped => exact absurd rfl hskipped
    | hit reference =>
      refine Run.Keeps.bind (outside_silent _ _) fun _ _ => ?_
      refine Run.Keeps.bind (modify_silent (by exact fun _ => rfl) _) fun _ _ => ?_
      exact Run.Keeps.pure rfl
    | built reference =>
      refine Run.Keeps.bind (modify_silent (by exact fun _ => rfl) _) fun _ _ => ?_
      refine Run.Keeps.bind (modify_silent (by exact fun _ => rfl) _) fun _ _ => ?_
      exact Run.Keeps.pure rfl
  have hafter : Run.Keeps (fun t => t.started = s.started) (fun _ => True)
      (settleDerived host package.1 scripts entry (.ok outcome) >>= fun done =>
        if done then pure () else runInPlace host input package.2 package.1 id scripts) :=
    hdone.bind fun done hdone => by
      rw [hdone]
      exact Run.Keeps.pure trivial
  exact (hafter s rfl).1

/-- Without a failure of the store after a build, the package has one attempt. -/
theorem runScripts_attempt (s : Pass σ)
    (h : ¬ScriptsRerun host input derived package id scripts s) :
    ∃ events, (runScripts host input derived package id scripts s).2.started =
      s.started ++ events ∧ Attempt package.2 (declaredNames scripts) events := by
  have hplace := runInPlace_attempt host input package.2 package.1 id scripts
  cases hvolume : input.volumePath with
  | none =>
    have hrun : runScripts host input derived package id scripts s =
        runInPlace host input package.2 package.1 id scripts s := by
      unfold runScripts
      rw [hvolume]
      rfl
    rw [hrun]
    exact hplace s
  | some vol =>
  cases hderived : derived with
  | none =>
    have hrun : runScripts host input none package id scripts s =
        runInPlace host input package.2 package.1 id scripts s := by
      unfold runScripts
      rw [hvolume]
      rfl
    rw [hrun]
    exact hplace s
  | some runtime =>
  rw [hderived] at h
  by_cases hdir : host.isDir (join vol package.1.path) s.world = true
  · cases hensure : ensureDerived host input package.2 package.1 id scripts runtime
      (join vol package.1.path) { s with localOutcomes := [] } with
    | mk r s₁ =>
    rw [runScripts_eq hvolume rfl hdir hensure]
    have hcase := ensured (inPass_silent host.toDerivedHost) hensure
    have hunsettled : ∀ {message : Str}, (settleDerived host package.1 scripts
        (join vol package.1.path) (.error (.store message)) >>= fun done =>
          if done then pure () else runInPlace host input package.2 package.1 id scripts) s₁ =
        runInPlace host input package.2 package.1 id scripts s₁ := rfl
    cases hcase with
    | unbuilt hobs hskipped hsandbox =>
      rcases r with (message | failure) | outcome
      · rw [hunsettled]
        obtain ⟨events, hstarted, hattempt⟩ := hplace s₁
        exact ⟨events, by rw [hstarted, hobs], hattempt⟩
      · exact absurd rfl (hsandbox failure)
      · refine ⟨[], ?_, attempt_nil _ _⟩
        have hne : outcome ≠ .skipped := fun heq => hskipped (heq ▸ rfl)
        rw [settled_started hne, List.append_nil]
        exact hobs
    | failed hbefore hbuild hobs =>
      obtain ⟨events, hstarted, hattempt, _⟩ := buildInEntry_starts host package.2
        package.1 scripts (host.imagePath id) (join vol package.1.path) _ _
      rw [hbuild, hbefore] at hstarted
      exact ⟨events, hobs.trans hstarted, hattempt⟩
    | published hbefore hbuild hobs hskipped =>
      obtain ⟨events, hstarted, hattempt, _⟩ := buildInEntry_starts host package.2
        package.1 scripts (host.imagePath id) (join vol package.1.path) _ _
      rw [hbuild, hbefore] at hstarted
      refine ⟨events, ?_, hattempt⟩
      rw [settled_started hskipped]
      exact hobs.trans hstarted
    | unpublished hbefore hbuild hobs hfails =>
      obtain ⟨events, hstarted, hattempt, _⟩ := started_of_failsAfterBuild hfails
      refine ⟨events, ?_, hattempt⟩
      rw [hunsettled, runInPlace_starts_none hvolume fun s' hagain hisolate =>
        h (.intro hvolume rfl hdir hfails hagain hisolate)]
      exact hstarted
  · have hrun : runScripts host input (some runtime) package id scripts s =
        runInPlace host input package.2 package.1 id scripts s := by
      have hskip : derivedPath host input package.2 package.1 id scripts runtime
          (join vol package.1.path) s = (.ok false, s) := by
        unfold derivedPath
        rw [Run.bind_ok (show Run.get s = (.ok s, s) from rfl), if_neg hdir]
        rfl
      unfold runScripts
      rw [hvolume]
      exact Run.bind_ok hskip
    rw [hrun]
    exact hplace s

theorem runScripts_rerun {s : Pass σ} (hdeclared : declared scripts ≠ [])
    (h : ScriptsRerun host input derived package id scripts s) :
    ∃ first second, (runScripts host input derived package id scripts s).2.started =
      s.started ++ (first ++ second) ∧ Attempt package.2 (declaredNames scripts) first ∧
      first.map Started.phase = declaredNames scripts ∧
      Attempt package.2 (declaredNames scripts) second ∧ second ≠ [] := by
  cases h with
  | @intro vol runtime s₁ s₂ hvolume hderived hdir hfails hagain hisolate =>
    obtain ⟨message, hensure⟩ := ensure_of_failsAfterBuild hfails
    obtain ⟨first, hfirst, hattempt, hall⟩ := started_of_failsAfterBuild hfails
    obtain ⟨second, hsecond, hattempt', hne⟩ :=
      runInPlace_starts_some package.2 hvolume hdeclared hagain hisolate
    refine ⟨first, second, ?_, hattempt, hall, hattempt', hne⟩
    rw [runScripts_eq hvolume hderived hdir hensure,
      Run.bind_ok (show settleDerived host package.1 scripts (join vol package.1.path)
        (.error (.store message)) s₁ = (.ok false, s₁) from rfl), ← List.append_assoc, ← hfirst]
    exact hsecond

theorem lifecycleScripts_declared {s s₁ : Pass σ}
    (h : lifecycleScripts host id s = (.ok (some scripts), s₁)) : declared scripts ≠ [] := by
  unfold lifecycleScripts at h
  obtain ⟨found, _, _, h⟩ := Run.bind_eq_ok.mp h
  obtain ⟨_, _, _, h⟩ := Run.bind_eq_ok.mp h
  split at h
  · cases h
  · rename_i hdeclared
    obtain ⟨_, _, _, h⟩ := Run.bind_eq_ok.mp h
    cases h
    intro hnil
    rw [hnil] at hdeclared
    exact hdeclared rfl

/-- What a package starts is its own, and every phase once unless its scripts run again. -/
theorem runPackage_spec (host : LifecycleHost σ δ) (input : LifecycleInput)
    (derived : Option RuntimeIdentity) (package : PackageEntry × Nat) (s : Pass σ) :
    ∃ events, (runPackage host input derived package s).2.started = s.started ++ events ∧
      (∀ e ∈ events, e.package = package.2) ∧
      (Once events ↔ ¬Reruns host input derived package s) := by
  have hquiet : (∀ id scripts s₁, artifactOf input package.2 package.1 = some id →
      lifecycleScripts host id s ≠ (.ok (some scripts), s₁)) →
      (runPackage host input derived package s).2.started = s.started →
      ∃ events, (runPackage host input derived package s).2.started = s.started ++ events ∧
        (∀ e ∈ events, e.package = package.2) ∧
        (Once events ↔ ¬Reruns host input derived package s) := by
    intro hnone hstarted
    refine ⟨[], by rw [hstarted, List.append_nil], nofun, fun _ => ?_, fun _ => once_nil⟩
    rintro ⟨id, scripts, s₁, hartifact, hscripts, _⟩
    exact hnone id scripts s₁ hartifact hscripts
  cases hartifact : artifactOf input package.2 package.1 with
  | none =>
    refine hquiet (fun id scripts s₁ h => ?_) ?_
    · rw [hartifact] at h
      cases h
    · unfold runPackage
      rw [hartifact]
      rfl
  | some id =>
  cases hscripts : lifecycleScripts host id s with
  | mk r s₁ =>
  have hsame : s₁.started = s.started := (lifecycleScripts_silent id).eq hscripts
  rcases r with e | (_ | scripts)
  · refine hquiet (fun id' scripts s₂ h hcontra => ?_) ?_
    · rw [hartifact] at h
      cases h
      rw [hscripts] at hcontra
      cases hcontra
    · unfold runPackage
      rw [hartifact]
      change ((lifecycleScripts host id >>= _) s).2.started = _
      rw [Run.bind_error hscripts]
      exact hsame
  · refine hquiet (fun id' scripts s₂ h hcontra => ?_) ?_
    · rw [hartifact] at h
      cases h
      rw [hscripts] at hcontra
      cases hcontra
    · unfold runPackage
      rw [hartifact]
      change ((lifecycleScripts host id >>= _) s).2.started = _
      rw [Run.bind_ok hscripts]
      exact hsame
  · have hpackage : runPackage host input derived package s =
        runScripts host input derived package id scripts s₁ := by
      unfold runPackage
      rw [hartifact]
      exact Run.bind_ok hscripts
    have hreruns : Reruns host input derived package s ↔
        ScriptsRerun host input derived package id scripts s₁ := by
      constructor
      · rintro ⟨id', scripts', s₂, hartifact', hscripts', hrerun⟩
        rw [hartifact] at hartifact'
        cases hartifact'
        rw [hscripts] at hscripts'
        cases hscripts'
        exact hrerun
      · exact fun h => ⟨id, scripts, s₁, hartifact, hscripts, h⟩
    rw [hpackage, hreruns, ← hsame]
    by_cases hrerun : ScriptsRerun host input derived package id scripts s₁
    · obtain ⟨first, second, hstarted, hfirst, hall, hsecond, hne⟩ :=
        runScripts_rerun (lifecycleScripts_declared hscripts) hrerun
      refine ⟨first ++ second, hstarted, fun e he => ?_, ?_⟩
      · rcases List.mem_append.mp he with he | he
        · exact hfirst.package e he
        · exact hsecond.package e he
      · exact iff_of_false (not_once_append hall hsecond hne) (not_not.mpr hrerun)
    · obtain ⟨events, hstarted, hattempt⟩ := runScripts_attempt s₁ hrerun
      exact ⟨events, hstarted, hattempt.package,
        iff_of_true (once_of_attempt hattempt) hrerun⟩

/-! ## A pass -/

/-- A package that a pass comes to, and the state in which it does. -/
inductive Reached (host : LifecycleHost σ δ) (input : LifecycleInput)
    (derived : Option RuntimeIdentity) :
    List (PackageEntry × Nat) → Pass σ → PackageEntry × Nat → Pass σ → Prop
  | here {package : PackageEntry × Nat} {rest : List (PackageEntry × Nat)} {s : Pass σ} :
      Reached host input derived (package :: rest) s package s
  | next {package other : PackageEntry × Nat} {rest : List (PackageEntry × Nat)}
      {s s₁ t : Pass σ} (hrun : runPackage host input derived package s = (.ok (), s₁))
      (hreached : Reached host input derived rest s₁ other t) :
      Reached host input derived (package :: rest) s other t

theorem orderly_append {before events : List Started} {index : Nat}
    (hfresh : ∀ e ∈ before, e.package ≠ index) (hown : ∀ e ∈ events, e.package = index) :
    Orderly (before ++ events) ↔ Orderly before ∧ Once events := by
  have hbefore : eventsOf index before = [] := by
    refine List.filter_eq_nil_iff.mpr fun e he => ?_
    simpa using hfresh e he
  have hevents : eventsOf index events = events := by
    refine List.filter_eq_self.mpr fun e he => ?_
    simpa using hown e he
  have hother : ∀ other, other ≠ index → eventsOf other events = [] := by
    intro other hne
    refine List.filter_eq_nil_iff.mpr fun e he => ?_
    simpa [hown e he] using hne.symm
  have hsplit : ∀ other, eventsOf other (before ++ events) =
      eventsOf other before ++ eventsOf other events := fun other => List.filter_append ..
  constructor
  · intro h
    constructor
    · intro other
      by_cases hother' : other = index
      · rw [hother', hbefore]
        exact once_nil
      · have honce := h other
        rwa [hsplit, hother other hother', List.append_nil] at honce
    · have honce := h index
      rwa [hsplit, hbefore, hevents, List.nil_append] at honce
  · rintro ⟨hold, hnew⟩ other
    rw [hsplit]
    by_cases hother' : other = index
    · rw [hother', hbefore, hevents]
      exact hnew
    · rw [hother other hother', List.append_nil]
      exact hold other

/-- Package after package. -/
theorem forEach_orderly (host : LifecycleHost σ δ) (input : LifecycleInput)
    (derived : Option RuntimeIdentity) {packages : List (PackageEntry × Nat)}
    (hnodup : (packages.map Prod.snd).Nodup) (s : Pass σ)
    (hfresh : ∀ e ∈ s.started, e.package ∉ packages.map Prod.snd) :
    Orderly (Run.forEach (runPackage host input derived) packages s).2.started ↔
      Orderly s.started ∧ ∀ package t, Reached host input derived packages s package t →
        ¬Reruns host input derived package t := by
  induction packages generalizing s with
  | nil =>
    refine ⟨fun h => ⟨h, fun package t hreached => nomatch hreached⟩, fun h => h.1⟩
  | cons package rest ih =>
    rw [List.map_cons, List.nodup_cons] at hnodup
    obtain ⟨events, hstarted, hown, honce⟩ := runPackage_spec host input derived package s
    have hfresh' : ∀ e ∈ s.started, e.package ≠ package.2 := fun e he heq =>
      hfresh e he (heq ▸ List.mem_cons_self)
    have hstep := orderly_append hfresh' hown
    rw [Run.forEach]
    cases hrun : runPackage host input derived package s with
    | mk r s₁ =>
    rw [hrun] at hstarted
    change s₁.started = s.started ++ events at hstarted
    cases r with
    | error e =>
      rw [Run.bind_error hrun, hstarted, hstep, honce]
      refine and_congr_right fun _ => ⟨fun h other t hreached => ?_, fun h => h package s .here⟩
      cases hreached with
      | here => exact h
      | next hrun' =>
        rw [hrun] at hrun'
        cases hrun'
    | ok _ =>
      have hrest : ∀ e ∈ s₁.started, e.package ∉ rest.map Prod.snd := by
        intro e he
        rw [hstarted] at he
        rcases List.mem_append.mp he with he | he
        · exact fun hmem => hfresh e he (List.mem_cons_of_mem _ hmem)
        · rw [hown e he]
          exact hnodup.1
      rw [Run.bind_ok hrun, ih hnodup.2 s₁ hrest, hstarted, hstep, honce, and_assoc]
      refine and_congr_right fun _ => ⟨fun h other t hreached => ?_, fun h => ⟨h package s .here,
        fun other t hreached => h other t (.next hrun hreached)⟩⟩
      cases hreached with
      | here => exact h.1
      | next hrun' hreached' =>
        rw [hrun] at hrun'
        cases hrun'
        exact h.2 other t hreached'

/-- The packages that a pass comes to, unless it runs no scripts at all. -/
def ReachedInPass (host : LifecycleHost σ δ) (input : LifecycleInput) (world : σ)
    (package : PackageEntry × Nat) (s : Pass σ) : Prop :=
  input.policy.ignoreScripts = false ∧ input.policy.skipExecution = false ∧
    Reached host input (openDerived host input (start input world)).1 (indexed input)
      (openDerived host input (start input world)).2 package s

theorem scanPackage_silent (host : LifecycleHost σ δ) (input : LifecycleInput)
    (package : PackageEntry × Nat) : Silent Pass.started (scanPackage host input package) := by
  intro c
  unfold scanPackage
  split
  · refine Run.Keeps.get_bind fun s => ?_
    split
    · refine (outside_silent _).bind (fun scripts => ?_) c
      split
      · exact Silent.pure _
      · exact modify_silent fun _ => rfl
    · exact Run.Keeps.pure trivial
  · exact Run.Keeps.pure trivial

/-- In every pass, whatever the store of derived images and the scripts do: every package
has its phases run once each, in order and none after a failure, if and only if no package
is built whose image then fails to be published while its entry can be run in again. -/
theorem runLifecycle_orderly (host : LifecycleHost σ δ) (input : LifecycleInput) (world : σ) :
    Orderly (runLifecycle host input (start input world)).2.started ↔
      ∀ package s, ReachedInPass host input world package s →
        ¬Reruns host input (openDerived host input (start input world)).1 package s := by
  have hempty : Orderly ([] : List Started) := fun _ => once_nil
  unfold runLifecycle
  cases hignore : input.policy.ignoreScripts with
  | true =>
    refine iff_of_true hempty fun package s hreached => ?_
    rw [hreached.1] at hignore
    cases hignore
  | false =>
  cases hskip : input.policy.skipExecution with
  | true =>
    refine iff_of_true ?_ fun package s hreached => ?_
    · have hscan := Run.Keeps.forEach (I := fun s : Pass σ => s.started = []) (indexed input)
        fun package _ => scanPackage_silent host input package []
      have hkept : Run.Keeps (fun s : Pass σ => s.started = []) (fun _ => True) _ :=
        hscan.bind (f := fun _ => Run.get >>= fun s => pure s.stats)
          fun _ _ => Run.Keeps.get_bind fun s => Run.Keeps.pure trivial
      have hstarted := (hkept (start input world) rfl).1
      simp only [Bool.false_eq_true, if_false, if_true]
      rw [hstarted]
      exact hempty
    · rw [hreached.2.1] at hskip
      cases hskip
  | false =>
    simp only [Bool.false_eq_true, if_false]
    have hlast : ∀ (m : Run LifecycleError (Pass σ) Unit) (s : Pass σ),
        ((m >>= fun _ => Run.get >>= fun s => pure { s.stats with outcomes := s.outcomes } :
          Run LifecycleError (Pass σ) LifecycleStats) s).2.started = (m s).2.started := by
      intro m s
      cases hrun : m s with
      | mk r s₁ =>
        cases r with
        | ok _ => rw [Run.bind_ok hrun]; rfl
        | error e => rw [Run.bind_error hrun]
    have hnodup : ((indexed input).map Prod.snd).Nodup := by
      unfold indexed
      rw [List.zipIdx_map_snd]
      exact List.nodup_range'
    have hpass := forEach_orderly host input (openDerived host input (start input world)).1 hnodup
      (openDerived host input (start input world)).2 nofun
    refine Iff.trans (iff_of_eq (congrArg Orderly (hlast _ _))) (hpass.trans ?_)
    refine ⟨fun h package s hreached => h.2 package s hreached.2.2,
      fun h => ⟨hempty, fun package s hreached => h package s ⟨hignore, hskip, hreached⟩⟩⟩

namespace Example

/-- The entry of a package in the volume, and the staging image of the store. -/
structure Trees where
  entry : Image
  staging : Image

def done (trees : Trees) : Except ε Unit × Trees := (.ok (), trees)

/-- A store that fails at nothing but what `validate_tree` refuses, and a script that
leaves a link out of its package. -/
def linkingHost : LifecycleHost Trees Unit where
  derivedKey _ := ()
  derivedPath _ := lit "derived"
  acquireLock _ := done
  releaseLock _ trees := trees
  pathExists _ _ := false
  validatePublished _ _ := done
  accessDerived _ := done
  createStaging _ trees := (.ok (lit "staging"), trees)
  dropStaging _ trees := trees
  copyTree _ _ := done
  validateTree _ trees := (DerivedStore.validateTree trees.staging, trees)
  treeIdentity _ trees := (.ok ([], 0), trees)
  writeMetadata _ _ _ := done
  sealTreeContents _ := done
  createParent _ := done
  rename _ _ := done
  sealPath _ := done
  recordFor _ := done
  publishDerived _ := done
  probeRuntime trees := (some ⟨[], lit "22.0.0", lit "127", none⟩, trees)
  openDerivedMetadata trees := trees
  openDerivedStore trees := (true, trees)
  imagePath _ := lit "image"
  readScriptsHealing _ trees :=
    (.ok (Std.ExtTreeMap.empty.insert (lit "postinstall") (lit "node build.js")), trees)
  ensureNodeGyp trees := (none, trees)
  packageClosureDigest _ := Vector.replicate 32 0
  isDir _ _ := true
  sameFile _ _ _ := false
  isolatePackage _ _ := done
  snapshotPkgTree _ _ trees := (.ok (), { trees with staging := trees.entry })
  attachDerived _ _ := done
  runScript _ _ _ _ _ trees := (some (some 0),
    { trees with entry := trees.entry.insert (lit "cache") (.symlink (lit "../../cache")) })
  tempdir trees := (.ok (lit "tmp"), trees)
  copyPackage _ _ := done
  dropTempdir _ trees := trees

def onePackage : LifecycleInput where
  packages := [{
    path := lit "node_modules/native", name := lit "native", version := lit "1.0.0"
    resolved := lit "https://registry.npmjs.org/native/-/native-1.0.0.tgz"
    workspaceTarget := none, integrity := none, link := false, dev := false, optional := false
    os := [], cpu := [], bin := Std.ExtTreeMap.empty, dependencies := Std.ExtTreeMap.empty }]
  artifactIds := [some (Vector.replicate 64 0)]
  volumePath := some (lit "volume")
  policy := { ignoreScripts := false, skipExecution := false, useDerivedStore := true }
  environment := Std.ExtTreeMap.empty
  target := ⟨lit "linux", lit "x86_64", lit "unix", lit "gnu"⟩

/-- The image of the package is refused after the build, and its script runs twice. -/
theorem runLifecycle_not_orderly :
    ¬Orderly (runLifecycle linkingHost onePackage (start onePackage
      ⟨Std.ExtTreeMap.empty, Std.ExtTreeMap.empty⟩)).2.started := by
  have hstarted : (runLifecycle linkingHost onePackage (start onePackage
      ⟨Std.ExtTreeMap.empty, Std.ExtTreeMap.empty⟩)).2.started =
        [⟨0, lit "postinstall", 0⟩, ⟨0, lit "postinstall", 0⟩] := by
    decide
  rw [hstarted]
  intro h
  exact absurd (h 0).once (by decide)

end Example
end Lifecycle
end Bpm
