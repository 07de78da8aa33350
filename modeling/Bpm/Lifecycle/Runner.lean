import Bpm.Derived.Store
import Bpm.Lockfile.Model

/-!
# Lifecycle scripts

One pass over the packages of a lockfile.  The scripts of a package run in its entry of
the graph volume, through the store of derived images when there is one, or in a copy
of the package without its dependencies.
-/

namespace Bpm

open Text

abbrev ArtifactId := Vector UInt8 64

structure LifecyclePolicy where
  ignoreScripts : Bool
  skipExecution : Bool
  useDerivedStore : Bool
deriving DecidableEq

structure LifecycleOutcome where
  package : Str
  phase : Str
  command : Str
  ran : Bool
  exitCode : Option Int
deriving DecidableEq

structure LifecycleStats where
  packagesWithScripts : Nat
  phasesExecuted : Nat
  phasesSucceeded : Nat
  phasesFailed : Nat
  skipped : Bool
  derivedPaths : List Str
  outcomes : List LifecycleOutcome
deriving DecidableEq

/-- The failures of a pass; those outside of the scripts are told apart by their texts. -/
inductive LifecycleError
  | io (message : Str)
  | requiredScriptFailure (package phase : Str) (exitCode : Int)
deriving DecidableEq

/-- What a pass does outside of its own memory, besides the steps of the derived store.
A script may do anything. -/
structure LifecycleHost (σ δ : Type) extends DerivedHost σ δ where
  probeRuntime : σ → Option RuntimeIdentity × σ
  openDerivedMetadata : σ → σ
  openDerivedStore : σ → Bool × σ
  imagePath : ArtifactId → Str
  readScriptsHealing : ArtifactId → Run LifecycleError σ (Map Str)
  ensureNodeGyp : σ → Option Str × σ
  packageClosureDigest : Str → Vector UInt8 32
  isDir : Str → σ → Bool
  sameFile : Str → Str → σ → Bool
  isolatePackage : Str → Str → Run LifecycleError σ Unit
  snapshotPkgTree : Str → Str → Run LifecycleError σ Unit
  attachDerived : Str → Str → Run LifecycleError σ Unit
  /-- The exit code, if the script could be started and was not killed. -/
  runScript : Str → Str → Str → PackageEntry → Option Str → σ → Option (Option Int) × σ
  tempdir : Run LifecycleError σ Str
  copyPackage : Str → Str → Run LifecycleError σ Unit
  dropTempdir : Str → σ → σ

structure LifecycleInput where
  packages : List PackageEntry
  artifactIds : List (Option ArtifactId)
  volumePath : Option Str
  policy : LifecyclePolicy
  environment : Std.ExtTreeMap OsString OsString compare
  target : TargetDescriptor

/-- A script that was started: the package by its place in the lockfile, and the exit code
as it is read. -/
structure Started where
  package : Nat
  phase : Str
  code : Int
deriving DecidableEq

/-- The state of a pass.  `started` is what an observer of the processes sees. -/
structure Pass (σ : Type) where
  world : σ
  started : List Started
  stats : LifecycleStats
  outcomes : List LifecycleOutcome
  localOutcomes : List LifecycleOutcome
  nodeGypBin : Option Str
  nodeGypProbed : Bool

namespace Lifecycle

def phases : List Str := [lit "preinstall", lit "install", lit "postinstall"]

def derivedRunnerVersion : UInt32 := 1

def derivedPolicyVersion : UInt32 := 2

/-- The declared phases with their commands, in the order in which they run. -/
def declared (scripts : Map Str) : List (Str × Str) :=
  phases.filterMap fun phase => scripts[phase]?.map fun command => (phase, command)

def join (dir path : Str) : Str := dir ++ lit "/" ++ path

def manifestOf (dir : Str) : Str := join dir (lit "package.json")

/-- `status.map(|s| s.code().unwrap_or(-1)).unwrap_or(-1)` -/
def exitCode (status : Option (Option Int)) : Int := (status.getD none).getD (-1)

def sandboxIoFailure (pkg : PackageEntry) : LifecycleError → SandboxFailure
  | .io message => ⟨pkg.name, lit "install", none, message⟩
  | .requiredScriptFailure package phase code =>
      ⟨pkg.name, lit "install", none, lit "required lifecycle script '" ++ phase ++
        lit "' for " ++ package ++ lit " failed with exit code " ++ (toString code).toList⟩

section Runner

variable {σ δ ε α : Type}

/-- A step outside of the memory of the pass. -/
def outside (m : Run ε σ α) : Run ε (Pass σ) α :=
  Run.zoom Pass.world (fun world s => { s with world := world }) m

def inPass (host : DerivedHost σ δ) : DerivedHost (Pass σ) δ where
  derivedKey := host.derivedKey
  derivedPath := host.derivedPath
  acquireLock key := outside (host.acquireLock key)
  releaseLock key s := { s with world := host.releaseLock key s.world }
  pathExists path s := host.pathExists path s.world
  validatePublished key path := outside (host.validatePublished key path)
  accessDerived key := outside (host.accessDerived key)
  createStaging key := outside (host.createStaging key)
  dropStaging staging s := { s with world := host.dropStaging staging s.world }
  copyTree src dst := outside (host.copyTree src dst)
  validateTree path := outside (host.validateTree path)
  treeIdentity path := outside (host.treeIdentity path)
  writeMetadata path inputs identity := outside (host.writeMetadata path inputs identity)
  sealTreeContents path := outside (host.sealTreeContents path)
  createParent path := outside (host.createParent path)
  rename src dst := outside (host.rename src dst)
  sealPath path := outside (host.sealPath path)
  recordFor key := outside (host.recordFor key)
  publishDerived key := outside (host.publishDerived key)

variable (host : LifecycleHost σ δ) (input : LifecycleInput)

/-- Start a script and wait for it. -/
def runScript (index : Nat) (pkg : PackageEntry) (cwd : Str) (phase command : Str) :
    Run ε (Pass σ) Int := fun s =>
  let ended := host.runScript cwd phase command pkg s.nodeGypBin s.world
  (.ok (exitCode ended.1), { s with
    world := ended.2
    started := s.started ++ [⟨index, phase, exitCode ended.1⟩] })

/-- The phases of a package, up to the first that fails; `record` notes every result. -/
def runPhases (index : Nat) (pkg : PackageEntry) (cwd : Str)
    (record : LifecycleOutcome → Int → Pass σ → Pass σ) (failure : Str → Int → ε) :
    List (Str × Str) → Run ε (Pass σ) Unit
  | [] => pure ()
  | (phase, command) :: rest => do
      let code ← runScript host index pkg cwd phase command
      Run.modify (record ⟨pkg.name, phase, command, true, some code⟩ code)
      if code ≠ 0 then Run.fail (failure phase code)
      else runPhases index pkg cwd record failure rest

/-- The managed `node-gyp` is provided once, before the first script that names it. -/
def provideNodeGyp (scripts : Map Str) (s : Pass σ) : Pass σ :=
  if !s.nodeGypProbed && (declared scripts).any fun p => decide (lit "node-gyp" <:+: p.2) then
    let provided := host.ensureNodeGyp s.world
    { s with
      world := provided.2
      nodeGypProbed := true
      nodeGypBin := provided.1.or s.nodeGypBin }
  else s

/-- An entry that still shares its manifest with the image gets files of its own. -/
def isolateShared (image entry : Str) : Run LifecycleError (Pass σ) Unit := do
  let s ← Run.get
  if host.sameFile (manifestOf entry) (manifestOf image) s.world then
    outside (host.isolatePackage image entry)
  else pure ()

def addDerivedPath (path : Str) (s : Pass σ) : Pass σ :=
  { s with stats := { s.stats with derivedPaths := s.stats.derivedPaths ++ [path] } }

/-- The bookkeeping of a phase that ran in the callback. -/
def recordLocal (outcome : LifecycleOutcome) (_ : Int) (s : Pass σ) : Pass σ :=
  { s with localOutcomes := s.localOutcomes ++ [outcome] }

/-- The callback for the store of derived images: the scripts run in the entry of the
volume, and what they leave is the image. -/
def buildInEntry (index : Nat) (pkg : PackageEntry) (scripts : Map Str) (image entry staging : Str) :
    Run SandboxFailure (Pass σ) Unit := do
  Run.mapError (sandboxIoFailure pkg) (isolateShared host image entry)
  runPhases host index pkg entry recordLocal (fun phase code => ⟨pkg.name, phase, some code, []⟩)
    (declared scripts)
  Run.mapError (sandboxIoFailure pkg) (outside (host.snapshotPkgTree entry staging))

def derivedInputs (pkg : PackageEntry) (id : ArtifactId) (scripts : Map Str)
    (runtime : RuntimeIdentity) : DerivedInputs where
  sourceArtifact := id
  sourceRevision := none
  dependencyGraph := host.packageClosureDigest pkg.path
  target := input.target
  runtime := runtime
  phases := phases
  scripts := scripts
  environment := input.environment
  runnerVersion := derivedRunnerVersion
  policyVersion := derivedPolicyVersion

def ensureDerived (index : Nat) (pkg : PackageEntry) (id : ArtifactId) (scripts : Map Str)
    (runtime : RuntimeIdentity) (entry : Str) : Run DerivedError (Pass σ) (EnsureDerived δ) :=
  DerivedStore.ensure (inPass host.toDerivedHost) (derivedInputs host input pkg id scripts runtime)
    (host.imagePath id) (buildInEntry host index pkg scripts (host.imagePath id) entry) false

/-- After the store of derived images: `true` when the package is done. -/
def settleDerived (pkg : PackageEntry) (scripts : Map Str) (entry : Str) :
    Except DerivedError (EnsureDerived δ) → Run LifecycleError (Pass σ) Bool
  | .ok (.hit reference) => do
      outside (host.attachDerived reference.imagePath entry)
      Run.modify (addDerivedPath pkg.path)
      return true
  | .ok (.built _) => do
      Run.modify fun s => { s with
        stats := { s.stats with
          phasesExecuted := s.stats.phasesExecuted + (declared scripts).length
          phasesSucceeded := s.stats.phasesSucceeded + (declared scripts).length }
        outcomes := s.outcomes ++ s.localOutcomes
        localOutcomes := [] }
      Run.modify (addDerivedPath pkg.path)
      return true
  | .ok .skipped => return false
  | .error (.sandbox failure) =>
      Run.fail (.requiredScriptFailure failure.package failure.phase (failure.exitCode.getD (-1)))
  -- a failure of the store: the scripts run in place
  | .error (.store _) => return false

def derivedPath (index : Nat) (pkg : PackageEntry) (id : ArtifactId) (scripts : Map Str)
    (runtime : RuntimeIdentity) (entry : Str) : Run LifecycleError (Pass σ) Bool := do
  let s ← Run.get
  if host.isDir entry s.world then do
    Run.modify fun s => { s with localOutcomes := [] }
    let result ← Run.attempt (ensureDerived host input index pkg id scripts runtime entry)
    settleDerived host pkg scripts entry result
  else return false

/-- The bookkeeping of a phase that ran in place. -/
def recordPhase (outcome : LifecycleOutcome) (code : Int) (s : Pass σ) : Pass σ :=
  { s with
    outcomes := s.outcomes ++ [outcome]
    stats := { s.stats with
      phasesExecuted := s.stats.phasesExecuted + 1
      phasesSucceeded := s.stats.phasesSucceeded + if code = 0 then 1 else 0
      phasesFailed := s.stats.phasesFailed + if code = 0 then 0 else 1 } }

def runIn (index : Nat) (pkg : PackageEntry) (scripts : Map Str) (cwd : Str) :
    Run LifecycleError (Pass σ) Unit :=
  runPhases host index pkg cwd recordPhase (.requiredScriptFailure pkg.name) (declared scripts)

/-- The ordinary execution, in the volume or in a copy of the package. -/
def runInPlace (index : Nat) (pkg : PackageEntry) (id : ArtifactId) (scripts : Map Str) :
    Run LifecycleError (Pass σ) Unit :=
  match input.volumePath with
  | some vol => do
      let s ← Run.get
      if host.isDir (join vol pkg.path) s.world then do
        isolateShared host (host.imagePath id) (join vol pkg.path)
        Run.modify (addDerivedPath pkg.path)
        runIn host index pkg scripts (join vol pkg.path)
      else pure ()
  | none => do
      let dir ← outside host.tempdir
      Run.cleanup (fun s => { s with world := host.dropTempdir dir s.world }) do
        outside (host.copyPackage (host.imagePath id) dir)
        runIn host index pkg scripts dir

/-- The artifact of a package that may have scripts. -/
def artifactOf (index : Nat) (pkg : PackageEntry) : Option ArtifactId :=
  if pkg.link || pkg.resolved.isEmpty then none else input.artifactIds[index]?.join

/-- The scripts of a package, when it declares a phase; it is counted, and the tools it
names are there. -/
def lifecycleScripts (id : ArtifactId) : Run LifecycleError (Pass σ) (Option (Map Str)) := do
  let scripts ← outside (host.readScriptsHealing id)
  Run.modify (provideNodeGyp host scripts)
  if (declared scripts).isEmpty then return none
  else do
    Run.modify fun s => { s with
      stats := { s.stats with packagesWithScripts := s.stats.packagesWithScripts + 1 } }
    return some scripts

/-- The scripts of one package; `derived` is the runtime, when the store of derived images
is open. -/
def runScripts (derived : Option RuntimeIdentity) (package : PackageEntry × Nat)
    (id : ArtifactId) (scripts : Map Str) : Run LifecycleError (Pass σ) Unit := do
  let done ← match input.volumePath, derived with
    | some vol, some runtime =>
        derivedPath host input package.2 package.1 id scripts runtime (join vol package.1.path)
    | _, _ => pure false
  if done then pure () else runInPlace host input package.2 package.1 id scripts

/-- One package of the lockfile. -/
def runPackage (derived : Option RuntimeIdentity) (package : PackageEntry × Nat) :
    Run LifecycleError (Pass σ) Unit :=
  match artifactOf input package.2 package.1 with
  | none => pure ()
  | some id => do
      let scripts ← lifecycleScripts host id
      match scripts with
      | none => pure ()
      | some scripts => runScripts host input derived package id scripts

/-- Over a reused volume nothing runs, and the packages whose scripts have run are noted. -/
def scanPackage (package : PackageEntry × Nat) : Run LifecycleError (Pass σ) Unit :=
  match artifactOf input package.2 package.1, input.volumePath with
  | some id, some vol => do
      let s ← Run.get
      if host.isDir (join vol package.1.path) s.world then do
        let scripts ← outside (host.readScriptsHealing id)
        if (declared scripts).isEmpty then pure ()
        else Run.modify fun s => addDerivedPath package.1.path { s with
          stats := { s.stats with packagesWithScripts := s.stats.packagesWithScripts + 1 } }
      else pure ()
  | _, _ => pure ()

/-- The runtime is probed and the store opened only when images are to be derived. -/
def openDerived (s : Pass σ) : Option RuntimeIdentity × Pass σ :=
  let probed := if input.policy.useDerivedStore && input.volumePath.isSome then
    host.probeRuntime s.world else (none, s.world)
  let world := host.openDerivedMetadata probed.2
  let opened := if probed.1.isSome then host.openDerivedStore world else (false, world)
  (if opened.1 then probed.1 else none, { s with world := opened.2 })

/-- The packages in the order of the lockfile, each with its place. -/
def indexed : List (PackageEntry × Nat) := input.packages.zipIdx

/-- `run_lifecycle_with_profile` -/
def runLifecycle : Run LifecycleError (Pass σ) LifecycleStats :=
  if input.policy.ignoreScripts then do
    let s ← Run.get
    return s.stats
  else if input.policy.skipExecution then do
    Run.forEach (scanPackage host input) (indexed input)
    let s ← Run.get
    return s.stats
  else do
    let derived ← fun s => (.ok (openDerived host input s).1, (openDerived host input s).2)
    Run.forEach (runPackage host input derived) (indexed input)
    let s ← Run.get
    return { s.stats with outcomes := s.outcomes }

/-- A pass begins with nothing started. -/
def start (world : σ) : Pass σ where
  world := world
  started := []
  stats := {
    packagesWithScripts := 0
    phasesExecuted := 0
    phasesSucceeded := 0
    phasesFailed := 0
    skipped := input.policy.ignoreScripts || input.policy.skipExecution
    derivedPaths := []
    outcomes := [] }
  outcomes := []
  localOutcomes := []
  nodeGypBin := none
  nodeGypProbed := false

end Runner
end Lifecycle
end Bpm
