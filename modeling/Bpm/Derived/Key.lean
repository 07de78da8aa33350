import Bpm.Lib.Bytes

/-!
# Keys of lifecycle-derived images

The key of a derived image is the hash of one canonical byte stream.  The stream
is a domain separator and a list of tagged records; the phases are written without
a count and end where the first record of another tag stands.  The module shows
that the stream determines every input.
-/

namespace Bpm

open Bytes

/-- An operating system string, as its encoded bytes (which also order it). -/
abbrev OsString := Bytes

structure TargetDescriptor where
  os : Str
  architecture : Str
  family : Str
  abi : Str
deriving DecidableEq

structure RuntimeIdentity where
  executable : Bytes
  version : Str
  modulesAbi : Str
  napiVersion : Option Str
deriving DecidableEq

/-- Every input visible to or governing a lifecycle execution. -/
structure DerivedInputs where
  sourceArtifact : Vector UInt8 64
  sourceRevision : Option Str
  dependencyGraph : Vector UInt8 32
  target : TargetDescriptor
  runtime : RuntimeIdentity
  phases : List Str
  scripts : Map Str
  environment : Std.ExtTreeMap OsString OsString compare
  runnerVersion : UInt32
  policyVersion : UInt32

namespace Derived

def domain : Bytes := tag "bpm-derived-v2" ++ [0]

/-- What the hasher has been fed.  A length that does not fit its number panics. -/
def writeField (hasher : Bytes) (name value : Bytes) : Option Bytes :=
  if Measured (name, value) then some (hasher ++ record (name, value)) else none

def writeOptionalField (hasher : Bytes) (name : Bytes) (value : Option Bytes) : Option Bytes :=
  match value with
  | some value => do
      let hasher ← writeField hasher (tag "presence") [1]
      writeField hasher name value
  | none => do
      let hasher ← writeField hasher (tag "presence") [0]
      writeField hasher name []

def writePhase (inputs : DerivedInputs) (hasher : Bytes) (phase : Str) : Option Bytes := do
  let hasher ← writeField hasher (tag "script.phase") (utf8 phase)
  writeOptionalField hasher (tag "script.command") (inputs.scripts[phase]?.map utf8)

def writeVariable (hasher : Bytes) (e : OsString × OsString) : Option Bytes := do
  let hasher ← writeField hasher (tag "environment.name") e.1
  writeField hasher (tag "environment.value") e.2

/-- The environment in the order in which it is written. -/
def sortedEnvironment (inputs : DerivedInputs) : List (OsString × OsString) :=
  inputs.environment.toList.mergeSort fun left right =>
    ((compare left.1 right.1).then (compare left.2 right.2)).isLE

/-- The byte stream that `derived_key` hashes; `none` when it panics. -/
def stream (inputs : DerivedInputs) : Option Bytes := do
  let hasher ← writeField domain (tag "source") inputs.sourceArtifact.toList
  let hasher ← writeOptionalField hasher (tag "source.revision") (inputs.sourceRevision.map utf8)
  let hasher ← writeField hasher (tag "dependency_graph") inputs.dependencyGraph.toList
  let hasher ← writeField hasher (tag "target.os") (utf8 inputs.target.os)
  let hasher ← writeField hasher (tag "target.architecture") (utf8 inputs.target.architecture)
  let hasher ← writeField hasher (tag "target.family") (utf8 inputs.target.family)
  let hasher ← writeField hasher (tag "target.abi") (utf8 inputs.target.abi)
  let hasher ← writeField hasher (tag "runtime.executable") inputs.runtime.executable
  let hasher ← writeField hasher (tag "runtime.version") (utf8 inputs.runtime.version)
  let hasher ← writeField hasher (tag "runtime.modules_abi") (utf8 inputs.runtime.modulesAbi)
  let hasher ← writeOptionalField hasher (tag "runtime.napi_version")
    (inputs.runtime.napiVersion.map utf8)
  let hasher ← inputs.phases.foldlM (writePhase inputs) hasher
  let environment := sortedEnvironment inputs
  let hasher ← writeField hasher (tag "environment.count") (u64 environment.length)
  let hasher ← environment.foldlM writeVariable hasher
  let hasher ← writeField hasher (tag "runner_version")
    (littleEndian 4 inputs.runnerVersion.toNat)
  writeField hasher (tag "policy_version") (littleEndian 4 inputs.policyVersion.toNat)

section Key

variable {δ : Type} (blake3 : Bytes → δ)

def key (inputs : DerivedInputs) : Option δ := (stream inputs).map blake3

end Key

/-! ## The stream as a list of records -/

def optionalRecords (name : Bytes) (value : Option Bytes) : List Record :=
  [(tag "presence", [if value.isSome then 1 else 0]), (name, value.getD [])]

/-- The phases in order, each with its command. -/
def declaredPhases (inputs : DerivedInputs) : List (Str × Option Str) :=
  inputs.phases.map fun phase => (phase, inputs.scripts[phase]?)

def phaseRecords (p : Str × Option Str) : List Record :=
  (tag "script.phase", utf8 p.1) :: optionalRecords (tag "script.command") (p.2.map utf8)

def variableRecords (e : OsString × OsString) : List Record :=
  [(tag "environment.name", e.1), (tag "environment.value", e.2)]

def headRecords (inputs : DerivedInputs) : List Record :=
  [(tag "source", inputs.sourceArtifact.toList)] ++
    optionalRecords (tag "source.revision") (inputs.sourceRevision.map utf8) ++
    [(tag "dependency_graph", inputs.dependencyGraph.toList),
      (tag "target.os", utf8 inputs.target.os),
      (tag "target.architecture", utf8 inputs.target.architecture),
      (tag "target.family", utf8 inputs.target.family),
      (tag "target.abi", utf8 inputs.target.abi),
      (tag "runtime.executable", inputs.runtime.executable),
      (tag "runtime.version", utf8 inputs.runtime.version),
      (tag "runtime.modules_abi", utf8 inputs.runtime.modulesAbi)] ++
    optionalRecords (tag "runtime.napi_version") (inputs.runtime.napiVersion.map utf8)

def countRecord (inputs : DerivedInputs) : Record :=
  (tag "environment.count", u64 (sortedEnvironment inputs).length)

def runnerRecord (inputs : DerivedInputs) : Record :=
  (tag "runner_version", littleEndian 4 inputs.runnerVersion.toNat)

def policyRecord (inputs : DerivedInputs) : Record :=
  (tag "policy_version", littleEndian 4 inputs.policyVersion.toNat)

def records (inputs : DerivedInputs) : List Record :=
  headRecords inputs ++
    ((declaredPhases inputs).flatMap phaseRecords ++
      countRecord inputs ::
        ((sortedEnvironment inputs).flatMap variableRecords ++
          runnerRecord inputs :: [policyRecord inputs]))

/-- `write` appends these records to what was written before, all of them measured. -/
def Writes (write : Bytes → Option Bytes) (rs : List Record) : Prop :=
  ∀ hasher out, write hasher = some out →
    (∀ r ∈ rs, Measured r) ∧ out = hasher ++ rs.flatMap record

theorem writes_field (name value : Bytes) :
    Writes (writeField · name value) [(name, value)] := by
  intro hasher out h
  simp only [writeField, Option.ite_none_right_eq_some, Option.some.injEq] at h
  obtain ⟨hmeasured, rfl⟩ := h
  exact ⟨by simpa using hmeasured, by simp⟩

theorem Writes.bind {write next : Bytes → Option Bytes} {rs ss : List Record}
    (hwrite : Writes write rs) (hnext : Writes next ss) :
    Writes (fun hasher => write hasher >>= next) (rs ++ ss) := by
  intro hasher out h
  obtain ⟨middle, hmiddle, hout⟩ := Option.bind_eq_some_iff.mp h
  obtain ⟨hrs, rfl⟩ := hwrite hasher middle hmiddle
  obtain ⟨hss, rfl⟩ := hnext _ out hout
  refine ⟨fun r hr => (List.mem_append.mp hr).elim (hrs r) (hss r), ?_⟩
  rw [List.flatMap_append, List.append_assoc]

theorem Writes.foldlM {α : Type} {write : Bytes → α → Option Bytes} {rs : α → List Record}
    (hwrite : ∀ a, Writes (write · a) (rs a)) (l : List α) :
    Writes (fun hasher => l.foldlM write hasher) (l.flatMap rs) := by
  induction l with
  | nil =>
      intro hasher out h
      simp only [List.foldlM_nil, Option.pure_def, Option.some.injEq] at h
      simp [h]
  | cons a l ih =>
      simp only [List.foldlM_cons, List.flatMap_cons]
      exact (hwrite a).bind ih

theorem writes_optionalField (name : Bytes) (value : Option Bytes) :
    Writes (writeOptionalField · name value) (optionalRecords name value) := by
  cases value with
  | some value => exact (writes_field (tag "presence") [1]).bind (writes_field name value)
  | none => exact (writes_field (tag "presence") [0]).bind (writes_field name [])

theorem writes_phase (inputs : DerivedInputs) (phase : Str) :
    Writes (writePhase inputs · phase) (phaseRecords (phase, inputs.scripts[phase]?)) :=
  (writes_field _ _).bind (writes_optionalField _ _)

theorem writes_variable (e : OsString × OsString) :
    Writes (writeVariable · e) (variableRecords e) :=
  (writes_field _ _).bind (writes_field _ _)

/-- A stream is the domain separator and the encoded records. -/
theorem stream_eq {inputs : DerivedInputs} {s : Bytes} (h : stream inputs = some s) :
    (∀ r ∈ records inputs, Measured r) ∧ s = domain ++ (records inputs).flatMap record := by
  have hwrites := (writes_field (tag "source") inputs.sourceArtifact.toList).bind <|
    (writes_optionalField (tag "source.revision") (inputs.sourceRevision.map utf8)).bind <|
    (writes_field (tag "dependency_graph") inputs.dependencyGraph.toList).bind <|
    (writes_field (tag "target.os") (utf8 inputs.target.os)).bind <|
    (writes_field (tag "target.architecture") (utf8 inputs.target.architecture)).bind <|
    (writes_field (tag "target.family") (utf8 inputs.target.family)).bind <|
    (writes_field (tag "target.abi") (utf8 inputs.target.abi)).bind <|
    (writes_field (tag "runtime.executable") inputs.runtime.executable).bind <|
    (writes_field (tag "runtime.version") (utf8 inputs.runtime.version)).bind <|
    (writes_field (tag "runtime.modules_abi") (utf8 inputs.runtime.modulesAbi)).bind <|
    (writes_optionalField (tag "runtime.napi_version")
      (inputs.runtime.napiVersion.map utf8)).bind <|
    (Writes.foldlM (writes_phase inputs) inputs.phases).bind <|
    (writes_field (tag "environment.count") (u64 (sortedEnvironment inputs).length)).bind <|
    (Writes.foldlM writes_variable (sortedEnvironment inputs)).bind <|
    (writes_field (tag "runner_version") (littleEndian 4 inputs.runnerVersion.toNat)).bind <|
    writes_field (tag "policy_version") (littleEndian 4 inputs.policyVersion.toNat)
  have hs := hwrites domain s h
  simpa only [records, headRecords, declaredPhases, countRecord, runnerRecord, policyRecord,
    List.flatMap_map, List.append_assoc, List.cons_append, List.nil_append] using hs

/-! ## The stream determines its inputs -/

/-- The two inputs describe one build. -/
structure SameBuild (a b : DerivedInputs) : Prop where
  sourceArtifact : a.sourceArtifact = b.sourceArtifact
  sourceRevision : a.sourceRevision = b.sourceRevision
  dependencyGraph : a.dependencyGraph = b.dependencyGraph
  target : a.target = b.target
  runtime : a.runtime = b.runtime
  phases : declaredPhases a = declaredPhases b
  environment : a.environment = b.environment
  runnerVersion : a.runnerVersion = b.runnerVersion
  policyVersion : a.policyVersion = b.policyVersion

theorem optionalRecords_inj {name : Bytes} {v w : Option Bytes}
    (h : optionalRecords name v = optionalRecords name w) : v = w := by
  cases v <;> cases w <;> simp_all [optionalRecords]

theorem map_utf8_inj {v w : Option Str} (h : v.map utf8 = w.map utf8) : v = w :=
  Option.map_injective (fun _ _ => utf8_inj) h

theorem littleEndian_uint32_inj {v w : UInt32}
    (h : littleEndian 4 v.toNat = littleEndian 4 w.toNat) : v = w :=
  UInt32.toNat_inj.mp (littleEndian_inj v.toNat_lt w.toNat_lt h)

theorem phaseRecords_inj {p q : Str × Option Str} (h : phaseRecords p = phaseRecords q) :
    p = q := by
  obtain ⟨hphase, hcommand⟩ := List.cons.inj h
  have hphase := utf8_inj (Prod.ext_iff.mp hphase).2
  have hcommand := map_utf8_inj (optionalRecords_inj hcommand)
  exact Prod.ext hphase hcommand

theorem variableRecords_inj {e f : OsString × OsString}
    (h : variableRecords e = variableRecords f) : e = f := by
  simp only [variableRecords, List.cons.injEq, Prod.mk.injEq, true_and, and_true] at h
  exact Prod.ext h.1 h.2

/-- The written order of the environment determines it. -/
theorem environment_of_sorted {a b : DerivedInputs}
    (h : sortedEnvironment a = sortedEnvironment b) : a.environment = b.environment := by
  have ha : (sortedEnvironment a).Perm a.environment.toList := List.mergeSort_perm _ _
  have hb : (sortedEnvironment b).Perm b.environment.toList := List.mergeSort_perm _ _
  have hperm : a.environment.toList.Perm b.environment.toList := ha.symm.trans (h ▸ hb)
  refine Std.ExtTreeMap.ext_getElem? fun name => ?_
  ext value
  rw [← Std.ExtTreeMap.mem_toList_iff_getElem?_eq_some,
    ← Std.ExtTreeMap.mem_toList_iff_getElem?_eq_some]
  exact hperm.mem_iff

/-- No phase record is tagged like the section that follows the phases. -/
theorem phaseRecords_count (l : List (Str × Option Str)) :
    ∀ r ∈ l.flatMap phaseRecords, (r.1 == tag "environment.count") = false := by
  intro r hr
  obtain ⟨p, -, hr⟩ := List.mem_flatMap.mp hr
  have htag : r.1 = tag "script.phase" ∨ r.1 = tag "presence" ∨ r.1 = tag "script.command" := by
    simp only [phaseRecords, optionalRecords, List.mem_cons, List.not_mem_nil, or_false] at hr
    rcases hr with rfl | rfl | rfl <;> simp
  rcases htag with htag | htag | htag <;> rw [htag] <;> decide

theorem variableRecords_runner (l : List (OsString × OsString)) :
    ∀ r ∈ l.flatMap variableRecords, (r.1 == tag "runner_version") = false := by
  intro r hr
  obtain ⟨e, -, hr⟩ := List.mem_flatMap.mp hr
  have htag : r.1 = tag "environment.name" ∨ r.1 = tag "environment.value" := by
    simp only [variableRecords, List.mem_cons, List.not_mem_nil, or_false] at hr
    rcases hr with rfl | rfl <;> simp
  rcases htag with htag | htag <;> rw [htag] <;> decide

/-- One list of records comes from one build. -/
theorem records_sameBuild {a b : DerivedInputs} (h : records a = records b) :
    SameBuild a b := by
  obtain ⟨hhead, hrest⟩ := List.append_inj h (by simp [headRecords, optionalRecords])
  obtain ⟨hphases, hrest⟩ := first_split (p := fun r => r.1 == tag "environment.count")
    (phaseRecords_count _) (phaseRecords_count _) (by simp [countRecord])
    (by simp [countRecord]) hrest
  obtain ⟨-, hrest⟩ := List.cons.inj hrest
  obtain ⟨henvironment, hversions⟩ := first_split (p := fun r => r.1 == tag "runner_version")
    (variableRecords_runner _) (variableRecords_runner _) (by simp [runnerRecord])
    (by simp [runnerRecord]) hrest
  -- both lists are made of blocks of one length
  have hphases : (declaredPhases a).map id = (declaredPhases b).map id :=
    blocks_inj (n := 2) (fun _ => rfl) (fun _ _ => phaseRecords_inj) hphases
  have henvironment : (sortedEnvironment a).map id = (sortedEnvironment b).map id :=
    blocks_inj (n := 1) (fun _ => rfl) (fun _ _ => variableRecords_inj) henvironment
  rw [List.map_id, List.map_id] at hphases henvironment
  -- the fixed part: every record stands at its own place
  simp only [headRecords, List.append_assoc, List.cons_append, List.nil_append,
    List.cons.injEq, Prod.mk.injEq, true_and] at hhead
  obtain ⟨hsource, hhead⟩ := hhead
  obtain ⟨hrevision, hhead⟩ := List.append_inj hhead (by simp [optionalRecords])
  simp only [List.cons.injEq, Prod.mk.injEq, true_and] at hhead
  obtain ⟨hgraph, hos, harch, hfamily, habi, hexe, hversion, hmodules, hnapi⟩ := hhead
  have htarget : a.target = b.target := by
    cases ha : a.target
    cases hb : b.target
    simp only [ha, hb] at hos harch hfamily habi
    rw [utf8_inj hos, utf8_inj harch, utf8_inj hfamily, utf8_inj habi]
  have hruntime : a.runtime = b.runtime := by
    cases ha : a.runtime
    cases hb : b.runtime
    simp only [ha, hb] at hexe hversion hmodules hnapi
    rw [hexe, utf8_inj hversion, utf8_inj hmodules, map_utf8_inj (optionalRecords_inj hnapi)]
  simp only [runnerRecord, policyRecord, List.cons.injEq, Prod.mk.injEq, true_and,
    and_true] at hversions
  exact
    { sourceArtifact := Vector.toList_inj.mp hsource
      sourceRevision := map_utf8_inj (optionalRecords_inj hrevision)
      dependencyGraph := Vector.toList_inj.mp hgraph
      target := htarget
      runtime := hruntime
      phases := hphases
      environment := environment_of_sorted henvironment
      runnerVersion := littleEndian_uint32_inj hversions.1
      policyVersion := littleEndian_uint32_inj hversions.2 }

theorem stream_sameBuild {a b : DerivedInputs} {s : Bytes} (ha : stream a = some s)
    (hb : stream b = some s) : SameBuild a b := by
  obtain ⟨hrecords, hs⟩ := stream_eq ha
  obtain ⟨hrecords', hs'⟩ := stream_eq hb
  exact records_sameBuild (records_inj hrecords hrecords' (List.append_cancel_left (hs ▸ hs')))

/-- The hashed stream determines every input of a build, and so does the key under a hash
that does not collide on the two streams. -/
theorem key_determines {δ : Type} (blake3 : Bytes → δ) (a b : DerivedInputs) :
    (∀ s, stream a = some s → stream b = some s → SameBuild a b) ∧
      ((∀ s t, stream a = some s → stream b = some t → blake3 s = blake3 t → s = t) →
        ∀ k, key blake3 a = some k → key blake3 b = some k → SameBuild a b) := by
  refine ⟨fun s => stream_sameBuild, fun hblake3 k ha hb => ?_⟩
  obtain ⟨s, hs, hsk⟩ := Option.map_eq_some_iff.mp ha
  obtain ⟨t, ht, htk⟩ := Option.map_eq_some_iff.mp hb
  have hst := hblake3 s t hs ht (hsk.trans htk.symm)
  exact stream_sameBuild hs (hst ▸ ht)

/-- A build with one declared phase, one phase without a command and one variable. -/
def nativeBuild (scripts : Map Str) : DerivedInputs where
  sourceArtifact := Vector.replicate 64 7
  sourceRevision := some []
  dependencyGraph := Vector.replicate 32 9
  target := ⟨Text.lit "linux", Text.lit "x86_64", Text.lit "unix", Text.lit "gnu"⟩
  runtime := ⟨[1, 2], Text.lit "v22.0.0", Text.lit "127", none⟩
  phases := [Text.lit "preinstall", Text.lit "install"]
  scripts := scripts
  environment := Std.ExtTreeMap.ofList [(tag "PATH", tag "/bin")] compare
  runnerVersion := 3
  policyVersion := 1

/-- A script that is no phase is not part of the key. -/
theorem key_determines_nativeBuild :
    let a := nativeBuild (Std.ExtTreeMap.ofList [(Text.lit "install", Text.lit "node-gyp rebuild")])
    let b := nativeBuild (Std.ExtTreeMap.ofList [(Text.lit "install", Text.lit "node-gyp rebuild"),
      (Text.lit "test", Text.lit "ava")])
    (stream a).isSome = true ∧ key id a = key id b ∧ SameBuild a b := by
  intro a b
  have hsome : (stream a).isSome = true := by decide +kernel
  have heq : stream a = stream b := by decide +kernel
  obtain ⟨s, hs⟩ := Option.isSome_iff_exists.mp hsome
  refine ⟨hsome, by simp only [key, heq], ?_⟩
  exact (key_determines id a b).2 (fun _ _ _ _ h => h) s (by simp [key, hs])
    (by simp [key, ← heq, hs])

end Derived
end Bpm
