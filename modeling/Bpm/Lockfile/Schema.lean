import Bpm.Lib.Serde
import Bpm.Lockfile.Model

/-!
# The JSON form of a lockfile

One codec per record, with the field names, defaults and omissions of the record,
in the order in which the fields are declared.
-/

namespace Bpm

open Text Serde

namespace Schema

/-- A map that is left out when it is empty. -/
def mapField {α : Type} (name : Str) (c : Codec α) : Fields (Map α) :=
  .defaulted name (.map c) ∅ (·.isEmpty) fun _ h => Std.ExtTreeMap.isEmpty_iff.mp h

/-- A list of texts that is left out when it is empty. -/
def listField (name : Str) : Fields (List Str) :=
  .defaulted name (.vec .str) [] (·.isEmpty) fun _ h => List.isEmpty_iff.mp h

/-- A flag that is left out when it is not set. -/
def flagField (name : Str) : Fields Bool :=
  .defaulted name .bool false (!·) fun b h => by simpa using h

def optionStr : Codec (Option Str) := .option .str fun _ h => by cases h

/-- An optional text that is left out when it is missing. -/
def optionField (name : Str) : Fields (Option Str) :=
  .defaulted name optionStr none (·.isNone) fun _ h => Option.isNone_iff_eq_none.mp h

def peerMode : Codec PeerMode where
  encode
    | .strict => .str (lit "strict")
    | .legacyIgnore => .str (lit "legacy-ignore")
  decode
    | .str text =>
        if text = lit "strict" then some .strict
        else if text = lit "legacy-ignore" then some .legacyIgnore
        else none
    | _ => none
  decode_encode mode := by
    cases mode with
    | strict => rfl
    | legacyIgnore => decide

/-! ## Sources -/

def tag : Str := lit "type"

def encodeSource : LockSource → Json
  | .registry registry =>
      .obj [(tag, .str (lit "registry")), (lit "registry", .str registry)]
  | .workspace relativePath =>
      .obj [(tag, .str (lit "workspace")), (lit "relativePath", .str relativePath)]
  | .file path => .obj [(tag, .str (lit "file")), (lit "path", .str path)]
  | .tarball url => .obj [(tag, .str (lit "tarball")), (lit "url", .str url)]
  | .git url reference resolvedCommit =>
      .obj [(tag, .str (lit "git")), (lit "url", .str url),
        (lit "reference", optionStr.encode reference),
        (lit "resolvedCommit", .str resolvedCommit)]
  | .patch source patch =>
      .obj [(tag, .str (lit "patch")), (lit "source", encodeSource source),
        (lit "patch", .str patch)]

/-- The fields of a tagged variant, each given once. -/
def variant (names : List Str) (entries : List (Str × Json))
    (read : (Str → Option Json) → Option LockSource) : Option LockSource :=
  if Codec.knownOnce (tag :: names) entries then read fun name => entries.lookup name else none

/-- The text of a required field. -/
def textAt (look : Str → Option Json) (name : Str) : Option Str :=
  (look name).bind Codec.str.decode

/-- Read a source; the first argument bounds how deep patches are nested. -/
def decodeSource : Nat → Json → Option LockSource
  | fuel + 1, .obj entries =>
      match (entries.lookup tag).bind Codec.str.decode with
      | none => none
      | some kind =>
          if kind = lit "registry" then
            variant [lit "registry"] entries fun look =>
              (textAt look (lit "registry")).map .registry
          else if kind = lit "workspace" then
            variant [lit "relativePath"] entries fun look =>
              (textAt look (lit "relativePath")).map .workspace
          else if kind = lit "file" then
            variant [lit "path"] entries fun look => (textAt look (lit "path")).map .file
          else if kind = lit "tarball" then
            variant [lit "url"] entries fun look => (textAt look (lit "url")).map .tarball
          else if kind = lit "git" then
            variant [lit "url", lit "reference", lit "resolvedCommit"] entries fun look => do
              let url ← textAt look (lit "url")
              let reference ← match look (lit "reference") with
                | none => some none
                | some value => optionStr.decode value
              let commit ← match look (lit "resolvedCommit") with
                | none => some []
                | some value => Codec.str.decode value
              return .git url reference commit
          else if kind = lit "patch" then
            variant [lit "source", lit "patch"] entries fun look => do
              let source ← (look (lit "source")).bind (decodeSource fuel)
              let patch ← textAt look (lit "patch")
              return .patch source patch
          else none
  | _, _ => none

/-- How deep a source nests: one level for itself, one for every patch around it. -/
def nesting : LockSource → Nat
  | .patch source _ => nesting source + 1
  | .registry _ | .workspace _ | .file _ | .tarball _ | .git .. => 1

theorem decodeSource_encodeSource (source : LockSource) {fuel : Nat}
    (h : nesting source ≤ fuel) : decodeSource fuel (encodeSource source) = some source := by
  induction source generalizing fuel with
  | patch source patch ih =>
      obtain ⟨fuel, rfl⟩ : ∃ f, fuel = f + 1 := ⟨fuel - 1, by simp only [nesting] at h; omega⟩
      have hinner := ih (Nat.le_of_succ_le_succ h)
      change ((decodeSource fuel (encodeSource source)).bind fun inner =>
        some (LockSource.patch inner patch)) = _
      rw [hinner]
      rfl
  | git url reference commit =>
      obtain ⟨fuel, rfl⟩ : ∃ f, fuel = f + 1 := ⟨fuel - 1, by simp only [nesting] at h; omega⟩
      cases reference <;> rfl
  | _ =>
      obtain ⟨fuel, rfl⟩ : ∃ f, fuel = f + 1 := ⟨fuel - 1, by simp only [nesting] at h; omega⟩
      rfl

/-- A source nests as deep as its JSON form. -/
theorem nesting_le_depth (source : LockSource) :
    nesting source ≤ (encodeSource source).depth := by
  induction source with
  | patch source patch ih =>
      have hdepth : (encodeSource (.patch source patch)).depth =
          max 0 (max (encodeSource source).depth (max 0 0)) + 1 := rfl
      rw [nesting, hdepth]
      omega
  | _ => exact Nat.le_add_left 1 _

def source : Codec LockSource where
  encode := encodeSource
  decode value := decodeSource value.depth value
  decode_encode s := decodeSource_encodeSource s (nesting_le_depth s)

/-! ## Records -/

def peerProvider : Codec PeerProvider :=
  .record
    (.prod (.required (lit "name") .str) (.prod (.required (lit "version") .str)
      (.prod (.required (lit "source") source) (.required (lit "path") .str)
        (by decide)) (by decide)) (by decide))
    (fun (name, version, source, path) => ⟨name, version, source, path⟩)
    (fun p => (p.name, p.version, p.source, p.path)) fun _ => rfl

def lockDependency : Codec LockDependency :=
  .record
    (.prod (.required (lit "spec") .str) (.required (lit "target") .str) (by decide))
    (fun (spec, target) => ⟨spec, target⟩) (fun d => (d.spec, d.target)) fun _ => rfl

def lockTarget : Codec LockTarget :=
  .record
    (.prod (.required (lit "os") .str) (.prod (.required (lit "cpu") .str)
      (optionField (lit "libc")) (by decide)) (by decide))
    (fun (os, cpu, libc) => ⟨os, cpu, libc⟩) (fun t => (t.os, t.cpu, t.libc)) fun _ => rfl

def packageResolution : Codec PackageResolution :=
  .record
    (.prod (.required (lit "source") source)
      (.prod (flagField (lit "devOptional"))
      (.prod (flagField (lit "peer"))
      (.prod (listField (lit "libc"))
      (.prod (mapField (lit "dependencies") lockDependency)
      (.prod (mapField (lit "optionalDependencies") lockDependency)
      (.prod (mapField (lit "peerDependencies") lockDependency)
      (.prod (.defaulted (lit "optionalPeers") .set ∅ (·.isEmpty)
          fun _ h => Std.ExtTreeMap.isEmpty_iff.mp h)
      (.prod (mapField (lit "peerContext") peerProvider)
      (.prod (optionField (lit "workspaceTarget"))
        (flagField (lit "hasInstallScript"))
      (by decide)) (by decide)) (by decide)) (by decide))
      (by decide)) (by decide)) (by decide)) (by decide))
      (by decide)) (by decide))
    (fun (source, devOptional, peer, libc, dependencies, optionalDependencies,
        peerDependencies, optionalPeers, peerContext, workspaceTarget, hasInstallScript) =>
      ⟨source, devOptional, peer, libc, dependencies, optionalDependencies, peerDependencies,
        optionalPeers, peerContext, workspaceTarget, hasInstallScript⟩)
    (fun r => (r.source, r.devOptional, r.peer, r.libc, r.dependencies,
      r.optionalDependencies, r.peerDependencies, r.optionalPeers, r.peerContext,
      r.workspaceTarget, r.hasInstallScript)) fun _ => rfl

def rootResolution : Codec RootResolution :=
  .record
    (.prod (mapField (lit "devDependencies") .str)
      (.prod (mapField (lit "optionalDependencies") .str)
      (.prod (mapField (lit "overrides") .str)
      (.prod (listField (lit "workspacePatterns"))
      (.prod (optionField (lit "workspaceIndexDigest"))
      (.prod (.defaulted (lit "target") (.option lockTarget fun _ h => by cases h) none (·.isNone)
        fun _ h => Option.isNone_iff_eq_none.mp h)
        (.defaulted (lit "peerMode") Schema.peerMode .strict (fun _ => false) fun _ h => by cases h)
      (by decide)) (by decide)) (by decide)) (by decide))
      (by decide)) (by decide))
    (fun (devDependencies, optionalDependencies, overrides, workspacePatterns,
        workspaceIndexDigest, target, peerMode) =>
      ⟨devDependencies, optionalDependencies, overrides, workspacePatterns, workspaceIndexDigest,
        target, peerMode⟩)
    (fun r => (r.devDependencies, r.optionalDependencies, r.overrides, r.workspacePatterns,
      r.workspaceIndexDigest, r.target, r.peerMode)) fun _ => rfl

def resolutionMetadata : Codec ResolutionMetadata :=
  .record
    (.prod (.defaulted (lit "root") rootResolution RootResolution.default (fun _ => false)
        fun _ h => by cases h)
      (.prod (mapField (lit "packages") packageResolution)
        (mapField (lit "registryNames") .str)
      (by decide)) (by decide))
    (fun (root, packages, registryNames) =>
      ⟨root, packages, registryNames⟩)
    (fun r => (r.root, r.packages, r.registryNames)) fun _ => rfl

def rootEntry : Codec RootEntry :=
  .record
    (.prod (optionField (lit "name"))
      (.prod (optionField (lit "version"))
        (mapField (lit "dependencies") .str)
      (by decide)) (by decide))
    (fun (name, version, dependencies) =>
      ⟨name, version, dependencies⟩)
    (fun r => (r.name, r.version, r.dependencies)) fun _ => rfl

def packageEntry : Codec PackageEntry :=
  .record
    (.prod (.required (lit "path") .str)
      (.prod (.required (lit "name") .str)
      (.prod (.required (lit "version") .str)
      (.prod (.defaulted (lit "resolved") .str [] (fun _ => false) fun _ h => by cases h)
      (.prod (optionField (lit "workspaceTarget"))
      (.prod (optionField (lit "integrity"))
      (.prod (flagField (lit "link"))
      (.prod (flagField (lit "dev"))
      (.prod (flagField (lit "optional"))
      (.prod (listField (lit "os"))
      (.prod (listField (lit "cpu"))
      (.prod (mapField (lit "bin") .str)
        (mapField (lit "dependencies") .str)
      (by decide)) (by decide)) (by decide)) (by decide))
      (by decide)) (by decide)) (by decide)) (by decide))
      (by decide)) (by decide)) (by decide)) (by decide))
    (fun (path, name, version, resolved, workspaceTarget, integrity, link, dev, optional, os,
        cpu, bin, dependencies) =>
      ⟨path, name, version, resolved, workspaceTarget, integrity, link, dev, optional, os, cpu,
        bin, dependencies⟩)
    (fun e => (e.path, e.name, e.version, e.resolved, e.workspaceTarget, e.integrity, e.link,
      e.dev, e.optional, e.os, e.cpu, e.bin, e.dependencies)) fun _ => rfl

end Schema

/-- Nothing that is worth a section of its own. -/
def ResolutionMetadata.isEmpty (resolution : ResolutionMetadata) : Bool :=
  decide (resolution.root = RootResolution.default) && resolution.packages.isEmpty &&
    resolution.registryNames.isEmpty

theorem ResolutionMetadata.eq_default_of_isEmpty {resolution : ResolutionMetadata}
    (h : resolution.isEmpty = true) : resolution = ResolutionMetadata.default := by
  simp only [isEmpty, Bool.and_eq_true, decide_eq_true_eq, Std.ExtTreeMap.isEmpty_iff] at h
  obtain ⟨⟨hroot, hpackages⟩, hnames⟩ := h
  cases resolution
  simp only at hroot hpackages hnames
  rw [hroot, hpackages, hnames]
  rfl

namespace Schema

def lockfileFields :
    Fields (UInt32 × Str × RootEntry × List PackageEntry × ResolutionMetadata) :=
  .prod (.required (lit "lockfileVersion") .u32)
    (.prod (.required (lit "generator") .str)
    (.prod (.required (lit "root") rootEntry)
    (.prod (.required (lit "packages") (.vec packageEntry))
      (.defaulted (lit "resolution") resolutionMetadata ResolutionMetadata.default
        ResolutionMetadata.isEmpty fun _ => ResolutionMetadata.eq_default_of_isEmpty)
    (by decide)) (by decide)) (by decide)) (by decide)

def lockfile : Codec Lockfile :=
  .record lockfileFields
    (fun (lockfileVersion, generator, root, packages, resolution) =>
      ⟨lockfileVersion, generator, root, packages, resolution⟩)
    (fun l => (l.lockfileVersion, l.generator, l.root, l.packages, l.resolution)) fun _ => rfl

/-- The version alone, zero when it is not given; other fields do not matter. -/
def versionProbe : Codec UInt32 :=
  .record (.defaulted (lit "lockfileVersion") .u32 0 (fun _ => false) fun _ h => by cases h)
    id id fun _ => rfl

/-- The version of a lockfile can be read before the rest of it. -/
theorem versionProbe_lockfile (lock : Lockfile) :
    versionProbe.decode (lockfile.encode lock) = some lock.lockfileVersion := by
  have hnodup := (lockfileFields.encode_names (lock.lockfileVersion, lock.generator, lock.root,
    lock.packages, lock.resolution)).nodup lockfileFields.nodup
  generalize hentries : lockfileFields.encode (lock.lockfileVersion, lock.generator, lock.root,
    lock.packages, lock.resolution) = entries at hnodup
  have hlookup : entries.lookup (lit "lockfileVersion") =
      some (Codec.u32.encode lock.lockfileVersion) := by
    rw [← hentries]
    rfl
  have honce : Codec.knownOnce [lit "lockfileVersion"] entries = true :=
    decide_eq_true (hnodup.filter _)
  change (if Codec.knownOnce [lit "lockfileVersion"]
      (lockfileFields.encode (lock.lockfileVersion, lock.generator, lock.root, lock.packages,
        lock.resolution)) = true then _ else none) = _
  rw [hentries, if_pos honce]
  change Option.map id (match entries.lookup (lit "lockfileVersion") with
    | none => some 0
    | some value => Codec.u32.decode value) = _
  rw [hlookup]
  exact congrArg (Option.map id) (Codec.u32.decode_encode lock.lockfileVersion)

end Schema
end Bpm
