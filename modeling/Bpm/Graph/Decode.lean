import Bpm.Graph.Id

/-!
# Unique decoding of the graph encoding

Every field of the encoding is length-prefixed or of fixed width, every list is
counted, and the trailing sections start with different bytes.  So the byte string
determines the encoded graph.
-/

namespace Bpm
namespace Graph

open Bytes

/-- What the encoding says of one package. -/
structure EncodedPackage where
  path : Str
  name : Str
  version : Str
  resolved : Str
  integrity : Str
  link : Bool
  dev : Bool
  optional : Bool
  os : List Str
  cpu : List Str
  libc : List Str
  bin : Map Str
  dependencies : Map Str

structure EncodedTarget where
  os : Str
  cpu : Str
  libc : Str

structure EncodedWorkspace where
  dir : Str
  name : Str
  version : Str

/-- What the encoding says of a graph, section by section. -/
structure EncodedGraph where
  platform : Str
  rootDependencies : Map Str
  overrides : Map Str
  target : Option EncodedTarget
  packages : List EncodedPackage
  registryNames : Map Str
  workspacePatterns : List Str
  workspacePackages : List EncodedWorkspace
  prepared : Map ImageKey
  profile : InstallProfile

/-- An absent integrity counts as the empty one, absent resolver metadata as an
empty list of C libraries. -/
def encodedPackage (resolution : Option PackageResolution) (p : PackageEntry) :
    EncodedPackage where
  path := p.path
  name := p.name
  version := p.version
  resolved := p.resolved
  integrity := p.integrity.getD []
  link := p.link
  dev := p.dev
  optional := p.optional
  os := p.os
  cpu := p.cpu
  libc := (resolution.map (·.libc)).getD []
  bin := p.bin
  dependencies := p.dependencies

def encodedTarget (target : LockTarget) : EncodedTarget :=
  ⟨target.os, target.cpu, target.libc.getD []⟩

def encodedWorkspace (p : WorkspacePackage) : EncodedWorkspace :=
  ⟨p.dir, p.name.getD [], p.version.getD []⟩

namespace Subject

def encoded (s : Subject) : EncodedGraph where
  platform := s.platform
  rootDependencies := s.lock.root.dependencies
  overrides := s.lock.resolution.root.overrides
  target := s.lock.resolution.root.target.map encodedTarget
  packages := s.lock.packages.map fun p => encodedPackage s.lock.resolution.packages[p.path]? p
  registryNames := s.lock.resolution.registryNames
  workspacePatterns := s.workspace.patterns
  workspacePackages := s.workspace.packages.map encodedWorkspace
  prepared := s.prepared
  profile := s.profile

end Subject

theorem delimits_texts_entries : Delimits (fun m : Map Str => counted (entry field) m.toList)
    fun m => m :=
  delimits_entries Delimits.field

theorem delimits_target : Delimits writeTarget (Option.map encodedTarget) where
  split {a b r r'} ha hb heq := by
    have hfields : Delimits
        (fun t : LockTarget => field t.os ++ field t.cpu ++ field (t.libc.getD [])) fun t =>
          ((t.os, t.cpu), t.libc.getD []) :=
      ((Delimits.field.comap LockTarget.os).append (Delimits.field.comap LockTarget.cpu)).append
        (Delimits.field.comap fun t : LockTarget => t.libc.getD [])
    cases a with
    | none =>
        cases b with
        | none => exact ⟨rfl, List.append_cancel_left heq⟩
        | some t => simp [writeTarget, flag] at heq
    | some t =>
        cases b with
        | none => simp [writeTarget, flag] at heq
        | some t' =>
            simp only [writeTarget, List.append_assoc] at ha hb heq
            have heq := List.append_cancel_left heq
            obtain ⟨hview, hrest⟩ := @hfields.split t t' r r'
              (by simpa only [List.append_assoc] using ha.right)
              (by simpa only [List.append_assoc] using hb.right)
              (by simpa only [List.append_assoc] using heq)
            simp only [Prod.mk.injEq] at hview
            obtain ⟨⟨hos, hcpu⟩, hlibc⟩ := hview
            exact ⟨by simp [encodedTarget, hos, hcpu, hlibc], hrest⟩

theorem delimits_libc : Delimits
    (fun resolution : Option PackageResolution => match resolution with
      | some resolution => counted field resolution.libc
      | none => u64 0)
    fun resolution => (resolution.map (·.libc)).getD [] where
  split {a b r r'} ha hb heq := by
    have hwrite : ∀ o : Option PackageResolution,
        (match o with
          | some resolution => counted field resolution.libc
          | none => u64 0) = counted field ((o.map (·.libc)).getD []) := by
      intro o
      cases o <;> rfl
    rw [hwrite] at ha hb
    rw [hwrite, hwrite] at heq
    exact delimits_texts.split ha hb heq

theorem delimits_package : Delimits
    (fun e : Option PackageResolution × PackageEntry => writePackage e.1 e.2)
    fun e => encodedPackage e.1 e.2 where
  split {a b r r'} ha hb heq := by
    have hfields :=
      ((((((((((((Delimits.field.comap fun e : Option PackageResolution × PackageEntry =>
          e.2.path).append
        (Delimits.field.comap fun e => e.2.name)).append
        (Delimits.field.comap fun e => e.2.version)).append
        (Delimits.field.comap fun e => e.2.resolved)).append
        (Delimits.field.comap fun e => e.2.integrity.getD [])).append
        (Delimits.flag.comap fun e => e.2.link)).append
        (Delimits.flag.comap fun e => e.2.dev)).append
        (Delimits.flag.comap fun e => e.2.optional)).append
        (delimits_texts.comap fun e => e.2.os)).append
        (delimits_texts.comap fun e => e.2.cpu)).append
        (delimits_libc.comap fun e => e.1)).append
        (delimits_texts_entries.comap fun e => e.2.bin)).append
        (delimits_texts_entries.comap fun e => e.2.dependencies)
    obtain ⟨hview, hrest⟩ := hfields.split ha hb heq
    simp only [Prod.mk.injEq] at hview
    refine ⟨?_, hrest⟩
    simp only [encodedPackage, hview]

theorem writePackage_ne_nil (resolution : Option PackageResolution) (p : PackageEntry) :
    writePackage resolution p ≠ [] := by
  simp [writePackage, field_ne_nil]

theorem delimits_workspacePackages : Delimits (counted writeWorkspacePackage)
    (List.map encodedWorkspace) := by
  have hpackage : Delimits writeWorkspacePackage encodedWorkspace :=
    { split := fun ha hb heq => by
        have hfields :=
          ((Delimits.field.comap WorkspacePackage.dir).append
            (Delimits.field.comap fun p : WorkspacePackage => p.name.getD [])).append
            (Delimits.field.comap fun p : WorkspacePackage => p.version.getD [])
        obtain ⟨hview, hrest⟩ := hfields.split ha hb heq
        simp only [Prod.mk.injEq] at hview
        refine ⟨?_, hrest⟩
        simp only [encodedWorkspace, hview] }
  refine hpackage.counted fun p => ?_
  simp [writeWorkspacePackage, field_ne_nil]

namespace Subject

/-- The packages with the resolver's records of their paths. -/
def records (s : Subject) : List (Option PackageResolution × PackageEntry) :=
  s.lock.packages.map fun p => (s.lock.resolution.packages[p.path]?, p)

/-- The part that every encoding has. -/
def core (s : Subject) : Bytes :=
  tag "bpm-graph-v2\n" ++ field s.platform ++
    tag "root\n" ++ counted (entry field) s.lock.root.dependencies.toList ++
    counted (entry field) s.lock.resolution.root.overrides.toList ++
    writeTarget s.lock.resolution.root.target ++
    tag "packages\n" ++ counted (fun e => writePackage e.1 e.2) s.records

def workspaceBody (layout : WorkspaceLayout) : Bytes :=
  tag "patterns\n" ++ counted field layout.patterns ++ tag "packages\n" ++
    counted writeWorkspacePackage layout.packages

def profileBody (profile : InstallProfile) : Bytes :=
  flag profile.omitDev ++ flag profile.lifecycleProduction

def registrySection (s : Subject) : Bytes :=
  trailing Std.ExtTreeMap.isEmpty (tag "registry-names\n")
    (fun m : Map Str => counted (entry field) m.toList) s.lock.resolution.registryNames

def workspaceSection (s : Subject) : Bytes :=
  trailing WorkspaceLayout.isEmpty (tag "ws-v1\n") workspaceBody s.workspace

def preparedSection (s : Subject) : Bytes :=
  trailing Std.ExtTreeMap.isEmpty (tag "prepared-images\n")
    (fun m : Map ImageKey => counted (entry Vector.toList) m.toList) s.prepared

def profileSection (s : Subject) : Bytes :=
  trailing InstallProfile.isDefault (tag "install-profile-v2\n") profileBody s.profile

theorem bytes_eq (s : Subject) :
    s.bytes = s.core ++ (s.registrySection ++ (s.workspaceSection ++
      (s.preparedSection ++ (s.profileSection ++ [])))) := by
  simp only [bytes, canonicalGraphBytes, core, records, registrySection, workspaceSection,
    preparedSection, profileSection, trailing, workspaceBody, profileBody, counted,
    canonicalWorkspaceBytes, preparedImages, installProfile, List.flatMap_map, List.length_map,
    List.append_assoc, List.append_nil]

theorem delimits_core : Delimits core fun s =>
    (s.platform, s.lock.root.dependencies, s.lock.resolution.root.overrides,
      s.lock.resolution.root.target.map encodedTarget, s.encoded.packages) where
  split {a b r r'} ha hb heq := by
    have hpackages := delimits_package.counted fun e => writePackage_ne_nil e.1 e.2
    have hfields :=
      ((((((((Delimits.tag (α := Subject) (Bytes.tag "bpm-graph-v2\n")).append
        (Delimits.field.comap Subject.platform)).append
        (Delimits.tag (Bytes.tag "root\n"))).append
        (delimits_texts_entries.comap fun s : Subject => s.lock.root.dependencies)).append
        (delimits_texts_entries.comap fun s : Subject => s.lock.resolution.root.overrides)).append
        (delimits_target.comap fun s : Subject => s.lock.resolution.root.target)).append
        (Delimits.tag (Bytes.tag "packages\n"))).append
        (hpackages.comap records))
    obtain ⟨hview, hrest⟩ := hfields.split ha hb heq
    simp only [Prod.mk.injEq, true_and, and_true, records, List.map_map] at hview
    obtain ⟨⟨⟨⟨hplatform, hdeps⟩, hoverrides⟩, htarget⟩, hrecords⟩ := hview
    refine ⟨?_, hrest⟩
    simp only [hplatform, hdeps, hoverrides, htarget, Prod.mk.injEq, true_and]
    exact hrecords

theorem delimits_workspaceBody : Delimits workspaceBody fun layout =>
    (layout.patterns, layout.packages.map encodedWorkspace) where
  split ha hb heq := by
    have hfields :=
      (((Delimits.tag (α := WorkspaceLayout) (Bytes.tag "patterns\n")).append
        (delimits_texts.comap WorkspaceLayout.patterns)).append
        (Delimits.tag (Bytes.tag "packages\n"))).append
        (delimits_workspacePackages.comap WorkspaceLayout.packages)
    obtain ⟨hview, hrest⟩ := hfields.split ha hb heq
    simpa [hrest] using hview

theorem delimits_profileBody : Delimits profileBody fun profile => profile where
  split {a b} _ _ ha hb heq := by
    have hfields := (Delimits.flag.comap InstallProfile.omitDev).append
      (Delimits.flag.comap InstallProfile.lifecycleProduction)
    obtain ⟨hview, hrest⟩ := hfields.split ha hb heq
    simp only [Prod.mk.injEq] at hview
    obtain ⟨homit, hproduction⟩ := hview
    refine ⟨?_, hrest⟩
    cases a
    cases b
    simp_all

theorem delimits_imageKey : Delimits Vector.toList fun key : ImageKey => key where
  split _ _ heq := by
    obtain ⟨hkey, hrest⟩ := List.append_inj heq (by simp)
    exact ⟨Vector.toList_inj.mp hkey, hrest⟩

theorem head_profileSection (s : Subject) {t : Option UInt8} (ht : some 105 ≠ t)
    (hnil : none ≠ t) : (s.profileSection ++ []).head? ≠ t :=
  head_trailing_append (by decide) ht hnil

theorem head_preparedSection (s : Subject) {t : Option UInt8} (hp : some 112 ≠ t)
    (hi : some 105 ≠ t) (hnil : none ≠ t) :
    (s.preparedSection ++ (s.profileSection ++ [])).head? ≠ t :=
  head_trailing_append (by decide) hp (s.head_profileSection hi hnil)

theorem head_workspaceSection (s : Subject) {t : Option UInt8} (hw : some 119 ≠ t)
    (hp : some 112 ≠ t) (hi : some 105 ≠ t) (hnil : none ≠ t) :
    (s.workspaceSection ++ (s.preparedSection ++ (s.profileSection ++ []))).head? ≠ t :=
  head_trailing_append (by decide) hw (s.head_preparedSection hp hi hnil)

/-- The byte string of an identity determines everything that it encodes. -/
theorem encoded_eq_of_bytes_eq {s s' : Subject} (hfits : Bytes.Fits s.bytes)
    (heq : s.bytes = s'.bytes) : s.encoded = s'.encoded := by
  have hfits' : Bytes.Fits s'.bytes := heq ▸ hfits
  rw [bytes_eq, bytes_eq] at heq
  rw [bytes_eq] at hfits hfits'
  obtain ⟨hcore, heq⟩ := delimits_core.split hfits.left hfits'.left heq
  -- The four sections start with `r`, `w`, `p` and `i`.
  obtain ⟨hregistry, heq⟩ := delimits_texts_entries.trailing_append
    (fun h h' => by simp_all) (by decide) hfits.right.left hfits'.right.left
    (s.head_workspaceSection (by decide) (by decide) (by decide)
      (by decide))
    (s'.head_workspaceSection (by decide) (by decide) (by decide)
      (by decide)) heq
  obtain ⟨hworkspace, heq⟩ := delimits_workspaceBody.trailing_append
    (fun h h' => by simp_all [WorkspaceLayout.isEmpty]) (by decide)
    hfits.right.right.left hfits'.right.right.left
    (s.head_preparedSection (by decide) (by decide) (by decide))
    (s'.head_preparedSection (by decide) (by decide) (by decide)) heq
  obtain ⟨hprepared, heq⟩ := (delimits_entries delimits_imageKey).trailing_append
    (fun h h' => by simp_all) (by decide) hfits.right.right.right.left
    hfits'.right.right.right.left
    (s.head_profileSection (by decide) (by decide))
    (s'.head_profileSection (by decide) (by decide)) heq
  obtain ⟨hprofile, -⟩ := delimits_profileBody.trailing_append
    (fun {a b} h h' => by cases a; cases b; simp_all [InstallProfile.isDefault])
    (by decide) hfits.right.right.right.right.left hfits'.right.right.right.right.left
    (by decide) (by decide) heq
  simp only [Prod.mk.injEq] at hcore hworkspace
  obtain ⟨hplatform, hdeps, hoverrides, htarget, hpackages⟩ := hcore
  have hpackages : s.encoded.packages = s'.encoded.packages := hpackages
  simp only [encoded] at hpackages ⊢
  simp only [hplatform, hdeps, hoverrides, htarget, hpackages, hregistry, hworkspace, hprepared,
    hprofile]

/-- The identity that the installer computes. -/
def id {δ : Type} (blake3 : Bytes → δ) (s : Subject) : δ :=
  graphIdForProjectWithPreparedAndProfile blake3 s.platform s.lock s.workspace s.prepared s.profile

end Subject

/-- The encoding is uniquely decodable, so a hash without collisions identifies the
encoded graph. -/
theorem subject_decodable {δ : Type} (s s' : Subject) (hfits : Bytes.Fits s.bytes) :
    (s.bytes = s'.bytes → s.encoded = s'.encoded) ∧
      ∀ blake3 : Bytes → δ, Function.Injective blake3 →
        s.id blake3 = s'.id blake3 → s.encoded = s'.encoded := by
  refine ⟨Subject.encoded_eq_of_bytes_eq hfits, fun blake3 hinj hid => ?_⟩
  unfold Subject.id at hid
  rw [graphIdForProjectWithPreparedAndProfile_eq, graphIdForProjectWithPreparedAndProfile_eq] at hid
  exact Subject.encoded_eq_of_bytes_eq hfits (hinj hid)

/-- A project with one package and the given integrity, under the production profile. -/
def onePackage (integrity : Option Str) : Subject where
  platform := Text.lit "x86_64/linux"
  lock :=
    { Lockfile.new (Text.lit "bpm") with
      packages :=
        [{ path := Text.lit "node_modules/a", name := Text.lit "a", version := Text.lit "1.0.0"
           resolved := Text.lit "", workspaceTarget := none, integrity := integrity
           link := false, dev := false, optional := false, os := [], cpu := [], bin := ∅
           dependencies := ∅ }] }
  workspace := ⟨[Text.lit "packages/*"], []⟩
  prepared := ∅
  profile := .devOmitted

theorem subject_decodable_onePackage :
    (onePackage none).bytes = (onePackage (some [])).bytes ∧
      (onePackage none).encoded = (onePackage (some [])).encoded := by
  have hbytes : (onePackage none).bytes = (onePackage (some [])).bytes := by decide +kernel
  have hid : (onePackage none).id (fun bytes => bytes) =
      (onePackage (some [])).id fun bytes => bytes := by decide +kernel
  exact ⟨hbytes, (subject_decodable (onePackage none) (onePackage (some []))
    (by decide +kernel)).2 (fun bytes => bytes) (fun _ _ h => h) hid⟩

end Graph
end Bpm
