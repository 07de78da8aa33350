import Bpm.Lib.Protocol
import Bpm.Store.ImageIndex

/-!
# Extracted images

The image of an artifact is a directory, a sidecar index and a version marker, written
one after the other under the lock of the image and trusted by existence.  Calls of
`ensure_image` may fail or be killed at any step, and the garbage collector, which takes
the same lock, removes the directory only.
-/

namespace Bpm
namespace ImageStore

open Bytes Text

/-- The layout version that this program writes. -/
def layoutVersion : Bytes := tag "3\n"

/-- What is not part of the store: what extracting the archive leaves (nothing when it is
refused), and whether an image's `package.json` is a file, links followed. -/
structure Archive where
  extracted : Option Image
  manifestIsFile : Image → Bool

/-- The extraction keeps to 100 000 entries, and the file system to paths and link targets
of 4096 bytes: what is extracted is far within the limits of the index. -/
def Limited (archive : Archive) : Prop :=
  ∀ image, archive.extracted = some image →
    PackageImage.WithinLimits (PackageImage.directoryIndex image)

/-- `b` is what removing some of the entries of `a` leaves. -/
def PartOf (b a : Image) : Prop :=
  ∀ (path : Str) (node : ImageNode), b[path]? = some node → a[path]? = some node

/-- Where the process that holds the lock stands. -/
inductive Pc
  | free
  | checking
  -- a current image without index
  | indexing
  | healing
  | removingIndex
  | removingVersion
  | extracting
  | placing (image : Image)
  | writingIndex
  | writingVersion
  -- the index file is truncated and written; `fresh` after an extraction
  | writing (fresh : Bool) (content : Bytes)
  | returning (cached : Bool)
deriving DecidableEq

structure State where
  archived : Bool
  image : Option Image
  index : Option Bytes
  version : Option Bytes
  pc : Pc

/-- The image is served as it is. -/
def served (archive : Archive) (s : State) : Bool :=
  s.image.any archive.manifestIsFile && s.version == some layoutVersion

inductive Action
  | enter
  | step
  | give
  | stop
  | collect
  | archive (present : Bool)
deriving DecidableEq

/-- One step of the process that holds the lock; anyone may take the free lock. -/
inductive Step (archive : Archive) : State → Action → State → Prop
  | enter {s} : s.pc = .free → Step archive s .enter { s with pc := .checking }
  | current {s} : s.pc = .checking → served archive s = true → s.index.isSome = true →
      Step archive s .step { s with pc := .returning true }
  | unindexed {s} : s.pc = .checking → served archive s = true → s.index = none →
      Step archive s .step { s with pc := .indexing }
  | reindex {s image} : s.pc = .indexing → s.image = some image →
      Step archive s .step { s with
        index := some [], pc := .writing false (PackageImage.fromDirectoryIndex image) }
  | stale {s} : s.pc = .checking → served archive s = false → s.image.isSome = true →
      Step archive s .step { s with pc := .healing }
  | absent {s} : s.pc = .checking → s.image = none →
      Step archive s .step { s with pc := .extracting }
  -- `remove_dir_all`, entry by entry
  | removeSome {s image image'} : s.pc = .healing → s.image = some image → PartOf image' image →
      Step archive s .step { s with image := some image' }
  | removeAll {s} : s.pc = .healing →
      Step archive s .step { s with image := none, pc := .removingIndex }
  | removeIndex {s kept} : s.pc = .removingIndex →
      Step archive s .step { s with
        index := if kept = true then s.index else none, pc := .removingVersion }
  | removeVersion {s kept} : s.pc = .removingVersion →
      Step archive s .step { s with
        version := if kept = true then s.version else none, pc := .extracting }
  | extract {s image} : s.pc = .extracting → s.archived = true →
      archive.extracted = some image → Step archive s .step { s with pc := .placing image }
  | rename {s image} : s.pc = .placing image → s.image = none →
      Step archive s .step { s with image := some image, pc := .writingIndex }
  | renameBlocked {s image} : s.pc = .placing image → s.image.isSome = true →
      Step archive s .step { s with pc := .returning true }
  | openIndex {s image} : s.pc = .writingIndex → s.image = some image →
      Step archive s .step { s with
        index := some [], pc := .writing true (PackageImage.fromDirectoryIndex image) }
  | writeSome {s fresh content written} : s.pc = .writing fresh content → written <+: content →
      Step archive s .step { s with index := some written }
  | writtenFresh {s content} : s.pc = .writing true content →
      Step archive s .step { s with index := some content, pc := .writingVersion }
  | writtenAgain {s content} : s.pc = .writing false content →
      Step archive s .step { s with index := some content, pc := .returning true }
  | versionSome {s written} : s.pc = .writingVersion → written <+: layoutVersion →
      Step archive s .step { s with version := some written }
  | versionWritten {s} : s.pc = .writingVersion →
      Step archive s .step { s with version := some layoutVersion, pc := .returning false }
  | give {s cached} : s.pc = .returning cached → Step archive s .give { s with pc := .free }
  -- an error or a kill
  | stop {s} : s.pc ≠ .free → Step archive s .stop { s with pc := .free }
  -- the collector waits for the lock and removes the directory, and no other file
  | collect {s} : s.pc = .free → Step archive s .collect { s with image := none }
  | archiveChanges {s present} : Step archive s (.archive present) { s with archived := present }

/-- Anything that another layout version left. -/
def protocol (archive : Archive) : Protocol State Action where
  init s := s.pc = .free ∧ s.version ≠ some layoutVersion
  step := Step archive

/-- A call that returns leaves the extracted image and an index that reads as that of
the directory, and the call after it returns at once and changes nothing. -/
structure Sound (archive : Archive) (s : State) : Prop where
  complete : ∀ cached, s.pc = .returning cached → ∃ image, archive.extracted = some image ∧
    s.image = some image ∧ ∃ bytes, s.index = some bytes ∧
      PackageImage.decodeIndex bytes = some (PackageImage.directoryIndex image)
  again : ∀ cached, s.pc = .returning cached → ∀ s₁ s₂ s₃, Step archive s .give s₁ →
    Step archive s₁ .enter s₂ → Step archive s₂ .step s₃ → s₃ = { s with pc := .returning true }

/-- No call stops over a partly written index while the version marker is current. -/
def Careful (s : State) (a : Action) : Prop :=
  a = .stop → ∀ fresh content, s.pc = .writing fresh content →
    s.version = some layoutVersion → s.index = some content

/-- The image, complete with its index. -/
def Installed (archive : Archive) (s : State) : Prop :=
  ∃ image, archive.extracted = some image ∧ s.image = some image ∧
    s.index = some (PackageImage.fromDirectoryIndex image)

/-- What a current version marker promises outside of the writes of the index. -/
def Promised (archive : Archive) (s : State) : Prop :=
  s.version = some layoutVersion → ∃ image, archive.extracted = some image ∧
    (s.image = none ∨ s.image = some image) ∧
      s.index = some (PackageImage.fromDirectoryIndex image)

/-- The invariant, by where the holder of the lock stands. -/
def Inv (archive : Archive) (s : State) : Prop :=
  match s.pc with
  | .free | .checking => Promised archive s
  | .indexing | .writing false _ => False
  | .healing => s.version ≠ some layoutVersion
  | .removingIndex | .removingVersion => s.version ≠ some layoutVersion ∧ s.image = none
  | .extracting => Promised archive s ∧ s.image = none
  | .placing image => Promised archive s ∧ s.image = none ∧ archive.extracted = some image
  | .writingIndex => Promised archive s ∧
      ∃ image, archive.extracted = some image ∧ s.image = some image
  | .writing true content => ∃ image, archive.extracted = some image ∧
      s.image = some image ∧ content = PackageImage.fromDirectoryIndex image
  | .writingVersion => Installed archive s
  | .returning _ => Installed archive s ∧ s.version = some layoutVersion

section Steps

variable {archive : Archive} {s s' : State} {a : Action}

/-- The extracted image has a file `package.json`. -/
def HasManifest (archive : Archive) : Prop :=
  ∀ image, archive.extracted = some image → archive.manifestIsFile image = true

theorem Installed.promised (h : Installed archive s) : Promised archive s := by
  obtain ⟨image, hextracted, himage, hindex⟩ := h
  exact fun _ => ⟨image, hextracted, Or.inr himage, hindex⟩

/-- A marker that is not current promises nothing. -/
theorem promised_of_version (h : s.version ≠ some layoutVersion) : Promised archive s :=
  fun hversion => absurd hversion h

/-- An image that is served is the extracted one, with its index. -/
theorem installed_of_served (hpromised : Promised archive s) (h : served archive s = true) :
    Installed archive s ∧ s.version = some layoutVersion := by
  unfold served at h
  rw [Bool.and_eq_true, beq_iff_eq] at h
  obtain ⟨image, hextracted, himage, hindex⟩ := hpromised h.2
  refine ⟨⟨image, hextracted, ?_, hindex⟩, h.2⟩
  rcases himage with hnone | hsome
  · rw [hnone] at h
    cases h.1
  · exact hsome

/-- A complete image behind a current marker is served. -/
theorem served_of_installed (hmanifest : HasManifest archive) (h : Installed archive s)
    (hversion : s.version = some layoutVersion) : served archive s = true := by
  obtain ⟨image, hextracted, himage, _⟩ := h
  simp [served, himage, hversion, hmanifest image hextracted]

/-- Only an image behind an outdated marker is healed. -/
theorem version_of_stale (hmanifest : HasManifest archive) (hpromised : Promised archive s)
    (hserved : served archive s = false) (himage : s.image.isSome = true) :
    s.version ≠ some layoutVersion := by
  intro hversion
  obtain ⟨image, hextracted, hstored, hindex⟩ := hpromised hversion
  have hsome : s.image = some image := by
    rcases hstored with hnone | hsome
    · rw [hnone] at himage
      cases himage
    · exact hsome
  have hcontra := served_of_installed hmanifest ⟨image, hextracted, hsome, hindex⟩ hversion
  rw [hserved] at hcontra
  cases hcontra

/-- Wherever a call stops, what a current marker promises is there. -/
theorem promised_of_stop (hinv : Inv archive s) (hcareful : Careful s .stop) :
    Promised archive s := by
  unfold Inv at hinv
  cases hpc : s.pc with
  | free => rw [hpc] at hinv; exact hinv
  | checking => rw [hpc] at hinv; exact hinv
  | indexing => rw [hpc] at hinv; exact hinv.elim
  | healing => rw [hpc] at hinv; exact promised_of_version hinv
  | removingIndex => rw [hpc] at hinv; exact promised_of_version hinv.1
  | removingVersion => rw [hpc] at hinv; exact promised_of_version hinv.1
  | extracting => rw [hpc] at hinv; exact hinv.1
  | placing image => rw [hpc] at hinv; exact hinv.1
  | writingIndex => rw [hpc] at hinv; exact hinv.1
  | writingVersion => rw [hpc] at hinv; exact hinv.promised
  | returning cached => rw [hpc] at hinv; exact hinv.1.promised
  | writing fresh content =>
      rw [hpc] at hinv
      cases fresh with
      | false => exact hinv.elim
      | true =>
          obtain ⟨image, hextracted, himage, hcontent⟩ := hinv
          intro hversion
          have hindex := hcareful rfl true content hpc hversion
          exact ⟨image, hextracted, Or.inr himage, hcontent ▸ hindex⟩

theorem inv_step (hmanifest : HasManifest archive) (hinv : Inv archive s) (hcareful : Careful s a)
    (h : Step archive s a s') : Inv archive s' := by
  cases h with
  | enter hpc =>
      simp only [Inv, hpc] at hinv ⊢
      exact hinv
  | current hpc hserved =>
      simp only [Inv, hpc] at hinv
      exact installed_of_served hinv hserved
  | unindexed hpc hserved hnone =>
      simp only [Inv, hpc] at hinv
      obtain ⟨⟨image, _, _, hindex⟩, _⟩ := installed_of_served hinv hserved
      rw [hnone] at hindex
      cases hindex
  | reindex hpc =>
      simp only [Inv, hpc] at hinv
  | stale hpc hserved himage =>
      simp only [Inv, hpc] at hinv
      exact version_of_stale hmanifest hinv hserved himage
  | absent hpc himage =>
      simp only [Inv, hpc] at hinv
      exact ⟨hinv, himage⟩
  | removeSome hpc =>
      simp only [Inv, hpc] at hinv ⊢
      exact hinv
  | removeAll hpc =>
      simp only [Inv, hpc] at hinv
      exact ⟨hinv, rfl⟩
  | removeIndex hpc =>
      simp only [Inv, hpc] at hinv
      exact hinv
  | @removeVersion kept hpc =>
      simp only [Inv, hpc] at hinv
      refine ⟨promised_of_version ?_, hinv.2⟩
      cases kept with
      | true => exact hinv.1
      | false => simp
  | extract hpc _ hextracted =>
      simp only [Inv, hpc] at hinv
      exact ⟨hinv.1, hinv.2, hextracted⟩
  | @rename image hpc himage =>
      simp only [Inv, hpc] at hinv
      refine ⟨fun hversion => ?_, image, hinv.2.2, rfl⟩
      obtain ⟨image', hextracted, _, hindex⟩ := hinv.1 hversion
      have hsame : image = image' := Option.some.inj (hinv.2.2.symm.trans hextracted)
      exact ⟨image', hextracted, Or.inr (by rw [hsame]), hindex⟩
  | renameBlocked hpc himage =>
      simp only [Inv, hpc] at hinv
      rw [hinv.2.1] at himage
      cases himage
  | @openIndex image hpc himage =>
      simp only [Inv, hpc] at hinv
      obtain ⟨_, image', hextracted, himage'⟩ := hinv
      have hsame : image = image' := Option.some.inj (himage.symm.trans himage')
      exact ⟨image', hextracted, himage', by rw [hsame]⟩
  | @writeSome fresh content written hpc =>
      cases fresh with
      | false => simp only [Inv, hpc] at hinv
      | true =>
          simp only [Inv, hpc] at hinv ⊢
          exact hinv
  | writtenFresh hpc =>
      simp only [Inv, hpc] at hinv
      obtain ⟨image, hextracted, himage, hcontent⟩ := hinv
      exact ⟨image, hextracted, himage, by rw [hcontent]⟩
  | writtenAgain hpc => simp only [Inv, hpc] at hinv
  | versionSome hpc =>
      simp only [Inv, hpc] at hinv ⊢
      exact hinv
  | versionWritten hpc =>
      simp only [Inv, hpc] at hinv
      exact ⟨hinv, rfl⟩
  | give hpc =>
      simp only [Inv, hpc] at hinv
      exact hinv.1.promised
  | stop =>
      have hpromised := promised_of_stop hinv hcareful
      exact hpromised
  | collect hpc =>
      simp only [Inv, hpc] at hinv ⊢
      intro hversion
      obtain ⟨image, hextracted, _, hindex⟩ := hinv hversion
      exact ⟨image, hextracted, Or.inl rfl, hindex⟩
  | archiveChanges => exact hinv

/-- The invariant gives what the claim asks of a call that returns. -/
theorem sound_of_inv (hmanifest : HasManifest archive) (hlimits : Limited archive)
    (hinv : Inv archive s) : Sound archive s := by
  refine ⟨fun cached hpc => ?_, fun cached hpc s₁ s₂ s₃ hgive henter hstep => ?_⟩ <;>
    simp only [Inv, hpc] at hinv
  · obtain ⟨⟨image, hextracted, himage, hindex⟩, _⟩ := hinv
    exact ⟨image, hextracted, himage, _, hindex,
      PackageImage.decodeIndex_encodeIndex (hlimits image hextracted)⟩
  · have hserved := served_of_installed hmanifest hinv.1 hinv.2
    obtain ⟨image, _, himage, hindex⟩ := hinv.1
    cases hgive
    cases henter
    cases hstep with
    | current => rfl
    | _ => simp_all [served]

end Steps

/-- In every run in which no call stops over a partly written index behind a current
marker, every call that returns leaves the complete image, and the next call uses it. -/
theorem ensureImage_sound {archive : Archive} (hmanifest : HasManifest archive)
    (hlimits : Limited archive) {s : State}
    (h : (protocol archive).Reaches Careful s) : Sound archive s := by
  refine sound_of_inv hmanifest hlimits (h.invariant (I := Inv archive) ?_
    fun s a s' hinv hcareful hstep => inv_step hmanifest hinv hcareful hstep)
  rintro s ⟨hpc, hversion⟩
  simp only [Inv, hpc]
  exact promised_of_version hversion

namespace Example

def imageOf (name : Str) : Image := Std.ExtTreeMap.empty.insert name (.file [])

/-- Archives that extract to one file. -/
def single (name : Str) : Archive where
  extracted := some (imageOf name)
  manifestIsFile image := image.contains (lit "package.json")

def absent : State := ⟨true, none, none, none, .free⟩

/-- After a first call. -/
def stored (name : Str) : State where
  archived := true
  image := some (imageOf name)
  index := some (PackageImage.fromDirectoryIndex (imageOf name))
  version := some layoutVersion
  pc := .returning false

/-- After a call on the collected image was killed over its index, and one more call. -/
def truncated (name : Str) : State where
  archived := true
  image := some (imageOf name)
  index := some []
  version := some layoutVersion
  pc := .returning true

theorem stored_reaches (name : Str) {allowed : State → Action → Prop}
    (hallowed : ∀ s a, a ≠ .stop → allowed s a) :
    (protocol (single name)).Reaches allowed (stored name) := by
  have hstep : ∀ s, allowed s .step := fun s => hallowed s .step (by decide)
  have hstart : (protocol (single name)).Reaches allowed absent := .start ⟨rfl, by decide⟩
  have henter := hstart.next (hallowed _ .enter (by decide)) (.enter rfl)
  have habsent := henter.next (hstep _) (.absent rfl rfl)
  have hextract := habsent.next (hstep _) (.extract rfl rfl rfl)
  have hrename := hextract.next (hstep _) (.rename rfl rfl)
  have hopen := hrename.next (hstep _) (.openIndex rfl rfl)
  have hindex := hopen.next (hstep _) (.writtenFresh rfl)
  exact hindex.next (hstep _) (.versionWritten rfl)

theorem truncated_reachable :
    (protocol (single (lit "package.json"))).Reachable (truncated (lit "package.json")) := by
  have hstored := stored_reaches (lit "package.json") (fun _ _ _ => trivial)
  have hgiven := Protocol.Reachable.next hstored (.give rfl)
  have hcollected := hgiven.next (.collect rfl)
  have henter := hcollected.next (.enter rfl)
  have habsent := henter.next (.absent rfl rfl)
  have hextract := habsent.next (.extract rfl rfl rfl)
  have hrename := hextract.next (.rename rfl rfl)
  have hopen := hrename.next (.openIndex rfl rfl)
  have hstopped := hopen.next (.stop (by decide))
  have hagain := hstopped.next (.enter rfl)
  exact hagain.next (.current rfl (by decide) rfl)

theorem single_hasManifest : HasManifest (single (lit "package.json")) := by
  intro image himage
  obtain rfl := Option.some.inj himage
  decide

theorem single_limited : Limited (single (lit "package.json")) := by
  intro image himage
  obtain rfl := Option.some.inj himage
  have hindex : PackageImage.directoryIndex (imageOf (lit "package.json")) =
      [.file (lit "package.json")] := by decide +kernel
  rw [hindex]
  refine ⟨by decide, fun entry hentry => ?_⟩
  obtain rfl := List.mem_singleton.mp hentry
  have hreadable : (utf8 (lit "package.json")).length ≤ PackageImage.maxIndexString := by
    decide
  exact ⟨hreadable, nofun⟩

/-- A first call on a package. -/
theorem ensureImage_sound_stored :
    Sound (single (lit "package.json")) (stored (lit "package.json")) :=
  ensureImage_sound single_hasManifest single_limited
    (stored_reaches (lit "package.json") fun _ _ hstop hstopped => absurd hstopped hstop)

/-- A kill over the index behind a marker that the collector left is served as it is, and
an image without `package.json` is extracted by every call. -/
theorem ensureImage_unsound :
    ((protocol (single (lit "package.json"))).Reachable (truncated (lit "package.json")) ∧
      ¬Sound (single (lit "package.json")) (truncated (lit "package.json"))) ∧
    (protocol (single (lit "index.js"))).Reachable (stored (lit "index.js")) ∧
      ¬Sound (single (lit "index.js")) (stored (lit "index.js")) := by
  refine ⟨⟨truncated_reachable, fun h => ?_⟩,
    stored_reaches (lit "index.js") fun _ _ _ => trivial, fun h => ?_⟩
  · obtain ⟨image, _, _, bytes, hbytes, hdecoded⟩ := h.complete true rfl
    obtain rfl := Option.some.inj hbytes
    cases hdecoded
  · have hagain := h.again false rfl _ _ _ (.give rfl) (.enter rfl)
      (.stale rfl (by decide) rfl)
    cases congrArg State.pc hagain

end Example
end ImageStore
end Bpm
