import Bpm.Lib.FileTree
import Bpm.Lib.Run
import Bpm.Derived.Key
import Bpm.Store.ImageIndex

/-!
# The store of derived images

An image is built by a callback, between the steps that prepare its staging directory
and the steps that validate and publish it.  Each of them may fail; a failure of the
callback keeps a kind of its own.
-/

namespace Bpm

open Text

structure SandboxFailure where
  package : Str
  phase : Str
  exitCode : Option Int
  stderr : Str
deriving DecidableEq

/-- The failures of the store itself are told apart by their texts only. -/
inductive DerivedError
  | store (message : Str)
  | sandbox (failure : SandboxFailure)
deriving DecidableEq

structure DerivedRef (δ : Type) where
  key : δ
  imagePath : Str
  metadataPath : Str
deriving DecidableEq

inductive EnsureDerived (δ : Type)
  | hit (reference : DerivedRef δ)
  | built (reference : DerivedRef δ)
  | skipped
deriving DecidableEq

/-- What the store does to the disk and to the metadata, step by step. -/
structure DerivedHost (σ δ : Type) where
  derivedKey : DerivedInputs → δ
  derivedPath : δ → Str
  acquireLock : δ → Run Str σ Unit
  releaseLock : δ → σ → σ
  pathExists : Str → σ → Bool
  /-- `validate_published`, and `access_derived` with the record it gives. -/
  validatePublished : δ → Str → Run Str σ Unit
  accessDerived : δ → Run Str σ Unit
  createStaging : δ → Run Str σ Str
  dropStaging : Str → σ → σ
  copyTree : Str → Str → Run Str σ Unit
  validateTree : Str → Run Str σ Unit
  treeIdentity : Str → Run Str σ (Str × Nat)
  writeMetadata : Str → DerivedInputs → Str × Nat → Run Str σ Unit
  sealTreeContents : Str → Run Str σ Unit
  createParent : Str → Run Str σ Unit
  rename : Str → Str → Run Str σ Unit
  sealPath : Str → Run Str σ Unit
  recordFor : δ → Run Str σ Unit
  publishDerived : δ → Run Str σ Unit

namespace DerivedStore

variable {σ δ : Type} (host : DerivedHost σ δ)

def derivedRef (key : δ) : DerivedRef δ where
  key := key
  imagePath := host.derivedPath key ++ lit "/image"
  metadataPath := host.derivedPath key ++ lit "/metadata.json"

def stagingImage (staging : Str) : Str := staging ++ lit "/image"

/-- A published image is valid and used once more. -/
def accessPublished (key : δ) : Run Str σ (EnsureDerived δ) := do
  host.validatePublished key (host.derivedPath key)
  host.accessDerived key
  return .hit (derivedRef host key)

/-- What follows the build. -/
def publish (inputs : DerivedInputs) (key : δ) (staging : Str) : Run Str σ (EnsureDerived δ) := do
  host.validateTree (stagingImage staging)
  let identity ← host.treeIdentity (stagingImage staging)
  host.writeMetadata staging inputs identity
  host.sealTreeContents staging
  host.createParent (host.derivedPath key)
  let renamed ← Run.recover (do
      host.rename staging (host.derivedPath key)
      return none)
    fun source => do
      let s ← Run.get
      if host.pathExists (host.derivedPath key) s then
        let hit ← accessPublished host key
        return some hit
      else Run.fail source
  match renamed with
  | some hit => return hit
  | none => do
      host.sealPath (host.derivedPath key)
      host.recordFor key
      host.publishDerived key
      return .built (derivedRef host key)

section Ensure

variable (inputs : DerivedInputs) (sourceImage : Str) (build : Str → Run SandboxFailure σ Unit)

/-- A staging directory is filled, built in and published. -/
def buildImage (staging : Str) : Run DerivedError σ (EnsureDerived δ) := do
  Run.mapError .store (host.copyTree sourceImage (stagingImage staging))
  Run.mapError .sandbox (build (stagingImage staging))
  Run.mapError .store (publish host inputs (host.derivedKey inputs) staging)

def ensureLocked : Run DerivedError σ (EnsureDerived δ) := do
  let s ← Run.get
  if host.pathExists (host.derivedPath (host.derivedKey inputs)) s then
    Run.mapError .store (accessPublished host (host.derivedKey inputs))
  else do
    let staging ← Run.mapError .store (host.createStaging (host.derivedKey inputs))
    Run.cleanup (host.dropStaging staging) (buildImage host inputs sourceImage build staging)

/-- `DerivedStore::ensure`; the staging directory and the lock go at the end. -/
def ensure (ignoreScripts : Bool) : Run DerivedError σ (EnsureDerived δ) :=
  if ignoreScripts then pure .skipped
  else do
    Run.mapError .store (host.acquireLock (host.derivedKey inputs))
    Run.cleanup (host.releaseLock (host.derivedKey inputs))
      (ensureLocked host inputs sourceImage build)

/-- The build succeeds, and a step after it fails. -/
inductive FailsAfterBuild (s : σ) : σ → Prop
  | intro {staging message : Str} {s₁ s₂ s₃ s₄ s₅ : σ}
      (hlock : host.acquireLock (host.derivedKey inputs) s = (.ok (), s₁))
      (hmiss : host.pathExists (host.derivedPath (host.derivedKey inputs)) s₁ = false)
      (hstaging : host.createStaging (host.derivedKey inputs) s₁ = (.ok staging, s₂))
      (hcopy : host.copyTree sourceImage (stagingImage staging) s₂ = (.ok (), s₃))
      (hbuild : build (stagingImage staging) s₃ = (.ok (), s₄))
      (hpublish : publish host inputs (host.derivedKey inputs) staging s₄ = (.error message, s₅)) :
      FailsAfterBuild s (host.releaseLock (host.derivedKey inputs) (host.dropStaging staging s₅))

end Ensure

/-! ## Validation of a tree -/

section Validation

open FileTree

/-- One step of the target of a link, `depth` names below the root of the image. -/
def linkStep (depth : Nat) : Component → Except Str Nat
  | .curDir => .ok depth
  | .normal _ => .ok (depth + 1)
  | .parentDir =>
      if depth > 0 then .ok (depth - 1) else .error (lit "symlink target escapes image root")
  | .rootDir => .error (lit "prefixed symlink target is not allowed")

def validateLinkTarget (link target : Str) : Except Str Unit :=
  if target.head? = some '/' then .error (lit "absolute symlink target is not allowed")
  else ((components target).foldlM linkStep ((components link).length - 1)).map fun _ => ()

/-- The first entry that `validate_tree` refuses, with its reason. -/
def invalidEntry : Str × ImageNode → Option Str
  | (link, .symlink target) =>
      match validateLinkTarget link target with
      | .error reason => some (lit "invalid derived image at " ++ link ++ lit ": " ++ reason)
      | .ok _ => none
  | _ => none

def validateTree (image : Image) : Except Str Unit :=
  match image.toList.findSome? invalidEntry with
  | some message => .error message
  | none => .ok ()

end Validation

/-! ## What the callback does and the store does not -/

section Outcomes

variable {γ : Type} (obs : σ → γ)

/-- Nothing that `obs` sees is changed. -/
def Silent {ε α : Type} (m : Run ε σ α) : Prop :=
  ∀ c, Run.Keeps (fun s => obs s = c) (fun _ => True) m

structure SilentHost : Prop where
  acquireLock : ∀ key, Silent obs (host.acquireLock key)
  releaseLock : ∀ key s, obs (host.releaseLock key s) = obs s
  validatePublished : ∀ key path, Silent obs (host.validatePublished key path)
  accessDerived : ∀ key, Silent obs (host.accessDerived key)
  createStaging : ∀ key, Silent obs (host.createStaging key)
  dropStaging : ∀ staging s, obs (host.dropStaging staging s) = obs s
  copyTree : ∀ src dst, Silent obs (host.copyTree src dst)
  validateTree : ∀ path, Silent obs (host.validateTree path)
  treeIdentity : ∀ path, Silent obs (host.treeIdentity path)
  writeMetadata : ∀ path inputs identity, Silent obs (host.writeMetadata path inputs identity)
  sealTreeContents : ∀ path, Silent obs (host.sealTreeContents path)
  createParent : ∀ path, Silent obs (host.createParent path)
  rename : ∀ src dst, Silent obs (host.rename src dst)
  sealPath : ∀ path, Silent obs (host.sealPath path)
  recordFor : ∀ key, Silent obs (host.recordFor key)
  publishDerived : ∀ key, Silent obs (host.publishDerived key)

variable {host obs}

theorem Silent.eq {ε α : Type} {m : Run ε σ α} (h : Silent obs m) {s s' : σ} {r : Except ε α}
    (hrun : m s = (r, s')) : obs s' = obs s := by
  have hkeep := (h (obs s) s rfl).1
  rwa [hrun] at hkeep

theorem Silent.bind {ε α β : Type} {m : Run ε σ α} {f : α → Run ε σ β} (hm : Silent obs m)
    (hf : ∀ a, Silent obs (f a)) : Silent obs (m >>= f) :=
  fun c => Run.Keeps.bind (hm c) fun a _ => hf a c

theorem Silent.pure {ε α : Type} (a : α) : Silent obs (pure a : Run ε σ α) :=
  fun _ => Run.Keeps.pure trivial

theorem accessPublished_silent (hhost : SilentHost host obs) (key : δ) :
    Silent obs (accessPublished host key) :=
  (hhost.validatePublished key _).bind fun _ => (hhost.accessDerived key).bind fun _ =>
    Silent.pure _

theorem publish_silent (hhost : SilentHost host obs) (inputs : DerivedInputs) (key : δ)
    (staging : Str) : Silent obs (publish host inputs key staging) := by
  refine (hhost.validateTree _).bind fun _ => (hhost.treeIdentity _).bind fun identity =>
    (hhost.writeMetadata _ _ _).bind fun _ => (hhost.sealTreeContents _).bind fun _ =>
    (hhost.createParent _).bind fun _ => Silent.bind ?_ fun renamed => ?_
  · intro c
    refine Run.Keeps.recover ((hhost.rename _ _).bind (fun _ => Silent.pure _) c) fun source => ?_
    refine Run.Keeps.get_bind fun s => ?_
    split
    · exact (accessPublished_silent hhost key).bind (fun _ => Silent.pure _) c
    · exact Run.Keeps.fail
  · cases renamed with
    | some hit => exact Silent.pure _
    | none => exact (hhost.sealPath _).bind fun _ => (hhost.recordFor _).bind fun _ =>
        (hhost.publishDerived _).bind fun _ => Silent.pure _

variable {inputs : DerivedInputs} {sourceImage : Str} {build : Str → Run SandboxFailure σ Unit}

/-- How a call may end.  A failure of the callback is the failure of the call; after a
build, what `obs` sees is what it saw after the callback. -/
inductive Ensured (host : DerivedHost σ δ) (obs : σ → γ) (inputs : DerivedInputs)
    (sourceImage : Str) (build : Str → Run SandboxFailure σ Unit) (s : σ) :
    Except DerivedError (EnsureDerived δ) → σ → Prop
  | unbuilt {r : Except DerivedError (EnsureDerived δ)} {s' : σ} (hobs : obs s' = obs s)
      (hskipped : r ≠ .ok .skipped) (hsandbox : ∀ failure, r ≠ .error (.sandbox failure)) :
      Ensured host obs inputs sourceImage build s r s'
  | failed {staging : Str} {failure : SandboxFailure} {s₁ s₂ s' : σ} (hbefore : obs s₁ = obs s)
      (hbuild : build staging s₁ = (.error failure, s₂)) (hobs : obs s' = obs s₂) :
      Ensured host obs inputs sourceImage build s (.error (.sandbox failure)) s'
  | published {staging : Str} {outcome : EnsureDerived δ} {s₁ s₂ s' : σ}
      (hbefore : obs s₁ = obs s) (hbuild : build staging s₁ = (.ok (), s₂))
      (hobs : obs s' = obs s₂) (hskipped : outcome ≠ .skipped) :
      Ensured host obs inputs sourceImage build s (.ok outcome) s'
  | unpublished {staging message : Str} {s₁ s₂ s' : σ} (hbefore : obs s₁ = obs s)
      (hbuild : build staging s₁ = (.ok (), s₂)) (hobs : obs s' = obs s₂)
      (hfails : FailsAfterBuild host inputs sourceImage build s s') :
      Ensured host obs inputs sourceImage build s (.error (.store message)) s'

/-- Any computation keeps what is always true. -/
theorem keeps_true {ε α : Type} (m : Run ε σ α) :
    Run.Keeps (fun _ => True) (fun _ => True) m :=
  fun _ _ => ⟨trivial, fun _ _ => trivial⟩

/-- A published image is found or built, never skipped. -/
theorem accessPublished_ne_skipped (host : DerivedHost σ δ) (key : δ) :
    Run.Keeps (fun _ => True) (· ≠ .skipped) (accessPublished host key) :=
  (keeps_true _).bind fun _ _ => (keeps_true _).bind fun _ _ => Run.Keeps.pure nofun

theorem publish_ne_skipped (host : DerivedHost σ δ) (inputs : DerivedInputs) (key : δ)
    (staging : Str) :
    Run.Keeps (fun _ => True) (· ≠ .skipped) (publish host inputs key staging) := by
  refine (keeps_true _).bind fun _ _ => (keeps_true _).bind fun _ _ => (keeps_true _).bind
    fun _ _ => (keeps_true _).bind fun _ _ => (keeps_true _).bind fun _ _ =>
    Run.Keeps.bind (P := fun renamed => ∀ hit, renamed = some hit → hit ≠ .skipped) ?_
      fun renamed hrenamed => ?_
  · refine Run.Keeps.recover ((keeps_true _).bind fun _ _ => Run.Keeps.pure nofun) fun source => ?_
    refine Run.Keeps.get_bind fun s => ?_
    split
    · refine (accessPublished_ne_skipped host key).bind fun hit hhit => Run.Keeps.pure ?_
      intro other hother
      cases hother
      exact hhit
    · exact Run.Keeps.fail
  · cases renamed with
    | some hit => exact Run.Keeps.pure (hrenamed hit rfl)
    | none => exact (keeps_true _).bind fun _ _ => (keeps_true _).bind fun _ _ =>
        (keeps_true _).bind fun _ _ => Run.Keeps.pure nofun

/-- An outcome with the failures of the store wrapped. -/
theorem mapError_store_ne {α : Type} {m : Run Str σ α} {s s' : σ} {r : Except DerivedError α}
    (h : Run.mapError .store m s = (r, s')) :
    (∃ message, r = .error (.store message) ∧ m s = (.error message, s')) ∨
      ∃ a, r = .ok a ∧ m s = (.ok a, s') := by
  cases hm : m s with
  | mk r' s₁ =>
    cases r' with
    | error message =>
      rw [Run.mapError_error hm] at h
      cases h
      exact Or.inl ⟨message, rfl, rfl⟩
    | ok a =>
      rw [Run.mapError_ok hm] at h
      cases h
      exact Or.inr ⟨a, rfl, rfl⟩

variable {s s' s₁ s₂ : σ} {r : Except DerivedError (EnsureDerived δ)}

theorem ensured_of_buildImage (hhost : SilentHost host obs) {staging : Str}
    (hlock : host.acquireLock (host.derivedKey inputs) s = (.ok (), s₁))
    (hmiss : host.pathExists (host.derivedPath (host.derivedKey inputs)) s₁ = false)
    (hstaging : host.createStaging (host.derivedKey inputs) s₁ = (.ok staging, s₂))
    (h : buildImage host inputs sourceImage build staging s₂ = (r, s')) :
    Ensured host obs inputs sourceImage build s r
      (host.releaseLock (host.derivedKey inputs) (host.dropStaging staging s')) := by
  have hafter : obs (host.releaseLock (host.derivedKey inputs) (host.dropStaging staging s')) =
      obs s' := by
    rw [hhost.releaseLock, hhost.dropStaging]
  have hbefore : obs s₂ = obs s :=
    ((hhost.createStaging _).eq hstaging).trans ((hhost.acquireLock _).eq hlock)
  unfold buildImage at h
  rw [Run.bind_apply] at h
  cases hcopy : host.copyTree sourceImage (stagingImage staging) s₂ with
  | mk copied s₃ =>
  have hbefore₃ : obs s₃ = obs s := ((hhost.copyTree _ _).eq hcopy).trans hbefore
  cases copied with
  | error message =>
    rw [Run.mapError_error hcopy] at h
    cases h
    exact .unbuilt (hafter.trans hbefore₃) nofun nofun
  | ok _ =>
  rw [Run.mapError_ok hcopy] at h
  simp only [Run.bind_apply] at h
  cases hbuild : build (stagingImage staging) s₃ with
  | mk built s₄ =>
  cases built with
  | error failure =>
    rw [Run.mapError_error hbuild] at h
    cases h
    exact .failed hbefore₃ hbuild hafter
  | ok _ =>
  rw [Run.mapError_ok hbuild] at h
  rcases mapError_store_ne h with ⟨message, rfl, hpublish⟩ | ⟨outcome, rfl, hpublish⟩
  · exact .unpublished hbefore₃ hbuild (hafter.trans ((publish_silent hhost _ _ _).eq hpublish))
      (.intro hlock hmiss hstaging hcopy hbuild hpublish)
  · have hskipped :=
      (publish_ne_skipped host inputs (host.derivedKey inputs) staging s₄ trivial).2
    rw [hpublish] at hskipped
    exact .published hbefore₃ hbuild (hafter.trans ((publish_silent hhost _ _ _).eq hpublish))
      (hskipped outcome rfl)

theorem ensured_of_locked (hhost : SilentHost host obs)
    (hlock : host.acquireLock (host.derivedKey inputs) s = (.ok (), s₁))
    (h : ensureLocked host inputs sourceImage build s₁ = (r, s')) :
    Ensured host obs inputs sourceImage build s r
      (host.releaseLock (host.derivedKey inputs) s') := by
  have hobs₁ := (hhost.acquireLock _).eq hlock
  unfold ensureLocked at h
  rw [Run.bind_ok (show Run.get s₁ = (.ok s₁, s₁) from rfl)] at h
  split at h
  · rename_i hexists
    rcases mapError_store_ne h with ⟨message, rfl, hhit⟩ | ⟨outcome, rfl, hhit⟩
    · refine .unbuilt ?_ nofun nofun
      rw [hhost.releaseLock, (accessPublished_silent hhost _).eq hhit, hobs₁]
    · have hskipped :=
        (accessPublished_ne_skipped host (host.derivedKey inputs) s₁ trivial).2
      rw [hhit] at hskipped
      refine .unbuilt ?_ (fun hcontra => hskipped outcome rfl (Except.ok.inj hcontra)) nofun
      rw [hhost.releaseLock, (accessPublished_silent hhost _).eq hhit, hobs₁]
  · rename_i hmiss
    rw [Run.bind_apply] at h
    cases hstaging : host.createStaging (host.derivedKey inputs) s₁ with
    | mk created s₂ =>
    cases created with
    | error message =>
      rw [Run.mapError_error hstaging] at h
      cases h
      refine .unbuilt ?_ nofun nofun
      rw [hhost.releaseLock, (hhost.createStaging _).eq hstaging, hobs₁]
    | ok staging =>
      rw [Run.mapError_ok hstaging] at h
      simp only [Run.cleanup] at h
      cases h
      exact ensured_of_buildImage hhost hlock (Bool.eq_false_iff.mpr hmiss) hstaging rfl

theorem ensured (hhost : SilentHost host obs)
    (h : ensure host inputs sourceImage build false s = (r, s')) :
    Ensured host obs inputs sourceImage build s r s' := by
  unfold ensure at h
  rw [if_neg (by decide), Run.bind_apply] at h
  cases hlock : host.acquireLock (host.derivedKey inputs) s with
  | mk locked s₁ =>
  cases locked with
  | error message =>
    rw [Run.mapError_error hlock] at h
    cases h
    exact .unbuilt ((hhost.acquireLock _).eq hlock) nofun nofun
  | ok _ =>
    rw [Run.mapError_ok hlock] at h
    simp only [Run.cleanup] at h
    cases h
    exact ensured_of_locked hhost hlock rfl

/-- The failure after the build is the failure of the call. -/
theorem ensure_of_failsAfterBuild {s s' : σ}
    (h : FailsAfterBuild host inputs sourceImage build s s') :
    ∃ message, ensure host inputs sourceImage build false s = (.error (.store message), s') := by
  cases h with
  | @intro staging message s₁ s₂ s₃ s₄ s₅ hlock hmiss hstaging hcopy hbuild hpublish =>
    refine ⟨message, ?_⟩
    have himage : buildImage host inputs sourceImage build staging s₂ =
        (.error (.store message), s₅) := by
      unfold buildImage
      rw [Run.bind_ok (Run.mapError_ok hcopy), Run.bind_ok (Run.mapError_ok hbuild)]
      exact Run.mapError_error hpublish
    have hlocked : ensureLocked host inputs sourceImage build s₁ =
        (.error (.store message), host.dropStaging staging s₅) := by
      unfold ensureLocked
      rw [Run.bind_ok (show Run.get s₁ = (.ok s₁, s₁) from rfl), hmiss, if_neg (by decide),
        Run.bind_ok (Run.mapError_ok hstaging)]
      exact Run.cleanup_eq himage
    unfold ensure
    rw [if_neg (by decide), Run.bind_ok (Run.mapError_ok hlock)]
    exact Run.cleanup_eq hlocked

end Outcomes
end DerivedStore
end Bpm
