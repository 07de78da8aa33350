import Bpm.Lib.Bytes
import Bpm.Lib.Protocol

/-!
# The artifact store

Archives are filed under the SHA-512 of their bytes and trusted by existence.  Three
entry points write to that namespace: downloads, with and without known integrity,
downloads behind a remote cache, and bytes made locally.  Any number of processes call
them; each may be killed between two file system steps or in the middle of a write, and
what they receive is arbitrary.
-/

namespace Bpm
namespace ArtifactStore

variable {δ : Type}

/-- The entry point of a call and its arguments. -/
inductive Job (δ : Type)
  | origin (url : Str) (integrity : Option δ)
  | remote (url : Str) (integrity : Option δ)
  | bytes (content : Bytes)

structure ArtifactRef (δ : Type) where
  id : δ
  cached : Bool

namespace Job

def integrity : Job δ → Option δ
  | origin _ integrity | remote _ integrity => integrity
  | bytes _ => none

/-- The id that is known, and locked, before anything is received. -/
def known (sha512 : Bytes → δ) : Job δ → Option δ
  | origin _ integrity | remote _ integrity => integrity
  | bytes content => some (sha512 content)

/-- An artifact that was not created is reported as cached where the id was known. -/
def cachedOnFailure : Job δ → Bool
  | origin _ integrity | remote _ integrity => integrity.isSome
  | bytes _ => true

theorem integrity_of_known {sha512 : Bytes → δ} {job : Job δ} {id : δ}
    (h : job.known sha512 = some id) : ∀ d, job.integrity = some d → id = d := by
  intro d hd
  cases job with
  | origin | remote => exact Option.some.inj (h.symm.trans hd)
  | bytes => cases hd

end Job

/-- The largest artifact that is kept. -/
def maxArtifactBytes : Nat := 512 * 1024 * 1024

/-- Where a process stands; temporary files are numbered. -/
inductive Pc (δ : Type)
  | idle
  | locking (job : Job δ) (id : δ)
  | checking (job : Job δ) (id : δ)
  -- the remote cache: receiving into a temporary file, then hashing that file
  | fetchingRemote (job : Job δ) (id : δ) (temp : Nat)
  | hashing (job : Job δ) (id : δ) (temp : Nat)
  -- the origin: receiving and hashing at the same time
  | opening (job : Job δ)
  | streaming (job : Job δ) (temp : Nat) (received : Bytes)
  | retrieved (job : Job δ) (temp : Nat) (computed : δ)
  | writing (job : Job δ) (id : δ) (temp : Nat) (content : Bytes)
  -- `publish_file`
  | publishing (job : Job δ) (id : δ) (temp : Nat)
  | refused (job : Job δ) (id : δ)
  | returning (job : Job δ) (ref : ArtifactRef δ)

namespace Pc

/-- The temporary file that a process works on. -/
def temp : Pc δ → Option Nat
  | fetchingRemote _ _ n | hashing _ _ n | streaming _ n _ | retrieved _ n _ | writing _ _ n _
  | publishing _ _ n => some n
  | _ => none

/-- The digest lock that a process holds. -/
def lock (sha512 : Bytes → δ) : Pc δ → Option δ
  | idle | locking _ _ => none
  | checking job _ | fetchingRemote job _ _ | hashing job _ _ | opening job | streaming job _ _
  | retrieved job _ _ | writing job _ _ _ | publishing job _ _ | refused job _
  | returning job _ => job.known sha512

end Pc

structure World (δ : Type) where
  artifacts : δ → Option Bytes
  temps : Nat → Option Bytes
  pc : Nat → Pc δ
  returned : List (Job δ × ArtifactRef δ)

namespace World

def setPc (w : World δ) (p : Nat) (pc : Pc δ) : World δ :=
  { w with pc := Function.update w.pc p pc }

def setTemp (w : World δ) (n : Nat) (content : Option Bytes) : World δ :=
  { w with temps := Function.update w.temps n content }

/-- `let _ = fs::remove_file(..)`: the file may stay. -/
def removeTemp (w : World δ) (n : Nat) (kept : Bool) : World δ :=
  w.setTemp n (if kept then w.temps n else none)

def setArtifact [DecidableEq δ] (w : World δ) (id : δ) (content : Bytes) : World δ :=
  { w with artifacts := Function.update w.artifacts id (some content) }

/-- A name that no temporary file has, nor will get from another process. -/
def Unused (w : World δ) (n : Nat) : Prop := w.temps n = none ∧ ∀ q, (w.pc q).temp ≠ some n

end World

inductive Action (δ : Type)
  | call (p : Nat) (job : Job δ)
  | step (p : Nat)
  | receive (p : Nat) (bytes : Bytes)
  | give (p : Nat)
  | stop (p : Nat)

variable [DecidableEq δ]

/-- One process takes its next file system step. -/
inductive Step (sha512 : Bytes → δ) : World δ → Action δ → World δ → Prop
  | callKnown {w p job id} : w.pc p = .idle → job.known sha512 = some id →
      Step sha512 w (.call p job) (w.setPc p (.locking job id))
  | callAnonymous {w p job} : w.pc p = .idle → job.known sha512 = none →
      Step sha512 w (.call p job) (w.setPc p (.opening job))
  | lock {w p job id} : w.pc p = .locking job id → (∀ q, (w.pc q).lock sha512 ≠ some id) →
      Step sha512 w (.step p) (w.setPc p (.checking job id))
  | hit {w p job id} : w.pc p = .checking job id → (w.artifacts id).isSome = true →
      Step sha512 w (.step p) (w.setPc p (.returning job ⟨id, true⟩))
  | missOrigin {w p url integrity id} : w.pc p = .checking (.origin url integrity) id →
      w.artifacts id = none →
      Step sha512 w (.step p) (w.setPc p (.opening (.origin url integrity)))
  | missRemote {w p url integrity id n} : w.pc p = .checking (.remote url integrity) id →
      w.artifacts id = none → w.Unused n →
      Step sha512 w (.step p) (w.setPc p (.fetchingRemote (.remote url integrity) id n))
  | missBytes {w p content id n} : w.pc p = .checking (.bytes content) id →
      w.artifacts id = none → w.Unused n →
      Step sha512 w (.step p) (w.setPc p (.writing (.bytes content) id n content))
  -- the remote cache answers with anything, in as many writes as it likes
  | remoteReceives {w p job id n content} : w.pc p = .fetchingRemote job id n →
      Step sha512 w (.receive p content) (w.setTemp n (some content))
  | remoteHit {w p job id n} : w.pc p = .fetchingRemote job id n →
      Step sha512 w (.step p) (w.setPc p (.hashing job id n))
  | remoteMiss {w p job id n kept} : w.pc p = .fetchingRemote job id n →
      Step sha512 w (.step p) ((w.removeTemp n kept).setPc p (.opening job))
  | hashOk {w p job id n content} : w.pc p = .hashing job id n → w.temps n = some content →
      sha512 content = id →
      Step sha512 w (.step p) (w.setPc p (.publishing job id n))
  | hashBad {w p job id n content kept} : w.pc p = .hashing job id n →
      w.temps n = some content → sha512 content ≠ id →
      Step sha512 w (.step p) ((w.removeTemp n kept).setPc p (.opening job))
  | create {w p job n} : w.pc p = .opening job → w.Unused n →
      Step sha512 w (.step p) ((w.setTemp n (some [])).setPc p (.streaming job n []))
  -- a chunk is hashed; the buffered writer has written some of what was received
  | chunk {w p job n received chunk written} : w.pc p = .streaming job n received →
      (received ++ chunk).length ≤ maxArtifactBytes → written <+: received ++ chunk →
      Step sha512 w (.receive p chunk)
        ((w.setTemp n (some written)).setPc p (.streaming job n (received ++ chunk)))
  | flush {w p job n received} : w.pc p = .streaming job n received →
      Step sha512 w (.step p)
        ((w.setTemp n (some received)).setPc p (.retrieved job n (sha512 received)))
  | verified {w p job n computed} : w.pc p = .retrieved job n computed →
      job.integrity = some computed →
      Step sha512 w (.step p) (w.setPc p (.publishing job computed n))
  | named {w p job n computed} : w.pc p = .retrieved job n computed → job.integrity = none →
      w.artifacts computed = none →
      Step sha512 w (.step p) (w.setPc p (.publishing job computed n))
  | redundant {w p job n computed kept} : w.pc p = .retrieved job n computed →
      job.integrity = none → (w.artifacts computed).isSome = true →
      Step sha512 w (.step p) ((w.removeTemp n kept).setPc p (.returning job ⟨computed, true⟩))
  | writeSome {w p job id n content written} : w.pc p = .writing job id n content →
      written <+: content → Step sha512 w (.step p) (w.setTemp n (some written))
  | written {w p job id n content} : w.pc p = .writing job id n content →
      Step sha512 w (.step p) ((w.setTemp n (some content)).setPc p (.publishing job id n))
  | rename {w p job id n content} : w.pc p = .publishing job id n → w.temps n = some content →
      Step sha512 w (.step p)
        (((w.setArtifact id content).setTemp n none).setPc p (.returning job ⟨id, false⟩))
  | renameFails {w p job id n kept} : w.pc p = .publishing job id n →
      Step sha512 w (.step p) ((w.removeTemp n kept).setPc p (.refused job id))
  | present {w p job id} : w.pc p = .refused job id → (w.artifacts id).isSome = true →
      Step sha512 w (.step p) (w.setPc p (.returning job ⟨id, job.cachedOnFailure⟩))
  | give {w p job ref} : w.pc p = .returning job ref →
      Step sha512 w (.give p) { w.setPc p .idle with returned := (job, ref) :: w.returned }
  -- an error or a kill; the temporary file is removed or stays
  | stop {w p n kept} : (w.pc p).temp = some n →
      Step sha512 w (.stop p) ((w.removeTemp n kept).setPc p .idle)
  | stopBare {w p} : (w.pc p).temp = none → Step sha512 w (.stop p) (w.setPc p .idle)

/-- Nothing in the store, idle processes. -/
def protocol (sha512 : Bytes → δ) : Protocol (World δ) (Action δ) where
  init w := (∀ id, w.artifacts id = none) ∧ (∀ n, w.temps n = none) ∧
    (∀ p, w.pc p = .idle) ∧ w.returned = []
  step := Step sha512

/-- Every stored file is filed under its hash, and so is what each call has returned,
under the expected hash if there was one. -/
structure Verified (sha512 : Bytes → δ) (w : World δ) : Prop where
  artifacts : ∀ id content, w.artifacts id = some content → sha512 content = id
  returned : ∀ job ref, (job, ref) ∈ w.returned →
    (∃ content, w.artifacts ref.id = some content ∧ sha512 content = ref.id) ∧
      ∀ d, job.integrity = some d → ref.id = d

/-- What a process relies on in its own temporary file, and about the id it will return. -/
def Pc.Ok (sha512 : Bytes → δ) (artifacts : δ → Option Bytes) (temps : Nat → Option Bytes) :
    Pc δ → Prop
  | locking job id | checking job id | fetchingRemote job id _ | hashing job id _ =>
      job.known sha512 = some id
  | retrieved _ n computed => ∃ content, temps n = some content ∧ sha512 content = computed
  | writing job id _ content => sha512 content = id ∧ job.known sha512 = some id
  | publishing job id n => (∃ content, temps n = some content ∧ sha512 content = id) ∧
      ∀ d, job.integrity = some d → id = d
  | refused job id => ∀ d, job.integrity = some d → id = d
  | returning job ref => (artifacts ref.id).isSome = true ∧
      ∀ d, job.integrity = some d → ref.id = d
  | idle | opening _ | streaming _ _ _ => True

structure Inv (sha512 : Bytes → δ) (w : World δ) : Prop where
  artifacts : ∀ id content, w.artifacts id = some content → sha512 content = id
  returned : ∀ job ref, (job, ref) ∈ w.returned → (w.artifacts ref.id).isSome = true ∧
    ∀ d, job.integrity = some d → ref.id = d
  ok : ∀ p, (w.pc p).Ok sha512 w.artifacts w.temps
  own : ∀ p q n, (w.pc p).temp = some n → (w.pc q).temp = some n → p = q

section Steps

variable {sha512 : Bytes → δ} {w w' : World δ} {a : Action δ}

omit [DecidableEq δ] in
/-- A process is not disturbed by files that appear and by other temporary files. -/
theorem Pc.Ok.mono {pc : Pc δ} {artifacts artifacts' : δ → Option Bytes}
    {temps temps' : Nat → Option Bytes} (h : pc.Ok sha512 artifacts temps)
    (hartifacts : ∀ id, (artifacts id).isSome = true → (artifacts' id).isSome = true)
    (htemps : ∀ n, pc.temp = some n → temps' n = temps n) : pc.Ok sha512 artifacts' temps' := by
  cases pc with
  | retrieved =>
      obtain ⟨content, hcontent, hhash⟩ := h
      exact ⟨content, by rw [htemps _ rfl]; exact hcontent, hhash⟩
  | publishing =>
      obtain ⟨⟨content, hcontent, hhash⟩, hid⟩ := h
      exact ⟨⟨content, by rw [htemps _ rfl]; exact hcontent, hhash⟩, hid⟩
  | returning => exact ⟨hartifacts _ h.1, h.2⟩
  | _ => exact h

omit [DecidableEq δ] in
/-- One process goes on: stored files stay and are verified, other temporary files are
left alone, and the process keeps its own or takes an unused one. -/
theorem Inv.advance (hinv : Inv sha512 w) {p : Nat}
    (hartifacts : ∀ id content, w'.artifacts id = some content → sha512 content = id)
    (hgrow : ∀ id, (w.artifacts id).isSome = true → (w'.artifacts id).isSome = true)
    (hreturned : ∀ job ref, (job, ref) ∈ w'.returned → (w'.artifacts ref.id).isSome = true ∧
      ∀ d, job.integrity = some d → ref.id = d)
    (hpcs : ∀ q, q ≠ p → w'.pc q = w.pc q)
    (hothers : ∀ q, q ≠ p → ∀ n, (w.pc q).temp = some n → w'.temps n = w.temps n)
    (hown : ∀ n, (w'.pc p).temp = some n → ∀ q, q ≠ p → (w.pc q).temp ≠ some n)
    (hok : (w'.pc p).Ok sha512 w'.artifacts w'.temps) : Inv sha512 w' where
  artifacts := hartifacts
  returned := hreturned
  ok q := by
    by_cases hq : q = p
    · rw [hq]
      exact hok
    · rw [hpcs q hq]
      exact (hinv.ok q).mono hgrow (hothers q hq)
  own q r n hq hr := by
    by_cases hqp : q = p <;> by_cases hrp : r = p
    · rw [hqp, hrp]
    · rw [hpcs r hrp] at hr
      exact absurd hr (hown n (hqp ▸ hq) r hrp)
    · rw [hpcs q hqp] at hq
      exact absurd hq (hown n (hrp ▸ hr) q hqp)
    · rw [hpcs q hqp] at hq
      rw [hpcs r hrp] at hr
      exact hinv.own q r n hq hr

omit [DecidableEq δ] in
/-- A step that changes a process and one temporary file that no other process has. -/
theorem Inv.advanceTemp (hinv : Inv sha512 w) {p n : Nat} {content : Option Bytes} {pc : Pc δ}
    (hn : ∀ q, q ≠ p → (w.pc q).temp ≠ some n) (htemp : ∀ m, pc.temp = some m → m = n)
    (hok : pc.Ok sha512 w.artifacts (Function.update w.temps n content)) :
    Inv sha512 ((w.setTemp n content).setPc p pc) := by
  have hself : ((w.setTemp n content).setPc p pc).pc p = pc := Function.update_self ..
  refine hinv.advance (p := p) hinv.artifacts (fun _ h => h) hinv.returned
    (fun q hq => Function.update_of_ne hq _ _) (fun q hq m hm => ?_) (fun m hm => ?_) ?_
  · have hne : m ≠ n := fun h => hn q hq (h ▸ hm)
    exact Function.update_of_ne hne _ _
  · rw [hself] at hm
    rw [htemp m hm]
    exact hn
  · rw [hself]
    exact hok

omit [DecidableEq δ] in
/-- A step that changes a process only. -/
theorem Inv.advancePc (hinv : Inv sha512 w) {p : Nat} {pc : Pc δ}
    (hn : ∀ n, pc.temp = some n → ∀ q, q ≠ p → (w.pc q).temp ≠ some n)
    (hok : pc.Ok sha512 w.artifacts w.temps) : Inv sha512 (w.setPc p pc) := by
  have hself : (w.setPc p pc).pc p = pc := Function.update_self ..
  refine hinv.advance (p := p) hinv.artifacts (fun _ h => h) hinv.returned
    (fun q hq => Function.update_of_ne hq _ _) (fun _ _ _ _ => rfl) (fun m hm => ?_) ?_
  · rw [hself] at hm
    exact hn m hm
  · rw [hself]
    exact hok

omit [DecidableEq δ] in
/-- The temporary file of a process is its own. -/
theorem Inv.alone (hinv : Inv sha512 w) {p n : Nat} (h : (w.pc p).temp = some n) :
    ∀ q, q ≠ p → (w.pc q).temp ≠ some n :=
  fun q hq hqn => hq (hinv.own q p n hqn h)

omit [DecidableEq δ] in
/-- Removing the file of a process that goes on without one. -/
theorem Inv.advanceRemoved (hinv : Inv sha512 w) {p n : Nat} {kept : Bool} {pc : Pc δ}
    (hp : (w.pc p).temp = some n) (htemp : pc.temp = none)
    (hok : ∀ temps, pc.Ok sha512 w.artifacts temps) :
    Inv sha512 ((w.removeTemp n kept).setPc p pc) := by
  refine hinv.advanceTemp (hinv.alone hp) (fun m hm => ?_) (hok _)
  rw [htemp] at hm
  cases hm

omit [DecidableEq δ] in
/-- A write into the file of a process that stays where it is. -/
theorem Inv.rewrite (hinv : Inv sha512 w) {p n : Nat} {content : Option Bytes}
    (hp : (w.pc p).temp = some n)
    (hok : (w.pc p).Ok sha512 w.artifacts (Function.update w.temps n content)) :
    Inv sha512 (w.setTemp n content) := by
  have hstay : (w.setTemp n content).setPc p (w.pc p) = w.setTemp n content := by
    simp [World.setPc, World.setTemp]
  rw [← hstay]
  refine hinv.advanceTemp (hinv.alone hp) (fun m hm => ?_) hok
  rw [hp] at hm
  exact (Option.some.inj hm).symm

/-- Publishing bytes under their hash. -/
theorem Inv.publish (hinv : Inv sha512 w) {p n : Nat} {job : Job δ} {id : δ} {content : Bytes}
    (hpc : w.pc p = .publishing job id n) (hcontent : w.temps n = some content) :
    Inv sha512 (((w.setArtifact id content).setTemp n none).setPc p (.returning job ⟨id, false⟩)) := by
  have hok := hinv.ok p
  rw [hpc] at hok
  obtain ⟨⟨stored, hstored, hhash⟩, hid⟩ := hok
  have hsame : stored = content := Option.some.inj (hstored.symm.trans hcontent)
  have hgrow : ∀ id', (w.artifacts id').isSome = true →
      (Function.update w.artifacts id (some content) id').isSome = true := by
    intro id' h
    rw [Function.update_apply]
    split
    · rfl
    · exact h
  have hpcp : (((w.setArtifact id content).setTemp n none).setPc p
      (.returning job ⟨id, false⟩)).pc p = .returning job ⟨id, false⟩ := Function.update_self ..
  refine hinv.advance (p := p) ?_ hgrow (fun job' ref h => ?_)
    (fun q hq => Function.update_of_ne hq _ _) (fun q hq m hm => ?_) (fun m hm => ?_) ?_
  · intro id' content' h
    simp only [World.setPc, World.setTemp, World.setArtifact, Function.update_apply] at h
    split at h
    · rename_i hid'
      rw [← Option.some.inj h, hid', ← hsame, hhash]
    · exact hinv.artifacts id' content' h
  · exact ⟨hgrow _ (hinv.returned job' ref h).1, (hinv.returned job' ref h).2⟩
  · have hne : m ≠ n := fun h => hinv.alone (by rw [hpc]; rfl) q hq (h ▸ hm)
    exact Function.update_of_ne hne _ _
  · rw [hpcp] at hm
    cases hm
  · rw [hpcp]
    exact ⟨by simp [World.setPc, World.setTemp, World.setArtifact], hid⟩

theorem inv_step (hinv : Inv sha512 w) (h : Step sha512 w a w') : Inv sha512 w' := by
  cases h with
  | callKnown _ hknown => exact hinv.advancePc (fun _ h => by cases h) hknown
  | callAnonymous => exact hinv.advancePc (fun _ h => by cases h) trivial
  | @lock p job id hpc =>
      have hok := hinv.ok p
      rw [hpc] at hok
      exact hinv.advancePc (fun _ h => by cases h) hok
  | @hit p job id hpc hsome =>
      have hok := hinv.ok p
      rw [hpc] at hok
      exact hinv.advancePc (fun _ h => by cases h) ⟨hsome, Job.integrity_of_known hok⟩
  | missOrigin => exact hinv.advancePc (fun _ h => by cases h) trivial
  | @missRemote p url integrity id n hpc _ hunused =>
      have hok := hinv.ok p
      rw [hpc] at hok
      refine hinv.advancePc (fun m hm q _ => ?_) hok
      cases hm
      exact hunused.2 q
  | @missBytes p content id n hpc _ hunused =>
      have hok := hinv.ok p
      rw [hpc] at hok
      refine hinv.advancePc (fun m hm q _ => ?_) ⟨Option.some.inj hok, hok⟩
      cases hm
      exact hunused.2 q
  | @remoteReceives p job id n content hpc =>
      have hok := hinv.ok p
      rw [hpc] at hok
      exact hinv.rewrite (p := p) (by rw [hpc]; rfl) (by rw [hpc]; exact hok)
  | @remoteHit p job id n hpc =>
      have hok := hinv.ok p
      rw [hpc] at hok
      refine hinv.advancePc (fun m hm => ?_) hok
      cases hm
      exact hinv.alone (by rw [hpc]; rfl)
  | @remoteMiss p job id n kept hpc =>
      exact hinv.advanceRemoved (by rw [hpc]; rfl) rfl fun _ => trivial
  | @hashOk p job id n content hpc hcontent hhash =>
      have hok := hinv.ok p
      rw [hpc] at hok
      refine hinv.advancePc (fun m hm => ?_) ⟨⟨content, hcontent, hhash⟩, Job.integrity_of_known hok⟩
      cases hm
      exact hinv.alone (by rw [hpc]; rfl)
  | @hashBad p job id n content kept hpc =>
      exact hinv.advanceRemoved (by rw [hpc]; rfl) rfl fun _ => trivial
  | @create p job n hpc hunused =>
      refine hinv.advanceTemp (fun q _ => hunused.2 q) (fun m hm => ?_) trivial
      exact (Option.some.inj hm).symm
  | @chunk p job n received chunk written hpc =>
      refine hinv.advanceTemp (hinv.alone (by rw [hpc]; rfl)) (fun m hm => ?_) trivial
      exact (Option.some.inj hm).symm
  | @flush p job n received hpc =>
      refine hinv.advanceTemp (hinv.alone (by rw [hpc]; rfl)) (fun m hm => ?_) ?_
      · exact (Option.some.inj hm).symm
      · exact ⟨received, Function.update_self .., rfl⟩
  | @verified p job n computed hpc hintegrity =>
      have hok := hinv.ok p
      rw [hpc] at hok
      refine hinv.advancePc (fun m hm => ?_) ⟨hok, fun d hd => ?_⟩
      · cases hm
        exact hinv.alone (by rw [hpc]; rfl)
      · exact Option.some.inj (hintegrity.symm.trans hd)
  | @named p job n computed hpc hintegrity =>
      have hok := hinv.ok p
      rw [hpc] at hok
      refine hinv.advancePc (fun m hm => ?_) ⟨hok, fun d hd => ?_⟩
      · cases hm
        exact hinv.alone (by rw [hpc]; rfl)
      · rw [hintegrity] at hd
        cases hd
  | @redundant p job n computed kept hpc hintegrity hsome =>
      refine hinv.advanceRemoved (by rw [hpc]; rfl) rfl fun _ => ⟨hsome, fun d hd => ?_⟩
      rw [hintegrity] at hd
      cases hd
  | @writeSome p job id n content written hpc =>
      have hok := hinv.ok p
      rw [hpc] at hok
      exact hinv.rewrite (p := p) (by rw [hpc]; rfl) (by rw [hpc]; exact hok)
  | @written p job id n content hpc =>
      have hok := hinv.ok p
      rw [hpc] at hok
      refine hinv.advanceTemp (hinv.alone (by rw [hpc]; rfl)) (fun m hm => ?_) ?_
      · exact (Option.some.inj hm).symm
      · exact ⟨⟨content, Function.update_self .., hok.1⟩, Job.integrity_of_known hok.2⟩
  | rename hpc hcontent => exact hinv.publish hpc hcontent
  | @renameFails p job id n kept hpc =>
      have hok := hinv.ok p
      rw [hpc] at hok
      exact hinv.advanceRemoved (by rw [hpc]; rfl) rfl fun _ => hok.2
  | @present p job id hpc hsome =>
      have hok := hinv.ok p
      rw [hpc] at hok
      exact hinv.advancePc (fun _ h => by cases h) ⟨hsome, hok⟩
  | @give p job ref hpc =>
      have hok := hinv.ok p
      rw [hpc] at hok
      have hidle : Inv sha512 (w.setPc p .idle) :=
        hinv.advancePc (fun _ h => by cases h) trivial
      refine ⟨hidle.artifacts, fun job' ref' h => ?_, hidle.ok, hidle.own⟩
      rcases List.mem_cons.mp h with heq | h
      · cases heq
        exact hok
      · exact hinv.returned job' ref' h
  | stop htemp => exact hinv.advanceRemoved htemp rfl fun _ => trivial
  | stopBare => exact hinv.advancePc (fun _ h => by cases h) trivial

end Steps

/-- In every reachable state every stored file is filed under its hash, and every id
that was returned is that of a stored file, the expected one if there was one. -/
theorem store_verified {sha512 : Bytes → δ} {w : World δ} (h : (protocol sha512).Reachable w) :
    Verified sha512 w := by
  have hinv : Inv sha512 w := h.invariant (I := Inv sha512)
    (fun w hinit => by
      obtain ⟨hartifacts, _, hidle, hreturned⟩ := hinit
      refine ⟨fun id content h => ?_, fun job ref h => ?_, fun p => ?_, fun p q n hp _ => ?_⟩
      · rw [hartifacts] at h
        cases h
      · rw [hreturned] at h
        cases h
      · rw [hidle]
        trivial
      · rw [hidle] at hp
        cases hp)
    fun w a w' hinv _ hstep => inv_step hinv hstep
  refine ⟨hinv.artifacts, fun job ref h => ?_⟩
  obtain ⟨hsome, hid⟩ := hinv.returned job ref h
  obtain ⟨content, hcontent⟩ := Option.isSome_iff_exists.mp hsome
  exact ⟨⟨content, hcontent, hinv.artifacts _ _ hcontent⟩, hid⟩

/-! ## A patched archive -/

def empty : World Bytes := ⟨fun _ => none, fun _ => none, fun _ => .idle, []⟩

/-- The store after one call of `ensure_artifact_from_bytes`. -/
def patched (content : Bytes) : World Bytes :=
  let job : Job Bytes := .bytes content
  let writing := ((empty.setPc 0 (.locking job content)).setPc 0 (.checking job content)).setPc 0
    (.writing job content 0 content)
  let published := (((writing.setTemp 0 (some content)).setPc 0
    (.publishing job content 0)).setArtifact content content).setTemp 0 none
  { (published.setPc 0 (.returning job ⟨content, false⟩)).setPc 0 .idle with
    returned := [(job, ⟨content, false⟩)] }

/-- The bytes serve as their own hash. -/
theorem patched_reachable (content : Bytes) :
    (protocol (id : Bytes → Bytes)).Reachable (patched content) := by
  refine .next (a := .give 0) (.next (a := .step 0) (.next (a := .step 0) (.next (a := .step 0)
    (.next (a := .step 0) (.next (a := .call 0 (.bytes content))
      (.start ⟨fun _ => rfl, fun _ => rfl, fun _ => rfl, rfl⟩)
      (.callKnown rfl rfl)) (.lock rfl fun q => ?_))
    (.missBytes rfl rfl ⟨rfl, fun q => ?_⟩)) (.written rfl)) (.rename rfl rfl)) (.give rfl)
  · simp only [World.setPc, Function.update_apply]
    split <;> simp [Pc.lock, empty]
  · simp only [World.setPc, Function.update_apply]
    split
    · simp [Pc.temp]
    · simp [Pc.temp, empty]

theorem store_verified_patched :
    Verified id (patched [1, 2]) ∧ (patched [1, 2]).artifacts [1, 2] = some [1, 2] :=
  ⟨store_verified (patched_reachable [1, 2]), rfl⟩

end ArtifactStore
end Bpm
