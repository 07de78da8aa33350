import Bpm.Lib.Bytes
import Bpm.Lib.Protocol
import Bpm.Lockfile.Validate
import Bpm.Resolver.Sources

/-!
# Git sources

A Git source is resolved in two requests: `git ls-remote` names the commit, and the
archive is fetched afterwards, from a hosted archive by that commit or with
`git archive --remote` by the reference.  The bytes are kept under the commit, for
later calls and other processes.  Any number of processes resolve sources while the
references of the remotes move.
-/

namespace Bpm

open Text

/-- What bpm calls outside: Git, the archive hosts, `tar` and `gzip`, the manifest
reader, the extraction and the hash of the cache key.  What a remote says is a function
of the state it is in; the tree of a commit and the archive a host serves for a commit
do not change. -/
structure Git (σ κ : Type) where
  /-- The lines of `git ls-remote` for a repository and a reference. -/
  lsRemote : σ → Str → Str → Option (List Str)
  /-- The commit that `git archive --remote` packs for a reference. -/
  archived : σ → Str → Str → Option Str
  tree : Str → Str → Bytes
  hosted : Str → Bytes
  pack : Bytes → Option Bytes
  manifestParses : Bytes → Bool
  extracts : Bytes → Bool
  sourceKey : Str → Str → κ

namespace GitSource

variable {σ κ : Type}

/-- A value that Git would parse as an option. -/
def isOptionValue (value : Str) : Bool := ['-'].isPrefixOf value

/-- The URL to clone a repository from. -/
def gitCloneUrl (spec : Str) : Str :=
  match [lit "github:", lit "github.com/"].findSome? (stripPrefix · spec) with
  | some rest => lit "https://github.com/" ++ trimEndMatches (lit ".git") rest
  | none =>
      match [lit "gitlab:", lit "gitlab.com/"].findSome? (stripPrefix · spec) with
      | some rest => lit "https://gitlab.com/" ++ trimEndMatches (lit ".git") rest
      | none =>
          match [lit "bitbucket:", lit "bitbucket.org/"].findSome? (stripPrefix · spec) with
          | some rest => lit "https://bitbucket.org/" ++ trimEndMatches (lit ".git") rest
          | none => spec

/-- The commit in the output of `git ls-remote`: that of a peeled tag, else the last. -/
def selectCommit : List Str → Option Str → Option Str
  | [], candidate => candidate
  | line :: rest, candidate =>
      match splitWhitespace line with
      | [] => selectCommit rest candidate
      | sha :: fields =>
          if !isFullGitCommit sha then selectCommit rest candidate
          else if (lit "^\x7b\x7d").isSuffixOf (fields.headD []) then some (asciiLower sha)
          else selectCommit rest (some (asciiLower sha))

def resolveGitCommit (git : Git σ κ) (remote : σ) (url : Str) (reference : Option Str) :
    Option Str :=
  match reference.filter isFullGitCommit with
  | some commit => some (asciiLower commit)
  | none =>
      let requested := reference.getD (lit "HEAD")
      if isOptionValue requested || isOptionValue (gitCloneUrl url) then none
      else (git.lsRemote remote (gitCloneUrl url) requested).bind (selectCommit · none)

/-- The archive fetched for a reference; a full commit that the remote does not serve is
packed from a local copy. -/
def gitArchive (git : Git σ κ) (remote : σ) (url reference commit : Str) : Option Bytes :=
  match git.archived remote url reference with
  | some found => some (git.tree url found)
  | none => if isFullGitCommit reference then some (git.tree url commit) else none

/-- The archive of a commit. -/
def archiveOf (git : Git σ κ) (url commit : Str) : Option Bytes :=
  match hostedGitTarballUrl url (some commit) with
  | some tarball => some (git.hosted tarball)
  | none => git.pack (git.tree url commit)

structure Call where
  url : Str
  reference : Option Str
deriving DecidableEq

/-- A resolved source: its commit, the bytes it was read from and the archive that its
source tree was extracted from. -/
structure Resolved where
  url : Str
  reference : Option Str
  resolvedCommit : Str
  bytes : Bytes
  sourceTree : Bytes
deriving DecidableEq

/-- Where a process stands in `resolve_git_source`. -/
inductive Pc
  | idle
  | resolving (call : Call)
  | downloading (call : Call) (commit : Str)
  -- `git_archive_tarball`: before the lock, and under it
  | locking (call : Call) (commit : Str)
  | checking (call : Call) (commit : Str)
  | fetching (call : Call) (commit : Str)
  | publishing (call : Call) (commit : Str) (bytes : Bytes)
  | reading (call : Call) (commit : Str)
  -- `cache_git_source_tree`: before the lock, and under it
  | planting (call : Call) (commit : Str) (bytes : Bytes)
  | growing (call : Call) (commit : Str) (bytes : Bytes)
deriving DecidableEq

namespace Pc

/-- The repository and commit whose archive lock a process holds. -/
def archiveLock : Pc → Option (Str × Str)
  | checking call commit | fetching call commit | publishing call commit _ =>
      some (call.url, commit)
  | _ => none

/-- The repository and commit whose source tree lock a process holds. -/
def treeLock : Pc → Option (Str × Str)
  | growing call commit _ => some (call.url, commit)
  | _ => none

end Pc

/-- The remotes, the shared caches, the processes and what calls have returned. -/
structure World (σ κ : Type) where
  remote : σ
  archives : κ → Option Bytes
  trees : κ → Option Bytes
  pc : Nat → Pc
  returned : List Resolved

namespace World

def setPc (w : World σ κ) (p : Nat) (pc : Pc) : World σ κ :=
  { w with pc := Function.update w.pc p pc }

/-- A call returns. -/
def giveBack (w : World σ κ) (call : Call) (commit : Str) (bytes tree : Bytes) : World σ κ :=
  { w with returned := ⟨call.url, call.reference, commit, bytes, tree⟩ :: w.returned }

variable [DecidableEq κ]

def setArchive (w : World σ κ) (key : κ) (bytes : Option Bytes) : World σ κ :=
  { w with archives := Function.update w.archives key bytes }

def setTree (w : World σ κ) (key : κ) (bytes : Bytes) : World σ κ :=
  { w with trees := Function.update w.trees key (some bytes) }

end World

inductive Action (σ : Type)
  | move (remote : σ)
  | call (p : Nat) (call : Call)
  | resolve (p : Nat)
  | download (p : Nat)
  | lock (p : Nat)
  | hit (p : Nat)
  | miss (p : Nat)
  | fetch (p : Nat)
  | publish (p : Nat)
  | read (p : Nat)
  | plant (p : Nat)
  | reuse (p : Nat)
  | grow (p : Nat)
  | stop (p : Nat)

variable [DecidableEq κ]

/-- One process takes its next step, or the references of a remote move.  A process may
fail or be killed anywhere, which releases its locks. -/
inductive Step (git : Git σ κ) : World σ κ → Action σ → World σ κ → Prop
  | move {w remote} : Step git w (.move remote) { w with remote := remote }
  | call {w p call} : w.pc p = .idle → isOptionValue call.url = false →
      call.reference.any isOptionValue = false →
      Step git w (.call p call) (w.setPc p (.resolving call))
  | resolveHosted {w p call commit tarball} : w.pc p = .resolving call →
      resolveGitCommit git w.remote call.url call.reference = some commit →
      hostedGitTarballUrl call.url (some commit) = some tarball →
      Step git w (.resolve p) (w.setPc p (.downloading call commit))
  | resolveRaw {w p call commit} : w.pc p = .resolving call →
      resolveGitCommit git w.remote call.url call.reference = some commit →
      hostedGitTarballUrl call.url (some commit) = none →
      Step git w (.resolve p) (w.setPc p (.locking call commit))
  | download {w p call commit tarball} : w.pc p = .downloading call commit →
      hostedGitTarballUrl call.url (some commit) = some tarball →
      git.manifestParses (git.hosted tarball) = true →
      Step git w (.download p) (w.setPc p (.planting call commit (git.hosted tarball)))
  | lock {w p call commit} : w.pc p = .locking call commit →
      (∀ q held, (w.pc q).archiveLock = some held →
        git.sourceKey held.1 held.2 ≠ git.sourceKey call.url commit) →
      Step git w (.lock p) (w.setPc p (.checking call commit))
  | hit {w p call commit bytes} : w.pc p = .checking call commit →
      w.archives (git.sourceKey call.url commit) = some bytes →
      git.manifestParses bytes = true →
      Step git w (.hit p) (w.setPc p (.reading call commit))
  -- a file that does not parse is removed
  | miss {w p call commit} : w.pc p = .checking call commit →
      (w.archives (git.sourceKey call.url commit)).any git.manifestParses = false →
      Step git w (.miss p)
        ((w.setArchive (git.sourceKey call.url commit) none).setPc p (.fetching call commit))
  | fetch {w p call commit tar bytes} : w.pc p = .fetching call commit →
      gitArchive git w.remote call.url (call.reference.getD (lit "HEAD")) commit = some tar →
      git.pack tar = some bytes →
      Step git w (.fetch p) (w.setPc p (.publishing call commit bytes))
  | publish {w p call commit bytes} : w.pc p = .publishing call commit bytes →
      Step git w (.publish p)
        ((w.setArchive (git.sourceKey call.url commit) (some bytes)).setPc p
          (.reading call commit))
  | read {w p call commit bytes} : w.pc p = .reading call commit →
      w.archives (git.sourceKey call.url commit) = some bytes →
      git.manifestParses bytes = true →
      Step git w (.read p) (w.setPc p (.planting call commit bytes))
  | plant {w p call commit bytes} : w.pc p = .planting call commit bytes →
      (∀ q held, (w.pc q).treeLock = some held →
        git.sourceKey held.1 held.2 ≠ git.sourceKey call.url commit) →
      Step git w (.plant p) (w.setPc p (.growing call commit bytes))
  | reuse {w p call commit bytes tree} : w.pc p = .growing call commit bytes →
      w.trees (git.sourceKey call.url commit) = some tree →
      Step git w (.reuse p) ((w.giveBack call commit bytes tree).setPc p .idle)
  | grow {w p call commit bytes} : w.pc p = .growing call commit bytes →
      w.trees (git.sourceKey call.url commit) = none → git.extracts bytes = true →
      Step git w (.grow p)
        (((w.giveBack call commit bytes bytes).setTree (git.sourceKey call.url commit)
          bytes).setPc p .idle)
  | stop {w p} : Step git w (.stop p) (w.setPc p .idle)

/-- Empty caches, idle processes. -/
def protocol (git : Git σ κ) : Protocol (World σ κ) (Action σ) where
  init w := (∀ key, w.archives key = none) ∧ (∀ key, w.trees key = none) ∧
    (∀ p, w.pc p = .idle) ∧ w.returned = []
  step := Step git

/-- What is stored for a commit, and what is returned for it, is its archive. -/
structure Sound (git : Git σ κ) (w : World σ κ) : Prop where
  archives : ∀ url commit bytes, w.archives (git.sourceKey url commit) = some bytes →
    archiveOf git url commit = some bytes
  trees : ∀ url commit bytes, w.trees (git.sourceKey url commit) = some bytes →
    archiveOf git url commit = some bytes
  returned : ∀ r ∈ w.returned, archiveOf git r.url r.resolvedCommit = some r.bytes ∧
    archiveOf git r.url r.resolvedCommit = some r.sourceTree

/-- A fetch finds the reference at the commit that was looked up for it. -/
def Unmoved (git : Git σ κ) (w : World σ κ) (a : Action σ) : Prop :=
  ∀ p call commit, a = .fetch p → w.pc p = .fetching call commit →
    ∀ found, git.archived w.remote call.url (call.reference.getD (lit "HEAD")) = some found →
      found = commit

namespace Pc

/-- The commit and the bytes that a process is about to store or return. -/
def carries : Pc → Option (Str × Str × Bytes)
  | publishing call commit bytes | planting call commit bytes | growing call commit bytes =>
      some (call.url, commit, bytes)
  | _ => none

/-- The repository and commit that a process fetches with Git. -/
def fetches : Pc → Option (Str × Str)
  | locking call commit | checking call commit | fetching call commit
  | publishing call commit _ | reading call commit => some (call.url, commit)
  | _ => none

end Pc

structure Inv (git : Git σ κ) (w : World σ κ) : Prop where
  sound : Sound git w
  carried : ∀ p url commit bytes, (w.pc p).carries = some (url, commit, bytes) →
    archiveOf git url commit = some bytes
  raw : ∀ p url commit, (w.pc p).fetches = some (url, commit) →
    hostedGitTarballUrl url (some commit) = none

/-- Keys are not shared: the hash does not collide. -/
def DistinctKeys (git : Git σ κ) : Prop :=
  ∀ url commit url' commit', git.sourceKey url commit = git.sourceKey url' commit' →
    url = url' ∧ commit = commit'

section Steps

variable {git : Git σ κ} {w w' : World σ κ} {a : Action σ}

omit [DecidableEq κ] in
theorem pc_setPc (w : World σ κ) (p q : Nat) (pc : Pc) :
    (w.setPc p pc).pc q = if q = p then pc else w.pc q := by
  simp [World.setPc, Function.update_apply]

omit [DecidableEq κ] in
/-- A process goes on; the caches and what was returned stay. -/
theorem inv_setPc (hinv : Inv git w) {p : Nat} {pc : Pc}
    (hcarried : ∀ url commit bytes, pc.carries = some (url, commit, bytes) →
      archiveOf git url commit = some bytes)
    (hraw : ∀ url commit, pc.fetches = some (url, commit) →
      hostedGitTarballUrl url (some commit) = none) : Inv git (w.setPc p pc) where
  sound := ⟨hinv.sound.archives, hinv.sound.trees, hinv.sound.returned⟩
  carried q url commit bytes h := by
    rw [pc_setPc] at h
    split at h
    · exact hcarried url commit bytes h
    · exact hinv.carried q url commit bytes h
  raw q url commit h := by
    rw [pc_setPc] at h
    split at h
    · exact hraw url commit h
    · exact hinv.raw q url commit h

/-- A file stored for a commit is looked up for that commit only. -/
theorem archives_setArchive (hkeys : DistinctKeys git) (hsound : Sound git w) {url commit : Str}
    {stored : Option Bytes} (h : ∀ bytes, stored = some bytes →
      archiveOf git url commit = some bytes) :
    Sound git (w.setArchive (git.sourceKey url commit) stored) where
  archives url' commit' bytes hget := by
    simp only [World.setArchive, Function.update_apply] at hget
    split at hget
    · rename_i hkey
      obtain ⟨rfl, rfl⟩ := hkeys _ _ _ _ hkey
      exact h bytes hget
    · exact hsound.archives url' commit' bytes hget
  trees := hsound.trees
  returned := hsound.returned

theorem trees_setTree (hkeys : DistinctKeys git) (hsound : Sound git w) {url commit : Str}
    {stored : Bytes} (h : archiveOf git url commit = some stored) :
    Sound git (w.setTree (git.sourceKey url commit) stored) where
  archives := hsound.archives
  trees url' commit' bytes hget := by
    simp only [World.setTree, Function.update_apply] at hget
    split at hget
    · rename_i hkey
      obtain ⟨rfl, rfl⟩ := hkeys _ _ _ _ hkey
      cases hget
      exact h
    · exact hsound.trees url' commit' bytes hget
  returned := hsound.returned

omit [DecidableEq κ] in
theorem sound_giveBack (hsound : Sound git w) {call : Call} {commit : Str} {bytes tree : Bytes}
    (hbytes : archiveOf git call.url commit = some bytes)
    (htree : archiveOf git call.url commit = some tree) :
    Sound git (w.giveBack call commit bytes tree) where
  archives := hsound.archives
  trees := hsound.trees
  returned r hr := by
    rcases List.mem_cons.mp hr with rfl | hr
    · exact ⟨hbytes, htree⟩
    · exact hsound.returned r hr

omit [DecidableEq κ] in
/-- An unmoved reference is packed to the archive of the recorded commit. -/
theorem archiveOf_fetched {p : Nat} (hunmoved : Unmoved git w (.fetch p)) {call : Call}
    {commit : Str} {tar bytes : Bytes} (hpc : w.pc p = .fetching call commit)
    (hraw : hostedGitTarballUrl call.url (some commit) = none)
    (hfetch : gitArchive git w.remote call.url (call.reference.getD (lit "HEAD")) commit = some tar)
    (hpack : git.pack tar = some bytes) : archiveOf git call.url commit = some bytes := by
  have htar : tar = git.tree call.url commit := by
    unfold gitArchive at hfetch
    split at hfetch
    · rename_i found hfound
      rw [hunmoved p call commit rfl hpc found hfound] at hfetch
      exact (Option.some.inj hfetch).symm
    · exact (Option.some.inj (Option.ite_none_right_eq_some.mp hfetch).2).symm
  unfold archiveOf
  rw [hraw, ← htar]
  exact hpack

omit [DecidableEq κ] in
/-- Nothing is said of processes when only the caches change. -/
theorem inv_of_sound (hinv : Inv git w) (hsound : Sound git w') (hpc : w'.pc = w.pc) :
    Inv git w' where
  sound := hsound
  carried p url commit bytes h := hinv.carried p url commit bytes (hpc ▸ h)
  raw p url commit h := hinv.raw p url commit (hpc ▸ h)

theorem inv_step (hkeys : DistinctKeys git) (hinv : Inv git w) (hunmoved : Unmoved git w a)
    (h : Step git w a w') : Inv git w' := by
  cases h with
  | move => exact ⟨⟨hinv.sound.archives, hinv.sound.trees, hinv.sound.returned⟩, hinv.carried,
      hinv.raw⟩
  | call => exact inv_setPc hinv (fun _ _ _ h => by cases h) fun _ _ h => by cases h
  | stop => exact inv_setPc hinv (fun _ _ _ h => by cases h) fun _ _ h => by cases h
  | resolveHosted => exact inv_setPc hinv (fun _ _ _ h => by cases h) fun _ _ h => by cases h
  | resolveRaw _ _ hraw =>
      refine inv_setPc hinv (fun _ _ _ h => by cases h) fun url commit h => ?_
      cases h
      exact hraw
  | download _ htarball =>
      refine inv_setPc hinv (fun url commit bytes h => ?_) fun _ _ h => by cases h
      cases h
      rw [archiveOf, htarball]
  | lock hpc =>
      refine inv_setPc hinv (fun _ _ _ h => by cases h) fun url commit h => ?_
      exact hinv.raw _ url commit (by rw [hpc]; exact h)
  | hit hpc =>
      refine inv_setPc hinv (fun _ _ _ h => by cases h) fun url commit h => ?_
      exact hinv.raw _ url commit (by rw [hpc]; exact h)
  | @miss p call commit hpc =>
      have hsound : Sound git (w.setArchive (git.sourceKey call.url commit) none) :=
        archives_setArchive hkeys hinv.sound fun _ h => by cases h
      refine inv_setPc (inv_of_sound hinv hsound rfl) (fun _ _ _ h => by cases h)
        fun url commit h => ?_
      exact hinv.raw _ url commit (by rw [hpc]; exact h)
  | fetch hpc hfetch hpack =>
      have hraw := hinv.raw _ _ _ (by rw [hpc]; rfl)
      refine inv_setPc hinv (fun url commit bytes h => ?_) fun url commit h => ?_
      · cases h
        exact archiveOf_fetched hunmoved hpc hraw hfetch hpack
      · cases h
        exact hraw
  | publish hpc =>
      have hbytes := hinv.carried _ _ _ _ (by rw [hpc]; rfl)
      have hsound := archives_setArchive hkeys hinv.sound fun _ h => by
        rwa [← Option.some.inj h]
      refine inv_setPc (inv_of_sound hinv hsound rfl) (fun _ _ _ h => by cases h)
        fun url commit h => ?_
      exact hinv.raw _ url commit (by rw [hpc]; exact h)
  | read hpc hget =>
      refine inv_setPc hinv (fun url commit bytes h => ?_) fun _ _ h => by cases h
      cases h
      exact hinv.sound.archives _ _ _ hget
  | plant hpc =>
      refine inv_setPc hinv (fun url commit bytes h => ?_) fun _ _ h => by cases h
      exact hinv.carried _ url commit bytes (by rw [hpc]; exact h)
  | reuse hpc htree =>
      have hbytes := hinv.carried _ _ _ _ (by rw [hpc]; rfl)
      have hsound := sound_giveBack hinv.sound hbytes (hinv.sound.trees _ _ _ htree)
      exact inv_setPc (inv_of_sound hinv hsound rfl) (fun _ _ _ h => by cases h)
        fun _ _ h => by cases h
  | grow hpc =>
      have hbytes := hinv.carried _ _ _ _ (by rw [hpc]; rfl)
      have hsound := trees_setTree hkeys (sound_giveBack hinv.sound hbytes hbytes) hbytes
      exact inv_setPc (inv_of_sound hinv hsound rfl) (fun _ _ _ h => by cases h)
        fun _ _ h => by cases h

end Steps

/-- In every run in which each reference is fetched while it is at the commit looked up
for it, only the archive of a commit is stored, and returned, under the commit. -/
theorem resolve_sound {git : Git σ κ} (hkeys : DistinctKeys git) {w : World σ κ}
    (h : (protocol git).Reaches (Unmoved git) w) : Sound git w := by
  have hinv : Inv git w := h.invariant (I := Inv git)
    (fun w hinit => by
      obtain ⟨harchives, htrees, hidle, hreturned⟩ := hinit
      refine ⟨⟨?_, ?_, ?_⟩, ?_, ?_⟩
      · intro url commit bytes hget
        rw [harchives] at hget
        cases hget
      · intro url commit bytes hget
        rw [htrees] at hget
        cases hget
      · intro r hr
        rw [hreturned] at hr
        cases hr
      · intro p url commit bytes hcarries
        rw [hidle] at hcarries
        cases hcarries
      · intro p url commit hfetches
        rw [hidle] at hfetches
        cases hfetches)
    fun w a w' hinv hunmoved hstep => inv_step hkeys hinv hunmoved hstep
  exact hinv.sound

/-! ## One process and one moving branch -/

namespace Example

def first : Str := List.replicate 40 'a'

def second : Str := List.replicate 40 'b'

/-- One repository whose only branch is at the commit that the state names. -/
def git : Git Str (Str × Str) where
  lsRemote remote _ _ := some [remote ++ lit "\trefs/heads/main"]
  archived remote _ _ := some remote
  tree _ commit := Bytes.utf8 commit
  hosted _ := []
  pack bytes := some bytes
  manifestParses _ := true
  extracts _ := true
  sourceKey url commit := (url, commit)

theorem git_distinctKeys : DistinctKeys git := fun _ _ _ _ h => Prod.mk.inj h

def call : Call := ⟨lit "ssh://git.example/repo", some (lit "main")⟩

def start : World Str (Str × Str) := ⟨first, fun _ => none, fun _ => none, fun _ => .idle, []⟩

/-- The branch was looked up at the first commit; no archive is stored for it. -/
def looked : World Str (Str × Str) :=
  (((((start.setPc 0 (.resolving call)).setPc 0 (.locking call first)).setPc 0
    (.checking call first)).setArchive (call.url, first) none).setPc 0 (.fetching call first))

/-- What becomes of a fetched archive. -/
def returned (w : World Str (Str × Str)) (bytes : Bytes) : World Str (Str × Str) :=
  ((((((((w.setPc 0 (.publishing call first bytes)).setArchive (git.sourceKey call.url first)
    (some bytes)).setPc 0 (.reading call first)).setPc 0 (.planting call first bytes)).setPc 0
    (.growing call first bytes)).giveBack call first bytes bytes).setTree
    (git.sourceKey call.url first) bytes).setPc 0 .idle)

/-- Steps other than fetches. -/
def NoFetch (a : Action Str) : Prop := ∀ p, a ≠ .fetch p

variable {allowed : World Str (Str × Str) → Action Str → Prop}

theorem looked_reaches (hallowed : ∀ w a, NoFetch a → allowed w a) :
    (protocol git).Reaches allowed looked := by
  refine .next (a := .miss 0) (.next (a := .lock 0) (.next (a := .resolve 0)
    (.next (a := .call 0 call) (.start ⟨fun _ => rfl, fun _ => rfl, fun _ => rfl, rfl⟩)
      (hallowed _ _ nofun) (.call rfl (by decide) (by decide)))
    (hallowed _ _ nofun) (.resolveRaw rfl (by decide) (by decide)))
    (hallowed _ _ nofun) (.lock rfl ?_)) (hallowed _ _ nofun) (.miss rfl rfl)
  intro q held hq
  rw [pc_setPc] at hq
  split at hq
  · cases hq
  · rw [pc_setPc, if_neg (by assumption)] at hq
    cases hq

theorem returned_reaches (hallowed : ∀ w a, NoFetch a → allowed w a)
    {w : World Str (Str × Str)} (hw : (protocol git).Reaches allowed w)
    (hpc : w.pc 0 = .fetching call first) (hothers : ∀ q, q ≠ 0 → w.pc q = .idle)
    (htrees : w.trees (call.url, first) = none) {bytes : Bytes}
    (hfetch : gitArchive git w.remote call.url (lit "main") first = some bytes)
    (hfetched : allowed w (.fetch 0)) : (protocol git).Reaches allowed (returned w bytes) := by
  refine .next (a := .grow 0) (.next (a := .plant 0) (.next (a := .read 0)
    (.next (a := .publish 0) (.next (a := .fetch 0) hw hfetched (.fetch hpc hfetch rfl))
      (hallowed _ _ nofun) (.publish rfl))
    (hallowed _ _ nofun) (.read rfl (by simp [World.setArchive, World.setPc]) rfl))
    (hallowed _ _ nofun) (.plant rfl ?_)) (hallowed _ _ nofun) (.grow rfl htrees rfl)
  intro q held hq
  by_cases h : q = 0
  · subst h
    cases hq
  · have hpcq : w.pc q = .idle := hothers q h
    simp only [World.setPc, World.setArchive, ne_eq, h, not_false_eq_true,
      Function.update_of_ne, hpcq] at hq
    cases hq

/-- The branch stays, and the call returns the archive of its commit. -/
theorem resolve_sound_unmoved : Sound git (returned looked (Bytes.utf8 first)) := by
  have hnoFetch : ∀ w a, NoFetch a → Unmoved git w a :=
    fun w a ha p call commit h => absurd h (ha p)
  refine resolve_sound git_distinctKeys (returned_reaches hnoFetch (looked_reaches hnoFetch) rfl
    (fun q hq => ?_) rfl rfl ?_)
  · simp [looked, start, World.setPc, World.setArchive, hq]
  · intro p call' commit h hpc found hfound
    cases h
    cases hpc
    exact (Option.some.inj hfound).symm

/-- The branch moves between the two requests: the archive of the second commit is
stored and returned under the first. -/
theorem resolve_unsound :
    (protocol git).Reachable (returned { looked with remote := second } (Bytes.utf8 second)) ∧
      ¬Sound git (returned { looked with remote := second } (Bytes.utf8 second)) := by
  constructor
  · refine returned_reaches (fun _ _ _ => trivial) (.next (a := .move second)
      (looked_reaches fun _ _ _ => trivial) trivial .move) rfl (fun q hq => ?_) rfl rfl trivial
    simp [looked, start, World.setPc, World.setArchive, hq]
  · intro h
    have hbytes := (h.returned _ List.mem_cons_self).1
    revert hbytes
    decide

end Example
end GitSource
end Bpm
