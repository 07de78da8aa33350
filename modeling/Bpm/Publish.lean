import Bpm.Lib.Bytes
import Bpm.Lib.Run

/-!
# Two-file publication

A mutation publishes a lockfile and a manifest.  Both are written to sibling
temporaries, renamed over their destinations one after the other, and restored
when a step fails.  The file system is a map from paths to contents; a schedule
says which steps fail and what the clock makes of the temporary names.
-/

namespace Bpm
namespace Publish

open Text

inductive Destination
  | lock | manifest
deriving DecidableEq

/-- Steps are named by what they are done for: each is taken at most once. -/
inductive Job
  | publish (d : Destination)
  | restore (d : Destination)
deriving DecidableEq

inductive Op
  | read | openTemp | writeTemp | syncTemp | rename | openParent | syncParent
  | removeTemp | probe | remove
deriving DecidableEq

/-- Which steps fail before taking effect, how much of a failed write reaches the
file, and the sibling names that `unique_sibling` draws from the clock.  A rename
that takes effect and is then reported as failed is a rename followed by a failure
to open or to sync the directory. -/
structure Schedule where
  fails : Job → Op → Bool
  written : Job → Nat
  temp : Job → Str

inductive IoError
  | failed (job : Job) (op : Op)
  | alreadyExists (path : Str)
  | notFound (path : Str)
  | injected (message : Str)
deriving DecidableEq

/-- The files and every state of them that was observable so far. -/
structure World where
  files : Map Bytes
  seen : List (Map Bytes)
deriving DecidableEq

abbrev Io := Run IoError World

structure PublishPlan where
  manifestPath : Str
  manifestBytes : Bytes
  lockPath : Str
  lockBytes : Bytes

inductive PublishStage
  | lock | manifest
deriving DecidableEq

structure RollbackFailure where
  destination : Destination
  source : IoError
deriving DecidableEq

/-- A publication error that records whether rollback was complete. -/
structure PublishError where
  primary : IoError
  publicationBegan : Bool
  rollbackFailures : List RollbackFailure
deriving DecidableEq

namespace PublishError

def rollbackComplete (e : PublishError) : Bool := e.rollbackFailures.isEmpty

end PublishError

structure RestoreFaults where
  lock : Bool
  manifest : Bool

structure Original where
  existed : Bool
  bytes : Option Bytes

/-- One change of the files, observable at once. -/
def change {ε : Type} (f : Map Bytes → Map Bytes) : Run ε World Unit :=
  Run.modify fun w => ⟨f w.files, f w.files :: w.seen⟩

def attempt (s : Schedule) (job : Job) (op : Op) : Io Unit :=
  if s.fails job op then Run.fail (.failed job op) else pure ()

def captureOriginal (s : Schedule) (d : Destination) (path : Str) : Io Original := do
  attempt s (.publish d) .read
  let w ← Run.get
  return ⟨w.files.contains path, w.files[path]?⟩

/-- Create a new file, write it and sync it. -/
def writeTemp (s : Schedule) (job : Job) (path : Str) (bytes : Bytes) : Io Unit := do
  attempt s job .openTemp
  let w ← Run.get
  if w.files.contains path then
    Run.fail (.alreadyExists path)
  else
    change (·.insert path [])
    if s.fails job .writeTemp then
      change (·.insert path (bytes.take (s.written job)))
      Run.fail (.failed job .writeTemp)
    else
      change (·.insert path bytes)
      attempt s job .syncTemp

/-- An atomic rename, then a sync of the directory. -/
def replaceDestination (s : Schedule) (job : Job) (tmp dest : Str) : Io Unit := do
  attempt s job .rename
  let w ← Run.get
  match w.files[tmp]? with
  | none => Run.fail (.notFound tmp)
  | some bytes =>
      change fun files => (files.erase tmp).insert dest bytes
      attempt s job .openParent
      attempt s job .syncParent

/-- Whether a path is seen to exist: a failed probe counts as absence. -/
def exists? (s : Schedule) (job : Job) (path : Str) : Io Bool := do
  let w ← Run.get
  return !s.fails job .probe && w.files.contains path

def restore (s : Schedule) (d : Destination) (path : Str) (original : Original) : Io Unit :=
  match original.bytes, original.existed with
  | some bytes, true => do
      writeTemp s (.restore d) (s.temp (.restore d)) bytes
      replaceDestination s (.restore d) (s.temp (.restore d)) path
  | _, _ => do
      if ← exists? s (.restore d) path then
        attempt s (.restore d) .remove
        change (·.erase path)
      else
        pure ()

/-- Best-effort removal of a temporary. -/
def removeTemp {ε : Type} (s : Schedule) (d : Destination) : Run ε World Unit :=
  if s.fails (.publish d) .removeTemp then pure () else change (·.erase (s.temp (.publish d)))

/-- Both temporaries are written before anything is published. -/
def stage (s : Schedule) (plan : PublishPlan) (failAt : Option PublishStage) : Io Unit := do
  writeTemp s (.publish .manifest) (s.temp (.publish .manifest)) plan.manifestBytes
  writeTemp s (.publish .lock) (s.temp (.publish .lock)) plan.lockBytes
  if failAt = some .lock then
    Run.fail (.injected (lit "injected failure before lock publish"))
  else
    pure ()

def swap (s : Schedule) (plan : PublishPlan) (failAt : Option PublishStage) : Io Unit := do
  replaceDestination s (.publish .lock) (s.temp (.publish .lock)) plan.lockPath
  if failAt = some .manifest then
    Run.fail (.injected (lit "injected failure before manifest publish"))
  else
    replaceDestination s (.publish .manifest) (s.temp (.publish .manifest)) plan.manifestPath

/-- The outcome of the forward phase, and whether publication began. -/
def forward (s : Schedule) (plan : PublishPlan) (failAt : Option PublishStage) (w : World) :
    (Except IoError Unit × Bool) × World :=
  match stage s plan failAt w with
  | (.error e, w) => ((.error e, false), w)
  | (.ok (), w) => (((swap s plan failAt w).1, true), (swap s plan failAt w).2)

def restoreUnless (fault : Bool) (message : Str) (s : Schedule) (d : Destination) (path : Str)
    (original : Original) : Io Unit :=
  if fault then Run.fail (.injected message) else restore s d path original

/-- Restore both destinations and keep every failure. -/
def rollback (s : Schedule) (plan : PublishPlan) (faults : RestoreFaults)
    (manifestOriginal lockOriginal : Original) (w : World) : List RollbackFailure × World :=
  let lock := restoreUnless faults.lock (lit "injected lock restoration failure") s .lock
    plan.lockPath lockOriginal w
  let manifest := restoreUnless faults.manifest (lit "injected manifest restoration failure") s
    .manifest plan.manifestPath manifestOriginal lock.2
  let failure (d : Destination) (r : Except IoError Unit) : List RollbackFailure :=
    match r with
    | .ok () => []
    | .error e => [⟨d, e⟩]
  (failure .lock lock.1 ++ failure .manifest manifest.1, manifest.2)

/-- Remove what is left of the temporaries, then report or roll back. -/
def finish (s : Schedule) (plan : PublishPlan) (faults : RestoreFaults)
    (manifestOriginal lockOriginal : Original) (outcome : Except IoError Unit × Bool) :
    Run PublishError World Unit := fun w =>
  let w := ((removeTemp s .lock : Io Unit) ((removeTemp s .manifest : Io Unit) w).2).2
  match outcome.1 with
  | .ok () => (.ok (), w)
  | .error primary =>
      let undone := rollback s plan faults manifestOriginal lockOriginal w
      (.error ⟨primary, outcome.2, undone.1⟩, undone.2)

def publishImpl (s : Schedule) (plan : PublishPlan) (failAt : Option PublishStage)
    (faults : RestoreFaults) : Run PublishError World Unit := fun w =>
  match captureOriginal s .manifest plan.manifestPath w with
  | (.error e, w) => (.error ⟨e, false, []⟩, w)
  | (.ok manifestOriginal, w) =>
      match captureOriginal s .lock plan.lockPath w with
      | (.error e, w) => (.error ⟨e, false, []⟩, w)
      | (.ok lockOriginal, w) =>
          finish s plan faults manifestOriginal lockOriginal (forward s plan failAt w).1
            (forward s plan failAt w).2

def publish (s : Schedule) (plan : PublishPlan) : Run PublishError World Unit :=
  publishImpl s plan none ⟨false, false⟩

/-! ## What each step can do -/

/-- Everything observed on the way satisfies `Good`. -/
def Observes (Good : Map Bytes → Prop) (w w' : World) : Prop :=
  ∀ f ∈ w'.seen, f ∈ w.seen ∨ Good f

instance {Good : Map Bytes → Prop} : IsPreorder World (Observes Good) where
  refl _ _ hf := Or.inl hf
  trans _ _ _ h h' f hf := (h' f hf).elim (fun hf => h f hf) Or.inr

/-- Two states of the files that agree away from `path`. -/
def SameOff (path : Str) (f f₀ : Map Bytes) : Prop := ∀ k : Str, k ≠ path → f[k]? = f₀[k]?

theorem sameOff_insert (path : Str) (bytes : Bytes) (f : Map Bytes) :
    SameOff path (f.insert path bytes) f :=
  fun _ hk => Map.get_insert_of_ne f bytes hk.symm

theorem SameOff.insert {path : Str} {f f₀ : Map Bytes} (h : SameOff path f f₀) (bytes : Bytes) :
    SameOff path (f.insert path bytes) f₀ :=
  fun k hk => (Map.get_insert_of_ne f bytes hk.symm).trans (h k hk)

theorem get_erase (f : Map Bytes) (path k : Str) :
    (f.erase path)[k]? = if path = k then none else f[k]? := by
  simp [Std.ExtTreeMap.getElem?_erase]

section Specs

variable {Good : Map Bytes → Prop} {ε : Type}

theorem change_spec {f : Map Bytes → Map Bytes} {f₀ : Map Bytes} (hgood : Good (f f₀)) :
    Run.Spec (Observes Good) (fun w => w.files = f₀) (change f : Run ε World Unit)
      fun r w => r = .ok () ∧ w.files = f f₀ := by
  rintro w rfl
  refine ⟨fun g hg => ?_, rfl, rfl⟩
  rcases List.mem_cons.mp hg with rfl | hg
  · exact Or.inr hgood
  · exact Or.inl hg

theorem attempt_spec (s : Schedule) (job : Job) (op : Op) (f₀ : Map Bytes) :
    Run.Spec (Observes Good) (fun w => w.files = f₀) (attempt s job op)
      fun r w => w.files = f₀ ∧ (s.fails job op = false → r = .ok ()) := by
  unfold attempt
  split
  · rename_i hfails
    exact Run.Spec.fail fun w hw => ⟨hw, fun h => by rw [hfails] at h; cases h⟩
  · exact Run.Spec.pure fun w hw => ⟨hw, fun _ => rfl⟩

theorem writeTemp_spec (s : Schedule) (job : Job) (path : Str) (bytes : Bytes) (f₀ : Map Bytes)
    (hgood : ∀ f, SameOff path f f₀ → Good f) :
    Run.Spec (Observes Good) (fun w => w.files = f₀) (writeTemp s job path bytes) fun r w =>
      SameOff path w.files f₀ ∧
        (r = .ok () → f₀[path]? = none ∧ w.files[path]? = some bytes) := by
  have hsame : SameOff path f₀ f₀ := fun _ _ => rfl
  refine Run.Spec.bind (attempt_spec s job .openTemp f₀) (fun _ => ?_) ?_
  · refine Run.Spec.get_bind ?_
    rintro w ⟨_, rfl, _⟩
    split
    · exact Run.Spec.fail fun w' hw => ⟨hw ▸ hsame, nofun⟩
    · rename_i hfresh
      have hnone : w.files[path]? = none :=
        Map.get_eq_none_iff.mpr (Bool.eq_false_iff.mpr hfresh)
      refine Run.Spec.bind (Run.Spec.mono
        (change_spec (hgood _ (hsame.insert [])) :
          Run.Spec (Observes Good) _ (change (·.insert path [])) _)
        (fun w' hw => hw ▸ rfl) fun _ _ h => h) (fun _ => ?_) (fun e w' h => by cases h.1)
      split
      · refine Run.Spec.bind (Run.Spec.mono
          (change_spec (hgood _ ((hsame.insert []).insert (bytes.take (s.written job)))))
          (fun w' hw => hw.2.2) fun _ _ h => h) (fun _ => ?_) (fun e w' h => by cases h.1)
        exact Run.Spec.fail fun w' hw => ⟨hw.2.2 ▸ (hsame.insert []).insert _, nofun⟩
      · refine Run.Spec.bind (Run.Spec.mono
          (change_spec (hgood _ ((hsame.insert []).insert bytes)))
          (fun w' hw => hw.2.2) fun _ _ h => h) (fun _ => ?_) (fun e w' h => by cases h.1)
        refine Run.Spec.mono (attempt_spec s job .syncTemp _) (fun w' hw => hw.2.2) ?_
        rintro r w' ⟨hw, _⟩
        rw [hw]
        exact ⟨(hsame.insert []).insert bytes, fun _ => ⟨hnone, Map.get_insert_self _ _ _⟩⟩
  · rintro e w ⟨rfl, _⟩
    exact ⟨hsame, nofun⟩

/-- `dest` holds `bytes`; nothing else changed, the temporary apart. -/
def Replaced (tmp dest : Str) (bytes : Bytes) (f f₀ : Map Bytes) : Prop :=
  f[dest]? = some bytes ∧ ∀ k : Str, k ≠ tmp → k ≠ dest → f[k]? = f₀[k]?

theorem replaceDestination_spec (s : Schedule) (job : Job) {tmp dest : Str} {bytes : Bytes}
    {f₀ : Map Bytes} (htmp : f₀[tmp]? = some bytes)
    (hgood : ∀ f, Replaced tmp dest bytes f f₀ → Good f) :
    Run.Spec (Observes Good) (fun w => w.files = f₀) (replaceDestination s job tmp dest)
      fun r w => (r ≠ .ok () ∧ w.files = f₀) ∨ Replaced tmp dest bytes w.files f₀ := by
  have hreplaced : Replaced tmp dest bytes ((f₀.erase tmp).insert dest bytes) f₀ := by
    refine ⟨Map.get_insert_self _ _ _, fun k hk hk' => ?_⟩
    rw [Map.get_insert_of_ne _ _ hk'.symm, get_erase, if_neg hk.symm]
  refine Run.Spec.bind (attempt_spec s job .rename f₀) (fun _ => ?_) ?_
  · refine Run.Spec.get_bind ?_
    rintro w ⟨_, rfl, _⟩
    rw [htmp]
    refine Run.Spec.bind (Run.Spec.mono (change_spec (hgood _ hreplaced))
      (fun w' hw => hw ▸ rfl) fun _ _ h => h) (fun _ => ?_) (fun e w' h => by cases h.1)
    refine Run.Spec.bind (Run.Spec.mono (attempt_spec s job .openParent _)
      (fun w' hw => hw.2.2) fun _ _ h => h) (fun _ => ?_) ?_
    · refine Run.Spec.mono (attempt_spec s job .syncParent _) (fun w' hw => hw.2.1) ?_
      rintro r w' ⟨hw, _⟩
      exact Or.inr (hw ▸ hreplaced)
    · rintro e w' ⟨hw, _⟩
      exact Or.inr (hw ▸ hreplaced)
  · rintro e w ⟨hw, _⟩
    exact Or.inl ⟨nofun, hw⟩

/-- A destination is left alone or restored; what else a rollback touches is its
temporary. -/
structure Restored (s : Schedule) (d : Destination) (path : Str) (original : Option Bytes)
    (f₀ f : Map Bytes) : Prop where
  others : ∀ k : Str, k ≠ s.temp (.restore d) → k ≠ path → f[k]? = f₀[k]?
  content : f[path]? = f₀[path]? ∨ f[path]? = original

theorem restore_spec (s : Schedule) (d : Destination) {path : Str} {original : Original}
    {f₀ : Map Bytes} (hexisted : original.existed = original.bytes.isSome)
    (htemp : s.temp (.restore d) ≠ path)
    (hgood : ∀ f, Restored s d path original.bytes f₀ f → Good f) :
    Run.Spec (Observes Good) (fun w => w.files = f₀) (restore s d path original) fun r w =>
      Restored s d path original.bytes f₀ w.files ∧
        (r = .ok () → (original.bytes = none → f₀[path]? ≠ none →
          s.fails (.restore d) .probe = false) → w.files[path]? = original.bytes) := by
  have hkeep : ∀ {f : Map Bytes}, SameOff (s.temp (.restore d)) f f₀ →
      Restored s d path original.bytes f₀ f := fun h =>
    ⟨fun k hk _ => h k hk, Or.inl (h path htemp.symm)⟩
  have hkeep₀ := hkeep fun _ _ => rfl
  unfold restore
  split
  · rename_i bytes hbytes hexists
    refine Run.Spec.bind (writeTemp_spec s (.restore d) _ bytes f₀ fun f hf => hgood f (hkeep hf))
      (fun _ => ?_) ?_
    · rintro w ⟨_, hsame, hwritten⟩
      have hreplace : ∀ {f : Map Bytes}, Replaced (s.temp (.restore d)) path bytes f w.files →
          Restored s d path original.bytes f₀ f := fun hf =>
        ⟨fun k hk hk' => (hf.2 k hk hk').trans (hsame k hk), Or.inr (hf.1.trans hbytes.symm)⟩
      obtain ⟨hobserves, hresult⟩ := replaceDestination_spec s (.restore d) (hwritten rfl).2
        (fun f hf => hgood f (hreplace hf)) w rfl
      refine ⟨hobserves, ?_⟩
      rcases hresult with ⟨hr, hw⟩ | hreplaced
      · rw [hw]
        exact ⟨hkeep hsame, fun h => absurd h hr⟩
      · exact ⟨hreplace hreplaced, fun _ _ => hreplaced.1.trans hbytes.symm⟩
    · rintro e w ⟨hsame, _⟩
      exact ⟨hkeep hsame, nofun⟩
  · rename_i hnot
    have hnone : original.bytes = none := by
      cases hbytes : original.bytes with
      | none => rfl
      | some bytes => exact absurd (by rw [hexisted, hbytes]; rfl) (hnot bytes hbytes)
    rintro w rfl
    have hprobe : exists? s (.restore d) path w =
        (.ok (!s.fails (.restore d) .probe && w.files.contains path), w) := rfl
    rw [Run.bind_ok hprobe]
    have herase : Restored s d path original.bytes w.files (w.files.erase path) := by
      refine ⟨fun k _ hk => ?_, Or.inr ?_⟩
      · rw [get_erase, if_neg hk.symm]
      · rw [get_erase, if_pos rfl, hnone]
    have hremove : Run.Spec (Observes Good) (fun w' => w'.files = w.files)
        (do
          attempt s (.restore d) .remove
          change (·.erase path)) fun r w' =>
        Restored s d path original.bytes w.files w'.files ∧
          (r = .ok () → w'.files[path]? = original.bytes) := by
      refine Run.Spec.bind (attempt_spec s (.restore d) .remove w.files) (fun _ => ?_) ?_
      · refine Run.Spec.mono (change_spec (hgood _ herase)) (fun w' hw => hw.2.1) ?_
        rintro r w' ⟨_, hw⟩
        rw [hw]
        exact ⟨herase, fun _ => by rw [get_erase, if_pos rfl, hnone]⟩
      · rintro e w' ⟨hw, _⟩
        exact ⟨hw ▸ hkeep₀, nofun⟩
    split
    · obtain ⟨hobserves, hrestored, hcontent⟩ := hremove w rfl
      exact ⟨hobserves, hrestored, fun hr _ => hcontent hr⟩
    · rename_i hunseen
      refine ⟨refl_of (Observes Good) w, hkeep₀, fun _ hseen => ?_⟩
      have habsent : w.files[path]? = none := by
        by_contra hpresent
        rw [hseen hnone hpresent, Bool.not_false, Bool.true_and] at hunseen
        exact hpresent (Map.get_eq_none_iff.mpr (Bool.eq_false_iff.mpr hunseen))
      exact habsent.trans hnone.symm

theorem removeTemp_spec (s : Schedule) (d : Destination) {f₀ : Map Bytes}
    (hgood : ∀ f, SameOff (s.temp (.publish d)) f f₀ → Good f) :
    Run.Spec (Observes Good) (fun w => w.files = f₀) (removeTemp s d : Run ε World Unit)
      fun _ w => SameOff (s.temp (.publish d)) w.files f₀ := by
  have herase : SameOff (s.temp (.publish d)) (f₀.erase (s.temp (.publish d))) f₀ :=
    fun k hk => by rw [get_erase, if_neg hk.symm]
  unfold removeTemp
  split
  · exact Run.Spec.pure fun w hw => hw ▸ fun _ _ => rfl
  · refine Run.Spec.mono (change_spec (hgood _ herase)) (fun w hw => hw) ?_
    rintro r w ⟨_, hw⟩
    rw [hw]
    exact herase

end Specs

/-! ## Whole runs -/

/-- Each file holds its original or its planned contents, and the new manifest is
not beside the old lockfile. -/
structure Consistent (plan : PublishPlan) (files₀ files : Map Bytes) : Prop where
  lock : files[plan.lockPath]? = files₀[plan.lockPath]? ∨
    files[plan.lockPath]? = some plan.lockBytes
  manifest : files[plan.manifestPath]? = files₀[plan.manifestPath]? ∨
    files[plan.manifestPath]? = some plan.manifestBytes
  order : ¬(files[plan.manifestPath]? = some plan.manifestBytes ∧
    files₀[plan.manifestPath]? ≠ some plan.manifestBytes ∧
    files[plan.lockPath]? = files₀[plan.lockPath]? ∧
    files₀[plan.lockPath]? ≠ some plan.lockBytes)

/-- The manifest is still the original one. -/
def Before (plan : PublishPlan) (files₀ files : Map Bytes) : Prop :=
  (files[plan.lockPath]? = files₀[plan.lockPath]? ∨
    files[plan.lockPath]? = some plan.lockBytes) ∧
  files[plan.manifestPath]? = files₀[plan.manifestPath]?

/-- Both files are published. -/
def After (plan : PublishPlan) (files : Map Bytes) : Prop :=
  files[plan.lockPath]? = some plan.lockBytes ∧
    files[plan.manifestPath]? = some plan.manifestBytes

theorem Before.consistent {plan : PublishPlan} {files₀ files : Map Bytes}
    (h : Before plan files₀ files) : Consistent plan files₀ files :=
  ⟨h.1, Or.inl h.2, fun horder => horder.2.1 (h.2 ▸ horder.1)⟩

theorem After.consistent {plan : PublishPlan} {files₀ files : Map Bytes} (h : After plan files) :
    Consistent plan files₀ files :=
  ⟨Or.inr h.1, Or.inr h.2, fun horder => horder.2.2.2 (horder.2.2.1 ▸ h.1)⟩

/-- The temporaries are not the destinations, which are two different files. -/
structure Distinct (s : Schedule) (plan : PublishPlan) : Prop where
  paths : plan.lockPath ≠ plan.manifestPath
  lock : ∀ job, s.temp job ≠ plan.lockPath
  manifest : ∀ job, s.temp job ≠ plan.manifestPath

section Runs

variable {s : Schedule} {plan : PublishPlan} {files₀ : Map Bytes}

theorem Before.sameOff {job : Job} {f f' : Map Bytes} (hdistinct : Distinct s plan)
    (h : Before plan files₀ f) (hsame : SameOff (s.temp job) f' f) : Before plan files₀ f' := by
  unfold Before
  rw [hsame _ (hdistinct.lock job).symm, hsame _ (hdistinct.manifest job).symm]
  exact h

theorem After.sameOff {job : Job} {f f' : Map Bytes} (hdistinct : Distinct s plan)
    (h : After plan f) (hsame : SameOff (s.temp job) f' f) : After plan f' := by
  unfold After
  rw [hsame _ (hdistinct.lock job).symm, hsame _ (hdistinct.manifest job).symm]
  exact h

/-- What is in place once both temporaries are written. -/
structure Staged (s : Schedule) (plan : PublishPlan) (files₀ files : Map Bytes) : Prop where
  before : Before plan files₀ files
  lockTemp : files[s.temp (.publish .lock)]? = some plan.lockBytes
  manifestTemp : files[s.temp (.publish .manifest)]? = some plan.manifestBytes
  temps : s.temp (.publish .manifest) ≠ s.temp (.publish .lock)

theorem stage_spec (hdistinct : Distinct s plan) :
    Run.Spec (Observes (Consistent plan files₀)) (fun w => w.files = files₀) (stage s plan none)
      fun r w => Before plan files₀ w.files ∧ (r = .ok () → Staged s plan files₀ w.files) := by
  have hstart : Before plan files₀ files₀ := ⟨Or.inl rfl, rfl⟩
  refine Run.Spec.bind (writeTemp_spec s (.publish .manifest) _ plan.manifestBytes files₀
    fun f hf => (hstart.sameOff hdistinct hf).consistent) (fun _ => ?_) ?_
  · rintro w ⟨_, hsame, hwritten⟩
    have hbefore := hstart.sameOff hdistinct hsame
    have hlock : Run.Spec (Observes (Consistent plan files₀)) (fun w' => w'.files = w.files)
        (do
          writeTemp s (.publish .lock) (s.temp (.publish .lock)) plan.lockBytes
          pure ()) fun r w' =>
        Before plan files₀ w'.files ∧ (r = .ok () → Staged s plan files₀ w'.files) := by
      refine Run.Spec.bind (writeTemp_spec s (.publish .lock) _ plan.lockBytes w.files
        fun f hf => (hbefore.sameOff hdistinct hf).consistent) (fun _ => ?_) ?_
      · refine Run.Spec.pure ?_
        rintro w' ⟨_, hsame', hwritten'⟩
        have hbefore' := hbefore.sameOff hdistinct hsame'
        -- The second temporary was created anew, so it is not the first one.
        have hne : s.temp (.publish .manifest) ≠ s.temp (.publish .lock) := by
          intro heq
          have hpresent := (hwritten rfl).2
          rw [heq, (hwritten' rfl).1] at hpresent
          cases hpresent
        exact ⟨hbefore', fun _ => ⟨hbefore', (hwritten' rfl).2,
          (hsame' _ hne).trans (hwritten rfl).2, hne⟩⟩
      · rintro e w' ⟨hsame', _⟩
        exact ⟨hbefore.sameOff hdistinct hsame', nofun⟩
    exact hlock w rfl
  · rintro e w ⟨hsame, _⟩
    exact ⟨hstart.sameOff hdistinct hsame, nofun⟩

theorem swap_spec (hdistinct : Distinct s plan) {f : Map Bytes} (hstaged : Staged s plan files₀ f) :
    Run.Spec (Observes (Consistent plan files₀)) (fun w => w.files = f) (swap s plan none)
      fun r w => (r = .ok () → After plan w.files) ∧
        (r ≠ .ok () → Before plan files₀ w.files ∨ After plan w.files) := by
  have hlock : ∀ {g : Map Bytes}, Replaced (s.temp (.publish .lock)) plan.lockPath plan.lockBytes
      g f → Before plan files₀ g := fun hg =>
    ⟨Or.inr hg.1, (hg.2 _ (hdistinct.manifest _).symm hdistinct.paths.symm).trans
      hstaged.before.2⟩
  refine Run.Spec.bind (replaceDestination_spec s (.publish .lock) hstaged.lockTemp
    fun g hg => (hlock hg).consistent) (fun _ => ?_) ?_
  · rintro w ⟨_, hresult⟩
    rcases hresult with ⟨hr, _⟩ | hreplaced
    · exact absurd rfl hr
    · have hbefore := hlock hreplaced
      have htemp : w.files[s.temp (.publish .manifest)]? = some plan.manifestBytes :=
        (hreplaced.2 _ hstaged.temps (hdistinct.lock _)).trans hstaged.manifestTemp
      have hafter : ∀ {g : Map Bytes}, Replaced (s.temp (.publish .manifest)) plan.manifestPath
          plan.manifestBytes g w.files → After plan g := fun hg =>
        ⟨(hg.2 _ (hdistinct.lock _).symm hdistinct.paths).trans hreplaced.1, hg.1⟩
      obtain ⟨hobserves, hresult⟩ := replaceDestination_spec s (.publish .manifest) htemp
        (fun g hg => (hafter hg).consistent) w rfl
      refine ⟨hobserves, ?_⟩
      rcases hresult with ⟨hr, hw⟩ | hreplaced'
      · exact ⟨fun h => absurd h hr, fun _ => Or.inl (hw ▸ hbefore)⟩
      · exact ⟨fun _ => hafter hreplaced', fun _ => Or.inr (hafter hreplaced')⟩
  · rintro e w hresult
    refine ⟨nofun, fun _ => Or.inl ?_⟩
    rcases hresult with ⟨_, hw⟩ | hreplaced
    · exact hw ▸ hstaged.before
    · exact hlock hreplaced

theorem forward_spec (hdistinct : Distinct s plan) {w : World} (hw : w.files = files₀) :
    Observes (Consistent plan files₀) w (forward s plan none w).2 ∧
      ((forward s plan none w).1.1 = .ok () → After plan (forward s plan none w).2.files) ∧
      ((forward s plan none w).1.1 ≠ .ok () →
        Before plan files₀ (forward s plan none w).2.files ∨
          After plan (forward s plan none w).2.files) := by
  obtain ⟨hobserves, hbefore, hstaged⟩ := stage_spec hdistinct w hw
  unfold forward
  cases hstage : stage s plan none w with
  | mk r w₁ =>
      rw [hstage] at hobserves hbefore hstaged
      cases r with
      | error e => exact ⟨hobserves, nofun, fun _ => Or.inl hbefore⟩
      | ok u =>
          obtain ⟨hobserves', hafter, hfailed⟩ := swap_spec hdistinct (hstaged rfl) w₁ rfl
          exact ⟨trans_of (Observes (Consistent plan files₀)) hobserves hobserves', hafter, hfailed⟩

/-- Between original and plan, with the manifest untouched or the lockfile unchanged. -/
structure Safe (plan : PublishPlan) (files₀ files : Map Bytes) : Prop where
  lock : files[plan.lockPath]? = files₀[plan.lockPath]? ∨
    files[plan.lockPath]? = some plan.lockBytes
  manifest : files[plan.manifestPath]? = files₀[plan.manifestPath]? ∨
    files[plan.manifestPath]? = some plan.manifestBytes
  order : files[plan.manifestPath]? = files₀[plan.manifestPath]? ∨
    files₀[plan.lockPath]? = some plan.lockBytes

theorem Safe.consistent {files : Map Bytes} (h : Safe plan files₀ files) :
    Consistent plan files₀ files :=
  ⟨h.lock, h.manifest, fun horder =>
    h.order.elim (fun hm => horder.2.1 (hm ▸ horder.1)) horder.2.2.2⟩

theorem Safe.sameOff {job : Job} {f f' : Map Bytes} (hdistinct : Distinct s plan)
    (h : Safe plan files₀ f) (hsame : SameOff (s.temp job) f' f) : Safe plan files₀ f' := by
  have hlock := hsame _ (hdistinct.lock job).symm
  have hmanifest := hsame _ (hdistinct.manifest job).symm
  refine ⟨?_, ?_, ?_⟩
  · rw [hlock]
    exact h.lock
  · rw [hmanifest]
    exact h.manifest
  · rw [hmanifest]
    exact h.order

theorem Safe.restored_lock {f f' : Map Bytes} (hdistinct : Distinct s plan)
    (h : Safe plan files₀ f)
    (hrestored : Restored s .lock plan.lockPath files₀[plan.lockPath]? f f') :
    Safe plan files₀ f' := by
  have hmanifest := hrestored.others _ (hdistinct.manifest _).symm hdistinct.paths.symm
  refine ⟨?_, ?_, ?_⟩
  · rcases hrestored.content with hcontent | hcontent
    · rw [hcontent]
      exact h.lock
    · exact Or.inl hcontent
  · rw [hmanifest]
    exact h.manifest
  · rw [hmanifest]
    exact h.order

theorem Safe.restored_manifest {f f' : Map Bytes} (hdistinct : Distinct s plan)
    (h : Safe plan files₀ f)
    (hrestored : Restored s .manifest plan.manifestPath files₀[plan.manifestPath]? f f') :
    Safe plan files₀ f' := by
  have hlock := hrestored.others _ (hdistinct.lock _).symm hdistinct.paths
  refine ⟨?_, ?_, ?_⟩
  · rw [hlock]
    exact h.lock
  · rcases hrestored.content with hcontent | hcontent
    · rw [hcontent]
      exact h.manifest
    · exact Or.inl hcontent
  · rcases hrestored.content with hcontent | hcontent
    · rw [hcontent]
      exact h.order
    · exact Or.inl hcontent

/-- The original of a destination, as it is captured. -/
def originalOf (files : Map Bytes) (path : Str) : Original := ⟨files.contains path, files[path]?⟩

theorem captureOriginal_eq (s : Schedule) (d : Destination) (path : Str) (w : World) :
    captureOriginal s d path w =
      (if s.fails (.publish d) .read then .error (.failed (.publish d) .read)
        else .ok (originalOf w.files path), w) := by
  unfold captureOriginal attempt
  cases s.fails (.publish d) .read <;> rfl

/-- A rollback from a safe state keeps to safe states; when it reports no failure and
its probes see what is there, both files are the originals. -/
theorem rollback_spec (hdistinct : Distinct s plan) {w : World} (hsafe : Safe plan files₀ w.files)
    {undone : List RollbackFailure × World}
    (hundone : rollback s plan ⟨false, false⟩ (originalOf files₀ plan.manifestPath)
      (originalOf files₀ plan.lockPath) w = undone)
    (hlock : files₀[plan.lockPath]? = none → w.files[plan.lockPath]? ≠ none →
      s.fails (.restore .lock) .probe = false)
    (hmanifest : files₀[plan.manifestPath]? = none → w.files[plan.manifestPath]? ≠ none →
      s.fails (.restore .manifest) .probe = false) :
    Observes (Consistent plan files₀) w undone.2 ∧
      (undone.1 = [] → undone.2.files[plan.lockPath]? = files₀[plan.lockPath]? ∧
        undone.2.files[plan.manifestPath]? = files₀[plan.manifestPath]?) := by
  have hexisted : ∀ path, (originalOf files₀ path).existed = (originalOf files₀ path).bytes.isSome :=
    fun path => Map.contains_eq_isSome files₀ path
  obtain ⟨hobserves, hrestored, hcontent⟩ :=
    @restore_spec (Consistent plan files₀) s .lock _ _ _ (hexisted plan.lockPath)
      (hdistinct.lock _) (fun f hf => (hsafe.restored_lock hdistinct hf).consistent) w rfl
  have hsafe' := hsafe.restored_lock hdistinct hrestored
  obtain ⟨hobserves', hrestored', hcontent'⟩ :=
    @restore_spec (Consistent plan files₀) s .manifest _ _ _ (hexisted plan.manifestPath)
      (hdistinct.manifest _) (fun f hf => (hsafe'.restored_manifest hdistinct hf).consistent) _ rfl
  subst hundone
  refine ⟨trans_of (Observes (Consistent plan files₀)) hobserves hobserves', fun hcomplete => ?_⟩
  obtain ⟨hfirst, hsecond⟩ := List.append_eq_nil_iff.mp hcomplete
  have hok : ∀ {d : Destination} {r : Except IoError Unit},
      (match r with
        | .ok () => []
        | .error e => [(⟨d, e⟩ : RollbackFailure)]) = [] → r = .ok () := by
    intro d r hr
    cases r with
    | ok u => rfl
    | error e => cases hr
  have hmanifest₁ := hrestored.others _ (hdistinct.manifest _).symm hdistinct.paths.symm
  constructor
  · exact (hrestored'.others _ (hdistinct.lock _).symm hdistinct.paths).trans
      (hcontent (hok hfirst) hlock)
  · refine hcontent' (hok hsecond) fun hnone hpresent => hmanifest hnone ?_
    rwa [hmanifest₁] at hpresent

/-- The world before a publication. -/
def World.start (files : Map Bytes) : World := ⟨files, [files]⟩

/-- What must hold when a rollback starts: the manifest has not been replaced, unless
the lockfile is published unchanged, and a file that was absent and is there now is
seen by the probe. -/
structure Recoverable (s : Schedule) (plan : PublishPlan) (files₀ files : Map Bytes) : Prop where
  order : files[plan.manifestPath]? = files₀[plan.manifestPath]? ∨
    files₀[plan.lockPath]? = some plan.lockBytes
  lock : files₀[plan.lockPath]? = none → files[plan.lockPath]? ≠ none →
    s.fails (.restore .lock) .probe = false
  manifest : files₀[plan.manifestPath]? = none → files[plan.manifestPath]? ≠ none →
    s.fails (.restore .manifest) .probe = false

theorem cleanup_spec (hdistinct : Distinct s plan) {w : World}
    (hgood : ∀ job f f', (∀ k ∈ [plan.lockPath, plan.manifestPath], f[k]? = w.files[k]?) →
      SameOff (s.temp job) f' f → Consistent plan files₀ f') :
    Observes (Consistent plan files₀) w
        ((removeTemp s .lock : Io Unit) ((removeTemp s .manifest : Io Unit) w).2).2 ∧
      ∀ k ∈ [plan.lockPath, plan.manifestPath],
        ((removeTemp s .lock : Io Unit) ((removeTemp s .manifest : Io Unit) w).2).2.files[k]? =
          w.files[k]? := by
  have hoff : ∀ job, ∀ k ∈ [plan.lockPath, plan.manifestPath], k ≠ s.temp job := by
    intro job k hk
    simp only [List.mem_cons, List.not_mem_nil, or_false] at hk
    rcases hk with rfl | rfl
    · exact (hdistinct.lock job).symm
    · exact (hdistinct.manifest job).symm
  obtain ⟨hobserves, hsame⟩ := @removeTemp_spec (Consistent plan files₀) IoError s .manifest w.files
    (fun f hf => hgood _ w.files f (fun _ _ => rfl) hf) w rfl
  have hkeep := fun k hk => hsame k (hoff _ k hk)
  obtain ⟨hobserves', hsame'⟩ := @removeTemp_spec (Consistent plan files₀) IoError s .lock _
    (fun f hf => hgood _ _ f hkeep hf) _ rfl
  exact ⟨trans_of (Observes (Consistent plan files₀)) hobserves hobserves',
    fun k hk => (hsame' k (hoff _ k hk)).trans (hkeep k hk)⟩

/-- What a run reports and leaves behind. -/
structure Sound (plan : PublishPlan) (files₀ : Map Bytes) (r : Except PublishError Unit × World) :
    Prop where
  published : r.1 = .ok () → After plan r.2.files
  restored : ∀ e, r.1 = .error e → e.rollbackComplete = true →
    r.2.files[plan.lockPath]? = files₀[plan.lockPath]? ∧
      r.2.files[plan.manifestPath]? = files₀[plan.manifestPath]?
  observed : ∀ files ∈ r.2.seen, Consistent plan files₀ files

theorem finish_sound (hdistinct : Distinct s plan) {outcome : Except IoError Unit × Bool}
    {w : World} (hseen : ∀ files ∈ w.seen, Consistent plan files₀ files)
    (hafter : outcome.1 = .ok () → After plan w.files)
    (hfailed : outcome.1 ≠ .ok () → Before plan files₀ w.files ∨ After plan w.files)
    (hrecoverable : outcome.1 ≠ .ok () → Recoverable s plan files₀ w.files) :
    Sound plan files₀ (finish s plan ⟨false, false⟩ (originalOf files₀ plan.manifestPath)
      (originalOf files₀ plan.lockPath) outcome w) := by
  have hobserved : ∀ {w' : World}, Observes (Consistent plan files₀) w w' →
      ∀ files ∈ w'.seen, Consistent plan files₀ files := fun hw files hfiles =>
    (hw files hfiles).elim (hseen files) id
  obtain ⟨r, began⟩ := outcome
  unfold finish
  cases r with
  | ok u =>
      have hdone := hafter rfl
      have hgood : ∀ job f f', (∀ k ∈ [plan.lockPath, plan.manifestPath], f[k]? = w.files[k]?) →
          SameOff (s.temp job) f' f → Consistent plan files₀ f' := by
        intro job f f' hf hf'
        have hf'' : After plan f :=
          ⟨(hf _ (by simp)).trans hdone.1, (hf _ (by simp)).trans hdone.2⟩
        exact (hf''.sameOff hdistinct hf').consistent
      obtain ⟨hobserves, hkeep⟩ := cleanup_spec hdistinct hgood
      exact ⟨fun _ => ⟨(hkeep _ (by simp)).trans hdone.1, (hkeep _ (by simp)).trans hdone.2⟩,
        fun e he => (by cases he), hobserved hobserves⟩
  | error primary =>
      have hrec := hrecoverable nofun
      have hsafe : ∀ {f : Map Bytes},
          (∀ k ∈ [plan.lockPath, plan.manifestPath], f[k]? = w.files[k]?) →
          Safe plan files₀ f := by
        intro f hf
        have hlock := hf plan.lockPath (by simp)
        have hmanifest := hf plan.manifestPath (by simp)
        have hstate := hfailed nofun
        refine ⟨?_, ?_, ?_⟩
        · rw [hlock]
          exact hstate.elim (·.1) fun h => Or.inr h.1
        · rw [hmanifest]
          exact hstate.elim (fun h => Or.inl h.2) fun h => Or.inr h.2
        · rw [hmanifest]
          exact hrec.order
      obtain ⟨hobserves, hkeep⟩ := cleanup_spec hdistinct
        (fun job f f' hf hf' => ((hsafe hf).sameOff hdistinct hf').consistent)
      obtain ⟨hobserves', hcomplete⟩ := rollback_spec hdistinct (hsafe hkeep) rfl
        (fun hnone hpresent => hrec.lock hnone (by rwa [hkeep _ (by simp)] at hpresent))
        (fun hnone hpresent => hrec.manifest hnone (by rwa [hkeep _ (by simp)] at hpresent))
      refine ⟨fun h => (by cases h), ?_, hobserved
        (trans_of (Observes (Consistent plan files₀)) hobserves hobserves')⟩
      rintro e he hrollback
      cases he
      exact hcomplete (List.isEmpty_iff.mp hrollback)

end Runs

/-- A run whose rollback, if any, starts from a recoverable state: success publishes
both files, a complete rollback restores both, and nothing else is ever observable. -/
theorem publish_sound {s : Schedule} {plan : PublishPlan} (files₀ : Map Bytes)
    (hdistinct : Distinct s plan)
    (hrecoverable : (forward s plan none (.start files₀)).1.1 ≠ .ok () →
      Recoverable s plan files₀ (forward s plan none (.start files₀)).2.files) :
    Sound plan files₀ (publish s plan (.start files₀)) := by
  have hstart : ∀ files ∈ (World.start files₀).seen, Consistent plan files₀ files := by
    intro files hfiles
    rw [List.mem_singleton.mp hfiles]
    exact Before.consistent ⟨Or.inl rfl, rfl⟩
  have hunread : ∀ e, Sound plan files₀ (.error ⟨e, false, []⟩, .start files₀) := fun e =>
    ⟨fun h => (by cases h), fun _ _ _ => ⟨rfl, rfl⟩, hstart⟩
  unfold publish publishImpl
  rw [captureOriginal_eq]
  by_cases hreadManifest : s.fails (.publish .manifest) .read = true
  · rw [if_pos hreadManifest]
    exact hunread _
  · rw [if_neg hreadManifest]
    simp only [captureOriginal_eq]
    by_cases hreadLock : s.fails (.publish .lock) .read = true
    · rw [if_pos hreadLock]
      exact hunread _
    · rw [if_neg hreadLock]
      obtain ⟨hobserves, hafter, hfailed⟩ := forward_spec hdistinct rfl
      exact finish_sound hdistinct
        (fun files hfiles => (hobserves files hfiles).elim (hstart files) id) hafter hfailed
        hrecoverable

def tempName : Job → Str
  | .publish .lock => lit ".bpm.lock.bpm-1-1.tmp"
  | .publish .manifest => lit ".package.json.bpm-1-1.tmp"
  | .restore .lock => lit ".bpm.lock.bpm-1-2.tmp"
  | .restore .manifest => lit ".package.json.bpm-1-2.tmp"

/-- The given steps fail, and no failed write reaches its file. -/
def failing (steps : List (Job × Op)) : Schedule where
  fails job op := (job, op) ∈ steps
  written _ := 0
  temp := tempName

def projectPlan : PublishPlan :=
  { manifestPath := lit "package.json", manifestBytes := [2], lockPath := lit "bpm.lock"
    lockBytes := [20] }

def manifestOnly : Map Bytes := (∅ : Map Bytes).insert (lit "package.json") [1]

def bothFiles : Map Bytes := manifestOnly.insert (lit "bpm.lock") [10]

theorem failing_distinct (steps : List (Job × Op)) : Distinct (failing steps) projectPlan where
  paths := by decide
  lock job := by
    change tempName job ≠ lit "bpm.lock"
    rcases job with ⟨_ | _⟩ | ⟨_ | _⟩ <;> decide
  manifest job := by
    change tempName job ≠ lit "package.json"
    rcases job with ⟨_ | _⟩ | ⟨_ | _⟩ <;> decide

/-- The manifest cannot be renamed: the lockfile is rolled back. -/
theorem publish_sound_renameFails :
    Sound projectPlan bothFiles
      (publish (failing [(.publish .manifest, .rename)]) projectPlan (.start bothFiles)) :=
  publish_sound bothFiles (failing_distinct _) fun _ =>
    ⟨Or.inl (by decide), fun h => absurd h (by decide),
      fun h => absurd h (by decide)⟩

/-- A probe that fails leaves a new lockfile behind a rollback reported as complete, and
a failed sync of the manifest's directory puts the old lockfile beside the new manifest. -/
theorem publish_unsound :
    ((publish (failing [(.publish .manifest, .rename), (.restore .lock, .probe)]) projectPlan
          (.start manifestOnly)).1 =
        .error ⟨.failed (.publish .manifest) .rename, true, []⟩ ∧
      (publish (failing [(.publish .manifest, .rename), (.restore .lock, .probe)]) projectPlan
          (.start manifestOnly)).2.files[projectPlan.lockPath]? = some projectPlan.lockBytes ∧
      manifestOnly[projectPlan.lockPath]? = none) ∧
    ∃ files ∈ (publish (failing [(.publish .manifest, .syncParent)]) projectPlan
        (.start bothFiles)).2.seen,
      files[projectPlan.manifestPath]? = some projectPlan.manifestBytes ∧
        bothFiles[projectPlan.manifestPath]? ≠ some projectPlan.manifestBytes ∧
        files[projectPlan.lockPath]? = bothFiles[projectPlan.lockPath]? ∧
        bothFiles[projectPlan.lockPath]? ≠ some projectPlan.lockBytes := by
  refine ⟨⟨by decide, by decide, by decide⟩, by decide⟩

end Publish
end Bpm
