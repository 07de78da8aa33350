import Bpm.Install.Pipeline
import Bpm.Lockfile.PackagePaths

/-!
# The streaming volume stager

While packages are still being fetched, the images of placed units are linked into a
staging tree of the graph volume.  The stager stays dormant until it is told of a
freshly extracted image, and keeps what it is told before that.  A package waits until
the packages around it are linked.  Every extract worker tells the stager of a placed
unit with its path, its image, and a flag.
-/

namespace Bpm

open Text

/-! ## The packages around a package -/

/-- The boundaries behind `before` at which a package path ends, without the last one. -/
def ancestorsFrom (before : List Str) : List Str → List Str
  | first :: name :: rest =>
      if first ≠ nodeModules then []
      else if name.head? = some '@' then
        match rest with
        | inner :: next :: rest =>
            join ['/'] (before ++ [first, name, inner]) ::
              ancestorsFrom (before ++ [first, name, inner]) (next :: rest)
        | _ => []
      else
        match rest with
        | next :: rest =>
            join ['/'] (before ++ [first, name]) ::
              ancestorsFrom (before ++ [first, name]) (next :: rest)
        | [] => []
  | _ => []
termination_by rest => rest.length

/-- The package paths that a placement path lies in. -/
def ancestorPackagePaths (path : Str) : List Str :=
  ancestorsFrom [] ((path.splitOn '/').filter fun part => !part.isEmpty)

example : ancestorPackagePaths (lit "node_modules/@a/b/node_modules/c/node_modules/d") =
    [lit "node_modules/@a/b", lit "node_modules/@a/b/node_modules/c"] := by
  decide +kernel

/-! ## The stager -/

inductive StagingEffect (δ : Type)
  | createStaging
  | reflinkTree (path : Str) (id : δ)
  | removeStaging
deriving DecidableEq

/-- Whether the staging directory can be made, and which trees can be linked after what was
done so far. -/
structure StagingDisk (δ : Type) where
  creates : Bool
  links : List (StagingEffect δ) → Str × δ → Bool

structure VolumeStager (δ : Type) where
  /-- Whether the staging directory is there. -/
  staging : Bool
  packages : Map δ
  waiting : List (Str × δ)
  preActivation : List (Str × δ)
  dead : Bool
  /-- What an observer sees, oldest first. -/
  effects : List (StagingEffect δ)

namespace VolumeStager

variable {δ : Type} (disk : StagingDisk δ)

def new : VolumeStager δ := ⟨false, ∅, [], [], false, []⟩

/-- Link one image; a failure ends the staging. -/
def link (s : VolumeStager δ) (unit : Str × δ) : VolumeStager δ :=
  let effects := s.effects ++ [.reflinkTree unit.1 unit.2]
  if disk.links s.effects unit then
    { s with packages := s.packages.insert unit.1 unit.2, effects := effects }
  else { s with packages := ∅, waiting := [], dead := true, effects := effects }

/-- Whether all packages around a path are linked. -/
def ready (gate : Bool) (s : VolumeStager δ) (path : Str) : Bool :=
  !gate || (ancestorPackagePaths path).all (s.packages.contains ·)

/-- Go over the waiting units once; those that are not ready remain. -/
def pass (gate : Bool) : List (Str × δ) → VolumeStager δ → List (Str × δ) × VolumeStager δ
  | [], s => ([], s)
  | unit :: rest, s =>
      if s.ready gate unit.1 then
        let s := s.link disk unit
        if s.dead then ([], s) else pass gate rest s
      else
        let (remaining, s) := pass gate rest s
        (unit :: remaining, s)

/-- Passes until one of them links nothing; each of the others leaves fewer units. -/
def passes (gate : Bool) : Nat → VolumeStager δ → VolumeStager δ
  | 0, s => s
  | fuel + 1, s =>
      let (remaining, next) := pass disk gate s.waiting s
      if next.dead then next
      else if remaining.length < s.waiting.length then
        passes gate fuel { next with waiting := remaining }
      else { next with waiting := remaining }

def drain (gate : Bool) (s : VolumeStager δ) : VolumeStager δ :=
  if s.staging then passes disk gate (s.waiting.length + 1) s else s

/-- One completed placed unit; `fresh` is what the sender says of its image. -/
def stage (s : VolumeStager δ) (path : Str) (id : δ) (fresh : Bool) : VolumeStager δ :=
  if s.dead then s
  else if s.staging then drain disk true { s with waiting := s.waiting ++ [(path, id)] }
  else if !fresh then { s with preActivation := s.preActivation ++ [(path, id)] }
  else if disk.creates then
    drain disk true
      { s with
        staging := true
        waiting := s.waiting ++ s.preActivation ++ [(path, id)]
        preActivation := []
        effects := s.effects ++ [.createStaging] }
  else { s with dead := true, effects := s.effects ++ [.removeStaging] }

/-- Remove the staging directory, if it is there. -/
def discard (s : VolumeStager δ) : VolumeStager δ :=
  if s.staging then { s with staging := false, effects := s.effects ++ [.removeStaging] } else s

/-- The end of the stream: what waits is linked in any order.  The result is what was
linked where, if the staging stayed healthy. -/
def finish (s : VolumeStager δ) : VolumeStager δ × Option (Map δ) :=
  if s.dead then (s.discard, none)
  else
    let s := drain disk false (drain disk false s)
    if s.staging then
      if s.packages.isEmpty then (s.discard, none) else (s, some s.packages)
    else (s, none)

end VolumeStager

/-! ## The hand-off -/

/-- A unit whose image an extract worker has got, and whether the image was in the store
already. -/
structure Completion (δ : Type) where
  work : InstallWork
  artifact : ArtifactStore.ArtifactRef δ
  imageCached : Bool

namespace Completion

variable {δ : Type}

/-- What the worker adds to the outcomes of the install. -/
def outcome (c : Completion δ) : List (FetchOutcome δ) :=
  Pipeline.outcomeOf c.work c.artifact c.imageCached

/-- What the worker tells the stager: the path of a placed unit, its image, and the flag. -/
def message (c : Completion δ) : List (Str × δ × Bool) :=
  match c.work.path with
  | some path => [(path, c.artifact.id, c.imageCached)]
  | none => []

end Completion

/-- The thread of the stager over the completions of a pipeline. -/
def stagerThread {δ : Type} (disk : StagingDisk δ) (completions : List (Completion δ)) :
    VolumeStager δ × Option (Map δ) :=
  ((completions.flatMap Completion.message).foldl
    (fun s told => s.stage disk told.1 told.2.1 told.2.2) VolumeStager.new).finish disk

/-- The outcomes of the placed units that completed. -/
def outcomes {δ : Type} (completions : List (Completion δ)) : List (FetchOutcome δ) :=
  completions.flatMap Completion.outcome

/-- A staging tree is made and packages are linked. -/
def Stages {δ : Type} (effects : List (StagingEffect δ)) : Prop :=
  .createStaging ∈ effects ∧ ∃ path id, .reflinkTree path id ∈ effects

namespace VolumeStager

variable {δ : Type} {disk : StagingDisk δ}

/-! ## What draining does -/

/-- Some tree was linked. -/
def Linked (s : VolumeStager δ) : Prop := ∃ path id, .reflinkTree path id ∈ s.effects

theorem Linked.mono {s s' : VolumeStager δ} (h : s.Linked) (heffects : s.effects ⊆ s'.effects) :
    s'.Linked := by
  obtain ⟨path, id, hmem⟩ := h
  exact ⟨path, id, heffects hmem⟩

/-- What does not change while packages are linked, and the effects that are kept. -/
structure Later (s s' : VolumeStager δ) : Prop where
  staging : s'.staging = s.staging
  effects : s.effects ⊆ s'.effects

theorem Later.refl (s : VolumeStager δ) : Later s s := ⟨rfl, fun _ h => h⟩

theorem Later.trans {s s' s'' : VolumeStager δ} (h : Later s s') (h' : Later s' s'') :
    Later s s'' :=
  ⟨h'.staging.trans h.staging, fun _ hmem => h'.effects (h.effects hmem)⟩

theorem link_spec (disk : StagingDisk δ) (s : VolumeStager δ) (unit : Str × δ) :
    Later s (s.link disk unit) ∧ (s.link disk unit).Linked := by
  have hmem : StagingEffect.reflinkTree unit.1 unit.2 ∈
      s.effects ++ [.reflinkTree unit.1 unit.2] := by
    simp
  unfold link
  split
  · exact ⟨⟨rfl, List.subset_append_left _ _⟩, unit.1, unit.2, hmem⟩
  · exact ⟨⟨rfl, List.subset_append_left _ _⟩, unit.1, unit.2, hmem⟩

/-- A pass links something and leaves fewer units, or finds nothing ready and changes
nothing. -/
theorem pass_spec (disk : StagingDisk δ) (gate : Bool) (units : List (Str × δ))
    (s : VolumeStager δ) :
    Later s (pass disk gate units s).2 ∧
      ((pass disk gate units s).2.Linked ∧
          ((pass disk gate units s).2.dead = true ∨
            (pass disk gate units s).1.length < units.length) ∨
        pass disk gate units s = (units, s) ∧
          ∀ unit ∈ units, s.ready gate unit.1 = false) := by
  induction units generalizing s with
  | nil => exact ⟨.refl s, .inr ⟨rfl, nofun⟩⟩
  | cons unit rest ih =>
      rw [pass]
      split
      · obtain ⟨hlater, hlinked⟩ := link_spec disk s unit
        simp only
        split
        · rename_i hdead
          exact ⟨hlater, .inl ⟨hlinked, .inl hdead⟩⟩
        · obtain ⟨hrest, hcases⟩ := ih (s.link disk unit)
          apply And.intro (hlater.trans hrest)
          left
          apply And.intro (hlinked.mono hrest.effects)
          rcases hcases with ⟨_, hdead | hfewer⟩ | ⟨hsame, _⟩
          · exact .inl hdead
          · right
            rw [List.length_cons]
            omega
          · right
            simp only [hsame, List.length_cons]
            omega
      · rename_i hready
        obtain ⟨hlater, ⟨hlinked, hfewer⟩ | ⟨hsame, hnone⟩⟩ := ih s
        · apply And.intro hlater
          left
          apply And.intro hlinked
          simpa using hfewer
        · rw [hsame]
          apply And.intro (Later.refl s)
          right
          apply And.intro rfl
          intro other hother
          rcases List.mem_cons.mp hother with rfl | hin
          · simpa using hready
          · exact hnone other hin

/-- The passes link something, or find nothing ready; nothing ready is left waiting behind
them. -/
theorem passes_spec (disk : StagingDisk δ) (gate : Bool) {fuel : Nat} {s : VolumeStager δ}
    (hfuel : s.waiting.length < fuel) :
    Later s (passes disk gate fuel s) ∧
      ((passes disk gate fuel s).Linked ∨ passes disk gate fuel s = s) ∧
      ((passes disk gate fuel s).dead = true ∨
        ∀ unit ∈ (passes disk gate fuel s).waiting,
          (passes disk gate fuel s).ready gate unit.1 = false) := by
  induction fuel generalizing s with
  | zero => exact absurd hfuel (Nat.not_lt_zero _)
  | succ fuel ih =>
      obtain ⟨hlater, hcases⟩ := pass_spec disk gate s.waiting s
      rw [passes]
      generalize pass disk gate s.waiting s = result at hlater hcases
      obtain ⟨remaining, next⟩ := result
      simp only at hlater hcases ⊢
      rcases hcases with ⟨hlinked, hfewer⟩ | ⟨hsame, hnone⟩
      · split
        · rename_i hdead
          exact ⟨hlater, .inl hlinked, .inl hdead⟩
        · rename_i halive
          have hless : remaining.length < s.waiting.length := hfewer.resolve_left halive
          rw [if_pos hless]
          have hrest : remaining.length < fuel := by omega
          obtain ⟨hlast, _, hleft⟩ := ih (s := { next with waiting := remaining }) hrest
          have hall : Later s (passes disk gate fuel { next with waiting := remaining }) :=
            hlater.trans ⟨hlast.staging, hlast.effects⟩
          exact ⟨hall, .inl (hlinked.mono hlast.effects), hleft⟩
      · -- nothing was ready: the units that wait are the same
        obtain ⟨rfl, rfl⟩ := Prod.mk.inj hsame
        rw [if_neg (Nat.lt_irrefl _), ite_self]
        exact ⟨.refl _, .inr rfl, .inr hnone⟩

theorem drain_spec (disk : StagingDisk δ) (gate : Bool) (s : VolumeStager δ) :
    Later s (drain disk gate s) ∧ ((drain disk gate s).Linked ∨ drain disk gate s = s) := by
  unfold drain
  split
  · obtain ⟨hlater, hcases, _⟩ := passes_spec disk gate (Nat.lt_succ_self s.waiting.length)
    exact ⟨hlater, hcases⟩
  · exact ⟨.refl s, .inr rfl⟩

/-- Without the gate every unit is ready. -/
theorem drain_open {s : VolumeStager δ} (hstaging : s.staging = true) (hwaiting : s.waiting ≠ [])
    (halive : s.dead = false) : (drain disk false s).Linked := by
  have hdrain : drain disk false s = passes disk false (s.waiting.length + 1) s :=
    if_pos hstaging
  obtain ⟨_, hlinked | hsame, hleft⟩ :=
    passes_spec disk false (Nat.lt_succ_self s.waiting.length)
  · exact hdrain ▸ hlinked
  · rw [hsame] at hleft
    rcases hleft with hdead | hnone
    · rw [halive] at hdead
      cases hdead
    · obtain ⟨unit, rest, hcons⟩ := List.exists_cons_of_ne_nil hwaiting
      have hready := hnone unit (hcons ▸ List.mem_cons_self)
      simp [ready] at hready

/-! ## The phases of the stager -/

/-- Where the stager stands after what it was told: `flagged` is whether one of the flags
was set. -/
inductive Phase (disk : StagingDisk δ) (flagged : Prop) (s : VolumeStager δ) : Prop
  | dormant (hflag : ¬flagged) (hstaging : s.staging = false) (halive : s.dead = false)
      (heffects : s.effects = [])
  | active (hflag : flagged) (hcreates : disk.creates = true) (hstaging : s.staging = true)
      (hcreated : .createStaging ∈ s.effects)
      (hwork : s.Linked ∨ s.dead = false ∧ s.waiting ≠ [])
  | failed (hflag : flagged) (hcreates : disk.creates = false) (hstaging : s.staging = false)
      (hdead : s.dead = true) (hnone : .createStaging ∉ s.effects)

/-- A unit that waits in an active stager is linked or still waits after the drain. -/
theorem drain_active {flagged : Prop} {s : VolumeStager δ} (hflag : flagged)
    (hcreates : disk.creates = true) (hstaging : s.staging = true)
    (hcreated : .createStaging ∈ s.effects) (halive : s.dead = false)
    (hwaiting : s.waiting ≠ []) : Phase disk flagged (drain disk true s) := by
  obtain ⟨hlater, hcases⟩ := drain_spec disk true s
  apply Phase.active hflag hcreates (hlater.staging.trans hstaging) (hlater.effects hcreated)
  rcases hcases with hlinked | hsame
  · exact .inl hlinked
  · rw [hsame]
    exact .inr ⟨halive, hwaiting⟩

/-- One told unit moves the stager to the phase of all that it was told. -/
theorem stage_phase {flagged : Prop} {s : VolumeStager δ} (h : Phase disk flagged s)
    (path : Str) (id : δ) (fresh : Bool) :
    Phase disk (flagged ∨ fresh = true) (s.stage disk path id fresh) := by
  unfold stage
  cases h with
  | dormant hflag hstaging halive heffects =>
      rw [if_neg (by simp [halive]), if_neg (by simp [hstaging])]
      split
      · -- kept for later: the flag is not set
        rename_i hfresh
        exact .dormant (by simpa [hflag] using hfresh) hstaging halive heffects
      · rename_i hfresh
        have hset : flagged ∨ fresh = true := .inr (by simpa using hfresh)
        split
        · rename_i hcreates
          apply drain_active hset hcreates rfl
          · simp
          · exact halive
          · simp
        · rename_i hcreates
          exact .failed hset (by simpa using hcreates) hstaging rfl (by simp [heffects])
  | active hflag hcreates hstaging hcreated hwork =>
      split
      · exact .active (.inl hflag) hcreates hstaging hcreated hwork
      · rename_i halive
        exact drain_active (.inl hflag) hcreates hstaging hcreated (by simpa using halive)
          (by simp)
  | failed hflag hcreates hstaging hdead hnone =>
      rw [if_pos hdead]
      exact .failed (.inl hflag) hcreates hstaging hdead hnone

theorem stages_phase {flagged : Prop} {s : VolumeStager δ} (h : Phase disk flagged s)
    (told : List (Str × δ × Bool)) :
    Phase disk (flagged ∨ ∃ unit ∈ told, unit.2.2 = true)
      (told.foldl (fun s told => s.stage disk told.1 told.2.1 told.2.2) s) := by
  induction told generalizing flagged s with
  | nil => simpa using h
  | cons unit rest ih =>
      have hrest := ih (stage_phase h unit.1 unit.2.1 unit.2.2)
      simpa [or_assoc] using hrest

theorem discard_effects (s : VolumeStager δ) : s.effects ⊆ s.discard.effects := by
  unfold discard
  split
  · exact List.subset_append_left _ _
  · exact List.Subset.refl _

/-- The stager stages iff it was woken up and could make the staging directory. -/
theorem finish_stages {flagged : Prop} {s : VolumeStager δ} (h : Phase disk flagged s) :
    Stages (s.finish disk).1.effects ↔ disk.creates = true ∧ flagged := by
  unfold finish
  cases h with
  | dormant hflag hstaging halive heffects =>
      have hdrain : drain disk false s = s := if_neg (by simp [hstaging])
      rw [if_neg (by simp [halive]), hdrain, hdrain]
      simp [hstaging, heffects, Stages, hflag]
  | active hflag hcreates hstaging hcreated hwork =>
      apply iff_of_true _ ⟨hcreates, hflag⟩
      split
      · rename_i hdead
        have hlinked := hwork.resolve_right fun h => by simp [hdead] at h
        exact ⟨discard_effects s hcreated, hlinked.mono (discard_effects s)⟩
      · obtain ⟨hfirst, _⟩ := drain_spec disk false s
        obtain ⟨hsecond, _⟩ := drain_spec disk false (drain disk false s)
        have hlater := hfirst.trans hsecond
        have hlinked : (drain disk false (drain disk false s)).Linked := by
          rcases hwork with hlinked | ⟨halive, hwaiting⟩
          · exact hlinked.mono hlater.effects
          · exact (drain_open hstaging hwaiting halive).mono hsecond.effects
        generalize drain disk false (drain disk false s) = last at hlater hlinked
        simp only
        rw [if_pos (hlater.staging.trans hstaging)]
        split
        · exact ⟨discard_effects last (hlater.effects hcreated),
            hlinked.mono (discard_effects last)⟩
        · exact ⟨hlater.effects hcreated, hlinked⟩
  | failed hflag hcreates hstaging hdead hnone =>
      rw [if_pos hdead]
      have hdiscard : s.discard = s := if_neg (by simp [hstaging])
      rw [hdiscard]
      simp [Stages, hnone, hcreates]

end VolumeStager

/-! ## What wakes the stager -/

section

variable {δ : Type} (disk : StagingDisk δ) (completions : List (Completion δ))

/-- The flag of a message is what the outcome of its unit says of the image. -/
theorem Completion.message_flag (c : Completion δ) :
    (∃ told ∈ c.message, told.2.2 = true) ↔ ∃ o ∈ c.outcome, o.imageCached = true := by
  unfold message outcome Pipeline.outcomeOf
  cases c.work.path with
  | none => simp
  | some path => simp

/-- The stager is woken by an image that was in the store. -/
theorem stagerThread_stages :
    Stages (stagerThread disk completions).1.effects ↔
      disk.creates = true ∧ ∃ o ∈ outcomes completions, o.imageCached = true := by
  have hnew : VolumeStager.Phase disk False VolumeStager.new :=
    .dormant not_false rfl rfl rfl
  have hphase := VolumeStager.stages_phase hnew (completions.flatMap Completion.message)
  unfold stagerThread
  rw [VolumeStager.finish_stages hphase]
  apply and_congr_right
  intro _
  rw [false_or]
  constructor
  · rintro ⟨told, htold, hflag⟩
    obtain ⟨c, hc, hin⟩ := List.mem_flatMap.mp htold
    obtain ⟨o, ho, hcached⟩ := c.message_flag.mp ⟨told, hin, hflag⟩
    exact ⟨o, List.mem_flatMap.mpr ⟨c, hc, ho⟩, hcached⟩
  · rintro ⟨o, ho, hcached⟩
    obtain ⟨c, hc, hin⟩ := List.mem_flatMap.mp ho
    obtain ⟨told, htold, hflag⟩ := c.message_flag.mpr ⟨o, hin, hcached⟩
    exact ⟨told, List.mem_flatMap.mpr ⟨c, hc, htold⟩, hflag⟩

/-- Staging follows the extracted images exactly when extracted and cached images occur
together, or when no directory can be made for what was only cached. -/
theorem stagerThread_stages_iff_extracted :
    (Stages (stagerThread disk completions).1.effects ↔
        ∃ o ∈ outcomes completions, o.imageCached = false) ↔
      if disk.creates then
        outcomes completions = [] ∨
          (∃ o ∈ outcomes completions, o.imageCached = true) ∧
            ∃ o ∈ outcomes completions, o.imageCached = false
      else ∀ o ∈ outcomes completions, o.imageCached = true := by
  rw [stagerThread_stages]
  cases disk.creates with
  | false => simp
  | true =>
      simp only [true_and, if_true]
      constructor
      · intro h
        cases hall : outcomes completions with
        | nil => exact .inl rfl
        | cons first rest =>
            right
            rw [← hall]
            have hfirst : first ∈ outcomes completions := hall ▸ List.mem_cons_self
            cases hcached : first.imageCached with
            | true => exact ⟨⟨first, hfirst, hcached⟩, h.mp ⟨first, hfirst, hcached⟩⟩
            | false => exact ⟨h.mpr ⟨first, hfirst, hcached⟩, first, hfirst, hcached⟩
      · rintro (hnone | ⟨hcached, hextracted⟩)
        · simp [hnone]
        · exact iff_of_true hcached hextracted

end

/-- One placed unit whose image was extracted just now: nothing is staged. -/
theorem stagerThread_skips_extracted :
    ∃ (disk : StagingDisk Nat) (completions : List (Completion Nat)),
      disk.creates = true ∧ (∀ done unit, disk.links done unit = true) ∧
      ¬(Stages (stagerThread disk completions).1.effects ↔
          ∃ o ∈ outcomes completions, o.imageCached = false) := by
  let work : InstallWork :=
    ⟨some (lit "node_modules/a"), lit "a", lit "https://registry/a.tgz", none, none⟩
  use ⟨true, fun _ _ => true⟩, [⟨work, ⟨7, false⟩, false⟩]
  apply And.intro rfl
  apply And.intro fun _ _ => rfl
  intro h
  have hextracted : ∃ o ∈ outcomes [⟨work, ⟨7, false⟩, false⟩], o.imageCached = false :=
    ⟨⟨lit "node_modules/a", 7, false, false⟩, List.mem_singleton.mpr rfl, rfl⟩
  obtain ⟨hcreated, _⟩ := h.mpr hextracted
  exact absurd hcreated List.not_mem_nil

end Bpm
