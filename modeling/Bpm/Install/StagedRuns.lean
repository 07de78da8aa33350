import Bpm.Install.Ancestors

/-!
# The runs of the stager

What the stager has linked at the end, whatever the order of what it was told: all of it,
if it stayed healthy, and every package behind the packages around it, if these are among
what it was told.
-/

namespace Bpm

open Text FileTree

namespace VolumeStager

variable {δ : Type}

/-- The stager over what it is told, to its end. -/
def run (disk : StagingDisk δ) (told : List (Str × δ × Bool)) : VolumeStager δ × Option (Map δ) :=
  (told.foldl (fun s told => s.stage disk told.1 told.2.1 told.2.2) new).finish disk

/-! ## What the stager has linked -/

/-- A stager at work: `linked` is what it linked so far, in order, and `pending` the rest
of what it was told. -/
structure Running (told pending linked : List (Str × δ)) (s : VolumeStager δ) : Prop where
  staging : s.staging = true
  alive : s.dead = false
  queued : s.preActivation = []
  effects : s.effects = .createStaging :: linked.map fun u => .reflinkTree u.1 u.2
  packages : s.packages = linked.foldl (fun m u => m.insert u.1 u.2) ∅
  perm : (linked ++ pending).Perm told

/-- Everything linked came after the packages around it. -/
structure Gated (linked : List (Str × δ)) : Prop where
  closed : ∀ u ∈ linked, ∀ path ∈ ancestorPackagePaths u.1, path ∈ linked.map Prod.fst
  order : linked.Pairwise fun a b => b.1 ∉ ancestorPackagePaths a.1

theorem Running.contains {told pending linked : List (Str × δ)} {s : VolumeStager δ}
    (h : Running told pending linked s) {path : Str} (hpath : s.packages.contains path = true) :
    path ∈ linked.map Prod.fst := by
  rw [h.packages, Map.contains_eq_isSome] at hpath
  obtain ⟨id, hid⟩ := Option.isSome_iff_exists.mp hpath
  rcases Map.get_foldl_insert hid with hmem | hempty
  · exact List.mem_map.mpr ⟨(path, id), hmem, rfl⟩
  · simp at hempty

variable (disk : StagingDisk δ) {told pending linked : List (Str × δ)} {s : VolumeStager δ}

/-- A stager that gave up holds nothing. -/
structure Stopped (s : VolumeStager δ) : Prop where
  dead : s.dead = true
  packages : s.packages = ∅
  waiting : s.waiting = []

/-- One more unit is linked, or the stager gives up. -/
theorem Running.of_link {unit : Str × δ} (h : Running told (unit :: pending) linked s) :
    Stopped (s.link disk unit) ∨ Running told pending (linked ++ [unit]) (s.link disk unit) := by
  unfold VolumeStager.link
  split
  · right
    exact {
      staging := h.staging
      alive := h.alive
      queued := h.queued
      effects := by simp [h.effects]
      packages := by simp [h.packages, List.foldl_append]
      perm := by simpa using h.perm }
  · exact .inl ⟨rfl, rfl, rfl⟩

theorem Gated.of_link {unit : Str × δ} (h : Gated linked)
    (hready : ∀ path ∈ ancestorPackagePaths unit.1, path ∈ linked.map Prod.fst)
    (hnew : unit.1 ∉ linked.map Prod.fst) : Gated (linked ++ [unit]) where
  closed := by
    intro u hu path hpath
    rw [List.map_append, List.mem_append]
    left
    rcases List.mem_append.mp hu with hu | hu
    · exact h.closed u hu path hpath
    · rw [List.mem_singleton.mp hu] at hpath
      exact hready path hpath
  order := by
    rw [List.pairwise_append]
    apply And.intro h.order
    apply And.intro (List.pairwise_singleton _ _)
    intro a ha b hb hancestor
    rw [List.mem_singleton.mp hb] at hancestor
    exact hnew (h.closed a ha unit.1 hancestor)

/-- What is pending has another path than what is linked. -/
theorem Running.fresh {unit : Str × δ} (h : Running told (unit :: pending) linked s)
    (hpaths : (told.map Prod.fst).Nodup) : unit.1 ∉ linked.map Prod.fst := by
  have hnodup := ((h.perm.map Prod.fst).nodup_iff).mpr hpaths
  rw [List.map_append, List.map_cons] at hnodup
  intro hmem
  exact (List.nodup_append.mp hnodup).2.2 unit.1 hmem unit.1 List.mem_cons_self rfl

/-- A pass over some of the pending units links a part of them. -/
theorem Running.of_pass (gate : Bool) (hpaths : (told.map Prod.fst).Nodup)
    {units kept : List (Str × δ)} (h : Running told (units ++ kept) linked s)
    (hgated : gate = true → Gated linked) :
    Stopped (pass disk gate units s).2 ∨
      ∃ linked', Running told ((pass disk gate units s).1 ++ kept) linked'
        (pass disk gate units s).2 ∧ (gate = true → Gated linked') := by
  induction units generalizing s linked kept with
  | nil => exact .inr ⟨linked, h, hgated⟩
  | cons unit rest ih =>
    rw [VolumeStager.pass]
    split
    · rename_i hready
      rcases h.of_link disk with hstopped | hrun
      · left
        rw [if_pos hstopped.dead]
        exact hstopped
      · rw [if_neg (by simp [hrun.alive])]
        apply ih hrun
        intro hgate
        apply (hgated hgate).of_link _ (h.fresh hpaths)
        intro path hpath
        rw [hgate, ready, Bool.not_true, Bool.false_or, List.all_eq_true] at hready
        exact h.contains (hready path hpath)
    · -- the unit stays pending
      have hmoved : Running told (rest ++ unit :: kept) linked s :=
        { h with perm := (List.perm_middle.append_left linked).trans h.perm }
      rcases ih hmoved hgated with hstopped | ⟨linked', hrun, hgated'⟩
      · exact .inl hstopped
      · right
        apply Exists.intro linked'
        apply And.intro _ hgated'
        exact { hrun with perm := (List.perm_middle.symm.append_left linked').trans hrun.perm }

theorem Stopped.of_passes (gate : Bool) (h : Stopped s) (fuel : Nat) :
    passes disk gate fuel s = s := by
  cases fuel with
  | zero => rfl
  | succ fuel =>
    rw [VolumeStager.passes, h.waiting]
    exact if_pos h.dead

/-- The passes over all that waits. -/
theorem Running.of_passes (gate : Bool) (hpaths : (told.map Prod.fst).Nodup) (fuel : Nat)
    (h : Running told s.waiting linked s) (hgated : gate = true → Gated linked) :
    Stopped (passes disk gate fuel s) ∨
      ∃ linked', Running told (passes disk gate fuel s).waiting linked' (passes disk gate fuel s) ∧
        (gate = true → Gated linked') := by
  induction fuel generalizing s linked with
  | zero => exact .inr ⟨linked, h, hgated⟩
  | succ fuel ih =>
    have hall : Running told (s.waiting ++ []) linked s := by
      rw [List.append_nil]
      exact h
    have hpass := hall.of_pass disk gate hpaths hgated
    rw [VolumeStager.passes]
    generalize pass disk gate s.waiting s = result at hpass
    obtain ⟨remaining, next⟩ := result
    simp only [List.append_nil] at hpass ⊢
    rcases hpass with hstopped | ⟨linked', hrun, hgated'⟩
    · left
      rw [if_pos hstopped.dead]
      exact hstopped
    · have hnext : Running told remaining linked' { next with waiting := remaining } :=
        ⟨hrun.staging, hrun.alive, hrun.queued, hrun.effects, hrun.packages, hrun.perm⟩
      rw [if_neg (by simp [hrun.alive])]
      split
      · exact ih hnext hgated'
      · exact .inr ⟨linked', hnext, hgated'⟩

/-- A drain of a stager at work; nothing that is ready is left waiting. -/
theorem Running.of_drain (gate : Bool) (hpaths : (told.map Prod.fst).Nodup)
    (h : Running told s.waiting linked s) (hgated : gate = true → Gated linked) :
    Stopped (drain disk gate s) ∨
      ∃ linked', Running told (drain disk gate s).waiting linked' (drain disk gate s) ∧
        (gate = true → Gated linked') ∧
        ∀ unit ∈ (drain disk gate s).waiting, (drain disk gate s).ready gate unit.1 = false := by
  have hdrain : drain disk gate s = VolumeStager.passes disk gate (s.waiting.length + 1) s :=
    if_pos h.staging
  obtain ⟨_, _, hleft⟩ := passes_spec disk gate (Nat.lt_succ_self s.waiting.length)
  rw [hdrain]
  rcases h.of_passes disk gate hpaths (s.waiting.length + 1) hgated with
    hstopped | ⟨linked', hrun, hgated'⟩
  · exact .inl hstopped
  · right
    apply Exists.intro linked'
    apply And.intro hrun
    apply And.intro hgated'
    rcases hleft with hdead | hnone
    · rw [hrun.alive] at hdead
      cases hdead
    · exact hnone

/-! ## What the stager is told -/

/-- The stager after what it was told: asleep with all of it queued, at work with nothing
ready left waiting, or dead. -/
inductive Told (told : List (Str × δ)) (s : VolumeStager δ) : Prop
  | asleep (h : s = { new with preActivation := told })
  | awake (linked : List (Str × δ)) (hrun : Running told s.waiting linked s)
      (hgated : Gated linked) (hwaits : ∀ unit ∈ s.waiting, s.ready true unit.1 = false)
  | dead (h : s.dead = true)

theorem told_of_drain (hpaths : (told.map Prod.fst).Nodup)
    (h : Running told s.waiting linked s) (hgated : Gated linked) :
    Told told (VolumeStager.drain disk true s) := by
  rcases h.of_drain disk true hpaths (fun _ => hgated) with
    hstopped | ⟨linked', hrun, hgated', hwaits⟩
  · exact .dead hstopped.dead
  · exact .awake linked' hrun (hgated' rfl) hwaits

/-- One more unit is told. -/
theorem Told.of_stage (h : Told told s) (path : Str) (id : δ) (fresh : Bool)
    (hpaths : ((told ++ [(path, id)]).map Prod.fst).Nodup) :
    Told (told ++ [(path, id)]) (s.stage disk path id fresh) := by
  unfold VolumeStager.stage
  cases h with
  | asleep h =>
    subst h
    rw [if_neg (by simp [new]), if_neg (by simp [new])]
    split
    · exact .asleep rfl
    · split
      · have hstart : Running (told ++ [(path, id)]) (told ++ [(path, id)]) []
            { new with
              staging := true
              waiting := [] ++ told ++ [(path, id)]
              preActivation := []
              effects := [] ++ [.createStaging] } :=
          ⟨rfl, rfl, rfl, rfl, rfl, by simp⟩
        exact told_of_drain disk hpaths hstart ⟨by simp, List.Pairwise.nil⟩
      · exact .dead rfl
  | awake linked hrun hgated hwaits =>
    rw [if_neg (by simp [hrun.alive]), if_pos hrun.staging]
    apply told_of_drain disk hpaths _ hgated
    have hperm : (linked ++ (s.waiting ++ [(path, id)])).Perm (told ++ [(path, id)]) := by
      rw [← List.append_assoc]
      exact hrun.perm.append_right _
    exact ⟨hrun.staging, hrun.alive, hrun.queued, hrun.effects, hrun.packages, hperm⟩
  | dead h =>
    rw [if_pos h]
    exact .dead h

/-- All units are told. -/
theorem Told.of_stages (h : Told told s) (units : List (Str × δ × Bool))
    (hpaths : ((told ++ units.map fun u => (u.1, u.2.1)).map Prod.fst).Nodup) :
    Told (told ++ units.map fun u => (u.1, u.2.1))
      (units.foldl (fun s told => s.stage disk told.1 told.2.1 told.2.2) s) := by
  induction units generalizing told s with
  | nil => simpa using h
  | cons unit units ih =>
    have hsplit : told ++ (unit :: units).map (fun u => (u.1, u.2.1)) =
        (told ++ [(unit.1, unit.2.1)]) ++ units.map fun u => (u.1, u.2.1) := by
      simp
    rw [hsplit] at hpaths ⊢
    have hfirst : ((told ++ [(unit.1, unit.2.1)]).map Prod.fst).Nodup := by
      rw [List.map_append] at hpaths
      exact (List.nodup_append.mp hpaths).1
    exact ih (h.of_stage disk unit.1 unit.2.1 unit.2.2 hfirst) hpaths

/-- When the packages around every unit are among the units, none is left waiting. -/
theorem Running.waiting_eq_nil (h : Running told s.waiting linked s)
    (hrooted : ∀ u ∈ told, Rooted u.1)
    (haround : ∀ u ∈ told, ∀ path ∈ ancestorPackagePaths u.1, path ∈ told.map Prod.fst)
    (hwaits : ∀ u ∈ s.waiting, s.ready true u.1 = false) : s.waiting = [] := by
  have hlinked : ∀ u ∈ linked, s.packages.contains u.1 = true := by
    intro u hu
    rw [h.packages]
    apply Map.contains_foldl
    · intro acc x hacc
      rw [Map.contains_insert, hacc, Bool.or_true]
    · exact .inr ⟨u, hu, fun acc => by simp⟩
  -- a unit that waits misses a package around it, which waits as well and lies less deep
  have hnone : ∀ n, ∀ u ∈ s.waiting, (placeOf u.1).length ≠ n := by
    intro n
    induction n using Nat.strongRecOn with
    | ind n ih =>
      intro u hwaiting hlen
      have hu : u ∈ told := h.perm.mem_iff.mp (List.mem_append_right _ hwaiting)
      have hmissing := hwaits u hwaiting
      rw [ready, Bool.not_true, Bool.false_or, List.all_eq_false] at hmissing
      obtain ⟨path, hpath, hnot⟩ := hmissing
      obtain ⟨v, hv, rfl⟩ := List.mem_map.mp (haround u hu path hpath)
      have hless := ((hrooted u hu).place_of_mem hpath).2
      rcases List.mem_append.mp (h.perm.mem_iff.mpr hv) with hin | hin
      · exact hnot (hlinked v hin)
      · exact ih _ (hlen ▸ hless) v hin rfl
  exact List.eq_nil_iff_forall_not_mem.mpr fun u hu => hnone _ u hu rfl

theorem pass_unready {gate : Bool} {units : List (Str × δ)}
    (h : ∀ u ∈ units, s.ready gate u.1 = false) : pass disk gate units s = (units, s) := by
  induction units with
  | nil => rfl
  | cons u units ih =>
    have hu := h u List.mem_cons_self
    rw [pass, hu, ih fun v hv => h v (List.mem_cons_of_mem _ hv)]
    rfl

/-- As long as nothing is ready, all of it waits. -/
theorem drain_unready {gate : Bool} (h : ∀ u ∈ s.waiting, s.ready gate u.1 = false) :
    drain disk gate s = s := by
  unfold drain
  split
  · rw [passes, pass_unready disk h]
    simp
  · rfl

theorem drain_nil (gate : Bool) (h : s.waiting = []) : drain disk gate s = s := by
  apply drain_unready
  rw [h]
  simp

theorem Stopped.of_drain (gate : Bool) (h : Stopped s) : drain disk gate s = s := drain_nil disk gate h.waiting

/-- What a healthy stager holds at the end: all that it was told, linked in some order. -/
theorem Running.of_finish (hpaths : (told.map Prod.fst).Nodup)
    (h : Running told s.waiting linked s) {packages : Map δ}
    (hfinish : (s.finish disk).2 = some packages) :
    ∃ linked', linked'.Perm told ∧ packages = linked'.foldl (fun m u => m.insert u.1 u.2) ∅ ∧
      (s.finish disk).1.effects = .createStaging :: linked'.map (fun u => .reflinkTree u.1 u.2) ∧
      (s.waiting = [] → linked' = linked) := by
  have hdone : ∀ s' linked', Running told s'.waiting linked' s' → s'.waiting = [] →
      drain disk false (drain disk false s) = s' → (s.waiting = [] → linked' = linked) →
      ∃ linked', linked'.Perm told ∧ packages = linked'.foldl (fun m u => m.insert u.1 u.2) ∅ ∧
        (s.finish disk).1.effects = .createStaging :: linked'.map (fun u => .reflinkTree u.1 u.2) ∧
        (s.waiting = [] → linked' = linked) := by
    intro s' linked' hrun hnil hdrain hsame
    rw [finish, if_neg (by simp [h.alive]), hdrain] at hfinish ⊢
    simp only [hrun.staging, if_true] at hfinish ⊢
    split at hfinish
    · cases hfinish
    · rename_i hsome
      rw [if_neg hsome]
      refine ⟨linked', ?_, ?_, hrun.effects, hsame⟩
      · have hperm := hrun.perm
        rwa [hnil, List.append_nil] at hperm
      · rw [← hrun.packages]
        exact (Option.some.inj hfinish).symm
  by_cases hnil : s.waiting = []
  · exact hdone s linked h hnil (by rw [drain_nil disk false hnil, drain_nil disk false hnil]) fun _ => rfl
  · rcases h.of_drain disk false hpaths (by simp) with
      hstopped | ⟨linked', hrun, _, hwaits⟩
    · -- the staging failed: nothing is handed over
      rw [finish, if_neg (by simp [h.alive]), hstopped.of_drain] at hfinish
      simp only [hstopped.packages] at hfinish
      split at hfinish
      · simp at hfinish
      · cases hfinish
    · have hnone : (drain disk false s).waiting = [] := by
        rw [List.eq_nil_iff_forall_not_mem]
        intro u hu
        simpa [ready] using hwaits u hu
      exact hdone _ linked' hrun hnone (drain_nil disk false hnone) fun hwaiting => absurd hwaiting hnil

/-- What is handed over after all units are told. -/
theorem run_linked {told : List (Str × δ × Bool)} (hpaths : (told.map Prod.fst).Nodup)
    {packages : Map δ} (hrun : (run disk told).2 = some packages) :
    ∃ linked : List (Str × δ), linked.Perm (told.map fun u => (u.1, u.2.1)) ∧
      packages = linked.foldl (fun m u => m.insert u.1 u.2) ∅ ∧
      (run disk told).1.effects = .createStaging :: linked.map (fun u => .reflinkTree u.1 u.2) ∧
      ((∀ u ∈ linked, Rooted u.1) → (∀ u ∈ linked, ∀ path ∈ ancestorPackagePaths u.1,
        path ∈ linked.map Prod.fst) → Gated linked) := by
  have hnodup : ((told.map fun u => (u.1, u.2.1)).map Prod.fst).Nodup := by
    rw [List.map_map]
    exact hpaths
  have hstart : Told [] (new : VolumeStager δ) := .asleep rfl
  have htold := hstart.of_stages disk told hnodup
  rw [List.nil_append] at htold
  unfold run at hrun ⊢
  generalize told.foldl (fun s told => s.stage disk told.1 told.2.1 told.2.2) new = s
    at htold hrun ⊢
  cases htold with
  | asleep h =>
    subst h
    rw [finish, if_neg (by simp [new])] at hrun
    simp [new, drain] at hrun
  | awake linked hlinked hgated hwaits =>
    obtain ⟨linked', hperm, hpackages, heffects, hsame⟩ := hlinked.of_finish disk hnodup hrun
    refine ⟨linked', hperm, hpackages, heffects, fun hrooted haround => ?_⟩
    have hmem : ∀ u, u ∈ linked' ↔ u ∈ told.map fun u => (u.1, u.2.1) := fun u => hperm.mem_iff
    have hnil : s.waiting = [] := by
      apply hlinked.waiting_eq_nil _ _ hwaits
      · intro u hu
        exact hrooted u ((hmem u).mpr hu)
      · intro u hu path hpath
        exact ((hperm.map Prod.fst).mem_iff).mp (haround u ((hmem u).mpr hu) path hpath)
    rw [hsame hnil]
    exact hgated
  | dead h =>
    rw [finish, if_pos h] at hrun
    cases hrun

end VolumeStager

end Bpm
