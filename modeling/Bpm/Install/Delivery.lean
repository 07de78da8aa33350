import Bpm.Install.Sourcing
import Bpm.Lib.Text

/-!
# What the fetch pipeline delivers

Every emitted unit is in one place: in a channel, with a thread, delivered or dropped.
Nothing is dropped before there is an error, so a join that succeeds has one outcome for
each emitted unit.
-/

namespace Bpm
namespace Pipeline

open ArtifactStore (ArtifactRef)
open Text (lit)
open Pool

variable {workers : Workers} {δ : Type} {sink : Sink} {yields : InstallWork → ArtifactRef δ → Prop}
  {s s' : State workers δ} {a : Action}

/-! ## Where each unit is -/

/-- How often a download worker has the unit. -/
def carried (unit : InstallWork) : Downloader δ → Nat
  | .acquiring work | .downloading work => [work].count unit
  | .releasing message | .adjusting message | .sending message => [message.1].count unit
  | _ => 0

def extracting (unit : InstallWork) : Extractor δ → Nat
  | .extracting work _ => [work].count unit
  | _ => 0

def inHand (unit : InstallWork) : Producer δ → Nat
  | .sending work => [work].count unit
  | _ => 0

/-- What the producer has, and what is in a channel, at a worker or done with. -/
def placed (unit : InstallWork) (s : State workers δ) : Nat :=
  s.units.count unit + s.overflow.count unit + inHand unit s.producer +
    total (carried unit) s.downloaders + (s.results.map Prod.fst).count unit +
    total (extracting unit) s.extractors + (s.delivered.map Prod.fst).count unit +
    s.dropped.count unit

/-- No emitted unit is lost or doubled. -/
def Balance (unit : InstallWork) (s : State workers δ) : Prop :=
  s.emitted.count unit = placed unit s

variable {unit : InstallWork}

theorem count_authoritative (hunit : unit.path.isSome) (work : InstallWork) :
    (authoritative work).count unit = [work].count unit := by
  unfold authoritative
  split
  · rfl
  · rename_i hpath
    have hne : work ≠ unit := fun heq => hpath (heq ▸ hunit)
    rw [List.count_nil, List.count_singleton, if_neg (by simpa using hne)]

/-- A forgotten message is one of no authoritative unit. -/
theorem carried_afterDownload (hunit : unit.path.isSome) (message : Message δ) :
    carried unit (afterDownload message) = [message.1].count unit := by
  unfold afterDownload
  split
  · rename_i hforgotten
    have hpath := (Bool.and_eq_true _ _ ▸ hforgotten).1
    have hne : message.1 ≠ unit := by
      intro heq
      rw [heq, Option.isNone_iff_eq_none] at hpath
      rw [hpath] at hunit
      cases hunit
    unfold carried
    rw [List.count_singleton, if_neg (by simpa using hne)]
  · rfl

/-- A download worker takes from a channel or puts into one. -/
theorem Balance.downloader {i : Fin workers.download} {old pc : Downloader δ} (h : Balance unit s)
    (hpc : s.downloaders i = old) (hpcs : s'.downloaders = Function.update s.downloaders i pc)
    (hmoved : s'.units.count unit + carried unit pc + (s'.results.map Prod.fst).count unit =
      s.units.count unit + carried unit old + (s.results.map Prod.fst).count unit)
    (hproducer : s'.producer = s.producer) (hoverflow : s'.overflow = s.overflow)
    (hextractors : s'.extractors = s.extractors) (hdelivered : s'.delivered = s.delivered)
    (hdropped : s'.dropped = s.dropped) (hemitted : s'.emitted = s.emitted) :
    Balance unit s' := by
  have hupdate := total_update (carried unit) s.downloaders i pc
  rw [hpc] at hupdate
  unfold Balance placed at h ⊢
  rw [hpcs, hproducer, hoverflow, hextractors, hdelivered, hdropped, hemitted]
  omega

/-- An extract worker takes from its channel, and is done with a unit. -/
theorem Balance.extractor {j : Fin workers.extract} {old pc : Extractor δ} (h : Balance unit s)
    (hpc : s.extractors j = old) (hpcs : s'.extractors = Function.update s.extractors j pc)
    (hmoved : (s'.results.map Prod.fst).count unit + extracting unit pc +
        (s'.delivered.map Prod.fst).count unit + s'.dropped.count unit =
      (s.results.map Prod.fst).count unit + extracting unit old +
        (s.delivered.map Prod.fst).count unit + s.dropped.count unit)
    (hproducer : s'.producer = s.producer) (hunits : s'.units = s.units)
    (hoverflow : s'.overflow = s.overflow) (hdownloaders : s'.downloaders = s.downloaders)
    (hemitted : s'.emitted = s.emitted) : Balance unit s' := by
  have hupdate := total_update (extracting unit) s.extractors j pc
  rw [hpc] at hupdate
  unfold Balance placed at h ⊢
  rw [hpcs, hproducer, hunits, hoverflow, hdownloaders, hemitted]
  omega

/-- The producer emits a unit or passes it on. -/
theorem Balance.producer (h : Balance unit s)
    (hmoved : s'.emitted.count unit + s.units.count unit + s.overflow.count unit +
        inHand unit s.producer =
      s.emitted.count unit + s'.units.count unit + s'.overflow.count unit +
        inHand unit s'.producer)
    (hdownloaders : s'.downloaders = s.downloaders) (hresults : s'.results = s.results)
    (hextractors : s'.extractors = s.extractors) (hdelivered : s'.delivered = s.delivered)
    (hdropped : s'.dropped = s.dropped) : Balance unit s' := by
  unfold Balance placed at h ⊢
  rw [hdownloaders, hresults, hextractors, hdelivered, hdropped]
  omega

theorem balance_step (hunit : unit.path.isSome) (hclosing : Closing s) (h : Balance unit s)
    (hstep : Step sink yields s a s') : Balance unit s' := by
  have hcons : ∀ (work : InstallWork) (rest : List InstallWork),
      (work :: rest).count unit = [work].count unit + rest.count unit :=
    fun work rest => @List.count_append _ _ _ [work] rest
  cases hstep with
  | emit hpc =>
    refine h.producer ?_ rfl rfl rfl rfl rfl
    simp only [hpc, inHand, List.count_append]
    omega
  | tryEmit hpc =>
    refine h.producer ?_ rfl rfl rfl rfl rfl
    simp only [List.count_append]
    omega
  | tryOverflow hpc =>
    refine h.producer ?_ rfl rfl rfl rfl rfl
    simp only [List.count_append]
    omega
  | @prefetch work hpc hsink hpath =>
    refine h.producer ?_ rfl rfl rfl rfl rfl
    have hspeculative : [work].count unit = 0 := by
      rw [← count_authoritative hunit, authoritative, if_neg (by rw [hpath]; simp)]
      rfl
    simp only [List.count_append]
    omega
  | send hpc =>
    refine h.producer ?_ rfl rfl rfl rfl rfl
    simp only [hpc, inHand, List.count_append]
    omega
  | sendDisconnected hpc hdone =>
    exact absurd hdone (hclosing.not_downloadersDone (by rw [State.unitsClosed, hpc]; exact id))
  | resolved hpc =>
    refine h.producer ?_ rfl rfl rfl rfl rfl
    simp only [hpc, inHand]
  | resolutionFails hpc =>
    refine h.producer ?_ rfl rfl rfl rfl rfl
    simp only [hpc, inHand]
  | @drain work rest hpc hoverflow =>
    refine h.producer ?_ rfl rfl rfl rfl rfl
    have := hcons work rest
    simp only [hoverflow, List.count_append]
    omega
  | drainDisconnected hpc _ hdone =>
    exact absurd hdone (hclosing.not_downloadersDone (by rw [State.unitsClosed, hpc]; exact id))
  | drained hpc =>
    refine h.producer ?_ rfl rfl rfl rfl rfl
    simp only [hpc, inHand]
  | join hpc =>
    refine h.producer ?_ rfl rfl rfl rfl rfl
    simp only [hpc, inHand]
  | lockUnits hpc => exact h.downloader hpc rfl rfl rfl rfl rfl rfl rfl rfl
  | @receiveUnit i work rest hpc hunits =>
    refine h.downloader hpc rfl ?_ rfl rfl rfl rfl rfl rfl
    have := hcons work rest
    simp only [hunits, carried, State.setDownloader]
    omega
  | @skipUnit i _ _ _ _ hgone =>
    rw [hclosing.gone i] at hgone
    cases hgone
  | unitsEnd hpc => exact h.downloader hpc rfl rfl rfl rfl rfl rfl rfl rfl
  | acquire hpc => exact h.downloader hpc rfl rfl rfl rfl rfl rfl rfl rfl
  | acquireStale hpc => exact h.downloader hpc rfl rfl rfl rfl rfl rfl rfl rfl
  | downloaded hpc => exact h.downloader hpc rfl rfl rfl rfl rfl rfl rfl rfl
  | downloadFails hpc => exact h.downloader hpc rfl rfl rfl rfl rfl rfl rfl rfl
  | release hpc => exact h.downloader hpc rfl rfl rfl rfl rfl rfl rfl rfl
  | adjust hpc =>
    refine h.downloader hpc rfl ?_ rfl rfl rfl rfl rfl rfl
    rw [carried_afterDownload hunit]
    rfl
  | keepLimit hpc =>
    refine h.downloader hpc rfl ?_ rfl rfl rfl rfl rfl rfl
    rw [carried_afterDownload hunit]
    rfl
  | @sendResult i message hpc =>
    refine h.downloader hpc rfl ?_ rfl rfl rfl rfl rfl rfl
    simp only [carried, State.setDownloader, List.map_append, List.count_append, List.map_cons,
      List.map_nil]
    omega
  | sendGone hpc hdone =>
    exact absurd hdone (hclosing.not_extractorsDone (by rw [hpc]; simp))
  | lockResults hpc => exact h.extractor hpc rfl rfl rfl rfl rfl rfl rfl
  | @receiveError j work rest hpc hresults =>
    refine h.extractor hpc rfl ?_ rfl rfl rfl rfl rfl
    have := hcons work (rest.map Prod.fst)
    simp only [hresults, State.setExtractor, List.map_cons, List.count_append,
      count_authoritative hunit, extracting]
    omega
  | @receiveArtifact j work artifact rest hpc hresults =>
    refine h.extractor hpc rfl ?_ rfl rfl rfl rfl rfl
    have := hcons work (rest.map Prod.fst)
    simp only [hresults, State.setExtractor, List.map_cons, extracting]
    omega
  | @skipArtifact j work artifact rest hpc hresults =>
    refine h.extractor hpc rfl ?_ rfl rfl rfl rfl rfl
    have := hcons work (rest.map Prod.fst)
    simp only [hresults, State.setExtractor, List.map_cons, List.count_append,
      count_authoritative hunit, extracting]
    omega
  | resultsEnd hpc => exact h.extractor hpc rfl rfl rfl rfl rfl rfl rfl
  | @extracted j work artifact imageCached hpc =>
    refine h.extractor hpc rfl ?_ rfl rfl rfl rfl rfl
    have hfst : ((authoritative work).map fun w => (w, artifact.id)).map Prod.fst =
        authoritative work := by
      rw [List.map_map]
      exact List.map_id _
    simp only [State.setExtractor, List.map_append, hfst, List.count_append,
      count_authoritative hunit, extracting]
    omega
  | extractFails hpc =>
    refine h.extractor hpc rfl ?_ rfl rfl rfl rfl rfl
    simp only [State.setExtractor, List.count_append, extracting]
    omega
  | @warmupFails j work artifact hpc hpath =>
    refine h.extractor hpc rfl ?_ rfl rfl rfl rfl rfl
    have hspeculative : [work].count unit = 0 := by
      rw [← count_authoritative hunit, authoritative, if_neg (by rw [hpath]; simp)]
      rfl
    simp only [State.setExtractor, extracting]
    omega

/-! ## Outcomes -/

/-- The path and the artifact of an outcome, and those of a delivered unit. -/
def outcomePlacement {δ : Type} (outcome : FetchOutcome δ) : Str × δ :=
  (outcome.path, outcome.id)

def placement {δ : Type} (p : InstallWork × δ) : Str × δ := (p.1.path.getD [], p.2)

theorem outcomeOf_placement (work : InstallWork) (artifact : ArtifactRef δ) (imageCached : Bool) :
    (outcomeOf work artifact imageCached).map outcomePlacement =
      ((authoritative work).map fun w => (w, artifact.id)).map placement := by
  unfold outcomeOf authoritative
  cases hpath : work.path with
  | none => rfl
  | some path => simp [outcomePlacement, placement, hpath]

section Outcomes

variable [DecidableEq δ] {key : Str × δ}

/-- The extract workers have the outcomes of the delivered units. -/
def Recorded (key : Str × δ) (s : State workers δ) : Prop :=
  total (fun outcomes => (outcomes.map outcomePlacement).count key) s.outcomes =
    (s.delivered.map placement).count key

theorem recorded_step (h : Recorded key s) (hstep : Step sink yields s a s') :
    Recorded key s' := by
  unfold Recorded at h ⊢
  cases hstep with
  | @extracted j work artifact imageCached hpc =>
    have hupdate := total_update
      (fun outcomes => (outcomes.map outcomePlacement).count key) s.outcomes j
      (s.outcomes j ++ outcomeOf work artifact imageCached)
    simp only [List.map_append, List.count_append, outcomeOf_placement] at hupdate ⊢
    omega
  | _ => exact h

end Outcomes

/-- After the join nobody moves, so its result is that of the last state. -/
def Joined (s : State workers δ) : Prop :=
  ∀ result, s.producer = .joined result →
    s.downloadersDone ∧ s.extractorsDone ∧ result = s.joinPipeline

theorem joined_step (h : Joined s) (hstep : Step sink yields s a s') : Joined s' := by
  intro result hjoined
  have hdownloader : ∀ {i : Fin workers.download} {pc : Downloader δ},
      s.producer = .joined result → s.downloaders i = pc → pc ≠ .finished → False :=
    fun hproducer hpc hne => hne (hpc ▸ (h result hproducer).1 _)
  have hextractor : ∀ {j : Fin workers.extract} {pc : Extractor δ},
      s.producer = .joined result → s.extractors j = pc → pc ≠ .finished → False :=
    fun hproducer hpc hne => hne (hpc ▸ (h result hproducer).2.1 _)
  cases hstep with
  | join hpc hdownloaders hextractors =>
    cases hjoined
    exact ⟨hdownloaders, hextractors, rfl⟩
  | tryEmit hpc => rw [hpc] at hjoined; cases hjoined
  | tryOverflow hpc => rw [hpc] at hjoined; cases hjoined
  | prefetch hpc => rw [hpc] at hjoined; cases hjoined
  | drain hpc => rw [hpc] at hjoined; cases hjoined
  | drainDisconnected hpc => rw [hpc] at hjoined; cases hjoined
  | lockUnits hpc => exact (hdownloader hjoined hpc nofun).elim
  | receiveUnit hpc => exact (hdownloader hjoined hpc nofun).elim
  | skipUnit hpc => exact (hdownloader hjoined hpc nofun).elim
  | unitsEnd hpc => exact (hdownloader hjoined hpc nofun).elim
  | acquire hpc => exact (hdownloader hjoined hpc nofun).elim
  | acquireStale hpc => exact (hdownloader hjoined hpc nofun).elim
  | downloaded hpc => exact (hdownloader hjoined hpc nofun).elim
  | downloadFails hpc => exact (hdownloader hjoined hpc nofun).elim
  | release hpc => exact (hdownloader hjoined hpc nofun).elim
  | adjust hpc => exact (hdownloader hjoined hpc nofun).elim
  | keepLimit hpc => exact (hdownloader hjoined hpc nofun).elim
  | sendResult hpc => exact (hdownloader hjoined hpc nofun).elim
  | sendGone hpc => exact (hdownloader hjoined hpc nofun).elim
  | lockResults hpc => exact (hextractor hjoined hpc nofun).elim
  | receiveError hpc => exact (hextractor hjoined hpc nofun).elim
  | receiveArtifact hpc => exact (hextractor hjoined hpc nofun).elim
  | skipArtifact hpc => exact (hextractor hjoined hpc nofun).elim
  | resultsEnd hpc => exact (hextractor hjoined hpc nofun).elim
  | extracted _ hpc => exact (hextractor hjoined hpc nofun).elim
  | extractFails hpc => exact (hextractor hjoined hpc nofun).elim
  | warmupFails hpc => exact (hextractor hjoined hpc nofun).elim
  -- the producer is at another place after its other steps
  | _ => cases hjoined

/-! ## Whole runs -/

/-- What holds in every state of every run. -/
structure Kept (yields : InstallWork → ArtifactRef δ → Prop) (s : State workers δ) : Prop where
  closing : Closing s
  sourced : Sourced yields s
  balance : ∀ unit : InstallWork, unit.path.isSome → Balance unit s
  joined : Joined s

theorem kept_of_begins (h : Begins s) : Kept yields s := by
  obtain ⟨hproducer, hunits, -, hoverflow, hdownloaders, -, -, hresults, -, hextractors, hemitted,
    hfailed, hdelivered, hdropped⟩ := h
  constructor
  case closing =>
    refine ⟨fun i hi => ?_, fun j hj => ?_, fun i => (hdownloaders i).2, fun _ => hoverflow⟩
    · rw [(hdownloaders i).1] at hi
      cases hi
    · rw [(hextractors j).1] at hj
      cases hj
  case sourced =>
    refine ⟨?_, fun i => ?_, ?_, fun j => ?_, fun j work hj => ?_, ?_, ?_⟩
    · rw [hemitted]
      nofun
    · rw [(hdownloaders i).1]
      trivial
    · rw [hresults]
      nofun
    · rw [(hextractors j).1]
      trivial
    · rw [(hextractors j).2.1] at hj
      cases hj
    · rw [hdelivered]
      nofun
    · rw [hdropped]
      exact fun hne => absurd rfl hne
  case balance =>
    intro unit _
    have hdownload : total (carried unit) s.downloaders = 0 :=
      total_eq_zero.mpr fun i => by rw [(hdownloaders i).1]; rfl
    have hextract : total (extracting unit) s.extractors = 0 :=
      total_eq_zero.mpr fun j => by rw [(hextractors j).1]; rfl
    unfold Balance placed
    rw [hemitted, hunits, hoverflow, hproducer, hdownload, hresults, hextract, hdelivered, hdropped]
    rfl
  case joined =>
    intro result hjoined
    rw [hproducer] at hjoined
    cases hjoined

theorem kept_step (h : Kept yields s) (hstep : Step sink yields s a s') : Kept yields s' where
  closing := closing_step h.closing hstep
  sourced := sourced_step h.closing h.sourced hstep
  balance := fun unit hunit => balance_step hunit h.closing (h.balance unit hunit) hstep
  joined := joined_step h.joined hstep

theorem kept_of_reachable (h : (protocol sink yields).Reachable s) : Kept yields s :=
  h.invariant (I := Kept yields) (fun _ hinit => kept_of_begins hinit)
    fun _ _ _ hkept _ hstep => kept_step hkept hstep

theorem recorded_of_reachable [DecidableEq δ] (h : (protocol sink yields).Reachable s)
    (key : Str × δ) : Recorded key s := by
  refine h.invariant (I := Recorded key) (fun s hinit => ?_)
    fun _ _ _ hrecorded _ hstep => recorded_step hrecorded hstep
  obtain ⟨-, -, -, -, -, -, -, -, -, hextractors, -, -, hdelivered, -⟩ := hinit
  unfold Recorded
  rw [hdelivered]
  refine total_eq_zero.mpr fun j => ?_
  rw [(hextractors j).2.2]
  rfl

/-! ## Joins -/

/-- The outcomes of a join that succeeds; no extract worker has an error then. -/
theorem joinPipeline_ok {outcomes : List (FetchOutcome δ)}
    (h : s.joinPipeline = .ok outcomes) :
    (∀ j, s.firstError j = none) ∧ outcomes = (List.ofFn s.outcomes).flatten := by
  unfold State.joinPipeline at h
  split at h
  · cases h
  · rename_i hnone
    refine ⟨fun j => ?_, (Except.ok.inj h).symm⟩
    exact List.findSome?_eq_none_iff.mp hnone _ (List.mem_ofFn.mpr ⟨j, rfl⟩)

/-- The error of a join is that of an extract worker. -/
theorem joinPipeline_error {work : InstallWork} (h : s.joinPipeline = .error work) :
    ∃ j, s.firstError j = some work := by
  unfold State.joinPipeline at h
  split at h
  · rename_i error hsome
    obtain rfl := Except.error.inj h
    obtain ⟨first, hfirst, hid⟩ := List.exists_of_findSome?_eq_some hsome
    obtain ⟨j, rfl⟩ := List.mem_ofFn.mp hfirst
    exact ⟨j, hid⟩
  · cases h

theorem count_flatten_ofFn [DecidableEq δ] {n : Nat} (outcomes : Fin n → List (FetchOutcome δ))
    (key : Str × δ) :
    ((List.ofFn outcomes).flatten.map outcomePlacement).count key =
      total (fun outcomes => (outcomes.map outcomePlacement).count key) outcomes := by
  rw [List.map_flatten, List.count_flatten, List.map_map, List.map_ofFn, List.sum_ofFn]
  rfl

/-- At a join every channel is empty and every worker done, so the emitted units are those
that were delivered or dropped. -/
theorem Kept.settled (h : Kept yields s) {result : Except InstallWork (List (FetchOutcome δ))}
    (hjoined : s.producer = .joined result) {unit : InstallWork} (hunit : unit.path.isSome) :
    s.emitted.count unit =
      (s.delivered.map Prod.fst).count unit + s.dropped.count unit := by
  obtain ⟨hdownloaders, hextractors, -⟩ := h.joined result hjoined
  have hunits := (h.closing.units ⟨0, workers.download_pos⟩ (hdownloaders _)).2
  have hresults := (h.closing.results ⟨0, workers.extract_pos⟩ (hextractors _)).2
  have hoverflow := h.closing.overflow (Or.inr ⟨result, hjoined⟩)
  have hdownload : total (carried unit) s.downloaders = 0 :=
    total_eq_zero.mpr fun i => by rw [hdownloaders i]; rfl
  have hextract : total (extracting unit) s.extractors = 0 :=
    total_eq_zero.mpr fun j => by rw [hextractors j]; rfl
  have hbalance := h.balance unit hunit
  unfold Balance placed at hbalance
  rw [hunits, hresults, hoverflow, hdownload, hextract, hjoined] at hbalance
  simpa [inHand] using hbalance

/-- The delivered units of a join that succeeds are the emitted ones. -/
theorem Kept.delivered_perm (h : Kept yields s) {outcomes : List (FetchOutcome δ)}
    (hjoined : s.producer = .joined (.ok outcomes)) :
    (s.delivered.map Prod.fst).Perm s.emitted := by
  have hok := joinPipeline_ok (h.joined _ hjoined).2.2.symm
  have hdropped : s.dropped = [] := by
    by_contra hne
    obtain ⟨j, hj⟩ := h.sourced.dropped hne
    rw [hok.1 j] at hj
    cases hj
  refine List.perm_iff_count.mpr fun unit => ?_
  by_cases hunit : unit.path.isSome
  · rw [h.settled hjoined hunit, hdropped]
    rfl
  · -- nobody emits or delivers a speculative unit
    have hemitted : unit ∉ s.emitted := fun hmem => hunit (h.sourced.emitted unit hmem)
    have hdelivered : unit ∉ s.delivered.map Prod.fst := by
      intro hmem
      obtain ⟨p, hp, rfl⟩ := List.mem_map.mp hmem
      exact hunit (h.sourced.delivered p hp).1
    rw [List.count_eq_zero_of_not_mem hemitted, List.count_eq_zero_of_not_mem hdelivered]

/-- What is said of a state that some interleaving reaches. -/
structure Sound (sink : Sink) (yields : InstallWork → ArtifactRef δ → Prop)
    (s : State workers δ) : Prop where
  /-- There is no deadlock. -/
  progress : Unfinished s → CanStep sink yields s
  /-- A join that succeeds has one outcome for each emitted unit, with an artifact that the
  store returned for it. -/
  complete : ∀ outcomes, s.producer = .joined (.ok outcomes) →
    ∃ pairs : List (InstallWork × δ), (pairs.map Prod.fst).Perm s.emitted ∧
      (∀ p ∈ pairs, p.1.path.isSome ∧ ∃ artifact, yields p.1 artifact ∧ artifact.id = p.2) ∧
      (outcomes.map outcomePlacement).Perm (pairs.map placement)
  /-- A join that fails does so with an emitted unit that failed. -/
  blamed : ∀ work, s.producer = .joined (.error work) →
    work.path.isSome ∧ work ∈ s.emitted ∧ work ∈ s.failed

/-- In every interleaving, with any failures, the pipeline neither hangs nor loses or
doubles a unit, and speculative units matter to nobody. -/
theorem pipeline_sound (h : (protocol sink yields).Reachable s) : Sound sink yields s := by
  classical
  have hkept := kept_of_reachable h
  constructor
  case progress =>
    exact canStep_of_unfinished (live_of_reachable h)
  case complete =>
    intro outcomes hjoined
    refine ⟨s.delivered, hkept.delivered_perm hjoined, hkept.sourced.delivered, ?_⟩
    obtain ⟨-, rfl⟩ := joinPipeline_ok (hkept.joined _ hjoined).2.2.symm
    refine List.perm_iff_count.mpr fun key => ?_
    rw [count_flatten_ofFn]
    exact recorded_of_reachable h key
  case blamed =>
    intro work hjoined
    obtain ⟨j, hj⟩ := joinPipeline_error (hkept.joined _ hjoined).2.2.symm
    obtain ⟨hpath, hfailed, hdropped⟩ := hkept.sourced.firstError j work hj
    have hsettled := hkept.settled hjoined hpath
    have hcount := List.count_pos_iff.mpr hdropped
    exact ⟨hpath, List.count_pos_iff.mp (by omega), hfailed⟩

/-! ## A run with one worker of each kind -/

namespace Example

def lodash : InstallWork where
  path := some (lit "node_modules/lodash")
  name := lit "lodash"
  url := lit "https://registry/lodash.tgz"
  integrity := none
  patch := none

def lodashArtifact : ArtifactRef Nat := ⟨7, false⟩

def lodashYields (work : InstallWork) (artifact : ArtifactRef Nat) : Prop :=
  work = lodash ∧ artifact = lodashArtifact

def atFirst : State (Workers.of 1 1) Nat where
  producer := .resolving
  units := []
  unitLock := none
  overflow := []
  downloaders := fun _ => .waiting
  extractionGone := fun _ => false
  inFlight := 0
  limit := 1
  results := []
  resultLock := none
  extractors := fun _ => .waiting
  firstError := fun _ => none
  outcomes := fun _ => []
  emitted := []
  failed := []
  delivered := []
  dropped := []

def firstDownloader : Fin (Workers.of 1 1).download := ⟨0, Nat.one_pos⟩

def firstExtractor : Fin (Workers.of 1 1).extract := ⟨0, Nat.one_pos⟩

/-- The unit goes through both channels, and everybody ends. -/
theorem pipeline_sound_lodash : ∃ s : State (Workers.of 1 1) Nat,
    s.producer = .joined (.ok [⟨lit "node_modules/lodash", 7, false, true⟩]) ∧
      Sound .blocking lodashYields s := by
  have start : (protocol .blocking lodashYields).Reachable atFirst :=
    .start ⟨rfl, rfl, rfl, rfl, fun _ => ⟨rfl, rfl⟩, rfl, rfl, rfl, rfl,
      fun _ => ⟨rfl, rfl, rfl⟩, rfl, rfl, rfl, rfl⟩
  have hlodash : lodash.path.isSome := rfl
  have emitted := start.next (Step.emit rfl rfl hlodash)
  have sent := emitted.next (Step.send rfl (by decide))
  have resolved := (sent.next (Step.resolved rfl)).next (Step.drained rfl rfl)
  have received := (resolved.next (Step.lockUnits (i := firstDownloader) rfl rfl)).next
    (Step.receiveUnit (i := firstDownloader) rfl rfl rfl)
  have downloaded := (received.next (Step.acquire (i := firstDownloader) rfl (by decide))).next
    (Step.downloaded (i := firstDownloader) rfl ⟨rfl, rfl⟩)
  have passed := ((downloaded.next (Step.release (i := firstDownloader) rfl)).next
    (Step.keepLimit (i := firstDownloader) rfl)).next (Step.sendResult (i := firstDownloader) rfl (by decide))
  have extracting := (passed.next (Step.lockResults (j := firstExtractor) rfl rfl)).next
    (Step.receiveArtifact (j := firstExtractor) rfl rfl rfl)
  have extracted := extracting.next (Step.extracted (j := firstExtractor) true rfl)
  have downloadsEnd := (extracted.next (Step.lockUnits (i := firstDownloader) rfl rfl)).next
    (Step.unitsEnd (i := firstDownloader) rfl rfl trivial)
  have hdownloader : ∀ i, i = firstDownloader := by decide
  have hextractor : ∀ j, j = firstExtractor := by decide
  have extractsEnd := (downloadsEnd.next (Step.lockResults (j := firstExtractor) rfl rfl)).next
    (Step.resultsEnd (j := firstExtractor) rfl rfl fun i => by rw [hdownloader i]; rfl)
  have joined := extractsEnd.next (Step.join rfl (fun i => by rw [hdownloader i]; rfl)
    fun j => by rw [hextractor j]; rfl)
  exact ⟨_, rfl, pipeline_sound joined⟩

end Example

end Pipeline
end Bpm
