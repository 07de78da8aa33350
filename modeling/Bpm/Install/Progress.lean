import Bpm.Install.Pipeline

/-!
# No deadlock in the fetch pipeline

As long as a thread is unfinished, some thread can take a step, and one that needs no
limit read before it shrank: whoever waits for a lock, a slot, a message or room in a
channel waits for a thread that can move or waits for another one in turn.
-/

namespace Bpm
namespace Pipeline

open ArtifactStore (ArtifactRef)
open Pool

variable {workers : Workers} {δ : Type} {sink : Sink} {yields : InstallWork → ArtifactRef δ → Prop}
  {s s' : State workers δ} {a : Action}

/-! ## Locks and slots -/

/-- The slots of the governor that a download worker has taken. -/
def slots : Downloader δ → Nat
  | .downloading _ | .releasing _ => 1
  | _ => 0

/-- The locks are held by the workers that receive, the slots by those that download, and
the limit stays in its bounds. -/
structure Live (s : State workers δ) : Prop where
  unitLock : Owned (· = .receiving) s.unitLock s.downloaders
  resultLock : Owned (· = .receiving) s.resultLock s.extractors
  slots : total slots s.downloaders = s.inFlight
  limit : workers.minLimit ≤ s.limit ∧ s.limit ≤ workers.maxLimit

theorem minLimit_le_maxLimit (workers : Workers) : workers.minLimit ≤ workers.maxLimit := by
  unfold Workers.minLimit Workers.maxLimit
  omega

theorem minLimit_pos (workers : Workers) : 0 < workers.minLimit := by
  have := workers.download_pos
  unfold Workers.minLimit
  omega

theorem newLimit_bounds {limit : Nat} (h : workers.minLimit ≤ limit ∧ limit ≤ workers.maxLimit)
    (ewma n : Nat) :
    workers.minLimit ≤ newLimit workers limit ewma n ∧
      newLimit workers limit ewma n ≤ workers.maxLimit := by
  have hbounds := minLimit_le_maxLimit workers
  unfold newLimit
  split
  · omega
  · split <;> omega

/-- A download worker steps. -/
theorem Live.downloader {i : Fin workers.download} {pc : Downloader δ} (h : Live s)
    (hpcs : s'.downloaders = Function.update s.downloaders i pc)
    (hlock : Owned (· = .receiving) s'.unitLock s'.downloaders)
    (hslots : s'.inFlight + Pipeline.slots (s.downloaders i) = s.inFlight + Pipeline.slots pc)
    (hresult : s'.resultLock = s.resultLock) (hextractors : s'.extractors = s.extractors)
    (hlimit : workers.minLimit ≤ s'.limit ∧ s'.limit ≤ workers.maxLimit) : Live s' where
  unitLock := hlock
  resultLock := by
    rw [hresult, hextractors]
    exact h.resultLock
  slots := by
    have hupdate := total_update Pipeline.slots s.downloaders i pc
    have hold := h.slots
    rw [hpcs]
    omega
  limit := hlimit

/-- An extract worker steps. -/
theorem Live.extractor (h : Live s) (hlock : Owned (· = .receiving) s'.resultLock s'.extractors)
    (hunit : s'.unitLock = s.unitLock) (hdownloaders : s'.downloaders = s.downloaders)
    (hinFlight : s'.inFlight = s.inFlight) (hlimit : s'.limit = s.limit) : Live s' where
  unitLock := by
    rw [hunit, hdownloaders]
    exact h.unitLock
  resultLock := hlock
  slots := by
    rw [hdownloaders, hinFlight]
    exact h.slots
  limit := by
    rw [hlimit]
    exact h.limit

theorem afterDownload_ne_receiving (message : Message δ) :
    afterDownload message ≠ .receiving := by
  unfold afterDownload
  split <;> nofun

theorem slots_afterDownload (message : Message δ) : slots (afterDownload message) = 0 := by
  unfold afterDownload
  split <;> rfl

/-- A step of a download worker outside of its critical section. -/
theorem Live.unitLock_other {i : Fin workers.download} {old pc : Downloader δ} (h : Live s)
    (hpc : s.downloaders i = old) (hold : old ≠ .receiving) (hnew : pc ≠ .receiving) :
    Owned (· = .receiving) s.unitLock (Function.update s.downloaders i pc) :=
  h.unitLock.other (by rw [hpc]; exact hold) hnew

theorem Live.resultLock_other {j : Fin workers.extract} {old pc : Extractor δ} (h : Live s)
    (hpc : s.extractors j = old) (hold : old ≠ .receiving) (hnew : pc ≠ .receiving) :
    Owned (· = .receiving) s.resultLock (Function.update s.extractors j pc) :=
  h.resultLock.other (by rw [hpc]; exact hold) hnew

theorem live_step (h : Live s) (hstep : Step sink yields s a s') : Live s' := by
  cases hstep with
  | lockUnits hpc hlock =>
    refine h.downloader rfl (Owned.acquire (hlock ▸ h.unitLock) rfl) ?_ rfl rfl h.limit
    rw [hpc]
    rfl
  | receiveUnit hpc =>
    refine h.downloader rfl (h.unitLock.release hpc nofun) ?_ rfl rfl h.limit
    rw [hpc]
    rfl
  | skipUnit hpc =>
    refine h.downloader rfl (h.unitLock.release hpc nofun) ?_ rfl rfl h.limit
    rw [hpc]
    rfl
  | unitsEnd hpc =>
    refine h.downloader rfl (h.unitLock.release hpc nofun) ?_ rfl rfl h.limit
    rw [hpc]
    rfl
  | acquire hpc =>
    refine h.downloader rfl (h.unitLock_other hpc nofun nofun) ?_ rfl rfl h.limit
    rw [hpc]
    rfl
  | acquireStale hpc =>
    refine h.downloader rfl (h.unitLock_other hpc nofun nofun) ?_ rfl rfl h.limit
    rw [hpc]
    rfl
  | downloaded hpc =>
    refine h.downloader rfl (h.unitLock_other hpc nofun nofun) ?_ rfl rfl h.limit
    rw [hpc]
    rfl
  | downloadFails hpc =>
    refine h.downloader rfl (h.unitLock_other hpc nofun nofun) ?_ rfl rfl h.limit
    rw [hpc]
    rfl
  | @release i message hpc =>
    refine h.downloader rfl (h.unitLock_other hpc nofun nofun) ?_ rfl rfl h.limit
    -- the worker has a slot, so there is one to give back
    have htaken : slots (s.downloaders i) ≤ total slots s.downloaders :=
      Finset.single_le_sum (fun j _ => Nat.zero_le (slots (s.downloaders j))) (Finset.mem_univ i)
    rw [hpc, h.slots] at htaken
    rw [hpc]
    simp only [slots] at htaken ⊢
    omega
  | adjust hpc =>
    refine h.downloader rfl (h.unitLock_other hpc nofun (afterDownload_ne_receiving _)) ?_ rfl rfl
      (newLimit_bounds h.limit _ _)
    rw [hpc, slots_afterDownload]
    rfl
  | keepLimit hpc =>
    refine h.downloader rfl (h.unitLock_other hpc nofun (afterDownload_ne_receiving _)) ?_ rfl rfl
      h.limit
    rw [hpc, slots_afterDownload]
    rfl
  | sendResult hpc =>
    refine h.downloader rfl (h.unitLock_other hpc nofun nofun) ?_ rfl rfl h.limit
    rw [hpc]
    rfl
  | sendGone hpc =>
    refine h.downloader rfl (h.unitLock_other hpc nofun nofun) ?_ rfl rfl h.limit
    rw [hpc]
    rfl
  | lockResults hpc hlock =>
    exact h.extractor (Owned.acquire (hlock ▸ h.resultLock) rfl) rfl rfl rfl rfl
  | receiveError hpc => exact h.extractor (h.resultLock.release hpc nofun) rfl rfl rfl rfl
  | receiveArtifact hpc => exact h.extractor (h.resultLock.release hpc nofun) rfl rfl rfl rfl
  | skipArtifact hpc => exact h.extractor (h.resultLock.release hpc nofun) rfl rfl rfl rfl
  | resultsEnd hpc => exact h.extractor (h.resultLock.release hpc nofun) rfl rfl rfl rfl
  | extracted _ hpc => exact h.extractor (h.resultLock_other hpc nofun nofun) rfl rfl rfl rfl
  | extractFails hpc => exact h.extractor (h.resultLock_other hpc nofun nofun) rfl rfl rfl rfl
  | warmupFails hpc => exact h.extractor (h.resultLock_other hpc nofun nofun) rfl rfl rfl rfl
  -- the steps of the producer touch neither locks nor slots
  | _ => exact ⟨h.unitLock, h.resultLock, h.slots, h.limit⟩

/-! ## Someone can move -/

/-- The producer has not ended, or a worker has not. -/
def Unfinished (s : State workers δ) : Prop :=
  (s.producer ≠ .stopped ∧ ∀ result, s.producer ≠ .joined result) ∨ ¬s.downloadersDone ∨
    ¬s.extractorsDone

variable (sink yields)

/-- A thread can take a step without a limit read before it shrank. -/
def CanStep (s : State workers δ) : Prop := ∃ s', Step sink yields s .proper s'

variable {sink yields}

theorem unitCapacity_pos (workers : Workers) : 0 < workers.unitCapacity := by
  have := workers.download_pos
  unfold Workers.unitCapacity
  omega

theorem resultCapacity_pos (workers : Workers) : 0 < workers.resultCapacity := by
  have := workers.extract_pos
  unfold Workers.resultCapacity
  omega

/-- A channel without room is not empty. -/
theorem ne_nil_of_full {β : Type} {l : List β} {capacity : Nat} (hcapacity : 0 < capacity)
    (hfull : ¬l.length < capacity) : l ≠ [] := by
  intro hnil
  rw [hnil] at hfull
  exact hfull hcapacity

/-- A worker with the lock of the result channel moves. -/
theorem canStep_of_receivingResult {j : Fin workers.extract} (hpc : s.extractors j = .receiving)
    (hresults : s.results ≠ [] ∨ s.downloadersDone) : CanStep sink yields s := by
  cases hmessages : s.results with
  | nil =>
    have hdone := hresults.resolve_left (not_not.mpr hmessages)
    exact ⟨_, .resultsEnd hpc hmessages hdone⟩
  | cons message rest =>
    obtain ⟨work, _ | artifact⟩ := message
    · exact ⟨_, .receiveError hpc hmessages⟩
    · cases hfirst : s.firstError j with
      | none => exact ⟨_, .receiveArtifact hpc hmessages hfirst⟩
      | some error => exact ⟨_, .skipArtifact hpc hmessages (by rw [hfirst]; rfl)⟩

/-- An unfinished extract worker moves, or the one that it waits for, once a message is
there or none can come. -/
theorem canStep_of_extractor (h : Live s) (hunfinished : ¬s.extractorsDone)
    (hresults : s.results ≠ [] ∨ s.downloadersDone) : CanStep sink yields s := by
  obtain ⟨j, hj⟩ := not_forall.mp hunfinished
  cases hpc : s.extractors j with
  | finished => exact absurd hpc hj
  | extracting work artifact => exact ⟨_, .extracted false hpc⟩
  | receiving => exact canStep_of_receivingResult hpc hresults
  | waiting =>
    cases hlock : s.resultLock with
    | none => exact ⟨_, .lockResults hpc hlock⟩
    | some holder => exact canStep_of_receivingResult ((h.resultLock holder).mp hlock) hresults

/-- A worker with the lock of the unit channel moves. -/
theorem canStep_of_receivingUnit {i : Fin workers.download} (hpc : s.downloaders i = .receiving)
    (hunits : s.units ≠ [] ∨ s.unitsClosed) : CanStep sink yields s := by
  cases hwork : s.units with
  | nil =>
    have hclosed := hunits.resolve_left (not_not.mpr hwork)
    exact ⟨_, .unitsEnd hpc hwork hclosed⟩
  | cons work rest =>
    cases hgone : s.extractionGone i with
    | false => exact ⟨_, .receiveUnit hpc hwork hgone⟩
    | true => exact ⟨_, .skipUnit hpc hwork hgone⟩

/-- A worker with a slot moves. -/
theorem canStep_of_slot (h : Live s) (hslots : s.inFlight ≠ 0) : CanStep sink yields s := by
  rw [← h.slots] at hslots
  obtain ⟨i, hi⟩ := not_forall.mp (mt total_eq_zero.mpr hslots)
  cases hpc : s.downloaders i with
  | downloading work => exact ⟨_, .downloadFails hpc⟩
  | releasing message => exact ⟨_, .release hpc⟩
  | _ =>
    rw [hpc] at hi
    exact absurd rfl hi

/-- An unfinished download worker moves, or one that it waits for, once a unit is there or
none can come. -/
theorem canStep_of_downloader (h : Live s) (hunfinished : ¬s.downloadersDone)
    (hunits : s.units ≠ [] ∨ s.unitsClosed) : CanStep sink yields s := by
  obtain ⟨i, hi⟩ := not_forall.mp hunfinished
  cases hpc : s.downloaders i with
  | finished => exact absurd hpc hi
  | receiving => exact canStep_of_receivingUnit hpc hunits
  | waiting =>
    cases hlock : s.unitLock with
    | none => exact ⟨_, .lockUnits hpc hlock⟩
    | some holder => exact canStep_of_receivingUnit ((h.unitLock holder).mp hlock) hunits
  | acquiring work =>
    by_cases hslots : s.inFlight = 0
    · have hlimit := h.limit.1
      have hpos := minLimit_pos workers
      exact ⟨_, .acquire hpc (by omega)⟩
    · exact canStep_of_slot h hslots
  | downloading work => exact ⟨_, .downloadFails hpc⟩
  | releasing message => exact ⟨_, .release hpc⟩
  | adjusting message => exact ⟨_, .keepLimit hpc⟩
  | sending message =>
    by_cases hroom : s.results.length < workers.resultCapacity
    · exact ⟨_, .sendResult hpc hroom⟩
    · by_cases hdone : s.extractorsDone
      · exact ⟨_, .sendGone hpc hdone⟩
      · have hfull := ne_nil_of_full (resultCapacity_pos workers) hroom
        exact canStep_of_extractor h hdone (Or.inl hfull)

/-- Where an unfinished thread is, some thread moves. -/
theorem canStep_of_unfinished (h : Live s) (hunfinished : Unfinished s) :
    CanStep sink yields s := by
  -- a unit that finds no room waits for the download workers
  have hfull : ¬s.units.length < workers.unitCapacity → ¬s.downloadersDone →
      CanStep sink yields s := fun hroom hdone =>
    canStep_of_downloader h hdone (Or.inl (ne_nil_of_full (unitCapacity_pos workers) hroom))
  have hworkers : s.unitsClosed → ¬(s.downloadersDone ∧ s.extractorsDone) →
      CanStep sink yields s := by
    intro hclosed hworker
    by_cases hdone : s.downloadersDone
    · exact canStep_of_extractor h (fun hdone' => hworker ⟨hdone, hdone'⟩) (Or.inr hdone)
    · exact canStep_of_downloader h hdone (Or.inr hclosed)
  cases hpc : s.producer with
  | resolving => exact ⟨_, .resolved hpc⟩
  | sending work =>
    by_cases hroom : s.units.length < workers.unitCapacity
    · exact ⟨_, .send hpc hroom⟩
    · by_cases hdone : s.downloadersDone
      · exact ⟨_, .sendDisconnected hpc hdone⟩
      · exact hfull hroom hdone
  | draining =>
    cases hoverflow : s.overflow with
    | nil => exact ⟨_, .drained hpc hoverflow⟩
    | cons work rest =>
      by_cases hroom : s.units.length < workers.unitCapacity
      · exact ⟨_, .drain hpc hoverflow hroom⟩
      · by_cases hdone : s.downloadersDone
        · exact ⟨_, .drainDisconnected hpc hoverflow hdone⟩
        · exact hfull hroom hdone
  | joining =>
    by_cases hdone : s.downloadersDone ∧ s.extractorsDone
    · exact ⟨_, .join hpc hdone.1 hdone.2⟩
    · exact hworkers (by rw [State.unitsClosed, hpc]; trivial) hdone
  | stopped =>
    refine hworkers (by rw [State.unitsClosed, hpc]; trivial) fun hdone => ?_
    rcases hunfinished with hproducer | hdownloaders | hextractors
    · exact hproducer.1 hpc
    · exact hdownloaders hdone.1
    · exact hextractors hdone.2
  | joined result =>
    refine hworkers (by rw [State.unitsClosed, hpc]; trivial) fun hdone => ?_
    rcases hunfinished with hproducer | hdownloaders | hextractors
    · exact hproducer.2 result hpc
    · exact hdownloaders hdone.1
    · exact hextractors hdone.2

theorem live_of_begins (h : Begins s) : Live s := by
  obtain ⟨_, _, hunitLock, _, hdownloaders, hinFlight, hlimit, _, hresultLock, hextractors, _⟩ := h
  refine ⟨fun i => ?_, fun j => ?_, ?_, ?_⟩
  · rw [hunitLock, (hdownloaders i).1]
    exact iff_of_false nofun nofun
  · rw [hresultLock, (hextractors j).1]
    exact iff_of_false nofun nofun
  · rw [hinFlight]
    refine total_eq_zero.mpr fun i => ?_
    rw [(hdownloaders i).1]
    rfl
  · rw [hlimit]
    exact ⟨minLimit_le_maxLimit workers, le_rfl⟩

theorem live_of_reachable (h : (protocol sink yields).Reachable s) : Live s :=
  h.invariant (I := Live) (fun _ hinit => live_of_begins hinit)
    fun _ _ _ hlive _ hstep => live_step hlive hstep

end Pipeline
end Bpm
