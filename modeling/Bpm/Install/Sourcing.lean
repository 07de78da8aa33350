import Bpm.Install.Progress

/-!
# What the threads of the fetch pipeline know

The threads end in the order of the pipeline, so nobody finds a channel disconnected.
Units are dropped by extract workers that have met an error, and an error is that of a
unit with a path.
-/

namespace Bpm
namespace Pipeline

open ArtifactStore (ArtifactRef)
open Pool

variable {workers : Workers} {δ : Type} {sink : Sink} {yields : InstallWork → ArtifactRef δ → Prop}
  {s s' : State workers δ} {a : Action}

/-! ## The order in which the threads end -/

/-- Download workers end after the producer and extract workers after them, each over an
empty channel; so nobody finds a channel disconnected. -/
structure Closing (s : State workers δ) : Prop where
  units : ∀ i, s.downloaders i = .finished → s.unitsClosed ∧ s.units = []
  results : ∀ j, s.extractors j = .finished → s.downloadersDone ∧ s.results = []
  gone : ∀ i, s.extractionGone i = false
  overflow : s.producer = .joining ∨ (∃ result, s.producer = .joined result) → s.overflow = []

theorem Closing.not_downloadersDone (h : Closing s) (hopen : ¬s.unitsClosed) :
    ¬s.downloadersDone := fun hdone =>
  hopen (h.units ⟨0, workers.download_pos⟩ (hdone _)).1

theorem Closing.not_extractorsDone (h : Closing s) {i : Fin workers.download}
    (hi : s.downloaders i ≠ .finished) : ¬s.extractorsDone := fun hdone =>
  hi ((h.results ⟨0, workers.extract_pos⟩ (hdone _)).1 i)

/-- An unfinished download worker is one whose extract workers are all unfinished. -/
theorem Closing.not_finished (h : Closing s) {i : Fin workers.download} {pc : Downloader δ}
    (hpc : s.downloaders i = pc) (hne : pc ≠ .finished) (j : Fin workers.extract) :
    s.extractors j ≠ .finished := fun hj =>
  hne (hpc ▸ (h.results j hj).1 i)

/-- A step of a download worker that does not end leaves nobody who has ended behind. -/
theorem Closing.downloader {i : Fin workers.download} {old pc : Downloader δ} (h : Closing s)
    (hpc : s.downloaders i = old) (hpcs : s'.downloaders = Function.update s.downloaders i pc)
    (hold : old ≠ .finished) (hnew : pc ≠ .finished)
    (hunits : s.units = [] → s'.units = []) (hproducer : s'.producer = s.producer)
    (hextractors : s'.extractors = s.extractors) (hgone : s'.extractionGone = s.extractionGone)
    (hoverflow : s'.overflow = s.overflow) : Closing s' where
  units := by
    intro k hk
    have hclosed : s'.unitsClosed = s.unitsClosed := by
      unfold State.unitsClosed
      rw [hproducer]
    have hk' : s.downloaders k = .finished := by
      by_cases heq : k = i
      · rw [hpcs, heq, Function.update_self] at hk
        exact absurd hk hnew
      · rwa [hpcs, Function.update_of_ne heq] at hk
    rw [hclosed]
    exact ⟨(h.units k hk').1, hunits (h.units k hk').2⟩
  results := by
    intro j hj
    rw [hextractors] at hj
    exact absurd hj (h.not_finished hpc hold j)
  gone := by
    rw [hgone]
    exact h.gone
  overflow := by
    rw [hproducer, hoverflow]
    exact h.overflow

/-- A step of an extract worker that does not end. -/
theorem Closing.extractor {j : Fin workers.extract} {pc : Extractor δ} (h : Closing s)
    (hpcs : s'.extractors = Function.update s.extractors j pc) (hnew : pc ≠ .finished)
    (hresults : s.results = [] → s'.results = []) (hproducer : s'.producer = s.producer)
    (hunits : s'.units = s.units) (hdownloaders : s'.downloaders = s.downloaders)
    (hgone : s'.extractionGone = s.extractionGone) (hoverflow : s'.overflow = s.overflow) :
    Closing s' where
  units := by
    unfold State.unitsClosed
    rw [hdownloaders, hproducer, hunits]
    exact h.units
  results := by
    intro k hk
    have hk' : s.extractors k = .finished := by
      by_cases heq : k = j
      · rw [hpcs, heq, Function.update_self] at hk
        exact absurd hk hnew
      · rwa [hpcs, Function.update_of_ne heq] at hk
    unfold State.downloadersDone
    rw [hdownloaders]
    exact ⟨(h.results k hk').1, hresults (h.results k hk').2⟩
  gone := by
    rw [hgone]
    exact h.gone
  overflow := by
    rw [hproducer, hoverflow]
    exact h.overflow

/-- A step of a producer that is not done: no worker has ended. -/
theorem Closing.producer (h : Closing s) (hopen : ¬s.unitsClosed)
    (hdownloaders : s'.downloaders = s.downloaders) (hextractors : s'.extractors = s.extractors)
    (hgone : s'.extractionGone = s.extractionGone)
    (hoverflow : s'.producer = .joining ∨ (∃ result, s'.producer = .joined result) →
      s'.overflow = []) : Closing s' where
  units := by
    intro i hi
    rw [hdownloaders] at hi
    exact absurd (h.units i hi).1 hopen
  results := by
    intro j hj
    rw [hextractors] at hj
    exact absurd (h.results j hj).1 (h.not_downloadersDone hopen)
  gone := by
    rw [hgone]
    exact h.gone
  overflow := hoverflow

theorem afterDownload_ne_finished (message : Message δ) : afterDownload message ≠ .finished := by
  unfold afterDownload
  split <;> nofun

theorem closing_step (h : Closing s) (hstep : Step sink yields s a s') : Closing s' := by
  have hopen : ∀ {producer}, s.producer = producer →
      (producer = .resolving ∨ (∃ work, producer = .sending work) ∨ producer = .draining) →
      ¬s.unitsClosed := by
    intro producer hpc hproducer
    unfold State.unitsClosed
    rw [hpc]
    rcases hproducer with rfl | ⟨work, rfl⟩ | rfl <;> exact id
  have hnone : ∀ {producer : Producer δ}, producer ≠ .joining →
      (∀ result, producer ≠ .joined result) →
      (producer = .joining ∨ ∃ result, producer = .joined result) → s'.overflow = [] := by
    intro producer hjoining hjoined hended
    rcases hended with heq | ⟨result, heq⟩
    · exact absurd heq hjoining
    · exact absurd heq (hjoined result)
  have hsame : ∀ {producer}, s.producer = producer → producer ≠ .joining →
      (∀ result, producer ≠ .joined result) →
      (s.producer = .joining ∨ ∃ result, s.producer = .joined result) → s'.overflow = [] :=
    fun hpc hjoining hjoined => hnone (hpc ▸ hjoining) (hpc ▸ hjoined)
  have hcons : ∀ {β : Type} {l rest : List β} {x : β} {p : Prop}, l = x :: rest → l = [] → p :=
    fun hl hnil => by rw [hl] at hnil; cases hnil
  cases hstep with
  | emit hpc =>
    exact h.producer (hopen hpc (.inl rfl)) rfl rfl rfl (hnone nofun nofun)
  | tryEmit hpc =>
    exact h.producer (hopen hpc (.inl rfl)) rfl rfl rfl (hsame hpc nofun nofun)
  | tryOverflow hpc =>
    exact h.producer (hopen hpc (.inl rfl)) rfl rfl rfl (hsame hpc nofun nofun)
  | prefetch hpc =>
    exact h.producer (hopen hpc (.inl rfl)) rfl rfl rfl (hsame hpc nofun nofun)
  | send hpc =>
    exact h.producer (hopen hpc (.inr (.inl ⟨_, rfl⟩))) rfl rfl rfl (hnone nofun nofun)
  | sendDisconnected hpc =>
    exact h.producer (hopen hpc (.inr (.inl ⟨_, rfl⟩))) rfl rfl rfl (hnone nofun nofun)
  | resolved hpc =>
    exact h.producer (hopen hpc (.inl rfl)) rfl rfl rfl (hnone nofun nofun)
  | resolutionFails hpc =>
    exact h.producer (hopen hpc (.inl rfl)) rfl rfl rfl (hnone nofun nofun)
  | drain hpc =>
    exact h.producer (hopen hpc (.inr (.inr rfl))) rfl rfl rfl (hsame hpc nofun nofun)
  | drainDisconnected hpc =>
    exact h.producer (hopen hpc (.inr (.inr rfl))) rfl rfl rfl (hsame hpc nofun nofun)
  | drained hpc hoverflow =>
    exact h.producer (hopen hpc (.inr (.inr rfl))) rfl rfl rfl fun _ => hoverflow
  | join hpc =>
    refine ⟨fun i hi => ⟨trivial, (h.units i hi).2⟩, h.results, h.gone, fun _ => ?_⟩
    exact h.overflow (.inl hpc)
  | lockUnits hpc => exact h.downloader hpc rfl nofun nofun id rfl rfl rfl rfl
  | receiveUnit hpc hunits =>
    exact h.downloader hpc rfl nofun nofun (hcons hunits) rfl rfl rfl rfl
  | skipUnit hpc hunits =>
    exact h.downloader hpc rfl nofun nofun (hcons hunits) rfl rfl rfl rfl
  | @unitsEnd i hpc hunits hclosed =>
    refine ⟨fun k _ => ⟨hclosed, hunits⟩, fun j hj => ?_, h.gone, h.overflow⟩
    exact absurd hj (h.not_finished hpc nofun j)
  | acquire hpc => exact h.downloader hpc rfl nofun nofun id rfl rfl rfl rfl
  | acquireStale hpc => exact h.downloader hpc rfl nofun nofun id rfl rfl rfl rfl
  | downloaded hpc => exact h.downloader hpc rfl nofun nofun id rfl rfl rfl rfl
  | downloadFails hpc => exact h.downloader hpc rfl nofun nofun id rfl rfl rfl rfl
  | release hpc => exact h.downloader hpc rfl nofun nofun id rfl rfl rfl rfl
  | adjust hpc =>
    exact h.downloader hpc rfl nofun (afterDownload_ne_finished _) id rfl rfl rfl rfl
  | keepLimit hpc =>
    exact h.downloader hpc rfl nofun (afterDownload_ne_finished _) id rfl rfl rfl rfl
  | sendResult hpc => exact h.downloader hpc rfl nofun nofun id rfl rfl rfl rfl
  | sendGone hpc hdone =>
    exact absurd hdone (h.not_extractorsDone (by rw [hpc]; nofun))
  | lockResults hpc => exact h.extractor rfl nofun id rfl rfl rfl rfl rfl
  | receiveError hpc hresults =>
    exact h.extractor rfl nofun (hcons hresults) rfl rfl rfl rfl rfl
  | receiveArtifact hpc hresults =>
    exact h.extractor rfl nofun (hcons hresults) rfl rfl rfl rfl rfl
  | skipArtifact hpc hresults =>
    exact h.extractor rfl nofun (hcons hresults) rfl rfl rfl rfl rfl
  | resultsEnd hpc hresults hdone =>
    exact ⟨h.units, fun _ _ => ⟨hdone, hresults⟩, h.gone, h.overflow⟩
  | extracted _ hpc => exact h.extractor rfl nofun id rfl rfl rfl rfl rfl
  | extractFails hpc => exact h.extractor rfl nofun id rfl rfl rfl rfl rfl
  | warmupFails hpc => exact h.extractor rfl nofun id rfl rfl rfl rfl rfl

/-! ## Where messages and errors come from -/

/-- A message that is sent: an artifact that the store returned, or the failure of a unit
with a path. -/
def Settled (yields : InstallWork → ArtifactRef δ → Prop) (failed : List InstallWork) :
    Message δ → Prop
  | (work, none) => work.path.isSome ∧ work ∈ failed
  | (work, some artifact) => yields work artifact

/-- What a download worker knows; before the governor a failure may be speculative. -/
def Known (yields : InstallWork → ArtifactRef δ → Prop) (failed : List InstallWork) :
    Downloader δ → Prop
  | .releasing message | .adjusting message =>
      message.1.path.isSome ∨ message.2.isSome → Settled yields failed message
  | .sending message => Settled yields failed message
  | _ => True

def Extracts (yields : InstallWork → ArtifactRef δ → Prop) : Extractor δ → Prop
  | .extracting work artifact => yields work artifact
  | _ => True

structure Sourced (yields : InstallWork → ArtifactRef δ → Prop) (s : State workers δ) : Prop where
  emitted : ∀ work ∈ s.emitted, work.path.isSome
  downloaders : ∀ i, Known yields s.failed (s.downloaders i)
  results : ∀ message ∈ s.results, Settled yields s.failed message
  extractors : ∀ j, Extracts yields (s.extractors j)
  firstError : ∀ j work, s.firstError j = some work →
    work.path.isSome ∧ work ∈ s.failed ∧ work ∈ s.dropped
  delivered : ∀ p ∈ s.delivered, p.1.path.isSome ∧ ∃ artifact, yields p.1 artifact ∧ artifact.id = p.2
  dropped : s.dropped ≠ [] → ∃ j, (s.firstError j).isSome

theorem Settled.mono {failed more : List InstallWork} {message : Message δ}
    (h : Settled yields failed message) : Settled yields (failed ++ more) message := by
  obtain ⟨work, _ | artifact⟩ := message
  · exact ⟨h.1, List.mem_append_left more h.2⟩
  · exact h

theorem Known.mono {failed more : List InstallWork} {pc : Downloader δ}
    (h : Known yields failed pc) : Known yields (failed ++ more) pc := by
  cases pc with
  | releasing message => exact fun hsome => (h hsome).mono
  | adjusting message => exact fun hsome => (h hsome).mono
  | sending message => exact Settled.mono h
  | _ => trivial

/-- A step of a download worker, which may note a failure and send a message. -/
theorem Sourced.downloader {i : Fin workers.download} {pc : Downloader δ} (h : Sourced yields s)
    (more : List InstallWork) (hpcs : s'.downloaders = Function.update s.downloaders i pc)
    (hfailed : s'.failed = s.failed ++ more) (hknown : Known yields (s.failed ++ more) pc)
    (hresults : ∀ message ∈ s'.results,
      message ∈ s.results ∨ Settled yields (s.failed ++ more) message)
    (hemitted : s'.emitted = s.emitted) (hextractors : s'.extractors = s.extractors)
    (hfirst : s'.firstError = s.firstError) (hdelivered : s'.delivered = s.delivered)
    (hdropped : s'.dropped = s.dropped) : Sourced yields s' where
  emitted := by
    rw [hemitted]
    exact h.emitted
  downloaders := by
    rw [hpcs, hfailed]
    exact forall_update (fun j => (h.downloaders j).mono) hknown
  results := by
    intro message hmessage
    rw [hfailed]
    rcases hresults message hmessage with hold | hnew
    · exact (h.results message hold).mono
    · exact hnew
  extractors := by
    rw [hextractors]
    exact h.extractors
  firstError := by
    rw [hfirst, hfailed, hdropped]
    intro j work hwork
    obtain ⟨hpath, hmem, hdrop⟩ := h.firstError j work hwork
    exact ⟨hpath, List.mem_append_left more hmem, hdrop⟩
  delivered := by
    rw [hdelivered]
    exact h.delivered
  dropped := by
    rw [hdropped, hfirst]
    exact h.dropped

/-- A step of an extract worker. -/
theorem Sourced.extractor {j : Fin workers.extract} {pc : Extractor δ} (h : Sourced yields s)
    (first : Option InstallWork) (more dropped : List InstallWork)
    (delivered : List (InstallWork × δ)) (hpcs : s'.extractors = Function.update s.extractors j pc)
    (hfirst : s'.firstError = Function.update s.firstError j first)
    (hfailed : s'.failed = s.failed ++ more) (hdropped : s'.dropped = s.dropped ++ dropped)
    (hdelivered : s'.delivered = s.delivered ++ delivered)
    (hresults : ∀ message ∈ s'.results, message ∈ s.results)
    (hextracts : Extracts yields pc)
    (hnew : ∀ work, first = some work → s.firstError j = some work ∨
      work.path.isSome ∧ work ∈ s.failed ++ more ∧ work ∈ s.dropped ++ dropped)
    (hkept : (s.firstError j).isSome → first.isSome) (hdrops : dropped ≠ [] → first.isSome)
    (hdelivers : ∀ p ∈ delivered, p.1.path.isSome ∧
      ∃ artifact, yields p.1 artifact ∧ artifact.id = p.2)
    (hemitted : s'.emitted = s.emitted) (hdownloaders : s'.downloaders = s.downloaders) :
    Sourced yields s' where
  emitted := by
    rw [hemitted]
    exact h.emitted
  downloaders := by
    rw [hdownloaders, hfailed]
    exact fun i => (h.downloaders i).mono
  results := by
    intro message hmessage
    rw [hfailed]
    exact (h.results message (hresults message hmessage)).mono
  extractors := by
    rw [hpcs]
    exact forall_update h.extractors hextracts
  firstError := by
    rw [hfirst, hfailed, hdropped]
    intro k work hwork
    have hold : s.firstError k = some work → work.path.isSome ∧ work ∈ s.failed ++ more ∧
        work ∈ s.dropped ++ dropped := by
      intro hk
      obtain ⟨hpath, hmem, hdrop⟩ := h.firstError k work hk
      exact ⟨hpath, List.mem_append_left more hmem, List.mem_append_left dropped hdrop⟩
    by_cases hk : k = j
    · subst hk
      rw [Function.update_self] at hwork
      rcases hnew work hwork with hk | hwork
      · exact hold hk
      · exact hwork
    · rw [Function.update_of_ne hk] at hwork
      exact hold hwork
  delivered := by
    rw [hdelivered]
    intro p hp
    rcases List.mem_append.mp hp with hp | hp
    · exact h.delivered p hp
    · exact hdelivers p hp
  dropped := by
    rw [hdropped, hfirst]
    intro hne
    by_cases hnil : dropped = []
    · rw [hnil, List.append_nil] at hne
      obtain ⟨k, hk⟩ := h.dropped hne
      by_cases heq : k = j
      · subst heq
        exact ⟨k, by rw [Function.update_self]; exact hkept hk⟩
      · exact ⟨k, by rwa [Function.update_of_ne heq]⟩
    · exact ⟨j, by rw [Function.update_self]; exact hdrops hnil⟩

/-- A step of the producer that drops nothing. -/
theorem Sourced.producer (h : Sourced yields s) (hemitted : ∀ work ∈ s'.emitted,
      work ∈ s.emitted ∨ work.path.isSome) (hdownloaders : s'.downloaders = s.downloaders)
    (hfailed : s'.failed = s.failed) (hresults : s'.results = s.results)
    (hextractors : s'.extractors = s.extractors) (hfirst : s'.firstError = s.firstError)
    (hdelivered : s'.delivered = s.delivered) (hdropped : s'.dropped = s.dropped) :
    Sourced yields s' where
  emitted := fun work hwork => (hemitted work hwork).elim (h.emitted work) id
  downloaders := by rw [hdownloaders, hfailed]; exact h.downloaders
  results := by rw [hresults, hfailed]; exact h.results
  extractors := by rw [hextractors]; exact h.extractors
  firstError := by rw [hfirst, hfailed, hdropped]; exact h.firstError
  delivered := by rw [hdelivered]; exact h.delivered
  dropped := by rw [hdropped, hfirst]; exact h.dropped

theorem mem_authoritative {work other : InstallWork} :
    other ∈ authoritative work ↔ other = work ∧ work.path.isSome := by
  unfold authoritative
  split <;> simp_all

/-- A download worker that is past the governor sends what is settled. -/
theorem known_afterDownload {failed : List InstallWork} {message : Message δ}
    (h : Known yields failed (.adjusting message)) :
    Known yields failed (afterDownload message) := by
  unfold afterDownload
  split
  · trivial
  · rename_i hsent
    refine h ?_
    rw [Bool.and_eq_true, not_and_or, Option.isNone_iff_eq_none, Option.isNone_iff_eq_none] at hsent
    rwa [Option.isSome_iff_ne_none, Option.isSome_iff_ne_none]

/-- Nothing new: no failure, no drop. -/
theorem Sourced.quiet {i : Fin workers.download} {pc : Downloader δ}
    (h : Sourced yields s) (hpcs : s'.downloaders = Function.update s.downloaders i pc)
    (hknown : Known yields s.failed pc) (hfailed : s'.failed = s.failed)
    (hresults : s'.results = s.results) (hemitted : s'.emitted = s.emitted)
    (hextractors : s'.extractors = s.extractors) (hfirst : s'.firstError = s.firstError)
    (hdelivered : s'.delivered = s.delivered) (hdropped : s'.dropped = s.dropped) :
    Sourced yields s' :=
  h.downloader [] hpcs (by rw [hfailed, List.append_nil])
    (by rwa [List.append_nil]) (fun message hmessage => Or.inl (hresults ▸ hmessage)) hemitted
    hextractors hfirst hdelivered hdropped

/-- An extract worker that only goes on. -/
theorem Sourced.quietExtractor {j : Fin workers.extract} {pc : Extractor δ}
    (h : Sourced yields s) (hpcs : s'.extractors = Function.update s.extractors j pc)
    (hextracts : Extracts yields pc) (hresults : ∀ message ∈ s'.results, message ∈ s.results)
    (hfirst : s'.firstError = s.firstError) (hfailed : s'.failed = s.failed)
    (hdropped : s'.dropped = s.dropped) (hdelivered : s'.delivered = s.delivered)
    (hemitted : s'.emitted = s.emitted) (hdownloaders : s'.downloaders = s.downloaders) :
    Sourced yields s' :=
  h.extractor (s.firstError j) [] [] [] hpcs
    (by rw [hfirst, Function.update_eq_self]) (by rw [hfailed, List.append_nil])
    (by rw [hdropped, List.append_nil]) (by rw [hdelivered, List.append_nil]) hresults hextracts
    (fun work hwork => Or.inl hwork) id (fun hne => absurd rfl hne) nofun hemitted hdownloaders

theorem sourced_step (hclosing : Closing s) (h : Sourced yields s)
    (hstep : Step sink yields s a s') : Sourced yields s' := by
  have hemits : ∀ {work : InstallWork}, work.path.isSome → ∀ other ∈ s.emitted ++ [work],
      other ∈ s.emitted ∨ other.path.isSome := by
    intro work hpath other hother
    rcases List.mem_append.mp hother with hold | hnew
    · exact Or.inl hold
    · exact Or.inr (List.mem_singleton.mp hnew ▸ hpath)
  have hknown : ∀ {i} {pc : Downloader δ}, s.downloaders i = pc → Known yields s.failed pc :=
    fun {i} {pc} hpc => hpc ▸ h.downloaders i
  cases hstep with
  | emit _ _ hpath => exact h.producer (hemits hpath) rfl rfl rfl rfl rfl rfl rfl
  | tryEmit _ _ hpath => exact h.producer (hemits hpath) rfl rfl rfl rfl rfl rfl rfl
  | tryOverflow _ _ hpath => exact h.producer (hemits hpath) rfl rfl rfl rfl rfl rfl rfl
  | prefetch => exact h.producer (fun _ => Or.inl) rfl rfl rfl rfl rfl rfl rfl
  | send => exact h.producer (fun _ => Or.inl) rfl rfl rfl rfl rfl rfl rfl
  | sendDisconnected hpc hdone =>
    exact absurd hdone (hclosing.not_downloadersDone (by rw [State.unitsClosed, hpc]; exact id))
  | resolved => exact h.producer (fun _ => Or.inl) rfl rfl rfl rfl rfl rfl rfl
  | resolutionFails => exact h.producer (fun _ => Or.inl) rfl rfl rfl rfl rfl rfl rfl
  | drain => exact h.producer (fun _ => Or.inl) rfl rfl rfl rfl rfl rfl rfl
  | drainDisconnected hpc _ hdone =>
    exact absurd hdone (hclosing.not_downloadersDone (by rw [State.unitsClosed, hpc]; exact id))
  | drained => exact h.producer (fun _ => Or.inl) rfl rfl rfl rfl rfl rfl rfl
  | join => exact h.producer (fun _ => Or.inl) rfl rfl rfl rfl rfl rfl rfl
  | lockUnits => exact h.quiet rfl trivial rfl rfl rfl rfl rfl rfl rfl
  | receiveUnit => exact h.quiet rfl trivial rfl rfl rfl rfl rfl rfl rfl
  | @skipUnit i _ _ _ _ hgone =>
    rw [hclosing.gone i] at hgone
    cases hgone
  | unitsEnd => exact h.quiet rfl trivial rfl rfl rfl rfl rfl rfl rfl
  | acquire => exact h.quiet rfl trivial rfl rfl rfl rfl rfl rfl rfl
  | acquireStale => exact h.quiet rfl trivial rfl rfl rfl rfl rfl rfl rfl
  | downloaded _ hyields => exact h.quiet rfl (fun _ => hyields) rfl rfl rfl rfl rfl rfl rfl
  | @downloadFails i work hpc =>
    refine h.downloader _ rfl rfl (fun hpath => ?_) (fun _ => Or.inl) rfl rfl rfl rfl rfl
    have hsome := hpath.resolve_right (by simp)
    exact ⟨hsome, List.mem_append_right _ (mem_authoritative.mpr ⟨rfl, hsome⟩)⟩
  | release hpc =>
    have hsettled := hknown hpc
    exact h.quiet rfl hsettled rfl rfl rfl rfl rfl rfl rfl
  | adjust hpc =>
    exact h.quiet rfl (known_afterDownload (hknown hpc)) rfl rfl rfl rfl rfl rfl rfl
  | keepLimit hpc =>
    exact h.quiet rfl (known_afterDownload (hknown hpc)) rfl rfl rfl rfl rfl rfl rfl
  | @sendResult i message hpc =>
    refine h.downloader [] rfl (List.append_nil _).symm trivial
      (fun other hother => ?_) rfl rfl rfl rfl rfl
    rcases List.mem_append.mp hother with hold | hnew
    · exact Or.inl hold
    · rw [List.mem_singleton.mp hnew, List.append_nil]
      exact Or.inr (hknown hpc)
  | sendGone hpc hdone =>
    exact absurd hdone (hclosing.not_extractorsDone (by rw [hpc]; simp))
  | lockResults => exact h.quietExtractor rfl trivial (fun _ => id) rfl rfl rfl rfl rfl rfl
  | @receiveError j work rest hpc hresults =>
    have hsettled := h.results (work, none) (by rw [hresults]; exact List.mem_cons_self)
    refine h.extractor _ [] _ [] rfl rfl (List.append_nil _).symm rfl
      (List.append_nil _).symm
      (fun message hmessage => by rw [hresults]; exact List.mem_cons_of_mem _ hmessage) trivial
      (fun other hother => ?_) (fun hsome => ?_) (fun _ => ?_) (fun _ heq => by cases heq) rfl rfl
    · cases hfirst : s.firstError j with
      | some first =>
        rw [hfirst] at hother
        exact Or.inl hother
      | none =>
        rw [hfirst, Option.none_or] at hother
        obtain rfl := Option.some.inj hother
        exact Or.inr ⟨hsettled.1, List.mem_append_left _ hsettled.2,
          List.mem_append_right _ (mem_authoritative.mpr ⟨rfl, hsettled.1⟩)⟩
    · rw [Option.isSome_or, hsome, Bool.true_or]
    · rw [Option.isSome_or, Option.isSome_some, Bool.or_true]
  | @receiveArtifact j work artifact rest hpc hresults hnone =>
    refine h.quietExtractor rfl ?_
      (fun message hmessage => by rw [hresults]; exact List.mem_cons_of_mem _ hmessage)
      rfl rfl rfl rfl rfl rfl
    exact h.results (work, some artifact) (by rw [hresults]; exact List.mem_cons_self)
  | @skipArtifact j work artifact rest hpc hresults hsome =>
    exact h.extractor (s.firstError j) [] _ [] rfl
      (Function.update_eq_self j s.firstError).symm (List.append_nil _).symm rfl
      (List.append_nil _).symm
      (fun message hmessage => by rw [hresults]; exact List.mem_cons_of_mem _ hmessage) trivial
      (fun other hother => Or.inl hother) id (fun _ => hsome) (fun _ heq => by cases heq) rfl rfl
  | resultsEnd => exact h.quietExtractor rfl trivial (fun _ => id) rfl rfl rfl rfl rfl rfl
  | @extracted j work artifact imageCached hpc =>
    refine h.extractor (s.firstError j) [] [] _ rfl
      (Function.update_eq_self j s.firstError).symm (List.append_nil _).symm
      (List.append_nil _).symm rfl (fun _ => id) trivial (fun other hother => Or.inl hother) id
      (fun hne => absurd rfl hne) (fun p hp => ?_) rfl rfl
    obtain ⟨other, hother, rfl⟩ := List.mem_map.mp hp
    obtain ⟨rfl, hpath⟩ := mem_authoritative.mp hother
    have hyields := h.extractors j
    rw [hpc] at hyields
    exact ⟨hpath, artifact, hyields, rfl⟩
  | @extractFails j work artifact hpc hpath =>
    refine h.extractor _ _ _ [] rfl rfl rfl rfl (List.append_nil _).symm (fun _ => id)
      trivial (fun other hother => ?_) (fun _ => rfl) (fun _ => rfl) (fun _ heq => by cases heq) rfl rfl
    obtain rfl := Option.some.inj hother
    exact Or.inr ⟨hpath, List.mem_append_right _ List.mem_cons_self,
      List.mem_append_right _ List.mem_cons_self⟩
  | warmupFails => exact h.quietExtractor rfl trivial (fun _ => id) rfl rfl rfl rfl rfl rfl

end Pipeline
end Bpm
