import Bpm.Lib.Pool
import Bpm.Lib.Protocol
import Bpm.Store.Artifacts

/-!
# The fetch pipeline of an install

A producer hands units to download workers over a bounded channel, and these hand
artifacts to extract workers over another one.  The workers of a stage share the
receiving end of its channel behind a mutex.  The number of downloads at a time is
governed by a limit that follows the latency of the downloads.
-/

namespace Bpm

/-- A unit without a path is a speculative one. -/
structure InstallWork where
  path : Option Str
  name : Str
  url : Str
  integrity : Option Str
  patch : Option Str
deriving DecidableEq

structure FetchOutcome (δ : Type) where
  path : Str
  id : δ
  artifactCached : Bool
  imageCached : Bool
deriving DecidableEq

namespace Pipeline

open ArtifactStore (ArtifactRef)

/-- The numbers of workers, at least one of each kind. -/
structure Workers where
  download : Nat
  extract : Nat
  download_pos : 0 < download
  extract_pos : 0 < extract

/-- `download_workers.max(1)` and `extract_workers.max(1)` -/
def Workers.of (download extract : Nat) : Workers where
  download := max download 1
  extract := max extract 1
  download_pos := by omega
  extract_pos := by omega

namespace Workers

def unitCapacity (workers : Workers) : Nat := workers.download * 2

def resultCapacity (workers : Workers) : Nat := workers.extract * 2

/-- The bounds of the governor. -/
def maxLimit (workers : Workers) : Nat := workers.download

def minLimit (workers : Workers) : Nat := min workers.download 4

end Workers

def governorSlowMs : Nat := 800

def governorReprobeWindows : Nat := 8

/-- The limit after the `n`th download, with the average latency so far. -/
def newLimit (workers : Workers) (limit ewma n : Nat) : Nat :=
  if ewma > governorSlowMs ∧ limit > workers.minLimit then max (limit / 2) workers.minLimit
  else if ewma < governorSlowMs / 2 ∧ limit < workers.maxLimit ∧
      n ≥ governorReprobeWindows * 4 ∧ n / 4 % governorReprobeWindows = 0 then limit + 1
  else limit

/-- A message from a download worker: the unit, and its artifact unless it failed. -/
abbrev Message (δ : Type) := InstallWork × Option (ArtifactRef δ)

inductive Downloader (δ : Type)
  | waiting
  -- with the lock of the unit channel
  | receiving
  | acquiring (work : InstallWork)
  | downloading (work : InstallWork)
  | releasing (message : Message δ)
  | adjusting (message : Message δ)
  | sending (message : Message δ)
  | finished

inductive Extractor (δ : Type)
  | waiting
  -- with the lock of the result channel
  | receiving
  | extracting (work : InstallWork) (artifact : ArtifactRef δ)
  | finished

/-- The producer emits units while it resolves; one that does not block keeps what the
channel has no room for, and sends it after resolution.  An error stops it. -/
inductive Producer (δ : Type)
  | resolving
  | sending (work : InstallWork)
  | draining
  | joining
  | stopped
  | joined (result : Except InstallWork (List (FetchOutcome δ)))

/-- `ChannelSink` or `TryChannelSink`. -/
inductive Sink
  | blocking
  | trying
deriving DecidableEq

structure State (workers : Workers) (δ : Type) where
  producer : Producer δ
  units : List InstallWork
  unitLock : Option (Fin workers.download)
  overflow : List InstallWork
  downloaders : Fin workers.download → Downloader δ
  extractionGone : Fin workers.download → Bool
  inFlight : Nat
  limit : Nat
  results : List (Message δ)
  resultLock : Option (Fin workers.extract)
  extractors : Fin workers.extract → Extractor δ
  firstError : Fin workers.extract → Option InstallWork
  outcomes : Fin workers.extract → List (FetchOutcome δ)
  /-- What an observer notes: the units with a path that the producer emitted, those that
  failed, those that were delivered with their artifacts, and those that were dropped. -/
  emitted : List InstallWork
  failed : List InstallWork
  delivered : List (InstallWork × δ)
  dropped : List InstallWork

namespace State

variable {workers : Workers} {δ : Type} (s : State workers δ)

def setDownloader (i : Fin workers.download) (pc : Downloader δ) : State workers δ :=
  { s with downloaders := Function.update s.downloaders i pc }

def setExtractor (j : Fin workers.extract) (pc : Extractor δ) : State workers δ :=
  { s with extractors := Function.update s.extractors j pc }

/-- All senders of the unit channel are gone. -/
def unitsClosed : Prop :=
  match s.producer with
  | .resolving | .sending _ | .draining => False
  | .joining | .stopped | .joined _ => True

def downloadersDone : Prop := ∀ i, s.downloaders i = .finished

def extractorsDone : Prop := ∀ j, s.extractors j = .finished

/-- The results of the extract workers in their order, up to the first error. -/
def joinPipeline : Except InstallWork (List (FetchOutcome δ)) :=
  match (List.ofFn s.firstError).findSome? id with
  | some work => .error work
  | none => .ok (List.ofFn s.outcomes).flatten

end State

/-- What an extract worker adds for a unit: speculative ones have no outcome. -/
def outcomeOf {δ : Type} (work : InstallWork) (artifact : ArtifactRef δ) (imageCached : Bool) :
    List (FetchOutcome δ) :=
  match work.path with
  | some path => [⟨path, artifact.id, artifact.cached, imageCached⟩]
  | none => []

/-- The unit, if it is an authoritative one. -/
def authoritative (work : InstallWork) : List InstallWork :=
  if work.path.isSome then [work] else []

/-- After the governor: a failed speculative download is forgotten. -/
def afterDownload {δ : Type} (message : Message δ) : Downloader δ :=
  if message.1.path.isNone && message.2.isNone then .waiting else .sending message

/-- A step with a limit that was read before it shrank is told apart. -/
inductive Action
  | proper
  | stale
deriving DecidableEq

section Steps

variable {workers : Workers} {δ : Type} (sink : Sink)
  (yields : InstallWork → ArtifactRef δ → Prop)

/-- One step of one thread.  `yields` is what the store may return for a unit. -/
inductive Step : State workers δ → Action → State workers δ → Prop
  /- the producer -/
  | emit {s : State workers δ} {work : InstallWork} (hpc : s.producer = .resolving)
      (hsink : sink = .blocking) (hpath : work.path.isSome) :
      Step s .proper { s with producer := .sending work, emitted := s.emitted ++ [work] }
  | tryEmit {s : State workers δ} {work : InstallWork} (hpc : s.producer = .resolving)
      (hsink : sink = .trying) (hpath : work.path.isSome)
      (hroom : s.units.length < workers.unitCapacity) :
      Step s .proper { s with units := s.units ++ [work], emitted := s.emitted ++ [work] }
  | tryOverflow {s : State workers δ} {work : InstallWork} (hpc : s.producer = .resolving)
      (hsink : sink = .trying) (hpath : work.path.isSome)
      (hfull : workers.unitCapacity ≤ s.units.length ∨ s.downloadersDone) :
      Step s .proper { s with overflow := s.overflow ++ [work], emitted := s.emitted ++ [work] }
  -- a hint that finds no room is dropped, and the state is as before
  | prefetch {s : State workers δ} {work : InstallWork} (hpc : s.producer = .resolving)
      (hsink : sink = .trying) (hpath : work.path = none)
      (hroom : s.units.length < workers.unitCapacity) :
      Step s .proper { s with units := s.units ++ [work] }
  | send {s : State workers δ} {work : InstallWork} (hpc : s.producer = .sending work)
      (hroom : s.units.length < workers.unitCapacity) :
      Step s .proper { s with producer := .resolving, units := s.units ++ [work] }
  | sendDisconnected {s : State workers δ} {work : InstallWork}
      (hpc : s.producer = .sending work) (hdone : s.downloadersDone) :
      Step s .proper { s with producer := .resolving, dropped := s.dropped ++ [work] }
  | resolved {s : State workers δ} (hpc : s.producer = .resolving) :
      Step s .proper { s with producer := .draining }
  | resolutionFails {s : State workers δ} (hpc : s.producer = .resolving) :
      Step s .proper { s with producer := .stopped }
  | drain {s : State workers δ} {work : InstallWork} {rest : List InstallWork}
      (hpc : s.producer = .draining) (hoverflow : s.overflow = work :: rest)
      (hroom : s.units.length < workers.unitCapacity) :
      Step s .proper { s with overflow := rest, units := s.units ++ [work] }
  | drainDisconnected {s : State workers δ} {work : InstallWork} {rest : List InstallWork}
      (hpc : s.producer = .draining) (hoverflow : s.overflow = work :: rest)
      (hdone : s.downloadersDone) :
      Step s .proper { s with overflow := rest, dropped := s.dropped ++ [work] }
  | drained {s : State workers δ} (hpc : s.producer = .draining) (hoverflow : s.overflow = []) :
      Step s .proper { s with producer := .joining }
  | join {s : State workers δ} (hpc : s.producer = .joining) (hdownloaders : s.downloadersDone)
      (hextractors : s.extractorsDone) :
      Step s .proper { s with producer := .joined s.joinPipeline }
  /- a download worker -/
  | lockUnits {s : State workers δ} {i : Fin workers.download}
      (hpc : s.downloaders i = .waiting) (hlock : s.unitLock = none) :
      Step s .proper { s.setDownloader i .receiving with unitLock := some i }
  | receiveUnit {s : State workers δ} {i : Fin workers.download} {work : InstallWork}
      {rest : List InstallWork} (hpc : s.downloaders i = .receiving)
      (hunits : s.units = work :: rest) (hgone : s.extractionGone i = false) :
      Step s .proper { s.setDownloader i (.acquiring work) with units := rest, unitLock := none }
  | skipUnit {s : State workers δ} {i : Fin workers.download} {work : InstallWork}
      {rest : List InstallWork} (hpc : s.downloaders i = .receiving)
      (hunits : s.units = work :: rest) (hgone : s.extractionGone i = true) :
      Step s .proper { s.setDownloader i .waiting with
        units := rest
        unitLock := none
        dropped := s.dropped ++ authoritative work }
  | unitsEnd {s : State workers δ} {i : Fin workers.download} (hpc : s.downloaders i = .receiving)
      (hunits : s.units = []) (hclosed : s.unitsClosed) :
      Step s .proper { s.setDownloader i .finished with unitLock := none }
  | acquire {s : State workers δ} {i : Fin workers.download} {work : InstallWork}
      (hpc : s.downloaders i = .acquiring work) (hslot : s.inFlight < s.limit) :
      Step s .proper { s.setDownloader i (.downloading work) with inFlight := s.inFlight + 1 }
  | acquireStale {s : State workers δ} {i : Fin workers.download} {work : InstallWork}
      (hpc : s.downloaders i = .acquiring work) (hslot : s.inFlight < workers.maxLimit) :
      Step s .stale { s.setDownloader i (.downloading work) with inFlight := s.inFlight + 1 }
  | downloaded {s : State workers δ} {i : Fin workers.download} {work : InstallWork}
      {artifact : ArtifactRef δ} (hpc : s.downloaders i = .downloading work)
      (hyields : yields work artifact) :
      Step s .proper (s.setDownloader i (.releasing (work, some artifact)))
  -- the download or the patch
  | downloadFails {s : State workers δ} {i : Fin workers.download} {work : InstallWork}
      (hpc : s.downloaders i = .downloading work) :
      Step s .proper { s.setDownloader i (.releasing (work, none)) with
        failed := s.failed ++ authoritative work }
  | release {s : State workers δ} {i : Fin workers.download} {message : Message δ}
      (hpc : s.downloaders i = .releasing message) :
      Step s .proper { s.setDownloader i (.adjusting message) with inFlight := s.inFlight - 1 }
  -- any average and any count, as other workers may change them in between
  | adjust {s : State workers δ} {i : Fin workers.download} {message : Message δ} {ewma n : Nat}
      (hpc : s.downloaders i = .adjusting message) :
      Step s .proper { s.setDownloader i (afterDownload message) with
        limit := newLimit workers s.limit ewma n }
  | keepLimit {s : State workers δ} {i : Fin workers.download} {message : Message δ}
      (hpc : s.downloaders i = .adjusting message) :
      Step s .proper (s.setDownloader i (afterDownload message))
  | sendResult {s : State workers δ} {i : Fin workers.download} {message : Message δ}
      (hpc : s.downloaders i = .sending message)
      (hroom : s.results.length < workers.resultCapacity) :
      Step s .proper { s.setDownloader i .waiting with results := s.results ++ [message] }
  | sendGone {s : State workers δ} {i : Fin workers.download} {message : Message δ}
      (hpc : s.downloaders i = .sending message) (hdone : s.extractorsDone) :
      Step s .proper { s.setDownloader i .waiting with
        extractionGone := Function.update s.extractionGone i true
        dropped := s.dropped ++ authoritative message.1 }
  /- an extract worker -/
  | lockResults {s : State workers δ} {j : Fin workers.extract}
      (hpc : s.extractors j = .waiting) (hlock : s.resultLock = none) :
      Step s .proper { s.setExtractor j .receiving with resultLock := some j }
  | receiveError {s : State workers δ} {j : Fin workers.extract} {work : InstallWork}
      {rest : List (Message δ)} (hpc : s.extractors j = .receiving)
      (hresults : s.results = (work, none) :: rest) :
      Step s .proper { s.setExtractor j .waiting with
        results := rest
        resultLock := none
        firstError := Function.update s.firstError j ((s.firstError j).or (some work))
        dropped := s.dropped ++ authoritative work }
  | receiveArtifact {s : State workers δ} {j : Fin workers.extract} {work : InstallWork}
      {artifact : ArtifactRef δ} {rest : List (Message δ)} (hpc : s.extractors j = .receiving)
      (hresults : s.results = (work, some artifact) :: rest) (hnone : s.firstError j = none) :
      Step s .proper { s.setExtractor j (.extracting work artifact) with
        results := rest, resultLock := none }
  | skipArtifact {s : State workers δ} {j : Fin workers.extract} {work : InstallWork}
      {artifact : ArtifactRef δ} {rest : List (Message δ)} (hpc : s.extractors j = .receiving)
      (hresults : s.results = (work, some artifact) :: rest)
      (hsome : (s.firstError j).isSome = true) :
      Step s .proper { s.setExtractor j .waiting with
        results := rest
        resultLock := none
        dropped := s.dropped ++ authoritative work }
  | resultsEnd {s : State workers δ} {j : Fin workers.extract} (hpc : s.extractors j = .receiving)
      (hresults : s.results = []) (hdone : s.downloadersDone) :
      Step s .proper { s.setExtractor j .finished with resultLock := none }
  | extracted {s : State workers δ} {j : Fin workers.extract} {work : InstallWork}
      {artifact : ArtifactRef δ} (imageCached : Bool)
      (hpc : s.extractors j = .extracting work artifact) :
      Step s .proper { s.setExtractor j .waiting with
        outcomes := Function.update s.outcomes j
          (s.outcomes j ++ outcomeOf work artifact imageCached)
        delivered := s.delivered ++ (authoritative work).map fun w => (w, artifact.id) }
  | extractFails {s : State workers δ} {j : Fin workers.extract} {work : InstallWork}
      {artifact : ArtifactRef δ} (hpc : s.extractors j = .extracting work artifact)
      (hpath : work.path.isSome) :
      Step s .proper { s.setExtractor j .waiting with
        firstError := Function.update s.firstError j (some work)
        failed := s.failed ++ [work]
        dropped := s.dropped ++ [work] }
  -- a speculative image that fails is forgotten
  | warmupFails {s : State workers δ} {j : Fin workers.extract} {work : InstallWork}
      {artifact : ArtifactRef δ} (hpc : s.extractors j = .extracting work artifact)
      (hpath : work.path = none) :
      Step s .proper (s.setExtractor j .waiting)

/-- Every worker waits, nothing is in a channel, and the producer begins. -/
def Begins (s : State workers δ) : Prop :=
  s.producer = .resolving ∧ s.units = [] ∧ s.unitLock = none ∧ s.overflow = [] ∧
    (∀ i, s.downloaders i = .waiting ∧ s.extractionGone i = false) ∧ s.inFlight = 0 ∧
    s.limit = workers.maxLimit ∧ s.results = [] ∧ s.resultLock = none ∧
    (∀ j, s.extractors j = .waiting ∧ s.firstError j = none ∧ s.outcomes j = []) ∧
    s.emitted = [] ∧ s.failed = [] ∧ s.delivered = [] ∧ s.dropped = []

def protocol : Protocol (State workers δ) Action where
  init := Begins
  step := Step sink yields

end Steps
end Pipeline
end Bpm
