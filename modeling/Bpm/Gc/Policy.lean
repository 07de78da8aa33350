import Bpm.Lib.Folds
import Bpm.Lib.OrdMap

/-!
# The selection rules of garbage collection

The policy sees a snapshot of the managed objects and selects, oldest first, those that
are unprotected and past their grace period, until the size cap is reached.
-/

namespace Bpm

open Text

/-- Dependency-safe tie breaker after the access time. -/
inductive DeletionRank
  | plan | graph | derived | image | artifact
deriving DecidableEq

def DeletionRank.index : DeletionRank → Nat
  | plan => 0
  | graph => 1
  | derived => 2
  | image => 3
  | artifact => 4

structure PolicyCandidate where
  effectiveAccessMs : Int
  deletionRank : DeletionRank
  objectId : Str
  sizeBytes : Nat
  guarded : Bool
deriving DecidableEq

/-- User-selected collection limits; the grace period is in milliseconds. -/
structure GcPolicy where
  grace : Nat
  maxSizeBytes : Option Nat
deriving DecidableEq

structure PolicyEvaluation where
  selected : List PolicyCandidate
  selectedBytes : Nat
  remainingBytes : Nat
  capReachable : Bool
deriving DecidableEq

structure PolicyError where
  input : Str
  reason : Str
deriving DecidableEq

/-- By access time, then rank, then id. -/
def PolicyCandidate.order (a b : PolicyCandidate) : Ordering :=
  (compare a.effectiveAccessMs b.effectiveAccessMs).then
    ((compare a.deletionRank.index b.deletionRank.index).then (compare a.objectId b.objectId))

namespace GcPolicy

/-- Select in order until enough is selected. -/
def select (required : Option Nat) (selected : List PolicyCandidate) (selectedBytes : Nat) :
    List PolicyCandidate → Except PolicyError (List PolicyCandidate × Nat)
  | [] => .ok (selected, selectedBytes)
  | candidate :: rest =>
      if required.any (selectedBytes ≥ ·) then .ok (selected, selectedBytes)
      else if selectedBytes + candidate.sizeBytes < 2 ^ 64 then
        select required (selected ++ [candidate]) (selectedBytes + candidate.sizeBytes) rest
      else .error ⟨candidate.objectId,
        lit "selected object sizes overflow the supported byte count"⟩

def eligible (cutoff : Int) (candidates : List PolicyCandidate) : List PolicyCandidate :=
  (candidates.filter fun candidate =>
    !candidate.guarded && decide (candidate.effectiveAccessMs ≤ cutoff)).mergeSort
      fun left right => (left.order right).isLE

def evaluate (policy : GcPolicy) (nowMs : Int) (totalManagedBytes : Nat)
    (candidates : List PolicyCandidate) : Except PolicyError PolicyEvaluation :=
  if policy.grace ≥ 2 ^ 63 then
    .error ⟨(toString policy.grace).toList ++ lit "ms",
      lit "grace period is too large to compare with timestamps"⟩
  else if nowMs - policy.grace < -2 ^ 63 then
    .error ⟨(toString nowMs).toList,
      lit "current time is earlier than the configured grace period"⟩
  else do
    let required := policy.maxSizeBytes.map (totalManagedBytes - ·)
    let (selected, selectedBytes) ← select required [] 0
      (eligible (nowMs - policy.grace) candidates)
    let remainingBytes := totalManagedBytes - selectedBytes
    .ok {
      selected := selected
      selectedBytes := selectedBytes
      remainingBytes := remainingBytes
      capReachable := policy.maxSizeBytes.all (remainingBytes ≤ ·) }

/-! ## What is selected -/

/-- What is selected is where the list begins. -/
theorem select_prefix {required : Option Nat} {before selected rest : List PolicyCandidate}
    {bytes selectedBytes : Nat}
    (h : select required before bytes rest = .ok (selected, selectedBytes)) :
    ∃ more, selected = before ++ more ∧ more <+: rest := by
  induction rest generalizing before bytes with
  | nil =>
      cases h
      exact ⟨[], by simp, List.prefix_rfl⟩
  | cons candidate rest ih =>
      unfold select at h
      split at h
      · cases h
        exact ⟨[], by simp, List.nil_prefix⟩
      · split at h
        · obtain ⟨more, hmore, hrest⟩ := ih h
          refine ⟨candidate :: more, by rw [hmore]; simp, ?_⟩
          exact (List.cons_prefix_cons).mpr ⟨rfl, hrest⟩
        · cases h

/-- Only unprotected candidates past their grace period are selected. -/
theorem mem_eligible {cutoff : Int} {candidates : List PolicyCandidate}
    {candidate : PolicyCandidate} : candidate ∈ eligible cutoff candidates ↔
      candidate ∈ candidates ∧ candidate.guarded = false ∧
        candidate.effectiveAccessMs ≤ cutoff := by
  unfold eligible
  simp [List.mem_mergeSort]

theorem selected_front {policy : GcPolicy} {nowMs : Int} {total : Nat}
    {candidates : List PolicyCandidate} {evaluation : PolicyEvaluation}
    (h : policy.evaluate nowMs total candidates = .ok evaluation) :
    evaluation.selected <+: eligible (nowMs - policy.grace) candidates := by
  unfold evaluate at h
  split at h
  · cases h
  · split at h
    · cases h
    · obtain ⟨⟨selected, selectedBytes⟩, hselect, hrest⟩ := Except.bind_eq_ok.mp h
      obtain ⟨more, hmore, hprefix⟩ := select_prefix hselect
      cases hrest
      rw [hmore]
      exact hprefix

theorem mem_selected {policy : GcPolicy} {nowMs : Int} {total : Nat}
    {candidates : List PolicyCandidate} {evaluation : PolicyEvaluation}
    (h : policy.evaluate nowMs total candidates = .ok evaluation) {candidate : PolicyCandidate}
    (hmem : candidate ∈ evaluation.selected) :
    candidate ∈ candidates ∧ candidate.guarded = false := by
  have heligible := mem_eligible.mp ((selected_front h).subset hmem)
  exact ⟨heligible.1, heligible.2.1⟩

/-- No candidate is selected more often than it is there. -/
theorem selected_nodup {policy : GcPolicy} {nowMs : Int} {total : Nat}
    {candidates : List PolicyCandidate} {evaluation : PolicyEvaluation}
    (h : policy.evaluate nowMs total candidates = .ok evaluation)
    (hnodup : (candidates.map (·.objectId)).Nodup) :
    (evaluation.selected.map (·.objectId)).Nodup := by
  have hprefix := (selected_front h).sublist.map (·.objectId)
  refine hprefix.nodup ?_
  unfold eligible
  have hperm := (List.mergeSort_perm (candidates.filter fun candidate =>
    !candidate.guarded && decide (candidate.effectiveAccessMs ≤ nowMs - policy.grace))
    fun left right => (left.order right).isLE).map (·.objectId)
  refine hperm.nodup_iff.mpr ?_
  exact (List.filter_sublist.map _).nodup hnodup

end GcPolicy
end Bpm
