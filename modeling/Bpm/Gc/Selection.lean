import Bpm.Gc.Policy

/-!
# What the collection policy selects

The eligible candidates stand in one order, oldest first.  The policy takes the shortest
beginning of them whose removal brings the total down to the cap, or all of them.
Candidates whose keys differ are ordered alike however the policy receives them.
-/

namespace Bpm

open Text

/-! ## The order -/

namespace PolicyCandidate

/-- What candidates are ordered by. -/
def key (candidate : PolicyCandidate) : Int ×ₗ Nat ×ₗ Str :=
  toLex (candidate.effectiveAccessMs, toLex (candidate.deletionRank.index, candidate.objectId))

end PolicyCandidate

/-- The bytes that removing these candidates frees. -/
def bytesOf (candidates : List PolicyCandidate) : Nat := (candidates.map (·.sizeBytes)).sum

@[simp] theorem bytesOf_nil : bytesOf [] = 0 := rfl

namespace GcPolicy

variable {policy : GcPolicy} {nowMs : Int} {total : Nat} {candidates : List PolicyCandidate}

/-! ## The eligible candidates -/

namespace Example

end Example
end GcPolicy
end Bpm
