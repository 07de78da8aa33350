import Mathlib

/-!
# Pools of threads

A pool is a family of program counters.  A quantity that is spread over the threads is
their sum, and a step of one thread changes one summand.  A lock that the threads share
is held by the one thread whose program counter says so.
-/

namespace Bpm
namespace Pool

variable {n : Nat} {π : Type}

/-- What all threads hold together. -/
def total (held : π → Nat) (pc : Fin n → π) : Nat := ∑ i, held (pc i)

/-- A step of one thread exchanges its summand. -/
theorem total_update (held : π → Nat) (pc : Fin n → π) (i : Fin n) (x : π) :
    total held (Function.update pc i x) + held (pc i) = total held pc + held x := by
  unfold total
  rw [← Finset.add_sum_erase _ _ (Finset.mem_univ i),
    ← Finset.add_sum_erase (a := i) _ (fun j => held (pc j)) (Finset.mem_univ i)]
  have hrest : ∑ j ∈ Finset.univ.erase i, held (Function.update pc i x j) =
      ∑ j ∈ Finset.univ.erase i, held (pc j) := by
    refine Finset.sum_congr rfl fun j hj => ?_
    rw [Function.update_of_ne (Finset.ne_of_mem_erase hj)]
  rw [hrest, Function.update_self]
  omega

theorem total_eq_zero {held : π → Nat} {pc : Fin n → π} :
    total held pc = 0 ↔ ∀ i, held (pc i) = 0 := by
  simp [total]

/-- The lock is held by the thread that is in its critical section. -/
def Owned (inside : π → Prop) (lock : Option (Fin n)) (pc : Fin n → π) : Prop :=
  ∀ i, lock = some i ↔ inside (pc i)

section Owned

variable {inside : π → Prop} {lock : Option (Fin n)} {pc : Fin n → π} {i : Fin n} {x : π}

theorem Owned.acquire (h : Owned inside none pc) (hx : inside x) :
    Owned inside (some i) (Function.update pc i x) := by
  intro j
  by_cases hj : j = i
  · subst hj
    simpa using hx
  · rw [Function.update_of_ne hj, ← h j]
    simp [Ne.symm hj]

theorem Owned.release (h : Owned inside lock pc) (hi : inside (pc i)) (hx : ¬inside x) :
    Owned inside none (Function.update pc i x) := by
  intro j
  by_cases hj : j = i
  · subst hj
    simpa using hx
  · rw [Function.update_of_ne hj, ← h j, (h i).mpr hi]
    simp [Ne.symm hj]

/-- A step outside of the critical section. -/
theorem Owned.other (h : Owned inside lock pc) (hi : ¬inside (pc i)) (hx : ¬inside x) :
    Owned inside lock (Function.update pc i x) := by
  intro j
  by_cases hj : j = i
  · subst hj
    rw [Function.update_self, h j]
    exact iff_of_false hi hx
  · rw [Function.update_of_ne hj]
    exact h j

end Owned

/-- A property of every thread stays when the thread that steps has it. -/
theorem forall_update {P : π → Prop} {pc : Fin n → π} {i : Fin n} {x : π}
    (h : ∀ j, P (pc j)) (hx : P x) : ∀ j, P (Function.update pc i x j) := by
  intro j
  by_cases hj : j = i
  · subst hj
    rwa [Function.update_self]
  · rw [Function.update_of_ne hj]
    exact h j

end Pool
end Bpm
