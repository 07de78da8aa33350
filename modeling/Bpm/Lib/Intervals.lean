import Mathlib

/-!
# Common points of half-open intervals

Intervals of a linear order with a lowest point and, possibly, a bound above.  Finitely many
intervals that have a point in common have all the points between the greatest of their
lowest points and that point in common.  Versions are triples in lexicographic order.
-/

namespace Bpm

structure Interval (α : Type) where
  low : α
  high : Option α
deriving DecidableEq

namespace Interval

variable {α : Type} [LinearOrder α]

def Contains (i : Interval α) (v : α) : Prop := i.low ≤ v ∧ ∀ h ∈ i.high, v < h

instance (i : Interval α) (v : α) : Decidable (i.Contains v) :=
  inferInstanceAs (Decidable (_ ∧ _))

/-- What is between a point of an interval and its lowest point is in it. -/
theorem Contains.below {i : Interval α} {v w : α} (hv : i.Contains v) (hlow : i.low ≤ w)
    (hle : w ≤ v) : i.Contains w :=
  ⟨hlow, fun h hh => hle.trans_lt (hv.2 h hh)⟩

theorem exists_greatest_low {l : List (Interval α)} (hne : l ≠ []) :
    ∃ i ∈ l, ∀ j ∈ l, j.low ≤ i.low := by
  induction l with
  | nil => exact absurd rfl hne
  | cons i l ih =>
      by_cases hl : l = []
      · exact ⟨i, by simp, by simp [hl]⟩
      · obtain ⟨k, hk, hall⟩ := ih hl
        rcases le_total i.low k.low with hle | hle
        · exact ⟨k, List.mem_cons_of_mem _ hk, List.forall_mem_cons.mpr ⟨hle, hall⟩⟩
        · exact ⟨i, by simp, List.forall_mem_cons.mpr ⟨le_rfl, fun j hj => (hall j hj).trans hle⟩⟩

/-- Below a common point, the greatest of the lowest points starts the common points. -/
theorem exists_common {l : List (Interval α)} (hne : l ≠ []) {v : α} (hv : ∀ i ∈ l, i.Contains v) :
    ∃ i ∈ l, i.low ≤ v ∧ ∀ w, i.low ≤ w → w ≤ v → ∀ j ∈ l, j.Contains w := by
  obtain ⟨i, hi, hall⟩ := exists_greatest_low hne
  exact ⟨i, hi, (hv i hi).1, fun w hlow hle j hj => (hv j hj).below ((hall j hj).trans hlow) hle⟩

end Interval

/-- Triples in lexicographic order. -/
abbrev Triple := ℕ ×ₗ ℕ ×ₗ ℕ

def triple (a b c : ℕ) : Triple := toLex (a, toLex (b, c))

theorem triple_le {a b c a' b' c' : ℕ} : triple a b c ≤ triple a' b' c' ↔
    a < a' ∨ a = a' ∧ (b < b' ∨ b = b' ∧ c ≤ c') := by
  simp [triple, Prod.Lex.toLex_le_toLex]

theorem triple_lt {a b c a' b' c' : ℕ} : triple a b c < triple a' b' c' ↔
    a < a' ∨ a = a' ∧ (b < b' ∨ b = b' ∧ c < c') := by
  simp [triple, Prod.Lex.toLex_lt_toLex]

end Bpm
