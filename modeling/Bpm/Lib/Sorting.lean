import Mathlib

/-!
# Sorting by a key

A stable sort by a key puts the keys in order and leaves elements with one key in the order
that they had.
-/

namespace Bpm
namespace Sorting

variable {α β κ : Type} [LinearOrder κ]

def sortBy (key : α → κ) (l : List α) : List α := l.mergeSort fun a b => key a ≤ key b

/-- `m` is `l` sorted by a key; elements with the same key keep their order. -/
structure StableSort (key : α → κ) (l m : List α) : Prop where
  perm : m.Perm l
  sorted : m.Pairwise fun a b => key a ≤ key b
  stable : ∀ k, (m.filter fun a => key a = k) = l.filter fun a => key a = k

theorem sortBy_perm (key : α → κ) (l : List α) : (sortBy key l).Perm l :=
  List.mergeSort_perm _ _

theorem le_trans_key (key : α → κ) (a b c : α) (hab : decide (key a ≤ key b) = true)
    (hbc : decide (key b ≤ key c) = true) : decide (key a ≤ key c) = true :=
  decide_eq_true (le_trans (of_decide_eq_true hab) (of_decide_eq_true hbc))

theorem le_total_key (key : α → κ) (a b : α) :
    (decide (key a ≤ key b) || decide (key b ≤ key a)) = true := by
  rw [Bool.or_eq_true, decide_eq_true_iff, decide_eq_true_iff]
  exact le_total (key a) (key b)

theorem sortBy_sorted (key : α → κ) (l : List α) :
    (sortBy key l).Pairwise fun a b => key a ≤ key b :=
  (List.pairwise_mergeSort (le_trans_key key) (le_total_key key) l).imp of_decide_eq_true

theorem sortBy_of_sorted {key : α → κ} {l : List α} (h : l.Pairwise fun a b => key a ≤ key b) :
    sortBy key l = l :=
  List.mergeSort_of_pairwise (h.imp decide_eq_true)

theorem stableSort_sortBy (key : α → κ) (l : List α) : StableSort key l (sortBy key l) where
  perm := sortBy_perm key l
  sorted := sortBy_sorted key l
  stable k := by
    have hsame : (l.filter fun a => key a = k).Pairwise fun a b => decide (key a ≤ key b) := by
      apply List.pairwise_of_forall_mem_list
      intro a ha b hb
      have ha' := of_decide_eq_true (List.mem_filter.mp ha).2
      have hb' := of_decide_eq_true (List.mem_filter.mp hb).2
      exact decide_eq_true (ha'.trans hb'.symm).le
    have hsub : (l.filter fun a => key a = k).Sublist (sortBy key l) :=
      List.sublist_mergeSort (le_trans_key key) (le_total_key key) hsame List.filter_sublist
    have hfilter := hsub.filter fun a => decide (key a = k)
    rw [List.filter_filter] at hfilter
    simp only [Bool.and_self] at hfilter
    have hlength := ((sortBy_perm key l).filter fun a => decide (key a = k)).length_eq
    exact (hfilter.eq_of_length hlength.symm).symm

/-- Sorting goes along with a map that keeps the keys. -/
theorem sortBy_map {key : α → κ} {key' : β → κ} {f : α → β} (h : ∀ a, key' (f a) = key a)
    (l : List α) : sortBy key' (l.map f) = (sortBy key l).map f := by
  apply Eq.symm
  apply List.map_mergeSort
  intro a _ b _
  rw [h, h]

/-- Lists of the same elements are sorted alike, when all of them have different keys. -/
theorem sortBy_eq_of_perm {key : α → κ} {l m : List α} (hinj : ∀ a ∈ l, ∀ b ∈ l,
    key a = key b → a = b) (h : l.Perm m) : sortBy key l = sortBy key m := by
  have hperm := (sortBy_perm key l).trans (h.trans (sortBy_perm key m).symm)
  apply List.Perm.eq_of_pairwise _ (sortBy_sorted key l) (sortBy_sorted key m) hperm
  intro a b ha hb hab hba
  have ha := (sortBy_perm key l).mem_iff.mp ha
  have hb := h.mem_iff.mpr ((sortBy_perm key m).mem_iff.mp hb)
  exact hinj a ha b hb (le_antisymm hab hba)

end Sorting
end Bpm
