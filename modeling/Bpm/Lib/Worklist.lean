import Mathlib

/-!
# Closing a set under successors

A loop takes an element of the work list, adds its successors that were not seen
before to the closure and to the work list, and stops when no work is left.  It
stops after as many steps as there is work and as there are successors not seen
yet, with exactly the elements in reach of the start.
-/

namespace Bpm
namespace Worklist

open Relation

variable {α : Type} [DecidableEq α]

/-- Add what was not seen before to the closure and to the work list. -/
def push : List α → List α → List α → List α × List α
  | [], closure, pending => (closure, pending)
  | x :: xs, closure, pending =>
      if x ∈ closure then push xs closure pending else push xs (x :: closure) (x :: pending)

/-- The loop; `none` when `fuel` steps were not enough. -/
def run (next : α → List α) : Nat → List α → List α → Option (List α)
  | _, closure, [] => some closure
  | 0, _, _ :: _ => none
  | fuel + 1, closure, x :: pending =>
      let (closure, pending) := push (next x) closure pending
      run next fuel closure pending

/-- The closure of `roots`, for successors that are all listed. -/
def close (next : α → List α) (successors roots : List α) : List α :=
  (run next (roots.length + successors.length) roots roots).getD roots

def Next (next : α → List α) (x y : α) : Prop := y ∈ next x

theorem mem_push_closure (xs closure pending : List α) (x : α) :
    x ∈ (push xs closure pending).1 ↔ x ∈ closure ∨ x ∈ xs := by
  induction xs generalizing closure pending with
  | nil => simp [push]
  | cons y ys ih =>
    rw [push]
    split
    · rename_i hy
      rw [ih, List.mem_cons]
      constructor
      · rintro (h | h)
        · exact Or.inl h
        · exact Or.inr (Or.inr h)
      · rintro (h | rfl | h)
        · exact Or.inl h
        · exact Or.inl hy
        · exact Or.inr h
    · rw [ih, List.mem_cons, List.mem_cons]
      tauto

theorem mem_push_pending (xs closure pending : List α) (x : α) :
    x ∈ (push xs closure pending).2 ↔ x ∈ pending ∨ x ∈ xs ∧ x ∉ closure := by
  induction xs generalizing closure pending with
  | nil => simp [push]
  | cons y ys ih =>
    rw [push]
    split
    · rename_i hy
      rw [ih, List.mem_cons]
      constructor
      · rintro (h | ⟨h, hx⟩)
        · exact Or.inl h
        · exact Or.inr ⟨Or.inr h, hx⟩
      · rintro (h | ⟨rfl | h, hx⟩)
        · exact Or.inl h
        · exact absurd hy hx
        · exact Or.inr ⟨h, hx⟩
    · rename_i hy
      rw [ih, List.mem_cons, List.mem_cons, List.mem_cons]
      by_cases hxy : x = y
      · subst hxy
        tauto
      · tauto

/-- What is left to do never grows. -/
theorem push_measure (listed : Finset α) (xs closure pending : List α)
    (hxs : ∀ x ∈ xs, x ∈ listed) :
    (push xs closure pending).2.length +
        (listed \ (push xs closure pending).1.toFinset).card ≤
      pending.length + (listed \ closure.toFinset).card := by
  induction xs generalizing closure pending with
  | nil => exact le_rfl
  | cons y ys ih =>
    have hys : ∀ x ∈ ys, x ∈ listed := fun x hx => hxs x (List.mem_cons_of_mem y hx)
    rw [push]
    split
    · exact ih closure pending hys
    · rename_i hy
      refine (ih (y :: closure) (y :: pending) hys).trans ?_
      have hunseen : y ∈ listed \ closure.toFinset :=
        Finset.mem_sdiff.mpr ⟨hxs y List.mem_cons_self, by simpa using hy⟩
      have herase : listed \ (y :: closure).toFinset = (listed \ closure.toFinset).erase y := by
        ext x
        simp only [List.toFinset_cons, Finset.mem_sdiff, Finset.mem_insert, Finset.mem_erase]
        tauto
      have hcard := Finset.card_erase_of_mem hunseen
      have hpos := Finset.card_pos.mpr ⟨y, hunseen⟩
      rw [herase, hcard, List.length_cons]
      omega

variable {next : α → List α}

theorem run_total (listed : Finset α) (hlisted : ∀ x, ∀ y ∈ next x, y ∈ listed)
    {fuel : Nat} {closure pending : List α}
    (hfuel : pending.length + (listed \ closure.toFinset).card ≤ fuel) :
    ∃ result, run next fuel closure pending = some result := by
  induction fuel generalizing closure pending with
  | zero =>
    have hpending : pending = [] := List.eq_nil_of_length_eq_zero (by omega)
    exact ⟨closure, by rw [hpending, run]⟩
  | succ fuel ih =>
    cases pending with
    | nil => exact ⟨closure, by rw [run]⟩
    | cons x pending =>
      have hmeasure := push_measure listed (next x) closure pending (hlisted x)
      rw [List.length_cons] at hfuel
      obtain ⟨result, hresult⟩ := ih (hmeasure.trans (by omega))
      exact ⟨result, by rw [run]; exact hresult⟩

omit [DecidableEq α] in
/-- A set that contains the successors of its elements contains all in their reach. -/
theorem mem_of_closed {closure : List α} (hclosed : ∀ x ∈ closure, ∀ y ∈ next x, y ∈ closure)
    {r x : α} (hr : r ∈ closure) (h : ReflTransGen (Next next) r x) : x ∈ closure := by
  induction h with
  | refl => exact hr
  | tail _ hstep ih => exact hclosed _ ih _ hstep

theorem reach_push {closure : List α} {x : α} (hx : x ∈ closure) (pending : List α) (y : α) :
    (∃ r ∈ (push (next x) closure pending).1, ReflTransGen (Next next) r y) ↔
      ∃ r ∈ closure, ReflTransGen (Next next) r y := by
  constructor
  · rintro ⟨r, hr, hreach⟩
    rcases (mem_push_closure ..).mp hr with hr | hr
    · exact ⟨r, hr, hreach⟩
    · exact ⟨x, hx, hreach.head hr⟩
  · rintro ⟨r, hr, hreach⟩
    exact ⟨r, (mem_push_closure ..).mpr (Or.inl hr), hreach⟩

-- The invariant: work is in the closure, and all of the closure but the work is done.
theorem run_spec {fuel : Nat} {closure pending result : List α}
    (h : run next fuel closure pending = some result)
    (hpending : ∀ x ∈ pending, x ∈ closure)
    (hdone : ∀ x ∈ closure, x ∈ pending ∨ ∀ y ∈ next x, y ∈ closure) (x : α) :
    x ∈ result ↔ ∃ r ∈ closure, ReflTransGen (Next next) r x := by
  have hfinished {closure : List α}
      (hdone : ∀ x ∈ closure, x ∈ [] ∨ ∀ y ∈ next x, y ∈ closure) :
      x ∈ closure ↔ ∃ r ∈ closure, ReflTransGen (Next next) r x :=
    ⟨fun hx => ⟨x, hx, .refl⟩, fun ⟨_, hr, hreach⟩ =>
      mem_of_closed (fun z hz => (hdone z hz).resolve_left List.not_mem_nil) hr hreach⟩
  induction fuel generalizing closure pending with
  | zero =>
    cases pending with
    | nil =>
      rw [run] at h
      cases h
      exact hfinished hdone
    | cons z pending => cases h
  | succ fuel ih =>
    cases pending with
    | nil =>
      rw [run] at h
      cases h
      exact hfinished hdone
    | cons z pending =>
      rw [run] at h
      have hz : z ∈ closure := hpending z List.mem_cons_self
      rw [← reach_push hz pending]
      refine ih h ?_ ?_
      · intro w hw
        rw [mem_push_pending] at hw
        rw [mem_push_closure]
        rcases hw with hw | ⟨hw, _⟩
        · exact Or.inl (hpending w (List.mem_cons_of_mem z hw))
        · exact Or.inr hw
      · intro w hw
        simp only [mem_push_closure, mem_push_pending] at hw ⊢
        by_cases hold : w ∈ closure
        · rcases hdone w hold with hwork | hnext
          · rcases List.mem_cons.mp hwork with rfl | hwork
            · exact Or.inr fun y hy => Or.inr hy
            · exact Or.inl (Or.inl hwork)
          · exact Or.inr fun y hy => Or.inl (hnext y hy)
        · exact Or.inl (Or.inr ⟨hw.resolve_left hold, hold⟩)

theorem mem_close {successors : List α} (hlisted : ∀ x, ∀ y ∈ next x, y ∈ successors)
    (roots : List α) (x : α) :
    x ∈ close next successors roots ↔ ∃ r ∈ roots, ReflTransGen (Next next) r x := by
  have hcard : (successors.toFinset \ roots.toFinset).card ≤ successors.length :=
    (Finset.card_le_card Finset.sdiff_subset).trans (List.toFinset_card_le successors)
  obtain ⟨result, hresult⟩ := run_total successors.toFinset
    (fun x y hy => List.mem_toFinset.mpr (hlisted x y hy))
    (Nat.add_le_add_left hcard roots.length)
  rw [close, hresult, Option.getD_some]
  exact run_spec hresult (fun x hx => hx) (fun x hx => Or.inl hx) x

end Worklist
end Bpm
