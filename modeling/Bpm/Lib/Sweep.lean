import Mathlib

/-!
# Sweeping over a list until nothing changes

A loop goes over a list again and again, and every element may change the state.  It
stops after the first sweep that changes nothing.  What the steps keep holds in the
end, and when every step makes some number smaller, no element steps any more.
-/

namespace Bpm
namespace Sweep

variable {σ α : Type} (step : σ → α → Option σ)

/-- One sweep: the new state, and whether an element changed it. -/
def sweep : List α → σ → σ × Bool
  | [], s => (s, false)
  | x :: xs, s =>
      match step s x with
      | some s' => ((sweep xs s').1, true)
      | none => sweep xs s

/-- The loop, for at most `fuel` sweeps. -/
def settle (xs : List α) : Nat → σ → σ
  | 0, s => s
  | fuel + 1, s => if (sweep step xs s).2 then settle xs fuel (sweep step xs s).1 else s

variable {step}

theorem sweep_keeps {inv : σ → Prop} {xs : List α}
    (hstep : ∀ x ∈ xs, ∀ s s', inv s → step s x = some s' → inv s') {s : σ} (h : inv s) :
    inv (sweep step xs s).1 := by
  induction xs generalizing s with
  | nil => exact h
  | cons x xs ih =>
      have hrest := fun y hy => hstep y (List.mem_cons_of_mem x hy)
      rw [sweep]
      cases hx : step s x with
      | none => exact ih hrest h
      | some s' => exact ih hrest (hstep x List.mem_cons_self s s' h hx)

/-- What every step keeps holds in the end. -/
theorem settle_keeps {inv : σ → Prop} {xs : List α}
    (hstep : ∀ x ∈ xs, ∀ s s', inv s → step s x = some s' → inv s') (fuel : Nat) {s : σ}
    (h : inv s) : inv (settle step xs fuel s) := by
  induction fuel generalizing s with
  | zero => exact h
  | succ fuel ih =>
      rw [settle]
      split
      · exact ih (sweep_keeps hstep h)
      · exact h

/-- A sweep that reports no change found no element that steps. -/
theorem sweep_unchanged {xs : List α} {s : σ} (h : (sweep step xs s).2 = false) :
    ∀ x ∈ xs, step s x = none := by
  induction xs with
  | nil => exact nofun
  | cons x xs ih =>
      rw [sweep] at h
      intro y hy
      cases hx : step s x with
      | some s' => simp [hx] at h
      | none =>
          rw [hx] at h
          rcases List.mem_cons.mp hy with rfl | hin
          · exact hx
          · exact ih h y hin

section Measure

variable {measure : σ → Nat} {xs : List α}
  (hstep : ∀ x ∈ xs, ∀ s s', step s x = some s' → measure s' < measure s)

include hstep

theorem sweep_le (s : σ) : measure (sweep step xs s).1 ≤ measure s :=
  @sweep_keeps σ α step (fun t => measure t ≤ measure s) xs
    (fun x hx t t' ht heq => (hstep x hx t t' heq).le.trans ht) s le_rfl

theorem sweep_lt {s : σ} (h : (sweep step xs s).2 = true) :
    measure (sweep step xs s).1 < measure s := by
  induction xs with
  | nil => cases h
  | cons x xs ih =>
      have hrest := fun y hy => hstep y (List.mem_cons_of_mem x hy)
      rw [sweep] at h ⊢
      cases hx : step s x with
      | none =>
          rw [hx] at h
          exact ih hrest h
      | some s' => exact (sweep_le hrest s').trans_lt (hstep x List.mem_cons_self s s' hx)

/-- With enough sweeps no element steps any more in the end. -/
theorem settle_settled {fuel : Nat} {s : σ} (hfuel : measure s < fuel) :
    ∀ x ∈ xs, step (settle step xs fuel s) x = none := by
  induction fuel generalizing s with
  | zero => exact absurd hfuel (Nat.not_lt_zero _)
  | succ fuel ih =>
      rw [settle]
      split
      · rename_i hchanged
        have hless := sweep_lt hstep hchanged
        apply ih
        omega
      · rename_i hchanged
        exact sweep_unchanged (by simpa using hchanged)

end Measure

end Sweep
end Bpm
