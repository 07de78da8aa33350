import Mathlib

/-!
# Folds that may fail

Rules for a fold in `Except`: what holds of the part that is done carries over to
the whole, and a fold whose steps change nothing changes nothing.

When some elements have to come before others and steps that need not wait for each
other commute, all orders that respect what has to come first give the same result.
-/

namespace Bpm

theorem Except.bind_eq_ok {ε α β : Type} {x : Except ε α} {f : α → Except ε β} {b : β} :
    (x >>= f) = .ok b ↔ ∃ a, x = .ok a ∧ f a = .ok b := by
  cases x with
  | error e => simp [bind, Except.bind]
  | ok a => simp [bind, Except.bind]

theorem Except.map_eq_ok {ε α β : Type} {x : Except ε α} {f : α → β} {b : β} :
    x.map f = .ok b ↔ ∃ a, x = .ok a ∧ f a = b := by
  cases x with
  | error e => simp [Except.map]
  | ok a => simp [Except.map]

namespace Folds

variable {ε α σ : Type} {f : σ → α → Except ε σ} {l : List α} {s s' : σ}

theorem foldlM_concat {x : α} : (l ++ [x]).foldlM f s = l.foldlM f s >>= fun s => f s x := by
  rw [List.foldlM_append]
  congr 1
  funext s
  rw [List.foldlM_cons]
  cases f s x <;> rfl

/-- A list of checks passes exactly when each of them does. -/
theorem forM_eq_ok {check : α → Except ε Unit} :
    forM l check = .ok () ↔ ∀ x ∈ l, check x = .ok () := by
  induction l with
  | nil => exact iff_of_true rfl nofun
  | cons x l ih =>
      rw [List.forM_cons, List.forall_mem_cons, ← ih]
      cases check x with
      | error e => exact iff_of_false nofun nofun
      | ok u => exact ⟨fun h => ⟨rfl, h⟩, fun h => h.2⟩

/-- A fold succeeds when every step does; the invariant speaks of what is done. -/
theorem total {I : List α → σ → Prop} (hstart : I [] s)
    (hstep : ∀ pre x post s, l = pre ++ x :: post → I pre s →
      ∃ s', f s x = .ok s' ∧ I (pre ++ [x]) s') : ∃ s', l.foldlM f s = .ok s' ∧ I l s' := by
  have hall : ∀ pre post, l = pre ++ post → ∃ s', pre.foldlM f s = .ok s' ∧ I pre s' := by
    intro pre
    induction pre using List.reverseRecOn with
    | nil => exact fun _ _ => ⟨s, rfl, hstart⟩
    | append_singleton pre x ih =>
        intro post hsplit
        have hsplit : l = pre ++ x :: post := by rw [hsplit, List.append_assoc]; rfl
        obtain ⟨s₁, hpre, hI⟩ := ih _ hsplit
        obtain ⟨s₂, hx, hI⟩ := hstep pre x post s₁ hsplit hI
        exact ⟨s₂, by rw [foldlM_concat, hpre]; exact hx, hI⟩
  exact hall l [] (by simp)

/-- What every successful step keeps holds after a successful fold. -/
theorem invariant {I : List α → σ → Prop} (hfold : l.foldlM f s = .ok s') (hstart : I [] s)
    (hstep : ∀ pre x post s s', l = pre ++ x :: post → I pre s → f s x = .ok s' →
      I (pre ++ [x]) s') : I l s' := by
  have hall : ∀ pre post, l = pre ++ post → ∀ s', pre.foldlM f s = .ok s' → I pre s' := by
    intro pre
    induction pre using List.reverseRecOn with
    | nil =>
        intro _ _ s' h
        cases h
        exact hstart
    | append_singleton pre x ih =>
        intro post hsplit s' h
        have hsplit : l = pre ++ x :: post := by rw [hsplit, List.append_assoc]; rfl
        rw [foldlM_concat, Except.bind_eq_ok] at h
        obtain ⟨s₁, hpre, hx⟩ := h
        exact hstep pre x post s₁ s' hsplit (ih _ hsplit s₁ hpre) hx
  exact hall l [] (by simp) s' hfold

theorem same (h : ∀ x ∈ l, f s x = .ok s) : l.foldlM f s = .ok s := by
  induction l with
  | nil => rfl
  | cons x l ih =>
      rw [List.foldlM_cons, h x List.mem_cons_self]
      exact ih fun y hy => h y (List.mem_cons_of_mem _ hy)

/-- In a list in the order of a rank, what ranks lower comes before. -/
theorem mem_before {rank : α → Nat} {pre post : List α} {x y : α}
    (hsorted : (pre ++ x :: post).Pairwise fun a b => rank a ≤ rank b)
    (hy : y ∈ pre ++ x :: post) (hlt : rank y < rank x) : y ∈ pre := by
  rcases List.mem_append.mp hy with hpre | hpost
  · exact hpre
  · have hx := (List.pairwise_cons.mp (List.pairwise_append.mp hsorted).2.1).1
    rcases List.mem_cons.mp hpost with rfl | hin
    · omega
    · have := hx y hin
      omega

/-! ## Orders that respect a precedence -/

section Precedence

variable {β τ : Type} {g : τ → β → Option τ} {before : β → β → Prop} {all done : Set β}
  {t : τ} {x : β}

/-- Nothing comes after what it has to come before. -/
def Respects (before : β → β → Prop) (l : List β) : Prop := l.Pairwise fun a b => ¬before b a

/-- All that has to come before `x` is done. -/
def Ready (before : β → β → Prop) (all done : Set β) (x : β) : Prop :=
  ∀ a ∈ all, before a x → a ∈ done

/-- An invariant under which steps keep each other possible and the order of two steps
that are both ready does not matter. -/
structure Independent (g : τ → β → Option τ) (before : β → β → Prop) (all : Set β)
    (I : Set β → τ → Prop) : Prop where
  irrefl : ∀ x, ¬before x x
  keep : ∀ done t x t', I done t → x ∈ all → x ∉ done → Ready before all done x →
    g t x = some t' → I (insert x done) t'
  comm : ∀ done t x y, I done t → x ∈ all → y ∈ all → x ∉ done → y ∉ done → x ≠ y →
    Ready before all done x → Ready before all done y →
    (g t x).bind (g · y) = (g t y).bind (g · x)

/-- What is left to do: every element once, and nothing that is done. -/
structure Pending (before : β → β → Prop) (all done : Set β) (l : List β) : Prop where
  nodup : l.Nodup
  inside : ∀ x ∈ l, x ∈ all ∧ x ∉ done
  cover : ∀ x ∈ all, x ∈ done ∨ x ∈ l
  respects : Respects before l

namespace Pending

variable {l : List β}

theorem ready (h : Pending before all done (x :: l)) (hirrefl : ∀ x, ¬before x x) :
    Ready before all done x := by
  intro a ha hbefore
  rcases h.cover a ha with hdone | hmem
  · exact hdone
  · rcases List.mem_cons.mp hmem with rfl | hmem
    · exact absurd hbefore (hirrefl a)
    · exact absurd hbefore ((List.pairwise_cons.mp h.respects).1 a hmem)

theorem tail (h : Pending before all done (x :: l)) : Pending before all (insert x done) l where
  nodup := (List.nodup_cons.mp h.nodup).2
  inside y hy := by
    obtain ⟨hall, hdone⟩ := h.inside y (List.mem_cons_of_mem x hy)
    refine ⟨hall, ?_⟩
    rintro (rfl | hin)
    · exact (List.nodup_cons.mp h.nodup).1 hy
    · exact hdone hin
  cover y hy := by
    rcases h.cover y hy with hdone | hmem
    · exact Or.inl (Or.inr hdone)
    · rcases List.mem_cons.mp hmem with rfl | hmem
      · exact Or.inl (Or.inl rfl)
      · exact Or.inr hmem
  respects := (List.pairwise_cons.mp h.respects).2

/-- An element that is ready may come first. -/
theorem move {pre post : List β} (h : Pending before all done (pre ++ x :: post))
    (hready : Ready before all done x) : Pending before all done (x :: (pre ++ post)) where
  nodup := List.perm_middle.nodup_iff.mp h.nodup
  inside y hy := h.inside y (List.perm_middle.mem_iff.mpr hy)
  cover y hy := (h.cover y hy).imp_right fun hmem => List.perm_middle.mem_iff.mp hmem
  respects := by
    refine List.pairwise_cons.mpr ⟨fun y hy hbefore => ?_, ?_⟩
    · have hmem : y ∈ pre ++ x :: post := List.perm_middle.mem_iff.mpr (List.mem_cons_of_mem x hy)
      exact (h.inside y hmem).2 (hready y (h.inside y hmem).1 hbefore)
    · exact h.respects.sublist (List.Sublist.append_left (List.sublist_cons_self x post) pre)

end Pending

/-- A step that is ready may be taken first. -/
theorem foldlM_move {I : Set β → τ → Prop} (h : Independent g before all I) {pre post : List β}
    (hpending : Pending before all done (pre ++ x :: post)) (hready : Ready before all done x)
    (hI : I done t) : (pre ++ x :: post).foldlM g t = (x :: (pre ++ post)).foldlM g t := by
  induction pre generalizing done t with
  | nil => rfl
  | cons a pre ih =>
    have hne : a ≠ x := by
      rintro rfl
      exact (List.nodup_cons.mp hpending.nodup).1 (by simp)
    have ha := hpending.inside a (by simp)
    have hx := hpending.inside x (by simp)
    have hreadya := hpending.ready h.irrefl
    have hrest : ∀ t', g t a = some t' →
        (pre ++ x :: post).foldlM g t' = (x :: (pre ++ post)).foldlM g t' := fun t' ht' =>
      ih hpending.tail (fun b hb hbefore => Or.inr (hready b hb hbefore))
        (h.keep done t a t' hI ha.1 ha.2 hreadya ht')
    have hcomm := h.comm done t a x hI ha.1 hx.1 ha.2 hx.2 hne hreadya hready
    calc ((a :: pre) ++ x :: post).foldlM g t
        = (g t a).bind fun t' => (pre ++ x :: post).foldlM g t' := rfl
      _ = (g t a).bind fun t' => (x :: (pre ++ post)).foldlM g t' := by
          cases hg : g t a with
          | none => rfl
          | some t' => exact hrest t' hg
      _ = ((g t a).bind (g · x)).bind fun t' => (pre ++ post).foldlM g t' := by
          rw [Option.bind_assoc]
          rfl
      _ = ((g t x).bind (g · a)).bind fun t' => (pre ++ post).foldlM g t' := by rw [hcomm]
      _ = (x :: ((a :: pre) ++ post)).foldlM g t := by
          rw [Option.bind_assoc]
          rfl

/-- Two orders of the same steps that respect what has to come first. -/
theorem foldlM_perm {I : Set β → τ → Prop} (h : Independent g before all I) {l l' : List β}
    (hperm : l.Perm l') (hl : Pending before all done l) (hl' : Pending before all done l')
    (hI : I done t) : l.foldlM g t = l'.foldlM g t := by
  induction l generalizing l' done t with
  | nil => rw [hperm.nil_eq]
  | cons x l ih =>
    obtain ⟨pre, post, rfl⟩ := List.append_of_mem (hperm.mem_iff.mp List.mem_cons_self)
    have hready := hl.ready h.irrefl
    have hx := hl.inside x List.mem_cons_self
    rw [foldlM_move h hl' hready hI, List.foldlM_cons, List.foldlM_cons]
    cases hg : g t x with
    | none => rfl
    | some t' =>
      exact ih (List.perm_cons x |>.mp (hperm.trans List.perm_middle)) hl.tail
        (hl'.move hready).tail (h.keep done t x t' hI hx.1 hx.2 hready hg)

end Precedence

end Folds
end Bpm
