import Mathlib

/-!
# Fallible computations over a state

`Run ε σ α` is a computation that changes a state and then returns or fails; the
state survives a failure.  `Spec R P m Q` says that `m`, started in a state with
`P`, moves the state along the preorder `R` and ends in an outcome and a state
with `Q`.  The rules below follow the shape of a program: sequencing, reading and
changing the state, failing, recovering from a failure, and running a list of
commands.  What is stable along `R` need not be carried through a program by
hand: every continuation starts from a state that `R` reaches.
-/

namespace Bpm

/-- A computation over a state `σ` that may fail with `ε`. -/
def Run (ε σ α : Type) := σ → Except ε α × σ

namespace Run

variable {ε σ α β : Type}

instance : Monad (Run ε σ) where
  pure a := fun s => (.ok a, s)
  bind m f := fun s =>
    match m s with
    | (.ok a, s') => f a s'
    | (.error e, s') => (.error e, s')

theorem bind_apply (m : Run ε σ α) (f : α → Run ε σ β) (s : σ) :
    (m >>= f) s =
      match m s with
      | (.ok a, s') => f a s'
      | (.error e, s') => (.error e, s') := rfl

theorem bind_ok {m : Run ε σ α} {f : α → Run ε σ β} {s s' : σ} {a : α}
    (h : m s = (.ok a, s')) : (m >>= f) s = f a s' := by
  rw [bind_apply, h]

theorem bind_error {m : Run ε σ α} {f : α → Run ε σ β} {s s' : σ} {e : ε}
    (h : m s = (.error e, s')) : (m >>= f) s = (.error e, s') := by
  rw [bind_apply, h]

/-- A sequence succeeds when both of its parts do. -/
theorem bind_eq_ok {m : Run ε σ α} {f : α → Run ε σ β} {s s' : σ} {b : β} :
    (m >>= f) s = (.ok b, s') ↔ ∃ a s₁, m s = (.ok a, s₁) ∧ f a s₁ = (.ok b, s') := by
  rw [bind_apply]
  rcases m s with ⟨_ | a, s₁⟩
  · simp
  · simp

/-- A sequence fails when its first part does or else its second one. -/
theorem bind_eq_error {m : Run ε σ α} {f : α → Run ε σ β} {s s' : σ} {e : ε} :
    (m >>= f) s = (.error e, s') ↔ m s = (.error e, s') ∨
      ∃ a s₁, m s = (.ok a, s₁) ∧ f a s₁ = (.error e, s') := by
  rw [bind_apply]
  rcases m s with ⟨_ | a, s₁⟩
  · simp
  · simp

/-- A last step that only returns leaves the state alone. -/
theorem bind_pure_state (m : Run ε σ α) (g : α → β) (s : σ) :
    ((m >>= fun a => Pure.pure (g a)) s).2 = (m s).2 := by
  rw [bind_apply]
  rcases m s with ⟨_ | _, _⟩ <;> rfl

theorem bind_pure_eq_error (m : Run ε σ α) (g : α → β) (s : σ) (e : ε) :
    ((m >>= fun a => Pure.pure (g a)) s).1 = .error e ↔ (m s).1 = .error e := by
  rw [bind_apply]
  rcases m s with ⟨_ | a, s'⟩
  · simp
  · constructor
    · intro h
      cases h
    · exact nofun

/-- The current state. -/
def get : Run ε σ σ := fun s => (.ok s, s)

def modify (f : σ → σ) : Run ε σ Unit := fun s => (.ok (), f s)

def fail (e : ε) : Run ε σ α := fun s => (.error e, s)

/-- A pure fallible computation, its failure mapped into the outcome. -/
def ofExcept {ε' : Type} (wrap : ε' → ε) : Except ε' α → Run ε σ α
  | .ok a => Pure.pure a
  | .error e => fail (wrap e)

/-- Run `m`; when it fails, continue as `handler` says for that failure. -/
def recover (m : Run ε σ α) (handler : ε → Run ε σ α) : Run ε σ α := fun s =>
  match m s with
  | (.ok a, s') => (.ok a, s')
  | (.error e, s') => handler e s'

/-- Run `m`, and change the state at its end, whatever the outcome. -/
def cleanup (release : σ → σ) (m : Run ε σ α) : Run ε σ α := fun s =>
  ((m s).1, release (m s).2)

def mapError {ε' : Type} (wrap : ε → ε') (m : Run ε σ α) : Run ε' σ α := fun s =>
  match m s with
  | (.ok a, s') => (.ok a, s')
  | (.error e, s') => (.error (wrap e), s')

/-- Run `m` and hand its outcome on, a failure too. -/
def attempt {ε' : Type} (m : Run ε σ α) : Run ε' σ (Except ε α) := fun s => (.ok (m s).1, (m s).2)

/-- Run `m` on a part of the state. -/
def zoom {τ : Type} (part : τ → σ) (replace : σ → τ → τ) (m : Run ε σ α) : Run ε τ α := fun t =>
  ((m (part t)).1, replace (m (part t)).2 t)

/-- Run a command for every element of a list, in order. -/
def forEach (f : β → Run ε σ Unit) : List β → Run ε σ Unit
  | [] => Pure.pure ()
  | x :: xs => f x >>= fun _ => forEach f xs

/-- Thread an accumulator through a list. -/
def foldM (f : α → β → Run ε σ α) : α → List β → Run ε σ α
  | acc, [] => Pure.pure acc
  | acc, x :: xs => f acc x >>= fun acc' => foldM f acc' xs

theorem get_bind_apply (f : σ → Run ε σ β) (s : σ) : (get >>= f) s = f s s := rfl

theorem modify_bind_apply (g : σ → σ) (f : Unit → Run ε σ β) (s : σ) :
    (modify g >>= f) s = f () (g s) := rfl

theorem ofExcept_ok_bind {ε' : Type} (wrap : ε' → ε) (a : α) (f : α → Run ε σ β) :
    (ofExcept wrap (.ok a) >>= f) = f a := rfl

/-- A pure fallible computation first: its failure, or what follows from its result. -/
theorem ofExcept_bind_cases {ε' : Type} (wrap : ε' → ε) (x : Except ε' α) (f : α → Run ε σ β)
    (s : σ) :
    (∃ e, x = .error e ∧ (ofExcept wrap x >>= f) s = (.error (wrap e), s)) ∨
      ∃ a, x = .ok a ∧ (ofExcept wrap x >>= f) s = f a s := by
  cases x with
  | ok a => exact .inr ⟨a, rfl, rfl⟩
  | error e => exact .inl ⟨e, rfl, rfl⟩

theorem forEach_eq_foldM (f : β → Run ε σ Unit) (xs : List β) :
    forEach f xs = foldM (fun _ x => f x) () xs := by
  induction xs with
  | nil => rfl
  | cons x xs ih =>
    rw [forEach, foldM, ih]

theorem foldM_map {γ : Type} (f : α → β → Run ε σ α) (g : γ → β) (acc : α) (xs : List γ) :
    foldM f acc (xs.map g) = foldM (fun acc x => f acc (g x)) acc xs := by
  induction xs generalizing acc with
  | nil => rfl
  | cons x xs ih =>
    rw [List.map_cons, foldM, foldM]
    simp only [ih]

theorem foldM_append (f : α → β → Run ε σ α) (acc : α) (xs ys : List β) :
    foldM f acc (xs ++ ys) = foldM f acc xs >>= fun acc' => foldM f acc' ys := by
  induction xs generalizing acc with
  | nil => rfl
  | cons x xs ih =>
    funext s
    simp only [List.cons_append, foldM, bind_apply, ih]
    rcases f acc x s with ⟨_ | _, _⟩ <;> rfl

theorem mapError_ok {ε' : Type} {wrap : ε → ε'} {m : Run ε σ α} {s s' : σ} {a : α}
    (h : m s = (.ok a, s')) : mapError wrap m s = (.ok a, s') := by
  rw [mapError, h]

theorem mapError_error {ε' : Type} {wrap : ε → ε'} {m : Run ε σ α} {s s' : σ} {e : ε}
    (h : m s = (.error e, s')) : mapError wrap m s = (.error (wrap e), s') := by
  rw [mapError, h]

theorem cleanup_eq {release : σ → σ} {m : Run ε σ α} {s s' : σ} {r : Except ε α}
    (h : m s = (r, s')) : cleanup release m s = (r, release s') := by
  rw [cleanup, h]

theorem attempt_eq {ε' : Type} {m : Run ε σ α} {s s' : σ} {r : Except ε α}
    (h : m s = (r, s')) : (attempt m : Run ε' σ (Except ε α)) s = (.ok r, s') := by
  rw [attempt, h]

/-- From a state with `P`, the computation moves the state along `R` and ends in
an outcome and a state with `Q`. -/
def Spec (R : σ → σ → Prop) (P : σ → Prop) (m : Run ε σ α)
    (Q : Except ε α → σ → Prop) : Prop :=
  ∀ s, P s → R s (m s).2 ∧ Q (m s).1 (m s).2

namespace Spec

variable {R : σ → σ → Prop} {P P' : σ → Prop} {Q Q' : Except ε α → σ → Prop}

/-- Strengthen the precondition and weaken the postcondition. -/
theorem mono {m : Run ε σ α} (h : Spec R P' m Q') (hpre : ∀ s, P s → P' s)
    (hpost : ∀ r s, Q' r s → Q r s) : Spec R P m Q :=
  fun s hs => ⟨(h s (hpre s hs)).1, hpost _ _ (h s (hpre s hs)).2⟩

theorem modify {f : σ → σ} {Q : Except ε Unit → σ → Prop}
    (hstep : ∀ s, P s → R s (f s)) (h : ∀ s, P s → Q (.ok ()) (f s)) :
    Spec R P (Run.modify f) Q :=
  fun s hs => ⟨hstep s hs, h s hs⟩

/-- Reading the state: the continuation knows which state it runs in. -/
theorem get_bind {f : σ → Run ε σ β} {Q : Except ε β → σ → Prop}
    (h : ∀ s₀, P s₀ → Spec R (fun s => s = s₀) (f s₀) Q) :
    Spec R P (Run.get >>= f) Q :=
  fun s hs => h s hs s rfl

variable [IsPreorder σ R]

theorem pure {a : α} (h : ∀ s, P s → Q (.ok a) s) : Spec R P (Pure.pure a) Q :=
  fun s hs => ⟨refl_of R s, h s hs⟩

theorem fail {e : ε} (h : ∀ s, P s → Q (.error e) s) :
    Spec R P (Run.fail e : Run ε σ α) Q :=
  fun s hs => ⟨refl_of R s, h s hs⟩

/-- A pure fallible computation first: the continuation knows its result. -/
theorem ofExcept_bind {ε' : Type} {wrap : ε' → ε} {x : Except ε' α} {f : α → Run ε σ β}
    {Q : Except ε β → σ → Prop} (hok : ∀ a, x = .ok a → Spec R P (f a) Q)
    (herr : ∀ e s, x = .error e → P s → Q (.error (wrap e)) s) :
    Spec R P (Run.ofExcept wrap x >>= f) Q := by
  cases x with
  | ok a => exact hok a rfl
  | error e => exact fun s hs => ⟨refl_of R s, herr e s rfl hs⟩

/-- Sequencing: the continuation starts in a state that `m` moved to; a failure
of `m` is the failure of the whole. -/
theorem bind {m : Run ε σ α} {f : α → Run ε σ β} {Q' : Except ε β → σ → Prop}
    (hm : Spec R P m Q)
    (hf : ∀ a, Spec R (fun s => (∃ s₀, P s₀ ∧ R s₀ s) ∧ Q (.ok a) s) (f a) Q')
    (he : ∀ e s, Q (.error e) s → Q' (.error e) s) : Spec R P (m >>= f) Q' := by
  intro s hs
  obtain ⟨hstep, hQ⟩ := hm s hs
  rw [bind_apply]
  cases hms : m s with
  | mk r s' =>
      rw [hms] at hstep hQ
      cases r with
      | ok a =>
          obtain ⟨hstep', hQ'⟩ := hf a s' ⟨⟨s, hs, hstep⟩, hQ⟩
          exact ⟨trans_of R hstep hstep', hQ'⟩
      | error e => exact ⟨hstep, he e s' hQ⟩

theorem recover {m : Run ε σ α} {handler : ε → Run ε σ α} (hm : Spec R P m Q')
    (hok : ∀ a s, Q' (.ok a) s → Q (.ok a) s)
    (he : ∀ e, Spec R (fun s => (∃ s₀, P s₀ ∧ R s₀ s) ∧ Q' (.error e) s) (handler e) Q) :
    Spec R P (Run.recover m handler) Q := by
  intro s hs
  obtain ⟨hstep, hQ⟩ := hm s hs
  unfold Run.recover
  cases hms : m s with
  | mk r s' =>
      rw [hms] at hstep hQ
      cases r with
      | ok a => exact ⟨hstep, hok a s' hQ⟩
      | error e =>
          obtain ⟨hstep', hQ'⟩ := he e s' ⟨⟨s, hs, hstep⟩, hQ⟩
          exact ⟨trans_of R hstep hstep', hQ'⟩

/-- A loop whose rounds all start from a property that is stable along `R`; what
every failure satisfies, the failure of the loop does. -/
theorem forEach {f : β → Run ε σ Unit} {E : ε → σ → Prop} (xs : List β)
    (hstable : ∀ s s', R s s' → P s → P s')
    (h : ∀ x ∈ xs, Spec R P (f x) fun r s => ∀ e, r = .error e → E e s) :
    Spec R P (Run.forEach f xs) fun r s => ∀ e, r = .error e → E e s := by
  induction xs with
  | nil => exact pure fun s _ e he => by cases he
  | cons x xs ih =>
      refine bind (h x List.mem_cons_self) (fun _ => ?_) (fun e s he => he)
      refine mono (ih fun y hy => h y (List.mem_cons_of_mem x hy)) ?_ (fun r s hr => hr)
      rintro s ⟨⟨s₀, hs₀, hstep⟩, _⟩
      exact hstable s₀ s hstep hs₀

/-- A fold keeps an invariant of the accumulator that is stable along `R`. -/
theorem foldM {f : α → β → Run ε σ α} {I : α → σ → Prop} {E : ε → σ → Prop} (xs : List β)
    (h : ∀ acc, ∀ x ∈ xs, Spec R (I acc) (f acc x) fun r s =>
      (∀ acc', r = .ok acc' → I acc' s) ∧ ∀ e, r = .error e → E e s)
    (acc : α) :
    Spec R (I acc) (Run.foldM f acc xs) fun r s =>
      (∀ acc', r = .ok acc' → I acc' s) ∧ ∀ e, r = .error e → E e s := by
  induction xs generalizing acc with
  | nil =>
      refine pure fun s hs => ⟨fun acc' hacc => ?_, fun e he => by cases he⟩
      cases hacc
      exact hs
  | cons x xs ih =>
      refine bind (h acc x List.mem_cons_self) (fun acc' => ?_) ?_
      · refine mono (ih (fun acc y hy => h acc y (List.mem_cons_of_mem x hy)) acc') ?_
          (fun r s hr => hr)
        rintro s ⟨_, hI, _⟩
        exact hI acc' rfl
      · rintro e s ⟨_, hE⟩
        refine ⟨fun acc' hacc => ?_, fun e' he' => ?_⟩
        · cases hacc
        · cases he'
          exact hE e rfl

end Spec

/-! ## Invariants -/

/-- The computation keeps `I`, and returns nothing but what `P` admits. -/
def Keeps (I : σ → Prop) (P : α → Prop) (m : Run ε σ α) : Prop :=
  ∀ s, I s → I (m s).2 ∧ ∀ a, (m s).1 = .ok a → P a

namespace Keeps

variable {I : σ → Prop} {P : α → Prop} {P' : β → Prop}

/-- Weaken what the result is known to satisfy. -/
theorem mono {P' : α → Prop} {m : Run ε σ α} (hm : Keeps I P m) (h : ∀ a, P a → P' a) :
    Keeps I P' m :=
  fun s hs => ⟨(hm s hs).1, fun a ha => h a ((hm s hs).2 a ha)⟩

theorem pure {a : α} (h : P a) : Keeps I P (Pure.pure a : Run ε σ α) := by
  refine fun s hs => ⟨hs, fun b hb => ?_⟩
  cases hb
  exact h

theorem fail {e : ε} : Keeps I P (Run.fail e : Run ε σ α) :=
  fun _ hs => ⟨hs, nofun⟩

theorem bind {m : Run ε σ α} {f : α → Run ε σ β} (hm : Keeps I P m)
    (hf : ∀ a, P a → Keeps I P' (f a)) : Keeps I P' (m >>= f) := by
  intro s hs
  obtain ⟨hI, hP⟩ := hm s hs
  rw [bind_apply]
  cases hms : m s with
  | mk r s' =>
    rw [hms] at hI hP
    cases r with
    | ok a => exact hf a (hP a rfl) s' hI
    | error e => exact ⟨hI, nofun⟩

theorem recover {m : Run ε σ α} {handler : ε → Run ε σ α} (hm : Keeps I P m)
    (he : ∀ e, Keeps I P (handler e)) : Keeps I P (Run.recover m handler) := by
  intro s hs
  obtain ⟨hI, hP⟩ := hm s hs
  unfold Run.recover
  cases hms : m s with
  | mk r s' =>
    rw [hms] at hI hP
    cases r with
    | ok a => exact ⟨hI, hP⟩
    | error e => exact he e s' hI

theorem cleanup {release : σ → σ} {m : Run ε σ α} (hm : Keeps I P m)
    (hrelease : ∀ s, I s → I (release s)) : Keeps I P (Run.cleanup release m) :=
  fun s hs => ⟨hrelease _ (hm s hs).1, (hm s hs).2⟩

theorem mapError {ε' : Type} {wrap : ε → ε'} {m : Run ε σ α} (hm : Keeps I P m) :
    Keeps I P (Run.mapError wrap m) := by
  intro s hs
  obtain ⟨hI, hP⟩ := hm s hs
  unfold Run.mapError
  cases hms : m s with
  | mk r s' =>
    rw [hms] at hI hP
    cases r with
    | ok a =>
      refine ⟨hI, fun b hb => hP b ?_⟩
      cases hb
      rfl
    | error e => exact ⟨hI, nofun⟩

theorem zoom {τ : Type} {part : τ → σ} {replace : σ → τ → τ} {I : τ → Prop} {m : Run ε σ α}
    (hreplace : ∀ s t, I t → I (replace s t)) : Keeps I (fun _ => True) (Run.zoom part replace m) :=
  fun t ht => ⟨hreplace _ t ht, fun _ _ => trivial⟩

/-- Reading the state: the continuation may look at it. -/
theorem get_bind {f : σ → Run ε σ β} (h : ∀ s, Keeps I P' (f s)) :
    Keeps I P' (Run.get >>= f) :=
  fun s hs => h s s hs

theorem modify {f : σ → σ} {P : Unit → Prop} (hstep : ∀ s, I s → I (f s)) (h : P ()) :
    Keeps I P (Run.modify f : Run ε σ Unit) :=
  fun s hs => ⟨hstep s hs, fun _ _ => h⟩

theorem forEach {f : β → Run ε σ Unit} (xs : List β)
    (h : ∀ x ∈ xs, Keeps I (fun _ => True) (f x)) :
    Keeps I (fun _ => True) (Run.forEach f xs) := by
  induction xs with
  | nil => exact pure trivial
  | cons x xs ih =>
    exact bind (h x List.mem_cons_self) fun _ _ => ih fun y hy => h y (List.mem_cons_of_mem x hy)

theorem foldM {f : α → β → Run ε σ α} (xs : List β)
    (h : ∀ acc, P acc → ∀ x ∈ xs, Keeps I P (f acc x)) {acc : α} (hacc : P acc) :
    Keeps I P (Run.foldM f acc xs) := by
  induction xs generalizing acc with
  | nil => exact pure hacc
  | cons x xs ih =>
    refine bind (h acc hacc x List.mem_cons_self) fun acc' hacc' => ?_
    exact ih (fun acc hacc y hy => h acc hacc y (List.mem_cons_of_mem x hy)) hacc'

end Keeps

/-! ## Two computations side by side -/

/-- Both outcomes are results that `q` relates, or both are failures that `e` relates. -/
inductive Agree {ε' β : Type} (e : ε → ε' → Prop) (q : α → β → Prop) :
    Except ε α → Except ε' β → Prop
  | ok {a : α} {b : β} (h : q a b) : Agree e q (.ok a) (.ok b)
  | error {x : ε} {y : ε'} (h : e x y) : Agree e q (.error x) (.error y)

/-- From related states the two computations end in outcomes that agree and in
related states. -/
def Sim {ε' τ β : Type} (r : σ → τ → Prop) (e : ε → ε' → Prop) (q : α → β → Prop)
    (m : Run ε σ α) (m' : Run ε' τ β) : Prop :=
  ∀ s t, r s t → Agree e q (m s).1 (m' t).1 ∧ r (m s).2 (m' t).2

namespace Sim

variable {ε' τ α' β' : Type} {r : σ → τ → Prop} {e : ε → ε' → Prop} {q : α → α' → Prop}

theorem pure {a : α} {a' : α'} (h : q a a') :
    Sim r e q (Pure.pure a) (Pure.pure a' : Run ε' τ α') :=
  fun _ _ hr => ⟨.ok h, hr⟩

theorem fail {x : ε} {y : ε'} (h : e x y) :
    Sim r e q (Run.fail x : Run ε σ α) (Run.fail y : Run ε' τ α') :=
  fun _ _ hr => ⟨.error h, hr⟩

theorem modify {f : σ → σ} {g : τ → τ} (h : ∀ s t, r s t → r (f s) (g t)) :
    Sim r e Eq (Run.modify f) (Run.modify g) :=
  fun s t hr => ⟨.ok rfl, h s t hr⟩

/-- Reading both states: the continuations know that they are related. -/
theorem get_bind {f : σ → Run ε σ α} {g : τ → Run ε' τ α'}
    (h : ∀ s t, r s t → Sim r e q (f s) (g t)) :
    Sim r e q (Run.get >>= f) (Run.get >>= g) :=
  fun s t hr => h s t hr s t hr

theorem bind {q' : β → β' → Prop} {m : Run ε σ α} {m' : Run ε' τ α'} {f : α → Run ε σ β}
    {g : α' → Run ε' τ β'} (hm : Sim r e q m m')
    (hf : ∀ a a', q a a' → Sim r e q' (f a) (g a')) :
    Sim r e q' (m >>= f) (m' >>= g) := by
  intro s t hr
  obtain ⟨hagree, hr'⟩ := hm s t hr
  rw [bind_apply, bind_apply]
  cases hs : m s with
  | mk x s' =>
      cases ht : m' t with
      | mk y t' =>
          rw [hs, ht] at hagree hr'
          cases hagree with
          | ok h => exact hf _ _ h s' t' hr'
          | error h => exact ⟨.error h, hr'⟩

theorem recover {m : Run ε σ α} {m' : Run ε' τ α'} {f : ε → Run ε σ α} {g : ε' → Run ε' τ α'}
    (hm : Sim r e q m m') (hf : ∀ x y, e x y → Sim r e q (f x) (g y)) :
    Sim r e q (Run.recover m f) (Run.recover m' g) := by
  intro s t hr
  obtain ⟨hagree, hr'⟩ := hm s t hr
  unfold Run.recover
  cases hs : m s with
  | mk x s' =>
      cases ht : m' t with
      | mk y t' =>
          rw [hs, ht] at hagree hr'
          cases hagree with
          | ok h => exact ⟨.ok h, hr'⟩
          | error h => exact hf _ _ h s' t' hr'

theorem forEach {f : β → Run ε σ Unit} {g : β → Run ε' τ Unit} (xs : List β)
    (h : ∀ x ∈ xs, Sim r e Eq (f x) (g x)) :
    Sim r e Eq (Run.forEach f xs) (Run.forEach g xs) := by
  induction xs with
  | nil => exact pure rfl
  | cons x xs ih =>
      exact bind (h x List.mem_cons_self) fun _ _ _ =>
        ih fun y hy => h y (List.mem_cons_of_mem x hy)

theorem foldM {f : α → β → Run ε σ α} {g : α' → β → Run ε' τ α'} (xs : List β)
    (h : ∀ a a', ∀ x ∈ xs, q a a' → Sim r e q (f a x) (g a' x)) {a : α} {a' : α'}
    (ha : q a a') : Sim r e q (Run.foldM f a xs) (Run.foldM g a' xs) := by
  induction xs generalizing a a' with
  | nil => exact pure ha
  | cons x xs ih =>
      exact bind (h a a' x List.mem_cons_self ha) fun b b' hb =>
        ih (fun a a' y hy => h a a' y (List.mem_cons_of_mem x hy)) hb

end Sim
end Run
end Bpm
