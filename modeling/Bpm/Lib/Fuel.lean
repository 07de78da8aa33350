import Bpm.Lib.Run

/-!
# Computations with fuel

A computation that takes fuel fails with `stop` when it runs out of it.  It settles at an
outcome if it comes to that outcome with enough fuel, and with less fuel either stops or
comes to the same one; it is endless if it stops with any fuel.  Both are closed under
sequencing and under spending one unit of fuel.  A loop whose rounds each end does so as
well, and it ends as its rounds say.
-/

namespace Bpm
namespace Fuel

variable {ε α β : Type} {stop : ε}

/-- With enough fuel the outcome is `r`. -/
structure Settles (stop : ε) (f : Nat → Except ε α) (r : Except ε α) : Prop where
  enough : ∃ n, ∀ m, n ≤ m → f m = r
  before : ∀ m, f m = .error stop ∨ f m = r

/-- No fuel is enough. -/
def Endless (stop : ε) (f : Nat → Except ε α) : Prop := ∀ m, f m = .error stop

theorem Settles.const (r : Except ε α) : Settles stop (fun _ => r) r :=
  ⟨⟨0, fun _ _ => rfl⟩, fun _ => .inr rfl⟩

/-- There is one outcome. -/
theorem Settles.unique {f : Nat → Except ε α} {r r' : Except ε α} (h : Settles stop f r)
    (h' : Settles stop f r') : r = r' := by
  obtain ⟨n, hn⟩ := h.enough
  obtain ⟨n', hn'⟩ := h'.enough
  rw [← hn (max n n') (le_max_left n n'), ← hn' (max n n') (le_max_right n n')]

/-- An outcome that is reached at all is the one that is settled on. -/
theorem Settles.eq {f : Nat → Except ε α} {r : Except ε α} (h : Settles stop f r) {m : Nat}
    (hm : f m ≠ .error stop) : f m = r :=
  (h.before m).resolve_left hm

theorem Settles.reached {f : Nat → Except ε α} {r : Except ε α} (h : Settles stop f r) :
    ∃ m, f m = r := by
  obtain ⟨n, hn⟩ := h.enough
  exact ⟨n, hn n le_rfl⟩

/-- One unit of fuel is spent. -/
theorem Settles.succ {f g : Nat → Except ε α} {r : Except ε α} (h : Settles stop f r)
    (hzero : g 0 = .error stop) (hsucc : ∀ m, g (m + 1) = f m) : Settles stop g r := by
  obtain ⟨n, hn⟩ := h.enough
  refine ⟨⟨n + 1, fun m hm => ?_⟩, fun m => ?_⟩
  · cases m with
    | zero => omega
    | succ m =>
        rw [hsucc]
        exact hn m (by omega)
  · cases m with
    | zero => exact .inl hzero
    | succ m =>
        rw [hsucc]
        exact h.before m

theorem Endless.succ {f g : Nat → Except ε α} (h : Endless stop f) (hzero : g 0 = .error stop)
    (hsucc : ∀ m, g (m + 1) = f m) : Endless stop g := by
  intro m
  cases m with
  | zero => exact hzero
  | succ m =>
      rw [hsucc]
      exact h m

theorem Settles.andThen {f : Nat → Except ε α} {g : Nat → α → Except ε β} {a : α} {r : Except ε β}
    (hf : Settles stop f (.ok a)) (hg : Settles stop (fun m => g m a) r) :
    Settles stop (fun m => f m >>= g m) r := by
  obtain ⟨n, hn⟩ := hf.enough
  obtain ⟨n', hn'⟩ := hg.enough
  refine ⟨⟨max n n', fun m hm => ?_⟩, fun m => ?_⟩
  · simp only [hn m (le_of_max_le_left hm), bind, Except.bind]
    exact hn' m (le_of_max_le_right hm)
  · rcases hf.before m with h | h
    · simp [h, bind, Except.bind]
    · simpa [h, bind, Except.bind] using hg.before m

theorem Settles.andThen_error {f : Nat → Except ε α} {g : Nat → α → Except ε β} {e : ε}
    (hf : Settles stop f (.error e)) : Settles stop (fun m => f m >>= g m) (.error e) := by
  obtain ⟨n, hn⟩ := hf.enough
  refine ⟨⟨n, fun m hm => by simp [hn m hm, bind, Except.bind]⟩, fun m => ?_⟩
  rcases hf.before m with h | h
  · simp [h, bind, Except.bind]
  · simp [h, bind, Except.bind]

theorem Endless.andThen_left {f : Nat → Except ε α} {g : Nat → α → Except ε β}
    (hf : Endless stop f) : Endless stop (fun m => f m >>= g m) := by
  intro m
  simp [hf m, bind, Except.bind]

theorem Endless.andThen_right {f : Nat → Except ε α} {g : Nat → α → Except ε β} {a : α}
    (hf : Settles stop f (.ok a)) (hg : Endless stop (fun m => g m a)) :
    Endless stop (fun m => f m >>= g m) := by
  intro m
  rcases hf.before m with h | h
  · simp [h, bind, Except.bind]
  · simpa [h, bind, Except.bind] using hg m

/-! ## Loops -/

/-- The outcome is a result (`true`) or a failure (`false`), and fuel was left. -/
def Ends (stop : ε) (b : Bool) (r : Except ε α) : Prop := r ≠ .error stop ∧ r.isOk = b

theorem Ends.unique {r : Except ε α} {b b' : Bool} (h : Ends stop b r) (h' : Ends stop b' r) :
    b = b' :=
  h.2.symm.trans h'.2

/-- Fuel that is enough for each of finitely many is enough for all. -/
theorem exists_bound {P : β → Nat → Prop} {xs : List β}
    (h : ∀ x ∈ xs, ∃ n, ∀ m, n ≤ m → P x m) : ∃ n, ∀ m, n ≤ m → ∀ x ∈ xs, P x m := by
  induction xs with
  | nil => exact ⟨0, fun _ _ => nofun⟩
  | cons x xs ih =>
    obtain ⟨n, hn⟩ := h x List.mem_cons_self
    obtain ⟨n', hn'⟩ := ih fun y hy => h y (List.mem_cons_of_mem x hy)
    refine ⟨max n n', fun m hm => List.forall_mem_cons.mpr ⟨?_, ?_⟩⟩
    · exact hn m (le_of_max_le_left hm)
    · exact hn' m (le_of_max_le_right hm)

/-- The rounds of a loop: all of them succeed, or the first that does not ends it. -/
inductive Passes (Q : β → Bool → Prop) : List β → Bool → Prop
  | nil : Passes Q [] true
  | cons {x : β} {xs : List β} {b : Bool} (hx : Q x true) (hxs : Passes Q xs b) :
      Passes Q (x :: xs) b
  | stop {x : β} {xs : List β} (hx : Q x false) : Passes Q (x :: xs) false

theorem passes_true {Q : β → Bool → Prop} {xs : List β} :
    Passes Q xs true ↔ ∀ x ∈ xs, Q x true := by
  constructor
  · intro h
    generalize hb : true = b at h
    induction h with
    | nil => exact nofun
    | cons hx _ ih =>
      subst hb
      exact List.forall_mem_cons.mpr ⟨hx, ih rfl⟩
    | stop => cases hb
  · intro h
    induction xs with
    | nil => exact .nil
    | cons x xs ih =>
      obtain ⟨hx, hxs⟩ := List.forall_mem_cons.mp h
      exact .cons hx (ih hxs)

theorem passes_false {Q : β → Bool → Prop} {xs : List β} :
    Passes Q xs false ↔ ∃ before x after, xs = before ++ x :: after ∧
      (∀ y ∈ before, Q y true) ∧ Q x false := by
  constructor
  · intro h
    generalize hb : false = b at h
    induction h with
    | nil => cases hb
    | @cons x xs b hx _ ih =>
      obtain ⟨before, y, after, rfl, hbefore, hy⟩ := ih hb
      exact ⟨x :: before, y, after, rfl, List.forall_mem_cons.mpr ⟨hx, hbefore⟩, hy⟩
    | @stop x xs hx => exact ⟨[], x, xs, rfl, nofun, hx⟩
  · rintro ⟨before, x, after, rfl, hbefore, hx⟩
    induction before with
    | nil => exact .stop hx
    | cons y before ih =>
      obtain ⟨hy, hrest⟩ := List.forall_mem_cons.mp hbefore
      exact .cons hy (ih hrest)

theorem passes_map {γ : Type} {Q : β → Bool → Prop} (f : γ → β) {xs : List γ} {b : Bool} :
    Passes Q (xs.map f) b ↔ Passes (fun x => Q (f x)) xs b := by
  induction xs with
  | nil =>
    constructor <;> intro h <;> cases h <;> exact .nil
  | cons x xs ih =>
    constructor
    · intro h
      cases h with
      | cons hx hxs => exact .cons hx (ih.mp hxs)
      | stop hx => exact .stop hx
    · intro h
      cases h with
      | cons hx hxs => exact .cons hx (ih.mpr hxs)
      | stop hx => exact .stop hx

/-- A round that comes after rounds that succeed has been made. -/
theorem Passes.reached {Q : β → Bool → Prop} (hunique : ∀ x, Q x true → ¬Q x false) {xs : List β}
    {b : Bool} (h : Passes Q xs b) {before after : List β} {x : β}
    (hsplit : xs = before ++ x :: after) (hbefore : ∀ y ∈ before, Q y true) : ∃ b', Q x b' := by
  induction h generalizing before with
  | nil => simp at hsplit
  | @cons y ys b hy _ ih =>
    cases before with
    | nil =>
      cases hsplit
      exact ⟨true, hy⟩
    | cons z before =>
      cases hsplit
      exact ih rfl fun z hz => hbefore z (List.mem_cons_of_mem _ hz)
  | @stop y ys hy =>
    cases before with
    | nil =>
      cases hsplit
      exact ⟨false, hy⟩
    | cons z before =>
      cases hsplit
      exact absurd hy (hunique _ (hbefore _ List.mem_cons_self))

/-- Either all elements of a list have a property, or there is a first one without it. -/
theorem forall_or_first (P : β → Prop) (xs : List β) :
    (∀ x ∈ xs, P x) ∨ ∃ before x after, xs = before ++ x :: after ∧ (∀ y ∈ before, P y) ∧ ¬P x := by
  induction xs with
  | nil => exact .inl nofun
  | cons x xs ih =>
    by_cases hx : P x
    · rcases ih with hall | ⟨before, y, after, rfl, hbefore, hy⟩
      · exact .inl (List.forall_mem_cons.mpr ⟨hx, hall⟩)
      · exact .inr ⟨x :: before, y, after, rfl, List.forall_mem_cons.mpr ⟨hx, hbefore⟩, hy⟩
    · exact .inr ⟨[], x, xs, rfl, nofun, hx⟩

section Loop

variable {σ : Type} {body : α → β → Run ε σ α} {I : List β → σ → Prop}

/-- An invariant of the rounds that are left, as long as rounds succeed. -/
def KeepsRest (I : List β → σ → Prop) (body : α → β → Run ε σ α) : Prop :=
  ∀ acc x rest s acc' s', I (x :: rest) s → body acc x s = (.ok acc', s') → I rest s'

theorem ends_bind_pure {β : Type} (m : Run ε σ α) (g : α → β) (b : Bool) (s : σ) :
    Ends stop b ((m >>= fun a => pure (g a)) s).1 ↔ Ends stop b (m s).1 := by
  rw [Run.bind_apply]
  rcases m s with ⟨e | a, s'⟩
  · simp [Ends, Except.isOk, Except.toBool]
  · show Ends stop b (.ok (g a)) ↔ Ends stop b (.ok a)
    simp [Ends, Except.isOk, Except.toBool]

theorem foldM_ends {Q : β → Bool → Prop} (hkeep : KeepsRest I body)
    (hround : ∀ acc x rest s b, I (x :: rest) s → Q x b → Ends stop b (body acc x s).1)
    {xs : List β} {b : Bool} (h : Passes Q xs b) (acc : α) {s : σ} (hI : I xs s) :
    Ends stop b (Run.foldM body acc xs s).1 := by
  induction h generalizing acc s with
  | nil => exact ⟨nofun, rfl⟩
  | @cons x xs b hx _ ih =>
    have hok := hround acc x xs s true hI hx
    rw [Run.foldM]
    rcases hrun : body acc x s with ⟨e | acc', s'⟩
    · rw [hrun] at hok
      cases hok.2
    · rw [Run.bind_ok hrun]
      exact ih acc' (hkeep acc x xs s acc' s' hI hrun)
  | @stop x xs hx =>
    have herror := hround acc x xs s false hI hx
    rw [Run.foldM]
    rcases hrun : body acc x s with ⟨e | acc', s'⟩
    · rw [Run.bind_error hrun]
      rw [hrun] at herror
      exact ⟨fun heq => herror.1 (by cases heq; rfl), rfl⟩
    · rw [hrun] at herror
      cases herror.2

theorem foldM_passes {Q : β → Bool → Prop} (hkeep : KeepsRest I body)
    (hround : ∀ acc x rest s b, I (x :: rest) s → Ends stop b (body acc x s).1 → Q x b)
    {xs : List β} {b : Bool} {acc : α} {s : σ} (hI : I xs s)
    (h : Ends stop b (Run.foldM body acc xs s).1) : Passes Q xs b := by
  induction xs generalizing acc s with
  | nil =>
    cases h.2
    exact .nil
  | cons x xs ih =>
    rw [Run.foldM] at h
    rcases hrun : body acc x s with ⟨e | acc', s'⟩
    · rw [Run.bind_error hrun] at h
      cases h.2
      apply Passes.stop
      apply hround acc x xs s false hI
      rw [hrun]
      exact ⟨fun heq => h.1 (by cases heq; rfl), rfl⟩
    · rw [Run.bind_ok hrun] at h
      have hx : Q x true := by
        apply hround acc x xs s true hI
        rw [hrun]
        exact ⟨(fun heq => by cases heq), rfl⟩
      exact .cons hx (ih (hkeep acc x xs s acc' s' hI hrun) h)

/-- A loop over rounds that all end does so too. -/
theorem foldM_ne_stop (hkeep : KeepsRest I body) {xs : List β}
    (hround : ∀ acc x rest s, x ∈ xs → I (x :: rest) s → (body acc x s).1 ≠ .error stop)
    (acc : α) {s : σ} (hI : I xs s) : (Run.foldM body acc xs s).1 ≠ .error stop := by
  induction xs generalizing acc s with
  | nil => exact nofun
  | cons x xs ih =>
    have hx := hround acc x xs s List.mem_cons_self hI
    rw [Run.foldM]
    rcases hrun : body acc x s with ⟨e | acc', s'⟩
    · rw [Run.bind_error hrun]
      rw [hrun] at hx
      exact fun heq => hx (by cases heq; rfl)
    · rw [Run.bind_ok hrun]
      exact ih (fun acc y rest s hy => hround acc y rest s (List.mem_cons_of_mem x hy)) acc'
        (hkeep acc x xs s acc' s' hI hrun)

end Loop

end Fuel
end Bpm
