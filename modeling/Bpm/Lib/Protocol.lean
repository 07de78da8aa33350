import Mathlib

/-!
# Protocols as labelled transition systems

Parties take steps in any order.  A run may be confined to the steps that a
condition on the state before the step allows; what holds initially and is kept
by every allowed step holds in every state of such a run.

A client is one party on its own: it sends something in each of its states until it
is done, and an answer takes it to the next state.
-/

namespace Bpm

/-- Initial states and labelled steps. -/
structure Protocol (σ α : Type) where
  init : σ → Prop
  step : σ → α → σ → Prop

namespace Protocol

variable {σ α : Type} {p : Protocol σ α} {allowed : σ → α → Prop}

/-- The states of the runs whose steps are all allowed. -/
inductive Reaches (p : Protocol σ α) (allowed : σ → α → Prop) : σ → Prop
  | start {s : σ} (h : p.init s) : Reaches p allowed s
  | next {s s' : σ} {a : α} (h : Reaches p allowed s) (ha : allowed s a) (hstep : p.step s a s') :
      Reaches p allowed s'

/-- The states of all runs. -/
def Reachable (p : Protocol σ α) : σ → Prop := Reaches p fun _ _ => True

theorem Reachable.start {s : σ} (h : p.init s) : Reachable p s := Reaches.start h

theorem Reachable.next {s s' : σ} {a : α} (h : Reachable p s) (hstep : p.step s a s') :
    Reachable p s' :=
  Reaches.next h trivial hstep

theorem Reachable.run {s s' : σ} (h : Reachable p s)
    (hrun : Relation.ReflTransGen (fun s s' => ∃ a, p.step s a s') s s') : Reachable p s' := by
  induction hrun with
  | refl => exact h
  | tail _ hstep ih =>
    obtain ⟨a, hstep⟩ := hstep
    exact ih.next hstep

theorem Reaches.invariant {I : σ → Prop} (hinit : ∀ s, p.init s → I s)
    (hkeep : ∀ s a s', I s → allowed s a → p.step s a s' → I s') {s : σ}
    (h : Reaches p allowed s) : I s := by
  induction h with
  | start h => exact hinit _ h
  | next _ ha hstep ih => exact hkeep _ _ _ ih ha hstep

end Protocol

/-- Where an answer leads to. -/
inductive Turn (ω σ : Type)
  | done (outcome : ω)
  | goto (state : σ)

/-- A party that sends and waits for the answer, state after state. -/
structure Client (σ α ω : Type) where
  /-- What it ends with instead of sending. -/
  ends : σ → Option ω
  answered : σ → α → Turn ω σ

namespace Client

variable {σ α ω : Type} (c : Client σ α ω)

/-- The states in which the client sends, as long as there are answers, and what it
ends with. -/
def exchange : σ → List α → List σ × Option ω
  | s, answers =>
      match c.ends s with
      | some outcome => ([], some outcome)
      | none =>
          match answers with
          | [] => ([s], none)
          | answer :: rest =>
              match c.answered s answer with
              | .done outcome => ([s], some outcome)
              | .goto s' => (s :: (exchange s' rest).1, (exchange s' rest).2)

def sends (s : σ) (answers : List α) : List σ := (c.exchange s answers).1

variable {c}

/-- What every answer keeps holds whenever the client sends. -/
theorem sends_invariant {I : σ → Prop}
    (hkeep : ∀ s a s', I s → c.ends s = none → c.answered s a = .goto s' → I s') {s : σ}
    (hs : I s) {answers : List α} : ∀ t ∈ c.sends s answers, I t ∧ c.ends t = none := by
  intro t ht
  unfold sends at ht
  induction answers generalizing s with
  | nil =>
      unfold exchange at ht
      cases hends : c.ends s with
      | some outcome => simp [hends] at ht
      | none =>
          rw [hends] at ht
          obtain rfl := List.mem_singleton.mp ht
          exact ⟨hs, hends⟩
  | cons answer rest ih =>
      unfold exchange at ht
      cases hends : c.ends s with
      | some outcome => simp [hends] at ht
      | none =>
          simp only [hends] at ht
          cases hanswered : c.answered s answer with
          | done outcome =>
              simp only [hanswered] at ht
              obtain rfl := List.mem_singleton.mp ht
              exact ⟨hs, hends⟩
          | goto s' =>
              simp only [hanswered] at ht
              rcases List.mem_cons.mp ht with rfl | ht
              · exact ⟨hs, hends⟩
              · exact ih (hkeep s answer s' hs hends hanswered) ht

end Client
end Bpm
