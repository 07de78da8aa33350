import Bpm.Lib.OrdMap
import Bpm.Lib.Protocol

/-!
# The packument single flight

Tasks that ask for one key share one fetch.  The first caller registers an entry
and produces; later callers find the entry and wait on its channel.  Every task
may be cancelled at an await point.  An entry holds the sending half of its
channel, and the map and every task that holds the entry keep it alive.
-/

namespace Bpm
namespace SingleFlight

abbrev Task := Nat

abbrev EntryId := Nat

variable {κ ρ : Type}

inductive FetchState (ρ : Type)
  | pending
  | done (result : Except Str ρ)

/-- Where a task stands; each constructor but the outer ones is an await point. -/
inductive Pc (κ ρ : Type)
  | idle
  -- about to lock the map of entries
  | calling (key : κ)
  -- the producer: fetching, then locking the cache, then locking the map
  | fetching (key : κ) (entry : EntryId)
  | storing (key : κ) (entry : EntryId) (packument : ρ)
  | releasing (key : κ) (entry : EntryId) (result : Except Str ρ)
  -- a waiter, and what it does once the channel is closed
  | waiting (key : κ) (entry : EntryId)
  | fallback (key : κ) (entry : EntryId)
  | refetching (key : κ) (entry : EntryId)
  | restoring (key : κ) (entry : EntryId) (packument : ρ)
  | returned (result : Except Str ρ)
  | cancelled

namespace Pc

/-- The entry that a task keeps alive. -/
def holds : Pc κ ρ → Option EntryId
  | fetching _ e | storing _ e _ | releasing _ e _ | waiting _ e | fallback _ e
  | refetching _ e | restoring _ e _ => some e
  | _ => none

/-- The key and entry of a producer that has not published. -/
def produces : Pc κ ρ → Option (κ × EntryId)
  | fetching k e | storing k e _ => some (k, e)
  | _ => none

/-- Whether a task is inside a call. -/
def active : Pc κ ρ → Bool
  | idle | returned _ | cancelled => false
  | _ => true

end Pc

structure State (κ ρ : Type) where
  inFlight : κ → Option EntryId
  entry : EntryId → FetchState ρ
  fresh : EntryId
  cache : κ → Option ρ
  task : Task → Pc κ ρ

namespace State

def setTask (s : State κ ρ) (t : Task) (pc : Pc κ ρ) : State κ ρ :=
  { s with task := Function.update s.task t pc }

/-- Drive an entry to its result. -/
def send (s : State κ ρ) (e : EntryId) (result : Except Str ρ) : State κ ρ :=
  { s with entry := Function.update s.entry e (.done result) }

def remove [DecidableEq κ] (s : State κ ρ) (key : κ) : State κ ρ :=
  { s with inFlight := Function.update s.inFlight key none }

/-- Fill a cache slot that is still empty. -/
def store [DecidableEq κ] (s : State κ ρ) (key : κ) (packument : ρ) : State κ ρ :=
  { s with cache := Function.update s.cache key ((s.cache key).or (some packument)) }

def register [DecidableEq κ] (s : State κ ρ) (t : Task) (key : κ) : State κ ρ :=
  { s with
    inFlight := Function.update s.inFlight key (some s.fresh)
    entry := Function.update s.entry s.fresh .pending
    fresh := s.fresh + 1
    task := Function.update s.task t (.fetching key s.fresh) }

/-- The sending half is alive: the map or some task holds the entry. -/
def SenderAlive (s : State κ ρ) (e : EntryId) : Prop :=
  (∃ key, s.inFlight key = some e) ∨ ∃ t, (s.task t).holds = some e

theorem task_setTask (s : State κ ρ) (t t' : Task) (pc : Pc κ ρ) :
    (s.setTask t pc).task t' = if t' = t then pc else s.task t' := by
  simp [setTask, Function.update_apply]

theorem task_register_self [DecidableEq κ] (s : State κ ρ) (t : Task) (key : κ) :
    (s.register t key).task t = .fetching key s.fresh :=
  Function.update_self ..

theorem entry_send (s : State κ ρ) (e e' : EntryId) (r : Except Str ρ) :
    (s.send e r).entry e' = if e' = e then .done r else s.entry e' := by
  simp [send, Function.update_apply]

/-- A waiter holds the sending half of the channel it waits on. -/
theorem senderAlive_of_waiting {s : State κ ρ} {t : Task} {key : κ} {e : EntryId}
    (h : s.task t = .waiting key e) : s.SenderAlive e :=
  Or.inr ⟨t, by rw [h]; rfl⟩

end State

inductive Action (κ ρ : Type)
  | call (t : Task) (key : κ)
  | register (t : Task)
  | join (t : Task)
  | fetched (t : Task) (result : Except Str ρ)
  | store (t : Task)
  | release (t : Task)
  | observe (t : Task)
  | closed (t : Task)
  | unregister (t : Task)
  | refetched (t : Task) (result : Except Str ρ)
  | restore (t : Task)
  | cancel (t : Task)

/-- The task that takes the step. -/
def Action.task : Action κ ρ → Task
  | call t _ | register t | join t | fetched t _ | store t | release t | observe t | closed t
  | unregister t | refetched t _ | restore t | cancel t => t

variable [DecidableEq κ]

/-- One task runs from an await point to the next. -/
inductive Step : State κ ρ → Action κ ρ → State κ ρ → Prop
  | call {s t key} : (s.task t).active = false →
      Step s (.call t key) (s.setTask t (.calling key))
  | register {s t key} : s.task t = .calling key → s.inFlight key = none →
      Step s (.register t) (s.register t key)
  | joinDone {s t key e r} : s.task t = .calling key → s.inFlight key = some e →
      s.entry e = .done r → Step s (.join t) (s.setTask t (.returned r))
  | joinPending {s t key e} : s.task t = .calling key → s.inFlight key = some e →
      s.entry e = .pending → Step s (.join t) (s.setTask t (.waiting key e))
  | fetchedOk {s t key e p} : s.task t = .fetching key e →
      Step s (.fetched t (.ok p)) (s.setTask t (.storing key e p))
  | fetchedError {s t key e m} : s.task t = .fetching key e →
      Step s (.fetched t (.error m))
        ((s.send e (.error m)).setTask t (.releasing key e (.error m)))
  | store {s t key e p} : s.task t = .storing key e p →
      Step s (.store t)
        (((s.store key p).send e (.ok p)).setTask t (.releasing key e (.ok p)))
  | release {s t key e r} : s.task t = .releasing key e r →
      Step s (.release t) ((s.remove key).setTask t (.returned r))
  | observe {s t key e r} : s.task t = .waiting key e → s.entry e = .done r →
      Step s (.observe t) (s.setTask t (.returned r))
  | closed {s t key e} : s.task t = .waiting key e → s.entry e = .pending →
      ¬s.SenderAlive e → Step s (.closed t) (s.setTask t (.fallback key e))
  | unregister {s t key e} : s.task t = .fallback key e →
      Step s (.unregister t) ((s.remove key).setTask t (.refetching key e))
  | refetchedOk {s t key e p} : s.task t = .refetching key e →
      Step s (.refetched t (.ok p)) (s.setTask t (.restoring key e p))
  | refetchedError {s t key e m} : s.task t = .refetching key e →
      Step s (.refetched t (.error m)) (s.setTask t (.returned (.error m)))
  | restore {s t key e p} : s.task t = .restoring key e p →
      Step s (.restore t) ((s.store key p).setTask t (.returned (.ok p)))
  | cancel {s t} : (s.task t).active = true → Step s (.cancel t) (s.setTask t .cancelled)

/-- No entries, an empty cache and idle tasks. -/
def initial : State κ ρ := ⟨fun _ => none, fun _ => .pending, 0, fun _ => none, fun _ => .idle⟩

def protocol (κ ρ : Type) [DecidableEq κ] : Protocol (State κ ρ) (Action κ ρ) where
  init s := s = initial
  step := Step

/-! ## What a step can do -/

section Steps

variable {s s' : State κ ρ} {a : Action κ ρ}

theorem task_of_ne (h : Step s a s') {t : Task} (ht : t ≠ a.task) : s'.task t = s.task t := by
  cases h <;> exact Function.update_of_ne ht _ _

/-- A result stays. -/
theorem entry_done (h : Step s a s') {e : EntryId} (he : e < s.fresh)
    (hdone : ∃ r, s.entry e = .done r) : ∃ r, s'.entry e = .done r := by
  obtain ⟨r, hr⟩ := hdone
  have hsend : ∀ e' r', ∃ r'', (s.send e' r').entry e = .done r'' := by
    intro e' r'
    rw [State.entry_send]
    split
    · exact ⟨r', rfl⟩
    · exact ⟨r, hr⟩
  cases h with
  | register =>
      refine ⟨r, ?_⟩
      simp only [State.register]
      rwa [Function.update_of_ne (Nat.ne_of_lt he)]
  | fetchedError => exact hsend _ _
  | store => exact hsend _ _
  | _ => exact ⟨r, hr⟩

/-- No producer is cancelled between registering its entry and publishing. -/
def Published (s : State κ ρ) (a : Action κ ρ) : Prop :=
  ∀ t, a = .cancel t → (s.task t).produces = none

/-- A producer goes on producing until its entry has a result. -/
theorem produces_step (hpublished : Published s a) (h : Step s a s') {key : κ} {e : EntryId}
    (hproduces : (s.task a.task).produces = some (key, e)) :
    (s'.task a.task).produces = some (key, e) ∨ ∃ r, s'.entry e = .done r := by
  cases h with
  | call hidle =>
      rename_i t _
      cases hpc : s.task t <;> simp_all [Action.task, Pc.active, Pc.produces]
  | cancel =>
      rw [Action.task, hpublished _ rfl] at hproduces
      cases hproduces
  | fetchedOk hpc =>
      left
      rw [Action.task, hpc] at hproduces
      rw [Action.task, State.task_setTask, if_pos rfl]
      exact hproduces
  | fetchedError hpc =>
      right
      rw [Action.task, hpc] at hproduces
      cases hproduces
      exact ⟨_, by rw [show (State.setTask _ _ _).entry = (s.send e _).entry from rfl,
        State.entry_send, if_pos rfl]⟩
  | store hpc =>
      right
      rw [Action.task, hpc] at hproduces
      cases hproduces
      exact ⟨_, by rw [show (State.setTask _ _ _).entry = (State.send _ e _).entry from rfl,
        State.entry_send, if_pos rfl]⟩
  | _ => simp_all [Action.task, Pc.produces]

/-- The entry has its result, or a task that produces it is under way. -/
def Live (s : State κ ρ) (key : κ) (e : EntryId) : Prop :=
  (∃ r, s.entry e = .done r) ∨ ∃ t, (s.task t).produces = some (key, e)

theorem live_step (hpublished : Published s a) (h : Step s a s') {key : κ} {e : EntryId}
    (he : e < s.fresh) (hlive : Live s key e) : Live s' key e := by
  rcases hlive with hdone | ⟨t, ht⟩
  · exact Or.inl (entry_done h he hdone)
  · by_cases hactor : t = a.task
    · subst hactor
      exact (produces_step hpublished h ht).symm.imp_right fun hp => ⟨_, hp⟩
    · refine Or.inr ⟨t, ?_⟩
      rw [task_of_ne h hactor]
      exact ht

/-- Entry numbers only grow. -/
theorem fresh_le (h : Step s a s') : s.fresh ≤ s'.fresh := by
  cases h with
  | register => exact Nat.le_succ _
  | _ => exact Nat.le_refl _

/-- An entry in the map was there before, or was just registered. -/
theorem inFlight_step (h : Step s a s') {key : κ} {e : EntryId}
    (hmap : s'.inFlight key = some e) :
    s.inFlight key = some e ∨
      (e = s.fresh ∧ s'.fresh = s.fresh + 1 ∧ (s'.task a.task).produces = some (key, e)) := by
  have hremove : ∀ {k : κ}, (s.remove k).inFlight key = some e → s.inFlight key = some e := by
    intro k hk
    simp only [State.remove, Function.update_apply] at hk
    split at hk
    · cases hk
    · exact hk
  cases h with
  | register =>
      simp only [State.register, Function.update_apply] at hmap
      split at hmap
      · rename_i hkey
        cases hmap
        refine Or.inr ⟨rfl, rfl, ?_⟩
        rw [Action.task, State.task_register_self, hkey]
        rfl
      · exact Or.inl hmap
  | release => exact Or.inl (hremove hmap)
  | unregister => exact Or.inl (hremove hmap)
  | _ => exact Or.inl hmap

/-- A task waits on what it waited on, or has just found a pending entry in the map. -/
theorem waiting_step (h : Step s a s') {t : Task} {key : κ} {e : EntryId}
    (hwait : s'.task t = .waiting key e) :
    s.task t = .waiting key e ∨ s.inFlight key = some e := by
  by_cases ht : t = a.task
  · subst ht
    cases h with
    | joinPending _ hmap =>
        rw [Action.task, State.task_setTask, if_pos rfl] at hwait
        cases hwait
        exact Or.inr hmap
    | register =>
        rw [Action.task, State.task_register_self] at hwait
        cases hwait
    | _ =>
        rw [Action.task, State.task_setTask, if_pos rfl] at hwait
        cases hwait
  · rw [task_of_ne h ht] at hwait
    exact Or.inl hwait

/-- A task on the way back from a closed channel. -/
def Pc.recovers : Pc κ ρ → Bool
  | .fallback .. | .refetching .. | .restoring .. => true
  | _ => false

/-- The channel of a waiter is never closed, so nobody falls back. -/
theorem recovers_step (hrecovers : ∀ t, (s.task t).recovers = false) (h : Step s a s') (t : Task) :
    (s'.task t).recovers = false := by
  by_cases ht : t = a.task
  · subst ht
    cases h with
    | closed hwait _ hdead => exact absurd (State.senderAlive_of_waiting hwait) hdead
    | unregister hpc =>
        have hold := congrArg Pc.recovers hpc
        rw [hrecovers] at hold
        cases hold
    | refetchedOk hpc =>
        have hold := congrArg Pc.recovers hpc
        rw [hrecovers] at hold
        cases hold
    | register =>
        rw [Action.task, State.task_register_self]
        rfl
    | _ =>
        rw [Action.task, State.task_setTask, if_pos rfl]
        rfl
  · rw [task_of_ne h ht]
    exact hrecovers t

end Steps

/-! ## Whole runs -/

/-- Every entry in the map and every entry waited on is live. -/
structure Inv (s : State κ ρ) : Prop where
  mapped : ∀ {key e}, s.inFlight key = some e → e < s.fresh ∧ Live s key e
  waiting : ∀ {t key e}, s.task t = .waiting key e → e < s.fresh ∧ Live s key e
  recovers : ∀ t, (s.task t).recovers = false

omit [DecidableEq κ] in
theorem inv_initial : Inv (initial : State κ ρ) where
  mapped h := by cases h
  waiting h := by cases h
  recovers _ := rfl

theorem inv_step {s s' : State κ ρ} {a : Action κ ρ} (hinv : Inv s) (hpublished : Published s a)
    (h : Step s a s') : Inv s' where
  mapped hmap := by
    rcases inFlight_step h hmap with hmap | ⟨rfl, hfresh, hproduces⟩
    · obtain ⟨he, hlive⟩ := hinv.mapped hmap
      exact ⟨he.trans_le (fresh_le h), live_step hpublished h he hlive⟩
    · exact ⟨hfresh ▸ Nat.lt_succ_self _, Or.inr ⟨_, hproduces⟩⟩
  waiting hwait := by
    obtain ⟨he, hlive⟩ := (waiting_step h hwait).elim hinv.waiting hinv.mapped
    exact ⟨he.trans_le (fresh_le h), live_step hpublished h he hlive⟩
  recovers := recovers_step hinv.recovers h

/-- A waiter can go on: its entry has a result, or its channel is closed. -/
def CanProceed (s : State κ ρ) (t : Task) : Prop :=
  (∃ s', Step s (.observe t) s') ∨ ∃ s', Step s (.closed t) s'

/-- Every waiter can go on or has a live producer, and a fallback removes no entry of a
live producer. -/
structure NoLostWaiter (s : State κ ρ) : Prop where
  waiters : ∀ {t key e}, s.task t = .waiting key e →
    CanProceed s t ∨ ∃ t', (s.task t').produces = some (key, e)
  fallbacks : ∀ {t key e}, s.task t = .fallback key e → ∀ {e'}, s.inFlight key = some e' →
    ∀ t', (s.task t').produces ≠ some (key, e')

/-- In every run in which no producer is cancelled before it publishes, no waiter is lost. -/
theorem no_lost_waiter {s : State κ ρ} (h : (protocol κ ρ).Reaches Published s) :
    NoLostWaiter s := by
  have hinv : Inv s := h.invariant (fun s hs => hs ▸ inv_initial)
    fun s a s' hinv hpublished hstep => inv_step hinv hpublished hstep
  refine ⟨fun hwait => ?_, fun hfallback => ?_⟩
  · rcases (hinv.waiting hwait).2 with ⟨r, hr⟩ | hproducer
    · exact Or.inl (Or.inl ⟨_, .observe hwait hr⟩)
    · exact Or.inr hproducer
  · have hold := congrArg Pc.recovers hfallback
    rw [hinv.recovers] at hold
    cases hold

/-- Task 0 produces for a key that task 1 waits for. -/
def joined (key : Str) : State Str Str :=
  (((initial.setTask 0 (.calling key)).register 0 key).setTask 1 (.calling key)).setTask 1
    (.waiting key 0)

theorem joined_reaches {allowed : State Str Str → Action Str Str → Prop} (key : Str)
    (hallowed : ∀ s a, (∀ t, a ≠ .cancel t) → allowed s a) :
    (protocol Str Str).Reaches allowed (joined key) := by
  refine .next (a := .join 1) (.next (a := .call 1 key) (.next (a := .register 0)
    (.next (a := .call 0 key) (.start rfl) (hallowed _ _ nofun) (.call rfl))
    (hallowed _ _ nofun) (.register ?_ rfl)) (hallowed _ _ nofun) (.call ?_))
    (hallowed _ _ nofun) (.joinPending ?_ ?_ ?_)
  · rfl
  · rfl
  · rfl
  · exact Function.update_self ..
  · rfl

theorem no_lost_waiter_joined : NoLostWaiter (joined []) :=
  no_lost_waiter (joined_reaches [] fun _ _ ha t hcancel => absurd hcancel (ha t))

/-- Task 0 is cancelled while it fetches; task 1 waits on its entry for ever. -/
theorem lost_waiter :
    (protocol Str Str).Reachable ((joined []).setTask 0 .cancelled) ∧
      ¬NoLostWaiter ((joined []).setTask 0 .cancelled) := by
  refine ⟨.next (joined_reaches [] fun _ _ _ => trivial) (.cancel (t := 0) rfl), fun h => ?_⟩
  have hwait : ((joined []).setTask 0 .cancelled).task 1 = .waiting [] 0 := rfl
  rcases h.waiters hwait with (⟨s', hobserve⟩ | ⟨s', hclosed⟩) | ⟨t', hproduces⟩
  · cases hobserve with
    | observe hpc hdone =>
        rw [hwait] at hpc
        cases hpc
        cases hdone
  · cases hclosed with
    | closed hpc _ hdead => exact hdead (State.senderAlive_of_waiting hpc)
  · rw [State.task_setTask] at hproduces
    split at hproduces
    · cases hproduces
    · rename_i ht'
      by_cases ht : t' = 1
      · subst ht
        cases hproduces
      · have hidle : (joined []).task t' = .idle := by
          simp [joined, State.setTask, State.register, ht, ht', initial]
        rw [hidle] at hproduces
        cases hproduces

end SingleFlight
end Bpm
