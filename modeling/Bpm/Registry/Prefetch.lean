import Bpm.Lib.Text
import Bpm.Lib.Protocol

/-!
# The packument slots and the prefetch pool

Callers of `packument`, enqueuers and prefetch workers share a map of slots.  A
slot is ready or in flight; whoever puts it in flight owns it until the slot is
settled or handed on through the job queue.  The pool belongs to all clones of the
client, so it is dropped with the last of them, when no call is under way.
-/

namespace Bpm
namespace Prefetch

abbrev Thread := Nat

variable {κ ρ : Type}

inductive PackumentEntry (ρ : Type)
  | ready (packument : ρ)
  | inFlight

/-- What follows an `enqueue_prefetch` call: the client's call returns, or a worker goes
on with the other children. -/
inductive After (κ : Type)
  | client
  | worker (rest : List κ)

/-- Where a thread stands between two atomic steps. -/
inductive Pc (κ : Type)
  | idle
  -- `packument`: about to lock the map, in the condition variable, fetching inline
  | calling (key : κ)
  | waiting (key : κ)
  | fetching (key : κ)
  -- `enqueue_prefetch`: about to claim, claimed, with a sender, without one
  | enqueuing (key : κ) (after : After κ)
  | claimed (key : κ) (after : After κ)
  | sending (key : κ) (after : After κ)
  | withdrawing (key : κ) (after : After κ)
  -- a worker: about to receive, fetching, walking over the children, gone
  | receiving
  | running (key : κ)
  | lookahead (children : List κ)
  | exited

namespace Pc

/-- The slot that a thread owns. -/
def owns : Pc κ → Option κ
  | fetching k | claimed k _ | sending k _ | withdrawing k _ | running k => some k
  | _ => none

/-- A thread inside a call on a client. -/
def inCall : Pc κ → Bool
  | calling _ | waiting _ | fetching _ | enqueuing _ .client | claimed _ .client
  | sending _ .client | withdrawing _ .client => true
  | _ => false

/-- A worker that has not left its loop. -/
def works : Pc κ → Bool
  | receiving | running _ | lookahead _ | enqueuing _ (.worker _) | claimed _ (.worker _)
  | sending _ (.worker _) | withdrawing _ (.worker _) => true
  | _ => false

def isSending : Pc κ → Bool
  | sending .. => true
  | _ => false

/-- A waiter that is notified goes back to the lock. -/
def wake : Pc κ → Pc κ
  | waiting k => calling k
  | pc => pc

end Pc

/-- Where a thread goes after an `enqueue_prefetch` call. -/
def After.pc : After κ → Pc κ
  | client => .idle
  | worker rest => .lookahead rest

structure State (κ ρ : Type) where
  slots : κ → Option (PackumentEntry ρ)
  queue : List κ
  started : Bool
  sender : Bool
  clients : Nat
  thread : Thread → Pc κ

namespace State

def setThread (s : State κ ρ) (t : Thread) (pc : Pc κ) : State κ ρ :=
  { s with thread := Function.update s.thread t pc }

def setSlot [DecidableEq κ] (s : State κ ρ) (key : κ) (entry : Option (PackumentEntry ρ)) :
    State κ ρ :=
  { s with slots := Function.update s.slots key entry }

def notifyAll (s : State κ ρ) : State κ ρ := { s with thread := fun t => (s.thread t).wake }

/-- The channel has a receiver as long as a worker runs. -/
def ReceiverAlive (s : State κ ρ) : Prop := ∃ t, (s.thread t).works = true

end State

inductive Action (κ ρ : Type)
  | cloneClient
  | dropClient
  | startPool (workers : List Thread)
  | packument (t : Thread) (key : κ)
  | prefetch (t : Thread) (key : κ)
  | lookup (t : Thread)
  | wake (t : Thread)
  | settle (t : Thread) (result : Option ρ)
  | claim (t : Thread)
  | borrowSender (t : Thread)
  | send (t : Thread)
  | withdraw (t : Thread)
  | receive (t : Thread)
  | finish (t : Thread) (result : Option (ρ × List κ))
  | nextChild (t : Thread)
  | exit (t : Thread)

section Model

variable [DecidableEq κ]

/-- One atomic step on the slots, the queue, the sender or the clients. -/
inductive Step : State κ ρ → Action κ ρ → State κ ρ → Prop
  | cloneClient {s} : 0 < s.clients → Step s .cloneClient { s with clients := s.clients + 1 }
  -- a clone that is not the last
  | dropClient {s} : 1 < s.clients → Step s .dropClient { s with clients := s.clients - 1 }
  -- the last clone: no call borrows it, and the pool takes the sender
  | dropPool {s} : s.clients = 1 → (∀ t, (s.thread t).inCall = false) →
      Step s .dropClient { s with clients := 0, sender := false }
  | startPool {s workers} : 0 < s.clients → s.started = false → workers ≠ [] →
      (∀ t ∈ workers, s.thread t = .idle) →
      Step s (.startPool workers)
        { s with
          started := true
          sender := true
          thread := fun t => if t ∈ workers then .receiving else s.thread t }
  | packument {s t key} : 0 < s.clients → s.thread t = .idle →
      Step s (.packument t key) (s.setThread t (.calling key))
  | prefetch {s t key} : 0 < s.clients → s.started = true → s.thread t = .idle →
      Step s (.prefetch t key) (s.setThread t (.enqueuing key .client))
  | lookupReady {s t key p} : s.thread t = .calling key → s.slots key = some (.ready p) →
      Step s (.lookup t) (s.setThread t .idle)
  | lookupInFlight {s t key} : s.thread t = .calling key → s.slots key = some .inFlight →
      Step s (.lookup t) (s.setThread t (.waiting key))
  | lookupMiss {s t key} : s.thread t = .calling key → s.slots key = none →
      Step s (.lookup t) ((s.setSlot key (some .inFlight)).setThread t (.fetching key))
  -- condition variables may wake without being notified
  | wake {s t key} : s.thread t = .waiting key → Step s (.wake t) (s.setThread t (.calling key))
  | settle {s t key result} : s.thread t = .fetching key →
      Step s (.settle t result)
        ((s.setSlot key (result.map .ready)).setThread t .idle).notifyAll
  | claimTaken {s t key after entry} : s.thread t = .enqueuing key after →
      s.slots key = some entry → Step s (.claim t) (s.setThread t after.pc)
  | claim {s t key after} : s.thread t = .enqueuing key after → s.slots key = none →
      Step s (.claim t) ((s.setSlot key (some .inFlight)).setThread t (.claimed key after))
  | borrow {s t key after} : s.thread t = .claimed key after → s.sender = true →
      Step s (.borrowSender t) (s.setThread t (.sending key after))
  | borrowNone {s t key after} : s.thread t = .claimed key after → s.sender = false →
      Step s (.borrowSender t) (s.setThread t (.withdrawing key after))
  | send {s t key after} : s.thread t = .sending key after → s.ReceiverAlive →
      Step s (.send t) { s.setThread t after.pc with queue := s.queue ++ [key] }
  -- a job sent to nobody is dropped
  | sendLost {s t key after} : s.thread t = .sending key after → ¬s.ReceiverAlive →
      Step s (.send t) (s.setThread t after.pc)
  -- the marker is released without a notification
  | withdraw {s t key after} : s.thread t = .withdrawing key after →
      Step s (.withdraw t) ((s.setSlot key none).setThread t after.pc)
  | receive {s t key rest} : s.thread t = .receiving → s.queue = key :: rest →
      Step s (.receive t) { s.setThread t (.running key) with queue := rest }
  | finishOk {s t key p children} : s.thread t = .running key →
      Step s (.finish t (some (p, children)))
        ((s.setSlot key (some (.ready p))).setThread t (.lookahead children)).notifyAll
  | finishError {s t key} : s.thread t = .running key →
      Step s (.finish t none) ((s.setSlot key none).setThread t .receiving).notifyAll
  | nextChild {s t key rest} : s.thread t = .lookahead (key :: rest) →
      Step s (.nextChild t) (s.setThread t (.enqueuing key (.worker rest)))
  | lastChild {s t} : s.thread t = .lookahead [] → Step s (.nextChild t) (s.setThread t .receiving)
  -- the channel is closed: no sender is left in the slot or with an enqueuer
  | exit {s t} : s.thread t = .receiving → s.queue = [] → s.sender = false →
      (∀ t', (s.thread t').isSending = false) → Step s (.exit t) (s.setThread t .exited)

/-- One client, no slots, no pool. -/
def initial : State κ ρ := ⟨fun _ => none, [], false, false, 1, fun _ => .idle⟩

def protocol (κ ρ : Type) [DecidableEq κ] : Protocol (State κ ρ) (Action κ ρ) where
  init s := s = initial
  step := Step

end Model

/-! ## Ownership of slots -/

section Ownership

variable {own : Thread → Option κ} {slots : κ → Option (PackumentEntry ρ)} {queue : List κ}

/-- Every slot in flight has exactly one owner: a thread, or a place in the queue. -/
structure Owned (own : Thread → Option κ) (slots : κ → Option (PackumentEntry ρ))
    (queue : List κ) : Prop where
  unique : ∀ {t t' key}, own t = some key → own t' = some key → t = t'
  nodup : queue.Nodup
  disjoint : ∀ {t key}, own t = some key → key ∉ queue
  inFlight : ∀ key, slots key = some .inFlight ↔ (∃ t, own t = some key) ∨ key ∈ queue

/-- An empty slot is put in flight by a thread that owns nothing. -/
theorem Owned.claim [DecidableEq κ] (h : Owned own slots queue) {t : Thread} {key : κ} (hown : own t = none)
    (hslot : slots key = none) :
    Owned (Function.update own t (some key)) (Function.update slots key (some .inFlight))
      queue := by
  have hfree : ¬((∃ t, own t = some key) ∨ key ∈ queue) := by
    rw [← h.inFlight key, hslot]
    nofun
  refine ⟨?_, h.nodup, ?_, ?_⟩
  · intro t₁ t₂ k h₁ h₂
    simp only [Function.update_apply] at h₁ h₂
    split at h₁ <;> split at h₂
    · simp_all
    · cases h₁
      exact absurd (Or.inl ⟨_, h₂⟩) hfree
    · cases h₂
      exact absurd (Or.inl ⟨_, h₁⟩) hfree
    · exact h.unique h₁ h₂
  · intro t₁ k h₁
    simp only [Function.update_apply] at h₁
    split at h₁
    · cases h₁
      exact fun hmem => hfree (Or.inr hmem)
    · exact h.disjoint h₁
  · intro k
    by_cases hk : k = key
    · subst hk
      simp only [Function.update_self, true_iff]
      exact Or.inl ⟨t, Function.update_self ..⟩
    · rw [Function.update_of_ne hk, h.inFlight k]
      refine or_congr_left ⟨?_, ?_⟩
      · rintro ⟨t', ht'⟩
        refine ⟨t', ?_⟩
        rw [Function.update_of_ne]
        · exact ht'
        · rintro rfl
          rw [hown] at ht'
          cases ht'
      · rintro ⟨t', ht'⟩
        simp only [Function.update_apply] at ht'
        split at ht'
        · cases ht'
          exact absurd rfl hk
        · exact ⟨t', ht'⟩

/-- A thread gives up what it owns: who owns what afterwards. -/
theorem own_update_none (h : Owned own slots queue) {t : Thread} {key : κ}
    (hown : own t = some key) (k : κ) :
    (∃ t', Function.update own t none t' = some k) ↔ (∃ t', own t' = some k) ∧ k ≠ key := by
  constructor
  · rintro ⟨t', ht'⟩
    simp only [Function.update_apply] at ht'
    split at ht'
    · cases ht'
    · rename_i hne
      refine ⟨⟨t', ht'⟩, ?_⟩
      rintro rfl
      exact hne (h.unique ht' hown)
  · rintro ⟨⟨t', ht'⟩, hk⟩
    refine ⟨t', ?_⟩
    rw [Function.update_of_ne]
    · exact ht'
    · rintro rfl
      rw [hown] at ht'
      exact hk (Option.some.inj ht').symm

theorem unique_update_none (h : Owned own slots queue) (t : Thread) {t₁ t₂ : Thread} {k : κ}
    (h₁ : Function.update own t none t₁ = some k) (h₂ : Function.update own t none t₂ = some k) :
    t₁ = t₂ := by
  simp only [Function.update_apply] at h₁ h₂
  split at h₁
  · cases h₁
  · split at h₂
    · cases h₂
    · exact h.unique h₁ h₂

/-- The owner settles its slot: ready or empty. -/
theorem Owned.settle [DecidableEq κ] (h : Owned own slots queue) {t : Thread} {key : κ} (hown : own t = some key)
    {entry : Option (PackumentEntry ρ)} (hentry : entry ≠ some .inFlight) :
    Owned (Function.update own t none) (Function.update slots key entry) queue := by
  refine ⟨unique_update_none h t, h.nodup, ?_, ?_⟩
  · intro t₁ k h₁
    simp only [Function.update_apply] at h₁
    split at h₁
    · cases h₁
    · exact h.disjoint h₁
  · intro k
    rw [own_update_none h hown]
    by_cases hk : k = key
    · subst hk
      rw [Function.update_self]
      have hqueue := h.disjoint hown
      tauto
    · rw [Function.update_of_ne hk, h.inFlight k]
      tauto

/-- The owner hands its slot to the queue. -/
theorem Owned.send (h : Owned own slots queue) {t : Thread} {key : κ} (hown : own t = some key) :
    Owned (Function.update own t none) slots (queue ++ [key]) := by
  refine ⟨unique_update_none h t, ?_, ?_, ?_⟩
  · rw [List.nodup_append]
    refine ⟨h.nodup, List.nodup_singleton key, fun a ha b hb => ?_⟩
    rw [List.mem_singleton] at hb
    subst hb
    rintro rfl
    exact h.disjoint hown ha
  · intro t₁ k h₁
    have howned := (own_update_none h hown k).mp ⟨t₁, h₁⟩
    obtain ⟨⟨t', ht'⟩, hk⟩ := howned
    rw [List.mem_append, List.mem_singleton]
    exact fun hmem => hmem.elim (h.disjoint ht') hk
  · intro k
    rw [own_update_none h hown, h.inFlight k, List.mem_append, List.mem_singleton]
    constructor
    · rintro (hthread | hmem)
      · by_cases hk : k = key
        · exact Or.inr (Or.inr hk)
        · exact Or.inl ⟨hthread, hk⟩
      · exact Or.inr (Or.inl hmem)
    · rintro (⟨hthread, _⟩ | hmem | rfl)
      · exact Or.inl hthread
      · exact Or.inr hmem
      · exact Or.inl ⟨t, hown⟩

/-- A worker takes over the first slot of the queue. -/
theorem Owned.receive {key : κ} {rest : List κ} (h : Owned own slots (key :: rest)) {t : Thread}
    (hown : own t = none) : Owned (Function.update own t (some key)) slots rest := by
  obtain ⟨hfirst, hrest⟩ := List.nodup_cons.mp h.nodup
  have hfree : ∀ t', own t' ≠ some key := fun t' ht' => h.disjoint ht' List.mem_cons_self
  refine ⟨?_, hrest, ?_, ?_⟩
  · intro t₁ t₂ k h₁ h₂
    simp only [Function.update_apply] at h₁ h₂
    split at h₁ <;> split at h₂
    · simp_all
    · cases h₁
      exact absurd h₂ (hfree _)
    · cases h₂
      exact absurd h₁ (hfree _)
    · exact h.unique h₁ h₂
  · intro t₁ k h₁
    simp only [Function.update_apply] at h₁
    split at h₁
    · cases h₁
      exact hfirst
    · exact fun hmem => h.disjoint h₁ (List.mem_cons_of_mem key hmem)
  · intro k
    rw [h.inFlight k, List.mem_cons]
    constructor
    · rintro (⟨t', ht'⟩ | rfl | hmem)
      · refine Or.inl ⟨t', ?_⟩
        rw [Function.update_of_ne]
        · exact ht'
        · rintro rfl
          rw [hown] at ht'
          cases ht'
      · exact Or.inl ⟨t, Function.update_self ..⟩
      · exact Or.inr hmem
    · rintro (⟨t', ht'⟩ | hmem)
      · simp only [Function.update_apply] at ht'
        split at ht'
        · cases ht'
          exact Or.inr (Or.inl rfl)
        · exact Or.inl ⟨t', ht'⟩
      · exact Or.inr (Or.inr hmem)

end Ownership

/-! ## What a step does to one thread -/

section Moves

variable {s s' : State κ ρ} {a : Action κ ρ} {t : Thread}

/-- How a step takes one thread on, and under which conditions on the shared state. -/
inductive Move (s s' : State κ ρ) : Pc κ → Pc κ → Prop
  | stay (pc : Pc κ) : Move s s' pc pc
  | call (key) : 0 < s.clients → Move s s' .idle (.calling key)
  | prefetch (key) : 0 < s.clients → s'.started = true → Move s s' .idle (.enqueuing key .client)
  | hire : s'.started = true → Move s s' .idle .receiving
  | hit (key) : Move s s' (.calling key) .idle
  | wait (key) : s.slots key = some .inFlight → Move s s' (.calling key) (.waiting key)
  | miss (key) : Move s s' (.calling key) (.fetching key)
  | woken (key) : Move s s' (.waiting key) (.calling key)
  | settled (key) : Move s s' (.fetching key) .idle
  | taken (key after) : Move s s' (.enqueuing key after) after.pc
  | claimed (key after) : Move s s' (.enqueuing key after) (.claimed key after)
  | borrowed (key after) : s.sender = true → Move s s' (.claimed key after) (.sending key after)
  | refused (key after) : s.sender = false → Move s s' (.claimed key after) (.withdrawing key after)
  | sent (key after) : Move s s' (.sending key after) after.pc
  | withdrawn (key after) : Move s s' (.withdrawing key after) after.pc
  | received (key) : Move s s' .receiving (.running key)
  | finished (key children) : Move s s' (.running key) (.lookahead children)
  | failed (key) : Move s s' (.running key) .receiving
  | child (key rest) : Move s s' (.lookahead (key :: rest)) (.enqueuing key (.worker rest))
  | lastChild : Move s s' (.lookahead []) .receiving
  | exited : s.sender = false → (∀ t, (s.thread t).isSending = false) → Move s s' .receiving .exited

variable {pc pc' : Pc κ}

theorem move_setThread {s₀ : State κ ρ} (hthread : s₀.thread = s.thread)
    (h : Move s s' (s.thread t) pc) (t' : Thread) :
    Move s s' (s.thread t') ((s₀.setThread t pc).thread t') := by
  simp only [State.setThread, Function.update_apply]
  split
  · subst t'
    exact h
  · rw [hthread]
    exact .stay _

theorem move_wake (pc : Pc κ) : Move s s' pc pc.wake := by
  cases pc with
  | waiting key => exact .woken key
  | _ => exact .stay _

/-- A thread that settles a slot never waits, so that its own notification leaves it. -/
theorem move_notifyAll {s₀ : State κ ρ} (hthread : s₀.thread = s.thread)
    (h : Move s s' (s.thread t) pc) (hwake : pc.wake = pc) (t' : Thread) :
    Move s s' (s.thread t') ((s₀.setThread t pc).notifyAll.thread t') := by
  rw [State.notifyAll, State.setThread]
  simp only [Function.update_apply]
  split
  · subst t'
    rw [hwake]
    exact h
  · rw [hthread]
    exact move_wake _

theorem move_step [DecidableEq κ] (h : Step s a s') (t : Thread) : Move s s' (s.thread t) (s'.thread t) := by
  cases h with
  | cloneClient | dropClient | dropPool => exact .stay _
  | startPool _ _ _ hidle =>
    simp only
    split
    · rename_i hmem
      rw [hidle t hmem]
      exact .hire rfl
    · exact .stay _
  | packument hclients hpc => exact move_setThread rfl (hpc ▸ .call _ hclients) t
  | prefetch hclients hstarted hpc =>
    exact move_setThread rfl (hpc ▸ .prefetch _ hclients hstarted) t
  | lookupReady hpc => exact move_setThread rfl (hpc ▸ .hit _) t
  | lookupInFlight hpc hslot => exact move_setThread rfl (hpc ▸ .wait _ hslot) t
  | lookupMiss hpc => exact move_setThread rfl (hpc ▸ .miss _) t
  | wake hpc => exact move_setThread rfl (hpc ▸ .woken _) t
  | settle hpc => exact move_notifyAll rfl (hpc ▸ .settled _) rfl t
  | claimTaken hpc => exact move_setThread rfl (hpc ▸ .taken _ _) t
  | claim hpc => exact move_setThread rfl (hpc ▸ .claimed _ _) t
  | borrow hpc hsender => exact move_setThread rfl (hpc ▸ .borrowed _ _ hsender) t
  | borrowNone hpc hsender => exact move_setThread rfl (hpc ▸ .refused _ _ hsender) t
  | send hpc => exact move_setThread rfl (hpc ▸ .sent _ _) t
  | sendLost hpc => exact move_setThread rfl (hpc ▸ .sent _ _) t
  | withdraw hpc => exact move_setThread rfl (hpc ▸ .withdrawn _ _) t
  | receive hpc => exact move_setThread rfl (hpc ▸ .received _) t
  | finishOk hpc => exact move_notifyAll rfl (hpc ▸ .finished _ _) rfl t
  | finishError hpc => exact move_notifyAll rfl (hpc ▸ .failed _) rfl t
  | nextChild hpc => exact move_setThread rfl (hpc ▸ .child _ _) t
  | lastChild hpc => exact move_setThread rfl (hpc ▸ .lastChild) t
  | exit hpc _ hsender hsending => exact move_setThread rfl (hpc ▸ .exited hsender hsending) t

/-- A thread that holds a handle on the pool. -/
def Pc.pooled : Pc κ → Bool
  | idle | calling _ | waiting _ | fetching _ | exited => false
  | _ => true

def Pc.isWithdrawing : Pc κ → Bool
  | withdrawing .. => true
  | _ => false

theorem Move.inCall (h : Move s s' pc pc') (hcall : pc'.inCall = true) :
    pc.inCall = true ∨ 0 < s.clients := by
  cases h with
  | call _ hclients | prefetch _ hclients => exact Or.inr hclients
  | taken _ after | sent _ after | withdrawn _ after => cases after <;> cases hcall
  | claimed _ after | borrowed _ after | refused _ after => cases after <;> simp_all [Pc.inCall]
  | _ => simp_all [Pc.inCall]

theorem Move.pooled (h : Move s s' pc pc') (hpooled : pc'.pooled = true) :
    pc.pooled = true ∨ s'.started = true := by
  cases h with
  | prefetch _ _ hstarted | hire hstarted => exact Or.inr hstarted
  | _ => simp_all [Pc.pooled]

theorem Move.works (h : Move s s' pc pc') (hworks : pc.works = true) :
    pc'.works = true ∨ s.sender = false ∧ ∀ t, (s.thread t).isSending = false := by
  cases h with
  | exited hsender hsending => exact Or.inr ⟨hsender, hsending⟩
  | taken _ after | sent _ after | withdrawn _ after | claimed _ after | borrowed _ after
  | refused _ after => cases after <;> simp_all [Pc.works, After.pc]
  | _ => simp_all [Pc.works]

theorem Move.isSending (h : Move s s' pc pc') (hsending : pc'.isSending = true) :
    pc.isSending = true ∨ s.sender = true := by
  cases h with
  | borrowed _ _ hsender => exact Or.inr hsender
  | taken _ after | sent _ after | withdrawn _ after => cases after <;> cases hsending
  | _ => simp_all [Pc.isSending]

theorem Move.isWithdrawing (h : Move s s' pc pc') (hwithdrawing : pc'.isWithdrawing = true) :
    pc.isWithdrawing = true ∨ pc.pooled = true ∧ s.sender = false := by
  cases h with
  | refused _ _ hsender => exact Or.inr ⟨rfl, hsender⟩
  | taken _ after | sent _ after | withdrawn _ after => cases after <;> cases hwithdrawing
  | _ => simp_all [Pc.isWithdrawing]

theorem Move.waiting {key : κ} (h : Move s s' pc pc') (hwaiting : pc' = .waiting key) :
    pc = .waiting key ∨ s.slots key = some .inFlight := by
  cases h with
  | stay => exact Or.inl hwaiting
  | wait _ hslot =>
    cases hwaiting
    exact Or.inr hslot
  | taken _ after | sent _ after | withdrawn _ after => cases after <;> cases hwaiting
  | _ => cases hwaiting

end Moves

/-! ## What a step does to the pool and the slots -/

section Steps

variable [DecidableEq κ] {s s' : State κ ρ} {a : Action κ ρ}

/-- How a step changes what the clones of the client share. -/
inductive Shared (s s' : State κ ρ) : Prop
  | kept (hstarted : s'.started = s.started) (hsender : s'.sender = s.sender)
      (hclients : s'.clients = 0 ↔ s.clients = 0)
  | opened (hclosed : s.started = false) (hstarted : s'.started = true) (hsender : s'.sender = true)
      (hclients : 0 < s.clients) (hclients' : 0 < s'.clients) (halive : s'.ReceiverAlive)
  | closed (hidle : ∀ t, (s.thread t).inCall = false)
      (hstate : s' = { s with clients := 0, sender := false })

theorem shared_step (h : Step s a s') : Shared s s' := by
  cases h with
  | cloneClient hclients => exact .kept rfl rfl (by simp only; omega)
  | dropClient hclients => exact .kept rfl rfl (by simp only; omega)
  | dropPool _ hidle => exact .closed hidle rfl
  | startPool hclients hstarted hworkers _ =>
    obtain ⟨t, ht⟩ := List.exists_mem_of_ne_nil _ hworkers
    refine .opened hstarted rfl rfl hclients hclients ⟨t, ?_⟩
    simp only [if_pos ht]
    rfl
  | _ => exact .kept rfl rfl Iff.rfl

/-- What every state of a run satisfies. -/
structure Inv (s : State κ ρ) : Prop where
  owned : Owned (fun t => (s.thread t).owns) s.slots s.queue
  waiting : ∀ {t key}, s.thread t = .waiting key → s.slots key = some .inFlight
  inCall : s.clients = 0 → ∀ t, (s.thread t).inCall = false
  pooled : ∀ t, (s.thread t).pooled = true → s.started = true
  sender : s.started = true → s.sender = false → s.clients = 0
  withdrawing : ∀ t, (s.thread t).isWithdrawing = true → s.clients = 0
  receiver : (s.sender = true ∨ ∃ t, (s.thread t).isSending = true) → s.ReceiverAlive

omit [DecidableEq κ] in
theorem inv_initial : Inv (initial : State κ ρ) where
  owned := {
    unique := nofun
    nodup := List.nodup_nil
    disjoint := nofun
    inFlight := fun _ => ⟨nofun, fun h => h.elim (fun ⟨_, ht⟩ => nomatch ht) nofun⟩ }
  waiting := nofun
  inCall := nofun
  pooled := nofun
  sender := nofun
  withdrawing := nofun
  receiver h := by
    rcases h with h | ⟨_, h⟩ <;> cases h

theorem inCall_step (hinv : Inv s) (h : Step s a s') (hclients : s'.clients = 0) (t : Thread) :
    (s'.thread t).inCall = false := by
  rw [← Bool.not_eq_true]
  intro hcall
  have hmove := (move_step h t).inCall hcall
  cases shared_step h with
  | kept _ _ hiff =>
    have hidle := hinv.inCall (hiff.mp hclients) t
    rcases hmove with hmove | hpos
    · rw [hidle] at hmove
      cases hmove
    · exact hpos.ne' (hiff.mp hclients)
  | opened _ _ _ _ hpos => exact hpos.ne' hclients
  | closed hidle hstate =>
    subst hstate
    rw [hidle t] at hcall
    cases hcall

theorem started_step (h : Step s a s') (hstarted : s.started = true) : s'.started = true := by
  cases shared_step h with
  | kept hkept => exact hkept.trans hstarted
  | opened _ hopened => exact hopened
  | closed _ hstate =>
    subst hstate
    exact hstarted

theorem pooled_step (hinv : Inv s) (h : Step s a s') (t : Thread)
    (hpooled : (s'.thread t).pooled = true) : s'.started = true := by
  rcases (move_step h t).pooled hpooled with hbefore | hstarted
  · exact started_step h (hinv.pooled t hbefore)
  · exact hstarted

theorem sender_step (hinv : Inv s) (h : Step s a s') (hstarted : s'.started = true)
    (hsender : s'.sender = false) : s'.clients = 0 := by
  cases shared_step h with
  | kept hstarted' hsender' hiff =>
    exact hiff.mpr (hinv.sender (hstarted' ▸ hstarted) (hsender' ▸ hsender))
  | opened _ _ hopened =>
    rw [hopened] at hsender
    cases hsender
  | closed _ hstate => rw [hstate]

theorem clients_step (h : Step s a s') (hclients : s.clients = 0) : s'.clients = 0 := by
  cases shared_step h with
  | kept _ _ hiff => exact hiff.mpr hclients
  | opened _ _ _ hpos => exact absurd hclients hpos.ne'
  | closed _ hstate => rw [hstate]

theorem withdrawing_step (hinv : Inv s) (h : Step s a s') (t : Thread)
    (hwithdrawing : (s'.thread t).isWithdrawing = true) : s'.clients = 0 := by
  refine clients_step h ?_
  rcases (move_step h t).isWithdrawing hwithdrawing with hbefore | ⟨hpooled, hsender⟩
  · exact hinv.withdrawing t hbefore
  · exact hinv.sender (hinv.pooled t hpooled) hsender

/-- As long as somebody can send, a worker stays to receive. -/
theorem receiver_step (hinv : Inv s) (h : Step s a s')
    (hsends : s'.sender = true ∨ ∃ t, (s'.thread t).isSending = true) : s'.ReceiverAlive := by
  have hbefore : (s.sender = true ∨ ∃ t, (s.thread t).isSending = true) ∨ s'.ReceiverAlive := by
    rcases hsends with hsender | ⟨t, hsending⟩
    · cases shared_step h with
      | kept _ hkept => exact Or.inl (Or.inl (hkept ▸ hsender))
      | opened _ _ _ _ _ halive => exact Or.inr halive
      | closed _ hstate =>
        rw [hstate] at hsender
        cases hsender
    · rcases (move_step h t).isSending hsending with hsending | hsender
      · exact Or.inl (Or.inr ⟨t, hsending⟩)
      · exact Or.inl (Or.inl hsender)
  rcases hbefore with hbefore | halive
  · obtain ⟨t, hworks⟩ := hinv.receiver hbefore
    rcases (move_step h t).works hworks with hworks | ⟨hsender, hsending⟩
    · exact ⟨t, hworks⟩
    · rcases hbefore with hbefore | ⟨t', hbefore⟩
      · rw [hsender] at hbefore
        cases hbefore
      · rw [hsending t'] at hbefore
        cases hbefore
  · exact halive

/-! ### Slots -/

omit [DecidableEq κ] in
theorem owns_setThread (s : State κ ρ) (t : Thread) (pc : Pc κ) :
    (fun t' => ((s.setThread t pc).thread t').owns) =
      Function.update (fun t' => (s.thread t').owns) t pc.owns :=
  funext fun t' => Function.apply_update (fun _ => Pc.owns) s.thread t pc t'

omit [DecidableEq κ] in
theorem owns_notifyAll (s : State κ ρ) :
    (fun t => (s.notifyAll.thread t).owns) = fun t => (s.thread t).owns := by
  funext t
  change (s.thread t).wake.owns = (s.thread t).owns
  cases s.thread t <;> rfl

omit [DecidableEq κ] in
theorem owns_afterPc (after : After κ) : after.pc.owns = none := by cases after <;> rfl

omit [DecidableEq κ] in
/-- A step that leaves slots, queue and the thread's own slot as they are. -/
theorem owned_setThread {t : Thread} {pc : Pc κ}
    (h : Owned (fun t => (s.thread t).owns) s.slots s.queue) (howns : pc.owns = (s.thread t).owns) :
    Owned (fun t' => ((s.setThread t pc).thread t').owns) s.slots s.queue := by
  rw [owns_setThread, howns, Function.update_eq_self]
  exact h

theorem owned_step (hinv : Inv s) (h : Step s a s') :
    Owned (fun t => (s'.thread t).owns) s'.slots s'.queue := by
  have howned := hinv.owned
  cases h with
  | cloneClient | dropClient | dropPool => exact howned
  | startPool _ _ _ hidle =>
    convert howned using 2
    rename_i t
    simp only
    split
    · rename_i hmem
      rw [hidle t hmem]
      rfl
    · rfl
  | packument _ hpc | prefetch _ _ hpc | lookupReady hpc | lookupInFlight hpc | wake hpc
  | borrow hpc | borrowNone hpc | nextChild hpc | lastChild hpc | exit hpc =>
    exact owned_setThread howned (by rw [hpc]; rfl)
  | claimTaken hpc => exact owned_setThread howned (by rw [hpc, owns_afterPc]; rfl)
  | lookupMiss hpc hslot | claim hpc hslot =>
    rw [owns_setThread]
    exact howned.claim (by rw [hpc]; rfl) hslot
  | settle hpc =>
    rename_i result
    rw [owns_notifyAll, owns_setThread]
    exact howned.settle (by rw [hpc]; rfl) (by cases result <;> nofun)
  | send hpc =>
    rw [owns_setThread, owns_afterPc]
    exact howned.send (by rw [hpc]; rfl)
  | sendLost hpc hdead => exact absurd (hinv.receiver (Or.inr ⟨_, by rw [hpc]; rfl⟩)) hdead
  | withdraw hpc =>
    rw [owns_setThread, owns_afterPc]
    exact howned.settle (by rw [hpc]; rfl) nofun
  | receive hpc hqueue =>
    rw [owns_setThread]
    rw [hqueue] at howned
    exact howned.receive (by rw [hpc]; rfl)
  | finishOk hpc | finishError hpc =>
    rw [owns_notifyAll, owns_setThread]
    exact howned.settle (by rw [hpc]; rfl) nofun

omit [DecidableEq κ] in
/-- A slot that somebody owns is in flight. -/
theorem inFlight_of_owns (hinv : Inv s) {t : Thread} {key : κ} {pc : Pc κ} (hpc : s.thread t = pc)
    (howns : pc.owns = some key) : s.slots key = some .inFlight :=
  (hinv.owned.inFlight key).mpr (Or.inl ⟨t, by rw [hpc, howns]⟩)

/-- A slot in use is written to by its owner only, and a ready one has none. -/
theorem ready_step (hinv : Inv s) (h : Step s a s') {key : κ} {p : ρ}
    (hready : s.slots key = some (.ready p)) : s'.slots key = some (.ready p) := by
  have hne : ∀ {key' entry}, s.slots key' = entry → entry ≠ some (.ready p) → key ≠ key' := by
    rintro key' entry hslot hentry rfl
    exact hentry (hslot.symm.trans hready)
  cases h with
  | lookupMiss _ hslot | claim _ hslot =>
    exact (Function.update_of_ne (hne hslot nofun) ..).trans hready
  | settle hpc | withdraw hpc | finishOk hpc | finishError hpc =>
    have hslot := inFlight_of_owns hinv hpc rfl
    exact (Function.update_of_ne (hne hslot nofun) ..).trans hready
  | _ => exact hready

omit [DecidableEq κ] in
theorem wake_ne_waiting (pc : Pc κ) (key : κ) : pc.wake ≠ .waiting key := by
  cases pc <;> nofun

/-- Whoever settles a slot wakes all waiters, and a claim is withdrawn only after the last
client is gone. -/
theorem waiting_step (hinv : Inv s) (h : Step s a s') {t : Thread} {key : κ}
    (hwaiting : s'.thread t = .waiting key) : s'.slots key = some .inFlight := by
  have hslot : s.slots key = some .inFlight :=
    ((move_step h t).waiting hwaiting).elim hinv.waiting id
  have hne : ∀ {key'}, s.slots key' = none → key ≠ key' := by
    rintro key' hnone rfl
    rw [hslot] at hnone
    cases hnone
  cases h with
  | lookupMiss _ hnone | claim _ hnone => exact (Function.update_of_ne (hne hnone) ..).trans hslot
  | settle | finishOk | finishError => exact absurd hwaiting (wake_ne_waiting _ _)
  | withdraw hpc =>
    have hclients := hinv.withdrawing _ (by rw [hpc]; rfl)
    have hcall := inCall_step hinv (.withdraw hpc) hclients t
    rw [hwaiting] at hcall
    cases hcall
  | _ => exact hslot

theorem inv_step (hinv : Inv s) (h : Step s a s') : Inv s' where
  owned := owned_step hinv h
  waiting := waiting_step hinv h
  inCall := inCall_step hinv h
  pooled := pooled_step hinv h
  sender := sender_step hinv h
  withdrawing := withdrawing_step hinv h
  receiver := receiver_step hinv h

end Steps

/-! ## Whole runs -/

/-- The parties that can own a slot: a thread (an inline fetcher, an enqueuer between claim
and send, a running worker) or a queued job. -/
inductive Owner
  | thread (t : Thread)
  | job (index : Nat)

def State.Owns (s : State κ ρ) (key : κ) : Owner → Prop
  | .thread t => (s.thread t).owns = some key
  | .job i => s.queue[i]? = some key

/-- The packument that a thread is fetching. -/
def Pc.fetches : Pc κ → Option κ
  | fetching key | running key => some key
  | _ => none

/-- Each slot in flight has one owner and at most one fetch, a ready slot stays, and nobody
waits on a slot without an owner. -/
structure Coordinated [DecidableEq κ] (s : State κ ρ) : Prop where
  owner : ∀ key, s.slots key = some .inFlight → ∃! o, s.Owns key o
  fetch : ∀ {t t' key}, (s.thread t).fetches = some key → (s.thread t').fetches = some key → t = t'
  ready : ∀ {a s' key p}, Step s a s' → s.slots key = some (.ready p) →
    s'.slots key = some (.ready p)
  waiter : ∀ {t key}, s.thread t = .waiting key →
    s.slots key = some .inFlight ∧ ∃ o, s.Owns key o

theorem owns_of_fetches {pc : Pc κ} {key : κ} (h : pc.fetches = some key) : pc.owns = some key := by
  cases pc with
  | fetching | running => exact h
  | _ => cases h

theorem existsUnique_owner {s : State κ ρ}
    (h : Owned (fun t => (s.thread t).owns) s.slots s.queue) {key : κ}
    (hslot : s.slots key = some .inFlight) : ∃! o, s.Owns key o := by
  rcases (h.inFlight key).mp hslot with ⟨t, ht⟩ | hmem
  · refine ⟨.thread t, ht, fun o ho => ?_⟩
    cases o with
    | thread t' => exact congrArg Owner.thread (h.unique ho ht)
    | job i => exact absurd (List.mem_of_getElem? ho) (h.disjoint ht)
  · obtain ⟨i, hi⟩ := List.mem_iff_getElem?.mp hmem
    refine ⟨.job i, hi, fun o ho => ?_⟩
    cases o with
    | thread t => exact absurd hmem (h.disjoint ho)
    | job j =>
      have hlength : j < s.queue.length := (List.getElem?_eq_some_iff.mp ho).1
      exact congrArg Owner.job ((List.getElem?_inj hlength h.nodup).mp (Eq.trans ho hi.symm))

variable [DecidableEq κ]

/-- In every state of every run. -/
theorem reachable_coordinated {s : State κ ρ} (h : (protocol κ ρ).Reachable s) :
    Coordinated s := by
  have hinv : Inv s := Protocol.Reaches.invariant (I := Inv) (fun s hs => hs ▸ inv_initial)
    (fun s a s' hinv _ hstep => inv_step hinv hstep) h
  refine ⟨fun key hslot => existsUnique_owner hinv.owned hslot, ?_, ?_, ?_⟩
  · intro t t' key ht ht'
    exact hinv.owned.unique (owns_of_fetches ht) (owns_of_fetches ht')
  · intro a s' key p hstep hready
    exact ready_step hinv hstep hready
  · intro t key hwaiting
    have hslot := hinv.waiting hwaiting
    exact ⟨hslot, (existsUnique_owner hinv.owned hslot).exists⟩

/-- A pool with worker 7. -/
def pool : State κ ρ :=
  ⟨fun _ => none, [], true, true, 1, fun t => if t ∈ [7] then .receiving else .idle⟩

/-- Thread 0 has claimed a packument for the pool, and thread 1 waits for it. -/
def announced (key : κ) : State κ ρ :=
  (((((pool.setThread 0 (.enqueuing key .client)).setSlot key (some .inFlight)).setThread 0
    (.claimed key .client)).setThread 1 (.calling key)).setThread 1 (.waiting key))

theorem announced_reachable (key : κ) : (protocol κ ρ).Reachable (announced key) := by
  have hpool : (protocol κ ρ).Reachable pool := (Protocol.Reachable.start rfl).next
    (@Step.startPool κ ρ _ _ [7] Nat.one_pos rfl nofun fun _ _ => rfl)
  have henqueuing := hpool.next (@Step.prefetch κ ρ _ _ 0 key Nat.one_pos rfl rfl)
  have hclaimed := henqueuing.next (@Step.claim κ ρ _ _ 0 key .client rfl rfl)
  have hcalling := hclaimed.next (@Step.packument κ ρ _ _ 1 key Nat.one_pos rfl)
  exact hcalling.next (.lookupInFlight (t := 1) rfl (Function.update_self ..))

theorem announced_coordinated : Coordinated (announced [] : State Str Str) :=
  reachable_coordinated (announced_reachable [])

end Prefetch
end Bpm
