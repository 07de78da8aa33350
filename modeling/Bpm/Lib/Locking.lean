import Mathlib

/-!
# Exclusive locks

Every party runs a program that takes exclusive locks and gives them back, and may wait for
another party to end.  A lock that is taken blocks everyone, its holder too.  If every party
takes its locks in ascending order and waits only for parties that need later ones, then
whatever the interleaving is, some party can go on until all of them are done.
-/

namespace Bpm

inductive LockOp (ι κ : Type)
  | acquire (key : κ)
  | release (key : κ)
  | await (party : ι)

/-- What every party still has to do, and who holds which lock. -/
structure Locking (ι κ : Type) where
  todo : ι → List (LockOp ι κ)
  holder : κ → Option ι

namespace Locking

variable {ι κ : Type} [DecidableEq ι] [DecidableEq κ]

def start (programs : ι → List (LockOp ι κ)) : Locking ι κ := ⟨programs, fun _ => none⟩

/-- A party takes its next step, unless it is done or blocked. -/
def step (s : Locking ι κ) (i : ι) : Option (Locking ι κ) :=
  match s.todo i with
  | [] => none
  | .acquire key :: rest =>
      if s.holder key = none then
        some ⟨Function.update s.todo i rest, Function.update s.holder key (some i)⟩
      else none
  | .release key :: rest =>
      some ⟨Function.update s.todo i rest,
        if s.holder key = some i then Function.update s.holder key none else s.holder⟩
  | .await j :: rest =>
      if (s.todo j).isEmpty then some { s with todo := Function.update s.todo i rest } else none

def Done (s : Locking ι κ) : Prop := ∀ i, s.todo i = []

/-- Some party is not done, and none can go on. -/
def Stuck (s : Locking ι κ) : Prop := ¬ s.Done ∧ ∀ i, s.step i = none

/-- What a step is. -/
theorem step_cases {s s' : Locking ι κ} {i : ι} (h : s.step i = some s') :
    (∃ key rest, s.todo i = .acquire key :: rest ∧ s.holder key = none ∧
        s' = ⟨Function.update s.todo i rest, Function.update s.holder key (some i)⟩) ∨
      (∃ key rest, s.todo i = .release key :: rest ∧
        s' = ⟨Function.update s.todo i rest,
          if s.holder key = some i then Function.update s.holder key none else s.holder⟩) ∨
      ∃ j rest, s.todo i = .await j :: rest ∧ s.todo j = [] ∧
        s' = { s with todo := Function.update s.todo i rest } := by
  unfold step at h
  split at h
  · cases h
  · rename_i key rest htodo
    split at h
    · rename_i hfree
      exact .inl ⟨key, rest, htodo, hfree, (Option.some.inj h).symm⟩
    · cases h
  · rename_i key rest htodo
    exact .inr (.inl ⟨key, rest, htodo, (Option.some.inj h).symm⟩)
  · rename_i j rest htodo
    split at h
    · rename_i hdone
      exact .inr (.inr ⟨j, rest, htodo, List.isEmpty_iff.mp hdone, (Option.some.inj h).symm⟩)
    · cases h

/-- Every step does one thing of one program. -/
theorem step_todo {s s' : Locking ι κ} {i : ι} (h : s.step i = some s') :
    ∃ op rest, s.todo i = op :: rest ∧ s'.todo = Function.update s.todo i rest := by
  rcases step_cases h with ⟨_, rest, htodo, _, rfl⟩ | ⟨_, rest, htodo, rfl⟩ |
    ⟨_, rest, htodo, _, rfl⟩
  · exact ⟨_, rest, htodo, rfl⟩
  · exact ⟨_, rest, htodo, rfl⟩
  · exact ⟨_, rest, htodo, rfl⟩

/-! ## Ascending programs -/

/-- An order of the locks, the locks that each party may take or wait for through others, and
how long the chains of parties are that wait for each other's end. -/
structure Discipline (ι κ : Type) where
  before : κ → κ → Prop
  irrefl : ∀ key, ¬ before key key
  trans : ∀ a b c, before a b → before b c → before a c
  needs : ι → κ → Prop
  depth : ι → Nat

/-- With `held` taken, the rest of a program takes every lock after those it holds, waits only
for parties that need later ones, gives back what it holds, and ends with nothing. -/
def Ascending (d : Discipline ι κ) (i : ι) : List κ → List (LockOp ι κ) → Prop
  | held, [] => held = []
  | held, .acquire key :: rest =>
      d.needs i key ∧ (∀ k ∈ held, d.before k key) ∧ Ascending d i (key :: held) rest
  | held, .release key :: rest => key ∈ held ∧ Ascending d i (held.erase key) rest
  | held, .await j :: rest =>
      d.depth j < d.depth i ∧
        (∀ key, d.needs j key → d.needs i key ∧ ∀ k ∈ held, d.before k key) ∧
        Ascending d i held rest

section Ascending

variable {d : Discipline ι κ}

/-- Every party holds what its program says. -/
def Orderly (d : Discipline ι κ) (s : Locking ι κ) : Prop :=
  ∀ i, ∃ held : List κ, held.Nodup ∧ Ascending d i held (s.todo i) ∧
    ∀ key, key ∈ held ↔ s.holder key = some i

omit [DecidableEq ι] in
theorem Orderly.start {programs : ι → List (LockOp ι κ)} (h : ∀ i, Ascending d i [] (programs i)) :
    Orderly d (start programs) :=
  fun i => ⟨[], List.nodup_nil, h i, by simp [Locking.start]⟩

theorem Orderly.step {s s' : Locking ι κ} {i : ι} (h : Orderly d s) (hstep : s.step i = some s') :
    Orderly d s' := by
  rcases step_cases hstep with ⟨key, rest, htodo, hfree, rfl⟩ | ⟨key, rest, htodo, rfl⟩ |
    ⟨j, rest, htodo, _, rfl⟩
  · intro party
    obtain ⟨held, hnodup, hascending, hheld⟩ := h party
    by_cases hparty : party = i
    · subst hparty
      rw [htodo] at hascending
      obtain ⟨_, hafter, hrest⟩ := hascending
      refine ⟨key :: held, List.nodup_cons.mpr ⟨fun hmem => d.irrefl key (hafter key hmem), hnodup⟩,
        by simpa using hrest, fun other => ?_⟩
      rw [List.mem_cons, hheld]
      by_cases hother : other = key
      · simp [hother]
      · simp [hother]
    · refine ⟨held, hnodup, by simpa [hparty] using hascending, fun other => ?_⟩
      rw [hheld]
      by_cases hother : other = key
      · subst hother
        simp [hfree, Ne.symm hparty]
      · simp [hother]
  · intro party
    obtain ⟨held, hnodup, hascending, hheld⟩ := h party
    obtain ⟨own, hownNodup, hown, hownHeld⟩ := h i
    rw [htodo] at hown
    obtain ⟨hmem, hrest⟩ := hown
    have howner : s.holder key = some i := (hownHeld key).mp hmem
    simp only [howner, if_true]
    by_cases hparty : party = i
    · subst hparty
      refine ⟨own.erase key, hownNodup.erase key, by simpa using hrest, fun other => ?_⟩
      rw [hownNodup.mem_erase_iff, hownHeld]
      by_cases hother : other = key
      · simp [hother]
      · simp [hother]
    · refine ⟨held, hnodup, by simpa [hparty] using hascending, fun other => ?_⟩
      rw [hheld]
      by_cases hother : other = key
      · subst hother
        simp [howner, Ne.symm hparty]
      · simp [hother]
  · intro party
    obtain ⟨held, hnodup, hascending, hheld⟩ := h party
    by_cases hparty : party = i
    · subst hparty
      rw [htodo] at hascending
      exact ⟨held, hnodup, by simpa using hascending.2.2, hheld⟩
    · exact ⟨held, hnodup, by simpa [hparty] using hascending, hheld⟩

/-- A party that is not done, in a state where none goes on, waits for a lock after all that
it holds, and whoever has that lock is not done either. -/
theorem Orderly.waits {s : Locking ι κ} (h : Orderly d s) (hblocked : ∀ i, s.step i = none) {i : ι}
    (hi : s.todo i ≠ []) : ∃ key j, s.holder key = some j ∧ s.todo j ≠ [] ∧ d.needs i key ∧
      ∀ k, s.holder k = some i → d.before k key := by
  induction hdepth : d.depth i using Nat.strong_induction_on generalizing i with
  | _ n ih =>
    have hnone := hblocked i
    unfold Locking.step at hnone
    obtain ⟨held, _, hascending, hheld⟩ := h i
    cases htodo : s.todo i with
    | nil => exact absurd htodo hi
    | cons op rest =>
      rw [htodo] at hnone hascending
      cases op with
      | acquire key =>
        cases hholder : s.holder key with
        | none => simp [hholder] at hnone
        | some j =>
          refine ⟨key, j, hholder, fun hj => ?_, hascending.1,
            fun k hk => hascending.2.1 k ((hheld k).mpr hk)⟩
          obtain ⟨heldj, _, hascendingj, hheldj⟩ := h j
          rw [hj] at hascendingj
          have hmem := (hheldj key).mpr hholder
          rw [hascendingj] at hmem
          simp at hmem
      | release key => simp at hnone
      | await j =>
        obtain ⟨hshorter, hneeds, _⟩ := hascending
        have hj : s.todo j ≠ [] := by
          intro hj
          simp [hj] at hnone
        obtain ⟨key, m, hholder, hm, hkey, _⟩ := ih _ (by omega) hj rfl
        exact ⟨key, m, hholder, hm, (hneeds key hkey).1,
          fun k hk => (hneeds key hkey).2 k ((hheld k).mpr hk)⟩

/-- Among finitely many parties, one that waits for the last lock does not exist. -/
theorem Orderly.not_stuck [Finite ι] {s : Locking ι κ} (h : Orderly d s) : ¬ s.Stuck := by
  rintro ⟨hdone, hblocked⟩
  have hwaits : ∀ i : {i // s.todo i ≠ []}, ∃ key, ∃ j : {i // s.todo i ≠ []},
      s.holder key = some j.1 ∧ ∀ k, s.holder k = some i.1 → d.before k key := by
    intro i
    obtain ⟨key, j, hholder, hj, _, hafter⟩ := h.waits hblocked i.2
    exact ⟨key, ⟨j, hj⟩, hholder, hafter⟩
  choose key next hholder hafter using hwaits
  obtain ⟨first, hfirst⟩ := not_forall.mp hdone
  have : IsTrans {i // s.todo i ≠ []} fun j i => d.before (key i) (key j) :=
    ⟨fun _ _ _ hba hcb => d.trans _ _ _ hcb hba⟩
  have : Std.Irrefl fun j i : {i // s.todo i ≠ []} => d.before (key i) (key j) :=
    ⟨fun i => d.irrefl (key i)⟩
  have hwf := Finite.wellFounded_of_trans_of_irrefl fun j i : {i // s.todo i ≠ []} =>
    d.before (key i) (key j)
  obtain ⟨last, _, hmax⟩ := hwf.has_min Set.univ ⟨⟨first, hfirst⟩, trivial⟩
  exact hmax (next last) trivial (hafter (next last) (key last) (hholder last))

/-! ## Programs in sections -/

omit [DecidableEq ι] in
/-- In what order the locks were taken does not matter for giving them back. -/
theorem Ascending.perm {i : ι} {held held' : List κ} {program : List (LockOp ι κ)}
    (hperm : held.Perm held') (h : Ascending d i held program) : Ascending d i held' program := by
  induction program generalizing held held' with
  | nil => exact (hperm.symm.trans (by rw [h])).eq_nil
  | cons op rest ih =>
    cases op with
    | acquire key =>
      obtain ⟨hneeds, hafter, hrest⟩ := h
      exact ⟨hneeds, fun k hk => hafter k (hperm.mem_iff.mpr hk), ih (hperm.cons key) hrest⟩
    | release key => exact ⟨hperm.mem_iff.mp h.1, ih (hperm.erase key) h.2⟩
    | await j =>
      obtain ⟨hshorter, hneeds, hrest⟩ := h
      exact ⟨hshorter, fun key hkey => ⟨(hneeds key hkey).1, fun k hk =>
        (hneeds key hkey).2 k (hperm.mem_iff.mpr hk)⟩, ih hperm hrest⟩

omit [DecidableEq ι] in
theorem Ascending.acquires {i : ι} {keys held : List κ} {rest : List (LockOp ι κ)}
    (hpairs : keys.Pairwise d.before) (hneeds : ∀ key ∈ keys, d.needs i key)
    (hafter : ∀ k ∈ held, ∀ key ∈ keys, d.before k key) (h : Ascending d i (keys ++ held) rest) :
    Ascending d i held (keys.map .acquire ++ rest) := by
  induction keys generalizing held with
  | nil => exact h
  | cons key keys ih =>
    obtain ⟨hfirst, hothers⟩ := List.pairwise_cons.mp hpairs
    obtain ⟨hneed, hneeds⟩ := List.forall_mem_cons.mp hneeds
    refine ⟨hneed, fun k hk => hafter k hk key List.mem_cons_self, ih hothers hneeds ?_ ?_⟩
    · intro k hk other hother
      rcases List.mem_cons.mp hk with rfl | hk
      · exact hfirst other hother
      · exact hafter k hk other (List.mem_cons_of_mem _ hother)
    · exact h.perm List.perm_middle.symm

omit [DecidableEq ι] in
theorem Ascending.releases {i : ι} {keys held : List κ} {rest : List (LockOp ι κ)}
    (h : Ascending d i held rest) : Ascending d i (keys ++ held) (keys.map .release ++ rest) := by
  induction keys with
  | nil => exact h
  | cons key keys ih =>
    refine ⟨by simp, ?_⟩
    rw [List.cons_append, List.erase_cons_head]
    exact ih

omit [DecidableEq ι] in
/-- Locks that are taken in their order and given back together. -/
theorem Ascending.locked {i : ι} {keys : List κ} {rest : List (LockOp ι κ)}
    (hpairs : keys.Pairwise d.before) (hneeds : ∀ key ∈ keys, d.needs i key)
    (h : Ascending d i [] rest) :
    Ascending d i [] (keys.map .acquire ++ keys.map .release ++ rest) := by
  rw [List.append_assoc]
  exact Ascending.acquires hpairs hneeds (by simp) h.releases

end Ascending

/-! ## Whole runs -/

/-- The parties that took the steps of a run, in their order. -/
inductive Run : Locking ι κ → List ι → Locking ι κ → Prop
  | refl (s : Locking ι κ) : Run s [] s
  | step {s s' t : Locking ι κ} {i : ι} {rest : List ι} (h : s.step i = some s')
      (hrest : Run s' rest t) : Run s (i :: rest) t

/-- How many steps the programs have left. -/
def remaining [Fintype ι] (s : Locking ι κ) : Nat := ∑ i, (s.todo i).length

theorem remaining_step [Fintype ι] {s s' : Locking ι κ} {i : ι} (h : s.step i = some s') :
    s'.remaining + 1 = s.remaining := by
  obtain ⟨op, rest, htodo, hnew⟩ := step_todo h
  unfold remaining
  rw [hnew, ← Finset.add_sum_erase _ _ (Finset.mem_univ i),
    ← Finset.add_sum_erase _ (fun i => (s.todo i).length) (Finset.mem_univ i)]
  have hothers : ∑ j ∈ Finset.univ.erase i, (Function.update s.todo i rest j).length =
      ∑ j ∈ Finset.univ.erase i, (s.todo j).length :=
    Finset.sum_congr rfl fun j hj => by rw [Function.update_of_ne (Finset.ne_of_mem_erase hj)]
  rw [hothers, Function.update_self, htodo, List.length_cons]
  omega

theorem Run.remaining [Fintype ι] {s t : Locking ι κ} {labels : List ι} (h : Run s labels t) :
    t.remaining + labels.length = s.remaining := by
  induction h with
  | refl => rfl
  | step hstep _ ih =>
    have hless := remaining_step hstep
    rw [List.length_cons]
    omega

theorem Run.orderly {d : Discipline ι κ} {s t : Locking ι κ} {labels : List ι}
    (h : Run s labels t) (hs : Orderly d s) : Orderly d t := by
  induction h with
  | refl => exact hs
  | step hstep _ ih => exact ih (hs.step hstep)

/-- No run of ascending programs is stuck, and one that goes on as long as it can ends with
every program done and every lock free. -/
theorem ascending_complete [Fintype ι] {d : Discipline ι κ} {programs : ι → List (LockOp ι κ)}
    (hprograms : ∀ i, Ascending d i [] (programs i)) {labels : List ι} {s : Locking ι κ}
    (h : Run (start programs) labels s) :
    ¬ s.Stuck ∧ labels.length ≤ ∑ i, (programs i).length ∧
      ((∀ i, s.step i = none) → s.Done ∧ ∀ key, s.holder key = none) := by
  have horderly := h.orderly (Orderly.start hprograms)
  have hstuck := horderly.not_stuck
  refine ⟨hstuck, ?_, fun hblocked => ?_⟩
  · have hlength := h.remaining
    change s.remaining + labels.length = ∑ i, (programs i).length at hlength
    omega
  · have hdone : s.Done := not_not.mp fun hnot => hstuck ⟨hnot, hblocked⟩
    refine ⟨hdone, fun key => Option.eq_none_iff_forall_ne_some.mpr fun i hholder => ?_⟩
    obtain ⟨held, _, hascending, hheld⟩ := horderly i
    rw [hdone i] at hascending
    have hmem := (hheld key).mpr hholder
    rw [hascending] at hmem
    simp at hmem

theorem Run.split {s t : Locking ι κ} {front back : List ι} (h : Run s (front ++ back) t) :
    ∃ m, Run s front m ∧ Run m back t := by
  induction front generalizing s with
  | nil => exact ⟨s, .refl s, h⟩
  | cons i front ih =>
    cases h with
    | step hstep hrest =>
      obtain ⟨m, hfront, hback⟩ := ih hrest
      exact ⟨m, .step hstep hfront, hback⟩

/-- A party that takes no step keeps its program. -/
theorem Run.todo_of_notMem {s t : Locking ι κ} {labels : List ι} (h : Run s labels t) {i : ι}
    (hi : i ∉ labels) : t.todo i = s.todo i := by
  induction h with
  | refl => rfl
  | step hstep _ ih =>
    obtain ⟨hne, hrest⟩ := not_or.mp fun hin => hi (List.mem_cons.mpr hin)
    obtain ⟨_, _, _, hnew⟩ := step_todo hstep
    rw [ih hrest, hnew, Function.update_of_ne hne]

/-! ## Waiting for each other -/

/-- One party holds a lock until the other one ends, and the other one needs the lock. -/
structure Entangled (s : Locking ι κ) (i j : ι) (key : κ) : Prop where
  waits : ∃ rest, s.todo i = .await j :: rest
  holds : s.holder key = some i
  needs : ∃ rest, s.todo j = .acquire key :: rest

/-- The first step of a party that takes a lock and then waits for one that needs it. -/
theorem Entangled.of_step {s s' : Locking ι κ} {i j : ι} {key : κ} {resti restj : List (LockOp ι κ)}
    (hstep : s.step i = some s') (hi : s.todo i = .acquire key :: .await j :: resti)
    (hj : s.todo j = .acquire key :: restj) (hne : j ≠ i) : Entangled s' i j key := by
  rcases step_cases hstep with ⟨key', rest, htodo, _, rfl⟩ | ⟨key', rest, htodo, _⟩ |
    ⟨_, rest, htodo, _, _⟩
  · rw [hi] at htodo
    cases htodo
    exact ⟨⟨resti, by simp⟩, by simp, ⟨restj, by simp [hne, hj]⟩⟩
  · rw [hi] at htodo
    cases htodo
  · rw [hi] at htodo
    cases htodo

/-- Neither of them can go on. -/
theorem Entangled.blocked {s : Locking ι κ} {i j : ι} {key : κ} (h : Entangled s i j key) :
    s.step i = none ∧ s.step j = none := by
  obtain ⟨⟨resti, hwaits⟩, hholds, ⟨restj, hneeds⟩⟩ := h
  constructor
  · simp [Locking.step, hwaits, hneeds]
  · simp [Locking.step, hneeds, hholds]

theorem Entangled.step {s s' : Locking ι κ} {i j k : ι} {key : κ} (h : Entangled s i j key)
    (hstep : s.step k = some s') : Entangled s' i j key ∧ k ≠ i ∧ k ≠ j := by
  obtain ⟨hnonei, hnonej⟩ := h.blocked
  obtain ⟨⟨resti, hwaits⟩, hholds, ⟨restj, hneeds⟩⟩ := h
  have hi : k ≠ i := by
    rintro rfl
    cases hstep.symm.trans hnonei
  have hj : k ≠ j := by
    rintro rfl
    cases hstep.symm.trans hnonej
  refine ⟨?_, hi, hj⟩
  rcases step_cases hstep with ⟨key', rest, _, hfree, rfl⟩ | ⟨key', rest, _, rfl⟩ |
    ⟨_, rest, _, _, rfl⟩
  · refine ⟨⟨resti, by simp [Ne.symm hi, hwaits]⟩, ?_, ⟨restj, by simp [Ne.symm hj, hneeds]⟩⟩
    have hne : key ≠ key' := by
      rintro rfl
      simp [hholds] at hfree
    simp [hne, hholds]
  · refine ⟨⟨resti, by simp [Ne.symm hi, hwaits]⟩, ?_, ⟨restj, by simp [Ne.symm hj, hneeds]⟩⟩
    show (if s.holder key' = some k then Function.update s.holder key' none else s.holder) key =
      some i
    split
    · rename_i howner
      have hne : key ≠ key' := by
        rintro rfl
        rw [hholds] at howner
        exact hi (Option.some.inj howner).symm
      simp [hne, hholds]
    · exact hholds
  · exact ⟨⟨resti, by simp [Ne.symm hi, hwaits]⟩, hholds, ⟨restj, by simp [Ne.symm hj, hneeds]⟩⟩

/-- Neither of them ever goes on, whatever the others do. -/
theorem Entangled.run {s t : Locking ι κ} {i j : ι} {key : κ} {labels : List ι}
    (h : Run s labels t) (hs : Entangled s i j key) :
    Entangled t i j key ∧ i ∉ labels ∧ j ∉ labels := by
  induction h with
  | refl => exact ⟨hs, by simp, by simp⟩
  | step hstep _ ih =>
    obtain ⟨hnext, hi, hj⟩ := hs.step hstep
    obtain ⟨hend, hi', hj'⟩ := ih hnext
    exact ⟨hend, by simp [Ne.symm hi, hi'], by simp [Ne.symm hj, hj']⟩

end Locking
end Bpm
