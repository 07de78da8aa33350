import Bpm.Metadata.Operations

/-!
# Install sessions and collectors side by side

Sessions publish objects, record them, hold leases on them and register projects;
collectors scan, query, repair and delete.  Every transaction on the index is one step,
and so is everything that is done under an object's lock; between two steps of one
party any other party may take some.
-/

namespace Bpm

open MetadataRepository Text

/-- How far a collector has come, and what it has read so far. -/
inductive Collector
  | idle
  | scanned (observed : List ScannedObject)
  | queried (observed : List ScannedObject) (stale : List ObjectKey)
  | repaired
  | collecting (now : Nat) (selected : List ObjectKey)

structure World where
  clock : Nat
  repository : MetadataRepository
  sessions : Nat → Option LeaseGuard
  collectors : Nat → Collector

namespace World

def empty : World := ⟨0, .empty, fun _ => none, fun _ => .idle⟩

def setSession (w : World) (i : Nat) (guard : Option LeaseGuard) : World :=
  { w with sessions := Function.update w.sessions i guard }

def setCollector (w : World) (c : Nat) (collector : Collector) : World :=
  { w with collectors := Function.update w.collectors c collector }

/-- A computation on the repository, whatever comes out of it. -/
def run {α : Type} (w : World) (m : Metadata α) : World :=
  { w with repository := (m w.repository).2 }

/-- A computation that makes a session's guard; a failure leaves the session as it is. -/
def runGuard (w : World) (i : Nat) (m : Metadata LeaseGuard) : World :=
  match m w.repository with
  | (.ok guard, repository) => { w with repository := repository }.setSession i (some guard)
  | (.error _, repository) => { w with repository := repository }

/-- A collector's computation on the repository; it stops when that fails. -/
def runCollector (w : World) (c : Nat) (m : Metadata Unit) (next : Collector) : World :=
  match m w.repository with
  | (.ok _, repository) => { w with repository := repository }.setCollector c next
  | (.error _, repository) => { w with repository := repository }.setCollector c .idle

/-- No live lease has the identity. -/
def Fresh (w : World) (leaseId : Str) : Prop :=
  ∀ i guard, w.sessions i = some guard → guard.leaseId ≠ leaseId

end World

/-- A step of a session, of a heartbeat, or of a collector. -/
inductive Action
  | tick (time : Nat)
  | publish (key : ObjectKey) (entry : StoreEntry)
  | recordObjects (records : List ObjectRecord) (now : Nat)
  | recordAccess (keys : List ObjectKey) (time : Nat)
  | recordGraph (record : ObjectRecord) (inventory : GraphInventory)
  | leaseObjects (i : Nat) (leaseId ownerToken : Str) (artifacts derived : List Str)
      (options : LeaseOptions)
  | leaseGraphObject (i : Nat) (leaseId ownerToken graphHex : Str) (options : LeaseOptions)
  | extend (i : Nat) (graphHex : Str) (derived : List Str)
  | renew (i : Nat)
  | drop (i : Nat)
  | crash (i : Nat)
  | writeRegistration (root graphId : Str) (time : Nat)
  | replaceRef (canonical graphId : Str) (time : Nat)
  | scan (c : Nat)
  | queryStale (c : Nat)
  | repair (c : Nat)
  | queryCandidates (c : Nat) (policy : GcPolicy)
  | collectNext (c : Nat)
  | quit (c : Nat)

/-- The objects that an install reads: artifacts with their images, and derived objects. -/
def sessionKeys (artifacts derived : List Str) : List ObjectKey :=
  artifacts.flatMap (fun hex => [⟨.artifact, hex⟩, ⟨.image, hex⟩]) ++
    derived.map (ObjectKey.mk .derived)

/-- A new graph and the derived objects of its inventory. -/
def graphKeys (graphHex : Str) (derived : List Str) : List ObjectKey :=
  ⟨.graph, graphHex⟩ :: derived.map (ObjectKey.mk .derived)

/-- What a step leads to, where the party can take it. -/
def Action.perform (w : World) : Action → Option World
  | tick time => some { w with clock := time }
  | publish key entry =>
      some (w.run (Run.modify fun s => { s with store := s.store.put key entry }))
  | recordObjects records now => some (w.run (transaction (recordAll records now)))
  | recordAccess keys time =>
      some (w.run (transaction fun index => .ok (keys.foldl (·.upsertAccess · time) index)))
  | recordGraph record inventory => some (w.run (transaction (recordComplete record inventory)))
  | leaseObjects i leaseId ownerToken artifacts derived options =>
      match w.sessions i with
      | some _ => none
      | none => some (w.runGuard i (acquireLease leaseId ownerToken (sessionKeys artifacts derived)
          options w.clock))
  | leaseGraphObject i leaseId ownerToken graphHex options =>
      match w.sessions i with
      | some _ => none
      | none => some (w.runGuard i (acquireLease leaseId ownerToken [⟨.graph, graphHex⟩]
          options w.clock))
  | extend i graphHex derived =>
      (w.sessions i).map fun guard =>
        w.runGuard i (extendLease guard (graphKeys graphHex derived) w.clock)
  | renew i =>
      (w.sessions i).map fun guard => w.run (renewLease guard w.clock (w.clock + guard.ttl))
  | drop i => (w.sessions i).map fun guard => (w.run (releaseLease guard)).setSession i none
  | crash i => (w.sessions i).map fun _ => w.setSession i none
  | writeRegistration root graphId time => some (w.run (writeDurableRegistration root graphId time))
  | replaceRef canonical graphId time =>
      some (w.run (transaction (·.upsertProjectRef canonical graphId time)))
  | scan c =>
      match w.collectors c with
      | .idle => some (w.setCollector c (.scanned (scanNamespaces w.repository.store)))
      | _ => none
  | queryStale c =>
      match w.collectors c with
      | .scanned observed =>
          some (w.setCollector c
            (.queried observed (staleRows w.repository.index w.repository.store)))
      | _ => none
  | repair c =>
      match w.collectors c with
      | .queried observed stale =>
          some (w.runCollector c (transaction (repairTransaction observed stale
            w.repository.store.registrations)) .repaired)
      | _ => none
  | queryCandidates c policy =>
      match w.collectors c with
      | .repaired =>
          match selectObjects policy w.clock w.repository.index with
          | .ok selected => some (w.setCollector c (.collecting w.clock selected))
          | .error _ => some (w.setCollector c .idle)
      | _ => none
  | collectNext c =>
      match w.collectors c with
      | .collecting now (key :: rest) =>
          some (w.runCollector c (collectObject now key) (.collecting now rest))
      | _ => none
  | quit c => some (w.setCollector c .idle)

/-- The identity of the lease that a step makes. -/
def Action.newLease : Action → Option Str
  | leaseObjects _ leaseId _ _ _ _ => some leaseId
  | leaseGraphObject _ leaseId _ _ _ => some leaseId
  | _ => none

/-- The parties' steps in any order; lease identities are never used twice at a time. -/
def sessions : Protocol World Action where
  init w := w = .empty
  step w action w' := (∀ leaseId, action.newLease = some leaseId → w.Fresh leaseId) ∧
    action.perform w = some w'

/-- Steps one after the other, as long as the parties can take them. -/
def runAll (w : World) (actions : List Action) : Option World :=
  actions.foldlM (fun w action => action.perform w) w

theorem reaches_runAll {allowed : World → Action → Prop} {w w' : World} {actions : List Action}
    (h : sessions.Reaches allowed w) (hallowed : ∀ w, ∀ action ∈ actions, allowed w action)
    (hnew : ∀ action ∈ actions, action.newLease = none) (hrun : runAll w actions = some w') :
    sessions.Reaches allowed w' := by
  induction actions generalizing w with
  | nil =>
      cases hrun
      exact h
  | cons action actions ih =>
      obtain ⟨w₁, hfirst, hrest⟩ := Option.bind_eq_some_iff.mp hrun
      have hnone := hnew action List.mem_cons_self
      have hnext : sessions.Reaches allowed w₁ := by
        refine h.next (hallowed w action List.mem_cons_self) ⟨fun leaseId hlease => ?_, hfirst⟩
        rw [hnone] at hlease
        cases hlease
      exact ih hnext (fun w other hother => hallowed w other (List.mem_cons_of_mem _ hother))
        (fun other hother => hnew other (List.mem_cons_of_mem _ hother)) hrest

/-! ## What the computations do -/

section Effects

variable {s s' : MetadataRepository} {index index' : Index}

theorem leases_modifyRow {key : ObjectKey} {f : ObjectRow → ObjectRow} :
    (index.modifyRow key f).leases = index.leases := by
  unfold Index.modifyRow
  cases index.row key <;> rfl

theorem leases_upsertObject {record : ObjectRecord} {planGraphId : Option Str}
    {graphComplete : Option Bool}
    (h : index.upsertObject record planGraphId graphComplete = .ok index') :
    index'.leases = index.leases := by
  unfold Index.upsertObject at h
  split at h
  · cases h
  · split at h
    · cases h
      rfl
    · cases h

theorem leases_upsertGraphEdges {graphId : Str} {inventory : GraphInventory}
    (h : index.upsertGraphEdges graphId inventory = .ok index') :
    index'.leases = index.leases := by
  unfold Index.upsertGraphEdges at h
  split at h
  · cases h
    exact leases_modifyRow
  · cases h

theorem leases_recordAll {records : List ObjectRecord} {now : Nat}
    (h : recordAll records now index = .ok index') : index'.leases = index.leases := by
  refine Folds.invariant (I := fun _ index' => index'.leases = index.leases) h rfl ?_
  intro _ record _ first second _ hpre hstep
  obtain ⟨middle, hupsert, hrest⟩ := Except.bind_eq_ok.mp hstep
  cases hrest
  exact (leases_upsertObject hupsert).trans hpre

theorem leases_recordComplete {record : ObjectRecord} {inventory : GraphInventory}
    (h : recordComplete record inventory index = .ok index') : index'.leases = index.leases := by
  obtain ⟨first, hfirst, hrest⟩ := Except.bind_eq_ok.mp h
  obtain ⟨second, hsecond, hlast⟩ := Except.bind_eq_ok.mp hrest
  cases hlast
  have hedges := leases_upsertGraphEdges hsecond
  exact hedges.trans (leases_modifyRow.trans (leases_upsertObject hfirst))

theorem leases_upsertAccesses {keys : List ObjectKey} {time : Nat} :
    (keys.foldl (·.upsertAccess · time) index).leases = index.leases := by
  induction keys generalizing index with
  | nil => rfl
  | cons key keys ih => exact ih

theorem leases_upsertProjectRef {root graphId : Str} {time : Nat}
    (h : index.upsertProjectRef root graphId time = .ok index') :
    index'.leases = index.leases := by
  obtain ⟨_, rfl⟩ := Index.upsertProjectRef_eq_ok.mp h
  rfl

theorem leases_deleteRow {key : ObjectKey} (h : index.deleteRow key = .ok index') :
    index'.leases = index.leases := by
  obtain ⟨_, rfl⟩ := Index.deleteRow_eq_ok.mp h
  exact leases_erased

/-- A repair drops the leases of the objects that it found stale, and no others. -/
theorem leases_repairTransaction {observed : List ScannedObject} {stale : List ObjectKey}
    {registrations : Map Registration}
    (h : repairTransaction observed stale registrations index = .ok index') :
    index'.leases = index.leases.filter (·.key ∉ stale) := by
  obtain ⟨index₁, index₂, h₁, h₂, h₃⟩ := repairTransaction_eq_ok.mp h
  have hfirst : index₁.leases = index.leases := by
    refine Folds.invariant (I := fun _ index' => index'.leases = index.leases) h₁ rfl ?_
    intro _ object _ first second _ hpre hstep
    exact (repairObject_sets hstep).leases.trans hpre
  rw [(restoreAll_spec h₃).leases, (removeStale_spec h₂).1.leases, hfirst]

/-- A transaction never touches the store, and changes the index only when it succeeds. -/
theorem transaction_cases {f : Index → Except MetadataError Index} (s : MetadataRepository) :
    (∃ index, f s.index = .ok index ∧ transaction f s = (.ok (), { s with index := index })) ∨
      ∃ e, f s.index = .error e ∧ transaction f s = (.error e, s) := by
  unfold transaction
  cases hf : f s.index with
  | ok index => exact Or.inl ⟨index, rfl, rfl⟩
  | error e => exact Or.inr ⟨e, rfl, rfl⟩

/-- Taking an object: nothing happens, or it was published and unprotected and its file
is gone. -/
theorem collectObject_cases (now : Nat) (key : ObjectKey) (s : MetadataRepository) :
    (collectObject now key s).2 = s ∨
      (s.index.protectionActive key now = false ∧
        (collectObject now key s).2.store = s.store.unlink key ∧
        (collectObject now key s).2.index.leases = s.index.leases) := by
  have hunfold : collectObject now key s =
      (if !s.store.isPublished key || s.index.protectionActive key now then pure ()
        else (Run.modify fun s => { s with store := s.store.unlink key }) >>= fun _ =>
          transaction (·.deleteRow key) : Metadata Unit) s := rfl
  rw [hunfold]
  split
  · exact Or.inl rfl
  · rename_i hfree
    rw [Bool.not_eq_true, Bool.or_eq_false_iff] at hfree
    right
    refine ⟨hfree.2, ?_⟩
    change (transaction (·.deleteRow key) { s with store := s.store.unlink key }).2.store = _ ∧
      (transaction (·.deleteRow key) { s with store := s.store.unlink key }).2.index.leases = _
    rcases transaction_cases (f := (·.deleteRow key)) { s with store := s.store.unlink key } with
      ⟨index, hdelete, hrun⟩ | ⟨e, _, hrun⟩
    · rw [hrun]
      exact ⟨rfl, leases_deleteRow hdelete⟩
    · rw [hrun]
      exact ⟨rfl, rfl⟩

end Effects

/-! ## Taking objects on -/

/-- The row of one object under a guard's lease. -/
def leaseRow (guard : LeaseGuard) (now : Nat) (key : ObjectKey) : LeaseRow :=
  ⟨guard.leaseId, guard.ownerToken, key, now, now, now + guard.ttl⟩

/-- A guard takes more objects on: all of them are published, and have new rows. -/
structure TakesOn (base guard : LeaseGuard) (more : List ObjectKey) (now : Nat)
    (s s' : MetadataRepository) : Prop where
  guard_eq : guard = { base with keys := base.keys ++ more }
  published : ∀ key ∈ more, s.store.isPublished key = true
  leases : s'.index.leases = s.index.leases ++ more.map (leaseRow base now)
  store : s'.store = s.store
  lasts : more ≠ [] → 0 < base.ttl

section Grow

variable {s s' : MetadataRepository} {guard : LeaseGuard} {keys : List ObjectKey} {now : Nat}

theorem insertLease_eq_ok (h : insertLease guard keys now (now + guard.ttl) s = (.ok (), s')) :
    s'.index.leases = s.index.leases ++ keys.map (leaseRow guard now) ∧ s'.store = s.store ∧
      (keys ≠ [] → 0 < guard.ttl) := by
  obtain ⟨hfold, hstore⟩ := transaction_eq_ok h
  have hall := Folds.invariant (I := fun done index =>
    index.leases = s.index.leases ++ done.map (leaseRow guard now) ∧
      (done ≠ [] → 0 < guard.ttl)) hfold ⟨by simp, fun h => absurd rfl h⟩ (by
    rintro pre key post first second _ ⟨hleases, _⟩ hstep
    unfold insertLeaseRow at hstep
    split at hstep
    · cases hstep
    · split at hstep
      · cases hstep
      · rename_i hlater
        cases hstep
        refine ⟨?_, fun _ => by omega⟩
        dsimp only
        rw [hleases, List.map_append, List.append_assoc]
        rfl)
  exact ⟨hall.1, hstore, hall.2⟩

theorem acquireLease_eq_ok {leaseId ownerToken : Str} {options : LeaseOptions}
    (h : acquireLease leaseId ownerToken keys options now s = (.ok guard, s')) :
    TakesOn ⟨leaseId, ownerToken, [], options.ttl⟩ guard (canonicalKeys keys) now s s' := by
  obtain ⟨_, s₁, hoptions, hrest⟩ := Run.bind_eq_ok.mp h
  obtain ⟨_, s₂, hpublished, hrest⟩ := Run.bind_eq_ok.mp hrest
  obtain ⟨_, s₃, hinsert, hpure⟩ := Run.bind_eq_ok.mp hrest
  cases hpure
  have hsame : s₁ = s := by
    unfold validateLeaseOptions at hoptions
    split at hoptions
    · cases hoptions
    · cases hoptions
      rfl
  subst hsame
  obtain ⟨rfl, hall⟩ := ensureAllPublished_eq_ok hpublished
  obtain ⟨hleases, hstore, hlasts⟩ := insertLease_eq_ok hinsert
  exact ⟨rfl, hall, hleases, hstore, hlasts⟩

theorem acquireLease_eq_error {leaseId ownerToken : Str} {options : LeaseOptions}
    {e : MetadataError} (h : acquireLease leaseId ownerToken keys options now s = (.error e, s')) :
    s' = s := by
  rcases Run.bind_eq_error.mp h with hoptions | ⟨_, s₁, hoptions, hrest⟩
  · unfold validateLeaseOptions at hoptions
    split at hoptions
    · cases hoptions
      rfl
    · cases hoptions
  · have hsame : s₁ = s := by
      unfold validateLeaseOptions at hoptions
      split at hoptions
      · cases hoptions
      · cases hoptions
        rfl
    subst hsame
    rcases Run.bind_eq_error.mp hrest with hpublished | ⟨_, s₂, hpublished, hlast⟩
    · exact ensureAllPublished_eq_error hpublished
    · obtain ⟨rfl, _⟩ := ensureAllPublished_eq_ok hpublished
      rcases Run.bind_eq_error.mp hlast with hinsert | ⟨_, _, _, hpure⟩
      · exact transaction_eq_error hinsert
      · cases hpure

theorem extendLease_eq_ok {base : LeaseGuard} (h : extendLease base keys now s = (.ok guard, s')) :
    TakesOn base guard ((canonicalKeys keys).filter (· ∉ base.keys)) now s s' := by
  unfold extendLease at h
  split at h
  · rename_i hnone
    cases h
    rw [hnone]
    exact ⟨by simp, fun _ h => absurd h List.not_mem_nil, by simp, rfl, fun h => absurd rfl h⟩
  · obtain ⟨_, s₁, hpublished, hrest⟩ := Run.bind_eq_ok.mp h
    obtain ⟨_, s₂, hinsert, hpure⟩ := Run.bind_eq_ok.mp hrest
    cases hpure
    obtain ⟨rfl, hall⟩ := ensureAllPublished_eq_ok hpublished
    obtain ⟨hleases, hstore, hlasts⟩ := insertLease_eq_ok hinsert
    exact ⟨rfl, hall, hleases, hstore, hlasts⟩

theorem extendLease_eq_error {base : LeaseGuard} {e : MetadataError}
    (h : extendLease base keys now s = (.error e, s')) : s' = s := by
  unfold extendLease at h
  split at h
  · cases h
  · rcases Run.bind_eq_error.mp h with hpublished | ⟨_, s₁, hpublished, hrest⟩
    · exact ensureAllPublished_eq_error hpublished
    · obtain ⟨rfl, _⟩ := ensureAllPublished_eq_ok hpublished
      rcases Run.bind_eq_error.mp hrest with hinsert | ⟨_, _, _, hpure⟩
      · exact transaction_eq_error hinsert
      · cases hpure

end Grow

/-! ## Renewing -/

section Renew

variable {s s' : MetadataRepository} {guard : LeaseGuard} {now expires : Nat}

theorem ownedBy_renewedRow {guard' : LeaseGuard} {row : LeaseRow} :
    ownedBy guard' (renewedRow guard now expires row) = ownedBy guard' row := by
  unfold renewedRow
  split <;> rfl

theorem key_renewedRow {row : LeaseRow} : (renewedRow guard now expires row).key = row.key := by
  unfold renewedRow
  split <;> rfl

/-- What the update does when the checks let it through. -/
theorem renewRows_eq_ok {index index' : Index} (h : renewRows guard now expires index = .ok index') :
    index'.leases = index.leases.map (renewedRow guard now expires) ∧
      ∀ row ∈ index.leases, renewable guard now row = true → now < expires := by
  unfold renewRows at h
  split at h
  · cases h
  · rename_i hcheck
    cases h
    refine ⟨rfl, fun row hrow hrenewable => ?_⟩
    by_contra hlater
    refine hcheck (List.any_eq_true.mpr ⟨row, hrow, ?_⟩)
    rw [hrenewable]
    simp only [Bool.true_and, Bool.or_eq_true, decide_eq_true_eq]
    omega

/-- Renewing changes nothing but times, whether or not it succeeds. -/
theorem renewLease_cases (guard : LeaseGuard) (now expires : Nat) (s : MetadataRepository) :
    (renewLease guard now expires s).2 = s ∨
      ((renewLease guard now expires s).2.store = s.store ∧
        (renewLease guard now expires s).2.index.leases =
          s.index.leases.map (renewedRow guard now expires) ∧
        ∀ row ∈ s.index.leases, renewable guard now row = true → now < expires) := by
  rcases transaction_cases (f := renewRows guard now expires) s with
    ⟨index, hok, hrun⟩ | ⟨e, _, hrun⟩
  · have hall : (renewLease guard now expires s).2 = { s with index := index } := by
      have hbind : renewLease guard now expires s = (.ok _, { s with index := index }) :=
        Run.bind_ok hrun
      rw [hbind]
    rw [hall]
    exact Or.inr ⟨rfl, renewRows_eq_ok hok⟩
  · have hall : renewLease guard now expires s = (.error e, s) := by
      change (transaction (renewRows guard now expires) >>= fun _ => _) s = _
      exact Run.bind_error hrun
    rw [hall]
    exact Or.inl rfl

theorem countP_eq_of_imp {α : Type} {p q : α → Bool} {l : List α}
    (himp : ∀ a ∈ l, p a = true → q a = true) (hcount : l.countP p = l.countP q) :
    ∀ a ∈ l, q a = true → p a = true := by
  induction l with
  | nil => exact fun _ h => absurd h List.not_mem_nil
  | cons b l ih =>
      have hrest := fun a ha => himp a (List.mem_cons_of_mem _ ha)
      have hle := List.countP_mono_left hrest
      rw [List.countP_cons, List.countP_cons] at hcount
      have hfirst : q b = true → p b = true := by
        intro hq
        by_contra hp
        simp only [hq, hp, if_true, if_false] at hcount
        omega
      have hequal : l.countP p = l.countP q := by
        by_cases hq : q b = true
        · simp only [hq, hfirst hq, if_true] at hcount
          omega
        · have hp : ¬p b = true := fun hp => hq (himp b List.mem_cons_self hp)
          simp only [hq, hp] at hcount
          omega
      intro a ha hqa
      rcases List.mem_cons.mp ha with rfl | ha
      · exact hfirst hqa
      · exact ih hrest hequal a ha hqa

/-- Where a renewal succeeds, all rows of the lease last beyond it. -/
theorem renewLease_eq_true (h : renewLease guard now expires s = (.ok true, s')) :
    s'.index.leases = s.index.leases.map (renewedRow guard now expires) ∧
      ∀ row ∈ s'.index.leases, ownedBy guard row = true → row.expiresAt > now := by
  obtain ⟨_, _, hget, hrest⟩ := Run.bind_eq_ok.mp h
  cases hget
  obtain ⟨_, s₁, hupdate, hpure⟩ := Run.bind_eq_ok.mp hrest
  obtain ⟨hcount, rfl⟩ : (decide (s.index.leases.countP (ownedBy guard) > 0) &&
      s.index.leases.countP (renewable guard now) ==
        s.index.leases.countP (ownedBy guard)) = true ∧ s₁ = s' := by
    obtain ⟨hok, hsame⟩ := Prod.mk.inj hpure
    exact ⟨Except.ok.inj hok, hsame⟩
  obtain ⟨hmap, hlater⟩ := renewRows_eq_ok (transaction_eq_ok hupdate).1
  refine ⟨hmap, fun row hrow howned => ?_⟩
  rw [hmap] at hrow
  obtain ⟨old, hold, rfl⟩ := List.mem_map.mp hrow
  rw [ownedBy_renewedRow] at howned
  -- As many rows could be renewed as there are, so this one could.
  have hequal := eq_of_beq ((Bool.and_eq_true ..).mp hcount).2
  have hrenewable : renewable guard now old = true := countP_eq_of_imp
    (fun row _ hrow => ((Bool.and_eq_true ..).mp hrow).1) hequal old hold howned
  unfold renewedRow
  rw [if_pos hrenewable]
  exact hlater old hold hrenewable

end Renew

/-! ## What a step leaves as it is -/

/-- A step that makes a guard grow, or fails and changes nothing. -/
inductive GuardStep (w : World) (i : Nat) (base : LeaseGuard) (more : List ObjectKey)
    (w' : World) : Prop
  | grown (guard : LeaseGuard) (s' : MetadataRepository)
      (h : TakesOn base guard more w.clock w.repository s')
      (hw : w' = { w with repository := s' }.setSession i (some guard))
  | failed (hw : w' = w)

section Steps

variable {w w' : World} {i c : Nat}

theorem guardStep_of_acquire {leaseId ownerToken : Str} {keys : List ObjectKey}
    {options : LeaseOptions} :
    GuardStep w i ⟨leaseId, ownerToken, [], options.ttl⟩ (canonicalKeys keys)
      (w.runGuard i (acquireLease leaseId ownerToken keys options w.clock)) := by
  unfold World.runGuard
  rcases hrun : acquireLease leaseId ownerToken keys options w.clock w.repository with ⟨e | guard, s'⟩
  · exact .failed (by rw [acquireLease_eq_error hrun])
  · exact .grown guard s' (acquireLease_eq_ok hrun) rfl

theorem guardStep_of_extend {base : LeaseGuard} {keys : List ObjectKey} :
    GuardStep w i base ((canonicalKeys keys).filter (· ∉ base.keys))
      (w.runGuard i (extendLease base keys w.clock)) := by
  unfold World.runGuard
  rcases hrun : extendLease base keys w.clock w.repository with ⟨e | guard, s'⟩
  · exact .failed (by rw [extendLease_eq_error hrun])
  · exact .grown guard s' (extendLease_eq_ok hrun) rfl

theorem store_transaction (f : Index → Except MetadataError Index) (s : MetadataRepository) :
    (transaction f s).2.store = s.store := by
  rcases transaction_cases (f := f) s with ⟨index, _, hrun⟩ | ⟨e, _, hrun⟩ <;> rw [hrun]

theorem leases_transaction {f : Index → Except MetadataError Index}
    (h : ∀ index index', f index = .ok index' → index'.leases = index.leases)
    (s : MetadataRepository) : (transaction f s).2.index.leases = s.index.leases := by
  rcases transaction_cases (f := f) s with ⟨index, hok, hrun⟩ | ⟨e, _, hrun⟩
  · rw [hrun]
    exact h _ _ hok
  · rw [hrun]

theorem index_writeDurableRegistration {root graphId : Str} {now : Nat} {s : MetadataRepository} :
    (writeDurableRegistration root graphId now s).2.index = s.index := by
  unfold writeDurableRegistration
  cases absoluteLexical root with
  | none => rfl
  | some canonical =>
      change ((if validId .graph graphId then pure () else Run.fail _ : Metadata Unit) >>= fun _ =>
        Run.modify _) s |>.2.index = _
      cases validId .graph graphId <;> rfl

theorem entries_writeDurableRegistration {root graphId : Str} {now : Nat}
    {s : MetadataRepository} :
    (writeDurableRegistration root graphId now s).2.store.entries = s.store.entries := by
  unfold writeDurableRegistration
  cases absoluteLexical root with
  | none => rfl
  | some canonical =>
      change ((if validId .graph graphId then pure () else Run.fail _ : Metadata Unit) >>= fun _ =>
        Run.modify _) s |>.2.store.entries = _
      cases validId .graph graphId <;> rfl

/-- Where a computation of a collector leads to. -/
theorem runCollector_eq (m : Metadata Unit) (next : Collector) :
    ∃ collector, w.runCollector c m next = (w.run m).setCollector c collector ∧
      (collector = next ∨ collector = .idle) := by
  unfold World.runCollector World.run
  rcases m w.repository with ⟨e | _, s'⟩
  · exact ⟨.idle, rfl, Or.inr rfl⟩
  · exact ⟨next, rfl, Or.inl rfl⟩

/-- The steps that leave sessions and leases as they are. -/
def Action.keepsLeases : Action → Bool
  | leaseObjects .. | leaseGraphObject .. | extend .. | renew .. | drop .. | crash .. => false
  | repair .. => false
  | _ => true

/-- The steps that leave the files of objects as they are. -/
def Action.keepsFiles : Action → Bool
  | publish .. | collectNext .. => false
  | _ => true

/-- The steps of the others, as a collector sees them. -/
def Action.keepsCollectors : Action → Bool
  | scan .. | queryStale .. | repair .. | queryCandidates .. | collectNext .. | quit .. => false
  | _ => true

def Action.keepsClock : Action → Bool
  | tick .. => false
  | _ => true

/-- What a step leaves as it is. -/
structure Frame (action : Action) (w w' : World) : Prop where
  leases : action.keepsLeases = true → w'.sessions = w.sessions ∧
    w'.repository.index.leases = w.repository.index.leases
  files : action.keepsFiles = true → w'.repository.store.entries = w.repository.store.entries
  collectors : action.keepsCollectors = true → w'.collectors = w.collectors
  clock : action.keepsClock = true → w'.clock = w.clock

/-- A transaction that keeps the leases keeps everything that a frame is about. -/
theorem frame_transaction {action : Action} {f : Index → Except MetadataError Index}
    (h : ∀ index index', f index = .ok index' → index'.leases = index.leases) :
    Frame action w (w.run (transaction f)) where
  leases _ := ⟨rfl, leases_transaction h _⟩
  files _ := congrArg Store.entries (store_transaction f w.repository)
  collectors _ := rfl
  clock _ := rfl

theorem frame_guardStep {action : Action} {base : LeaseGuard} {more : List ObjectKey}
    (h : GuardStep w i base more w')
    (hleases : action.keepsLeases = false) : Frame action w w' := by
  cases h with
  | failed hw =>
      rw [hw]
      exact ⟨fun _ => ⟨rfl, rfl⟩, fun _ => rfl, fun _ => rfl, fun _ => rfl⟩
  | grown guard s' htakes hw =>
      subst hw
      refine ⟨fun h => ?_, fun _ => ?_, fun _ => rfl, fun _ => rfl⟩
      · rw [hleases] at h
        cases h
      · change s'.store.entries = _
        rw [htakes.store]

theorem perform_frame {action : Action} (h : action.perform w = some w') : Frame action w w' := by
  cases action with
  | tick time =>
      cases h
      exact ⟨fun _ => ⟨rfl, rfl⟩, fun _ => rfl, fun _ => rfl, nofun⟩
  | publish key entry =>
      cases h
      exact ⟨fun _ => ⟨rfl, rfl⟩, nofun, fun _ => rfl, fun _ => rfl⟩
  | recordObjects records now =>
      cases h
      exact frame_transaction fun _ _ => leases_recordAll
  | recordAccess keys time =>
      cases h
      refine frame_transaction fun index index' hok => ?_
      cases hok
      exact leases_upsertAccesses
  | recordGraph record inventory =>
      cases h
      exact frame_transaction fun _ _ => leases_recordComplete
  | leaseObjects i leaseId ownerToken artifacts derived options =>
      simp only [Action.perform] at h
      split at h
      · cases h
      · cases h
        exact frame_guardStep guardStep_of_acquire rfl
  | leaseGraphObject i leaseId ownerToken graphHex options =>
      simp only [Action.perform] at h
      split at h
      · cases h
      · cases h
        exact frame_guardStep guardStep_of_acquire rfl
  | extend i graphHex derived =>
      obtain ⟨base, _, rfl⟩ := Option.map_eq_some_iff.mp h
      exact frame_guardStep guardStep_of_extend rfl
  | renew i =>
      obtain ⟨base, _, rfl⟩ := Option.map_eq_some_iff.mp h
      refine ⟨nofun, fun _ => ?_, fun _ => rfl, fun _ => rfl⟩
      change (renewLease base w.clock (w.clock + base.ttl) w.repository).2.store.entries = _
      rcases renewLease_cases base w.clock (w.clock + base.ttl) w.repository with
        hsame | ⟨hstore, _⟩
      · rw [hsame]
      · rw [hstore]
  | drop i =>
      obtain ⟨base, _, rfl⟩ := Option.map_eq_some_iff.mp h
      refine ⟨nofun, fun _ => ?_, fun _ => rfl, fun _ => rfl⟩
      change (releaseLease base w.repository).2.store.entries = _
      unfold releaseLease
      rw [store_transaction]
  | crash i =>
      obtain ⟨base, _, rfl⟩ := Option.map_eq_some_iff.mp h
      exact ⟨nofun, fun _ => rfl, fun _ => rfl, fun _ => rfl⟩
  | writeRegistration root graphId time =>
      cases h
      refine ⟨fun _ => ⟨rfl, ?_⟩, fun _ => ?_, fun _ => rfl, fun _ => rfl⟩
      · unfold World.run
        rw [index_writeDurableRegistration]
      · exact entries_writeDurableRegistration
  | replaceRef canonical graphId time =>
      cases h
      exact frame_transaction fun _ _ => leases_upsertProjectRef
  | scan c =>
      simp only [Action.perform] at h
      split at h
      · cases h
        exact ⟨fun _ => ⟨rfl, rfl⟩, fun _ => rfl, nofun, fun _ => rfl⟩
      · cases h
  | queryStale c =>
      simp only [Action.perform] at h
      split at h
      · cases h
        exact ⟨fun _ => ⟨rfl, rfl⟩, fun _ => rfl, nofun, fun _ => rfl⟩
      · cases h
  | repair c =>
      simp only [Action.perform] at h
      split at h
      · rename_i observed stale _
        obtain ⟨collector, hrun, _⟩ := runCollector_eq (w := w) (c := c) (transaction
          (repairTransaction observed stale w.repository.store.registrations)) .repaired
        rw [hrun] at h
        cases h
        refine ⟨nofun, fun _ => ?_, nofun, fun _ => rfl⟩
        exact congrArg Store.entries (store_transaction _ w.repository)
      · cases h
  | queryCandidates c policy =>
      simp only [Action.perform] at h
      split at h
      · split at h
        · cases h
          exact ⟨fun _ => ⟨rfl, rfl⟩, fun _ => rfl, nofun, fun _ => rfl⟩
        · cases h
          exact ⟨fun _ => ⟨rfl, rfl⟩, fun _ => rfl, nofun, fun _ => rfl⟩
      · cases h
  | collectNext c =>
      simp only [Action.perform] at h
      split at h
      · rename_i now key rest _
        obtain ⟨collector, hrun, _⟩ := runCollector_eq (w := w) (c := c) (collectObject now key)
          (.collecting now rest)
        rw [hrun] at h
        cases h
        refine ⟨fun _ => ⟨rfl, ?_⟩, nofun, nofun, fun _ => rfl⟩
        change (collectObject now key w.repository).2.index.leases = _
        rcases collectObject_cases now key w.repository with hsame | ⟨_, _, hleases⟩
        · rw [hsame]
        · exact hleases
      · cases h
  | quit c =>
      cases h
      exact ⟨fun _ => ⟨rfl, rfl⟩, fun _ => rfl, nofun, fun _ => rfl⟩

end Steps

end Bpm
