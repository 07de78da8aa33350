import Bpm.Lib.Protocol
import Bpm.Metadata.Collect

/-!
# Sequences of operations

Installs, repairs and collections on one store, one call after the other.  Whatever
the calls are and whether they succeed or fail, the declared foreign keys hold.
-/

namespace Bpm

open MetadataRepository

/-- A call, with the clock readings and identities it comes by. -/
inductive Operation
  | publish (key : ObjectKey) (entry : StoreEntry)
  | recordPublication (record : ObjectRecord)
  | recordPlan (record : ObjectRecord) (graphId : Str)
  | recordGraph (graphHex : Str) (inventory : GraphInventory) (size : Option Nat)
  | recordObject (key : ObjectKey) (now : Nat)
  | recordObjects (keys : List ObjectKey) (now : Nat)
  | recordAccess (keys : List ObjectKey) (time : Nat)
  | recordDerived (id : Str) (sizeBytes publishedAt : Nat) (accessedAt : Option Nat)
  | acquireLease (leaseId ownerToken : Str) (keys : List ObjectKey) (options : LeaseOptions)
      (now : Nat)
  | extendLease (guard : LeaseGuard) (keys : List ObjectKey) (now : Nat)
  | renewLease (guard : LeaseGuard) (now expires : Nat)
  | releaseLease (guard : LeaseGuard)
  | finalizeProject (root graphHex : Str) (heldBefore heldAfter : Bool) (fileTime refTime : Nat)
  | replaceProjectGraphRef (root graphId : Str) (time : Nat)
  | repair
  | collect (policy : GcPolicy) (now : Nat)

def Operation.perform : Operation → Metadata Unit
  | publish key entry => Run.modify fun s => { s with store := s.store.put key entry }
  | recordPublication record => MetadataRepository.recordPublication record
  | recordPlan record graphId => recordPlanPublication record graphId
  | recordGraph graphHex inventory size => recordGraphWithInventory graphHex inventory size
  | recordObject key now => recordPublishedObject key now
  | recordObjects keys now => recordPublishedObjectsBatch keys now
  | recordAccess keys time => MetadataRepository.recordAccess keys time
  | recordDerived id sizeBytes publishedAt accessedAt =>
      MetadataRepository.recordDerived id sizeBytes publishedAt accessedAt
  | acquireLease leaseId ownerToken keys options now => do
      let _ ← MetadataRepository.acquireLease leaseId ownerToken keys options now
  | extendLease guard keys now => do
      let _ ← MetadataRepository.extendLease guard keys now
  | renewLease guard now expires => do
      let _ ← MetadataRepository.renewLease guard now expires
  | releaseLease guard => MetadataRepository.releaseLease guard
  | finalizeProject root graphHex heldBefore heldAfter fileTime refTime =>
      MetadataRepository.finalizeProject root graphHex heldBefore heldAfter fileTime refTime
  | replaceProjectGraphRef root graphId time =>
      MetadataRepository.replaceProjectGraphRef root graphId time
  | repair => MetadataRepository.repair
  | collect policy now => MetadataRepository.collect policy now

/-- Calls one after the other on a store that is empty at first. -/
def operations : Protocol MetadataRepository Operation where
  init s := s = .empty
  step s operation s' := (operation.perform s).2 = s'

/-- Where some calls lead to. -/
def performAll (calls : List Operation) : MetadataRepository :=
  calls.foldl (fun s call => (call.perform s).2) .empty

theorem reachable_performAll (calls : List Operation) : operations.Reachable (performAll calls) := by
  unfold performAll
  have hall : ∀ s, operations.Reachable s →
      operations.Reachable (calls.foldl (fun s call => (call.perform s).2) s) := by
    induction calls with
    | nil => exact fun s hs => hs
    | cons call calls ih => exact fun s hs => ih _ (hs.next rfl)
  exact hall _ (.start rfl)

/-! ## Foreign keys -/

/-- The foreign keys are kept, whatever comes out. -/
def KeepsForeignKeys {α : Type} (m : Metadata α) : Prop :=
  Run.Keeps (fun s => s.index.ForeignKeys) (fun _ => True) m

namespace KeepsForeignKeys

variable {α β : Type}

theorem pure {a : α} : KeepsForeignKeys (Pure.pure a : Metadata α) := Run.Keeps.pure trivial

theorem fail {e : MetadataError} : KeepsForeignKeys (Run.fail e : Metadata α) := Run.Keeps.fail

theorem bind {m : Metadata α} {f : α → Metadata β} (hm : KeepsForeignKeys m)
    (hf : ∀ a, KeepsForeignKeys (f a)) : KeepsForeignKeys (m >>= f) :=
  Run.Keeps.bind hm fun a _ => hf a

theorem get_bind {f : MetadataRepository → Metadata β} (h : ∀ s, KeepsForeignKeys (f s)) :
    KeepsForeignKeys (Run.get >>= f) :=
  Run.Keeps.get_bind h

theorem modifyStore (f : MetadataRepository → Store) :
    KeepsForeignKeys (Run.modify fun s => { s with store := f s }) :=
  Run.Keeps.modify (fun _ hs => hs) trivial

/-- A transaction keeps the foreign keys when all of its statements do. -/
theorem transaction {f : Index → Except MetadataError Index}
    (h : ∀ index index', index.ForeignKeys → f index = .ok index' → index'.ForeignKeys) :
    KeepsForeignKeys (transaction f) := by
  intro s hs
  unfold MetadataRepository.transaction
  refine ⟨?_, fun _ _ => trivial⟩
  cases hf : f s.index with
  | ok index => exact h s.index index hs hf
  | error e => exact hs

theorem ensurePublished (key : ObjectKey) : KeepsForeignKeys (ensurePublished key) := by
  refine get_bind fun s => ?_
  split
  · exact pure
  · exact fail

theorem ensureAllPublished (keys : List ObjectKey) :
    KeepsForeignKeys (ensureAllPublished keys) :=
  Run.Keeps.forEach keys fun key _ => ensurePublished key

theorem validateId (kind : ObjectKind) (id : Str) : KeepsForeignKeys (validateId kind id) := by
  unfold Bpm.validateId
  split
  · exact pure
  · exact fail

theorem objectRecord (key : ObjectKey) : KeepsForeignKeys (objectRecord key) := by
  refine get_bind fun s => ?_
  split
  · exact pure
  · exact fail

end KeepsForeignKeys

section Statements

variable {index index' : Index}

theorem foreignKeys_upsertAccess (h : index.ForeignKeys) (key : ObjectKey) (time : Nat) :
    (index.upsertAccess key time).ForeignKeys :=
  h.of_rows rfl fun _ _ href => Or.inl href

theorem foreignKeys_leases (h : index.ForeignKeys) (leases : List LeaseRow) :
    ({ index with leases := leases } : Index).ForeignKeys :=
  h.of_rows rfl fun _ _ href => Or.inl href

/-- Upserting an object and then its access time. -/
theorem foreignKeys_upserted (h : index.ForeignKeys) {record : ObjectRecord}
    {planGraphId : Option Str} {graphComplete : Option Bool} {f : Index → Index}
    (hf : ∀ index : Index, index.ForeignKeys → (f index).ForeignKeys)
    (hok : (do
      let index ← index.upsertObject record planGraphId graphComplete
      .ok (f index)) = Except.ok index') : index'.ForeignKeys := by
  obtain ⟨middle, hupsert, hrest⟩ := Except.bind_eq_ok.mp hok
  cases hrest
  exact hf middle (h.upsertObject hupsert)

end Statements

namespace KeepsForeignKeys

theorem recordPublication (record : ObjectRecord) : KeepsForeignKeys (recordPublication record) := by
  refine bind (ensurePublished _) fun _ => transaction fun index index' h hok => ?_
  exact foreignKeys_upserted h (fun _ h => foreignKeys_upsertAccess h _ _) hok

theorem recordPlanPublication (record : ObjectRecord) (graphId : Str) :
    KeepsForeignKeys (recordPlanPublication record graphId) := by
  unfold MetadataRepository.recordPlanPublication
  split
  · exact fail
  · refine bind (validateId _ _) fun _ => bind (ensurePublished _) fun _ =>
      bind (ensurePublished _) fun _ => transaction fun index index' h hok => ?_
    exact foreignKeys_upserted h (fun _ h => foreignKeys_upsertAccess h _ _) hok

theorem recordGraphPublication (record : ObjectRecord) (inventory : GraphInventory) :
    KeepsForeignKeys (recordGraphPublication record inventory) := by
  unfold MetadataRepository.recordGraphPublication
  split
  · exact fail
  · refine bind (ensurePublished _) fun _ => bind (ensureAllPublished _) fun _ =>
      transaction fun index index' h hok => ?_
    obtain ⟨first, hfirst, hrest⟩ := Except.bind_eq_ok.mp hok
    obtain ⟨second, hsecond, hlast⟩ := Except.bind_eq_ok.mp hrest
    cases hlast
    have hmarked := (h.upsertObject hfirst).setGraphComplete record.key.id true
    exact foreignKeys_upsertAccess (hmarked.upsertGraphEdges hsecond) _ _

theorem recordGraphWithInventory (graphHex : Str) (inventory : GraphInventory)
    (size : Option Nat) : KeepsForeignKeys (recordGraphWithInventory graphHex inventory size) := by
  refine bind (validateId _ _) fun _ => bind (ensurePublished _) fun _ => get_bind fun s => ?_
  split
  · exact pure
  · exact bind (objectRecord _) fun record => recordGraphPublication _ _

theorem recordPublishedObject (key : ObjectKey) (now : Nat) :
    KeepsForeignKeys (recordPublishedObject key now) := by
  refine bind (ensurePublished _) fun _ => bind (objectRecord _) fun record =>
    transaction fun index index' h hok => ?_
  exact foreignKeys_upserted h (fun _ h => foreignKeys_upsertAccess h _ _) hok

theorem batchRecord (key : ObjectKey) : KeepsForeignKeys (batchRecord key) := by
  refine get_bind fun s => ?_
  split
  · exact pure
  · exact objectRecord key

theorem recordPublishedObjectsBatch (keys : List ObjectKey) (now : Nat) :
    KeepsForeignKeys (recordPublishedObjectsBatch keys now) := by
  refine bind (ensureAllPublished _) fun _ => bind ?_ fun records =>
    transaction fun index index' h hok => ?_
  · exact Run.Keeps.foldM _ (fun records _ key _ => bind (batchRecord key) fun _ => pure) trivial
  · refine Folds.invariant (I := fun _ index => index.ForeignKeys) hok h ?_
    intro _ record _ first second _ hpre hstep
    exact foreignKeys_upserted hpre (fun _ h => foreignKeys_upsertAccess h _ _) hstep

theorem recordAccess (keys : List ObjectKey) (time : Nat) :
    KeepsForeignKeys (recordAccess keys time) := by
  refine bind (ensureAllPublished _) fun _ => transaction fun index index' h hok => ?_
  cases hok
  induction canonicalKeys keys generalizing index with
  | nil => exact h
  | cons key keys ih => exact ih _ (foreignKeys_upsertAccess h key time)

theorem recordDerived (id : Str) (sizeBytes publishedAt : Nat) (accessedAt : Option Nat) :
    KeepsForeignKeys (recordDerived id sizeBytes publishedAt accessedAt) := by
  refine bind (validateId _ _) fun _ => transaction fun index index' h hok => ?_
  refine foreignKeys_upserted h (fun index h => ?_) hok
  cases accessedAt with
  | none => exact h
  | some time => exact foreignKeys_upsertAccess h _ time

theorem replaceProjectGraphRef (root graphId : Str) (time : Nat) :
    KeepsForeignKeys (replaceProjectGraphRef root graphId time) := by
  unfold MetadataRepository.replaceProjectGraphRef
  split
  · exact fail
  · refine bind (validateId _ _) fun _ => bind (ensurePublished _) fun _ =>
      transaction fun index index' h hok => ?_
    exact h.upsertProjectRef hok

theorem writeDurableRegistration (root graphId : Str) (now : Nat) :
    KeepsForeignKeys (writeDurableRegistration root graphId now) := by
  unfold MetadataRepository.writeDurableRegistration
  split
  · exact fail
  · exact bind (validateId _ _) fun _ => modifyStore _

theorem checkLease (held : Bool) : KeepsForeignKeys (checkLease held) := by
  unfold MetadataRepository.checkLease
  split
  · exact pure
  · exact fail

theorem finalizeProject (root graphHex : Str) (heldBefore heldAfter : Bool)
    (fileTime refTime : Nat) :
    KeepsForeignKeys (finalizeProject root graphHex heldBefore heldAfter fileTime refTime) := by
  refine get_bind fun s => ?_
  split
  · exact pure
  · exact bind (checkLease _) fun _ => bind (writeDurableRegistration _ _ _) fun _ =>
      bind (replaceProjectGraphRef _ _ _) fun _ => checkLease _

theorem insertLease (guard : LeaseGuard) (keys : List ObjectKey) (now expires : Nat) :
    KeepsForeignKeys (insertLease guard keys now expires) := by
  refine transaction fun index index' h hok => ?_
  refine Folds.invariant (I := fun _ index => index.ForeignKeys) hok h ?_
  intro _ key _ first second _ hpre hstep
  unfold insertLeaseRow at hstep
  split at hstep
  · cases hstep
  · split at hstep
    · cases hstep
    · cases hstep
      exact foreignKeys_leases hpre _

theorem acquireLease (leaseId ownerToken : Str) (keys : List ObjectKey) (options : LeaseOptions)
    (now : Nat) : KeepsForeignKeys (acquireLease leaseId ownerToken keys options now) := by
  refine bind ?_ fun _ => bind (ensureAllPublished _) fun _ =>
    bind (insertLease _ _ _ _) fun _ => pure
  unfold validateLeaseOptions
  split
  · exact fail
  · exact pure

theorem extendLease (guard : LeaseGuard) (keys : List ObjectKey) (now : Nat) :
    KeepsForeignKeys (extendLease guard keys now) := by
  unfold MetadataRepository.extendLease
  dsimp only
  split
  · exact pure
  · exact bind (ensureAllPublished _) fun _ => bind (insertLease _ _ _ _) fun _ => pure

theorem renewLease (guard : LeaseGuard) (now expires : Nat) :
    KeepsForeignKeys (renewLease guard now expires) := by
  refine get_bind fun s => bind (transaction fun index index' h hok => ?_) fun _ => pure
  unfold renewRows at hok
  split at hok
  · cases hok
  · cases hok
    exact foreignKeys_leases h _

theorem releaseLease (guard : LeaseGuard) : KeepsForeignKeys (releaseLease guard) := by
  refine transaction fun index index' h hok => ?_
  cases hok
  exact foreignKeys_leases h _

theorem repair : KeepsForeignKeys repair := by
  intro s hs
  exact transaction (f := repairIndex s.store)
    (fun index index' h hok => ForeignKeys_repairTransaction h hok) s hs

theorem collectObject (now : Nat) (key : ObjectKey) :
    KeepsForeignKeys (collectObject now key) := by
  refine get_bind fun s => ?_
  split
  · exact pure
  · exact bind (modifyStore _) fun _ => transaction fun _ _ h hok => h.deleteRow hok

theorem collect (policy : GcPolicy) (now : Nat) : KeepsForeignKeys (collect policy now) := by
  refine bind repair fun _ => get_bind fun s => bind ?_ fun selected => ?_
  · cases selectObjects policy now s.index with
    | ok keys => exact pure
    | error e => exact fail
  · exact Run.Keeps.forEach selected fun key _ => collectObject now key

theorem perform (operation : Operation) : KeepsForeignKeys operation.perform := by
  cases operation with
  | publish key entry => exact modifyStore _
  | recordPublication record => exact recordPublication record
  | recordPlan record graphId => exact recordPlanPublication record graphId
  | recordGraph graphHex inventory size => exact recordGraphWithInventory graphHex inventory size
  | recordObject key now => exact recordPublishedObject key now
  | recordObjects keys now => exact recordPublishedObjectsBatch keys now
  | recordAccess keys time => exact recordAccess keys time
  | recordDerived id sizeBytes publishedAt accessedAt =>
      exact recordDerived id sizeBytes publishedAt accessedAt
  | acquireLease leaseId ownerToken keys options now =>
      exact bind (acquireLease leaseId ownerToken keys options now) fun _ => pure
  | extendLease guard keys now => exact bind (extendLease guard keys now) fun _ => pure
  | renewLease guard now expires => exact bind (renewLease guard now expires) fun _ => pure
  | releaseLease guard => exact releaseLease guard
  | finalizeProject root graphHex heldBefore heldAfter fileTime refTime =>
      exact finalizeProject root graphHex heldBefore heldAfter fileTime refTime
  | replaceProjectGraphRef root graphId time => exact replaceProjectGraphRef root graphId time
  | repair => exact repair
  | collect policy now => exact collect policy now

end KeepsForeignKeys

/-- The foreign keys hold after every sequence of calls. -/
theorem foreignKeys_of_reachable {s : MetadataRepository} (h : operations.Reachable s) :
    s.index.ForeignKeys := by
  refine Protocol.Reaches.invariant (I := fun s => s.index.ForeignKeys) ?_ ?_ h
  · rintro s rfl
    exact foreignKeys_empty
  · rintro s operation s' hs _ rfl
    exact (KeepsForeignKeys.perform operation s hs).1

end Bpm
