import Bpm.Lib.Run
import Bpm.Metadata.Repair

/-!
# The metadata repository

The store directories with their index.  Every call of the repository is a
computation on both: it looks at the file system first and then changes the index in
one transaction, which is rolled back when a statement is refused.
-/

namespace Bpm

open Text

structure MetadataRepository where
  store : Store
  index : Index

abbrev Metadata := Run MetadataError MetadataRepository

/-- A live lease's identity, what it covers, and for how long it is renewed. -/
structure LeaseGuard where
  leaseId : Str
  ownerToken : Str
  keys : List ObjectKey
  ttl : Nat
deriving DecidableEq

/-- Lease timing policy, in milliseconds. -/
structure LeaseOptions where
  ttl : Nat
  renewEvery : Nat
deriving DecidableEq

def validateId (kind : ObjectKind) (id : Str) : Metadata Unit :=
  if validId kind id then pure () else Run.fail (.invalidId kind.asStr id)

/-- The sorted keys, each of them once. -/
def canonicalKeys (keys : List ObjectKey) : List ObjectKey :=
  ObjectKind.all.flatMap fun kind =>
    ((keys.filter (·.kind = kind)).foldl (fun ids key => ids.insert key.id ())
      (∅ : Map Unit)).keys.map (ObjectKey.mk kind)

/-- The absolute root without empty and `.` components, where it has no `..`; any other
path is not what it normalizes to. -/
def absoluteLexical (root : Str) : Option Str :=
  let components := root.splitOn '/'
  if root.head? = some '/' ∧ lit ".." ∉ components then
    some ('/' :: join ['/'] (components.filter fun part => part ≠ [] ∧ part ≠ ['.']))
  else none

namespace MetadataRepository

def empty : MetadataRepository := ⟨.empty, .empty⟩

/-- One transaction on the index. -/
def transaction (f : Index → Except MetadataError Index) : Metadata Unit := fun s =>
  match f s.index with
  | .ok index => (.ok (), { s with index := index })
  | .error e => (.error e, s)

def ensurePublished (key : ObjectKey) : Metadata Unit := do
  let s ← Run.get
  if s.store.isPublished key then pure () else Run.fail (.missingObject key)

def ensureAllPublished (keys : List ObjectKey) : Metadata Unit := Run.forEach ensurePublished keys

/-- What the file system says about an object. -/
def objectRecord (key : ObjectKey) : Metadata ObjectRecord := do
  let s ← Run.get
  match s.store.entry key with
  | some entry => pure ⟨key, entry.sizeBytes, entry.modifiedAt⟩
  | none => Run.fail .io

/-! ## Publications -/

/-- The transaction of a batch. -/
def recordAll (records : List ObjectRecord) (now : Nat) (index : Index) :
    Except MetadataError Index :=
  records.foldlM (fun index record => do
    let index ← index.upsertObject record none none
    .ok (index.upsertAccess record.key now)) index

/-- The transaction that records a graph. -/
def recordComplete (record : ObjectRecord) (inventory : GraphInventory) (index : Index) :
    Except MetadataError Index := do
  let index ← index.upsertObject record none (some true)
  let index ← (index.setGraphComplete record.key.id true).upsertGraphEdges record.key.id inventory
  .ok (index.upsertAccess record.key record.publishedAt)

def recordPublication (record : ObjectRecord) : Metadata Unit := do
  ensurePublished record.key
  transaction fun index => do
    let index ← index.upsertObject record none none
    .ok (index.upsertAccess record.key record.publishedAt)

def recordPlanPublication (record : ObjectRecord) (graphId : Str) : Metadata Unit := do
  if record.key.kind ≠ .plan then Run.fail (.invalidId (lit "plan") record.key.id)
  else
    validateId .graph graphId
    ensurePublished record.key
    ensurePublished ⟨.graph, graphId⟩
    transaction fun index => do
      let index ← index.upsertObject record (some graphId) none
      .ok (index.upsertAccess record.key record.publishedAt)

/-- The objects that an inventory lists. -/
def listedKeys (inventory : GraphInventory) : List ObjectKey :=
  inventory.artifacts.keys.map (ObjectKey.mk .artifact) ++
    inventory.derived.keys.map (ObjectKey.mk .derived)

def recordGraphPublication (record : ObjectRecord) (inventory : GraphInventory) : Metadata Unit := do
  if record.key.kind ≠ .graph then Run.fail (.invalidId (lit "graph") record.key.id)
  else
    ensurePublished record.key
    ensureAllPublished (listedKeys inventory)
    transaction (recordComplete record inventory)

def graphAlreadyComplete (index : Index) (graphHex : Str) : Bool :=
  (index.row ⟨.graph, graphHex⟩).any (·.complete)

/-- The measured size of the volume is used where it is known. -/
def recordGraphWithInventory (graphHex : Str) (inventory : GraphInventory) (size : Option Nat) :
    Metadata Unit := do
  validateId .graph graphHex
  ensurePublished ⟨.graph, graphHex⟩
  let s ← Run.get
  if graphAlreadyComplete s.index graphHex then pure ()
  else
    let record ← objectRecord ⟨.graph, graphHex⟩
    recordGraphPublication { record with sizeBytes := size.getD record.sizeBytes } inventory

def recordPublishedObject (key : ObjectKey) (now : Nat) : Metadata Unit := do
  ensurePublished key
  let record ← objectRecord key
  transaction fun index => do
    let index ← index.upsertObject record none none
    .ok (index.upsertAccess key now)

/-- The record that is indexed already, or else what the file system says.  Plans are
never looked up. -/
def batchRecord (key : ObjectKey) : Metadata ObjectRecord := do
  let s ← Run.get
  match if key.kind = .plan then none else s.index.row key with
  | some row => pure ⟨key, row.sizeBytes, row.publishedAt⟩
  | none => objectRecord key

def recordPublishedObjectsBatch (keys : List ObjectKey) (now : Nat) : Metadata Unit := do
  let keys := canonicalKeys keys
  ensureAllPublished keys
  let records ← Run.foldM (fun records key => do
    let record ← batchRecord key
    pure (records ++ [record])) [] keys
  transaction (recordAll records now)

def recordAccess (keys : List ObjectKey) (time : Nat) : Metadata Unit := do
  let keys := canonicalKeys keys
  ensureAllPublished keys
  transaction fun index => .ok (keys.foldl (·.upsertAccess · time) index)

/-- The derived store's own record of one of its objects, and of an access to it. -/
def recordDerived (id : Str) (sizeBytes publishedAt : Nat) (accessedAt : Option Nat) :
    Metadata Unit := do
  validateId .derived id
  transaction fun index => do
    let index ← index.upsertObject ⟨⟨.derived, id⟩, sizeBytes, publishedAt⟩ none none
    .ok ((accessedAt.map (index.upsertAccess ⟨.derived, id⟩ ·)).getD index)

/-! ## Projects -/

/-- Upsert a project and replace its sole graph reference. -/
def replaceProjectGraphRef (root graphId : Str) (time : Nat) : Metadata Unit :=
  match absoluteLexical root with
  | none => Run.fail (.invalidProjectRoot root)
  | some canonical => do
      validateId .graph graphId
      ensurePublished ⟨.graph, graphId⟩
      transaction (·.upsertProjectRef canonical graphId time)

/-- The file is overwritten, whatever it says. -/
def writeDurableRegistration (root graphId : Str) (now : Nat) : Metadata Unit :=
  match absoluteLexical root with
  | none => Run.fail (.invalidProjectRoot root)
  | some canonical => do
      validateId .graph graphId
      Run.modify fun s => { s with
        store := { s.store with
          registrations := s.store.registrations.insert canonical ⟨graphId, now⟩ } }

/-- The graph is complete, and both the reference and the registration file name it. -/
def cachedGraphProtectionCurrent (s : MetadataRepository) (root graphHex : Str) : Bool :=
  (absoluteLexical root).any fun canonical =>
    graphAlreadyComplete s.index graphHex &&
      (s.index.projectRef canonical).any (·.graphId == graphHex) &&
      s.store.registrations[canonical]?.any (·.graphId == graphHex)

/-- Whether a lease is still held, as its guard knows it. -/
def checkLease (held : Bool) : Metadata Unit := if held then pure () else Run.fail .leaseLost

/-- Publish a project's ownership of an attached graph.  The clock is read for the
file and again for the reference; the lease is checked before and after. -/
def finalizeProject (root graphHex : Str) (heldBefore heldAfter : Bool) (fileTime refTime : Nat) :
    Metadata Unit := do
  let s ← Run.get
  if s.cachedGraphProtectionCurrent root graphHex then pure ()
  else
    checkLease heldBefore
    writeDurableRegistration root graphHex fileTime
    replaceProjectGraphRef root graphHex refTime
    checkLease heldAfter

/-! ## Leases -/

/-- One lease row more; the key of the table and its checks are kept. -/
def insertLeaseRow (guard : LeaseGuard) (now expires : Nat) (index : Index) (key : ObjectKey) :
    Except MetadataError Index :=
  if index.leases.any fun row => row.leaseId = guard.leaseId ∧ row.key = key then
    .error (.sql .primaryKey)
  else if expires ≤ now then .error (.sql .check)
  else .ok { index with
    leases := index.leases ++ [⟨guard.leaseId, guard.ownerToken, key, now, now, expires⟩] }

def insertLease (guard : LeaseGuard) (keys : List ObjectKey) (now expires : Nat) : Metadata Unit :=
  transaction fun index => keys.foldlM (insertLeaseRow guard now expires) index

def validateLeaseOptions (options : LeaseOptions) : Metadata Unit :=
  if options.renewEvery = 0 ∨ options.ttl < options.renewEvery * 3 then
    Run.fail .invalidLeaseOptions
  else pure ()

/-- A lease on published objects, under a new identity. -/
def acquireLease (leaseId ownerToken : Str) (keys : List ObjectKey) (options : LeaseOptions)
    (now : Nat) : Metadata LeaseGuard := do
  validateLeaseOptions options
  let keys := canonicalKeys keys
  ensureAllPublished keys
  let guard := ⟨leaseId, ownerToken, keys, options.ttl⟩
  insertLease guard keys now (now + options.ttl)
  pure guard

/-- The same lease on more objects. -/
def extendLease (guard : LeaseGuard) (keys : List ObjectKey) (now : Nat) :
    Metadata LeaseGuard := do
  let newKeys := (canonicalKeys keys).filter (· ∉ guard.keys)
  if newKeys = [] then pure guard
  else
    ensureAllPublished newKeys
    insertLease guard newKeys now (now + guard.ttl)
    pure { guard with keys := guard.keys ++ newKeys }

def ownedBy (guard : LeaseGuard) (row : LeaseRow) : Bool :=
  row.leaseId = guard.leaseId ∧ row.ownerToken = guard.ownerToken

/-- The row can be renewed: it has not expired. -/
def renewable (guard : LeaseGuard) (now : Nat) (row : LeaseRow) : Bool :=
  ownedBy guard row && decide (row.expiresAt > now)

/-- A row once its lease has been renewed. -/
def renewedRow (guard : LeaseGuard) (now expires : Nat) (row : LeaseRow) : LeaseRow :=
  if renewable guard now row then { row with renewedAt := now, expiresAt := expires } else row

/-- The rows that can be renewed are; the checks of the table are kept. -/
def renewRows (guard : LeaseGuard) (now expires : Nat) (index : Index) :
    Except MetadataError Index :=
  if index.leases.any fun row => renewable guard now row && (now < row.acquiredAt || expires ≤ now)
  then .error (.sql .check)
  else .ok { index with leases := index.leases.map (renewedRow guard now expires) }

/-- A lease is renewed when it has rows and none of them has expired. -/
def renewLease (guard : LeaseGuard) (now expires : Nat) : Metadata Bool := do
  let s ← Run.get
  let expected := s.index.leases.countP (ownedBy guard)
  let changed := s.index.leases.countP (renewable guard now)
  transaction (renewRows guard now expires)
  pure (decide (expected > 0) && changed == expected)

def releaseLease (guard : LeaseGuard) : Metadata Unit :=
  transaction fun index => .ok { index with leases := index.leases.filter (!ownedBy guard ·) }

/-! ## Repair -/

def repair : Metadata Unit := fun s => transaction (repairIndex s.store) s

/-! ## Calls that succeed -/

section Calls

variable {s : MetadataRepository}

theorem transaction_eq_ok {f : Index → Except MetadataError Index} {s' : MetadataRepository}
    (h : transaction f s = (.ok (), s')) : f s.index = .ok s'.index ∧ s'.store = s.store := by
  unfold transaction at h
  cases hf : f s.index with
  | error e =>
      rw [hf] at h
      cases h
  | ok index =>
      rw [hf] at h
      cases h
      exact ⟨rfl, rfl⟩

/-- A check that passes leaves the state alone. -/
theorem check_eq_ok {b : Bool} {e : MetadataError} {s' : MetadataRepository}
    (h : (if b then pure () else Run.fail e : Metadata Unit) s = (.ok (), s')) : s' = s := by
  cases b with
  | false => cases h
  | true =>
      cases h
      rfl

theorem validateId_eq_ok {kind : ObjectKind} {id : Str} {s' : MetadataRepository}
    (h : validateId kind id s = (.ok (), s')) : s' = s :=
  check_eq_ok h

theorem ensurePublished_eq_ok {key : ObjectKey} {s' : MetadataRepository}
    (h : ensurePublished key s = (.ok (), s')) : s' = s := by
  obtain ⟨_, _, hget, hcheck⟩ := Run.bind_eq_ok.mp h
  cases hget
  exact check_eq_ok hcheck

theorem ensureAllPublished_eq_ok {keys : List ObjectKey} {s' : MetadataRepository}
    (h : ensureAllPublished keys s = (.ok (), s')) :
    s' = s ∧ ∀ key ∈ keys, s.store.isPublished key = true := by
  induction keys with
  | nil =>
      cases h
      exact ⟨rfl, fun _ h => absurd h List.not_mem_nil⟩
  | cons key keys ih =>
      obtain ⟨_, s₁, hfirst, hrest⟩ := Run.bind_eq_ok.mp h
      obtain rfl := ensurePublished_eq_ok hfirst
      obtain ⟨hsame, hall⟩ := ih hrest
      refine ⟨hsame, fun other hother => ?_⟩
      rcases List.mem_cons.mp hother with rfl | hother
      · cases hpublished : s₁.store.isPublished other with
        | true => rfl
        | false =>
            have hstop : ensurePublished other s₁ = (.error (.missingObject other), s₁) := by
              unfold ensurePublished
              change (if s₁.store.isPublished other then pure () else Run.fail _ :
                Metadata Unit) s₁ = _
              rw [hpublished]
              rfl
            rw [hstop] at hfirst
            cases hfirst
      · exact hall other hother

/-! ## Calls that fail -/

theorem transaction_eq_error {f : Index → Except MetadataError Index} {e : MetadataError}
    {s' : MetadataRepository} (h : transaction f s = (.error e, s')) : s' = s := by
  unfold transaction at h
  cases hf : f s.index with
  | error e =>
      rw [hf] at h
      cases h
      rfl
  | ok index =>
      rw [hf] at h
      cases h

theorem check_eq_error {b : Bool} {e e' : MetadataError} {s' : MetadataRepository}
    (h : (if b then pure () else Run.fail e : Metadata Unit) s = (.error e', s')) : s' = s := by
  cases b with
  | false =>
      cases h
      rfl
  | true => cases h

theorem ensureAllPublished_eq_error {keys : List ObjectKey} {e : MetadataError}
    {s' : MetadataRepository} (h : ensureAllPublished keys s = (.error e, s')) : s' = s := by
  induction keys with
  | nil => cases h
  | cons key keys ih =>
      rcases Run.bind_eq_error.mp h with hfirst | ⟨_, s₁, hfirst, hrest⟩
      · rcases Run.bind_eq_error.mp hfirst with hget | ⟨_, _, hget, hcheck⟩
        · cases hget
        · cases hget
          exact check_eq_error hcheck
      · obtain rfl := ensurePublished_eq_ok hfirst
        exact ih hrest

end Calls

end MetadataRepository
end Bpm
