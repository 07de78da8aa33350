import Bpm.Lib.Folds
import Bpm.Metadata.Index

/-!
# Repairing the index

The file system is the authority: a repair scans the namespaces of the store, upserts
every object that is published there, rebuilds the edges of graphs from their
volumes, removes the rows whose object is gone, and restores the references of
projects from their registration files, all in one transaction.  The scan and the
query for stale rows come before the transaction.
-/

namespace Bpm

open Text

/-- What lies at an object's canonical path.  The inventory is that of a graph volume
whose marker has a complete one; the graph is the one that a plan file names. -/
structure StoreEntry where
  sizeBytes : Nat
  modifiedAt : Nat
  inventory : Option GraphInventory
  graphId : Str
deriving DecidableEq

/-- A project's durable registration file. -/
structure Registration where
  graphId : Str
  updatedAt : Nat
deriving DecidableEq

/-- The store directories, without entries that no publication leaves behind. -/
structure Store where
  entries : Tables ObjectKind StoreEntry
  registrations : Map Registration

namespace Store

def empty : Store := ⟨fun _ => ∅, ∅⟩

def entry (store : Store) (key : ObjectKey) : Option StoreEntry := (store.entries key.kind)[key.id]?

def has (store : Store) (key : ObjectKey) : Bool := (store.entry key).isSome

def put (store : Store) (key : ObjectKey) (entry : StoreEntry) : Store :=
  { store with entries := store.entries.set key.kind key.id entry }

def unlink (store : Store) (key : ObjectKey) : Store :=
  { store with entries := store.entries.erase key.kind key.id }

/-- An image is published as long as its artifact is. -/
def isPublished (store : Store) (key : ObjectKey) : Bool :=
  store.has key && (key.kind != .image || store.has ⟨.artifact, key.id⟩)

end Store

/-- One object discovered by a scan. -/
structure ScannedObject where
  record : ObjectRecord
  planGraphId : Option Str
  graphInventory : Option GraphInventory

def scannedObject (key : ObjectKey) (entry : StoreEntry) : ScannedObject where
  record := ⟨key, entry.sizeBytes, entry.modifiedAt⟩
  planGraphId := if key.kind = .plan then some entry.graphId else none
  graphInventory := if key.kind = .graph then entry.inventory else none

/-- The published objects, in key order. -/
def scanNamespaces (store : Store) : List ScannedObject :=
  ObjectKind.all.flatMap fun kind =>
    ((store.entries kind).toList.filter fun entry => store.isPublished ⟨kind, entry.1⟩).map
      fun entry => scannedObject ⟨kind, entry.1⟩ entry.2

/-- The tables in the order in which stale rows are removed: what refers to other
rows comes before them. -/
def staleOrder : List ObjectKind := [.plan, .graph, .image, .derived, .artifact]

def staleRows (index : Index) (store : Store) : List ObjectKey :=
  staleOrder.flatMap fun kind =>
    ((index.rows kind).keys.map (ObjectKey.mk kind)).filter (!store.isPublished ·)

def observes (observed : List ScannedObject) (key : ObjectKey) : Bool :=
  observed.any (·.record.key = key)

/-- A graph is complete when its inventory is there and all of it was observed. -/
def inventoryComplete (observed : List ScannedObject) (inventory : GraphInventory) : Bool :=
  inventory.artifacts.keys.all (fun id => observes observed ⟨.artifact, id⟩) &&
    inventory.derived.keys.all fun id => observes observed ⟨.derived, id⟩

def repairGraph (observed : List ScannedObject) (index : Index) (graphId : Str)
    (inventory : Option GraphInventory) : Except MetadataError Index :=
  match inventory.filter (inventoryComplete observed) with
  | some inventory =>
      (index.setGraphComplete graphId true).upsertGraphEdges graphId inventory
  | none => .ok ((index.setGraphComplete graphId false).deleteGraphEdges graphId)

def repairObject (observed : List ScannedObject) (index : Index) (object : ScannedObject) :
    Except MetadataError Index := do
  let index ← index.upsertObject object.record object.planGraphId none
  if object.record.key.kind = .graph then
    repairGraph observed index object.record.key.id object.graphInventory
  else .ok index

def removeStaleRow (index : Index) (key : ObjectKey) : Except MetadataError Index := do
  let index := if key.kind = .graph then index.deleteRefsTo key.id else index
  let index ← index.deleteRow key
  .ok ((index.deleteAccess key).deleteLeases key)

/-- Only registrations of observed graphs count; the others stay on disk. -/
def restoreRef (observed : List ScannedObject) (index : Index) (entry : Str × Registration) :
    Except MetadataError Index :=
  if observes observed ⟨.graph, entry.2.graphId⟩ then
    index.upsertProjectRef entry.1 entry.2.graphId entry.2.updatedAt
  else .ok index

def repairTransaction (observed : List ScannedObject) (stale : List ObjectKey)
    (registrations : Map Registration) (index : Index) : Except MetadataError Index := do
  let index ← observed.foldlM (repairObject observed) index
  let index ← stale.foldlM removeStaleRow index
  registrations.toList.foldlM (restoreRef observed) index

def repairIndex (store : Store) (index : Index) : Except MetadataError Index :=
  repairTransaction (scanNamespaces store) (staleRows index store) store.registrations index

/-! ## What is scanned -/

namespace Store

variable {store : Store} {key : ObjectKey}

theorem has_iff : store.has key = true ↔ ∃ entry, store.entry key = some entry :=
  Option.isSome_iff_exists

theorem has_of_isPublished (h : store.isPublished key = true) : store.has key = true := by
  unfold isPublished at h
  exact ((Bool.and_eq_true ..).mp h).1

/-- Whatever is no image is published once it is there. -/
theorem isPublished_eq_has (h : key.kind ≠ .image) : store.isPublished key = store.has key := by
  simp [isPublished, h]

end Store

section Scan

variable {store : Store}

theorem mem_scanNamespaces {object : ScannedObject} : object ∈ scanNamespaces store ↔
    ∃ key entry, store.entry key = some entry ∧ store.isPublished key = true ∧
      object = scannedObject key entry := by
  unfold scanNamespaces
  simp only [List.mem_flatMap, List.mem_map, List.mem_filter, Prod.exists, Map.mem_toList]
  constructor
  · rintro ⟨kind, _, id, entry, ⟨hentry, hpublished⟩, rfl⟩
    exact ⟨⟨kind, id⟩, entry, hentry, hpublished, rfl⟩
  · rintro ⟨⟨kind, id⟩, entry, hentry, hpublished, rfl⟩
    exact ⟨kind, kind.mem_all, id, entry, ⟨hentry, hpublished⟩, rfl⟩

theorem observes_iff {observed : List ScannedObject} {key : ObjectKey} :
    observes observed key = true ↔ ∃ object ∈ observed, object.record.key = key := by
  simp [observes]

/-- Exactly what is published is observed. -/
theorem observes_scan {key : ObjectKey} :
    observes (scanNamespaces store) key = store.isPublished key := by
  rw [Bool.eq_iff_iff, observes_iff]
  constructor
  · rintro ⟨object, hmem, rfl⟩
    obtain ⟨key, entry, _, hpublished, rfl⟩ := mem_scanNamespaces.mp hmem
    exact hpublished
  · intro hpublished
    obtain ⟨entry, hentry⟩ := Store.has_iff.mp (Store.has_of_isPublished hpublished)
    exact ⟨_, mem_scanNamespaces.mpr ⟨key, entry, hentry, hpublished, rfl⟩, rfl⟩

/-- No object is observed twice. -/
theorem scanNamespaces_nodup (store : Store) :
    ((scanNamespaces store).map (·.record.key)).Nodup := by
  have hkeys : (scanNamespaces store).map (·.record.key) = ObjectKind.all.flatMap fun kind =>
      ((store.entries kind).toList.filter fun entry => store.isPublished ⟨kind, entry.1⟩).map
        fun entry => ObjectKey.mk kind entry.1 := by
    unfold scanNamespaces
    rw [List.map_flatMap]
    simp only [List.map_map]
    rfl
  rw [hkeys]
  refine List.nodup_flatMap.mpr ⟨fun kind _ => ?_, ?_⟩
  · have hnodup : ((store.entries kind).toList.map Prod.fst).Nodup := by
      rw [Std.ExtTreeMap.map_fst_toList_eq_keys]
      exact (store.entries kind).nodup_keys
    have hmap : ((store.entries kind).toList.filter fun entry =>
        store.isPublished ⟨kind, entry.1⟩).map (fun entry => ObjectKey.mk kind entry.1) =
        (((store.entries kind).toList.filter fun entry =>
          store.isPublished ⟨kind, entry.1⟩).map Prod.fst).map (ObjectKey.mk kind) := by
      rw [List.map_map]
      rfl
    rw [hmap]
    refine (List.Nodup.map ?_ ((List.filter_sublist.map _).nodup hnodup))
    intro id id' heq
    exact congrArg ObjectKey.id heq
  · refine List.Pairwise.imp ?_ (by decide : ObjectKind.all.Pairwise (· ≠ ·))
    intro kind kind' hne key hkey hkey'
    obtain ⟨_, _, rfl⟩ := List.mem_map.mp hkey
    obtain ⟨_, _, heq⟩ := List.mem_map.mp hkey'
    exact hne (congrArg ObjectKey.kind heq).symm

/-- Kind by kind, in the order of the kinds. -/
theorem scanNamespaces_sorted (store : Store) : (scanNamespaces store).Pairwise fun a b =>
    ObjectKind.all.idxOf a.record.key.kind ≤ ObjectKind.all.idxOf b.record.key.kind := by
  have hkind : ∀ kind, ∀ object ∈ ((store.entries kind).toList.filter fun entry =>
      store.isPublished ⟨kind, entry.1⟩).map fun entry => scannedObject ⟨kind, entry.1⟩ entry.2,
      object.record.key.kind = kind := by
    intro kind object hobject
    obtain ⟨entry, _, rfl⟩ := List.mem_map.mp hobject
    rfl
  refine List.pairwise_flatMap.mpr ⟨fun kind _ => ?_, ?_⟩
  · refine List.pairwise_of_forall_mem_list fun a ha b hb => ?_
    rw [hkind kind a ha, hkind kind b hb]
  · have hall : ObjectKind.all.Pairwise fun a b =>
        ObjectKind.all.idxOf a ≤ ObjectKind.all.idxOf b := by decide
    refine hall.imp fun {kind kind'} hle a ha b hb => ?_
    rw [hkind kind a ha, hkind kind' b hb]
    exact hle

end Scan

/-! ## The rows of what was observed -/

/-- A graph's row once its volume has been looked at. -/
def graphRow (observed : List ScannedObject) (inventory : Option GraphInventory) (row : ObjectRow) :
    ObjectRow :=
  match inventory.filter (inventoryComplete observed) with
  | some inventory => { row with complete := true, edges := inventory }
  | none => { row with complete := false, edges := .empty }

/-- The row of an observed object. -/
def observedRow (observed : List ScannedObject) (old : Option ObjectRow) (object : ScannedObject) :
    ObjectRow :=
  let row := Index.upsertedRow old object.record object.planGraphId none
  if object.record.key.kind = .graph then graphRow observed object.graphInventory row else row

/-- Only one row changes. -/
structure SetsRow (key : ObjectKey) (row : ObjectRow) (index index' : Index) : Prop where
  rows : ∀ k, index'.row k = if k = key then some row else index.row k
  projects : index'.projects = index.projects
  leases : index'.leases = index.leases
  accessLog : index'.accessLog = index.accessLog

theorem SetsRow.setRow (key : ObjectKey) (row : ObjectRow) (index : Index) :
    SetsRow key row index (index.setRow key row) :=
  ⟨fun _ => Index.row_setRow row, rfl, rfl, rfl⟩

theorem SetsRow.modifyRow {key : ObjectKey} {row : ObjectRow} {index index' : Index}
    (h : SetsRow key row index index') (f : ObjectRow → ObjectRow) :
    SetsRow key (f row) index (index'.modifyRow key f) := by
  have hrow : index'.row key = some row := by rw [h.rows, if_pos rfl]
  have hmodify : index'.modifyRow key f = index'.setRow key (f row) := by
    unfold Index.modifyRow
    rw [hrow]
  rw [hmodify]
  refine ⟨fun k => ?_, h.projects, h.leases, h.accessLog⟩
  rw [Index.row_setRow, h.rows]
  by_cases hk : k = key <;> simp [hk]

section Observe

variable {observed : List ScannedObject} {index index' : Index} {object : ScannedObject}

theorem SetsRow.repairGraph {graphId : Str} {inventory : Option GraphInventory} {row : ObjectRow}
    {before : Index} (h : SetsRow ⟨.graph, graphId⟩ row before index)
    (hok : repairGraph observed index graphId inventory = .ok index') :
    SetsRow ⟨.graph, graphId⟩ (graphRow observed inventory row) before index' := by
  unfold Bpm.repairGraph at hok
  unfold graphRow
  cases hcomplete : inventory.filter (inventoryComplete observed) with
  | none =>
      rw [hcomplete] at hok
      cases hok
      have hmarked := h.modifyRow fun row => { row with complete := false }
      exact hmarked.modifyRow fun row => { row with edges := .empty }
  | some inventory =>
      rw [hcomplete] at hok
      dsimp only at hok
      unfold Index.upsertGraphEdges at hok
      split at hok
      · cases hok
        have hmarked := h.modifyRow fun row => { row with complete := true }
        exact hmarked.modifyRow fun row => { row with edges := inventory }
      · cases hok

/-- A repaired object changes its own row. -/
theorem repairObject_sets (h : repairObject observed index object = .ok index') :
    SetsRow object.record.key (observedRow observed (index.row object.record.key) object)
      index index' := by
  unfold repairObject at h
  rw [Except.bind_eq_ok] at h
  obtain ⟨first, hfirst, hrest⟩ := h
  have hset : SetsRow object.record.key (Index.upsertedRow (index.row object.record.key)
      object.record object.planGraphId none) index first := by
    unfold Index.upsertObject at hfirst
    split at hfirst
    · cases hfirst
    · split at hfirst
      · cases hfirst
        exact .setRow _ _ _
      · cases hfirst
  unfold observedRow
  dsimp only
  split at hrest
  · rename_i hkind
    have hkey : object.record.key = ⟨.graph, object.record.key.id⟩ := by rw [← hkind]
    rw [if_pos hkind]
    rw [hkey] at hset ⊢
    exact hset.repairGraph hrest
  · rename_i hkind
    cases hrest
    rw [if_neg hkind]
    exact hset

/-- What an object's row refers to is indexed, and so is what its inventory lists. -/
structure Fits (observed : List ScannedObject) (index : Index) (object : ScannedObject) : Prop where
  parent : index.parentIndexed object.record.key object.planGraphId = true
  inventory : ∀ inventory, object.graphInventory.filter (inventoryComplete observed) = some inventory →
    index.hasAll inventory = true

theorem repairObject_total (h : Fits observed index object)
    (hplan : object.record.key.kind = .plan → object.planGraphId ≠ none) :
    ∃ index', repairObject observed index object = .ok index' := by
  have hnot : ¬(object.record.key.kind = .plan ∧ object.planGraphId = none) :=
    fun hboth => hplan hboth.1 hboth.2
  unfold repairObject Index.upsertObject
  rw [if_neg hnot, if_pos h.parent]
  simp only [bind, Except.bind]
  split
  · rename_i hkind
    have hkey : object.record.key = ⟨.graph, object.record.key.id⟩ := by rw [← hkind]
    unfold repairGraph
    cases hcomplete : object.graphInventory.filter (inventoryComplete observed) with
    | none => exact ⟨_, rfl⟩
    | some inventory =>
        have hall := Index.hasAll_iff.mp (h.inventory inventory hcomplete)
        dsimp only
        unfold Index.upsertGraphEdges
        have hgraph : ((index.setRow object.record.key (Index.upsertedRow
            (index.row object.record.key) object.record object.planGraphId none)).setGraphComplete
            object.record.key.id true).has ⟨.graph, object.record.key.id⟩ = true := by
          unfold Index.setGraphComplete
          rw [Index.has_modifyRow, Index.has_setRow, ← hkey, decide_eq_true rfl, Bool.true_or]
        have hlisted : ((index.setRow object.record.key (Index.upsertedRow
            (index.row object.record.key) object.record object.planGraphId none)).setGraphComplete
            object.record.key.id true).hasAll inventory = true := by
          refine Index.hasAll_iff.mpr fun key hlists => ?_
          unfold Index.setGraphComplete
          rw [Index.has_modifyRow, Index.has_setRow, hall key hlists, Bool.or_true]
        rw [hgraph, hlisted]
        exact ⟨_, rfl⟩
  · exact ⟨_, rfl⟩

end Observe

section ObserveAll

variable {store : Store} {index index' : Index}

theorem inventoryComplete_iff {observed : List ScannedObject} {inventory : GraphInventory} :
    inventoryComplete observed inventory = true ↔
      ∀ key, inventory.lists key = true → observes observed key = true := by
  unfold inventoryComplete
  simp only [Bool.and_eq_true, List.all_eq_true, Std.ExtTreeMap.mem_keys]
  constructor
  · rintro ⟨hartifacts, hderived⟩ ⟨kind, id⟩ hlists
    cases kind with
    | artifact => exact hartifacts id (by simpa [GraphInventory.lists] using hlists)
    | derived => exact hderived id (by simpa [GraphInventory.lists] using hlists)
    | image => cases hlists
    | graph => cases hlists
    | plan => cases hlists
  · intro h
    refine ⟨fun id hid => ?_, fun id hid => ?_⟩
    · exact h ⟨.artifact, id⟩ (by simpa [GraphInventory.lists] using hid)
    · exact h ⟨.derived, id⟩ (by simpa [GraphInventory.lists] using hid)

/-- After some objects have been repaired. -/
structure ObservedRows (observed : List ScannedObject) (index : Index) (done : List ScannedObject)
    (index' : Index) : Prop where
  seen : ∀ object ∈ done, index'.row object.record.key =
    some (observedRow observed (index.row object.record.key) object)
  others : ∀ key, observes done key = false → index'.row key = index.row key
  projects : index'.projects = index.projects
  leases : index'.leases = index.leases
  accessLog : index'.accessLog = index.accessLog

theorem observedRows_nil (observed : List ScannedObject) (index : Index) :
    ObservedRows observed index [] index :=
  ⟨fun _ h => absurd h List.not_mem_nil, fun _ _ => rfl, rfl, rfl, rfl⟩

theorem ObservedRows.concat {observed done : List ScannedObject} {object : ScannedObject}
    {index₁ : Index} (h : ObservedRows observed index done index₁)
    (hnew : observes done object.record.key = false)
    (hok : repairObject observed index₁ object = .ok index') :
    ObservedRows observed index (done ++ [object]) index' := by
  have hset := repairObject_sets hok
  rw [h.others _ hnew] at hset
  refine ⟨?_, ?_, hset.projects.trans h.projects, hset.leases.trans h.leases,
    hset.accessLog.trans h.accessLog⟩
  · intro other hother
    rw [hset.rows]
    rcases List.mem_append.mp hother with hdone | hlast
    · have hne : other.record.key ≠ object.record.key := by
        intro heq
        rw [observes_iff.mpr ⟨other, hdone, heq⟩] at hnew
        cases hnew
      rw [if_neg hne]
      exact h.seen other hdone
    · obtain rfl := List.mem_singleton.mp hlast
      rw [if_pos rfl]
  · intro key hkey
    have hdone : observes done key = false := by
      rw [← Bool.not_eq_true, observes_iff] at hkey ⊢
      rintro ⟨other, hother, heq⟩
      exact hkey ⟨other, List.mem_append_left _ hother, heq⟩
    have hne : key ≠ object.record.key := by
      rintro rfl
      rw [observes_iff.mpr ⟨object, by simp, rfl⟩] at hkey
      cases hkey
    rw [hset.rows, if_neg hne]
    exact h.others key hdone

/-- What is scanned next has not been repaired yet. -/
theorem observes_before {pre post : List ScannedObject} {object : ScannedObject}
    (hsplit : scanNamespaces store = pre ++ object :: post) :
    observes pre object.record.key = false := by
  have hnodup := scanNamespaces_nodup store
  rw [hsplit, List.map_append, List.map_cons] at hnodup
  rw [← Bool.not_eq_true, observes_iff]
  rintro ⟨other, hother, heq⟩
  exact (List.nodup_append.mp hnodup).2.2 _ (List.mem_map_of_mem hother) _ List.mem_cons_self heq

/-- Published objects of earlier kinds have been repaired before. -/
theorem observes_earlier {pre post : List ScannedObject} {object : ScannedObject}
    (hsplit : scanNamespaces store = pre ++ object :: post) {key : ObjectKey}
    (hpublished : store.isPublished key = true)
    (hkind : ObjectKind.all.idxOf key.kind < ObjectKind.all.idxOf object.record.key.kind) :
    observes pre key = true := by
  obtain ⟨entry, hentry⟩ := Store.has_iff.mp (Store.has_of_isPublished hpublished)
  have hmem : scannedObject key entry ∈ scanNamespaces store :=
    mem_scanNamespaces.mpr ⟨key, entry, hentry, hpublished, rfl⟩
  have hsorted := scanNamespaces_sorted store
  rw [hsplit] at hmem hsorted
  exact observes_iff.mpr ⟨_, Folds.mem_before hsorted hmem hkind, rfl⟩

theorem has_of_observes {observed done : List ScannedObject}
    (h : ObservedRows observed index done index') {key : ObjectKey}
    (hkey : observes done key = true) : index'.has key = true := by
  obtain ⟨object, hmem, rfl⟩ := observes_iff.mp hkey
  exact Index.has_iff.mpr ⟨_, h.seen object hmem⟩

/-- Every plan file names a graph whose volume is in the store. -/
def PlansServed (store : Store) : Prop :=
  ∀ id entry, store.entry ⟨.plan, id⟩ = some entry → store.has ⟨.graph, entry.graphId⟩ = true

/-- Where plans have their graphs, all that is scanned fits. -/
theorem observeAll_total (hplans : PlansServed store) (index : Index) :
    ∃ index', (scanNamespaces store).foldlM (repairObject (scanNamespaces store)) index = .ok index' ∧
      ObservedRows (scanNamespaces store) index (scanNamespaces store) index' := by
  refine Folds.total (I := ObservedRows (scanNamespaces store) index) (observedRows_nil _ _) ?_
  intro pre object post index₁ hsplit hpre
  have hmem : object ∈ scanNamespaces store := by rw [hsplit]; simp
  obtain ⟨key, entry, hentry, hpublished, rfl⟩ := mem_scanNamespaces.mp hmem
  have hfits : Fits (scanNamespaces store) index₁ (scannedObject key entry) := by
    refine ⟨?_, ?_⟩
    · obtain ⟨kind, id⟩ := key
      cases kind with
      | artifact => rfl
      | derived => rfl
      | graph => rfl
      | image =>
          have hartifact : store.isPublished ⟨.artifact, id⟩ = true := by
            rw [Store.isPublished_eq_has (by simp)]
            simpa [Store.isPublished] using ((Bool.and_eq_true ..).mp hpublished).2
          have hearlier := observes_earlier hsplit hartifact (by simp [scannedObject]; decide)
          exact (Bool.or_eq_true ..).mpr (Or.inr (has_of_observes hpre hearlier))
      | plan =>
          have hgraph : store.isPublished ⟨.graph, entry.graphId⟩ = true := by
            rw [Store.isPublished_eq_has (by simp)]
            exact hplans id entry hentry
          have hearlier := observes_earlier hsplit hgraph (by simp [scannedObject]; decide)
          have hindexed := has_of_observes hpre hearlier
          simpa [Index.parentIndexed, scannedObject] using hindexed
    · intro inventory hinventory
      obtain ⟨hinventory, hcomplete⟩ := Option.filter_eq_some_iff.mp hinventory
      refine Index.hasAll_iff.mpr fun listed hlists => ?_
      have hlisted := inventoryComplete_iff.mp hcomplete listed hlists
      rw [observes_scan] at hlisted
      have hgraph : key.kind = .graph := by
        by_contra hkind
        simp [scannedObject, hkind] at hinventory
      have hearlier := observes_earlier hsplit hlisted (by
        rcases Index.kind_of_lists hlists with hkind | hkind <;>
          simp only [scannedObject, hkind, hgraph] <;> decide)
      exact has_of_observes hpre hearlier
  have hplan : (scannedObject key entry).record.key.kind = .plan →
      (scannedObject key entry).planGraphId ≠ none := by
    intro hkind
    simp [scannedObject, show key.kind = .plan from hkind]
  obtain ⟨index₂, hok⟩ := repairObject_total hfits hplan
  exact ⟨index₂, hok, hpre.concat (observes_before hsplit) hok⟩

/-- What the observed rows are, once they are in. -/
theorem observeAll_rows (hok : (scanNamespaces store).foldlM
    (repairObject (scanNamespaces store)) index = .ok index') :
    ObservedRows (scanNamespaces store) index (scanNamespaces store) index' := by
  refine Folds.invariant (I := ObservedRows (scanNamespaces store) index) hok
    (observedRows_nil _ _) ?_
  intro pre object post index₁ index₂ hsplit hpre hstep
  exact hpre.concat (observes_before hsplit) hstep

theorem ObservedRows.row_of_published (h : ObservedRows (scanNamespaces store) index
    (scanNamespaces store) index') {key : ObjectKey} {entry : StoreEntry}
    (hentry : store.entry key = some entry) (hpublished : store.isPublished key = true) :
    index'.row key =
      some (observedRow (scanNamespaces store) (index.row key) (scannedObject key entry)) :=
  h.seen _ (mem_scanNamespaces.mpr ⟨key, entry, hentry, hpublished, rfl⟩)

theorem ObservedRows.row_of_unpublished (h : ObservedRows (scanNamespaces store) index
    (scanNamespaces store) index') {key : ObjectKey} (hkey : store.isPublished key = false) :
    index'.row key = index.row key :=
  h.others key (observes_scan.trans hkey)

/-- What an observed graph lists is published. -/
theorem published_of_lists {old : Option ObjectRow} {graphId : Str} {entry : StoreEntry}
    {key : ObjectKey} (h : (observedRow (scanNamespaces store) old
      (scannedObject ⟨.graph, graphId⟩ entry)).edges.lists key = true) :
    store.isPublished key = true := by
  have hrow : observedRow (scanNamespaces store) old (scannedObject ⟨.graph, graphId⟩ entry) =
      graphRow (scanNamespaces store) entry.inventory (Index.upsertedRow old
        ⟨⟨.graph, graphId⟩, entry.sizeBytes, entry.modifiedAt⟩ none none) := rfl
  rw [hrow] at h
  unfold graphRow at h
  cases hinventory : entry.inventory.filter (inventoryComplete (scanNamespaces store)) with
  | none =>
      rw [hinventory] at h
      simp [Index.lists_empty] at h
  | some inventory =>
      rw [hinventory] at h
      have hcomplete := (Option.filter_eq_some_iff.mp hinventory).2
      have hlisted := inventoryComplete_iff.mp hcomplete key h
      rwa [observes_scan] at hlisted

end ObserveAll

/-! ## Stale rows -/

section Stale

variable {store : Store} {index index' : Index}

theorem mem_staleRows {key : ObjectKey} : key ∈ staleRows index store ↔
    index.has key = true ∧ store.isPublished key = false := by
  unfold staleRows
  simp only [List.mem_flatMap, List.mem_filter, List.mem_map, Bool.not_eq_true',
    Std.ExtTreeMap.mem_keys]
  have hmem (kind : ObjectKind) (id : Str) :
      id ∈ index.rows kind ↔ index.has ⟨kind, id⟩ = true := by
    rw [Std.ExtTreeMap.mem_iff_isSome_getElem?]
    rfl
  constructor
  · rintro ⟨kind, _, ⟨id, hid, rfl⟩, hkey⟩
    exact ⟨(hmem kind id).mp hid, hkey⟩
  · rintro ⟨hhas, hkey⟩
    obtain ⟨kind, id⟩ := key
    exact ⟨kind, by cases kind <;> decide, ⟨id, (hmem kind id).mpr hhas, rfl⟩, hkey⟩

theorem staleRows_sorted (index : Index) (store : Store) : (staleRows index store).Pairwise
    fun a b => staleOrder.idxOf a.kind ≤ staleOrder.idxOf b.kind := by
  have hkind : ∀ kind, ∀ key ∈ ((index.rows kind).keys.map (ObjectKey.mk kind)).filter
      (!store.isPublished ·), key.kind = kind := by
    intro kind key hkey
    obtain ⟨id, _, rfl⟩ := List.mem_map.mp (List.mem_filter.mp hkey).1
    rfl
  refine List.pairwise_flatMap.mpr ⟨fun kind _ => ?_, ?_⟩
  · refine List.pairwise_of_forall_mem_list fun a ha b hb => ?_
    rw [hkind kind a ha, hkind kind b hb]
  · have hall : staleOrder.Pairwise fun a b => staleOrder.idxOf a ≤ staleOrder.idxOf b := by decide
    refine hall.imp fun {kind kind'} hle a ha b hb => ?_
    rw [hkind kind a ha, hkind kind' b hb]
    exact hle

/-- What the removal of one stale row does. -/
structure RemovesStale (index : Index) (key : ObjectKey) (index' : Index) : Prop where
  rows : ∀ k, index'.row k = (index.erased key).row k
  refs : ∀ root, index'.projectRef root = (index.projectRef root).filter
    fun ref => key ≠ ⟨.graph, ref.graphId⟩
  leases : index'.leases = index.leases.filter (·.key ≠ key)

theorem row_deleteRefsTo {graphId : Str} {key : ObjectKey} :
    (index.deleteRefsTo graphId).row key = index.row key := rfl

theorem erased_deleteRefsTo {graphId : Str} {key k : ObjectKey} :
    ((index.deleteRefsTo graphId).erased key).row k = (index.erased key).row k := by
  rw [Index.row_erased, Index.row_erased]
  rfl

theorem leases_erased {key : ObjectKey} : (index.erased key).leases = index.leases := by
  unfold Index.erased
  split <;> rfl

theorem removeStaleRow_spec {key : ObjectKey} (h : removeStaleRow index key = .ok index') :
    RemovesStale index key index' := by
  unfold removeStaleRow at h
  dsimp only at h
  rw [Except.bind_eq_ok] at h
  obtain ⟨middle, hdelete, hrest⟩ := h
  cases hrest
  obtain ⟨_, rfl⟩ := Index.deleteRow_eq_ok.mp hdelete
  by_cases hkind : key.kind = .graph
  · rw [if_pos hkind]
    refine ⟨fun k => erased_deleteRefsTo, fun root => ?_, ?_⟩
    · change ((index.deleteRefsTo key.id).erased key).projectRef root = _
      rw [Index.projectRef_erased, Index.projectRef_deleteRefsTo]
      congr 1
      funext ref
      have hkey : key = ⟨.graph, key.id⟩ := by rw [← hkind]
      rw [Bool.eq_iff_iff, bne_iff_ne, decide_eq_true_iff, ne_eq, ne_eq, not_iff_not]
      constructor
      · intro heq
        rw [heq]
        exact hkey
      · intro heq
        rw [heq]
    · change ((index.deleteRefsTo key.id).erased key).leases.filter _ = _
      rw [leases_erased]
      rfl
  · rw [if_neg hkind]
    refine ⟨fun k => rfl, fun root => ?_, ?_⟩
    · change (index.erased key).projectRef root = _
      rw [Index.projectRef_erased]
      cases index.projectRef root with
      | none => rfl
      | some ref =>
          have hne : key ≠ ⟨.graph, ref.graphId⟩ := by
            rintro heq
            rw [heq] at hkind
            exact hkind rfl
          simp [Option.filter, hne]
    · change (index.erased key).leases.filter _ = _
      rw [leases_erased]

/-- A stale row can be removed when no graph lists it. -/
theorem removeStaleRow_total {key : ObjectKey} (h : key.kind ≠ .graph → index.restricted key = false) :
    ∃ index', removeStaleRow index key = .ok index' := by
  unfold removeStaleRow Index.deleteRow
  by_cases hkind : key.kind = .graph
  · have hfree : (index.deleteRefsTo key.id).restricted key = false := by
      unfold Index.restricted
      rw [hkind]
      dsimp only
      rw [← Bool.not_eq_true, Index.referenced_iff]
      rintro ⟨root, ref, href, hgraph⟩
      rw [Index.projectRef_deleteRefsTo, Option.filter_eq_some_iff] at href
      simp [hgraph] at href
    simp [hkind, hfree, bind, Except.bind]
  · simp [hkind, h hkind, bind, Except.bind]

/-- The references and leases after some stale rows have been removed. -/
structure ClearedRefs (index : Index) (done : List ObjectKey) (index' : Index) : Prop where
  refs : ∀ root, index'.projectRef root = (index.projectRef root).filter
    fun ref => ⟨.graph, ref.graphId⟩ ∉ done
  leases : index'.leases = index.leases.filter (·.key ∉ done)

/-- After some stale rows have been removed, and no other rows with them. -/
structure Cleared (index : Index) (done : List ObjectKey) (index' : Index) : Prop
    extends ClearedRefs index done index' where
  rows : ∀ key, index'.row key = if key ∈ done then none else index.row key

theorem clearedRefs_nil (index : Index) : ClearedRefs index [] index := by
  refine ⟨fun root => ?_, by simp⟩
  cases index.projectRef root <;> simp [Option.filter]

theorem ClearedRefs.concat {index₁ : Index} {done : List ObjectKey} {key : ObjectKey}
    (h : ClearedRefs index done index₁) (hstep : RemovesStale index₁ key index') :
    ClearedRefs index (done ++ [key]) index' := by
  refine ⟨fun root => ?_, ?_⟩
  · rw [hstep.refs, h.refs]
    cases hbefore : index.projectRef root with
    | none => rfl
    | some ref =>
        by_cases hdone : ⟨.graph, ref.graphId⟩ ∈ done
        · simp [Option.filter, hdone]
        · by_cases hkey : key = ⟨.graph, ref.graphId⟩
          · simp [Option.filter, hdone, hkey]
          · simp [Option.filter, hdone, hkey, Ne.symm hkey]
  · rw [hstep.leases, h.leases, List.filter_filter]
    refine List.filter_congr fun lease _ => ?_
    by_cases hdone : lease.key ∈ done <;> by_cases hkey : lease.key = key <;> simp [hdone, hkey]

theorem cleared_nil (index : Index) : Cleared index [] index :=
  ⟨clearedRefs_nil index, fun key => by simp⟩

theorem Cleared.concat {index₁ : Index} {done : List ObjectKey} {key : ObjectKey}
    (h : Cleared index done index₁) (hstep : RemovesStale index₁ key index')
    (hrows : ∀ k, (index₁.erased key).row k = if k = key then none else index₁.row k) :
    Cleared index (done ++ [key]) index' := by
  refine ⟨h.toClearedRefs.concat hstep, fun k => ?_⟩
  rw [hstep.rows, hrows, h.rows]
  by_cases hk : k = key <;> simp [hk]

/-- What is left after a removal was there before. -/
theorem row_of_removesStale {key k : ObjectKey} {row : ObjectRow}
    (h : RemovesStale index key index') (hrow : index'.row k = some row) :
    index.row k = some row := by
  rw [h.rows, Index.row_erased] at hrow
  split at hrow
  · cases hrow
  · split at hrow
    · exact (Option.filter_eq_some_iff.mp hrow).1
    · exact hrow

/-- Whatever the removal of stale rows leaves was there, and so were the references. -/
theorem removeStale_spec {stale : List ObjectKey}
    (hok : stale.foldlM removeStaleRow index = .ok index') :
    ClearedRefs index stale index' ∧
      ∀ key row, index'.row key = some row → index.row key = some row := by
  refine Folds.invariant (I := fun done index' => ClearedRefs index done index' ∧
    ∀ key row, index'.row key = some row → index.row key = some row) hok
    ⟨clearedRefs_nil index, fun _ _ h => h⟩ ?_
  rintro pre key post index₁ index₂ _ ⟨hrefs, hrows⟩ hstep
  have hspec := removeStaleRow_spec hstep
  exact ⟨hrefs.concat hspec, fun k row hrow => hrows k row (row_of_removesStale hspec hrow)⟩

/-- Once stale rows of earlier kinds are gone, nothing unpublished of them is left. -/
theorem published_of_cleared {index₁ index₂ : Index} {pre post : List ObjectKey} {key : ObjectKey}
    (hobserved : ObservedRows (scanNamespaces store) index (scanNamespaces store) index₁)
    (hsplit : staleRows index store = pre ++ key :: post) (hpre : Cleared index₁ pre index₂)
    {k : ObjectKey} {row : ObjectRow} (hrow : index₂.row k = some row)
    (hkind : staleOrder.idxOf k.kind < staleOrder.idxOf key.kind) :
    store.isPublished k = true ∧ index₁.row k = some row := by
  rw [hpre.rows] at hrow
  split at hrow
  · cases hrow
  · rename_i hnot
    refine ⟨?_, hrow⟩
    by_contra hunpublished
    rw [Bool.not_eq_true] at hunpublished
    have hbefore := hrow
    rw [hobserved.row_of_unpublished hunpublished] at hbefore
    have hmem := mem_staleRows.mpr ⟨Index.has_iff.mpr ⟨row, hbefore⟩, hunpublished⟩
    have hsorted := staleRows_sorted index store
    rw [hsplit] at hmem hsorted
    exact hnot (Folds.mem_before hsorted hmem hkind)

/-- Where plans have their graphs, every stale row can be removed on its own. -/
theorem removeStale_total (hplans : PlansServed store) {index₁ : Index}
    (hobserved : ObservedRows (scanNamespaces store) index (scanNamespaces store) index₁) :
    ∃ index₂, (staleRows index store).foldlM removeStaleRow index₁ = .ok index₂ ∧
      Cleared index₁ (staleRows index store) index₂ := by
  refine Folds.total (I := Cleared index₁) (cleared_nil _) ?_
  intro pre key post index₂ hsplit hpre
  have hkey : key ∈ staleRows index store := by rw [hsplit]; simp
  obtain ⟨_, hunpublished⟩ := mem_staleRows.mp hkey
  have hleft := fun k row => @published_of_cleared store index index₁ index₂ pre post key
    hobserved hsplit hpre k row
  have hfree : key.kind ≠ .graph → index₂.restricted key = false := by
    intro hkind
    -- A graph row that is left is published and lists only what is.
    have hlisted (horder : staleOrder.idxOf .graph < staleOrder.idxOf key.kind) :
        index₂.listed key = false := by
      rw [← Bool.not_eq_true, Index.listed_iff]
      rintro ⟨graphId, row, hrow, hlists⟩
      obtain ⟨hpublished, hrow⟩ := hleft _ _ hrow horder
      obtain ⟨entry, hentry⟩ := Store.has_iff.mp (Store.has_of_isPublished hpublished)
      rw [hobserved.row_of_published hentry hpublished] at hrow
      cases hrow
      rw [published_of_lists hlists] at hunpublished
      cases hunpublished
    unfold Index.restricted
    cases hk : key.kind with
    | artifact => exact hlisted (by rw [hk]; decide)
    | derived => exact hlisted (by rw [hk]; decide)
    | graph => exact absurd hk hkind
    | image => rfl
    | plan => rfl
  have hrows : ∀ k, (index₂.erased key).row k = if k = key then none else index₂.row k := by
    intro k
    rw [Index.row_erased]
    by_cases hk : k = key
    · simp [hk]
    · simp only [hk, false_or, if_false]
      split
      · -- The image of a stale artifact is stale, too, and gone.
        rename_i hcascade
        obtain ⟨hkind, rfl⟩ := hcascade
        cases hrow : index₂.row ⟨.image, key.id⟩ with
        | none => rfl
        | some row =>
            have horder : staleOrder.idxOf .image < staleOrder.idxOf key.kind := by
              rw [hkind]
              decide
            have hpublished := (hleft _ _ hrow horder).1
            have hartifact : store.has key = true := by
              have hboth := ((Bool.and_eq_true ..).mp hpublished).2
              have hkey : key = ⟨.artifact, key.id⟩ := by rw [← hkind]
              rw [hkey]
              simpa using hboth
            rw [Store.isPublished_eq_has (by rw [hkind]; decide), hartifact] at hunpublished
            cases hunpublished
      · split
        · -- A plan that is left names a published graph.
          rename_i hplan
          obtain ⟨hkind, hplan⟩ := hplan
          cases hrow : index₂.row k with
          | none => rfl
          | some row =>
              obtain ⟨hpublished, hrow⟩ := hleft _ _ hrow (by rw [hkind, hplan]; decide)
              obtain ⟨entry, hentry⟩ := Store.has_iff.mp (Store.has_of_isPublished hpublished)
              rw [hobserved.row_of_published hentry hpublished] at hrow
              cases hrow
              have hk : k = ⟨.plan, k.id⟩ := by rw [← hplan]
              have hgraph := hplans k.id entry (hk ▸ hentry)
              have hne : entry.graphId ≠ key.id := by
                rintro heq
                have hgraphKey : key = ⟨.graph, entry.graphId⟩ := by rw [heq, ← hkind]
                rw [Store.isPublished_eq_has (by rw [hkind]; decide), hgraphKey, hgraph]
                  at hunpublished
                cases hunpublished
              have hname : (observedRow (scanNamespaces store) (index.row k)
                  (scannedObject k entry)).graphId = entry.graphId := by
                rw [hk]
                rfl
              simp [Option.filter, hname, hne]
        · rfl
  obtain ⟨index₃, hok⟩ := removeStaleRow_total hfree
  exact ⟨index₃, hok, hpre.concat (removeStaleRow_spec hok) hrows⟩

end Stale

/-! ## Registrations -/

section Restore

variable {observed : List ScannedObject} {index index' : Index}

/-- After some registrations have been restored. -/
structure Restored (observed : List ScannedObject) (index : Index)
    (done : List (Str × Registration)) (index' : Index) : Prop where
  seen : ∀ entry ∈ done, observes observed ⟨.graph, entry.2.graphId⟩ = true →
    index'.projects[entry.1]? = some (Index.upsertedProject index.projects[entry.1]?
      entry.2.graphId entry.2.updatedAt)
  others : ∀ root : Str, (∀ entry ∈ done, entry.1 = root →
    observes observed ⟨.graph, entry.2.graphId⟩ = false) →
    index'.projects[root]? = index.projects[root]?
  rows : index'.rows = index.rows
  leases : index'.leases = index.leases

theorem restored_nil : Restored observed index [] index :=
  ⟨fun _ h => absurd h List.not_mem_nil, fun _ _ => rfl, rfl, rfl⟩

theorem Restored.concat {index₁ : Index} {done : List (Str × Registration)}
    {entry : Str × Registration} (h : Restored observed index done index₁)
    (hnew : ∀ other ∈ done, other.1 ≠ entry.1)
    (hok : restoreRef observed index₁ entry = .ok index') :
    Restored observed index (done ++ [entry]) index' := by
  have hbefore : index₁.projects[entry.1]? = index.projects[entry.1]? :=
    h.others entry.1 fun other hother heq => absurd heq (hnew other hother)
  unfold restoreRef at hok
  split at hok
  · rename_i hobserved
    obtain ⟨_, rfl⟩ := Index.upsertProjectRef_eq_ok.mp hok
    refine ⟨fun other hother hgraph => ?_, fun root hroot => ?_, h.rows, h.leases⟩
    · dsimp only
      rcases List.mem_append.mp hother with hdone | hlast
      · rw [Map.get_insert_of_ne _ _ (Ne.symm (hnew other hdone))]
        exact h.seen other hdone hgraph
      · obtain rfl := List.mem_singleton.mp hlast
        rw [Map.get_insert_self, hbefore]
    · dsimp only
      have hne : entry.1 ≠ root := by
        intro heq
        rw [hroot entry (by simp) heq] at hobserved
        cases hobserved
      rw [Map.get_insert_of_ne _ _ hne]
      exact h.others root fun other hother => hroot other (List.mem_append_left _ hother)
  · rename_i hobserved
    cases hok
    refine ⟨fun other hother hgraph => ?_, fun root hroot => ?_, h.rows, h.leases⟩
    · rcases List.mem_append.mp hother with hdone | hlast
      · exact h.seen other hdone hgraph
      · obtain rfl := List.mem_singleton.mp hlast
        exact absurd hgraph hobserved
    · exact h.others root fun other hother => hroot other (List.mem_append_left _ hother)

/-- Every registration file is a project of its own. -/
theorem registration_new {registrations : Map Registration} {pre post : List (Str × Registration)}
    {entry : Str × Registration} (hsplit : registrations.toList = pre ++ entry :: post) :
    ∀ other ∈ pre, other.1 ≠ entry.1 := by
  have hnodup : (registrations.toList.map Prod.fst).Nodup := by
    rw [Std.ExtTreeMap.map_fst_toList_eq_keys]
    exact registrations.nodup_keys
  rw [hsplit, List.map_append, List.map_cons] at hnodup
  intro other hother
  exact (List.nodup_append.mp hnodup).2.2 _ (List.mem_map_of_mem hother) _ List.mem_cons_self

theorem restoreAll_spec {registrations : Map Registration}
    (hok : registrations.toList.foldlM (restoreRef observed) index = .ok index') :
    Restored observed index registrations.toList index' := by
  refine Folds.invariant (I := Restored observed index) hok restored_nil ?_
  intro pre entry post index₁ index₂ hsplit hpre hstep
  exact hpre.concat (registration_new hsplit) hstep

/-- Registrations can be restored where observed graphs and the graphs of all
references are indexed. -/
theorem restoreAll_total {registrations : Map Registration}
    (hobserved : ∀ key, observes observed key = true → index.has key = true)
    (hrefs : ∀ root ref, index.projectRef root = some ref →
      index.has ⟨.graph, ref.graphId⟩ = true) :
    ∃ index', registrations.toList.foldlM (restoreRef observed) index = .ok index' ∧
      Restored observed index registrations.toList index' := by
  refine Folds.total (I := Restored observed index) restored_nil ?_
  intro pre entry post index₁ hsplit hpre
  have hok : ∃ index₂, restoreRef observed index₁ entry = .ok index₂ := by
    unfold restoreRef
    split
    · rename_i hgraph
      have hbefore : index₁.projects[entry.1]? = index.projects[entry.1]? :=
        hpre.others entry.1 fun other hother heq =>
          absurd heq (registration_new hsplit other hother)
      have hhas (key : ObjectKey) : index₁.has key = index.has key := by
        unfold Index.has Index.row
        rw [hpre.rows]
      refine ⟨_, Index.upsertProjectRef_eq_ok.mpr ⟨?_, rfl⟩⟩
      have hsame : index₁.projectRef entry.1 = index.projectRef entry.1 := by
        unfold Index.projectRef
        rw [hbefore]
      rw [hhas, hsame]
      cases href : index.projectRef entry.1 with
      | none => exact hobserved _ hgraph
      | some ref =>
          unfold Index.newerRef
          dsimp only
          split
          · exact hobserved _ hgraph
          · exact hrefs entry.1 ref href
    · exact ⟨_, rfl⟩
  obtain ⟨index₂, hok⟩ := hok
  exact ⟨index₂, hok, hpre.concat (registration_new hsplit) hok⟩

end Restore

end Bpm
