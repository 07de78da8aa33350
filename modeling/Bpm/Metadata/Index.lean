import Bpm.Lib.Tables

/-!
# The metadata index

The rebuildable index of the store: one table for each kind of object, the edges of
graphs, the projects with their graph, leases and access times.  A statement that
would break a declared foreign key is refused.
-/

namespace Bpm

open Text

/-- Kind of immutable object indexed by the repository. -/
inductive ObjectKind
  | artifact | image | derived | graph | plan
deriving DecidableEq

namespace ObjectKind

/-- In the order of object keys. -/
def all : List ObjectKind := [artifact, image, derived, graph, plan]

theorem mem_all (kind : ObjectKind) : kind ∈ all := by cases kind <;> decide

def asStr : ObjectKind → Str
  | artifact => lit "artifact"
  | image => lit "image"
  | derived => lit "derived"
  | graph => lit "graph"
  | plan => lit "plan"

def idLength : ObjectKind → Nat
  | artifact | image => 128
  | derived | graph | plan => 64

end ObjectKind

/-- A digit or a lower-case letter up to `f`. -/
def isLowerHex (c : Char) : Bool := c.isDigit || ('a' ≤ c && c ≤ 'f')

def validId (kind : ObjectKind) (id : Str) : Bool :=
  id.length == kind.idLength && id.all isLowerHex

structure ObjectKey where
  kind : ObjectKind
  id : Str
deriving DecidableEq

/-- Metadata recorded after an immutable object has been published. -/
structure ObjectRecord where
  key : ObjectKey
  sizeBytes : Nat
  publishedAt : Nat
deriving DecidableEq

/-- The artifacts that a graph is made of, each with whether its image is needed, and
its derived objects. -/
structure GraphInventory where
  artifacts : Map Bool
  derived : Map Unit
deriving DecidableEq

namespace GraphInventory

def empty : GraphInventory := ⟨∅, ∅⟩

/-- The objects that the inventory lists. -/
def lists (inventory : GraphInventory) (key : ObjectKey) : Bool :=
  match key.kind with
  | .artifact => inventory.artifacts.contains key.id
  | .derived => inventory.derived.contains key.id
  | _ => false

end GraphInventory

/-- A row of the object tables.  The last three columns belong to graphs, whose edges
go with them, and to plans. -/
structure ObjectRow where
  sizeBytes : Nat
  publishedAt : Nat
  complete : Bool
  edges : GraphInventory
  graphId : Str
deriving DecidableEq

structure ProjectRef where
  graphId : Str
  observedAt : Nat
deriving DecidableEq

/-- A project and its sole graph reference. -/
structure ProjectRow where
  lastSeenAt : Nat
  ref : Option ProjectRef
deriving DecidableEq

structure LeaseRow where
  leaseId : Str
  ownerToken : Str
  key : ObjectKey
  acquiredAt : Nat
  renewedAt : Nat
  expiresAt : Nat
deriving DecidableEq

structure Index where
  rows : Tables ObjectKind ObjectRow
  projects : Map ProjectRow
  leases : List LeaseRow
  accessLog : Tables ObjectKind Nat

/-- Why the database refuses a statement. -/
inductive SqlError
  | foreignKey | primaryKey | check
deriving DecidableEq

inductive MetadataError
  | invalidId (kind : Str) (id : Str)
  | missingObject (key : ObjectKey)
  | invalidProjectRoot (root : Str)
  | invalidLeaseOptions
  | leaseLost
  | timeOverflow
  | io
  | sql (error : SqlError)
deriving DecidableEq

namespace Index

def empty : Index := ⟨fun _ => ∅, ∅, [], fun _ => ∅⟩

def row (index : Index) (key : ObjectKey) : Option ObjectRow := (index.rows key.kind)[key.id]?

def has (index : Index) (key : ObjectKey) : Bool := (index.row key).isSome

def setRow (index : Index) (key : ObjectKey) (row : ObjectRow) : Index :=
  { index with rows := index.rows.set key.kind key.id row }

def eraseRow (index : Index) (key : ObjectKey) : Index :=
  { index with rows := index.rows.erase key.kind key.id }

/-- Update a row, where it is there. -/
def modifyRow (index : Index) (key : ObjectKey) (f : ObjectRow → ObjectRow) : Index :=
  match index.row key with
  | none => index
  | some row => index.setRow key (f row)

/-- A graph row whose edges lead to the object. -/
def listed (index : Index) (key : ObjectKey) : Bool :=
  (index.rows .graph).toList.any fun entry => entry.2.edges.lists key

def referenced (index : Index) (graphId : Str) : Bool :=
  index.projects.toList.any fun entry => entry.2.ref.any (·.graphId == graphId)

/-! ## Statements -/

/-- The row that an object's record makes of the one that is there. -/
def upsertedRow (old : Option ObjectRow) (record : ObjectRecord) (planGraphId : Option Str)
    (graphComplete : Option Bool) : ObjectRow where
  sizeBytes := record.sizeBytes
  publishedAt := (old.map (min ·.publishedAt record.publishedAt)).getD record.publishedAt
  complete := (old.map (·.complete)).getD (record.key.kind = .graph && graphComplete.getD false)
  edges := (old.map (·.edges)).getD .empty
  graphId := if record.key.kind = .plan then planGraphId.getD [] else []

/-- The row that an object's row refers to is there; an old image row keeps its
reference. -/
def parentIndexed (index : Index) (key : ObjectKey) (planGraphId : Option Str) : Bool :=
  match key.kind with
  | .image => index.has key || index.has ⟨.artifact, key.id⟩
  | .plan => planGraphId.any fun graphId => index.has ⟨.graph, graphId⟩
  | _ => true

def upsertObject (index : Index) (record : ObjectRecord) (planGraphId : Option Str)
    (graphComplete : Option Bool) : Except MetadataError Index :=
  if record.key.kind = .plan ∧ planGraphId = none then
    .error (.invalidId (lit "plan graph") record.key.id)
  else if index.parentIndexed record.key planGraphId then
    .ok (index.setRow record.key
      (upsertedRow (index.row record.key) record planGraphId graphComplete))
  else .error (.sql .foreignKey)

def setGraphComplete (index : Index) (graphId : Str) (complete : Bool) : Index :=
  index.modifyRow ⟨.graph, graphId⟩ fun row => { row with complete := complete }

def deleteGraphEdges (index : Index) (graphId : Str) : Index :=
  index.modifyRow ⟨.graph, graphId⟩ fun row => { row with edges := .empty }

/-- Every object that an inventory lists is indexed. -/
def hasAll (index : Index) (inventory : GraphInventory) : Bool :=
  inventory.artifacts.keys.all (fun id => index.has ⟨.artifact, id⟩) &&
    inventory.derived.keys.all fun id => index.has ⟨.derived, id⟩

/-- Replace an indexed graph's edges by those of an inventory. -/
def upsertGraphEdges (index : Index) (graphId : Str) (inventory : GraphInventory) :
    Except MetadataError Index :=
  if (index.has ⟨.graph, graphId⟩ || inventory = .empty) && index.hasAll inventory then
    .ok (index.modifyRow ⟨.graph, graphId⟩ fun row => { row with edges := inventory })
  else .error (.sql .foreignKey)

/-- Other rows refer to the row and restrict its deletion. -/
def restricted (index : Index) (key : ObjectKey) : Bool :=
  match key.kind with
  | .artifact | .derived => index.listed key
  | .graph => index.referenced key.id
  | .image | .plan => false

/-- Without a row, and without the rows that its deletion takes along. -/
def erased (index : Index) (key : ObjectKey) : Index :=
  match key.kind with
  | .artifact => (index.eraseRow key).eraseRow ⟨.image, key.id⟩
  | .graph =>
      { index.eraseRow key with
        rows := (index.eraseRow key).rows.filterAt .plan fun _ row => row.graphId != key.id }
  | _ => index.eraseRow key

def deleteRow (index : Index) (key : ObjectKey) : Except MetadataError Index :=
  if index.restricted key then .error (.sql .foreignKey) else .ok (index.erased key)

def upsertAccess (index : Index) (key : ObjectKey) (time : Nat) : Index :=
  let old := (index.accessLog key.kind)[key.id]?
  { index with accessLog := index.accessLog.set key.kind key.id ((old.map (max · time)).getD time) }

def deleteAccess (index : Index) (key : ObjectKey) : Index :=
  { index with accessLog := index.accessLog.erase key.kind key.id }

def deleteLeases (index : Index) (key : ObjectKey) : Index :=
  { index with leases := index.leases.filter (·.key ≠ key) }

/-- Drop all references to a graph; the projects stay. -/
def deleteRefsTo (index : Index) (graphId : Str) : Index :=
  { index with
    projects := index.projects.map fun _ project =>
      if project.ref.any (·.graphId == graphId) then { project with ref := none } else project }

/-- A project's reference once another one has been observed: the newer one. -/
def newerRef (old : Option ProjectRef) (graphId : Str) (time : Nat) : ProjectRef :=
  match old with
  | none => ⟨graphId, time⟩
  | some ref =>
      ⟨if time > ref.observedAt then graphId else ref.graphId, max ref.observedAt time⟩

def projectRef (index : Index) (root : Str) : Option ProjectRef :=
  index.projects[root]?.bind (·.ref)

def upsertedProject (old : Option ProjectRow) (graphId : Str) (time : Nat) : ProjectRow where
  lastSeenAt := (old.map (max ·.lastSeenAt time)).getD time
  ref := some (newerRef (old.bind (·.ref)) graphId time)

/-- Upsert one project and replace its sole graph reference by a newer one. -/
def upsertProjectRef (index : Index) (root graphId : Str) (time : Nat) :
    Except MetadataError Index :=
  if index.has ⟨.graph, (newerRef (index.projectRef root) graphId time).graphId⟩ then
    .ok { index with
      projects := index.projects.insert root
        (upsertedProject index.projects[root]? graphId time) }
  else .error (.sql .foreignKey)

/-! ## What the statements do -/

section Rows

variable {index : Index} {key k : ObjectKey}

theorem has_iff : index.has key = true ↔ ∃ row, index.row key = some row :=
  Option.isSome_iff_exists

theorem key_eq {k key : ObjectKey} : k.kind = key.kind ∧ k.id = key.id ↔ k = key := by
  cases k
  cases key
  simp

theorem row_setRow (row : ObjectRow) :
    (index.setRow key row).row k = if k = key then some row else index.row k := by
  unfold Index.row setRow
  rw [Tables.get_set]
  exact if_congr key_eq rfl rfl

theorem row_eraseRow : (index.eraseRow key).row k = if k = key then none else index.row k := by
  unfold Index.row eraseRow
  rw [Tables.get_erase]
  exact if_congr key_eq rfl rfl

theorem row_modifyRow (f : ObjectRow → ObjectRow) :
    (index.modifyRow key f).row k = if k = key then (index.row k).map f else index.row k := by
  unfold modifyRow
  cases hrow : index.row key with
  | none =>
      by_cases h : k = key
      · simp [h, hrow]
      · simp [h]
  | some row =>
      dsimp only
      rw [row_setRow]
      by_cases h : k = key
      · simp [h, hrow]
      · simp [h]

/-- What a deletion leaves of the rows. -/
theorem row_erased : (index.erased key).row k =
    if k = key ∨ key.kind = .artifact ∧ k = ⟨.image, key.id⟩ then none
    else if key.kind = .graph ∧ k.kind = .plan then
      (index.row k).filter (·.graphId != key.id)
    else index.row k := by
  unfold erased
  cases hkind : key.kind with
  | artifact =>
      simp only [row_eraseRow]
      by_cases himage : k = ⟨.image, key.id⟩
      · simp [himage]
      · simp [himage]
  | graph =>
      dsimp only
      have hget := Tables.get_filterAt (index.eraseRow key).rows .plan k.kind
        (fun _ row => row.graphId != key.id) k.id
      have hrow := @row_eraseRow index key k
      refine hget.trans ?_
      unfold Index.row at hrow
      rw [hrow]
      by_cases hk : k = key
      · simp [hk]
      · simp [hk, Index.row]
  | image => simp [row_eraseRow]
  | derived => simp [row_eraseRow]
  | plan => simp [row_eraseRow]

theorem deleteRow_eq_ok {index' : Index} : index.deleteRow key = .ok index' ↔
    index.restricted key = false ∧ index' = index.erased key := by
  unfold deleteRow
  cases index.restricted key <;> simp [eq_comm]

theorem listed_iff : index.listed key = true ↔
    ∃ graphId row, index.row ⟨.graph, graphId⟩ = some row ∧ row.edges.lists key = true := by
  unfold listed
  rw [List.any_eq_true]
  constructor
  · rintro ⟨⟨graphId, row⟩, hmem, hlists⟩
    exact ⟨graphId, row, Map.mem_toList.mp hmem, hlists⟩
  · rintro ⟨graphId, row, hrow, hlists⟩
    exact ⟨(graphId, row), Map.mem_toList.mpr hrow, hlists⟩

theorem referenced_iff {graphId : Str} : index.referenced graphId = true ↔
    ∃ root ref, index.projectRef root = some ref ∧ ref.graphId = graphId := by
  unfold referenced projectRef
  rw [List.any_eq_true]
  constructor
  · rintro ⟨⟨root, project⟩, hmem, hany⟩
    obtain ⟨ref, href, hgraph⟩ := (Option.any_eq_true ..).mp hany
    exact ⟨root, ref, by rw [Map.mem_toList.mp hmem]; exact href, by simpa using hgraph⟩
  · rintro ⟨root, ref, href, hgraph⟩
    obtain ⟨project, hproject, href⟩ := Option.bind_eq_some_iff.mp href
    exact ⟨(root, project), Map.mem_toList.mpr hproject, by simp [href, hgraph]⟩

/-- Two indexes with the same rows, projects, leases and access times are the same. -/
theorem ext_row {a b : Index} (hrows : ∀ k, a.row k = b.row k) (hprojects : a.projects = b.projects)
    (hleases : a.leases = b.leases) (haccess : a.accessLog = b.accessLog) : a = b := by
  have hrows : a.rows = b.rows := Tables.ext_get fun kind id => hrows ⟨kind, id⟩
  cases a
  cases b
  simp_all

end Rows

/-! ## Foreign keys -/

/-- Every row that another one refers to is there. -/
structure ForeignKeys (index : Index) : Prop where
  images : ∀ id, index.has ⟨.image, id⟩ = true → index.has ⟨.artifact, id⟩ = true
  plans : ∀ id row, index.row ⟨.plan, id⟩ = some row → index.has ⟨.graph, row.graphId⟩ = true
  edges : ∀ graphId row key, index.row ⟨.graph, graphId⟩ = some row →
    row.edges.lists key = true → index.has key = true
  refs : ∀ root ref, index.projectRef root = some ref → index.has ⟨.graph, ref.graphId⟩ = true

theorem hasAll_iff {index : Index} {inventory : GraphInventory} :
    index.hasAll inventory = true ↔ ∀ key, inventory.lists key = true → index.has key = true := by
  unfold hasAll
  simp only [Bool.and_eq_true, List.all_eq_true, Std.ExtTreeMap.mem_keys]
  constructor
  · rintro ⟨hartifacts, hderived⟩ ⟨kind, id⟩ hlists
    cases kind with
    | artifact => exact hartifacts id (by simpa [GraphInventory.lists] using hlists)
    | derived => exact hderived id (by simpa [GraphInventory.lists] using hlists)
    | image => cases hlists
    | graph => cases hlists
    | plan => cases hlists
  · intro h
    refine ⟨fun id hid => ?_, fun id hid => ?_⟩
    · exact h ⟨.artifact, id⟩ (by simpa [GraphInventory.lists] using hid)
    · exact h ⟨.derived, id⟩ (by simpa [GraphInventory.lists] using hid)

theorem lists_empty (key : ObjectKey) : GraphInventory.empty.lists key = false := by
  obtain ⟨kind, id⟩ := key
  cases kind <;> simp [GraphInventory.lists, GraphInventory.empty]

/-- Only artifacts and derived objects are listed. -/
theorem kind_of_lists {inventory : GraphInventory} {key : ObjectKey}
    (h : inventory.lists key = true) : key.kind = .artifact ∨ key.kind = .derived := by
  obtain ⟨kind, id⟩ := key
  cases kind <;> simp_all [GraphInventory.lists]

section ForeignKeys

variable {index index' : Index}

theorem has_setRow {key k : ObjectKey} {row : ObjectRow} :
    (index.setRow key row).has k = (decide (k = key) || index.has k) := by
  unfold has
  rw [row_setRow]
  by_cases h : k = key <;> simp [h]

theorem has_modifyRow {key k : ObjectKey} {f : ObjectRow → ObjectRow} :
    (index.modifyRow key f).has k = index.has k := by
  unfold has
  rw [row_modifyRow]
  by_cases h : k = key <;> simp [h]

theorem projects_modifyRow {key : ObjectKey} {f : ObjectRow → ObjectRow} :
    (index.modifyRow key f).projects = index.projects := by
  unfold modifyRow
  cases index.row key <;> rfl

theorem projectRef_modifyRow {key : ObjectKey} {f : ObjectRow → ObjectRow} {root : Str} :
    (index.modifyRow key f).projectRef root = index.projectRef root := by
  unfold projectRef
  rw [projects_modifyRow]

/-- A graph's marker and its edges may change as long as the edges are indexed. -/
theorem ForeignKeys.modifyRow (h : index.ForeignKeys) {key : ObjectKey}
    {f : ObjectRow → ObjectRow} (hgraph : ∀ row, (f row).graphId = row.graphId)
    (hedges : ∀ row k, index.row key = some row → (f row).edges.lists k = true →
      index.has k = true) : (index.modifyRow key f).ForeignKeys where
  images id himage := by
    rw [has_modifyRow] at himage ⊢
    exact h.images id himage
  plans id row hrow := by
    rw [row_modifyRow] at hrow
    rw [has_modifyRow]
    split at hrow
    · obtain ⟨old, hold, rfl⟩ := Option.map_eq_some_iff.mp hrow
      rw [hgraph]
      exact h.plans id old hold
    · exact h.plans id row hrow
  edges graphId row k hrow hlists := by
    rw [row_modifyRow] at hrow
    rw [has_modifyRow]
    split at hrow
    · rename_i hkey
      obtain ⟨old, hold, rfl⟩ := Option.map_eq_some_iff.mp hrow
      exact hedges old k (hkey ▸ hold) hlists
    · exact h.edges graphId row k hrow hlists
  refs root ref href := by
    rw [has_modifyRow]
    rw [projectRef_modifyRow] at href
    exact h.refs root ref href

theorem ForeignKeys.upsertObject (h : index.ForeignKeys) {record : ObjectRecord}
    {planGraphId : Option Str} {graphComplete : Option Bool}
    (hok : index.upsertObject record planGraphId graphComplete = .ok index') :
    index'.ForeignKeys := by
  unfold Index.upsertObject at hok
  split at hok
  · cases hok
  · rename_i hplan
    split at hok
    · rename_i hparent
      cases hok
      have hmore {k : ObjectKey} (hk : index.has k = true) (row : ObjectRow) :
          (index.setRow record.key row).has k = true := by
        rw [has_setRow, hk, Bool.or_true]
      refine ⟨?_, ?_, ?_, ?_⟩
      · intro id himage
        rw [has_setRow, Bool.or_eq_true] at himage
        rcases himage with hkey | himage
        · have hkey := of_decide_eq_true hkey
          rw [← hkey] at hparent
          rcases (Bool.or_eq_true ..).mp hparent with hold | hartifact
          · exact hmore (h.images id hold) _
          · exact hmore hartifact _
        · exact hmore (h.images id himage) _
      · intro id row hrow
        rw [row_setRow] at hrow
        split at hrow
        · rename_i hkey
          cases hrow
          rw [← hkey] at hparent hplan
          obtain ⟨graphId, hgraphId, hgraph⟩ := (Option.any_eq_true ..).mp hparent
          have hsame : (upsertedRow (index.row record.key) record planGraphId graphComplete).graphId =
              graphId := by
            simp [upsertedRow, ← hkey, hgraphId]
          rw [hsame]
          exact hmore hgraph _
        · exact hmore (h.plans id row hrow) _
      · intro graphId row k hrow hlists
        rw [row_setRow] at hrow
        split at hrow
        · rename_i hkey
          cases hrow
          rw [← hkey] at hlists
          cases hold : index.row ⟨.graph, graphId⟩ with
          | none => simp [upsertedRow, hold, lists_empty] at hlists
          | some old =>
              rw [hold] at hlists
              exact hmore (h.edges graphId old k hold hlists) _
        · exact hmore (h.edges graphId row k hrow hlists) _
      · intro root ref href
        exact hmore (h.refs root ref href) _
    · cases hok

theorem ForeignKeys.deleteGraphEdges (h : index.ForeignKeys) (graphId : Str) :
    (index.deleteGraphEdges graphId).ForeignKeys :=
  h.modifyRow (fun _ => rfl) fun _ k _ hlists => by simp [lists_empty] at hlists

theorem ForeignKeys.setGraphComplete (h : index.ForeignKeys) (graphId : Str) (complete : Bool) :
    (index.setGraphComplete graphId complete).ForeignKeys :=
  h.modifyRow (fun _ => rfl) fun row k hrow hlists => h.edges graphId row k hrow hlists

theorem ForeignKeys.upsertGraphEdges (h : index.ForeignKeys) {graphId : Str}
    {inventory : GraphInventory} (hok : index.upsertGraphEdges graphId inventory = .ok index') :
    index'.ForeignKeys := by
  unfold Index.upsertGraphEdges at hok
  split at hok
  · rename_i hall
    cases hok
    rw [Bool.and_eq_true] at hall
    exact h.modifyRow (fun _ => rfl) fun _ k _ hlists => hasAll_iff.mp hall.2 k hlists
  · cases hok

theorem projectRef_erased {key : ObjectKey} {root : Str} :
    (index.erased key).projectRef root = index.projectRef root := by
  unfold erased
  split <;> rfl

theorem ForeignKeys.deleteRow (h : index.ForeignKeys) {key : ObjectKey}
    (hok : index.deleteRow key = .ok index') : index'.ForeignKeys := by
  obtain ⟨hfree, rfl⟩ := deleteRow_eq_ok.mp hok
  -- What is still there was there before.
  have hbefore {k : ObjectKey} {row : ObjectRow} (hrow : (index.erased key).row k = some row) :
      index.row k = some row := by
    rw [row_erased] at hrow
    split at hrow
    · cases hrow
    · split at hrow
      · exact (Option.filter_eq_some_iff.mp hrow).1
      · exact hrow
  have hkept {k : ObjectKey} (hk : index.has k = true) (hne : k ≠ key)
      (himage : k.kind ≠ .image) (hplan : k.kind ≠ .plan) : (index.erased key).has k = true := by
    unfold has at hk ⊢
    rw [row_erased]
    have hnot : ¬(k = key ∨ key.kind = .artifact ∧ k = ⟨.image, key.id⟩) := by
      rintro (hkey | ⟨_, hcascade⟩)
      · exact hne hkey
      · rw [hcascade] at himage
        exact himage rfl
    rw [if_neg hnot, if_neg fun hplans => hplan hplans.2]
    exact hk
  refine ⟨?_, ?_, ?_, ?_⟩
  · intro id himage
    obtain ⟨row, hrow⟩ := has_iff.mp himage
    refine hkept (h.images id (has_iff.mpr ⟨row, hbefore hrow⟩)) ?_ (by simp) (by simp)
    rintro rfl
    rw [row_erased] at hrow
    simp at hrow
  · intro id row hrow
    refine hkept (h.plans id row (hbefore hrow)) ?_ (by simp) (by simp)
    rintro rfl
    rw [row_erased] at hrow
    simp [Option.filter_eq_some_iff] at hrow
  · intro graphId row k hrow hlists
    have hkind := kind_of_lists hlists
    refine hkept (h.edges graphId row k (hbefore hrow) hlists) ?_ ?_ ?_
    · rintro rfl
      have hlisted := listed_iff.mpr ⟨graphId, row, hbefore hrow, hlists⟩
      unfold restricted at hfree
      rcases hkind with hkind | hkind <;> simp [hkind, hlisted] at hfree
    · rcases hkind with hkind | hkind <;> simp [hkind]
    · rcases hkind with hkind | hkind <;> simp [hkind]
  · intro root ref href
    rw [projectRef_erased] at href
    refine hkept (h.refs root ref href) ?_ (by simp) (by simp)
    rintro rfl
    have hreferenced := referenced_iff.mpr ⟨root, ref, href, rfl⟩
    simp [restricted, hreferenced] at hfree

theorem projectRef_deleteRefsTo {graphId root : Str} : (index.deleteRefsTo graphId).projectRef root =
    (index.projectRef root).filter (·.graphId != graphId) := by
  unfold projectRef deleteRefsTo
  rw [Std.ExtTreeMap.getElem?_map]
  cases hproject : index.projects[root]? with
  | none => rfl
  | some project =>
      cases href : project.ref with
      | none => simp [href]
      | some ref => by_cases h : ref.graphId = graphId <;> simp [href, h, Option.filter]

theorem ForeignKeys.deleteRefsTo (h : index.ForeignKeys) (graphId : Str) :
    (index.deleteRefsTo graphId).ForeignKeys where
  images := h.images
  plans := h.plans
  edges := h.edges
  refs root ref href := by
    rw [projectRef_deleteRefsTo, Option.filter_eq_some_iff] at href
    exact h.refs root ref href.1

/-- Nothing in the rows changes. -/
theorem ForeignKeys.of_rows (h : index.ForeignKeys) (hrows : index'.rows = index.rows)
    (hrefs : ∀ root ref, index'.projectRef root = some ref → index.projectRef root = some ref ∨
      index.has ⟨.graph, ref.graphId⟩ = true) : index'.ForeignKeys := by
  have hrow (key : ObjectKey) : index'.row key = index.row key := by
    unfold row
    rw [hrows]
  have hhas (key : ObjectKey) : index'.has key = index.has key := by
    unfold has
    rw [hrow]
  refine ⟨?_, ?_, ?_, ?_⟩
  · simpa only [hhas] using h.images
  · simpa only [hrow, hhas] using h.plans
  · simpa only [hrow, hhas] using h.edges
  · intro root ref href
    rw [hhas]
    rcases hrefs root ref href with hold | hnew
    · exact h.refs root ref hold
    · exact hnew

theorem upsertProjectRef_eq_ok {root graphId : Str} {time : Nat} :
    index.upsertProjectRef root graphId time = .ok index' ↔
      index.has ⟨.graph, (newerRef (index.projectRef root) graphId time).graphId⟩ = true ∧
        index' = { index with
          projects := index.projects.insert root
            (upsertedProject index.projects[root]? graphId time) } := by
  unfold upsertProjectRef
  split
  · rename_i h
    simp [h, eq_comm]
  · rename_i h
    simp [h]

theorem projectRef_insert {root other : Str} {project : ProjectRow} :
    ({ index with projects := index.projects.insert root project } : Index).projectRef other =
      if other = root then project.ref else index.projectRef other := by
  unfold projectRef
  by_cases h : other = root
  · simp [h]
  · simp [Map.get_insert_of_ne _ _ (Ne.symm h), h]

theorem ForeignKeys.upsertProjectRef (h : index.ForeignKeys) {root graphId : Str} {time : Nat}
    (hok : index.upsertProjectRef root graphId time = .ok index') : index'.ForeignKeys := by
  obtain ⟨hgraph, rfl⟩ := upsertProjectRef_eq_ok.mp hok
  refine h.of_rows rfl fun other ref href => ?_
  rw [projectRef_insert] at href
  split at href
  · cases href
    exact Or.inr hgraph
  · exact Or.inl href

end ForeignKeys

end Index
end Bpm
