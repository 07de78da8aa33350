import Bpm.Metadata.Repair

/-!
# When a repair succeeds

A repair brings the index in line with the store as long as every plan file names a
graph whose volume is there: a plan refers to its graph by a foreign key, and a
collection that removes a graph leaves its plan files behind.
-/

namespace Bpm

open Text

/-- What an index is after a repair. -/
structure Repaired (store : Store) (result : Index) : Prop where
  indexed : ∀ key, result.has key = store.isPublished key
  complete : ∀ graphId row, result.row ⟨.graph, graphId⟩ = some row → row.complete = true →
    ∃ entry inventory, store.entry ⟨.graph, graphId⟩ = some entry ∧
      entry.inventory = some inventory ∧ row.edges = inventory ∧
      ∀ key, inventory.lists key = true → result.has key = true
  refs : ∀ (root : Str) registration, store.registrations[root]? = some registration →
    result.has ⟨.graph, registration.graphId⟩ = true →
    ∃ ref, result.projectRef root = some ref ∧ ref.graphId = registration.graphId
  stable : repairIndex store result = .ok result

def Repairs (store : Store) (index : Index) : Prop :=
  ∃ result, repairIndex store index = .ok result ∧ Repaired store result

/-- No project has a reference to another published graph that is at least as recent
as its registration file. -/
def RefsNotNewer (store : Store) (index : Index) : Prop :=
  ∀ (root : Str) registration ref, store.registrations[root]? = some registration →
    store.has ⟨.graph, registration.graphId⟩ = true → index.projectRef root = some ref →
    store.has ⟨.graph, ref.graphId⟩ = true → ref.graphId ≠ registration.graphId →
    ref.observedAt < registration.updatedAt

variable {store : Store} {index result : Index}

/-! ## The transaction, phase by phase -/

theorem repairTransaction_eq_ok {observed : List ScannedObject} {stale : List ObjectKey}
    {registrations : Map Registration} :
    repairTransaction observed stale registrations index = .ok result ↔
      ∃ index₁ index₂, observed.foldlM (repairObject observed) index = .ok index₁ ∧
        stale.foldlM removeStaleRow index₁ = .ok index₂ ∧
        registrations.toList.foldlM (restoreRef observed) index₂ = .ok result := by
  unfold repairTransaction
  simp only [Except.bind_eq_ok]
  constructor
  · rintro ⟨index₁, h₁, index₂, h₂, h₃⟩
    exact ⟨index₁, index₂, h₁, h₂, h₃⟩
  · rintro ⟨index₁, index₂, h₁, h₂, h₃⟩
    exact ⟨index₁, h₁, index₂, h₂, h₃⟩

section ForeignKeys

open Index

theorem ForeignKeys_repairObject {observed : List ScannedObject} {object : ScannedObject}
    (h : index.ForeignKeys) (hok : repairObject observed index object = .ok result) :
    result.ForeignKeys := by
  unfold repairObject at hok
  obtain ⟨first, hfirst, hrest⟩ := Except.bind_eq_ok.mp hok
  have hfirst := h.upsertObject hfirst
  split at hrest
  · unfold repairGraph at hrest
    split at hrest
    · exact (hfirst.setGraphComplete _ _).upsertGraphEdges hrest
    · cases hrest
      exact (hfirst.setGraphComplete _ _).deleteGraphEdges _
  · cases hrest
    exact hfirst

theorem ForeignKeys_removeStaleRow {key : ObjectKey} (h : index.ForeignKeys)
    (hok : removeStaleRow index key = .ok result) : result.ForeignKeys := by
  unfold removeStaleRow at hok
  dsimp only at hok
  obtain ⟨middle, hdelete, hrest⟩ := Except.bind_eq_ok.mp hok
  cases hrest
  have hmiddle : middle.ForeignKeys := by
    split at hdelete
    · exact (h.deleteRefsTo _).deleteRow hdelete
    · exact h.deleteRow hdelete
  exact hmiddle.of_rows rfl fun root ref href => Or.inl href

theorem ForeignKeys_repairTransaction {observed : List ScannedObject} {stale : List ObjectKey}
    {registrations : Map Registration} (h : index.ForeignKeys)
    (hok : repairTransaction observed stale registrations index = .ok result) :
    result.ForeignKeys := by
  obtain ⟨index₁, index₂, h₁, h₂, h₃⟩ := repairTransaction_eq_ok.mp hok
  have hfirst := Folds.invariant (I := fun _ index => index.ForeignKeys) h₁ h
    fun _ _ _ _ _ _ hpre hstep => ForeignKeys_repairObject hpre hstep
  have hsecond := Folds.invariant (I := fun _ index => index.ForeignKeys) h₂ hfirst
    fun _ _ _ _ _ _ hpre hstep => ForeignKeys_removeStaleRow hpre hstep
  refine Folds.invariant (I := fun _ index => index.ForeignKeys) h₃ hsecond ?_
  intro _ entry _ _ _ _ hpre hstep
  unfold restoreRef at hstep
  split at hstep
  · exact hpre.upsertProjectRef hstep
  · cases hstep
    exact hpre

end ForeignKeys

/-! ## Repairing again -/

theorem observedRow_idem (observed : List ScannedObject) (old : Option ObjectRow)
    (object : ScannedObject) :
    observedRow observed (some (observedRow observed old object)) object =
      observedRow observed old object := by
  have hgraph (row : ObjectRow) (inventory : Option GraphInventory) :
      (graphRow observed inventory row).publishedAt = row.publishedAt ∧
        (graphRow observed inventory row).sizeBytes = row.sizeBytes ∧
        (graphRow observed inventory row).graphId = row.graphId := by
    unfold graphRow
    cases inventory.filter (inventoryComplete observed) <;> exact ⟨rfl, rfl, rfl⟩
  have hagain (row row' : ObjectRow) (inventory : Option GraphInventory)
      (hpublished : row.publishedAt = row'.publishedAt) (hsize : row.sizeBytes = row'.sizeBytes)
      (hid : row.graphId = row'.graphId) :
      graphRow observed inventory row = graphRow observed inventory row' := by
    unfold graphRow
    cases inventory.filter (inventoryComplete observed) <;> simp [hpublished, hsize, hid]
  have hpublished : (Index.upsertedRow old object.record object.planGraphId none).publishedAt =
      min (Index.upsertedRow old object.record object.planGraphId none).publishedAt
        object.record.publishedAt := by
    unfold Index.upsertedRow
    cases old <;> simp
  unfold observedRow
  dsimp only
  by_cases hkind : object.record.key.kind = .graph
  · simp only [hkind, if_true]
    obtain ⟨hrow, _, _⟩ := hgraph (Index.upsertedRow old object.record object.planGraphId none)
      object.graphInventory
    refine hagain _ _ _ ?_ rfl rfl
    rw [hpublished, ← hrow]
    rfl
  · simp only [hkind, if_false]
    have hsame : Index.upsertedRow (some (Index.upsertedRow old object.record object.planGraphId none))
        object.record object.planGraphId none =
        { Index.upsertedRow old object.record object.planGraphId none with
          publishedAt := min (Index.upsertedRow old object.record object.planGraphId
            none).publishedAt object.record.publishedAt } := rfl
    rw [hsame, ← hpublished]

/-- A row that is what a scan makes of it stays. -/
theorem SetsRow.same {key : ObjectKey} {row : ObjectRow} {index' : Index}
    (h : SetsRow key row index index') (hrow : index.row key = some row) : index' = index := by
  refine Index.ext_row (fun k => ?_) h.projects h.leases h.accessLog
  rw [h.rows]
  split
  · rename_i hk
    rw [hk, hrow]
  · rfl

theorem upsertedProject_idem (old : Option ProjectRow) (graphId : Str) (time : Nat) :
    Index.upsertedProject (some (Index.upsertedProject old graphId time)) graphId time =
      Index.upsertedProject old graphId time := by
  have hlast : max ((old.map (max ·.lastSeenAt time)).getD time) time =
      (old.map (max ·.lastSeenAt time)).getD time := by
    cases old <;> simp
  have href (ref : Option ProjectRef) :
      Index.newerRef (some (Index.newerRef ref graphId time)) graphId time =
        Index.newerRef ref graphId time := by
    cases ref with
    | none => simp [Index.newerRef]
    | some ref =>
        unfold Index.newerRef
        by_cases h : ref.observedAt < time
        · simp [h]
        · simp [h]
  unfold Index.upsertedProject
  simp only [Option.map_some, Option.getD_some, Option.bind_some]
  rw [hlast, href]

theorem insert_same {α : Type} {m : Map α} {k : Str} {v : α} (h : m[k]? = some v) :
    m.insert k v = m := by
  refine Std.ExtTreeMap.ext_getElem? fun other => ?_
  rw [Map.get_insert]
  split
  · rename_i hk
    rw [← hk, h]
  · rfl

/-! ## From one index to the next -/

/-- An index with all that is published has what any scanned object refers to. -/
theorem fits_of_indexed (hplans : PlansServed store)
    (hindexed : ∀ key, store.isPublished key = true → index.has key = true) {key : ObjectKey}
    {entry : StoreEntry} (hentry : store.entry key = some entry)
    (hpublished : store.isPublished key = true) :
    Fits (scanNamespaces store) index (scannedObject key entry) := by
  refine ⟨?_, ?_⟩
  · obtain ⟨kind, id⟩ := key
    cases kind with
    | artifact => rfl
    | derived => rfl
    | graph => rfl
    | image => exact (Bool.or_eq_true ..).mpr (Or.inl (hindexed _ hpublished))
    | plan =>
        have hgraph : store.isPublished ⟨.graph, entry.graphId⟩ = true := by
          rw [Store.isPublished_eq_has (by simp)]
          exact hplans id entry hentry
        simpa [Index.parentIndexed, scannedObject] using hindexed _ hgraph
  · intro inventory hinventory
    have hcomplete := (Option.filter_eq_some_iff.mp hinventory).2
    refine Index.hasAll_iff.mpr fun listed hlists => ?_
    have hlisted := inventoryComplete_iff.mp hcomplete listed hlists
    rw [observes_scan] at hlisted
    exact hindexed listed hlisted

/-- What the first two phases leave: the rows of what is published. -/
theorem row_of_cleared {index₁ index₂ : Index}
    (hobserved : ObservedRows (scanNamespaces store) index (scanNamespaces store) index₁)
    (hcleared : Cleared index₁ (staleRows index store) index₂) (key : ObjectKey) :
    index₂.row key = if store.isPublished key = true then index₁.row key else none := by
  rw [hcleared.rows]
  by_cases hpublished : store.isPublished key = true
  · have hnot : key ∉ staleRows index store := by
      intro hmem
      rw [(mem_staleRows.mp hmem).2] at hpublished
      cases hpublished
    rw [if_neg hnot, if_pos hpublished]
  · rw [if_neg hpublished]
    rw [Bool.not_eq_true] at hpublished
    split
    · rfl
    · rename_i hnot
      have hbefore := hobserved.row_of_unpublished hpublished
      cases hrow : index.row key with
      | none => rw [hbefore, hrow]
      | some row =>
          exact absurd (mem_staleRows.mpr ⟨Index.has_iff.mpr ⟨row, hrow⟩, hpublished⟩) hnot

/-- What a successful repair did, phase by phase. -/
structure RepairedBy (store : Store) (index result : Index) : Prop where
  rows : ∀ key, result.row key = if store.isPublished key = true then
    (store.entry key).map fun entry =>
      observedRow (scanNamespaces store) (index.row key) (scannedObject key entry) else none
  seen : ∀ (root : Str) registration, store.registrations[root]? = some registration →
    store.has ⟨.graph, registration.graphId⟩ = true →
    ∃ old, result.projects[root]? =
        some (Index.upsertedProject old registration.graphId registration.updatedAt) ∧
      old.bind (·.ref) = (index.projectRef root).filter
        fun ref => ⟨.graph, ref.graphId⟩ ∉ staleRows index store

theorem observes_graph {graphId : Str} :
    observes (scanNamespaces store) ⟨.graph, graphId⟩ = store.has ⟨.graph, graphId⟩ := by
  rw [observes_scan, Store.isPublished_eq_has (by simp)]

/-- Where plans have their graphs, a repair goes through. -/
theorem repairIndex_total (hfk : index.ForeignKeys) (hplans : PlansServed store) :
    ∃ result, repairIndex store index = .ok result ∧ RepairedBy store index result := by
  obtain ⟨index₁, h₁, hobserved⟩ := observeAll_total hplans index
  obtain ⟨index₂, h₂, hcleared⟩ := removeStale_total hplans hobserved
  have hrows := row_of_cleared hobserved hcleared
  have hfirst := Folds.invariant (I := fun _ index => index.ForeignKeys) h₁ hfk
    fun _ _ _ _ _ _ hpre hstep => ForeignKeys_repairObject hpre hstep
  have hsecond := Folds.invariant (I := fun _ index => index.ForeignKeys) h₂ hfirst
    fun _ _ _ _ _ _ hpre hstep => ForeignKeys_removeStaleRow hpre hstep
  have hindexed (key : ObjectKey) (hkey : observes (scanNamespaces store) key = true) :
      index₂.has key = true := by
    obtain ⟨row, hrow⟩ := Index.has_iff.mp (has_of_observes hobserved hkey)
    rw [observes_scan] at hkey
    refine Index.has_iff.mpr ⟨row, ?_⟩
    rw [hrows, if_pos hkey, hrow]
  obtain ⟨result, h₃, hrestored⟩ :=
    @restoreAll_total (scanNamespaces store) index₂ store.registrations hindexed hsecond.refs
  refine ⟨result, repairTransaction_eq_ok.mpr ⟨index₁, index₂, h₁, h₂, h₃⟩, fun key => ?_, ?_⟩
  · have hsame : result.row key = index₂.row key := by
      unfold Index.row
      rw [hrestored.rows]
    rw [hsame, hrows]
    split
    · rename_i hpublished
      obtain ⟨entry, hentry⟩ := Store.has_iff.mp (Store.has_of_isPublished hpublished)
      rw [hobserved.row_of_published hentry hpublished, hentry]
      rfl
    · rfl
  · intro root registration hregistration hgraph
    refine ⟨index₂.projects[root]?, ?_, ?_⟩
    · exact hrestored.seen (root, registration) (Map.mem_toList.mpr hregistration)
        (observes_graph.trans hgraph)
    · have hrefs := hcleared.refs root
      unfold Index.projectRef at hrefs ⊢
      rw [hrefs, hobserved.projects]

namespace RepairedBy

theorem indexed (h : RepairedBy store index result) (key : ObjectKey) :
    result.has key = store.isPublished key := by
  unfold Index.has
  rw [h.rows]
  split
  · rename_i hpublished
    obtain ⟨entry, hentry⟩ := Store.has_iff.mp (Store.has_of_isPublished hpublished)
    rw [hentry, hpublished]
    rfl
  · rename_i hunpublished
    rw [Bool.not_eq_true] at hunpublished
    rw [hunpublished]
    rfl

theorem row_of_published (h : RepairedBy store index result) {key : ObjectKey}
    {entry : StoreEntry} (hentry : store.entry key = some entry)
    (hpublished : store.isPublished key = true) : result.row key =
      some (observedRow (scanNamespaces store) (index.row key) (scannedObject key entry)) := by
  rw [h.rows, if_pos hpublished, hentry]
  rfl

/-- Complete graphs have their inventory, and all of it is indexed. -/
theorem complete (h : RepairedBy store index result) {graphId : Str} {row : ObjectRow}
    (hrow : result.row ⟨.graph, graphId⟩ = some row) (hmarked : row.complete = true) :
    ∃ entry inventory, store.entry ⟨.graph, graphId⟩ = some entry ∧
      entry.inventory = some inventory ∧ row.edges = inventory ∧
      ∀ key, inventory.lists key = true → result.has key = true := by
  have hpublished : store.isPublished ⟨.graph, graphId⟩ = true := by
    rw [← h.indexed]
    exact Index.has_iff.mpr ⟨row, hrow⟩
  obtain ⟨entry, hentry⟩ := Store.has_iff.mp (Store.has_of_isPublished hpublished)
  rw [h.row_of_published hentry hpublished] at hrow
  have hgraph : graphRow (scanNamespaces store) entry.inventory (Index.upsertedRow
      (index.row ⟨.graph, graphId⟩) ⟨⟨.graph, graphId⟩, entry.sizeBytes, entry.modifiedAt⟩
      none none) = row := Option.some.inj hrow
  unfold graphRow at hgraph
  cases hinventory : entry.inventory.filter (inventoryComplete (scanNamespaces store)) with
  | none =>
      rw [hinventory] at hgraph
      rw [← hgraph] at hmarked
      cases hmarked
  | some inventory =>
      rw [hinventory] at hgraph
      obtain ⟨hfound, hall⟩ := Option.filter_eq_some_iff.mp hinventory
      refine ⟨entry, inventory, hentry, hfound, by rw [← hgraph], fun key hlists => ?_⟩
      have hlisted := inventoryComplete_iff.mp hall key hlists
      rw [h.indexed, ← observes_scan]
      exact hlisted

/-- A project's reference is that of its registration, unless one to another published
graph is at least as recent. -/
theorem ref_iff (h : RepairedBy store index result) (hfk : index.ForeignKeys) {root : Str}
    {registration : Registration} (hregistration : store.registrations[root]? = some registration)
    (hgraph : store.has ⟨.graph, registration.graphId⟩ = true) :
    (∃ ref, result.projectRef root = some ref ∧ ref.graphId = registration.graphId) ↔
      ∀ ref, index.projectRef root = some ref → store.has ⟨.graph, ref.graphId⟩ = true →
        ref.graphId ≠ registration.graphId → ref.observedAt < registration.updatedAt := by
  obtain ⟨old, hproject, hold⟩ := h.seen root registration hregistration hgraph
  have hresult : result.projectRef root = some (Index.newerRef (old.bind (·.ref))
      registration.graphId registration.updatedAt) := by
    unfold Index.projectRef
    rw [hproject]
    rfl
  have hkept (ref : ProjectRef) (href : index.projectRef root = some ref) :
      ⟨.graph, ref.graphId⟩ ∉ staleRows index store ↔
        store.has ⟨.graph, ref.graphId⟩ = true := by
    have hindexed := hfk.refs root ref href
    rw [mem_staleRows, Store.isPublished_eq_has (by simp)]
    simp [hindexed]
  rw [hresult, hold]
  simp only [Option.some.injEq, exists_eq_left']
  cases href : index.projectRef root with
  | none => simp [Option.filter, Index.newerRef]
  | some ref =>
      have hstale := hkept ref href
      by_cases hhas : store.has ⟨.graph, ref.graphId⟩ = true
      · have hfilter : (some ref).filter (fun ref : ProjectRef =>
            decide (⟨.graph, ref.graphId⟩ ∉ staleRows index store)) = some ref := by
          rw [Option.filter_some, if_pos (decide_eq_true (hstale.mpr hhas))]
        rw [hfilter]
        unfold Index.newerRef
        constructor
        · intro hsame other heq _ hne
          cases heq
          by_contra hlate
          dsimp only at hsame
          rw [if_neg hlate] at hsame
          exact hne hsame
        · intro hnewer
          dsimp only
          split
          · rfl
          · rename_i hlate
            by_contra hne
            exact hlate (hnewer ref rfl hhas hne)
      · have hfilter : (some ref).filter (fun ref : ProjectRef =>
            decide (⟨.graph, ref.graphId⟩ ∉ staleRows index store)) = none := by
          have hnot : ¬(⟨.graph, ref.graphId⟩ ∉ staleRows index store) :=
            fun hmem => hhas (hstale.mp hmem)
          rw [Option.filter_some, if_neg (by simpa using hnot)]
        rw [hfilter]
        constructor
        · intro _ other heq hother
          cases heq
          exact absurd hother hhas
        · intro _
          rfl

/-- Nothing is left to do for a second repair. -/
theorem stable (h : RepairedBy store index result) (hfk : result.ForeignKeys)
    (hplans : PlansServed store) : repairIndex store result = .ok result := by
  have hindexed (key : ObjectKey) (hpublished : store.isPublished key = true) :
      result.has key = true := (h.indexed key).trans hpublished
  have hfirst : (scanNamespaces store).foldlM (repairObject (scanNamespaces store)) result =
      .ok result := by
    refine Folds.same fun object hobject => ?_
    obtain ⟨key, entry, hentry, hpublished, rfl⟩ := mem_scanNamespaces.mp hobject
    have hfits := fits_of_indexed hplans hindexed hentry hpublished
    have hplan : (scannedObject key entry).record.key.kind = .plan →
        (scannedObject key entry).planGraphId ≠ none := by
      intro hkind
      simp [scannedObject, show key.kind = .plan from hkind]
    obtain ⟨again, hok⟩ := repairObject_total hfits hplan
    have hsets := repairObject_sets hok
    have hrow := h.row_of_published hentry hpublished
    have hsame : (scannedObject key entry).record.key = key := rfl
    rw [hsame, hrow, observedRow_idem] at hsets
    rw [hok, hsets.same hrow]
  have hstale : staleRows result store = [] := by
    refine List.eq_nil_iff_forall_not_mem.mpr fun key hkey => ?_
    obtain ⟨hhas, hunpublished⟩ := mem_staleRows.mp hkey
    rw [h.indexed, hunpublished] at hhas
    cases hhas
  have hthird : store.registrations.toList.foldlM (restoreRef (scanNamespaces store)) result =
      .ok result := by
    refine Folds.same fun entry hentry => ?_
    unfold restoreRef
    split
    · rename_i hobserved
      rw [observes_graph] at hobserved
      obtain ⟨old, hproject, _⟩ := h.seen entry.1 entry.2 (Map.mem_toList.mp hentry) hobserved
      have hagain : Index.upsertedProject result.projects[entry.1]? entry.2.graphId
          entry.2.updatedAt = Index.upsertedProject old entry.2.graphId entry.2.updatedAt := by
        rw [hproject, upsertedProject_idem]
      have href : result.projectRef entry.1 = (Index.upsertedProject old entry.2.graphId
          entry.2.updatedAt).ref := by
        unfold Index.projectRef
        rw [hproject]
        rfl
      refine Index.upsertProjectRef_eq_ok.mpr ⟨?_, ?_⟩
      · have hnewer : some (Index.newerRef (result.projectRef entry.1) entry.2.graphId
            entry.2.updatedAt) = result.projectRef entry.1 := by
          rw [href]
          exact congrArg ProjectRow.ref
            (upsertedProject_idem old entry.2.graphId entry.2.updatedAt)
        exact hfk.refs entry.1 _ hnewer.symm
      · rw [hagain, insert_same hproject]
    · rfl
  exact repairTransaction_eq_ok.mpr ⟨result, result, hfirst, by rw [hstale]; rfl, hthird⟩

end RepairedBy

/-! ## What any successful repair leaves -/

/-- The rows found stale are gone. -/
theorem stale_removed {stale : List ObjectKey}
    (hok : stale.foldlM removeStaleRow index = .ok result) : ∀ key ∈ stale, result.row key = none := by
  refine Folds.invariant (I := fun done index' => ∀ key ∈ done, index'.row key = none) hok
    (fun _ h => absurd h List.not_mem_nil) ?_
  intro pre key post index₁ index₂ _ hpre hstep k hk
  have hspec := removeStaleRow_spec hstep
  cases hrow : index₂.row k with
  | none => rfl
  | some row =>
      have hbefore := row_of_removesStale hspec hrow
      rcases List.mem_append.mp hk with hdone | hlast
      · rw [hpre k hdone] at hbefore
        cases hbefore
      · obtain rfl := List.mem_singleton.mp hlast
        rw [hspec.rows, Index.row_erased] at hrow
        simp at hrow

/-- Only what is published is indexed after a repair, and as it was observed. -/
theorem observed_of_repaired (hok : repairIndex store index = .ok result) {key : ObjectKey}
    {row : ObjectRow} (hrow : result.row key = some row) :
    ∃ entry, store.entry key = some entry ∧ store.isPublished key = true ∧
      row = observedRow (scanNamespaces store) (index.row key) (scannedObject key entry) := by
  obtain ⟨index₁, index₂, h₁, h₂, h₃⟩ := repairTransaction_eq_ok.mp hok
  have hobserved := observeAll_rows h₁
  have hrow₂ : index₂.row key = some row := by
    unfold Index.row at hrow ⊢
    rw [← hrow, (restoreAll_spec h₃).rows]
  have hrow₁ := (removeStale_spec h₂).2 key row hrow₂
  have hpublished : store.isPublished key = true := by
    by_contra hunpublished
    rw [Bool.not_eq_true] at hunpublished
    rw [hobserved.row_of_unpublished hunpublished] at hrow₁
    have hstale := mem_staleRows.mpr ⟨Index.has_iff.mpr ⟨row, hrow₁⟩, hunpublished⟩
    rw [stale_removed h₂ key hstale] at hrow₂
    cases hrow₂
  obtain ⟨entry, hentry⟩ := Store.has_iff.mp (Store.has_of_isPublished hpublished)
  rw [hobserved.row_of_published hentry hpublished] at hrow₁
  exact ⟨entry, hentry, hpublished, (Option.some.inj hrow₁).symm⟩

/-- Only complete graphs have edges after a repair. -/
theorem complete_of_repaired (hok : repairIndex store index = .ok result) {graphId : Str}
    {row : ObjectRow} {key : ObjectKey} (hrow : result.row ⟨.graph, graphId⟩ = some row)
    (hlists : row.edges.lists key = true) : row.complete = true := by
  obtain ⟨entry, _, _, rfl⟩ := observed_of_repaired hok hrow
  have hgraph : observedRow (scanNamespaces store) (index.row ⟨.graph, graphId⟩)
      (scannedObject ⟨.graph, graphId⟩ entry) = graphRow (scanNamespaces store) entry.inventory
        (Index.upsertedRow (index.row ⟨.graph, graphId⟩)
          ⟨⟨.graph, graphId⟩, entry.sizeBytes, entry.modifiedAt⟩ none none) := rfl
  rw [hgraph] at hlists ⊢
  unfold graphRow at hlists ⊢
  cases hinventory : entry.inventory.filter (inventoryComplete (scanNamespaces store)) with
  | none =>
      rw [hinventory] at hlists
      simp [Index.lists_empty] at hlists
  | some inventory => rfl

/-! ## The condition -/

/-- An index with a row for each plan has a row for each plan's graph. -/
theorem plansServed_of_repaired (hfk : index.ForeignKeys)
    (hok : repairIndex store index = .ok result) (h : Repaired store result) :
    PlansServed store := by
  intro id entry hentry
  have hpublished : store.isPublished ⟨.plan, id⟩ = true := by
    rw [Store.isPublished_eq_has (by simp)]
    exact Store.has_iff.mpr ⟨entry, hentry⟩
  obtain ⟨index₁, index₂, h₁, h₂, h₃⟩ := repairTransaction_eq_ok.mp hok
  have hobserved := observeAll_rows h₁
  have hplan := (h.indexed ⟨.plan, id⟩).trans hpublished
  obtain ⟨row, hrow⟩ := Index.has_iff.mp hplan
  have hrow₂ : index₂.row ⟨.plan, id⟩ = some row := by
    unfold Index.row at hrow ⊢
    rw [← hrow, (restoreAll_spec h₃).rows]
  have hrow₁ := (removeStale_spec h₂).2 _ _ hrow₂
  rw [hobserved.row_of_published hentry hpublished] at hrow₁
  have hgraph : row.graphId = entry.graphId := by
    rw [← Option.some.inj hrow₁]
    rfl
  have hindexed := (ForeignKeys_repairTransaction hfk hok).plans id row hrow
  rw [hgraph, h.indexed, Store.isPublished_eq_has (by simp)] at hindexed
  exact hindexed

theorem repairs_iff (hfk : index.ForeignKeys) :
    Repairs store index ↔ PlansServed store ∧ RefsNotNewer store index := by
  constructor
  · rintro ⟨result, hok, h⟩
    have hplans := plansServed_of_repaired hfk hok h
    obtain ⟨again, hagain, hby⟩ := repairIndex_total hfk hplans
    obtain rfl : again = result := Except.ok.inj (hagain.symm.trans hok)
    refine ⟨hplans, fun root registration ref hregistration hgraph => ?_⟩
    have hindexed : again.has ⟨.graph, registration.graphId⟩ = true := by
      rw [h.indexed, Store.isPublished_eq_has (by simp)]
      exact hgraph
    exact (hby.ref_iff hfk hregistration hgraph).mp
      (h.refs root registration hregistration hindexed) ref
  · rintro ⟨hplans, hrefs⟩
    obtain ⟨result, hok, hby⟩ := repairIndex_total hfk hplans
    have hresult := ForeignKeys_repairTransaction hfk hok
    refine ⟨result, hok, hby.indexed, fun _ _ => hby.complete, ?_, hby.stable hresult hplans⟩
    intro root registration hregistration hindexed
    rw [hby.indexed, Store.isPublished_eq_has (by simp)] at hindexed
    exact (hby.ref_iff hfk hregistration hindexed).mpr fun ref =>
      hrefs root registration ref hregistration hindexed

theorem foreignKeys_empty : Index.empty.ForeignKeys := by
  have hrow (key : ObjectKey) : Index.empty.row key = none := by
    unfold Index.row Index.empty
    simp
  have href (root : Str) : Index.empty.projectRef root = none := by
    unfold Index.projectRef Index.empty
    simp
  refine ⟨fun id h => ?_, fun id row h => ?_, fun id row key h => ?_, fun root ref h => ?_⟩
  · simp [Index.has, hrow] at h
  · rw [hrow] at h
    cases h
  · rw [hrow] at h
    cases h
  · rw [href] at h
    cases h

/-- An object id that is one digit again and again. -/
def repeatedId (kind : ObjectKind) (digit : Char) : Str := List.replicate kind.idLength digit

/-- A store with a graph and its plan. -/
def plannedStore : Store :=
  (Store.empty.put ⟨.graph, repeatedId .graph '1'⟩ ⟨1, 1, none, []⟩).put
    ⟨.plan, repeatedId .plan '2'⟩ ⟨1, 1, none, repeatedId .graph '1'⟩

/-- The same store, once a collection has removed the graph. -/
def orphanedStore : Store := plannedStore.unlink ⟨.graph, repeatedId .graph '1'⟩

theorem plannedStore_repairs : Repairs plannedStore Index.empty := by
  refine (repairs_iff foreignKeys_empty).mpr ⟨fun id entry hentry => ?_, ?_⟩
  · have hgraph : entry.graphId = repeatedId .graph '1' := by
      unfold plannedStore Store.entry Store.put Store.empty at hentry
      simp only [Tables.get_set] at hentry
      split at hentry
      · cases hentry
        rfl
      · simp at hentry
    rw [hgraph]
    decide
  · intro root registration ref hregistration
    have hnone : plannedStore.registrations[root]? = none := by
      unfold plannedStore Store.put Store.empty
      simp
    rw [hnone] at hregistration
    cases hregistration

theorem orphaned_plan_unrepaired :
    ¬∀ store index, index.ForeignKeys → Repairs store index := by
  intro hall
  obtain ⟨result, hok, _⟩ := hall orphanedStore Index.empty foreignKeys_empty
  have hfails : (repairIndex orphanedStore Index.empty).isOk = false := by decide
  rw [hok] at hfails
  cases hfails

end Bpm
