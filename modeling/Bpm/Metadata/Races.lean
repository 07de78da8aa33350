import Bpm.Metadata.Leases
import Bpm.Metadata.Collected

/-!
# Collectors beside live sessions

What a session has leased stays published, and what a repair in progress has found
stale stays unpublished: as long as nobody publishes it in between, the repair takes no
lease away, and every deletion finds the leases that it must find.
-/

namespace Bpm

open MetadataRepository Text

/-- Nothing becomes published that a repair in progress has found stale. -/
def NothingRevived (w : World) (action : Action) : Prop :=
  ∀ key entry, action = .publish key entry → ∀ c observed stale,
    w.collectors c = .queried observed stale → ∀ k ∈ stale,
      (w.repository.store.put key entry).isPublished k = false

/-- The clock does not fall behind the reading of a collection in progress. -/
def ClockKept (w : World) (action : Action) : Prop :=
  ∀ time, action = .tick time → ∀ c now selected,
    w.collectors c = .collecting now selected → now ≤ time

/-- Leases are renewed in time, and no step is one of the two that collectors cannot
cope with. -/
structure Orderly (w : World) (action : Action) : Prop where
  punctual : Punctual w action
  revived : NothingRevived w action
  clock : ClockKept w action

/-- Sessions, repairs and collections do not get in each other's way. -/
structure Undisturbed (w : World) : Prop where
  kept : RowsKept true w
  published : ∀ i guard, w.sessions i = some guard → ∀ key ∈ guard.keys,
    w.repository.store.isPublished key = true
  images : ∀ i guard, w.sessions i = some guard → ∀ id, ⟨.image, id⟩ ∈ guard.keys →
    ⟨.artifact, id⟩ ∈ guard.keys
  stale : ∀ c observed stale, w.collectors c = .queried observed stale → ∀ key ∈ stale,
    w.repository.store.isPublished key = false
  readings : ∀ c now selected, w.collectors c = .collecting now selected → now ≤ w.clock

/-! ## Publishing and removing -/

section Store

variable {store : Store} {key k : ObjectKey} {entry : StoreEntry}

theorem has_put : (store.put key entry).has k = (decide (k = key) || store.has k) := by
  unfold Store.has Store.entry Store.put
  rw [Tables.get_set]
  by_cases hk : k = key
  · rw [if_pos (Index.key_eq.mpr hk)]
    simp [hk]
  · rw [if_neg fun h => hk (Index.key_eq.mp h)]
    simp [hk]

theorem has_unlink : (store.unlink key).has k = (decide (k ≠ key) && store.has k) := by
  unfold Store.has
  rw [entry_unlink]
  by_cases hk : k = key <;> simp [hk]

theorem isPublished_iff : store.isPublished k = true ↔
    store.has k = true ∧ (k.kind = .image → store.has ⟨.artifact, k.id⟩ = true) := by
  unfold Store.isPublished
  rw [Bool.and_eq_true, Bool.or_eq_true, bne_iff_ne]
  constructor
  · rintro ⟨hhas, hkind | hartifact⟩
    · exact ⟨hhas, fun h => absurd h hkind⟩
    · exact ⟨hhas, fun _ => hartifact⟩
  · rintro ⟨hhas, himage⟩
    refine ⟨hhas, ?_⟩
    by_cases hkind : k.kind = .image
    · exact Or.inr (himage hkind)
    · exact Or.inl hkind

theorem isPublished_put (h : store.isPublished k = true) :
    (store.put key entry).isPublished k = true := by
  obtain ⟨hhas, himage⟩ := isPublished_iff.mp h
  refine isPublished_iff.mpr ⟨?_, fun hkind => ?_⟩
  · rw [has_put, hhas, Bool.or_true]
  · rw [has_put, himage hkind, Bool.or_true]

theorem isPublished_unlink (h : store.isPublished k = true) (hk : k ≠ key)
    (himage : k.kind = .image → ⟨.artifact, k.id⟩ ≠ key) :
    (store.unlink key).isPublished k = true := by
  obtain ⟨hhas, hartifact⟩ := isPublished_iff.mp h
  refine isPublished_iff.mpr ⟨?_, fun hkind => ?_⟩
  · rw [has_unlink, hhas, decide_eq_true hk]
    rfl
  · rw [has_unlink, hartifact hkind, decide_eq_true (himage hkind)]
    rfl

theorem unpublished_unlink (h : store.isPublished k = false) :
    (store.unlink key).isPublished k = false := by
  rw [← Bool.not_eq_true] at h ⊢
  intro hpublished
  obtain ⟨hhas, hartifact⟩ := isPublished_iff.mp hpublished
  refine h (isPublished_iff.mpr ⟨?_, fun hkind => ?_⟩)
  · rw [has_unlink] at hhas
    exact ((Bool.and_eq_true ..).mp hhas).2
  · have hboth := hartifact hkind
    rw [has_unlink] at hboth
    exact ((Bool.and_eq_true ..).mp hboth).2

theorem isPublished_congr {store' : Store} (h : store'.entries = store.entries) :
    store'.isPublished k = store.isPublished k := by
  have hhas (k : ObjectKey) : store'.has k = store.has k := by
    unfold Store.has Store.entry
    rw [h]
  unfold Store.isPublished
  rw [hhas, hhas]

end Store

/-! ## A leased object is not taken -/

section Taken

variable {w : World}

theorem mem_canonicalKeys {keys : List ObjectKey} {key : ObjectKey} :
    key ∈ canonicalKeys keys ↔ key ∈ keys := by
  have hfold (keys : List ObjectKey) (ids : Map Unit) (id : Str) :
      id ∈ keys.foldl (fun ids key => ids.insert key.id ()) ids ↔
        (∃ key ∈ keys, key.id = id) ∨ id ∈ ids := by
    induction keys generalizing ids with
    | nil => simp
    | cons first keys ih =>
        rw [List.foldl_cons, ih, Std.ExtTreeMap.mem_insert]
        simp only [Std.LawfulEqCmp.compare_eq_iff_eq, List.mem_cons, exists_eq_or_imp]
        exact or_assoc.symm.trans (or_congr_left or_comm)
  unfold canonicalKeys
  simp only [List.mem_flatMap, List.mem_map, Std.ExtTreeMap.mem_keys, hfold]
  constructor
  · rintro ⟨kind, _, id, ⟨other, hother, rfl⟩ | hnone, rfl⟩
    · obtain ⟨hmem, hkind⟩ := List.mem_filter.mp hother
      have hkind := of_decide_eq_true hkind
      have hsame : other = ⟨kind, other.id⟩ := by rw [← hkind]
      rw [← hsame]
      exact hmem
    · simp at hnone
  · intro hkey
    refine ⟨key.kind, key.kind.mem_all, key.id, Or.inl ⟨key, ?_, rfl⟩, rfl⟩
    exact List.mem_filter.mpr ⟨hkey, by simp⟩

/-- A live guard's objects are protected from a collection that read the clock before. -/
theorem Undisturbed.protected_of_held (h : Undisturbed w) {i : Nat} {guard : LeaseGuard}
    (hguard : w.sessions i = some guard) {key : ObjectKey} (hkey : key ∈ guard.keys) {now : Nat}
    (hnow : now ≤ w.clock) : w.repository.index.protectionActive key now = true := by
  obtain ⟨row, hrow, _, hrowKey, hlast⟩ := h.kept.rows i guard hguard key hkey
  have hlast := hlast rfl
  unfold Index.protectionActive
  rw [Bool.or_eq_true]
  left
  unfold Index.leased
  refine List.any_eq_true.mpr ⟨row, hrow, decide_eq_true ⟨hrowKey, ?_⟩⟩
  omega

end Taken

/-! ## Step by step -/

namespace Undisturbed

variable {w w' : World} {i : Nat}

theorem sessions_ended {s' : MetadataRepository} {j : Nat} {guard : LeaseGuard}
    (h : ({ w with repository := s' }.setSession i none).sessions j = some guard) :
    w.sessions j = some guard := by
  unfold World.setSession at h
  dsimp only at h
  rw [Function.update_apply] at h
  split at h
  · cases h
  · exact h

/-- What a session's keys need of a store that other keys may leave. -/
theorem published_of_store {s s' : Store} {guard : LeaseGuard}
    (hpublished : ∀ key ∈ guard.keys, s.isPublished key = true)
    (hsame : s' = s ∨ (∃ key entry, s' = s.put key entry) ∨
      ∃ key, s' = s.unlink key ∧ key ∉ guard.keys ∧
        ∀ id, ⟨.image, id⟩ ∈ guard.keys → key ≠ ⟨.artifact, id⟩) :
    ∀ key ∈ guard.keys, s'.isPublished key = true := by
  intro key hkey
  rcases hsame with rfl | ⟨other, entry, rfl⟩ | ⟨other, rfl, hother, himages⟩
  · exact hpublished key hkey
  · exact isPublished_put (hpublished key hkey)
  · refine isPublished_unlink (hpublished key hkey) ?_ ?_
    · rintro rfl
      exact hother hkey
    · intro hkind heq
      have himage : key = ⟨.image, key.id⟩ := by rw [← hkind]
      exact himages key.id (himage ▸ hkey) heq.symm

/-- A guard that grows by published objects, its images along with their artifacts. -/
theorem guardStep {base : LeaseGuard} {more : List ObjectKey} (h : Undisturbed w)
    (hkept : RowsKept true w') (hbase : ∀ key ∈ base.keys, w.repository.store.isPublished key = true)
    (himages : ∀ id, ⟨.image, id⟩ ∈ base.keys ++ more → ⟨.artifact, id⟩ ∈ base.keys ++ more)
    (hstep : GuardStep w i base more w') : Undisturbed w' := by
  cases hstep with
  | failed hw =>
      rw [hw]
      exact h
  | grown guard s' htakes hw =>
      have hguards (j : Nat) (guard' : LeaseGuard) (hguard' : w'.sessions j = some guard') :
          guard' = guard ∨ w.sessions j = some guard' := by
        rw [hw] at hguard'
        unfold World.setSession at hguard'
        dsimp only at hguard'
        rw [Function.update_apply] at hguard'
        split at hguard'
        · cases hguard'
          exact Or.inl rfl
        · exact Or.inr hguard'
      have hstore : w'.repository.store = w.repository.store := by
        rw [hw]
        exact htakes.store
      refine ⟨hkept, ?_, ?_, ?_, ?_⟩
      · intro j guard' hguard' key hkey
        rw [hstore]
        rcases hguards j guard' hguard' with rfl | hold
        · rw [htakes.guard_eq] at hkey
          rcases List.mem_append.mp hkey with hin | hin
          · exact hbase key hin
          · exact htakes.published key hin
        · exact h.published j guard' hold key hkey
      · intro j guard' hguard' id hid
        rcases hguards j guard' hguard' with rfl | hold
        · rw [htakes.guard_eq] at hid ⊢
          exact himages id hid
        · exact h.images j guard' hold id hid
      · rw [hstore]
        subst hw
        exact h.stale
      · subst hw
        exact h.readings

/-- An install leases images along with their artifacts. -/
theorem image_sessionKeys {artifacts derived : List Str} {id : Str}
    (hid : ⟨.image, id⟩ ∈ canonicalKeys (sessionKeys artifacts derived)) :
    ⟨.artifact, id⟩ ∈ canonicalKeys (sessionKeys artifacts derived) := by
  rw [mem_canonicalKeys] at hid ⊢
  unfold sessionKeys at hid ⊢
  simp only [List.mem_append, List.mem_flatMap, List.mem_cons, ObjectKey.mk.injEq, reduceCtorEq,
    false_and, true_and, List.not_mem_nil, or_false, false_or, List.mem_map, and_false,
    exists_false] at hid ⊢
  exact hid

/-- A graph comes with derived objects only. -/
theorem image_graphKeys {graphHex : Str} {derived : List Str} {id : Str} :
    ⟨.image, id⟩ ∉ canonicalKeys (graphKeys graphHex derived) := by
  rw [mem_canonicalKeys]
  simp [graphKeys]

/-- Where no guard is new, it is the files and the collectors that count. -/
theorem of_step (h : Undisturbed w) (hkept : RowsKept true w')
    (hsessions : ∀ j guard, w'.sessions j = some guard → w.sessions j = some guard)
    (hpublished : ∀ j guard, w.sessions j = some guard → ∀ key ∈ guard.keys,
      w'.repository.store.isPublished key = true)
    (hstale : ∀ c observed stale, w'.collectors c = .queried observed stale → ∀ key ∈ stale,
      w'.repository.store.isPublished key = false)
    (hreadings : ∀ c now selected, w'.collectors c = .collecting now selected → now ≤ w'.clock) :
    Undisturbed w' :=
  ⟨hkept, fun j guard hguard => hpublished j guard (hsessions j guard hguard),
    fun j guard hguard => h.images j guard (hsessions j guard hguard), hstale, hreadings⟩

/-- Where no guard is new and neither files nor collectors change, nothing does. -/
theorem of_quiet (h : Undisturbed w) (hkept : RowsKept true w')
    (hsessions : ∀ j guard, w'.sessions j = some guard → w.sessions j = some guard)
    (hfiles : w'.repository.store.entries = w.repository.store.entries)
    (hcollectors : w'.collectors = w.collectors) (hclock : w'.clock = w.clock) :
    Undisturbed w' := by
  refine h.of_step hkept hsessions ?_ ?_ ?_
  · intro j guard hguard key hkey
    rw [isPublished_congr hfiles]
    exact h.published j guard hguard key hkey
  · intro c observed stale hcollector key hkey
    rw [hcollectors] at hcollector
    rw [isPublished_congr hfiles]
    exact h.stale c observed stale hcollector key hkey
  · intro c now selected hcollector
    rw [hcollectors] at hcollector
    rw [hclock]
    exact h.readings c now selected hcollector

/-- One collector has come further, with files and guards as they were. -/
theorem setCollector (h : Undisturbed w) {c : Nat} {collector : Collector}
    (hkept : RowsKept true (w.setCollector c collector))
    (hstale : ∀ observed stale, collector = .queried observed stale → ∀ key ∈ stale,
      w.repository.store.isPublished key = false)
    (hreading : ∀ now selected, collector = .collecting now selected → now ≤ w.clock) :
    Undisturbed (w.setCollector c collector) := by
  have hcollectors (c' : Nat) : (w.setCollector c collector).collectors c' =
      if c' = c then collector else w.collectors c' := by
    unfold World.setCollector
    dsimp only
    rw [Function.update_apply]
  refine h.of_step hkept (fun _ _ hguard => hguard) h.published ?_ ?_
  · intro c' observed stale hcollector
    rw [hcollectors] at hcollector
    split at hcollector
    · exact hstale observed stale hcollector
    · exact h.stale c' observed stale hcollector
  · intro c' now selected hcollector
    rw [hcollectors] at hcollector
    split at hcollector
    · exact hreading now selected hcollector
    · exact h.readings c' now selected hcollector

theorem repairsSpare (h : Undisturbed w) (action : Action) : RepairsSpare w action := by
  intro c observed stale _ hcollector i guard hguard key hkey hstale
  have hunpublished := h.stale c observed stale hcollector key hstale
  rw [h.published i guard hguard key hkey] at hunpublished
  cases hunpublished

/-- The next object of a collection: either it stays, or no guard holds it. -/
theorem collectNext (h : Undisturbed w) {c now : Nat} {key : ObjectKey} {rest : List ObjectKey}
    (hcollector : w.collectors c = .collecting now (key :: rest))
    (hkept : RowsKept true (w.runCollector c (collectObject now key) (.collecting now rest))) :
    Undisturbed (w.runCollector c (collectObject now key) (.collecting now rest)) := by
  have hnow := h.readings c now (key :: rest) hcollector
  obtain ⟨collector, hrun, hnext⟩ := runCollector_eq (w := w) (c := c) (collectObject now key)
    (.collecting now rest)
  rw [hrun] at hkept ⊢
  have hbefore : Undisturbed (w.run (collectObject now key)) := by
    have hkept' : RowsKept true (w.run (collectObject now key)) := ⟨hkept.rows, hkept.distinct⟩
    rcases collectObject_cases now key w.repository with hsame | ⟨hfree, hstore, _⟩
    · have hw : w.run (collectObject now key) = w := by
        unfold World.run
        rw [hsame]
      rw [hw]
      exact h
    · have hnot {i : Nat} {guard : LeaseGuard} (hguard : w.sessions i = some guard)
          {k : ObjectKey} (hk : k ∈ guard.keys) : k ≠ key := by
        rintro rfl
        have hprotected := h.protected_of_held hguard hk hnow
        rw [hfree] at hprotected
        cases hprotected
      refine h.of_step hkept' (fun _ _ hguard => hguard) ?_ ?_ h.readings
      · intro j guard hguard
        refine published_of_store (h.published j guard hguard) (Or.inr (Or.inr ⟨key, hstore,
          fun hkey => hnot hguard hkey rfl, fun id hid => ?_⟩))
        exact (hnot hguard (h.images j guard hguard id hid)).symm
      · intro c' observed stale hc' k hk
        change (collectObject now key w.repository).2.store.isPublished k = false
        rw [hstore]
        exact unpublished_unlink (h.stale c' observed stale hc' k hk)
  refine hbefore.setCollector hkept ?_ ?_
  · intro observed stale heq
    rcases hnext with rfl | rfl <;> cases heq
  · intro now' selected heq
    rcases hnext with rfl | rfl
    · cases heq
      exact hnow
    · cases heq

theorem step {action : Action} (h : Undisturbed w) (horderly : Orderly w action)
    (hstep : sessions.step w action w') : Undisturbed w' := by
  have hkept := h.kept.step (h.repairsSpare action) (fun _ => horderly.punctual) hstep
  obtain ⟨_, hperform⟩ := hstep
  have hframe := perform_frame hperform
  cases action with
  | tick time =>
      cases hperform
      exact h.of_step hkept (fun _ _ hguard => hguard) h.published h.stale
        (horderly.clock time rfl)
  | publish key entry =>
      cases hperform
      refine h.of_step hkept (fun _ _ hguard => hguard) ?_ (horderly.revived key entry rfl)
        h.readings
      intro j guard hguard k hk
      exact isPublished_put (h.published j guard hguard k hk)
  | leaseObjects i leaseId ownerToken artifacts derived options =>
      simp only [Action.perform] at hperform
      split at hperform
      · cases hperform
      · cases hperform
        exact h.guardStep hkept (fun key hkey => absurd hkey List.not_mem_nil)
          (fun id hid => image_sessionKeys hid) guardStep_of_acquire
  | leaseGraphObject i leaseId ownerToken graphHex options =>
      simp only [Action.perform] at hperform
      split at hperform
      · cases hperform
      · cases hperform
        refine h.guardStep hkept (fun key hkey => absurd hkey List.not_mem_nil) (fun id hid => ?_)
          guardStep_of_acquire
        have hgraph := mem_canonicalKeys.mp hid
        simp at hgraph
  | extend i graphHex derived =>
      obtain ⟨base, hbase, rfl⟩ := Option.map_eq_some_iff.mp hperform
      refine h.guardStep hkept (h.published i base hbase) (fun id hid => ?_) guardStep_of_extend
      rcases List.mem_append.mp hid with hold | hnew
      · exact List.mem_append_left _ (h.images i base hbase id hold)
      · exact absurd (List.mem_filter.mp hnew).1 image_graphKeys
  | drop i =>
      obtain ⟨base, _, rfl⟩ := Option.map_eq_some_iff.mp hperform
      exact h.of_quiet hkept (fun j guard hguard => sessions_ended hguard) (hframe.files rfl)
        (hframe.collectors rfl) (hframe.clock rfl)
  | crash i =>
      obtain ⟨base, _, rfl⟩ := Option.map_eq_some_iff.mp hperform
      exact h.of_quiet hkept (fun j guard hguard => sessions_ended hguard) (hframe.files rfl)
        (hframe.collectors rfl) (hframe.clock rfl)
  | renew i =>
      obtain ⟨base, _, rfl⟩ := Option.map_eq_some_iff.mp hperform
      exact h.of_quiet hkept (fun _ _ hguard => hguard) (hframe.files rfl)
        (hframe.collectors rfl) (hframe.clock rfl)
  | scan c =>
      simp only [Action.perform] at hperform
      split at hperform
      · cases hperform
        exact h.setCollector hkept (fun _ _ heq => by cases heq) (fun _ _ heq => by cases heq)
      · cases hperform
  | queryStale c =>
      simp only [Action.perform] at hperform
      split at hperform
      · cases hperform
        refine h.setCollector hkept (fun observed stale heq key hkey => ?_) (fun _ _ heq => by cases heq)
        cases heq
        exact (mem_staleRows.mp hkey).2
      · cases hperform
  | repair c =>
      simp only [Action.perform] at hperform
      split at hperform
      · rename_i observed stale _
        obtain ⟨collector, hrun, hnext⟩ := runCollector_eq (w := w) (c := c) (transaction
          (repairTransaction observed stale w.repository.store.registrations)) .repaired
        cases hperform
        rw [hrun] at hkept ⊢
        have hbefore : Undisturbed (w.run (transaction
            (repairTransaction observed stale w.repository.store.registrations))) :=
          h.of_quiet ⟨hkept.rows, hkept.distinct⟩ (fun _ _ hguard => hguard)
            (congrArg Store.entries (store_transaction _ w.repository)) rfl rfl
        refine hbefore.setCollector hkept (fun _ _ heq => ?_) (fun _ _ heq => ?_)
        · rcases hnext with rfl | rfl <;> cases heq
        · rcases hnext with rfl | rfl <;> cases heq
      · cases hperform
  | queryCandidates c policy =>
      simp only [Action.perform] at hperform
      split at hperform
      · split at hperform
        · cases hperform
          refine h.setCollector hkept (fun _ _ heq => by cases heq) (fun now selected heq => ?_)
          cases heq
          exact Nat.le_refl _
        · cases hperform
          exact h.setCollector hkept (fun _ _ heq => by cases heq) (fun _ _ heq => by cases heq)
      · cases hperform
  | collectNext c =>
      simp only [Action.perform] at hperform
      split at hperform
      · rename_i now key rest hcollector
        cases hperform
        exact h.collectNext hcollector hkept
      · cases hperform
  | quit c =>
      cases hperform
      exact h.setCollector hkept (fun _ _ heq => by cases heq) (fun _ _ heq => by cases heq)
  | recordObjects =>
      exact h.of_quiet hkept (fun j guard hguard => (hframe.leases rfl).1 ▸ hguard)
        (hframe.files rfl) (hframe.collectors rfl) (hframe.clock rfl)
  | recordAccess =>
      exact h.of_quiet hkept (fun j guard hguard => (hframe.leases rfl).1 ▸ hguard)
        (hframe.files rfl) (hframe.collectors rfl) (hframe.clock rfl)
  | recordGraph =>
      exact h.of_quiet hkept (fun j guard hguard => (hframe.leases rfl).1 ▸ hguard)
        (hframe.files rfl) (hframe.collectors rfl) (hframe.clock rfl)
  | writeRegistration =>
      exact h.of_quiet hkept (fun j guard hguard => (hframe.leases rfl).1 ▸ hguard)
        (hframe.files rfl) (hframe.collectors rfl) (hframe.clock rfl)
  | replaceRef =>
      exact h.of_quiet hkept (fun j guard hguard => (hframe.leases rfl).1 ▸ hguard)
        (hframe.files rfl) (hframe.collectors rfl) (hframe.clock rfl)

end Undisturbed

/-! ## What collectors may not do -/

/-- A step takes nothing that a session or an attached graph needs, and a repair leaves
the leases and references of published objects. -/
structure Harmless (w : World) (action : Action) (w' : World) : Prop where
  held : ∀ c, action = .collectNext c → ∀ key, w.repository.store.has key = true →
    w'.repository.store.has key = false → ∀ i guard, w.sessions i = some guard → key ∉ guard.keys
  attached : ∀ c, action = .collectNext c → ∀ key, w.repository.store.has key = true →
    w'.repository.store.has key = false →
      (key.kind = .graph → w.repository.index.referenced key.id = false) ∧
        w.repository.index.inAttachedGraph key = false
  leases : ∀ c, action = .repair c → ∀ row ∈ w.repository.index.leases,
    row ∉ w'.repository.index.leases → w.repository.store.isPublished row.key = false
  refs : ∀ c, action = .repair c → ∀ root ref, w.repository.index.projectRef root = some ref →
    w.repository.store.isPublished ⟨.graph, ref.graphId⟩ = true →
      ∃ ref', w'.repository.index.projectRef root = some ref' ∧
        (ref'.graphId = ref.graphId ∨ ref.observedAt < ref'.observedAt)

section Collectors

variable {w w' : World}

/-- What is removed was not protected. -/
theorem free_of_removed {now : Nat} {key k : ObjectKey}
    (hhas : w.repository.store.has k = true)
    (hgone : (collectObject now key w.repository).2.store.has k = false) :
    k = key ∧ w.repository.index.protectionActive key now = false := by
  rcases collectObject_cases now key w.repository with hsame | ⟨hfree, hstore, _⟩
  · rw [hsame, hhas] at hgone
    cases hgone
  · rw [hstore, has_unlink, hhas, Bool.and_true] at hgone
    exact ⟨not_not.mp (of_decide_eq_false hgone), hfree⟩

theorem unattached_of_free {index : Index} {key : ObjectKey} {now : Nat}
    (h : index.protectionActive key now = false) :
    (key.kind = .graph → index.referenced key.id = false) ∧ index.inAttachedGraph key = false := by
  unfold Index.protectionActive at h
  have hgraphs := (Bool.or_eq_false_iff.mp h).2
  unfold Index.protectedByGraphs at hgraphs
  have hnone (hkind : key.kind = .graph ∨ key.kind = .plan) : index.inAttachedGraph key = false := by
    unfold Index.inAttachedGraph
    rw [← Bool.not_eq_true, List.any_eq_true]
    rintro ⟨entry, _, hentry⟩
    unfold GraphInventory.requires at hentry
    rcases hkind with hkind | hkind <;> simp [hkind] at hentry
  cases hkind : key.kind with
  | graph =>
      rw [hkind] at hgraphs
      exact ⟨fun _ => (Bool.or_eq_false_iff.mp hgraphs).1, hnone (Or.inl hkind)⟩
  | plan => exact ⟨nofun, hnone (Or.inr hkind)⟩
  | artifact =>
      rw [hkind] at hgraphs
      exact ⟨nofun, (Bool.or_eq_false_iff.mp hgraphs).1⟩
  | image =>
      rw [hkind] at hgraphs
      exact ⟨nofun, (Bool.or_eq_false_iff.mp hgraphs).1⟩
  | derived =>
      rw [hkind] at hgraphs
      exact ⟨nofun, (Bool.or_eq_false_iff.mp hgraphs).1⟩

/-- A repair that found a graph to be there keeps the references to it, or replaces them
by later ones. -/
theorem ref_of_repaired {observed : List ScannedObject} {stale : List ObjectKey}
    {registrations : Map Registration} {index index' : Index} {root : Str} {ref : ProjectRef}
    (hok : repairTransaction observed stale registrations index = .ok index')
    (href : index.projectRef root = some ref) (hgraph : ⟨.graph, ref.graphId⟩ ∉ stale) :
    ∃ ref', index'.projectRef root = some ref' ∧
      (ref'.graphId = ref.graphId ∨ ref.observedAt < ref'.observedAt) := by
  obtain ⟨index₁, index₂, h₁, h₂, h₃⟩ := repairTransaction_eq_ok.mp hok
  have hfirst : index₁.projects = index.projects := by
    refine Folds.invariant (I := fun _ index' => index'.projects = index.projects) h₁ rfl ?_
    intro _ object _ first second _ hpre hstep
    exact (repairObject_sets hstep).projects.trans hpre
  have hsecond : index₂.projectRef root = some ref := by
    have hrefs := (removeStale_spec h₂).1.refs root
    unfold Index.projectRef at hrefs href ⊢
    rw [hrefs, hfirst, href, Option.filter_some, if_pos (decide_eq_true hgraph)]
  have hrestored := restoreAll_spec h₃
  by_cases hseen : ∃ entry ∈ registrations.toList, entry.1 = root ∧
    observes observed ⟨.graph, entry.2.graphId⟩ = true
  · obtain ⟨entry, hentry, rfl, hobserved⟩ := hseen
    have hproject := hrestored.seen entry hentry hobserved
    have hafter : index'.projectRef entry.1 =
        some (Index.newerRef (some ref) entry.2.graphId entry.2.updatedAt) := by
      unfold Index.projectRef at hsecond ⊢
      rw [hproject]
      unfold Index.upsertedProject
      rw [hsecond]
      rfl
    refine ⟨_, hafter, ?_⟩
    unfold Index.newerRef
    dsimp only
    by_cases hlater : entry.2.updatedAt > ref.observedAt
    · right
      omega
    · left
      rw [if_neg hlater]
  · have hproject := hrestored.others root fun entry hentry hroot => by
      rw [← Bool.not_eq_true]
      exact fun hobserved => hseen ⟨entry, hentry, hroot, hobserved⟩
    refine ⟨ref, ?_, Or.inl rfl⟩
    unfold Index.projectRef at hsecond ⊢
    rw [hproject, hsecond]

theorem Undisturbed.harmless (h : Undisturbed w) {action : Action}
    (hstep : sessions.step w action w') : Harmless w action w' := by
  obtain ⟨_, hperform⟩ := hstep
  refine ⟨?_, ?_, ?_, ?_⟩
  · rintro c rfl key hhas hgone i guard hguard hkey
    simp only [Action.perform] at hperform
    split at hperform
    · rename_i now next rest hcollector
      obtain ⟨collector, hrun, _⟩ := runCollector_eq (w := w) (c := c) (collectObject now next)
        (.collecting now rest)
      rw [hrun] at hperform
      cases hperform
      obtain ⟨rfl, hfree⟩ := free_of_removed hhas hgone
      rw [h.protected_of_held hguard hkey (h.readings c now (key :: rest) hcollector)] at hfree
      cases hfree
    · cases hperform
  · rintro c rfl key hhas hgone
    simp only [Action.perform] at hperform
    split at hperform
    · rename_i now next rest _
      obtain ⟨collector, hrun, _⟩ := runCollector_eq (w := w) (c := c) (collectObject now next)
        (.collecting now rest)
      rw [hrun] at hperform
      cases hperform
      obtain ⟨rfl, hfree⟩ := free_of_removed hhas hgone
      exact unattached_of_free hfree
    · cases hperform
  · rintro c rfl row hrow hgone
    simp only [Action.perform] at hperform
    split at hperform
    · rename_i observed stale hcollector
      obtain ⟨collector, hrun, _⟩ := runCollector_eq (w := w) (c := c) (transaction
        (repairTransaction observed stale w.repository.store.registrations)) .repaired
      rw [hrun] at hperform
      cases hperform
      change row ∉ (transaction (repairTransaction observed stale
        w.repository.store.registrations) w.repository).2.index.leases at hgone
      rcases transaction_cases (f := repairTransaction observed stale
        w.repository.store.registrations) w.repository with ⟨index, hok, hrun⟩ | ⟨e, _, hrun⟩
      · rw [hrun] at hgone
        dsimp only at hgone
        rw [leases_repairTransaction hok, List.mem_filter] at hgone
        refine h.stale c observed stale hcollector row.key ?_
        by_contra hspared
        exact hgone ⟨hrow, decide_eq_true hspared⟩
      · rw [hrun] at hgone
        exact absurd hrow hgone
    · cases hperform
  · rintro c rfl root ref href hpublished
    simp only [Action.perform] at hperform
    split at hperform
    · rename_i observed stale hcollector
      obtain ⟨collector, hrun, _⟩ := runCollector_eq (w := w) (c := c) (transaction
        (repairTransaction observed stale w.repository.store.registrations)) .repaired
      rw [hrun] at hperform
      cases hperform
      change ∃ ref', (transaction (repairTransaction observed stale
        w.repository.store.registrations) w.repository).2.index.projectRef root = some ref' ∧ _
      have hspared : ⟨.graph, ref.graphId⟩ ∉ stale := by
        intro hstale
        rw [h.stale c observed stale hcollector _ hstale] at hpublished
        cases hpublished
      rcases transaction_cases (f := repairTransaction observed stale
        w.repository.store.registrations) w.repository with ⟨index, hok, hrun⟩ | ⟨e, _, hrun⟩
      · rw [hrun]
        exact ref_of_repaired hok href hspared
      · rw [hrun]
        exact ⟨ref, href, Or.inl rfl⟩
    · cases hperform

theorem undisturbed_of_reaches (h : sessions.Reaches Orderly w) : Undisturbed w := by
  refine Protocol.Reaches.invariant (I := Undisturbed) ?_ ?_ h
  · rintro w rfl
    exact ⟨⟨nofun, nofun⟩, nofun, nofun, nofun, nofun⟩
  · intro w action w' hw horderly hstep
    exact hw.step horderly hstep

end Collectors

/-- In every orderly run no step of a collector does any harm. -/
theorem collectors_harmless {w w' : World} {action : Action}
    (h : sessions.Reaches Orderly w) (hstep : sessions.step w action w') :
    Harmless w action w' :=
  (undisturbed_of_reaches h).harmless hstep

theorem orderly_quiet {w : World} {action : Action} (hclock : action.keepsClock = true)
    (hfiles : action.keepsFiles = true) : Orderly w action := by
  refine ⟨?_, ?_, ?_⟩
  · rintro time rfl
    cases hclock
  · rintro key entry rfl
    cases hfiles
  · rintro time rfl
    cases hclock

theorem leasedWorld_orderly : sessions.Reaches Orderly leasedWorld := by
  refine leasedWorld_reached ⟨?_, nofun, ?_⟩ (fun w hidle key entry => ⟨nofun, ?_, nofun⟩)
    fun _ _ _ _ _ _ _ => orderly_quiet rfl rfl
  · intro time _ i guard hguard
    cases hguard
  · intro time _ c now selected hcollector
    cases hcollector
  · intro key entry _ c observed stale hcollector
    rw [hidle] at hcollector
    cases hcollector

theorem leased_repair_harmless :
    ∃ w w', runAll leasedWorld [.scan 0, .queryStale 0] = some w ∧
      Action.perform w (.repair 0) = some w' ∧ Harmless w (.repair 0) w' := by
  have hboth : ((runAll leasedWorld [.scan 0, .queryStale 0]).bind fun w =>
      Action.perform w (.repair 0)).isSome = true := by decide
  obtain ⟨w', hw'⟩ := Option.isSome_iff_exists.mp hboth
  obtain ⟨w, hrun, hrepair⟩ := Option.bind_eq_some_iff.mp hw'
  have hreached : sessions.Reaches Orderly w := by
    refine reaches_runAll leasedWorld_orderly (fun _ action haction => ?_) (by decide) hrun
    rcases List.mem_cons.mp haction with rfl | haction
    · exact orderly_quiet rfl rfl
    · obtain rfl := List.mem_singleton.mp haction
      exact orderly_quiet rfl rfl
  have hstep : sessions.step w (.repair 0) w' := by
    refine ⟨fun leaseId hlease => ?_, hrepair⟩
    cases hlease
  exact ⟨w, w', hrun, hrepair, collectors_harmless hreached hstep⟩

theorem revived_lease_lost :
    ¬∀ w w' action, sessions.Reaches Punctual w → sessions.step w action w' →
      Harmless w action w' := by
  intro hall
  have hsome : (runAll leasedWorld reviving).isSome = true := by decide +kernel
  obtain ⟨w, hw⟩ := Option.isSome_iff_exists.mp hsome
  have hreached : sessions.Reaches Punctual w := by
    have hquiet : ∀ action ∈ reviving, action.keepsClock = true := by decide
    refine reaches_runAll (leasedWorld_reached ?_ (fun _ _ _ _ => nofun)
      fun _ _ _ _ _ _ _ => nofun) (fun w action haction => ?_) (by decide) hw
    · intro time _ i guard hguard
      cases hguard
    · rintro time rfl
      cases hquiet _ haction
  have hrepair : (runAll leasedWorld reviving).bind (fun w => (Action.perform w (.repair 0)).map
      (·.repository.index.leases.any (·.key = derivedKey '2'))) = some false := by decide +kernel
  have hrow : (runAll leasedWorld reviving).map (fun w => decide
      (⟨lit "lease", lit "owner", derivedKey '2', 10, 10, 130⟩ ∈ w.repository.index.leases)) =
        some true := by decide +kernel
  have hpublished : (runAll leasedWorld reviving).map
      (·.repository.store.isPublished (derivedKey '2')) = some true := by decide +kernel
  rw [hw] at hrepair hrow hpublished
  have hrow := of_decide_eq_true (Option.some.inj hrow)
  have hpublished := Option.some.inj hpublished
  obtain ⟨w', hstep, hgone⟩ := Option.map_eq_some_iff.mp hrepair
  have hnew : ∀ leaseId, (Action.repair 0).newLease = some leaseId → w.Fresh leaseId := by
    intro leaseId hlease
    cases hlease
  have hharmless := hall w w' (.repair 0) hreached ⟨hnew, hstep⟩
  have hunpublished := hharmless.leases 0 rfl _ hrow (by
    intro hrow'
    rw [← Bool.not_eq_true, List.any_eq_true] at hgone
    exact hgone ⟨_, hrow', decide_eq_true rfl⟩)
  dsimp only at hpublished hunpublished
  rw [hpublished] at hunpublished
  cases hunpublished

end Bpm
