import Bpm.Metadata.Sessions

/-!
# Leases that keep their rows

A guard has a row for each of its objects from the moment it takes them on.  Renewing
counts the rows that are there, so a guard that has lost one of them to a repair is
still reported as renewed.
-/

namespace Bpm

open MetadataRepository Text

/-! ## Guards and their rows -/

/-- Every live guard has a row for each of its objects, under an identity of its own;
where time counts, the row has not expired. -/
structure RowsKept (timed : Bool) (w : World) : Prop where
  rows : ∀ i guard, w.sessions i = some guard → ∀ key ∈ guard.keys,
    ∃ row ∈ w.repository.index.leases, ownedBy guard row = true ∧ row.key = key ∧
      (timed = true → w.clock < row.expiresAt)
  distinct : ∀ i j guard guard', w.sessions i = some guard → w.sessions j = some guard' →
    i ≠ j → guard.leaseId ≠ guard'.leaseId

/-- No repair has found an object stale that a live guard holds by now. -/
def RepairsSpare (w : World) (action : Action) : Prop :=
  ∀ c observed stale, action = .repair c → w.collectors c = .queried observed stale →
    ∀ i guard, w.sessions i = some guard → ∀ key ∈ guard.keys, key ∉ stale

/-- Leases are renewed before time passes their end. -/
def Punctual (w : World) (action : Action) : Prop :=
  ∀ time, action = .tick time → ∀ i guard, w.sessions i = some guard →
    ∀ row ∈ w.repository.index.leases, ownedBy guard row = true → time < row.expiresAt

theorem ownedBy_congr {guard guard' : LeaseGuard} (hid : guard.leaseId = guard'.leaseId)
    (htoken : guard.ownerToken = guard'.ownerToken) (row : LeaseRow) :
    ownedBy guard row = ownedBy guard' row := by
  unfold ownedBy
  rw [hid, htoken]

namespace RowsKept

variable {timed : Bool} {w w' : World} {i : Nat}

/-- As long as no session changes, the rows of its objects are what counts. -/
theorem of_rows (h : RowsKept timed w) (hsessions : w'.sessions = w.sessions)
    (hrows : ∀ i guard, w.sessions i = some guard → ∀ row ∈ w.repository.index.leases,
      ownedBy guard row = true → row.key ∈ guard.keys → (timed = true → w.clock < row.expiresAt) →
        ∃ row' ∈ w'.repository.index.leases, ownedBy guard row' = true ∧ row'.key = row.key ∧
          (timed = true → w'.clock < row'.expiresAt)) :
    RowsKept timed w' where
  rows i guard hguard key hkey := by
    rw [hsessions] at hguard
    obtain ⟨row, hrow, howned, rfl, hlast⟩ := h.rows i guard hguard key hkey
    exact hrows i guard hguard row hrow howned hkey hlast
  distinct i j guard guard' hguard hguard' := by
    rw [hsessions] at hguard hguard'
    exact h.distinct i j guard guard' hguard hguard'

/-- A guard that grows has rows for what it takes on. -/
theorem guardStep {base : LeaseGuard} {more : List ObjectKey} (h : RowsKept timed w)
    (hbase : ∀ key ∈ base.keys, ∃ row ∈ w.repository.index.leases,
      ownedBy base row = true ∧ row.key = key ∧ (timed = true → w.clock < row.expiresAt))
    (hfresh : ∀ j guard', w.sessions j = some guard' → j ≠ i → guard'.leaseId ≠ base.leaseId)
    (hstep : GuardStep w i base more w') : RowsKept timed w' := by
  cases hstep with
  | failed hw =>
      rw [hw]
      exact h
  | grown guard s' htakes hw =>
      subst hw
      have hguard := htakes.guard_eq
      have hmore {row : LeaseRow} (hrow : row ∈ w.repository.index.leases) :
          row ∈ s'.index.leases := by
        rw [htakes.leases]
        exact List.mem_append_left _ hrow
      have hid : guard.leaseId = base.leaseId := by rw [hguard]
      refine ⟨?_, ?_⟩
      · intro j guard' hguard' key hkey
        unfold World.setSession at hguard'
        dsimp only at hguard'
        rw [Function.update_apply] at hguard'
        split at hguard'
        · cases hguard'
          rw [hguard] at hkey
          have hsame : ∀ row, ownedBy guard row = ownedBy base row :=
            ownedBy_congr hid (by rw [hguard])
          rcases List.mem_append.mp hkey with hold | hnew
          · obtain ⟨row, hrow, howned, hkey, hlast⟩ := hbase key hold
            exact ⟨row, hmore hrow, (hsame row).trans howned, hkey, hlast⟩
          · refine ⟨leaseRow base w.clock key, ?_, ?_, rfl, fun _ => ?_⟩
            · change _ ∈ s'.index.leases
              rw [htakes.leases]
              exact List.mem_append_right _ (List.mem_map_of_mem hnew)
            · rw [hsame]
              simp [ownedBy, leaseRow]
            · have hpositive := htakes.lasts (List.ne_nil_of_mem hnew)
              change w.clock < w.clock + base.ttl
              omega
        · obtain ⟨row, hrow, howned, hkey, hlast⟩ := h.rows j guard' hguard' key hkey
          exact ⟨row, hmore hrow, howned, hkey, hlast⟩
      · intro j k guard₁ guard₂ h₁ h₂ hne
        unfold World.setSession at h₁ h₂
        dsimp only at h₁ h₂
        rw [Function.update_apply] at h₁ h₂
        split at h₁
        · rename_i hj
          cases h₁
          rw [if_neg fun hk => hne (hj.trans hk.symm)] at h₂
          rw [hid]
          exact (hfresh k guard₂ h₂ fun hk => hne (hj.trans hk.symm)).symm
        · rename_i hj
          split at h₂
          · rename_i hk
            cases h₂
            rw [hid]
            exact hfresh j guard₁ h₁ hj
          · exact h.distinct j k guard₁ guard₂ h₁ h₂ hne

/-- Without one of the sessions. -/
theorem ended (h : RowsKept timed w) {s' : MetadataRepository}
    (hrows : ∀ j guard, w.sessions j = some guard → j ≠ i → ∀ row ∈ w.repository.index.leases,
      ownedBy guard row = true → row ∈ s'.index.leases) :
    RowsKept timed ({ w with repository := s' }.setSession i none) where
  rows j guard hguard key hkey := by
    unfold World.setSession at hguard
    dsimp only at hguard
    rw [Function.update_apply] at hguard
    split at hguard
    · cases hguard
    · rename_i hj
      obtain ⟨row, hrow, howned, hkey, hlast⟩ := h.rows j guard hguard key hkey
      exact ⟨row, hrows j guard hguard hj row hrow howned, howned, hkey, hlast⟩
  distinct j k guard₁ guard₂ h₁ h₂ := by
    unfold World.setSession at h₁ h₂
    dsimp only at h₁ h₂
    rw [Function.update_apply] at h₁ h₂
    split at h₁
    · cases h₁
    · split at h₂
      · cases h₂
      · exact h.distinct j k guard₁ guard₂ h₁ h₂

/-- Renewing moves the end of some rows, and only to later than now. -/
theorem renew (h : RowsKept timed w) (base : LeaseGuard) :
    RowsKept timed (w.run (renewLease base w.clock (w.clock + base.ttl))) := by
  refine h.of_rows rfl fun j guard hguard row hrow howned _ hlast => ?_
  change ∃ row' ∈ (renewLease base w.clock (w.clock + base.ttl) w.repository).2.index.leases,
    ownedBy guard row' = true ∧ row'.key = row.key ∧ (timed = true → w.clock < row'.expiresAt)
  rcases renewLease_cases base w.clock (w.clock + base.ttl) w.repository with
    hsame | ⟨_, hleases, hlater⟩
  · rw [hsame]
    exact ⟨row, hrow, howned, rfl, hlast⟩
  · rw [hleases]
    refine ⟨_, List.mem_map_of_mem hrow, ownedBy_renewedRow.trans howned, key_renewedRow,
      fun htimed => ?_⟩
    unfold renewedRow
    split
    · rename_i hrenewable
      exact hlater row hrow hrenewable
    · exact hlast htimed

theorem repair {c : Nat} {observed : List ScannedObject} {stale : List ObjectKey}
    (h : RowsKept timed w) (hspared : ∀ i guard, w.sessions i = some guard →
      ∀ key ∈ guard.keys, key ∉ stale) :
    RowsKept timed (w.runCollector c (transaction (repairTransaction observed stale
      w.repository.store.registrations)) .repaired) := by
  obtain ⟨collector, hrun, _⟩ := runCollector_eq (w := w) (c := c) (transaction
    (repairTransaction observed stale w.repository.store.registrations)) .repaired
  rw [hrun]
  refine h.of_rows rfl fun j guard hguard row hrow howned hkey hlast =>
    ⟨row, ?_, howned, rfl, hlast⟩
  change row ∈ (transaction (repairTransaction observed stale
    w.repository.store.registrations) w.repository).2.index.leases
  rcases transaction_cases (f := repairTransaction observed stale
    w.repository.store.registrations) w.repository with ⟨index, hok, hrun⟩ | ⟨e, _, hrun⟩
  · rw [hrun]
    dsimp only
    rw [leases_repairTransaction hok]
    exact List.mem_filter.mpr ⟨hrow, decide_eq_true (hspared j guard hguard row.key hkey)⟩
  · rw [hrun]
    exact hrow

theorem step {action : Action} (h : RowsKept timed w) (hspare : RepairsSpare w action)
    (hpunctual : timed = true → Punctual w action) (hstep : sessions.step w action w') :
    RowsKept timed w' := by
  obtain ⟨hnew, hperform⟩ := hstep
  have hframe := perform_frame hperform
  -- The steps that move neither leases nor the clock change nothing here.
  by_cases hkeeps : action.keepsLeases = true ∧ action.keepsClock = true
  · obtain ⟨hsessions, hleases⟩ := hframe.leases hkeeps.1
    refine h.of_rows hsessions fun i guard _ row hrow howned _ hlast =>
      ⟨row, ?_, howned, rfl, ?_⟩
    · rw [hleases]
      exact hrow
    · rw [hframe.clock hkeeps.2]
      exact hlast
  · cases action with
    | tick time =>
        cases hperform
        refine h.of_rows rfl fun i guard hguard row hrow howned _ _ =>
          ⟨row, hrow, howned, rfl, fun htimed => ?_⟩
        exact hpunctual htimed time rfl i guard hguard row hrow howned
    | leaseObjects i leaseId ownerToken artifacts derived options =>
        simp only [Action.perform] at hperform
        split at hperform
        · cases hperform
        · cases hperform
          exact h.guardStep (fun key hkey => absurd hkey List.not_mem_nil)
            (fun j guard' hguard' _ => hnew leaseId rfl j guard' hguard') guardStep_of_acquire
    | leaseGraphObject i leaseId ownerToken graphHex options =>
        simp only [Action.perform] at hperform
        split at hperform
        · cases hperform
        · cases hperform
          exact h.guardStep (fun key hkey => absurd hkey List.not_mem_nil)
            (fun j guard' hguard' _ => hnew leaseId rfl j guard' hguard') guardStep_of_acquire
    | extend i graphHex derived =>
        obtain ⟨base, hbase, rfl⟩ := Option.map_eq_some_iff.mp hperform
        exact h.guardStep (fun key hkey => h.rows i base hbase key hkey)
          (fun j guard' hguard' hj => h.distinct j i guard' base hguard' hbase hj)
          guardStep_of_extend
    | renew i =>
        obtain ⟨base, hbase, rfl⟩ := Option.map_eq_some_iff.mp hperform
        exact h.renew base
    | drop i =>
        obtain ⟨base, hbase, rfl⟩ := Option.map_eq_some_iff.mp hperform
        refine h.ended fun j guard hguard hj row hrow howned => ?_
        -- The rows that are released have another lease's identity.
        have hother : ownedBy base row = false := by
          have hne := h.distinct j i guard base hguard hbase hj
          unfold ownedBy at howned ⊢
          rw [decide_eq_true_eq] at howned
          rw [decide_eq_false_iff_not]
          exact fun hboth => hne (howned.1.symm.trans hboth.1)
        exact List.mem_filter.mpr ⟨hrow, by rw [hother]; rfl⟩
    | crash i =>
        obtain ⟨base, hbase, rfl⟩ := Option.map_eq_some_iff.mp hperform
        exact h.ended fun _ _ _ _ _ hrow _ => hrow
    | repair c =>
        simp only [Action.perform] at hperform
        split at hperform
        · rename_i observed stale hcollector
          cases hperform
          exact h.repair fun i guard hguard key hkey =>
            hspare c observed stale rfl hcollector i guard hguard key hkey
        · cases hperform
    | publish => exact absurd ⟨rfl, rfl⟩ hkeeps
    | recordObjects => exact absurd ⟨rfl, rfl⟩ hkeeps
    | recordAccess => exact absurd ⟨rfl, rfl⟩ hkeeps
    | recordGraph => exact absurd ⟨rfl, rfl⟩ hkeeps
    | writeRegistration => exact absurd ⟨rfl, rfl⟩ hkeeps
    | replaceRef => exact absurd ⟨rfl, rfl⟩ hkeeps
    | scan => exact absurd ⟨rfl, rfl⟩ hkeeps
    | queryStale => exact absurd ⟨rfl, rfl⟩ hkeeps
    | queryCandidates => exact absurd ⟨rfl, rfl⟩ hkeeps
    | collectNext => exact absurd ⟨rfl, rfl⟩ hkeeps
    | quit => exact absurd ⟨rfl, rfl⟩ hkeeps

end RowsKept

/-- In every run whose repairs spare what guards hold. -/
theorem rowsKept_of_reaches {w : World} (h : sessions.Reaches RepairsSpare w) :
    RowsKept false w := by
  refine Protocol.Reaches.invariant (I := RowsKept false) ?_ ?_ h
  · rintro w rfl
    exact ⟨nofun, nofun⟩
  · intro w action w' hw hspare hstep
    exact hw.step hspare nofun hstep

/-- A guard that is reported as renewed has a row for every object that it holds, and
all of them last beyond the renewal. -/
theorem renewed_holds_all {w : World} (h : sessions.Reaches RepairsSpare w) {i : Nat}
    {guard : LeaseGuard} (hguard : w.sessions i = some guard) {now expires : Nat}
    {s' : MetadataRepository}
    (hrenewed : renewLease guard now expires w.repository = (.ok true, s')) :
    ∀ key ∈ guard.keys, ∃ row ∈ s'.index.leases, row.leaseId = guard.leaseId ∧
      row.ownerToken = guard.ownerToken ∧ row.key = key ∧ row.expiresAt > now := by
  intro key hkey
  obtain ⟨hleases, hlast⟩ := renewLease_eq_true hrenewed
  obtain ⟨row, hrow, howned, hrowKey, _⟩ := (rowsKept_of_reaches h).rows i guard hguard key hkey
  have hrenewedRow : renewedRow guard now expires row ∈ s'.index.leases := by
    rw [hleases]
    exact List.mem_map_of_mem hrow
  have hstill : ownedBy guard (renewedRow guard now expires row) = true :=
    ownedBy_renewedRow.trans howned
  have hparts := of_decide_eq_true hstill
  exact ⟨_, hrenewedRow, hparts.1, hparts.2, key_renewedRow.trans hrowKey,
    hlast _ hrenewedRow hstill⟩

/-! ## A lost lease -/

def derivedKey (digit : Char) : ObjectKey := ⟨.derived, repeatedId .derived digit⟩

/-- A world with a published derived object. -/
def publishedWorld : World :=
  ({ World.empty with clock := 10 } : World).run (Run.modify fun s => { s with
    store := s.store.put (derivedKey '1') ⟨1, 1, none, []⟩ })

/-- The same world with a session that has a lease on the object. -/
def leasedWorld : World :=
  publishedWorld.runGuard 0 (acquireLease (lit "lease") (lit "owner")
    (sessionKeys [] [repeatedId .derived '1']) ⟨120, 30⟩ 10)

theorem leasedWorld_reached {allowed : World → Action → Prop}
    (htick : allowed .empty (.tick 10)) (hpublish : ∀ w : World, (∀ c, w.collectors c = .idle) →
      ∀ key entry, allowed w (.publish key entry))
    (hlease : ∀ w i leaseId ownerToken artifacts derived options,
      allowed w (.leaseObjects i leaseId ownerToken artifacts derived options)) :
    sessions.Reaches allowed leasedWorld := by
  have hstart : sessions.Reaches allowed { World.empty with clock := 10 } :=
    .next (.start rfl) htick ⟨nofun, rfl⟩
  have hpublished : sessions.Reaches allowed publishedWorld :=
    .next hstart (hpublish _ (fun _ => rfl) (derivedKey '1') ⟨1, 1, none, []⟩) ⟨nofun, rfl⟩
  refine .next hpublished (hlease publishedWorld 0 (lit "lease") (lit "owner") []
    [repeatedId .derived '1'] ⟨120, 30⟩) ⟨?_, rfl⟩
  intro _ _ _ _ h
  cases h

/-- A second derived object is collected, and a slow repair indexes it again; the next
repair finds it stale, and then the session publishes it once more and takes it on. -/
def reviving : List Action := [
  .publish (derivedKey '2') ⟨1, 1, none, []⟩,
  .scan 0,
  .queryStale 0,
  .scan 1,
  .queryStale 1,
  .repair 1,
  .queryCandidates 1 ⟨0, none⟩,
  .collectNext 1,
  .repair 0,
  .quit 0,
  .scan 0,
  .queryStale 0,
  .publish (derivedKey '2') ⟨1, 10, none, []⟩,
  .publish ⟨.graph, repeatedId .graph '3'⟩ ⟨1, 10, none, []⟩,
  .recordObjects [⟨derivedKey '2', 1, 10⟩] 10,
  .extend 0 (repeatedId .graph '3') [repeatedId .derived '2']]

def lostLease : List Action := reviving ++ [.repair 0]

theorem leasedWorld_renewed :
    ∃ row ∈ (renewLease ⟨lit "lease", lit "owner", [derivedKey '1'], 120⟩
        60 180 leasedWorld.repository).2.index.leases,
      row.leaseId = lit "lease" ∧ row.ownerToken = lit "owner" ∧ row.key = derivedKey '1' ∧
        row.expiresAt > 60 := by
  have hguard : leasedWorld.sessions 0 =
      some ⟨lit "lease", lit "owner", [derivedKey '1'], 120⟩ := by decide
  have hrenewed : (renewLease ⟨lit "lease", lit "owner", [derivedKey '1'], 120⟩ 60 180
      leasedWorld.repository).1.toOption = some true := by decide
  rcases hrun : renewLease ⟨lit "lease", lit "owner", [derivedKey '1'], 120⟩ 60 180
    leasedWorld.repository with ⟨_ | renewed, s'⟩
  · rw [hrun] at hrenewed
    cases hrenewed
  · rw [hrun] at hrenewed
    obtain rfl : renewed = true := Option.some.inj hrenewed
    exact renewed_holds_all (leasedWorld_reached nofun (fun _ _ _ _ => nofun)
      fun _ _ _ _ _ _ _ => nofun) hguard hrun _ (List.mem_singleton_self _)

/-- The guard of the session, as it is in the end. -/
def extendedGuard : LeaseGuard where
  leaseId := lit "lease"
  ownerToken := lit "owner"
  keys := [derivedKey '1', derivedKey '2', ⟨.graph, repeatedId .graph '3'⟩]
  ttl := 120

theorem lost_lease_renewed :
    ¬∀ w, sessions.Reachable w → ∀ i guard, w.sessions i = some guard → ∀ now expires s',
      renewLease guard now expires w.repository = (.ok true, s') → ∀ key ∈ guard.keys,
        ∃ row ∈ s'.index.leases, row.leaseId = guard.leaseId ∧
          row.ownerToken = guard.ownerToken ∧ row.key = key ∧ row.expiresAt > now := by
  intro hall
  have hsome : (runAll leasedWorld lostLease).isSome = true := by decide +kernel
  obtain ⟨w, hw⟩ := Option.isSome_iff_exists.mp hsome
  have hreached : sessions.Reachable w :=
    reaches_runAll (leasedWorld_reached trivial (fun _ _ _ _ => trivial)
      fun _ _ _ _ _ _ _ => trivial) (fun _ _ _ => trivial) (by decide) hw
  have hguard : (runAll leasedWorld lostLease).bind (·.sessions 0) = some extendedGuard := by
    decide +kernel
  have hrenewed : (runAll leasedWorld lostLease).map (fun w =>
      (renewLease extendedGuard 20 140 w.repository).1.toOption) = some (some true) := by
    decide +kernel
  have hlost : (runAll leasedWorld lostLease).map (fun w =>
      (renewLease extendedGuard 20 140 w.repository).2.index.leases.any
        (·.key = derivedKey '2')) = some false := by
    decide +kernel
  rw [hw] at hguard hrenewed hlost
  have hrenewed := Option.some.inj hrenewed
  have hlost := Option.some.inj hlost
  dsimp only at hrenewed hlost
  rcases hrun : renewLease extendedGuard 20 140 w.repository with ⟨_ | renewed, s'⟩
  · rw [hrun] at hrenewed
    cases hrenewed
  · rw [hrun] at hrenewed hlost
    obtain rfl : renewed = true := Option.some.inj hrenewed
    obtain ⟨row, hrow, _, _, hkey, _⟩ := hall w hreached 0 extendedGuard hguard 20 140 s' hrun
      (derivedKey '2') (by simp [extendedGuard])
    rw [← Bool.not_eq_true, List.any_eq_true] at hlost
    exact hlost ⟨row, hrow, decide_eq_true hkey⟩

end Bpm
