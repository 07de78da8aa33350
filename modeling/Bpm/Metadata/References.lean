import Bpm.Metadata.Operations

/-!
# The graph that a project refers to

A project's reference is a register that the latest clock reading wins.  An install
overwrites the registration file whatever it says, but its reference is dropped when
the clock has not moved past the one that is there.
-/

namespace Bpm

open MetadataRepository Text

/-- The project's sole reference is to the graph. -/
def RefersTo (s : MetadataRepository) (root graphHex : Str) : Prop :=
  ∃ canonical ref, absoluteLexical root = some canonical ∧
    s.index.projectRef canonical = some ref ∧ ref.graphId = graphHex

/-- A reference to another graph was observed before the time. -/
def ObservedBefore (s : MetadataRepository) (root graphHex : Str) (time : Nat) : Prop :=
  ∀ canonical ref, absoluteLexical root = some canonical →
    s.index.projectRef canonical = some ref → ref.graphId = graphHex ∨ ref.observedAt < time

/-- A change of one project's reference: by a call, or by a repair that finds the
registration file along with its graph in the store. -/
structure RefUpdate where
  store : Store
  restored : Bool
  graphId : Str
  time : Nat

def RefUpdate.apply (root canonical : Str) (index : Index) (update : RefUpdate) :
    Except MetadataError Index :=
  if update.restored then
    restoreRef (scanNamespaces update.store) index (canonical, ⟨update.graphId, update.time⟩)
  else
    let outcome := replaceProjectGraphRef root update.graphId update.time ⟨update.store, index⟩
    outcome.1.map fun _ => outcome.2.index

/-! ## One update -/

section Update

variable {s : MetadataRepository} {root graphId canonical : Str} {time : Nat}

/-- A call that succeeds has upserted the reference, and nothing else. -/
theorem replaceProjectGraphRef_eq_ok {s' : MetadataRepository}
    (hroot : absoluteLexical root = some canonical)
    (h : replaceProjectGraphRef root graphId time s = (.ok (), s')) :
    s.index.upsertProjectRef canonical graphId time = .ok s'.index := by
  unfold replaceProjectGraphRef at h
  rw [hroot] at h
  obtain ⟨_, s₁, hvalid, hrest⟩ := Run.bind_eq_ok.mp h
  obtain ⟨_, s₂, hpublished, hupsert⟩ := Run.bind_eq_ok.mp hrest
  obtain rfl := validateId_eq_ok hvalid
  obtain rfl := ensurePublished_eq_ok hpublished
  exact (transaction_eq_ok hupsert).1

theorem projectRef_upserted {index index' : Index}
    (h : index.upsertProjectRef canonical graphId time = .ok index') :
    index'.projectRef canonical =
      some (Index.newerRef (index.projectRef canonical) graphId time) := by
  obtain ⟨_, rfl⟩ := Index.upsertProjectRef_eq_ok.mp h
  rw [Index.projectRef_insert, if_pos rfl]
  rfl

/-- Writing the registration file does not touch the index. -/
theorem writeDurableRegistration_eq_ok {now : Nat} {s' : MetadataRepository}
    (h : writeDurableRegistration root graphId now s = (.ok (), s')) :
    (∃ canonical, absoluteLexical root = some canonical) ∧ s'.index = s.index := by
  unfold writeDurableRegistration at h
  cases hroot : absoluteLexical root with
  | none =>
      rw [hroot] at h
      cases h
  | some canonical =>
      rw [hroot] at h
      obtain ⟨_, s₁, hvalid, hwrite⟩ := Run.bind_eq_ok.mp h
      obtain rfl := validateId_eq_ok hvalid
      cases hwrite
      exact ⟨⟨canonical, rfl⟩, rfl⟩

/-- A call that succeeds found everything in place, or has upserted the reference. -/
theorem finalizeProject_eq_ok {heldBefore heldAfter : Bool} {fileTime refTime : Nat}
    {s' : MetadataRepository}
    (h : finalizeProject root graphId heldBefore heldAfter fileTime refTime s = (.ok (), s')) :
    (s.cachedGraphProtectionCurrent root graphId = true ∧ s' = s) ∨
      ∃ canonical, absoluteLexical root = some canonical ∧
        s.index.upsertProjectRef canonical graphId refTime = .ok s'.index := by
  obtain ⟨_, _, hget, hrest⟩ := Run.bind_eq_ok.mp h
  cases hget
  cases hcached : s.cachedGraphProtectionCurrent root graphId with
  | true =>
      rw [hcached] at hrest
      cases hrest
      exact Or.inl ⟨rfl, rfl⟩
  | false =>
      rw [hcached] at hrest
      obtain ⟨_, s₁, hbefore, hrest⟩ := Run.bind_eq_ok.mp hrest
      obtain ⟨_, s₂, hwrite, hrest⟩ := Run.bind_eq_ok.mp hrest
      obtain ⟨_, s₃, hreplace, hafter⟩ := Run.bind_eq_ok.mp hrest
      obtain rfl := check_eq_ok hbefore
      obtain rfl := check_eq_ok hafter
      obtain ⟨⟨canonical, hroot⟩, hindex⟩ := writeDurableRegistration_eq_ok hwrite
      have hupsert := replaceProjectGraphRef_eq_ok hroot hreplace
      rw [hindex] at hupsert
      exact Or.inr ⟨canonical, hroot, hupsert⟩

end Update

/-- After a successful install the project refers to its graph exactly where no
reference to another graph is as recent as the clock reading. -/
theorem refersTo_iff {s s' : MetadataRepository} {root graphId : Str}
    {heldBefore heldAfter : Bool} {fileTime refTime : Nat}
    (h : finalizeProject root graphId heldBefore heldAfter fileTime refTime s = (.ok (), s')) :
    RefersTo s' root graphId ↔ ObservedBefore s root graphId refTime := by
  rcases finalizeProject_eq_ok h with ⟨hcached, rfl⟩ | ⟨canonical, hroot, hupsert⟩
  · obtain ⟨canonical, hroot, hcurrent⟩ := (Option.any_eq_true ..).mp hcached
    rw [Bool.and_eq_true, Bool.and_eq_true] at hcurrent
    obtain ⟨ref, href, hgraph⟩ := (Option.any_eq_true ..).mp hcurrent.1.2
    have hgraph : ref.graphId = graphId := by simpa using hgraph
    constructor
    · intro _ other otherRef hother hotherRef
      rw [hroot] at hother
      cases hother
      rw [href] at hotherRef
      cases hotherRef
      exact Or.inl hgraph
    · intro _
      exact ⟨canonical, ref, hroot, href, hgraph⟩
  · have hafter := projectRef_upserted hupsert
    constructor
    · rintro ⟨other, ref, hother, href, hgraph⟩ other' old hother' hold
      rw [hroot] at hother hother'
      cases hother
      cases hother'
      rw [hafter, hold] at href
      by_contra hnot
      rw [not_or, Nat.not_lt] at hnot
      have hkeeps : ref.graphId = old.graphId := by
        rw [← Option.some.inj href]
        unfold Index.newerRef
        dsimp only
        rw [if_neg (by omega)]
      exact hnot.1 (hkeeps.symm.trans hgraph)
    · intro hbefore
      refine ⟨canonical, _, hroot, hafter, ?_⟩
      cases hold : s.index.projectRef canonical with
      | none => rfl
      | some old =>
          unfold Index.newerRef
          dsimp only
          rcases hbefore canonical old hroot hold with hsame | hlater
          · split
            · rfl
            · exact hsame
          · rw [if_pos hlater]

/-! ## Many updates -/

section Updates

variable {root canonical : Str} {updates : List RefUpdate}

/-- The updates so far have left the most recent of them. -/
def LeavesLatest (canonical : Str) (done : List RefUpdate) (index : Index) : Prop :=
  (done = [] ∧ index.projectRef canonical = none) ∨
    ∃ latest ∈ done, (∀ other ∈ done, other.time ≤ latest.time) ∧
      index.projectRef canonical = some ⟨latest.graphId, latest.time⟩

theorem apply_eq_ok {update : RefUpdate} {index index' : Index}
    (hroot : absoluteLexical root = some canonical)
    (hserved : update.store.has ⟨.graph, update.graphId⟩ = true)
    (h : update.apply root canonical index = .ok index') :
    index.upsertProjectRef canonical update.graphId update.time = .ok index' := by
  unfold RefUpdate.apply at h
  split at h
  · unfold restoreRef at h
    rw [observes_graph, if_pos hserved] at h
    exact h
  · dsimp only at h
    rcases hreplace : replaceProjectGraphRef root update.graphId update.time
      ⟨update.store, index⟩ with ⟨_ | _, s⟩
    · rw [hreplace] at h
      cases h
    · rw [hreplace] at h
      cases h
      exact replaceProjectGraphRef_eq_ok hroot hreplace

theorem LeavesLatest.concat {done : List RefUpdate} {update : RefUpdate} {index index' : Index}
    (h : LeavesLatest canonical done index) (hnew : ∀ other ∈ done, other.time ≠ update.time)
    (hok : index.upsertProjectRef canonical update.graphId update.time = .ok index') :
    LeavesLatest canonical (done ++ [update]) index' := by
  have hafter := projectRef_upserted hok
  rcases h with ⟨rfl, hnone⟩ | ⟨latest, hmem, hmax, hlatest⟩
  · rw [hnone] at hafter
    exact Or.inr ⟨update, by simp, by simp, hafter⟩
  · rw [hlatest] at hafter
    unfold Index.newerRef at hafter
    dsimp only at hafter
    by_cases hlater : update.time > latest.time
    · rw [if_pos hlater, Nat.max_eq_right hlater.le] at hafter
      refine Or.inr ⟨update, by simp, fun other hother => ?_, hafter⟩
      rcases List.mem_append.mp hother with hdone | hlast
      · have := hmax other hdone
        omega
      · rw [List.mem_singleton.mp hlast]
    · have hne := hnew latest hmem
      rw [if_neg hlater, Nat.max_eq_left (by omega)] at hafter
      refine Or.inr ⟨latest, List.mem_append_left _ hmem, fun other hother => ?_, hafter⟩
      rcases List.mem_append.mp hother with hdone | hlast
      · exact hmax other hdone
      · rw [List.mem_singleton.mp hlast]
        omega

/-- Whatever the order of the updates, the most recent one stays. -/
theorem latest_stays {index index' : Index} (hroot : absoluteLexical root = some canonical)
    (hnone : index.projectRef canonical = none) (hdistinct : (updates.map (·.time)).Nodup)
    (hserved : ∀ update ∈ updates, update.store.has ⟨.graph, update.graphId⟩ = true)
    (hok : updates.foldlM (RefUpdate.apply root canonical) index = .ok index')
    {update : RefUpdate} (hupdate : update ∈ updates)
    (hlatest : ∀ other ∈ updates, other.time ≤ update.time) :
    index'.projectRef canonical = some ⟨update.graphId, update.time⟩ := by
  have hall := Folds.invariant (I := LeavesLatest canonical) hok (Or.inl ⟨rfl, hnone⟩) (by
    intro pre next post index₁ index₂ hsplit hpre hstep
    have hnext : next ∈ updates := by rw [hsplit]; simp
    refine hpre.concat (fun other hother => ?_) (apply_eq_ok hroot (hserved next hnext) hstep)
    rw [hsplit, List.map_append, List.map_cons] at hdistinct
    exact (List.nodup_append.mp hdistinct).2.2 _ (List.mem_map_of_mem hother) _ List.mem_cons_self)
  rcases hall with ⟨rfl, _⟩ | ⟨latest, hmem, hmax, href⟩
  · exact absurd hupdate List.not_mem_nil
  · have htime : latest.time = update.time := by
      have h₁ := hmax update hupdate
      have h₂ := hlatest latest hmem
      omega
    rw [href, List.inj_on_of_nodup_map hdistinct hmem hupdate htime]

end Updates

/-- After any calls: what an install that succeeds leaves the project with, and what any
updates of a project without a reference leave it with. -/
theorem finalizeProject_reference (root : Str) :
    (∀ (calls : List Operation) s' graphId heldBefore heldAfter fileTime refTime,
      finalizeProject root graphId heldBefore heldAfter fileTime refTime (performAll calls) =
        (.ok (), s') →
      (RefersTo s' root graphId ↔ ObservedBefore (performAll calls) root graphId refTime)) ∧
    ∀ canonical (updates : List RefUpdate) (index index' : Index),
      absoluteLexical root = some canonical → index.projectRef canonical = none →
      (updates.map (·.time)).Nodup →
      (∀ update ∈ updates, update.store.has ⟨.graph, update.graphId⟩ = true) →
      updates.foldlM (RefUpdate.apply root canonical) index = .ok index' →
      ∀ update ∈ updates, (∀ other ∈ updates, other.time ≤ update.time) →
        index'.projectRef canonical = some ⟨update.graphId, update.time⟩ := by
  refine ⟨?_, ?_⟩
  · intro calls s' graphId heldBefore heldAfter fileTime refTime hok
    exact refersTo_iff hok
  · intro canonical updates index index' hroot hnone hdistinct hserved hok update hupdate
    exact latest_stays hroot hnone hdistinct hserved hok hupdate

/-- Two indexed graphs, the first of which a project is attached to at time 10. -/
def attachedCalls : List Operation := [
  .publish ⟨.graph, repeatedId .graph '1'⟩ ⟨1, 0, none, []⟩,
  .publish ⟨.graph, repeatedId .graph '2'⟩ ⟨1, 0, none, []⟩,
  .recordObject ⟨.graph, repeatedId .graph '1'⟩ 1,
  .recordObject ⟨.graph, repeatedId .graph '2'⟩ 1,
  .finalizeProject (lit "/p") (repeatedId .graph '1') true true 10 10]

theorem run_eq_ok {α : Type} {m : Metadata α} {s : MetadataRepository} (h : (m s).1.isOk = true) :
    ∃ a, m s = (.ok a, (m s).2) := by
  rcases hm : m s with ⟨_ | a, s'⟩
  · rw [hm] at h
    cases h
  · exact ⟨a, rfl⟩

/-- A later clock reading lets the second graph take over. -/
theorem attached_later : RefersTo (finalizeProject (lit "/p") (repeatedId .graph '2') true true
    11 11 (performAll attachedCalls)).2 (lit "/p") (repeatedId .graph '2') := by
  obtain ⟨_, hok⟩ := run_eq_ok (m := finalizeProject (lit "/p") (repeatedId .graph '2') true true
    11 11) (s := performAll attachedCalls) (by decide)
  refine ((finalizeProject_reference _).1 _ _ _ _ _ _ _ hok).mpr ?_
  intro canonical ref hroot href
  right
  have hcanonical : canonical = lit "/p" := by
    have heval : absoluteLexical (lit "/p") = some (lit "/p") := by decide
    exact Option.some.inj (hroot.symm.trans heval)
  rw [hcanonical] at href
  have hold : (performAll attachedCalls).index.projectRef (lit "/p") =
      some ⟨repeatedId .graph '1', 10⟩ := by decide
  rw [hold] at href
  cases href
  decide

/-- An equal clock reading does not. -/
theorem attached_too_soon :
    ¬∀ (calls : List Operation) s' root graphId heldBefore heldAfter fileTime refTime,
      finalizeProject root graphId heldBefore heldAfter fileTime refTime (performAll calls) =
        (.ok (), s') → RefersTo s' root graphId := by
  intro hall
  obtain ⟨_, hok⟩ := run_eq_ok (m := finalizeProject (lit "/p") (repeatedId .graph '2') true true
    10 10) (s := performAll attachedCalls) (by decide)
  obtain ⟨canonical, ref, hroot, href, hgraph⟩ := hall _ _ _ _ _ _ _ _ hok
  have hcanonical : canonical = lit "/p" := by
    have heval : absoluteLexical (lit "/p") = some (lit "/p") := by decide
    exact Option.some.inj (hroot.symm.trans heval)
  rw [hcanonical] at href
  have hkept : (finalizeProject (lit "/p") (repeatedId .graph '2') true true 10 10
      (performAll attachedCalls)).2.index.projectRef (lit "/p") =
        some ⟨repeatedId .graph '1', 10⟩ := by decide
  rw [hkept] at href
  cases href
  revert hgraph
  decide

end Bpm
