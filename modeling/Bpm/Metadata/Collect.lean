import Bpm.Gc.Policy
import Bpm.Metadata.Repaired
import Bpm.Metadata.Repository

/-!
# Collecting garbage

A collection repairs the index, lets the policy select among the rows that are not
protected, and then takes the selected objects one by one, what refers to others
first: each is checked again, its file is removed, and its row is deleted.  Locks are
taken to be granted and files to be removable.
-/

namespace Bpm

open Text

/-- The objects that an inventory needs; an image only where it says so. -/
def GraphInventory.requires (inventory : GraphInventory) (key : ObjectKey) : Bool :=
  match key.kind with
  | .artifact | .derived => inventory.lists key
  | .image => inventory.artifacts[key.id]?.any id
  | .graph | .plan => false

def ObjectKind.deletionRank : ObjectKind → DeletionRank
  | artifact => .artifact
  | image => .image
  | derived => .derived
  | graph => .graph
  | plan => .plan

namespace Index

/-- A complete graph that a project refers to needs the object. -/
def inAttachedGraph (index : Index) (key : ObjectKey) : Bool :=
  (index.rows .graph).toList.any fun entry =>
    index.referenced entry.1 && entry.2.complete && entry.2.edges.requires key

def anyIncompleteGraph (index : Index) : Bool :=
  (index.rows .graph).toList.any fun entry => !entry.2.complete

/-- Protection by what kind of object it is. -/
def protectedByGraphs (index : Index) (key : ObjectKey) : Bool :=
  match key.kind with
  | .graph => index.referenced key.id || (index.row key).any (!·.complete)
  | .artifact | .image | .derived => index.inAttachedGraph key || index.anyIncompleteGraph
  | .plan => false

/-- The object has a lease that has not expired. -/
def leased (index : Index) (key : ObjectKey) (now : Nat) : Bool :=
  index.leases.any fun row => row.key = key ∧ row.expiresAt > now

def protectionActive (index : Index) (key : ObjectKey) (now : Nat) : Bool :=
  index.leased key now || index.protectedByGraphs key

end Index

namespace MetadataRepository

/-- A row of the candidate query. -/
def candidateRow (index : Index) (now : Nat) (key : ObjectKey) (row : ObjectRow) :
    ObjectKey × PolicyCandidate :=
  (key, {
    effectiveAccessMs := ((index.accessLog key.kind)[key.id]?.getD row.publishedAt : Nat)
    deletionRank := key.kind.deletionRank
    objectId := key.kind.asStr ++ lit ":" ++ key.id
    sizeBytes := row.sizeBytes
    guarded := index.protectionActive key now })

def candidateQuery (index : Index) (now : Nat) : List (ObjectKey × PolicyCandidate) :=
  ObjectKind.all.flatMap fun kind =>
    (index.rows kind).toList.map fun entry => candidateRow index now ⟨kind, entry.1⟩ entry.2

/-- What the policy selects, in the order of deletion. -/
def selectObjects (policy : GcPolicy) (now : Nat) (index : Index) :
    Except MetadataError (List ObjectKey) :=
  let candidates := candidateQuery index now
  let total := (candidates.map (·.2.sizeBytes)).sum
  if total ≥ 2 ^ 64 ∨ now ≥ 2 ^ 63 then .error .timeOverflow
  else
    match policy.evaluate now total (candidates.map (·.2)) with
    | .error _ => .error .timeOverflow
    | .ok evaluation =>
        let selected := evaluation.selected.mergeSort fun left right =>
          left.deletionRank.index ≤ right.deletionRank.index
        .ok (selected.filterMap fun candidate =>
          (candidates.find? (·.2.objectId = candidate.objectId)).map (·.1))

def collectObject (now : Nat) (key : ObjectKey) : Metadata Unit := do
  let s ← Run.get
  if !s.store.isPublished key || s.index.protectionActive key now then pure ()
  else
    Run.modify fun s => { s with store := s.store.unlink key }
    -- The file is gone whether or not the row may be deleted.
    transaction (·.deleteRow key)

def collect (policy : GcPolicy) (now : Nat) : Metadata Unit := do
  repair
  let s ← Run.get
  let selected ← Run.ofExcept id (selectObjects policy now s.index)
  Run.forEach (collectObject now) selected

/-! ## What is selected -/

section Selected

variable {index : Index} {now : Nat}

theorem mem_candidateQuery {candidate : ObjectKey × PolicyCandidate} :
    candidate ∈ candidateQuery index now ↔
      ∃ key row, index.row key = some row ∧ candidate = candidateRow index now key row := by
  unfold candidateQuery
  simp only [List.mem_flatMap, List.mem_map, Prod.exists, Map.mem_toList]
  constructor
  · rintro ⟨kind, _, id, row, hrow, rfl⟩
    exact ⟨⟨kind, id⟩, row, hrow, rfl⟩
  · rintro ⟨⟨kind, id⟩, row, hrow, rfl⟩
    exact ⟨kind, kind.mem_all, id, row, hrow, rfl⟩

/-- No two objects are printed alike. -/
theorem objectId_injective {key key' : ObjectKey}
    (h : key.kind.asStr ++ lit ":" ++ key.id = key'.kind.asStr ++ lit ":" ++ key'.id) :
    key = key' := by
  obtain ⟨kind, id⟩ := key
  obtain ⟨kind', id'⟩ := key'
  cases kind <;> cases kind' <;> simp [ObjectKind.asStr, lit] at h ⊢ <;> exact h

/-- A candidate is found again by its id. -/
theorem find_candidate {key : ObjectKey} {row : ObjectRow} (hrow : index.row key = some row) :
    (candidateQuery index now).find?
      (·.2.objectId = (candidateRow index now key row).2.objectId) =
        some (candidateRow index now key row) := by
  cases hfind : (candidateQuery index now).find?
      (·.2.objectId = (candidateRow index now key row).2.objectId) with
  | none =>
      have hmem : candidateRow index now key row ∈ candidateQuery index now :=
        mem_candidateQuery.mpr ⟨key, row, hrow, rfl⟩
      have hnone := List.find?_eq_none.mp hfind _ hmem
      simp at hnone
  | some found =>
      obtain ⟨key', row', hrow', rfl⟩ := mem_candidateQuery.mp (List.mem_of_find?_eq_some hfind)
      have hsame := List.find?_some hfind
      obtain rfl := objectId_injective (of_decide_eq_true hsame)
      rw [hrow'] at hrow
      cases hrow
      rfl

/-- The keys that belong to some candidates of the query, one after the other. -/
theorem keys_of_candidates {selected : List PolicyCandidate}
    (h : ∀ candidate ∈ selected, candidate ∈ (candidateQuery index now).map (·.2)) :
    ∃ keys, selected.filterMap (fun candidate =>
        ((candidateQuery index now).find? (·.2.objectId = candidate.objectId)).map (·.1)) = keys ∧
      selected.map (·.objectId) = keys.map (fun key => key.kind.asStr ++ lit ":" ++ key.id) ∧
      selected.map (·.deletionRank) = keys.map (·.kind.deletionRank) ∧
      ∀ key ∈ keys, ∃ row, index.row key = some row ∧
        (candidateRow index now key row).2 ∈ selected := by
  induction selected with
  | nil => exact ⟨[], rfl, rfl, rfl, fun _ h => absurd h List.not_mem_nil⟩
  | cons candidate selected ih =>
      obtain ⟨keys, hkeys, hids, hranks, hmem⟩ := ih fun other hother =>
        h other (List.mem_cons_of_mem _ hother)
      obtain ⟨found, hfound, hcandidate⟩ := List.mem_map.mp (h candidate List.mem_cons_self)
      obtain ⟨key, row, hrow, rfl⟩ := mem_candidateQuery.mp hfound
      subst hcandidate
      refine ⟨key :: keys, ?_, ?_, ?_, ?_⟩
      · rw [List.filterMap_cons, find_candidate hrow, hkeys]
        rfl
      · rw [List.map_cons, List.map_cons, hids]
        rfl
      · rw [List.map_cons, List.map_cons, hranks]
        rfl
      · intro other hother
        rcases List.mem_cons.mp hother with rfl | hother
        · exact ⟨row, hrow, List.mem_cons_self⟩
        · obtain ⟨row', hrow', hin⟩ := hmem other hother
          exact ⟨row', hrow', List.mem_cons_of_mem _ hin⟩

theorem candidateQuery_nodup :
    (((candidateQuery index now).map (·.2)).map (·.objectId)).Nodup := by
  have hids : ((candidateQuery index now).map (·.2)).map (·.objectId) =
      (ObjectKind.all.flatMap fun kind => (index.rows kind).keys.map (ObjectKey.mk kind)).map
        fun key => key.kind.asStr ++ lit ":" ++ key.id := by
    unfold candidateQuery
    simp only [List.map_flatMap, List.map_map, ← Std.ExtTreeMap.map_fst_toList_eq_keys]
    rfl
  rw [hids]
  refine List.Nodup.map_on (fun _ _ _ _ => objectId_injective) ?_
  refine List.nodup_flatMap.mpr ⟨fun kind _ => ?_, ?_⟩
  · refine List.Nodup.map ?_ (index.rows kind).nodup_keys
    intro id id' heq
    exact congrArg ObjectKey.id heq
  · refine List.Pairwise.imp ?_ (by decide : ObjectKind.all.Pairwise (· ≠ ·))
    intro kind kind' hne key hkey hkey'
    obtain ⟨_, _, rfl⟩ := List.mem_map.mp hkey
    obtain ⟨_, _, heq⟩ := List.mem_map.mp hkey'
    exact hne (congrArg ObjectKey.kind heq).symm

/-- The selected objects: indexed, unprotected, each once, and what refers to others
first. -/
structure Selected (index : Index) (now : Nat) (keys : List ObjectKey) : Prop where
  indexed : ∀ key ∈ keys, index.has key = true
  free : ∀ key ∈ keys, index.protectionActive key now = false
  nodup : keys.Nodup
  sorted : keys.Pairwise fun a b => a.kind.deletionRank.index ≤ b.kind.deletionRank.index

theorem selectObjects_spec {policy : GcPolicy} {keys : List ObjectKey}
    (h : selectObjects policy now index = .ok keys) : Selected index now keys := by
  unfold selectObjects at h
  dsimp only at h
  split at h
  · cases h
  · split at h
    · cases h
    · rename_i evaluation hevaluate
      have hmem : ∀ candidate ∈ evaluation.selected.mergeSort (fun left right =>
          decide (left.deletionRank.index ≤ right.deletionRank.index)),
          candidate ∈ (candidateQuery index now).map (·.2) := by
        intro candidate hcandidate
        exact (GcPolicy.mem_selected hevaluate (List.mem_mergeSort.mp hcandidate)).1
      obtain ⟨keys', hkeys, hids, hranks, hrows⟩ := keys_of_candidates hmem
      have hsame : keys' = keys := by rw [← hkeys]; exact Except.ok.inj h
      subst hsame
      refine ⟨fun key hkey => ?_, fun key hkey => ?_, ?_, ?_⟩
      · obtain ⟨row, hrow, _⟩ := hrows key hkey
        exact Index.has_iff.mpr ⟨row, hrow⟩
      · obtain ⟨row, hrow, hin⟩ := hrows key hkey
        exact (GcPolicy.mem_selected hevaluate (List.mem_mergeSort.mp hin)).2
      · have hnodup := GcPolicy.selected_nodup hevaluate candidateQuery_nodup
        have hperm := (List.mergeSort_perm evaluation.selected fun left right =>
          decide (left.deletionRank.index ≤ right.deletionRank.index)).map (·.objectId)
        rw [← hperm.nodup_iff, hids] at hnodup
        exact List.Nodup.of_map _ hnodup
      · have hranked : (evaluation.selected.mergeSort fun left right =>
            decide (left.deletionRank.index ≤ right.deletionRank.index)).Pairwise fun left right =>
              left.deletionRank.index ≤ right.deletionRank.index := by
          refine (List.pairwise_mergeSort (fun a b c hab hbc => ?_) (fun a b => ?_) _).imp
            fun hle => of_decide_eq_true hle
          · have hab := of_decide_eq_true hab
            have hbc := of_decide_eq_true hbc
            exact decide_eq_true (hab.trans hbc)
          · rcases Nat.le_total a.deletionRank.index b.deletionRank.index with hle | hle
            · simp [hle]
            · simp [hle]
        have hmapped := (List.pairwise_map (R := fun a b : DeletionRank =>
          a.index ≤ b.index)).mpr hranked
        rw [hranks] at hmapped
        exact (List.pairwise_map (R := fun a b : DeletionRank => a.index ≤ b.index)).mp hmapped

end Selected

end MetadataRepository
end Bpm
