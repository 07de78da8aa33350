import Bpm.Metadata.Operations

/-!
# What a collection removes

An object that a graph lists may be selected without the graph: the graph was used
more recently, or the size cap is reached first.  Its file is then removed before the
foreign key refuses to delete its row.
-/

namespace Bpm

open MetadataRepository Text

/-- What the policy selects from the repaired index, when it comes to that. -/
def selectedBy (policy : GcPolicy) (now : Nat) (s : MetadataRepository) : List ObjectKey :=
  (repairIndex s.store s.index >>= selectObjects policy now).toOption.getD []

/-- What is removed is in no complete graph that stays, and file and row go together. -/
structure CollectsSafely (policy : GcPolicy) (now : Nat) (s : MetadataRepository) : Prop where
  unlisted : ∀ key, s.store.has key = true → (collect policy now s).2.store.has key = false →
    ∀ graphId row, (collect policy now s).2.index.row ⟨.graph, graphId⟩ = some row →
      row.complete = true → row.edges.lists key = false
  together : ∀ key ∈ selectedBy policy now s,
    (collect policy now s).2.store.has key = (collect policy now s).2.index.has key

/-- Graphs are selected along with whatever they list. -/
def SelectsListingGraphs (policy : GcPolicy) (now : Nat) (s : MetadataRepository) : Prop :=
  ∀ index selected, repairIndex s.store s.index = .ok index →
    selectObjects policy now index = .ok selected → ∀ key ∈ selected, ∀ graphId row,
      index.row ⟨.graph, graphId⟩ = some row → row.edges.lists key = true →
        ⟨.graph, graphId⟩ ∈ selected

/-! ## Fewer rows protect less -/

section Protection

variable {index index' : Index} {key : ObjectKey} {now : Nat}

theorem referenced_congr (h : index'.projects = index.projects) (graphId : Str) :
    index'.referenced graphId = index.referenced graphId := by
  unfold Index.referenced
  rw [h]

/-- Rows that are all there protect nothing that was not protected. -/
theorem protectionActive_mono (hrows : ∀ key row, index'.row key = some row → index.row key = some row)
    (hprojects : index'.projects = index.projects) (hleases : index'.leases = index.leases)
    (h : index.protectionActive key now = false) : index'.protectionActive key now = false := by
  unfold Index.protectionActive at h ⊢
  rw [Bool.or_eq_false_iff] at h ⊢
  refine ⟨by unfold Index.leased at h ⊢; rw [hleases]; exact h.1, ?_⟩
  have hany (p : Str × ObjectRow → Bool) (hp : (index.rows .graph).toList.any p = false) :
      (index'.rows .graph).toList.any p = false := by
    rw [← Bool.not_eq_true, List.any_eq_true] at hp ⊢
    rintro ⟨⟨graphId, row⟩, hmem, hrow⟩
    exact hp ⟨(graphId, row), Map.mem_toList.mpr
      (hrows ⟨.graph, graphId⟩ row (Map.mem_toList.mp hmem)), hrow⟩
  have hgraphs : (index.inAttachedGraph key || index.anyIncompleteGraph) = false →
      (index'.inAttachedGraph key || index'.anyIncompleteGraph) = false := by
    unfold Index.inAttachedGraph Index.anyIncompleteGraph
    rw [Bool.or_eq_false_iff, Bool.or_eq_false_iff]
    simp only [referenced_congr hprojects]
    exact fun hboth => ⟨hany _ hboth.1, hany _ hboth.2⟩
  have h := h.2
  unfold Index.protectedByGraphs at h ⊢
  cases hkind : key.kind with
  | artifact => rw [hkind] at h; exact hgraphs h
  | image => rw [hkind] at h; exact hgraphs h
  | derived => rw [hkind] at h; exact hgraphs h
  | plan => rfl
  | graph =>
      rw [hkind] at h
      dsimp only at h ⊢
      rw [Bool.or_eq_false_iff] at h ⊢
      rw [referenced_congr hprojects]
      refine ⟨h.1, ?_⟩
      cases hrow : index'.row key with
      | none => rfl
      | some row =>
          rw [hrows key row hrow] at h
          exact h.2

end Protection

/-! ## The loop -/

/-- Some selected objects are gone, with their files and rows. -/
structure Gone (s : MetadataRepository) (done : List ObjectKey) (s' : MetadataRepository) :
    Prop where
  store : ∀ key, s'.store.entry key = if key ∈ done then none else s.store.entry key
  rows : ∀ key row, s'.index.row key = some row → s.index.row key = some row
  gone : ∀ key ∈ done, s'.index.row key = none
  kept : ∀ key, key ∉ done → key.kind ≠ .image → key.kind ≠ .plan →
    s'.index.row key = s.index.row key
  projects : s'.index.projects = s.index.projects
  leases : s'.index.leases = s.index.leases

theorem gone_nil (s : MetadataRepository) : Gone s [] s :=
  ⟨fun _ => by simp, fun _ _ h => h, fun _ h => absurd h List.not_mem_nil, fun _ _ _ _ => rfl,
    rfl, rfl⟩

theorem entry_unlink {store : Store} {key k : ObjectKey} :
    (store.unlink key).entry k = if k = key then none else store.entry k := by
  unfold Store.entry Store.unlink
  rw [Tables.get_erase]
  exact if_congr Index.key_eq rfl rfl

theorem projects_erased {index : Index} {key : ObjectKey} :
    (index.erased key).projects = index.projects := by
  unfold Index.erased
  split <;> rfl

namespace Gone

variable {s s' : MetadataRepository} {done : List ObjectKey} {key : ObjectKey} {now : Nat}

theorem isPublished (h : Gone s done s') (hnew : key ∉ done)
    (hartifact : key.kind = .image → ⟨.artifact, key.id⟩ ∉ done) :
    s'.store.isPublished key = s.store.isPublished key := by
  have hhas (k : ObjectKey) (hk : k ∉ done) : s'.store.has k = s.store.has k := by
    unfold Store.has
    rw [h.store, if_neg hk]
  unfold Store.isPublished
  rw [hhas key hnew]
  by_cases hkind : key.kind = .image
  · rw [hhas _ (hartifact hkind)]
  · have hother : (key.kind != .image) = true := by simpa using hkind
    rw [hother]
    rfl

theorem concat (h : Gone s done s') :
    Gone s (done ++ [key]) ⟨s'.store.unlink key, s'.index.erased key⟩ where
  store k := by
    rw [entry_unlink, h.store]
    by_cases hk : k = key <;> simp [hk]
  rows k row hrow := by
    dsimp only at hrow
    rw [Index.row_erased] at hrow
    split at hrow
    · cases hrow
    · split at hrow
      · exact h.rows k row (Option.filter_eq_some_iff.mp hrow).1
      · exact h.rows k row hrow
  gone k hk := by
    dsimp only
    rw [Index.row_erased]
    rcases List.mem_append.mp hk with hdone | hlast
    · rw [h.gone k hdone]
      simp
    · rw [if_pos (Or.inl (List.mem_singleton.mp hlast))]
  kept k hk himage hplan := by
    dsimp only
    rw [List.mem_append, not_or, List.mem_singleton] at hk
    rw [Index.row_erased]
    have hnot : ¬(k = key ∨ key.kind = .artifact ∧ k = ⟨.image, key.id⟩) := by
      rintro (heq | ⟨_, rfl⟩)
      · exact hk.2 heq
      · exact himage rfl
    rw [if_neg hnot, if_neg fun hboth => hplan hboth.2]
    exact h.kept k hk.1 himage hplan
  projects := projects_erased.trans h.projects
  leases := leases_erased.trans h.leases

/-- A selected object that is still there is taken; its row is deleted unless the
foreign keys are against it. -/
theorem collectObject (h : Gone s done s') (hnew : key ∉ done)
    (hartifact : key.kind = .image → ⟨.artifact, key.id⟩ ∉ done)
    (hpublished : s.store.isPublished key = true)
    (hfree : s.index.protectionActive key now = false) :
    MetadataRepository.collectObject now key s' =
      if s'.index.restricted key then
        (.error (.sql .foreignKey), ⟨s'.store.unlink key, s'.index⟩)
      else (.ok (), ⟨s'.store.unlink key, s'.index.erased key⟩) := by
  have hthere := (h.isPublished hnew hartifact).trans hpublished
  have hunprotected := protectionActive_mono h.rows h.projects h.leases hfree
  unfold MetadataRepository.collectObject
  change (if !s'.store.isPublished key || s'.index.protectionActive key now then pure ()
    else (Run.modify fun s => { s with store := s.store.unlink key }) >>= fun _ =>
      transaction (·.deleteRow key) : Metadata Unit) s' = _
  rw [hthere, hunprotected]
  simp only [Bool.not_true, Bool.or_false, Bool.false_eq_true, if_false]
  change transaction (·.deleteRow key) ⟨s'.store.unlink key, s'.index⟩ = _
  unfold transaction Index.deleteRow
  dsimp only
  by_cases hrestricted : s'.index.restricted key = true
  · rw [if_pos hrestricted, if_pos hrestricted]
  · rw [if_neg hrestricted, if_neg hrestricted]

end Gone

section Loop

variable {s s' : MetadataRepository} {now : Nat} {selected : List ObjectKey}

/-- In the order of deletion, an image comes before its artifact and a graph before
what it lists. -/
theorem not_mem_done {done rest : List ObjectKey} {key later : ObjectKey}
    (hsorted : (done ++ key :: rest).Pairwise fun a b =>
      a.kind.deletionRank.index ≤ b.kind.deletionRank.index)
    (hlater : key.kind.deletionRank.index < later.kind.deletionRank.index) : later ∉ done := by
  intro hmem
  have hle := (List.pairwise_append.mp hsorted).2.2 later hmem key List.mem_cons_self
  omega

/-- An object is stuck: its file is gone, its row is not, and a graph that was not
selected lists it. -/
def Stuck (s : MetadataRepository) (selected : List ObjectKey) (s' : MetadataRepository) : Prop :=
  ∃ key ∈ selected, s'.store.has key = false ∧ s'.index.has key = true ∧
    ∃ graphId row, s.index.row ⟨.graph, graphId⟩ = some row ∧ row.edges.lists key = true ∧
      ⟨.graph, graphId⟩ ∉ selected

/-- Either all selected objects are taken, or one of them is stuck. -/
theorem collectAll (hselected : Selected s.index now selected)
    (hpublished : ∀ key ∈ selected, s.store.isPublished key = true) :
    ∀ rest done s', selected = done ++ rest → Gone s done s' →
      ((Run.forEach (collectObject now) rest s').1 = .ok () ∧
        Gone s selected (Run.forEach (collectObject now) rest s').2) ∨
      Stuck s selected (Run.forEach (collectObject now) rest s').2 := by
  intro rest
  induction rest with
  | nil =>
      intro done s' hsplit hgone
      rw [List.append_nil] at hsplit
      rw [hsplit]
      exact Or.inl ⟨rfl, hgone⟩
  | cons key rest ih =>
      intro done s' hsplit hgone
      have hmem : key ∈ selected := by rw [hsplit]; simp
      have hnodup := hselected.nodup
      have hsorted := hselected.sorted
      rw [hsplit] at hnodup hsorted
      have hnew : key ∉ done := fun hin =>
        (List.nodup_append.mp hnodup).2.2 key hin key List.mem_cons_self rfl
      have hartifact : key.kind = .image → ⟨.artifact, key.id⟩ ∉ done := by
        intro hkind
        have hbefore : ObjectKind.image.deletionRank.index <
            ObjectKind.artifact.deletionRank.index := by decide
        exact not_mem_done hsorted (by rw [hkind]; exact hbefore)
      have hstep := hgone.collectObject hnew hartifact (hpublished key hmem)
        (hselected.free key hmem)
      by_cases hrestricted : s'.index.restricted key = true
      · rw [if_pos hrestricted] at hstep
        right
        have hstop : Run.forEach (collectObject now) (key :: rest) s' =
            (.error (.sql .foreignKey), ⟨s'.store.unlink key, s'.index⟩) := Run.bind_error hstep
        rw [hstop]
        have hlisted : (key.kind = .artifact ∨ key.kind = .derived) ∧
            s'.index.listed key = true := by
          unfold Index.restricted at hrestricted
          cases hkind : key.kind with
          | artifact => rw [hkind] at hrestricted; exact ⟨Or.inl rfl, hrestricted⟩
          | derived => rw [hkind] at hrestricted; exact ⟨Or.inr rfl, hrestricted⟩
          | image => rw [hkind] at hrestricted; cases hrestricted
          | plan => rw [hkind] at hrestricted; cases hrestricted
          | graph =>
              rw [hkind] at hrestricted
              have hfree := hselected.free key hmem
              rw [referenced_congr hgone.projects] at hrestricted
              simp [Index.protectionActive, Index.protectedByGraphs, hkind, hrestricted] at hfree
        obtain ⟨hkind, hlisted⟩ := hlisted
        obtain ⟨graphId, row, hrow, hlists⟩ := Index.listed_iff.mp hlisted
        have hfirst : DeletionRank.index (ObjectKind.deletionRank .graph) <
            key.kind.deletionRank.index := by
          rcases hkind with hkind | hkind <;> rw [hkind] <;> decide
        refine ⟨key, hmem, ?_, ?_, graphId, row, hgone.rows _ row hrow, hlists, ?_⟩
        · simp [Store.has, entry_unlink]
        · have hkept := hgone.kept key hnew (by rcases hkind with h | h <;> simp [h])
            (by rcases hkind with h | h <;> simp [h])
          have hindexed := hselected.indexed key hmem
          unfold Index.has at hindexed ⊢
          rw [hkept]
          exact hindexed
        · intro hgraph
          rw [hsplit] at hgraph
          have hdone := Folds.mem_before hsorted hgraph hfirst
          rw [hgone.gone _ hdone] at hrow
          cases hrow
      · rw [if_neg hrestricted] at hstep
        have hnext := ih (done ++ [key]) ⟨s'.store.unlink key, s'.index.erased key⟩
          (by rw [hsplit]; simp) hgone.concat
        have hcontinue : Run.forEach (collectObject now) (key :: rest) s' =
            Run.forEach (collectObject now) rest ⟨s'.store.unlink key, s'.index.erased key⟩ :=
          Run.bind_ok hstep
        rw [hcontinue]
        exact hnext

end Loop

/-! ## The condition -/

section Condition

variable {s : MetadataRepository} {policy : GcPolicy} {now : Nat}

/-- A repair or a selection that fails leaves the store alone. -/
theorem collect_error {e : MetadataError}
    (h : (repairIndex s.store s.index >>= selectObjects policy now) = .error e) :
    (collect policy now s).2.store = s.store ∧ selectedBy policy now s = [] := by
  refine ⟨?_, by unfold selectedBy; rw [h]; rfl⟩
  cases hrepair : repairIndex s.store s.index with
  | error e =>
      have hfirst : repair s = (.error e, s) := by
        unfold repair transaction
        rw [hrepair]
      have hall : collect policy now s = (.error e, s) := Run.bind_error hfirst
      rw [hall]
  | ok index =>
      rw [hrepair] at h
      have hselect : selectObjects policy now index = .error e := h
      have hfirst : repair s = (.ok (), { s with index := index }) := by
        unfold repair transaction
        rw [hrepair]
      have hall : collect policy now s = (.error e, { s with index := index }) := by
        unfold collect
        rw [Run.bind_ok hfirst]
        change (Run.ofExcept id (selectObjects policy now index) >>= fun selected =>
          Run.forEach (collectObject now) selected) { s with index := index } = _
        rw [hselect]
        rfl
      rw [hall]

theorem collect_ok {index : Index} {selected : List ObjectKey}
    (hrepair : repairIndex s.store s.index = .ok index)
    (hselect : selectObjects policy now index = .ok selected) :
    collect policy now s = Run.forEach (collectObject now) selected { s with index := index } ∧
      selectedBy policy now s = selected := by
  have hfirst : repair s = (.ok (), { s with index := index }) := by
    unfold repair transaction
    rw [hrepair]
  refine ⟨?_, ?_⟩
  · unfold collect
    rw [Run.bind_ok hfirst]
    change (Run.ofExcept id (selectObjects policy now index) >>= fun selected =>
      Run.forEach (collectObject now) selected) { s with index := index } = _
    rw [hselect]
    rfl
  · unfold selectedBy
    rw [hrepair]
    change ((selectObjects policy now index).toOption.getD []) = selected
    rw [hselect]
    rfl

/-- A collection is safe exactly where graphs are selected with whatever they list. -/
theorem collectsSafely_iff (policy : GcPolicy) (now : Nat) (s : MetadataRepository) :
    CollectsSafely policy now s ↔ SelectsListingGraphs policy now s := by
  constructor
  · intro hsafe index selected hrepair hselect key hkey graphId row hrow hlists
    obtain ⟨hcollect, hselected⟩ := collect_ok hrepair hselect
    have hspec := selectObjects_spec hselect
    have hpublished : ∀ key ∈ selected, s.store.isPublished key = true := by
      intro key hkey
      obtain ⟨row, hrow⟩ := Index.has_iff.mp (hspec.indexed key hkey)
      obtain ⟨_, _, hpublished, _⟩ := observed_of_repaired hrepair hrow
      exact hpublished
    rcases collectAll (s := { s with index := index }) hspec hpublished selected [] _ rfl
      (gone_nil _) with ⟨_, hgone⟩ | ⟨stuck, hmem, hfile, hrow', _⟩
    · rw [← hcollect] at hgone
      by_contra hgraph
      have hkept := hgone.kept ⟨.graph, graphId⟩ hgraph (by simp) (by simp)
      have hremoved : (collect policy now s).2.store.has key = false := by
        unfold Store.has
        rw [hgone.store, if_pos hkey]
        rfl
      have hfalse := hsafe.unlisted key (Store.has_of_isPublished (hpublished key hkey)) hremoved
        graphId row (hkept.trans hrow) (complete_of_repaired hrepair hrow hlists)
      rw [hlists] at hfalse
      cases hfalse
    · rw [← hcollect] at hfile hrow'
      have htogether := hsafe.together stuck (by rw [hselected]; exact hmem)
      rw [hfile, hrow'] at htogether
      cases htogether
  · intro hgraphs
    cases hboth : repairIndex s.store s.index >>= selectObjects policy now with
    | error e =>
        obtain ⟨hstore, hnone⟩ := collect_error hboth
        refine ⟨fun key hhas hremoved => ?_, fun key hkey => ?_⟩
        · rw [hstore, hhas] at hremoved
          cases hremoved
        · rw [hnone] at hkey
          exact absurd hkey List.not_mem_nil
    | ok selected =>
        obtain ⟨index, hrepair, hselect⟩ := Except.bind_eq_ok.mp hboth
        obtain ⟨hcollect, hselected⟩ := collect_ok hrepair hselect
        have hspec := selectObjects_spec hselect
        have hpublished : ∀ key ∈ selected, s.store.isPublished key = true := by
          intro key hkey
          obtain ⟨row, hrow⟩ := Index.has_iff.mp (hspec.indexed key hkey)
          obtain ⟨_, _, hpublished, _⟩ := observed_of_repaired hrepair hrow
          exact hpublished
        rcases collectAll (s := { s with index := index }) hspec hpublished selected [] _ rfl
          (gone_nil _) with ⟨_, hgone⟩ | ⟨key, hkey, _, _, graphId, row, hrow, hlists, hnot⟩
        · rw [← hcollect] at hgone
          have hremoved (key : ObjectKey) : (collect policy now s).2.store.has key =
              if key ∈ selected then false else s.store.has key := by
            unfold Store.has
            rw [hgone.store]
            split <;> rfl
          refine ⟨fun key hhas hgoneKey graphId row hrow _ => ?_, fun key hkey => ?_⟩
          · rw [hremoved] at hgoneKey
            split at hgoneKey
            · rename_i hkey
              rw [← Bool.not_eq_true]
              intro hlists
              have hgraph := hgraphs index selected hrepair hselect key hkey graphId row
                (hgone.rows _ row hrow) hlists
              rw [hgone.gone _ hgraph] at hrow
              cases hrow
            · rw [hhas] at hgoneKey
              cases hgoneKey
          · rw [hselected] at hkey
            rw [hremoved, if_pos hkey]
            unfold Index.has
            rw [hgone.gone key hkey]
            rfl
        · exact absurd (hgraphs index selected hrepair hselect key hkey graphId row hrow hlists) hnot

end Condition

/-- An old artifact and a graph with it that was published later. -/
def lateGraph : List Operation := [
  .publish ⟨.artifact, repeatedId .artifact '1'⟩ ⟨1, 0, none, []⟩,
  .publish ⟨.graph, repeatedId .graph '2'⟩
    ⟨1, 100, some ⟨(∅ : Map Bool).insert (repeatedId .artifact '1') true, ∅⟩, []⟩]

theorem listed_artifact_lost :
    ¬∀ policy now s, operations.Reachable s → CollectsSafely policy now s := by
  intro hall
  have hsafe := hall ⟨50, none⟩ 100 _ (reachable_performAll lateGraph)
  have hkey : ⟨.artifact, repeatedId .artifact '1'⟩ ∈
      selectedBy ⟨50, none⟩ 100 (performAll lateGraph) := by decide +kernel
  have htogether := hsafe.together _ hkey
  have hfile : (collect ⟨50, none⟩ 100 (performAll lateGraph)).2.store.has
      ⟨.artifact, repeatedId .artifact '1'⟩ = false := by decide +kernel
  have hrow : (collect ⟨50, none⟩ 100 (performAll lateGraph)).2.index.has
      ⟨.artifact, repeatedId .artifact '1'⟩ = true := by decide +kernel
  rw [hfile, hrow] at htogether
  cases htogether

end Bpm
