import Bpm.Lib.Sweep
import Bpm.Omission

/-!
# Optional packages without a declarer

When an optional package does not run on the platform it is skipped, and an optional
package that only skipped packages declare is left out with it.  The install goes over
the lockfile until nothing more is found.  It looks at the declared names alone: an edge
that the lockfile records in another place does not count.
-/

namespace Bpm

open Text

namespace Pruning

/-! ## The fixed point -/

/-- Enter the path of a package under one declared name. -/
def declare (path : Str) (declarers : Map (Map Unit)) (name : Str) : Map (Map Unit) :=
  declarers.insert name ((declarers[name]?.getD ∅).insert path ())

def declarersOf (lock : Lockfile) : Map (Map Unit) :=
  lock.packages.foldl (fun declarers package =>
    package.dependencies.keys.foldl (declare package.path) declarers) ∅

section

variable (lock : Lockfile) (skipped : Map Unit)

def dead (pruned : Map Unit) (path : Str) : Bool :=
  skipped.contains path || pruned.contains path

def declarersDead (pruned : Map Unit) (name : Str) : Bool :=
  match (declarersOf lock)[name]? with
  | some declaredBy => !declaredBy.isEmpty && declaredBy.keys.all (dead skipped pruned)
  | none => false

/-- One package of a sweep: it is pruned, or passed over. -/
def pruneOne (pruned : Map Unit) (package : PackageEntry) : Option (Map Unit) :=
  if !package.optional || pruned.contains package.path || skipped.contains package.path ||
      lock.root.dependencies.contains package.name then
    none
  else if declarersDead lock skipped pruned package.name then
    some (pruned.insert package.path ())
  else none

/-- Every sweep but the last prunes a package. -/
def pruneUnreachableOptionals : Map Unit :=
  Sweep.settle (pruneOne lock skipped) lock.packages (lock.packages.length + 1) ∅

end

/-! ## Who declares a name -/

theorem declare_contains (path : Str) (declarers : Map (Map Unit)) (name other owner : Str) :
    ((declare path declarers name)[other]?.getD ∅).contains owner =
      (decide (name = other) && decide (path = owner) ||
        (declarers[other]?.getD ∅).contains owner) := by
  unfold declare
  rw [Map.get_insert]
  by_cases h : name = other
  · subst h
    simp only [if_true, Option.getD_some, Map.contains_insert, decide_true, Bool.true_and]
  · simp [h]

theorem foldl_declare_contains (path : Str) (names : List Str) (declarers : Map (Map Unit))
    (other owner : Str) :
    ((names.foldl (declare path) declarers)[other]?.getD ∅).contains owner = true ↔
      other ∈ names ∧ path = owner ∨ (declarers[other]?.getD ∅).contains owner = true := by
  induction names generalizing declarers with
  | nil => simp
  | cons name names ih =>
      rw [List.foldl_cons, ih, declare_contains]
      simp only [Bool.or_eq_true, Bool.and_eq_true, decide_eq_true_eq, List.mem_cons]
      constructor
      · rintro (⟨hin, hpath⟩ | ⟨hname, hpath⟩ | hold)
        · exact .inl ⟨.inr hin, hpath⟩
        · exact .inl ⟨.inl hname.symm, hpath⟩
        · exact .inr hold
      · rintro (⟨hname | hin, hpath⟩ | hold)
        · exact .inr (.inl ⟨hname.symm, hpath⟩)
        · exact .inl ⟨hin, hpath⟩
        · exact .inr (.inr hold)

theorem declarersOf_contains {lock : Lockfile} {name owner : Str} :
    ((declarersOf lock)[name]?.getD ∅).contains owner = true ↔
      ∃ q ∈ lock.packages, q.dependencies.contains name = true ∧ q.path = owner := by
  have hfold : ∀ (packages : List PackageEntry) (declarers : Map (Map Unit)),
      ((packages.foldl (fun declarers package =>
          package.dependencies.keys.foldl (declare package.path) declarers)
            declarers)[name]?.getD ∅).contains owner = true ↔
        (∃ q ∈ packages, q.dependencies.contains name = true ∧ q.path = owner) ∨
          (declarers[name]?.getD ∅).contains owner = true := by
    intro packages
    induction packages with
    | nil => simp
    | cons q packages ih =>
        intro declarers
        rw [List.foldl_cons, ih, foldl_declare_contains]
        simp only [List.exists_mem_cons_iff, Std.ExtTreeMap.mem_keys,
          Std.ExtTreeMap.contains_iff_mem]
        rw [or_left_comm, or_assoc]
  have h := hfold lock.packages ∅
  simpa [declarersOf] using h

/-- All declarers are dead, and there is one. -/
theorem declarersDead_iff {lock : Lockfile} {skipped pruned : Map Unit} {name : Str} :
    declarersDead lock skipped pruned name = true ↔
      (∃ q ∈ lock.packages, q.dependencies.contains name = true) ∧
        ∀ q ∈ lock.packages, q.dependencies.contains name = true →
          dead skipped pruned q.path = true := by
  have hcontains : ∀ owner, _ := fun owner => @declarersOf_contains lock name owner
  unfold declarersDead
  cases hfound : (declarersOf lock)[name]? with
  | none =>
      have hnone : ∀ q ∈ lock.packages, q.dependencies.contains name = false := by
        intro q hq
        by_contra hname
        have hin := (hcontains q.path).mpr ⟨q, hq, by simpa using hname, rfl⟩
        simp [hfound] at hin
      constructor
      · exact nofun
      · rintro ⟨⟨q, hq, hname⟩, _⟩
        rw [hnone q hq] at hname
        cases hname
  | some declaredBy =>
      simp only [hfound, Option.getD_some] at hcontains
      have hempty : declaredBy.isEmpty = false ↔
          ∃ q ∈ lock.packages, q.dependencies.contains name = true := by
        rw [← Std.ExtTreeMap.isEmpty_keys, List.isEmpty_eq_false_iff_exists_mem]
        simp only [Std.ExtTreeMap.mem_keys]
        constructor
        · rintro ⟨owner, howner⟩
          obtain ⟨q, hq, hname, _⟩ := (hcontains owner).mp howner
          exact ⟨q, hq, hname⟩
        · rintro ⟨q, hq, hname⟩
          exact ⟨q.path, (hcontains q.path).mpr ⟨q, hq, hname, rfl⟩⟩
      simp only [Bool.and_eq_true, Bool.not_eq_true', hempty, List.all_eq_true,
        Std.ExtTreeMap.mem_keys]
      apply and_congr_right
      intro _
      constructor
      · intro h q hq hname
        exact h q.path ((hcontains q.path).mpr ⟨q, hq, hname, rfl⟩)
      · intro h owner howner
        obtain ⟨q, hq, hname, rfl⟩ := (hcontains owner).mp howner
        exact h q hq hname

/-! ## What is pruned -/

section

variable {lock : Lockfile} {skipped : Map Unit}

/-- The paths of optional packages that nothing but skipped packages and packages at such
paths declares. -/
inductive Orphaned (lock : Lockfile) (skipped : Map Unit) : Str → Prop
  | intro {p : PackageEntry} (hp : p ∈ lock.packages) (hoptional : p.optional = true)
      (hplaced : skipped.contains p.path = false)
      (hroot : lock.root.dependencies.contains p.name = false)
      (hdeclared : ∃ q ∈ lock.packages, q.dependencies.contains p.name = true)
      (hdead : ∀ q ∈ lock.packages, q.dependencies.contains p.name = true →
        skipped.contains q.path = false → Orphaned lock skipped q.path) :
      Orphaned lock skipped p.path

theorem dead_iff {pruned : Map Unit} {path : Str} :
    dead skipped pruned path = true ↔
      skipped.contains path = true ∨ pruned.contains path = true :=
  Bool.or_eq_true_iff

theorem pruneOne_eq_some {pruned pruned' : Map Unit} {p : PackageEntry} :
    pruneOne lock skipped pruned p = some pruned' ↔
      p.optional = true ∧ pruned.contains p.path = false ∧ skipped.contains p.path = false ∧
        lock.root.dependencies.contains p.name = false ∧
        declarersDead lock skipped pruned p.name = true ∧
        pruned' = pruned.insert p.path () := by
  unfold pruneOne
  cases p.optional <;> cases pruned.contains p.path <;> cases skipped.contains p.path <;>
    cases lock.root.dependencies.contains p.name <;>
    cases declarersDead lock skipped pruned p.name <;> simp [eq_comm]

/-- Fewer packages are left with each that is pruned. -/
theorem pruneOne_measure {p : PackageEntry} (hp : p ∈ lock.packages) {pruned pruned' : Map Unit}
    (h : pruneOne lock skipped pruned p = some pruned') :
    (lock.packages.filter (!pruned'.contains ·.path)).length <
      (lock.packages.filter (!pruned.contains ·.path)).length := by
  obtain ⟨_, hnew, _, _, _, rfl⟩ := pruneOne_eq_some.mp h
  have hfilter : lock.packages.filter (!(pruned.insert p.path ()).contains ·.path) =
      (lock.packages.filter (!pruned.contains ·.path)).filter fun q =>
        !decide (p.path = q.path) := by
    rw [List.filter_filter]
    apply List.filter_congr
    intro q _
    rw [Map.contains_insert, Bool.not_or]
  rw [hfilter, List.length_filter_lt_length_iff_exists]
  refine ⟨p, List.mem_filter.mpr ⟨hp, ?_⟩, ?_⟩
  · simp [hnew]
  · simp

def OnlyOrphaned (lock : Lockfile) (skipped pruned : Map Unit) : Prop :=
  ∀ path, pruned.contains path = true → Orphaned lock skipped path

theorem pruneOne_onlyOrphaned {p : PackageEntry} (hp : p ∈ lock.packages)
    {pruned pruned' : Map Unit} (h : OnlyOrphaned lock skipped pruned)
    (hstep : pruneOne lock skipped pruned p = some pruned') :
    OnlyOrphaned lock skipped pruned' := by
  obtain ⟨hoptional, _, hplaced, hroot, hdeclarers, rfl⟩ := pruneOne_eq_some.mp hstep
  intro path hpath
  rw [Map.contains_insert, Bool.or_eq_true, decide_eq_true_eq] at hpath
  rcases hpath with rfl | hold
  · obtain ⟨hdeclared, hdead⟩ := declarersDead_iff.mp hdeclarers
    apply Orphaned.intro hp hoptional hplaced hroot hdeclared
    intro q hq hname hlive
    rcases dead_iff.mp (hdead q hq hname) with hskip | hpruned
    · rw [hlive] at hskip
      cases hskip
    · exact h q.path hpruned
  · exact h path hold

theorem pruneOne_settled {p : PackageEntry} (hp : p ∈ lock.packages) :
    pruneOne lock skipped (pruneUnreachableOptionals lock skipped) p = none :=
  Sweep.settle_settled (fun _ hq _ _ => pruneOne_measure hq)
    (Nat.lt_succ_of_le (List.length_filter_le _ _)) p hp

/-- The pruned paths are the orphaned ones. -/
theorem pruneUnreachableOptionals_contains {path : Str} :
    (pruneUnreachableOptionals lock skipped).contains path = true ↔
      Orphaned lock skipped path := by
  constructor
  · have hempty : OnlyOrphaned lock skipped ∅ := by
      intro path hpath
      simp at hpath
    exact Sweep.settle_keeps (fun p hp _ _ h hstep => pruneOne_onlyOrphaned hp h hstep) _ hempty
      path
  · -- and after the last sweep no orphaned package is left
    intro h
    induction h with
    | @intro p hp hoptional hplaced hroot hdeclared _ ih =>
        by_contra hleft
        have hdeclarers : declarersDead lock skipped (pruneUnreachableOptionals lock skipped)
            p.name = true := by
          apply declarersDead_iff.mpr
          apply And.intro hdeclared
          intro q hq hname
          rw [dead_iff]
          cases hskip : skipped.contains q.path with
          | true => exact .inl rfl
          | false => exact .inr (ih q hq hname hskip)
        have hstep := pruneOne_eq_some.mpr
          ⟨hoptional, Bool.eq_false_iff.mpr hleft, hplaced, hroot, hdeclarers, rfl⟩
        rw [pruneOne_settled hp] at hstep
        cases hstep

/-! ## Edges to what is pruned -/

/-- The root declares the name, in one of the sections. -/
def RootDeclares (lock : Lockfile) (name : Str) : Prop :=
  lock.root.dependencies.contains name = true ∨
    lock.resolution.root.devDependencies.contains name = true ∨
    lock.resolution.root.optionalDependencies.contains name = true

/-- No package that is installed has an edge to a pruned one, and neither has the root. -/
structure LosesNothing (lock : Lockfile) (skipped pruned : Map Unit) : Prop where
  edges : ∀ path, pruned.contains path = true → ∀ q ∈ lock.packages,
    Omission.RuntimeTarget lock q path → dead skipped pruned q.path = true
  root : ∀ path, pruned.contains path = true → ∀ name, RootDeclares lock name →
    path ≠ rootDir ++ name

/-- An edge to a package whose name is not among the dependencies of its owner: a peer, a
provider, or a record under another name. -/
structure UnlistedEdge (lock : Lockfile) (q p : PackageEntry) : Prop where
  owner : q ∈ lock.packages
  edge : Omission.RuntimeTarget lock q p.path
  unlisted : q.dependencies.contains p.name = false

/-- The install loses nothing exactly when orphaned packages have unlisted edges only from
skipped and orphaned packages, and none lies where a root declaration leads. -/
theorem pruneUnreachableOptionals_losesNothing_iff (lock : Lockfile) (skipped : Map Unit) :
    LosesNothing lock skipped (pruneUnreachableOptionals lock skipped) ↔
      ∀ p ∈ lock.packages, Orphaned lock skipped p.path →
        (∀ q, UnlistedEdge lock q p →
          skipped.contains q.path = true ∨ Orphaned lock skipped q.path) ∧
        ∀ name, RootDeclares lock name → p.path ≠ rootDir ++ name := by
  constructor
  · intro h p _ horphaned
    have hpruned := pruneUnreachableOptionals_contains.mpr horphaned
    apply And.intro
    · intro q hedge
      have hdead := h.edges p.path hpruned q hedge.owner hedge.edge
      rcases dead_iff.mp hdead with hskip | hpath
      · exact .inl hskip
      · exact .inr (pruneUnreachableOptionals_contains.mp hpath)
    · exact h.root p.path hpruned
  · intro h
    apply LosesNothing.mk
    · intro path hpath q hq hedge
      have horphaned := pruneUnreachableOptionals_contains.mp hpath
      obtain @⟨p, hp, _, _, _, _, hdeclarers⟩ := id horphaned
      rw [dead_iff, pruneUnreachableOptionals_contains]
      cases hlisted : q.dependencies.contains p.name with
      | false => exact (h p hp horphaned).1 q ⟨hq, hedge, hlisted⟩
      | true =>
          cases hskip : skipped.contains q.path with
          | true => exact .inl rfl
          | false => exact .inr (hdeclarers q hq hlisted hskip)
    · intro path hpath
      have horphaned := pruneUnreachableOptionals_contains.mp hpath
      obtain @⟨p, hp, _⟩ := id horphaned
      exact (h p hp horphaned).2

end

namespace Example

def package (name : Str) (optional : Bool) (dependencies : Map Str) : PackageEntry :=
  { path := rootDir ++ name, name := name, version := lit "1.0.0"
    resolved := lit "https://registry/" ++ name, workspaceTarget := none, integrity := none
    link := false, dev := false, optional := optional, os := [], cpu := [], bin := ∅
    dependencies := dependencies }

/-- A package with a required peer, which is bound to the package `q`. -/
def withPeer : PackageResolution :=
  { source := .registry (lit "https://registry"), devOptional := false, peer := false, libc := []
    dependencies := ∅, optionalDependencies := ∅
    peerDependencies := (∅ : Map LockDependency).insert (lit "q") ⟨lit "^1", rootDir ++ lit "q"⟩
    optionalPeers := ∅, peerContext := ∅, workspaceTarget := none, hasInstallScript := false }

/-- Of the two root packages one is optional and depends on `q`; the other has it as a
peer. -/
def lock : Lockfile :=
  { Lockfile.new (lit "bpm") with
    root :=
      { name := none, version := none
        dependencies := ((∅ : Map Str).insert (lit "a") (lit "^1")).insert (lit "o") (lit "^1") }
    packages :=
      [package (lit "a") false ∅,
        package (lit "o") true ((∅ : Map Str).insert (lit "q") (lit "^1")),
        package (lit "q") true ∅]
    resolution := { ResolutionMetadata.default with
      packages := (∅ : Map PackageResolution).insert (rootDir ++ lit "a") withPeer } }

/-- The optional root package does not run on the platform. -/
def skipped : Map Unit := (∅ : Map Unit).insert (rootDir ++ lit "o") ()

/-- The peer of the package that stays is pruned. -/
theorem pruneUnreachableOptionals_loses_peer :
    ¬LosesNothing lock skipped (pruneUnreachableOptionals lock skipped) := by
  intro h
  have hpruned : (pruneUnreachableOptionals lock skipped).contains (rootDir ++ lit "q") = true := by
    decide
  have hedge : Omission.RuntimeTarget lock (package (lit "a") false ∅) (rootDir ++ lit "q") := by
    have hmetadata : lock.resolution.packages[(package (lit "a") false ∅).path]? = some withPeer :=
      Map.get_insert_self _ _ _
    have hdep : withPeer.peerDependencies[lit "q"]? = some ⟨lit "^1", rootDir ++ lit "q"⟩ :=
      Map.get_insert_self _ _ _
    exact Omission.RuntimeTarget.requiredPeer hmetadata hdep (by decide)
  have hdead := h.edges _ hpruned _ List.mem_cons_self hedge
  have hlive : dead skipped (pruneUnreachableOptionals lock skipped)
      (package (lit "a") false ∅).path = false := by
    decide
  rw [hlive] at hdead
  cases hdead

end Example

end Pruning
end Bpm
