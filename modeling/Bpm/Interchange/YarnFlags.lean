import Bpm.Interchange.YarnPlaced

/-!
# The flags of the import of `yarn.lock`

Every version keeps how it was reached: production, if one chain of requests from the
production declarations leads to it, and optional, if every chain takes an optional
request throughout.  Only the edges that were taken count, so the flags are justified by
chains; an edge that is met again passes nothing on to the packages below it.
-/

namespace Bpm

open Text SourceRecursion

namespace YarnLock

/-- A chain of requests from a declaration of the project, and what it says. -/
inductive Chain (lock : Lock) (manifest : PackageManifest) : Nat → Reach → Prop
  | declared {item : Item} (hseed : item ∈ seeds lock manifest) :
      Chain lock manifest item.index item.kind
  | required {index child : Nat} {kind : Reach} {optional : Bool}
      (hchain : Chain lock manifest index kind) (hchild : (child, optional) ∈ lock.children index) :
      Chain lock manifest child ⟨kind.prod, kind.optionalOnly && optional⟩

/-- Each half of what is kept for a version is what some chain to the version says. -/
structure Justified (lock : Lock) (manifest : PackageManifest) (identity : Str) (reach : Reach) :
    Prop where
  prod : ∃ index kind, (lock.entry index).identity = identity ∧ Chain lock manifest index kind ∧
    kind.prod = reach.prod
  optional : ∃ index kind, (lock.entry index).identity = identity ∧ Chain lock manifest index kind ∧
    kind.optionalOnly = reach.optionalOnly

section Justified

variable {lock : Lock} {manifest : PackageManifest}

theorem Justified.of_chain {index : Nat} {kind : Reach} (h : Chain lock manifest index kind) :
    Justified lock manifest (lock.entry index).identity kind :=
  ⟨⟨index, kind, rfl, h, rfl⟩, ⟨index, kind, rfl, h, rfl⟩⟩

theorem Justified.merge {identity : Str} {a b : Reach} (ha : Justified lock manifest identity a)
    (hb : Justified lock manifest identity b) : Justified lock manifest identity (a.merge b) := by
  constructor
  · cases hprod : a.prod with
    | true => simpa [Reach.merge, hprod] using ha.prod
    | false => simpa [Reach.merge, hprod] using hb.prod
  · cases hoptional : a.optionalOnly with
    | true => simpa [Reach.merge, hoptional] using hb.optional
    | false => simpa [Reach.merge, hoptional] using ha.optional

/-- What is queued was reached, and what is kept is justified. -/
structure Reached (lock : Lock) (manifest : PackageManifest) (s : Walk) : Prop where
  queue : ∀ item ∈ s.queue, Chain lock manifest item.index item.kind
  reach : ∀ identity reach, s.reach[identity]? = some reach →
    Justified lock manifest identity reach
  placed : ∀ index path, (index, path) ∈ s.placed →
    s.reach.contains (lock.entry index).identity = true

theorem Reached.start : Reached lock manifest (Walk.start (seeds lock manifest)) where
  queue := fun _ hitem => .declared hitem
  reach := by simp [Walk.start]
  placed := by simp [Walk.start]

theorem Reached.revisit {s : Walk} (h : Reached lock manifest s) {item : Item} {rest : List Item}
    (hqueue : s.queue = item :: rest) : Reached lock manifest (Walk.revisit lock item rest s) where
  queue := fun other hother => h.queue other (by rw [hqueue]; exact List.mem_cons_of_mem _ hother)
  reach := by
    intro identity reach hget
    have hmodify : (s.reach.modify (lock.entry item.index).identity (·.merge item.kind))[identity]? =
        some reach := hget
    rw [Map.get_modify] at hmodify
    split at hmodify
    · rename_i hsame
      subst hsame
      obtain ⟨old, hold, rfl⟩ := Option.map_eq_some_iff.mp hmodify
      have hitem := h.queue item (by rw [hqueue]; exact List.mem_cons_self)
      exact (h.reach _ _ hold).merge (.of_chain hitem)
    · exact h.reach _ _ hmodify
  placed := by
    intro index path hplaced
    show (s.reach.modify _ _).contains _ = true
    rw [Map.contains_modify]
    exact h.placed index path hplaced

theorem Reached.visit {s : Walk} (h : Reached lock manifest s) {item : Item} {rest : List Item}
    (hqueue : s.queue = item :: rest) : Reached lock manifest (Walk.visit lock item rest s) := by
  have hitem := h.queue item (by rw [hqueue]; exact List.mem_cons_self)
  constructor
  · intro other hother
    rcases List.mem_append.mp hother with hold | hnew
    · exact h.queue other (by rw [hqueue]; exact List.mem_cons_of_mem _ hold)
    · obtain ⟨⟨child, optional⟩, hchild, rfl⟩ := List.mem_map.mp hnew
      exact hitem.required hchild
  · intro identity reach hget
    have hinsert : (s.reach.insert (lock.entry item.index).identity
        ((s.reach[(lock.entry item.index).identity]?.getD item.kind).merge item.kind))[identity]? =
        some reach := hget
    rw [Map.get_insert] at hinsert
    split at hinsert
    · rename_i hsame
      subst hsame
      cases hinsert
      refine Justified.merge ?_ (.of_chain hitem)
      cases hold : s.reach[(lock.entry item.index).identity]? with
      | none => exact .of_chain hitem
      | some old => exact h.reach _ _ hold
    · exact h.reach _ _ hinsert
  · intro index path hplaced
    show (s.reach.insert (lock.entry item.index).identity _).contains _ = true
    rw [Map.contains_insert]
    have hplaced' : (index, path) ∈
        (if (s.placer.place (lock.entry item.index).name (lock.entry item.index).version
            item.dependent).1 ∈ s.placed.map Prod.snd then s.placed
          else s.placed ++ [(item.index, (s.placer.place (lock.entry item.index).name
            (lock.entry item.index).version item.dependent).1)]) := hplaced
    split at hplaced'
    · simp [h.placed index path hplaced']
    · rcases List.mem_append.mp hplaced' with hold | hnew
      · simp [h.placed index path hold]
      · cases List.mem_singleton.mp hnew
        simp

end Justified

/-- `a` and `b` share `x`; below it are `y` and `z`. -/
def sharedTail : Lock where
  entries :=
    [Lock.release 'a' '1' [('x', '1')], Lock.release 'b' '1' [('x', '1')],
      Lock.release 'x' '1' [('y', '1')], Lock.release 'y' '1' [('z', '1')], Lock.release 'z' '1' []]
  crates := Release.crates

/-- `a` only for the development. -/
def sharedTailRoots : PackageManifest := Project.manifest [(['b'], ['1'])] [(['a'], ['1'])]

/-- The converse fails: what is required by a production chain can be marked as only for the
development, when the chain joins another one that came first. -/
theorem importEntries_flags_incomplete :
    ∃ report, importEntries (fun _ => true) 8 sharedTail sharedTailRoots = some report ∧
      ∃ package ∈ report.lockfile.packages, ∃ index kind,
        Chain sharedTail sharedTailRoots index kind ∧ kind.prod = true ∧
          (sharedTail.entry index).name = package.name ∧
          (sharedTail.entry index).version = package.version ∧ package.dev = true := by
  have hrun : ((importEntries (fun _ => true) 8 sharedTail sharedTailRoots).any fun report =>
      report.lockfile.packages.any fun package =>
        package.name == ['z'] && package.version == ['1'] && package.dev) = true := by
    decide +kernel
  obtain ⟨report, himport, hreport⟩ := (Option.any_eq_true _ _).mp hrun
  obtain ⟨package, hpackage, hfields⟩ := List.any_eq_true.mp hreport
  rw [Bool.and_eq_true, Bool.and_eq_true, beq_iff_eq, beq_iff_eq] at hfields
  have hseed : (⟨1, [], ⟨true, false⟩⟩ : Item) ∈ seeds sharedTail sharedTailRoots := by
    decide +kernel
  have hrequires : (2, false) ∈ sharedTail.children 1 ∧ (3, false) ∈ sharedTail.children 2 ∧
      (4, false) ∈ sharedTail.children 3 := by decide +kernel
  have hz := (((Chain.declared hseed).required hrequires.1).required hrequires.2.1).required
    hrequires.2.2
  exact ⟨report, himport, package, hpackage, 4, _, hz, rfl, hfields.1.1.symm, hfields.1.2.symm,
    hfields.2⟩

end YarnLock
end Bpm
