import Bpm.Resolver.SourceRecursion

/-!
# Hoisting

A lock of yarn or pnpm says which versions are used but not where they lie.  The imports
lay the `node_modules` tree out anew: a requirement shares the slot that its dependent
finds if that slot holds the version, goes to the root if no slot of the name is in sight,
and goes into the dependent's own directory otherwise.  The module says what one placement
does to what the packages of the tree find.
-/

namespace Bpm

open Text SourceRecursion

/-- The package around a placement; `none` for a slot of the root. -/
def parentPackage (path : Str) : Option Str :=
  if rootDir.isPrefixOf path then (rsplitOnce nestSep path).map Prod.fst else none

/-- What lies in which slot: by directory and name, the version. -/
structure Placer where
  occupied : Map (Map Str)

namespace Placer

def new : Placer := ⟨∅⟩

/-- The directories of a package and of the packages around it, its own first. -/
def ownDirs : Nat → Str → List Str
  | 0, _ => []
  | fuel + 1, package =>
      (package ++ lit "/node_modules") ::
        match parentPackage package with
        | some parent => ownDirs fuel parent
        | none => []

/-- The directories that a dependent looks into; every parent is shorter than its child. -/
def chain (dependent : Str) : List Str :=
  if dependent.isEmpty then [lit "node_modules"]
  else ownDirs dependent.length dependent ++ [lit "node_modules"]

/-- The version in the slot of a name. -/
def occupant (placer : Placer) (dir name : Str) : Option Str :=
  placer.occupied[dir]? >>= fun slot => slot[name]?

/-- What the way up the directories ends with. -/
inductive Scan
  | shared (dir : Str)
  | blocked
  | free

def scan (placer : Placer) (name version : Str) : List Str → Scan
  | [] => .free
  | dir :: dirs =>
      match placer.occupant dir name with
      | some occupied => if occupied = version then .shared dir else .blocked
      | none => scan placer name version dirs

def claim (placer : Placer) (dir name version : Str) : Placer :=
  ⟨placer.occupied.insert dir ((placer.occupied[dir]?.getD ∅).insert name version)⟩

/-- Place what the package at `dependent` requires, the project for the empty path. -/
def place (placer : Placer) (name version dependent : Str) : Str × Placer :=
  let root := (chain dependent).getLastD []
  let own := (chain dependent).headD []
  match scan placer name version (chain dependent) with
  | .shared dir => (dir ++ ['/'] ++ name, placer)
  | .free => (root ++ ['/'] ++ name, placer.claim root name version)
  | .blocked => (own ++ ['/'] ++ name, placer.claim own name version)

end Placer

/-- A path that spells a chain of plain names. -/
inductive Nested : Str → Prop
  | top {name : Str} (hname : Plain name) : Nested (childPath [] name)
  | inside {owner name : Str} (howner : Nested owner) (hname : Plain name) :
      Nested (childPath owner name)

/-- The directory of a package, the root's for the empty path. -/
def dirOf (owner : Str) : Str :=
  if owner.isEmpty then lit "node_modules" else owner ++ lit "/node_modules"

theorem dirOf_append (owner name : Str) : dirOf owner ++ ['/'] ++ name = childPath owner name := by
  unfold dirOf childPath
  split
  · show lit "node_modules" ++ ['/'] ++ name = rootDir ++ name
    rfl
  · show owner ++ lit "/node_modules" ++ ['/'] ++ name = owner ++ nestSep ++ name
    simp [lit, nestSep]

theorem dirOf_inj {owner owner' : Str} (h : dirOf owner = dirOf owner') : owner = owner' := by
  have hlength : ∀ owner : Str, owner ≠ [] → (lit "node_modules").length < (dirOf owner).length := by
    intro owner hne
    have hcons : owner.isEmpty = false := by simpa using hne
    rw [dirOf, hcons]
    simp [lit]
  by_cases howner : owner = [] <;> by_cases howner' : owner' = []
  · rw [howner, howner']
  · have hlt := hlength owner' howner'
    rw [← h, howner] at hlt
    exact absurd hlt (lt_irrefl _)
  · have hlt := hlength owner howner
    rw [h, howner'] at hlt
    exact absurd hlt (lt_irrefl _)
  · have hcons : owner.isEmpty = false := by simpa using howner
    have hcons' : owner'.isEmpty = false := by simpa using howner'
    rw [dirOf, dirOf, hcons, hcons'] at h
    exact List.append_cancel_right h

namespace Nested

variable {path : Str}

theorem ne_nil (h : Nested path) : path ≠ [] := by
  cases h with
  | top => exact childPath_ne_nil _ _
  | inside => exact childPath_ne_nil _ _

theorem rootDir_starts (h : Nested path) : rootDir <+: path := by
  induction h with
  | @top name _ => exact ⟨name, rfl⟩
  | @inside owner name howner _ ih =>
    have hcons : owner.isEmpty = false := by simpa using howner.ne_nil
    rw [childPath, hcons]
    exact (ih.trans (List.prefix_append ..)).trans (List.prefix_append ..)

theorem parentPackage_top {name : Str} (hname : Plain name) :
    parentPackage (childPath [] name) = none := by
  have hnone : rsplitOnce nestSep (rootDir ++ name) = none := hname
  show parentPackage (rootDir ++ name) = none
  unfold parentPackage
  rw [hnone]
  simp

theorem parentPackage_below {owner name : Str} (howner : Nested owner) (hname : Plain name) :
    parentPackage (childPath owner name) = some owner := by
  have hbelow : rootDir.isPrefixOf (childPath owner name) = true :=
    List.isPrefixOf_iff_prefix.mpr (Nested.inside howner hname).rootDir_starts
  have hparent := parentPath_childPath hname owner
  unfold parentPackage
  rw [hbelow, if_pos rfl]
  unfold parentPath at hparent
  cases hsplit : rsplitOnce nestSep (childPath owner name) with
  | none =>
    rw [hsplit] at hparent
    exact absurd hparent.symm howner.ne_nil
  | some parts =>
    rw [hsplit] at hparent
    exact congrArg some hparent

theorem ownDirs_eq (h : Nested path) {fuel : Nat} (hfuel : path.length ≤ fuel) :
    Placer.ownDirs fuel path = (enclosing path).map dirOf := by
  induction h generalizing fuel with
  | @top name hname =>
    have hlength := childPath_length [] name
    obtain ⟨fuel, rfl⟩ : ∃ f, fuel = f + 1 := ⟨fuel - 1, by omega⟩
    rw [Placer.ownDirs, parentPackage_top hname, enclosing_childPath hname]
    simp [dirOf, childPath_ne_nil]
  | @inside owner name howner hname ih =>
    have hlength := childPath_length owner name
    obtain ⟨fuel, rfl⟩ : ∃ f, fuel = f + 1 := ⟨fuel - 1, by omega⟩
    rw [Placer.ownDirs, parentPackage_below howner hname, enclosing_childPath hname]
    show _ :: Placer.ownDirs fuel owner = _
    rw [ih (by omega)]
    simp [dirOf, childPath_ne_nil]

end Nested

/-- A dependent: the project, or a package of the tree. -/
def Dependent (path : Str) : Prop := path = [] ∨ Nested path

theorem Dependent.child {owner name : Str} (h : Dependent owner) (hname : Plain name) :
    Nested (childPath owner name) := by
  rcases h with rfl | h
  · exact .top hname
  · exact .inside h hname

namespace Placer

variable {placer : Placer} {name version dependent : Str}

/-- The directories that are scanned are those that Node.js looks into. -/
theorem chain_eq (h : Dependent dependent) : chain dependent = (lookupDirs dependent).map dirOf := by
  rcases h with rfl | h
  · simp [chain, lookupDirs, dirOf]
  · have hcons : dependent.isEmpty = false := by simpa using h.ne_nil
    rw [chain, hcons, h.ownDirs_eq le_rfl]
    simp [lookupDirs, dirOf]

/-- The version in the slot of a name below a package. -/
def held (placer : Placer) (owner name : Str) : Option Str := placer.occupant (dirOf owner) name

/-- The version that the package at `dependent` finds under a name. -/
def found (placer : Placer) (dependent name : Str) : Option Str :=
  (lookupDirs dependent).findSome? fun owner => placer.held owner name

@[simp] theorem held_new (owner name : Str) : new.held owner name = none := by
  simp [held, occupant, new]

theorem occupant_claim (placer : Placer) (dir dir' name name' version : Str) :
    (placer.claim dir name version).occupant dir' name' =
      if dir = dir' ∧ name = name' then some version else placer.occupant dir' name' := by
  unfold occupant claim
  by_cases hdir : dir = dir'
  · subst hdir
    simp only [Map.get_insert_self, true_and]
    show ((placer.occupied[dir]?.getD ∅).insert name version)[name']? = _
    rw [Map.get_insert]
    by_cases hname : name = name'
    · simp [hname]
    · rw [if_neg hname, if_neg hname]
      cases placer.occupied[dir]? <;> simp
  · rw [Map.get_insert_of_ne _ _ hdir, if_neg fun h => hdir h.1]

theorem held_claim (placer : Placer) (owner owner' name name' version : Str) :
    (placer.claim (dirOf owner) name version).held owner' name' =
      if owner = owner' ∧ name = name' then some version else placer.held owner' name' := by
  unfold held
  rw [occupant_claim]
  by_cases howner : owner = owner'
  · simp [howner]
  · rw [if_neg fun h => howner (dirOf_inj h.1), if_neg fun h => howner h.1]

/-- What a scan ends with, in terms of what the dependent finds. -/
theorem scan_spec (placer : Placer) (name version : Str) (owners : List Str) :
    match scan placer name version (owners.map dirOf) with
    | .shared dir => ∃ owner ∈ owners, dir = dirOf owner ∧ placer.held owner name = some version ∧
        (owners.findSome? fun owner => placer.held owner name) = some version
    | .blocked => ∃ other, other ≠ version ∧
        (owners.findSome? fun owner => placer.held owner name) = some other
    | .free => ∀ owner ∈ owners, placer.held owner name = none := by
  induction owners with
  | nil => exact nofun
  | cons owner owners ih =>
    rw [List.map_cons, scan]
    cases hheld : placer.occupant (dirOf owner) name with
    | some occupied =>
      have hfirst : placer.held owner name = some occupied := hheld
      by_cases hsame : occupied = version
      · simp only [hsame, if_true]
        refine ⟨owner, List.mem_cons_self, rfl, hsame ▸ hfirst, ?_⟩
        rw [List.findSome?_cons, hfirst, hsame]
      · simp only [hsame, if_false]
        exact ⟨occupied, hsame, by rw [List.findSome?_cons, hfirst]⟩
    | none =>
      have hfirst : placer.held owner name = none := hheld
      simp only
      cases hscan : scan placer name version (owners.map dirOf) with
      | shared dir =>
        rw [hscan] at ih
        obtain ⟨found, hmem, hdir, hversion, hfind⟩ := ih
        refine ⟨found, List.mem_cons_of_mem _ hmem, hdir, hversion, ?_⟩
        rw [List.findSome?_cons, hfirst]
        exact hfind
      | blocked =>
        rw [hscan] at ih
        obtain ⟨other, hne, hfind⟩ := ih
        exact ⟨other, hne, by rw [List.findSome?_cons, hfirst]; exact hfind⟩
      | free =>
        rw [hscan] at ih
        exact List.forall_mem_cons.mpr ⟨hfirst, ih⟩

theorem lookupDirs_head (dependent : Str) : ∃ rest, lookupDirs dependent = dependent :: rest := by
  by_cases h : dependent = []
  · exact ⟨[], by simp [h, lookupDirs]⟩
  · exact ⟨enclosing (parentPath dependent) ++ [[]], by simp [lookupDirs, enclosing_of_ne_nil h]⟩

/-- What a placement can do: share the slot that is found, open one at the root, or open
one below the dependent. -/
theorem place_cases (placer : Placer) (name version : Str) (h : Dependent dependent) :
    (∃ owner ∈ lookupDirs dependent, placer.held owner name = some version ∧
        placer.found dependent name = some version ∧
        placer.place name version dependent = (childPath owner name, placer)) ∨
      ((∀ owner ∈ lookupDirs dependent, placer.held owner name = none) ∧
        placer.place name version dependent =
          (childPath [] name, placer.claim (dirOf []) name version)) ∨
      ∃ other, other ≠ version ∧ placer.found dependent name = some other ∧
        placer.place name version dependent =
          (childPath dependent name, placer.claim (dirOf dependent) name version) := by
  obtain ⟨rest, hrest⟩ := lookupDirs_head dependent
  have hroot : (chain dependent).getLastD [] = dirOf [] := by
    rw [chain_eq h, lookupDirs, List.map_append]
    simp
  have hown : (chain dependent).headD [] = dirOf dependent := by
    rw [chain_eq h, hrest]
    rfl
  have hspec := placer.scan_spec name version (lookupDirs dependent)
  unfold place
  rw [hroot, hown, chain_eq h]
  cases hscan : scan placer name version ((lookupDirs dependent).map dirOf) with
  | shared dir =>
    rw [hscan] at hspec
    obtain ⟨owner, hmem, rfl, hheld, hfind⟩ := hspec
    exact .inl ⟨owner, hmem, hheld, hfind, by simp only [dirOf_append]⟩
  | free =>
    rw [hscan] at hspec
    exact .inr (.inl ⟨hspec, by simp only [dirOf_append]⟩)
  | blocked =>
    rw [hscan] at hspec
    obtain ⟨other, hne, hfind⟩ := hspec
    exact .inr (.inr ⟨other, hne, hfind, by simp only [dirOf_append]⟩)

/-! ## What the others find -/

theorem enclosing_ne_nil {path slot : Str} (h : slot ∈ enclosing path) : slot ≠ [] := by
  induction hlength : path.length using Nat.strong_induction_on generalizing path with
  | _ n ih =>
    by_cases hpath : path = []
    · simp [hpath] at h
    · have hshorter := parentPath_length_lt hpath
      rw [enclosing_of_ne_nil hpath] at h
      rcases List.mem_cons.mp h with rfl | hin
      · exact hpath
      · exact ih _ (by omega) hin rfl

/-- The slots below the packages come before those of the root. -/
theorem found_eq (placer : Placer) (dependent name : Str) :
    placer.found dependent name =
      ((enclosing dependent).findSome? fun owner => placer.held owner name).or
        (placer.held [] name) := by
  rw [found, lookupDirs, List.findSome?_append]
  simp

theorem findSome_claim {owners : List Str} {owner : Str} {name' : Str}
    (h : name = name' → owner ∉ owners) :
    (owners.findSome? fun slot => (placer.claim (dirOf owner) name version).held slot name') =
      owners.findSome? fun slot => placer.held slot name' := by
  induction owners with
  | nil => rfl
  | cons first rest ih =>
    rw [List.findSome?_cons, List.findSome?_cons, held_claim, if_neg]
    · rw [ih fun hname hmem => h hname (List.mem_cons_of_mem _ hmem)]
    · rintro ⟨rfl, hname⟩
      exact h hname List.mem_cons_self

/-- A new slot concerns only the packages below its owner. -/
theorem found_claim_of_notMem {owner name' : Str} (h : name = name' → owner ∉ lookupDirs dependent) :
    (placer.claim (dirOf owner) name version).found dependent name' =
      placer.found dependent name' :=
  findSome_claim h

/-- A new slot of the root is behind everything that is found. -/
theorem found_claim_root {name' version' : Str} (hfree : placer.held [] name = none)
    (h : placer.found dependent name' = some version') :
    (placer.claim (dirOf []) name version).found dependent name' = some version' := by
  rw [found_eq] at h ⊢
  rw [findSome_claim fun _ hmem => enclosing_ne_nil hmem rfl, held_claim]
  by_cases hname : name = name'
  · subst hname
    rw [hfree, Option.or_none] at h
    rw [h]
    rfl
  · rw [if_neg fun heq => hname heq.2]
    exact h

/-- What was placed is found where it was placed. -/
theorem found_claim_self (placer : Placer) (name version dependent : Str) :
    (placer.claim (dirOf dependent) name version).found dependent name = some version := by
  obtain ⟨rest, hrest⟩ := lookupDirs_head dependent
  unfold found
  rw [hrest, List.findSome?_cons, held_claim, if_pos ⟨rfl, rfl⟩]

/-- What was placed at the root is found if nothing was found before. -/
theorem found_claim_free (h : ∀ owner ∈ lookupDirs dependent, placer.held owner name = none) :
    (placer.claim (dirOf []) name version).found dependent name = some version := by
  have hnone : ((enclosing dependent).findSome? fun owner => placer.held owner name) = none :=
    List.findSome?_eq_none_iff.mpr fun owner hmem => h owner (by simp [lookupDirs, hmem])
  rw [found_eq, findSome_claim fun _ hmem => enclosing_ne_nil hmem rfl, hnone, held_claim,
    if_pos ⟨rfl, rfl⟩]
  rfl

end Placer
end Bpm
