import Bpm.Install.StagedRuns
import Bpm.Lib.Overlay

/-!
# The staged tree and the batched one

A volume is built from the tree that the stager left behind, when that holds exactly the
units of the lockfile, and otherwise from one that is linked in waves, the outer packages
first.  The stager takes the units in the order in which their extractions complete.
-/

namespace Bpm

open Text FileTree Disk

/-- A store image, with a directory around everything in it. -/
structure StoreImage (β : Type) where
  tree : Disk β
  closed : Closed tree []
  root : tree[([] : Loc)]? = none

namespace VolumeStager

variable {β δ : Type}

/-! ## Trees at package paths -/

section

variable (maxLinks : Nat) (image : δ → StoreImage β)

def placed (unit : Str × δ) : Placed β where
  path := placeOf unit.1
  tree := (image unit.2).tree
  nonempty := placeOf_ne_nil unit.1
  closed := (image unit.2).closed
  root := (image unit.2).root

/-- Link the image of a unit below the staging directory, in place of what is there. -/
def reflinkTree (d : Disk β) (unit : Str × δ) : Option (Disk β) :=
  putPlaced maxLinks [] d (placed image unit)

/-- A new staging directory, with an empty `node_modules`. -/
def createStaging : Disk β := (∅ : Disk β).insert [nodeModules] .dir

def perform (d : Option (Disk β)) : StagingEffect δ → Option (Disk β)
  | .createStaging => some createStaging
  | .reflinkTree path id => d.bind fun d => reflinkTree maxLinks image d (path, id)
  | .removeStaging => none

/-- What the stager left in its staging directory. -/
def stagingTree (effects : List (StagingEffect δ)) : Option (Disk β) :=
  effects.foldl (perform maxLinks image) none

/-- The disk on which the images are linked. -/
def imageDisk (creates : Bool) : StagingDisk δ where
  creates := creates
  links effects unit :=
    (perform maxLinks image (stagingTree maxLinks image effects)
      (.reflinkTree unit.1 unit.2)).isSome

/-- How deep a placement is nested. -/
def nestingDepth (path : Str) : Nat := (path.splitOn '/').count nodeModules

/-- The orders in which the builder may link the units: wave after wave, in any order
within a wave, when there are workers for it, and else as they are listed. -/
inductive PassA (workers : Nat) (work : List (Str × δ)) : List (Str × δ) → Prop
  | byDepth {schedule : List (Str × δ)} (hworkers : 1 < workers) (hperm : schedule.Perm work)
      (hwaves : schedule.Pairwise fun a b => nestingDepth a.1 ≤ nestingDepth b.1) :
      PassA workers work schedule
  | serial (hworkers : workers ≤ 1) : PassA workers work work

/-- The batched build. -/
def materialize (schedule : List (Str × δ)) : Option (Disk β) :=
  schedule.foldlM (reflinkTree maxLinks image) createStaging

/-- The paths and artifacts of the lockfile's units. -/
def expected (work : List (Str × δ)) : Map δ := Std.ExtTreeMap.ofList work

/-- The package trees of a volume: those of the stager if what it linked is what was
expected, and its `node_modules` is there. -/
def packageTrees [DecidableEq δ] (staged : VolumeStager δ × Option (Map δ))
    (work schedule : List (Str × δ)) : Option (Disk β) :=
  let tree := stagingTree maxLinks image staged.1.effects
  if staged.2 = some (expected work) ∧ (tree.map (isDir · [nodeModules])) = some true then tree
  else materialize maxLinks image schedule

end

/-! ## The two trees -/

section

variable (maxLinks : Nat) (image : δ → StoreImage β)

/-- The units of a lockfile, put at their places. -/
def placements (work : List (Str × δ)) : Set (Placed β) := fun p => ∃ u ∈ work, p = placed image u

theorem stagingTree_linked (linked : List (Str × δ)) :
    stagingTree maxLinks image
        (.createStaging :: linked.map fun u => .reflinkTree u.1 u.2) =
      materialize maxLinks image linked := by
  have hfold : ∀ d : Option (Disk β),
      (linked.map fun u => StagingEffect.reflinkTree u.1 u.2).foldl (perform maxLinks image) d =
        d.bind fun d => linked.foldlM (reflinkTree maxLinks image) d := by
    induction linked with
    | nil =>
      intro d
      cases d <;> rfl
    | cons u linked ih =>
      intro d
      rw [List.map_cons, List.foldl_cons, ih]
      cases d with
      | none => rfl
      | some d => rfl
  exact hfold (some createStaging)

theorem sound_createStaging (all : Set (Placed β)) :
    Sound all [] ∅ (createStaging : Disk β) where
  dir := rfl
  closed := by
    intro name loc _ hget
    rw [createStaging, get_insert] at hget
    split at hget
    · rename_i heq
      cases heq
      rfl
    · simp at hget
  down := by simp
  links := by
    intro q _ loc target _ hget
    rw [createStaging, get_insert] at hget
    split at hget
    · cases hget
    · simp at hget

variable {work l : List (Str × δ)}

theorem placed_inj {u v : Str × δ} (hpaths : (work.map Prod.fst).Nodup) (hu : u ∈ work)
    (hv : v ∈ work) (h : placeOf u.1 = placeOf v.1) : u = v :=
  List.inj_on_of_nodup_map hpaths hu hv (placeOf_inj h)

theorem distinct_placements (hpaths : (work.map Prod.fst).Nodup) :
    DistinctPaths (placements image work) := by
  rintro p ⟨u, hu, rfl⟩ q ⟨v, hv, rfl⟩ h
  rw [placed_inj hpaths hu hv h]

/-- An order of the units in which none comes before one around it. -/
theorem pending_of_order (hpaths : (work.map Prod.fst).Nodup) (hperm : l.Perm work)
    (horder : l.Pairwise fun a b => ¬Outer (placed image b) (placed image a)) :
    Folds.Pending Outer (placements image work) ∅ (l.map (placed image)) where
  nodup := by
    have hnodup := hperm.nodup_iff.mpr hpaths.of_map
    refine List.Nodup.map_on ?_ hnodup
    intro u hu v hv h
    exact placed_inj hpaths (hperm.mem_iff.mp hu) (hperm.mem_iff.mp hv) (congrArg Placed.path h)
  inside := by
    intro p hp
    obtain ⟨u, hu, rfl⟩ := List.mem_map.mp hp
    exact ⟨⟨u, hperm.mem_iff.mp hu, rfl⟩, Set.notMem_empty _⟩
  cover := by
    rintro p ⟨u, hu, rfl⟩
    exact .inr (List.mem_map_of_mem (hperm.mem_iff.mpr hu))
  respects := List.pairwise_map.mpr horder

/-- Outer packages are nested less deep. -/
theorem depth_of_outer {a b : Str × δ} (ha : Rooted a.1) (hb : Rooted b.1)
    (h : Outer (placed image a) (placed image b)) : nestingDepth a.1 < nestingDepth b.1 := by
  obtain ⟨haround, hne⟩ := h
  obtain ⟨_, names, hnames, hparts⟩ := ha
  obtain ⟨_, names', hnames', hparts'⟩ := hb
  have hprefix := placeOf_suffix.mp haround
  rw [hparts, hparts'] at hprefix
  obtain ⟨post, rfl⟩ := names_of_prefix hnames hnames' hprefix
  have hpost : post ≠ [] := by
    rintro rfl
    rw [List.append_nil] at hparts'
    exact hne (congrArg List.reverse (hparts.trans hparts'.symm))
  obtain ⟨name, post, rfl⟩ := List.exists_cons_of_ne_nil hpost
  unfold nestingDepth
  rw [hparts, hparts', List.flatMap_append, List.count_append, List.flatMap_cons,
    List.count_append, List.count_cons_self]
  omega

theorem intercalate_prefix {parts parts' : List Str} (h : parts <+: parts') :
    ['/'].intercalate parts <+: ['/'].intercalate parts' := by
  induction parts generalizing parts' with
  | nil => exact List.nil_prefix
  | cons part parts ih =>
    obtain ⟨rest, rfl⟩ := h
    cases parts with
    | nil =>
      cases rest with
      | nil => exact List.prefix_rfl
      | cons next rest => simp
    | cons next parts =>
      have htail := ih (List.prefix_append (next :: parts) rest)
      simpa using htail

/-- Outer packages have the smaller path. -/
theorem not_lt_of_outer {a b : Str × δ} (h : Outer (placed image a) (placed image b)) :
    ¬b.1 < a.1 := by
  have hprefix := intercalate_prefix (placeOf_suffix.mp h.1)
  rw [List.intercalate_splitOn, List.intercalate_splitOn] at hprefix
  exact List.IsPrefix.le hprefix

theorem PassA.order {workers : Nat} {schedule : List (Str × δ)} (h : PassA workers work schedule)
    (hsorted : work.Pairwise fun a b => a.1 < b.1) (hrooted : ∀ u ∈ work, Rooted u.1) :
    schedule.Perm work ∧
      schedule.Pairwise fun a b => ¬Outer (placed image b) (placed image a) := by
  cases h with
  | byDepth hworkers hperm hwaves =>
    apply And.intro hperm
    refine List.Pairwise.imp_of_mem ?_ hwaves
    intro a b ha hb hdepth houter
    have hless := depth_of_outer image (hrooted b (hperm.mem_iff.mp hb)) (hrooted a (hperm.mem_iff.mp ha))
      houter
    omega
  | serial hworkers =>
    apply And.intro (List.Perm.refl _)
    refine hsorted.imp ?_
    intro a b hlt houter
    exact not_lt_of_outer image houter hlt

theorem Gated.outer (h : Gated l) (hrooted : ∀ u ∈ l, Rooted u.1) :
    l.Pairwise fun a b => ¬Outer (placed image b) (placed image a) := by
  refine List.Pairwise.imp_of_mem ?_ h.order
  intro a b ha hb hnot houter
  apply hnot
  apply (hrooted b hb).mem_ancestors (hrooted a ha) houter.1
  intro heq
  exact houter.2 (congrArg placeOf heq)

/-- Whatever the stager did, the volume gets the package trees of a batched build. -/
theorem packageTrees_eq [DecidableEq δ] (creates : Bool) {workers : Nat}
    {told : List (Str × δ × Bool)} {schedule : List (Str × δ)}
    (htold : (told.map Prod.fst).Nodup) (hsorted : work.Pairwise fun a b => a.1 < b.1)
    (hrooted : ∀ u ∈ work, Rooted u.1)
    (haround : ∀ u ∈ work, ∀ path ∈ ancestorPackagePaths u.1, path ∈ work.map Prod.fst)
    (hlinks : Unobstructed (placements image work)) (hschedule : PassA workers work schedule) :
    packageTrees maxLinks image (run (imageDisk maxLinks image creates) told) work schedule =
      materialize maxLinks image schedule := by
  unfold packageTrees
  simp only
  split
  · rename_i husable
    obtain ⟨linked, hperm, hpackages, heffects, hgated⟩ := run_linked _ htold husable.1
    have hpaths : (work.map Prod.fst).Nodup :=
      List.pairwise_map.mpr (hsorted.imp fun hlt => ne_of_lt hlt)
    have hlinkedPaths : (linked.map Prod.fst).Nodup := by
      have hmap := hperm.map Prod.fst
      rw [List.map_map] at hmap
      exact hmap.nodup_iff.mpr htold
    have hmem : ∀ u, u ∈ linked ↔ u ∈ work := by
      intro u
      rw [expected, ← Std.ExtTreeMap.ofList_eq_foldl] at hpackages
      rw [← Map.get_ofList hlinkedPaths (k := u.1) (v := u.2), ← hpackages, Map.get_ofList hpaths]
    have hwork : linked.Perm work :=
      (List.perm_ext_iff_of_nodup hlinkedPaths.of_map hpaths.of_map).mpr hmem
    have hrootedl : ∀ u ∈ linked, Rooted u.1 := fun u hu => hrooted u ((hmem u).mp hu)
    have hgated := hgated hrootedl fun u hu path hpath =>
      ((hwork.map Prod.fst).mem_iff).mpr (haround u ((hmem u).mp hu) path hpath)
    obtain ⟨hsperm, hsorder⟩ := hschedule.order image hsorted hrooted
    have hfold := Folds.foldlM_perm
      (independent maxLinks [] hlinks (distinct_placements image hpaths))
      ((hwork.trans hsperm.symm).map (placed image))
      (pending_of_order image hpaths hwork (hgated.outer image hrootedl))
      (pending_of_order image hpaths hsperm hsorder) (sound_createStaging _)
    rw [List.foldlM_map, List.foldlM_map] at hfold
    rw [heffects, stagingTree_linked]
    exact hfold
  · rfl

/-- An image of one file. -/
def oneFile (name : Str) (content : β) : StoreImage β where
  tree := (∅ : Disk β).insert [name] (.file content)
  closed := by
    intro other loc _ hget
    rw [get_insert] at hget
    split at hget
    · rename_i heq
      cases heq
      rfl
    · simp at hget
  root := by simp

theorem oneFile_no_link {name : Str} {content : β} {rel : Loc} {target : Str} :
    (oneFile name content).tree[rel]? ≠ some (.link target) := by
  rw [oneFile, get_insert]
  split
  · simp
  · simp

/-- A package and one in it; the inner one is told first and waits. -/
theorem packageTrees_eq_nested :
    let a : Str × Nat := (lit "node_modules/a", 1)
    let b : Str × Nat := (lit "node_modules/a/node_modules/@s/b", 2)
    let told := run (imageDisk 0 (oneFile (lit "package.json")) true)
      [(b.1, b.2, true), (a.1, a.2, false)]
    told.2 = some (expected [a, b]) ∧
      packageTrees 0 (oneFile (lit "package.json")) told [a, b] [a, b] =
        materialize 0 (oneFile (lit "package.json")) [a, b] := by
  intro a b told
  have ha : Rooted a.1 := ⟨by decide +kernel, [[lit "a"]], by
    simpa using PackageName.plain (lit "a") (by decide), by decide +kernel⟩
  have hb : Rooted b.1 := ⟨by decide +kernel, [[lit "a"], [lit "@s", lit "b"]], by
    simpa using And.intro (PackageName.plain (lit "a") (by decide))
      (PackageName.inScope (lit "@s") (lit "b") (by decide)), by decide +kernel⟩
  apply And.intro (by decide +kernel)
  apply packageTrees_eq 0 (oneFile (lit "package.json")) true (by decide) (by decide)
  · simpa using And.intro ha hb
  · decide +kernel
  · rintro p ⟨u, _, rfl⟩ q _ rel target hlink
    exact absurd hlink oneFile_no_link
  · exact PassA.serial (Nat.le_refl 1)

/-! ## Where the order shows -/

end

end VolumeStager

end Bpm
