import Bpm.Lib.Overlay

/-!
# Snapshots of package trees

The derived store keeps what the scripts of a package leave in its directory, without
the `node_modules` at its top, and puts it over a pristine entry of a volume when the
package is installed again.  Both ways a tree is mirrored entry by entry, in whatever
order the directories are listed.
-/

namespace Bpm
namespace PackageTree

open FileTree Disk Text

variable {β : Type}

def nodeModules : Str := lit "node_modules"

/-- No location of the disk is longer. -/
def height (d : Disk β) : Nat := (d.keys.map List.length).foldr max 0 + 1

/-- `create_dir_all`, at a location without links on the way. -/
def createDirs (d : Disk β) : Loc → Option (Disk β)
  | [] => some d
  | name :: parent =>
      match d[name :: parent]? with
      | some .dir => some d
      | some _ => none
      | none => (createDirs d parent).map fun d => d.insert (name :: parent) .dir

section Mirror

variable (order : List Str → List Str)

/-- The names in a directory, in the order of the file system. -/
def readDir (d : Disk β) (loc : Loc) : Option (List Str) :=
  if isDir d loc then some (order (names d loc)) else none

/-- Put a copy of `src` in the place of `dst`; the kind of `src` was read before. -/
def mirrorEntry (mirror : Disk β → Loc → Loc → Option (Disk β)) (d : Disk β) (src dst : Loc) :
    Option (Disk β) :=
  match d[src]? with
  | none => none
  | some .dir => mirror (d.remove dst) src dst
  | some object => some ((d.remove dst).insert dst object)

/-- The names that are mirrored. -/
def mirrored (skipTopNodeModules : Bool) (names : List Str) : List Str :=
  names.filter fun name => !(skipTopNodeModules && name == nodeModules)

def mirrorTree : Nat → Bool → Disk β → Loc → Loc → Option (Disk β)
  | 0, _, _, _, _ => none
  | fuel + 1, skipTopNodeModules, d, src, dst => do
      let d ← createDirs d dst
      let names ← readDir order d src
      (mirrored skipTopNodeModules names).foldlM
        (fun d name => mirrorEntry (mirrorTree fuel false) d (name :: src) (name :: dst)) d

def removeNames (d : Disk β) (loc : Loc) (names : List Str) : Disk β :=
  names.foldl (fun d name => d.remove (name :: loc)) d

def clearDirContents (d : Disk β) (dir : Loc) : Option (Disk β) :=
  (readDir order d dir).map (removeNames d dir)

def snapshotPkgTree (d : Disk β) (builtEntry stagingImage : Loc) : Option (Disk β) := do
  let d ← clearDirContents order d stagingImage
  mirrorTree order (height d) true d builtEntry stagingImage

def attachDerived (d : Disk β) (derivedImage volEntry : Loc) : Option (Disk β) := do
  let names ← readDir order d volEntry
  let d := removeNames d volEntry (names.filter fun name => !(name == nodeModules))
  mirrorTree order (height d) false d derivedImage volEntry

end Mirror

/-! ## Lists of names -/

section Names

variable {d : Disk β} {loc key : Loc} {name : Str}

theorem mem_names : name ∈ names d loc ↔ d[name :: loc]? ≠ none := by
  rw [names, List.mem_mergeSort, List.mem_filterMap]
  constructor
  · rintro ⟨key, hkey, hname⟩
    cases key with
    | nil => cases hname
    | cons first parent =>
      simp only [Option.ite_none_right_eq_some, Option.some.injEq] at hname
      obtain ⟨rfl, rfl⟩ := hname
      rw [Std.ExtTreeMap.mem_keys] at hkey
      simpa using hkey
  · intro h
    refine ⟨name :: loc, ?_, by simp⟩
    rw [Std.ExtTreeMap.mem_keys]
    simpa using h

theorem names_nodup (d : Disk β) (loc : Loc) : (names d loc).Nodup := by
  have hkeys : d.keys.Nodup := by
    apply d.distinct_keys.imp
    intro a b hne heq
    exact hne (heq ▸ Std.ReflCmp.compare_self)
  apply (List.mergeSort_perm _ _).nodup_iff.mpr
  apply hkeys.filterMap
  intro a b name ha hb
  cases a with
  | nil => cases ha
  | cons first parent =>
    cases b with
    | nil => cases hb
    | cons first' parent' =>
      simp only [Option.mem_def, Option.ite_none_right_eq_some, Option.some.injEq] at ha hb
      rw [ha.1, ha.2, hb.1, hb.2]

theorem length_lt_height {object : Object β} (h : d[key]? = some object) :
    key.length < height d := by
  have hmem : key.length ∈ d.keys.map List.length := by
    refine List.mem_map_of_mem ?_
    rw [Std.ExtTreeMap.mem_keys]
    exact Std.ExtTreeMap.mem_iff_isSome_getElem?.mpr (by rw [h]; rfl)
  unfold height
  exact Nat.lt_succ_of_le (List.le_max_of_le hmem le_rfl)

theorem get_removeNames (d : Disk β) (loc key : Loc) (names : List Str) :
    (removeNames d loc names)[key]? =
      if ∃ name ∈ names, name :: loc <:+ key then none else d[key]? := by
  unfold removeNames
  induction names generalizing d with
  | nil => simp
  | cons name rest ih =>
    rw [List.foldl_cons, ih, get_remove]
    by_cases hfirst : name :: loc <:+ key
    · simp [hfirst]
    · simp [hfirst]

end Names

section Copies

variable {d d' d₀ : Disk β} {src dst loc key rel : Loc} {listed : List Str}

/-- Nothing lies below what is not a directory. -/
theorem none_below_leaf (hclosed : Closed d loc) (hleaf : ¬isDir d loc) (hrel : rel ≠ []) :
    d[rel ++ loc]? = none := by
  induction rel with
  | nil => exact absurd rfl hrel
  | cons name parent ih =>
    by_contra hget
    have hdir := hclosed name (parent ++ loc) (List.suffix_append parent loc) hget
    cases parent with
    | nil => exact hleaf hdir
    | cons first rest =>
      have hnone := ih (by simp)
      unfold isDir at hdir
      rw [hnone] at hdir
      simp at hdir

theorem Closed.below (h : Closed d src) (hloc : src <:+ loc) : Closed d loc :=
  fun name key hkey => h name key (hloc.trans hkey)

/-- What is below `src` is the same on both disks. -/
def Agree (src : Loc) (d d' : Disk β) : Prop := ∀ key, src <:+ key → d'[key]? = d[key]?

theorem Agree.isDir_iff (h : Agree src d d') (hloc : src <:+ loc) :
    isDir d' loc = isDir d loc := by
  unfold isDir
  rw [h loc hloc]

theorem Agree.closed (h : Agree src d d') (hclosed : Closed d src) : Closed d' src := by
  intro name loc hloc hget
  rw [h _ (hloc.trans (List.suffix_cons name loc))] at hget
  rw [h.isDir_iff hloc]
  exact hclosed name loc hloc hget

theorem apart_cons {name : Str} (h : Apart src dst) : Apart (name :: src) (name :: dst) := by
  have hside : ∀ {p q : Loc}, ¬p <:+ q → ¬name :: p <:+ name :: q := by
    intro p q hpq hsuffix
    rcases List.suffix_cons_iff.mp hsuffix with heq | hsuffix
    · exact hpq ((List.cons.inj heq).2 ▸ List.suffix_rfl)
    · exact hpq ((List.suffix_cons name p).trans hsuffix)
  exact ⟨hside h.1, hside h.2⟩

theorem below_ne (rel : Loc) (name : Str) : rel ++ name :: loc ≠ loc := by
  intro heq
  have hlength := congrArg List.length heq
  simp only [List.length_append, List.length_cons] at hlength
  omega

/-- A location below `src` is not below what is apart from it. -/
theorem not_below_of_apart (h : Apart src dst) (hkey : src <:+ key) : ¬dst <:+ key := by
  intro hdst
  rcases List.suffix_or_suffix_of_suffix hkey hdst with hsuffix | hsuffix
  · exact h.1 hsuffix
  · exact h.2 hsuffix

/-- The entries `listed` are copied from `src` to `dst`, and nothing else changes. -/
structure Copied (src dst : Loc) (listed : List Str) (d d' : Disk β) : Prop where
  outside : ∀ key, (∀ name ∈ listed, ¬name :: dst <:+ key) → d'[key]? = d[key]?
  inside : ∀ name ∈ listed, ∀ rel, d'[rel ++ name :: dst]? = d[rel ++ name :: src]?

theorem Copied.agree (h : Copied src dst listed d d') (hapart : Apart src dst) :
    Agree src d d' := by
  intro key hkey
  refine h.outside key fun name _ hsuffix => ?_
  exact not_below_of_apart hapart hkey ((List.suffix_cons name dst).trans hsuffix)

theorem Copied.isDir_dst (h : Copied src dst listed d d') : isDir d' dst = isDir d dst := by
  have hget : d'[dst]? = d[dst]? := h.outside dst fun name _ hsuffix => by
    have := hsuffix.length_le
    simp at this
  unfold isDir
  rw [hget]

/-- Entry after entry. -/
theorem copied_foldlM (hapart : Apart src dst) {step : Disk β → Str → Option (Disk β)}
    (hstep : ∀ d, Agree src d₀ d → isDir d dst → ∀ name ∈ listed,
      ∃ d', step d name = some d' ∧ Copied src dst [name] d d')
    (hagree : Agree src d₀ d) (hdst : isDir d dst) :
    ∃ d', listed.foldlM step d = some d' ∧ Copied src dst listed d d' := by
  induction listed generalizing d with
  | nil => exact ⟨d, rfl, fun _ _ => rfl, nofun⟩
  | cons name rest ih =>
    obtain ⟨d₁, hfirst, hcopied⟩ := hstep d hagree hdst name List.mem_cons_self
    have hagree₁ : Agree src d₀ d₁ := fun key hkey =>
      (hcopied.agree hapart key hkey).trans (hagree key hkey)
    obtain ⟨d', hrest, hcopied'⟩ := ih
      (fun d ha hd other hother => hstep d ha hd other (List.mem_cons_of_mem name hother))
      hagree₁ (hcopied.isDir_dst.trans hdst)
    refine ⟨d', ?_, fun key hkey => ?_, fun other hother rel => ?_⟩
    · rw [List.foldlM_cons, hfirst]
      exact hrest
    · rw [hcopied'.outside key fun other hother => hkey other (List.mem_cons_of_mem name hother)]
      refine hcopied.outside key fun other hother => ?_
      obtain rfl := List.mem_singleton.mp hother
      exact hkey other List.mem_cons_self
    · by_cases hmem : other ∈ rest
      · rw [hcopied'.inside other hmem]
        refine hcopied.agree hapart _ ?_
        exact (List.suffix_cons other src).trans (List.suffix_append rel _)
      · have hfirst' : other = name := by
          rcases List.mem_cons.mp hother with heq | hrest
          · exact heq
          · exact absurd hrest hmem
        subst hfirst'
        rw [hcopied'.outside _ fun third hthird hsuffix => ?_]
        · exact hcopied.inside other List.mem_cons_self rel
        · have hbelow : other :: dst <:+ rel ++ other :: dst := List.suffix_append rel _
          have heq := List.suffix_of_suffix_length_le hsuffix hbelow (by simp)
          have hsame := heq.eq_of_length (by simp)
          exact hmem ((List.cons.inj hsame).1 ▸ hthird)

/-- Where a tree is mirrored to: a directory, or nothing in a directory. -/
def Ready (d : Disk β) (dst : Loc) : Prop :=
  isDir d dst ∨ d[dst]? = none ∧ dst ≠ [] ∧ isDir d dst.tail

theorem createDirs_of_ready (h : Ready d dst) :
    ∃ d', createDirs d dst = some d' ∧ isDir d' dst ∧
      ∀ key, key ≠ dst → d'[key]? = d[key]? := by
  have hdir : ∀ {loc : Loc}, isDir d loc → createDirs d loc = some d := by
    intro loc hloc
    cases loc with
    | nil => rfl
    | cons name parent =>
      have hget : d[name :: parent]? = some .dir := by
        unfold isDir at hloc
        simp only [List.isEmpty_cons, Bool.false_or] at hloc
        split at hloc
        · assumption
        · cases hloc
      rw [createDirs, hget]
  rcases h with hloc | ⟨hnone, hne, hparent⟩
  · exact ⟨d, hdir hloc, hloc, fun _ _ => rfl⟩
  · cases dst with
    | nil => exact absurd rfl hne
    | cons name parent =>
      refine ⟨d.insert (name :: parent) .dir, ?_, ?_, fun key hkey => ?_⟩
      · rw [createDirs, hnone]
        simp only [List.tail_cons] at hparent
        rw [hdir hparent]
        rfl
      · exact isDir_of_get (by rw [get_insert, if_pos rfl])
      · rw [get_insert, if_neg (Ne.symm hkey)]

theorem isDir_eq_some (hdir : isDir d loc) (hne : loc ≠ []) : d[loc]? = some .dir := by
  unfold isDir at hdir
  rw [List.isEmpty_eq_false_iff.mpr hne, Bool.false_or] at hdir
  split at hdir
  · assumption
  · cases hdir

variable {order : List Str → List Str}

/-- What mirroring a tree promises. -/
def Mirrors (mirror : Disk β → Loc → Loc → Option (Disk β)) (skip : Bool) (fuel : Nat) : Prop :=
  ∀ (d : Disk β) (src dst : Loc), isDir d src → Closed d src → Apart src dst → Ready d dst →
    (∀ rel, d[rel ++ src]? ≠ none → rel.length < fuel) →
    ∃ d₀ d', (∀ key, key ≠ dst → d₀[key]? = d[key]?) ∧ mirror d src dst = some d' ∧
      isDir d' dst ∧ Copied src dst (mirrored skip (names d src)) d₀ d'

theorem mem_mirrored_false {name : Str} :
    name ∈ mirrored false listed ↔ name ∈ listed := by
  simp [mirrored]

/-- One entry is in place of another: the entries below it are copied, or there are none. -/
theorem copied_entry {name : Str} (hclosed : Closed d src) (hout : ∀ key, ¬name :: dst <:+ key →
      d'[key]? = d[key]?) (hself : d'[name :: dst]? = d[name :: src]?)
    (hinside : ∀ inner rel, d[inner :: name :: src]? ≠ none →
      d'[rel ++ inner :: name :: dst]? = d[rel ++ inner :: name :: src]?)
    (hnone : ∀ inner rel, d[inner :: name :: src]? = none →
      d'[rel ++ inner :: name :: dst]? = none) : Copied src dst [name] d d' := by
  refine ⟨fun key hkey => hout key (hkey name List.mem_cons_self), fun other hother rel => ?_⟩
  obtain rfl := List.mem_singleton.mp hother
  rcases List.eq_nil_or_concat' rel with rfl | ⟨outer, inner, rfl⟩
  · exact hself
  · rw [List.append_assoc, List.append_assoc]
    by_cases hinner : d[inner :: other :: src]? = none
    · have hbelow : src <:+ inner :: other :: src :=
        (List.suffix_cons other src).trans (List.suffix_cons inner _)
      have hne : inner :: other :: src ≠ src := below_ne [inner] other
      have hempty := Closed.none_below hclosed hbelow hne hinner
        (List.suffix_append outer (inner :: other :: src))
      exact (hnone inner outer hinner).trans hempty.symm
    · exact hinside inner outer hinner

/-- A copy of one entry, given copies of the directories in it. -/
theorem mirrorEntry_copied {mirror : Disk β → Loc → Loc → Option (Disk β)} {fuel : Nat}
    {name : Str} (hmirror : Mirrors mirror false fuel) (hclosed : Closed d src)
    (hapart : Apart src dst) (hdst : isDir d dst) (hname : d[name :: src]? ≠ none)
    (hfuel : ∀ rel, d[rel ++ src]? ≠ none → rel.length < fuel + 1) :
    ∃ d', mirrorEntry mirror d (name :: src) (name :: dst) = some d' ∧
      Copied src dst [name] d d' := by
  have hbelow : src <:+ name :: src := List.suffix_cons name src
  have happarts : Apart (name :: src) (name :: dst) := apart_cons hapart
  have hkeep : Agree (name :: src) d (d.remove (name :: dst)) := by
    intro key hkey
    rw [get_remove, if_neg (not_below_of_apart happarts hkey)]
  -- the old entry is gone, with everything below it
  have hgone : ∀ key, name :: dst <:+ key → (d.remove (name :: dst))[key]? = none := by
    intro key hkey
    rw [get_remove, if_pos hkey]
  by_cases hdir : d[name :: src]? = some .dir
  · have hsource : isDir d (name :: src) := isDir_of_get hdir
    have hready : Ready (d.remove (name :: dst)) (name :: dst) := by
      refine Or.inr ⟨hgone _ List.suffix_rfl, by simp, ?_⟩
      unfold isDir at hdst ⊢
      rwa [List.tail_cons, get_remove, if_neg fun hsuffix => by simpa using hsuffix.length_le]
    have hshort : ∀ rel, (d.remove (name :: dst))[rel ++ name :: src]? ≠ none →
        rel.length < fuel := by
      intro rel hget
      rw [hkeep _ (List.suffix_append rel _)] at hget
      have hlength := hfuel (rel ++ [name]) (by simpa using hget)
      rw [List.length_append, List.length_singleton] at hlength
      omega
    obtain ⟨d₀, d', hbefore, hrun, hdir', hcopied⟩ := hmirror (d.remove (name :: dst))
      (name :: src) (name :: dst)
      ((hkeep.isDir_iff List.suffix_rfl).trans hsource)
      (hkeep.closed (Closed.below hclosed hbelow)) happarts hready hshort
    refine ⟨d', ?_, copied_entry hclosed (fun key hkey => ?_) ?_ (fun inner rel hinner => ?_)
      fun inner rel hinner => ?_⟩
    · rw [mirrorEntry, hdir]
      exact hrun
    · rw [hcopied.outside key fun inner _ hinner =>
          hkey ((List.suffix_cons inner _).trans hinner),
        hbefore key fun heq => hkey (heq ▸ List.suffix_rfl), get_remove, if_neg hkey]
    · rw [hdir, isDir_eq_some hdir' (by simp)]
    · have hsuffix : name :: src <:+ rel ++ inner :: name :: src :=
        (List.suffix_cons inner _).trans (List.suffix_append rel _)
      have hlisted : inner ∈ mirrored false (names (d.remove (name :: dst)) (name :: src)) := by
        rw [mem_mirrored_false, mem_names, hkeep _ (List.suffix_cons inner _)]
        exact hinner
      rw [hcopied.inside inner hlisted rel, hbefore _ fun heq => ?_, hkeep _ hsuffix]
      exact not_below_of_apart happarts hsuffix (heq ▸ List.suffix_rfl)
    · rw [hcopied.outside _ fun other hother hsuffix => ?_, hbefore _ (below_ne rel inner), hgone]
      · exact (List.suffix_cons inner _).trans (List.suffix_append rel _)
      · rw [mem_mirrored_false, mem_names, hkeep _ (List.suffix_cons other _)] at hother
        have hsame := (List.suffix_of_suffix_length_le hsuffix
          (List.suffix_append rel (inner :: name :: dst)) (by simp)).eq_of_length (by simp)
        rw [(List.cons.inj hsame).1] at hother
        exact hother hinner
  · obtain ⟨object, hobject⟩ := Option.ne_none_iff_exists'.mp hname
    have hleaf : ¬isDir d (name :: src) := fun h => hdir (isDir_eq_some h (by simp))
    have hchildless : ∀ inner, d[[inner] ++ name :: src]? = none := fun inner =>
      none_below_leaf (Closed.below hclosed hbelow) hleaf (by simp)
    refine ⟨(d.remove (name :: dst)).insert (name :: dst) object, ?_,
      copied_entry hclosed (fun key hkey => ?_) ?_ (fun inner rel hinner => ?_)
      fun inner rel _ => ?_⟩
    · rw [mirrorEntry, hobject]
      cases object with
      | dir => exact absurd hobject hdir
      | file content => rfl
      | link target => rfl
    · have hne : name :: dst ≠ key := fun heq => hkey (heq ▸ List.suffix_rfl)
      rw [get_insert, if_neg hne, get_remove, if_neg hkey]
    · rw [get_insert, if_pos rfl, hobject]
    · exact absurd (hchildless inner) hinner
    · have hsuffix : name :: dst <:+ rel ++ inner :: name :: dst :=
        (List.suffix_cons inner _).trans (List.suffix_append rel _)
      rw [get_insert, if_neg (Ne.symm (below_ne rel inner)), hgone _ hsuffix]

theorem Copied.congr {listed' : List Str} (h : Copied src dst listed d d')
    (hsame : ∀ name, name ∈ listed ↔ name ∈ listed') : Copied src dst listed' d d' :=
  ⟨fun key hkey => h.outside key fun name hname => hkey name ((hsame name).mp hname),
    fun name hname => h.inside name ((hsame name).mpr hname)⟩

theorem mem_mirrored {skip : Bool} {name : Str} :
    name ∈ mirrored skip listed ↔ name ∈ listed ∧ (skip = true → name ≠ nodeModules) := by
  cases skip <;> simp [mirrored]

/-- With as much fuel as the tree is high, the tree is mirrored. -/
theorem mirrorTree_mirrors (horder : ∀ l, (order l).Perm l) (fuel : Nat) (skip : Bool) :
    Mirrors (mirrorTree (β := β) order fuel skip) skip fuel := by
  induction fuel generalizing skip with
  | zero =>
    intro d src dst hsrc _ hapart _ hfuel
    have hne : src ≠ [] := fun hnil => hapart.1 (hnil ▸ List.nil_suffix)
    have hself := isDir_eq_some hsrc hne
    exact absurd (hfuel [] (by rw [List.nil_append, hself]; nofun)) (Nat.not_lt_zero _)
  | succ fuel ih =>
    intro d src dst hsrc hclosed hapart hready hfuel
    obtain ⟨d₀, hmade, hdst, hrest⟩ := createDirs_of_ready hready
    have hagree : Agree src d d₀ := fun key hkey =>
      hrest key fun heq => not_below_of_apart hapart hkey (heq ▸ List.suffix_rfl)
    have hlisted : ∀ name, name ∈ order (names d₀ src) ↔ name ∈ names d src := by
      intro name
      rw [(horder _).mem_iff, mem_names, mem_names, hagree _ (List.suffix_cons name src)]
    have hstep : ∀ d₁, Agree src d d₁ → isDir d₁ dst →
        ∀ name ∈ mirrored skip (order (names d₀ src)), ∃ d₂,
          mirrorEntry (mirrorTree order fuel false) d₁ (name :: src) (name :: dst) = some d₂ ∧
            Copied src dst [name] d₁ d₂ := by
      intro d₁ hagree₁ hdst₁ name hname
      have hmem := mem_names.mp ((hlisted name).mp (mem_mirrored.mp hname).1)
      refine mirrorEntry_copied (ih false) (hagree₁.closed hclosed) hapart hdst₁ ?_
        fun rel hrel => ?_
      · rwa [hagree₁ _ (List.suffix_cons name src)]
      · rw [hagree₁ _ (List.suffix_append rel src)] at hrel
        exact hfuel rel hrel
    obtain ⟨d', hfold, hcopied⟩ := copied_foldlM hapart hstep hagree hdst
    refine ⟨d₀, d', hrest, ?_, hcopied.isDir_dst.trans hdst, hcopied.congr fun name => ?_⟩
    · rw [mirrorTree, hmade]
      simp only [Option.bind_eq_bind, Option.bind_some, readDir]
      rw [if_pos ((hagree.isDir_iff List.suffix_rfl).trans hsrc), Option.bind_some]
      exact hfold
    · rw [mem_mirrored, mem_mirrored, hlisted]

end Copies

/-! ## Snapshot and attach -/

section Attach

variable {order : List Str → List Str} {d d' : Disk β} {src dst rel : Loc}

/-- The path leads into the `node_modules` at the top of a tree. -/
def InNodeModules (rel : Loc) : Prop := rel.getLast? = some nodeModules

instance : Decidable (InNodeModules rel) :=
  inferInstanceAs (Decidable (rel.getLast? = some nodeModules))

@[simp] theorem inNodeModules_concat {name : Str} {outer : Loc} :
    InNodeModules (outer ++ [name]) ↔ name = nodeModules := by
  simp [InNodeModules]

/-- A tree mirrored into a directory is copied. -/
theorem mirrorTree_copied (horder : ∀ l, (order l).Perm l) (hsrc : isDir d src)
    (hclosed : Closed d src) (hdst : isDir d dst) (hapart : Apart src dst) (skip : Bool) :
    ∃ d', mirrorTree order (height d) skip d src dst = some d' ∧
      Copied src dst (mirrored skip (names d src)) d d' := by
  obtain ⟨d₀, d', hrest, hrun, hdst', hcopied⟩ :=
    mirrorTree_mirrors horder (height d) skip d src dst hsrc hclosed hapart (Or.inl hdst)
      fun rel hrel => by
        obtain ⟨object, hobject⟩ := Option.ne_none_iff_exists'.mp hrel
        have hlength := length_lt_height hobject
        rw [List.length_append] at hlength
        omega
  refine ⟨d', hrun, fun key hkey => ?_, fun name hname rel => ?_⟩
  · by_cases heq : key = dst
    · have hne : dst ≠ [] := fun hnil => hapart.2 (hnil ▸ List.nil_suffix)
      rw [heq, isDir_eq_some hdst' hne, isDir_eq_some hdst hne]
    · rw [hcopied.outside key hkey, hrest key heq]
  · rw [hcopied.inside name hname, hrest]
    intro heq
    have hbelow : src <:+ dst := heq ▸ (List.suffix_cons name src).trans (List.suffix_append rel _)
    exact hapart.1 hbelow

/-- What is left below a directory whose entries are removed. -/
theorem get_removeNames_below (d : Disk β) (dst rel : Loc) (name : Str) (removed : List Str) :
    (removeNames d dst removed)[rel ++ name :: dst]? =
      if name ∈ removed then none else d[rel ++ name :: dst]? := by
  rw [get_removeNames]
  refine if_congr ⟨?_, fun hmem => ⟨name, hmem, List.suffix_append rel _⟩⟩ rfl rfl
  rintro ⟨other, hother, hsuffix⟩
  have hsame := (List.suffix_of_suffix_length_le hsuffix
    (List.suffix_append rel (name :: dst)) (by simp)).eq_of_length (by simp)
  exact (List.cons.inj hsame).1 ▸ hother

theorem get_removeNames_outside (d : Disk β) {dst key : Loc} (hkey : ¬dst <:+ key)
    (removed : List Str) : (removeNames d dst removed)[key]? = d[key]? := by
  rw [get_removeNames, if_neg]
  rintro ⟨name, _, hsuffix⟩
  exact hkey ((List.suffix_cons name dst).trans hsuffix)

theorem isDir_removeNames (hdst : isDir d dst) (removed : List Str) :
    isDir (removeNames d dst removed) dst := by
  unfold isDir at hdst ⊢
  rw [get_removeNames, if_neg]
  · exact hdst
  · rintro ⟨name, _, hsuffix⟩
    simpa using hsuffix.length_le

/-- Where nothing is in the way of a tree, no entry is. -/
theorem none_below_name {name : Str} (hclosed : Closed d dst) (hnone : d[name :: dst]? = none)
    (rel : Loc) : d[rel ++ name :: dst]? = none :=
  Closed.none_below hclosed (List.suffix_cons name dst) (below_ne [] name) hnone
    (List.suffix_append rel _)

/-- A tree mirrored into a directory from which some entries are removed first. -/
theorem mirror_removed (horder : ∀ l, (order l).Perm l) (hclosed : Closed d [])
    (hsrc : isDir d src) (hdst : isDir d dst) (hapart : Apart src dst) (skip : Bool)
    (removed : List Str) :
    ∃ d', mirrorTree order (height (removeNames d dst removed)) skip (removeNames d dst removed)
        src dst = some d' ∧ (∀ key, ¬dst <:+ key → d'[key]? = d[key]?) ∧ isDir d' dst ∧
      ∀ name rel, d'[rel ++ name :: dst]? =
        if d[name :: src]? ≠ none ∧ (skip = true → name ≠ nodeModules) then
          d[rel ++ name :: src]?
        else if name ∈ removed then none else d[rel ++ name :: dst]? := by
  have hagree : Agree src d (removeNames d dst removed) := fun key hkey =>
    get_removeNames_outside d (not_below_of_apart hapart hkey) removed
  obtain ⟨d', hrun, hcopied⟩ := mirrorTree_copied horder
    ((hagree.isDir_iff List.suffix_rfl).trans hsrc)
    (hagree.closed (Closed.below hclosed List.nil_suffix)) (isDir_removeNames hdst removed)
    hapart skip
  refine ⟨d', hrun, fun key hkey => ?_,
    hcopied.isDir_dst.trans (isDir_removeNames hdst removed), fun name rel => ?_⟩
  · rw [hcopied.outside key fun name _ hsuffix =>
      hkey ((List.suffix_cons name dst).trans hsuffix), get_removeNames_outside d hkey]
  · have hmem : name ∈ mirrored skip (names (removeNames d dst removed) src) ↔
        d[name :: src]? ≠ none ∧ (skip = true → name ≠ nodeModules) := by
      rw [mem_mirrored, mem_names, hagree _ (List.suffix_cons name src)]
    by_cases hname : name ∈ mirrored skip (names (removeNames d dst removed) src)
    · rw [if_pos (hmem.mp hname), hcopied.inside name hname rel]
      exact hagree _ ((List.suffix_cons name src).trans (List.suffix_append rel _))
    · rw [if_neg fun h => hname (hmem.mpr h), hcopied.outside, get_removeNames_below]
      intro other hother hsuffix
      have hsame := (List.suffix_of_suffix_length_le hsuffix
        (List.suffix_append rel (name :: dst)) (by simp)).eq_of_length (by simp)
      exact hname ((List.cons.inj hsame).1 ▸ hother)

/-- The snapshot holds what the scripts left, and no `node_modules` at its top. -/
theorem snapshotPkgTree_spec (horder : ∀ l, (order l).Perm l) (hclosed : Closed d [])
    (hsrc : isDir d src) (hdst : isDir d dst) (hapart : Apart src dst) :
    ∃ d', snapshotPkgTree order d src dst = some d' ∧
      (∀ key, ¬dst <:+ key → d'[key]? = d[key]?) ∧ isDir d' dst ∧
      ∀ name rel, d'[rel ++ name :: dst]? =
        if name = nodeModules then none else d[rel ++ name :: src]? := by
  obtain ⟨d', hrun, hout, hdir, hentries⟩ :=
    mirror_removed horder hclosed hsrc hdst hapart true (order (names d dst))
  refine ⟨d', ?_, hout, hdir, fun name rel => ?_⟩
  · rw [snapshotPkgTree, clearDirContents, readDir, if_pos hdst]
    exact hrun
  · -- every old entry is removed
    have hcleared : (if name ∈ order (names d dst) then none else d[rel ++ name :: dst]?) =
        none := by
      split
      · rfl
      · rename_i hkept
        rw [(horder _).mem_iff, mem_names, not_not] at hkept
        exact none_below_name (Closed.below hclosed List.nil_suffix) hkept rel
    rw [hentries, hcleared]
    by_cases hname : name = nodeModules
    · rw [if_neg fun h => h.2 rfl hname, if_pos hname]
    · rw [if_neg hname]
      split
      · rfl
      · rename_i hskipped
        have hnone : d[name :: src]? = none := by
          by_contra hsome
          exact hskipped ⟨hsome, fun _ => hname⟩
        exact (none_below_name (Closed.below hclosed List.nil_suffix) hnone rel).symm

/-- The image is put over the entry; the `node_modules` at the top of the entry stays. -/
theorem attachDerived_spec (horder : ∀ l, (order l).Perm l) (hclosed : Closed d [])
    (hsrc : isDir d src) (hdst : isDir d dst) (hapart : Apart src dst)
    (hplain : d[nodeModules :: src]? = none) :
    ∃ d', attachDerived order d src dst = some d' ∧
      (∀ key, ¬dst <:+ key → d'[key]? = d[key]?) ∧ isDir d' dst ∧
      ∀ name rel, d'[rel ++ name :: dst]? =
        if name = nodeModules then d[rel ++ name :: dst]? else d[rel ++ name :: src]? := by
  obtain ⟨d', hrun, hout, hdir, hentries⟩ :=
    mirror_removed horder hclosed hsrc hdst hapart false
      ((order (names d dst)).filter fun name => !(name == nodeModules))
  refine ⟨d', ?_, hout, hdir, fun name rel => ?_⟩
  · rw [attachDerived, readDir, if_pos hdst]
    exact hrun
  · rw [hentries]
    by_cases hname : name = nodeModules
    · rw [if_neg fun h => h.1 (hname ▸ hplain), if_neg (by simp [hname]), if_pos hname]
    · rw [if_neg hname]
      split
      · rfl
      · rename_i hskipped
        have hnone : d[name :: src]? = none := by
          by_contra hsome
          exact hskipped ⟨hsome, nofun⟩
        rw [none_below_name (Closed.below hclosed List.nil_suffix) hnone rel]
        split
        · rfl
        · rename_i hkept
          have habsent : d[name :: dst]? = none := by
            by_contra hsome
            refine hkept (List.mem_filter.mpr ⟨(horder _).mem_iff.mpr (mem_names.mpr hsome), ?_⟩)
            simpa using hname
          exact none_below_name (Closed.below hclosed List.nil_suffix) habsent rel

/-- A directory whose entries are taken from elsewhere leaves the disk a tree. -/
theorem closed_replaced (hclosed : Closed d []) (hne : dst ≠ []) (hdst : isDir d dst)
    (hout : ∀ key, ¬dst <:+ key → d'[key]? = d[key]?) (hdir : isDir d' dst)
    (hentries : ∀ name, (∀ rel, d'[rel ++ name :: dst]? = none) ∨
      ∃ place, ∀ rel, d'[rel ++ name :: dst]? = d[rel ++ name :: place]?) : Closed d' [] := by
  have hsame : ∀ {loc : Loc}, d'[loc]? = d[loc]? → isDir d' loc = isDir d loc := by
    intro loc h
    unfold isDir
    rw [h]
  intro name loc _ hget
  by_cases hbelow : dst <:+ name :: loc
  · rcases List.suffix_cons_iff.mp hbelow with heq | ⟨rel, hrel⟩
    · -- the directory itself: its parent is outside
      have hparent : d'[loc]? = d[loc]? := hout loc fun hsuffix => by
        have hlength := hsuffix.length_le
        rw [heq, List.length_cons] at hlength
        omega
      rw [hsame hparent]
      refine hclosed name loc List.nil_suffix ?_
      rw [← heq, isDir_eq_some hdst hne]
      nofun
    · rcases List.eq_nil_or_concat' rel with rfl | ⟨outer, top, rfl⟩
      · rw [List.nil_append] at hrel
        rwa [← hrel]
      · rw [List.append_assoc] at hrel
        subst hrel
        rcases hentries top with hnone | ⟨place, hplace⟩
        · exact absurd (hnone (name :: outer)) hget
        · have hfound := hclosed name (outer ++ top :: place) List.nil_suffix
            ((hplace (name :: outer)) ▸ hget)
          have hloc : d'[outer ++ top :: dst]? = d[outer ++ top :: place]? := hplace outer
          rw [isDir_eq_some hfound (by simp)] at hloc
          exact isDir_of_get hloc
  · have hloc : ¬dst <:+ loc := fun h => hbelow (h.trans (List.suffix_cons name loc))
    rw [hsame (hout loc hloc)]
    rw [hout _ hbelow] at hget
    exact hclosed name loc List.nil_suffix hget

/-- The image in the store holds the tree of the staging directory. -/
def Published (d : Disk β) (staging : Loc) (d' : Disk β) (image : Loc) : Prop :=
  ∀ rel, d'[rel ++ image]? = d[rel ++ staging]?

/-- An image that is attached to an entry makes it the directory that the scripts left,
but for the `node_modules` at the top, which stays. -/
theorem attach_snapshot {d : Disk β} {built staging : Loc} (horder : ∀ l, (order l).Perm l)
    (hclosed : Closed d []) (hbuilt : isDir d built) (hstaging : isDir d staging)
    (hapart : Apart built staging) :
    ∃ d₁, snapshotPkgTree order d built staging = some d₁ ∧ Closed d₁ [] ∧
      (∀ key, ¬staging <:+ key → d₁[key]? = d[key]?) ∧ isDir d₁ staging ∧
      ∀ (d' : Disk β) (image entry : Loc), Closed d' [] → Published d₁ staging d' image →
        isDir d' entry → Apart image entry →
        ∃ d₂, attachDerived order d' image entry = some d₂ ∧ Closed d₂ [] ∧
          (∀ key, ¬entry <:+ key → d₂[key]? = d'[key]?) ∧
          (∀ rel, d₂[rel ++ entry]? =
            if InNodeModules rel then d'[rel ++ entry]? else d[rel ++ built]?) ∧
          ((∀ rel, InNodeModules rel → d'[rel ++ entry]? = d[rel ++ built]?) →
            ∀ rel, d₂[rel ++ entry]? = d[rel ++ built]?) := by
  have hne : ∀ {p q : Loc}, Apart p q → p ≠ [] := fun h hnil => h.1 (hnil ▸ List.nil_suffix)
  have hne' : ∀ {p q : Loc}, Apart p q → q ≠ [] := fun h hnil => h.2 (hnil ▸ List.nil_suffix)
  obtain ⟨d₁, hsnapshot, hout₁, hstaged, hentries⟩ :=
    snapshotPkgTree_spec horder hclosed hbuilt hstaging hapart
  have hclosed₁ : Closed d₁ [] := by
    refine closed_replaced hclosed (hne' hapart) hstaging hout₁ hstaged fun name => ?_
    by_cases hname : name = nodeModules
    · exact Or.inl fun rel => by rw [hentries, if_pos hname]
    · exact Or.inr ⟨built, fun rel => by rw [hentries, if_neg hname]⟩
  refine ⟨d₁, hsnapshot, hclosed₁, hout₁, hstaged,
    fun d' image entry hclosed' hpublished hentry hapart' => ?_⟩
  have himage : isDir d' image := by
    refine isDir_of_get ?_
    have hroot := hpublished []
    rwa [List.nil_append, List.nil_append, isDir_eq_some hstaged (hne' hapart)] at hroot
  have hplain : d'[nodeModules :: image]? = none := by
    have htop := hpublished [nodeModules]
    have hnone := hentries nodeModules []
    rw [if_pos rfl] at hnone
    exact htop.trans hnone
  obtain ⟨d₂, hattach, hout, hdir, hattached⟩ :=
    attachDerived_spec horder hclosed' himage hentry hapart' hplain
  have hall : ∀ rel, d₂[rel ++ entry]? =
      if InNodeModules rel then d'[rel ++ entry]? else d[rel ++ built]? := by
    intro rel
    rcases List.eq_nil_or_concat' rel with rfl | ⟨outer, name, rfl⟩
    · rw [if_neg (by simp [InNodeModules]), List.nil_append, List.nil_append,
        isDir_eq_some hdir (hne' hapart'), isDir_eq_some hbuilt (hne hapart)]
    · have hpath : ∀ loc : Loc, outer ++ [name] ++ loc = outer ++ name :: loc := by simp
      simp only [hpath, inNodeModules_concat]
      rw [hattached]
      by_cases hname : name = nodeModules
      · rw [if_pos hname, if_pos hname]
      · have himaged := hpublished (outer ++ [name])
        rw [hpath, hpath, hentries, if_neg hname] at himaged
        rw [if_neg hname, if_neg hname, himaged]
  have hclosed₂ : Closed d₂ [] := by
    refine closed_replaced hclosed' (hne' hapart') hentry hout hdir fun name => ?_
    by_cases hname : name = nodeModules
    · exact Or.inr ⟨entry, fun rel => by rw [hattached, if_pos hname]⟩
    · exact Or.inr ⟨image, fun rel => by rw [hattached, if_neg hname]⟩
  refine ⟨d₂, hattach, hclosed₂, hout, hall, fun hsame rel => ?_⟩
  rw [hall]
  split
  · exact hsame rel ‹_›
  · rfl

end Attach

namespace Example

def built : Loc := [lit "built"]

def staging : Loc := [lit "staging"]

def entry : Loc := [lit "entry"]

/-- The scripts wrote `index.js`; the entry of the volume has an older file. -/
def disk : Disk Unit :=
  (Std.ExtTreeMap.empty : Disk Unit)
    |>.insert built .dir |>.insert (lit "index.js" :: built) (.file ()) |>.insert staging .dir
    |>.insert entry .dir |>.insert (lit "old.js" :: entry) (.file ())
    |>.insert (nodeModules :: entry) .dir

theorem closed_disk : Closed disk [] := by
  have hkeys : ∀ key ∈ disk.keys, isDir disk key.tail := by decide
  intro name loc _ hget
  exact hkeys (name :: loc) (Std.ExtTreeMap.mem_keys.mpr (by simpa using hget))

/-- The file of the scripts is there, and the older file is not. -/
theorem attach_snapshot_disk :
    ∃ d₁, snapshotPkgTree id disk built staging = some d₁ ∧
      ∃ d₂, attachDerived id d₁ staging entry = some d₂ ∧
        d₂[lit "index.js" :: entry]? = some (.file ()) ∧ d₂[lit "old.js" :: entry]? = none ∧
        d₂[nodeModules :: entry]? = some .dir := by
  have hbuilt : isDir disk built := by decide
  have hstaging : isDir disk staging := by decide
  have hapart : Apart built staging := ⟨by decide, by decide⟩
  have hapart' : Apart staging entry := ⟨by decide, by decide⟩
  obtain ⟨d₁, hsnapshot, hclosed₁, hout, -, hattach⟩ :=
    attach_snapshot (fun l => List.Perm.refl l) closed_disk hbuilt hstaging hapart
  have hsame : ∀ rel, d₁[rel ++ entry]? = disk[rel ++ entry]? := fun rel =>
    hout _ (not_below_of_apart (And.symm hapart') (List.suffix_append rel entry))
  have hentry : isDir d₁ entry := by
    refine isDir_of_get ?_
    rw [show d₁[entry]? = disk[entry]? from hsame []]
    decide
  obtain ⟨d₂, hrun, -, -, hall, -⟩ :=
    hattach d₁ staging entry hclosed₁ (fun rel => rfl) hentry hapart'
  refine ⟨d₁, hsnapshot, d₂, hrun, ?_, ?_, ?_⟩
  · rw [show lit "index.js" :: entry = [lit "index.js"] ++ entry from rfl, hall,
      if_neg (by decide)]
    decide
  · rw [show lit "old.js" :: entry = [lit "old.js"] ++ entry from rfl, hall, if_neg (by decide)]
    decide
  · rw [show nodeModules :: entry = [nodeModules] ++ entry from rfl, hall,
      if_pos (by decide), hsame]
    decide

end Example
end PackageTree
end Bpm
