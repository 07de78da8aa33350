import Bpm.Install.Ancestors
import Bpm.Lib.Removal
import Bpm.Lifecycle.Snapshot

/-!
# Reconciling a project's view

After an install has attached a new view, the entries of the previous one that are not
part of it are removed, each only if it still is what was recorded.  Entries are found by
path, over the links that stand on the way.
-/

namespace Bpm
namespace ProjectView

open Text FileTree Disk

def identityRelay : Str := lit "relay:"

def identityTree : Str := lit "tree-blake3-v1:"

def identityTreeVolume : Str := lit "tree-volume-v1:"

/-- An entry of a project's view that was recorded as made by an install. -/
structure ManagedEntry where
  path : Str
  mode : Str
  identity : Str
deriving DecidableEq

/-- Whether a recorded path stays in `node_modules` when it is joined to the project. -/
def ManagedEntry.pathIsValid (path : Str) : Bool :=
  if path.isEmpty || path.head? == some '/' then false
  else
    match path.splitOn '/' with
    | first :: rest =>
        first == nodeModules && !rest.isEmpty &&
          rest.all fun part => !part.isEmpty && part != lit ".." && part != lit "."
    | [] => false

/-- What `reconcile_project_view` reports, and the files behind it. -/
structure Reconciled (β : Type) where
  disk : Disk β
  removed : Nat
  preserved : List Str

/-- What a reconciliation is given besides the entries of the previous view: how many links
a lookup follows, the hash of a tree, the project, the volume of the previous view, and the
paths of the new one. -/
structure Reconciling (β : Type) where
  maxLinks : Nat
  fingerprint : Disk β → Str
  root : Loc
  prior : Option Loc
  desired : List Str

def isRelayTo {β : Type} (object : Option (Object β)) (target : Str) : Bool :=
  match object with
  | some (.link current) => current == target
  | _ => false

namespace Reconciling

section

variable {β : Type} (r : Reconciling β)

/-- Where the path of an entry leads from the root of the disk. -/
def full (e : ManagedEntry) : Loc := placeOf e.path ++ r.root

/-- The identity of the directory that a path leads to, links followed. -/
def treeFingerprint (d : Disk β) (path : Loc) : Option Str :=
  (resolve r.maxLinks d [] path).bind fun loc =>
    if isDir d loc then some (identityTree ++ r.fingerprint (below d loc)) else none

/-- Whether the object at `loc`, where the path of the entry leads, still is the one that
was recorded. -/
def safeToRemove (d : Disk β) (e : ManagedEntry) (loc : Loc) : Bool :=
  if e.mode == lit "relay" || e.mode == lit "direct" then
    match stripPrefix identityRelay e.identity with
    | some recorded => isRelayTo d[loc]? recorded
    | none => false
  else if e.mode == lit "local" || e.mode == lit "reflink" then
    if !isDir d loc then false
    else if identityTree.isPrefixOf e.identity then
      r.treeFingerprint d (r.full e) == some e.identity
    else
      match stripPrefix identityTreeVolume e.identity with
      | some name =>
          !name.isEmpty && !name.contains '/' && !name.contains '\\' &&
            e.path == lit "node_modules/" ++ name &&
            match r.prior with
            | some volume =>
                match r.treeFingerprint d (r.full e),
                  r.treeFingerprint d (name :: nodeModules :: volume) with
                | some live, some expected => live == expected
                | _, _ => false
            | none => false
      | none => false
  else false

/-- Remove the scope directory around an entry, if it is empty. -/
def tidyScope (d : Disk β) : Loc → Disk β
  | [] => d
  | scope :: parent =>
      if scope.head? == some '@' then
        match entry r.maxLinks d [] (scope :: parent) with
        | some loc => if isDir d loc && (names d loc).isEmpty then d.remove loc else d
        | none => d
      else d

/-- One entry of the previous view.  An entry that does not lead anywhere is passed over. -/
def reconcileEntry (s : Reconciled β) (e : ManagedEntry) : Reconciled β :=
  if r.desired.contains e.path then s
  else if !ManagedEntry.pathIsValid e.path then { s with preserved := s.preserved ++ [e.path] }
  else if (resolve r.maxLinks s.disk [] (r.full e)).isNone then s
  else
    match entry r.maxLinks s.disk [] (r.full e) with
    | none => s
    | some loc =>
        if r.safeToRemove s.disk e loc then
          { s with
            disk := r.tidyScope (s.disk.remove loc) (r.full e).tail
            removed := s.removed + 1 }
        else { s with preserved := s.preserved ++ [e.path] }

/-- Entries in descending order of their paths. -/
def deepestFirst (old : List ManagedEntry) : List ManagedEntry :=
  old.mergeSort fun a b => b.path ≤ a.path

def reconcileProjectView (d : Disk β) (old : List ManagedEntry) : Reconciled β :=
  (deepestFirst old).foldl r.reconcileEntry ⟨d, 0, []⟩

end

/-! ## What one entry does -/

section

variable {β : Type} (r : Reconciling β)

/-- An entry of the previous view that is not part of the new one. -/
structure Stale (e : ManagedEntry) : Prop where
  undesired : e.path ∉ r.desired
  valid : ManagedEntry.pathIsValid e.path = true

/-- The entry is found where it was recorded, and still is what was recorded. -/
structure Proven (d : Disk β) (e : ManagedEntry) (loc : Loc) : Prop where
  live : resolve r.maxLinks d [] (r.full e) ≠ none
  there : entry r.maxLinks d [] (r.full e) = some loc
  safe : r.safeToRemove d e loc = true

/-- A location from which an entry is removed: it lies in the entry, or it is the scope
directory around it, which has nothing left in it. -/
inductive Removes (d after : Disk β) (e : ManagedEntry) (key : Loc) : Prop
  | inside (loc : Loc) (hproven : Proven r d e loc) (hbelow : loc <:+ key)
  | around (loc : Loc) (hproven : Proven r d e loc)
      (hscope : entry r.maxLinks (d.remove loc) [] (r.full e).tail = some key)
      (hat : ∃ scope parent, (r.full e).tail = scope :: parent ∧ scope.head? = some '@')
      (hdir : isDir (d.remove loc) key) (hempty : ∀ rel, rel ≠ [] → after[rel ++ key]? = none)

variable {d : Disk β}

/-- Nothing is below an empty directory. -/
theorem none_below_empty {loc key : Loc} (hclosed : Closed d []) (hempty : names d loc = [])
    (hbelow : loc <:+ key) (hne : key ≠ loc) : d[key]? = none := by
  obtain ⟨rel, rfl⟩ := hbelow
  rcases List.eq_nil_or_concat rel with rfl | ⟨front, name, rfl⟩
  · exact absurd rfl hne
  · have hchild : d[name :: loc]? = none := by
      have hnot : name ∉ names d loc := by simp [hempty]
      rw [PackageTree.mem_names] at hnot
      exact not_not.mp hnot
    apply hclosed.none_below List.nil_suffix (by simp) hchild
    rw [List.concat_eq_append, List.append_assoc]
    exact List.suffix_append front _

theorem get_tidyScope (hclosed : Closed d []) (path key : Loc) :
    (r.tidyScope d path)[key]? = d[key]? ∨
      (r.tidyScope d path)[key]? = none ∧ entry r.maxLinks d [] path = some key ∧
        (∃ scope parent, path = scope :: parent ∧ scope.head? = some '@') ∧
        isDir d key = true ∧ names d key = [] := by
  cases path with
  | nil => exact .inl rfl
  | cons scope parent =>
    rw [tidyScope]
    split
    · rename_i hat
      split
      · rename_i loc hentry
        split
        · rename_i hempty
          rw [Bool.and_eq_true, List.isEmpty_iff] at hempty
          rw [get_remove]
          split
          · rename_i hbelow
            by_cases hkey : key = loc
            · subst hkey
              exact .inr ⟨rfl, hentry, ⟨scope, parent, rfl, by simpa using hat⟩, hempty⟩
            · exact .inl (none_below_empty hclosed hempty.2 hbelow hkey).symm
          · exact .inl rfl
        · exact .inl rfl
      · exact .inl rfl
    · exact .inl rfl

theorem closed_tidyScope (hclosed : Closed d []) (path : Loc) :
    Closed (r.tidyScope d path) [] := by
  cases path with
  | nil => exact hclosed
  | cons scope parent =>
    rw [tidyScope]
    split
    · split
      · split
        · exact hclosed.remove _
        · exact hclosed
      · exact hclosed
    · exact hclosed

/-- What one entry does to the files and to the report. -/
inductive Turn (s : Reconciled β) (e : ManagedEntry) : Reconciled β → Prop
  | kept (h : e.path ∈ r.desired) : Turn s e s
  | refused (h : e.path ∉ r.desired) (hvalid : ManagedEntry.pathIsValid e.path = false) :
      Turn s e { s with preserved := s.preserved ++ [e.path] }
  | passed (hstale : Stale r e)
      (h : resolve r.maxLinks s.disk [] (r.full e) = none ∨
        entry r.maxLinks s.disk [] (r.full e) = none) : Turn s e s
  | removed (loc : Loc) (hstale : Stale r e) (hproven : Proven r s.disk e loc) :
      Turn s e { s with
        disk := r.tidyScope (s.disk.remove loc) (r.full e).tail
        removed := s.removed + 1 }
  | preserved (loc : Loc) (hstale : Stale r e) (hlive : resolve r.maxLinks s.disk [] (r.full e) ≠ none)
      (hthere : entry r.maxLinks s.disk [] (r.full e) = some loc)
      (hsafe : r.safeToRemove s.disk e loc = false) :
      Turn s e { s with preserved := s.preserved ++ [e.path] }

theorem turn (s : Reconciled β) (e : ManagedEntry) : Turn r s e (r.reconcileEntry s e) := by
  unfold reconcileEntry
  split
  · rename_i hdesired
    exact .kept (by simpa using hdesired)
  · rename_i hdesired
    have hdesired : e.path ∉ r.desired := by simpa using hdesired
    split
    · rename_i hvalid
      exact .refused hdesired (by simpa using hvalid)
    · rename_i hvalid
      have hstale : Stale r e := ⟨hdesired, by simpa using hvalid⟩
      split
      · rename_i hnone
        exact .passed hstale (.inl (Option.isNone_iff_eq_none.mp hnone))
      · rename_i hlive
        rw [Option.isNone_iff_eq_none] at hlive
        split
        · rename_i hnone
          exact .passed hstale (.inr hnone)
        · rename_i loc hthere
          split
          · rename_i hsafe
            exact .removed loc hstale ⟨hlive, hthere, hsafe⟩
          · rename_i hsafe
            exact .preserved loc hstale hlive hthere (by simpa using hsafe)

variable {r}

/-- Files are only removed, and only in the entry or its empty scope directory. -/
theorem Turn.disk {s s' : Reconciled β} {e : ManagedEntry} (h : Turn r s e s')
    (hclosed : Closed s.disk []) :
    Closed s'.disk [] ∧ ∀ key : Loc, s'.disk[key]? = s.disk[key]? ∨
      s'.disk[key]? = none ∧ Stale r e ∧ Removes r s.disk s'.disk e key := by
  cases h with
  | kept => exact ⟨hclosed, fun _ => .inl rfl⟩
  | refused => exact ⟨hclosed, fun _ => .inl rfl⟩
  | passed => exact ⟨hclosed, fun _ => .inl rfl⟩
  | preserved => exact ⟨hclosed, fun _ => .inl rfl⟩
  | removed loc hstale hproven =>
    have hclosed' := hclosed.remove loc
    apply And.intro (r.closed_tidyScope hclosed' _)
    intro key
    rcases r.get_tidyScope hclosed' (r.full e).tail key with
      hsame | ⟨hnone, hscope, hat, hdir, hempty⟩
    · show (r.tidyScope (s.disk.remove loc) _)[key]? = _ ∨ _
      rw [hsame, get_remove]
      split
      · rename_i hbelow
        exact .inr ⟨rfl, hstale, .inside loc hproven hbelow⟩
      · exact .inl rfl
    · refine .inr ⟨hnone, hstale, .around loc hproven hscope hat hdir ?_⟩
      intro rel hrel
      have hbelow : (s.disk.remove loc)[rel ++ key]? = none :=
        none_below_empty hclosed' hempty (List.suffix_append rel key)
          fun heq => hrel (List.append_left_eq_self.mp heq)
      rcases r.get_tidyScope hclosed' (r.full e).tail (rel ++ key) with hsame | ⟨hgone, _⟩
      · exact hsame.trans hbelow
      · exact hgone

end

/-! ## The whole run -/

section

variable {β : Type} (r : Reconciling β)

/-- The state in which an entry of the previous view has its turn. -/
def Turns (d : Disk β) (old : List ManagedEntry) (e : ManagedEntry) (s : Reconciled β) : Prop :=
  ∃ before after, deepestFirst old = before ++ e :: after ∧
    s = before.foldl r.reconcileEntry ⟨d, 0, []⟩

variable {r} {d : Disk β} {old : List ManagedEntry}

/-- What every turn keeps holds of all states and of the result. -/
theorem run_invariant {I : Reconciled β → Prop} (hstart : I ⟨d, 0, []⟩)
    (hturn : ∀ s e, Turns r d old e s → I s → I (r.reconcileEntry s e)) :
    (∀ e s, Turns r d old e s → I s) ∧ I (r.reconcileProjectView d old) := by
  have hall : ∀ before after, deepestFirst old = before ++ after →
      I (before.foldl r.reconcileEntry ⟨d, 0, []⟩) := by
    intro before
    induction before using List.reverseRecOn with
    | nil => exact fun _ _ => hstart
    | append_singleton before e ih =>
      intro after hsplit
      have hsplit' : deepestFirst old = before ++ e :: after := by
        rw [hsplit, List.append_assoc]
        rfl
      rw [List.foldl_append]
      exact hturn _ e ⟨before, after, hsplit', rfl⟩ (ih _ hsplit')
  constructor
  · rintro e s ⟨before, after, hsplit, rfl⟩
    exact hall before _ hsplit
  · exact hall (deepestFirst old) [] (List.append_nil _).symm

theorem turns_mem {e : ManagedEntry} {s : Reconciled β} (h : Turns r d old e s) : e ∈ old := by
  obtain ⟨before, after, hsplit, _⟩ := h
  have hmem : e ∈ deepestFirst old := hsplit ▸ by simp
  exact List.mem_mergeSort.mp hmem

variable (r d old) in
/-- A state whose files are those of the start, less what some turn removed. -/
structure Reduced (s : Reconciled β) : Prop where
  closed : Closed s.disk []
  changes : ∀ key : Loc, s.disk[key]? = d[key]? ∨ s.disk[key]? = none ∧
    ∃ e s₀, Turns r d old e s₀ ∧ Stale r e ∧ Fewer s₀.disk d ∧
      Removes r s₀.disk (r.reconcileEntry s₀ e).disk e key

theorem Reduced.fewer {s : Reconciled β} (h : Reduced r d old s) : Fewer s.disk d :=
  fun key => (h.changes key).imp_right And.left

theorem Reduced.turn {s : Reconciled β} {e : ManagedEntry} (h : Reduced r d old s)
    (hturns : Turns r d old e s) : Reduced r d old (r.reconcileEntry s e) := by
  obtain ⟨hclosed, hturn⟩ := (Reconciling.turn r s e).disk h.closed
  apply Reduced.mk hclosed
  intro key
  rcases hturn key with hsame | ⟨hnone, hstale, hremoves⟩
  · rw [hsame]
    exact h.changes key
  · exact .inr ⟨hnone, e, s, hturns, hstale, h.fewer, hremoves⟩

theorem reduced_run (hclosed : Closed d []) :
    (∀ e s, Turns r d old e s → Reduced r d old s) ∧
      Reduced r d old (r.reconcileProjectView d old) :=
  run_invariant ⟨hclosed, fun _ => .inl rfl⟩ fun _ _ hturns h => h.turn hturns

/-- Later in the run: fewer files, and no less reported. -/
structure Later (s' s : Reconciled β) : Prop where
  fewer : Fewer s'.disk s.disk
  reported : s.preserved ⊆ s'.preserved

theorem Turn.later {s s' : Reconciled β} {e : ManagedEntry} (h : Turn r s e s')
    (hclosed : Closed s.disk []) : Later s' s := by
  apply Later.mk
  · intro key
    exact ((h.disk hclosed).2 key).imp_right And.left
  · cases h with
    | kept => exact fun _ hmem => hmem
    | refused => exact List.subset_append_left _ _
    | passed => exact fun _ hmem => hmem
    | removed => exact fun _ hmem => hmem
    | preserved => exact List.subset_append_left _ _

theorem Turns.later {e : ManagedEntry} {s : Reconciled β} (hclosed : Closed d [])
    (h : Turns r d old e s) : Later (r.reconcileProjectView d old) (r.reconcileEntry s e) := by
  have hall : ∀ (l : List ManagedEntry) (s : Reconciled β), Closed s.disk [] →
      Later (l.foldl r.reconcileEntry s) s := by
    intro l
    induction l with
    | nil => exact fun s _ => ⟨Fewer.refl s.disk, fun _ hmem => hmem⟩
    | cons e l ih =>
      intro s hclosed
      have hturn := Reconciling.turn r s e
      have hlater := ih _ (hturn.disk hclosed).1
      have hnow := hturn.later hclosed
      exact ⟨hlater.fewer.trans hnow.fewer, List.Subset.trans hnow.reported hlater.reported⟩
  have hclosed' := ((reduced_run hclosed).1 e s h).turn h
  obtain ⟨before, after, hsplit, rfl⟩ := h
  unfold reconcileProjectView
  rw [hsplit, List.foldl_append, List.foldl_cons]
  exact hall after _ hclosed'.closed

/-- What reconciliation removes was in an entry of the previous view that is not part of
the new one, and that at its turn was found to be what was recorded; or it was the scope
directory around such an entry, and empty. -/
theorem reconcile_removes (hclosed : Closed d []) (key : Loc) :
    (r.reconcileProjectView d old).disk[key]? = d[key]? ∨
      (r.reconcileProjectView d old).disk[key]? = none ∧
        ∃ e s, Turns r d old e s ∧ Stale r e ∧ Fewer s.disk d ∧
          Removes r s.disk (r.reconcileEntry s e).disk e key :=
  (reduced_run hclosed).2.changes key

/-! ## Entries without links on the way -/

/-- No link stands on the way to an entry of the previous view. -/
def Direct (r : Reconciling β) (d : Disk β) (old : List ManagedEntry) : Prop :=
  ∀ e ∈ old, Stale r e → ∀ loc target, Above [] (r.full e) loc →
    d[loc]? ≠ some (.link target)

end

section

variable {β : Type} (r : Reconciling β)

/-- What was recorded of an entry that is removed. -/
inductive Recorded (d : Disk β) (e : ManagedEntry) (loc : Loc) : Prop
  | relay (target : Str) (hmode : e.mode = lit "relay" ∨ e.mode = lit "direct")
      (hidentity : e.identity = identityRelay ++ target)
      (hlink : d[loc]? = some (.link target))
  | tree (live : Loc) (hmode : e.mode = lit "local" ∨ e.mode = lit "reflink")
      (hlive : resolve r.maxLinks d [] loc = some live)
      (hidentity : e.identity = identityTree ++ r.fingerprint (below d live))
  | copy (live volume source : Loc) (name : Str)
      (hmode : e.mode = lit "local" ∨ e.mode = lit "reflink") (hprior : r.prior = some volume)
      (hlive : resolve r.maxLinks d [] loc = some live)
      (hsource : resolve r.maxLinks d [] (name :: nodeModules :: volume) = some source)
      (hpath : e.path = lit "node_modules/" ++ name)
      (hsame : r.fingerprint (below d live) = r.fingerprint (below d source))

variable {r} {d : Disk β} {e : ManagedEntry} {loc : Loc}

theorem treeFingerprint_eq_some {path : Loc} {identity : Str}
    (h : r.treeFingerprint d path = some identity) :
    ∃ live, resolve r.maxLinks d [] path = some live ∧
      identity = identityTree ++ r.fingerprint (below d live) := by
  unfold treeFingerprint at h
  rw [Option.bind_eq_some_iff] at h
  obtain ⟨live, hlive, hif⟩ := h
  split at hif
  · exact ⟨live, hlive, (Option.some.inj hif).symm⟩
  · cases hif

theorem safeToRemove_recorded (h : r.safeToRemove d e (r.full e) = true) :
    Recorded r d e (r.full e) := by
  unfold safeToRemove at h
  split at h
  · rename_i hmode
    rw [Bool.or_eq_true, beq_iff_eq, beq_iff_eq] at hmode
    split at h
    · rename_i target hidentity
      unfold isRelayTo at h
      split at h
      · rename_i hlink
        rw [beq_iff_eq] at h
        subst h
        exact .relay _ hmode (stripPrefix_eq_some hidentity) hlink
      · cases h
    · cases h
  · split at h
    · rename_i hmode
      rw [Bool.or_eq_true, beq_iff_eq, beq_iff_eq] at hmode
      split at h
      · cases h
      · split at h
        · obtain ⟨live, hlive, hidentity⟩ := treeFingerprint_eq_some (beq_iff_eq.mp h)
          exact .tree live hmode hlive hidentity
        · split at h
          · simp only [Bool.and_eq_true, beq_iff_eq] at h
            obtain ⟨⟨_, hpath⟩, h⟩ := h
            split at h
            · rename_i hprior
              split at h
              · rename_i hlive hsource
                obtain ⟨live, hleads, hfirst⟩ := treeFingerprint_eq_some hlive
                obtain ⟨source, hleads', hsecond⟩ := treeFingerprint_eq_some hsource
                have hequal := beq_iff_eq.mp h
                rw [hfirst, hsecond] at hequal
                exact .copy live _ source _ hmode hprior hleads hleads' hpath
                  (List.append_cancel_left hequal)
              · cases h
            · cases h
          · cases h
    · cases h

/-- A recorded path that is valid leads to a place below `node_modules`. -/
theorem place_of_valid {path : Str} (h : ManagedEntry.pathIsValid path = true) :
    ∃ rel, rel ≠ [] ∧ placeOf path = rel ++ [nodeModules] := by
  unfold ManagedEntry.pathIsValid at h
  split at h
  · cases h
  · split at h
    · rename_i first rest hparts
      simp only [Bool.and_eq_true, beq_iff_eq, Bool.not_eq_true', List.isEmpty_eq_false_iff] at h
      obtain ⟨⟨rfl, hrest⟩, _⟩ := h
      refine ⟨rest.reverse, by simpa using hrest, ?_⟩
      rw [placeOf, hparts, List.reverse_cons]
    · cases h

/-- An entry with no link on its way is removed at its own place. -/
theorem place_of_entry {path found : Loc} (hpath : path ≠ [])
    (hlinks : ∀ loc target, Above [] path loc → d[loc]? ≠ some (.link target)) {d' : Disk β}
    (hfewer : Fewer d' d) (h : entry r.maxLinks d' [] path = some found) : found = path := by
  have hlinks' : ∀ loc target, Above [] path loc → d'[loc]? ≠ some (.link target) :=
    fun loc target habove hget => hlinks loc target habove (hfewer.get hget)
  rw [entry_eq_of_links hpath hlinks' h, List.append_nil]

/-- Where the entry is in the project, when no link is on its way. -/
theorem full_of_valid (h : ManagedEntry.pathIsValid e.path = true) :
    ∃ rel, rel ≠ [] ∧ r.full e = rel ++ nodeModules :: r.root := by
  obtain ⟨rel, hrel, hplace⟩ := place_of_valid h
  apply Exists.intro rel
  apply And.intro hrel
  rw [full, hplace, List.append_assoc]
  rfl

/-- A location from which an entry is removed, when no link stands on its way. -/
inductive Lost (r : Reconciling β) (d after : Disk β) (e : ManagedEntry) (key : Loc) : Prop
  | inside (hbelow : r.full e <:+ key)
  | around (hscope : (r.full e).tail = key) (hat : key.head?.bind List.head? = some '@')
      (hdir : isDir d key) (hempty : ∀ rel, rel ≠ [] → after[rel ++ key]? = none)

/-- What is removed lies in the project's `node_modules`, in an entry that still is what was
recorded, or is an empty scope directory. -/
theorem lost_of_changed {old : List ManagedEntry} (hclosed : Closed d [])
    (hdirect : Direct r d old) (key : Loc)
    (hchanged : (r.reconcileProjectView d old).disk[key]? ≠ d[key]?) :
    (r.reconcileProjectView d old).disk[key]? = none ∧
      (∃ rel, rel ≠ [] ∧ key = rel ++ nodeModules :: r.root) ∧
      ∃ e ∈ old, Stale r e ∧ (∃ d', Fewer d' d ∧ Recorded r d' e (r.full e)) ∧
        Lost r d (r.reconcileProjectView d old).disk e key := by
  obtain ⟨hnone, e, s, hturns, hstale, hfewer, hremoves⟩ :=
    (reconcile_removes hclosed key).resolve_left hchanged
  have hlinks := hdirect e (turns_mem hturns) hstale
  obtain ⟨rel, hrel, hfull⟩ := full_of_valid (r := r) hstale.valid
  have hpath : r.full e ≠ [] := by simp [hfull]
  apply And.intro hnone
  cases hremoves with
  | inside loc hproven hbelow =>
    obtain rfl := place_of_entry hpath hlinks hfewer hproven.there
    obtain ⟨front, rfl⟩ := hbelow
    constructor
    · apply Exists.intro (front ++ rel)
      rw [hfull, List.append_assoc]
      exact ⟨by simp [hrel], rfl⟩
    · exact ⟨e, turns_mem hturns, hstale,
        ⟨s.disk, hfewer, safeToRemove_recorded hproven.safe⟩, .inside (List.suffix_append _ _)⟩
  | around loc hproven hscope hat hdir hempty =>
    obtain rfl := place_of_entry hpath hlinks hfewer hproven.there
    obtain ⟨name, inner, rfl⟩ := List.exists_cons_of_ne_nil hrel
    obtain ⟨scope, parent, htail, hname⟩ := hat
    have hinner : (r.full e).tail = inner ++ nodeModules :: r.root := by rw [hfull]; rfl
    have hkey : (r.full e).tail = key := by
      apply (place_of_entry (by simp [htail]) _ ((fewer_remove _ _).trans hfewer) hscope).symm
      intro loc target habove
      apply hlinks loc target
      rw [hfull, List.cons_append, above_cons, ← hinner]
      exact habove.1
    constructor
    · apply Exists.intro inner
      apply And.intro _ (hkey.symm.trans hinner)
      -- `node_modules` itself is not a scope
      rintro rfl
      rw [htail] at hinner
      obtain ⟨rfl, _⟩ := List.cons.inj hinner
      exact absurd hname (by decide)
    · refine ⟨e, turns_mem hturns, hstale,
        ⟨s.disk, hfewer, safeToRemove_recorded hproven.safe⟩,
        .around hkey ?_ (((fewer_remove _ _).trans hfewer).isDir hdir) ?_⟩
      · rw [← hkey, htail]
        exact hname
      · intro front hfront
        rcases (hturns.later hclosed).fewer (front ++ key) with hsame | hgone
        · exact hsame.trans (hempty front hfront)
        · exact hgone

end

/-! ## A project with one scope -/

/-- A project whose one entry is a link in a scope. -/
def inScope (target : Str) : Disk Nat :=
  ((((∅ : Disk Nat).insert [lit "p"] .dir).insert [nodeModules, lit "p"] .dir).insert
    [lit "@s", nodeModules, lit "p"] .dir).insert
    [lit "a", lit "@s", nodeModules, lit "p"] (.link target)

theorem closed_inScope (target : Str) : Closed (inScope target) [] :=
  (((closed_empty.insert rfl (.inr rfl)).insert (by decide) (.inr rfl)).insert (by decide)
    (.inr rfl)).insert (by decide) (.inl (by decide))

def scopedEntry (target : Str) : ManagedEntry :=
  ⟨lit "node_modules/@s/a", lit "relay", identityRelay ++ target⟩

def cleanup : Reconciling Nat := ⟨8, fun _ => [], [lit "p"], none, []⟩

/-- The link is removed, and so is its scope directory. -/
example : (cleanup.reconcileProjectView (inScope (lit "/p")) [scopedEntry (lit "/p")]).disk[
    [lit "@s", nodeModules, lit "p"]]? = none := by
  rw [reconcileProjectView, deepestFirst, List.mergeSort_singleton]
  decide +kernel

section

variable {β : Type} {r : Reconciling β} {d : Disk β} {e : ManagedEntry} {loc : Loc}

/-! ## What is removed for sure -/

theorem exists_turn {old : List ManagedEntry} (he : e ∈ old) : ∃ s, Turns r d old e s := by
  have hmem : e ∈ deepestFirst old := List.mem_mergeSort.mpr he
  obtain ⟨before, after, hsplit⟩ := List.append_of_mem hmem
  exact ⟨_, before, after, hsplit, rfl⟩

theorem full_ne_nil (r : Reconciling β) (e : ManagedEntry) : r.full e ≠ [] := by
  simp [full, placeOf_ne_nil]

/-- What was removed does not lead anywhere any more. -/
theorem resolve_removed {path : Loc} (hpath : path ≠ [])
    (hentry : entry r.maxLinks d [] path = some loc) {d' : Disk β} (hclosed' : Closed d' [])
    (hfewer : Fewer d' (d.remove loc)) : resolve r.maxLinks d' [] path = none := by
  by_contra hlive
  obtain ⟨found, hlive⟩ := Option.ne_none_iff_exists'.mp hlive
  obtain ⟨loc', hentry'⟩ := entry_of_resolve hclosed' hpath hlive
  have hsame := (hfewer.trans (fewer_remove d loc)).entry hentry'
  rw [hentry] at hsame
  cases hsame
  obtain ⟨name, parent, rfl⟩ := List.exists_cons_of_ne_nil hpath
  obtain ⟨around, object, _, _, hget⟩ := get_of_entry hentry'
  have hgone := hfewer.get hget
  rw [get_remove, if_pos List.suffix_rfl] at hgone
  cases hgone

/-- An entry that has had its turn is reported, or it leads nowhere. -/
theorem Turn.reports {s s' : Reconciled β} (h : Turn r s e s') (hclosed : Closed s.disk [])
    (hdesired : e.path ∉ r.desired) :
    e.path ∈ s'.preserved ∨ resolve r.maxLinks s'.disk [] (r.full e) = none := by
  have hclosed' := (h.disk hclosed).1
  cases h with
  | kept hmem => exact absurd hmem hdesired
  | refused => exact .inl (by simp)
  | passed hstale hnone =>
    right
    rcases hnone with hnone | hnone
    · exact hnone
    · by_contra hlive
      obtain ⟨found, hlive⟩ := Option.ne_none_iff_exists'.mp hlive
      obtain ⟨loc', hentry⟩ := entry_of_resolve hclosed (full_ne_nil r e) hlive
      rw [hnone] at hentry
      cases hentry
  | removed loc hstale hproven =>
    right
    apply resolve_removed (full_ne_nil r e) hproven.there hclosed'
    intro key
    exact (r.get_tidyScope (hclosed.remove loc) _ key).imp_right And.left
  | preserved => exact .inl (by simp)

/-- A reported path is not part of the new view, and is either not one that could have been
recorded or one that leads somewhere. -/
def Reportable (r : Reconciling β) (d : Disk β) (old : List ManagedEntry) (path : Str) : Prop :=
  ∃ e ∈ old, e.path = path ∧ path ∉ r.desired ∧
    (ManagedEntry.pathIsValid path = false ∨ resolve r.maxLinks d [] (r.full e) ≠ none)

theorem Turn.reportable {s s' : Reconciled β} {path : Str} (h : Turn r s e s')
    (hpath : path ∈ s'.preserved) : path ∈ s.preserved ∨ Reportable r s.disk [e] path := by
  cases h with
  | kept => exact .inl hpath
  | refused hdesired hvalid =>
    apply (List.mem_append.mp hpath).imp_right
    intro hlast
    obtain rfl := List.mem_singleton.mp hlast
    exact ⟨e, List.mem_singleton.mpr rfl, rfl, hdesired, .inl hvalid⟩
  | passed => exact .inl hpath
  | removed => exact .inl hpath
  | preserved loc hstale hlive =>
    apply (List.mem_append.mp hpath).imp_right
    intro hlast
    obtain rfl := List.mem_singleton.mp hlast
    exact ⟨e, List.mem_singleton.mpr rfl, rfl, hstale.undesired, .inr hlive⟩

theorem reportable_run {old : List ManagedEntry} (hclosed : Closed d []) :
    ∀ path ∈ (r.reconcileProjectView d old).preserved, Reportable r d old path := by
  apply (run_invariant (I := fun s => ∀ path ∈ s.preserved, Reportable r d old path) _ _).2
  · simp
  intro s e hturns hreported path hpath
  rcases (Reconciling.turn r s e).reportable hpath with hbefore | ⟨e', he', hsame, hdesired, hwhy⟩
  · exact hreported path hbefore
  · obtain rfl := List.mem_singleton.mp he'
    refine ⟨e', turns_mem hturns, hsame, hdesired, hwhy.imp_right ?_⟩
    intro hlive
    obtain ⟨found, hlive⟩ := Option.ne_none_iff_exists'.mp hlive
    rw [((reduced_run hclosed).1 e' s hturns).fewer.resolve hlive]
    simp

/-- After reconciliation every entry of the previous view that is not part of the new one is
reported or leads nowhere.  What is reported is no path that could have been recorded, or led
somewhere before. -/
theorem reconcile_reports {old : List ManagedEntry} (hclosed : Closed d []) :
    (∀ e ∈ old, e.path ∉ r.desired →
      e.path ∈ (r.reconcileProjectView d old).preserved ∨
        resolve r.maxLinks (r.reconcileProjectView d old).disk [] (r.full e) = none) ∧
    ∀ path ∈ (r.reconcileProjectView d old).preserved, Reportable r d old path := by
  constructor
  · intro e he hdesired
    obtain ⟨s, hturns⟩ := exists_turn (r := r) (d := d) he
    have hreduced := (reduced_run hclosed).1 e s hturns
    have hlater := hturns.later hclosed
    rcases (Reconciling.turn r s e).reports hreduced.closed hdesired with hreported | hnone
    · exact .inl (hlater.reported hreported)
    · right
      by_contra hlive
      obtain ⟨found, hlive⟩ := Option.ne_none_iff_exists'.mp hlive
      rw [hlater.fewer.resolve hlive] at hnone
      cases hnone
  · exact reportable_run hclosed

theorem reconcile_reports_inScope :
    (∀ e ∈ [scopedEntry (lit "/p")], e.path ∉ cleanup.desired →
      e.path ∈ (cleanup.reconcileProjectView (inScope (lit "/p"))
          [scopedEntry (lit "/p")]).preserved ∨
        resolve cleanup.maxLinks (cleanup.reconcileProjectView (inScope (lit "/p"))
          [scopedEntry (lit "/p")]).disk [] (cleanup.full e) = none) ∧
    ∀ path ∈ (cleanup.reconcileProjectView (inScope (lit "/p"))
        [scopedEntry (lit "/p")]).preserved,
      Reportable cleanup (inScope (lit "/p")) [scopedEntry (lit "/p")] path :=
  reconcile_reports (closed_inScope _)

end

end Reconciling
end ProjectView
end Bpm
