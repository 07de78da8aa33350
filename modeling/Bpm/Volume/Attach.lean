import Bpm.Lib.Folds
import Bpm.Lib.Relinks
import Bpm.Resolver.Sources
import Bpm.Volume.Reconcile

/-!
# Attaching a project to a graph volume

Every entry of the volume's `node_modules` appears in the project's as a link into the
volume.  A package that the project links to its sources replaces its entry; a scope with
such a package, and `.bin` when one has commands, become directories of links.
-/

namespace Bpm
namespace ProjectView

open Text FileTree Disk

/-- A package that the project's view takes from its sources. -/
structure ProjectLink where
  path : Str
  source : Loc
  bins : List (Str × Str)
deriving DecidableEq

/-- The entry of a top-level placement, and for a scoped package its place in the scope. -/
def splitPlacement (path : Str) : Option (Str × Option Str) :=
  (stripPrefix (lit "node_modules/") path).bind fun rest =>
    match rest.splitOn '/' with
    | [first] => if first.head? == some '@' then none else some (first, none)
    | [first, member] => if first.head? == some '@' then some (first, some member) else none
    | _ => none

/-- The way up from what is left of one path and down what is left of another. -/
def relativeParts : List Str → List Str → List Str
  | a :: base, b :: target =>
      if a = b then relativeParts base target
      else List.replicate (base.length + 1) (lit "..") ++ b :: target
  | base, target => List.replicate base.length (lit "..") ++ target

/-- The path from a directory to a target, both from the root. -/
def relativeTo (base target : Loc) : Str :=
  let parts := relativeParts base.reverse target.reverse
  if parts.isEmpty then lit "." else join (lit "/") parts

/-- The text of a path from the root. -/
def display (loc : Loc) : Str := loc.reverse.flatMap fun name => '/' :: name

structure Attached (β : Type) where
  disk : Disk β
  created : Nat
  unchanged : Nat
  owned : List ManagedEntry

/-- How many links a lookup follows, the project, the volume, and the project's links. -/
structure Attaching where
  maxLinks : Nat
  root : Loc
  volume : Loc
  links : List ProjectLink

namespace Attaching

variable {β : Type} (a : Attaching)

def volNm : Loc := nodeModules :: a.volume

def projNm : Loc := nodeModules :: a.root

/-! ## Operations on links -/

/-- Make a link where nothing is; an error names the path. -/
def symlink (d : Disk β) (target : Str) : Loc → Except Loc (Disk β)
  | [] => .error []
  | name :: parent =>
      match resolve a.maxLinks d [] parent with
      | some loc =>
          if isDir d loc && (d[name :: loc]?).isNone then .ok (d.insert (name :: loc) (.link target))
          else .error (name :: parent)
      | none => .error (name :: parent)

def replaceWithSymlink (d : Disk β) (link : Loc) (target : Str) : Except Loc (Disk β) :=
  a.symlink (removeEntry a.maxLinks d [] link) target link

def createDirAll (d : Disk β) (path : Loc) : Except Loc (Disk β) :=
  match Disk.createDirAll a.maxLinks d [] path with
  | some (d, _) => .ok d
  | none => .error path

def ensureRealDir (d : Disk β) (dir : Loc) : Except Loc (Disk β) :=
  match entry a.maxLinks d [] dir with
  | some loc => if isDir d loc then .ok d else a.createDirAll (d.remove loc) dir
  | none => a.createDirAll d dir

/-- As `ensureRealDir`, but a file in the way is an error: it is no tree to remove. -/
def ensureRealBin (d : Disk β) (dir : Loc) : Except Loc (Disk β) :=
  match entry a.maxLinks d [] dir with
  | some loc =>
      match d[loc]? with
      | some .dir => .ok d
      | some (.link _) => a.createDirAll (d.remove loc) dir
      | _ => .error dir
  | none => a.createDirAll d dir

/-- The names in a directory, none if it cannot be read. -/
def sortedEntryNames (d : Disk β) (dir : Loc) : List Str :=
  match resolve a.maxLinks d [] dir with
  | some loc => if isDir d loc then names d loc else []
  | none => []

/-! ## The view -/

/-- The link that replaces a whole entry; of several the last. -/
def directLink (name : Str) : Option ProjectLink :=
  a.links.reverse.find? fun link => splitPlacement link.path == some (name, none)

def scopedLink (scope member : Str) : Option ProjectLink :=
  a.links.reverse.find? fun link => splitPlacement link.path == some (scope, some member)

/-- Whether a link lies in a scope. -/
def isLinkedScope (name : Str) : Bool :=
  a.links.any fun link => ((splitPlacement link.path).map fun place =>
    place.1 == name && place.2.isSome) == some true

/-- The link that declares a command, and the file of the command; of several the first. -/
def liveBin (bin : Str) : Option (ProjectLink × Str) :=
  (a.links.flatMap fun link => link.bins.map fun declared => (declared, link)).findSome?
    fun (declared, link) => if declared.1 = bin then some (link, declared.2) else none

def hasLiveBins : Bool := a.links.any fun link => !link.bins.isEmpty

def binTarget (bin : Str) : Str :=
  match a.liveBin bin with
  | some (link, target) =>
      let placement := (stripPrefix (lit "node_modules/") link.path).getD link.path
      joinPath (lit "../") (joinPath placement target)
  | none => display (bin :: lit ".bin" :: a.volNm)

def memberTarget (scope member : Str) : Str :=
  match a.scopedLink scope member with
  | some link => relativeTo (scope :: a.projNm) link.source
  | none => display (member :: scope :: a.volNm)

def relayOf (path target : Str) : ManagedEntry := ⟨path, lit "relay", identityRelay ++ target⟩

/-- A link that is made anew, whatever was there. -/
def replace (s : Attached β) (link : Loc) (path target : Str) : Except Loc (Attached β) :=
  (a.replaceWithSymlink s.disk link target).map fun disk =>
    { disk, created := s.created + 1, unchanged := s.unchanged
      owned := s.owned ++ [relayOf path target] }

def attachBin (s : Attached β) : Except Loc (Attached β) := do
  let disk ← a.ensureRealBin s.disk (lit ".bin" :: a.projNm)
  (a.sortedEntryNames disk (lit ".bin" :: a.volNm)).foldlM
    (fun s bin => a.replace s (bin :: lit ".bin" :: a.projNm) (lit "node_modules/.bin/" ++ bin)
      (a.binTarget bin)) { s with disk }

def attachScope (s : Attached β) (scope : Str) : Except Loc (Attached β) := do
  let disk ← a.ensureRealDir s.disk (scope :: a.projNm)
  (a.sortedEntryNames disk (scope :: a.volNm)).foldlM
    (fun s member => a.replace s (member :: scope :: a.projNm)
      (lit "node_modules/" ++ scope ++ '/' :: member) (a.memberTarget scope member)) { s with disk }

/-- A link into the volume, left alone if it is there. -/
def attachRelay (s : Attached β) (name : Str) : Except Loc (Attached β) :=
  let link := name :: a.projNm
  let expected := display (name :: a.volNm)
  let owned := s.owned ++ [relayOf (lit "node_modules/" ++ name) expected]
  match entry a.maxLinks s.disk [] link with
  | some loc =>
      if isRelayTo s.disk[loc]? expected then
        .ok { s with unchanged := s.unchanged + 1, owned }
      else
        (a.symlink (s.disk.remove loc) expected link).map fun disk =>
          { s with disk, created := s.created + 1, owned }
  | none =>
      (a.symlink s.disk expected link).map fun disk =>
        { s with disk, created := s.created + 1, owned }

def attachEntry (s : Attached β) (name : Str) : Except Loc (Attached β) :=
  if name = lit ".bin" ∧ a.hasLiveBins then a.attachBin s
  else
    match a.directLink name with
    | some link => a.replace s (name :: a.projNm) link.path (relativeTo a.projNm link.source)
    | none => if a.isLinkedScope name then a.attachScope s name else a.attachRelay s name

def attachProjectRelay (d : Disk β) : Except Loc (Attached β) := do
  let disk ← a.createDirAll d a.projNm
  match resolve a.maxLinks disk [] a.volNm with
  | some loc =>
      if isDir disk loc then (names disk loc).foldlM a.attachEntry ⟨disk, 0, 0, []⟩
      else .error a.volNm
  | none => .error a.volNm

/-! ## What an attachment is for -/

/-- What takes the place of an entry: a link, or a directory with links for its members. -/
inductive Slot
  | whole (target : Str)
  | members (targets : List (Str × Str))

def Slot.put (d : Disk β) (loc : Loc) : Slot → Disk β
  | .whole target => relink d loc target
  | .members targets =>
      targets.foldl (fun d (member, target) => relink d (member :: loc) target) (redir d loc)

/-- The links of an entry, at places relative to `node_modules`. -/
def Slot.links (name : Str) : Slot → List (Loc × Str)
  | .whole target => [([name], target)]
  | .members targets => targets.map fun (member, target) => ([member, name], target)

/-- The slot of an entry of the volume. -/
def slot (d : Disk β) (name : Str) : Slot :=
  if name = lit ".bin" ∧ a.hasLiveBins then
    .members ((names d (name :: a.volNm)).map fun bin => (bin, a.binTarget bin))
  else
    match a.directLink name with
    | some link => .whole (relativeTo a.projNm link.source)
    | none =>
        if a.isLinkedScope name then
          .members ((names d (name :: a.volNm)).map fun member => (member, a.memberTarget name member))
        else .whole (display (name :: a.volNm))

/-- The files after the attachment. -/
def view (d : Disk β) : Disk β :=
  (names d a.volNm).foldl (fun d' name => (a.slot d name).put d' (name :: a.projNm))
    (mkdirs d [] a.projNm)

/-- The links of the view. -/
def viewLinks (d : Disk β) : List (Loc × Str) :=
  (names d a.volNm).flatMap fun name => (a.slot d name).links name

/-- The record of a link. -/
def recordOf (link : Loc × Str) : ManagedEntry :=
  relayOf (lit "node_modules/" ++ join (lit "/") link.1.reverse) link.2

/-- The volume is reached without links and lies apart from the project's `node_modules`,
and neither a link nor a file is in the way of these. -/
structure Ready (d : Disk β) : Prop where
  closed : Closed d []
  project : ∀ loc, Way [] a.projNm loc → d[loc]? = none ∨ d[loc]? = some .dir
  volume : ∀ loc, Way [] a.volNm loc → d[loc]? = some .dir
  entries : ∀ name target, d[name :: a.volNm]? ≠ some (.link target)
  apart : ¬a.projNm <:+ a.volNm
  outside : ¬a.volNm <:+ a.projNm
  bin : a.hasLiveBins → ∀ content, d[lit ".bin" :: a.projNm]? ≠ some (.file content)

/-! ## Places in the project -/

/-- Files that differ from those of the start at most below entries of `node_modules`. -/
structure Around (d₁ d : Disk β) : Prop where
  closed : Closed d []
  same : ∀ key, (a.projNm <:+ key → key = a.projNm) → d[key]? = d₁[key]?

section

variable {a} {d d₁ d' : Disk β} {name : Str} {parent loc key : Loc} {target : Str}

theorem resolve_self (hdirs : ∀ loc, Way [] key loc → d[loc]? = some .dir) :
    resolve a.maxLinks d [] key = some key := by
  rw [resolve_of_dirs hdirs, List.append_nil]

theorem isDir_self (hdirs : ∀ loc, Way [] key loc → d[loc]? = some .dir) : isDir d key := by
  by_cases hkey : key = []
  · subst hkey
    rfl
  · apply isDir_of_get
    have hself := hdirs (key ++ []) (way_self hkey)
    rwa [List.append_nil] at hself

theorem no_links (hdirs : ∀ loc, Way [] parent loc → d[loc]? = some .dir) :
    ∀ loc target, Above [] (name :: parent) loc → d[loc]? ≠ some (.link target) := by
  intro loc target habove
  rw [hdirs loc (above_cons.mp habove)]
  simp

/-- The entry of a directory that is reached over directories. -/
theorem entry_child (hclosed : Closed d [])
    (hdirs : ∀ loc, Way [] parent loc → d[loc]? = some .dir) :
    entry a.maxLinks d [] (name :: parent) =
      if d[name :: parent]? = none then none else some (name :: parent) := by
  have hentry : entry a.maxLinks d [] (name :: parent) = _ :=
    entry_of_closed hclosed rfl (List.cons_ne_nil name parent) (no_links hdirs)
  rwa [List.append_nil] at hentry

theorem symlink_free (hdirs : ∀ loc, Way [] parent loc → d[loc]? = some .dir)
    (hnone : d[name :: parent]? = none) :
    a.symlink d target (name :: parent) = .ok (d.insert (name :: parent) (.link target)) := by
  rw [symlink, resolve_self hdirs]
  simp [isDir_self hdirs, hnone]

/-- Nothing on the way to a directory changes when something in it is removed. -/
theorem get_remove_way (hway : Way [] parent loc) :
    (d.remove (name :: parent))[loc]? = d[loc]? := by
  rw [get_remove, if_neg]
  intro hsuffix
  have hlen := (hsuffix.trans hway.2.2).length_le
  simp at hlen

theorem get_relink_way (hway : Way [] parent loc) :
    (relink d (name :: parent) target)[loc]? = d[loc]? := by
  apply (local_relink (name :: parent) target).outside
  intro hsuffix
  have hlen := (hsuffix.trans hway.2.2).length_le
  simp at hlen

theorem replaceWithSymlink_eq (hclosed : Closed d [])
    (hdirs : ∀ loc, Way [] parent loc → d[loc]? = some .dir) :
    a.replaceWithSymlink d (name :: parent) target = .ok (relink d (name :: parent) target) := by
  have hremoved : removeEntry a.maxLinks d [] (name :: parent) = d.remove (name :: parent) := by
    have hremove : removeEntry a.maxLinks d [] (name :: parent) = _ :=
      removeEntry_eq hclosed rfl (List.cons_ne_nil name parent) (no_links hdirs)
    rwa [List.append_nil] at hremove
  rw [replaceWithSymlink, hremoved, symlink_free]
  · rfl
  · intro loc hway
    rw [get_remove_way hway]
    exact hdirs loc hway
  · rw [get_remove, if_pos List.suffix_rfl]

/-- A directory is made in one that is reached over directories. -/
theorem createDirAll_new (hdirs : ∀ loc, Way [] parent loc → d[loc]? = some .dir)
    (hnone : d[name :: parent]? = none) :
    a.createDirAll d (name :: parent) = .ok (d.insert (name :: parent) .dir) := by
  have hparent : Disk.createDirAll a.maxLinks d [] parent = some (d, parent) := by
    have hmade : Disk.createDirAll a.maxLinks d [] parent = _ :=
      createDirAll_free rfl fun loc hway => .inr (hdirs loc hway)
    rw [hmade, List.append_nil]
    congr 2
    apply Std.ExtTreeMap.ext_getElem?
    intro key
    rw [get_mkdirs, if_neg]
    rintro ⟨hway, hget⟩
    rw [hdirs key hway] at hget
    cases hget
  rw [createDirAll, Disk.createDirAll, hparent]
  simp [hnone]

theorem ensureRealDir_eq (hclosed : Closed d [])
    (hdirs : ∀ loc, Way [] parent loc → d[loc]? = some .dir) :
    a.ensureRealDir d (name :: parent) = .ok (redir d (name :: parent)) := by
  rw [ensureRealDir, entry_child hclosed hdirs]
  by_cases hnone : d[name :: parent]? = none
  · rw [if_pos hnone]
    show a.createDirAll d (name :: parent) = _
    rw [createDirAll_new hdirs hnone, redir_of_none hclosed hnone]
  · rw [if_neg hnone]
    show (if isDir d (name :: parent) then _ else _) = _
    unfold redir
    split
    · rfl
    · apply createDirAll_new
      · intro loc hway
        rw [get_remove_way hway]
        exact hdirs loc hway
      · rw [get_remove, if_pos List.suffix_rfl]

/-- For anything but a file `.bin` is made as a scope is. -/
theorem ensureRealBin_eq (hclosed : Closed d [])
    (hdirs : ∀ loc, Way [] parent loc → d[loc]? = some .dir)
    (hfile : ∀ content, d[name :: parent]? ≠ some (.file content)) :
    a.ensureRealBin d (name :: parent) = .ok (redir d (name :: parent)) := by
  rw [← ensureRealDir_eq (a := a) hclosed hdirs, ensureRealBin, ensureRealDir]
  cases hentry : entry a.maxLinks d [] (name :: parent) with
  | none => rfl
  | some loc =>
    have hloc : loc = name :: parent := by
      rw [entry_child hclosed hdirs] at hentry
      split at hentry
      · cases hentry
      · exact (Option.some.inj hentry).symm
    subst hloc
    cases hget : d[name :: parent]? with
    | none => simp [entry_child hclosed hdirs, hget] at hentry
    | some object =>
      cases object with
      | dir => simp [isDir, hget]
      | file content => exact absurd hget (hfile content)
      | link target => simp [isDir, hget]

theorem replace_eq (s : Attached β) (path : Str) (hclosed : Closed s.disk [])
    (hdirs : ∀ loc, Way [] parent loc → s.disk[loc]? = some .dir) :
    a.replace s (name :: parent) path target =
      .ok ⟨relink s.disk (name :: parent) target, s.created + 1, s.unchanged,
        s.owned ++ [relayOf path target]⟩ := by
  rw [replace, replaceWithSymlink_eq hclosed hdirs]
  rfl

/-- Links for all members of a directory. -/
theorem replaceAll_eq (path text : Str → Str) (members : List Str) (s : Attached β)
    (hclosed : Closed s.disk []) (hdirs : ∀ loc, Way [] parent loc → s.disk[loc]? = some .dir) :
    members.foldlM (fun s member => a.replace s (member :: parent) (path member) (text member)) s =
      .ok ⟨members.foldl (fun d member => relink d (member :: parent) (text member)) s.disk,
        s.created + members.length, s.unchanged,
        s.owned ++ members.map fun member => relayOf (path member) (text member)⟩ := by
  induction members generalizing s with
  | nil => simp [pure, Except.pure]
  | cons member members ih =>
    rw [List.foldlM_cons, replace_eq s _ hclosed hdirs]
    show List.foldlM _ _ members = _
    rw [ih]
    · simp [Nat.add_assoc, Nat.add_comm 1]
    · exact closed_relink hclosed (isDir_self hdirs)
    · intro loc hway
      exact (get_relink_way hway).trans (hdirs loc hway)

theorem attachRelay_eq (s : Attached β) (name : Str) (hclosed : Closed s.disk [])
    (hdirs : ∀ loc, Way [] a.projNm loc → s.disk[loc]? = some .dir) :
    ∃ created unchanged, created + unchanged = s.created + s.unchanged + 1 ∧
      a.attachRelay s name =
        .ok ⟨relink s.disk (name :: a.projNm) (display (name :: a.volNm)), created, unchanged,
          s.owned ++ [relayOf (lit "node_modules/" ++ name) (display (name :: a.volNm))]⟩ := by
  have hanew : a.symlink (s.disk.remove (name :: a.projNm)) (display (name :: a.volNm))
      (name :: a.projNm) = .ok (relink s.disk (name :: a.projNm) (display (name :: a.volNm))) := by
    apply symlink_free
    · intro loc hway
      rw [get_remove_way hway]
      exact hdirs loc hway
    · rw [get_remove, if_pos List.suffix_rfl]
  simp only [attachRelay, entry_child hclosed hdirs]
  by_cases hnone : s.disk[name :: a.projNm]? = none
  · refine ⟨s.created + 1, s.unchanged, by omega, ?_⟩
    have hgone : s.disk.remove (name :: a.projNm) = s.disk := by
      have hremove := remove_of_none hclosed (List.cons_ne_nil name a.projNm)
        (by rwa [List.append_nil])
      rwa [List.append_nil] at hremove
    rw [hgone] at hanew
    simp [hnone, hanew, Except.map]
  · rw [if_neg hnone]
    dsimp only
    split
    · rename_i hthere
      refine ⟨s.created, s.unchanged + 1, by omega, ?_⟩
      have hlink : s.disk[name :: a.projNm]? = some (.link (display (name :: a.volNm))) := by
        unfold isRelayTo at hthere
        split at hthere
        · rename_i current hget
          rw [hget, beq_iff_eq.mp hthere]
        · cases hthere
      rw [relink_self hclosed hlink]
    · refine ⟨s.created + 1, s.unchanged, by omega, ?_⟩
      rw [hanew]
      rfl

end

/-! ## One entry of the volume -/

section

variable {a} {d d₁ d' : Disk β} {name : Str} {loc key : Loc}

theorem names_congr (h : ∀ name, d[name :: loc]? = d'[name :: loc]?) : names d loc = names d' loc := by
  have hperm : (names d loc).Perm (names d' loc) := by
    rw [List.perm_ext_iff_of_nodup (PackageTree.names_nodup d loc) (PackageTree.names_nodup d' loc)]
    intro name
    rw [PackageTree.mem_names, PackageTree.mem_names, h]
  have hsorted : ∀ d : Disk β, (names d loc).Pairwise fun a b => a ≤ b := by
    intro d
    have hmerge := @List.pairwise_mergeSort _ (fun a b : Str => decide (a ≤ b))
      (by simpa using fun a b c hab hbc => le_trans hab hbc) (by simpa using le_total)
    simpa [names] using hmerge _
  exact hperm.eq_of_pairwise (fun _ _ _ _ hab hba => le_antisymm hab hba) (hsorted d) (hsorted d')

/-- The project's `node_modules` is a directory that is reached over directories. -/
theorem Ready.project_dirs (h : a.Ready d) (haround : a.Around (mkdirs d [] a.projNm) d') :
    ∀ loc, Way [] a.projNm loc → d'[loc]? = some .dir := by
  intro loc hway
  rw [haround.same loc, get_mkdirs]
  · rcases h.project loc hway with hnone | hdir
    · rw [if_pos ⟨hway, hnone⟩]
    · rw [if_neg (by simp [hdir]), hdir]
  · intro hsuffix
    have hloc := hway.2.2
    rw [List.append_nil] at hloc
    exact hloc.eq_of_length_le hsuffix.length_le

/-- The volume stays as it is. -/
theorem Ready.volume_same (h : a.Ready d) (haround : a.Around (mkdirs d [] a.projNm) d')
    (hkey : a.volNm <:+ key) : d'[key]? = d[key]? := by
  rw [haround.same key, get_mkdirs, if_neg]
  · rintro ⟨hway, _⟩
    have hsuffix := hway.2.2
    rw [List.append_nil] at hsuffix
    exact h.outside (hkey.trans hsuffix)
  · intro hproj
    rcases List.suffix_or_suffix_of_suffix hkey hproj with hsuffix | hsuffix
    · exact absurd hsuffix h.outside
    · exact absurd hsuffix h.apart

theorem Ready.volume_dirs (h : a.Ready d) (haround : a.Around (mkdirs d [] a.projNm) d') :
    ∀ loc, Way [] a.volNm loc → d'[loc]? = some .dir := by
  intro loc hway
  have hdir := h.volume loc hway
  rw [haround.same loc, get_mkdirs, if_neg (by simp [hdir]), hdir]
  intro hproj
  have hloc := hway.2.2
  rw [List.append_nil] at hloc
  exact absurd (hproj.trans hloc) h.apart

theorem Ready.sortedEntryNames_eq (h : a.Ready d) (haround : a.Around (mkdirs d [] a.projNm) d') :
    a.sortedEntryNames d' (name :: a.volNm) = names d (name :: a.volNm) := by
  have hsame : names d' (name :: a.volNm) = names d (name :: a.volNm) :=
    names_congr fun member => h.volume_same haround
      ((List.suffix_cons name _).trans (List.suffix_cons member _))
  have hlinks : ∀ loc target, Way [] (name :: a.volNm) loc → d'[loc]? ≠ some (.link target) := by
    intro loc target hway
    rcases way_cons.mp hway with rfl | hway
    · rw [List.append_nil, h.volume_same haround (List.suffix_cons name _)]
      exact h.entries name target
    · rw [h.volume_dirs haround loc hway]
      simp
  unfold sortedEntryNames
  by_cases hdir : d'[name :: a.volNm]? = some .dir
  · have hdirs : ∀ loc, Way [] (name :: a.volNm) loc → d'[loc]? = some .dir := by
      intro loc hway
      rcases way_cons.mp hway with rfl | hway
      · rwa [List.append_nil]
      · exact h.volume_dirs haround loc hway
    simp [resolve_self hdirs, isDir_self hdirs, hsame]
  · have hnot : isDir d' (name :: a.volNm) = false := by
      rwa [← Bool.not_eq_true, isDir_cons]
    have hempty : names d' (name :: a.volNm) = [] := by
      apply List.eq_nil_iff_forall_not_mem.mpr
      intro member hmem
      have hisdir := haround.closed member _ List.nil_suffix (PackageTree.mem_names.mp hmem)
      rw [hnot] at hisdir
      cases hisdir
    split
    · rename_i found hfound
      obtain rfl := resolve_eq_of_links hlinks hfound
      rw [List.append_nil, hnot, ← hsame, hempty]
      rfl
    · rw [← hsame, hempty]

/-- A step below an entry of `node_modules`. -/
theorem Around.step {f : Disk β → Disk β} (haround : a.Around d₁ d)
    (hlocal : Local f (name :: a.projNm)) (hclosed : Closed (f d) []) : a.Around d₁ (f d) := by
  apply Around.mk hclosed
  intro key hkey
  rw [hlocal.outside d key]
  · exact haround.same key hkey
  · intro hbelow
    obtain rfl := hkey ((List.suffix_cons name _).trans hbelow)
    exact not_cons_suffix name _ hbelow

/-- The way to an entry that is made a directory. -/
theorem redir_dirs (hdirs : ∀ loc, Way [] a.projNm loc → d[loc]? = some .dir) :
    ∀ loc, Way [] (name :: a.projNm) loc → (redir d (name :: a.projNm))[loc]? = some .dir := by
  intro loc hway
  rcases way_cons.mp hway with rfl | hway
  · rw [List.append_nil]
    exact isDir_cons.mp isDir_redir
  · rw [(local_redir _).outside]
    · exact hdirs loc hway
    · intro hsuffix
      have hlen := (hsuffix.trans hway.2.2).length_le
      simp at hlen

theorem slot_put_members (d : Disk β) (loc : Loc) (text : Str → Str) (members : List Str) :
    (Slot.members (members.map fun member => (member, text member))).put d loc =
      members.foldl (fun d member => relink d (member :: loc) (text member)) (redir d loc) := by
  rw [Slot.put, List.foldl_map]

theorem recordOf_member (name member target : Str) :
    recordOf ([member, name], target) =
      relayOf (lit "node_modules/" ++ name ++ '/' :: member) target := by
  simp [recordOf, join, lit]

theorem recordOf_name (name target : Str) :
    recordOf ([name], target) = relayOf (lit "node_modules/" ++ name) target := by
  simp [recordOf, join]

theorem splitPlacement_name {path : Str} (h : splitPlacement path = some (name, none)) :
    path = lit "node_modules/" ++ name := by
  unfold splitPlacement at h
  rw [Option.bind_eq_some_iff] at h
  obtain ⟨rest, hrest, h⟩ := h
  split at h
  · rename_i first hparts
    split at h
    · cases h
    · cases h
      have hjoin : ['/'].intercalate (rest.splitOn '/') = rest := List.intercalate_splitOn '/'
      rw [hparts] at hjoin
      rw [stripPrefix_eq_some hrest, ← hjoin]
      simp
  · rename_i first member hparts
    split at h <;> cases h
  · cases h

/-- What an attachment does with one entry of the volume. -/
theorem Ready.attachEntry_eq (h : a.Ready d) (s : Attached β) (name : Str)
    (haround : a.Around (mkdirs d [] a.projNm) s.disk)
    (hbin : name = lit ".bin" → a.hasLiveBins →
      ∀ content, s.disk[name :: a.projNm]? ≠ some (.file content)) :
    ∃ created unchanged,
      created + unchanged = s.created + s.unchanged + ((a.slot d name).links name).length ∧
      a.attachEntry s name = .ok ⟨(a.slot d name).put s.disk (name :: a.projNm), created, unchanged,
        s.owned ++ ((a.slot d name).links name).map recordOf⟩ := by
  have hdirs := h.project_dirs haround
  have haround' : a.Around (mkdirs d [] a.projNm) (redir s.disk (name :: a.projNm)) :=
    haround.step (local_redir _) (closed_redir haround.closed (isDir_self hdirs))
  unfold attachEntry slot
  split
  · rename_i hlive
    obtain ⟨rfl, hlive⟩ := hlive
    refine ⟨s.created + (names d (lit ".bin" :: a.volNm)).length, s.unchanged, ?_, ?_⟩
    · simp [Slot.links]
      omega
    · rw [attachBin, ensureRealBin_eq haround.closed hdirs (hbin rfl hlive)]
      show List.foldlM _ _ (a.sortedEntryNames (redir s.disk (lit ".bin" :: a.projNm)) _) = _
      rw [h.sortedEntryNames_eq haround']
      rw [replaceAll_eq _ _ _ _ haround'.closed (redir_dirs hdirs), slot_put_members]
      simp [Slot.links, recordOf_member, lit]
  · cases hlink : a.directLink name with
    | some link =>
      have hpath : link.path = lit "node_modules/" ++ name :=
        splitPlacement_name (by simpa using List.find?_some hlink)
      refine ⟨s.created + 1, s.unchanged, ?_, ?_⟩
      · simp [Slot.links]
        omega
      · dsimp only
        rw [replace_eq s _ haround.closed hdirs, hpath]
        simp [Slot.links, Slot.put, recordOf_name]
    | none =>
      dsimp only
      split
      · refine ⟨s.created + (names d (name :: a.volNm)).length, s.unchanged, ?_, ?_⟩
        · simp [Slot.links]
          omega
        · rw [attachScope, ensureRealDir_eq haround.closed hdirs]
          show List.foldlM _ _ (a.sortedEntryNames (redir s.disk (name :: a.projNm)) _) = _
          rw [h.sortedEntryNames_eq haround']
          rw [replaceAll_eq _ _ _ _ haround'.closed (redir_dirs hdirs), slot_put_members]
          simp [Slot.links, recordOf_member]
      · obtain ⟨created, unchanged, hsum, heq⟩ := attachRelay_eq s name haround.closed hdirs
        refine ⟨created, unchanged, ?_, ?_⟩
        · simp [Slot.links]
          omega
        · rw [heq]
          simp [Slot.links, Slot.put, recordOf_name]

end

/-! ## The whole view -/

section

variable {a} {d d' : Disk β} {name : Str} {loc key : Loc}

theorem local_put (slot : Slot) (loc : Loc) : Local (fun d : Disk β => slot.put d loc) loc := by
  cases slot with
  | whole target => exact local_relink loc target
  | members targets =>
    have hmembers : Local (fun d : Disk β => targets.foldl
        (fun d (member, target) => relink d (member :: loc) target) d) loc := by
      apply local_foldl
      rintro ⟨member, target⟩ _
      exact (local_relink (member :: loc) target).mono (List.suffix_cons member loc)
    exact (local_redir loc).comp hmembers

theorem closed_put (slot : Slot) (hclosed : Closed d []) (hdir : isDir d loc) :
    Closed (slot.put d (name :: loc)) [] := by
  cases slot with
  | whole target => exact closed_relink hclosed hdir
  | members targets =>
    have hall : ∀ (d : Disk β), Closed d [] → isDir d (name :: loc) →
        Closed (targets.foldl (fun d (member, target) =>
          relink d (member :: name :: loc) target) d) [] := by
      induction targets with
      | nil => exact fun d hclosed _ => hclosed
      | cons entry targets ih =>
        intro d hclosed hdir
        apply ih
        · exact closed_relink hclosed hdir
        · exact isDir_relink hdir (not_cons_suffix _ _)
    exact hall _ (closed_redir hclosed hdir) isDir_redir

theorem unshared_entries (d : Disk β) :
    Unshared (fun name => name :: a.projNm) (names d a.volNm) := by
  apply unshared_siblings
  rw [List.map_id']
  exact PackageTree.names_nodup d a.volNm

variable (a d) in
/-- The state after some entries of the volume. -/
structure Done (pre : List Str) (s : Attached β) : Prop where
  around : a.Around (mkdirs d [] a.projNm) s.disk
  disk : s.disk = pre.foldl (fun d' name => (a.slot d name).put d' (name :: a.projNm))
    (mkdirs d [] a.projNm)
  count : s.created + s.unchanged = (pre.flatMap fun name => (a.slot d name).links name).length
  owned : s.owned = (pre.flatMap fun name => (a.slot d name).links name).map recordOf

/-- An entry that has not had its turn is as it was. -/
theorem Done.untouched {pre post : List Str} {s : Attached β} (h : a.Done d pre s)
    (hsplit : names d a.volNm = pre ++ name :: post) :
    s.disk[name :: a.projNm]? = (mkdirs d [] a.projNm)[name :: a.projNm]? := by
  rw [h.disk]
  apply foldl_outside (fun name _ => local_put (a.slot d name) (name :: a.projNm))
  intro other hother hsuffix
  have hunshared := a.unshared_entries d
  rw [hsplit] at hunshared
  exact (List.pairwise_append.mp hunshared).2.2 other hother name List.mem_cons_self _ hsuffix
    List.suffix_rfl

theorem Ready.attach_step (h : a.Ready d) {pre post : List Str} {s : Attached β}
    (hsplit : names d a.volNm = pre ++ name :: post) (hdone : a.Done d pre s) :
    ∃ s', a.attachEntry s name = .ok s' ∧ a.Done d (pre ++ [name]) s' := by
  have hbin : name = lit ".bin" → a.hasLiveBins →
      ∀ content, s.disk[name :: a.projNm]? ≠ some (.file content) := by
    rintro rfl hlive content
    rw [hdone.untouched hsplit, get_mkdirs]
    split
    · simp
    · exact h.bin hlive content
  obtain ⟨created, unchanged, hcount, hentry⟩ := h.attachEntry_eq s name hdone.around hbin
  have hdir : isDir s.disk a.projNm := isDir_self (h.project_dirs hdone.around)
  refine ⟨_, hentry, ?_, ?_, ?_, ?_⟩
  · exact hdone.around.step (local_put _ _) (closed_put _ hdone.around.closed hdir)
  · rw [List.foldl_append, ← hdone.disk]
    rfl
  · rw [hcount, hdone.count]
    simp
  · rw [hdone.owned]
    simp

theorem Ready.around_start (h : a.Ready d) :
    a.Around (mkdirs d [] a.projNm) (mkdirs d [] a.projNm) :=
  ⟨closed_mkdirs h.closed h.project, fun _ _ => rfl⟩

/-- The names in a directory of the volume stay. -/
theorem Ready.names_same (h : a.Ready d) (haround : a.Around (mkdirs d [] a.projNm) d')
    (hloc : a.volNm <:+ loc) : names d' loc = names d loc :=
  names_congr fun name => h.volume_same haround (hloc.trans (List.suffix_cons name _))

theorem Ready.run (h : a.Ready d) :
    ∃ s, (names d a.volNm).foldlM a.attachEntry ⟨mkdirs d [] a.projNm, 0, 0, []⟩ = .ok s ∧
      a.Done d (names d a.volNm) s := by
  have hnone : a.Done d [] ⟨mkdirs d [] a.projNm, 0, 0, []⟩ := ⟨h.around_start, rfl, rfl, rfl⟩
  exact Folds.total hnone fun pre name post s hsplit hdone => h.attach_step hsplit hdone

theorem Ready.around_view (h : a.Ready d) : a.Around (mkdirs d [] a.projNm) (a.view d) := by
  obtain ⟨s, _, hdone⟩ := h.run
  have haround := hdone.around
  rwa [hdone.disk] at haround

/-- The attachment makes the view, and its record is that of the view's links. -/
theorem Ready.attachProjectRelay_eq (h : a.Ready d) :
    ∃ created unchanged, created + unchanged = (a.viewLinks d).length ∧
      a.attachProjectRelay d =
        .ok ⟨a.view d, created, unchanged, (a.viewLinks d).map recordOf⟩ := by
  have hmade : a.createDirAll d a.projNm = .ok (mkdirs d [] a.projNm) := by
    rw [createDirAll, createDirAll_free rfl h.project]
  have hdirs := h.volume_dirs h.around_start
  obtain ⟨s, hfold, hdone⟩ := h.run
  refine ⟨s.created, s.unchanged, hdone.count, ?_⟩
  rw [attachProjectRelay, hmade]
  show (match resolve a.maxLinks (mkdirs d [] a.projNm) [] a.volNm with
    | some loc => _
    | none => _) = _
  rw [resolve_self hdirs]
  dsimp only
  rw [isDir_self hdirs, if_pos rfl, h.names_same h.around_start List.suffix_rfl, hfold, view,
    ← hdone.disk, viewLinks, ← hdone.owned]

/-! ## Where the links of a view are -/

theorem get_view_inside (hname : name ∈ names d a.volNm) (hkey : name :: a.projNm <:+ key) :
    (a.view d)[key]? = ((a.slot d name).put (mkdirs d [] a.projNm) (name :: a.projNm))[key]? :=
  foldl_inside (fun name _ => local_put (a.slot d name) (name :: a.projNm)) (a.unshared_entries d)
    _ hname hkey

theorem get_view_outside (hkey : ∀ name ∈ names d a.volNm, ¬name :: a.projNm <:+ key) :
    (a.view d)[key]? = (mkdirs d [] a.projNm)[key]? :=
  foldl_outside (fun name _ => local_put (a.slot d name) (name :: a.projNm)) _ hkey

/-- The members of a slot are the names of a directory. -/
theorem slot_members {targets : List (Str × Str)} (h : a.slot d name = .members targets) :
    ∃ text : Str → Str, targets = (names d (name :: a.volNm)).map fun member => (member, text member) := by
  unfold slot at h
  split at h
  · cases h
    exact ⟨a.binTarget, rfl⟩
  · split at h
    · cases h
    · split at h
      · cases h
        exact ⟨a.memberTarget name, rfl⟩
      · cases h

theorem slot_nodup {targets : List (Str × Str)} (h : a.slot d name = .members targets) :
    (targets.map Prod.fst).Nodup := by
  obtain ⟨text, rfl⟩ := slot_members h
  rw [List.map_map]
  simpa [Function.comp_def] using PackageTree.names_nodup d (name :: a.volNm)

theorem put_members (targets : List (Str × Str)) (d : Disk β) (loc : Loc) :
    (Slot.members targets).put d loc =
      targets.foldl (fun d entry => relink d (entry.1 :: loc) entry.2) (redir d loc) := rfl

/-- A member has its link, with nothing below it. -/
theorem get_put_member {targets : List (Str × Str)} (hnodup : (targets.map Prod.fst).Nodup)
    {member target : Str} (hmem : (member, target) ∈ targets) (hkey : member :: loc <:+ key) :
    ((Slot.members targets).put d loc)[key]? =
      if member :: loc = key then some (.link target) else none := by
  rw [put_members, foldl_inside (fun entry _ => local_relink (entry.1 :: loc) entry.2)
    (unshared_siblings loc hnodup) _ hmem hkey, get_relink, if_pos hkey]

/-- What is not below a member is as it was in the directory. -/
theorem get_put_other {targets : List (Str × Str)}
    (hother : ∀ entry ∈ targets, ¬entry.1 :: loc <:+ key) :
    ((Slot.members targets).put d loc)[key]? = (redir d loc)[key]? := by
  rw [put_members]
  exact foldl_outside (fun entry _ => local_relink (entry.1 :: loc) entry.2) _ hother

theorem get_viewLinks {link : Loc × Str} (hlink : link ∈ a.viewLinks d) :
    (a.view d)[link.1 ++ a.projNm]? = some (.link link.2) := by
  obtain ⟨name, hname, hmem⟩ := List.mem_flatMap.mp hlink
  cases hslot : a.slot d name with
  | whole target =>
    rw [hslot] at hmem
    obtain rfl := List.mem_singleton.mp hmem
    show (a.view d)[name :: a.projNm]? = _
    rw [get_view_inside hname List.suffix_rfl, hslot]
    show (relink _ (name :: a.projNm) target)[name :: a.projNm]? = _
    rw [get_relink, if_pos rfl]
  | members targets =>
    rw [hslot] at hmem
    obtain ⟨⟨member, target⟩, hentry, rfl⟩ := List.mem_map.mp hmem
    show (a.view d)[member :: name :: a.projNm]? = _
    rw [get_view_inside hname (List.suffix_cons _ _), hslot,
      get_put_member (slot_nodup hslot) hentry List.suffix_rfl, if_pos rfl]

/-- A link of the project after the attachment is one of the view, or was there before. -/
theorem viewLinks_or_before {target : Str} (hget : (a.view d)[key]? = some (.link target)) :
    (∃ link ∈ a.viewLinks d, key = link.1 ++ a.projNm) ∨ d[key]? = some (.link target) := by
  have hbefore : ∀ key : Loc, (mkdirs d [] a.projNm)[key]? = some (.link target) →
      d[key]? = some (.link target) := by
    intro key hmkdirs
    rw [get_mkdirs] at hmkdirs
    split at hmkdirs
    · cases hmkdirs
    · exact hmkdirs
  by_cases hin : ∃ name ∈ names d a.volNm, name :: a.projNm <:+ key
  · obtain ⟨name, hname, hkey⟩ := hin
    rw [get_view_inside hname hkey] at hget
    cases hslot : a.slot d name with
    | whole text =>
      rw [hslot] at hget
      have hput : (relink (mkdirs d [] a.projNm) (name :: a.projNm) text)[key]? =
          some (.link target) := hget
      rw [get_relink, if_pos hkey] at hput
      split at hput
      · rename_i heq
        refine .inl ⟨([name], text), ?_, heq.symm⟩
        refine List.mem_flatMap.mpr ⟨name, hname, ?_⟩
        rw [hslot]
        exact List.mem_singleton.mpr rfl
      · cases hput
    | members targets =>
      rw [hslot] at hget
      by_cases hmember : ∃ entry ∈ targets, entry.1 :: name :: a.projNm <:+ key
      · obtain ⟨⟨member, text⟩, hentry, hbelow⟩ := hmember
        rw [get_put_member (slot_nodup hslot) hentry hbelow] at hget
        split at hget
        · rename_i heq
          refine .inl ⟨([member, name], text), ?_, heq.symm⟩
          refine List.mem_flatMap.mpr ⟨name, hname, ?_⟩
          rw [hslot]
          exact List.mem_map.mpr ⟨(member, text), hentry, rfl⟩
        · cases hget
      · rw [get_put_other fun entry hentry hbelow => hmember ⟨entry, hentry, hbelow⟩] at hget
        by_cases heq : key = name :: a.projNm
        · subst heq
          rw [isDir_cons.mp isDir_redir] at hget
          cases hget
        · rw [get_redir_below hkey heq] at hget
          split at hget
          · exact .inr (hbefore key hget)
          · cases hget
  · rw [get_view_outside fun name hname hkey => hin ⟨name, hname, hkey⟩] at hget
    exact .inr (hbefore key hget)

/-- Putting a slot a second time changes nothing. -/
theorem put_put {slot : Slot} (hslot : ∀ targets, slot = Slot.members targets → (targets.map Prod.fst).Nodup) :
    slot.put (slot.put d loc) loc = slot.put d loc := by
  apply Std.ExtTreeMap.ext_getElem?
  intro key
  cases slot with
  | whole target =>
    show (relink (relink d loc target) loc target)[key]? = (relink d loc target)[key]?
    simp only [get_relink]
    split
    · rfl
    · split
      · rfl
      · rfl
  | members targets =>
    have hnodup := hslot targets rfl
    by_cases hmember : ∃ entry ∈ targets, entry.1 :: loc <:+ key
    · obtain ⟨⟨member, text⟩, hentry, hbelow⟩ := hmember
      rw [get_put_member hnodup hentry hbelow, get_put_member hnodup hentry hbelow]
    · have hother : ∀ entry ∈ targets, ¬entry.1 :: loc <:+ key :=
        fun entry hentry hbelow => hmember ⟨entry, hentry, hbelow⟩
      have hdir : isDir ((Slot.members targets).put d loc) loc := by
        have hself : ((Slot.members targets).put d loc)[loc]? = (redir d loc)[loc]? :=
          get_put_other fun entry _ => not_cons_suffix entry.1 loc
        have hisdir : isDir (redir d loc) loc := isDir_redir
        unfold isDir at hisdir ⊢
        rw [hself]
        exact hisdir
      rw [get_put_other hother, redir, if_pos hdir]

/-! ## Attaching again -/

theorem Ready.slot_view (h : a.Ready d) (name : Str) : a.slot (a.view d) name = a.slot d name := by
  unfold slot
  rw [h.names_same h.around_view (List.suffix_cons name _)]

theorem Ready.viewLinks_view (h : a.Ready d) : a.viewLinks (a.view d) = a.viewLinks d := by
  unfold viewLinks
  rw [h.names_same h.around_view List.suffix_rfl]
  simp only [h.slot_view]

theorem Ready.ready_view (h : a.Ready d) : a.Ready (a.view d) where
  closed := h.around_view.closed
  project loc hway := .inr (h.project_dirs h.around_view loc hway)
  volume := h.volume_dirs h.around_view
  entries name target := by
    rw [h.volume_same h.around_view (List.suffix_cons name _)]
    exact h.entries name target
  apart := h.apart
  outside := h.outside
  bin := by
    intro hlive content
    by_cases hname : lit ".bin" ∈ names d a.volNm
    · have hslot : ∃ targets, a.slot d (lit ".bin") = .members targets := by
        rw [slot, if_pos ⟨rfl, hlive⟩]
        exact ⟨_, rfl⟩
      obtain ⟨targets, hslot⟩ := hslot
      rw [get_view_inside hname List.suffix_rfl, hslot,
        get_put_other fun entry _ => not_cons_suffix entry.1 _, isDir_cons.mp isDir_redir]
      simp
    · rw [get_view_outside, get_mkdirs]
      · split
        · simp
        · exact h.bin hlive content
      · intro other hother hsuffix
        have heq := hsuffix.eq_of_length (by simp)
        rw [(List.cons.inj heq).1] at hother
        exact hname hother

theorem Ready.view_view (h : a.Ready d) : a.view (a.view d) = a.view d := by
  have hstart : mkdirs (a.view d) [] a.projNm = a.view d := by
    apply Std.ExtTreeMap.ext_getElem?
    intro key
    rw [get_mkdirs, if_neg]
    rintro ⟨hway, hnone⟩
    rw [h.project_dirs h.around_view key hway] at hnone
    cases hnone
  apply Std.ExtTreeMap.ext_getElem?
  intro key
  by_cases hin : ∃ name ∈ names d a.volNm, name :: a.projNm <:+ key
  · obtain ⟨name, hname, hkey⟩ := hin
    have hname' : name ∈ names (a.view d) a.volNm := by
      rwa [h.names_same h.around_view List.suffix_rfl]
    rw [get_view_inside hname' hkey, h.slot_view, hstart]
    -- the slot is put where it has been put before
    rw [(local_put _ _).inside _ _ (fun key hkey => get_view_inside hname hkey) key hkey,
      put_put fun targets hslot => slot_nodup hslot, get_view_inside hname hkey]
  · rw [get_view_outside, hstart]
    intro name hname hkey
    rw [h.names_same h.around_view List.suffix_rfl] at hname
    exact hin ⟨name, hname, hkey⟩

/-- What an attachment leaves outside the entries of the volume. -/
theorem get_view_frame (hkey : ∀ name ∈ names d a.volNm, ¬name :: a.projNm <:+ key) :
    (a.view d)[key]? =
      if Way [] a.projNm key ∧ d[key]? = none then some .dir else d[key]? := by
  rw [get_view_outside hkey, get_mkdirs]

/-- An attachment records exactly the links it counts, and all of them are in place; nothing
changes but the project's entries of the names in the volume.  Attaching once more changes
nothing and records the same. -/
theorem Ready.attachProjectRelay_spec (h : a.Ready d) :
    ∃ s, a.attachProjectRelay d = .ok s ∧
      s.owned = (a.viewLinks d).map recordOf ∧ s.created + s.unchanged = s.owned.length ∧
      (∀ link ∈ a.viewLinks d, s.disk[link.1 ++ a.projNm]? = some (.link link.2)) ∧
      (∀ key : Loc, (∀ name ∈ names d a.volNm, ¬name :: a.projNm <:+ key) → s.disk[key]? =
        if Way [] a.projNm key ∧ d[key]? = none then some .dir else d[key]?) ∧
      ∃ s', a.attachProjectRelay s.disk = .ok s' ∧ s'.disk = s.disk ∧ s'.owned = s.owned := by
  obtain ⟨created, unchanged, hcount, hattach⟩ := h.attachProjectRelay_eq
  obtain ⟨created', unchanged', _, hagain⟩ := h.ready_view.attachProjectRelay_eq
  rw [h.view_view, h.viewLinks_view] at hagain
  refine ⟨_, hattach, rfl, ?_, fun link hlink => get_viewLinks hlink,
    fun key hkey => get_view_frame hkey, _, hagain, rfl, rfl⟩
  rw [List.length_map]
  exact hcount

end

/-! ## A volume with one package -/

/-- A volume with one package, and a project without `node_modules`. -/
def onePackage : Disk Nat :=
  ((((∅ : Disk Nat).insert [lit "p"] .dir).insert [lit "v"] .dir).insert
    [nodeModules, lit "v"] .dir).insert [lit "a", nodeModules, lit "v"] .dir

def oneRelay : Attaching := ⟨8, [lit "p"], [lit "v"], []⟩

theorem ready_onePackage : oneRelay.Ready onePackage where
  closed := (((closed_empty.insert rfl (.inr rfl)).insert rfl (.inr rfl)).insert (by decide)
    (.inr rfl)).insert (by decide) (.inr rfl)
  project loc hway := by
    rw [projNm, way_cons, oneRelay, way_cons] at hway
    rcases hway with rfl | rfl | hnil
    · exact .inl (by decide)
    · exact .inr (by decide)
    · exact absurd hnil not_way_nil
  volume loc hway := by
    rw [volNm, way_cons, oneRelay, way_cons] at hway
    rcases hway with rfl | rfl | hnil
    · decide
    · decide
    · exact absurd hnil not_way_nil
  entries name target := by
    simp only [onePackage, get_insert, volNm, oneRelay]
    split
    · simp
    · simp
  apart := by decide
  outside := by decide
  bin := by
    intro hlive
    exact absurd hlive (by decide)

theorem attachProjectRelay_spec_onePackage :
    ∃ s, oneRelay.attachProjectRelay onePackage = .ok s ∧
      s.owned = (oneRelay.viewLinks onePackage).map recordOf ∧
      s.created + s.unchanged = s.owned.length ∧
      (∀ link ∈ oneRelay.viewLinks onePackage,
        s.disk[link.1 ++ oneRelay.projNm]? = some (.link link.2)) ∧
      (∀ key : Loc, (∀ name ∈ names onePackage oneRelay.volNm, ¬name :: oneRelay.projNm <:+ key) →
        s.disk[key]? =
          if Way [] oneRelay.projNm key ∧ onePackage[key]? = none then some .dir
          else onePackage[key]?) ∧
      ∃ s', oneRelay.attachProjectRelay s.disk = .ok s' ∧ s'.disk = s.disk ∧ s'.owned = s.owned :=
  ready_onePackage.attachProjectRelay_spec

example : oneRelay.viewLinks onePackage = [([lit "a"], lit "/v/node_modules/a")] := by
  decide +kernel

end Attaching
end ProjectView
end Bpm
