import Bpm.Lib.FileSystem

/-!
# Archive extraction

A package archive is extracted entry by entry into a directory.  Entry paths and
link targets are checked as they are written: a path has only names, and a target
does not climb above the directory.  The file system follows the links that
earlier entries made, so that the two readings of a target agree only when no
link lies below another link and no target steps back over one.
-/

namespace Bpm
namespace Archive

open Text FileTree FileSystem

inductive EntryType
  | regular | continuous | directory | symlink
  | xGlobalHeader | xHeader | gnuLongName | gnuLongLink
  | other (name : Str)
deriving DecidableEq

/-- What the tar reader makes of an entry: its header, and its stream, which may be longer
or shorter than the header's size.  `content` is how many bytes the stream yields, and
`intact` says whether it then ends or fails. -/
structure TarEntry where
  path : Except Str Str
  entryType : EntryType
  size : Nat
  mode : Nat
  linkName : Except Str (Option Str)
  content : Nat
  intact : Bool

/-- The entries in order; a corrupt one is reported with a reason. -/
abbrev Items := List (Except Str TarEntry)

inductive ExtractError
  | read
  | invalidArchive (reason : Str)
  | unsafePath (path reason : Str)
  | unsafeSymlink (link target : Str)
  | unsupportedEntry (typ path : Str)
  | duplicateEntry (path : Str)
  | write (path : Str) (source : Errno)
  | resourceLimit (resource : Str) (limit : Nat) (path : Str)
deriving DecidableEq

structure ExtractionLimits where
  maxTotalBytes : Nat
  maxFileBytes : Nat
  maxEntries : Nat

def defaultLimits : ExtractionLimits := ⟨2 * 1024 * 1024 * 1024, 512 * 1024 * 1024, 100000⟩

/-- The leading component of npm-packed entries. -/
def packagePrefix : Str := lit "package"

namespace EntryType

/-- Entries that only carry metadata of others. -/
def isHeader : EntryType → Bool
  | xGlobalHeader | xHeader | gnuLongName | gnuLongLink => true
  | _ => false

def isRegular : EntryType → Bool
  | regular | continuous => true
  | _ => false

end EntryType

/-- A path of names, innermost first. -/
def display (names : List Str) : Str := join ['/'] names.reverse

def pathNote (names : List Str) : Str := lit " at " ++ display names

def corrupt (reason : Str) : ExtractError := .invalidArchive (lit "corrupt tar entry: " ++ reason)

def invalidPath (reason : Str) : ExtractError :=
  .invalidArchive (lit "invalid entry path header: " ++ reason)

/-- The loop over the entries: how many were counted, the first component they share, and
whether a manifest was seen right below it. -/
def detectFrom : Nat → Option Str → Bool → Items → Except ExtractError (Option Str)
  | _, common, hasManifest, [] => .ok (if hasManifest then common else none)
  | _, _, _, .error reason :: _ => .error (corrupt reason)
  | count, common, hasManifest, .ok entry :: rest =>
      if entry.entryType.isHeader then detectFrom count common hasManifest rest
      else if defaultLimits.maxEntries < count + 1 then
        .error (.resourceLimit (lit "entries") defaultLimits.maxEntries [])
      else
        match entry.path with
        | .error reason => .error (invalidPath reason)
        | .ok raw =>
            match components raw with
            | .normal first :: tail =>
                if first = packagePrefix then .ok (some first)
                else if common.any (· != first) then .ok none
                else
                  detectFrom (count + 1) (some first)
                    (hasManifest || tail == [.normal (lit "package.json")]) rest
            | _ => detectFrom (count + 1) common hasManifest rest

def detectArchiveRootPrefix (items : Items) : Except ExtractError (Option Str) :=
  detectFrom 0 none false items

/-- Drop the archive root component if it is there. -/
def stripPackagePrefix (detected : Option Str) : List Component → List Component
  | .normal first :: rest =>
      if detected = some first ∨ first = packagePrefix then rest else .normal first :: rest
  | path => path

def validateFrom : List Str → List Component → Except Str (List Str)
  | out, [] => .ok out
  | out, .normal name :: rest => validateFrom (name :: out) rest
  | out, .curDir :: rest => validateFrom out rest
  | _, .parentDir :: _ => .error (lit "path traversal (\"..\") is not allowed")
  | _, .rootDir :: _ => .error (lit "absolute paths are not allowed")

def validateReturnedRelative (path : List Component) : Except Str (List Str) := validateFrom [] path

/-- The depth below the root while a target is read. -/
def depthStays : Int → List Component → Bool
  | depth, [] => 0 ≤ depth
  | depth, .normal _ :: rest => depthStays (depth + 1) rest
  | depth, .curDir :: rest => depthStays depth rest
  | depth, .parentDir :: rest => if depth - 1 < 0 then false else depthStays (depth - 1) rest
  | _, .rootDir :: _ => false

def symlinkWithinRoot (rel : List Str) (target : Str) : Bool :=
  if (components target).head? = some .rootDir then false
  else depthStays rel.tail.length (components target)

structure Progress where
  seen : List (List Str × EntryType)
  entries : Nat
  totalBytes : Nat
  createdFileMode : Option Nat

abbrev Extraction := Run ExtractError World

/-- A failing call is reported with the path it was made for. -/
def onPath {α : Type} (names : List Str) (m : Io α) : Extraction α := fun w =>
  match m w with
  | (.ok a, w) => (.ok a, w)
  | (.error e, w) => (.error (.write ('/' :: display names) e), w)

section Extract

variable (sys : System) (root : Loc) (limits : ExtractionLimits)

/-- World-write and special bits are dropped. -/
def applyMode (mode : Nat) (rel : List Str) : Io Unit :=
  setPermissions sys root ((mode &&& 0o777) &&& (0o7777 - 0o002)) rel

/-- Sizes are charged before anything is created.  A sum beyond 64 bits exceeds the limit
as well. -/
def reserveFile (progress : Progress) (size : Nat) (rel : List Str) : Except ExtractError Nat :=
  if limits.maxFileBytes < size then
    .error (.resourceLimit (lit "file bytes") limits.maxFileBytes (pathNote rel))
  else if limits.maxTotalBytes < progress.totalBytes + size then
    .error (.resourceLimit (lit "total bytes") limits.maxTotalBytes (pathNote rel))
  else .ok (progress.totalBytes + size)

/-- Only the executable bit of an entry counts. -/
def normalizedMode (mode : Nat) : Nat := if mode &&& 0o111 ≠ 0 then 0o755 else 0o644

/-- What a new file gets by default, learnt from the first one. -/
def defaultMode (progress : Progress) (loc : Loc) : Io Nat :=
  match progress.createdFileMode with
  | some mode => pure mode
  | none => Run.recover (do return (← openMode sys loc) &&& 0o777) fun _ => pure (2 ^ 32 - 1)

def adjustMode (default normalized : Nat) (rel : List Str) : Io Unit :=
  if default ≠ normalized then applyMode sys root normalized rel else pure ()

def extractFile (progress : Progress) (entry : TarEntry) (rel : List Str) :
    Extraction Progress := do
  let total ← Run.ofExcept id (reserveFile limits progress entry.size rel)
  onPath (rel.tail ++ root) (createDirAll sys root rel.tail)
  let loc ← onPath (rel ++ root) (create sys root rel)
  onPath (rel ++ root) (writeAll sys loc entry.content entry.intact)
  let default ← onPath (rel ++ root) (defaultMode sys progress loc)
  onPath (rel ++ root) (adjustMode sys root default (normalizedMode entry.mode) rel)
  return { progress with totalBytes := total, createdFileMode := some default }

def extractDirectory (progress : Progress) (rel : List Str) : Extraction Progress := do
  onPath (rel ++ root) (createDirAll sys root rel)
  onPath (rel ++ root) (Run.recover (applyMode sys root 0o755 rel) fun _ => pure ())
  return progress

def extractSymlink (progress : Progress) (entry : TarEntry) (raw : Str) (rel : List Str) :
    Extraction Progress := do
  let link ← Run.ofExcept (fun reason => .invalidArchive (lit "invalid symlink header: " ++ reason))
    entry.linkName
  match link with
  | none => Run.fail (.invalidArchive (lit "symlink entry missing link name: " ++ raw))
  | some target =>
      if symlinkWithinRoot rel target then do
        onPath (rel.tail ++ root) (createDirAll sys root rel.tail)
        onPath (rel ++ root) (symlink sys root target rel)
        return progress
      else Run.fail (.unsafeSymlink (display rel) target)

/-- Repeated regular files are extracted again; any other repeated path is refused. -/
def observe (progress : Progress) (rel : List Str) (entryType : EntryType) :
    Except ExtractError Progress :=
  if (progress.seen.lookup rel).any fun previous => !(entryType.isRegular && previous.isRegular) then
    .error (.duplicateEntry (display rel))
  else .ok { progress with seen := (rel, entryType) :: progress.seen }

/-- The place of an entry below the image root. -/
def relativePath (detected : Option Str) (raw : Str) : Except Str (List Str) :=
  validateReturnedRelative (stripPackagePrefix detected (components raw))

def extractEntry (detected : Option Str) (progress : Progress) :
    Except Str TarEntry → Extraction Progress
  | .error reason => Run.fail (corrupt reason)
  | .ok entry => do
      let raw ← Run.ofExcept invalidPath entry.path
      let rel ← Run.ofExcept (.unsafePath raw) (relativePath detected raw)
      if rel = [] then return progress
      else if limits.maxEntries < progress.entries + 1 then
        Run.fail (.resourceLimit (lit "entries") limits.maxEntries (pathNote rel))
      else if entry.entryType.isHeader then
        return { progress with entries := progress.entries + 1 }
      else do
        let progress ← Run.ofExcept id
          (observe { progress with entries := progress.entries + 1 } rel entry.entryType)
        match entry.entryType with
        | .regular | .continuous => extractFile sys root limits progress entry rel
        | .directory => extractDirectory sys root progress rel
        | .symlink => extractSymlink sys root progress entry raw rel
        | .xGlobalHeader | .xHeader | .gnuLongName | .gnuLongLink => return progress
        | .other name => Run.fail (.unsupportedEntry name (display rel))

/-- Opening the archive for reading. -/
def openArchive : Extraction Unit := fun w =>
  match (call sys fun w => (.ok (), w) : Io Unit) w with
  | (.ok (), w) => (.ok (), w)
  | (.error _, w) => (.error .read, w)

def extractWithLimits (items : Items) : Extraction Unit := do
  openArchive sys
  let detected ← Run.ofExcept id (detectArchiveRootPrefix items)
  openArchive sys
  let _ ← Run.foldM (extractEntry sys root limits detected) ⟨[], 0, 0, none⟩ items
  return ()

def extract (items : Items) : Extraction Unit := extractWithLimits sys root defaultLimits items

end Extract

/-! ## Where the two readings of a target agree -/

/-- The links that an archive asks for: where, and to which target. -/
def linksOf (detected : Option Str) (items : Items) : List (List Str × Str) :=
  items.filterMap fun item =>
    match item with
    | .error _ => none
    | .ok entry =>
        match entry.entryType, entry.path, entry.linkName with
        | .symlink, .ok raw, .ok (some target) =>
            match relativePath detected raw with
            | .ok rel => some (rel, target)
            | .error _ => none
        | _, _, _ => none

/-- No step back or to the root comes after the name of a link. -/
def Clear (isLink : List Str → Prop) : List Str → List Component → Prop
  | _, [] => True
  | _, .rootDir :: _ => True
  | names, .curDir :: rest => Clear isLink names rest
  | names, .parentDir :: rest => Clear isLink names.tail rest
  | names, .normal name :: rest =>
      (isLink (name :: names) → Descends rest) ∧ Clear isLink (name :: names) rest

/-- No link lies below another, and no target steps back over one. -/
structure LinksApart (links : List (List Str × Str)) : Prop where
  above : ∀ link ∈ links, ∀ link' ∈ links, link.1 <:+ link'.1 → link.1 = link'.1
  clear : ∀ link ∈ links, Clear (fun names => ∃ link' ∈ links, link'.1 = names) link.1.tail
    (components link.2)

section Targets

variable {root : Loc} {isLink : List Str → Prop}

/-- What a location below the root is called from there. -/
def Below (root : Loc) (isLink : List Str → Prop) (loc : Loc) : Prop :=
  ∃ names, isLink names ∧ loc = names ++ root

theorem below_append_iff {names : List Str} : Below root isLink (names ++ root) ↔ isLink names := by
  constructor
  · rintro ⟨names', hlink, heq⟩
    rw [List.append_cancel_right heq]
    exact hlink
  · exact fun hlink => ⟨names, hlink, rfl⟩

/-- The depth that is counted is the length of the path below the root. -/
theorem stays_of_depthStays {names : List Str} {path : List Component}
    (h : depthStays names.length path = true) (hclear : Clear isLink names path) :
    Stays root (Below root isLink) (names ++ root) path := by
  induction path generalizing names with
  | nil => trivial
  | cons c rest ih =>
    cases c with
    | rootDir => cases h
    | curDir => exact ih h hclear
    | normal name =>
      refine ⟨fun hlink => hclear.1 (below_append_iff.mp hlink), ?_⟩
      rw [depthStays] at h
      exact @ih (name :: names) (by simpa using h) hclear.2
    | parentDir =>
      rw [depthStays] at h
      split at h
      · cases h
      · rename_i hdepth
        cases names with
        | nil => exact absurd (by decide) hdepth
        | cons name names =>
          refine ⟨fun heq => ?_, @ih names (by simpa using h) hclear⟩
          have hlength := congrArg List.length heq
          simp only [List.length_append, List.length_cons] at hlength
          omega

theorem stays_of_symlinkWithinRoot {rel : List Str} {target : Str}
    (h : symlinkWithinRoot rel target = true) (hclear : Clear isLink rel.tail (components target)) :
    Stays root (Below root isLink) (rel.tail ++ root) (components target) := by
  unfold symlinkWithinRoot at h
  split at h
  · cases h
  · exact stays_of_depthStays h hclear

end Targets

/-! ## The extraction -/

section Contained

variable {sys : System} {root : Loc} {limits : ExtractionLimits} {isLink : Loc → Prop}

theorem keeps_onPath {α : Type} {P : α → Prop} {m : Io α} (names : List Str)
    (h : Run.Keeps (Confined root isLink) P m) :
    Run.Keeps (Confined root isLink) P (onPath names m) := by
  intro w hw
  obtain ⟨hI, hP⟩ := h w hw
  unfold onPath
  cases hm : m w with
  | mk r w' =>
    rw [hm] at hI hP
    cases r with
    | ok a =>
      refine ⟨hI, fun b hb => hP b ?_⟩
      cases hb
      rfl
    | error e => exact ⟨hI, nofun⟩

theorem keeps_ofExcept {ε α : Type} {P : α → Prop} {wrap : ε → ExtractError} {x : Except ε α}
    (h : ∀ a, x = .ok a → P a) :
    Run.Keeps (Confined root isLink) P (Run.ofExcept wrap x : Extraction α) := by
  cases x with
  | ok a => exact .pure (h a rfl)
  | error e => exact .fail

theorem keeps_extractFile (progress : Progress) (entry : TarEntry) (rel : List Str) :
    Run.Keeps (Confined root isLink) (fun _ => True)
      (extractFile sys root limits progress entry rel) := by
  refine .bind (keeps_ofExcept fun _ _ => trivial) fun total _ => ?_
  refine .bind (keeps_onPath _ (keeps_createDirAll _)) fun _ _ => ?_
  refine .bind (keeps_onPath _ (keeps_create _)) fun loc hloc => ?_
  refine .bind (keeps_onPath _ (keeps_writeAll hloc _ _)) fun _ _ => ?_
  refine .bind (P := fun _ => True) (keeps_onPath _ ?_) fun default _ => ?_
  · unfold defaultMode
    split
    · exact .pure trivial
    · refine .recover (.bind (keeps_openMode loc) fun _ _ => .pure trivial) ?_
      exact fun _ => .pure trivial
  · refine .bind (P := fun _ => True) (keeps_onPath _ ?_) fun _ _ => .pure trivial
    unfold adjustMode
    split
    · exact keeps_setPermissions _ _
    · exact .pure trivial

theorem keeps_extractDirectory (progress : Progress) (rel : List Str) :
    Run.Keeps (Confined root isLink) (fun _ => True) (extractDirectory sys root progress rel) := by
  refine .bind (keeps_onPath _ (keeps_createDirAll _)) fun _ _ => ?_
  refine .bind (P := fun _ => True) (keeps_onPath _ ?_) fun _ _ => .pure trivial
  exact .recover (keeps_setPermissions _ _) fun _ => .pure trivial

theorem keeps_extractSymlink {links : List (List Str × Str)} (hapart : LinksApart links)
    (progress : Progress) {entry : TarEntry} (raw : Str) {rel : List Str} (hrel : rel ≠ [])
    (hlinks : ∀ target, entry.linkName = .ok (some target) → (rel, target) ∈ links) :
    Run.Keeps (Confined root (Below root fun names => ∃ link ∈ links, link.1 = names))
      (fun _ => True) (extractSymlink sys root progress entry raw rel) := by
  refine .bind (keeps_ofExcept (P := fun link => entry.linkName = .ok link) fun _ h => h)
    fun link hlink => ?_
  cases link with
  | none => exact .fail
  | some target =>
    have hmem := hlinks target hlink
    simp only
    split
    · rename_i hwithin
      refine .bind (keeps_onPath _ (keeps_createDirAll _)) fun _ _ => ?_
      refine .bind (P := fun _ => True) (keeps_onPath _ ?_) fun _ _ => .pure trivial
      cases rel with
      | nil => exact absurd rfl hrel
      | cons name parent =>
        refine keeps_symlink ?_ ?_ ?_
        · intro rest hne hsuffix hbelow
          obtain ⟨link, hlinkmem, rfl⟩ := below_append_iff.mp hbelow
          -- a link on the way to this one would lie above it
          have heq := hapart.above link hlinkmem _ hmem
            (hsuffix.trans (List.suffix_cons name parent))
          have hlength := hsuffix.length_le
          rw [heq, List.length_cons] at hlength
          omega
        · exact ⟨name :: parent, ⟨_, hmem, rfl⟩, rfl⟩
        · exact stays_of_symlinkWithinRoot hwithin (hapart.clear _ hmem)
    · exact .fail

theorem mem_linksOf {detected : Option Str} {items : Items} {entry : TarEntry}
    (hentry : .ok entry ∈ items) (htype : entry.entryType = .symlink) {raw : Str}
    (hraw : entry.path = .ok raw) {rel : List Str} (hrel : relativePath detected raw = .ok rel)
    {target : Str} (htarget : entry.linkName = .ok (some target)) :
    (rel, target) ∈ linksOf detected items := by
  refine List.mem_filterMap.mpr ⟨.ok entry, hentry, ?_⟩
  simp only [htype, hraw, htarget, hrel]

theorem keeps_extractEntry {detected : Option Str} {items : Items}
    (hapart : LinksApart (linksOf detected items)) (progress : Progress)
    {item : Except Str TarEntry} (hitem : item ∈ items) :
    Run.Keeps (Confined root (Below root fun names => ∃ link ∈ linksOf detected items,
      link.1 = names)) (fun _ => True) (extractEntry sys root limits detected progress item) := by
  cases item with
  | error reason => exact .fail
  | ok entry =>
    refine .bind (keeps_ofExcept (P := fun raw => entry.path = .ok raw) fun _ h => h)
      fun raw hraw => ?_
    refine .bind (keeps_ofExcept (P := fun rel => relativePath detected raw = .ok rel) fun _ h => h)
      fun rel hrel => ?_
    split
    · exact .pure trivial
    · rename_i hne
      split
      · exact .fail
      · split
        · exact .pure trivial
        · refine .bind (keeps_ofExcept fun _ _ => trivial) fun progress _ => ?_
          cases htype : entry.entryType with
          | regular | continuous => exact keeps_extractFile progress entry rel
          | directory => exact keeps_extractDirectory progress rel
          | symlink =>
            exact keeps_extractSymlink hapart progress raw hne fun target htarget =>
              mem_linksOf hitem htype hraw hrel htarget
          | xGlobalHeader | xHeader | gnuLongName | gnuLongLink => exact .pure trivial
          | other name => exact .fail

end Contained

/-! ## Links below links -/

/-- A symlink entry. -/
def linkEntry (path target : Str) : Except Str TarEntry :=
  .ok ⟨.ok path, .symlink, 0, 0o777, .ok (some target), 0, true⟩

/-- A system without failures and a file system that holds only the image root. -/
def plainSystem : System := ⟨40, 0o755, 0o644, fun _ => false⟩

def imageTree (root : Loc) : Tree := fun loc => if loc <:+ root then some (.dir 0o755) else none

end Archive
end Bpm
