import Bpm.Interchange.Hoist
import Bpm.Interchange.NpmLock
import Bpm.Lib.DebugText
import Bpm.Lib.Lines

/-!
# Importing `yarn.lock`

A lock of yarn v1 maps requests, spelled as they are in the manifests, to versions.  Its
entries are read, walked breadth first from the declarations of the project along the
requests of the entries, laid out for each of their dependents, and every version keeps
how it was reached.
-/

namespace Bpm

open Text

namespace YarnLock

open NpmLock (ImportReport)

structure YarnEntry where
  /-- The requests that lead here. -/
  specs : List Str
  name : Str
  version : Str
  resolved : Str
  integrity : Option Str
  dependencies : Map Str
  optionalDependencies : Map Str
  peerDependencies : Map Str
  os : List Str
  cpu : List Str

namespace YarnEntry

def default : YarnEntry := ⟨[], [], [], [], none, ∅, ∅, ∅, [], []⟩

def key (entry : YarnEntry) (name range : Str) : Bool :=
  entry.specs.any (· == name ++ ['@'] ++ range)

def identity (entry : YarnEntry) : Str := entry.name ++ ['@'] ++ entry.version

/-- Regular requests first; optional and peer requests fill the names that are left. -/
def mergedDeps (entry : YarnEntry) : Map Str :=
  insertMissing (insertMissing entry.dependencies entry.optionalDependencies)
    entry.peerDependencies

end YarnEntry

/-! ## Reading the lock -/

/-- What is wrong with a lock: the line, without the blanks before it. -/
inductive YarnLockError
  | expectedHeader (body : Str)
  | outsideEntry (body : Str)
deriving DecidableEq

/-- The text before a last character. -/
def stripLast (c : Char) (s : Str) : Option Str :=
  if s.getLast? = some c then some s.dropLast else none

def unquote (token : Str) : Str :=
  ((stripPrefix ['"'] (trim token)).bind (stripLast '"')).getD (trim token)

def fieldValue (line field : Str) : Option Str := do
  let rest ← stripPrefix field line
  let rest ← stripPrefix ['"'] (trimStart rest)
  (rsplitOnce ['"'] rest).map Prod.fst

/-- The name of a request: up to the first `@`, that of a scope aside. -/
def specName (spec : Str) : Option Str :=
  match stripPrefix ['@'] spec with
  | some rest => (splitOnce ['@'] rest).map fun parts => '@' :: parts.1
  | none => (splitOnce ['@'] spec).map Prod.fst

inductive Block
  | os | cpu | dependencies | optionalDependencies | peerDependencies
deriving DecidableEq

/-- The block that a line opens; the colon may be missing. -/
def blockOf (body : Str) : Option Block :=
  let opens (field : Str) : Bool := body == field || body == field ++ [':']
  if opens (lit "os") then some .os
  else if opens (lit "cpu") then some .cpu
  else if opens (lit "dependencies") then some .dependencies
  else if opens (lit "optionalDependencies") then some .optionalDependencies
  else if opens (lit "peerDependencies") then some .peerDependencies
  else none

/-- What has been read: the entries that are complete, the one that is open, and the block
that is open in it. -/
structure Reading where
  entries : List YarnEntry
  current : Option YarnEntry
  block : Option Block

/-- The open entry is complete. -/
def Reading.close (s : Reading) : List YarnEntry := s.entries ++ s.current.toList

/-- An entry with the requests of its header; the first that has a name gives it. -/
def headerEntry (header : Str) : YarnEntry :=
  (splitStr [',', ' '] header).foldl
    (fun entry spec =>
      let spec := unquote spec
      { entry with
        specs := entry.specs ++ [spec]
        name := if entry.name.isEmpty then (specName spec).getD entry.name else entry.name })
    YarnEntry.default

/-- A line inside an entry: a field, or the opening of a block. -/
def readField (entry : YarnEntry) (body : Str) : YarnEntry × Option Block :=
  match fieldValue body (lit "version") with
  | some version => ({ entry with version := version }, none)
  | none =>
      match fieldValue body (lit "resolved") with
      | some resolved => ({ entry with resolved := resolved }, none)
      | none =>
          match ((stripPrefix (lit "integrity") body).map trimStart).filter (!·.isEmpty) with
          | some integrity => ({ entry with integrity := some integrity }, none)
          | none => (entry, blockOf body)

/-- A line inside a block: a platform, or a request. -/
def readRow (entry : YarnEntry) (body : Str) (block : Block) : YarnEntry :=
  let value := unquote body
  let parts := (splitOnce [' '] body).getD (body, ['"', '"'])
  let name := unquote parts.1
  let range := unquote parts.2
  match block with
  | .os => if value.isEmpty then entry else { entry with os := entry.os ++ [value] }
  | .cpu => if value.isEmpty then entry else { entry with cpu := entry.cpu ++ [value] }
  | .dependencies => { entry with dependencies := entry.dependencies.insert name range }
  | .optionalDependencies =>
      { entry with optionalDependencies := entry.optionalDependencies.insert name range }
  | .peerDependencies =>
      { entry with peerDependencies := entry.peerDependencies.insert name range }

/-- The blanks before a line, in bytes. -/
def indentOf (line : Str) : Nat := ((line.takeWhile isSpace).map Char.utf8Size).sum

def readLine (s : Reading) (raw : Str) : Except YarnLockError Reading :=
  let line := trimEnd raw
  let body := trimStart line
  if (trim line).isEmpty || body.head? == some '#' then .ok s
  else if indentOf line = 0 then
    match stripLast ':' body with
    | none => .error (.expectedHeader body)
    | some header => .ok ⟨s.close, some (headerEntry header), none⟩
  else
    match s.current with
    | none => .error (.outsideEntry body)
    | some entry =>
        if indentOf line = 2 then
          let (entry, block) := readField entry body
          .ok { s with current := some entry, block := block }
        else
          match s.block with
          | none => .ok s
          | some block => .ok { s with current := some (readRow entry body block) }

def parseYarnV1 (text : Str) : Except YarnLockError (List YarnEntry) :=
  ((Lines.lines text).foldlM readLine ⟨[], none, none⟩).map Reading.close

/-! ## Resolving requests -/

/-- The entries with what resolves requests: the versions of `semver`. -/
structure Lock where
  entries : List YarnEntry
  crates : Crates

namespace Lock

variable (lock : Lock)

def entry (index : Nat) : YarnEntry := lock.entries.getD index YarnEntry.default

/-- An entry of a workspace. -/
def isWorkspace (entry : YarnEntry) : Bool :=
  entry.specs.any fun spec => contains (lit "workspace:") spec

/-- An entry that requests are resolved to. -/
def indexed (entry : YarnEntry) : Bool := !isWorkspace entry && !entry.resolved.isEmpty

/-- The entries under a name, in the order of the lock. -/
def byName (name : Str) : List Nat :=
  (List.range lock.entries.length).filter fun index =>
    indexed (lock.entry index) && (lock.entry index).name == name

/-- Whether the version of an entry matches a range, where both can be read. -/
def semverMatches (entry : YarnEntry) (range : Str) : Bool :=
  match lock.crates.parseVersion entry.version, lock.crates.parseReq range with
  | some version, some req => lock.crates.reqMatches req version
  | _, _ => false

/-- The entry of a request: by its exact spelling, or else the first that matches. -/
def resolve (name range : Str) : Option Nat :=
  ((lock.byName name).find? fun index => (lock.entry index).key name range).or
    ((lock.byName name).find? fun index => lock.semverMatches (lock.entry index) range)

/-- The entries that an entry requires, and whether by an optional request. -/
def children (index : Nat) : List (Nat × Bool) :=
  (lock.entry index).mergedDeps.toList.filterMap fun (name, range) =>
    (lock.resolve name range).map fun child =>
      (child, (lock.entry index).optionalDependencies.contains name)

end Lock

/-! ## The walk -/

/-- How a version is reached. -/
structure Reach where
  prod : Bool
  optionalOnly : Bool
deriving DecidableEq

def Reach.merge (a b : Reach) : Reach := ⟨a.prod || b.prod, a.optionalOnly && b.optionalOnly⟩

/-- A version that a dependent requires. -/
structure Item where
  index : Nat
  dependent : Str
  kind : Reach
deriving DecidableEq

namespace Item

def edge (item : Item) : Nat × Str := (item.index, item.dependent)

end Item

structure Walk where
  queue : List Item
  visited : List (Nat × Str)
  reach : Map Reach
  placer : Placer
  /-- What was placed where, in the order of discovery; a path is listed once. -/
  placed : List (Nat × Str)

namespace Walk

def start (seeds : List Item) : Walk := ⟨seeds, [], ∅, Placer.new, []⟩

/-- The children of an item that was placed. -/
def childItems (lock : Lock) (item : Item) (path : Str) : List Item :=
  (lock.children item.index).map fun (child, optional) =>
    ⟨child, path, ⟨item.kind.prod, item.kind.optionalOnly && optional⟩⟩

/-- Take an item that is not the first of its edge: only its kind counts. -/
def revisit (lock : Lock) (item : Item) (rest : List Item) (s : Walk) : Walk :=
  { s with
    queue := rest
    reach := s.reach.modify (lock.entry item.index).identity (·.merge item.kind) }

/-- Take an item and place it for its dependent. -/
def visit (lock : Lock) (item : Item) (rest : List Item) (s : Walk) : Walk :=
  let entry := lock.entry item.index
  let (path, placer) := s.placer.place entry.name entry.version item.dependent
  { queue := rest ++ childItems lock item path
    visited := item.edge :: s.visited
    reach := s.reach.insert entry.identity ((s.reach[entry.identity]?.getD item.kind).merge item.kind)
    placer := placer
    placed := if path ∈ s.placed.map Prod.snd then s.placed else s.placed ++ [(item.index, path)] }

/-- Take the first item of the queue. -/
def step (lock : Lock) (s : Walk) : Walk :=
  match s.queue with
  | [] => s
  | item :: rest =>
      if item.edge ∈ s.visited then revisit lock item rest s else visit lock item rest s

/-- The walk with its queue emptied; `none` when `fuel` items were not all. -/
def run (lock : Lock) : Nat → Walk → Option Walk
  | 0, s => if s.queue.isEmpty then some s else none
  | fuel + 1, s => if s.queue.isEmpty then some s else run lock fuel (step lock s)

end Walk

/-! ## The import -/

/-- The declarations of the project; those of the development and optional ones fill the
names that are left. -/
def rootDependencies (manifest : PackageManifest) : Map Str :=
  insertMissing (insertMissing manifest.dependencies manifest.devDependencies)
    manifest.optionalDependencies

/-- How a declaration of the project reaches its version. -/
def seedKind (manifest : PackageManifest) (name : Str) : Reach where
  prod := !manifest.devDependencies.contains name || manifest.dependencies.contains name
  optionalOnly := manifest.optionalDependencies.contains name && !manifest.dependencies.contains name

def seeds (lock : Lock) (manifest : PackageManifest) : List Item :=
  (rootDependencies manifest).toList.filterMap fun (name, range) =>
    (lock.resolve name range).map fun index => ⟨index, [], seedKind manifest name⟩

def workspaceUnsupported (printable : Char → Bool) (entry : YarnEntry) : Diagnostic where
  severity := .warning
  code := lit "YARN_WORKSPACE_UNSUPPORTED"
  message := lit "workspace entry " ++ DebugText.text printable (entry.specs.head?.getD []) ++
    lit " cannot be imported yet; convert workspaces to plain paths first"
  package := none

def missingResolution (name range : Str) : Diagnostic where
  severity := .warning
  code := lit "YARN_MISSING_RESOLUTION"
  message := lit "no yarn.lock entry satisfies " ++ name ++ ['@'] ++ range
  package := none

def diagnostics (printable : Char → Bool) (lock : Lock) (manifest : PackageManifest) :
    List Diagnostic :=
  (lock.entries.filter Lock.isWorkspace).map (workspaceUnsupported printable) ++
    (rootDependencies manifest).toList.filterMap fun (name, range) =>
      match lock.resolve name range with
      | some _ => none
      | none => some (missingResolution name range)

/-- The package of a placement; only a SHA-512 digest is kept. -/
def packageEntry (lock : Lock) (reach : Map Reach) (placement : Nat × Str) : PackageEntry :=
  let entry := lock.entry placement.1
  let kind := reach[entry.identity]?.getD ⟨true, false⟩
  { path := placement.2
    name := entry.name
    version := entry.version
    resolved := entry.resolved
    workspaceTarget := none
    integrity := entry.integrity.filter fun value => (lit "sha512-").isPrefixOf value
    link := false
    dev := !kind.prod
    optional := kind.optionalOnly
    os := entry.os
    cpu := entry.cpu
    bin := ∅
    dependencies := entry.mergedDeps }

/-- The lockfile of a finished walk. -/
def lockfileOf (lock : Lock) (manifest : PackageManifest) (walk : Walk) : Lockfile :=
  let empty := Lockfile.new (lit "bpm")
  let root := empty.resolution.root
  Lockfile.sortPackages
    { empty with
      root := ⟨some (manifest.name.getD (lit "root")), manifest.version, rootDependencies manifest⟩
      packages := walk.placed.map (packageEntry lock walk.reach)
      resolution :=
        { empty.resolution with
          root :=
            { root with
              devDependencies := manifest.devDependencies
              optionalDependencies := manifest.optionalDependencies } } }

/-- The import of parsed entries; `none` when the walk needs more than `fuel` steps. -/
def importEntries (printable : Char → Bool) (fuel : Nat) (lock : Lock)
    (manifest : PackageManifest) : Option ImportReport :=
  (Walk.run lock fuel (Walk.start (seeds lock manifest))).map fun walk =>
    ⟨lockfileOf lock manifest walk, sortDiagnostics (diagnostics printable lock manifest)⟩

def importYarnV1 (printable : Char → Bool) (crates : Crates) (fuel : Nat) (text : Str)
    (manifest : PackageManifest) : Except YarnLockError (Option ImportReport) :=
  (parseYarnV1 text).map fun entries => importEntries printable fuel ⟨entries, crates⟩ manifest

end YarnLock
end Bpm
