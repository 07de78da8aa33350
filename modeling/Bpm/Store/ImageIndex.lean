import Bpm.Lib.Bytes

/-!
# Package image indexes

Beside an extracted image stands a sidecar that lists its files and links, without
their contents.  Materialization walks this list and not the directory.
-/

namespace Bpm

open Bytes

inductive ImageNode
  | directory
  | file (content : Bytes)
  | symlink (target : Str)
deriving DecidableEq

/-- An extracted image: what stands at each path below its root. -/
abbrev Image := Map ImageNode

inductive IndexEntry
  | file (path : Str)
  | symlink (path target : Str)
deriving DecidableEq

namespace PackageImage

def path : IndexEntry → Str
  | .file path | .symlink path _ => path

def magic : Bytes := tag "BPMIMG01"

def indexMagic : Bytes := tag "BPMIDX01"

def maxIndexEntries : Nat := 4000000

def maxIndexString : Nat := 65536

def writeU32 (v : Nat) : Bytes := littleEndian 4 v

def writeStr (s : Str) : Bytes := writeU32 (utf8 s).length ++ utf8 s

/-- The path of an entry as it is written. -/
def relative (path : Str) : Str := path.map fun c => if c = '\\' then '/' else c

/-- The entry for what stands at a path; directories have none. -/
def indexEntry : Str × ImageNode → Option IndexEntry
  | (_, .directory) => none
  | (path, .file _) => some (.file (relative path))
  | (path, .symlink target) => some (.symlink (relative path) target)

/-- The entries of a directory, ordered by path. -/
def directoryIndex (image : Image) : List IndexEntry :=
  (image.toList.filterMap indexEntry).mergeSort fun a b => path a ≤ path b

def writeEntry : IndexEntry → Bytes
  | .file path => 0 :: writeStr path
  | .symlink path target => 1 :: (writeStr path ++ writeStr target)

def encodeIndex (entries : List IndexEntry) : Bytes :=
  indexMagic ++ writeU32 entries.length ++ entries.flatMap writeEntry

/-- The sidecar of an extracted image. -/
def fromDirectoryIndex (image : Image) : Bytes := encodeIndex (directoryIndex image)

/-! ## Reading -/

def readU32 (input : Bytes) : Option (Nat × Bytes) :=
  (takeExact 4 input).map fun (number, rest) => (ofLittleEndian number, rest)

def readBoundedString (input : Bytes) : Option (Str × Bytes) := do
  let (len, rest) ← readU32 input
  if len > maxIndexString then none
  else
    let (bytes, rest) ← takeExact len rest
    let s ← text bytes
    return (s, rest)

/-- One entry; behind the path of a file stands its payload in an image of the old
format, and nothing in an index. -/
def readEntry (payloads : Bool) : Bytes → Option (IndexEntry × Bytes)
  | [] => none
  | kind :: rest => do
      let (path, rest) ← readBoundedString rest
      if kind = 0 then
        if payloads then
          let (len, rest) ← readU32 rest
          let (_, rest) ← takeExact len rest
          return (.file path, rest)
        else return (.file path, rest)
      else if kind = 1 then
        let (target, rest) ← readBoundedString rest
        return (.symlink path target, rest)
      else none

def readEntries (payloads : Bool) : Nat → Bytes → Option (List IndexEntry × Bytes)
  | 0, input => some ([], input)
  | count + 1, input => do
      let (entry, rest) ← readEntry payloads input
      let (entries, rest) ← readEntries payloads count rest
      return (entry :: entries, rest)

/-- What follows the magic: a count that the rest can hold, and exactly so many
entries. -/
def readBody (payloads : Bool) (smallest : Nat) (input : Bytes) : Option (List IndexEntry) := do
  let (count, rest) ← readU32 input
  if count > maxIndexEntries then none
  else if count * smallest > rest.length then none
  else
    let (entries, rest) ← readEntries payloads count rest
    if rest.isEmpty then some entries else none

def decodeIndex (input : Bytes) : Option (List IndexEntry) := do
  let (found, rest) ← takeExact 8 input
  if found = indexMagic then readBody false 5 rest
  else if found = magic then readBody true 9 rest
  else none

/-! ## Round trip -/

/-- Every text of the entries can be read back. -/
def Readable (s : Str) : Prop := (utf8 s).length ≤ maxIndexString

/-- The limits of the decoder. -/
def WithinLimits (entries : List IndexEntry) : Prop :=
  entries.length ≤ maxIndexEntries ∧ ∀ entry ∈ entries,
    Readable (path entry) ∧ ∀ p target, entry = .symlink p target → Readable target

theorem readU32_writeU32 {v : Nat} (h : v < 2 ^ 32) (rest : Bytes) :
    readU32 (writeU32 v ++ rest) = some (v, rest) := by
  have htake := takeExact_append (writeU32 v) rest
  rw [show (writeU32 v).length = 4 from littleEndian_length 4 v] at htake
  have hbound : (2 : Nat) ^ 32 = 256 ^ 4 := by decide
  rw [readU32, htake]
  simp only [Option.map_some, writeU32, ofLittleEndian_littleEndian (hbound ▸ h)]

theorem readBoundedString_writeStr {s : Str} (h : Readable s) (rest : Bytes) :
    readBoundedString (writeStr s ++ rest) = some (s, rest) := by
  have hlen : (utf8 s).length < 2 ^ 32 := by
    have hmax : maxIndexString < 2 ^ 32 := by decide
    unfold Readable at h
    omega
  unfold readBoundedString writeStr
  rw [List.append_assoc, readU32_writeU32 hlen]
  simp only [Option.bind_eq_bind, Option.bind_some]
  rw [if_neg (by unfold Readable at h; omega), takeExact_append]
  simp [text_utf8]

theorem readEntry_writeEntry {entry : IndexEntry} (hpath : Readable (path entry))
    (htarget : ∀ p target, entry = .symlink p target → Readable target) (rest : Bytes) :
    readEntry false (writeEntry entry ++ rest) = some (entry, rest) := by
  cases entry with
  | file p =>
      rw [writeEntry, List.cons_append, readEntry]
      simp [readBoundedString_writeStr (s := p) hpath]
  | symlink p target =>
      rw [writeEntry, List.cons_append, List.append_assoc, readEntry]
      simp [readBoundedString_writeStr (s := p) hpath,
        readBoundedString_writeStr (htarget p target rfl)]

theorem readEntries_writeEntry {entries : List IndexEntry} (h : ∀ entry ∈ entries,
    Readable (path entry) ∧ ∀ p target, entry = .symlink p target → Readable target)
    (rest : Bytes) :
    readEntries false entries.length (entries.flatMap writeEntry ++ rest) =
      some (entries, rest) := by
  induction entries with
  | nil => rfl
  | cons entry entries ih =>
      rw [List.forall_mem_cons] at h
      rw [List.length_cons, readEntries, List.flatMap_cons, List.append_assoc,
        readEntry_writeEntry h.1.1 h.1.2]
      simp [ih h.2]

/-- An entry takes at least five bytes. -/
theorem length_writeEntry (entries : List IndexEntry) :
    entries.length * 5 ≤ (entries.flatMap writeEntry).length := by
  induction entries with
  | nil => simp
  | cons entry entries ih =>
      have hentry : 5 ≤ (writeEntry entry).length := by
        cases entry <;> simp [writeEntry, writeStr, writeU32]
      rw [List.flatMap_cons, List.length_append, List.length_cons]
      omega

/-- An index within the limits is read back as it was written. -/
theorem decodeIndex_encodeIndex {entries : List IndexEntry} (h : WithinLimits entries) :
    decodeIndex (encodeIndex entries) = some entries := by
  have hcount : entries.length < 2 ^ 32 := by
    have hmax : maxIndexEntries < 2 ^ 32 := by decide
    have hle := h.1
    omega
  have htake := takeExact_append indexMagic (writeU32 entries.length ++ entries.flatMap writeEntry)
  rw [show indexMagic.length = 8 by decide] at htake
  have hentries := readEntries_writeEntry h.2 []
  rw [List.append_nil] at hentries
  have hsmall := length_writeEntry entries
  have hle := h.1
  unfold decodeIndex encodeIndex
  rw [List.append_assoc, htake]
  simp only [Option.bind_eq_bind, Option.bind_some, if_true]
  unfold readBody
  rw [readU32_writeU32 hcount]
  simp only [Option.bind_eq_bind, Option.bind_some]
  rw [if_neg (by omega), if_neg (by omega), hentries]
  rfl

end PackageImage
end Bpm
