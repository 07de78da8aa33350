import Bpm.Archive
import Bpm.Lib.Bytes

/-!
# The normal form of a Git archive

What `git archive` prints is read entry by entry, and the files, directories and links are
written again, each under the fixed header that stood before its data.  A name or a target
that does not fit into that header stands in a record of its own before it, and so does a
size that does not.
-/

namespace Bpm
namespace GitArchive

open Archive

/-! ## Tar streams -/

/-- A tar archive is a sequence of blocks. -/
abbrev Block := { bytes : Bytes // bytes.length = 512 }

def zeroBlock : Block := ⟨List.replicate 512 0, List.length_replicate⟩

/-- The fixed header of an entry. -/
structure Header where
  entryType : EntryType
  path : Bytes
  linkName : Bytes
  mode : Nat
  size : Nat
deriving DecidableEq

/-- What a pax record says about the entry behind it. -/
structure Extension where
  path : Option Bytes
  linkName : Option Bytes
  size : Option Nat
deriving DecidableEq

/-- How the tar reader understands a header block and the text of a pax record. -/
structure TarCodec where
  header : Block → Option Header
  extension : Bytes → Option Extension

/-- The extension records that wait for their entry. -/
structure Pending where
  longName : Option Bytes
  longLink : Option Bytes
  extension : Option Extension
deriving DecidableEq

namespace Pending

def nothing : Pending := ⟨none, none, none⟩

def path (pending : Pending) (header : Header) : Bytes :=
  (pending.longName.or (pending.extension.bind (·.path))).getD header.path

def linkName (pending : Pending) (header : Header) : Bytes :=
  (pending.longLink.or (pending.extension.bind (·.linkName))).getD header.linkName

def size (pending : Pending) (header : Header) : Nat :=
  (pending.extension.bind (·.size)).getD header.size

end Pending

/-- An entry as the iteration yields it. -/
structure Entry where
  block : Block
  header : Header
  path : Bytes
  linkName : Bytes
  content : Bytes
deriving DecidableEq

/-- How many blocks hold that many bytes. -/
def blockCount (size : Nat) : Nat := (size + 511) / 512

/-- The entries from here on; `fuel` bounds the number of headers. -/
def entriesFrom (codec : TarCodec) : Nat → Pending → List Block → Option (List Entry)
  | 0, _, _ => none
  | _ + 1, pending, [] => if pending = .nothing then some [] else none
  | fuel + 1, pending, block :: rest =>
      if block = zeroBlock then (if pending = .nothing then some [] else none)
      else
        match codec.header block with
        | none => none
        | some header =>
            let size := pending.size header
            if rest.length < blockCount size then none
            else
              let content := ((rest.take (blockCount size)).flatMap (·.1)).take size
              let rest := rest.drop (blockCount size)
              match header.entryType with
              | .gnuLongName =>
                  if pending.longName.isSome then none
                  else entriesFrom codec fuel
                    { pending with longName := some (content.takeWhile (· != 0)) } rest
              | .gnuLongLink =>
                  if pending.longLink.isSome then none
                  else entriesFrom codec fuel
                    { pending with longLink := some (content.takeWhile (· != 0)) } rest
              | .xHeader =>
                  if pending.extension.isSome then none
                  else
                    match codec.extension content with
                    | none => none
                    | some extension =>
                        entriesFrom codec fuel { pending with extension := some extension } rest
              | _ =>
                  (entriesFrom codec fuel .nothing rest).map fun entries =>
                    ⟨block, header, pending.path header, pending.linkName header, content⟩ :: entries

def entries (codec : TarCodec) (stream : List Block) : Option (List Entry) :=
  entriesFrom codec (stream.length + 1) .nothing stream

/-! ## The normal form -/

/-- A block of the first bytes, filled up with zeros. -/
def pad (bytes : Bytes) : Block :=
  ⟨bytes.take 512 ++ List.replicate (512 - bytes.length) 0, by simp; omega⟩

def cut : Nat → Bytes → List Block
  | 0, _ => []
  | count + 1, bytes => pad bytes :: cut count (bytes.drop 512)

/-- `Builder::append`: the header as it is, and the data in whole blocks. -/
def append (header : Block) (data : Bytes) : List Block :=
  header :: cut (blockCount data.length) data

/-- Regular files, directories and links are kept. -/
def isKept (entry : Entry) : Bool :=
  [.regular, .continuous, .directory, .symlink].contains entry.header.entryType

/-- The loop of `git_archive_tarball` over the entries. -/
def normalize (codec : TarCodec) (stream : List Block) : Option (List Block) :=
  (entries codec stream).map fun entries =>
    (entries.filter isKept).flatMap (fun entry => append entry.block entry.content) ++
      [zeroBlock, zeroBlock]

/-- What an entry is to its reader. -/
structure View where
  entryType : EntryType
  path : Bytes
  mode : Nat
  content : Bytes
  linkName : Bytes
deriving DecidableEq

def Entry.view (entry : Entry) : View :=
  ⟨entry.header.entryType, entry.path, entry.header.mode, entry.content, entry.linkName⟩

/-- Reading the normal form gives the kept entries of the stream. -/
def Faithful (codec : TarCodec) (stream : List Block) : Prop :=
  ∀ read, entries codec stream = some read →
    ∃ normal again, normalize codec stream = some normal ∧ entries codec normal = some again ∧
      again.map (·.view) = (read.filter isKept).map (·.view)

/-- No record says something about the entry that is not in its header. -/
def Entry.Plain (entry : Entry) : Prop :=
  entry.path = entry.header.path ∧ entry.linkName = entry.header.linkName ∧
    entry.content.length = entry.header.size

/-! ## Data in blocks -/

theorem cut_length (count : Nat) (bytes : Bytes) : (cut count bytes).length = count := by
  induction count generalizing bytes with
  | zero => rfl
  | succ count ih => rw [cut, List.length_cons, ih]

theorem flatMap_length (blocks : List Block) :
    (blocks.flatMap (·.1)).length = 512 * blocks.length := by
  induction blocks with
  | nil => rfl
  | cons block blocks ih =>
      rw [List.flatMap_cons, List.length_append, ih, block.2, List.length_cons]
      omega

/-- The data are at the front of their blocks. -/
theorem take_cut {count : Nat} {bytes : Bytes} (h : bytes.length ≤ 512 * count) :
    ((cut count bytes).flatMap (·.1)).take bytes.length = bytes := by
  induction count generalizing bytes with
  | zero =>
      have hnil : bytes = [] := List.eq_nil_of_length_eq_zero (by omega)
      rw [hnil]
      rfl
  | succ count ih =>
      have hrest := @ih (bytes.drop 512) (by rw [List.length_drop]; omega)
      rw [cut, List.flatMap_cons]
      by_cases hshort : bytes.length ≤ 512
      · rw [List.take_append_of_le_length (by rw [(pad bytes).2]; exact hshort)]
        show List.take bytes.length (bytes.take 512 ++ _) = bytes
        rw [List.take_of_length_le hshort, List.take_left]
      · have hblock : (pad bytes).1 = bytes.take 512 := by
          show bytes.take 512 ++ List.replicate (512 - bytes.length) 0 = _
          rw [Nat.sub_eq_zero_of_le (by omega), List.replicate_zero, List.append_nil]
        rw [List.length_drop] at hrest
        rw [List.take_append, (pad bytes).2, hrest, hblock, List.take_take,
          Nat.min_eq_right (by omega), List.take_append_drop]

theorem le_blockCount (size : Nat) : size ≤ 512 * blockCount size := by
  unfold blockCount
  omega

/-! ## Reading what is written -/

section

variable {codec : TarCodec}

/-- Entries come with their header blocks. -/
theorem mem_entriesFrom {fuel : Nat} {pending : Pending} {stream : List Block}
    {read : List Entry} (h : entriesFrom codec fuel pending stream = some read) :
    ∀ entry ∈ read, entry.block ≠ zeroBlock ∧ codec.header entry.block = some entry.header := by
  induction fuel generalizing pending stream read with
  | zero => cases h
  | succ fuel ih =>
      rcases stream with _ | ⟨block, rest⟩
      · rw [entriesFrom] at h
        split at h
        · cases h
          exact nofun
        · cases h
      · rw [entriesFrom] at h
        split at h
        · split at h
          · cases h
            exact nofun
          · cases h
        rename_i hblock
        split at h
        · cases h
        rename_i header hheader
        dsimp only at h
        split at h
        · cases h
        split at h
        · split at h
          · cases h
          · exact ih h
        · split at h
          · cases h
          · exact ih h
        · split at h
          · cases h
          · split at h
            · cases h
            · exact ih h
        · obtain ⟨more, hmore, rfl⟩ := Option.map_eq_some_iff.mp h
          rw [List.forall_mem_cons]
          exact ⟨⟨hblock, hheader⟩, ih hmore⟩

/-- What is read from a written entry on. -/
theorem entriesFrom_append {entry : Entry} (hblock : entry.block ≠ zeroBlock)
    (hheader : codec.header entry.block = some entry.header) (hkept : isKept entry = true)
    (fuel : Nat) (rest : List Block) :
    entriesFrom codec (fuel + 1) .nothing (append entry.block entry.content ++ rest) =
      let blocks := cut (blockCount entry.content.length) entry.content ++ rest
      if blocks.length < blockCount entry.header.size then none
      else
        (entriesFrom codec fuel .nothing (blocks.drop (blockCount entry.header.size))).map
          fun entries =>
            ⟨entry.block, entry.header, entry.header.path, entry.header.linkName,
              ((blocks.take (blockCount entry.header.size)).flatMap (·.1)).take
                entry.header.size⟩ :: entries := by
  rw [append, List.cons_append, entriesFrom, if_neg hblock, hheader]
  have hsize : Pending.nothing.size entry.header = entry.header.size := rfl
  dsimp only
  rw [hsize]
  split
  · rfl
  · rcases htype : entry.header.entryType with _ | _ | _ | _ | _ | _ | _ | _ | name
    all_goals first | rfl | (rw [isKept, htype] at hkept; cases hkept)

/-- What the kept entries of a stream have in common. -/
def Written (codec : TarCodec) (entry : Entry) : Prop :=
  entry.block ≠ zeroBlock ∧ codec.header entry.block = some entry.header ∧ isKept entry = true

def writeAll (read : List Entry) : List Block :=
  read.flatMap fun entry => append entry.block entry.content

/-- A plain entry is read as it was, and reading goes on behind it. -/
theorem entriesFrom_plain {entry : Entry} (hwritten : Written codec entry)
    (hsize : entry.content.length = entry.header.size) (fuel : Nat) (rest : List Block) :
    entriesFrom codec (fuel + 1) .nothing (append entry.block entry.content ++ rest) =
      (entriesFrom codec fuel .nothing rest).map fun entries =>
        ⟨entry.block, entry.header, entry.header.path, entry.header.linkName, entry.content⟩ ::
          entries := by
  obtain ⟨hblock, hheader, hkept⟩ := hwritten
  rw [entriesFrom_append hblock hheader hkept]
  dsimp only
  have hcut := cut_length (blockCount entry.content.length) entry.content
  rw [← hsize, if_neg (by rw [List.length_append, hcut]; omega), List.drop_left' hcut,
    List.take_left' hcut, take_cut (le_blockCount _)]

/-- Plain entries come back. -/
theorem entriesFrom_writeAll {read : List Entry} (hwritten : ∀ entry ∈ read, Written codec entry)
    (hplain : ∀ entry ∈ read, entry.Plain) {fuel : Nat} (hfuel : read.length < fuel) :
    ∃ again, entriesFrom codec fuel .nothing (writeAll read ++ [zeroBlock, zeroBlock]) =
        some again ∧
      again.map (·.view) = read.map (·.view) := by
  induction read generalizing fuel with
  | nil =>
      obtain ⟨fuel, rfl⟩ := Nat.exists_eq_succ_of_ne_zero (by omega : fuel ≠ 0)
      refine ⟨[], ?_, rfl⟩
      rw [writeAll, List.flatMap_nil, List.nil_append, entriesFrom, if_pos rfl, if_pos rfl]
  | cons entry read ih =>
      obtain ⟨fuel, rfl⟩ := Nat.exists_eq_succ_of_ne_zero (by omega : fuel ≠ 0)
      rw [List.forall_mem_cons] at hwritten hplain
      obtain ⟨hpath, hlink, hsize⟩ := hplain.1
      rw [List.length_cons] at hfuel
      obtain ⟨again, hagain, hviews⟩ := ih hwritten.2 hplain.2
        (by omega : read.length < fuel)
      rw [writeAll, List.flatMap_cons, ← writeAll, List.append_assoc,
        entriesFrom_plain hwritten.1 hsize, hagain]
      refine ⟨_, rfl, ?_⟩
      rw [List.map_cons, List.map_cons, hviews, Entry.view, Entry.view, hpath, hlink]

/-- An entry that comes back is plain. -/
theorem plain_of_entriesFrom {read again : List Entry}
    (hwritten : ∀ entry ∈ read, Written codec entry) {fuel : Nat} {rest : List Block}
    (hread : entriesFrom codec fuel .nothing (writeAll read ++ rest) = some again)
    (hviews : again.map (·.view) = read.map (·.view)) : ∀ entry ∈ read, entry.Plain := by
  induction read generalizing fuel again with
  | nil => exact nofun
  | cons entry read ih =>
      rcases fuel with _ | fuel
      · cases hread
      rw [List.forall_mem_cons] at hwritten
      obtain ⟨hblock, hheader, hkept⟩ := hwritten.1
      rw [writeAll, List.flatMap_cons, ← writeAll, List.append_assoc] at hread
      have hfirst := hread
      rw [entriesFrom_append hblock hheader hkept] at hfirst
      dsimp only at hfirst
      split at hfirst
      · cases hfirst
      rename_i hlong
      obtain ⟨more, _, rfl⟩ := Option.map_eq_some_iff.mp hfirst
      rw [List.map_cons, List.map_cons, List.cons.injEq] at hviews
      obtain ⟨hview, hmore⟩ := hviews
      rw [Entry.view, Entry.view, View.mk.injEq] at hview
      obtain ⟨_, hpath, _, hcontent, hlink⟩ := hview
      -- As many bytes are read as the header says.
      have hsize : entry.content.length = entry.header.size := by
        rw [← hcontent, List.length_take, flatMap_length, List.length_take]
        have hle := le_blockCount entry.header.size
        omega
      rw [entriesFrom_plain hwritten.1 hsize] at hread
      obtain ⟨more', hread', heq⟩ := Option.map_eq_some_iff.mp hread
      rw [List.cons.injEq] at heq
      obtain rfl : more' = more := heq.2
      rw [List.forall_mem_cons]
      exact ⟨⟨hpath.symm, hlink.symm, hsize⟩, ih hwritten.2 hread' hmore⟩

theorem length_le_writeAll (read : List Entry) : read.length ≤ (writeAll read).length := by
  induction read with
  | nil => exact Nat.zero_le _
  | cons entry read ih =>
      rw [writeAll, List.flatMap_cons, ← writeAll, append, List.length_append, List.length_cons,
        List.length_cons]
      omega

/-- The normal form is read as the stream is, exactly if everything about the kept entries is
in their fixed headers. -/
theorem normalize_faithful_iff (codec : TarCodec) (stream : List Block) (read : List Entry)
    (hread : entries codec stream = some read) :
    Faithful codec stream ↔ ∀ entry ∈ read, isKept entry = true → entry.Plain := by
  have hwritten : ∀ entry ∈ read.filter isKept, Written codec entry := by
    intro entry hentry
    obtain ⟨hmem, hkept⟩ := List.mem_filter.mp hentry
    obtain ⟨hblock, hheader⟩ := mem_entriesFrom hread entry hmem
    exact ⟨hblock, hheader, hkept⟩
  have hnormal : normalize codec stream =
      some (writeAll (read.filter isKept) ++ [zeroBlock, zeroBlock]) := by
    rw [normalize, hread]
    rfl
  constructor
  · intro hfaithful entry hentry hkept
    obtain ⟨normal, again, hnormal', hagain, hviews⟩ := hfaithful read hread
    obtain rfl := Option.some.inj (hnormal.symm.trans hnormal')
    exact plain_of_entriesFrom hwritten hagain hviews entry
      (List.mem_filter.mpr ⟨hentry, hkept⟩)
  · intro hplain read' hread'
    obtain rfl := Option.some.inj (hread.symm.trans hread')
    have hall : ∀ entry ∈ read.filter isKept, entry.Plain := by
      intro entry hentry
      obtain ⟨hmem, hkept⟩ := List.mem_filter.mp hentry
      exact hplain entry hmem hkept
    have hlength := length_le_writeAll (read.filter isKept)
    have hfuel : (read.filter isKept).length <
        (writeAll (read.filter isKept) ++ [zeroBlock, zeroBlock]).length + 1 := by
      rw [List.length_append]
      omega
    obtain ⟨again, hagain, hviews⟩ := entriesFrom_writeAll hwritten hall hfuel
    exact ⟨_, again, hnormal, hagain, hviews⟩

end

/-! ## A name that does not fit -/

namespace Ustar

def field (block : Block) (start length : Nat) : Bytes :=
  ((block.1.drop start).take length).takeWhile (· != 0)

def number (base : Nat) (digits : Bytes) : Nat :=
  digits.foldl (fun n digit => n * base + (digit.toNat - 48)) 0

def entryType (flag : UInt8) : EntryType :=
  if flag = 48 then .regular
  else if flag = 55 then .continuous
  else if flag = 50 then .symlink
  else if flag = 53 then .directory
  else if flag = 103 then .xGlobalHeader
  else if flag = 120 then .xHeader
  else if flag = 76 then .gnuLongName
  else if flag = 75 then .gnuLongLink
  else .other []

/-- The sum of the bytes, with blanks for the sum itself. -/
def checksum (block : Block) : Nat :=
  ((block.1.take 148 ++ List.replicate 8 32 ++ block.1.drop 156).map UInt8.toNat).sum

def header (block : Block) : Option Header :=
  if checksum block = number 8 (field block 148 8) then
    let path := field block 345 155
    some {
      entryType := entryType (block.1.getD 156 0)
      path := if path.isEmpty then field block 0 100 else path ++ [47] ++ field block 0 100
      linkName := field block 157 100
      mode := number 8 (field block 100 8)
      size := number 8 (field block 124 12) }
  else none

/-- Lines of a length, a key and a value. -/
def records : Nat → Bytes → Option (List (Bytes × Bytes))
  | _, [] => some []
  | 0, _ => none
  | fuel + 1, bytes =>
      let digits := bytes.takeWhile fun b => 48 ≤ b && b < 58
      let line := (bytes.take (number 10 digits)).drop (digits.length + 1)
      if digits.isEmpty || line.getLast? != some 10 then none
      else
        (records fuel (bytes.drop (number 10 digits))).map fun more =>
          (line.takeWhile (· != 61), (line.dropWhile (· != 61)).tail.dropLast) :: more

def extension (bytes : Bytes) : Option Extension :=
  (records bytes.length bytes).map fun records =>
    ⟨records.lookup (Bytes.tag "path"), records.lookup (Bytes.tag "linkpath"),
      (records.lookup (Bytes.tag "size")).map (number 10)⟩

def codec : TarCodec := ⟨header, extension⟩

def fill (length : Nat) (text : String) : Bytes :=
  Bytes.tag text ++ List.replicate (length - (Bytes.tag text).length) 0

/-- A header as `git archive` writes it. -/
def headerBlock (name size checksum flag : String) : Block :=
  pad (fill 100 name ++ fill 8 "0000644" ++ fill 8 "0000000" ++ fill 8 "0000000" ++
    fill 12 size ++ fill 12 "00000000000" ++ fill 8 checksum ++ fill 1 flag ++ fill 100 "" ++
    fill 6 "ustar" ++ fill 2 "00" ++ fill 32 "root" ++ fill 32 "root" ++ fill 8 "0000000" ++
    fill 8 "0000000")

def endBlocks : List Block := [zeroBlock, zeroBlock]

def shortName : List Block := headerBlock "f" "00000000000" "0011153" "0" :: endBlocks

def longPath : Bytes := List.replicate 101 97

/-- A file whose name has one letter more than the field. -/
def longName : List Block :=
  [headerBlock "e69de29bb2d1d6434b8b29ae775ad8c2e48c5391.paxheader" "00000000157" "0020552" "x",
    pad (Bytes.tag "111 path=" ++ longPath ++ [10]),
    headerBlock "e69de29bb2d1d6434b8b29ae775ad8c2e48c5391.data" "00000000000" "0017375" "0"] ++
  endBlocks

def shortEntry : Entry :=
  ⟨headerBlock "f" "00000000000" "0011153" "0", ⟨.regular, [102], [], 0o644, 0⟩, [102], [], []⟩

theorem normalize_faithful_iff_shortName :
    Faithful codec shortName ↔ ∀ entry ∈ [shortEntry], isKept entry = true → entry.Plain :=
  normalize_faithful_iff codec shortName [shortEntry] (by decide +kernel)

/-- The file comes back under the name of the header. -/
theorem normalize_drops_longName : ¬Faithful codec longName := by
  intro h
  have hread : ((entries codec longName).map fun read => (read.filter isKept).map (·.path)) =
      some [longPath] := by decide +kernel
  have hnormal : (((normalize codec longName).bind (entries codec)).map fun again =>
      again.map (·.path)) = some [Bytes.tag "e69de29bb2d1d6434b8b29ae775ad8c2e48c5391.data"] := by
    decide +kernel
  obtain ⟨read, hentries, hpaths⟩ := Option.map_eq_some_iff.mp hread
  obtain ⟨normal, again, hwritten, hagain, hviews⟩ := h read hentries
  rw [hwritten, Option.bind_some, hagain, Option.map_some, Option.some.injEq] at hnormal
  have hsame := congrArg (List.map (·.path)) hviews
  rw [List.map_map, List.map_map] at hsame
  have hdiffer : longPath = Bytes.tag "e69de29bb2d1d6434b8b29ae775ad8c2e48c5391.data" := by
    have heq : [Bytes.tag "e69de29bb2d1d6434b8b29ae775ad8c2e48c5391.data"] = [longPath] :=
      hnormal.symm.trans (hsame.trans hpaths)
    exact (List.cons.inj heq).1.symm
  exact absurd (congrArg List.length hdiffer) (by decide)

end Ustar

end GitArchive
end Bpm
