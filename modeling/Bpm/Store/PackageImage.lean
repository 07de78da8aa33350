import Bpm.Lib.DirTree
import Bpm.Lib.Folds
import Bpm.Lib.Sorting
import Bpm.Store.ImageIndex

/-!
# Package images

An image in the old format carries the contents of its files; the sidecar of today lists
paths and link targets only.  Three decoders read these formats: one keeps the contents,
one seeks over them, and one reads the sidecar.
-/

namespace Bpm
namespace PackageImage

open Bytes DirTree Sorting Text

inductive Entry
  | file (path : Str) (bytes : Bytes)
  | symlink (path target : Str)
deriving DecidableEq

def Entry.path : Entry → Str
  | .file path _ | .symlink path _ => path

/-- What is left of an entry without its payload. -/
def Entry.project : Entry → IndexEntry
  | .file path _ => .file path
  | .symlink path target => .symlink path target

inductive ImageError
  | invalid (detail : Str)
deriving DecidableEq

/-! ## The encoder -/

def writeBytes (bytes : Bytes) : Bytes := writeU32 bytes.length ++ bytes

def Entry.write : Entry → Bytes
  | .file path bytes => 0 :: (writeStr path ++ writeBytes bytes)
  | .symlink path target => 1 :: (writeStr path ++ writeStr target)

def encodeSorted (sorted : List Entry) : Bytes :=
  magic ++ writeU32 sorted.length ++ sorted.flatMap Entry.write

def encode (entries : List Entry) : Bytes := encodeSorted (sortBy Entry.path entries)

/-! ## The decoder that keeps the contents -/

def take (n : Nat) (input : Bytes) : Except ImageError (Bytes × Bytes) :=
  match takeExact n input with
  | some parts => .ok parts
  | none => .error (.invalid (lit "truncated image"))

def takeU32 (input : Bytes) : Except ImageError (Nat × Bytes) := do
  let (number, rest) ← take 4 input
  return (ofLittleEndian number, rest)

def takeBytes (input : Bytes) : Except ImageError (Bytes × Bytes) := do
  let (n, rest) ← takeU32 input
  take n rest

def takeStr (input : Bytes) : Except ImageError (Str × Bytes) := do
  let (bytes, rest) ← takeBytes input
  match text bytes with
  | some s => return (s, rest)
  | none => throw (.invalid (lit "invalid utf-8"))

def takeEntry (input : Bytes) : Except ImageError (Entry × Bytes) := do
  let (kind, rest) ← take 1 input
  let (path, rest) ← takeStr rest
  if kind = [0] then
    let (bytes, rest) ← takeBytes rest
    return (.file path bytes, rest)
  else if kind = [1] then
    let (target, rest) ← takeStr rest
    return (.symlink path target, rest)
  else throw (.invalid (lit "unknown entry kind"))

def takeEntries : Nat → Bytes → Except ImageError (List Entry × Bytes)
  | 0, input => return ([], input)
  | count + 1, input => do
      let (entry, rest) ← takeEntry input
      let (entries, rest) ← takeEntries count rest
      return (entry :: entries, rest)

def decode (bytes : Bytes) : Except ImageError (List Entry) :=
  if bytes.take 8 = magic then do
    let (count, rest) ← takeU32 (bytes.drop 8)
    let (entries, rest) ← takeEntries count rest
    if rest.isEmpty then return entries
    else throw (.invalid (lit "trailing bytes"))
  else throw (.invalid (lit "bad magic"))

/-! ## Images of directories -/

namespace OnDisk

def entry : Path × Inode Bytes → Option Entry
  | (_, .directory) => none
  | (path, .file content) => some (.file (pathText path) content)
  | (path, .symlink target) => some (.symlink (pathText path) (toStringLossy target))

/-- The files and links below a directory, in the order of the walk. -/
def collect (root : DirTree) : List Entry := root.objects.filterMap entry

def fromDirectory (root : DirTree) : Bytes := encodeSorted (sortBy Entry.path (collect root))

def indexEntry : Path × Inode Bytes → Option IndexEntry
  | (_, .directory) => none
  | (path, .file _) => some (.file (pathText path))
  | (path, .symlink target) => some (.symlink (pathText path) (toStringLossy target))

def collectIndex (root : DirTree) : List IndexEntry := root.objects.filterMap indexEntry

def fromDirectoryIndex (root : DirTree) : Bytes :=
  encodeIndex (sortBy PackageImage.path (collectIndex root))

end OnDisk

/-! ## What each reader accepts -/

/-- All lengths of the entry fit into 32 bits. -/
def Entry.Sized : Entry → Prop
  | .file path bytes => (utf8 path).length < 2 ^ 32 ∧ bytes.length < 2 ^ 32
  | .symlink path target => (utf8 path).length < 2 ^ 32 ∧ (utf8 target).length < 2 ^ 32

/-- The number of entries and all lengths fit into 32 bits. -/
def Encodable (entries : List Entry) : Prop :=
  entries.length < 2 ^ 32 ∧ ∀ entry ∈ entries, entry.Sized

theorem take_eq_ok {n : Nat} {input x rest : Bytes} :
    take n input = .ok (x, rest) ↔ x.length = n ∧ input = x ++ rest := by
  rw [← takeExact_eq_some]
  unfold take
  cases takeExact n input with
  | none => exact iff_of_false nofun nofun
  | some parts => simp

theorem ofLittleEndian_eq_iff {number : Bytes} (h : number.length = 4) {v : Nat} :
    ofLittleEndian number = v ↔ v < 2 ^ 32 ∧ number = writeU32 v := by
  have hbound : (2 : Nat) ^ 32 = 256 ^ 4 := by decide
  rw [hbound]
  constructor
  · rintro rfl
    rw [writeU32, ← h]
    exact ⟨ofLittleEndian_lt number, (littleEndian_ofLittleEndian number).symm⟩
  · rintro ⟨hlt, rfl⟩
    exact ofLittleEndian_littleEndian hlt

theorem writeU32_length (v : Nat) : (writeU32 v).length = 4 := littleEndian_length 4 v

theorem readU32_eq_some {input rest : Bytes} {v : Nat} :
    readU32 input = some (v, rest) ↔ v < 2 ^ 32 ∧ input = writeU32 v ++ rest := by
  unfold readU32
  constructor
  · intro h
    obtain ⟨⟨number, tail⟩, htake, heq⟩ := Option.map_eq_some_iff.mp h
    obtain ⟨hvalue, rfl⟩ := Prod.mk.inj heq
    obtain ⟨hlength, rfl⟩ := takeExact_eq_some.mp htake
    obtain ⟨hlt, hnumber⟩ := (ofLittleEndian_eq_iff hlength).mp hvalue
    exact ⟨hlt, by rw [← hnumber]⟩
  · rintro ⟨hlt, rfl⟩
    exact readU32_writeU32 hlt rest

theorem takeU32_eq_ok {input rest : Bytes} {v : Nat} :
    takeU32 input = .ok (v, rest) ↔ v < 2 ^ 32 ∧ input = writeU32 v ++ rest := by
  rw [← readU32_eq_some]
  unfold takeU32 readU32 take
  cases takeExact 4 input with
  | none => exact iff_of_false nofun nofun
  | some parts => simp [pure, Except.pure, bind, Except.bind]

theorem takeBytes_eq_ok {input bytes rest : Bytes} :
    takeBytes input = .ok (bytes, rest) ↔
      bytes.length < 2 ^ 32 ∧ input = writeBytes bytes ++ rest := by
  unfold takeBytes writeBytes
  rw [Except.bind_eq_ok]
  constructor
  · rintro ⟨⟨n, tail⟩, hu32, htake⟩
    obtain ⟨hlt, rfl⟩ := takeU32_eq_ok.mp hu32
    obtain ⟨rfl, rfl⟩ := take_eq_ok.mp htake
    exact ⟨hlt, (List.append_assoc _ _ _).symm⟩
  · rintro ⟨hlt, rfl⟩
    exact ⟨(bytes.length, bytes ++ rest), takeU32_eq_ok.mpr ⟨hlt, List.append_assoc _ _ _⟩,
      take_eq_ok.mpr ⟨rfl, rfl⟩⟩

theorem takeStr_eq_ok {input rest : Bytes} {s : Str} :
    takeStr input = .ok (s, rest) ↔
      (utf8 s).length < 2 ^ 32 ∧ input = writeStr s ++ rest := by
  unfold takeStr
  rw [Except.bind_eq_ok]
  constructor
  · rintro ⟨⟨bytes, tail⟩, hbytes, h⟩
    obtain ⟨hlt, rfl⟩ := takeBytes_eq_ok.mp hbytes
    dsimp only at h
    split at h
    · rename_i t htext
      obtain ⟨rfl, rfl⟩ := Prod.mk.inj (Except.ok.inj h)
      obtain rfl := text_eq_some.mp htext
      exact ⟨hlt, rfl⟩
    · cases h
  · rintro ⟨hlt, rfl⟩
    refine ⟨(utf8 s, rest), takeBytes_eq_ok.mpr ⟨hlt, rfl⟩, ?_⟩
    dsimp only
    rw [text_utf8]
    rfl

/-- The decoder reads exactly what is written for an entry. -/
theorem takeEntry_eq_ok {input rest : Bytes} {entry : Entry} :
    takeEntry input = .ok (entry, rest) ↔ entry.Sized ∧ input = entry.write ++ rest := by
  unfold takeEntry
  rw [Except.bind_eq_ok]
  constructor
  · rintro ⟨⟨kind, tail⟩, hkind, hafter⟩
    obtain ⟨hlength, rfl⟩ := take_eq_ok.mp hkind
    obtain ⟨⟨path, tail₁⟩, hpath, hbody⟩ := Except.bind_eq_ok.mp hafter
    obtain ⟨hpathlt, rfl⟩ := takeStr_eq_ok.mp hpath
    dsimp only at hbody
    by_cases hfile : kind = [0]
    · rw [if_pos hfile] at hbody
      obtain ⟨⟨bytes, tail₂⟩, hbytes, hend⟩ := Except.bind_eq_ok.mp hbody
      obtain ⟨hlt, rfl⟩ := takeBytes_eq_ok.mp hbytes
      obtain ⟨rfl, rfl⟩ := Prod.mk.inj (Except.ok.inj hend)
      exact ⟨⟨hpathlt, hlt⟩, by rw [hfile, Entry.write]; simp⟩
    · rw [if_neg hfile] at hbody
      by_cases hlink : kind = [1]
      · rw [if_pos hlink] at hbody
        obtain ⟨⟨target, tail₂⟩, htarget, hend⟩ := Except.bind_eq_ok.mp hbody
        obtain ⟨hlt, rfl⟩ := takeStr_eq_ok.mp htarget
        obtain ⟨rfl, rfl⟩ := Prod.mk.inj (Except.ok.inj hend)
        exact ⟨⟨hpathlt, hlt⟩, by rw [hlink, Entry.write]; simp⟩
      · rw [if_neg hlink] at hbody
        cases hbody
  · rintro ⟨hsized, rfl⟩
    cases entry with
    | file path bytes =>
        refine ⟨([0], writeStr path ++ (writeBytes bytes ++ rest)),
          take_eq_ok.mpr ⟨rfl, by rw [Entry.write]; simp⟩, Except.bind_eq_ok.mpr
            ⟨_, takeStr_eq_ok.mpr ⟨hsized.1, rfl⟩, ?_⟩⟩
        dsimp only
        rw [if_pos rfl]
        exact Except.bind_eq_ok.mpr ⟨_, takeBytes_eq_ok.mpr ⟨hsized.2, rfl⟩, rfl⟩
    | symlink path target =>
        refine ⟨([1], writeStr path ++ (writeStr target ++ rest)),
          take_eq_ok.mpr ⟨rfl, by rw [Entry.write]; simp⟩, Except.bind_eq_ok.mpr
            ⟨_, takeStr_eq_ok.mpr ⟨hsized.1, rfl⟩, ?_⟩⟩
        dsimp only
        rw [if_neg (by decide), if_pos rfl]
        exact Except.bind_eq_ok.mpr ⟨_, takeStr_eq_ok.mpr ⟨hsized.2, rfl⟩, rfl⟩

theorem takeEntries_eq_ok {count : Nat} {input rest : Bytes} {entries : List Entry} :
    takeEntries count input = .ok (entries, rest) ↔ entries.length = count ∧
      (∀ entry ∈ entries, entry.Sized) ∧ input = entries.flatMap Entry.write ++ rest := by
  induction count generalizing input entries with
  | zero =>
      rw [takeEntries, List.length_eq_zero_iff]
      constructor
      · intro h
        obtain ⟨rfl, rfl⟩ := Prod.mk.inj (Except.ok.inj h)
        exact ⟨rfl, nofun, rfl⟩
      · rintro ⟨rfl, _, rfl⟩
        rfl
  | succ count ih =>
      rw [takeEntries, Except.bind_eq_ok]
      constructor
      · rintro ⟨⟨first, tail⟩, hfirst, hafter⟩
        obtain ⟨⟨others, tail₁⟩, hothers, hend⟩ := Except.bind_eq_ok.mp hafter
        obtain ⟨rfl, rfl⟩ := Prod.mk.inj (Except.ok.inj hend)
        obtain ⟨hsized, rfl⟩ := takeEntry_eq_ok.mp hfirst
        obtain ⟨rfl, hall, rfl⟩ := ih.mp hothers
        exact ⟨rfl, List.forall_mem_cons.mpr ⟨hsized, hall⟩, by simp⟩
      · rintro ⟨hlength, hall, rfl⟩
        cases entries with
        | nil => cases hlength
        | cons first others =>
            rw [List.forall_mem_cons] at hall
            have hothers : takeEntries count (others.flatMap Entry.write ++ rest) =
                .ok (others, rest) := ih.mpr ⟨Nat.succ.inj hlength, hall.2, rfl⟩
            refine ⟨(first, others.flatMap Entry.write ++ rest),
              takeEntry_eq_ok.mpr ⟨hall.1, by simp⟩, Except.bind_eq_ok.mpr ⟨_, hothers, rfl⟩⟩

theorem magic_length : magic.length = 8 := by decide

/-- What decodes is what is encoded in this order. -/
theorem decode_eq_ok {bytes : Bytes} {entries : List Entry} :
    decode bytes = .ok entries ↔ Encodable entries ∧ bytes = encodeSorted entries := by
  unfold decode encodeSorted
  constructor
  · intro h
    by_cases hmagic : bytes.take 8 = magic
    · rw [if_pos hmagic] at h
      obtain ⟨⟨count, tail⟩, hcount, hafter⟩ := Except.bind_eq_ok.mp h
      obtain ⟨⟨decoded, tail₁⟩, hentries, hend⟩ := Except.bind_eq_ok.mp hafter
      dsimp only at hend
      split at hend
      · rename_i hempty
        obtain rfl := Except.ok.inj hend
        obtain ⟨hlt, hdrop⟩ := takeU32_eq_ok.mp hcount
        obtain ⟨rfl, hall, rfl⟩ := takeEntries_eq_ok.mp hentries
        obtain rfl := List.isEmpty_iff.mp hempty
        refine ⟨⟨hlt, hall⟩, ?_⟩
        rw [← List.take_append_drop 8 bytes, hmagic, hdrop, List.append_nil, List.append_assoc]
      · cases hend
    · rw [if_neg hmagic] at h
      cases h
  · rintro ⟨⟨hlt, hall⟩, rfl⟩
    have hcount : takeU32 (writeU32 entries.length ++ entries.flatMap Entry.write) =
        .ok (entries.length, entries.flatMap Entry.write) := takeU32_eq_ok.mpr ⟨hlt, rfl⟩
    have hentries : takeEntries entries.length (entries.flatMap Entry.write) =
        .ok (entries, []) := takeEntries_eq_ok.mpr ⟨rfl, hall, (List.append_nil _).symm⟩
    rw [List.append_assoc, ← magic_length, List.take_left, if_pos rfl, List.drop_left, hcount]
    exact Except.bind_eq_ok.mpr ⟨_, rfl, Except.bind_eq_ok.mpr ⟨_, hentries, rfl⟩⟩

/-! ## The decoders of the metadata -/

/-- The texts of an entry are within the limit. -/
def ReadableEntry (entry : IndexEntry) : Prop :=
  Readable (path entry) ∧ ∀ p target, entry = .symlink p target → Readable target

theorem Readable.lt {s : Str} (h : Readable s) : (utf8 s).length < 2 ^ 32 := by
  have hmax : maxIndexString < 2 ^ 32 := by decide
  unfold Readable at h
  omega

theorem readBoundedString_eq_some {input rest : Bytes} {s : Str} :
    readBoundedString input = some (s, rest) ↔ Readable s ∧ input = writeStr s ++ rest := by
  constructor
  · intro h
    obtain ⟨⟨n, tail⟩, hu32, hafter⟩ := Option.bind_eq_some_iff.mp h
    obtain ⟨hlt, rfl⟩ := readU32_eq_some.mp hu32
    dsimp only at hafter
    split at hafter
    · cases hafter
    · rename_i hle
      obtain ⟨⟨bytes, tail₁⟩, htake, hvalue⟩ := Option.bind_eq_some_iff.mp hafter
      obtain ⟨rfl, rfl⟩ := takeExact_eq_some.mp htake
      obtain ⟨t, htext, hend⟩ := Option.bind_eq_some_iff.mp hvalue
      obtain rfl := text_eq_some.mp htext
      obtain ⟨rfl, rfl⟩ := Prod.mk.inj (Option.some.inj hend)
      exact ⟨Nat.le_of_not_lt hle, (List.append_assoc _ _ _).symm⟩
  · rintro ⟨hreadable, rfl⟩
    exact readBoundedString_writeStr hreadable rest

/-- An entry of the sidecar is read exactly where it is written. -/
theorem readEntry_false_eq_some {input rest : Bytes} {entry : IndexEntry} :
    readEntry false input = some (entry, rest) ↔
      ReadableEntry entry ∧ input = writeEntry entry ++ rest := by
  constructor
  · intro h
    match input with
    | kind :: tail =>
        obtain ⟨⟨path, tail₁⟩, hpath, hafter⟩ := Option.bind_eq_some_iff.mp h
        obtain ⟨hreadable, rfl⟩ := readBoundedString_eq_some.mp hpath
        dsimp only at hafter
        by_cases hfile : kind = 0
        · rw [if_pos hfile] at hafter
          obtain ⟨rfl, rfl⟩ := Prod.mk.inj (Option.some.inj hafter)
          exact ⟨⟨hreadable, nofun⟩, by rw [hfile]; rfl⟩
        · rw [if_neg hfile] at hafter
          by_cases hlink : kind = 1
          · rw [if_pos hlink] at hafter
            obtain ⟨⟨target, tail₂⟩, htarget, hend⟩ := Option.bind_eq_some_iff.mp hafter
            obtain ⟨hreadable', rfl⟩ := readBoundedString_eq_some.mp htarget
            obtain ⟨rfl, rfl⟩ := Prod.mk.inj (Option.some.inj hend)
            refine ⟨⟨hreadable, ?_⟩, by rw [hlink, writeEntry]; simp⟩
            rintro _ _ ⟨⟩
            exact hreadable'
          · rw [if_neg hlink] at hafter
            cases hafter
  · rintro ⟨⟨hpath, htarget⟩, rfl⟩
    exact readEntry_writeEntry hpath htarget rest

/-- In an image, a payload that the data can hold is passed over. -/
theorem readEntry_true_eq_some {input rest : Bytes} {entry : IndexEntry} :
    readEntry true input = some (entry, rest) ↔ ∃ full : Entry, full.project = entry ∧
      full.Sized ∧ ReadableEntry entry ∧ input = full.write ++ rest := by
  constructor
  · intro h
    match input with
    | kind :: tail =>
        obtain ⟨⟨path, tail₁⟩, hpath, hafter⟩ := Option.bind_eq_some_iff.mp h
        obtain ⟨hreadable, rfl⟩ := readBoundedString_eq_some.mp hpath
        dsimp only at hafter
        by_cases hfile : kind = 0
        · rw [if_pos hfile, if_pos rfl] at hafter
          obtain ⟨⟨n, tail₂⟩, hu32, hpayload⟩ := Option.bind_eq_some_iff.mp hafter
          obtain ⟨hlt, rfl⟩ := readU32_eq_some.mp hu32
          obtain ⟨⟨bytes, tail₃⟩, htake, hend⟩ := Option.bind_eq_some_iff.mp hpayload
          obtain ⟨rfl, rfl⟩ := takeExact_eq_some.mp htake
          obtain ⟨rfl, rfl⟩ := Prod.mk.inj (Option.some.inj hend)
          refine ⟨.file path bytes, rfl, ⟨hreadable.lt, hlt⟩, ⟨hreadable, nofun⟩, ?_⟩
          rw [hfile, Entry.write, writeBytes]
          simp
        · rw [if_neg hfile] at hafter
          by_cases hlink : kind = 1
          · rw [if_pos hlink] at hafter
            obtain ⟨⟨target, tail₂⟩, htarget, hend⟩ := Option.bind_eq_some_iff.mp hafter
            obtain ⟨hreadable', rfl⟩ := readBoundedString_eq_some.mp htarget
            obtain ⟨rfl, rfl⟩ := Prod.mk.inj (Option.some.inj hend)
            refine ⟨.symlink path target, rfl, ⟨hreadable.lt, hreadable'.lt⟩, ⟨hreadable, ?_⟩, ?_⟩
            · rintro _ _ ⟨⟩
              exact hreadable'
            · rw [hlink, Entry.write]
              simp
          · rw [if_neg hlink] at hafter
            cases hafter
  · rintro ⟨full, rfl, hsized, ⟨hpath, htarget⟩, rfl⟩
    cases full with
    | file path bytes =>
        rw [Entry.write, List.cons_append, List.append_assoc, readEntry]
        simp only [Option.bind_eq_bind, readBoundedString_writeStr (s := path) hpath,
          Option.bind_some, if_true]
        rw [writeBytes, List.append_assoc, readU32_writeU32 hsized.2]
        simp [takeExact_append, Entry.project]
    | symlink path target =>
        rw [Entry.write, List.cons_append, List.append_assoc, readEntry]
        simp [readBoundedString_writeStr (s := path) hpath,
          readBoundedString_writeStr (htarget path target rfl), Entry.project]

section Body

variable {payloads : Bool} {ω : Type} {write : ω → Bytes} {view : ω → IndexEntry} {ok : ω → Prop}
  (hentry : ∀ {input rest entry}, readEntry payloads input = some (entry, rest) ↔
    ∃ full, view full = entry ∧ ok full ∧ input = write full ++ rest)

include hentry

/-- A reader of entries reads lists of entries. -/
theorem readEntries_eq_some {count : Nat} {input rest : Bytes} {entries : List IndexEntry} :
    readEntries payloads count input = some (entries, rest) ↔ ∃ fulls : List ω,
      fulls.map view = entries ∧ fulls.length = count ∧ (∀ full ∈ fulls, ok full) ∧
        input = fulls.flatMap write ++ rest := by
  induction count generalizing input entries with
  | zero =>
      rw [readEntries]
      constructor
      · intro h
        obtain ⟨rfl, rfl⟩ := Prod.mk.inj (Option.some.inj h)
        exact ⟨[], rfl, rfl, by simp, rfl⟩
      · rintro ⟨fulls, rfl, hlength, _, rfl⟩
        rw [List.length_eq_zero_iff.mp hlength]
        rfl
  | succ count ih =>
      constructor
      · intro h
        obtain ⟨⟨first, tail⟩, hfirst, hafter⟩ := Option.bind_eq_some_iff.mp h
        obtain ⟨⟨others, tail₁⟩, hothers, hend⟩ := Option.bind_eq_some_iff.mp hafter
        obtain ⟨rfl, rfl⟩ := Prod.mk.inj (Option.some.inj hend)
        obtain ⟨full, rfl, hok, rfl⟩ := hentry.mp hfirst
        obtain ⟨fulls, rfl, rfl, hall, rfl⟩ := ih.mp hothers
        exact ⟨full :: fulls, rfl, rfl, List.forall_mem_cons.mpr ⟨hok, hall⟩, by simp⟩
      · rintro ⟨fulls, rfl, hlength, hall, rfl⟩
        cases fulls with
        | nil => cases hlength
        | cons full fulls =>
            rw [List.forall_mem_cons] at hall
            have hfirst : readEntry payloads ((full :: fulls).flatMap write ++ rest) =
                some (view full, fulls.flatMap write ++ rest) :=
              hentry.mpr ⟨full, rfl, hall.1, by simp⟩
            have hothers : readEntries payloads count (fulls.flatMap write ++ rest) =
                some (fulls.map view, rest) :=
              ih.mpr ⟨fulls, rfl, Nat.succ.inj hlength, hall.2, rfl⟩
            rw [readEntries, hfirst]
            apply Option.bind_eq_some_iff.mpr
            exact ⟨_, rfl, Option.bind_eq_some_iff.mpr ⟨_, hothers, rfl⟩⟩

theorem readBody_eq_some {smallest : Nat} (hsmallest : ∀ full, smallest ≤ (write full).length)
    {input : Bytes} {entries : List IndexEntry} :
    readBody payloads smallest input = some entries ↔ ∃ fulls : List ω,
      fulls.map view = entries ∧ fulls.length ≤ maxIndexEntries ∧ (∀ full ∈ fulls, ok full) ∧
        input = writeU32 fulls.length ++ fulls.flatMap write := by
  unfold readBody
  constructor
  · intro h
    obtain ⟨⟨count, tail⟩, hcount, hafter⟩ := Option.bind_eq_some_iff.mp h
    dsimp only at hafter
    by_cases hmax : count > maxIndexEntries
    · rw [if_pos hmax] at hafter
      cases hafter
    rw [if_neg hmax] at hafter
    by_cases hroom : count * smallest > tail.length
    · rw [if_pos hroom] at hafter
      cases hafter
    rw [if_neg hroom] at hafter
    obtain ⟨⟨decoded, tail₁⟩, hentries, hend⟩ := Option.bind_eq_some_iff.mp hafter
    dsimp only at hend
    by_cases hempty : tail₁.isEmpty = true
    · rw [if_pos hempty] at hend
      obtain rfl := Option.some.inj hend
      obtain rfl := List.isEmpty_iff.mp hempty
      obtain ⟨fulls, rfl, rfl, hall, rfl⟩ := (readEntries_eq_some hentry).mp hentries
      obtain ⟨_, rfl⟩ := readU32_eq_some.mp hcount
      exact ⟨fulls, rfl, Nat.le_of_not_lt hmax, hall, by rw [List.append_nil]⟩
    · rw [if_neg hempty] at hend
      cases hend
  · rintro ⟨fulls, rfl, hle, hall, rfl⟩
    have hlt : fulls.length < 2 ^ 32 := by
      have hmax : maxIndexEntries < 2 ^ 32 := by decide
      omega
    have hroom : fulls.length * smallest ≤ (fulls.flatMap write).length := by
      rw [List.length_flatMap, ← smul_eq_mul, ← List.length_map (fun full => (write full).length)]
      apply List.card_nsmul_le_sum
      intro n hn
      obtain ⟨full, _, rfl⟩ := List.mem_map.mp hn
      exact hsmallest full
    have hentries : readEntries payloads fulls.length (fulls.flatMap write) =
        some (fulls.map view, []) :=
      (readEntries_eq_some hentry).mpr ⟨fulls, rfl, rfl, hall, (List.append_nil _).symm⟩
    rw [readU32_writeU32 hlt]
    apply Option.bind_eq_some_iff.mpr
    refine ⟨_, rfl, ?_⟩
    dsimp only
    rw [if_neg (Nat.not_lt.mpr hle), if_neg (Nat.not_lt.mpr hroom), hentries]
    rfl

end Body

theorem indexMagic_length : indexMagic.length = 8 := by decide

theorem decodeIndex_append {found rest : Bytes} (h : found.length = 8) :
    decodeIndex (found ++ rest) =
      if found = indexMagic then readBody false 5 rest
      else if found = magic then readBody true 9 rest else none := by
  unfold decodeIndex
  rw [takeExact_eq_some.mpr ⟨h, rfl⟩]
  rfl

/-- The sidecar decodes exactly when it is the encoding of entries within the limits. -/
theorem decodeIndex_eq_some {rest : Bytes} {entries : List IndexEntry} :
    decodeIndex (indexMagic ++ rest) = some entries ↔
      WithinLimits entries ∧ indexMagic ++ rest = encodeIndex entries := by
  have hsmallest : ∀ entry : IndexEntry, 5 ≤ (writeEntry entry).length := by
    intro entry
    cases entry <;> simp [writeEntry, writeStr, writeU32]
  have hentry : ∀ {input rest entry}, readEntry false input = some (entry, rest) ↔
      ∃ full, id full = entry ∧ ReadableEntry full ∧ input = writeEntry full ++ rest := by
    intro input rest entry
    rw [readEntry_false_eq_some]
    simp
  rw [decodeIndex_append indexMagic_length, if_pos rfl, readBody_eq_some hentry hsmallest]
  unfold encodeIndex
  constructor
  · rintro ⟨fulls, rfl, hle, hall, rfl⟩
    rw [List.map_id]
    exact ⟨⟨hle, hall⟩, (List.append_assoc _ _ _).symm⟩
  · rintro ⟨⟨hle, hall⟩, heq⟩
    rw [List.append_assoc] at heq
    exact ⟨entries, List.map_id entries, hle, hall, List.append_cancel_left heq⟩

/-- All lengths of an entry of the index fit into 32 bits. -/
def ShortEntry : IndexEntry → Prop
  | .file path => (utf8 path).length < 2 ^ 32
  | .symlink path target => (utf8 path).length < 2 ^ 32 ∧ (utf8 target).length < 2 ^ 32

theorem ReadableEntry.short {entry : IndexEntry} (h : ReadableEntry entry) : ShortEntry entry := by
  cases entry with
  | file path => exact Readable.lt h.1
  | symlink path target => exact ⟨Readable.lt h.1, Readable.lt (h.2 path target rfl)⟩

theorem writeStr_append_inj {s t : Str} {r r' : Bytes} (hs : (utf8 s).length < 2 ^ 32)
    (ht : (utf8 t).length < 2 ^ 32) (h : writeStr s ++ r = writeStr t ++ r') : s = t ∧ r = r' := by
  have hbound : (2 : Nat) ^ 32 = 256 ^ 4 := by decide
  rw [hbound] at hs ht
  rw [writeStr, writeStr, List.append_assoc, List.append_assoc] at h
  obtain ⟨hutf8, hr⟩ := sized_append_inj hs ht h
  exact ⟨utf8_inj hutf8, hr⟩

theorem writeEntry_append_inj {a b : IndexEntry} {r r' : Bytes} (ha : ShortEntry a)
    (hb : ShortEntry b) (h : writeEntry a ++ r = writeEntry b ++ r') : a = b ∧ r = r' := by
  cases a with
  | file p =>
      cases b with
      | file q =>
          obtain ⟨hpath, hr⟩ := writeStr_append_inj ha hb (List.cons.inj h).2
          exact ⟨by rw [hpath], hr⟩
      | symlink _ _ => cases (List.cons.inj h).1
  | symlink p s =>
      cases b with
      | file _ => cases (List.cons.inj h).1
      | symlink q t =>
          rw [writeEntry, writeEntry, List.cons_append, List.cons_append, List.append_assoc,
            List.append_assoc] at h
          obtain ⟨hpath, hrest⟩ := writeStr_append_inj ha.1 hb.1 (List.cons.inj h).2
          obtain ⟨htarget, hr⟩ := writeStr_append_inj ha.2 hb.2 hrest
          exact ⟨by rw [hpath, htarget], hr⟩

/-- An index is read back as it was written, or refused when it exceeds the limits. -/
theorem decodeIndex_encodeIndex_iff {entries decoded : List IndexEntry}
    (h : ∀ entry ∈ entries, ShortEntry entry) :
    decodeIndex (encodeIndex entries) = some decoded ↔ decoded = entries ∧ WithinLimits entries := by
  constructor
  · intro hdecode
    have hsplit : encodeIndex entries =
        indexMagic ++ (writeU32 entries.length ++ entries.flatMap writeEntry) :=
      List.append_assoc _ _ _
    rw [hsplit] at hdecode
    obtain ⟨hlimits, heq⟩ := decodeIndex_eq_some.mp hdecode
    rw [encodeIndex, List.append_assoc] at heq
    have hbody := (List.append_inj (List.append_cancel_left heq)
      (by rw [writeU32_length, writeU32_length])).2
    have hview := @flatMap_inj _ _ writeEntry id ShortEntry
      (fun entry => by cases entry <;> exact List.cons_ne_nil _ _) writeEntry_append_inj _ _ h
      (fun entry hmem => ReadableEntry.short (hlimits.2 entry hmem)) hbody
    rw [List.map_id, List.map_id] at hview
    exact ⟨hview.symm, hview ▸ hlimits⟩
  · rintro ⟨rfl, hlimits⟩
    exact decodeIndex_encodeIndex hlimits

/-- An image is decoded without its payloads exactly when it decodes and is within the
limits. -/
theorem decodeIndex_image_eq_some {bytes : Bytes} (hmagic : magic <+: bytes)
    {entries : List IndexEntry} :
    decodeIndex bytes = some entries ↔ ∃ fulls : List Entry, fulls.map Entry.project = entries ∧
      WithinLimits entries ∧ decode bytes = .ok fulls := by
  obtain ⟨rest, rfl⟩ := hmagic
  have hsmallest : ∀ full : Entry, 9 ≤ full.write.length := by
    intro full
    cases full <;> simp [Entry.write, writeStr, writeBytes, writeU32] <;> omega
  have hentry : ∀ {input rest entry}, readEntry true input = some (entry, rest) ↔
      ∃ full : Entry, full.project = entry ∧ (full.Sized ∧ ReadableEntry full.project) ∧
        input = full.write ++ rest := by
    intro input rest entry
    rw [readEntry_true_eq_some]
    constructor
    · rintro ⟨full, rfl, hsized, hreadable, heq⟩
      exact ⟨full, rfl, ⟨hsized, hreadable⟩, heq⟩
    · rintro ⟨full, rfl, ⟨hsized, hreadable⟩, heq⟩
      exact ⟨full, rfl, hsized, hreadable, heq⟩
  have hne : magic ≠ indexMagic := by decide
  rw [decodeIndex_append magic_length, if_neg hne, if_pos rfl, readBody_eq_some hentry hsmallest]
  constructor
  · rintro ⟨fulls, rfl, hle, hall, rfl⟩
    have hlt : fulls.length < 2 ^ 32 := by
      have hmax : maxIndexEntries < 2 ^ 32 := by decide
      omega
    refine ⟨fulls, rfl, ⟨?_, ?_⟩, decode_eq_ok.mpr ⟨⟨hlt, fun full h => (hall full h).1⟩, ?_⟩⟩
    · rwa [List.length_map]
    · intro entry hmem
      obtain ⟨full, hfull, rfl⟩ := List.mem_map.mp hmem
      exact (hall full hfull).2
    · exact (List.append_assoc _ _ _).symm
  · rintro ⟨fulls, rfl, ⟨hle, hall⟩, hdecode⟩
    obtain ⟨⟨_, hsized⟩, heq⟩ := decode_eq_ok.mp hdecode
    rw [encodeSorted, List.append_assoc] at heq
    rw [List.length_map] at hle
    refine ⟨fulls, rfl, hle, fun full hfull => ⟨hsized full hfull, ?_⟩, List.append_cancel_left heq⟩
    exact hall _ (List.mem_map_of_mem hfull)

/-! ## Round trips -/

/-- The encoder forgets the order of the list and nothing else. -/
theorem decode_encode {entries : List Entry} (h : Encodable entries) :
    decode (encode entries) = .ok (sortBy Entry.path entries) := by
  have hperm := sortBy_perm Entry.path entries
  apply decode_eq_ok.mpr
  refine ⟨⟨?_, ?_⟩, rfl⟩
  · rw [hperm.length_eq]
    exact h.1
  · intro entry hmem
    exact h.2 entry (hperm.mem_iff.mp hmem)

/-- The limits of the index, for what an image decodes to. -/
def RespectsLimits (bytes : Bytes) : Prop :=
  ∀ entries, decode bytes = .ok entries → WithinLimits (entries.map Entry.project)

/-- Seeking over the payloads or keeping them makes no other difference. -/
theorem decodeIndex_eq_decode {bytes : Bytes} (hmagic : magic <+: bytes)
    (hlimits : RespectsLimits bytes) :
    decodeIndex bytes = (decode bytes).toOption.map (List.map Entry.project) := by
  apply Option.ext
  intro entries
  rw [decodeIndex_image_eq_some hmagic, Option.map_eq_some_iff]
  constructor
  · rintro ⟨fulls, rfl, _, hdecode⟩
    exact ⟨fulls, by rw [hdecode]; rfl, rfl⟩
  · rintro ⟨fulls, hdecode, rfl⟩
    have hdecode : decode bytes = .ok fulls := by
      cases hresult : decode bytes with
      | error e =>
          rw [hresult] at hdecode
          cases hdecode
      | ok decoded =>
          rw [hresult] at hdecode
          exact congrArg Except.ok (Option.some.inj hdecode)
    exact ⟨fulls, rfl, hlimits fulls hdecode, hdecode⟩

namespace OnDisk

theorem collectIndex_eq (root : DirTree) :
    collectIndex root = (collect root).map Entry.project := by
  unfold collectIndex collect
  rw [List.map_filterMap]
  congr 1
  funext ⟨path, object⟩
  cases object <;> rfl

/-- The sidecar lists what the image would list. -/
theorem sortedIndex_eq (root : DirTree) : sortBy PackageImage.path (collectIndex root) =
    (sortBy Entry.path (collect root)).map Entry.project := by
  rw [collectIndex_eq]
  apply sortBy_map
  intro entry
  cases entry <;> rfl

theorem decodeIndex_fromDirectoryIndex {root : DirTree}
    (h : WithinLimits ((collect root).map Entry.project)) :
    decodeIndex (fromDirectoryIndex root) =
      some ((sortBy Entry.path (collect root)).map Entry.project) := by
  have hperm := (sortBy_perm Entry.path (collect root)).map Entry.project
  rw [fromDirectoryIndex, sortedIndex_eq]
  apply decodeIndex_encodeIndex
  constructor
  · rw [hperm.length_eq]
    exact h.1
  · intro entry hmem
    exact h.2 entry (hperm.mem_iff.mp hmem)

theorem encodable_collect {root : DirTree}
    (hlimits : WithinLimits ((collect root).map Entry.project))
    (hpayloads : ∀ path bytes, Entry.file path bytes ∈ collect root → bytes.length < 2 ^ 32) :
    Encodable (collect root) := by
  have hmax : maxIndexEntries < 2 ^ 32 := by decide
  have hlength := hlimits.1
  rw [List.length_map] at hlength
  refine ⟨by omega, ?_⟩
  intro entry hmem
  obtain ⟨hpath, htarget⟩ := hlimits.2 _ (List.mem_map_of_mem hmem)
  cases entry with
  | file path bytes => exact ⟨Readable.lt hpath, hpayloads path bytes hmem⟩
  | symlink path target => exact ⟨Readable.lt hpath, Readable.lt (htarget path target rfl)⟩

end OnDisk

/-- What is encoded decodes to the stable sort by path, and only canonical bytes decode; the
decoder that seeks over payloads agrees with the one that keeps them on all bytes, and so does
the sidecar of a directory. -/
theorem codecs_agree :
    (∀ entries, Encodable entries → ∃ sorted, StableSort Entry.path entries sorted ∧
      decode (encode entries) = .ok sorted) ∧
    (∀ bytes entries, decode bytes = .ok entries → encodeSorted entries = bytes) ∧
    (∀ bytes, magic <+: bytes → RespectsLimits bytes →
      decodeIndex bytes = (decode bytes).toOption.map (List.map Entry.project)) ∧
    (∀ root, WithinLimits ((OnDisk.collect root).map Entry.project) →
      ∃ entries, StableSort Entry.path (OnDisk.collect root) entries ∧
        decodeIndex (OnDisk.fromDirectoryIndex root) = some (entries.map Entry.project) ∧
        ((∀ path bytes, Entry.file path bytes ∈ OnDisk.collect root → bytes.length < 2 ^ 32) →
          decode (OnDisk.fromDirectory root) = .ok entries)) := by
  refine ⟨?_, ?_, ?_, ?_⟩
  · intro entries h
    exact ⟨_, stableSort_sortBy Entry.path entries, decode_encode h⟩
  · intro bytes entries h
    exact (decode_eq_ok.mp h).2.symm
  · intro bytes hmagic hlimits
    exact decodeIndex_eq_decode hmagic hlimits
  · intro root hlimits
    refine ⟨_, stableSort_sortBy Entry.path (OnDisk.collect root),
      OnDisk.decodeIndex_fromDirectoryIndex hlimits, ?_⟩
    intro hpayloads
    exact decode_encode (OnDisk.encodable_collect hlimits hpayloads)

end PackageImage
end Bpm
