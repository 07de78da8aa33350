import Bpm.Lib.Lines

/-!
# Reading and applying patches

A patch text is read line by line: a `--- ` line opens a file, the `+++ ` line behind it
names the file, a `@@ ` line opens a hunk, and the lines of a hunk are told apart by their
first byte.  A hunk is applied at the line that its header names.  Cutting a line behind its
first byte panics unless a character ends there.
-/

namespace Bpm

open Text Lines

namespace Patch

/-- What is wrong with a patch text. -/
inductive Malformed
  | expectedTarget
  | creatingOrDeleting
  | unsafePath (path : Str)
  | badHunkHeader (header : Str)
  | badHunkLine (line : Str)
deriving DecidableEq

inductive PatchError
  | empty
  | malformed (reason : Malformed)
  | hunkMismatch (path : Str) (line : Nat)
deriving DecidableEq

inductive Failure
  | panic
  | error (e : PatchError)
deriving DecidableEq

inductive HunkLine
  | context (value : Str)
  | remove (value : Str)
  | add (value : Str)
deriving DecidableEq

structure Hunk where
  oldStart : Nat
  lines : List HunkLine
deriving DecidableEq

structure FilePatch where
  target : Str
  hunks : List Hunk
deriving DecidableEq

abbrev Result (α : Type) := Except Failure α

def malformed {α : Type} (reason : Malformed) : Result α :=
  .error (.error (.malformed reason))

/-- Drop `p` from the front, as often as it stands there. -/
def trimStartMatches (p s : Str) : Str := dropRepeats p s.length s

def normalizePatchPath (value : Str) : Result Str :=
  let path := (splitWhitespace value).head?.getD value
  if path = lit "/dev/null" then malformed .creatingOrDeleting
  else
    let relative := ((stripPrefix (lit "a/") path).or (stripPrefix (lit "b/") path)).getD path
    let path := trimStartMatches (lit "./") relative
    if path.isEmpty || contains (lit "..") path then malformed (.unsafePath path)
    else .ok path

/-- `str::parse::<usize>`. -/
def parseUsize (s : Str) : Option Nat :=
  let digits := (stripPrefix ['+'] s).getD s
  if !digits.isEmpty && digits.all Char.isDigit then
    let n := Nat.ofDigitChars 10 digits 0
    if n < 2 ^ 64 then some n else none
  else none

def parseOldStart (header : Str) : Result Nat :=
  match (splitWhitespace header).find? (fun part => ['-'].isPrefixOf part) with
  | none => malformed (.badHunkHeader header)
  | some old =>
      let start := ((trimStartMatches ['-'] old).splitOn ',').head?.getD ['1']
      match parseUsize start with
      | some n => .ok n
      | none => malformed (.badHunkHeader header)

def isOldHeader (line : Str) : Bool := (lit "--- ").isPrefixOf line

def isNewHeader (line : Str) : Bool := (lit "+++ ").isPrefixOf line

def isHunkHeader (line : Str) : Bool := (lit "@@ ").isPrefixOf line

def noNewline : Str := lit "\\ No newline at end of file"

/-- `split_at(1)`: it panics when no character ends behind the first byte. -/
def splitFirst : Str → Result (Char × Str)
  | [] => .error .panic
  | c :: value => if c.toNat < 128 then .ok (c, value) else .error .panic

/-- What the parser is collecting. -/
inductive Mode
  | outside
  | target
  | file (target : Str) (hunks : List Hunk)
  | hunk (target : Str) (hunks : List Hunk) (oldStart : Nat) (lines : List HunkLine)
deriving DecidableEq

structure Parser where
  patches : List FilePatch
  mode : Mode
deriving DecidableEq

/-- A line of a file outside its hunks. -/
def fileLine (patches : List FilePatch) (target : Str) (hunks : List Hunk) (line : Str) :
    Result Parser :=
  if isOldHeader line then .ok ⟨patches ++ [⟨target, hunks⟩], .target⟩
  else if isHunkHeader line then do
    let oldStart ← parseOldStart line
    .ok ⟨patches, .hunk target hunks oldStart []⟩
  else .ok ⟨patches, .file target hunks⟩

def hunkLine (line : Str) : Result (Option HunkLine) :=
  if line = noNewline then .ok none
  else do
    let (kind, rest) ← splitFirst line
    let value := rest ++ ['\n']
    if kind = ' ' then .ok (some (.context value))
    else if kind = '-' then .ok (some (.remove value))
    else if kind = '+' then .ok (some (.add value))
    else malformed (.badHunkLine line)

def Parser.step (p : Parser) (line : Str) : Result Parser :=
  match p.mode with
  | .outside => .ok (if isOldHeader line then { p with mode := .target } else p)
  | .target =>
      if isNewHeader line then do
        let target ← normalizePatchPath (trimStartMatches (lit "+++ ") line)
        .ok { p with mode := .file target [] }
      else malformed .expectedTarget
  | .file target hunks => fileLine p.patches target hunks line
  | .hunk target hunks oldStart collected =>
      -- the header of the next hunk or file closes this one and is read again
      if isHunkHeader line || isOldHeader line then
        fileLine p.patches target (hunks ++ [⟨oldStart, collected⟩]) line
      else do
        let read ← hunkLine line
        .ok { p with mode := .hunk target hunks oldStart (collected ++ read.toList) }

/-- The patches read so far, the one being read included. -/
def Parser.collected (p : Parser) : List FilePatch :=
  match p.mode with
  | .outside | .target => p.patches
  | .file target hunks => p.patches ++ [⟨target, hunks⟩]
  | .hunk target hunks oldStart collected =>
      p.patches ++ [⟨target, hunks ++ [⟨oldStart, collected⟩]⟩]

/-- The end of the text. -/
def Parser.finish (p : Parser) : Result (List FilePatch) :=
  if p.mode = .target then malformed .expectedTarget
  else if p.collected.isEmpty then .error (.error .empty)
  else .ok p.collected

def Parser.run (p : Parser) (lines : List Str) : Result (List FilePatch) := do
  let p ← lines.foldlM Parser.step p
  p.finish

def parsePatch (text : Str) : Result (List FilePatch) := Parser.run ⟨[], .outside⟩ (lines text)

/-! ## Applying a patch to a file -/

/-- `lines[first..last]`. -/
def slice (lines : List Str) (first last : Nat) : Result (List Str) :=
  if first ≤ last ∧ last ≤ lines.length then .ok ((lines.drop first).take (last - first))
  else .error .panic

def splitLines (value : Str) : List Str := pieces value

def mismatch {α : Type} (path : Str) (line : Nat) : Result α :=
  .error (.error (.hunkMismatch path line))

def expectLine (path : Str) (original : List Str) (cursor : Nat) (expected : Str) : Result Unit :=
  if original[cursor]? = some expected then .ok () else mismatch path (cursor + 1)

/-- The output so far and the next line of the original. -/
structure Progress where
  output : List Str
  cursor : Nat
deriving DecidableEq

def applyLine (path : Str) (original : List Str) (p : Progress) : HunkLine → Result Progress
  | .context value => do
      expectLine path original p.cursor value
      .ok ⟨p.output ++ [value], p.cursor + 1⟩
  | .remove value => do
      expectLine path original p.cursor value
      .ok ⟨p.output, p.cursor + 1⟩
  | .add value => .ok ⟨p.output ++ [value], p.cursor⟩

def applyHunk (path : Str) (original : List Str) (p : Progress) (hunk : Hunk) :
    Result Progress := do
  let hunkStart := hunk.oldStart - 1
  if hunkStart < p.cursor ∨ original.length < hunkStart then mismatch path hunk.oldStart
  else
    let unchanged ← slice original p.cursor hunkStart
    hunk.lines.foldlM (applyLine path original) ⟨p.output ++ unchanged, hunkStart⟩

def applyFilePatch (path original : Str) (patch : FilePatch) : Result Str := do
  let originalLines := splitLines original
  let p ← patch.hunks.foldlM (applyHunk path originalLines) ⟨[], 0⟩
  let rest ← slice originalLines p.cursor originalLines.length
  .ok (p.output ++ rest).flatten

end Patch
end Bpm
