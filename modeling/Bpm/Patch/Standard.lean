import Bpm.Lib.DebugText
import Bpm.Patch.Places

/-!
# Unified diffs

A unified diff shows, for every file, the stretches of lines in which two texts differ,
together with some unchanged lines around them; the unchanged lines between the stretches
are left out.  `FileDiff` is such a diff: what is left out and what is shown, so that it
determines both texts.  `render` writes diffs the way standard tools print them.
-/

namespace Bpm

open Text Lines

namespace Patch

/-- A shown line, with the line feed that it has in its text. -/
inductive Change
  | keep (line : Str)
  | remove (line : Str)
  | add (line : Str)
deriving DecidableEq

namespace Change

def line : Change → Str
  | keep line | remove line | add line => line

def kind : Change → Char
  | keep _ => ' '
  | remove _ => '-'
  | add _ => '+'

/-- The lines of the old text. -/
def old : Change → List Str
  | keep line | remove line => [line]
  | add _ => []

/-- The lines of the new text. -/
def new : Change → List Str
  | keep line | add line => [line]
  | remove _ => []

end Change

/-- A line without its line feed, if it has one. -/
def body (line : Str) : Str := if line.getLast? = some '\n' then line.dropLast else line

/-- How a line is shown: a line without a line feed is marked. -/
def Change.shown (c : Change) : List Str :=
  (c.kind :: body c.line) :: if c.line.getLast? = some '\n' then [] else [noNewline]

/-- A hunk: the unchanged lines since the last one, which are not shown, the lines shown,
the heading behind the ranges, and whether a count of one is written out. -/
structure Edit where
  gap : List Str
  changes : List Change
  heading : Str
  longForm : Bool
deriving DecidableEq

namespace Edit

def old (e : Edit) : List Str := e.changes.flatMap Change.old

def new (e : Edit) : List Str := e.changes.flatMap Change.new

/-- The number of its first line; an empty range has the number of the line before it. -/
def start (before count : Nat) : Nat := if count = 0 then before else before + 1

def range (e : Edit) (before count : Nat) : Str :=
  DebugText.nat (start before count) ++
    if count = 1 && !e.longForm then [] else ',' :: DebugText.nat count

/-- The header of a hunk behind `oldBefore` lines of the old text and `newBefore` lines of the
new one. -/
def header (e : Edit) (oldBefore newBefore : Nat) : Str :=
  lit "@@" ++ ' ' :: ('-' :: e.range oldBefore e.old.length) ++
    ' ' :: (('+' :: e.range newBefore e.new.length) ++ lit " @@" ++ e.heading)

end Edit

def showEdits : Nat → Nat → List Edit → List Str
  | _, _, [] => []
  | oldBefore, newBefore, e :: edits =>
      let gap := e.gap.length
      e.header (oldBefore + gap) (newBefore + gap) :: e.changes.flatMap Change.shown ++
        showEdits (oldBefore + gap + e.old.length) (newBefore + gap + e.new.length) edits

/-- Lines of a text, from the edits on. -/
def oldLines (edits : List Edit) (rest : List Str) : List Str :=
  edits.flatMap (fun e => e.gap ++ e.old) ++ rest

def newLines (edits : List Edit) (rest : List Str) : List Str :=
  edits.flatMap (fun e => e.gap ++ e.new) ++ rest

/-- The diff of one file: the lines that a tool prints before it, the labels of the two
texts, the hunks, and the unchanged lines behind the last one.  Hunks are apart from each
other and none is empty. -/
structure FileDiff where
  preamble : List Str
  oldLabel : Str
  newLabel : Str
  edits : List Edit
  rest : List Str
  preamble_word : ∀ line ∈ preamble, '\n' ∉ line ∧ line.head?.any Char.isAlpha = true
  oldLabel_line : '\n' ∉ oldLabel
  newLabel_line : '\n' ∉ newLabel ∧ '\r' ∉ newLabel
  heading_line : ∀ e ∈ edits, '\n' ∉ e.heading
  edits_ne : edits ≠ []
  changes_ne : ∀ e ∈ edits, e.changes ≠ []
  apart : ∀ e ∈ edits.tail, e.gap ≠ []
  old_isLines : IsLines (oldLines edits rest)
  new_isLines : IsLines (newLines edits rest)

namespace FileDiff

/-- The text that the diff is made from. -/
def old (d : FileDiff) : Str := (oldLines d.edits d.rest).flatten

/-- The text that the diff leads to. -/
def new (d : FileDiff) : Str := (newLines d.edits d.rest).flatten

def oldHeader (d : FileDiff) : Str := lit "--- " ++ d.oldLabel

def newHeader (d : FileDiff) : Str := lit "+++ " ++ d.newLabel

def shown (d : FileDiff) : List Str :=
  d.preamble ++ d.oldHeader :: d.newHeader :: showEdits 0 0 d.edits

end FileDiff

/-- The text of a diff over several files. -/
def render (ds : List FileDiff) : Str := unlines (ds.flatMap FileDiff.shown)

end Patch
end Bpm
