import Bpm.Lib.Lines

/-!
# The YAML of pnpm's lockfiles

The reader covers a subset: block maps and sequences, flow collections on one line, quoted
and bare scalars, and comments on lines of their own.  A text is first cut into documents of
indented lines; explicit keys become ordinary entries there.  Each document is then read by
recursive descent, down the indentation and into the flow collections.  The loops of the
reader take `fuel`: running out of it means that they go on.
-/

namespace Bpm

open Text

/-- A document tree; scalars keep their texts, a missing value is an empty one. -/
inductive Yaml
  | str (value : Str)
  | map (entries : List (Str × Yaml))
  | seq (items : List Yaml)

namespace PnpmYaml

/-- Why a text is refused, and that the reader is not done yet. -/
inductive ReadError
  | outOfFuel
  | sequenceOfMaps (item : Str)
  | unexpectedIndent (text : Str)
  | notAnEntry (text : Str)
  | trailingContent (rest : Str)
  | missingKey (text : Str)
  | multiLineScalar
  | inlineComment (text : Str)
  | anchor (text : Str)
deriving DecidableEq

abbrev Result (α : Type) := Except ReadError α

/-! ## Scalars and keys -/

/-- `''` stands for one quotation mark. -/
def collapseQuotes : Str → Str
  | '\x27' :: '\x27' :: rest => '\x27' :: collapseQuotes rest
  | c :: rest => c :: collapseQuotes rest
  | [] => []

/-- What stands between two marks. -/
def between (mark : Char) (token : Str) : Option Str :=
  match token with
  | c :: rest => if c = mark ∧ rest.getLast? = some mark then some rest.dropLast else none
  | [] => none

def unquote (token : Str) : Str :=
  let trimmed := trim token
  match between '\x27' trimmed with
  | some body => collapseQuotes body
  | none => (between '"' trimmed).getD trimmed

def isQuote (c : Char) : Bool := c = '\x27' || c = '"'

/-- Search a colon outside quotation marks, behind which `ends` holds; a mark of either kind
opens and closes.  The parts before and behind the colon. -/
def splitColon (ends : Str → Bool) : Bool → Str → Str → Option (Str × Str)
  | _, _, [] => none
  | true, before, c :: rest => splitColon ends (!isQuote c) (before ++ [c]) rest
  | false, before, c :: rest =>
      if isQuote c then splitColon ends true (before ++ [c]) rest
      else if c = ':' && ends rest then some (before, rest)
      else splitColon ends false (before ++ [c]) rest

def endsKey (rest : Str) : Bool :=
  match rest with
  | [] => true
  | c :: _ => c = ' '

/-- The key and the value of a line; a missing value is `none`. -/
def splitKey (line : Str) : Option (Str × Option Str) :=
  (splitColon endsKey false [] line).map fun (key, rest) =>
    let value := trim rest
    (unquote key, if value.isEmpty then none else some value)

def splitFlowKey (text : Str) : Result (Str × Str) :=
  match splitColon (fun _ => true) false [] text with
  | some (key, rest) => .ok (unquote key, rest)
  | none => .error (.missingKey text)

/-! ## Flow collections -/

def endsScalar (c : Char) : Bool := c ∈ [',', '}', ']']

/-- Behind an element: a comma is dropped. -/
def afterElement (rest : Str) : Str :=
  let trimmed := trimStart rest
  (stripPrefix [','] trimmed).getD trimmed

mutual

def parseFlow : Nat → Str → Result (Yaml × Str)
  | 0, _ => .error .outOfFuel
  | fuel + 1, text =>
      match text with
      | '{' :: rest => parseFlowEntries fuel rest []
      | '[' :: rest => parseFlowItems fuel rest []
      | _ => .ok (.str (unquote (text.takeWhile fun c => !endsScalar c)),
          text.dropWhile fun c => !endsScalar c)

def parseFlowEntries : Nat → Str → List (Str × Yaml) → Result (Yaml × Str)
  | 0, _, _ => .error .outOfFuel
  | fuel + 1, rest, entries =>
      let trimmed := trimStart rest
      match stripPrefix ['}'] trimmed with
      | some after => .ok (.map entries, after)
      | none => do
          let (key, rest) ← splitFlowKey trimmed
          let (value, rest) ← parseFlow fuel rest
          parseFlowEntries fuel (afterElement rest) (entries ++ [(key, value)])

def parseFlowItems : Nat → Str → List Yaml → Result (Yaml × Str)
  | 0, _, _ => .error .outOfFuel
  | fuel + 1, rest, items =>
      let trimmed := trimStart rest
      match stripPrefix [']'] trimmed with
      | some after => .ok (.seq items, after)
      | none => do
          let (item, rest) ← parseFlow fuel trimmed
          parseFlowItems fuel (afterElement rest) (items ++ [item])

end

def opensFlow (value : Str) : Bool :=
  match value with
  | c :: _ => c = '{' || c = '['
  | [] => false

def parseInline (fuel : Nat) (value : Str) : Result Yaml :=
  if opensFlow value then do
    let (node, rest) ← parseFlow fuel value
    if (trim rest).isEmpty then .ok node else .error (.trailingContent rest)
  else if value.contains '\n' then .error .multiLineScalar
  else .ok (.str (unquote value))

/-! ## Blocks -/

/-- A line of a document, without its indentation. -/
structure BlockLine where
  indent : Nat
  text : Str
deriving DecidableEq

def isItem (text : Str) : Bool := (lit "- ").isPrefixOf text || text = ['-']

/-- The text of an item behind its hyphen. -/
def itemText (text : Str) : Str := trim ((stripPrefix (lit "- ") text).getD [])

/-- The items of a block sequence, and the lines behind it. -/
def parseItems (fuel indent : Nat) : List BlockLine → List Yaml → Result (Yaml × List BlockLine)
  | [], items => .ok (.seq items, [])
  | line :: lines, items =>
      if line.indent ≠ indent ∨ isItem line.text = false then .ok (.seq items, line :: lines)
      else
        let rest := itemText line.text
        if rest.isEmpty then parseItems fuel indent lines (items ++ [.str []])
        else if (splitKey rest).isSome then .error (.sequenceOfMaps rest)
        else do
          let item ← parseInline fuel rest
          parseItems fuel indent lines (items ++ [item])

mutual

def parseBlock : Nat → Nat → List BlockLine → Result (Yaml × List BlockLine)
  | 0, _, _ => .error .outOfFuel
  | fuel + 1, indent, lines =>
      match lines with
      | [] => .ok (.str [], [])
      | line :: _ =>
          if line.indent = indent ∧ isItem line.text = true then parseItems fuel indent lines []
          else if indent ≤ line.indent then parseEntries fuel indent lines []
          else .ok (.str [], lines)

def parseEntries : Nat → Nat → List BlockLine → List (Str × Yaml) →
    Result (Yaml × List BlockLine)
  | 0, _, _, _ => .error .outOfFuel
  | _ + 1, _, [], entries => .ok (.map entries, [])
  | fuel + 1, indent, line :: lines, entries =>
      if line.indent < indent then .ok (.map entries, line :: lines)
      else if line.indent ≠ indent then .error (.unexpectedIndent line.text)
      else
        match splitKey line.text with
        | none => .error (.notAnEntry line.text)
        | some (key, some inline) => do
            let node ← parseInline fuel inline
            parseEntries fuel indent lines (entries ++ [(key, node)])
        | some (key, none) => do
            let (node, rest) ← parseChild fuel indent lines
            parseEntries fuel indent rest (entries ++ [(key, node)])

/-- The value of a key without one on its line: the block below it, if there is one. -/
def parseChild : Nat → Nat → List BlockLine → Result (Yaml × List BlockLine)
  | 0, _, _ => .error .outOfFuel
  | fuel + 1, indent, lines =>
      match lines with
      | [] => .ok (.str [], [])
      | child :: _ =>
          if indent < child.indent then parseBlock fuel child.indent lines
          else .ok (.str [], lines)

end

/-! ## Documents -/

/-- The number of bytes of a text. -/
def byteLength (s : Str) : Nat := (s.map fun c => c.utf8Size).sum

/-- The documents so far, the lines of the current one, and the key of an explicit entry
that waits for its value. -/
structure Scan where
  documents : List (List BlockLine)
  current : List BlockLine
  pending : Option BlockLine
deriving DecidableEq

/-- Close the current document if it has a line. -/
def Scan.close (scan : Scan) : Scan :=
  if scan.current.isEmpty then scan
  else { scan with documents := scan.documents ++ [scan.current], current := [] }

def Scan.push (scan : Scan) (indent : Nat) (text : Str) : Scan :=
  { scan with current := scan.current ++ [⟨indent, text⟩] }

/-- The value line of an explicit entry, behind its colon. -/
def Scan.explicit (scan : Scan) (key : BlockLine) (inline : Str) : Scan :=
  match splitKey inline with
  | some (name, some value) =>
      (scan.push key.indent (key.text ++ [':'])).push (key.indent + 2)
        (name ++ lit ": " ++ value)
  | some (name, none) =>
      (scan.push key.indent (key.text ++ [':'])).push (key.indent + 2) (name ++ [':'])
  | none => scan.push key.indent (key.text ++ lit ": " ++ inline)

/-- The pending key without a value. -/
def Scan.flush (scan : Scan) : Scan :=
  match scan.pending with
  | some key => { scan with pending := none }.push key.indent (key.text ++ [':'])
  | none => scan

/-- A line that is not the value of an explicit entry. -/
def Scan.ordinary (scan : Scan) (indent : Nat) (trimmed : Str) : Result Scan :=
  match stripPrefix (lit "? ") trimmed with
  | some key => .ok { scan with pending := some ⟨indent, unquote key⟩ }
  | none =>
      if contains (lit " #") trimmed then .error (.inlineComment trimmed)
      else if trimmed.head?.any (· ∈ ['&', '*', '|']) then .error (.anchor trimmed)
      else .ok (scan.push indent trimmed)

def isSeparator (trimmedEnd : Str) : Bool := trimmedEnd = lit "---" || trimmedEnd = lit "..."

def isIgnored (trimmed : Str) : Bool := trimmed.isEmpty || ['#'].isPrefixOf trimmed

def Scan.step (scan : Scan) (raw : Str) : Result Scan :=
  let trimmedEnd := trimEnd raw
  if isSeparator trimmedEnd then .ok scan.close
  else
    let trimmed := trimStart trimmedEnd
    if isIgnored trimmed then .ok scan
    else
      let indent := byteLength trimmedEnd - byteLength trimmed
      match scan.pending with
      | some key =>
          if [':'].isPrefixOf trimmed ∧ indent = key.indent then
            .ok ({ scan with pending := none }.explicit key (trim trimmed.tail))
          else scan.flush.ordinary indent trimmed
      | none => scan.ordinary indent trimmed

/-- The documents of a text as lists of lines. -/
def scanDocuments (text : Str) : Result (List (List BlockLine)) := do
  let scan ← (Lines.lines text).foldlM Scan.step ⟨[], [], none⟩
  .ok scan.flush.close.documents

def parseDocument (fuel : Nat) (lines : List BlockLine) : Result Yaml := do
  let (document, _) ← parseBlock fuel 0 lines
  .ok document

def parseDocuments (fuel : Nat) (text : Str) : Result (List Yaml) := do
  let documents ← scanDocuments text
  documents.mapM (parseDocument fuel)

end PnpmYaml
end Bpm
