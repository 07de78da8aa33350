import Bpm.Interchange.PnpmBlocks

/-!
# Writing value trees as YAML

A tree of maps, sequences and scalars is written with every collection in block style or as
a flow collection on one line, and every scalar bare, in single or in double quotation
marks.  `Node` is a tree together with these choices, so that it has a text and a value.
-/

namespace Bpm

open Text

namespace PnpmYaml

inductive Style
  | bare
  | single
  | double
deriving DecidableEq

/-- A scalar and how it is written. -/
structure Scalar where
  style : Style
  text : Str
deriving DecidableEq

namespace Scalar

/-- In single quotation marks, a mark is written twice. -/
def doubled (s : Str) : Str := s.flatMap fun c => if c = '\x27' then [c, c] else [c]

/-- In double quotation marks, marks and backslashes are escaped. -/
def escaped (s : Str) : Str := s.flatMap fun c => if c = '"' ∨ c = '\\' then ['\\', c] else [c]

def token (s : Scalar) : Str :=
  match s.style with
  | .bare => s.text
  | .single => '\x27' :: doubled s.text ++ ['\x27']
  | .double => '"' :: escaped s.text ++ ['"']

/-- The characters that have a meaning at the beginning of a scalar. -/
def indicators : List Char :=
  ['-', '?', ':', ',', '[', ']', '{', '}', '#', '&', '*', '!', '|', '>', '\x27', '"', '%', '@', '\x60']

/-- What may be written bare. -/
structure Bare (text : Str) : Prop where
  lead : ∃ c rest, text = c :: rest ∧
    (c ∉ indicators ∨ c ∈ ['-', '?', ':'] ∧ rest.head?.any (fun c => !isSpace c) = true)
  trimmed : trim text = text
  noSeparator : contains (lit ": ") text = false
  noColon : text.getLast? ≠ some ':'
  noComment : contains (lit " #") text = false

/-- A scalar on one line that may be written as it is. -/
structure Valid (s : Scalar) : Prop where
  oneLine : '\n' ∉ s.text ∧ '\r' ∉ s.text
  bare : s.style = .bare → Bare s.text

/-- In a flow collection, brackets and commas are not written bare. -/
def ValidFlow (s : Scalar) : Prop :=
  s.Valid ∧ (s.style = .bare → ∀ c ∈ s.text, c ∉ [',', '[', ']', '{', '}'])

end Scalar

mutual

/-- What is written on one line. -/
inductive Flow
  | scalar (s : Scalar)
  | map (entries : FlowEntries)
  | seq (items : FlowItems)

inductive FlowEntries
  | nil
  | cons (key : Scalar) (value : Flow) (rest : FlowEntries)

inductive FlowItems
  | nil
  | cons (item : Flow) (rest : FlowItems)

end

mutual

/-- A collection in block style, or what is written on one line. -/
inductive Node
  | inline (flow : Flow)
  | map (entries : Entries)
  | seq (items : Items)

inductive Entries
  | nil
  | cons (key : Scalar) (value : Node) (rest : Entries)

inductive Items
  | nil
  | cons (item : Node) (rest : Items)

end

/-! ## Values -/

mutual

def Flow.value : Flow → Yaml
  | .scalar s => .str s.text
  | .map entries => .map entries.value
  | .seq items => .seq items.value

def FlowEntries.value : FlowEntries → List (Str × Yaml)
  | .nil => []
  | .cons key value rest => (key.text, value.value) :: rest.value

def FlowItems.value : FlowItems → List Yaml
  | .nil => []
  | .cons item rest => item.value :: rest.value

end

mutual

def Node.value : Node → Yaml
  | .inline flow => flow.value
  | .map entries => .map entries.value
  | .seq items => .seq items.value

def Entries.value : Entries → List (Str × Yaml)
  | .nil => []
  | .cons key value rest => (key.text, value.value) :: rest.value

def Items.value : Items → List Yaml
  | .nil => []
  | .cons item rest => item.value :: rest.value

end

/-! ## Texts -/

def FlowEntries.comma : FlowEntries → Str
  | .nil => []
  | .cons .. => [',', ' ']

def FlowItems.comma : FlowItems → Str
  | .nil => []
  | .cons .. => [',', ' ']

mutual

def Flow.render : Flow → Str
  | .scalar s => s.token
  | .map entries => '{' :: (entries.render ++ ['}'])
  | .seq items => '[' :: (items.render ++ [']'])

def FlowEntries.render : FlowEntries → Str
  | .nil => []
  | .cons key value rest => key.token ++ ':' :: ' ' :: (value.render ++ (rest.comma ++ rest.render))

def FlowItems.render : FlowItems → Str
  | .nil => []
  | .cons item rest => item.render ++ (rest.comma ++ rest.render)

end

/-- A block as an item: its first line stands behind the hyphen. -/
def hyphened (indent : Nat) : List BlockLine → List BlockLine
  | [] => []
  | line :: lines => ⟨indent, '-' :: ' ' :: line.text⟩ :: lines

mutual

/-- The lines of a node, `step` blanks deeper for each map around it. -/
def Node.lines (step indent : Nat) : Node → List BlockLine
  | .inline flow => [⟨indent, flow.render⟩]
  | .map entries => entries.lines step indent
  | .seq items => items.lines step indent

def Entries.lines (step indent : Nat) : Entries → List BlockLine
  | .nil => []
  | .cons key (.inline flow) rest =>
      ⟨indent, key.token ++ ':' :: ' ' :: flow.render⟩ :: rest.lines step indent
  | .cons key (.map entries) rest =>
      ⟨indent, key.token ++ [':']⟩ ::
        (entries.lines step (indent + step) ++ rest.lines step indent)
  | .cons key (.seq items) rest =>
      ⟨indent, key.token ++ [':']⟩ ::
        (items.lines step (indent + step) ++ rest.lines step indent)

def Items.lines (step indent : Nat) : Items → List BlockLine
  | .nil => []
  | .cons (.inline flow) rest => ⟨indent, '-' :: ' ' :: flow.render⟩ :: rest.lines step indent
  | .cons (.map entries) rest =>
      hyphened indent (entries.lines step (indent + 2)) ++ rest.lines step indent
  | .cons (.seq items) rest =>
      hyphened indent (items.lines step (indent + 2)) ++ rest.lines step indent

end

/-- The text of lines. -/
def textOf (lines : List BlockLine) : Str :=
  Lines.unlines (lines.map fun line => List.replicate line.indent ' ' ++ line.text)

/-! ## What may be written -/

mutual

def Flow.Valid : Flow → Prop
  | .scalar s => s.ValidFlow
  | .map entries => entries.Valid
  | .seq items => items.Valid

def FlowEntries.Valid : FlowEntries → Prop
  | .nil => True
  | .cons key value rest => key.ValidFlow ∧ value.Valid ∧ rest.Valid

def FlowItems.Valid : FlowItems → Prop
  | .nil => True
  | .cons item rest => item.Valid ∧ rest.Valid

end

/-- A scalar on a line of its own may have brackets and commas. -/
def Flow.ValidInline : Flow → Prop
  | .scalar s => s.Valid
  | .map entries => entries.Valid
  | .seq items => items.Valid

mutual

def Node.Valid : Node → Prop
  | .inline flow => flow.ValidInline
  | .map entries => entries ≠ .nil ∧ entries.Valid
  | .seq items => items ≠ .nil ∧ items.Valid

def Entries.Valid : Entries → Prop
  | .nil => True
  | .cons key value rest => key.Valid ∧ value.Valid ∧ rest.Valid

def Items.Valid : Items → Prop
  | .nil => True
  | .cons item rest => item.Valid ∧ rest.Valid

end

/-- A document that is written with nonempty blocks and without document markers. -/
structure Written where
  root : Node
  step : Nat
  step_pos : 0 < step
  valid : root.Valid
  unmarked : ∀ line ∈ root.lines step 0, line.text ≠ lit "---" ∧ line.text ≠ lit "..."

namespace Written

def lines (d : Written) : List BlockLine := d.root.lines d.step 0

def text (d : Written) : Str := textOf d.lines

end Written

end PnpmYaml
end Bpm
