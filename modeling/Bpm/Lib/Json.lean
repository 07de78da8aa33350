import Bpm.Lib.OrdMap

/-!
# JSON values

A JSON document as a value.  Objects keep their fields in the order in which
they were written, duplicates included; what a reader makes of a duplicate is
the reader's affair.
-/

namespace Bpm

inductive Json
  | null
  | bool (value : Bool)
  | int (value : Int)
  | float (text : Str)
  | str (value : Str)
  | arr (items : List Json)
  | obj (fields : List (Str × Json))

namespace Json

/-- The text of a string value. -/
def asStr? : Json → Option Str
  | str value => some value
  | _ => none

mutual

/-- How deep arrays and objects are nested. -/
def depth : Json → Nat
  | null => 0
  | bool _ => 0
  | int _ => 0
  | float _ => 0
  | str _ => 0
  | arr items => depthItems items + 1
  | obj fields => depthFields fields + 1

def depthItems : List Json → Nat
  | [] => 0
  | item :: items => max item.depth (depthItems items)

def depthFields : List (Str × Json) → Nat
  | [] => 0
  | field :: fields => max (depthField field) (depthFields fields)

def depthField : Str × Json → Nat
  | (_, value) => value.depth

end

/-! ## The text of a value -/

/-- A character inside a quoted text. -/
def escape (c : Char) : Str :=
  if c = '"' then ['\\', '"']
  else if c = '\\' then ['\\', '\\']
  else if c = '\n' then ['\\', 'n']
  else if c = '\r' then ['\\', 'r']
  else if c = '\t' then ['\\', 't']
  else if c.toNat = 8 then ['\\', 'b']
  else if c.toNat = 12 then ['\\', 'f']
  else if c.toNat < 32 then
    ['\\', 'u', '0', '0', Nat.digitChar (c.toNat / 16), Nat.digitChar (c.toNat % 16)]
  else [c]

def quote (s : Str) : Str := '"' :: s.flatMap escape ++ ['"']

/-- A new line with two blanks for every level. -/
def newline (level : Nat) : Str := '\n' :: List.replicate (2 * level) ' '

mutual

/-- The text of a value over several lines, as it stands at the given level. -/
def pretty (level : Nat) : Json → Str
  | null => ['n', 'u', 'l', 'l']
  | bool true => ['t', 'r', 'u', 'e']
  | bool false => ['f', 'a', 'l', 's', 'e']
  | int value => (toString value).toList
  | float text => text
  | str value => quote value
  | arr [] => ['[', ']']
  | arr (item :: items) =>
      '[' :: newline (level + 1) ++ pretty (level + 1) item ++ prettyItems (level + 1) items ++
        newline level ++ [']']
  | obj [] => ['{', '}']
  | obj (field :: fields) =>
      '{' :: newline (level + 1) ++ prettyField (level + 1) field ++
        prettyFields (level + 1) fields ++ newline level ++ ['}']

def prettyItems (level : Nat) : List Json → Str
  | [] => []
  | item :: items => ',' :: newline level ++ pretty level item ++ prettyItems level items

def prettyFields (level : Nat) : List (Str × Json) → Str
  | [] => []
  | field :: fields =>
      ',' :: newline level ++ prettyField level field ++ prettyFields level fields

def prettyField (level : Nat) : Str × Json → Str
  | (name, value) => quote name ++ [':', ' '] ++ pretty level value

end

end Json
end Bpm
