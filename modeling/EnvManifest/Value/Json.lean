import EnvManifest.Value.Basic
import EnvManifest.Decimal.Layout
import EnvManifest.Text.Hex

/-!
# Values as JSON

The compact text on one line, and the text on lines with two blanks for each level.
-/

namespace EnvManifest.Json

open Text

/-- One character of a JSON string. -/
def charText (c : Char) : List Char :=
  if c = '"' then ['\\', '"']
  else if c = '\\' then ['\\', '\\']
  else if c = '\n' then ['\\', 'n']
  else if c = '\r' then ['\\', 'r']
  else if c = '\t' then ['\\', 't']
  else if c.toNat = 0x08 then ['\\', 'b']
  else if c.toNat = 0x0C then ['\\', 'f']
  else if c.toNat < 0x20 then ['\\', 'u'] ++ toHexPadded 4 c.toNat
  else [c]

def stringText (s : String) : List Char := '"' :: s.toList.flatMap charText ++ ['"']

/-- A value that is neither a list nor an object. -/
def scalarText : Value → List Char
  | .null => "null".toList
  | .bool b => (toString b).toList
  | .int n => (toString n).toList
  | .float x => (Decimal.text .json x).toList
  | .str s => stringText s
  | .list _ | .object _ => []

mutual

/-- The text without any blanks. -/
def compact : Value → List Char
  | .list items => '[' :: compactItems items ++ [']']
  | .object fields => '{' :: compactFields fields ++ ['}']
  | .null => scalarText .null
  | .bool b => scalarText (.bool b)
  | .int n => scalarText (.int n)
  | .float x => scalarText (.float x)
  | .str s => scalarText (.str s)

def compactItems : List Value → List Char
  | [] => []
  | [x] => compact x
  | x :: y :: more => compact x ++ ',' :: compactItems (y :: more)

def compactFields : List (String × Value) → List Char
  | [] => []
  | [(k, x)] => stringText k ++ ':' :: compact x
  | (k, x) :: e :: more => stringText k ++ ':' :: compact x ++ ',' :: compactFields (e :: more)

end

/-- A new line at a level. -/
def newLine (level : Nat) : List Char := '\n' :: List.replicate (2 * level) ' '

mutual

/-- The text with each item and each field on a line of its own. -/
def pretty (level : Nat) : Value → List Char
  | .list [] => ['[', ']']
  | .list (x :: more) =>
    '[' :: newLine (level + 1) ++ pretty (level + 1) x ++ prettyItems (level + 1) more ++
      newLine level ++ [']']
  | .object [] => ['{', '}']
  | .object ((k, x) :: more) =>
    '{' :: newLine (level + 1) ++ stringText k ++ [':', ' '] ++ pretty (level + 1) x ++
      prettyFields (level + 1) more ++ newLine level ++ ['}']
  | .null => scalarText .null
  | .bool b => scalarText (.bool b)
  | .int n => scalarText (.int n)
  | .float x => scalarText (.float x)
  | .str s => scalarText (.str s)

def prettyItems (level : Nat) : List Value → List Char
  | [] => []
  | x :: more => ',' :: newLine level ++ pretty level x ++ prettyItems level more

def prettyFields (level : Nat) : List (String × Value) → List Char
  | [] => []
  | (k, x) :: more =>
    ',' :: newLine level ++ stringText k ++ [':', ' '] ++ pretty level x ++
      prettyFields level more

end

end EnvManifest.Json
