import EnvManifest.Value.Json
import EnvManifest.Text.Numbered

/-!
# The lines of an environment

Each variable is a line `KEY=value`. Strings are quoted, lists and objects are compact JSON.
-/

namespace EnvManifest.Render

open Text

/-- A control character by its number, in the shortest of three widths. -/
def controlText (c : Char) : List Char :=
  let n := c.toNat
  if n < 0x80 then ['\\', 'x'] ++ toHexPadded 2 n
  else if n < 0x10000 then ['\\', 'u'] ++ toHexPadded 4 n
  else ['\\', 'U'] ++ toHexPadded 8 n

/-- One character of a quoted string. -/
def charText (c : Char) : List Char :=
  if c = '"' then ['\\', '"']
  else if c = '\\' then ['\\', '\\']
  else if c = '\n' then ['\\', 'n']
  else if c = '\r' then ['\\', 'r']
  else if c = '\t' then ['\\', 't']
  else if c.toNat = 0x07 then ['\\', 'a']
  else if c.toNat = 0x08 then ['\\', 'b']
  else if c.toNat = 0x0C then ['\\', 'f']
  else if c.toNat = 0x0B then ['\\', 'v']
  else if isControl c then controlText c
  else [c]

/-- A string between double quotes, without control characters. -/
def quote (cs : List Char) : List Char := '"' :: cs.flatMap charText ++ ['"']

def value : Value → List Char
  | .str s => quote s.toList
  | .null => "<nil>".toList
  | .bool b => (toString b).toList
  | .int n => (toString n).toList
  | .float x => (Decimal.text .line x).toList
  | .list items => Json.compact (.list items)
  | .object fields => Json.compact (.object fields)

/-- One variable, without the end of the line. -/
def line (key : String) (v : Value) : List Char := key.toList ++ '=' :: value v

/-- All variables in the order of their names, each with the end of its line. -/
def environment (env : Fields Value) : List Char := env.flatMap fun e => line e.1 e.2 ++ ['\n']

end EnvManifest.Render
