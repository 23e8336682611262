import EnvManifest.Text.Hex
import EnvManifest.Text.Numbered

/-!
# Quoted text

Two ways of writing a text between double quotes: for messages, where every visible character
stands for itself, and for manifests, where the result is plain ASCII.
-/

namespace EnvManifest.Text

/-- A character by its number, as in `\u{e9}`. -/
def numbered (c : Char) : List Char :=
  ['\\', 'u', '{'] ++ toHex c.toNat ++ ['}']

/-- One character of a quoted text in a message. -/
def messageChar (c : Char) : List Char :=
  if c = '\x00' then ['\\', '0']
  else if c = '\t' then ['\\', 't']
  else if c = '\r' then ['\\', 'r']
  else if c = '\n' then ['\\', 'n']
  else if c = '"' then ['\\', '"']
  else if c = '\\' then ['\\', '\\']
  else if isNumbered c then numbered c
  else [c]

/-- A text between double quotes, as messages show it. -/
def quotedInMessage (s : String) : String :=
  String.ofList ('"' :: s.toList.flatMap messageChar ++ ['"'])

/-- One character of a string in a manifest: printable ASCII stands for itself. -/
def asciiChar (c : Char) : List Char :=
  if c = '\t' then ['\\', 't']
  else if c = '\r' then ['\\', 'r']
  else if c = '\n' then ['\\', 'n']
  else if c = '\'' then ['\\', '\'']
  else if c = '"' then ['\\', '"']
  else if c = '\\' then ['\\', '\\']
  else if 0x20 ≤ c.toNat ∧ c.toNat ≤ 0x7E then [c]
  else numbered c

/-- A text between double quotes in ASCII, as manifests hold it. -/
def quotedAscii (cs : List Char) : List Char :=
  '"' :: cs.flatMap asciiChar ++ ['"']

end EnvManifest.Text
