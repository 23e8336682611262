import EnvManifest.Script.Number
import EnvManifest.Text.Utf8

/-!
# Tokens of a program

The text of an expression as the parser sees it: words, symbols, numbers and strings, each with the
line on which it ends.
-/

namespace EnvManifest.Script

open Text

inductive Token where
  | name (text : String)
  /-- A keyword or a symbol. -/
  | mark (text : String)
  | int (value : Int64) (written : String)
  | float (value : Float) (written : String)
  /-- A string, and what messages show of it. -/
  | str (value : Bytes) (shown : Bytes)
  | eof
  /-- No token can be read here. -/
  | bad (message : String)

/-- A token and the line on which it ends. -/
structure Lexeme where
  token : Token
  line : Nat

/-- The words that are no names. -/
def keywords : List String :=
  ["and", "break", "do", "else", "elseif", "end", "false", "for", "function", "goto", "if", "in",
    "local", "nil", "not", "or", "repeat", "return", "then", "true", "until", "while"]

/-- A text as messages show it. They end at a zero. -/
def shownText (bs : Bytes) : String :=
  String.ofList (decodeLossy (bs.takeWhile (· != 0)))

/-- A symbol as messages show it: one that is no printable character by the number of its first
byte. -/
def shownSymbol (c : Char) : String :=
  if 0x20 ≤ c.toNat ∧ c.toNat ≤ 0x7E then c.toString
  else "<\\" ++ toString ((encode [c]).headD 0).toNat ++ ">"

/-- A token after `near` in a message. -/
def Token.near : Token → String
  | name text => "'" ++ text ++ "'"
  | mark text => "'" ++ text ++ "'"
  | int _ written => "'" ++ written ++ "'"
  | float _ written => "'" ++ written ++ "'"
  | str _ shown => "'" ++ shownText shown ++ "'"
  | eof => "<eof>"
  | bad message => message

/-- A program that cannot be read: what is wrong, and on which line if that is known. -/
structure SyntaxFault where
  line : Option Nat
  message : String
deriving DecidableEq, Repr

/-- The message about a program with a name. -/
def SyntaxFault.text (chunk : String) (fault : SyntaxFault) : String :=
  match fault.line with
  | some line => chunk ++ ":" ++ toString line ++ ": " ++ fault.message
  | none => fault.message

end EnvManifest.Script
