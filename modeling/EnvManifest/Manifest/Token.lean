import EnvManifest.Text.Measure
import EnvManifest.Text.Quoted

/-!
# Tokens of a manifest

A token is what it is and where it stands.
-/

namespace EnvManifest

/-- A range of bytes of a manifest. -/
structure Span where
  start : Nat
  stop : Nat
deriving DecidableEq, Repr, Inhabited

/-- The range moved by a number of bytes. -/
def Span.shift (n : Nat) (s : Span) : Span := ⟨s.start + n, s.stop + n⟩

inductive TokenKind where
  | ident (name : String)
  | str (value : String)
  /-- A number as written, without `_` and with `0x` in lower case. -/
  | number (text : String)
  /-- The text of an expression after `=`. -/
  | expr (source : String)
  | langle | rangle | lparen | rparen | lbrace | rbrace | lbracket | rbracket
  | comma | semi | assign
  /-- The end of the manifest. -/
  | eof
deriving DecidableEq, Repr, Inhabited

/-- How messages name a token. -/
def TokenKind.describe : TokenKind → String
  | ident name => "identifier `" ++ name ++ "`"
  | str value => "string " ++ Text.quotedInMessage value
  | number text => "number `" ++ text ++ "`"
  | expr source => "expression `" ++ source ++ "`"
  | langle => "`<`"
  | rangle => "`>`"
  | lparen => "`(`"
  | rparen => "`)`"
  | lbrace => "`\x7b`"
  | rbrace => "`\x7d`"
  | lbracket => "`[`"
  | rbracket => "`]`"
  | comma => "`,`"
  | semi => "`;`"
  | assign => "`=`"
  | eof => "end of input"

structure Token where
  kind : TokenKind
  span : Span
deriving DecidableEq, Repr, Inhabited

/-- A piece of a manifest: a token, or a gap of blanks and comments between tokens. -/
structure Lexeme where
  kind : Option TokenKind
  text : List Char
deriving DecidableEq, Repr

/-- The text that pieces stand for. -/
def Lexeme.source (ls : List Lexeme) : List Char := ls.flatMap (·.text)

/-- The tokens among pieces that start at a byte offset, with the end of the manifest. -/
def Lexeme.place (pos : Nat) : List Lexeme → List Token
  | [] => [⟨.eof, ⟨pos, pos⟩⟩]
  | l :: ls =>
    let stop := pos + Text.byteLength l.text
    match l.kind with
    | none => place stop ls
    | some kind => ⟨kind, ⟨pos, stop⟩⟩ :: place stop ls

end EnvManifest
