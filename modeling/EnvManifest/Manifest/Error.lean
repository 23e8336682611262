import EnvManifest.Manifest.Lexer
import EnvManifest.Manifest.Position

/-!
# Parse errors

Why a text is no manifest, and where.
-/

namespace EnvManifest

/-- The sections of a namespace, in the order in which they must stand. -/
inductive Section where
  | composites | parameters | statements
deriving DecidableEq, Repr

def Section.name : Section → String
  | composites => "composites"
  | parameters => "parameters"
  | statements => "statements"

def Section.index : Section → Nat
  | composites => 0
  | parameters => 1
  | statements => 2

/-- What may stand at a place. -/
inductive Expected where
  | namespaceName
  | compositeName
  | commaOrAngle
  | commaOrParen
  | parameterValue
  | variableName
  | assign
  | expression
  | semiOrBrace
deriving DecidableEq, Repr

def Expected.describe : Expected → String
  | namespaceName => "namespace name"
  | compositeName => "composite namespace name or `>`"
  | commaOrAngle => "`,` or `>`"
  | commaOrParen => "`,` or `)`"
  | parameterValue => "parameter value"
  | variableName => "variable name or `\x7d`"
  | assign => "`=`"
  | expression => "expression"
  | semiOrBrace => "`;` or `\x7d`"

inductive ParseFault where
  /-- The text has no tokens. -/
  | lex (fault : LexFault)
  | unexpected (expected : Expected) (found : TokenKind)
  | reservedStart
  | reservedSection
  | duplicateSection (s : Section)
  | misplacedSection (s previous : Section)
  | invalidNumber
  | invalidVariable (name : String)
  | emptyExpression (name : String)
deriving DecidableEq, Repr

namespace ParseFault

def message : ParseFault → String
  | lex fault => fault.message
  | unexpected expected found =>
    "expected " ++ expected.describe ++ ", found " ++ found.describe
  | reservedStart => "`[` is reserved and cannot start a namespace"
  | reservedSection => "`[ ]` sections are reserved"
  | duplicateSection s => "duplicate " ++ s.name ++ " section"
  | misplacedSection s previous => s.name ++ " must precede " ++ previous.name
  | invalidNumber => "invalid number"
  | invalidVariable name => "`" ++ name ++ "` is not a valid variable name"
  | emptyExpression name => "empty expression for `" ++ name ++ "`"

/-- What was looked for, if a token was in its place. -/
def expected? : ParseFault → Option String
  | unexpected expected _ => some expected.describe
  | _ => none

/-- The token that was in the place of another. -/
def found : ParseFault → String
  | unexpected _ token => token.describe
  | _ => ""

end ParseFault

/-- A fault at a byte offset. -/
structure Misparse where
  fault : ParseFault
  offset : Nat
deriving DecidableEq, Repr

/-- A fault at a byte offset of a named text. -/
structure ParseError where
  fault : ParseFault
  offset : Nat
  sourceName : String
  source : String
deriving DecidableEq, Repr

namespace ParseError

def message (e : ParseError) : String := e.fault.message

/-- The line and the column. -/
def position (e : ParseError) : Nat × Nat := lineCol e.source.toList e.offset

/-- The message with its place in front. -/
def describe (e : ParseError) : String :=
  e.sourceName ++ ":" ++ toString e.position.1 ++ ":" ++ toString e.position.2 ++ ": " ++ e.message

/-- The line of the error with a mark under its column. -/
def detail (e : ParseError) : String := excerpt e.sourceName e.source e.offset

end ParseError

end EnvManifest
