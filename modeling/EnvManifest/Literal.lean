import EnvManifest.Value.Basic
import EnvManifest.Decimal.Layout
import EnvManifest.Decimal.Read
import EnvManifest.Text.Blank
import EnvManifest.Text.LongBracket
import EnvManifest.Word

/-!
# Literals

A parameter is text. If the text is a single literal of the expression language, the parameter has
the literal's type. Here are the reading of such a text and the writing of it in an expression.
-/

namespace EnvManifest

open Text

inductive Literal where
  | bool (value : Bool)
  | int (value : Int64)
  | float (value : Float)
  | str (value : String)

namespace Literal

/-! ## Numbers -/

/-- Hexadecimal digits: modulo `2 ^ 64` if that many bits hold them, else a float. -/
def hexadecimal? (negative : Bool) (digits : List Char) : Option Literal :=
  if digits.isEmpty || !digits.all isHexDigit then none
  else
    let n := ofHex digits
    if n < Word.size then some (.int (Int64.ofInt (if negative then -(n : Int) else n)))
    else
      let x : Float := digits.foldl (fun x d => x * 16 + Float.ofNat ((hexValue? d).getD 0)) 0
      some (.float (if negative then -x else x))

/-- Decimal digits: a whole number if 64 bits hold it with its sign, else a float. -/
def decimal? (negative : Bool) (digits : List Char) : Option Literal :=
  let n : Int := if negative then -(ofDecimal digits : Int) else ofDecimal digits
  match Word.int64? n with
  | some n => some (.int n)
  | none => (Decimal.decimal? digits).map fun x => .float (if negative then -x else x)

/-- Starts with a digit or a point, and has only characters of decimal numbers. -/
def looksDecimal (cs : List Char) : Bool :=
  cs.head?.any (fun c => isDigit c || c == '.') &&
    cs.all fun c => isDigit c || c == '.' || c == 'e' || c == 'E' || c == '+' || c == '-'

def number? (cs : List Char) : Option Literal :=
  let (negative, digits) := Decimal.splitSign cs
  match digits with
  | [] => none
  | '0' :: 'x' :: hex => hexadecimal? negative hex
  | '0' :: 'X' :: hex => hexadecimal? negative hex
  | _ =>
    if digits.all isDigit then decimal? negative digits
    else if looksDecimal digits then
      (Decimal.decimal? digits).map fun x => .float (if negative then -x else x)
    else none

/-! ## Strings -/

/-- The escapes of one character. -/
def simpleEscape? : Char → Option Char
  | 'n' => some '\n'
  | 't' => some '\t'
  | 'r' => some '\r'
  | 'a' => some '\x07'
  | 'b' => some '\x08'
  | 'f' => some '\x0c'
  | 'v' => some '\x0b'
  | '\\' => some '\\'
  | '"' => some '"'
  | '\'' => some '\''
  | '\n' => some '\n'
  | _ => none

/-- The character of an escape after its backslash, and how many characters the escape has there:
two hexadecimal digits after `x`, any number of them in braces after `u`, or up to three decimal
digits. -/
def escape? : List Char → Option (Char × Nat)
  | 'x' :: ds =>
    let digits := (ds.take 2).takeWhile isHexDigit
    if digits.length = 2 then some (Char.ofNat (ofHex digits), 3) else none
  | 'u' :: '{' :: ds =>
    let digits := ds.takeWhile isHexDigit
    if (ds.drop digits.length).head? = some '}' then
      (charOf? (ofHex digits)).map fun c => (c, digits.length + 3)
    else none
  | c :: cs =>
    if isDigit c then
      let digits := ((c :: cs).take 3).takeWhile isDigit
      if ofDecimal digits ≤ 255 then some (Char.ofNat (ofDecimal digits), digits.length) else none
    else (simpleEscape? c).map fun v => (v, 1)
  | [] => none

/-- The content of a string after its opening quote, if the closing quote ends the text. -/
def quoted? (quote : Char) (cs : List Char) : Option (List Char) :=
  match cs with
  | [] => none
  | c :: cs =>
    if c = quote then (if cs.isEmpty then some [] else none)
    else if c = '\n' then none
    else if c = '\\' then
      match escape? cs with
      | none => none
      | some (v, n) => (quoted? quote (cs.drop n)).map (v :: ·)
    else (quoted? quote cs).map (c :: ·)
termination_by cs.length
decreasing_by all_goals (simp only [List.length_cons, List.length_drop]; omega)

/-- The content of a long string after its first `[`, if the closing bracket ends the text and
stands nowhere before. -/
def longString? (cs : List Char) : Option (List Char) := do
  let level ← longLevel? cs
  let close := longClose level
  let body := cs.drop (level + 1)
  let inner := body.take (body.length - close.length)
  if close.isSuffixOf body && (runThrough close inner).isNone then some (dropFirstBreak inner)
  else none

/-! ## All literals -/

/-- The literal that a text is, apart from blanks at its ends. -/
def ofChars? (cs : List Char) : Option Literal :=
  match trim cs with
  | [] => none
  | c :: more =>
    if c :: more = "true".toList then some (.bool true)
    else if c :: more = "false".toList then some (.bool false)
    else if c = '"' ∨ c = '\'' then (quoted? c more).map fun s => .str (String.ofList s)
    else if c = '[' then (longString? more).map fun s => .str (String.ofList s)
    else number? (c :: more)

def ofText? (text : String) : Option Literal := ofChars? text.toList

/-- The content of a text that is a string literal. -/
def unquote? (text : String) : Option String :=
  match ofText? text with
  | some (.str s) => some s
  | _ => none

/-! ## In expressions -/

/-- One character of a string in an expression. -/
def quotedChar (c : Char) : List Char :=
  if c = '"' then ['\\', '"']
  else if c = '\\' then ['\\', '\\']
  else if c = '\n' then ['\\', 'n']
  else if c = '\r' then ['\\', 'r']
  else if c = '\t' then ['\\', 't']
  else if c.toNat < 0x20 ∨ c.toNat = 0x7F then '\\' :: toDecimalPadded 3 c.toNat
  else [c]

/-- A string in an expression. -/
def quote (cs : List Char) : List Char := '"' :: cs.flatMap quotedChar ++ ['"']

/-- A whole number in an expression. A negative one stands in parentheses, and the least one,
whose digits are out of range, has a name. -/
def intSource (n : Int64) : List Char :=
  if n = Int64.minValue then "(math.mininteger)".toList
  else if n < 0 then '(' :: (toString n).toList ++ [')']
  else (toString n).toList

/-- A float in an expression. A negative one stands in parentheses. -/
def floatSource (x : Float) : List Char :=
  if x.isNaN then "(0/0)".toList
  else if x.isInf then (if Decimal.isNegative x then "(-1/0)" else "(1/0)").toList
  else if Decimal.isNegative x then '(' :: (Decimal.text .message x).toList ++ [')']
  else (Decimal.text .message x).toList

/-- The literal in an expression. It can stand wherever an operand can. -/
def source : Literal → List Char
  | bool b => (toString b).toList
  | int n => intSource n
  | float x => floatSource x
  | str s => quote s.toList

def toValue : Literal → Value
  | bool b => .bool b
  | int n => .int n.toInt
  | float x => Value.ofFloat x
  | str s => .str s

end Literal

/-- A value in an expression. Lists and objects have no such form. -/
def Value.source? : Value → Option (List Char)
  | .null => some "nil".toList
  | .bool b => some (Literal.bool b).source
  | .int n =>
    if n < Word.half then some (Literal.intSource (Int64.ofInt n))
    else some (Literal.floatSource (Float.ofInt n))
  | .float x => some (Literal.floatSource x)
  | .str s => some (Literal.quote s.toList)
  | .list _ | .object _ => none

end EnvManifest
