import EnvManifest.Manifest.Token
import EnvManifest.Text.Blank
import EnvManifest.Text.LongBracket

/-!
# From text to tokens

A manifest is read piece by piece, each piece the longest of its kind. After `=` stands an
expression: its text runs to the `;` or `}` that closes the statement, and is kept as it is.
-/

namespace EnvManifest

open Text

/-- Why a text has no tokens. -/
inductive LexFault where
  | unterminatedComment
  | unterminatedString
  | unterminatedQuote
  | unterminatedLongString
  | unbalancedBrace
  | missingHexDigits
  | malformedExponent
  | strayInNumber
  | malformedHexEscape
  | malformedUnicodeEscape
  | invalidCharacter
  | unknownEscape
  | unexpected (c : Char)
deriving DecidableEq, Repr

def LexFault.message : LexFault → String
  | unterminatedComment => "unterminated block comment"
  | unterminatedString => "unterminated string literal"
  | unterminatedQuote => "unterminated string in expression"
  | unterminatedLongString => "unterminated long string in expression"
  | unbalancedBrace => "unbalanced `\x7b` in expression"
  | missingHexDigits => "hexadecimal literal has no digits"
  | malformedExponent => "malformed exponent in number"
  | strayInNumber => "invalid character in number"
  | malformedHexEscape => "malformed hex escape"
  | malformedUnicodeEscape => "malformed unicode escape"
  | invalidCharacter => "escape is not a valid character"
  | unknownEscape => "unknown escape sequence"
  | unexpected c => "unexpected character `" ++ c.toString ++ "`"

structure LexError where
  fault : LexFault
  span : Span
deriving DecidableEq, Repr

/-! ## Identifiers -/

def isIdentStart (c : Char) : Bool := isLetter c || c == '_'

def isIdentPart (c : Char) : Bool := isAlphanumeric c || c == '_' || c == '-' || c == '.'

/-! ## Numbers -/

def isSign (c : Char) : Bool := c == '-' || c == '+'

def isDigitOrGap (c : Char) : Bool := isDigit c || c == '_'

def dropSign : List Char → List Char
  | c :: cs => if isSign c then cs else c :: cs
  | [] => []

/-- What follows a point and its digits. -/
def dropPlaces : List Char → List Char
  | '.' :: cs => cs.dropWhile isDigitOrGap
  | cs => cs

/-- What follows an exponent. An exponent without digits is a fault where they are missing. -/
def dropExponent : List Char → Except (LexFault × List Char) (List Char)
  | c :: cs =>
    if c = 'e' ∨ c = 'E' then
      let ds := dropSign cs
      if ds.head?.any isDigit then .ok (ds.dropWhile isDigitOrGap)
      else .error (.malformedExponent, ds)
    else .ok (c :: cs)
  | [] => .ok []

def isHexMark (c : Char) : Bool := c == 'x' || c == 'X'

/-- What follows a number, or the fault and what follows the faulty part. -/
def dropNumber (cs : List Char) : Except (LexFault × List Char) (List Char) := do
  let body := dropSign cs
  let rest ←
    match body with
    | '0' :: x :: ds =>
      if isHexMark x then
        let rest := ds.dropWhile isHexDigit
        if rest.length = ds.length then .error (.missingHexDigits, ds) else .ok rest
      else dropExponent (dropPlaces (body.dropWhile isDigitOrGap))
    | _ => dropExponent (dropPlaces (body.dropWhile isDigitOrGap))
  if rest.head?.any (fun c => isLetter c || c == '_') then .error (.strayInNumber, rest.drop 1)
  else .ok rest

/-- A number as the parser reads it: without `_`, and with `0x` in lower case. -/
def numberText (written : List Char) : List Char :=
  let sign := written.take (written.length - (dropSign written).length)
  match dropSign written with
  | '0' :: x :: ds => sign ++ (if isHexMark x then '0' :: 'x' :: ds else ('0' :: x :: ds).filter (· != '_'))
  | ds => sign ++ ds.filter (· != '_')

/-! ## Strings -/

/-- The escapes of one character. -/
def simpleEscape? : Char → Option Char
  | 'n' => some '\n'
  | 't' => some '\t'
  | 'r' => some '\r'
  | '0' => some '\x00'
  | '\\' => some '\\'
  | '"' => some '"'
  | '\'' => some '\''
  | _ => none

/-- The character that an escape stands for, and how many characters it has after the backslash.
The offset is that of the backslash. -/
def escape (pos : Nat) (cs : List Char) : Except LexError (Char × Nat) :=
  match cs with
  | 'x' :: ds =>
    let digits := (ds.take 2).takeWhile isHexDigit
    if digits.length = 2 then .ok (Char.ofNat (ofHex digits), 3)
    else .error ⟨.malformedHexEscape, ⟨pos, pos + 2 + digits.length⟩⟩
  | 'u' :: '{' :: ds =>
    let digits := ds.takeWhile isHexDigit
    let stop := pos + 3 + digits.length
    if (ds.drop digits.length).head? = some '}' ∧ digits.length ≠ 0 ∧ digits.length ≤ 6 then
      match charOf? (ofHex digits) with
      | some c => .ok (c, 3 + digits.length)
      | none => .error ⟨.invalidCharacter, ⟨pos, stop + 1⟩⟩
    else .error ⟨.malformedUnicodeEscape, ⟨pos, stop⟩⟩
  | c :: _ =>
    match simpleEscape? c with
    | some v => .ok (v, 1)
    | none => .error ⟨.unknownEscape, ⟨pos, pos + 2⟩⟩
  | [] => .error ⟨.unknownEscape, ⟨pos, pos + 2⟩⟩

/-- The value of a string after its opening quote, and how many characters it has with the closing
one. -/
def stringBody (quote : Char) (start pos : Nat) (cs : List Char) :
    Except LexError (List Char × Nat) :=
  match cs with
  | [] => .error ⟨.unterminatedString, ⟨start, pos⟩⟩
  | c :: cs =>
    if c = '\n' then .error ⟨.unterminatedString, ⟨start, pos⟩⟩
    else if c = quote then .ok ([], 1)
    else if c = '\\' then
      match escape pos cs with
      | .error e => .error e
      | .ok (v, n) =>
        match stringBody quote start (pos + 1 + byteLength (cs.take n)) (cs.drop n) with
        | .error e => .error e
        | .ok (vs, m) => .ok (v :: vs, 1 + n + m)
    else
      match stringBody quote start (pos + c.utf8Size) cs with
      | .error e => .error e
      | .ok (vs, m) => .ok (c :: vs, 1 + m)
termination_by cs.length
decreasing_by all_goals (simp only [List.length_cons, List.length_drop]; omega)

/-! ## Expressions -/

/-- A part of an expression: what is written, and what the expression then says. They differ only
for `\;`, which says `;`. -/
structure Segment where
  written : List Char
  meant : List Char
deriving DecidableEq, Repr

/-- The number of characters of a quoted part after its opening quote, and whether it is closed.
Without a closing quote on the line it runs to the end of the line. -/
def quoteRun (quote : Char) : List Char → Nat × Bool
  | [] => (0, false)
  | ['\\'] => (1, false)
  | '\\' :: _ :: cs => let (n, closed) := quoteRun quote cs; (n + 2, closed)
  | c :: cs =>
    if c = '\n' then (0, false)
    else if c = quote then (1, true)
    else let (n, closed) := quoteRun quote cs; (n + 1, closed)

/-- How an expression goes on after a character: where the part that starts with it ends, in
characters after it, and what the part says. -/
def segmentAt (pos : Nat) (c : Char) (cs : List Char) : Except LexError (Nat × List Char) :=
  let same := fun n => (.ok (n, c :: cs.take n) : Except LexError (Nat × List Char))
  if c = '\\' ∧ cs.head? = some ';' then .ok (1, [';'])
  else if c = '"' ∨ c = '\'' then
    match quoteRun c cs with
    | (n, true) => same n
    | (n, false) => .error ⟨.unterminatedQuote, ⟨pos, pos + 1 + byteLength (cs.take n)⟩⟩
  else if c = '[' then
    match longLevel? cs with
    | none => same 0
    | some level =>
      match runThrough (longClose level) (cs.drop (level + 1)) with
      | some n => same (level + 1 + n)
      | none => .error ⟨.unterminatedLongString, ⟨pos, pos + 1 + byteLength cs⟩⟩
  else if c = '-' ∧ cs.head? = some '-' then same (lineRun cs)
  else same 0

/-- The parts of an expression, up to the `;` or `}` that ends it. The offset counts from the
start of the expression, which stands at `start`. -/
def segments (start pos depth : Nat) (cs : List Char) : Except LexError (List Segment) :=
  match cs with
  | [] =>
    if depth = 0 then .ok [] else .error ⟨.unbalancedBrace, ⟨start, pos⟩⟩
  | c :: cs =>
    if depth = 0 ∧ (c = ';' ∨ c = '}') then .ok []
    else
      match segmentAt pos c cs with
      | .error e => .error e
      | .ok (n, meant) =>
        let depth := if c = '{' then depth + 1 else if c = '}' then depth - 1 else depth
        let written := c :: cs.take n
        match segments start (pos + byteLength written) depth (cs.drop n) with
        | .error e => .error e
        | .ok more => .ok (⟨written, meant⟩ :: more)
termination_by cs.length
decreasing_by simp only [List.length_cons, List.length_drop]; omega

/-- Does a part start with a blank? Such parts at the end of an expression are not its text. -/
def Segment.isBlank (s : Segment) : Bool := s.written.head?.all Text.isBlank

/-- Without the blank parts at the end. -/
def dropBlankEnd (ss : List Segment) : List Segment := (ss.reverse.dropWhile Segment.isBlank).reverse

/-! ## All pieces -/

/-- The symbols of one character. -/
def symbol? : Char → Option TokenKind
  | '<' => some .langle
  | '>' => some .rangle
  | '(' => some .lparen
  | ')' => some .rparen
  | '{' => some .lbrace
  | '}' => some .rbrace
  | '[' => some .lbracket
  | ']' => some .rbracket
  | ',' => some .comma
  | ';' => some .semi
  | _ => none

/-- Does a number start here? A sign needs a digit or a point after it, a point needs a digit. -/
def startsNumber (c : Char) (next : Option Char) : Bool :=
  isDigit c || (isSign c && next.any (fun d => isDigit d || d == '.')) ||
    (c == '.' && next.any isDigit)

/-- The piece that starts with a character: its token, if it is one, and how many characters it has
after that character. -/
def lexemeAt (pos : Nat) (c : Char) (cs : List Char) :
    Except LexError (Option TokenKind × Nat) :=
  if c = '#' ∨ (c = '/' ∧ cs.head? = some '/') then .ok (none, lineRun cs)
  else if c = '/' ∧ cs.head? = some '*' then
    match runThrough ['*', '/'] (cs.drop 1) with
    | some n => .ok (none, n + 1)
    | none => .error ⟨.unterminatedComment, ⟨pos, pos + 1 + byteLength cs⟩⟩
  else if isBlank c then .ok (none, 0)
  else if isIdentStart c then
    let more := cs.takeWhile isIdentPart
    .ok (some (.ident (String.ofList (c :: more))), more.length)
  else if startsNumber c cs.head? then
    match dropNumber (c :: cs) with
    | .ok rest =>
      let n := cs.length - rest.length
      .ok (some (.number (String.ofList (numberText (c :: cs.take n)))), n)
    | .error (fault, rest) => .error ⟨fault, ⟨pos, pos + 1 + (cs.length - rest.length)⟩⟩
  else if c = '"' ∨ c = '\'' then
    match stringBody c pos (pos + 1) cs with
    | .ok (value, n) => .ok (some (.str (String.ofList value)), n)
    | .error e => .error e
  else
    match symbol? c with
    | some kind => .ok (some kind, 0)
    | none => .error ⟨.unexpected c, ⟨pos, pos + c.utf8Size⟩⟩

/-- The pieces of a manifest that starts at a byte offset. -/
def lexemes (pos : Nat) (cs : List Char) : Except LexError (List Lexeme) :=
  match cs with
  | [] => .ok []
  | c :: cs =>
    if c = '=' then
      let blanks := cs.takeWhile isBlank
      let body := cs.drop blanks.length
      let start := pos + 1 + byteLength blanks
      match segments start start 0 body with
      | .error e => .error e
      | .ok parts =>
        let written := (dropBlankEnd parts).flatMap (·.written)
        let meant := trimEnd (parts.flatMap (·.meant))
        let length := (parts.flatMap (·.written)).length
        let rest := (body.take length).drop written.length
        match lexemes (start + byteLength (body.take length)) (body.drop length) with
        | .error e => .error e
        | .ok more =>
          .ok (⟨some .assign, ['=']⟩ :: ⟨none, blanks⟩ ::
            ⟨some (.expr (String.ofList meant)), written⟩ :: ⟨none, rest⟩ :: more)
    else
      match lexemeAt pos c cs with
      | .error e => .error e
      | .ok (kind, n) =>
        let text := c :: cs.take n
        match lexemes (pos + byteLength text) (cs.drop n) with
        | .error e => .error e
        | .ok more => .ok (⟨kind, text⟩ :: more)
termination_by cs.length
decreasing_by all_goals (simp only [List.length_cons, List.length_drop]; omega)

/-- The tokens of a manifest, the last of them its end. -/
def lex (source : String) : Except LexError (List Token) :=
  (lexemes 0 source.toList).map (Lexeme.place 0)

end EnvManifest
