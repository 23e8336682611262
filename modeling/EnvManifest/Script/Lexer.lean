import EnvManifest.Script.Token
import EnvManifest.Text.LongBracket

/-!
# From text to the tokens of a program

Where no token can be read, a last token says why: the parser may find another fault before it.
-/

namespace EnvManifest.Script

open Text

/-! ## Lines -/

def isBreak (c : Char) : Bool := c == '\n' || c == '\r'

/-- Do two characters make one end of line? -/
def isBreakPair (c d : Char) : Bool := (c == '\n' && d == '\r') || (c == '\r' && d == '\n')

/-- A text with every end of line, of one or two characters, as a line feed. -/
def plainBreaks : List Char → List Char
  | [] => []
  | [c] => if isBreak c then ['\n'] else [c]
  | c :: d :: cs =>
    if isBreakPair c d then '\n' :: plainBreaks cs
    else if isBreak c then '\n' :: plainBreaks (d :: cs)
    else c :: plainBreaks (d :: cs)

/-- The number of ends of lines. -/
def breaks (cs : List Char) : Nat := (plainBreaks cs).count '\n'

/-! ## Strings -/

/-- Why a string cannot be read. -/
inductive StringFault where
  /-- The text ends in the string. -/
  | atEnd
  /-- What is wrong, what messages show of the string so far, and how many characters of it have
  been read. -/
  | within (message : String) (shown : Bytes) (read : Nat)

/-- The bytes of a code in `\u{…}`, which may be larger than any character. -/
def encodeCode (n : Nat) : Bytes :=
  let tail := fun (k : Nat) => UInt8.ofNat (0x80 + n / Nat.pow 64 k % 64)
  if n < 0x80 then [UInt8.ofNat n]
  else if n < 0x800 then [UInt8.ofNat (0xC0 + n / 64), tail 0]
  else if n < 0x10000 then [UInt8.ofNat (0xE0 + n / 0x1000), tail 1, tail 0]
  else if n < 0x200000 then [UInt8.ofNat (0xF0 + n / 0x40000), tail 2, tail 1, tail 0]
  else if n < 0x4000000 then [UInt8.ofNat (0xF8 + n / 0x1000000), tail 3, tail 2, tail 1, tail 0]
  else [UInt8.ofNat (0xFC + n / 0x40000000), tail 4, tail 3, tail 2, tail 1, tail 0]

/-- A fault in an escape. Messages show what has been read of it and one more character. -/
def escapeFault (message : String) (read : List Char) (rest : List Char) : StringFault :=
  .within message (encode ('\\' :: read ++ rest.take 1)) 0

/-- The escapes of one character. -/
def simpleEscape? : Char → Option UInt8
  | 'a' => some 7
  | 'b' => some 8
  | 'f' => some 12
  | 'n' => some 10
  | 'r' => some 13
  | 't' => some 9
  | 'v' => some 11
  | '\\' => some 0x5C
  | '"' => some 0x22
  | '\'' => some 0x27
  | _ => none

/-- The code of `\u{…}` after the `u`. -/
def unicodeEscape (cs : List Char) : Except StringFault (Bytes × Nat) :=
  match cs with
  | '{' :: more =>
    let digits := more.takeWhile isHexDigit
    let rest := more.drop digits.length
    if digits.isEmpty then .error (escapeFault "hexadecimal digit expected" ['u', '{'] more)
    else
      let fitting := (List.range (digits.length + 1)).takeWhile fun k =>
        ofHex (digits.take k) ≤ 0x7FFFFFFF
      let read := fitting.length - 1
      if read < digits.length then
        .error (escapeFault "UTF-8 value too large" ('u' :: '{' :: digits.take read)
          (more.drop read))
      else if rest.head? = some '}' then .ok (encodeCode (ofHex digits), digits.length + 3)
      else .error (escapeFault "missing '\x7d'" ('u' :: '{' :: digits) rest)
  | _ => .error (escapeFault "missing '\x7b'" ['u'] cs)

/-- The bytes of an escape after its backslash, and how many characters it has there. -/
def escape (cs : List Char) : Except StringFault (Bytes × Nat) :=
  match cs with
  | [] => .ok ([], 0)
  | 'x' :: more =>
    let digits := (more.take 2).takeWhile isHexDigit
    if digits.length = 2 then .ok ([UInt8.ofNat (ofHex digits)], 3)
    else
      .error (escapeFault "hexadecimal digit expected" ('x' :: digits) (more.drop digits.length))
  | 'z' :: more => .ok ([], (more.takeWhile Number.isSpace).length + 1)
  | 'u' :: more => unicodeEscape more
  | c :: more =>
    if isBreak c then .ok ([10], if more.head?.any (isBreakPair c) then 2 else 1)
    else if isDigit c then
      let digits := (cs.take 3).takeWhile isDigit
      if ofDecimal digits ≤ 255 then .ok ([UInt8.ofNat (ofDecimal digits)], digits.length)
      else .error (escapeFault "decimal escape too large" digits (cs.drop digits.length))
    else
      match simpleEscape? c with
      | some b => .ok ([b], 1)
      | none => .error (escapeFault "invalid escape sequence" [] cs)

/-- A fault behind a part of the string with some bytes and characters. -/
def StringFault.after (bs : Bytes) (n : Nat) : StringFault → StringFault
  | atEnd => atEnd
  | within message shown read => within message (bs ++ shown) (n + read)

/-- The bytes of a string after its opening quote, and how many characters it has with the closing
one. -/
def stringBody (quote : Char) (cs : List Char) : Except StringFault (Bytes × Nat) :=
  match cs with
  | [] => .error .atEnd
  | c :: cs =>
    if c = quote then .ok ([], 1)
    else if isBreak c then .error (.within "unfinished string" [] 0)
    else
      match if c = '\\' then escape cs else .ok (encode [c], 0) with
      | .error fault => .error fault
      | .ok (bs, n) =>
        match stringBody quote (cs.drop n) with
        | .error fault => .error (fault.after bs (n + 1))
        | .ok (more, m) => .ok (bs ++ more, n + m + 1)
termination_by cs.length
decreasing_by simp only [List.length_cons, List.length_drop]; omega

/-- A quoted string after its opening quote. -/
def stringAt (quote : Char) (cs : List Char) : Token × Nat :=
  let mark := encode [quote]
  match stringBody quote cs with
  | .ok (value, n) => (.str value (mark ++ value ++ mark), n)
  | .error .atEnd => (.bad "unfinished string near <eof>", cs.length)
  | .error (.within message shown read) =>
    (.bad (message ++ " near '" ++ shownText (mark ++ shown) ++ "'"), read)

/-- A long string of a level after its first `[`. -/
def longStringAt (line level : Nat) (cs : List Char) : Token × Nat :=
  let body := cs.drop (level + 1)
  match runThrough (longClose level) body with
  | some n =>
    let inner := plainBreaks (body.take (n - (level + 2)))
    let value := encode (match inner with | '\n' :: more => more | more => more)
    let opening := '[' :: List.replicate level '=' ++ ['[']
    (.str value (encode opening ++ value ++ encode (longClose level)), level + 1 + n)
  | none =>
    (.bad ("unfinished long string (starting at line " ++ toString line ++ ") near <eof>"), cs.length)

/-! ## Numbers -/

/-- The number of characters of a numeral after its first one: digits, points, and exponents with a
sign. -/
def numeralRun (hex : Bool) : List Char → Nat
  | [] => 0
  | c :: cs =>
    let isMark := if hex then c == 'p' || c == 'P' else c == 'e' || c == 'E'
    match cs with
    | d :: more =>
      if isMark && (d == '+' || d == '-') then numeralRun hex more + 2
      else if isMark || isHexDigit c || c == '.' then numeralRun hex (d :: more) + 1
      else 0
    | [] => if isMark || isHexDigit c || c == '.' then 1 else 0

/-- The number that starts with a character. A letter right after it belongs to it, as a fault. -/
def numeralAt (c : Char) (cs : List Char) : Token × Nat :=
  let hex := c == '0' && cs.head?.any (fun x => x == 'x' || x == 'X')
  let run := if hex then numeralRun true (cs.drop 1) + 1 else numeralRun false cs
  let n := if (cs.drop run).head?.any (fun d => isLetter d || d == '_') then run + 1 else run
  let written := c :: cs.take n
  let shown := String.ofList written
  match Number.ofNumeral? false written with
  | some (.int v) => (.int v shown, n)
  | some (.float v) => (.float v shown, n)
  | none => (.bad ("malformed number near '" ++ shown ++ "'"), n)

/-! ## Comments -/

/-- A comment after its first `-`, as a gap or as a fault. -/
def commentAt (line : Nat) (cs : List Char) : Option Token × Nat :=
  let short := (none, (cs.takeWhile fun c => !isBreak c).length)
  match cs.drop 1 with
  | '[' :: more =>
    match longLevel? more with
    | none => short
    | some level =>
      match runThrough (longClose level) (more.drop (level + 1)) with
      | some n => (none, 2 + (level + 1) + n)
      | none =>
        (some (.bad ("unfinished long comment (starting at line " ++ toString line ++
          ") near <eof>")), cs.length)
  | _ => short

/-! ## All tokens -/

/-- The longest symbol that starts with a character. -/
def symbolAt (c : Char) (cs : List Char) : String :=
  let three := String.ofList (c :: cs.take 2)
  let two := String.ofList (c :: cs.take 1)
  if three = "..." then three
  else if ["..", "==", "~=", "<=", ">=", "<<", ">>", "//", "::"].contains two then two
  else shownSymbol c

/-- A bracket: a long string, or a symbol. -/
def bracketAt (line : Nat) (cs : List Char) : Token × Nat :=
  match longLevel? cs with
  | some level => longStringAt line level cs
  | none =>
    if cs.head? = some '=' then
      let level := (cs.takeWhile (· == '=')).length
      let shown := String.ofList ('[' :: List.replicate level '=')
      (.bad ("invalid long string delimiter near '" ++ shown ++ "'"), level)
    else (.mark "[", 0)

/-- The token that starts with a character, or none for a gap, and how many characters follow
that character there. -/
def tokenAt (line : Nat) (c : Char) (cs : List Char) : Option Token × Nat :=
  let some' := fun (t : Token × Nat) => (some t.1, t.2)
  if isBreak c then (none, if cs.head?.any (isBreakPair c) then 1 else 0)
  else if Number.isSpace c then (none, 0)
  else if c = '-' ∧ cs.head? = some '-' then commentAt line cs
  else if c = '[' then some' (bracketAt line cs)
  else if c = '"' ∨ c = '\'' then some' (stringAt c cs)
  else if isDigit c || (c == '.' && cs.head?.any isDigit) then some' (numeralAt c cs)
  else if isLetter c || c == '_' then
    let more := cs.takeWhile fun d => isAlphanumeric d || d == '_'
    let word := String.ofList (c :: more)
    (some (if keywords.contains word then .mark word else .name word), more.length)
  else
    let symbol := symbolAt c cs
    (some (.mark symbol), if isPrintable c then symbol.length - 1 else 0)
where
  isPrintable (c : Char) : Bool := 0x20 ≤ c.toNat && c.toNat ≤ 0x7E

/-- The tokens of a text that starts on a line. The last one is the end or a fault. -/
def lex (line : Nat) (cs : List Char) : List Lexeme :=
  match cs with
  | [] => [⟨.eof, line⟩]
  | c :: cs =>
    let (token, n) := tokenAt line c cs
    let next := line + breaks (c :: cs.take n)
    match token with
    | none => lex next (cs.drop n)
    | some (.bad message) => [⟨.bad message, next⟩]
    | some token => ⟨token, next⟩ :: lex next (cs.drop n)
termination_by cs.length
decreasing_by all_goals (simp only [List.length_cons, List.length_drop]; omega)

end EnvManifest.Script
