import EnvManifest.Text.Blank
import EnvManifest.Text.Hex
import EnvManifest.Text.LongBracket

/-!
# Tokens of an expression

Any text has tokens here, also one that is no expression. Each token carries the gap of blanks and
comments before it, so that nothing of the text is lost.
-/

namespace EnvManifest.Patch

open Text

inductive Kind where
  | name | number | str | punct
deriving DecidableEq, Repr

/-- A piece of an expression: a token, or a part of a gap. -/
structure Piece where
  kind : Option Kind
  text : List Char
deriving DecidableEq, Repr

structure Token where
  /-- The blanks and comments before the token. -/
  gap : List Char
  kind : Kind
  text : List Char
deriving DecidableEq, Repr

/-! ## Pieces -/

/-- The number of characters from an opening long bracket of a level, after its first `[`. Without a
closing bracket it runs to the end. -/
def longRun (level : Nat) (cs : List Char) : Nat :=
  match runThrough (longClose level) (cs.drop (level + 1)) with
  | some n => level + 1 + n
  | none => cs.length

/-- The number of characters of a comment after its first `-`. -/
def commentRun (cs : List Char) : Nat :=
  match cs.drop 1 with
  | '[' :: more =>
    match longLevel? more with
    | some level => 2 + longRun level more
    | none => lineRun cs
  | _ => lineRun cs

/-- The number of characters of a string after its opening quote. Without a closing quote it runs to
the end. -/
def stringRun (quote : Char) : List Char → Nat
  | [] => 0
  | ['\\'] => 1
  | '\\' :: _ :: cs => stringRun quote cs + 2
  | c :: cs => if c = quote then 1 else stringRun quote cs + 1

/-- Does a sign after a character belong to the number? In a hexadecimal number `e` is a digit. -/
def allowsSign (hex : Bool) (previous : Char) : Bool :=
  previous == 'p' || previous == 'P' || ((previous == 'e' || previous == 'E') && !hex)

/-- The number of characters of a number after its first one. -/
def numberRun (hex : Bool) (previous : Char) : List Char → Nat
  | [] => 0
  | c :: cs =>
    if isAlphanumeric c || c == '.' || c == '_' ||
        ((c == '+' || c == '-') && allowsSign hex previous) then
      numberRun hex c cs + 1
    else 0

def isNameStart (c : Char) : Bool := isLetter c || c == '_'

def isNamePart (c : Char) : Bool := isAlphanumeric c || c == '_'

/-- The symbols of two characters. -/
def doubled : List (Char × Char) :=
  [('.', '.'), (':', ':'), ('=', '='), ('~', '='), ('<', '='), ('>', '='), ('/', '/'), ('<', '<'),
    ('>', '>')]

/-- The number of characters of a symbol after its first one. -/
def symbolRun (c : Char) (cs : List Char) : Nat :=
  match cs with
  | [] => 0
  | d :: more =>
    if c = '.' ∧ d = '.' ∧ more.head? = some '.' then 2
    else if doubled.contains (c, d) then 1
    else 0

/-- The kind of the piece that starts with a character, and how many characters follow it there. -/
def pieceAt (c : Char) (cs : List Char) : Option Kind × Nat :=
  if isAsciiBlank c then (none, 0)
  else if c = '-' ∧ cs.head? = some '-' then (none, commentRun cs)
  else if c = '"' ∨ c = '\'' then (some .str, stringRun c cs)
  else if isDigit c || (c == '.' && cs.head?.any isDigit) then
    (some .number, numberRun (cs.head?.any fun x => x == 'x' || x == 'X') c cs)
  else if isNameStart c then (some .name, (cs.takeWhile isNamePart).length)
  else
    match if c = '[' then longLevel? cs else none with
    | some level => (some .str, longRun level cs)
    | none => (some .punct, symbolRun c cs)

/-- The pieces of any text. -/
def pieces (cs : List Char) : List Piece :=
  match cs with
  | [] => []
  | c :: cs =>
    let (kind, n) := pieceAt c cs
    ⟨kind, c :: cs.take n⟩ :: pieces (cs.drop n)
termination_by cs.length
decreasing_by simp only [List.length_cons, List.length_drop]; omega

/-- Nothing of the text is lost. -/
theorem flatMap_pieces (cs : List Char) : (pieces cs).flatMap (·.text) = cs := by
  fun_induction pieces cs with
  | case1 => rfl
  | case2 c cs kind n h ih => simp [ih]

/-! ## Tokens -/

/-- The tokens among pieces after a gap, and the gap after the last of them. -/
def attach (gap : List Char) : List Piece → List Token × List Char
  | [] => ([], gap)
  | p :: ps =>
    match p.kind with
    | none => attach (gap ++ p.text) ps
    | some kind =>
      let (tokens, last) := attach [] ps
      (⟨gap, kind, p.text⟩ :: tokens, last)

/-- The tokens of a text, and the gap at its end. -/
def tokenize (cs : List Char) : List Token × List Char := attach [] (pieces cs)

/-- What a token stands for in the text. -/
def Token.source (t : Token) : List Char := t.gap ++ t.text

theorem attach_source (gap : List Char) (ps : List Piece) :
    (attach gap ps).1.flatMap Token.source ++ (attach gap ps).2 = gap ++ ps.flatMap (·.text) := by
  fun_induction attach gap ps with
  | case1 gap => simp
  | case2 gap p ps h ih => simp [ih]
  | case3 gap p ps kind h tokens last e ih =>
    rw [e] at ih
    simpa [Token.source] using ih

theorem tokenize_source (cs : List Char) :
    (tokenize cs).1.flatMap Token.source ++ (tokenize cs).2 = cs := by
  simp [tokenize, attach_source, flatMap_pieces]

end EnvManifest.Patch
