/-!
# Long brackets

A long string stands between `[==[` and `]==]` with the same number of `=` on both sides, and a
long comment has `--` in front of that. Nothing inside has a meaning of its own.
-/

namespace EnvManifest.Text

/-- The number of characters up to the end of the line. -/
def lineRun (cs : List Char) : Nat := (cs.takeWhile (· != '\n')).length

/-- The number of characters up to and with the first `close`. -/
def runThrough (close : List Char) : List Char → Option Nat
  | [] => none
  | c :: cs =>
    if close.isPrefixOf (c :: cs) then some close.length
    else (runThrough close cs).map (· + 1)

/-- The level of a long bracket whose first `[` has been read: the number of its `=`. -/
def longLevel? (cs : List Char) : Option Nat :=
  let level := (cs.takeWhile (· == '=')).length
  if (cs.drop level).head? = some '[' then some level else none

/-- The closing long bracket of a level. -/
def longClose (level : Nat) : List Char := ']' :: List.replicate level '=' ++ [']']

/-- Without the end of line that may stand right after the opening bracket. -/
def dropFirstBreak : List Char → List Char
  | '\r' :: '\n' :: cs => cs
  | '\n' :: cs => cs
  | cs => cs

end EnvManifest.Text
