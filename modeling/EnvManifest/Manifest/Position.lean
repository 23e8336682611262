import EnvManifest.Text.Measure

/-!
# Lines and columns

A place in a text as people count: lines and characters from one. An excerpt shows the line of a
place with a mark under its column.
-/

namespace EnvManifest

open Text

/-- The characters before a byte offset. An offset inside a character counts as its start. -/
def charsBefore (offset : Nat) : List Char → List Char
  | [] => []
  | c :: cs =>
    if c.utf8Size ≤ offset then c :: charsBefore (offset - c.utf8Size) cs else []

/-- The number of line feeds plus one, and the number of characters after the last of them plus
one. -/
def lineColOf (before : List Char) : Nat × Nat :=
  (before.count '\n' + 1, (before.reverse.takeWhile (· != '\n')).length + 1)

/-- The line and the column of a byte offset. -/
def lineCol (source : List Char) (offset : Nat) : Nat × Nat :=
  lineColOf (charsBefore offset source)

/-- The lines of a text without their endings. A carriage return before a line feed belongs to the
ending. A last line that is empty does not count. -/
def textLines : List Char → List (List Char)
  | [] => []
  | '\n' :: cs => [] :: textLines cs
  | '\r' :: '\n' :: cs => [] :: textLines cs
  | c :: cs =>
    match textLines cs with
    | [] => [[c]]
    | line :: lines => (c :: line) :: lines

/-- The mark's indentation: a tab under each tab and a space under any other character. -/
def padding (line : List Char) (column : Nat) : List Char :=
  (line.take (column - 1)).map fun c => if c = '\t' then '\t' else ' '

/-- The line of a byte offset, framed, with a mark under the column. -/
def excerpt (name : String) (source : String) (offset : Nat) : String :=
  let (line, column) := lineCol source.toList offset
  let text := (textLines source.toList).getD (line - 1) []
  let number := toString line
  let gutter := String.ofList (List.replicate number.length ' ')
  gutter ++ " --> " ++ name ++ ":" ++ number ++ ":" ++ toString column ++ "\n" ++
    gutter ++ " |\n" ++
    number ++ " | " ++ String.ofList text ++ "\n" ++
    gutter ++ " | " ++ String.ofList (padding text column) ++ "^"

end EnvManifest
