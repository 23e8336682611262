/-!
# Splitting a text
-/

namespace EnvManifest.Text

/-- The parts of a text between the occurrences of a character. There is one part more than
occurrences. -/
def splitChar (separator : Char) : List Char → List (List Char)
  | [] => [[]]
  | c :: cs =>
    if c = separator then [] :: splitChar separator cs
    else
      match splitChar separator cs with
      | [] => [[c]]
      | part :: parts => (c :: part) :: parts

/-- The parts of a text between the occurrences of another one, found from the left. An empty
separator stands between all characters. -/
def splitOn (separator : List Char) (cs : List Char) : List (List Char) :=
  if separator.isEmpty then cs.map ([·]) else go 0 [] cs
where
  /-- `skip` characters belong to an occurrence that has been found. -/
  go (skip : Nat) (part : List Char) : List Char → List (List Char)
    | [] => [part.reverse]
    | c :: cs =>
      if 0 < skip then go (skip - 1) part cs
      else if separator.isPrefixOf (c :: cs) then part.reverse :: go (separator.length - 1) [] cs
      else go 0 (c :: part) cs

end EnvManifest.Text
