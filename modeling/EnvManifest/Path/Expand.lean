import EnvManifest.Path.Basic
import EnvManifest.Text.Hex

/-!
# Expanding a path

A `~` at the start stands for the home directory, `$NAME` and `${NAME}` for a variable of the
process, and `$$` for `$`. What a variable holds is not expanded again.
-/

namespace EnvManifest.Path

open Text

inductive ExpandError where
  | unsetVariable (name : String)
  /-- A `${` without a `}`. -/
  | unclosed (path : String)
deriving DecidableEq, Repr

def ExpandError.message : ExpandError → String
  | unsetVariable name => "environment variable `" ++ name ++ "` is not set"
  | unclosed path => "unterminated `$\x7b` in `" ++ path ++ "`"

/-- A piece of a path with variables. -/
inductive Item where
  /-- A character that stands for itself. -/
  | char (c : Char)
  /-- A `$$`. -/
  | dollar
  | braced (name : List Char)
  | bare (name : List Char)
  /-- A `${` without a `}`, and what follows it. -/
  | unclosed (rest : List Char)
deriving DecidableEq, Repr

def isVariablePart (c : Char) : Bool := isAlphanumeric c || c == '_'

/-- The piece after a `$`, and how many characters it has there. -/
def itemAfterDollar (cs : List Char) : Item × Nat :=
  match cs with
  | '$' :: _ => (.dollar, 1)
  | '{' :: inner =>
    let name := inner.takeWhile (· != '}')
    if name.length = inner.length then (.unclosed inner, cs.length)
    else if name.isEmpty then (.char '$', 0)
    else (.braced name, name.length + 2)
  | _ =>
    let name := cs.takeWhile isVariablePart
    if name.isEmpty then (.char '$', 0) else (.bare name, name.length)

/-- The pieces of a path from left to right. -/
def items (cs : List Char) : List Item :=
  match cs with
  | [] => []
  | c :: cs =>
    if c = '$' then
      let (item, n) := itemAfterDollar cs
      item :: items (cs.drop n)
    else .char c :: items cs
termination_by cs.length
decreasing_by all_goals (simp only [List.length_cons, List.length_drop]; omega)

/-- What a piece of a path stands for. -/
def Item.value (path : List Char) (valueOf? : String → Option String) :
    Item → Except ExpandError (List Char)
  | char c => .ok [c]
  | dollar => .ok ['$']
  | braced name | bare name =>
    match valueOf? (String.ofList name) with
    | some v => .ok v.toList
    | none => .error (.unsetVariable (String.ofList name))
  | unclosed _ => .error (.unclosed (String.ofList path))

/-- The path with its variables replaced. The first fault from the left counts. -/
def expandVariables (valueOf? : String → Option String) (path : List Char) :
    Except ExpandError (List Char) := do
  return ((← (items path).mapM (Item.value path valueOf?))).flatten

/-- The path with the home directory in the place of a `~` that stands alone or before a `/`. -/
def expandHome (home : List Char) (path : List Char) : List Char :=
  match path with
  | '~' :: rest =>
    if rest.isEmpty || isAbsolute rest then join home (rest.dropWhile (· == '/')) else path
  | _ => path

/-- The normal form of an expanded path, after a base if there is one. -/
def expand (valueOf? : String → Option String) (home : List Char) (base : Option (List Char))
    (path : List Char) : Except ExpandError (List Char) := do
  let expanded := expandHome home (← expandVariables valueOf? path)
  match base with
  | some base => return normalize (join base expanded)
  | none => return normalize expanded

end EnvManifest.Path
