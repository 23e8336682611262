import EnvManifest.Text.Split

/-!
# Paths

A path is a text with `/` between its parts. Repeated separators and inner `.` parts do not count.
Nothing here looks at files.
-/

namespace EnvManifest.Path

open Text

inductive Component where
  /-- The `/` at the start of an absolute path. -/
  | root
  /-- A `.` at the start of a relative path. -/
  | here
  | up
  | name (text : List Char)
deriving DecidableEq, Repr

def Component.text : Component → List Char
  | root => ['/']
  | here => ['.']
  | up => ['.', '.']
  | name text => text

def isAbsolute (path : List Char) : Bool := path.head? == some '/'

/-- Does a part between separators count for nothing? -/
def isIdle (part : List Char) : Bool := part == [] || part == ['.']

def part? (part : List Char) : Option Component :=
  if isIdle part then none else if part = ['.', '.'] then some .up else some (.name part)

/-- The start of a path, which needs no name: the root, or a `.`. -/
def start? (path : List Char) : Option Component :=
  match path with
  | '/' :: _ => some .root
  | '.' :: '/' :: _ => some .here
  | ['.'] => some .here
  | _ => none

/-- The parts of a path after its start. -/
def body (path : List Char) : List (List Char) :=
  if (start? path).isSome then (splitChar '/' path).drop 1 else splitChar '/' path

def components (path : List Char) : List Component :=
  (start? path).toList ++ (body path).filterMap part?

/-! ## Joining -/

/-- A path after another one. An absolute path replaces what stands before it. -/
def join (base path : List Char) : List Char :=
  if isAbsolute path then path
  else if base.isEmpty || base.getLast? == some '/' then base ++ path
  else base ++ '/' :: path

def joinAll (paths : List (List Char)) : List Char := paths.foldl join []

def ofComponents (cs : List Component) : List Char := joinAll (cs.map (·.text))

/-! ## Taking apart -/

/-- Without the idle parts at the end. -/
def dropIdleEnd (parts : List (List Char)) : List (List Char) :=
  (parts.reverse.dropWhile isIdle).reverse

/-- The path without its last component, as written. The root has no parent. -/
def parent? (path : List Char) : Option (List Char) :=
  let slashed := fun (ps : List (List Char)) => ['/'].intercalate ps
  match dropIdleEnd (body path), start? path with
  | [], some .here => some []
  | [], _ => none
  | parts, start =>
    let kept := dropIdleEnd parts.dropLast
    match start with
    | some .root => some ('/' :: slashed kept)
    | some _ => some (slashed (['.'] :: kept))
    | none => some (slashed kept)

/-- The last component, if it is a name. -/
def fileName? (path : List Char) : Option (List Char) :=
  match (components path).getLast? with
  | some (.name text) => some text
  | _ => none

/-- What follows the last point of a name, with the point. A point at the start of the name does
not count. -/
def extension? (name : List Char) : Option (List Char) :=
  let ending := (name.reverse.takeWhile (· != '.')).reverse
  let front := name.take (name.length - ending.length - 1)
  if ending.length = name.length ∨ front = [] then none else some ('.' :: ending)

/-! ## From one path to another -/

/-- How many components two paths have in common at their start. -/
def common : List Component → List Component → Nat
  | a :: as, b :: bs => if a = b then common as bs + 1 else 0
  | _, _ => 0

/-- The path that leads from one path to another, `.` if they are the same. -/
def relative (origin target : List Char) : List Char :=
  let old := components origin
  let new := components target
  let n := common old new
  let steps := List.replicate (old.length - n) Component.up ++ new.drop n
  if steps.isEmpty then ['.'] else ofComponents steps

/-! ## Normal form -/

/-- One component after others, the last of them first. `..` takes a name away, and leaves the
root where it is. -/
def normalStep (kept : List Component) (c : Component) : List Component :=
  match c with
  | .here => kept
  | .up =>
    match kept with
    | .name _ :: rest => rest
    | .root :: _ => kept
    | _ => .up :: kept
  | c => c :: kept

/-- The path without `.` and, as far as names allow, without `..`. -/
def normalize (path : List Char) : List Char :=
  match (components path).foldl normalStep [] with
  | [] => ['.']
  | kept => ofComponents kept.reverse

end EnvManifest.Path
