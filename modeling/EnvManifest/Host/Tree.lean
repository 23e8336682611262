import EnvManifest.Text.Measure
import EnvManifest.Text.Split
import EnvManifest.Text.Utf8

/-!
# Files

A tree of files, directories and symbolic links, and the way a path leads through it.
-/

namespace EnvManifest.Host

open Text

inductive Node where
  | file (content : Bytes)
  | directory (entries : List (String × Node))
  | link (target : String)

/-- Why a file cannot be had. -/
inductive FileFault where
  | notFound
  | notDirectory
  | isDirectory
  | tooManyLinks
  | nameTooLong
  | zeroInName
  | notText
deriving DecidableEq, Repr

def FileFault.message : FileFault → String
  | notFound => "No such file or directory (os error 2)"
  | notDirectory => "Not a directory (os error 20)"
  | isDirectory => "Is a directory (os error 21)"
  | tooManyLinks => "Too many levels of symbolic links (os error 40)"
  | nameTooLong => "File name too long (os error 36)"
  | zeroInName => "file name contained an unexpected NUL byte"
  | notText => "stream did not contain valid UTF-8"

/-- The node with another one at the end of a path in it. Directories on the way are made where
there are none. -/
def Node.place (inner : Node) : List String → Node → Node
  | [], _ => inner
  | name :: more, outer =>
    let entries :=
      match outer with
      | .directory entries => entries
      | _ => []
    let old := ((entries.find? (·.1 == name)).map (·.2)).getD (.directory [])
    .directory (entries.filter (·.1 != name) ++ [(name, inner.place more old)])

/-- A node with the directories around it, the innermost first. -/
structure Place where
  node : Node
  around : List Node

/-- The node of a name in a directory. -/
def Node.entry? (node : Node) (name : List Char) : Except FileFault Node :=
  match node with
  | .directory entries =>
    if 255 < byteLength name then .error .nameTooLong
    else
      match entries.find? (·.1.toList == name) with
      | some (_, node) => .ok node
      | none => .error .notFound
  | _ => .error .notDirectory

/-- Where the parts of a path lead from a place. A link is followed unless it is the last part and
`followLast` does not hold; at most `links` links are followed. -/
def Place.walk (root : Node) (followLast : Bool) (links : Nat) (place : Place)
    (parts : List (List Char)) : Except FileFault Place :=
  match parts with
  | [] => .ok place
  | part :: rest =>
    match place.node with
    | .directory _ =>
      if part = [] ∨ part = ['.'] then walk root followLast links place rest
      else if part = ['.', '.'] then
        match place.around with
        | [] => walk root followLast links place rest
        | outer :: more => walk root followLast links ⟨outer, more⟩ rest
      else
        match place.node.entry? part with
        | .error fault => .error fault
        | .ok (.link target) =>
          if rest = [] ∧ !followLast then .ok ⟨.link target, place.node :: place.around⟩
          else
            match links with
            | 0 => .error .tooManyLinks
            | links + 1 =>
              let start := if target.toList.head? = some '/' then ⟨root, []⟩ else place
              walk root followLast links start (splitChar '/' target.toList ++ rest)
        | .ok node => walk root followLast links ⟨node, place.node :: place.around⟩ rest
    | _ => .error .notDirectory
termination_by (links, parts.length)

end EnvManifest.Host
