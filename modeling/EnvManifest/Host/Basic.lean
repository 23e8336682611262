import EnvManifest.Host.Target
import EnvManifest.Host.Tree
import EnvManifest.Text.Blank

/-!
# The host

All that an expression can learn about the machine it runs on: variables of the process, files, the
working directory, and some facts.
-/

namespace EnvManifest

open Text

structure Host where
  /-- The variables of the process. -/
  vars : List (String × String)
  /-- The home directory of the account, for a process without `HOME`. -/
  accountHome : String
  workingDirectory : String
  root : Host.Node
  hostName : String
  userName : String
  /-- The system, the processor and the family of systems as the host reports them. -/
  system : String
  processor : String
  family : String
  /-- How many tasks the machine runs at once. -/
  cores : Nat

namespace Host

/-! ## Variables -/

/-- What follows a text at the start of another. -/
def after? (front : List Char) (cs : List Char) : Option (List Char) :=
  if front.isPrefixOf cs then some (cs.drop front.length) else none

/-- The value of a variable. Variables are held as `NAME=value`, and the first one that starts with
the name and `=` counts. -/
def valueOf? (h : Host) (name : String) : Option String :=
  if name.isEmpty then none
  else
    h.vars.findSome? fun (key, value) =>
      (after? (name.toList ++ ['=']) (key.toList ++ '=' :: value.toList)).map String.ofList

/-- The host with a variable set. -/
def setVariable (h : Host) (name value : String) : Host :=
  { h with vars := (name, value) :: h.vars.filter (·.1 != name) }

def unsetVariable (h : Host) (name : String) : Host :=
  { h with vars := h.vars.filter (·.1 != name) }

def home (h : Host) : String :=
  match h.valueOf? "HOME" with
  | some home => if home.isEmpty then h.accountHome else home
  | none => h.accountHome

/-- The shell of the user. A blank `SHELL` does not count. -/
def shell (h : Host) : String :=
  match h.valueOf? "SHELL" with
  | some shell => if shell.toList.all isBlank then "/bin/sh" else shell
  | none => "/bin/sh"

def target (h : Host) : Target := .of (.ofReport h.processor) (.ofReport h.system)

/-! ## Files -/

/-- The most links that one path may lead through. -/
def maxLinks : Nat := 40

/-- The place of the working directory. -/
def here (h : Host) : Place :=
  match Place.walk h.root true maxLinks ⟨h.root, []⟩ (splitChar '/' h.workingDirectory.toList) with
  | .ok place => place
  | .error _ => ⟨h.root, []⟩

/-- The node at a path. -/
def find (h : Host) (followLast : Bool) (path : String) : Except FileFault Node :=
  let cs := path.toList
  if cs.contains '\x00' then .error .zeroInName
  else if cs.isEmpty then .error .notFound
  else if 4096 ≤ byteLength cs then .error .nameTooLong
  else
    let start := if cs.head? = some '/' then ⟨h.root, []⟩ else h.here
    (Place.walk h.root followLast maxLinks start (splitChar '/' cs)).map (·.node)

/-- The text of a file. -/
def read (h : Host) (path : String) : Except FileFault String :=
  match h.find true path with
  | .ok (.file content) =>
    match decode? content with
    | some cs => .ok (String.ofList cs)
    | none => .error .notText
  | .ok _ => .error .isDirectory
  | .error fault => .error fault

end Host

end EnvManifest
