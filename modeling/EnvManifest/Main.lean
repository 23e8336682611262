import EnvManifest.Cli.Run

/-!
# The program

Looks at the machine once, runs the command, and prints what it leaves behind. Expressions see the
files below the working directory as they were at the start.
-/

namespace EnvManifest.Main

open Text Host

/-- How deep below the working directory files are looked at. -/
def maxDepth : Nat := 8

/-- The largest file that is looked at, in bytes. -/
def maxSize : Nat := 16777216

/-- A node of the machine, none for what cannot be read. -/
def look (depth : Nat) (entry : IO.FS.DirEntry) : IO (Option (String × Node)) := do
  try
    if ← entry.path.isDir then
      match depth with
      | 0 => return some (entry.fileName, .directory [])
      | depth + 1 =>
        let nodes ← (← entry.path.readDir).toList.filterMapM (look depth)
        return some (entry.fileName, .directory nodes)
    else if (← entry.path.metadata).byteSize.toNat ≤ maxSize then
      let bytes ← IO.FS.readBinFile entry.path
      return some (entry.fileName, .file bytes.data.toList)
    else return none
  catch _ => return none

def parts (path : String) : List String :=
  (splitChar '/' path.toList).filterMap fun cs =>
    if cs.isEmpty then none else some (String.ofList cs)

/-- The variables of the process. -/
def processVars : IO (List (String × String)) := do
  let bytes ← IO.FS.readBinFile "/proc/self/environ"
  return (splitChar '\x00' (decodeLossy bytes.data.toList)).filterMap fun cs =>
    let name := cs.takeWhile (· != '=')
    if name.length < cs.length then
      some (String.ofList name, String.ofList (cs.drop (name.length + 1)))
    else none

/-- The first line of a file, or what stands for it. -/
def firstLine (path missing : String) : IO String := do
  try return ((← IO.FS.lines path)[0]?).getD missing
  catch _ => return missing

/-- The machine as it is now. -/
def machine : IO Host := do
  let here ← IO.currentDir
  let nodes ← (← here.readDir).toList.filterMapM (look maxDepth)
  let vars ← processVars
  let user := (vars.find? (·.1 == "USER")).map (·.2)
  return {
    vars
    accountHome := "/"
    workingDirectory := here.toString
    root := Node.place (.directory nodes) (parts here.toString) (.directory [])
    hostName := ← firstLine "/proc/sys/kernel/hostname" "localhost"
    userName := user.getD "unknown"
    system := "linux"
    processor := "x86_64"
    family := "unix"
    cores := 1 }

/-- The files that a request reads before anything else. -/
def filesOf : Cli.Request → List String
  | .eval r => r.files
  | .fmt files | .list files _ => files
  | _ => []

/-- The machine with one more file that can be read. -/
def withFile (host : Host) (path : String) : IO Host := do
  match host.read path with
  | .ok _ => return host
  | .error _ =>
    try
      let bytes ← IO.FS.readBinFile path
      let whole := Path.normalize (Path.join host.workingDirectory.toList path.toList)
      let root := Node.place (.file bytes.data.toList) (parts (String.ofList whole)) host.root
      return { host with root }
    catch _ => return host

/-- Runs the program. The answer is the exit code. -/
def run (arguments : List String) : IO UInt32 := do
  let host ← machine
  let files := ((Cli.Request.ofArguments? host arguments).map filesOf).getD []
  let host ← files.foldlM withFile host
  let output := Cli.run host .calm arguments
  IO.print output.stdout
  IO.eprint output.stderr
  return output.exit.toUInt32

end EnvManifest.Main

def main (arguments : List String) : IO UInt32 := EnvManifest.Main.run arguments
