import EnvManifest.Builtin.Basic
import EnvManifest.Host.Basic
import EnvManifest.PathList
import EnvManifest.Text.Blank
import EnvManifest.Value.Json

/-!
# Calls of builtin functions
-/

namespace EnvManifest.Builtin

open Text Host

def ofChars (cs : List Char) : Value := .str (String.ofList cs)

/-! ## Lists in a text -/

/-- The separator of a list, `:` if none is given. -/
def separatorAt (args : List Value) (index : Nat) : Except Trouble (List Char) := do
  return ((← stringAt? args index).getD ":").toList

/-- The list of a call, empty if none is given. -/
def listOf (args : List Value) : Except Trouble (List Char) := do
  return ((← stringAt? args 0).getD "").toList

/-- An operation on a list with an item. -/
def withItem (operation : List Char → List Char → List Char → List Char) (args : List Value) :
    Except Trouble Value := do
  let separator ← separatorAt args 2
  let item ← stringAt args 1
  let list ← listOf args
  return ofChars (operation separator item.toList list)

/-- An item of a list as text: a string as it is, any other value as JSON. -/
def itemText : Value → List Char
  | .str s => s.toList
  | v => Json.compact v

def joinItems (args : List Value) : Except Trouble Value := do
  let separator ← separatorAt args 1
  match args with
  | [] => return .str ""
  | .list items :: _ => return ofChars (PathList.join separator (items.map itemText))
  | got :: _ => .error (.argument (.notList got))

def replace (args : List Value) : Except Trouble Value := do
  let text ← stringAt args 0
  let old ← stringAt args 1
  let new ← stringAt args 2
  if old.isEmpty then return .str text
  else return ofChars (new.toList.intercalate (splitOn old.toList text.toList))

/-! ## Paths -/

/-- An operation on a path. -/
def withPath (operation : List Char → Value) (args : List Value) : Except Trouble Value := do
  return operation (← stringAt args 0).toList

def relative (args : List Value) : Except Trouble Value := do
  let origin ← stringAt args 0
  let target ← stringAt args 1
  return ofChars (Path.relative origin.toList target.toList)

def expand (h : Host) (args : List Value) : Except Trouble Value := do
  let path ← stringAt args 0
  let base ← stringAt? args 1
  match Path.expand h.valueOf? h.home.toList (base.map String.toList) path.toList with
  | .ok path => return ofChars path
  | .error e => .error (.argument (.path e))

/-! ## Files -/

/-- A question about the node at a path. -/
def ask (h : Host) (followLast : Bool) (question : Node → Bool) (args : List Value) :
    Except Trouble Value := do
  match h.find followLast (← stringAt args 0) with
  | .ok node => return .bool (question node)
  | .error _ => return .bool false

/-- The number of bytes of a file. Directories count as one block. -/
def size (h : Host) (args : List Value) : Except Trouble Value := do
  match h.find true (← stringAt args 0) with
  | .ok (.file content) => return .int content.length
  | .ok _ => return .int 4096
  | .error _ => return .null

def read (h : Host) (args : List Value) : Except Trouble Value := do
  let path ← stringAt args 0
  match h.read path with
  | .ok text => return .str text
  | .error fault => .error (.file path fault)

/-! ## Variables -/

def lookUp (h : Host) (args : List Value) : Except Trouble Value := do
  match h.valueOf? (← stringAt args 0) with
  | some value => return .str value
  | none => return args[1]?.getD .null

/-! ## All functions -/

def run (h : Host) (args : List Value) : Builtin → Except Trouble Value
  | cwd => .ok (.str h.workingDirectory)
  | getenv => lookUp h args
  | fileExists => ask h true (fun _ => true) args
  | fileIsDir => ask h true (fun | .directory _ => true | _ => false) args
  | fileIsFile => ask h true (fun | .file _ => true | _ => false) args
  | fileIsSymlink => ask h false (fun | .link _ => true | _ => false) args
  | fileRead => read h args
  | fileSize => size h args
  | mungAppend => withItem PathList.append args
  | mungDedup => do
    let separator ← separatorAt args 1
    return ofChars (PathList.dedup separator (← listOf args))
  | mungJoin => joinItems args
  | mungPrepend => withItem PathList.prepend args
  | mungRemove => withItem PathList.remove args
  | mungReplace => replace args
  | mungSplit => do
    let separator ← separatorAt args 1
    return .list ((PathList.entries separator (← listOf args)).map ofChars)
  | mungTrim => withPath (fun text => ofChars (trim text)) args
  | pathBasename => withPath (fun path => ofChars ((Path.fileName? path).getD [])) args
  | pathDirname => withPath (fun path => ofChars ((Path.parent? path).getD [])) args
  | pathExpand => expand h args
  | pathExtname =>
    withPath (fun path => ofChars (((Path.fileName? path).bind Path.extension?).getD [])) args
  | pathIsAbsolute => withPath (fun path => .bool (Path.isAbsolute path)) args
  | pathJoin => .ok (ofChars (Path.joinAll (strings args)))
  | pathNormalize => withPath (fun path => ofChars (Path.normalize path)) args
  | pathRelative => relative args
  | pathResolve =>
    .ok (ofChars (Path.normalize ((strings args).foldl Path.join h.workingDirectory.toList)))
  | pathSplit =>
    withPath (fun path => .list ((Path.components path).map fun c => ofChars c.text)) args

def call (h : Host) (b : Builtin) (args : List Value) : Except BuiltinError Value :=
  (run h args b).mapError fun trouble => ⟨b, trouble⟩

end EnvManifest.Builtin
