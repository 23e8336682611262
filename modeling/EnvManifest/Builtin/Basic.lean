import EnvManifest.Host.Tree
import EnvManifest.Path.Expand
import EnvManifest.Value.Basic

/-!
# Builtin functions

The functions that every expression can call, and how calls of them fail.
-/

namespace EnvManifest

inductive Builtin where
  | cwd | getenv
  | fileExists | fileIsDir | fileIsFile | fileIsSymlink | fileRead | fileSize
  | mungAppend | mungDedup | mungJoin | mungPrepend | mungRemove | mungReplace | mungSplit | mungTrim
  | pathBasename | pathDirname | pathExpand | pathExtname | pathIsAbsolute | pathJoin
  | pathNormalize | pathRelative | pathResolve | pathSplit
deriving DecidableEq, Repr

namespace Builtin

/-- The name in expressions: a table and a field, or a name alone. -/
def name : Builtin → String
  | cwd => "cwd"
  | getenv => "getenv"
  | fileExists => "file.exists"
  | fileIsDir => "file.is_dir"
  | fileIsFile => "file.is_file"
  | fileIsSymlink => "file.is_symlink"
  | fileRead => "file.read"
  | fileSize => "file.size"
  | mungAppend => "mung.append"
  | mungDedup => "mung.dedup"
  | mungJoin => "mung.join"
  | mungPrepend => "mung.prepend"
  | mungRemove => "mung.remove"
  | mungReplace => "mung.replace"
  | mungSplit => "mung.split"
  | mungTrim => "mung.trim"
  | pathBasename => "path.basename"
  | pathDirname => "path.dirname"
  | pathExpand => "path.expand"
  | pathExtname => "path.extname"
  | pathIsAbsolute => "path.is_absolute"
  | pathJoin => "path.join"
  | pathNormalize => "path.normalize"
  | pathRelative => "path.relative"
  | pathResolve => "path.resolve"
  | pathSplit => "path.split"

/-- All functions in the order of their names. -/
def all : List Builtin :=
  [cwd, fileExists, fileIsDir, fileIsFile, fileIsSymlink, fileRead, fileSize, getenv, mungAppend,
    mungDedup, mungJoin, mungPrepend, mungRemove, mungReplace, mungSplit, mungTrim, pathBasename,
    pathDirname, pathExpand, pathExtname, pathIsAbsolute, pathJoin, pathNormalize, pathRelative,
    pathResolve, pathSplit]

theorem mem_all (b : Builtin) : b ∈ all := by cases b <;> decide

def ofName? (name : String) : Option Builtin := all.find? (·.name == name)

/-- The table and the field of a function in a table. -/
def field? (b : Builtin) : Option (String × String) :=
  match Text.splitChar '.' b.name.toList with
  | [table, field] => some (String.ofList table, String.ofList field)
  | _ => none

end Builtin

/-! ## Faults -/

/-- What is wrong with an argument. Arguments count from zero. -/
inductive ArgumentFault where
  | missing (index : Nat)
  | notString (index : Nat) (got : Value)
  | notList (got : Value)
  | path (e : Path.ExpandError)

def ArgumentFault.message : ArgumentFault → String
  | missing index => "missing argument #" ++ toString (index + 1)
  | notString index got =>
    "argument #" ++ toString (index + 1) ++ " must be a string, got " ++ got.kindName
  | notList got => "argument #1 must be a list, got " ++ got.kindName
  | path e => e.message

/-- Why a call failed. -/
inductive Trouble where
  | argument (fault : ArgumentFault)
  | file (path : String) (fault : Host.FileFault)

def Trouble.message : Trouble → String
  | argument fault => fault.message
  | file path fault => path ++ ": " ++ fault.message

structure BuiltinError where
  builtin : Builtin
  trouble : Trouble

def BuiltinError.message (e : BuiltinError) : String :=
  e.builtin.name ++ ": " ++ e.trouble.message

/-! ## Arguments -/

/-- A string that must be there. -/
def stringAt (args : List Value) (index : Nat) : Except Trouble String :=
  match args[index]? with
  | some (.str s) => .ok s
  | some got => .error (.argument (.notString index got))
  | none => .error (.argument (.missing index))

/-- A string that may be missing or null. -/
def stringAt? (args : List Value) (index : Nat) : Except Trouble (Option String) :=
  match args[index]? with
  | none | some .null => .ok none
  | some _ => (stringAt args index).map some

/-- The arguments that are strings. -/
def strings (args : List Value) : List (List Char) :=
  args.filterMap fun
    | .str s => some s.toList
    | _ => none

end EnvManifest
