import EnvManifest.Builtin.Call
import EnvManifest.Script.Exchange
import EnvManifest.Script.Library.Base
import EnvManifest.Script.Library.Numbers
import EnvManifest.Script.Library.Tables

/-!
# All functions

What each function does, and the table of globals in which expressions find them.
-/

namespace EnvManifest.Script

open Library Text

/-! ## Calls -/

/-- A builtin function takes and gives values. -/
def Builtin.work (host : Host) (b : Builtin) (args : List Datum) : Work (List Datum) := do
  let h ← get
  match args.mapM h.toValue with
  | .error e => throw (.raise (.failure e.message))
  | .ok values =>
    match b.call host values with
    | .error e => throw (.raise (.failure e.message))
    | .ok v =>
      let (h, d) := h.ofValue v
      set h
      return [d]

def Native.work (host : Host) (args : List Datum) : Native → Work (List Datum)
  | .assert => asserted args
  | .error => raised args
  | .getmetatable => metatableOf args
  | .ipairs => itemsOf args
  | .load => loaded args
  | .next => following args
  | .pairs => pairsOf args
  | .pcall => protectedCall args
  | .print => return []
  | .rawequal => rawEqual args
  | .rawget => rawGet args
  | .rawlen => rawLength args
  | .rawset => rawSet args
  | .select => selected args
  | .setmetatable => metatableSet args
  | .tonumber => toNumber args
  | .tostring => textOf args
  | .type => kindOf args
  | .xpcall => protectedCallWith args
  | .byte => bytesOf args
  | .char => ofBytes args
  | .format => Library.format args
  | .len => lengthOf args
  | .lower => each lowerByte args
  | .rep => repeated args
  | .reverse => reversed args
  | .sub => substring args
  | .upper => each upperByte args
  | .concat => concatenated args
  | .insert => inserted args
  | .pack => packed args
  | .remove => removed args
  | .unpack => unpacked args
  | .abs => absolute args
  | .ceil => round Number.ceilOf Float.ceil args
  | .floor => round Number.floorOf Float.floor args
  | .fmod => remainder args
  | .max => extreme (fun a b => Number.lt b a) args
  | .min => extreme Number.lt args
  | .modf => split args
  | .sqrt => squareRoot args
  | .tointeger => toInteger args
  | .kind => kindOfNumber args
  | .ult => belowUnsigned args
  | .nextItem => followingItem args
  | .refuseChange => throw (.raise (.failure "builtin tables are read-only"))
  | .builtin b => Builtin.work host b args

/-! ## Globals -/

/-- The table and the field of a name with a point in it. -/
def splitName (name : String) : String × Option String :=
  match splitChar '.' name.toList with
  | [table, field] => (String.ofList table, some (String.ofList field))
  | _ => (name, none)

/-- The fields of one table among some functions. -/
def fieldsOf (table : String) (fs : List Native) : List (Datum × Datum) :=
  fs.filterMap fun f =>
    match splitName f.name with
    | (t, some field) => if t = table then some (.ofString field, .native f) else none
    | _ => none

/-- The functions that are in no table. -/
def looseOf (fs : List Native) : List (Datum × Datum) :=
  fs.filterMap fun f =>
    match splitName f.name with
    | (name, none) => some (.ofString name, .native f)
    | _ => none

def tableOf (fields : List (Datum × Datum)) : Table :=
  fields.foldl (fun t (k, v) => t.set k v) .empty

/-- The constants of the table for numbers. -/
def numberConstants : List (Datum × Datum) :=
  [(.ofString "pi", .number (.float 3.141592653589793)),
    (.ofString "huge", .number (.float (1 / 0))),
    (.ofString "maxinteger", .number (.int Int64.maxValue)),
    (.ofString "mininteger", .number (.int Int64.minValue))]

/-- The heap with the language's own functions. -/
def Heap.standard : Heap :=
  let h : Heap := ⟨#[tableOf (looseOf Native.standard)], #[], #[]⟩
  let (h, _) := h.newTable .empty
  let (h, strings) := h.newTable (tableOf (fieldsOf "string" Native.standard))
  let (h, tables) := h.newTable (tableOf (fieldsOf "table" Native.standard))
  let (h, numbers) := h.newTable
    (tableOf (fieldsOf "math" Native.standard ++ numberConstants))
  let (h, texts) := h.newTable .empty
  let h := h.setTable stringBehaviour indexKey (.table strings)
  let entries := [("_G", .table globals), ("_VERSION", .ofString "Lua 5.4"),
    ("string", .table strings), ("table", .table tables), ("math", .table numbers),
    ("utf8", .table texts)]
  entries.foldl (fun h (name, d) => h.setTable globals (.ofString name) d) h

/-- The heap with a table that reads like another one and cannot be changed. -/
def Heap.newReadOnly (h : Heap) (source : Nat) : Heap × Nat :=
  let (h, rules) := h.newTable (tableOf [(indexKey, .table source),
    (newIndexKey, .native .refuseChange), (protectedKey, .bool false)])
  h.newTable { Table.empty with metatable := some rules }

/-- The heap with a table of builtin functions. -/
def Heap.addBuiltins (h : Heap) (name : String) : Heap :=
  let (h, source) := h.newTable (tableOf (fieldsOf name (Builtin.all.map .builtin)))
  let (h, id) := h.newReadOnly source
  h.setTable globals (.ofString name) (.table id)

/-- The heap that expressions start with: the language's own functions, then facts, then the
builtin functions. -/
def Heap.start (facts : Fields Value) : Heap :=
  let h := standard.setFields globals facts
  let h := (looseOf (Builtin.all.map .builtin)).foldl (fun h (k, v) => h.setTable globals k v) h
  ["file", "mung", "path"].foldl Heap.addBuiltins h

end EnvManifest.Script
