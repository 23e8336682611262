import EnvManifest.Script.Ast
import EnvManifest.Script.Table

/-!
# The heap

Tables, variables and functions by number. Every access to a field goes through here: it reads or
writes a table, or says which function decides instead.
-/

namespace EnvManifest.Script

open Text

/-- What surrounds a piece of program: its variables, the last declared first, its further
arguments, and the name of the program. -/
structure Scope where
  cells : List Nat
  varargs : List Datum
  chunk : String

/-- A function with the variables around it. -/
structure Closure where
  body : FunctionBody
  scope : Scope

structure Heap where
  tables : Array Table
  cells : Array Datum
  closures : Array Closure

namespace Heap

/-! ## Numbers -/

/-- The table of globals. -/
def globals : Nat := 0

/-- The table that decides how strings behave. -/
def stringBehaviour : Nat := 1

def table (h : Heap) (id : Nat) : Table := h.tables.getD id .empty

def cell (h : Heap) (id : Nat) : Datum := h.cells.getD id .nil

/-- The value of a variable by its index. -/
def valueOf (h : Heap) (s : Scope) (index : Nat) : Datum := (s.cells[index]?.map h.cell).getD .nil

def newTable (h : Heap) (t : Table) : Heap × Nat :=
  let id := h.tables.size
  ({ h with tables := h.tables.push t }, id)

def newCell (h : Heap) (v : Datum) : Heap × Nat :=
  let id := h.cells.size
  ({ h with cells := h.cells.push v }, id)

/-- New variables, the last of them first. -/
def newCells (h : Heap) (values : List Datum) (cells : List Nat) : Heap × List Nat :=
  match values with
  | [] => (h, cells)
  | v :: more =>
    let (h, id) := h.newCell v
    h.newCells more (id :: cells)

def newClosure (h : Heap) (c : Closure) : Heap × Nat :=
  let id := h.closures.size
  ({ h with closures := h.closures.push c }, id)

/-- The function of a program whose globals are in a table. -/
def newProgram (h : Heap) (chunk : String) (body : FunctionBody) (environment : Datum) :
    Heap × Datum :=
  let (h, cell) := h.newCell environment
  let (h, id) := h.newClosure ⟨body, ⟨[cell], [], chunk⟩⟩
  (h, .closure id)

def setCell (h : Heap) (id : Nat) (v : Datum) : Heap :=
  { h with cells := h.cells.setIfInBounds id v }

def setTable (h : Heap) (id : Nat) (key value : Datum) : Heap :=
  { h with tables := h.tables.modify id fun t => t.set key value }

def setMetatable (h : Heap) (id : Nat) (metatable : Option Nat) : Heap :=
  { h with tables := h.tables.modify id fun t => { t with metatable } }

/-! ## Behaviour -/

def indexKey : Datum := .ofString "__index"
def newIndexKey : Datum := .ofString "__newindex"
def callKey : Datum := .ofString "__call"
def lengthKey : Datum := .ofString "__len"
def concatKey : Datum := .ofString "__concat"
def equalKey : Datum := .ofString "__eq"
def lessKey : Datum := .ofString "__lt"
def lessEqualKey : Datum := .ofString "__le"
def negateKey : Datum := .ofString "__unm"
def complementKey : Datum := .ofString "__bnot"
def textKey : Datum := .ofString "__tostring"
def nameKey : Datum := .ofString "__name"
def pairsKey : Datum := .ofString "__pairs"
def protectedKey : Datum := .ofString "__metatable"

/-- The table that decides how a datum behaves. -/
def behaviour? (h : Heap) : Datum → Option Nat
  | .table id => (h.table id).metatable
  | .str _ => some stringBehaviour
  | _ => none

/-- How a datum behaves in some respect, `nil` if nothing is said. -/
def behaviour (h : Heap) (d : Datum) (key : Datum) : Datum :=
  match h.behaviour? d with
  | some id => (h.table id).get key
  | none => .nil

/-! ## Access -/

/-- What an access comes to. -/
inductive Access (α : Type) where
  | done (result : α)
  /-- A function decides. -/
  | call (f : Datum) (args : List Datum)
  /-- The datum has no fields. It is the one that was asked, or one that it refers to. -/
  | noFields (d : Datum) (asked : Bool)
  | endless

/-- The most tables that one access may go through. -/
def maxChain : Nat := 2000

def read (h : Heap) (key : Datum) (asked : Bool) : Nat → Datum → Access Datum
  | 0, _ => .endless
  | fuel + 1, d =>
    let follow := fun (next : Datum) =>
      if next.isFunction then .call next [d, key] else h.read key false fuel next
    match d with
    | .table id =>
      let t := h.table id
      let v := t.get key
      if !v.isNil then .done v
      else
        match t.metatable with
        | none => .done .nil
        | some rules =>
          let next := (h.table rules).get indexKey
          if next.isNil then .done .nil else follow next
    | d =>
      let next := h.behaviour d indexKey
      if next.isNil then .noFields d asked else follow next

/-- A field. -/
def index (h : Heap) (d key : Datum) : Access Datum := h.read key true maxChain d

def write (h : Heap) (key value : Datum) (asked : Bool) : Nat → Datum → Access Nat
  | 0, _ => .endless
  | fuel + 1, d =>
    let follow := fun (next : Datum) =>
      if next.isFunction then .call next [d, key, value] else h.write key value false fuel next
    match d with
    | .table id =>
      let t := h.table id
      match t.metatable with
      | none => .done id
      | some rules =>
        if !(t.get key).isNil then .done id
        else
          let next := (h.table rules).get newIndexKey
          if next.isNil then .done id else follow next
    | d =>
      let next := h.behaviour d newIndexKey
      if next.isNil then .noFields d asked else follow next

/-- The table whose field changes in an assignment. -/
def target (h : Heap) (d key value : Datum) : Access Nat := h.write key value true maxChain d

end Heap

end EnvManifest.Script
