import EnvManifest.Script.Heap
import EnvManifest.Value.Basic

/-!
# Values in and out

A value becomes a datum of the heap, and a datum becomes a value again. A list stays a list, also
an empty one. Of a datum only what a value can say is kept: functions have no value.
-/

namespace EnvManifest.Script

open Text

/-! ## From values -/

namespace Heap

mutual

/-- A value as a datum. A whole number that 64 bits with a sign do not hold becomes a float. -/
def ofValue (h : Heap) : Value → Heap × Datum
  | .null => (h, .nil)
  | .bool b => (h, .bool b)
  | .int n => (h, .number (((Word.int64? n).map .int).getD (.float (Float.ofInt n))))
  | .float x => (h, .number (.float x))
  | .str s => (h, .ofString s)
  | .list values =>
    let (h, items) := h.ofValues values
    let (h, id) := h.newTable { Table.ofItems items with isList := true }
    (h, .table id)
  | .object fields =>
    let (h, id) := h.newTable (Table.reserve 0 fields.length)
    (h.setFields id fields, .table id)

def ofValues (h : Heap) : List Value → Heap × List Datum
  | [] => (h, [])
  | v :: vs =>
    let (h, d) := h.ofValue v
    let (h, ds) := h.ofValues vs
    (h, d :: ds)

/-- The table with the fields of an object. -/
def setFields (h : Heap) (id : Nat) : List (String × Value) → Heap
  | [] => h
  | (key, v) :: more =>
    let (h, d) := h.ofValue v
    (h.setTable id (.ofString key) d).setFields id more

end

end Heap

/-! ## To values -/

/-- Why a datum is no value. -/
inductive ExchangeError where
  /-- A table has a key of a kind. -/
  | key (kind : String)
  /-- A string is no text. -/
  | notText
  /-- A table contains itself. -/
  | recursive
deriving DecidableEq, Repr

def ExchangeError.message : ExchangeError → String
  | key kind => "deserialize error: invalid type: " ++ kind ++ ", expected a string key"
  | notText => "deserialize error: invalid type: byte array, expected any valid JSON value"
  | recursive => "deserialize error: recursive table detected"

/-- A float that is a key, in messages. -/
def floatKeyText (x : Float) : String :=
  let text := Decimal.text .plain x
  if text.toList.contains '.' then text else text ++ ".0"

namespace Heap

/-- Is a table read as a list? -/
def isList (h : Heap) (id : Nat) : Bool :=
  let t := h.table id
  t.isList || 0 < t.length

/-- The key of a field. -/
def fieldKey (h : Heap) : Datum → Except ExchangeError String
  | .str bs =>
    match decode? bs with
    | some cs => .ok (String.ofList cs)
    | none => .error (.key "byte array")
  | .number (.int n) => .error (.key ("integer `" ++ toString n ++ "`"))
  | .number (.float x) => .error (.key ("floating point `" ++ floatKeyText x ++ "`"))
  | .bool b => .error (.key ("boolean `" ++ toString b ++ "`"))
  | .table id => .error (.key (if h.isList id then "sequence" else "map"))
  | _ => .error (.key "unit value")

/-- Does a datum have no value of its own? One of the tables around it must not come back. -/
def isLeftOut (around : List Nat) : Datum → Except ExchangeError Bool
  | .table id => if around.contains id then .error .recursive else .ok false
  | .closure _ | .native _ | .failure _ => .ok true
  | _ => .ok false

/-- The value of a datum, with the tables around it. A table more goes around with each step. -/
def valueWithin (h : Heap) (around : List Nat) : Nat → Datum → Except ExchangeError Value
  | _, .bool b => .ok (.bool b)
  | _, .number (.int n) => .ok (.int n.toInt)
  | _, .number (.float x) => .ok (.ofFloat x)
  | _, .str bs =>
    match decode? bs with
    | some cs => .ok (.str (String.ofList cs))
    | none => .error .notText
  | fuel + 1, .table id => do
    let around := id :: around
    let t := h.table id
    if h.isList id then
      let items := (List.range t.length).map fun i => t.getItem (i + 1)
      let values ← items.filterMapM fun d => do
        if ← isLeftOut around d then return none
        else return some (← h.valueWithin around fuel d)
      return .list values
    else
      let fields ← t.pairs.filterMapM fun (k, d) => do
        let keyOut ← isLeftOut around k
        let out ← isLeftOut around d
        if keyOut || out then return none
        else
          let key ← h.fieldKey k
          return some (key, ← h.valueWithin around fuel d)
      return .ofFields fields
  | 0, .table _ => .error .recursive
  | _, .nil | _, .closure _ | _, .native _ | _, .failure _ => .ok .null

/-- The value of a datum. -/
def toValue (h : Heap) (d : Datum) : Except ExchangeError Value :=
  h.valueWithin [] (h.tables.size + 1) d

end Heap

end EnvManifest.Script
