import EnvManifest.Script.Reply

/-!
# Functions of numbers
-/

namespace EnvManifest.Script.Library

/-- A float that is whole, as an integer if 64 bits hold it. -/
def whole (n : Int) (x : Float) : Datum :=
  match Word.int64? n with
  | some n => .number (.int n)
  | none => .number (.float x)

def round (direction : Float → Int) (directionOfFloat : Float → Float) (args : List Datum) :
    Work (List Datum) := do
  match ← Work.number args 1 with
  | .int n => return [.number (.int n)]
  | .float x =>
    if x.isFinite then return [whole (direction x) (directionOfFloat x)]
    else return [.number (.float x)]

def absolute (args : List Datum) : Work (List Datum) := do
  match ← Work.number args 1 with
  | .int n => return [.number (.int (if n < 0 then -n else n))]
  | .float x => return [.number (.float x.abs)]

/-- The number that comes before all others in an order. -/
def extreme (before : Number → Number → Bool) (args : List Datum) : Work (List Datum) := do
  let start ← Work.number args 1
  let rest ← (List.range (args.length - 1)).mapM fun i => Work.number args (i + 2)
  return [.number (rest.foldl (fun best n => if before n best then n else best) start)]

/-- The remainder of a division that rounds towards zero. -/
def remainder (args : List Datum) : Work (List Datum) := do
  match ← Work.number args 1, ← Work.number args 2 with
  | .int a, .int b =>
    if b = 0 then Work.wrong 2 "zero"
    else return [.ofInt (Int.tmod a.toInt b.toInt)]
  | a, b =>
    let x := a.toFloat
    let y := b.toFloat
    let size := Number.floatMod x.abs y.abs
    return [.number (.float (if Decimal.isNegative x then -size else size))]

/-- The whole part and the rest. -/
def split (args : List Datum) : Work (List Datum) := do
  match args with
  | .number (.int n) :: _ => return [.number (.int n), .number (.float 0)]
  | _ =>
    let x := (← Work.number args 1).toFloat
    let front := if x < 0 then x.ceil else x.floor
    let rest := if x == front then 0 else x - front
    return [.number (.float front), .number (.float rest)]

def squareRoot (args : List Datum) : Work (List Datum) := do
  return [.number (.float (← Work.number args 1).toFloat.sqrt)]

/-- The integer that a number or a text is. -/
def toInteger (args : List Datum) : Work (List Datum) := do
  let d ← Work.any args 1
  match d.number?.bind Number.toInt? with
  | some n => return [.number (.int n)]
  | none => return [.nil]

def kindOfNumber (args : List Datum) : Work (List Datum) := do
  match ← Work.any args 1 with
  | .number (.int _) => return [.ofString "integer"]
  | .number (.float _) => return [.ofString "float"]
  | _ => return [.nil]

/-- Is an integer less than another one, both without a sign? -/
def belowUnsigned (args : List Datum) : Work (List Datum) := do
  let a ← Work.integer args 1
  let b ← Work.integer args 2
  return [.bool ((Int64.ofInt a).toUInt64 < (Int64.ofInt b).toUInt64)]

/-! ## Reading in a base -/

def digitIn? (base : Nat) (c : Char) : Option Nat :=
  let value :=
    if Text.isDigit c then some (Text.digitValue c)
    else if 'a' ≤ c ∧ c ≤ 'z' then some (c.toNat - 'a'.toNat + 10)
    else if 'A' ≤ c ∧ c ≤ 'Z' then some (c.toNat - 'A'.toNat + 10)
    else none
  value.filter (· < base)

/-- The integer of some digits, with blanks around it and a sign. It wraps around. -/
def ofBase? (base : Nat) (cs : List Char) : Option Int :=
  let body := ((cs.dropWhile Number.isSpace).reverse.dropWhile Number.isSpace).reverse
  let (negative, digits) := Decimal.splitSign body
  if digits.isEmpty then none
  else
    (digits.mapM (digitIn? base)).map fun ds =>
      let n : Nat := ds.foldl (fun n d => n * base + d) 0
      if negative then -(n : Int) else n

def toNumber (args : List Datum) : Work (List Datum) := do
  match args[1]? with
  | none | some .nil =>
    let d ← Work.any args 1
    return [(d.number?.map Datum.number).getD .nil]
  | some _ =>
    let base ← Work.integer args 2
    match args.head? with
    | some (.str bs) =>
      if base < 2 ∨ 36 < base then Work.wrong 2 "base out of range"
      else
        return [(((Text.decode? bs).bind (ofBase? base.toNat)).map Datum.ofInt).getD .nil]
    | _ => Work.wrongType args 1 "string"

end EnvManifest.Script.Library
