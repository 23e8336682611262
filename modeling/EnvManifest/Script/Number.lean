import EnvManifest.Decimal.Layout
import EnvManifest.Decimal.Read
import EnvManifest.Word

/-!
# Numbers of expressions

A number is a 64-bit integer or a float. Integer arithmetic wraps around; division and exponent are
always of floats. Comparison is exact between the two kinds.
-/

namespace EnvManifest.Script

open Text

inductive Number where
  | int (value : Int64)
  | float (value : Float)

namespace Number

/-! ## Between the kinds -/

/-- The mathematical value of a finite float, as a whole number and a power of two below one. -/
def parts (x : Float) : Int × Nat :=
  let b := Decimal.Binary.ofFloat x
  let n : Int := if Decimal.isNegative x then -(b.mantissa : Int) else b.mantissa
  if 0 ≤ b.exponent then (n * Nat.pow 2 b.exponent.toNat, 0) else (n, (-b.exponent).toNat)

/-- The greatest whole number that is not above a finite float. -/
def floorOf (x : Float) : Int :=
  let (n, places) := parts x
  n.fdiv (Nat.pow 2 places)

/-- The least whole number that is not below a finite float. -/
def ceilOf (x : Float) : Int :=
  let (n, places) := parts x
  Int.neg ((-n).fdiv (Nat.pow 2 places))

/-- The integer that a float is. -/
def whole? (x : Float) : Option Int64 :=
  if x.isFinite then
    let (n, places) := parts x
    if n % (Nat.pow 2 places) = 0 then Word.int64? (n / (Nat.pow 2 places)) else none
  else none

def toFloat : Number → Float
  | int n => Float.ofInt n.toInt
  | float x => x

/-- The integer that a number is. -/
def toInt? : Number → Option Int64
  | int n => some n
  | float x => whole? x

/-! ## Reading and writing -/

def isSpace (c : Char) : Bool := c == ' ' || (0x09 ≤ c.toNat && c.toNat ≤ 0x0D)

/-- A numeral without a sign. Decimal digits that 64 bits do not hold are a float; hexadecimal
digits wrap around. -/
def ofNumeral? (negative : Bool) (cs : List Char) : Option Number :=
  let signed := fun (n : Nat) => if negative then -(n : Int) else (n : Int)
  let floating := fun (x : Float) => float (if negative then -x else x)
  let hexadecimal := fun (ds : List Char) =>
    if !ds.isEmpty && ds.all isHexDigit then some (int (Int64.ofInt (signed (ofHex ds))))
    else (Decimal.hexadecimal? ds).map floating
  match cs with
  | '0' :: 'x' :: ds => hexadecimal ds
  | '0' :: 'X' :: ds => hexadecimal ds
  | _ =>
    match if !cs.isEmpty && cs.all isDigit then Word.int64? (signed (ofDecimal cs)) else none with
    | some n => some (int n)
    | none => (Decimal.decimal? cs).map floating

/-- A text that is a number, with blanks around it and a sign. -/
def ofText? (cs : List Char) : Option Number :=
  let body := ((cs.dropWhile isSpace).reverse.dropWhile isSpace).reverse
  let (negative, digits) := Decimal.splitSign body
  ofNumeral? negative digits

def text : Number → String
  | int n => toString n
  | float x => Decimal.expressionText x

/-! ## Arithmetic -/

/-- The remainder of a division that rounds down, exactly. -/
def floatMod (x y : Float) : Float :=
  if !x.isFinite || y.isNaN || y == 0 then 0 / 0
  else if y.isInf then
    if x == 0 || Decimal.isNegative x == Decimal.isNegative y then x else y
  else
    let (m, p) := parts x
    let (n, q) := parts y
    let places := max p q
    let a := m * Nat.pow 2 (places - p)
    let b := n * Nat.pow 2 (places - q)
    let r := Int.fmod a b
    let size := Decimal.nearestBinary r.natAbs (-(places : Int))
    if r = 0 then (if Decimal.isNegative x then -0.0 else 0.0)
    else if r < 0 then -size else size

inductive Op where
  | add | sub | mul | div | mod | pow | idiv
deriving DecidableEq, Repr

/-- The result on integers, none for a division by zero. -/
def Op.onInts? (op : Op) (a b : Int64) : Option Number :=
  let x := Float.ofInt a.toInt
  let y := Float.ofInt b.toInt
  match op with
  | add => some (int (a + b))
  | sub => some (int (a - b))
  | mul => some (int (a * b))
  | div => some (float (x / y))
  | pow => some (float (if y == 2 then x * x else Float.pow x y))
  | mod => if b = 0 then none else some (int (Int64.ofInt (Int.fmod a.toInt b.toInt)))
  | idiv => if b = 0 then none else some (int (Int64.ofInt (Int.fdiv a.toInt b.toInt)))

def Op.onFloats (op : Op) (x y : Float) : Float :=
  match op with
  | add => x + y
  | sub => x - y
  | mul => x * y
  | div => x / y
  | mod => floatMod x y
  | pow => if y == 2 then x * x else Float.pow x y
  | idiv => (x / y).floor

/-- The result of an operation, none for a division of integers by zero. -/
def arith? (op : Op) (a b : Number) : Option Number :=
  match a, b with
  | int a, int b => op.onInts? a b
  | a, b => some (float (op.onFloats a.toFloat b.toFloat))

def neg : Number → Number
  | int n => int (-n)
  | float x => float (-x)

/-! ## Bits -/

inductive BitOp where
  | and | or | xor | shl | shr
deriving DecidableEq, Repr

/-- Bits moved to the left, or to the right for a negative count. Zeros come in at both ends. -/
def shiftLeft (a : Int64) (count : Int) : Int64 :=
  let bits := a.toUInt64.toNat
  let moved := if 0 ≤ count then bits * Nat.pow 2 count.toNat else bits / Nat.pow 2 (-count).toNat
  if 64 ≤ count.natAbs then 0 else (UInt64.ofNat moved).toInt64

def BitOp.apply (op : BitOp) (a b : Int64) : Int64 :=
  match op with
  | .and => a &&& b
  | .or => a ||| b
  | .xor => a ^^^ b
  | .shl => shiftLeft a b.toInt
  | .shr => shiftLeft a (-b.toInt)

/-! ## Comparison -/

/-- Is an integer less than a float? -/
def intBelowFloat (n : Int64) (x : Float) : Bool :=
  if x.isNaN then false
  else if x.isInf then !Decimal.isNegative x
  else n.toInt < ceilOf x

/-- Is a float less than an integer? -/
def floatBelowInt (x : Float) (n : Int64) : Bool :=
  if x.isNaN then false
  else if x.isInf then Decimal.isNegative x
  else floorOf x < n.toInt

def lt : Number → Number → Bool
  | int a, int b => a < b
  | int a, float y => intBelowFloat a y
  | float x, int b => floatBelowInt x b
  | float x, float y => x < y

def eq : Number → Number → Bool
  | int a, int b => a == b
  | int a, float y => whole? y == some a
  | float x, int b => whole? x == some b
  | float x, float y => x == y

def le (a b : Number) : Bool := lt a b || eq a b

end Number

end EnvManifest.Script
