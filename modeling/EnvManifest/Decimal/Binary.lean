/-!
# Binary numbers

A finite `Float` is a sign, a whole number and a power of two. Here is that reading, and the
quotient of whole numbers that the decimal forms are computed from.
-/

namespace EnvManifest.Decimal

/-- The sign bit. It is set for `-0.0`. -/
def isNegative (x : Float) : Bool := 9223372036854775808 ≤ x.toBits.toNat

/-- `mantissa · 2 ^ exponent`. -/
structure Binary where
  mantissa : Nat
  exponent : Int
deriving DecidableEq, Repr

/-- The leading bit of most mantissas, which is not written: two to the 52. -/
def Binary.hiddenBit : Nat := 4503599627370496

/-- The absolute value of a finite number. -/
def Binary.ofFloat (x : Float) : Binary :=
  let bits := x.toBits.toNat
  let biased : Nat := bits / hiddenBit % 2048
  let fraction : Nat := bits % hiddenBit
  if biased = 0 then ⟨fraction, -1074⟩ else ⟨fraction + hiddenBit, (biased : Int) - 1075⟩

/-- A non-negative rational number. -/
structure Quotient where
  num : Nat
  den : Nat
deriving DecidableEq, Repr

namespace Quotient

/-- `q · base ^ e`. -/
def scale (base : Nat) (e : Int) (q : Quotient) : Quotient :=
  if 0 ≤ e then ⟨q.num * Nat.pow base e.toNat, q.den⟩ else ⟨q.num, q.den * Nat.pow base (-e).toNat⟩

def le (p q : Quotient) : Bool := p.num * q.den ≤ q.num * p.den

def lt (p q : Quotient) : Bool := p.num * q.den < q.num * p.den

def floor (q : Quotient) : Nat := q.num / q.den

/-- The distance to a whole number. -/
def distance (q : Quotient) (n : Nat) : Quotient :=
  if q.num ≤ n * q.den then ⟨n * q.den - q.num, q.den⟩ else ⟨q.num - n * q.den, q.den⟩

/-- The nearest whole number. A tie goes to the even one. -/
def round (q : Quotient) : Nat :=
  let n := q.num / q.den
  let twice := 2 * (q.num % q.den)
  if twice < q.den then n
  else if q.den < twice then n + 1
  else if n % 2 = 0 then n else n + 1

/-- The largest `k` with `10 ^ k ≤ q`, for a positive `q`. The lengths of the two numbers give it
up to one. -/
def log10 (q : Quotient) : Int :=
  let guess := ((Nat.log2 q.num : Int) - Nat.log2 q.den - 1) * 30103 / 100000
  step 4 guess
where
  step : Nat → Int → Int
    | 0, k => k
    | fuel + 1, k => if le (scale 10 (k + 1) ⟨1, 1⟩) q then step fuel (k + 1) else k

end Quotient

def Binary.toQuotient (b : Binary) : Quotient := Quotient.scale 2 b.exponent ⟨b.mantissa, 1⟩

end EnvManifest.Decimal
