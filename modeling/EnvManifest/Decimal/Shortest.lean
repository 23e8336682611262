import EnvManifest.Decimal.Binary

/-!
# The shortest decimal that reads back

A number lies in an interval of reals that all round to it. Of the decimals in that interval the
one with the fewest digits is chosen, and of those the nearest.
-/

namespace EnvManifest.Decimal

/-- `coefficient · 10 ^ exponent`. -/
structure Numeral where
  coefficient : Nat
  exponent : Int
deriving DecidableEq, Repr

/-- The reals that round to a positive number: from `low` to `high`, the ends included if the
mantissa is even. -/
structure Interval where
  low : Quotient
  high : Quotient
  closed : Bool

/-- Below a power of two the neighbour is only half as far away. -/
def Binary.interval (b : Binary) : Interval :=
  let narrow := b.mantissa = Binary.hiddenBit ∧ b.exponent ≠ -1074
  let below := if narrow then 4 * b.mantissa - 1 else 4 * b.mantissa - 2
  { low := Quotient.scale 2 (b.exponent - 2) ⟨below, 1⟩
    high := Quotient.scale 2 (b.exponent - 2) ⟨4 * b.mantissa + 2, 1⟩
    closed := b.mantissa % 2 = 0 }

def Interval.contains (i : Interval) (q : Quotient) : Bool :=
  if i.closed then i.low.le q && q.le i.high else i.low.lt q && q.lt i.high

/-- The point of the grid `10 ^ e` in the interval that is nearest to the number, if there is
one. It is one of the number's two neighbours on the grid. -/
def Binary.onGrid? (b : Binary) (e : Int) : Option Nat :=
  let scaled := Quotient.scale 10 (-e) b.toQuotient
  let inside := fun n => b.interval.contains (Quotient.scale 10 e ⟨n, 1⟩)
  let n := scaled.floor
  match inside n, inside (n + 1) with
  | false, false => none
  | true, false => some n
  | false, true => some (n + 1)
  | true, true =>
    let below := scaled.distance n
    let above := scaled.distance (n + 1)
    if below.lt above then some n
    else if above.lt below then some (n + 1)
    else if n % 2 = 0 then some n else some (n + 1)

/-- Without the zeros at the end of the coefficient. -/
def Numeral.strip (d : Numeral) : Numeral :=
  go d.coefficient d.coefficient d.exponent
where
  go : Nat → Nat → Int → Numeral
    | 0, c, e => ⟨c, e⟩
    | fuel + 1, c, e => if c ≠ 0 ∧ c % 10 = 0 then go fuel (c / 10) (e + 1) else ⟨c, e⟩

/-- The shortest decimal of a positive number. Seventeen digits are always enough. -/
def Binary.shortest (b : Binary) : Numeral :=
  let top := b.toQuotient.log10
  let found := (List.range 17).findSome? fun (n : Nat) =>
    (b.onGrid? (top - n)).map fun c => (⟨c, top - n⟩ : Numeral)
  (found.getD ⟨(Quotient.scale 10 (16 - top) b.toQuotient).round, top - 16⟩).strip

/-- A positive number to `n` significant digits. A tie goes to the even digit. -/
def Binary.toDigits (b : Binary) (n : Nat) : Numeral :=
  let top := b.toQuotient.log10
  let e := top - (n - 1 : Int)
  (⟨(Quotient.scale 10 (-e) b.toQuotient).round, e⟩ : Numeral).strip

end EnvManifest.Decimal
