import EnvManifest.Text.Hex

/-!
# Reading a number

The nearest `Float` of a decimal or hexadecimal text. A tie goes to the even mantissa.
-/

namespace EnvManifest.Decimal

open EnvManifest.Text

/-- The nearest number to `coefficient · 10 ^ exponent`. Exponents far out of range are not
computed. -/
def nearest (coefficient : Nat) (exponent : Int) : Float :=
  if coefficient = 0 then 0
  else
    let top := exponent + (toString coefficient).length
    if top < -400 then 0
    else if 400 < top then 1.0 / 0.0
    else if 0 ≤ exponent then Float.ofScientific coefficient false exponent.toNat
    else Float.ofScientific coefficient true (-exponent).toNat

/-- The nearest number to `coefficient · 2 ^ exponent`. -/
def nearestBinary (coefficient : Nat) (exponent : Int) : Float :=
  if coefficient = 0 then 0
  else
    let top := exponent + Nat.log2 coefficient
    if top < -1200 then 0
    else if 1200 < top then 1.0 / 0.0
    else if 0 ≤ exponent then Float.ofScientific (coefficient * Nat.pow 2 exponent.toNat) false 0
    else Float.ofScientific (coefficient * Nat.pow 5 (-exponent).toNat) true (-exponent).toNat

/-- A sign and what follows it. -/
def splitSign : List Char → Bool × List Char
  | '-' :: cs => (true, cs)
  | '+' :: cs => (false, cs)
  | cs => (false, cs)

/-- A whole number with an optional sign. -/
def exponent? (cs : List Char) : Option Int :=
  let (negative, ds) := splitSign cs
  if ds.isEmpty || !ds.all isDigit then none
  else some (if negative then -(ofDecimal ds : Int) else ofDecimal ds)

/-- Digits and a point, with at least one digit: the coefficient and its power of the base. -/
def mantissa? (isDigitOf : Char → Bool) (value : List Char → Nat) (cs : List Char) :
    Option (Nat × Int) :=
  let whole := cs.takeWhile isDigitOf
  match cs.dropWhile isDigitOf with
  | [] => if whole.isEmpty then none else some (value whole, 0)
  | '.' :: places =>
    if places.all isDigitOf && !(whole.isEmpty && places.isEmpty) then
      some (value (whole ++ places), -(places.length : Int))
    else none
  | _ => none

/-- The text before a mark of either case, and the text after it. -/
def splitMark (mark : Char) (cs : List Char) : List Char × Option (List Char) :=
  let isMark := fun c => c == mark || c == mark.toUpper
  match cs.dropWhile (fun c => !isMark c) with
  | [] => (cs, none)
  | _ :: more => (cs.takeWhile (fun c => !isMark c), some more)

/-- A decimal without a sign: `12`, `1.5`, `.5e-3`. -/
def decimal? (cs : List Char) : Option Float := do
  let (front, power) := splitMark 'e' cs
  let (c, e) ← mantissa? isDigit ofDecimal front
  match power with
  | none => some (nearest c e)
  | some ds => do some (nearest c (e + (← exponent? ds)))

/-- The digits after `0x`, with a power of two: `1F`, `.8`, `1p-4`. -/
def hexadecimal? (cs : List Char) : Option Float := do
  let (front, power) := splitMark 'p' cs
  let (c, e) ← mantissa? isHexDigit ofHex front
  match power with
  | none => some (nearestBinary c (4 * e))
  | some ds => do some (nearestBinary c (4 * e + (← exponent? ds)))

/-- A decimal with an optional sign. The words `inf`, `infinity` and `nan` of any case are read
too. -/
def float? (cs : List Char) : Option Float :=
  let (negative, body) := splitSign cs
  let magnitude :=
    match String.ofList (body.map Char.toLower) with
    | "inf" | "infinity" => some (1.0 / 0.0)
    | "nan" => some (0.0 / 0.0)
    | _ => decimal? body
  magnitude.map fun x => if negative then -x else x

end EnvManifest.Decimal
