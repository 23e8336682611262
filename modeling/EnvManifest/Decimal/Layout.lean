import EnvManifest.Decimal.Shortest

/-!
# The text of a number

One way of writing digits and point, and the five forms in use: in messages and manifests, plain,
in lists and objects, in the lines of an environment, and in expressions.
-/

namespace EnvManifest.Decimal

/-- The choices of a form. -/
structure Layout where
  /-- The least power of ten of the first digit that is written without an exponent. -/
  least : Option Int
  /-- The least power of ten of the first digit, above one, that needs an exponent. -/
  limit : Option Int
  /-- Whole numbers end in `.0`. -/
  keepPoint : Bool
  /-- A positive exponent has a sign. -/
  plus : Bool
  /-- The least number of digits of the exponent. -/
  width : Nat
  infinity : String
  negativeInfinity : String
  nan : String

namespace Layout

/-- In messages and manifests: `2.0`, `1e16`, `1.5e-7`. -/
def message : Layout := ⟨some (-4), some 16, true, false, 1, "inf", "-inf", "NaN"⟩

/-- All digits, never an exponent: `2`, `0.00001`. -/
def plain : Layout := ⟨none, none, false, false, 1, "inf", "-inf", "NaN"⟩

/-- In lists and objects: `2.0`, `1e+16`, `1e-6`. They hold finite numbers only. -/
def json : Layout := ⟨some (-5), some 16, true, true, 1, "null", "null", "null"⟩

/-- In the lines of an environment: `2`, `1e+21`, `1e-05`. -/
def line : Layout := ⟨some (-4), some 21, false, true, 2, "+Inf", "-Inf", "NaN"⟩

/-- In expressions, of fourteen digits: `2.0`, `1e+15`, `1e-05`. -/
def expression : Layout := ⟨some (-4), some 14, true, true, 2, "inf", "-inf", "-nan"⟩

/-- Is a number whose first digit stands for `10 ^ top` written without an exponent? -/
def isPositional (l : Layout) (top : Int) : Bool :=
  (match l.least with | some k => decide (k ≤ top) | none => true) &&
    (match l.limit with | some k => decide (top < k) | none => true)

end Layout

/-- Digits with the point after the digit for `10 ^ 0`. -/
def positional (keepPoint : Bool) (digits : List Char) (exponent : Int) : List Char :=
  if 0 ≤ exponent then
    digits ++ List.replicate exponent.toNat '0' ++ (if keepPoint then ['.', '0'] else [])
  else
    let places := (-exponent).toNat
    if places < digits.length then
      digits.take (digits.length - places) ++ '.' :: digits.drop (digits.length - places)
    else
      '0' :: '.' :: List.replicate (places - digits.length) '0' ++ digits

/-- One digit, the point and the other digits, then the exponent. -/
def scientific (plus : Bool) (width : Nat) (digits : List Char) (top : Int) : List Char :=
  let mantissa :=
    match digits with
    | d :: e :: more => d :: '.' :: e :: more
    | ds => ds
  let sign := if top < 0 then ['-'] else if plus then ['+'] else []
  let power := (toString top.natAbs).toList
  mantissa ++ 'e' :: sign ++ List.replicate (width - power.length) '0' ++ power

/-- The text of a decimal. -/
def Numeral.text (l : Layout) (d : Numeral) : List Char :=
  let digits := (toString d.coefficient).toList
  let top := d.exponent + digits.length - 1
  if l.isPositional top then positional l.keepPoint digits d.exponent
  else scientific l.plus l.width digits top

/-- The text of a number whose digits are found by `choose`. -/
def textWith (choose : Binary → Numeral) (l : Layout) (x : Float) : String :=
  if x.isNaN then l.nan
  else if x.isInf then (if isNegative x then l.negativeInfinity else l.infinity)
  else
    let b := Binary.ofFloat x
    let digits := if b.mantissa = 0 then positional l.keepPoint ['0'] 0 else (choose b).text l
    String.ofList (if isNegative x then '-' :: digits else digits)

/-- The text with the fewest digits that reads back. -/
def text (l : Layout) (x : Float) : String := textWith Binary.shortest l x

/-- The text in expressions: at most fourteen digits. -/
def expressionText (x : Float) : String := textWith (·.toDigits 14) Layout.expression x

end EnvManifest.Decimal
