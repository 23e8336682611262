import EnvManifest.Text.Hex

/-!
# Words

Whole numbers that 64 bits hold, with and without a sign.
-/

namespace EnvManifest.Word

open Text

/-- The number of words: two to the 64. -/
def size : Nat := 18446744073709551616

/-- The number of words that are not negative: two to the 63. -/
def half : Nat := 9223372036854775808

/-- A whole number, if 64 bits hold it with its sign. -/
def int64? (n : Int) : Option Int64 :=
  if -(half : Int) ≤ n ∧ n < half then some (Int64.ofInt n) else none

/-- Digits with an optional plus, if 64 bits hold their value. -/
def natural? (cs : List Char) : Option Nat :=
  let digits :=
    match cs with
    | '+' :: ds => ds
    | ds => ds
  if digits.isEmpty || !digits.all isDigit then none
  else (some (ofDecimal digits)).filter (· < size)

end EnvManifest.Word
