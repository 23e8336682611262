/-!
# Hexadecimal digits
-/

namespace EnvManifest.Text

/-- The value of a hexadecimal digit of either case. -/
def hexValue? (c : Char) : Option Nat :=
  if '0' ≤ c ∧ c ≤ '9' then some (c.toNat - '0'.toNat)
  else if 'a' ≤ c ∧ c ≤ 'f' then some (c.toNat - 'a'.toNat + 10)
  else if 'A' ≤ c ∧ c ≤ 'F' then some (c.toNat - 'A'.toNat + 10)
  else none

def isHexDigit (c : Char) : Bool := (hexValue? c).isSome

def isDigit (c : Char) : Bool := '0' ≤ c && c ≤ '9'

/-- The value of a decimal digit. -/
def digitValue (c : Char) : Nat := c.toNat - '0'.toNat

def isLetter (c : Char) : Bool := ('a' ≤ c && c ≤ 'z') || ('A' ≤ c && c ≤ 'Z')

def isAlphanumeric (c : Char) : Bool := isLetter c || isDigit c

/-- The number written by hexadecimal digits, the most significant first. -/
def ofHex (ds : List Char) : Nat := ds.foldl (fun n d => n * 16 + (hexValue? d).getD 0) 0

/-- The number written by decimal digits, the most significant first. -/
def ofDecimal (ds : List Char) : Nat := ds.foldl (fun n d => n * 10 + digitValue d) 0

/-- Lower-case hexadecimal digits without leading zeros. -/
def toHex (n : Nat) : List Char := Nat.toDigits 16 n

/-- Hexadecimal digits with zeros in front up to a width. -/
def toHexPadded (width n : Nat) : List Char :=
  let ds := toHex n
  List.replicate (width - ds.length) '0' ++ ds

/-- Decimal digits with zeros in front up to a width. -/
def toDecimalPadded (width n : Nat) : List Char :=
  let ds := Nat.toDigits 10 n
  List.replicate (width - ds.length) '0' ++ ds

/-- A Unicode scalar value as a character. Surrogates and numbers past the last plane have none. -/
def charOf? (n : Nat) : Option Char :=
  if h : n.isValidChar then some (Char.ofNatAux n h) else none

end EnvManifest.Text
