import EnvManifest.Script.Lexer
import EnvManifest.Script.Reply

/-!
# Functions of strings

Strings are bytes here: positions count bytes from one, and from the end if they are negative.
-/

namespace EnvManifest.Script.Library

open Text

/-! ## Parts -/

/-- The bytes between two positions. -/
def slice (bs : Bytes) (start stop : Int) : Bytes :=
  let n : Int := bs.length
  let start := if 0 < start then start else if start = 0 ∨ start < -n then 1 else n + start + 1
  let stop := if n < stop then n else if 0 ≤ stop then stop else if stop < -n then 0 else n + stop + 1
  (bs.drop (start - 1).toNat).take (stop - start + 1).toNat

def substring (args : List Datum) : Work (List Datum) := do
  let bs ← Work.text args 1
  let start ← Work.integer args 2
  let stop ← Work.optional Work.integer args 3 (-1)
  return [.str (slice bs start stop)]

def bytesOf (args : List Datum) : Work (List Datum) := do
  let bs ← Work.text args 1
  let start ← Work.optional Work.integer args 2 1
  let stop ← Work.optional Work.integer args 3 start
  return (slice bs start stop).map fun b => .ofInt b.toNat

def ofBytes (args : List Datum) : Work (List Datum) := do
  let bs ← (List.range args.length).mapM fun i => do
    let n ← Work.integer args (i + 1)
    if 0 ≤ n ∧ n ≤ 255 then return UInt8.ofNat n.toNat else Work.wrong (i + 1) "value out of range"
  return [.str bs]

/-! ## Whole strings -/

def lengthOf (args : List Datum) : Work (List Datum) := do
  return [.ofInt (← Work.text args 1).length]

def upperByte (b : UInt8) : UInt8 := if 97 ≤ b ∧ b ≤ 122 then b - 32 else b

def lowerByte (b : UInt8) : UInt8 := if 65 ≤ b ∧ b ≤ 90 then b + 32 else b

/-- A change of every byte. -/
def each (change : UInt8 → UInt8) (args : List Datum) : Work (List Datum) := do
  return [.str ((← Work.text args 1).map change)]

def reversed (args : List Datum) : Work (List Datum) := do
  return [.str (← Work.text args 1).reverse]

/-- The most bytes of a string that is made of many. -/
def maxLength : Nat := 67108864

def repeated (args : List Datum) : Work (List Datum) := do
  let bs ← Work.text args 1
  let n := (← Work.integer args 2).toNat
  let separator ← Work.optional Work.text args 3 []
  if Word.half ≤ (bs.length + separator.length) * n then Work.complain "resulting string too large"
  else if maxLength < (bs.length + separator.length) * n then Work.raise "not enough memory"
  else return [.str (separator.intercalate (List.replicate n bs))]

/-! ## Formats -/

/-- How an argument is written: flags, least width, and a number of digits or bytes. -/
structure Format where
  left : Bool
  plus : Bool
  space : Bool
  alternate : Bool
  zeros : Bool
  width : Nat
  precision : Option Nat
deriving DecidableEq, Repr

/-- At most two digits. -/
def twoDigits (cs : List Char) : List Char × List Char :=
  let digits := (cs.take 2).takeWhile isDigit
  (digits, cs.drop digits.length)

/-- A format up to its letter. -/
def Format.read (cs : List Char) : Format × List Char :=
  let flags := cs.takeWhile ['-', '+', ' ', '#', '0'].contains
  let (width, rest) := twoDigits (cs.drop flags.length)
  let (precision, rest) :=
    match rest with
    | '.' :: more =>
      let (digits, rest) := twoDigits more
      (some (ofDecimal digits), rest)
    | rest => (none, rest)
  (⟨flags.contains '-', flags.contains '+', flags.contains ' ', flags.contains '#',
    flags.contains '0', ofDecimal width, precision⟩, rest)

/-- A text filled up to the width. -/
def Format.fill (f : Format) (bs : Bytes) : Bytes :=
  let blanks := List.replicate (f.width - bs.length) 32
  if f.left then bs ++ blanks else blanks ++ bs

/-- Digits with their sign, filled up to the width. -/
def Format.fillNumber (f : Format) (negative zeros : Bool) (digits : List Char) : Bytes :=
  let sign := if negative then ['-'] else if f.plus then ['+'] else if f.space then [' '] else []
  let missing := f.width - (sign.length + digits.length)
  let digits := if zeros && !f.left then List.replicate missing '0' ++ digits else digits
  f.fill (encode (sign ++ digits))

/-- An integer in a base. -/
def Format.integer (f : Format) (negative : Bool) (digits : List Char) : Bytes :=
  match f.precision with
  | none => f.fillNumber negative f.zeros digits
  | some n =>
    let digits := if n = 0 ∧ digits = ['0'] then [] else digits
    f.fillNumber negative false (List.replicate (n - digits.length) '0' ++ digits)

/-- A finite float with a number of places after the point. -/
def places (count : Nat) (x : Float) : List Char :=
  let n := (Decimal.Quotient.scale 10 count (Decimal.Binary.ofFloat x).toQuotient).round
  let digits := toDecimalPadded (count + 1) n
  let front := digits.take (digits.length - count)
  if count = 0 then front else front ++ '.' :: digits.drop (digits.length - count)

def Format.float (f : Format) (x : Float) : Bytes :=
  let negative := Decimal.isNegative x
  if x.isNaN then f.fillNumber true false ['n', 'a', 'n']
  else if x.isInf then f.fillNumber negative false ['i', 'n', 'f']
  else f.fillNumber negative f.zeros (places (f.precision.getD 6) x)

/-- The text of a datum that says nothing about its text. -/
def plainText : Datum → Bytes
  | .nil => encode "nil".toList
  | .bool b => encode (toString b).toList
  | .number n => encode n.text.toList
  | .str bs => bs
  | .table id => encode ("table: 0x" ++ toString id).toList
  | .closure id => encode ("function: 0x" ++ toString id).toList
  | .native f => encode ("function: builtin: " ++ f.name).toList
  | .failure message => encode message.toList

/-- An argument in a format. -/
def formatted (f : Format) (letter : Char) (args : List Datum) (index : Nat) : Work Bytes := do
  if args.length < index then Work.wrong index "no value"
  else if letter = 'd' ∨ letter = 'i' then
    let n ← Work.integer args index
    return f.integer (decide (n < 0)) (toString n.natAbs).toList
  else if letter = 'x' ∨ letter = 'X' then
    let n ← Work.integer args index
    let digits := toHex (Int64.ofInt n).toUInt64.toNat
    return f.integer false (if letter = 'X' then digits.map Char.toUpper else digits)
  else if letter = 'o' then
    let n ← Work.integer args index
    return f.integer false (Nat.toDigits 8 (Int64.ofInt n).toUInt64.toNat)
  else if letter = 'c' then
    let n ← Work.integer args index
    return f.fill [UInt8.ofNat (n.emod 256).toNat]
  else if letter = 'f' ∨ letter = 'F' then
    return f.float (← Work.number args index).toFloat
  else if letter = 's' then
    let bs := plainText (args.getD (index - 1) .nil)
    return f.fill (match f.precision with | some n => bs.take n | none => bs)
  else Work.complain ("invalid conversion '%" ++ letter.toString ++ "' to 'format'")

/-- A text with its formats filled in, from an argument on. -/
def filled (args : List Datum) : Nat → Nat → List Char → Work Bytes
  | 0, _, _ => pure []
  | _, _, [] => pure []
  | fuel + 1, index, '%' :: '%' :: more => do return 37 :: (← filled args fuel index more)
  | fuel + 1, index, '%' :: more => do
    let (f, rest) := Format.read more
    match rest with
    | [] => Work.complain ("invalid conversion '%" ++ String.ofList more ++ "' to 'format'")
    | letter :: rest =>
      let bs ← formatted f letter args index
      return bs ++ (← filled args fuel (index + 1) rest)
  | fuel + 1, index, c :: more => do return encode [c] ++ (← filled args fuel index more)

def format (args : List Datum) : Work (List Datum) := do
  let cs := decodeLossy (← Work.text args 1)
  return [.str (← filled args (cs.length + 1) 2 cs)]

end EnvManifest.Script.Library
