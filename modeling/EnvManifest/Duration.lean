import EnvManifest.Text.Blank
import EnvManifest.Word

/-!
# Durations

A duration is written as numbers with units, such as `2s` or `1m 30s`. Blanks may stand anywhere
but inside a unit. A duration counts nanoseconds.
-/

namespace EnvManifest.Duration

open Text

def isUnitChar (c : Char) : Bool := isLetter c || c == 'µ'

/-- The nanoseconds of a unit. -/
def unit? (name : String) : Option Nat :=
  let second := 1000000000
  if ["nanos", "nsec", "ns"].contains name then some 1
  else if ["usec", "us", "µs"].contains name then some 1000
  else if ["millis", "msec", "ms"].contains name then some 1000000
  else if ["seconds", "second", "secs", "sec", "s"].contains name then some second
  else if ["minutes", "minute", "min", "mins", "m"].contains name then some (60 * second)
  else if ["hours", "hour", "hr", "hrs", "h"].contains name then some (3600 * second)
  else if ["days", "day", "d"].contains name then some (86400 * second)
  else if ["weeks", "week", "wk", "wks", "w"].contains name then some (604800 * second)
  else if ["months", "month", "M"].contains name then some (2630016 * second)
  else if ["years", "year", "yr", "yrs", "y"].contains name then some (31557600 * second)
  else none

/-- The digits of a number, which may have blanks between them. -/
def digitRun (cs : List Char) : List Char := cs.takeWhile fun c => isDigit c || isBlank c

/-- The digits after a point, which is there or not, and the rest. -/
def fraction? (cs : List Char) : Option (List Char × List Char) :=
  match cs with
  | '.' :: more =>
    let digits := more.takeWhile isDigit
    if digits.isEmpty then none else some (digits, trimStart (more.drop digits.length))
  | cs => some ([], cs)

/-- The nanoseconds of numbers with units. Each number starts with a digit. -/
def sum? : Nat → List Char → Option Nat
  | 0, _ => none
  | fuel + 1, cs => do
    match trimStart cs with
    | [] => return 0
    | c :: cs =>
      guard (isDigit c)
      let run := digitRun (c :: cs)
      let (places, rest) ← fraction? ((c :: cs).drop run.length)
      let name := rest.takeWhile isUnitChar
      let rest := rest.drop name.length
      guard (rest.head?.all fun c => isDigit c || isBlank c)
      let size ← unit? (String.ofList name)
      let n := ofDecimal (run.filter isDigit)
      guard (n < Word.size ∧ n * size < Word.size * 1000000000)
      let part := ofDecimal places * size / Nat.pow 10 places.length
      return n * size + part + (← sum? fuel rest)

/-- The nanoseconds of a text. A zero needs no unit. -/
def ofChars? (cs : List Char) : Option Nat :=
  if cs = ['0'] then some 0
  else if (trimStart cs).isEmpty then none
  else sum? (cs.length + 1) cs

def toMilliseconds (nanoseconds : Nat) : Nat := nanoseconds / 1000000

end EnvManifest.Duration
