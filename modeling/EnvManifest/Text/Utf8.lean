/-!
# UTF-8

Byte strings, and their reading as text: strictly, or with U+FFFD in the place of what is malformed.
-/

namespace EnvManifest.Text

/-- A string of bytes. -/
abbrev Bytes := List UInt8

/-- The UTF-8 form of a text. -/
def encode (cs : List Char) : Bytes := cs.flatMap String.utf8EncodeChar

theorem encode_append (cs ds : List Char) : encode (cs ++ ds) = encode cs ++ encode ds :=
  List.flatMap_append

/-- How a sequence with a given first byte goes on: the number of bytes that follow, and the range
of the second one. No answer for a byte that starts no sequence. -/
def continuation? (first : Nat) : Option (Nat × Nat × Nat) :=
  if first < 0x80 then some (0, 0x80, 0xBF)
  else if first < 0xC2 then none
  else if first < 0xE0 then some (1, 0x80, 0xBF)
  else if first = 0xE0 then some (2, 0xA0, 0xBF)
  else if first = 0xED then some (2, 0x80, 0x9F)
  else if first < 0xF0 then some (2, 0x80, 0xBF)
  else if first = 0xF0 then some (3, 0x90, 0xBF)
  else if first < 0xF4 then some (3, 0x80, 0xBF)
  else if first = 0xF4 then some (3, 0x80, 0x8F)
  else none

/-- How many of the next bytes continue a sequence, at most `n`. The range is for the first of
them; the others are `10xxxxxx`. -/
def continuing : Nat → Nat → Nat → Bytes → Nat
  | 0, _, _, _ => 0
  | _, _, _, [] => 0
  | n + 1, low, high, b :: bs =>
    if low ≤ b.toNat ∧ b.toNat ≤ high then 1 + continuing n 0x80 0xBF bs else 0

/-- The scalar value of a well-formed sequence. -/
def scalar (first : Nat) (more : Bytes) : Nat :=
  let head :=
    match more.length with
    | 0 => first
    | 1 => first % 32
    | 2 => first % 16
    | _ => first % 8
  more.foldl (fun n b => n * 64 + b.toNat % 64) head

/-- The bytes of a text one by one: a character, or nothing for a malformed sequence. A malformed
sequence ends before the first byte that cannot continue it. -/
def decode : Bytes → List (Option Char)
  | [] => []
  | b :: bs =>
    match continuation? b.toNat with
    | none => none :: decode bs
    | some (n, low, high) =>
      let k := continuing n low high bs
      if k = n then some (Char.ofNat (scalar b.toNat (bs.take n))) :: decode (bs.drop n)
      else none :: decode (bs.drop k)
termination_by bs => bs.length
decreasing_by all_goals (simp only [List.length_cons, List.length_drop]; omega)

/-- The text of well-formed bytes. -/
def decode? (bs : Bytes) : Option (List Char) := (decode bs).mapM id

/-- The text of any bytes, with U+FFFD for every malformed sequence. -/
def decodeLossy (bs : Bytes) : List Char := (decode bs).map fun c => c.getD '\uFFFD'

end EnvManifest.Text
