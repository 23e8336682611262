/-!
# Byte lengths

Positions in a text are byte offsets of its UTF-8 form. Here is the byte length of a list of
characters, with its laws.
-/

namespace EnvManifest.Text

/-- The number of bytes of the UTF-8 form. -/
def byteLength : List Char → Nat
  | [] => 0
  | c :: cs => c.utf8Size + byteLength cs

@[simp] theorem byteLength_nil : byteLength [] = 0 := rfl

@[simp] theorem byteLength_cons (c : Char) (cs : List Char) :
    byteLength (c :: cs) = c.utf8Size + byteLength cs := rfl

@[simp] theorem byteLength_append (cs ds : List Char) :
    byteLength (cs ++ ds) = byteLength cs + byteLength ds := by
  induction cs with
  | nil => simp
  | cons c cs ih => simp [ih, Nat.add_assoc]

/-- The characters of a text between two byte offsets. Both lie on character boundaries. -/
def slice (cs : List Char) (start stop : Nat) : List Char :=
  go 0 cs
where
  go (pos : Nat) : List Char → List Char
    | [] => []
    | c :: cs =>
      if stop ≤ pos then []
      else if pos < start then go (pos + c.utf8Size) cs
      else c :: go (pos + c.utf8Size) cs

end EnvManifest.Text
