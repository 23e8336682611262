/-!
# The moment of cancellation

Work asks from time to time whether it should stop. Its patience says how many more times the answer
is no. Long computations ask after every thousand steps.
-/

namespace EnvManifest

/-- How many more questions are answered with no. Without a number all of them are. -/
structure Patience where
  left : Option Nat
deriving DecidableEq, Repr

namespace Patience

/-- Work that is never stopped. -/
def endless : Patience := ⟨none⟩

/-- Work that is stopped at once. -/
def exhausted : Patience := ⟨some 0⟩

/-- How many questions a millisecond has time for. -/
def questionsPerMillisecond : Nat := 20

def ofMilliseconds (ms : Nat) : Patience := ⟨some (ms * questionsPerMillisecond)⟩

/-- A question: should work stop? Once it should, it always should. -/
def ask (p : Patience) : Bool × Patience :=
  match p.left with
  | none => (false, p)
  | some 0 => (true, p)
  | some (n + 1) => (false, ⟨some n⟩)

/-- The patience that ends first. -/
def least (p q : Patience) : Patience :=
  match p.left, q.left with
  | none, _ => q
  | _, none => p
  | some m, some n => ⟨some (min m n)⟩

/-- The patience after some more questions. -/
def after (p : Patience) (questions : Nat) : Patience := ⟨p.left.map (· - questions)⟩

/-- How many questions have been answered with no between two moments. -/
def since (p q : Patience) : Nat :=
  match p.left, q.left with
  | some m, some n => m - n
  | _, _ => 0

end Patience

/-- The patience of a long computation. -/
structure Clock where
  patience : Patience
  /-- How many steps have been taken since the last question. -/
  steps : Nat
deriving DecidableEq, Repr

namespace Clock

/-- The steps between two questions. -/
def interval : Nat := 1000

/-- A step: should work stop? -/
def tick (c : Clock) : Bool × Clock :=
  if c.steps + 1 < interval then (false, { c with steps := c.steps + 1 })
  else
    let (stop, patience) := c.patience.ask
    (stop, ⟨patience, 0⟩)

end Clock

end EnvManifest
