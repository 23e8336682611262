/-!
# Cancellation

A token says whether work should stop. It is cancelled by hand, by a time limit, or together with
the token that it follows. Copies of a token share its fate.
-/

namespace EnvManifest.Cancel

/-- One token without those that it follows: the flag that it shares with its copies, and whether
its time is up from the start. -/
structure Link where
  flag : Nat
  expired : Bool
deriving DecidableEq, Repr

/-- A token, then the tokens that it follows. -/
abbrev Token := List Link

/-- All tokens so far, in the order in which they were made. -/
structure Tokens where
  tokens : List Token
  /-- The flags that are set. -/
  raised : List Nat
  /-- The number of flags in use. -/
  flags : Nat
deriving DecidableEq, Repr

inductive Step where
  | new
  | timeout (expired : Bool)
  | child (parent : Nat)
  | clone (token : Nat)
  | cancel (index : Nat)
deriving DecidableEq, Repr

namespace Tokens

/-- One token on its own. -/
def start : Tokens := ⟨[[⟨0, false⟩]], [], 1⟩

def token (ts : Tokens) (index : Nat) : Token := ts.tokens.getD index []

/-- One more token, with a flag of its own. -/
def make (ts : Tokens) (expired : Bool) (parent : Token) : Tokens :=
  { ts with tokens := ts.tokens ++ [⟨ts.flags, expired⟩ :: parent], flags := ts.flags + 1 }

def step (ts : Tokens) : Step → Tokens
  | .new => ts.make false []
  | .timeout expired => ts.make expired []
  | .child parent => ts.make false (ts.token parent)
  | .clone index => { ts with tokens := ts.tokens ++ [ts.token index] }
  | .cancel index =>
    match ts.token index with
    | link :: _ => { ts with raised := link.flag :: ts.raised }
    | [] => ts

def isCancelled (ts : Tokens) (t : Token) : Bool :=
  t.any fun link => link.expired || ts.raised.contains link.flag

/-- Which of the tokens are cancelled. -/
def states (ts : Tokens) : List Bool := ts.tokens.map ts.isCancelled

end Tokens

end EnvManifest.Cancel
