/-!
# Evaluation errors
-/

namespace EnvManifest

/-- An expression that failed. -/
structure ExpressionError where
  /-- The namespace and the variable of its statement. -/
  owner : String
  statement : String
  source : String
  /-- Which of the manifest texts the namespace comes from. -/
  origin : Nat
  /-- The byte offset of the line in that text, if the line is known. -/
  offset : Option Nat
  reason : String
deriving DecidableEq, Repr

inductive EvalError where
  | undefinedNamespace (ident : String)
  /-- A namespace composes itself. The names lead from a requested one to the repeated one. -/
  | cycle (chain : List String)
  | expression (e : ExpressionError)
  | cancelled
  /-- Two definitions of a namespace have the same text. -/
  | duplicate (ident : String)
deriving DecidableEq, Repr

namespace EvalError

def message : EvalError → String
  | undefinedNamespace ident => "undefined namespace `" ++ ident ++ "`"
  | cycle chain => "namespace cycle: " ++ String.intercalate " -> " chain
  | expression e => e.owner ++ "." ++ e.statement ++ ": " ++ e.reason
  | cancelled => "evaluation cancelled"
  | duplicate ident => "namespace `" ++ ident ++ "` is defined twice with identical text"

/-- The text and the byte offset of an error. -/
def position? : EvalError → Option (Nat × Nat)
  | expression e => e.offset.map fun offset => (e.origin, offset)
  | _ => none

end EvalError

end EnvManifest
