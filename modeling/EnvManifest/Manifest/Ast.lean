import EnvManifest.Manifest.Token

/-!
# Manifests

A manifest is a list of namespaces. A namespace composes others, hands parameters to its
statements, and binds variables to expressions.
-/

namespace EnvManifest

/-- A literal as written in a parameter list. -/
inductive ParamValue where
  | str (value : String)
  | int (value : Int64)
  | float (value : Float)
  | bool (value : Bool)
  /-- A bare word such as `release`. -/
  | word (value : String)

structure Parameter where
  value : ParamValue
  span : Span

/-- A reference to a namespace, with arguments for this use only. -/
structure Composite where
  ident : String
  arguments : List Parameter
  span : Span

/-- The text of an expression, and the byte offset where the manifest has it. -/
structure Expression where
  source : String
  offset : Nat
deriving DecidableEq, Repr

structure Statement where
  ident : String
  operator : String
  expression : Expression
  span : Span
deriving DecidableEq, Repr

structure Namespace where
  ident : String
  composites : List Composite
  parameters : List Parameter
  statements : List Statement
  /-- Which of the manifest texts the namespace comes from. -/
  origin : Nat
  span : Span

/-- The namespaces of a manifest in the order of the text. -/
structure Ast where
  namespaces : List Namespace

namespace Ast

/-- All definitions of a name, in the order of the text. -/
def lookup (ast : Ast) (ident : String) : List Namespace :=
  ast.namespaces.filter (·.ident == ident)

/-- The namespaces of one manifest, then those of another. -/
def append (a b : Ast) : Ast := ⟨a.namespaces ++ b.namespaces⟩

instance : Append Ast := ⟨append⟩

theorem lookup_append (a b : Ast) (ident : String) :
    (a ++ b).lookup ident = a.lookup ident ++ b.lookup ident :=
  List.filter_append ..

end Ast

/-- A reference without arguments. -/
def Composite.named (ident : String) : Composite := ⟨ident, [], ⟨0, 0⟩⟩

end EnvManifest
