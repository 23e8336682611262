import EnvManifest.Manifest.Ast
import EnvManifest.Decimal.Layout

/-!
# The canonical text of a manifest
-/

namespace EnvManifest

open Text

/-- The text that expressions get as the parameter. -/
def ParamValue.text : ParamValue → String
  | str value => value
  | word value => value
  | int value => toString value
  | float value => Decimal.text .message value
  | bool value => toString value

/-- A parameter as a manifest holds it. -/
def ParamValue.print : ParamValue → List Char
  | str value => quotedAscii value.toList
  | word value => value.toList
  | int value => (toString value).toList
  | float value => (Decimal.text .message value).toList
  | bool value => (toString value).toList

/-- Items with a comma between them. -/
def printList {α : Type} (print : α → List Char) (items : List α) : List Char :=
  [',', ' '].intercalate (items.map print)

/-- Items between two marks, or nothing if there are none. -/
def printGroup {α : Type} (opening closing : Char) (print : α → List Char) (items : List α) :
    List Char :=
  if items.isEmpty then [] else opening :: printList print items ++ [closing]

def Parameter.print (p : Parameter) : List Char := p.value.print

def Composite.print (c : Composite) : List Char :=
  c.ident.toList ++ printGroup '(' ')' Parameter.print c.arguments

/-! ## Expressions -/

/-- Where a walk over an expression is: how many braces are open, and inside which quotes, after a
backslash or not. -/
structure QuoteState where
  depth : Nat := 0
  quote : Option Char := none
  escaped : Bool := false
deriving DecidableEq, Repr

def QuoteState.next (s : QuoteState) (c : Char) : QuoteState :=
  match s.quote with
  | some q =>
    if s.escaped then { s with escaped := false }
    else if c = '\\' then { s with escaped := true }
    else if c = q then { s with quote := none }
    else s
  | none =>
    if c = '"' ∨ c = '\'' then { s with quote := some c }
    else if c = '{' then { s with depth := s.depth + 1 }
    else if c = '}' then { s with depth := s.depth - 1 }
    else s

/-- Would a `;` end the statement here? -/
def QuoteState.isOpen (s : QuoteState) : Bool := s.quote.isNone && s.depth == 0

/-- An expression with a backslash before each `;` that would end the statement. -/
def escapeSemicolons (s : QuoteState) : List Char → List Char
  | [] => []
  | c :: cs =>
    let more := escapeSemicolons (s.next c) cs
    if c = ';' ∧ s.isOpen then '\\' :: c :: more else c :: more

def Expression.print (e : Expression) : List Char := escapeSemicolons {} e.source.toList

def Statement.print (s : Statement) : List Char :=
  s.ident.toList ++ ' ' :: s.operator.toList ++ ' ' :: s.expression.print

/-! ## Namespaces -/

def Namespace.print (n : Namespace) : List Char :=
  n.ident.toList ++ printGroup '<' '>' Composite.print n.composites ++
    printGroup '(' ')' Parameter.print n.parameters ++
    if n.statements.isEmpty then [' ', '{', '}']
    else
      [' ', '{', '\n'] ++ n.statements.flatMap (fun s => ' ' :: ' ' :: s.print ++ [';', '\n']) ++
        ['}']

/-- Namespaces on lines of their own, with an empty line between them. -/
def Ast.print (ast : Ast) : List Char :=
  ['\n'].intercalate (ast.namespaces.map fun n => n.print ++ ['\n'])

def Ast.format (ast : Ast) : String := String.ofList ast.print

end EnvManifest
