import EnvManifest.Script.Number
import EnvManifest.Text.Utf8

/-!
# Programs

A program as the parser leaves it. Names of variables are resolved: a variable is found by the
number of declarations that lie between its own and its use.
-/

namespace EnvManifest.Script

open Text

/-- A use of a declared variable. -/
structure Variable where
  name : String
  /-- How many declarations lie in between. -/
  index : Nat
  /-- Is it declared in the function that uses it? -/
  own : Bool
deriving DecidableEq, Repr

inductive Unary where
  | neg | not | length | bitNot
deriving DecidableEq, Repr

inductive Binary where
  | arith (op : Number.Op)
  | bits (op : Number.BitOp)
  | eq | ne | lt | le | gt | ge
deriving DecidableEq, Repr

mutual

/-- Expressions carry the line that errors of their own name. -/
inductive Expr where
  | nil
  | bool (value : Bool)
  | int (value : Int64)
  | float (value : Float)
  | str (value : Bytes)
  | varargs
  | lambda (f : FunctionBody)
  | var (v : Variable)
  | index (line : Nat) (object key : Expr)
  | call (line : Nat) (callee : Expr) (args : List Expr)
  /-- A call of a field with the object as its first argument. -/
  | method (line nameLine : Nat) (object : Expr) (name : Bytes) (args : List Expr)
  /-- An expression in parentheses: one value of it. -/
  | single (e : Expr)
  | unary (line : Nat) (op : Unary) (e : Expr)
  | binary (line : Nat) (op : Binary) (a b : Expr)
  | concat (line : Nat) (items : List Expr)
  | both (a b : Expr)
  | either (a b : Expr)
  | table (fields : List Field)

/-- A field of a table: an item of its list, or a key with its value. -/
inductive Field where
  | item (e : Expr)
  | keyed (line : Nat) (key value : Expr)

inductive Statement where
  /-- A call for its effects. -/
  | call (e : Expr)
  /-- New variables, the first of them declared first. -/
  | declare (count : Nat) (values : List Expr)
  /-- A variable that holds a function which can name itself. -/
  | declareFunction (f : FunctionBody)
  | assign (line : Nat) (targets values : List Expr)
  | block (body : List Statement)
  | whileLoop (test : Expr) (body : List Statement)
  /-- A loop whose body ends in its test. -/
  | repeatLoop (body : List Statement)
  /-- The test at the end of a loop: the loop ends if it holds. -/
  | untilTest (test : Expr)
  | branch (test : Expr) (yes no : List Statement)
  | countLoop (line : Nat) (start stop step : Expr) (body : List Statement)
  | eachLoop (line count : Nat) (values : List Expr) (body : List Statement)
  | leave
  | give (values : List Expr)

structure FunctionBody where
  params : Nat
  /-- Does it take more arguments than it names? -/
  varargs : Bool
  body : List Statement

end

instance : Inhabited Expr := ⟨.nil⟩

/-- The name of the variable that holds the table of globals. -/
def environmentName : String := "_ENV"

/-- Where a value comes from: what kind of thing holds it, and the name of that. -/
abbrev Origin := String × String

/-- How errors name the source of a value. -/
def Expr.origin? : Expr → Option Origin
  | var v => some (if v.own then "local" else "upvalue", v.name)
  | index _ object (str key) =>
    let name := String.ofList (decodeLossy key)
    match object with
    | var v => some (if v.name = environmentName then "global" else "field", name)
    | _ => some ("field", name)
  | index _ _ (int n) => some ("field", if 0 ≤ n ∧ n ≤ 255 then "integer index" else "?")
  | index _ _ _ => some ("field", "?")
  | str value => some ("constant", String.ofList (decodeLossy value))
  | single e => e.origin?
  | _ => none

end EnvManifest.Script
