import EnvManifest.Script.Native
import EnvManifest.Script.Number
import EnvManifest.Text.Utf8

/-!
# Data of expressions

What an expression computes with. Tables and functions are known by their number in the heap.
-/

namespace EnvManifest.Script

open Text

inductive Datum where
  | nil
  | bool (value : Bool)
  | number (n : Number)
  | str (value : Bytes)
  | table (id : Nat)
  | closure (id : Nat)
  | native (f : Native)
  /-- The error of a function that is not written in an expression. -/
  | failure (message : String)

instance : Inhabited Datum := ⟨.nil⟩

namespace Datum

def ofInt (n : Int) : Datum := .number (.int (Int64.ofInt n))

def ofChars (cs : List Char) : Datum := .str (encode cs)

def ofString (s : String) : Datum := .str (encode s.toList)

def typeName : Datum → String
  | nil => "nil"
  | bool _ => "boolean"
  | number _ => "number"
  | str _ => "string"
  | table _ => "table"
  | closure _ | native _ => "function"
  | failure _ => "userdata"

/-- Does it hold as a condition? -/
def holds : Datum → Bool
  | nil | bool false => false
  | _ => true

def isNil : Datum → Bool
  | nil => true
  | _ => false

def isFunction : Datum → Bool
  | closure _ | native _ => true
  | _ => false

/-- Are they the same? Tables are the same only as themselves. -/
def same : Datum → Datum → Bool
  | nil, nil => true
  | bool a, bool b => a == b
  | number a, number b => Number.eq a b
  | str a, str b => a == b
  | table a, table b => a == b
  | closure a, closure b => a == b
  | native a, native b => a == b
  | failure a, failure b => a == b
  | _, _ => false

/-- The number that it is, or that it is written as. -/
def number? : Datum → Option Number
  | number n => some n
  | str bs => (decode? bs).bind Number.ofText?
  | _ => none

/-- The text of a string or a number. -/
def text? : Datum → Option Bytes
  | str bs => some bs
  | number n => some (encode n.text.toList)
  | _ => none

end Datum

/-- The first of some values, `nil` if there is none. -/
def first (values : List Datum) : Datum := values.headD .nil

end EnvManifest.Script
