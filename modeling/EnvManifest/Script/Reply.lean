import EnvManifest.Script.Heap

/-!
# How functions of the language answer

A function gets the heap and its arguments. It gives values, or it is interrupted: by an error, or
because it has to call another function. Arguments count from one in messages.
-/

namespace EnvManifest.Script

open Text

/-- What happens to the results of a function that another function has called. -/
inductive After where
  /-- They are given after `true`. An error is given after `false`. -/
  | protect
  /-- The same, but an error goes through a function first. -/
  | protectWith (handler : Datum)
  /-- So many of them are given. -/
  | take (count : Nat)
  /-- The first of them must be a string. -/
  | text
  /-- The first of them is the item of a list at an index. -/
  | item (index : Int64)
  /-- The first of them is given after `false`. -/
  | failed

inductive Interruption where
  /-- An error as it is. -/
  | raise (error : Datum)
  /-- An error that starts with the place of a call: of this function, or of one that led to it. -/
  | complain (level : Nat) (message : Bytes)
  /-- An argument is wrong. -/
  | argument (index : Nat) (fault : String)
  | call (f : Datum) (args : List Datum) (after : After)

/-- The work of a function. -/
abbrev Work (α : Type) := ExceptT Interruption (StateM Heap) α

namespace Work

def complain {α : Type} (message : String) : Work α :=
  throw (.complain 1 (encode message.toList))

/-- An error without a place. -/
def raise {α : Type} (message : String) : Work α := throw (.raise (.ofString message))

def wrong {α : Type} (index : Nat) (fault : String) : Work α := throw (.argument index fault)

/-! ## Arguments -/

/-- The kind of an argument in messages. -/
def found (args : List Datum) (index : Nat) : String :=
  match args[index - 1]? with
  | some d => d.typeName
  | none => "no value"

def wrongType {α : Type} (args : List Datum) (index : Nat) (wanted : String) : Work α :=
  wrong index (wanted ++ " expected, got " ++ found args index)

def any (args : List Datum) (index : Nat) : Work Datum :=
  match args[index - 1]? with
  | some d => pure d
  | none => wrong index "value expected"

/-- A string, or the text of a number. -/
def text (args : List Datum) (index : Nat) : Work Bytes :=
  match args[index - 1]?.bind Datum.text? with
  | some bs => pure bs
  | none => wrongType args index "string"

def number (args : List Datum) (index : Nat) : Work Number :=
  match args[index - 1]?.bind Datum.number? with
  | some n => pure n
  | none => wrongType args index "number"

def integer (args : List Datum) (index : Nat) : Work Int := do
  match (← number args index).toInt? with
  | some n => return n.toInt
  | none => wrong index "number has no integer representation"

def table (args : List Datum) (index : Nat) : Work Nat :=
  match args[index - 1]? with
  | some (.table id) => pure id
  | _ => wrongType args index "table"

/-- An argument that may be missing or `nil`. -/
def optional {α : Type} (read : List Datum → Nat → Work α) (args : List Datum) (index : Nat)
    (default : α) : Work α :=
  match args[index - 1]? with
  | none | some .nil => pure default
  | some _ => read args index

end Work

end EnvManifest.Script
