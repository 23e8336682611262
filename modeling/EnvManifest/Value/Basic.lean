/-!
# Values

What variables hold, what functions take and give, and what is known about the host. The fields of
an object stand in the order of their keys, each key once.
-/

namespace EnvManifest

inductive Value where
  | null
  | bool (value : Bool)
  /-- A whole number of 64 bits, with or without a sign. -/
  | int (value : Int)
  /-- A finite number. -/
  | float (value : Float)
  | str (value : String)
  | list (items : List Value)
  | object (fields : List (String × Value))
deriving Inhabited

/-! ## Fields -/

/-- Entries in the order of their keys, each key once. -/
abbrev Fields (α : Type) := List (String × α)

namespace Fields

variable {α : Type}

/-- The entry of a key put in its place. It replaces an entry of the same key. -/
def insert (key : String) (value : α) : Fields α → Fields α
  | [] => [(key, value)]
  | (k, v) :: rest =>
    if key < k then (key, value) :: (k, v) :: rest
    else if k < key then (k, v) :: insert key value rest
    else (key, value) :: rest

def get? (key : String) (fields : Fields α) : Option α :=
  (fields.find? (·.1 == key)).map (·.2)

def keys (fields : Fields α) : List String := fields.map (·.1)

/-- The entries of both. Of two entries with the same key the second one's counts. -/
def union (a b : Fields α) : Fields α := b.foldl (fun fields e => fields.insert e.1 e.2) a

/-- Entries in any order, the later of two with the same key. -/
def ofList (entries : List (String × α)) : Fields α := union [] entries

end Fields

namespace Value

/-- The kind of a value in messages. -/
def kindName : Value → String
  | null => "nil"
  | bool _ => "boolean"
  | int _ | float _ => "number"
  | str _ => "string"
  | list _ | object _ => "table"

/-- An object of entries in any order. -/
def ofFields (entries : List (String × Value)) : Value := .object (Fields.ofList entries)

/-- A float, if it is finite. -/
def ofFloat (x : Float) : Value := if x.isFinite then .float x else .null

mutual

/-- Are two values the same? Numbers of different kinds are not. -/
def same : Value → Value → Bool
  | null, null => true
  | bool a, bool b => a == b
  | int a, int b => a == b
  | float a, float b => a == b
  | str a, str b => a == b
  | list xs, list ys => sameItems xs ys
  | object xs, object ys => sameFields xs ys
  | _, _ => false

def sameItems : List Value → List Value → Bool
  | [], [] => true
  | x :: xs, y :: ys => same x y && sameItems xs ys
  | _, _ => false

def sameFields : List (String × Value) → List (String × Value) → Bool
  | [], [] => true
  | (k, x) :: xs, (l, y) :: ys => k == l && same x y && sameFields xs ys
  | _, _ => false

end

end Value

end EnvManifest
