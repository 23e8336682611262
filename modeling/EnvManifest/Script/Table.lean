import EnvManifest.Script.Datum

/-!
# Tables

A table keeps a list of values for the keys from 1 on, and entries for all other keys. The list
grows only when the entries have no room left, and then as far as more than half of it is used. A
list with holes has more than one possible length; which one counts follows from its size.
-/

namespace EnvManifest.Script

structure Table where
  /-- The values of the keys from 1 on. -/
  items : Array Datum
  entries : List (Datum × Datum)
  /-- For how many entries there is room. -/
  room : Nat
  metatable : Option Nat
  /-- Was it made of a list of values? -/
  isList : Bool

namespace Table

def empty : Table := ⟨#[], [], 0, none, false⟩

/-- The key that stands for an equal one: a float without a fraction is an integer. -/
def keyOf : Datum → Datum
  | .number (.float x) =>
    match Number.whole? x with
    | some n => .number (.int n)
    | none => .number (.float x)
  | k => k

/-- The place of a key in the list. -/
def place? (t : Table) : Datum → Option (Fin t.items.size)
  | .number (.int n) =>
    let i := (n.toInt - 1).toNat
    if h : 1 ≤ n.toInt ∧ i < t.items.size then some ⟨i, h.2⟩ else none
  | _ => none

def entry? (t : Table) (key : Datum) : Option Datum :=
  (t.entries.find? (·.1.same key)).map (·.2)

/-! ## Reading -/

/-- The value of a key, `nil` if there is none. -/
def get (t : Table) (key : Datum) : Datum :=
  let key := keyOf key
  match t.place? key with
  | some i => t.items[i]
  | none => (t.entry? key).getD .nil

def getItem (t : Table) (n : Nat) : Datum := t.get (.ofInt n)

/-- A position between one with a value, or the start, and one without a value. -/
def border (present : Nat → Bool) (low high : Nat) : Nat :=
  if low + 1 < high then
    let middle := (low + high) / 2
    if present middle then border present middle high else border present low middle
  else low
termination_by high - low

/-- A border above a position with a value. The steps double. -/
def borderAbove (present : Nat → Bool) : Nat → Nat → Nat
  | 0, low => low
  | fuel + 1, low =>
    if present (2 * low) then borderAbove present fuel (2 * low)
    else border present low (2 * low)

/-- The length of the list. -/
def length (t : Table) : Nat :=
  let n := t.items.size
  let present := fun i => !(t.getItem i).isNil
  if 0 < n ∧ !present n then
    if 2 ≤ n ∧ present (n - 1) then n - 1 else border present 0 n
  else if !present (n + 1) then n
  else borderAbove present 64 (n + 1)

/-- All keys with a value, the list first. -/
def pairs (t : Table) : List (Datum × Datum) :=
  let items := t.items.toList.zipIdx.map fun (v, i) => (Datum.ofInt (i + 1), v)
  (items ++ t.entries.reverse).filter fun e => !e.2.isNil

/-! ## Writing -/

/-- The size of a list for some keys: the greatest power of two of which more than half is used. -/
def listSize (keys : List Nat) : Nat :=
  let powers := (List.range 63).map (Nat.pow 2)
  let used := fun size => keys.countP (· ≤ size)
  ((powers.takeWhile (fun size => size < 2 * keys.length)).filter
    fun size => size < 2 * used size).getLast?.getD 0

/-- The least power of two that is not below a number, none for zero. -/
def roomFor (n : Nat) : Nat :=
  if n = 0 then 0 else (((List.range 64).map (Nat.pow 2)).find? (n ≤ ·)).getD n

/-- The keys that a list can hold. -/
def listKey? : Datum → Option Nat
  | .number (.int n) => if 1 ≤ n.toInt then some n.toInt.toNat else none
  | _ => none

/-- The table arranged anew, with room for one more key. -/
def arrange (t : Table) (key : Datum) : Table :=
  let all := t.pairs
  let size := listSize ((key :: all.map (·.1)).filterMap listKey?)
  let inList := fun (k : Datum) => (listKey? k).any (· ≤ size)
  let items := ((List.range size).map fun i => t.getItem (i + 1)).toArray
  let entries := (all.filter fun e => !inList e.1).reverse
  { t with items, entries, room := roomFor (entries.length + if inList key then 0 else 1) }

/-- Room for a list of a size and for some entries, in a table that holds nothing. -/
def reserve (items entries : Nat) : Table :=
  { empty with items := .replicate items .nil, room := roomFor entries }

def setEntry (key value : Datum) : List (Datum × Datum) → List (Datum × Datum)
  | [] => []
  | (k, v) :: more => if k.same key then (k, value) :: more else (k, v) :: setEntry key value more

/-- The table with the value of a key put in the list, or in the entries if there is room. -/
def put? (t : Table) (key value : Datum) : Option Table :=
  match t.place? key with
  | some i => some { t with items := t.items.set i value }
  | none =>
    if (t.entry? key).isSome then some { t with entries := setEntry key value t.entries }
    else if value.isNil then some t
    else if t.entries.length < t.room then some { t with entries := (key, value) :: t.entries }
    else none

/-- The table with the value of a key changed. -/
def set (t : Table) (key value : Datum) : Table :=
  let key := keyOf key
  match t.put? key value with
  | some t => t
  | none =>
    let t := t.arrange key
    (t.put? key value).getD t

/-- The table of a list. -/
def ofItems (items : List Datum) : Table := { empty with items := items.toArray }

end Table

end EnvManifest.Script
