import EnvManifest.Script.Reply

/-!
# Functions of tables
-/

namespace EnvManifest.Script.Library

open Text

/-- The table of an argument with the length of its list. -/
def listAt (args : List Datum) (index : Nat) : Work (Nat × Int) := do
  let id ← Work.table args index
  return (id, ((← get).table id).length)

/-- An item of a list by its number. -/
def itemOf (h : Heap) (id : Nat) (n : Int) : Datum := (h.table id).get (.ofInt n)

/-- The numbers from one to another. -/
def span (start stop : Int) : List Int :=
  (List.range (stop - start + 1).toNat).map fun (i : Nat) => start + i

def concatenated (args : List Datum) : Work (List Datum) := do
  let (id, length) ← listAt args 1
  let separator ← Work.optional Work.text args 2 []
  let start ← Work.optional Work.integer args 3 1
  let stop ← Work.optional Work.integer args 4 length
  let h ← get
  let items ← (span start stop).mapM fun n =>
    match (itemOf h id n).text? with
    | some bs => pure bs
    | none =>
      Work.complain ("invalid value (at index " ++ toString n ++ ") in table for 'concat'")
  return [.str (separator.intercalate items)]

/-- A change of an item. -/
def setItem (id : Nat) (n : Int) (d : Datum) : Work Unit :=
  modify fun h => h.setTable id (.ofInt n) d

def inserted (args : List Datum) : Work (List Datum) := do
  let (id, length) ← listAt args 1
  match args with
  | [_, d] =>
    setItem id (length + 1) d
    return []
  | [_, _, d] =>
    let place ← Work.integer args 2
    if place < 1 ∨ length + 1 < place then Work.wrong 2 "position out of bounds"
    else
      for n in (span place length).reverse do
        setItem id (n + 1) (itemOf (← get) id n)
      setItem id place d
      return []
  | _ => Work.complain "wrong number of arguments to 'insert'"

def removed (args : List Datum) : Work (List Datum) := do
  let (id, length) ← listAt args 1
  let place ← Work.optional Work.integer args 2 length
  if place ≠ length ∧ (place < 1 ∨ length + 1 < place) then Work.wrong 2 "position out of bounds"
  else
    let d := itemOf (← get) id place
    for n in span place (length - 1) do
      setItem id n (itemOf (← get) id (n + 1))
    setItem id (max place length) .nil
    return [d]

/-- The most values that a call gives. -/
def maxValues : Nat := 1000000

def unpacked (args : List Datum) : Work (List Datum) := do
  let (id, length) ← listAt args 1
  let start ← Work.optional Work.integer args 2 1
  let stop ← Work.optional Work.integer args 3 length
  if (maxValues : Int) ≤ stop - start then Work.complain "too many results to unpack"
  else
    let h ← get
    return (span start stop).map (itemOf h id)

def packed (args : List Datum) : Work (List Datum) := do
  let (h, id) := (← get).newTable (Table.ofItems args)
  set (h.setTable id (.ofString "n") (.ofInt args.length))
  return [.table id]

end EnvManifest.Script.Library
