import EnvManifest.Script.Library.Strings
import EnvManifest.Script.Parser

/-!
# Functions of the language itself
-/

namespace EnvManifest.Script.Library

open Text

/-! ## Errors -/

def raised (args : List Datum) : Work (List Datum) := do
  let level ← Work.optional Work.integer args 2 1
  match first args with
  | .str message => throw (.complain level.toNat message)
  | d => throw (.raise d)

def asserted (args : List Datum) : Work (List Datum) := do
  if (← Work.any args 1).holds then return args
  else
    match args.getD 1 (.ofString "assertion failed!") with
    | .str message => throw (.complain 1 message)
    | d => throw (.raise d)

def protectedCall (args : List Datum) : Work (List Datum) :=
  match args with
  | [] => Work.raise "not enough arguments to pcall"
  | f :: more => throw (.call f more .protect)

def protectedCallWith (args : List Datum) : Work (List Datum) :=
  match args with
  | f :: handler :: more => throw (.call f more (.protectWith handler))
  | _ => Work.raise "not enough arguments to xpcall"

/-! ## Kinds and texts -/

def kindOf (args : List Datum) : Work (List Datum) := do
  return [.ofString (← Work.any args 1).typeName]

def textOf (args : List Datum) : Work (List Datum) := do
  let d ← Work.any args 1
  let behaviour := (← get).behaviour d Heap.textKey
  if behaviour.isNil then return [.str (plainText d)]
  else throw (.call behaviour [d] .text)

/-! ## Tables -/

def metatableOf (args : List Datum) : Work (List Datum) := do
  let d ← Work.any args 1
  let h ← get
  match d with
  | .failure _ => return [.bool false]
  | .table id =>
    if (h.table id).isList then return [.bool false]
  | _ => pure ()
  match h.behaviour? d with
  | none => return [.nil]
  | some rules =>
    let shown := (h.table rules).get Heap.protectedKey
    return [if shown.isNil then .table rules else shown]

def metatableSet (args : List Datum) : Work (List Datum) := do
  let id ← Work.table args 1
  let rules : Option Nat ←
    match args.getD 1 (.bool false) with
    | .nil => pure none
    | .table rules => pure (some rules)
    | _ => Work.wrongType args 2 "nil or table"
  let h ← get
  if (h.table id).isList || !(h.behaviour (.table id) Heap.protectedKey).isNil then
    Work.complain "cannot change a protected metatable"
  else
    set (h.setMetatable id rules)
    return [.table id]

def rawGet (args : List Datum) : Work (List Datum) := do
  let id ← Work.table args 1
  let key ← Work.any args 2
  return [((← get).table id).get key]

/-- Why a key cannot be set. -/
def keyFault? : Datum → Option String
  | .nil => some "index is nil"
  | .number (.float x) => if x.isNaN then some "index is NaN" else none
  | _ => none

def rawSet (args : List Datum) : Work (List Datum) := do
  let id ← Work.table args 1
  let key ← Work.any args 2
  let d ← Work.any args 3
  match keyFault? key with
  | some fault => Work.raise ("table " ++ fault)
  | none =>
    modify fun h => h.setTable id key d
    return [.table id]

def rawEqual (args : List Datum) : Work (List Datum) := do
  return [.bool ((← Work.any args 1).same (← Work.any args 2))]

def rawLength (args : List Datum) : Work (List Datum) := do
  match first args with
  | .table id => return [.ofInt ((← get).table id).length]
  | .str bs => return [.ofInt bs.length]
  | _ => Work.wrong 1 "table or string expected"

/-! ## Loops -/

/-- The entry after a key. -/
def entryAfter (key : Datum) : List (Datum × Datum) → Option (List (Datum × Datum))
  | [] => none
  | e :: more => if e.1.same key then some more else entryAfter key more

def following (args : List Datum) : Work (List Datum) := do
  let entries := ((← get).table (← Work.table args 1)).pairs
  let rest :=
    match args.getD 1 .nil with
    | .nil => some entries
    | key => entryAfter (Table.keyOf key) entries
  match rest with
  | none => Work.raise "invalid key to 'next'"
  | some [] => return [.nil]
  | some ((k, v) :: _) => return [k, v]

def pairsOf (args : List Datum) : Work (List Datum) := do
  let d ← Work.any args 1
  let behaviour := (← get).behaviour d Heap.pairsKey
  if behaviour.isNil then return [.native .next, d, .nil]
  else throw (.call behaviour [d] (.take 3))

def itemsOf (args : List Datum) : Work (List Datum) := do
  return [.native .nextItem, ← Work.any args 1, .ofInt 0]

/-- The index and the item, or `nil` where the list ends. -/
def indexed (index : Int64) (d : Datum) : List Datum :=
  if d.isNil then [.nil] else [.number (.int index), d]

def followingItem (args : List Datum) : Work (List Datum) := do
  let index := Int64.ofInt ((← Work.integer args 2) + 1)
  match (← get).index (first args) (.number (.int index)) with
  | .done d => return indexed index d
  | .call f more => throw (.call f more (.item index))
  | .noFields d _ => Work.raise ("attempt to index a " ++ d.typeName ++ " value")
  | .endless => Work.raise "'__index' chain too long; possibly a loop"

def selected (args : List Datum) : Work (List Datum) := do
  let count : Int := args.length
  match args with
  | .str [35] :: more => return [.ofInt more.length]
  | _ =>
    let n ← Work.integer args 1
    let n := if n < 0 then count + n else min n count
    if n < 1 then Work.wrong 1 "index out of range" else return args.drop n.toNat

/-! ## Programs -/

/-- The most characters of a program's name in messages. -/
def maxName : Nat := 44

/-- The name of a program in messages. A program without a name is known by its first line. -/
def chunkName (source : List Char) : String :=
  match source with
  | '=' :: name | '@' :: name => String.ofList (name.take 59)
  | _ =>
    let line := source.takeWhile (· != '\n')
    let text :=
      if line.length = source.length ∧ source.length ≤ maxName then source
      else line.take (maxName + 1) ++ "...".toList
    "[string \"" ++ String.ofList text ++ "\"]"

def loaded (args : List Datum) : Work (List Datum) := do
  match args[0]?.bind Datum.text? with
  | none => Work.wrongType args 1 "function"
  | some bs =>
    let source := decodeLossy bs
    let name ← Work.optional Work.text args 2 bs
    let mode := decodeLossy (← Work.optional Work.text args 3 (encode ['b', 't']))
    let chunk := chunkName (decodeLossy name)
    if !mode.contains 't' then
      return [.nil, .ofString ("attempt to load a text chunk (mode is '" ++ String.ofList mode ++ "')")]
    else
      match parseProgram source with
      | .error fault => return [.nil, .ofString (fault.text chunk)]
      | .ok body =>
        let (h, f) := (← get).newProgram chunk body (args.getD 3 (.table Heap.globals))
        set h
        return [f]

end EnvManifest.Script.Library
