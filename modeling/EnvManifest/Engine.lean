import EnvManifest.Builtin.Facts
import EnvManifest.Clock
import EnvManifest.Script.Machine
import EnvManifest.Word

/-!
# The expression engine

Expressions are written in Lua 5.4. They run in a scope, a table of names that falls back to the
facts and functions known to all of them. An expression is the value that a program gives back.
-/

namespace EnvManifest

open Text Script

/-- An engine with everything that its expressions have made so far. -/
structure Engine where
  host : Host
  heap : Heap
  clock : Clock
  hints : List Hint

/-- Why an expression has no value. -/
inductive EngineError where
  /-- It is no expression. -/
  | malformed (fault : SyntaxFault)
  /-- It failed with an error. -/
  | error (error : Datum)
  | exchange (error : ExchangeError)
  /-- It did not end within the most steps that any run takes. -/
  | endless

namespace EngineError

/-! ## Messages -/

/-- The name of an expression in messages. -/
def chunk : String := "expr"

/-- The text of an error that an expression raised. -/
def datumText : Datum → String
  | .nil => "nil"
  | .bool b => toString !b
  | .number (.int n) => toString n
  | .number (.float x) => Decimal.text .plain x
  | .str bs => String.ofList (decodeLossy bs)
  | .table _ => "<table>"
  | .closure _ | .native _ => "<function>"
  | .failure message => message

def text : EngineError → String
  | .malformed fault => fault.text chunk
  | .error d => datumText d
  | .exchange e => e.message
  | .endless => "evaluation does not end"

/-- The first line of a text. -/
def firstLine (cs : List Char) : List Char :=
  let line := cs.takeWhile (· != '\n')
  if line.length < cs.length ∧ line.getLast? = some '\r' then line.dropLast else line

/-- The line of the expression that an error is about, and what is wrong. -/
def describe (e : EngineError) : Option Nat × String :=
  let line := firstLine e.text.toList
  let place := chunk.toList ++ [':']
  let found :=
    if place.isPrefixOf line then
      let rest := line.drop place.length
      let digits := rest.takeWhile (· != ':')
      if digits.length < rest.length then
        (Word.natural? digits).map fun n => (some n, trimStart (rest.drop (digits.length + 1)))
      else none
    else none
  let (n, message) := found.getD (none, line)
  (n, String.ofList message)

end EngineError

/-- A table of names. -/
abbrev ScopeId := Nat

/-- An expression that can be run. -/
abbrev Program := Datum

namespace Engine

/-! ## Making -/

/-- An engine with the facts. -/
def new (host : Host) (facts : Facts) (patience : Patience) : Engine :=
  ⟨host, Heap.start facts, ⟨patience, 0⟩, Facts.hints facts⟩

/-- A new scope, which knows what all scopes know. -/
def scope (engine : Engine) : Engine × ScopeId :=
  let (h, rules) := engine.heap.newTable (Script.tableOf [(Heap.indexKey, .table Heap.globals)])
  let (h, id) := h.newTable { Table.empty with metatable := some rules }
  ({ engine with heap := h }, id)

/-! ## Names -/

def bindDatum (engine : Engine) (scope : ScopeId) (name : String) (d : Datum) : Engine :=
  { engine with heap := engine.heap.setTable scope (.ofString name) d }

def bind (engine : Engine) (scope : ScopeId) (name : String) (v : Value) : Engine :=
  let (h, d) := engine.heap.ofValue v
  { engine with heap := h.setTable scope (.ofString name) d }

/-! ## Running -/

/-- The program of an expression gives back its value. -/
def programText (source : String) : List Char := "return ".toList ++ source.toList

def compile (engine : Engine) (source : String) (scope : ScopeId) :
    Except EngineError (Program × Engine) :=
  match parseProgram (programText source) with
  | .error fault => .error (.malformed fault)
  | .ok body =>
    let (h, f) := engine.heap.newProgram EngineError.chunk body (.table scope)
    .ok (f, { engine with heap := h })

/-- The error that stops an expression. -/
def cancelled : Datum := .failure "evaluation cancelled"

/-- The machine after some steps, or where it stopped. -/
def steps (host : Host) : Nat → Clock → Machine → Clock × Machine
  | 0, c, m => (c, m)
  | fuel + 1, c, m =>
    match m.outcome? with
    | some _ => (c, m)
    | none =>
      match c.tick with
      | (false, c) => steps host fuel c (m.step host)
      | (true, c) => steps host fuel c { m with control := .raise cancelled }

/-- The most steps of a run. -/
def maxSteps : Nat := 1000000000000000

/-- The value of a program, and the engine after it. -/
def run (engine : Engine) (program : Program) : Except EngineError Datum × Engine :=
  let (c, m) := steps engine.host maxSteps engine.clock (Machine.start engine.heap program)
  let result :=
    match m.outcome? with
    | some (.ok values) => .ok (first values)
    | some (.error e) => .error (.error e)
    | none => .error .endless
  (result, { engine with heap := m.heap, clock := c })

/-- The engine whose next question is answered with yes. -/
def cancel (engine : Engine) : Engine :=
  { engine with clock := { engine.clock with patience := .exhausted } }

/-! ## Results -/

/-- The text of a string. -/
def text? : Datum → Option String
  | .str bs => some (String.ofList (decodeLossy bs))
  | _ => none

def toValue (engine : Engine) (d : Datum) : Except EngineError Value :=
  (engine.heap.toValue d).mapError .exchange

end Engine

end EnvManifest
