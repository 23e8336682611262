import EnvManifest.Engine
import EnvManifest.Eval.Environment
import EnvManifest.Eval.Error
import EnvManifest.Eval.Options
import EnvManifest.Manifest.Printer
import EnvManifest.Patch.Rewrite

/-!
# Passes

A namespace runs its statements once for each of its parameters. A pass sees what the composed
namespaces bind, its parameter, and its own earlier statements.
-/

namespace EnvManifest

open Text

/-- Work that may be cancelled. -/
abbrev Evaluation (α : Type) := ExceptT EvalError (StateM Patience) α

namespace Evaluation

/-- A question: has the work been cancelled? -/
def isCancelled : Evaluation Bool := do
  let (stop, p) := (← get).ask
  set p
  return stop

/-- Stops if the work has been cancelled. -/
def goOn : Evaluation Unit := do
  if ← isCancelled then throw .cancelled

end Evaluation

/-- Work with an engine. -/
abbrev Passing (α : Type) := ExceptT EvalError (StateM Engine) α

namespace Passing

/-- Work that asks for nothing but patience. -/
def ofEvaluation {α : Type} (work : Evaluation α) : Passing α := do
  let engine ← get
  let (result, patience) := (work.run).run engine.clock.patience
  set { engine with clock := { engine.clock with patience } }
  match result with
  | .ok a => return a
  | .error e => throw e

end Passing

/-- One pass of a namespace. -/
structure Pass where
  ns : Namespace
  /-- What the composed namespaces bind. -/
  composed : Fields Value
  /-- The text of the parameter. -/
  parameter : Option String
  /-- The number of the pass, from one. -/
  index : Nat
  /-- The number of passes. -/
  count : Nat

namespace Pass

/-- The name under which expressions find what is known about the pass. -/
def contextName : String := "ctx"

/-- What is known about the pass. -/
def context (pass : Pass) (o : EvalOptions) : Value :=
  .ofFields [
    ("namespace", .str pass.ns.ident),
    ("index", .int pass.index),
    ("count", .int pass.count),
    ("parameter", (pass.parameter.map Value.str).getD .null),
    ("strict", .bool o.strict)]

/-- The names of a fresh scope, the later ones in place of the earlier ones. -/
def bindings (pass : Pass) (o : EvalOptions) : List (String × Value) :=
  (contextName, pass.context o) ::
    ((pass.parameter.map fun text => (o.parameterName, Value.str text)).toList ++ pass.composed)

/-- The names that stand for something else than facts. -/
def shadowed (pass : Pass) (o : EvalOptions) : List String :=
  pass.composed.keys ++ pass.ns.statements.map (·.ident) ++ [o.parameterName, contextName]

/-! ## Statements -/

/-- The byte offset of a line in a text. Lines count from one. -/
def lineStart? (source : List Char) : Nat → Option Nat
  | 0 => none
  | 1 => some 0
  | n + 2 =>
    let front := source.takeWhile (· != '\n')
    match source.drop front.length with
    | [] => none
    | _ :: rest => (lineStart? rest (n + 1)).map (byteLength front + 1 + ·)

/-- The error of a statement. -/
def expressionError (ns : Namespace) (s : Statement) (e : EngineError) : EvalError :=
  let (line, reason) := e.describe
  let offset := (line.bind (lineStart? s.expression.source.toList)).map (s.expression.offset + ·)
  .expression ⟨ns.ident, s.ident, s.expression.source, ns.origin, offset, reason⟩

/-- The value of an expression, bound to a name. A string in quotes loses them. -/
def evaluate (engine : Engine) (scope : ScopeId) (name source : String) :
    Except EngineError Value × Engine :=
  match engine.compile source scope with
  | .error e => (.error e, engine)
  | .ok (program, engine) =>
    match engine.run program with
    | (.error e, engine) => (.error e, engine)
    | (.ok d, engine) =>
      let d := (((Engine.text? d).bind Literal.unquote?).map Script.Datum.ofString).getD d
      let engine := engine.bindDatum scope name d
      (engine.toValue d, engine)

/-- The value of a statement. -/
def runStatement (pass : Pass) (o : EvalOptions) (scope : ScopeId) (s : Statement) :
    Passing Value := do
  Passing.ofEvaluation Evaluation.goOn
  let engine ← get
  let patch := Patch.ofParameter o.parameterName pass.parameter
  let source := patch.apply ⟨engine.hints, pass.shadowed o⟩ s.expression.source
  let (result, engine) := evaluate engine scope s.ident source
  set engine
  match result with
  | .ok v => return v
  | .error e =>
    Passing.ofEvaluation Evaluation.goOn
    throw (expressionError pass.ns s e)

/-- A scope for the pass. -/
def openScope (pass : Pass) (o : EvalOptions) : Passing ScopeId :=
  modifyGet fun engine =>
    let (engine, scope) := engine.scope
    (scope, (pass.bindings o).foldl (fun engine (name, v) => engine.bind scope name v) engine)

/-- What the statements of the pass bind. -/
def run (pass : Pass) (o : EvalOptions) : Passing (Fields Value) := do
  let scope ← pass.openScope o
  pass.ns.statements.foldlM
    (fun bound s => return bound.insert s.ident (← pass.runStatement o scope s)) []

end Pass

/-! ## Namespaces -/

/-- The passes of a namespace: one for each parameter, or one without a parameter. -/
def passes (ns : Namespace) (composed : Fields Value) (parameters : List Parameter) : List Pass :=
  let texts := if parameters.isEmpty then [none] else parameters.map fun p => some p.value.text
  texts.zipIdx.map fun (text, i) => ⟨ns, composed, text, i + 1, texts.length⟩

/-- A namespace after the ones that it composes. It hands on its own parameters, theirs, and the
arguments of the reference to it. -/
def runNamespace (host : Host) (o : EvalOptions) (ns : Namespace) (composed : Environment)
    (arguments : List Parameter) : Evaluation Environment := do
  let parameters := ns.parameters ++ composed.parameters ++ arguments
  let work := (passes ns composed.vars parameters).foldlM
    (fun bound pass => return Fields.union bound (← pass.run o)) composed.vars
  let (result, engine) := (work.run).run (Engine.new host (Facts.ofHost host) (← get))
  set engine.clock.patience
  match result with
  | .ok vars => return ⟨vars, parameters⟩
  | .error e => throw e

end EnvManifest
