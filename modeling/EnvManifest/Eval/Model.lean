import EnvManifest.Eval.Composite
import EnvManifest.Manifest.Parser

/-!
# Models

Some manifests that have been read, to be evaluated any number of times.
-/

namespace EnvManifest

/-- A named manifest text. -/
structure Source where
  name : String
  text : String
deriving DecidableEq, Repr

structure Model where
  ast : Ast
  sources : List Source

namespace Model

/-- The namespaces of some texts, the first of which has a number. -/
def parseAll (origin : Nat) : List Source → Except ParseError Ast
  | [] => .ok ⟨[]⟩
  | s :: more =>
    match parseOrigin origin s.name s.text with
    | .error e => .error e
    | .ok ast => (parseAll (origin + 1) more).map (ast ++ ·)

def ofSources (sources : List Source) : Except ParseError Model :=
  (parseAll 0 sources).map fun ast => ⟨ast, sources⟩

/-- The model of one text without a name. -/
def ofText (text : String) : Except ParseError Model := ofSources [⟨anonymous, text⟩]

/-- The variables of the requested namespaces. -/
def eval (m : Model) (host : Host) (schedule : Schedule) (o : EvalOptions) (p : Patience)
    (names : List String) : Except EvalError (Fields Value) :=
  let e : Evaluator := ⟨host, m.ast, o, schedule⟩
  let work := evalMany host o schedule (evalComposite e []) [] (names.map Composite.named)
  ((work.run).run p).1.map (·.vars)

/-- The line of an error with a mark under its column. -/
def detail? (m : Model) (e : EvalError) : Option String := do
  let (origin, offset) ← e.position?
  let source ← m.sources[origin]?
  return excerpt source.name source.text offset

end Model

end EnvManifest
