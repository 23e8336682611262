import EnvManifest.Cli.Arguments
import EnvManifest.Eval.Model
import EnvManifest.Render

/-!
# The commands

What each command prints. A command that fails prints nothing but its error.
-/

namespace EnvManifest.Cli

/-- What a run of the program leaves behind. -/
structure Output where
  exit : Nat
  stdout : String
  stderr : String
deriving DecidableEq, Repr

namespace Output

def success (text : List Char) : Output := ⟨0, String.ofList text, ""⟩

/-- A run that was asked for in the wrong way. -/
def misuse : Output := ⟨2, "", ""⟩

/-- A run that failed, with what there is to show about the error. -/
def failure (message : String) (detail : Option String) : Output :=
  let lines := (detail.map fun text => textLines text.toList).getD []
  let text := ("✗ " ++ message).toList ++ '\n' :: lines.flatMap (· ++ ['\n'])
  ⟨1, "", String.ofList text⟩

/-- A value as JSON. -/
def json (v : Value) : Output := success (Json.pretty 0 v ++ ['\n'])

end Output

/-! ## Manifests -/

/-- The texts of some files. -/
def readAll (host : Host) : List String → Except Output (List Source)
  | [] => .ok []
  | path :: more =>
    match host.read path with
    | .error fault =>
      .error (.failure ("Failed to read manifest: " ++ path ++ ": " ++ fault.message) none)
    | .ok text => (readAll host more).map (⟨path, text⟩ :: ·)

def load (host : Host) (files : List String) : Except Output Model :=
  match readAll host files with
  | .error output => .error output
  | .ok sources =>
    (Model.ofSources sources).mapError fun e =>
      .failure ("Failed to parse manifest: " ++ e.describe) (some e.detail)

/-- What a command prints for some files. -/
def withModel (host : Host) (files : List String) (print : Model → Output) : Output :=
  match load host files with
  | .ok m => print m
  | .error output => output

/-! ## Evaluation -/

def options (r : EvalRequest) : EvalOptions := ⟨r.strict, r.jobs, r.parameterName, false⟩

def patience (r : EvalRequest) : Patience :=
  match r.timeout with
  | some n => .ofMilliseconds (Duration.toMilliseconds n)
  | none => .endless

def eval (host : Host) (schedule : Schedule) (r : EvalRequest) (m : Model) : Output :=
  match m.eval host schedule (options r) (patience r) r.names with
  | .error e =>
    .failure ("Failed to evaluate " ++ String.intercalate ", " r.names ++ ": " ++ e.message)
      (m.detail? e)
  | .ok vars =>
    match r.output with
    | .text => .success (Render.environment vars)
    | .json => .json (.object vars)

/-! ## Namespaces -/

def compositeTexts (n : Namespace) : List String :=
  n.composites.map fun c => String.ofList c.print

/-- A namespace in a line. -/
def row (n : Namespace) : String :=
  let composites :=
    if n.composites.isEmpty then "" else " → " ++ String.intercalate ", " (compositeTexts n)
  n.ident ++ composites ++ " (" ++ toString n.parameters.length ++ " parameters, " ++
    toString n.statements.length ++ " statements)"

/-- A namespace as JSON. The fields of a row stand in an order of their own. -/
def rowValue (m : Model) (n : Namespace) : Value :=
  let source := (m.sources[n.origin]?.map (·.name)).getD ""
  .object [("name", .str n.ident), ("source", .str source),
    ("composites", .list ((compositeTexts n).map .str)), ("parameters", .int n.parameters.length),
    ("statements", .list (n.statements.map fun s => .str s.ident))]

def list (output : OutputFormat) (m : Model) : Output :=
  match output with
  | .text => .success (m.ast.namespaces.flatMap fun n => (row n ++ "\n").toList)
  | .json => .json (.list (m.ast.namespaces.map (rowValue m)))

/-! ## The host -/

def version : String := "0.1.0"

/-- The lines of a fact, one for each value below it. -/
def factLines (key : String) (v : Value) : List String :=
  (Facts.leaves key v).map fun (path, v) => "  " ++ path ++ ": " ++ String.ofList (Render.value v)

def info (host : Host) (output : OutputFormat) : Output :=
  let facts := Facts.ofHost host
  let functions := Builtin.all.map Builtin.name
  match output with
  | .json =>
    .json (.ofFields [("version", .str version), ("facts", .object facts),
      ("functions", .list (functions.map .str))])
  | .text =>
    let lines := ["Facts:"] ++ facts.flatMap (fun (key, v) => factLines key v) ++
      ["", "Functions:"] ++ functions.map ("  " ++ ·)
    .success (lines.flatMap fun line => (line ++ "\n").toList)

/-! ## The program -/

def answer (host : Host) (schedule : Schedule) : Request → Output
  | .eval r => withModel host r.files (eval host schedule r)
  | .fmt files => withModel host files fun m => .success m.ast.print
  | .list files output => withModel host files (list output)
  | .info output => info host output
  | .help => .success []
  | .version => .success ("menv " ++ version ++ "\n").toList

/-- A run of the program with some arguments. -/
def run (host : Host) (schedule : Schedule) (arguments : List String) : Output :=
  match Request.ofArguments? host arguments with
  | none => .misuse
  | some request => answer host schedule request

end EnvManifest.Cli
