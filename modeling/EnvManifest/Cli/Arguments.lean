import EnvManifest.Duration
import EnvManifest.Host.Basic

/-!
# Arguments of the command line

What a user asks for. Options may stand before and after names; arguments are read from left to
right, and the first one that is wrong, or that asks for help, decides.
-/

namespace EnvManifest.Cli

open Text

/-! ## Requests -/

inductive OutputFormat where
  | text
  | json
deriving DecidableEq, Repr

def OutputFormat.ofText? : String → Option OutputFormat
  | "text" => some text
  | "json" => some json
  | _ => none

/-- The settings of an evaluation. -/
structure EvalRequest where
  names : List String
  files : List String
  strict : Bool
  jobs : Nat
  parameterName : String
  /-- The time limit in nanoseconds. -/
  timeout : Option Nat
  output : OutputFormat
deriving DecidableEq, Repr

inductive Request where
  | eval (r : EvalRequest)
  | fmt (files : List String)
  | list (files : List String) (output : OutputFormat)
  | info (output : OutputFormat)
  | help
  | version
deriving DecidableEq, Repr

/-! ## Commands and their options -/

inductive Command where
  | eval | fmt | list | info
deriving DecidableEq, Repr

def Command.ofName? : String → Option Command
  | "eval" => some eval
  | "fmt" => some fmt
  | "list" => some list
  | "info" => some info
  | _ => none

inductive Setting where
  | verbose | file | strict | jobs | parameterName | timeout | output
deriving DecidableEq, Repr

namespace Setting

def ofLong? : String → Option Setting
  | "verbose" => some verbose
  | "file" => some file
  | "strict" => some strict
  | "jobs" => some jobs
  | "param-ident" => some parameterName
  | "timeout" => some timeout
  | "output" => some output
  | _ => none

def ofShort? : Char → Option Setting
  | 'v' => some verbose
  | 'f' => some file
  | 'j' => some jobs
  | 'o' => some output
  | _ => none

def takesValue : Setting → Bool
  | verbose | strict => false
  | _ => true

/-- Does a command know an option? Without a command only one is known. -/
def isKnown (s : Setting) : Option Command → Bool
  | some .eval => true
  | some .fmt => s == verbose || s == file
  | some .list => s == verbose || s == file || s == output
  | some .info => s == verbose || s == output
  | none => s == verbose

end Setting

/-! ## What has been given -/

/-- The options and names so far. -/
structure Given where
  verbose : Bool
  files : List String
  strict : Bool
  jobs : Option Nat
  parameterName : Option String
  timeout : Option Nat
  output : Option OutputFormat
  names : List String
deriving DecidableEq, Repr

def Given.nothing : Given := ⟨false, [], false, none, none, none, none, []⟩

/-- A number of jobs. -/
def jobs? (text : String) : Option Nat := Word.natural? text.toList

/-- A path is not empty. -/
def path? (text : String) : Option String := if text.isEmpty then none else some text

/-- A value for an option that has none yet. -/
def fresh? {α : Type} (old new : Option α) : Option (Option α) :=
  match old, new with
  | none, some a => some (some a)
  | _, _ => none

/-- One more option. Only files may be given more than once. -/
def Given.add? (g : Given) (s : Setting) (value : String) : Option Given :=
  match s with
  | .verbose => if g.verbose then none else some { g with verbose := true }
  | .strict => if g.strict then none else some { g with strict := true }
  | .file => (path? value).map fun path => { g with files := g.files ++ [path] }
  | .jobs => (fresh? g.jobs (jobs? value)).map fun jobs => { g with jobs }
  | .parameterName =>
    (fresh? g.parameterName (some value)).map fun parameterName => { g with parameterName }
  | .timeout =>
    (fresh? g.timeout (Duration.ofChars? value.toList)).map fun timeout => { g with timeout }
  | .output => (fresh? g.output (OutputFormat.ofText? value)).map fun output => { g with output }

/-! ## Reading -/

/-- Why reading stops before the last argument. -/
inductive Stop where
  | misuse
  | help
  | version
deriving DecidableEq, Repr

/-- What one argument comes to: the options so far, and an option that still wants its value. -/
abbrev Read := Except Stop (Given × Option Setting)

def add (g : Given) (s : Setting) (value : String) : Read :=
  match g.add? s value with
  | some g => .ok (g, none)
  | none => .error .misuse

/-- An argument of two dashes and a name, with or without a value. -/
def readLong (c : Option Command) (g : Given) (text : List Char) : Read :=
  let name := text.takeWhile (· != '=')
  let value? := if name.length < text.length then some (text.drop (name.length + 1)) else none
  match String.ofList name, value? with
  | "help", none => .error .help
  | "version", none => .error (if c = none then .version else .misuse)
  | name, value? =>
    match (Setting.ofLong? name).filter (·.isKnown c) with
    | none => .error .misuse
    | some s =>
      match s.takesValue, value? with
      | true, some value => add g s (String.ofList value)
      | true, none => .ok (g, some s)
      | false, none => add g s ""
      | false, some _ => .error .misuse

/-- An argument of one dash and letters. The letters after one that takes a value are the value. -/
def readShort (c : Option Command) (g : Given) : List Char → Read
  | [] => .ok (g, none)
  | 'h' :: _ => .error .help
  | letter :: more =>
    if letter = 'V' ∧ c = none then .error .version
    else
      match (Setting.ofShort? letter).filter (·.isKnown c) with
      | none => .error .misuse
      | some s =>
        if s.takesValue then
          match more with
          | [] => .ok (g, some s)
          | '=' :: value => add g s (String.ofList value)
          | value => add g s (String.ofList value)
        else
          match g.add? s "" with
          | some g => readShort c g more
          | none => .error .misuse

/-- Does an argument look like an option? -/
def isOption (text : List Char) : Bool :=
  match text with
  | '-' :: _ :: _ => true
  | _ => false

/-- Names for a command. Only evaluation takes any. -/
def addNames (c : Command) (g : Given) (names : List String) : Except Stop Given :=
  if c = .eval ∨ names = [] then .ok { g with names := g.names ++ names } else .error .misuse

/-- The arguments of a command. An option may be waiting for its value. -/
def readArguments (c : Command) (g : Given) (waiting : Option Setting) :
    List String → Except Stop Given
  | [] => if waiting.isSome then .error .misuse else .ok g
  | arg :: more =>
    match waiting, arg.toList with
    | some s, text =>
      if isOption text then .error .misuse
      else
        match add g s arg with
        | .ok (g, waiting) => readArguments c g waiting more
        | .error stop => .error stop
    | none, ['-', '-'] => addNames c g more
    | none, '-' :: '-' :: text =>
      match readLong (some c) g text with
      | .ok (g, waiting) => readArguments c g waiting more
      | .error stop => .error stop
    | none, '-' :: letter :: letters =>
      match readShort (some c) g (letter :: letters) with
      | .ok (g, waiting) => readArguments c g waiting more
      | .error stop => .error stop
    | none, _ =>
      match addNames c g [arg] with
      | .ok g => readArguments c g none more
      | .error stop => .error stop

/-! ## Defaults -/

def defaultFile : String := "menv.conf"

/-- The files of a command: those given, the one in the variable `MENV_FILE`, or the default. -/
def filesOf (host : Host) (g : Given) : Option (List String) :=
  if !g.files.isEmpty then some g.files
  else
    match host.valueOf? "MENV_FILE" with
    | some file => (path? file).map ([·])
    | none => some [defaultFile]

/-- The number of jobs: the one given, the one in the variable `MENV_JOBS`, or zero. -/
def jobsOf (host : Host) (g : Given) : Option Nat :=
  match g.jobs with
  | some n => some n
  | none =>
    match host.valueOf? "MENV_JOBS" with
    | some text => jobs? text
    | none => some 0

/-- The request of a command. -/
def requestOf (host : Host) (c : Command) (g : Given) : Option Request :=
  let output := g.output.getD .text
  match c with
  | .eval => do
    let files ← filesOf host g
    let jobs ← jobsOf host g
    let names := if g.names.isEmpty then ["default"] else g.names
    return .eval ⟨names, files, g.strict, jobs, g.parameterName.getD "_", g.timeout, output⟩
  | .fmt => (filesOf host g).map .fmt
  | .list => (filesOf host g).map fun files => .list files output
  | .info => some (.info output)

/-- A request for help about commands. -/
def helpAbout (names : List String) : Option Request :=
  match names with
  | [] => some .help
  | [name] => if name = "help" ∨ (Command.ofName? name).isSome then some .help else none
  | _ => none

/-- What stopped the reading of arguments, as a request. -/
def Stop.request? : Stop → Option Request
  | misuse => none
  | help => some .help
  | version => some .version

/-- The request of a command line, none if it cannot be understood. -/
def request? (host : Host) (g : Given) : List String → Option Request
  | [] => none
  | arg :: more =>
    match arg.toList with
    | ['-', '-'] => none
    | '-' :: '-' :: text =>
      match readLong none g text with
      | .ok (g, _) => request? host g more
      | .error stop => stop.request?
    | '-' :: letter :: letters =>
      match readShort none g (letter :: letters) with
      | .ok (g, _) => request? host g more
      | .error stop => stop.request?
    | _ =>
      if arg = "help" then helpAbout more
      else
        match Command.ofName? arg with
        | none => none
        | some c =>
          match readArguments c .nothing none more with
          | .ok g => requestOf host c g
          | .error stop => stop.request?

/-- The request of a command line. -/
def Request.ofArguments? (host : Host) (arguments : List String) : Option Request :=
  request? host .nothing arguments

end EnvManifest.Cli
