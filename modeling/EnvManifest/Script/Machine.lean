import EnvManifest.Script.Library
import EnvManifest.Script.Operation

/-!
# The machine

A program runs in steps. A state says what is to be done next and what is to be done after that, as
a list of frames. Every step is a function of the state, so a run can be stopped between any two.
-/

namespace EnvManifest.Script

open Text

/-! ## States -/

/-- A place in a program. -/
structure Site where
  chunk : String
  line : Nat
deriving DecidableEq, Repr

/-- A change that an assignment makes. -/
inductive Store where
  | cell (id : Nat) (value : Datum)
  | field (object : Operand) (key value : Datum)

/-- What some values are wanted for. -/
inductive Aim where
  /-- They are the operands of an expression. -/
  | expr (e : Expr)
  /-- They are a function and its arguments. The call may be the last thing that a function
  does. -/
  | call (line : Nat) (origin : Option Origin) (isLast : Bool)
  /-- They belong to a statement with statements after it. -/
  | statement (s : Statement) (rest : List Statement)
  /-- They decide whether a loop goes on. -/
  | loop (body : List Statement)

inductive Frame where
  /-- More values are wanted. The ones so far stand in reverse, and the last expression may give
  more than one. -/
  | operands (s : Scope) (done : List Datum) (todo : List Expr) (spread : Bool) (aim : Aim)
  /-- The method of an object is wanted. -/
  | method (s : Scope) (object : Datum) (e : Expr) (isLast : Bool)
  /-- One value is wanted. -/
  | one
  /-- A condition is wanted, to be given as it is or as its opposite. -/
  | truth (expected : Bool)
  /-- No value is wanted. -/
  | drop
  /-- More data stand before a concatenated one. -/
  | join (site : Site) (before : List Operand)
  /-- More changes follow. -/
  | stores (site : Site) (more : List Store)
  | rest (s : Scope) (body : List Statement)
  | whileLoop (s : Scope) (test : Expr) (body : List Statement)
  | repeatLoop (s : Scope) (body : List Statement)
  /-- A loop over integers, with the next one and the number of rounds that are left. -/
  | countLoop (s : Scope) (next step : Int64) (left : Nat) (body : List Statement)
  | floatLoop (s : Scope) (next stop step : Float) (body : List Statement)
  | eachLoop (s : Scope) (line count : Nat) (f state control : Datum) (body : List Statement)
  /-- A function that was called at a place. -/
  | call (site : Option Site)
  /-- A function whose caller gives its results on. -/
  | giveBack
  /-- A function that is not written in an expression has called another one. -/
  | after (site : Option Site) (a : After)

/-- What is to be done next. -/
inductive Control where
  | eval (s : Scope) (e : Expr)
  | exec (s : Scope) (body : List Statement)
  | give (values : List Datum)
  /-- A block has ended. -/
  | next
  /-- A loop is left. -/
  | leave
  /-- A function returns. -/
  | back (values : List Datum)
  | raise (error : Datum)
  | call (site : Option Site) (origin : Option Origin) (f : Datum) (args : List Datum)
  | store (site : Site) (stores : List Store)

structure Machine where
  heap : Heap
  control : Control
  frames : List Frame
  /-- How many functions are running. -/
  depth : Nat

namespace Machine

/-- The most functions that run at once. -/
def maxDepth : Nat := 199990

/-! ## Faults -/

def placeText (site : Option Site) : String :=
  match site with
  | some s => s.chunk ++ ":" ++ toString s.line ++ ": "
  | none => ""

/-- An error at a place. -/
def fault (site : Option Site) (message : String) : Control :=
  .raise (.ofString (placeText site ++ message))

/-- The place at which a function is, counted from the last one. -/
def siteAt : Nat → List Frame → Option Site
  | _, [] => none
  | n, .call site :: fs | n, .after site _ :: fs =>
    match n with
    | 0 => site
    | n + 1 => siteAt n fs
  | n, _ :: fs => siteAt n fs

/-- The message about an argument of a function. Methods do not count their object. -/
def argumentMessage (f : Native) (origin : Option Origin) (index : Nat) (fault : String) : String :=
  let about := fun (index : Nat) (name : String) =>
    "bad argument #" ++ toString index ++ " to '" ++ name ++ "' (" ++ fault ++ ")"
  match origin with
  | some ("method", name) =>
    if index = 1 then "calling '" ++ name ++ "' on bad self (" ++ fault ++ ")"
    else about (index - 1) name
  | some (_, name) => about index name
  | none => about index f.name

/-! ## Values -/

/-- Starts on some values. -/
def collect (h : Heap) (fs : List Frame) (depth : Nat) (s : Scope) (todo : List Expr)
    (spread : Bool) (aim : Aim) (finish : List Datum → Machine) : Machine :=
  match todo with
  | [] => finish []
  | e :: more => ⟨h, .eval s e, .operands s [] more spread aim :: fs, depth⟩

/-- The expressions of a table, and whether the last of them may give more than one value. -/
def fieldOperands : List Field → List Expr × Bool
  | [] => ([], false)
  | [.item e] => ([e], true)
  | .item e :: more =>
    let (es, spread) := fieldOperands more
    (e :: es, spread)
  | .keyed _ k v :: more =>
    let (es, spread) := fieldOperands more
    (k :: v :: es, spread)

/-- The items and the other entries of a table, with the lines of the entries. -/
def fieldValues : List Field → List Datum → List Datum × List (Nat × Datum × Datum)
  | [], _ => ([], [])
  | [.item _], values => (values, [])
  | .item _ :: more, v :: values =>
    let (items, entries) := fieldValues more values
    (v :: items, entries)
  | .keyed line _ _ :: more, k :: v :: values =>
    let (items, entries) := fieldValues more values
    (items, (line, k, v) :: entries)
  | _ :: _, _ => ([], [])

/-- A table of its fields. A key may be refused. -/
def tableOf (fields : List Field) (values : List Datum) : Except (Nat × String) Table :=
  let (items, entries) := fieldValues fields values
  match entries.findSome? fun (line, k, _) => (Library.keyFault? k).map fun f => (line, f) with
  | some fault => .error fault
  | none =>
    let t := entries.foldl (fun t (_, k, v) => t.set k v)
      (Table.reserve items.length entries.length)
    .ok (items.zipIdx.foldl (fun t (v, i) => t.set (.ofInt (i + 1)) v) t)

/-- Values for so many variables. -/
def adjust (count : Nat) (values : List Datum) : List Datum :=
  values.take count ++ List.replicate (count - values.length) .nil

/-- What an operation comes to, at a place. -/
def operated (h : Heap) (fs : List Frame) (depth : Nat) (site : Site) : Operated → Machine
  | .done d => ⟨h, .give [d], fs, depth⟩
  | .call f a b => ⟨h, .call (some site) none f [a, b], .one :: fs, depth⟩
  | .test f a b result => ⟨h, .call (some site) none f [a, b], .truth result :: fs, depth⟩
  | .fault message => ⟨h, fault (some site) message, fs, depth⟩

/-- A field of a datum. -/
def index (h : Heap) (fs : List Frame) (depth : Nat) (site : Site) (object : Operand)
    (key : Datum) : Machine :=
  match h.index object.datum key with
  | .done d => ⟨h, .give [d], fs, depth⟩
  | .call f args => ⟨h, .call (some site) none f args, .one :: fs, depth⟩
  | .noFields d asked =>
    operated h fs depth site (Operand.refuse "index" ⟨d, if asked then object.origin else none⟩)
  | .endless => ⟨h, fault (some site) "'__index' chain too long; possibly a loop", fs, depth⟩

/-- Concatenates data that stand in reverse. -/
def join (h : Heap) (fs : List Frame) (depth : Nat) (site : Site) : List Operand → Machine
  | [] => ⟨h, .give [.str []], fs, depth⟩
  | [a] => ⟨h, .give [a.datum], fs, depth⟩
  | b :: a :: before =>
    match h.joined a b with
    | .done d => join h fs depth site (⟨d, none⟩ :: before)
    | o => operated h (.join site before :: fs) depth site o
termination_by operands => operands.length

/-! ## Calls -/

/-- The frames of the callers of the running function. -/
def callers : List Frame → List Frame
  | [] => []
  | .call site :: fs => .call site :: fs
  | _ :: fs => callers fs

/-- The call of a function with its arguments. The last call of a function takes its place. -/
def invoke (h : Heap) (fs : List Frame) (depth : Nat) (site : Site) (origin : Option Origin)
    (isLast : Bool) (f : Datum) (args : List Datum) : Machine :=
  match isLast, f with
  | true, .closure id =>
    match callers fs with
    | .call outer :: fs => ⟨h, .call outer origin (.closure id) args, fs, depth - 1⟩
    | fs => ⟨h, .call (some site) origin (.closure id) args, fs, depth⟩
  | true, f => ⟨h, .call (some site) origin f args, .giveBack :: fs, depth⟩
  | false, f => ⟨h, .call (some site) origin f args, fs, depth⟩

/-- Enters a function. -/
def enter (h : Heap) (fs : List Frame) (depth : Nat) (site : Option Site) (c : Closure)
    (args : List Datum) : Machine :=
  if maxDepth ≤ depth then ⟨h, fault site "stack overflow", fs, depth⟩
  else
    let (h, cells) := h.newCells (adjust c.body.params args) c.scope.cells
    let varargs := if c.body.varargs then args.drop c.body.params else []
    ⟨h, .exec { c.scope with cells, varargs } c.body.body, .call site :: fs, depth + 1⟩

/-- What the call of a function that is not written in an expression comes to. -/
def answer (fs : List Frame) (depth : Nat) (site : Option Site) (origin : Option Origin)
    (f : Native) : Except Interruption (List Datum) × Heap → Machine
  | (.ok values, h) => ⟨h, .give values, fs, depth⟩
  | (.error (.raise e), h) => ⟨h, .raise e, fs, depth⟩
  | (.error (.complain level message), h) =>
    let place :=
      match level with
      | 0 => none
      | 1 => site
      | n + 2 => siteAt n fs
    ⟨h, .raise (.str (encode (placeText place).toList ++ message)), fs, depth⟩
  | (.error (.argument i e), h) => ⟨h, fault site (argumentMessage f origin i e), fs, depth⟩
  | (.error (.call g args a), h) => ⟨h, .call none none g args, .after site a :: fs, depth⟩

def call (host : Host) (h : Heap) (fs : List Frame) (depth : Nat) (site : Option Site)
    (origin : Option Origin) (f : Datum) (args : List Datum) : Machine :=
  match f with
  | .closure id =>
    match h.closures[id]? with
    | some c => enter h fs depth site c args
    | none => ⟨h, .give [], fs, depth⟩
  | .native n => answer fs depth site origin n (((n.work host args).run).run h)
  | d =>
    let g := h.behaviour d Heap.callKey
    if g.isNil then
      ⟨h, fault site ("attempt to call a " ++ d.typeName ++ " value" ++ Operand.note origin), fs,
        depth⟩
    else ⟨h, .call site origin g (d :: args), fs, depth⟩

/-! ## Loops -/

/-- The bound of a loop over integers, none if the loop has no round. -/
def bound? (up : Bool) : Number → Option Int64
  | .int n => some n
  | .float x =>
    if x.isNaN then none
    else if x.isInf then
      if Decimal.isNegative x then (if up then none else some Int64.minValue)
      else (if up then some Int64.maxValue else none)
    else
      let n := if up then Number.floorOf x else Number.ceilOf x
      match Word.int64? n with
      | some n => some n
      | none =>
        if 0 < n then (if up then some Int64.maxValue else none)
        else if up then none
        else some Int64.minValue

def badBound (what : String) (d : Datum) : String :=
  "bad 'for' " ++ what ++ " (number expected, got " ++ d.typeName ++ ")"

/-- The frame of a loop that counts, none if it has no round. -/
def countFrame (s : Scope) (start stop step : Datum) (body : List Statement) :
    Except String (Option Frame) :=
  match start, step with
  | .number (.int a), .number (.int c) =>
    if c = 0 then .error "'for' step is zero"
    else
      match stop.number? with
      | none => .error (badBound "limit" stop)
      | some b =>
        match bound? (0 < c) b with
        | none => .ok none
        | some b =>
          let distance := if 0 < c then b.toInt - a.toInt else a.toInt - b.toInt
          if distance < 0 then .ok none
          else .ok (some (.countLoop s a c (distance.toNat / c.toInt.natAbs + 1) body))
  | _, _ =>
    match stop.number?, step.number?, start.number? with
    | none, _, _ => .error (badBound "limit" stop)
    | _, none, _ => .error (badBound "step" step)
    | _, _, none => .error (badBound "initial value" start)
    | some b, some c, some a =>
      if c.toFloat == 0 then .error "'for' step is zero"
      else .ok (some (.floatLoop s a.toFloat b.toFloat c.toFloat body))

/-- A round of a loop, with new variables. -/
def round (h : Heap) (fs : List Frame) (depth : Nat) (s : Scope) (values : List Datum)
    (body : List Statement) : Machine :=
  let (h, cells) := h.newCells values s.cells
  ⟨h, .exec { s with cells } body, fs, depth⟩

/-! ## Expressions -/

/-- The start of an expression with operands. -/
def collectFor (h : Heap) (fs : List Frame) (depth : Nat) (s : Scope) (e : Expr) : Machine :=
  match e with
  | .index _ object key =>
    ⟨h, .eval s object, .operands s [] [key] false (.expr e) :: fs, depth⟩
  | .call line f args =>
    ⟨h, .eval s f, .operands s [] args true (.call line f.origin? false) :: fs, depth⟩
  | .method _ _ object _ _ => ⟨h, .eval s object, .operands s [] [] false (.expr e) :: fs, depth⟩
  | .single e => ⟨h, .eval s e, .one :: fs, depth⟩
  | .unary _ _ a => ⟨h, .eval s a, .operands s [] [] false (.expr e) :: fs, depth⟩
  | .binary _ _ a b => ⟨h, .eval s a, .operands s [] [b] false (.expr e) :: fs, depth⟩
  | .concat _ items => collect h fs depth s items false (.expr e) fun _ => ⟨h, .give [], fs, depth⟩
  | .both a _ | .either a _ => ⟨h, .eval s a, .operands s [] [] false (.expr e) :: fs, depth⟩
  | .table fields =>
    let (es, spread) := fieldOperands fields
    collect h fs depth s es spread (.expr e) fun _ =>
      let (h, id) := h.newTable .empty
      ⟨h, .give [.table id], fs, depth⟩
  | _ => ⟨h, .give [], fs, depth⟩

/-- The start of an expression. -/
def eval (h : Heap) (fs : List Frame) (depth : Nat) (s : Scope) (e : Expr) : Machine :=
  let give := fun (h : Heap) (d : Datum) => (⟨h, .give [d], fs, depth⟩ : Machine)
  match e with
  | .nil => give h .nil
  | .bool b => give h (.bool b)
  | .int n => give h (.number (.int n))
  | .float x => give h (.number (.float x))
  | .str bs => give h (.str bs)
  | .varargs => ⟨h, .give s.varargs, fs, depth⟩
  | .var v => give h (h.valueOf s v.index)
  | .lambda f =>
    let (h, id) := h.newClosure ⟨f, s⟩
    give h (.closure id)
  | e => collectFor h fs depth s e

/-- The end of an expression whose operands are known. -/
def finishExpr (h : Heap) (fs : List Frame) (depth : Nat) (s : Scope) (e : Expr)
    (values : List Datum) : Machine :=
  let site := fun (line : Nat) => (⟨s.chunk, line⟩ : Site)
  match e, values with
  | .index line object _, [a, key] => index h fs depth (site line) ⟨a, object.origin?⟩ key
  | .method line nameLine object name args, [a] =>
    index h (.method s a (.method line nameLine object name args) false :: fs) depth
      (site nameLine) ⟨a, object.origin?⟩ (.str name)
  | .unary line op e, [a] => operated h fs depth (site line) (h.unary op ⟨a, e.origin?⟩)
  | .binary line op d e, [a, b] =>
    operated h fs depth (site line) (h.binary op ⟨a, d.origin?⟩ ⟨b, e.origin?⟩)
  | .concat line items, values =>
    let operands := (values.zip items).map fun (d, e) => (⟨d, e.origin?⟩ : Operand)
    join h fs depth (site line) operands.reverse
  | .both _ b, [a] =>
    if a.holds then ⟨h, .eval s b, .one :: fs, depth⟩ else ⟨h, .give [a], fs, depth⟩
  | .either _ b, [a] =>
    if a.holds then ⟨h, .give [a], fs, depth⟩ else ⟨h, .eval s b, .one :: fs, depth⟩
  | .table fields, values =>
    match tableOf fields values with
    | .ok t =>
      let (h, id) := h.newTable t
      ⟨h, .give [.table id], fs, depth⟩
    | .error (line, e) => ⟨h, fault (some (site line)) ("table " ++ e), fs, depth⟩
  | _, values => ⟨h, .give values, fs, depth⟩

/-! ## Statements -/

/-- The expressions that say where an assignment goes. -/
def targetOperands : List Expr → List Expr
  | [] => []
  | .index _ object key :: more => object :: key :: targetOperands more
  | _ :: more => targetOperands more

/-- The changes of an assignment, the last first. -/
def storesOf (s : Scope) : List Expr → List Datum → List Datum → List Store → List Store
  | .index _ object _ :: more, a :: key :: places, values, done =>
    storesOf s more places values.tail (.field ⟨a, object.origin?⟩ key (first values) :: done)
  | .var v :: more, places, values, done =>
    storesOf s more places values.tail
      ((s.cells[v.index]?.map fun id => .cell id (first values)).toList ++ done)
  | _, _, _, done => done

/-- The frames with the statements that follow one. -/
def follow (s : Scope) (rest : List Statement) (fs : List Frame) : List Frame :=
  if rest.isEmpty then fs else .rest s rest :: fs

/-- The start of a statement with those after it. -/
def execOne (h : Heap) (fs : List Frame) (depth : Nat) (s : Scope) (t : Statement)
    (rest : List Statement) : Machine :=
  let aim := Aim.statement t rest
  let after := follow s rest fs
  match t with
  | .call e => ⟨h, .eval s e, .drop :: after, depth⟩
  | .declare count values =>
    collect h fs depth s values true aim fun _ =>
      let (h, cells) := h.newCells (List.replicate count .nil) s.cells
      ⟨h, .exec { s with cells } rest, fs, depth⟩
  | .declareFunction f =>
    let (h, cell) := h.newCell .nil
    let s := { s with cells := cell :: s.cells }
    let (h, id) := h.newClosure ⟨f, s⟩
    ⟨h.setCell cell (.closure id), .exec s rest, fs, depth⟩
  | .assign _ targets values =>
    collect h after depth s (targetOperands targets ++ values) true aim fun _ =>
      ⟨h, .next, after, depth⟩
  | .block body => ⟨h, .exec s body, after, depth⟩
  | .whileLoop test body => ⟨h, .next, .whileLoop s test body :: after, depth⟩
  | .repeatLoop body => ⟨h, .next, .repeatLoop s body :: after, depth⟩
  | .untilTest test => ⟨h, .eval s test, .operands s [] [] false aim :: after, depth⟩
  | .branch test _ _ => ⟨h, .eval s test, .operands s [] [] false aim :: after, depth⟩
  | .countLoop _ start stop step _ =>
    ⟨h, .eval s start, .operands s [] [stop, step] false aim :: after, depth⟩
  | .eachLoop _ _ values _ =>
    collect h after depth s values true aim fun _ => ⟨h, .next, after, depth⟩
  | .leave => ⟨h, .leave, fs, depth⟩
  | .give [.call line f args] =>
    ⟨h, .eval s f, .operands s [] args true (.call line f.origin? true) :: fs, depth⟩
  | .give [.method line nameLine object name args] =>
    ⟨h, .eval s object, .operands s [] [] false
      (.statement (.give [.method line nameLine object name args]) []) :: fs, depth⟩
  | .give values => collect h fs depth s values true aim fun _ => ⟨h, .back [], fs, depth⟩

/-- The end of a statement whose values are known. -/
def finishStatement (h : Heap) (fs : List Frame) (depth : Nat) (s : Scope) (t : Statement)
    (rest : List Statement) (values : List Datum) : Machine :=
  let site := fun (line : Nat) => (⟨s.chunk, line⟩ : Site)
  match t, values with
  | .declare count _, values =>
    let (h, cells) := h.newCells (adjust count values) s.cells
    ⟨h, .exec { s with cells } rest, fs, depth⟩
  | .assign line targets _, values =>
    let places := (targetOperands targets).length
    ⟨h, .store (site line) (storesOf s targets (values.take places) (values.drop places) []), fs,
      depth⟩
  | .untilTest _, values => ⟨h, if (first values).holds then .leave else .next, fs, depth⟩
  | .branch _ yes no, values => ⟨h, .exec s (if (first values).holds then yes else no), fs, depth⟩
  | .countLoop line _ _ _ body, [start, stop, step] =>
    match countFrame s start stop step body with
    | .ok (some f) => ⟨h, .next, f :: fs, depth⟩
    | .ok none => ⟨h, .next, fs, depth⟩
    | .error e => ⟨h, fault (some (site line)) e, fs, depth⟩
  | .eachLoop line count _ body, values =>
    ⟨h, .next, .eachLoop s line count (first values) (values.getD 1 .nil) (values.getD 2 .nil) body
      :: fs, depth⟩
  | .give [.method line nameLine object name args], [a] =>
    index h (.method s a (.method line nameLine object name args) true :: fs) depth (site nameLine)
      ⟨a, object.origin?⟩ (.str name)
  | .give _, values => ⟨h, .back values, fs, depth⟩
  | _, _ => ⟨h, .next, fs, depth⟩

/-- The changes of an assignment one after another. -/
def store (h : Heap) (fs : List Frame) (depth : Nat) (site : Site) : List Store → Machine
  | [] => ⟨h, .next, fs, depth⟩
  | .cell id d :: more => ⟨h.setCell id d, .store site more, fs, depth⟩
  | .field object key d :: more =>
    match h.target object.datum key d with
    | .done id =>
      match Library.keyFault? key with
      | some e => ⟨h, fault (some site) ("table " ++ e), fs, depth⟩
      | none => ⟨h.setTable id key d, .store site more, fs, depth⟩
    | .call f args => ⟨h, .call (some site) none f args, .stores site more :: fs, depth⟩
    | .noFields d asked =>
      operated h fs depth site (Operand.refuse "index" ⟨d, if asked then object.origin else none⟩)
    | .endless =>
      ⟨h, fault (some site) "'__newindex' chain too long; possibly a loop", fs, depth⟩

/-! ## Frames -/

/-- What values are good for, once all of them are known. -/
def finish (h : Heap) (fs : List Frame) (depth : Nat) (s : Scope) (values : List Datum) :
    Aim → Machine
  | .expr e => finishExpr h fs depth s e values
  | .call line origin isLast =>
    invoke h fs depth ⟨s.chunk, line⟩ origin isLast (first values) values.tail
  | .statement t rest => finishStatement h fs depth s t rest values
  | .loop body => ⟨h, if (first values).holds then .exec s body else .leave, fs, depth⟩

/-- Values for a function that has called another one. -/
def giveAfter (h : Heap) (fs : List Frame) (depth : Nat) (values : List Datum) : After → Machine
  | .protect | .protectWith _ => ⟨h, .give (.bool true :: values), fs, depth⟩
  | .take count => ⟨h, .give (adjust count values), fs, depth⟩
  | .text =>
    match first values with
    | .str bs => ⟨h, .give [.str bs], fs, depth⟩
    | _ => ⟨h, fault none "'__tostring' must return a string", fs, depth⟩
  | .item i => ⟨h, .give (Library.indexed i (first values)), fs, depth⟩
  | .failed => ⟨h, .give [.bool false, first values], fs, depth⟩

/-- Values for a frame. -/
def give (h : Heap) (fs : List Frame) (depth : Nat) (values : List Datum) : Frame → Machine
  | .operands s done [] spread aim =>
    finish h fs depth s (done.reverse ++ if spread then values else [first values]) aim
  | .operands s done (e :: more) spread aim =>
    ⟨h, .eval s e, .operands s (first values :: done) more spread aim :: fs, depth⟩
  | .method s object (.method line _ _ name args) isLast =>
    let aim := Aim.call line (some ("method", String.ofList (decodeLossy name))) isLast
    match args with
    | [] => finish h fs depth s [first values, object] aim
    | e :: more => ⟨h, .eval s e, .operands s [object, first values] more true aim :: fs, depth⟩
  | .method _ _ _ _ => ⟨h, .give values, fs, depth⟩
  | .one => ⟨h, .give [first values], fs, depth⟩
  | .truth expected => ⟨h, .give [.bool ((first values).holds == expected)], fs, depth⟩
  | .drop => ⟨h, .next, fs, depth⟩
  | .join site before => join h fs depth site (⟨first values, none⟩ :: before)
  | .stores site more => ⟨h, .store site more, fs, depth⟩
  | .rest s body => ⟨h, .exec s body, fs, depth⟩
  | .eachLoop s line count f state _ body =>
    let control := first values
    if control.isNil then ⟨h, .next, fs, depth⟩
    else round h (.eachLoop s line count f state control body :: fs) depth s (adjust count values) body
  | .giveBack => ⟨h, .back values, fs, depth⟩
  | .after _ a => giveAfter h fs depth values a
  | _ => ⟨h, .give values, fs, depth⟩

/-- The end of a block for a frame. -/
def goOn (h : Heap) (fs : List Frame) (depth : Nat) : Frame → Machine
  | .rest s body => ⟨h, .exec s body, fs, depth⟩
  | .whileLoop s test body =>
    ⟨h, .eval s test, .operands s [] [] false (.loop body) :: .whileLoop s test body :: fs, depth⟩
  | .repeatLoop s body => ⟨h, .exec s body, .repeatLoop s body :: fs, depth⟩
  | .countLoop _ _ _ 0 _ => ⟨h, .next, fs, depth⟩
  | .countLoop s i step (left + 1) body =>
    round h (.countLoop s (i + step) step left body :: fs) depth s [.number (.int i)] body
  | .floatLoop s x stop step body =>
    if if 0 < step then x ≤ stop else stop ≤ x then
      round h (.floatLoop s (x + step) stop step body :: fs) depth s [.number (.float x)] body
    else ⟨h, .next, fs, depth⟩
  | .eachLoop s line count f state control body =>
    ⟨h, .call (some ⟨s.chunk, line⟩) (some ("for iterator", "for iterator")) f [state, control],
      .eachLoop s line count f state control body :: fs, depth⟩
  | .call _ => ⟨h, .give [], fs, depth - 1⟩
  | _ => ⟨h, .next, fs, depth⟩

/-- The end of a loop for a frame. -/
def leaveLoop (h : Heap) (fs : List Frame) (depth : Nat) : Frame → Machine
  | .whileLoop _ _ _ | .repeatLoop _ _ | .countLoop _ _ _ _ _ | .floatLoop _ _ _ _ _
  | .eachLoop _ _ _ _ _ _ _ => ⟨h, .next, fs, depth⟩
  | _ => ⟨h, .leave, fs, depth⟩

/-- The return of a function for a frame. -/
def goBack (h : Heap) (fs : List Frame) (depth : Nat) (values : List Datum) : Frame → Machine
  | .call _ => ⟨h, .give values, fs, depth - 1⟩
  | _ => ⟨h, .back values, fs, depth⟩

/-- An error for a frame. -/
def handle (h : Heap) (fs : List Frame) (depth : Nat) (error : Datum) : Frame → Machine
  | .call _ => ⟨h, .raise error, fs, depth - 1⟩
  | .after _ .protect => ⟨h, .give [.bool false, error], fs, depth⟩
  | .after site (.protectWith handler) =>
    ⟨h, .call none none handler [error], .after site .failed :: fs, depth⟩
  | _ => ⟨h, .raise error, fs, depth⟩

/-! ## Steps -/

/-- One step. A machine without frames that gives values or an error has stopped. -/
def step (host : Host) (m : Machine) : Machine :=
  match m with
  | ⟨h, control, frames, depth⟩ =>
    match control, frames with
    | .eval s e, fs => eval h fs depth s e
    | .exec _ [], fs => ⟨h, .next, fs, depth⟩
    | .exec s (t :: rest), fs => execOne h fs depth s t rest
    | .call site origin f args, fs => call host h fs depth site origin f args
    | .store site stores, fs => store h fs depth site stores
    | .give values, f :: fs => give h fs depth values f
    | .next, f :: fs => goOn h fs depth f
    | .leave, f :: fs => leaveLoop h fs depth f
    | .back values, f :: fs => goBack h fs depth values f
    | .raise error, f :: fs => handle h fs depth error f
    | .next, [] | .leave, [] => ⟨h, .give [], [], depth⟩
    | .back values, [] => ⟨h, .give values, [], depth⟩
    | .give values, [] => ⟨h, .give values, [], depth⟩
    | .raise error, [] => ⟨h, .raise error, [], depth⟩

/-- The outcome of a machine that has stopped. -/
def outcome? (m : Machine) : Option (Except Datum (List Datum)) :=
  match m.control, m.frames with
  | .give values, [] => some (.ok values)
  | .raise error, [] => some (.error error)
  | _, _ => none

/-- The machine that calls a function without arguments. -/
def start (h : Heap) (f : Datum) : Machine := ⟨h, .call none none f [], [], 0⟩

end Machine

end EnvManifest.Script
