import EnvManifest.Script.Ast
import EnvManifest.Script.Lexer

/-!
# From tokens to a program

A parser of recursive descent with operator levels. Expressions and statements may be nested to a
fixed depth only. Names of variables are resolved on the way.
-/

namespace EnvManifest.Script

open Text

/-! ## What a parser sees -/

/-- A declared variable. -/
structure Binding where
  name : String
  /-- How many functions are around the declaration. -/
  depth : Nat
  constant : Bool
deriving DecidableEq, Repr

/-- What is around a place of a program. -/
structure Context where
  /-- The variables in scope, the last declared first. -/
  scope : List Binding
  depth : Nat
  varargs : Bool
  inLoop : Bool
  /-- How many expressions and statements are around the place. -/
  level : Nat

/-- The most expressions and statements around a place. -/
def maxLevel : Nat := 200

/-- The tokens to read, and the line of the last one that has been read. -/
structure Reader where
  tokens : List Lexeme
  lastLine : Nat

abbrev Parser (α : Type) := StateT Reader (Except SyntaxFault) α

namespace Parser

def current : Parser Lexeme := do
  return (← get).tokens.headD ⟨.eof, 0⟩

/-- The line of the last token that has been read. -/
def lastLine : Parser Nat := do return (← get).lastLine

def currentLine : Parser Nat := do return (← current).line

/-- Goes on to the next token. -/
def advance : Parser Unit := modify fun r =>
  match r.tokens with
  | t :: more => ⟨more, t.line⟩
  | [] => r

/-- A fault at the current token. A token that cannot be read is the fault itself. -/
def fault {α : Type} (message : String) : Parser α := do
  let t ← current
  match t.token with
  | .bad reason => throw ⟨some t.line, reason⟩
  | token => throw ⟨some t.line, message ++ " near " ++ token.near⟩

/-- A fault that is not about a token. -/
def misuse {α : Type} (message : String) : Parser α := do
  throw ⟨some (← currentLine), message⟩

/-- Is the current token a symbol or a keyword? -/
def isMark (text : String) : Parser Bool := do
  match (← current).token with
  | .mark t => return t == text
  | _ => return false

/-- Goes past a symbol or a keyword, if it is there. -/
def accept (text : String) : Parser Bool := do
  if ← isMark text then
    advance
    return true
  else return false

def expect (text : String) : Parser Unit := do
  unless ← accept text do fault ("'" ++ text ++ "' expected")

/-- Goes past what closes something that was opened on a line. -/
def close (text opening : String) (line : Nat) : Parser Unit := do
  unless ← accept text do
    if line = (← currentLine) then fault ("'" ++ text ++ "' expected")
    else
      fault ("'" ++ text ++ "' expected (to close '" ++ opening ++ "' at line " ++ toString line ++
        ")")

def name : Parser String := do
  match (← current).token with
  | .name text =>
    advance
    return text
  | _ => fault "<name> expected"

/-- Is this the end of a block? -/
def atBlockEnd : Parser Bool := do
  match (← current).token with
  | .eof => return true
  | .mark t => return ["else", "elseif", "end", "until"].contains t
  | _ => return false

end Parser

/-! ## Variables -/

/-- Where a name is declared. -/
def findBinding (name : String) : List Binding → Option (Nat × Binding)
  | [] => none
  | b :: bs =>
    if b.name = name then some (0, b) else (findBinding name bs).map fun (i, b) => (i + 1, b)

/-- A name as an expression: a declared variable, or a field of the table of globals. -/
def Context.resolve (ctx : Context) (name : String) : Expr :=
  let find := fun (n : String) =>
    (findBinding n ctx.scope).map fun (i, b) => (⟨n, i, b.depth == ctx.depth⟩ : Variable)
  match find name with
  | some v => .var v
  | none =>
    match find environmentName with
    | some v => .index 0 (.var v) (.str (encode name.toList))
    | none => .nil

def Context.declare (ctx : Context) (names : List String) : Context :=
  { ctx with scope := (names.map fun n => ⟨n, ctx.depth, false⟩).reverse ++ ctx.scope }

/-- The name of a constant that is assigned to. -/
def Context.constant? (ctx : Context) : Expr → Option String
  | .var v => if (ctx.scope[v.index]?).any (·.constant) then some v.name else none
  | _ => none

/-! ## Operators -/

/-- The line of an access is that of the last token that is read before its value is needed. -/
def Expr.settle (line : Nat) : Expr → Expr
  | .index 0 object key => .index line object key
  | .both a b => .both a (b.settle line)
  | .either a b => .either a (b.settle line)
  | e => e

def Field.settle (line : Nat) : Field → Field
  | .item e => .item (e.settle line)
  | f => f

def unary? : Token → Option Unary
  | .mark "-" => some .neg
  | .mark "not" => some .not
  | .mark "#" => some .length
  | .mark "~" => some .bitNot
  | _ => none

inductive Infix where
  | plain (op : Binary)
  | concat
  | both
  | either
deriving DecidableEq, Repr

/-- An operator with how strongly it binds to its left and to its right. -/
def infix? : Token → Option (Infix × Nat × Nat)
  | .mark "+" => some (.plain (.arith .add), 10, 10)
  | .mark "-" => some (.plain (.arith .sub), 10, 10)
  | .mark "*" => some (.plain (.arith .mul), 11, 11)
  | .mark "%" => some (.plain (.arith .mod), 11, 11)
  | .mark "^" => some (.plain (.arith .pow), 14, 13)
  | .mark "/" => some (.plain (.arith .div), 11, 11)
  | .mark "//" => some (.plain (.arith .idiv), 11, 11)
  | .mark "&" => some (.plain (.bits .and), 6, 6)
  | .mark "|" => some (.plain (.bits .or), 4, 4)
  | .mark "~" => some (.plain (.bits .xor), 5, 5)
  | .mark "<<" => some (.plain (.bits .shl), 7, 7)
  | .mark ">>" => some (.plain (.bits .shr), 7, 7)
  | .mark ".." => some (.concat, 9, 8)
  | .mark "==" => some (.plain .eq, 3, 3)
  | .mark "~=" => some (.plain .ne, 3, 3)
  | .mark "<" => some (.plain .lt, 3, 3)
  | .mark "<=" => some (.plain .le, 3, 3)
  | .mark ">" => some (.plain .gt, 3, 3)
  | .mark ">=" => some (.plain .ge, 3, 3)
  | .mark "and" => some (.both, 2, 2)
  | .mark "or" => some (.either, 1, 1)
  | _ => none

/-- How strongly an operator before its operand binds. -/
def unaryPower : Nat := 12

def Binary.isOrder : Binary → Bool
  | .lt | .le | .gt | .ge => true
  | _ => false

/-- Two operands with the operator on a line, after the last token on another. A chain of
concatenations is one. -/
def combine (op : Infix) (line last : Nat) (a b : Expr) : Expr :=
  match op with
  | .plain op => .binary (if op.isOrder then last else line) op a (b.settle last)
  | .concat =>
    match b with
    | .concat inner items => .concat inner (a :: items)
    | b => .concat line [a, b.settle last]
  | .both => .both a b
  | .either => .either a b

/-! ## The grammar -/

/-- Can a value be assigned to it? -/
def Expr.isTarget : Expr → Bool
  | .var _ | .index _ _ _ => true
  | _ => false

def Expr.isCall : Expr → Bool
  | .call _ _ _ | .method _ _ _ _ _ => true
  | _ => false

/-- The fuel that is left goes down with each call. -/
def exhausted {α : Type} : Parser α := throw ⟨none, "not enough memory"⟩

/-- The context one level deeper. -/
def Context.enter (ctx : Context) : Parser Context :=
  if ctx.level + 1 < maxLevel then pure { ctx with level := ctx.level + 1 }
  else throw ⟨none, "C stack overflow"⟩

/-- The last of some expressions with its line. -/
def settleLast (line : Nat) : List Expr → List Expr
  | [] => []
  | [e] => [e.settle line]
  | e :: es => e :: settleLast line es

/-- The mark after a variable that makes it a constant. -/
def constantMark : Parser Bool := do
  if ← Parser.accept "<" then
    let a ← Parser.name
    Parser.expect ">"
    if a = "const" ∨ a = "close" then return true
    else Parser.misuse ("unknown attribute '" ++ a ++ "'")
  else return false

/-- Names with their attributes after `local`. -/
def attributedNames : Nat → Parser (List (String × Bool))
  | 0 => exhausted
  | fuel + 1 => do
    let n ← Parser.name
    let constant ← constantMark
    if ← Parser.accept "," then return (n, constant) :: (← attributedNames fuel)
    else return [(n, constant)]

/-- More names after the first of a loop. -/
def moreNames : Nat → Parser (List String)
  | 0 => exhausted
  | fuel + 1 => do
    if ← Parser.accept "," then
      let n ← Parser.name
      return n :: (← moreNames fuel)
    else return []

/-- The parameters of a function, and whether it takes more. -/
def parameters : Nat → Parser (List String × Bool)
  | 0 => exhausted
  | fuel + 1 => do
    match (← Parser.current).token with
    | .name n =>
      Parser.advance
      if ← Parser.accept "," then
        let (more, varargs) ← parameters fuel
        return (n :: more, varargs)
      else return ([n], false)
    | _ =>
      if ← Parser.accept "..." then return ([], true)
      else Parser.fault "<name> or '...' expected"

mutual

def expression (fuel : Nat) (ctx : Context) (limit : Nat) : Parser Expr :=
  match fuel with
  | 0 => exhausted
  | fuel + 1 => do
    let inner ← ctx.enter
    let t ← Parser.current
    match unary? t.token with
    | some op =>
      Parser.advance
      let e ← expression fuel inner unaryPower
      operators fuel inner limit (.unary t.line op (e.settle (← Parser.lastLine)))
    | none => operators fuel inner limit (← operand fuel inner)

/-- The operators after an operand that bind more strongly than the limit. -/
def operators (fuel : Nat) (ctx : Context) (limit : Nat) (left : Expr) : Parser Expr :=
  match fuel with
  | 0 => exhausted
  | fuel + 1 => do
    let t ← Parser.current
    match infix? t.token with
    | none => return left
    | some (op, leftPower, rightPower) =>
      if leftPower ≤ limit then return left
      else
        Parser.advance
        let right ← expression fuel ctx rightPower
        let left := left.settle t.line
        operators fuel ctx limit (combine op t.line (← Parser.lastLine) left right)

def operand (fuel : Nat) (ctx : Context) : Parser Expr :=
  match fuel with
  | 0 => exhausted
  | fuel + 1 => do
    match (← Parser.current).token with
    | .int value _ =>
      Parser.advance
      return .int value
    | .float value _ =>
      Parser.advance
      return .float value
    | .str value _ =>
      Parser.advance
      return .str value
    | .mark "nil" =>
      Parser.advance
      return .nil
    | .mark "true" =>
      Parser.advance
      return .bool true
    | .mark "false" =>
      Parser.advance
      return .bool false
    | .mark "..." =>
      if ctx.varargs then
        Parser.advance
        return .varargs
      else Parser.fault "cannot use '...' outside a vararg function"
    | .mark "\x7b" => tableConstructor fuel ctx
    | .mark "function" =>
      let line ← Parser.currentLine
      Parser.advance
      return .lambda (← functionBody fuel ctx false line)
    | _ => suffixed fuel ctx

/-- A name or an expression in parentheses, with what follows it. -/
def suffixed (fuel : Nat) (ctx : Context) : Parser Expr :=
  match fuel with
  | 0 => exhausted
  | fuel + 1 => do
    let t ← Parser.current
    match t.token with
    | .name n =>
      Parser.advance
      suffixes fuel ctx (ctx.resolve n)
    | .mark "(" =>
      Parser.advance
      let e ← expression fuel ctx 0
      Parser.close ")" "(" t.line
      suffixes fuel ctx (.single (e.settle (← Parser.lastLine)))
    | _ => Parser.fault "unexpected symbol"

/-- Fields, indices and calls after an expression. -/
def suffixes (fuel : Nat) (ctx : Context) (e : Expr) : Parser Expr :=
  match fuel with
  | 0 => exhausted
  | fuel + 1 => do
    let t ← Parser.current
    match t.token with
    | .mark "." =>
      let e := e.settle (← Parser.lastLine)
      Parser.advance
      suffixes fuel ctx (.index 0 e (.str (encode (← Parser.name).toList)))
    | .mark "[" =>
      let e := e.settle (← Parser.lastLine)
      suffixes fuel ctx (.index 0 e (← bracketed fuel ctx))
    | .mark ":" =>
      Parser.advance
      let n ← Parser.name
      let nameLine ← Parser.lastLine
      let e := e.settle nameLine
      let line ← Parser.currentLine
      suffixes fuel ctx (.method line nameLine e (encode n.toList) (← arguments fuel ctx))
    | .mark "(" | .mark "\x7b" | .str _ _ =>
      let e := e.settle (← Parser.lastLine)
      suffixes fuel ctx (.call t.line e (← arguments fuel ctx))
    | _ => return e

/-- A key in brackets. -/
def bracketed (fuel : Nat) (ctx : Context) : Parser Expr :=
  match fuel with
  | 0 => exhausted
  | fuel + 1 => do
    Parser.advance
    let key ← expression fuel ctx 0
    let key := key.settle (← Parser.lastLine)
    Parser.expect "]"
    return key

/-- The arguments of a call: a list in parentheses, one string or one table. -/
def arguments (fuel : Nat) (ctx : Context) : Parser (List Expr) :=
  match fuel with
  | 0 => exhausted
  | fuel + 1 => do
    let t ← Parser.current
    match t.token with
    | .str value _ =>
      Parser.advance
      return [.str value]
    | .mark "\x7b" => return [← tableConstructor fuel ctx]
    | .mark "(" =>
      Parser.advance
      if ← Parser.accept ")" then return []
      else
        let args ← expressions fuel ctx
        Parser.close ")" "(" t.line
        return settleLast (← Parser.lastLine) args
    | _ => Parser.fault "function arguments expected"

/-- One or more expressions with commas between them. -/
def expressions (fuel : Nat) (ctx : Context) : Parser (List Expr) :=
  match fuel with
  | 0 => exhausted
  | fuel + 1 => do
    let e ← expression fuel ctx 0
    if ← Parser.accept "," then
      let e := e.settle (← Parser.lastLine)
      return e :: (← expressions fuel ctx)
    else return [e]

def tableConstructor (fuel : Nat) (ctx : Context) : Parser Expr :=
  match fuel with
  | 0 => exhausted
  | fuel + 1 => do
    let line ← Parser.currentLine
    Parser.advance
    return .table (← fields fuel ctx line)

/-- The fields of a table up to its closing brace. -/
def fields (fuel : Nat) (ctx : Context) (line : Nat) : Parser (List Field) :=
  match fuel with
  | 0 => exhausted
  | fuel + 1 => do
    if ← Parser.accept "\x7d" then return []
    else
      let f ← field fuel ctx
      let more ← Parser.accept ","
      let more ← if more then pure true else Parser.accept ";"
      if more then
        let f := f.settle (← Parser.lastLine)
        return f :: (← fields fuel ctx line)
      else
        Parser.close "\x7d" "\x7b" line
        return [f.settle (← Parser.lastLine)]

def field (fuel : Nat) (ctx : Context) : Parser Field :=
  match fuel with
  | 0 => exhausted
  | fuel + 1 => do
    match (← get).tokens with
    | ⟨.name n, _⟩ :: ⟨.mark "=", _⟩ :: _ =>
      Parser.advance
      keyedField fuel ctx (.str (encode n.toList))
    | ⟨.mark "[", _⟩ :: _ => keyedField fuel ctx (← bracketed fuel ctx)
    | ⟨.name _, _⟩ :: ⟨.bad message, line⟩ :: _ => throw ⟨some line, message⟩
    | _ => return .item (← expression fuel ctx 0)

/-- The value of a key. -/
def keyedField (fuel : Nat) (ctx : Context) (key : Expr) : Parser Field :=
  match fuel with
  | 0 => exhausted
  | fuel + 1 => do
    Parser.expect "="
    let e ← expression fuel ctx 0
    let line ← Parser.lastLine
    return .keyed line key (e.settle line)

/-- The parameters and the body of a function that starts on a line. -/
def functionBody (fuel : Nat) (ctx : Context) (isMethod : Bool) (line : Nat) :
    Parser FunctionBody :=
  match fuel with
  | 0 => exhausted
  | fuel + 1 => do
    Parser.expect "("
    let (names, varargs) ← if ← Parser.isMark ")" then pure ([], false) else parameters fuel
    Parser.expect ")"
    let names := if isMethod then "self" :: names else names
    let inner := { ctx with depth := ctx.depth + 1, varargs, inLoop := false }
    let body ← block fuel (inner.declare names)
    Parser.close "end" "function" line
    return ⟨names.length, varargs, body⟩

/-- The statements up to the end of a block. -/
def block (fuel : Nat) (ctx : Context) : Parser (List Statement) :=
  match fuel with
  | 0 => exhausted
  | fuel + 1 => do
    if ← Parser.atBlockEnd then return []
    else if ← Parser.isMark "return" then
      return [← giveStatement fuel (← ctx.enter)]
    else
      let (s, scope) ← statement fuel (← ctx.enter)
      return s ++ (← block fuel { ctx with scope })

/-- A `return`, which ends its block. -/
def giveStatement (fuel : Nat) (ctx : Context) : Parser Statement :=
  match fuel with
  | 0 => exhausted
  | fuel + 1 => do
    Parser.advance
    let values ←
      if (← Parser.atBlockEnd) || (← Parser.isMark ";") then pure []
      else
        let es ← expressions fuel ctx
        pure (settleLast (← Parser.lastLine) es)
    let _ ← Parser.accept ";"
    return .give values

/-- A statement, and the variables in scope after it. An empty statement is none. -/
def statement (fuel : Nat) (ctx : Context) : Parser (List Statement × List Binding) :=
  match fuel with
  | 0 => exhausted
  | fuel + 1 => do
    let t ← Parser.current
    match t.token with
    | .mark ";" =>
      Parser.advance
      return ([], ctx.scope)
    | .mark "if" => return ([← ifStatement fuel ctx t.line], ctx.scope)
    | .mark "while" =>
      Parser.advance
      let test ← expression fuel ctx 0
      let test := test.settle (← Parser.lastLine)
      Parser.expect "do"
      let body ← block fuel { ctx with inLoop := true }
      Parser.close "end" "while" t.line
      return ([.whileLoop test body], ctx.scope)
    | .mark "do" =>
      Parser.advance
      let body ← block fuel ctx
      Parser.close "end" "do" t.line
      return ([.block body], ctx.scope)
    | .mark "for" => return ([← forStatement fuel ctx t.line], ctx.scope)
    | .mark "repeat" =>
      Parser.advance
      return ([.repeatLoop (← untilBlock fuel { ctx with inLoop := true } t.line)], ctx.scope)
    | .mark "function" => return ([← functionStatement fuel ctx t.line], ctx.scope)
    | .mark "local" =>
      Parser.advance
      if ← Parser.accept "function" then
        let inner := ctx.declare [← Parser.name]
        return ([.declareFunction (← functionBody fuel inner false (← Parser.lastLine))],
          inner.scope)
      else localStatement fuel ctx
    | .mark "break" =>
      Parser.advance
      if ctx.inLoop then return ([.leave], ctx.scope)
      else Parser.misuse ("break outside a loop at line " ++ toString t.line)
    | _ => return ([← expressionStatement fuel ctx], ctx.scope)

/-- The body of a `repeat` up to its test, which sees the body's variables. -/
def untilBlock (fuel : Nat) (ctx : Context) (line : Nat) : Parser (List Statement) :=
  match fuel with
  | 0 => exhausted
  | fuel + 1 => do
    if (← Parser.atBlockEnd) then
      Parser.close "until" "repeat" line
      let test ← expression fuel ctx 0
      return [.untilTest (test.settle (← Parser.lastLine))]
    else if ← Parser.isMark "return" then
      let s ← giveStatement fuel (← ctx.enter)
      Parser.close "until" "repeat" line
      let _ ← expression fuel ctx 0
      return [s]
    else
      let (s, scope) ← statement fuel (← ctx.enter)
      return s ++ (← untilBlock fuel { ctx with scope } line)

/-- An `if` or `elseif` with what follows it. -/
def ifStatement (fuel : Nat) (ctx : Context) (line : Nat) : Parser Statement :=
  match fuel with
  | 0 => exhausted
  | fuel + 1 => do
    Parser.advance
    let test ← expression fuel ctx 0
    Parser.expect "then"
    let test := test.settle (← Parser.lastLine)
    let yes ← block fuel ctx
    if ← Parser.isMark "elseif" then return .branch test yes [← ifStatement fuel ctx line]
    else if ← Parser.accept "else" then
      let no ← block fuel ctx
      Parser.close "end" "if" line
      return .branch test yes no
    else
      Parser.close "end" "if" line
      return .branch test yes []

def forStatement (fuel : Nat) (ctx : Context) (line : Nat) : Parser Statement :=
  match fuel with
  | 0 => exhausted
  | fuel + 1 => do
    Parser.advance
    let first ← Parser.name
    let t ← Parser.current
    match t.token with
    | .mark "=" =>
      Parser.advance
      let start ← bound fuel ctx
      Parser.expect ","
      let stop ← bound fuel ctx
      let step ← if ← Parser.accept "," then bound fuel ctx else pure (.int 1)
      Parser.expect "do"
      let prepared ← Parser.lastLine
      let body ← block fuel { ctx.declare [first] with inLoop := true }
      Parser.close "end" "for" line
      return .countLoop prepared start stop step body
    | .mark "," | .mark "in" =>
      let names := first :: (← moreNames fuel)
      Parser.expect "in"
      let called ← Parser.currentLine
      let values ← expressions fuel ctx
      let values := settleLast (← Parser.lastLine) values
      Parser.expect "do"
      let body ← block fuel { ctx.declare names with inLoop := true }
      Parser.close "end" "for" line
      return .eachLoop called names.length values body
    | _ => Parser.fault "'=' or 'in' expected"

/-- A bound of a counting loop. -/
def bound (fuel : Nat) (ctx : Context) : Parser Expr :=
  match fuel with
  | 0 => exhausted
  | fuel + 1 => do
    let e ← expression fuel ctx 0
    return e.settle (← Parser.lastLine)

/-- A function that is assigned to a name or a field. -/
def functionStatement (fuel : Nat) (ctx : Context) (line : Nat) : Parser Statement :=
  match fuel with
  | 0 => exhausted
  | fuel + 1 => do
    Parser.advance
    let n ← Parser.name
    let (target, isMethod) ← functionName fuel (ctx.resolve n)
    let f ← functionBody fuel ctx isMethod line
    match ctx.constant? target with
    | some n => Parser.misuse ("attempt to assign to const variable '" ++ n ++ "'")
    | none => return .assign line [target] [.lambda f]

/-- The fields after the first name of a function, and whether the last of them is a method. -/
def functionName (fuel : Nat) (e : Expr) : Parser (Expr × Bool) :=
  match fuel with
  | 0 => exhausted
  | fuel + 1 => do
    if ← Parser.isMark "." then
      let e := e.settle (← Parser.lastLine)
      Parser.advance
      functionName fuel (.index 0 e (.str (encode (← Parser.name).toList)))
    else if ← Parser.isMark ":" then
      let e := e.settle (← Parser.lastLine)
      Parser.advance
      return (.index 0 e (.str (encode (← Parser.name).toList)), true)
    else return (e, false)

/-- New variables after `local`. They are in scope after their values. -/
def localStatement (fuel : Nat) (ctx : Context) : Parser (List Statement × List Binding) :=
  match fuel with
  | 0 => exhausted
  | fuel + 1 => do
    let names ← attributedNames fuel
    let values ←
      if ← Parser.accept "=" then
        let es ← expressions fuel ctx
        pure (settleLast (← Parser.lastLine) es)
      else pure []
    let bindings := names.map fun (n, constant) => (⟨n, ctx.depth, constant⟩ : Binding)
    return ([.declare names.length values], bindings.reverse ++ ctx.scope)

/-- A call or an assignment. -/
def expressionStatement (fuel : Nat) (ctx : Context) : Parser Statement :=
  match fuel with
  | 0 => exhausted
  | fuel + 1 => do
    let e ← suffixed fuel ctx
    if (← Parser.isMark "=") || (← Parser.isMark ",") then
      let (targets, values) ← assignment fuel ctx e
      return .assign (← Parser.lastLine) targets values
    else if e.isCall then return .call e
    else Parser.fault "syntax error"

/-- The targets of an assignment from one on, and the values. -/
def assignment (fuel : Nat) (ctx : Context) (target : Expr) : Parser (List Expr × List Expr) :=
  match fuel with
  | 0 => exhausted
  | fuel + 1 => do
    if !target.isTarget then Parser.fault "syntax error"
    match ctx.constant? target with
    | some n => Parser.misuse ("attempt to assign to const variable '" ++ n ++ "'")
    | none =>
      if ← Parser.accept "," then
        let next ← suffixed fuel ctx
        let (targets, values) ← assignment fuel (← ctx.enter) next
        return (target :: targets, values)
      else
        Parser.expect "="
        let values ← expressions fuel ctx
        return ([target], settleLast (← Parser.lastLine) values)

end

/-! ## Whole programs -/

/-- The context of a program: nothing is declared but the table of globals. -/
def Context.start : Context := ⟨[⟨environmentName, 0, false⟩], 1, true, false, 0⟩

/-- Enough fuel for any text: each call reads a token, or goes one level deeper. -/
def fuelFor (tokens : List Lexeme) : Nat := 16 * (tokens.length + maxLevel)

/-- The program of a text, as the body of a function without parameters. -/
def parseProgram (cs : List Char) : Except SyntaxFault FunctionBody :=
  let tokens := lex 1 cs
  let program : Parser (List Statement) := do
    let body ← block (fuelFor tokens) Context.start
    match (← Parser.current).token with
    | .eof => return body
    | _ => Parser.fault "<eof> expected"
  match program.run ⟨tokens, 1⟩ with
  | .ok (body, _) => .ok ⟨0, true, body⟩
  | .error e => .error e

end EnvManifest.Script
