import EnvManifest.Manifest.Ast
import EnvManifest.Manifest.Error
import EnvManifest.Decimal.Read
import EnvManifest.Word

/-!
# From tokens to a manifest

A parser takes the first tokens of a list and gives back what they say with the tokens that follow.
What follows is shorter, so that repetition ends.
-/

namespace EnvManifest

open Text

/-- The result of a parser on some tokens: a value, the byte offset where it ends, and the tokens
after it. -/
structure Parsed (tokens : List Token) (α : Type) where
  value : α
  stop : Nat
  rest : List Token
  shorter : rest.length < tokens.length

/-- The first token. A list without tokens stands for the end of a manifest. -/
def current : List Token → Token
  | t :: _ => t
  | [] => ⟨.eof, ⟨0, 0⟩⟩

/-- Another token was expected. -/
def unexpected (expected : Expected) (tokens : List Token) : Misparse :=
  ⟨.unexpected expected (current tokens).kind, (current tokens).span.start⟩

/-! ## Values -/

/-- The whole number of hexadecimal digits, if it fits 64 bits with a sign. -/
def hexNumber? (negative : Bool) (digits : List Char) : Option ParamValue :=
  let n := ofHex digits
  if digits.isEmpty || !digits.all isHexDigit || Word.half ≤ n then none
  else some (.int (Int64.ofInt (if negative then -(n : Int) else n)))

/-- A whole number with an optional minus, if it fits 64 bits. -/
def int64? (cs : List Char) : Option Int64 :=
  let (negative, ds) := Decimal.splitSign cs
  if ds.isEmpty || !ds.all isDigit then none
  else Word.int64? (if negative then -(ofDecimal ds : Int) else ofDecimal ds)

/-- A number: hexadecimal, or a whole number that fits 64 bits, or else a float. -/
def parseNumber (text : String) : Option ParamValue :=
  let (negative, digits) := Decimal.splitSign text.toList
  match digits with
  | '0' :: 'x' :: hex => hexNumber? negative hex
  | _ =>
    let unsigned := text.toList.dropWhile (· == '+')
    let fractional := digits.any fun c => c == '.' || c == 'e' || c == 'E'
    match if fractional then none else int64? unsigned with
    | some n => some (.int n)
    | none => (Decimal.float? unsigned).map .float

/-- A word: a truth value, or a word that stands for itself. -/
def wordValue : String → ParamValue
  | "true" => .bool true
  | "false" => .bool false
  | word => .word word

def parseValue (t : Token) : Except Misparse ParamValue :=
  match t.kind with
  | .str value => .ok (.str value)
  | .number text =>
    match parseNumber text with
    | some value => .ok value
    | none => .error ⟨.invalidNumber, t.span.start⟩
  | .ident word => .ok (wordValue word)
  | kind => .error ⟨.unexpected .parameterValue kind, t.span.start⟩

/-- The values up to a closing parenthesis, with commas between them and perhaps after the last. -/
def parseValues (tokens : List Token) : Except Misparse (Parsed tokens (List Parameter)) :=
  match tokens with
  | [] => .error (unexpected .parameterValue [])
  | t :: rest =>
    if t.kind = .rparen then .ok ⟨[], t.span.stop, rest, by simp⟩
    else
      match parseValue t with
      | .error e => .error e
      | .ok value =>
        match rest with
        | [] => .error (unexpected .commaOrParen [])
        | s :: more =>
          let next := if s.kind = .comma then more else s :: more
          if s.kind = .comma ∨ s.kind = .rparen then
            match parseValues next with
            | .error e => .error e
            | .ok p =>
              .ok ⟨⟨value, t.span⟩ :: p.value, p.stop, p.rest, by
                have := p.shorter
                simp only [next] at this
                split at this <;> simp only [List.length_cons] at this ⊢ <;> omega⟩
          else .error (unexpected .commaOrParen (s :: more))
termination_by tokens.length
decreasing_by split <;> simp only [List.length_cons] <;> omega

/-! ## Sections -/

/-- Optional arguments of a reference that ends at a byte offset. -/
def parseArguments (stop : Nat) (tokens : List Token) :
    Except Misparse (List Parameter × Nat × { rest : List Token // rest.length ≤ tokens.length }) :=
  match tokens with
  | [] => .ok ([], stop, ⟨[], by simp⟩)
  | t :: rest =>
    if t.kind = .lparen then
      match parseValues rest with
      | .error e => .error e
      | .ok p => .ok (p.value, p.stop, ⟨p.rest, by have := p.shorter; simp only [List.length_cons]; omega⟩)
    else .ok ([], stop, ⟨t :: rest, by simp⟩)

/-- The references up to a closing angle. -/
def parseComposites (tokens : List Token) : Except Misparse (Parsed tokens (List Composite)) :=
  match tokens with
  | [] => .error (unexpected .compositeName [])
  | t :: rest =>
    match t.kind with
    | .rangle => .ok ⟨[], t.span.stop, rest, by simp⟩
    | .ident ident =>
      match parseArguments t.span.stop rest with
      | .error e => .error e
      | .ok (arguments, stop, ⟨after, shorter⟩) =>
        let composite : Composite := ⟨ident, arguments, ⟨t.span.start, stop⟩⟩
        match after with
        | [] => .error (unexpected .commaOrAngle [])
        | s :: more =>
          let next := if s.kind = .comma then more else s :: more
          if s.kind = .comma ∨ s.kind = .rangle then
            match parseComposites next with
            | .error e => .error e
            | .ok p =>
              .ok ⟨composite :: p.value, p.stop, p.rest, by
                have := p.shorter
                simp only [next] at this
                simp only [List.length_cons] at shorter
                split at this <;> simp only [List.length_cons] at this ⊢ <;> omega⟩
          else .error (unexpected .commaOrAngle (s :: more))
    | _ => .error (unexpected .compositeName (t :: rest))
termination_by tokens.length
decreasing_by
  simp only [List.length_cons] at shorter
  split <;> simp only [List.length_cons] <;> omega

/-- Letters, digits and `_`, not a digit first: a name that expressions can use. -/
def isVariableName (name : List Char) : Bool :=
  name.head?.any isIdentStart && name.all fun c => isAlphanumeric c || c == '_'

/-- One statement: a variable, `=` and an expression that is not empty. -/
def parseStatement (tokens : List Token) : Except Misparse (Parsed tokens Statement) :=
  match tokens with
  | [] => .error (unexpected .variableName [])
  | t :: rest =>
    match t.kind with
    | .ident ident =>
      if isVariableName ident.toList then
        match rest with
        | [] => .error (unexpected .assign [])
        | a :: rest =>
          if a.kind = .assign then
            match rest with
            | [] => .error (unexpected .expression [])
            | e :: rest =>
              match e.kind with
              | .expr text =>
                if text.isEmpty then .error ⟨.emptyExpression ident, e.span.start⟩
                else
                  .ok ⟨⟨ident, "=", ⟨text, e.span.start⟩, ⟨t.span.start, e.span.stop⟩⟩,
                    e.span.stop, rest, by simp only [List.length_cons]; omega⟩
              | _ => .error (unexpected .expression (e :: rest))
          else .error (unexpected .assign (a :: rest))
      else .error ⟨.invalidVariable ident, t.span.start⟩
    | _ => .error (unexpected .variableName (t :: rest))

/-- The statements up to a closing brace. A `;` may stand before and after each of them. -/
def parseStatements (tokens : List Token) : Except Misparse (Parsed tokens (List Statement)) :=
  match tokens with
  | [] => .error (unexpected .variableName [])
  | t :: rest =>
    if t.kind = .semi then
      match parseStatements rest with
      | .error e => .error e
      | .ok p =>
        .ok ⟨p.value, p.stop, p.rest, by
          have := p.shorter; simp only [List.length_cons]; omega⟩
    else if t.kind = .rbrace then .ok ⟨[], t.span.stop, rest, by simp⟩
    else
      match parseStatement (t :: rest) with
      | .error e => .error e
      | .ok s =>
        if (current s.rest).kind = .semi ∨ (current s.rest).kind = .rbrace then
          match parseStatements s.rest with
          | .error e => .error e
          | .ok p =>
            .ok ⟨s.value :: p.value, p.stop, p.rest, by
              have := p.shorter; have := s.shorter; omega⟩
        else .error (unexpected .semiOrBrace s.rest)
termination_by tokens.length
decreasing_by
  · simp only [List.length_cons]; omega
  · exact s.shorter

/-! ## Namespaces -/

/-- The section that a token opens. -/
def opens? : TokenKind → Option Section
  | .langle => some .composites
  | .lparen => some .parameters
  | .lbrace => some .statements
  | _ => none

/-- Sections stand in order, each at most once. -/
def sectionFault? (last : Option Section) (s : Section) : Option ParseFault :=
  match last with
  | none => none
  | some previous =>
    if previous = s then some (.duplicateSection s)
    else if s.index < previous.index then some (.misplacedSection s previous)
    else none

/-- The content of a section, put into a namespace. -/
def parseSection (s : Section) (n : Namespace) (tokens : List Token) :
    Except Misparse (Parsed tokens Namespace) :=
  match s with
  | .composites =>
    match parseComposites tokens with
    | .error e => .error e
    | .ok p => .ok ⟨{ n with composites := p.value }, p.stop, p.rest, p.shorter⟩
  | .parameters =>
    match parseValues tokens with
    | .error e => .error e
    | .ok p => .ok ⟨{ n with parameters := p.value }, p.stop, p.rest, p.shorter⟩
  | .statements =>
    match parseStatements tokens with
    | .error e => .error e
    | .ok p => .ok ⟨{ n with statements := p.value }, p.stop, p.rest, p.shorter⟩

/-- The sections of a namespace after its name. The namespace ends where its last section does. -/
def parseSections (last : Option Section) (n : Namespace) (tokens : List Token) :
    Except Misparse (Namespace × { rest : List Token // rest.length ≤ tokens.length }) :=
  match tokens with
  | [] => .ok (n, ⟨[], by simp⟩)
  | t :: rest =>
    if t.kind = .lbracket then .error ⟨.reservedSection, t.span.start⟩
    else
      match opens? t.kind with
      | none => .ok (n, ⟨t :: rest, by simp⟩)
      | some s =>
        match sectionFault? last s with
        | some fault => .error ⟨fault, t.span.start⟩
        | none =>
          match parseSection s n rest with
          | .error e => .error e
          | .ok p =>
            let m := { p.value with span := ⟨n.span.start, p.stop⟩ }
            match parseSections (some s) m p.rest with
            | .error e => .error e
            | .ok (m, ⟨after, shorter⟩) =>
              .ok (m, ⟨after, by have := p.shorter; simp only [List.length_cons]; omega⟩)
termination_by tokens.length
decreasing_by have := p.shorter; simp only [List.length_cons]; omega

/-- The namespaces up to the end of the manifest. -/
def parseNamespaces (origin : Nat) (tokens : List Token) : Except Misparse (List Namespace) :=
  match tokens with
  | [] => .ok []
  | t :: rest =>
    match t.kind with
    | .eof => .ok []
    | .lbracket => .error ⟨.reservedStart, t.span.start⟩
    | .ident ident =>
      let start : Namespace := ⟨ident, [], [], [], origin, t.span⟩
      match parseSections none start rest with
      | .error e => .error e
      | .ok (n, ⟨after, _⟩) =>
        match parseNamespaces origin after with
        | .error e => .error e
        | .ok ns => .ok (n :: ns)
    | _ => .error (unexpected .namespaceName (t :: rest))
termination_by tokens.length
decreasing_by simp only [List.length_cons]; omega

/-- The manifest of a text, or its first fault. -/
def parseSource (origin : Nat) (source : String) : Except Misparse Ast :=
  match lex source with
  | .error e => .error ⟨.lex e.fault, e.span.start⟩
  | .ok tokens => (parseNamespaces origin tokens).map Ast.mk

/-- The manifest of a named text. -/
def parseOrigin (origin : Nat) (name source : String) : Except ParseError Ast :=
  (parseSource origin source).mapError fun e => ⟨e.fault, e.offset, name, source⟩

def parseNamed (name source : String) : Except ParseError Ast := parseOrigin 0 name source

/-- The name of a manifest that has none. -/
def anonymous : String := "<input>"

def parse (source : String) : Except ParseError Ast := parseNamed anonymous source

end EnvManifest
