import EnvManifest.Literal
import EnvManifest.Patch.Hint
import EnvManifest.Patch.Token

/-!
# Rewriting an expression for a parameter

Before an expression runs, the parameter's name in it becomes a literal with the parameter's type,
and paths to known values become those values. Strings and comments stay as they are, and so do
names that the expression declares itself.
-/

namespace EnvManifest

open Patch

/-- The rewriting for one parameter: the name, and the literal in its place if the parameter's text
is one. -/
structure Patch where
  ident : String
  literal : Option Literal

namespace Patch

def ofParameter (ident : String) (text : Option String) : Patch :=
  ⟨ident, text.bind Literal.ofText?⟩

/-! ## Declared names -/

/-- The tokens of a list of names. A `for` and a `local` list end at `in`. -/
def nameRun (endsAtIn : Bool) (tokens : List Token) : List Token :=
  tokens.takeWhile fun t =>
    !(endsAtIn && t.text == ['i', 'n']) &&
      (t.kind == .name || t.text == [','] || t.text == ['<'] || t.text == ['>'])

/-- The names of a list. A name after `<` is an attribute. -/
def namesOf (run : List Token) : List (List Char) :=
  ((run.zip ([] :: run.map (·.text))).filter fun (t, previous) =>
    t.kind == .name && previous != ['<']).map (·.1.text)

/-- The name of a local function, after `local`. -/
def functionName? : List Token → Option (List (List Char))
  | f :: name :: _ =>
    if f.text = "function".toList then some (if name.kind = .name then [name.text] else []) else none
  | [f] => if f.text = "function".toList then some [] else none
  | [] => none

/-- The tokens after the next opening parenthesis. -/
def afterParen (tokens : List Token) : Option (List Token) :=
  match tokens.dropWhile (·.text != ['(']) with
  | [] => none
  | _ :: more => some more

theorem length_afterParen {tokens more : List Token} (h : afterParen tokens = some more) :
    more.length < tokens.length := by
  unfold afterParen at h
  have := (List.dropWhile_sublist (fun t : Token => t.text != ['(']) (l := tokens)).length_le
  split at h
  · simp at h
  · next e => rw [e] at this; simp at h this; subst h; omega

/-- The names that an expression declares anywhere: local names, local functions, loop variables
and function parameters. -/
def declared (tokens : List Token) : List (List Char) :=
  match tokens with
  | [] => []
  | t :: ts =>
    if t.text = "local".toList then
      match functionName? ts with
      | some names => names ++ declared ts
      | none =>
        let run := nameRun true ts
        namesOf run ++ declared (ts.drop run.length)
    else if t.text = "for".toList then
      let run := nameRun true ts
      namesOf run ++ declared (ts.drop run.length)
    else if t.text = "function".toList then
      match _h : afterParen ts with
      | none => []
      | some more =>
        let run := nameRun false more
        namesOf run ++ declared (more.drop run.length)
    else declared ts
termination_by tokens.length
decreasing_by
  all_goals simp only [List.length_cons, List.length_drop]
  all_goals try omega
  have := length_afterParen _h
  omega

/-! ## References -/

/-- Can a name after this text be a reference? -/
def allowsReference (previous : List Char) : Bool :=
  !([".", ":", "::", "local", "function", "goto"].contains (String.ofList previous))

/-- The longest dotted path from a name on that has a known value: how many tokens it has after
the name, and the value. -/
def longestPath (hints : List Hint) (path : String) (used : Nat) (found : Option (Nat × Value)) :
    List Token → Option (Nat × Value)
  | dot :: name :: more =>
    let found := ((Hint.value? hints path).map fun v => (used, v)).or found
    if dot.text = ['.'] ∧ name.kind = .name then
      longestPath hints (path ++ "." ++ String.ofList name.text) (used + 2) found more
    else found
  | _ => ((Hint.value? hints path).map fun v => (used, v)).or found

/-- Does the next token use the path as more than an operand? -/
def usesPath (next : Token) : Bool :=
  ["=", "(", ".", "[", ":", "\x7b"].contains (String.ofList next.text) || next.kind == .str

/-- The known value of the path that starts with a name: how many tokens the path has after the
name, and the value's text. -/
def fold? (hints : List Hint) (name : Token) (after : List Token) : Option (Nat × List Char) := do
  let (used, value) ← longestPath hints (String.ofList name.text) 0 none after
  if (after.drop used).head?.any usesPath then none
  else do some (used, ← value.source?)

/-! ## Rewriting -/

/-- A part of a rewritten expression: a token as it was, or a text in the place of tokens. -/
inductive Part where
  | kept (token : Token)
  | replaced (first : Token) (more : List Token) (text : List Char)

/-- What a part was. -/
def Part.before : Part → List Char
  | kept t => t.source
  | replaced t more _ => (t :: more).flatMap Token.source

/-- What a part is now. -/
def Part.after : Part → List Char
  | kept t => t.source
  | replaced t _ text => t.gap ++ text

/-- What surrounds an expression: known values, and names that hide them. -/
structure Surroundings where
  hints : List Hint
  shadowed : List String

/-- What stands in the place of a name: how many tokens after it go too, and the text. -/
def replacement? (p : Patch) (s : Surroundings) (locals : List (List Char)) (previous : List Char)
    (t : Token) (after : List Token) : Option (Nat × List Char) :=
  let name := String.ofList t.text
  if t.kind ≠ .name ∨ !allowsReference previous ∨ locals.contains t.text then none
  else if name = p.ident then
    if after.head?.any (·.text == ['=']) then none
    else p.literal.map fun l => (0, l.source)
  else if s.shadowed.contains name then none
  else fold? s.hints t after

/-- The parts of a rewritten expression. -/
def parts (p : Patch) (s : Surroundings) (locals : List (List Char)) (previous : List Char)
    (tokens : List Token) : List Part :=
  match tokens with
  | [] => []
  | t :: ts =>
    match replacement? p s locals previous t ts with
    | none => .kept t :: parts p s locals t.text ts
    | some (n, text) =>
      let gone := ts.take n
      .replaced t gone text :: parts p s locals ((gone.getLast?.getD t).text) (ts.drop n)
termination_by tokens.length
decreasing_by all_goals (simp only [List.length_cons, List.length_drop]; omega)

/-- The expression for a parameter. -/
def apply (p : Patch) (s : Surroundings) (source : String) : String :=
  let (tokens, last) := tokenize source.toList
  String.ofList ((parts p s (declared tokens) [] tokens).flatMap Part.after ++ last)

end Patch

end EnvManifest
