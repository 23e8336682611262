import EnvManifest.Script.Parser

/-!
# Expressions with their scopes

The grammar of the language, as productions. A phrase stands in a scope, the names that are declared
around it with the last one first, and each of its tokens has a role there: it declares a name, uses a variable, or names a
field, a label or an attribute.
-/

namespace EnvManifest.Script

open Text

/-! ## Tokens in their place -/

inductive Role where
  /-- The value of a variable is used. Is the variable a global one? -/
  | use (free : Bool)
  /-- A variable gets a value. -/
  | target
  | declared
  | field
  | label
  | attrib
  /-- A symbol, a keyword, a number or a string. -/
  | plain
deriving DecidableEq, Repr

structure Item where
  token : Token
  role : Role

namespace Item

def mark (text : String) : Item := ⟨.mark text, .plain⟩

/-- A variable is global where no name around it is the same. -/
def use (scope : List String) (n : String) : Item := ⟨.name n, .use (!scope.contains n)⟩

def target (n : String) : Item := ⟨.name n, .target⟩

def declared (n : String) : Item := ⟨.name n, .declared⟩

def field (n : String) : Item := ⟨.name n, .field⟩

def label (n : String) : Item := ⟨.name n, .label⟩

def attrib (n : String) : Item := ⟨.name n, .attrib⟩

end Item

/-- Things with commas between them. -/
def listed : List (List Item) → List Item
  | [] => []
  | [xs] => xs
  | xs :: ys :: more => xs ++ .mark "," :: listed (ys :: more)

theorem mem_listed {xss : List (List Item)} {x : Item} (h : x ∈ listed xss) :
    x = .mark "," ∨ ∃ xs ∈ xss, x ∈ xs := by
  fun_induction listed xss with
  | case1 => cases h
  | case2 xs => exact .inr ⟨xs, List.mem_singleton_self xs, h⟩
  | case3 xs ys more ih =>
    rw [List.mem_append, List.mem_cons] at h
    obtain h | rfl | h := h
    · exact .inr ⟨xs, List.mem_cons_self .., h⟩
    · exact .inl rfl
    · refine (ih h).imp_right fun ⟨zs, hz, hx⟩ => ⟨zs, List.mem_cons_of_mem _ hz, hx⟩

/-- A new local name, with its attribute. -/
def localName : String × Option String → List Item
  | (n, none) => [.declared n]
  | (n, some a) => [.declared n, .mark "<", .attrib a, .mark ">"]

def localNames (names : List (String × Option String)) : List Item := listed (names.map localName)

def loopNames (names : List String) : List Item := listed (names.map fun n => [.declared n])

/-- What is between the commas of the parameters of a function. -/
def parameterEntries (names : List String) (varargs : Bool) : List (List Item) :=
  names.map (fun n => [.declared n]) ++ if varargs then [[.mark "..."]] else []

/-- The parameters of a function, in parentheses. -/
def parameterList (names : List String) (varargs : Bool) : List Item :=
  .mark "(" :: listed (parameterEntries names varargs) ++ [.mark ")"]

theorem mem_localNames {names : List (String × Option String)} {x : Item}
    (h : x ∈ localNames names) :
    (∃ m ∈ [",", "<", ">"], x = .mark m) ∨ (∃ n, x = .declared n) ∨ ∃ a, x = .attrib a := by
  obtain rfl | ⟨xs, hxs, hx⟩ := mem_listed h
  · exact .inl ⟨",", by decide, rfl⟩
  · obtain ⟨⟨n, a⟩, -, rfl⟩ := List.mem_map.1 hxs
    cases a with
    | none => exact .inr (.inl ⟨n, List.mem_singleton.1 hx⟩)
    | some a =>
      simp only [localName, List.mem_cons, List.not_mem_nil, or_false] at hx
      obtain rfl | rfl | rfl | rfl := hx
      · exact .inr (.inl ⟨n, rfl⟩)
      · exact .inl ⟨"<", by decide, rfl⟩
      · exact .inr (.inr ⟨a, rfl⟩)
      · exact .inl ⟨">", by decide, rfl⟩

theorem mem_loopNames {names : List String} {x : Item} (h : x ∈ loopNames names) :
    x = .mark "," ∨ ∃ n, x = .declared n := by
  refine (mem_listed h).imp_right fun ⟨xs, hxs, hx⟩ => ?_
  obtain ⟨n, -, rfl⟩ := List.mem_map.1 hxs
  exact ⟨n, List.mem_singleton.1 hx⟩

theorem mem_parameterEntries {names : List String} {varargs : Bool} {xs : List Item}
    (h : xs ∈ parameterEntries names varargs) : (∃ n, xs = [.declared n]) ∨ xs = [.mark "..."] := by
  obtain h | h := List.mem_append.1 h
  · obtain ⟨n, -, rfl⟩ := List.mem_map.1 h
    exact .inl ⟨n, rfl⟩
  · split at h
    · exact .inr (List.mem_singleton.1 h)
    · cases h

theorem mem_parameterList {names : List String} {varargs : Bool} {x : Item}
    (h : x ∈ parameterList names varargs) :
    (∃ m ∈ ["(", ",", "...", ")"], x = .mark m) ∨ ∃ n, x = .declared n := by
  simp only [parameterList, List.mem_append, List.mem_cons, List.not_mem_nil, or_false] at h
  obtain (rfl | h) | rfl := h
  · exact .inl ⟨"(", by decide, rfl⟩
  · obtain rfl | ⟨xs, hxs, hx⟩ := mem_listed h
    · exact .inl ⟨",", by decide, rfl⟩
    · obtain ⟨n, rfl⟩ | rfl := mem_parameterEntries hxs
      · exact .inr ⟨n, List.mem_singleton.1 hx⟩
      · exact .inl ⟨"...", by decide, List.mem_singleton.1 hx⟩
  · exact .inl ⟨")", by decide, rfl⟩

/-- What a function is assigned to: a variable, or a field of what a variable holds. -/
def functionPath (scope : List String) (n : String) (fields : List String)
    (method : Option String) : List Item :=
  if fields = [] ∧ method = none then [.target n]
  else
    .use scope n :: (fields.flatMap fun f => [.mark ".", .field f]) ++
      method.elim [] fun m => [.mark ":", .field m]

/-! ## Productions -/

inductive Phrase where
  /-- A name or an expression in parentheses, with fields, indices and calls after it. -/
  | suffixed
  | call
  | arguments
  | expression
  | expressions
  /-- Expressions or nothing. -/
  | values
  | table
  /-- The fields of a table up to its end. -/
  | fields
  | field
  /-- A target of an assignment, with the rest of the assignment. -/
  | assignment
  | statement
  /-- The step of a counting loop, if it has one. -/
  | step
  /-- What comes after the statements of a condition. -/
  | branch
  /-- Statements up to the end of a block, or to the end of the test of a loop after them. -/
  | block (tested : Bool)
  | ending (tested : Bool)
  /-- What is given back. -/
  | given
deriving DecidableEq, Repr

/-- A part of a production: tokens, or a phrase in a scope. -/
inductive Segment where
  | items (xs : List Item)
  | phrase (p : Phrase) (scope : List String)

/-- Is the token an expression on its own? -/
def Token.isLiteral : Token → Bool
  | .int _ _ | .float _ _ | .str _ _ => true
  | .mark t => ["nil", "true", "false", "..."].contains t
  | _ => false

/-- What comes after a target of an assignment. -/
def afterTarget : List (String × Phrase) := [("=", .expressions), (",", .assignment)]

inductive Rule : Phrase → List String → List Segment → Prop
  | name (s : List String) (n : String) : Rule .suffixed s [.items [.use s n]]
  | group (s : List String) :
    Rule .suffixed s [.items [.mark "("], .phrase .expression s, .items [.mark ")"]]
  | member (s : List String) (n : String) :
    Rule .suffixed s [.phrase .suffixed s, .items [.mark ".", .field n]]
  | index (s : List String) :
    Rule .suffixed s
      [.phrase .suffixed s, .items [.mark "["], .phrase .expression s, .items [.mark "]"]]
  | called (s : List String) : Rule .suffixed s [.phrase .call s]
  | call (s : List String) : Rule .call s [.phrase .suffixed s, .phrase .arguments s]
  | method (s : List String) (n : String) :
    Rule .call s [.phrase .suffixed s, .items [.mark ":", .field n], .phrase .arguments s]
  | argumentList (s : List String) :
    Rule .arguments s [.items [.mark "("], .phrase .values s, .items [.mark ")"]]
  | argumentTable (s : List String) : Rule .arguments s [.phrase .table s]
  | argumentString (s : List String) (value shown : Bytes) :
    Rule .arguments s [.items [⟨.str value shown, .plain⟩]]
  | literal (s : List String) {t : Token} (h : t.isLiteral) :
    Rule .expression s [.items [⟨t, .plain⟩]]
  | lambda (s names : List String) (varargs : Bool) :
    Rule .expression s
      [.items (.mark "function" :: parameterList names varargs),
        .phrase (.block false) (names.reverse ++ s), .items [.mark "end"]]
  | construct (s : List String) : Rule .expression s [.phrase .table s]
  | operand (s : List String) : Rule .expression s [.phrase .suffixed s]
  | unary (s : List String) {t : Token} (h : (unary? t).isSome) :
    Rule .expression s [.items [⟨t, .plain⟩], .phrase .expression s]
  | binary (s : List String) {t : Token} (h : (infix? t).isSome) :
    Rule .expression s [.phrase .expression s, .items [⟨t, .plain⟩], .phrase .expression s]
  | one (s : List String) : Rule .expressions s [.phrase .expression s]
  | more (s : List String) :
    Rule .expressions s [.phrase .expression s, .items [.mark ","], .phrase .expressions s]
  | noValues (s : List String) : Rule .values s []
  | someValues (s : List String) : Rule .values s [.phrase .expressions s]
  | table (s : List String) : Rule .table s [.items [.mark "\x7b"], .phrase .fields s]
  | noFields (s : List String) : Rule .fields s [.items [.mark "\x7d"]]
  | lastField (s : List String) : Rule .fields s [.phrase .field s, .items [.mark "\x7d"]]
  | moreFields (s : List String) {m : String} (h : m = "," ∨ m = ";") :
    Rule .fields s [.phrase .field s, .items [.mark m], .phrase .fields s]
  | keyField (s : List String) :
    Rule .field s
      [.items [.mark "["], .phrase .expression s, .items [.mark "]", .mark "="],
        .phrase .expression s]
  | nameField (s : List String) (n : String) :
    Rule .field s [.items [.field n, .mark "="], .phrase .expression s]
  | itemField (s : List String) : Rule .field s [.phrase .expression s]
  | nameTarget (s : List String) (n : String) {m : String} {next : Phrase}
    (h : (m, next) ∈ afterTarget) :
    Rule .assignment s [.items [.target n, .mark m], .phrase next s]
  | memberTarget (s : List String) (n : String) {m : String} {next : Phrase}
    (h : (m, next) ∈ afterTarget) :
    Rule .assignment s
      [.phrase .suffixed s, .items [.mark ".", .field n, .mark m], .phrase next s]
  | indexTarget (s : List String) {m : String} {next : Phrase} (h : (m, next) ∈ afterTarget) :
    Rule .assignment s
      [.phrase .suffixed s, .items [.mark "["], .phrase .expression s,
        .items [.mark "]", .mark m], .phrase next s]
  | empty (s : List String) : Rule .statement s [.items [.mark ";"]]
  | assign (s : List String) : Rule .statement s [.phrase .assignment s]
  | run (s : List String) : Rule .statement s [.phrase .call s]
  | label (s : List String) (n : String) :
    Rule .statement s [.items [.mark "::", .label n, .mark "::"]]
  | leave (s : List String) : Rule .statement s [.items [.mark "break"]]
  | jump (s : List String) (n : String) : Rule .statement s [.items [.mark "goto", .label n]]
  | inner (s : List String) :
    Rule .statement s [.items [.mark "do"], .phrase (.block false) s, .items [.mark "end"]]
  | whileLoop (s : List String) :
    Rule .statement s
      [.items [.mark "while"], .phrase .expression s, .items [.mark "do"],
        .phrase (.block false) s, .items [.mark "end"]]
  | repeatLoop (s : List String) :
    Rule .statement s [.items [.mark "repeat"], .phrase (.block true) s]
  | condition (s : List String) :
    Rule .statement s
      [.items [.mark "if"], .phrase .expression s, .items [.mark "then"],
        .phrase (.block false) s, .phrase .branch s]
  | countLoop (s : List String) (n : String) :
    Rule .statement s
      [.items [.mark "for", .declared n, .mark "="], .phrase .expression s, .items [.mark ","],
        .phrase .expression s, .phrase .step s, .items [.mark "do"],
        .phrase (.block false) (n :: s), .items [.mark "end"]]
  | eachLoop (s : List String) {names : List String} (h : names ≠ []) :
    Rule .statement s
      [.items (.mark "for" :: loopNames names ++ [.mark "in"]), .phrase .expressions s,
        .items [.mark "do"], .phrase (.block false) (names.reverse ++ s), .items [.mark "end"]]
  | function (s : List String) (n : String) (fields : List String) (method : Option String)
    (names : List String) (varargs : Bool) :
    Rule .statement s
      [.items (.mark "function" :: functionPath s n fields method ++ parameterList names varargs),
        .phrase (.block false) ((method.elim names fun _ => "self" :: names).reverse ++ s),
        .items [.mark "end"]]
  | noStep (s : List String) : Rule .step s []
  | step (s : List String) : Rule .step s [.items [.mark ","], .phrase .expression s]
  | noBranch (s : List String) : Rule .branch s [.items [.mark "end"]]
  | lastBranch (s : List String) :
    Rule .branch s [.items [.mark "else"], .phrase (.block false) s, .items [.mark "end"]]
  | nextBranch (s : List String) :
    Rule .branch s
      [.items [.mark "elseif"], .phrase .expression s, .items [.mark "then"],
        .phrase (.block false) s, .phrase .branch s]
  | ended (s : List String) : Rule (.ending false) s []
  | tested (s : List String) : Rule (.ending true) s [.items [.mark "until"], .phrase .expression s]
  | blockEnd (s : List String) (b : Bool) : Rule (.block b) s [.phrase (.ending b) s]
  | give (s : List String) (b : Bool) :
    Rule (.block b) s [.items [.mark "return"], .phrase .given s, .phrase (.ending b) s]
  | next (s : List String) (b : Bool) :
    Rule (.block b) s [.phrase .statement s, .phrase (.block b) s]
  | bareLocals (s : List String) (b : Bool) {names : List (String × Option String)}
    (h : names ≠ []) :
    Rule (.block b) s
      [.items (.mark "local" :: localNames names),
        .phrase (.block b) ((names.map Prod.fst).reverse ++ s)]
  | locals (s : List String) (b : Bool) {names : List (String × Option String)} (h : names ≠ []) :
    Rule (.block b) s
      [.items (.mark "local" :: localNames names ++ [.mark "="]), .phrase .expressions s,
        .phrase (.block b) ((names.map Prod.fst).reverse ++ s)]
  | localFunction (s : List String) (b : Bool) (n : String) (names : List String)
    (varargs : Bool) :
    Rule (.block b) s
      [.items (.mark "local" :: .mark "function" :: .declared n :: parameterList names varargs),
        .phrase (.block false) (names.reverse ++ n :: s), .items [.mark "end"],
        .phrase (.block b) (n :: s)]
  | given (s : List String) : Rule .given s [.phrase .values s]
  | closed (s : List String) : Rule .given s [.phrase .values s, .items [.mark ";"]]

/-! ## Derivations -/

/-- The tokens that parts of productions stand for. -/
inductive Expands : List Segment → List Item → Prop
  | nil : Expands [] []
  | items (xs : List Item) {segments : List Segment} {ys : List Item} (h : Expands segments ys) :
    Expands (.items xs :: segments) (xs ++ ys)
  | phrase {p : Phrase} {scope : List String} {body segments : List Segment} {xs ys : List Item}
    (hr : Rule p scope body) (hx : Expands body xs) (h : Expands segments ys) :
    Expands (.phrase p scope :: segments) (xs ++ ys)

/-- An expression is what a program gives back. Only the table of globals is declared around it. -/
def IsExpression (xs : List Item) : Prop := Expands [.phrase .given [environmentName]] xs

theorem Expands.append {segments more : List Segment} {xs ys : List Item}
    (hx : Expands segments xs) (hy : Expands more ys) : Expands (segments ++ more) (xs ++ ys) := by
  induction hx with
  | nil => exact hy
  | items xs _ ih =>
    rw [List.cons_append, List.append_assoc]
    exact .items xs ih
  | phrase hr hx _ _ ih =>
    rw [List.cons_append, List.append_assoc]
    exact .phrase hr hx ih

theorem Expands.one {p : Phrase} {s : List String} {body : List Segment} {xs : List Item}
    (h : Expands body xs) (hr : Rule p s body) : Expands [.phrase p s] xs := by
  have hone := Expands.phrase hr h .nil
  rwa [List.append_nil] at hone

/-- What holds of the tokens in all productions, and of two texts one after the other, holds of all
that is derived. -/
theorem Expands.closed {P : List Item → Prop} (hnil : P [])
    (happend : ∀ {xs ys}, P xs → P ys → P (xs ++ ys))
    (hrules : ∀ {p s body}, Rule p s body → ∀ xs, .items xs ∈ body → P xs)
    {segments : List Segment} {xs : List Item} (h : Expands segments xs)
    (hs : ∀ ys, .items ys ∈ segments → P ys) : P xs := by
  induction h with
  | nil => exact hnil
  | items ys _ ih =>
    refine happend (hs ys (List.mem_cons_self ..)) (ih fun zs hz => ?_)
    exact hs zs (List.mem_cons_of_mem _ hz)
  | phrase hr _ _ ihx ih =>
    refine happend (ihx (hrules hr)) (ih fun zs hz => ?_)
    exact hs zs (List.mem_cons_of_mem _ hz)

end EnvManifest.Script
