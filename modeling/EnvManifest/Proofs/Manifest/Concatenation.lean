import EnvManifest.Proofs.Manifest.Acceptance
import EnvManifest.Proofs.Manifest.Appending

/-!
# Manifests one after another

Two manifest texts, the second one in a new line, are a manifest text: the namespaces of the first,
then those of the second, which have moved by the length of the first.
-/

namespace EnvManifest

open Text

/-! ## Places that move -/

def Token.shift (n : Nat) (t : Token) : Token := ⟨t.kind, t.span.shift n⟩

def Parameter.shift (n : Nat) (p : Parameter) : Parameter := ⟨p.value, p.span.shift n⟩

def Composite.shift (n : Nat) (c : Composite) : Composite :=
  ⟨c.ident, c.arguments.map (·.shift n), c.span.shift n⟩

def Statement.shift (n : Nat) (s : Statement) : Statement :=
  ⟨s.ident, s.operator, ⟨s.expression.source, s.expression.offset + n⟩, s.span.shift n⟩

def Namespace.shift (n : Nat) (m : Namespace) : Namespace :=
  ⟨m.ident, m.composites.map (·.shift n), m.parameters.map (·.shift n),
    m.statements.map (·.shift n), m.origin, m.span.shift n⟩

theorem Span.shift_shift (m n : Nat) (s : Span) : (s.shift m).shift n = s.shift (m + n) := by
  unfold shift
  rw [Nat.add_assoc, Nat.add_assoc]

theorem Composite.shift_shift (m n : Nat) (c : Composite) :
    (c.shift m).shift n = c.shift (m + n) := by
  unfold shift
  rw [List.map_map, Span.shift_shift]
  congr 2
  funext p
  exact congrArg (Parameter.mk p.value) (p.span.shift_shift m n)

theorem Statement.shift_shift (m n : Nat) (s : Statement) :
    (s.shift m).shift n = s.shift (m + n) := by
  unfold shift
  rw [Span.shift_shift, Nat.add_assoc]

theorem Namespace.shift_shift (m n : Nat) (x : Namespace) :
    (x.shift m).shift n = x.shift (m + n) := by
  unfold shift
  rw [List.map_map, List.map_map, List.map_map, Span.shift_shift]
  congr 2
  · funext c
    exact c.shift_shift m n
  · funext p
    exact congrArg (Parameter.mk p.value) (p.span.shift_shift m n)
  · funext s
    exact s.shift_shift m n

theorem Namespace.shift_zero (x : Namespace) : x.shift 0 = x := by
  have hcomposites : (·.shift 0) = @id Composite := by
    funext c
    exact congrArg (Composite.mk c.ident · c.span) (List.map_id c.arguments)
  unfold shift
  rw [hcomposites, List.map_id]
  exact congrArg₂ (Namespace.mk x.ident x.composites · · x.origin x.span)
    (List.map_id x.parameters) (List.map_id x.statements)

/-! ## Derivations that move -/

namespace Grammar

variable (n : Nat)

def Mark.shift {kind : TokenKind} (m : Mark kind) : Mark kind := ⟨m.span.shift n⟩

def Name.shift (m : Name) : Name := ⟨m.text, m.span.shift n⟩

def Series.shift {α : Type} (f : α → α) : Series α → Series α
  | empty => empty
  | items first more trailing =>
    items (f first) (more.map fun (comma, x) => (comma.shift n, f x)) (trailing.map (·.shift n))

def Enclosed.shift {opening closing : TokenKind} {α : Type} (f : α → α)
    (e : Enclosed opening closing α) : Enclosed opening closing α :=
  ⟨e.left.shift n, e.series.shift n f, e.right.shift n⟩

def Value.shift : Value → Value
  | str value span => str value (span.shift n)
  | number text value valid span => number text value valid (span.shift n)
  | word text span => word text (span.shift n)

def Arguments.shift (a : Arguments) : Arguments := Enclosed.shift n (Value.shift n) a

def Reference.shift (r : Reference) : Reference := ⟨r.name.shift n, r.arguments.map (Arguments.shift n)⟩

def References.shift (r : References) : References := Enclosed.shift n (Reference.shift n) r

def Binding.shift (b : Binding) : Binding :=
  ⟨b.name.shift n, b.isVariable, b.sign.shift n, b.source, b.isFilled, b.span.shift n⟩

def Next.shift (m : Next) : Next := ⟨m.semi.shift n, m.more.map (·.shift n), m.binding.shift n⟩

def Bindings.shift (b : Bindings) : Bindings := ⟨b.first.shift n, b.more.map (·.shift n)⟩

def Inside.shift (i : Inside) : Inside :=
  ⟨i.leading.map (·.shift n), i.bindings.map (·.shift n), i.trailing.map (·.shift n),
    i.right.shift n, fun h => by rw [i.settled (Option.map_eq_none_iff.mp h), List.map_nil]⟩

def Body.shift (b : Body) : Body := ⟨b.left.shift n, b.inside.shift n⟩

def Definition.shift (d : Definition) : Definition :=
  ⟨d.name.shift n, d.references.map (References.shift n), d.arguments.map (Arguments.shift n),
    d.body.map (·.shift n)⟩

/-! ## Their tokens -/

theorem optional_shift {α : Type} {yield : α → List Token} {f : α → α}
    (hf : ∀ x, yield (f x) = (yield x).map (·.shift n)) (o : Option α) :
    (o.map f).elim [] yield = (o.elim [] yield).map (·.shift n) := by
  cases o with
  | none => rfl
  | some x => exact hf x

theorem Enclosed.tokens_shift {opening closing : TokenKind} {α : Type} {yield : α → List Token}
    {f : α → α} (hf : ∀ x, yield (f x) = (yield x).map (·.shift n))
    (e : Enclosed opening closing α) :
    (e.shift n f).tokens yield = (e.tokens yield).map (·.shift n) := by
  obtain ⟨left, series, right⟩ := e
  cases series with
  | empty => rfl
  | items first more trailing =>
    simp only [shift, Series.shift, tokens, Series.tokens, Series.tail, List.map_cons,
      List.map_append, List.flatMap_map, List.map_flatMap, hf, Option.toList_map, List.map_map,
      List.map_nil]
    rfl

theorem Arguments.tokens_shift (a : Arguments) : (a.shift n).tokens = a.tokens.map (·.shift n) :=
  Enclosed.tokens_shift n (fun v => by cases v <;> rfl) a

theorem Reference.tokens_shift (r : Reference) : (r.shift n).tokens = r.tokens.map (·.shift n) := by
  unfold tokens shift
  rw [optional_shift n (Arguments.tokens_shift n)]
  rfl

theorem References.tokens_shift (r : References) : (r.shift n).tokens = r.tokens.map (·.shift n) :=
  Enclosed.tokens_shift n (Reference.tokens_shift n) r

theorem semis_shift (ms : List (Mark .semi)) :
    semis (ms.map (·.shift n)) = (semis ms).map (·.shift n) := by
  unfold semis
  rw [List.map_map, List.map_map]
  rfl

theorem Next.tokens_shift (m : Next) : (m.shift n).tokens = m.tokens.map (·.shift n) := by
  simp only [tokens, shift, semis_shift, List.map_cons, List.map_append]
  rfl

theorem Bindings.tokens_shift (b : Bindings) : (b.shift n).tokens = b.tokens.map (·.shift n) := by
  simp only [tokens, shift, List.flatMap_map, Next.tokens_shift, List.map_append, List.map_flatMap]
  rfl

theorem Body.tokens_shift (b : Body) : (b.shift n).tokens = b.tokens.map (·.shift n) := by
  obtain ⟨left, leading, bindings, trailing, right, settled⟩ := b
  simp only [tokens, shift, Inside.tokens, Inside.shift, semis_shift,
    optional_shift n (Bindings.tokens_shift n), List.map_cons, List.map_append, List.map_nil]
  rfl

theorem Definition.tokens_shift (d : Definition) : (d.shift n).tokens = d.tokens.map (·.shift n) := by
  simp only [tokens, shift, optional_shift n (References.tokens_shift n),
    optional_shift n (Arguments.tokens_shift n), optional_shift n (Body.tokens_shift n),
    List.map_cons, List.map_append]
  rfl

/-! ## What they stand for -/

theorem Series.values_shift {α : Type} (f : α → α) (s : Series α) :
    (s.shift n f).values = s.values.map f := by
  cases s with
  | empty => rfl
  | items first more trailing => simp [shift, values]

theorem Arguments.parameters_shift (a : Arguments) :
    (a.shift n).parameters = a.parameters.map (·.shift n) := by
  unfold parameters shift Enclosed.shift
  rw [Series.values_shift, List.map_map, List.map_map]
  refine List.map_congr_left fun v _ => ?_
  cases v <;> rfl

theorem Reference.composite_shift (r : Reference) :
    (r.shift n).composite = r.composite.shift n := by
  obtain ⟨name, arguments⟩ := r
  cases arguments with
  | none => rfl
  | some a =>
    simp only [composite, shift, Option.map_some, Option.elim_some, Arguments.parameters_shift]
    rfl

theorem References.composites_shift (r : References) :
    (r.shift n).composites = r.composites.map (·.shift n) := by
  unfold composites shift Enclosed.shift
  rw [Series.values_shift, List.map_map, List.map_map]
  exact List.map_congr_left fun r _ => r.composite_shift n

theorem Inside.statements_shift (i : Inside) :
    (i.shift n).statements = i.statements.map (·.shift n) := by
  obtain ⟨leading, bindings, trailing, right, settled⟩ := i
  cases bindings with
  | none => rfl
  | some b =>
    simp only [statements, shift, Option.map_some, Option.elim_some, Bindings.statements,
      Bindings.shift, List.map_cons, List.map_map]
    rfl

theorem Definition.toNamespace_shift (origin : Nat) (d : Definition) :
    (d.shift n).toNamespace origin = (d.toNamespace origin).shift n := by
  obtain ⟨name, references, arguments, body⟩ := d
  cases references <;> cases arguments <;> cases body <;>
    simp only [toNamespace, shift, Option.map_some, Option.map_none, Option.elim_some, Option.elim_none,
      Namespace.shift, References.composites_shift, Arguments.parameters_shift, Body.shift,
      Inside.statements_shift] <;> rfl

/-- A definition does not end with an assignment. -/
theorem Definition.last_closed (d : Definition) :
    ∀ t ∈ d.tokens.getLast?, t.kind.isOpen = false := by
  obtain ⟨name, references, arguments, body⟩ := d
  cases body <;> cases arguments <;> cases references <;>
    simp [tokens, Body.tokens, Inside.tokens, Arguments.tokens, References.tokens, Enclosed.tokens,
      Name.token, List.getLast?_append, List.getLast?_cons, TokenKind.isOpen]

theorem closed_definitions (ds : List Definition) :
    Closed ((ds.flatMap (·.tokens)).map (·.kind)) := by
  intro k hk
  rw [List.getLast?_map, Option.mem_map] at hk
  obtain ⟨t, ht, rfl⟩ := hk
  rcases ds.eq_nil_or_concat with rfl | ⟨front, d, rfl⟩
  · cases ht
  · rw [List.concat_eq_append, List.flatMap_append, List.flatMap_singleton,
      List.getLast?_append_of_ne_nil _ (by simp [Definition.tokens])] at ht
    exact d.last_closed t ht

end Grammar

/-! ## Tokens of texts -/

theorem place_ne_nil (pos : Nat) (ls : List Lexeme) : Lexeme.place pos ls ≠ [] := by
  induction ls generalizing pos with
  | nil => exact List.cons_ne_nil _ _
  | cons l ls ih =>
    obtain ⟨_ | kind, text⟩ := l
    · exact ih _
    · exact List.cons_ne_nil _ _

theorem place_append (pos : Nat) (ls more : List Lexeme) :
    Lexeme.place pos (ls ++ more) =
      (Lexeme.place pos ls).dropLast ++ Lexeme.place (pos + byteLength (Lexeme.source ls)) more := by
  induction ls generalizing pos with
  | nil => rfl
  | cons l ls ih =>
    have hsource : byteLength (Lexeme.source (l :: ls)) =
        byteLength l.text + byteLength (Lexeme.source ls) := by
      unfold Lexeme.source
      rw [List.flatMap_cons, byteLength_append]
    rw [hsource, ← Nat.add_assoc]
    obtain ⟨_ | kind, text⟩ := l
    · exact ih _
    · rw [List.cons_append, Lexeme.place, Lexeme.place, ih,
        List.dropLast_cons_of_ne_nil (place_ne_nil _ ls)]
      rfl

theorem place_shift (n pos : Nat) (ls : List Lexeme) :
    Lexeme.place (pos + n) ls = (Lexeme.place pos ls).map (·.shift n) := by
  induction ls generalizing pos with
  | nil => rfl
  | cons l ls ih =>
    have hstop : pos + n + byteLength l.text = pos + byteLength l.text + n := by omega
    rw [Lexeme.place, Lexeme.place, hstop]
    obtain ⟨_ | kind, text⟩ := l
    · exact ih _
    · rw [ih]
      rfl

theorem place_kinds (pos : Nat) (ls : List Lexeme) :
    (Lexeme.place pos ls).map (·.kind) = Lexeme.kinds ls ++ [.eof] := by
  induction ls generalizing pos with
  | nil => rfl
  | cons l ls ih =>
    obtain ⟨_ | kind, text⟩ := l
    · exact ih _
    · exact congrArg (kind :: ·) (ih _)

/-! ## Two texts -/

open Grammar

/-- Two derivations in one, the second of them moved. -/
def Grammar.Derivation.append (d e : Derivation) (n : Nat) : Derivation :=
  ⟨d.definitions ++ e.definitions.map (·.shift n), e.ending.shift n⟩

theorem Grammar.Derivation.tokens_append (d e : Derivation) (n : Nat) :
    (d.append e n).tokens = d.tokens.dropLast ++ e.tokens.map (·.shift n) := by
  simp only [append, tokens, List.flatMap_append, List.flatMap_map, Definition.tokens_shift,
    List.map_append, List.map_flatMap, List.dropLast_concat, List.append_assoc]
  rfl

theorem Grammar.Derivation.ast_append (d e : Derivation) (n origin : Nat) :
    ((d.append e n).ast origin).namespaces =
      (d.ast origin).namespaces ++ (e.ast origin).namespaces.map (·.shift n) := by
  simp only [append, ast, List.map_append, List.map_map]
  congr 1
  exact List.map_congr_left fun d _ => d.toNamespace_shift n origin

/-- The text of two texts, the second in a new line. -/
def twoLines (text more : String) : String := text ++ "\n" ++ more

theorem closed_of_place {d : Derivation} {ls : List Lexeme} (h : Lexeme.place 0 ls = d.tokens) :
    Closed (Lexeme.kinds ls) := by
  have hkinds := place_kinds 0 ls
  rw [h, Derivation.tokens, List.map_append] at hkinds
  rw [← (List.append_inj' hkinds rfl).1]
  exact closed_definitions d.definitions

theorem lex_twoLines {text more : String} {d e : Derivation} (hd : lex text = .ok d.tokens)
    (he : lex more = .ok e.tokens) :
    lex (twoLines text more) = .ok (d.append e (byteLength text.toList + 1)).tokens := by
  obtain ⟨ls, hls, hplace⟩ := map_ok hd
  obtain ⟨ms, hms, hplace'⟩ := map_ok he
  have pieces := pieces_of_lexemes hls
  have line : Pieces ('\n' :: more.toList) (⟨none, ['\n']⟩ :: ms) :=
    show Pieces ('\n' :: ([] ++ more.toList)) _ from
      .plain (by decide) (fun _ => rfl) (pieces_of_lexemes hms)
  have hall := (pieces.append (closed_of_place hplace) (breaks_cons _) line).lexemes 0
  have htext : (twoLines text more).toList = text.toList ++ '\n' :: more.toList := by
    simp [twoLines]
  have hlast : Lexeme.place (byteLength text.toList) (⟨none, ['\n']⟩ :: ms) =
      (Lexeme.place 0 ms).map (·.shift (byteLength text.toList + 1)) := by
    rw [← place_shift, Nat.zero_add]
    rfl
  unfold lex
  rw [htext, hall, Derivation.tokens_append, ← hplace, ← hplace', ← hlast]
  refine congrArg Except.ok ?_
  rw [place_append, pieces.source, Nat.zero_add]

theorem parseOrigin_ok {origin : Nat} {name text : String} {ast : Ast} :
    parseOrigin origin name text = .ok ast ↔
      ∃ d : Derivation, lex text = .ok d.tokens ∧ d.ast origin = ast := by
  constructor
  · intro h
    cases htokens : lex text with
    | error e =>
      rw [parseOrigin, parseSource, htokens] at h
      cases h
    | ok tokens =>
      obtain ⟨d, rfl, hast⟩ := (parseOrigin_derives htokens origin name ast).mp h
      exact ⟨d, rfl, hast⟩
  · rintro ⟨d, htokens, hast⟩
    exact (parseOrigin_derives htokens origin name ast).mpr ⟨d, rfl, hast⟩

/-- **Two manifest texts are one.** -/
theorem parse_twoLines {text more : String} {a b : Ast} (ha : parse text = .ok a)
    (hb : parse more = .ok b) :
    ∃ c, parse (twoLines text more) = .ok c ∧
      c.namespaces = a.namespaces ++ b.namespaces.map (·.shift (byteLength text.toList + 1)) := by
  obtain ⟨d, hd, rfl⟩ := parseOrigin_ok.mp ha
  obtain ⟨e, he, rfl⟩ := parseOrigin_ok.mp hb
  exact ⟨_, parseOrigin_ok.mpr ⟨_, lex_twoLines hd he, rfl⟩, d.ast_append e _ 0⟩

end EnvManifest
