import EnvManifest.Proofs.Manifest.Concatenation

/-!
# Places only go along

The parser copies places and never looks at them. So where the tokens of a manifest move, its parts
move with them, and a fault stays the same fault.
-/

namespace EnvManifest

open Grammar

/-! ## Places under a map -/

section

variable (f : Nat → Nat)

def Span.move (s : Span) : Span := ⟨f s.start, f s.stop⟩

def Token.move (t : Token) : Token := ⟨t.kind, t.span.move f⟩

def Parameter.move (p : Parameter) : Parameter := ⟨p.value, p.span.move f⟩

def Composite.move (c : Composite) : Composite :=
  ⟨c.ident, c.arguments.map (·.move f), c.span.move f⟩

def Statement.move (s : Statement) : Statement :=
  ⟨s.ident, s.operator, ⟨s.expression.source, f s.expression.offset⟩, s.span.move f⟩

def Namespace.move (n : Namespace) : Namespace :=
  ⟨n.ident, n.composites.map (·.move f), n.parameters.map (·.move f),
    n.statements.map (·.move f), n.origin, n.span.move f⟩

end

/-- The second result is the first one after a move, or both have the same fault. -/
inductive Moved {α β : Type} (g : α → β) : Except Misparse α → Except Misparse β → Prop
  | ok (a : α) : Moved g (.ok a) (.ok (g a))
  | error {e e' : Misparse} (same : e'.fault = e.fault) : Moved g (.error e) (.error e')

namespace Moved

variable {α β γ δ : Type} {g : α → β} {g' : γ → δ} {r : Except Misparse α} {r' : Except Misparse β}

theorem ok_right {b : β} (h : Moved g r (.ok b)) : ∃ a, r = .ok a ∧ g a = b := by
  cases h with
  | ok a => exact ⟨a, rfl, rfl⟩

theorem error_right {e' : Misparse} (h : Moved g r (.error e')) :
    ∃ e, r = .error e ∧ e'.fault = e.fault := by
  cases h with
  | error same => exact ⟨_, rfl, same⟩

theorem map (h : Moved g r r') {k : α → γ} {k' : β → δ} (hk : ∀ a, k' (g a) = g' (k a)) :
    Moved g' (r.map k) (r'.map k') := by
  cases h with
  | ok a =>
    rw [Except.map, Except.map, hk]
    exact .ok _
  | error same => exact .error same

theorem bind (h : Moved g r r') {k : α → Except Misparse γ} {k' : β → Except Misparse δ}
    (hk : ∀ a, r = .ok a → Moved g' (k a) (k' (g a))) : Moved g' (r.bind k) (r'.bind k') := by
  cases h with
  | ok a => exact hk a rfl
  | error same => exact .error same

end Moved

/-! ## Parsers -/

section

variable {f : Nat → Nat}

theorem current_move (tokens : List Token) :
    (current (tokens.map (·.move f))).kind = (current tokens).kind := by
  cases tokens <;> rfl

theorem unexpected_move (expected : Expected) (tokens : List Token) :
    (unexpected expected (tokens.map (·.move f))).fault = (unexpected expected tokens).fault := by
  rw [unexpected, unexpected, current_move]

/-- What a parser gives back, after a move. -/
def moveResult {α : Type} (f : Nat → Nat) (mv : α → α) (r : α × Nat × List Token) :
    α × Nat × List Token := (mv r.1, f r.2.1, r.2.2.map (·.move f))

section

variable {α β : Type} {closing : TokenKind} {yield : α → List Token} {value : α → β} {mv : β → β}
  {item : List Token → Except Misparse (β × List Token)} {fault : List Token → Misparse}
  {parser : List Token → Except Misparse (List β × Nat × List Token)}

theorem Grammar.SeriesParser.stops_moved (hp : SeriesParser closing fault item parser)
    (c : Mark closing) (rest : List Token) :
    Moved (moveResult f (List.map mv)) (parser (c.token :: rest))
      (parser ((c.token :: rest).map (·.move f))) := by
  have stopped : parser ((c.token :: rest).map (·.move f)) =
      .ok ([], f c.span.stop, rest.map (·.move f)) := hp.stops ⟨c.span.move f⟩ _
  rw [stopped, hp.stops]
  exact .ok ([], c.span.stop, rest)

theorem Grammar.SeriesParser.moved (hp : SeriesParser closing fault item parser)
    (hi : ItemParser closing yield value item)
    (faults : ∀ tokens, (fault (tokens.map (·.move f))).fault = (fault tokens).fault)
    (items : ∀ tokens, Moved (fun r => (mv r.1, r.2.map (·.move f))) (item tokens)
      (item (tokens.map (·.move f)))) (tokens : List Token) :
    Moved (moveResult f (List.map mv)) (parser tokens) (parser (tokens.map (·.move f))) := by
  induction hn : tokens.length using Nat.strongRecOn generalizing tokens with
  | ind n ih =>
  by_cases hc : (current tokens).kind = closing
  · obtain ⟨c, ts, rfl⟩ := current_kind hp.ne_eof hc
    exact hp.stops_moved c ts
  rw [hp.goes hc, hp.goes (by rwa [current_move])]
  refine (items tokens).bind ?_
  rintro ⟨b, after⟩ hb
  obtain ⟨x, rfl, rfl⟩ := hi.sound hb
  cases after with
  | nil => exact .error (faults [])
  | cons t rest =>
    rw [List.map_cons]
    by_cases goes : t.kind = .comma ∨ t.kind = closing
    · rw [afterItem_goes goes, afterItem_goes (show (t.move f).kind = .comma ∨ _ from goes)]
      by_cases comma : t.kind = .comma
      · rw [if_pos comma, if_pos (show (t.move f).kind = .comma from comma)]
        have later := ih rest.length (by rw [← hn, List.length_append, List.length_cons]; omega) rest rfl
        exact later.map fun _ => rfl
      · obtain ⟨c, rfl⟩ := Mark.of_kind (goes.resolve_left comma)
        rw [if_neg comma, if_neg (show ¬(c.token.move f).kind = .comma from comma)]
        have later : Moved (moveResult f (List.map mv)) _ _ := hp.stops_moved c rest
        exact later.map fun _ => rfl
    · rw [afterItem_stray goes, afterItem_stray (show ¬((t.move f).kind = .comma ∨ _) from goes)]
      exact .error (faults (t :: rest))

end

theorem parseValue_moved (t : Token) : Moved id (parseValue t) (parseValue (t.move f)) := by
  obtain ⟨kind, span⟩ := t
  cases kind
  case number text =>
    cases hn : parseNumber text with
    | none =>
      simp only [parseValue, Token.move, hn]
      exact .error rfl
    | some v =>
      simp only [parseValue, Token.move, hn]
      exact .ok v
  case str value => exact .ok _
  case ident word => exact .ok _
  all_goals exact .error rfl

theorem parseParameter_moved (tokens : List Token) :
    Moved (fun r => (r.1.move f, r.2.map (·.move f))) (parseParameter tokens)
      (parseParameter (tokens.map (·.move f))) := by
  cases tokens with
  | nil => exact .error rfl
  | cons t rest => exact (parseValue_moved t).map fun _ => rfl

theorem parseValues_moved (tokens : List Token) :
    Moved (moveResult f (List.map (·.move f))) (whole (parseValues tokens))
      (whole (parseValues (tokens.map (·.move f)))) :=
  parseValues_series.moved parseParameter_items (unexpected_move _) parseParameter_moved tokens

theorem parseArguments_moved (stop : Nat) (tokens : List Token) :
    Moved (moveResult f (List.map (·.move f))) (seenArguments (parseArguments stop tokens))
      (seenArguments (parseArguments (f stop) (tokens.map (·.move f)))) := by
  cases tokens with
  | nil => exact .ok _
  | cons t rest =>
    rw [List.map_cons]
    by_cases ht : t.kind = .lparen
    · have values {stop : Nat} {t : Token} {rest : List Token} (ht : t.kind = .lparen) :
          seenArguments (parseArguments stop (t :: rest)) = whole (parseValues rest) := by
        rw [parseArguments, if_pos ht]
        cases parseValues rest <;> rfl
      rw [values ht, values (show (t.move f).kind = .lparen from ht)]
      exact parseValues_moved rest
    · rw [seenArguments_none ht, seenArguments_none (show (t.move f).kind ≠ .lparen from ht)]
      exact .ok _

theorem parseReference_moved (tokens : List Token) :
    Moved (fun r => (r.1.move f, r.2.map (·.move f))) (parseReference tokens)
      (parseReference (tokens.map (·.move f))) := by
  cases tokens with
  | nil => exact .error rfl
  | cons t rest =>
    obtain ⟨kind, span⟩ := t
    cases kind
    case ident name => exact (parseArguments_moved span.stop rest).map fun _ => rfl
    all_goals exact .error rfl

theorem parseComposites_moved (tokens : List Token) :
    Moved (moveResult f (List.map (·.move f))) (whole (parseComposites tokens))
      (whole (parseComposites (tokens.map (·.move f)))) :=
  parseComposites_series.moved parseReference_items (unexpected_move _) parseReference_moved tokens

/-! ## Statements -/

section

variable {name : String} (named : isVariableName name.toList) (start : Span)

include named

theorem parseExpression_moved (sign : Span) (rest : List Token) :
    Moved (moveResult f (·.move f))
      (whole (parseStatement (⟨.ident name, start⟩ :: ⟨.assign, sign⟩ :: rest)))
      (whole (parseStatement
        (⟨.ident name, start.move f⟩ :: ⟨.assign, sign.move f⟩ :: rest.map (·.move f)))) := by
  rcases rest with _ | ⟨⟨kind, span⟩, rest⟩
  · simp only [parseStatement, List.map, named, if_true]
    exact .error rfl
  cases kind
  case expr source =>
    by_cases empty : source.isEmpty
    · simp only [parseStatement, List.map, Token.move, named, empty, if_true]
      exact .error rfl
    · simp only [parseStatement, List.map, Token.move, named, empty, if_true]
      exact .ok _
  all_goals
    simp only [parseStatement, List.map, Token.move, named, if_true]
    exact .error rfl

theorem parseAssignment_moved (rest : List Token) :
    Moved (moveResult f (·.move f)) (whole (parseStatement (⟨.ident name, start⟩ :: rest)))
      (whole (parseStatement (⟨.ident name, start.move f⟩ :: rest.map (·.move f)))) := by
  rcases rest with _ | ⟨⟨kind, span⟩, rest⟩
  · simp only [parseStatement, List.map, named, if_true]
    exact .error rfl
  by_cases assign : kind = .assign
  · subst assign
    exact parseExpression_moved named start span rest
  · simp only [parseStatement, List.map, Token.move, named, assign, if_true, if_false]
    exact .error rfl

end

theorem parseStatement_moved (tokens : List Token) :
    Moved (moveResult f (·.move f)) (whole (parseStatement tokens))
      (whole (parseStatement (tokens.map (·.move f)))) := by
  rcases tokens with _ | ⟨⟨kind, span⟩, rest⟩
  · exact .error rfl
  cases kind
  case ident name =>
    by_cases named : isVariableName name.toList
    · exact parseAssignment_moved named span rest
    · simp only [parseStatement, List.map, Token.move, named]
      exact .error rfl
  all_goals exact .error rfl

/-- After a statement stands a `;`, or the end of the statements. -/
def afterStatement (s : Statement) (after : List Token) :
    Except Misparse (List Statement × Nat × List Token) :=
  if (current after).kind = .semi ∨ (current after).kind = .rbrace then
    (whole (parseStatements after)).map fun r => (s :: r.1, r.2)
  else .error (unexpected .semiOrBrace after)

theorem whole_parseStatements_cons {t : Token} {rest : List Token} (hsemi : t.kind ≠ .semi)
    (hbrace : t.kind ≠ .rbrace) :
    whole (parseStatements (t :: rest)) =
      (whole (parseStatement (t :: rest))).bind fun s => afterStatement s.1 s.2.2 := by
  rw [parseStatements, if_neg hsemi, if_neg hbrace]
  cases parseStatement (t :: rest) with
  | error e => rfl
  | ok s =>
    dsimp only [whole, Except.map, Except.bind]
    by_cases goes : (current s.rest).kind = .semi ∨ (current s.rest).kind = .rbrace
    · rw [afterStatement, if_pos goes, if_pos goes]
      cases parseStatements s.rest <;> rfl
    · rw [afterStatement, if_neg goes, if_neg goes]

theorem parseStatements_moved (tokens : List Token) :
    Moved (moveResult f (List.map (·.move f))) (whole (parseStatements tokens))
      (whole (parseStatements (tokens.map (·.move f)))) := by
  induction hn : tokens.length using Nat.strongRecOn generalizing tokens with
  | ind n ih =>
  cases tokens with
  | nil =>
    rw [List.map_nil, parseStatements]
    exact .error rfl
  | cons t rest =>
    by_cases semi : t.kind = .semi
    · obtain ⟨m, rfl⟩ := Mark.of_kind semi
      have moved : whole (parseStatements ((m.token :: rest).map (·.move f))) =
          whole (parseStatements (rest.map (·.move f))) :=
        whole_parseStatements_semi ⟨m.span.move f⟩ _
      rw [whole_parseStatements_semi, moved]
      exact ih rest.length (by rw [← hn, List.length_cons]; omega) rest rfl
    by_cases brace : t.kind = .rbrace
    · obtain ⟨m, rfl⟩ := Mark.of_kind brace
      have moved : whole (parseStatements ((m.token :: rest).map (·.move f))) =
          .ok ([], f m.span.stop, rest.map (·.move f)) :=
        whole_parseStatements_end ⟨m.span.move f⟩ _
      rw [whole_parseStatements_end, moved]
      exact .ok ([], m.span.stop, rest)
    have start := parseStatement_moved (f := f) (t :: rest)
    rw [List.map_cons] at start ⊢
    rw [whole_parseStatements_cons semi brace,
      whole_parseStatements_cons (show (t.move f).kind ≠ .semi from semi) brace]
    refine start.bind ?_
    rintro ⟨s, stop, after⟩ hs
    obtain ⟨shorter, -⟩ := whole_ok hs
    change Moved _ (afterStatement s after) (afterStatement (s.move f) (after.map (·.move f)))
    rw [afterStatement, afterStatement, current_move]
    split
    · have later := ih after.length (hn ▸ shorter) after rfl
      exact later.map fun _ => rfl
    · exact .error (unexpected_move ..)

/-! ## Namespaces -/

theorem parseSection_moved (s : Section) (n : Namespace) (tokens : List Token) :
    Moved (moveResult f (·.move f)) (whole (parseSection s n tokens))
      (whole (parseSection s (n.move f) (tokens.map (·.move f)))) := by
  have composites {n : Namespace} {tokens : List Token} :
      whole (parseSection .composites n tokens) =
        (whole (parseComposites tokens)).map fun r => ({ n with composites := r.1 }, r.2) := by
    unfold parseSection
    cases parseComposites tokens <;> rfl
  have parameters {n : Namespace} {tokens : List Token} :
      whole (parseSection .parameters n tokens) =
        (whole (parseValues tokens)).map fun r => ({ n with parameters := r.1 }, r.2) := by
    unfold parseSection
    cases parseValues tokens <;> rfl
  have statements {n : Namespace} {tokens : List Token} :
      whole (parseSection .statements n tokens) =
        (whole (parseStatements tokens)).map fun r => ({ n with statements := r.1 }, r.2) := by
    unfold parseSection
    cases parseStatements tokens <;> rfl
  cases s with
  | composites =>
    rw [composites, composites]
    exact (parseComposites_moved tokens).map fun _ => rfl
  | parameters =>
    rw [parameters, parameters]
    exact (parseValues_moved tokens).map fun _ => rfl
  | statements =>
    rw [statements, statements]
    exact (parseStatements_moved tokens).map fun _ => rfl

theorem ends_parseSections_whole {t : Token} {s : Section} {last : Option Section}
    (hs : opens? t.kind = some s) (hf : sectionFault? last s = none) (n : Namespace)
    (rest : List Token) :
    ends (parseSections last n (t :: rest)) = (whole (parseSection s n rest)).bind fun p =>
      ends (parseSections (some s) { p.1 with span := ⟨n.span.start, p.2.1⟩ } p.2.2) := by
  rw [ends_parseSections_section hs hf]
  cases parseSection s n rest <;> rfl

theorem ends_parseSections_fault {t : Token} {s : Section} {last : Option Section} {fault : ParseFault}
    (reserved : t.kind ≠ .lbracket) (hs : opens? t.kind = some s)
    (hf : sectionFault? last s = some fault) (n : Namespace) (rest : List Token) :
    ends (parseSections last n (t :: rest)) = .error ⟨fault, t.span.start⟩ := by
  rw [parseSections, if_neg reserved, hs]
  dsimp only
  rw [hf]
  rfl

theorem parseSections_moved (last : Option Section) (n : Namespace) (tokens : List Token) :
    Moved (fun r => (r.1.move f, r.2.map (·.move f))) (ends (parseSections last n tokens))
      (ends (parseSections last (n.move f) (tokens.map (·.move f)))) := by
  induction hn : tokens.length using Nat.strongRecOn generalizing tokens last n with
  | ind l ih =>
  cases tokens with
  | nil =>
    rw [List.map_nil, parseSections, parseSections]
    exact .ok (n, [])
  | cons t rest =>
    rw [List.map_cons]
    by_cases reserved : t.kind = .lbracket
    · rw [parseSections, parseSections, if_pos reserved, if_pos (show (t.move f).kind = _ from reserved)]
      exact .error rfl
    cases hs : opens? t.kind with
    | none =>
      have stop : NoSection t.kind := ⟨reserved, hs⟩
      rw [ends_parseSections_stop stop, ends_parseSections_stop (show NoSection (t.move f).kind from stop)]
      exact .ok (n, t :: rest)
    | some s =>
      have hs' : opens? (t.move f).kind = some s := hs
      cases hf : sectionFault? last s with
      | some fault =>
        have reserved' : (t.move f).kind ≠ .lbracket := reserved
        rw [ends_parseSections_fault reserved hs hf, ends_parseSections_fault reserved' hs' hf]
        exact .error rfl
      | none =>
        rw [ends_parseSections_whole hs hf, ends_parseSections_whole hs' hf]
        refine (parseSection_moved s n rest).bind ?_
        rintro ⟨m, stop, after⟩ hm
        obtain ⟨shorter, -⟩ := whole_ok hm
        exact ih after.length (by rw [← hn, List.length_cons]; omega) _ _ after rfl

theorem ends_length {n m : Namespace} {last : Option Section} {tokens after : List Token}
    (h : ends (parseSections last n tokens) = .ok (m, after)) : after.length ≤ tokens.length := by
  obtain ⟨⟨_, _, shorter⟩, -, same⟩ := map_ok h
  cases same
  exact shorter

/-- **The parser only copies places.** -/
theorem parseNamespaces_moved (origin : Nat) (tokens : List Token) :
    Moved (List.map (·.move f)) (parseNamespaces origin tokens)
      (parseNamespaces origin (tokens.map (·.move f))) := by
  induction hn : tokens.length using Nat.strongRecOn generalizing tokens with
  | ind l ih =>
  cases tokens with
  | nil =>
    rw [List.map_nil, parseNamespaces]
    exact .ok []
  | cons t rest =>
    obtain ⟨kind, span⟩ := t
    rw [List.map_cons]
    cases kind
    case ident name =>
      rw [parseNamespaces_cons rfl, parseNamespaces_cons rfl]
      refine (parseSections_moved none ⟨name, [], [], [], origin, span⟩ rest).bind ?_
      rintro ⟨m, after⟩ hm
      have later := ih after.length (by have := ends_length hm; rw [← hn, List.length_cons]; omega)
        after rfl
      exact later.map fun _ => rfl
    case eof =>
      rw [parseNamespaces_end rfl, parseNamespaces_end rfl]
      exact .ok []
    all_goals
      rw [parseNamespaces, parseNamespaces]
      exact .error rfl

end

end EnvManifest
