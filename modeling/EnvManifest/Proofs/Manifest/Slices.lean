import EnvManifest.Proofs.Manifest.Spacing

/-!
# Namespaces in their text

The spans of a manifest are in order, those of parts inside of those of wholes. What stands at the
span of a namespace is that namespace: it may be cut out of its text and read on its own.
-/

namespace EnvManifest

open Text

/-! ## Spans in a row -/

/-- Spans one after another, from a byte offset to another one. None of them is empty. -/
def Laid (pos : Nat) (spans : List Span) (stop : Nat) : Prop :=
  match spans with
  | [] => pos ≤ stop
  | s :: more => pos ≤ s.start ∧ s.start < s.stop ∧ Laid s.stop more stop

theorem Laid.widen {pos pos' stop : Nat} {spans : List Span} (h : Laid pos spans stop)
    (hpos : pos' ≤ pos) : Laid pos' spans stop := by
  cases spans with
  | nil => exact Nat.le_trans hpos h
  | cons s more => exact ⟨Nat.le_trans hpos h.1, h.2⟩

/-- Only an expression and the end of the text may have no characters. -/
def TokenKind.isSolid : TokenKind → Bool
  | .expr _ | .eof => false
  | _ => true

/-- Tokens one after another, from a byte offset to another one. -/
def Row (pos : Nat) (tokens : List Token) (stop : Nat) : Prop :=
  match tokens with
  | [] => pos ≤ stop
  | t :: more => pos ≤ t.span.start ∧ t.span.start ≤ t.span.stop ∧
    (t.kind.isSolid → t.span.start < t.span.stop) ∧ Row t.span.stop more stop

theorem Row.le {pos stop : Nat} {tokens : List Token} (h : Row pos tokens stop) : pos ≤ stop := by
  induction tokens generalizing pos with
  | nil => exact h
  | cons t more ih =>
    obtain ⟨start, own, -, later⟩ := h
    exact Nat.le_trans start (Nat.le_trans own (ih later))

/-- A row may be cut after a token. -/
theorem Row.cut {pos stop : Nat} {own more : List Token} (h : Row pos (own ++ more) stop) :
    ∀ t ∈ own.getLast?, Row pos own t.span.stop ∧ Row t.span.stop more stop := by
  induction own generalizing pos with
  | nil => nofun
  | cons s own ih =>
    intro t ht
    obtain ⟨start, fits, solid, later⟩ := h
    cases own with
    | nil =>
      obtain rfl := Option.some.inj ht
      exact ⟨⟨start, fits, solid, Nat.le_refl _⟩, later⟩
    | cons u own =>
      rw [List.getLast?_cons_cons] at ht
      obtain ⟨front, back⟩ := ih later t ht
      exact ⟨⟨start, fits, solid, front⟩, back⟩

theorem Row.drop {pos stop : Nat} {front more : List Token} (h : Row pos (front ++ more) stop) :
    ∃ pos', Row pos' more stop := by
  induction front generalizing pos with
  | nil => exact ⟨pos, h⟩
  | cons t front ih => exact ih h.2.2.2

/-- The tokens that a span covers, from the start of the first to the end of the last. -/
structure SpanOf (tokens : List Token) (s : Span) : Prop where
  first : ∃ t ∈ tokens.head?, t.kind.isSolid ∧ t.span.start = s.start
  last : ∃ t ∈ tokens.getLast?, t.kind ≠ .eof ∧ t.span.stop = s.stop

theorem SpanOf.row {own back : List Token} {s : Span} (h : SpanOf own s) {pos stop : Nat}
    (row : Row pos (own ++ back) stop) : pos ≤ s.start ∧ s.start < s.stop ∧ Row s.start own s.stop ∧
      Row s.stop back stop := by
  obtain ⟨⟨a, ha, solid, start⟩, b, hb, -, stop⟩ := h
  obtain ⟨more, rfl⟩ := List.head?_eq_some_iff.mp ha
  obtain ⟨front, back⟩ := row.cut b hb
  rw [stop] at front back
  obtain ⟨before, fits, filled, later⟩ := front
  rw [start] at before fits filled
  exact ⟨before, Nat.lt_of_lt_of_le (filled solid) later.le,
    ⟨Nat.le_of_eq start.symm, start ▸ fits, fun _ => start ▸ filled solid, later⟩, back⟩

/-- Tokens with some spans in them, each of which covers tokens of its own. -/
inductive Holds : List Token → List Span → Prop
  | nil : Holds [] []
  | skip {t : Token} {more : List Token} {spans : List Span} (later : Holds more spans) :
    Holds (t :: more) spans
  | part {own more : List Token} {s : Span} {spans : List Span} (covers : SpanOf own s)
    (later : Holds more spans) : Holds (own ++ more) (s :: spans)

theorem Holds.append {front back : List Token} {ss ts : List Span} (h : Holds front ss)
    (h' : Holds back ts) : Holds (front ++ back) (ss ++ ts) := by
  induction h with
  | nil => exact h'
  | skip later ih => exact .skip ih
  | part covers later ih =>
    rw [List.append_assoc]
    exact .part covers ih

theorem SpanOf.holds {own : List Token} {s : Span} (h : SpanOf own s) : Holds own [s] := by
  have := Holds.part h .nil
  rwa [List.append_nil] at this

/-- Spans in a row of tokens are in a row. -/
theorem Holds.laid {tokens : List Token} {spans : List Span} (h : Holds tokens spans) {pos stop : Nat}
    (row : Row pos tokens stop) : Laid pos spans stop := by
  induction h generalizing pos with
  | nil => exact row
  | skip later ih =>
    obtain ⟨start, fits, -, more⟩ := row
    exact (ih more).widen (Nat.le_trans start fits)
  | part covers later ih =>
    obtain ⟨start, filled, -, more⟩ := covers.row row
    exact ⟨start, filled, ih more⟩

/-! ## Spans of derivations -/

/-- The spans of the parts of a namespace. -/
def Namespace.partSpans (n : Namespace) : List Span :=
  n.composites.map (·.span) ++ (n.parameters.map (·.span) ++ n.statements.map (·.span))

namespace Grammar

section

variable {α : Type} {yield : α → List Token} {span : α → Span}

theorem Series.holds (h : ∀ x, SpanOf (yield x) (span x)) (s : Series α) :
    Holds (s.tokens yield) (s.values.map span) := by
  cases s with
  | empty => exact .nil
  | items first more trailing =>
    have tail : Holds (tail yield more trailing) (more.map (span ·.2)) := by
      induction more with
      | nil =>
        cases trailing with
        | none => exact .nil
        | some comma => exact .skip .nil
      | cons m more ih =>
        obtain ⟨comma, x⟩ := m
        rw [tail_cons]
        exact .skip (.part (h x) ih)
    rw [tokens, values, List.map_cons, List.map_map]
    exact .part (h first) tail

theorem Enclosed.holds {opening closing : TokenKind} (h : ∀ x, SpanOf (yield x) (span x))
    (e : Enclosed opening closing α) : Holds (e.tokens yield) (e.series.values.map span) := by
  have inside := (e.series.holds h).append (.skip .nil : Holds [e.right.token] [])
  rw [List.append_nil] at inside
  exact .skip inside

end

theorem Value.spanOf (v : Value) : SpanOf v.tokens v.parameter.span := by
  cases v <;> exact ⟨⟨_, rfl, rfl, rfl⟩, _, rfl, nofun, rfl⟩

theorem Arguments.holds (a : Arguments) : Holds a.tokens (a.parameters.map (·.span)) := by
  rw [parameters, List.map_map]
  exact Enclosed.holds Value.spanOf a

theorem Arguments.last (a : Arguments) : a.tokens.getLast? = some a.right.token := by
  simp [tokens, Enclosed.tokens, List.getLast?_cons]

theorem Reference.spanOf (r : Reference) : SpanOf r.tokens r.composite.span := by
  obtain ⟨name, arguments⟩ := r
  refine ⟨⟨_, rfl, rfl, rfl⟩, ?_⟩
  cases arguments with
  | none => exact ⟨_, rfl, nofun, rfl⟩
  | some a =>
    refine ⟨a.right.token, ?_, nofun, rfl⟩
    rw [tokens, Option.elim_some, List.getLast?_cons, a.last]
    rfl

theorem Reference.holds (r : Reference) : Holds r.tokens (r.composite.arguments.map (·.span)) := by
  obtain ⟨name, arguments⟩ := r
  cases arguments with
  | none => exact .skip .nil
  | some a => exact .skip a.holds

theorem References.holds (r : References) : Holds r.tokens (r.composites.map (·.span)) := by
  rw [composites, List.map_map]
  exact Enclosed.holds Reference.spanOf r

theorem Binding.spanOf (b : Binding) : SpanOf b.tokens b.statement.span :=
  ⟨⟨_, rfl, rfl, rfl⟩, _, rfl, nofun, rfl⟩

theorem semis_holds (ms : List (Mark .semi)) : Holds (semis ms) [] := by
  induction ms with
  | nil => exact .nil
  | cons m ms ih => exact .skip ih

theorem Next.holds (n : Next) : Holds n.tokens [n.binding.statement.span] :=
  .skip ((semis_holds n.more).append n.binding.spanOf.holds)

theorem Bindings.holds (b : Bindings) : Holds b.tokens (b.statements.map (·.span)) := by
  obtain ⟨first, more⟩ := b
  refine .part first.spanOf ?_
  induction more with
  | nil => exact .nil
  | cons n more ih => exact n.holds.append ih

theorem Inside.holds (i : Inside) : Holds i.tokens (i.statements.map (·.span)) := by
  obtain ⟨leading, bindings, trailing, right, settled⟩ := i
  have ends : Holds (semis trailing ++ [right.token]) [] := (semis_holds trailing).append (.skip .nil)
  refine (semis_holds leading).append ?_
  cases bindings with
  | none => exact ends
  | some b =>
    have whole := b.holds.append ends
    rwa [List.append_nil] at whole

theorem Definition.holds (origin : Nat) (d : Definition) :
    Holds d.tokens (d.toNamespace origin).partSpans := by
  obtain ⟨name, references, arguments, body⟩ := d
  refine .skip (.append ?_ (.append ?_ ?_))
  · cases references with
    | none => exact .nil
    | some r => exact r.holds
  · cases arguments with
    | none => exact .nil
    | some a => exact a.holds
  · cases body with
    | none => exact .nil
    | some b => exact .skip b.inside.holds

theorem Definition.last (d : Definition) :
    ∃ t ∈ d.tokens.getLast?, t.kind ≠ .eof ∧ t.span.stop = d.stop := by
  obtain ⟨name, references, arguments, body⟩ := d
  cases body <;> cases arguments <;> cases references <;>
    simp [tokens, stop, Body.tokens, Inside.tokens, Arguments.tokens, References.tokens,
      Enclosed.tokens, Name.token, Mark.token, List.getLast?_append, List.getLast?_cons]

theorem Definition.spanOf (origin : Nat) (d : Definition) :
    SpanOf d.tokens (d.toNamespace origin).span := ⟨⟨_, rfl, rfl, rfl⟩, d.last⟩

theorem Derivation.holds (origin : Nat) (d : Derivation) :
    Holds d.tokens ((d.ast origin).namespaces.map (·.span)) := by
  obtain ⟨ds, ending⟩ := d
  rw [tokens, ast, List.map_map]
  induction ds with
  | nil => exact .skip .nil
  | cons d ds ih =>
    rw [List.flatMap_cons, List.append_assoc]
    exact .part (d.spanOf origin) ih

/-- The tokens of a reference stand together in those of its definition. -/
theorem Definition.reference_together {d : Definition} {rs : References}
    (hrs : d.references = some rs) {r : Reference} (hr : r ∈ rs.series.values) :
    r.tokens <:+: d.tokens := by
  obtain ⟨front, back, whole⟩ := Enclosed.together Reference.tokens hr
  refine ⟨d.name.token :: front,
    back ++ (d.arguments.elim [] (·.tokens) ++ d.body.elim [] (·.tokens)), ?_⟩
  rw [Definition.tokens, hrs]
  simp [References.tokens, ← whole]

end Grammar

/-! ## Rows of a text -/

/-- Tokens that tile a text are in a row. -/
theorem Tiles.row {afterExpr : Bool} {pos : Nat} {cs : List Char} {ts : List Token}
    (h : Tiles afterExpr pos cs ts) : Row pos ts (pos + byteLength cs) := by
  induction h with
  | eof between stops =>
    subst stops
    exact ⟨Nat.le_add_right .., Nat.le_refl _, nofun, Nat.le_refl _⟩
  | @token _ pos start stop kind gap own rest ts between starts stops writes solid more ih =>
    have reached : pos + byteLength (gap ++ (own ++ rest)) = stop + byteLength rest := by
      rw [stops, starts, byteLength_append, byteLength_append]
      omega
    rw [reached]
    refine ⟨starts ▸ Nat.le_add_right .., stops ▸ Nat.le_add_right .., fun hkind => ?_, ih⟩
    have filled : own ≠ [] := solid.resolve_right fun expr => by
      have unsolid : kind.isSolid = false := by cases kind <;> first | rfl | cases expr
      rw [unsolid] at hkind
      cases hkind
    obtain ⟨c, own, rfl⟩ := List.exists_cons_of_ne_nil filled
    have := c.utf8Size_pos
    dsimp only
    rw [stops, byteLength_cons]
    omega

/-- Tokens that stand together in a text, cut out of it. They are the tokens of the piece of the text
that their span covers. -/
structure CutOut (text : List Char) (own : List Token) (s : Span) (piece : List Char) : Prop where
  stands : ∃ front back, text = front ++ (piece ++ back) ∧
    s = ⟨byteLength front, byteLength front + byteLength piece⟩
  tokens : ∃ ts, lex (String.ofList piece) = .ok ts ∧
    ts.map (·.shift s.start) = own ++ [⟨.eof, ⟨s.stop, s.stop⟩⟩]

/-- The pieces of the first tokens of a text. -/
theorem place_first {pos : Nat} {ls : List Lexeme} {own after : List Token} {t : Token}
    (h : Lexeme.place pos ls = own ++ after) (ht : t ∈ own.getLast?) (inside : t.kind ≠ .eof) :
    ∃ before behind, ls = before ++ behind ∧ Lexeme.kinds before = own.map (·.kind) ∧
      t.span.stop = pos + byteLength (Lexeme.source before) ∧
      Lexeme.place pos before = own ++ [⟨.eof, ⟨t.span.stop, t.span.stop⟩⟩] := by
  obtain ⟨init, rfl⟩ := List.getLast?_eq_some_iff.mp ht
  rw [List.append_assoc, List.singleton_append] at h
  obtain ⟨before, ⟨_, text⟩, behind, rfl, rfl, kinds, rfl, start, last⟩ := place_split h inside
  have stop : t.span.stop = t.span.start + byteLength text :=
    congrArg (·.span.stop) (List.cons.inj last).1.symm
  refine ⟨before ++ [⟨some t.kind, text⟩], behind, by simp, ?_, ?_, ?_⟩
  · rw [Lexeme.kinds, List.filterMap_append, List.map_append, ← kinds]
    rfl
  · rw [stop, start, Lexeme.source_append, byteLength_append, Nat.add_assoc]
    simp [Lexeme.source]
  · rw [place_append, ← start, List.append_assoc, List.singleton_append, stop]
    exact congrArg (_ ++ · :: _) (List.cons.inj last).1

/-- A text may be cut out where no assignment ends before it and none goes on after it. -/
theorem lex_cutOut {text : String} {front own after : List Token} {s : Span}
    (h : lex text = .ok (front ++ (own ++ after))) (covers : SpanOf own s)
    (hfront : Closed (front.map (·.kind))) (hown : Closed (own.map (·.kind))) :
    ∃ piece, CutOut text.toList own s piece := by
  obtain ⟨start, stop⟩ := s
  obtain ⟨⟨a, ha, solid, rfl⟩, b, hb, inside, rfl⟩ := covers
  obtain ⟨ls, hls, hplace⟩ := Grammar.map_ok h
  have starts : a.kind ≠ .eof := fun eof => by
    rw [eof] at solid
    cases solid
  obtain ⟨more, rfl⟩ := List.head?_eq_some_iff.mp ha
  obtain ⟨before, l, rest, rfl, -, kinds, -, start, hrest⟩ := place_split hplace starts
  obtain ⟨back, cut⟩ := (pieces_of_lexemes hls).cut (kinds ▸ hfront)
  obtain ⟨taken, behind, split, kinds', stop, placed⟩ := place_first hrest hb inside
  obtain ⟨back', cut'⟩ := (split ▸ cut.rest).cut (kinds' ▸ hown)
  have alone := (cut'.swap (replaces_nil _) .nil).lexemes 0
  rw [List.append_nil, List.append_nil] at alone
  rw [Nat.zero_add] at start
  refine ⟨Lexeme.source taken, ⟨Lexeme.source before, back', by rw [cut.split, cut'.split], ?_⟩,
    Lexeme.place 0 taken, ?_, ?_⟩
  · rw [stop, start]
  · rw [lex, String.toList_ofList, alone]
    rfl
  · rw [← place_shift, Nat.zero_add, placed]

/-! ## Namespaces of a text -/

/-- A namespace that stands in a text with all of its parts inside of it, and that is read in the same
way where it is the whole text. -/
structure Namespace.FaithfulIn (text : List Char) (n : Namespace) : Prop where
  boundaries : Boundary text n.span.start ∧ Boundary text n.span.stop
  parts : Laid n.span.start n.partSpans n.span.stop
  arguments : ∀ c ∈ n.composites, Laid c.span.start (c.arguments.map (·.span)) c.span.stop
  alone (origin : Nat) (name : String) : ∃ m,
    parseOrigin origin name (String.ofList (slice text n.span.start n.span.stop)) = .ok ⟨[m]⟩ ∧
      m.shift n.span.start = { n with origin := origin }

namespace Grammar

/-- The parts of a definition are in the row of its tokens. -/
theorem Definition.laid (origin : Nat) (d : Definition)
    (row : Row (d.toNamespace origin).span.start d.tokens (d.toNamespace origin).span.stop) :
    Laid (d.toNamespace origin).span.start (d.toNamespace origin).partSpans
        (d.toNamespace origin).span.stop ∧
      ∀ c ∈ (d.toNamespace origin).composites,
        Laid c.span.start (c.arguments.map (·.span)) c.span.stop := by
  refine ⟨(d.holds origin).laid row, fun c hc => ?_⟩
  cases hrs : d.references with
  | none =>
    simp only [toNamespace, hrs, Option.elim_none, List.not_mem_nil] at hc
  | some rs =>
    simp only [toNamespace, hrs, Option.elim_some, References.composites, List.mem_map] at hc
    obtain ⟨r, hr, rfl⟩ := hc
    obtain ⟨front, back, tokens⟩ := d.reference_together hrs hr
    rw [← tokens, List.append_assoc] at row
    obtain ⟨_, more⟩ := row.drop
    obtain ⟨-, -, own, -⟩ := r.spanOf.row more
    exact r.holds.laid own

/-- The text of the tokens of a definition is that definition, in another place. -/
theorem Definition.parse_piece {text piece : List Char} {start stop : Nat} (d : Definition)
    (h : CutOut text d.tokens ⟨start, stop⟩ piece) (origin : Nat) (name : String) : ∃ m,
      parseOrigin origin name (String.ofList piece) = .ok ⟨[m]⟩ ∧
        m.shift start = d.toNamespace origin := by
  obtain ⟨ts, tokens, moved⟩ := h.tokens
  have whole : ts.map (·.move (· + start)) = (⟨[d], ⟨⟨stop, stop⟩⟩⟩ : Derivation).tokens := by
    rw [Derivation.tokens, List.flatMap_singleton]
    exact moved
  have parsed := parseNamespaces_moved (f := (· + start)) origin ts
  rw [whole, parseNamespaces_complete] at parsed
  obtain ⟨ns, hns, shifted⟩ := parsed.ok_right
  obtain ⟨m, rfl, same⟩ := List.map_eq_singleton_iff.mp shifted
  refine ⟨m, ?_, same⟩
  rw [parseOrigin_of_lex tokens, hns]
  rfl

theorem Definition.faithfulIn {text : String} {front after : List Token} (d : Definition)
    (h : lex text = .ok (front ++ (d.tokens ++ after))) (closed : Closed (front.map (·.kind)))
    (origin : Nat) : (d.toNamespace origin).FaithfulIn text.toList := by
  obtain ⟨ls, hls, place⟩ := map_ok h
  have row := (tiles_of_lexemes hls).row
  rw [place] at row
  obtain ⟨_, more⟩ := row.drop
  obtain ⟨-, -, own, -⟩ := (d.spanOf origin).row more
  obtain ⟨parts, arguments⟩ := d.laid origin own
  have shut : Closed (d.tokens.map (·.kind)) := by
    have := closed_definitions [d]
    rwa [List.flatMap_singleton] at this
  obtain ⟨piece, cut⟩ := lex_cutOut h (d.spanOf origin) closed shut
  obtain ⟨before, back, split, span⟩ := cut.stands
  refine ⟨?_, parts, arguments, fun origin' name => ?_⟩
  · rw [span, split]
    exact ⟨⟨before, _, rfl, rfl⟩, ⟨before ++ piece, back, by simp, byteLength_append ..⟩⟩
  · obtain ⟨m, parsed, same⟩ := d.parse_piece cut origin' name
    rw [split, span, slice_split]
    exact ⟨m, parsed, span ▸ same⟩

end Grammar

/-- **The spans of namespaces are faithful.** -/
theorem namespace_spans_faithful {origin : Nat} {name text : String} {ast : Ast}
    (h : parseOrigin origin name text = .ok ast) :
    Laid 0 (ast.namespaces.map (·.span)) (byteLength text.toList) ∧
      ∀ n ∈ ast.namespaces, n.FaithfulIn text.toList := by
  obtain ⟨d, tokens, rfl⟩ := parseOrigin_ok.mp h
  constructor
  · obtain ⟨ls, hls, place⟩ := Grammar.map_ok tokens
    have row := (tiles_of_lexemes hls).row
    rw [place, Nat.zero_add] at row
    exact (d.holds origin).laid row
  · intro n hn
    obtain ⟨x, hx, rfl⟩ := List.mem_map.mp hn
    obtain ⟨pre, post, split⟩ := List.append_of_mem hx
    have standing : lex text = .ok (pre.flatMap (·.tokens) ++
        (x.tokens ++ (post.flatMap (·.tokens) ++ [d.ending.token]))) := by
      rw [tokens, Grammar.Derivation.tokens, split]
      simp
    exact x.faithfulIn standing (Grammar.closed_definitions pre) origin

def spacedManifest : String := "# é\na <b(1, 'é'),> (2) \x7b; x = _\\; ; \x7d c d\x7b\x7d"

def spacedAst : Ast where
  namespaces :=
    [{ ident := "a"
       composites := [⟨"b", [⟨.int 1, ⟨10, 11⟩⟩, ⟨.str "é", ⟨13, 17⟩⟩], ⟨8, 18⟩⟩]
       parameters := [⟨.int 2, ⟨22, 23⟩⟩]
       statements := [⟨"x", "=", ⟨"_;", 32⟩, ⟨28, 35⟩⟩]
       origin := 3
       span := ⟨5, 39⟩ },
     ⟨"c", [], [], [], 3, ⟨40, 41⟩⟩,
     ⟨"d", [], [], [], 3, ⟨42, 45⟩⟩]

theorem spaced_manifest_faithful :
    parseOrigin 3 "m.env" spacedManifest = .ok spacedAst ∧
      Laid 0 (spacedAst.namespaces.map (·.span)) (byteLength spacedManifest.toList) ∧
      ∀ n ∈ spacedAst.namespaces, n.FaithfulIn spacedManifest.toList := by
  have parsed : parseOrigin 3 "m.env" spacedManifest = .ok spacedAst := by cbv
  exact ⟨parsed, namespace_spans_faithful parsed⟩

end EnvManifest
