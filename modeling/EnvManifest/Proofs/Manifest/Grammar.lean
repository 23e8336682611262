import EnvManifest.Manifest.Parser

/-!
# The grammar of manifests

Derivations as data: the parts each rule is made of, the tokens they yield, and what they stand for
in a manifest. Tokens have at most one derivation.
-/

namespace EnvManifest.Grammar

/-! ## Tokens -/

/-- A token of a kind, of which only the place is open. -/
structure Mark (kind : TokenKind) where
  span : Span

def Mark.token {kind : TokenKind} (m : Mark kind) : Token := ⟨kind, m.span⟩

@[simp] theorem Mark.token_kind {kind : TokenKind} (m : Mark kind) : m.token.kind = kind := rfl

theorem Mark.token_inj {kind : TokenKind} {m m' : Mark kind} (h : m.token = m'.token) : m = m' := by
  cases m
  cases m'
  cases h
  rfl

theorem Mark.of_kind {kind : TokenKind} {t : Token} (h : t.kind = kind) :
    ∃ m : Mark kind, m.token = t := by
  subst h
  exact ⟨⟨t.span⟩, rfl⟩

structure Name where
  text : String
  span : Span

def Name.token (n : Name) : Token := ⟨.ident n.text, n.span⟩

theorem Name.token_inj {n n' : Name} (h : n.token = n'.token) : n = n' := by
  cases n
  cases n'
  cases h
  rfl

theorem Name.of_kind {t : Token} {text : String} (h : t.kind = .ident text) :
    (⟨text, t.span⟩ : Name).token = t := by
  cases t
  cases h
  rfl

/-! ## Series -/

/-- `[x {"," x} [","]]` -/
inductive Series (α : Type) where
  | empty
  | items (first : α) (more : List (Mark .comma × α)) (trailing : Option (Mark .comma))

namespace Series

variable {α : Type}

def values : Series α → List α
  | empty => []
  | items first more _ => first :: more.map (·.2)

/-- The tokens after the first item. -/
def tail (yield : α → List Token) (more : List (Mark .comma × α))
    (trailing : Option (Mark .comma)) : List Token :=
  more.flatMap (fun (comma, x) => comma.token :: yield x) ++ trailing.toList.map (·.token)

def tokens (yield : α → List Token) : Series α → List Token
  | empty => []
  | items first more trailing => yield first ++ tail yield more trailing

@[simp] theorem tail_cons (yield : α → List Token) (comma : Mark .comma) (x : α)
    (more : List (Mark .comma × α)) (trailing : Option (Mark .comma)) :
    tail yield ((comma, x) :: more) trailing = comma.token :: (yield x ++ tail yield more trailing) := by
  simp [tail]

@[simp] theorem tail_end (yield : α → List Token) : tail yield [] none = [] := rfl

@[simp] theorem tail_comma (yield : α → List Token) (comma : Mark .comma) :
    tail yield [] (some comma) = [comma.token] := rfl

/-- The tokens of an item stand together in those of its series. -/
theorem together (yield : α → List Token) {s : Series α} {x : α} (hx : x ∈ s.values) :
    yield x <:+: s.tokens yield := by
  cases s with
  | empty => cases hx
  | items first more trailing =>
    obtain rfl | hx := List.mem_cons.mp hx
    · exact ⟨[], _, rfl⟩
    · obtain ⟨⟨comma, y⟩, hm, rfl⟩ := List.mem_map.mp hx
      obtain ⟨front, back, rfl⟩ := List.append_of_mem hm
      refine ⟨yield first ++ tail yield front none ++ [comma.token], tail yield back trailing, ?_⟩
      simp [tokens, tail]

end Series

/-- A series between two brackets. -/
structure Enclosed (opening closing : TokenKind) (α : Type) where
  left : Mark opening
  series : Series α
  right : Mark closing

def Enclosed.tokens {opening closing : TokenKind} {α : Type} (yield : α → List Token)
    (e : Enclosed opening closing α) : List Token :=
  e.left.token :: (e.series.tokens yield ++ [e.right.token])

theorem Enclosed.tokens_append {opening closing : TokenKind} {α : Type} (yield : α → List Token)
    (e : Enclosed opening closing α) (rest : List Token) :
    e.tokens yield ++ rest = e.left.token :: (e.series.tokens yield ++ e.right.token :: rest) := by
  simp [tokens]

theorem Enclosed.together {opening closing : TokenKind} {α : Type} (yield : α → List Token)
    {e : Enclosed opening closing α} {x : α} (hx : x ∈ e.series.values) :
    yield x <:+: e.tokens yield := by
  obtain ⟨front, back, series⟩ := Series.together yield hx
  exact ⟨e.left.token :: front, back ++ [e.right.token], by simp [tokens, ← series]⟩

/-! ## Rules -/

/-- `value := string | number | ident` -/
inductive Value where
  | str (value : String) (span : Span)
  | number (text : String) (value : ParamValue) (valid : parseNumber text = some value) (span : Span)
  | word (text : String) (span : Span)

namespace Value

def token : Value → Token
  | str value span => ⟨.str value, span⟩
  | number text _ _ span => ⟨.number text, span⟩
  | word text span => ⟨.ident text, span⟩

def tokens (v : Value) : List Token := [v.token]

def parameter : Value → Parameter
  | str value span => ⟨.str value, span⟩
  | number _ value _ span => ⟨value, span⟩
  | word text span =>
    ⟨if text = "true" then .bool true else if text = "false" then .bool false else .word text, span⟩

end Value

/-- `args := "(" [value {"," value} [","]] ")"` -/
abbrev Arguments := Enclosed .lparen .rparen Value

namespace Arguments

def tokens (a : Arguments) : List Token := Enclosed.tokens Value.tokens a

def parameters (a : Arguments) : List Parameter := a.series.values.map (·.parameter)

end Arguments

/-- `composite := ident [args]` -/
structure Reference where
  name : Name
  arguments : Option Arguments

namespace Reference

def tokens (r : Reference) : List Token := r.name.token :: r.arguments.elim [] (·.tokens)

def composite (r : Reference) : Composite where
  ident := r.name.text
  arguments := r.arguments.elim [] (·.parameters)
  span := ⟨r.name.span.start, r.arguments.elim r.name.span.stop (·.right.span.stop)⟩

end Reference

/-- `"<" [composite {"," composite} [","]] ">"` -/
abbrev References := Enclosed .langle .rangle Reference

namespace References

def tokens (r : References) : List Token := Enclosed.tokens Reference.tokens r

def composites (r : References) : List Composite := r.series.values.map (·.composite)

end References

/-- `statement := ident "=" expression`, where the ident is a variable name and the expression is not
empty. -/
structure Binding where
  name : Name
  isVariable : isVariableName name.text.toList
  sign : Mark .assign
  source : String
  isFilled : source ≠ ""
  span : Span

namespace Binding

def tokens (b : Binding) : List Token := [b.name.token, b.sign.token, ⟨.expr b.source, b.span⟩]

def statement (b : Binding) : Statement where
  ident := b.name.text
  operator := "="
  expression := ⟨b.source, b.span.start⟩
  span := ⟨b.name.span.start, b.span.stop⟩

end Binding

/-- `";" {";"} statement` -/
structure Next where
  semi : Mark .semi
  more : List (Mark .semi)
  binding : Binding

/-- The tokens of some `;`. -/
def semis (ms : List (Mark .semi)) : List Token := ms.map (·.token)

def Next.tokens (n : Next) : List Token := n.semi.token :: (semis n.more ++ n.binding.tokens)

/-- `statement {";" {";"} statement}` -/
structure Bindings where
  first : Binding
  more : List Next

namespace Bindings

def tokens (b : Bindings) : List Token := b.first.tokens ++ b.more.flatMap (·.tokens)

def statements (b : Bindings) : List Statement :=
  b.first.statement :: b.more.map (·.binding.statement)

end Bindings

/-- `{";"} [statement {";" {";"} statement}] {";"} "}"` -/
structure Inside where
  leading : List (Mark .semi)
  bindings : Option Bindings
  trailing : List (Mark .semi)
  right : Mark .rbrace
  /-- Where there are no statements, each `;` counts as one in front. -/
  settled : bindings = none → trailing = []

namespace Inside

def tokens (i : Inside) : List Token :=
  semis i.leading ++ (i.bindings.elim [] (·.tokens) ++ (semis i.trailing ++ [i.right.token]))

def statements (i : Inside) : List Statement := i.bindings.elim [] (·.statements)

theorem tokens_append (i : Inside) (rest : List Token) :
    i.tokens ++ rest =
      semis i.leading ++
        (i.bindings.elim [] (·.tokens) ++ (semis i.trailing ++ i.right.token :: rest)) := by
  simp [tokens]

end Inside

/-- `"{" {";"} [statement {";" {";"} statement}] {";"} "}"` -/
structure Body where
  left : Mark .lbrace
  inside : Inside

def Body.tokens (b : Body) : List Token := b.left.token :: b.inside.tokens

/-- `namespace := ident [composites] [args] [body]` -/
structure Definition where
  name : Name
  references : Option References
  arguments : Option Arguments
  body : Option Body

namespace Definition

def tokens (d : Definition) : List Token :=
  d.name.token :: (d.references.elim [] (·.tokens) ++
    (d.arguments.elim [] (·.tokens) ++ d.body.elim [] (·.tokens)))

theorem tokens_append (d : Definition) (rest : List Token) :
    d.tokens ++ rest =
      d.name.token :: (d.references.elim [] (·.tokens) ++
        (d.arguments.elim [] (·.tokens) ++ (d.body.elim [] (·.tokens) ++ rest))) := by
  simp [tokens]

/-- Where the last part of a definition ends. -/
def stop (d : Definition) : Nat :=
  match d.body, d.arguments, d.references with
  | some b, _, _ => b.inside.right.span.stop
  | none, some a, _ => a.right.span.stop
  | none, none, some r => r.right.span.stop
  | none, none, none => d.name.span.stop

/-- The namespace in a manifest text. -/
def toNamespace (origin : Nat) (d : Definition) : Namespace where
  ident := d.name.text
  composites := d.references.elim [] (·.composites)
  parameters := d.arguments.elim [] (·.parameters)
  statements := d.body.elim [] (·.inside.statements)
  origin := origin
  span := ⟨d.name.span.start, d.stop⟩

end Definition

/-- Namespaces, then the end of the text. -/
structure Derivation where
  definitions : List Definition
  ending : Mark .eof

namespace Derivation

def tokens (d : Derivation) : List Token := d.definitions.flatMap (·.tokens) ++ [d.ending.token]

def ast (origin : Nat) (d : Derivation) : Ast := ⟨d.definitions.map (·.toNamespace origin)⟩

end Derivation

/-! ## Tokens have one derivation -/

/-- Does a text go on after an item of a series that ends with a bracket? -/
def Follows (closing : TokenKind) (rest : List Token) : Prop :=
  (current rest).kind = .comma ∨ (current rest).kind = closing

/-- What items of a series need for the series to have one derivation. -/
structure Itemwise {α : Type} (yield : α → List Token) (closing : TokenKind) : Prop where
  apart : closing ≠ .comma
  starts (x : α) (rest : List Token) : ¬Follows closing (yield x ++ rest)
  inj {x x' : α} {rest rest' : List Token} (hr : Follows closing rest) (hr' : Follows closing rest')
    (h : yield x ++ rest = yield x' ++ rest') : x = x' ∧ rest = rest'

namespace Series

variable {α : Type} {yield : α → List Token} {closing : TokenKind}

theorem follows_tail (more : List (Mark .comma × α)) (trailing : Option (Mark .comma))
    (c : Mark closing) (rest : List Token) :
    Follows closing (tail yield more trailing ++ c.token :: rest) := by
  cases more with
  | cons m more => exact .inl rfl
  | nil =>
    cases trailing with
    | none => exact .inr rfl
    | some comma => exact .inl rfl

theorem tail_inj (hy : Itemwise yield closing) {more more' : List (Mark .comma × α)}
    {trailing trailing' : Option (Mark .comma)} {c c' : Mark closing} {rest rest' : List Token}
    (h : tail yield more trailing ++ c.token :: rest =
      tail yield more' trailing' ++ c'.token :: rest') :
    more = more' ∧ trailing = trailing' ∧ c = c' ∧ rest = rest' := by
  -- a bracket is no comma, and no item starts with either
  have clash : ∀ {m : Mark .comma} {c : Mark closing}, m.token ≠ c.token := by
    intro m c hm
    exact hy.apart (congrArg Token.kind hm).symm
  have stray : ∀ {x : α} {c : Mark closing} {r r' : List Token}, c.token :: r ≠ yield x ++ r' := by
    intro x c r r' hx
    exact hy.starts x r' (hx ▸ .inr rfl)
  induction more generalizing more' with
  | nil =>
    cases more' with
    | nil =>
      cases trailing <;> cases trailing' <;>
        simp only [tail_end, tail_comma, List.nil_append, List.cons_append, List.cons.injEq] at h
      · exact ⟨rfl, rfl, Mark.token_inj h.1, h.2⟩
      · exact absurd h.1.symm clash
      · exact absurd h.1 clash
      · obtain ⟨hm, hc, hr⟩ := h
        exact ⟨rfl, congrArg some (Mark.token_inj hm), Mark.token_inj hc, hr⟩
    | cons m' more' =>
      obtain ⟨comma', x'⟩ := m'
      rw [tail_cons, List.cons_append, List.append_assoc] at h
      cases trailing with
      | none => exact absurd (List.cons.inj h).1.symm clash
      | some comma => exact absurd (List.cons.inj h).2 stray
  | cons m more ih =>
    obtain ⟨comma, x⟩ := m
    rw [tail_cons, List.cons_append, List.append_assoc] at h
    cases more' with
    | nil =>
      cases trailing' with
      | none => exact absurd (List.cons.inj h).1 clash
      | some comma' => exact absurd (List.cons.inj h).2.symm stray
    | cons m' more' =>
      obtain ⟨comma', x'⟩ := m'
      rw [tail_cons, List.cons_append, List.append_assoc] at h
      obtain ⟨hcomma, hitem⟩ := List.cons.inj h
      obtain ⟨rfl, hrest⟩ := hy.inj (follows_tail _ _ _ _) (follows_tail _ _ _ _) hitem
      obtain ⟨rfl, rfl, rfl, rfl⟩ := ih hrest
      exact ⟨by rw [Mark.token_inj hcomma], rfl, rfl, rfl⟩

theorem tokens_inj (hy : Itemwise yield closing) {s s' : Series α} {c c' : Mark closing}
    {rest rest' : List Token}
    (h : s.tokens yield ++ c.token :: rest = s'.tokens yield ++ c'.token :: rest') :
    s = s' ∧ c = c' ∧ rest = rest' := by
  have stray : ∀ {x : α} {c : Mark closing} {r r' : List Token}, c.token :: r ≠ yield x ++ r' := by
    intro x c r r' hx
    exact hy.starts x r' (hx ▸ .inr rfl)
  cases s with
  | empty =>
    cases s' with
    | empty =>
      obtain ⟨hc, hr⟩ := List.cons.inj h
      exact ⟨rfl, Mark.token_inj hc, hr⟩
    | items x more trailing =>
      rw [tokens, tokens, List.append_assoc] at h
      exact absurd h stray
  | items x more trailing =>
    cases s' with
    | empty =>
      rw [tokens, tokens, List.append_assoc] at h
      exact absurd h.symm stray
    | items x' more' trailing' =>
      rw [tokens, tokens, List.append_assoc, List.append_assoc] at h
      obtain ⟨rfl, hmore⟩ := hy.inj (follows_tail _ _ _ _) (follows_tail _ _ _ _) h
      obtain ⟨rfl, rfl, hrest⟩ := tail_inj hy hmore
      exact ⟨rfl, hrest⟩

end Series

theorem Enclosed.tokens_inj {opening closing : TokenKind} {α : Type} {yield : α → List Token}
    (hy : Itemwise yield closing) {e e' : Enclosed opening closing α} {rest rest' : List Token}
    (h : e.tokens yield ++ rest = e'.tokens yield ++ rest') : e = e' ∧ rest = rest' := by
  rw [tokens_append, tokens_append] at h
  obtain ⟨left, series, right⟩ := e
  obtain ⟨left', series', right'⟩ := e'
  obtain ⟨hl, hinside⟩ := List.cons.inj h
  obtain ⟨hs, hr, hrest⟩ := Series.tokens_inj hy hinside
  obtain rfl := Mark.token_inj hl
  subst hs hr
  exact ⟨rfl, hrest⟩

theorem Value.token_inj {v v' : Value} (h : v.token = v'.token) : v = v' := by
  cases v <;> cases v' <;> simp only [Value.token, Token.mk.injEq, reduceCtorEq, false_and,
    TokenKind.str.injEq, TokenKind.number.injEq, TokenKind.ident.injEq] at h
  · rw [h.1, h.2]
  · rename_i text value valid span text' value' valid' span'
    obtain ⟨rfl, rfl⟩ := h
    obtain rfl := Option.some.inj (valid.symm.trans valid')
    rfl
  · rw [h.1, h.2]

theorem Value.itemwise : Itemwise Value.tokens .rparen where
  apart := by decide
  starts v rest := by
    cases v <;> simp [Follows, current, Value.tokens, Value.token]
  inj _ _ h := ⟨Value.token_inj (List.cons.inj h).1, (List.cons.inj h).2⟩

theorem Arguments.tokens_inj {a a' : Arguments} {rest rest' : List Token}
    (h : a.tokens ++ rest = a'.tokens ++ rest') : a = a' ∧ rest = rest' :=
  Enclosed.tokens_inj Value.itemwise h

/-- An optional part that starts with a bracket is there if and only if the bracket is. -/
theorem optional_inj {α : Type} {yield : α → List Token} (opening : TokenKind)
    (hstart : ∀ x rest, (current (yield x ++ rest)).kind = opening)
    (hinj : ∀ {x x' rest rest'}, yield x ++ rest = yield x' ++ rest' → x = x' ∧ rest = rest')
    {o o' : Option α} {rest rest' : List Token} (hr : (current rest).kind ≠ opening)
    (hr' : (current rest').kind ≠ opening)
    (h : o.elim [] yield ++ rest = o'.elim [] yield ++ rest') : o = o' ∧ rest = rest' := by
  cases o with
  | none =>
    cases o' with
    | none => exact ⟨rfl, h⟩
    | some x' => exact absurd ((congrArg (fun ts => (current ts).kind) h).trans (hstart x' rest')) hr
  | some x =>
    cases o' with
    | none =>
      exact absurd ((congrArg (fun ts => (current ts).kind) h).symm.trans (hstart x rest)) hr'
    | some x' =>
      obtain ⟨rfl, hrest⟩ := hinj h
      exact ⟨rfl, hrest⟩

theorem Reference.itemwise : Itemwise Reference.tokens .rangle where
  apart := by decide
  starts r rest := by simp [Follows, current, Reference.tokens, Name.token]
  inj {r r' rest rest'} hr hr' h := by
    have apart : ∀ {rest}, Follows .rangle rest → (current rest).kind ≠ .lparen := by
      rintro rest (h | h) <;> rw [h] <;> decide
    obtain ⟨hname, htail⟩ := List.cons.inj h
    obtain ⟨ha, hrest⟩ := optional_inj .lparen (fun _ _ => rfl) Arguments.tokens_inj
      (apart hr) (apart hr') htail
    obtain ⟨name, arguments⟩ := r
    obtain ⟨name', arguments'⟩ := r'
    obtain rfl := Name.token_inj hname
    obtain rfl := ha
    exact ⟨rfl, hrest⟩

theorem References.tokens_inj {r r' : References} {rest rest' : List Token}
    (h : r.tokens ++ rest = r'.tokens ++ rest') : r = r' ∧ rest = rest' :=
  Enclosed.tokens_inj Reference.itemwise h

theorem Binding.tokens_inj {b b' : Binding} {rest rest' : List Token}
    (h : b.tokens ++ rest = b'.tokens ++ rest') : b = b' ∧ rest = rest' := by
  obtain ⟨name, isVariable, sign, source, isFilled, span⟩ := b
  obtain ⟨name', isVariable', sign', source', isFilled', span'⟩ := b'
  simp only [Binding.tokens, List.cons_append, List.nil_append, List.cons.injEq, Token.mk.injEq,
    TokenKind.expr.injEq] at h
  obtain ⟨hname, hsign, ⟨rfl, rfl⟩, hrest⟩ := h
  obtain rfl := Name.token_inj hname
  obtain rfl := Mark.token_inj hsign
  exact ⟨rfl, hrest⟩

theorem semis_inj {ms ms' : List (Mark .semi)} {rest rest' : List Token}
    (hr : (current rest).kind ≠ .semi) (hr' : (current rest').kind ≠ .semi)
    (h : semis ms ++ rest = semis ms' ++ rest') : ms = ms' ∧ rest = rest' := by
  induction ms generalizing ms' with
  | nil =>
    cases ms' with
    | nil => exact ⟨rfl, h⟩
    | cons m' ms' => exact absurd (congrArg (fun ts => (current ts).kind) h) hr
  | cons m ms ih =>
    cases ms' with
    | nil => exact absurd (congrArg (fun ts => (current ts).kind) h).symm hr'
    | cons m' ms' =>
      obtain ⟨hm, htail⟩ := List.cons.inj h
      obtain ⟨rfl, hrest⟩ := ih htail
      exact ⟨by rw [Mark.token_inj hm], hrest⟩

theorem Next.more_inj {more more' : List Next} {trailing trailing' : List (Mark .semi)}
    {right right' : Mark .rbrace} {rest rest' : List Token}
    (h : more.flatMap (·.tokens) ++ (semis trailing ++ right.token :: rest) =
      more'.flatMap (·.tokens) ++ (semis trailing' ++ right'.token :: rest')) :
    more = more' ∧ trailing = trailing' ∧ right = right' ∧ rest = rest' := by
  have brace : ∀ {right : Mark .rbrace} {rest : List Token},
      (current (right.token :: rest)).kind ≠ .semi := nofun
  have word : ∀ {b : Binding} {rest : List Token}, (current (b.tokens ++ rest)).kind ≠ .semi := nofun
  -- a `;` of a statement belongs to a run that ends with the statement, and not with the brace
  have stray : ∀ {n : Next} {trailing : List (Mark .semi)} {right : Mark .rbrace}
      {rest rest' : List Token},
      semis trailing ++ right.token :: rest ≠ n.tokens ++ rest' := by
    intro n trailing right rest rest' hn
    have hrun : semis trailing ++ right.token :: rest =
        semis (n.semi :: n.more) ++ (n.binding.tokens ++ rest') := by
      rw [hn, Next.tokens, List.cons_append, List.append_assoc]
      rfl
    have hb := (semis_inj brace word hrun).2
    cases congrArg (fun ts => (current ts).kind) hb
  induction more generalizing more' with
  | nil =>
    cases more' with
    | nil =>
      obtain ⟨rfl, hbrace⟩ := semis_inj brace brace h
      obtain ⟨hright, hrest⟩ := List.cons.inj hbrace
      exact ⟨rfl, rfl, Mark.token_inj hright, hrest⟩
    | cons n' more' =>
      rw [List.flatMap_cons, List.append_assoc] at h
      exact absurd h stray
  | cons n more ih =>
    rw [List.flatMap_cons, List.append_assoc] at h
    cases more' with
    | nil => exact absurd h.symm stray
    | cons n' more' =>
      rw [List.flatMap_cons, List.append_assoc] at h
      obtain ⟨semi, ms, b⟩ := n
      obtain ⟨semi', ms', b'⟩ := n'
      simp only [Next.tokens, List.cons_append, List.append_assoc, List.cons.injEq] at h
      obtain ⟨hsemi, htail⟩ := h
      obtain ⟨rfl, hbinding⟩ := semis_inj word word htail
      obtain ⟨rfl, hrest⟩ := Binding.tokens_inj hbinding
      obtain ⟨rfl, hmore⟩ := ih hrest
      exact ⟨by rw [Mark.token_inj hsemi], hmore⟩

/-- The tokens after the `;` in front. -/
theorem Inside.current_ne_semi (i : Inside) (rest : List Token) :
    (current (i.bindings.elim [] (·.tokens) ++ (semis i.trailing ++ i.right.token :: rest))).kind ≠
      .semi := by
  obtain ⟨leading, bindings, trailing, right, settled⟩ := i
  cases bindings with
  | none =>
    obtain rfl := settled rfl
    exact nofun
  | some b => exact nofun

theorem Inside.tokens_inj {i i' : Inside} {rest rest' : List Token}
    (h : i.tokens ++ rest = i'.tokens ++ rest') : i = i' ∧ rest = rest' := by
  rw [tokens_append, tokens_append] at h
  obtain ⟨hleading, hinside⟩ := semis_inj (i.current_ne_semi rest) (i'.current_ne_semi rest') h
  obtain ⟨leading, bindings, trailing, right, settled⟩ := i
  obtain ⟨leading', bindings', trailing', right', settled'⟩ := i'
  obtain rfl : leading = leading' := hleading
  have stray : ∀ {b : Bindings} {right : Mark .rbrace} {rest rest' : List Token},
      right.token :: rest ≠ b.tokens ++ rest' := by
    intro b right rest rest' hb
    cases congrArg (fun ts => (current ts).kind) hb
  cases bindings with
  | none =>
    obtain rfl := settled rfl
    cases bindings' with
    | none =>
      obtain rfl := settled' rfl
      obtain ⟨hright, hrest⟩ := List.cons.inj hinside
      obtain rfl := Mark.token_inj hright
      exact ⟨rfl, hrest⟩
    | some b' => exact absurd hinside stray
  | some b =>
    cases bindings' with
    | none =>
      obtain rfl := settled' rfl
      exact absurd hinside.symm stray
    | some b' =>
      obtain ⟨first, more⟩ := b
      obtain ⟨first', more'⟩ := b'
      simp only [Option.elim_some, Bindings.tokens, List.append_assoc] at hinside
      obtain ⟨rfl, hmore⟩ := Binding.tokens_inj hinside
      obtain ⟨rfl, rfl, rfl, hrest⟩ := Next.more_inj hmore
      exact ⟨rfl, hrest⟩

theorem Body.tokens_inj {b b' : Body} {rest rest' : List Token}
    (h : b.tokens ++ rest = b'.tokens ++ rest') : b = b' ∧ rest = rest' := by
  obtain ⟨left, inside⟩ := b
  obtain ⟨left', inside'⟩ := b'
  obtain ⟨hleft, hinside⟩ := List.cons.inj h
  obtain rfl := Mark.token_inj hleft
  obtain ⟨rfl, hrest⟩ := Inside.tokens_inj hinside
  exact ⟨rfl, hrest⟩

/-- An optional part starts with its bracket, or what follows it is in front. -/
theorem current_optional {α : Type} (yield : α → List Token) {opening : TokenKind}
    (hstart : ∀ x rest, (current (yield x ++ rest)).kind = opening) (o : Option α)
    (rest : List Token) :
    (current (o.elim [] yield ++ rest)).kind = opening ∨
      (current (o.elim [] yield ++ rest)).kind = (current rest).kind := by
  cases o with
  | none => exact .inr rfl
  | some x => exact .inl (hstart x rest)

/-- What follows the arguments of a definition opens no references, and what follows its name and
references opens no arguments. -/
theorem Definition.tokens_inj {d d' : Definition} {rest rest' : List Token}
    (hr : opens? (current rest).kind = none) (hr' : opens? (current rest').kind = none)
    (h : d.tokens ++ rest = d'.tokens ++ rest') : d = d' ∧ rest = rest' := by
  rw [tokens_append, tokens_append] at h
  obtain ⟨name, references, arguments, body⟩ := d
  obtain ⟨name', references', arguments', body'⟩ := d'
  have body_apart : ∀ {rest : List Token}, opens? (current rest).kind = none →
      (current rest).kind ≠ .lbrace := by
    intro rest hrest heq
    rw [heq] at hrest
    cases hrest
  have arguments_apart : ∀ {rest : List Token} (b : Option Body),
      opens? (current rest).kind = none →
      (current (b.elim [] (·.tokens) ++ rest)).kind ≠ .lparen := by
    intro rest b hrest heq
    rcases current_optional Body.tokens (fun _ _ => rfl) b rest with hb | hb
    · rw [hb] at heq
      cases heq
    · rw [← hb, heq] at hrest
      cases hrest
  have references_apart : ∀ {rest : List Token} (a : Option Arguments) (b : Option Body),
      opens? (current rest).kind = none →
      (current (a.elim [] (·.tokens) ++ (b.elim [] (·.tokens) ++ rest))).kind ≠ .langle := by
    intro rest a b hrest heq
    rcases current_optional Arguments.tokens (fun _ _ => rfl) a
      (b.elim [] (·.tokens) ++ rest) with ha | ha
    · rw [ha] at heq
      cases heq
    · rw [heq] at ha
      rcases current_optional Body.tokens (fun _ _ => rfl) b rest with hb | hb
      · rw [hb] at ha
        cases ha
      · rw [← hb, ← ha] at hrest
        cases hrest
  obtain ⟨hname, hreferences⟩ := List.cons.inj h
  obtain rfl := Name.token_inj hname
  obtain ⟨rfl, harguments⟩ := optional_inj .langle (fun _ _ => rfl)
    References.tokens_inj (references_apart _ _ hr) (references_apart _ _ hr') hreferences
  obtain ⟨rfl, hbody⟩ := optional_inj .lparen (fun _ _ => rfl)
    Arguments.tokens_inj (arguments_apart _ hr) (arguments_apart _ hr') harguments
  obtain ⟨rfl, hrest⟩ := optional_inj .lbrace (fun _ _ => rfl)
    Body.tokens_inj (body_apart hr) (body_apart hr') hbody
  exact ⟨rfl, hrest⟩

theorem opens?_definitions (ds : List Definition) (ending : Mark .eof) :
    opens? (current (ds.flatMap (·.tokens) ++ [ending.token])).kind = none := by
  cases ds <;> rfl

/-- Tokens have at most one derivation. -/
theorem Derivation.tokens_inj {d d' : Derivation} (h : d.tokens = d'.tokens) : d = d' := by
  obtain ⟨ds, ending⟩ := d
  obtain ⟨ds', ending'⟩ := d'
  simp only [Derivation.tokens] at h
  have stray : ∀ {e : Mark .eof} {d : Definition} {rest : List Token}, [e.token] ≠ d.tokens ++ rest := by
    intro e d rest hd
    cases congrArg (fun ts => (current ts).kind) hd
  induction ds generalizing ds' with
  | nil =>
    cases ds' with
    | nil =>
      obtain rfl := Mark.token_inj (List.cons.inj h).1
      rfl
    | cons d' ds' =>
      rw [List.flatMap_cons, List.append_assoc] at h
      exact absurd h stray
  | cons d ds ih =>
    rw [List.flatMap_cons, List.append_assoc] at h
    cases ds' with
    | nil => exact absurd h.symm stray
    | cons d' ds' =>
      rw [List.flatMap_cons, List.append_assoc] at h
      obtain ⟨rfl, hrest⟩ :=
        Definition.tokens_inj (opens?_definitions ds ending) (opens?_definitions ds' ending') h
      cases ih ds' hrest
      rfl

end EnvManifest.Grammar
