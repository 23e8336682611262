import EnvManifest.Proofs.Manifest.Grammar
import EnvManifest.Proofs.Manifest.Parsing
import Mathlib

/-!
# What the parser accepts

Each parser finds a derivation of its rule, and each derivation is found. So a manifest text is
accepted if and only if its tokens have a derivation, and then the manifest is what it stands for.
-/

namespace EnvManifest.Grammar

/-! ## Series -/

/-- What a parser gives back, where that ends, and the tokens it leaves. -/
def whole {α : Type} {tokens : List Token} (r : Except Misparse (Parsed tokens α)) :
    Except Misparse (α × Nat × List Token) := r.map fun p => (p.value, p.stop, p.rest)

theorem whole_ok {α : Type} {tokens rest : List Token} {r : Except Misparse (Parsed tokens α)}
    {value : α} {stop : Nat} (h : whole r = .ok (value, stop, rest)) :
    ∃ shorter, r = .ok ⟨value, stop, rest, shorter⟩ := by
  cases r with
  | error e => cases h
  | ok p =>
    cases h
    exact ⟨p.shorter, rfl⟩

/-- The first token, if it is not the end. -/
theorem current_kind {kind : TokenKind} (hk : kind ≠ .eof) {tokens : List Token}
    (h : (current tokens).kind = kind) : ∃ (m : Mark kind) (rest : List Token), m.token :: rest = tokens := by
  cases tokens with
  | nil => exact absurd h.symm hk
  | cons t ts =>
    obtain ⟨m, rfl⟩ := Mark.of_kind h
    exact ⟨m, ts, rfl⟩

theorem map_ok {ε γ δ : Type} {f : γ → δ} {r : Except ε γ} {d : δ} (h : r.map f = .ok d) :
    ∃ a, r = .ok a ∧ f a = d := by
  cases r with
  | error e => cases h
  | ok a => exact ⟨a, rfl, Except.ok.inj h⟩

section

variable {α β : Type} {closing : TokenKind} {yield : α → List Token} {value : α → β}
  {item : List Token → Except Misparse (β × List Token)} {fault : List Token → Misparse}
  {parser : List Token → Except Misparse (List β × Nat × List Token)}

/-- After an item stands a comma, and then more of the series, or its end. -/
def afterItem (closing : TokenKind) (fault : List Token → Misparse)
    (parser : List Token → Except Misparse (List β × Nat × List Token)) (b : β)
    (after : List Token) : Except Misparse (List β × Nat × List Token) :=
  match after with
  | [] => .error (fault [])
  | t :: rest =>
    if t.kind = .comma ∨ t.kind = closing then
      (parser (if t.kind = .comma then rest else t :: rest)).map fun r => (b :: r.1, r.2)
    else .error (fault (t :: rest))

theorem afterItem_goes {b : β} {t : Token} {rest : List Token}
    (h : t.kind = .comma ∨ t.kind = closing) :
    afterItem closing fault parser b (t :: rest) =
      (parser (if t.kind = .comma then rest else t :: rest)).map fun r => (b :: r.1, r.2) := if_pos h

theorem afterItem_stray {b : β} {t : Token} {rest : List Token}
    (h : ¬(t.kind = .comma ∨ t.kind = closing)) :
    afterItem closing fault parser b (t :: rest) = .error (fault (t :: rest)) := if_neg h

theorem afterItem_comma (b : β) (comma : Mark .comma) (rest : List Token) :
    afterItem closing fault parser b (comma.token :: rest) =
      (parser rest).map fun r => (b :: r.1, r.2) := by
  rw [afterItem_goes (.inl comma.token_kind), if_pos comma.token_kind]

theorem afterItem_closing (h : closing ≠ .comma) (b : β) (c : Mark closing) (rest : List Token) :
    afterItem closing fault parser b (c.token :: rest) =
      (parser (c.token :: rest)).map fun r => (b :: r.1, r.2) := by
  rw [afterItem_goes (.inr c.token_kind), if_neg (by rwa [c.token_kind])]

theorem afterItem_ok {b : β} {after rest : List Token} {bs : List β} {stop : Nat}
    (h : afterItem closing fault parser b after = .ok (bs, stop, rest)) :
    ∃ more, parser more = .ok (bs.tail, stop, rest) ∧ bs = b :: bs.tail ∧
      ((∃ comma : Mark .comma, after = comma.token :: more) ∨
        (after = more ∧ ∃ (c : Mark closing) (ts : List Token), after = c.token :: ts)) := by
  unfold afterItem at h
  split at h
  · cases h
  rename_i t ts
  split at h
  · rename_i hkind
    obtain ⟨⟨vs, r⟩, hmore, heq⟩ := map_ok h
    cases heq
    refine ⟨_, hmore, rfl, ?_⟩
    by_cases hcomma : t.kind = .comma
    · obtain ⟨comma, rfl⟩ := Mark.of_kind hcomma
      exact .inl ⟨comma, by rw [if_pos hcomma]⟩
    · obtain ⟨c, rfl⟩ := Mark.of_kind (hkind.resolve_left hcomma)
      exact .inr ⟨by rw [if_neg hcomma], c, ts, rfl⟩
  · cases h

/-- The end, or an item and what follows it. -/
structure SeriesParser (closing : TokenKind) (fault : List Token → Misparse)
    (item : List Token → Except Misparse (β × List Token))
    (parser : List Token → Except Misparse (List β × Nat × List Token)) : Prop where
  ne_eof : closing ≠ .eof
  stops (c : Mark closing) (rest : List Token) : parser (c.token :: rest) = .ok ([], c.span.stop, rest)
  goes {tokens : List Token} (h : (current tokens).kind ≠ closing) :
    parser tokens = (item tokens).bind fun r => afterItem closing fault parser r.1 r.2

/-- A parser finds derivations of an item, and all of them. -/
structure ItemParser (closing : TokenKind) (yield : α → List Token) (value : α → β)
    (item : List Token → Except Misparse (β × List Token)) : Prop where
  itemwise : Itemwise yield closing
  sound {tokens rest : List Token} {b : β} (h : item tokens = .ok (b, rest)) :
    ∃ x, yield x ++ rest = tokens ∧ value x = b
  complete (x : α) {rest : List Token} (h : Follows closing rest) :
    item (yield x ++ rest) = .ok (value x, rest)

/-- An item and a comma in front of a series. -/
def Series.cons (x : α) (comma : Mark .comma) : Series α → Series α
  | .empty => .items x [] (some comma)
  | .items first more trailing => .items x ((comma, first) :: more) trailing

theorem Series.tokens_cons (x : α) (comma : Mark .comma) (s : Series α) :
    (Series.cons x comma s).tokens yield = yield x ++ comma.token :: s.tokens yield := by
  cases s with
  | empty => rfl
  | items first more trailing => rw [cons, tokens, tail_cons, tokens]

theorem Series.values_cons (x : α) (comma : Mark .comma) (s : Series α) :
    (Series.cons x comma s).values = x :: s.values := by
  cases s <;> rfl

theorem SeriesParser.sound (hp : SeriesParser closing fault item parser)
    (hi : ItemParser closing yield value item) {tokens rest : List Token} {bs : List β} {stop : Nat}
    (h : parser tokens = .ok (bs, stop, rest)) :
    ∃ (s : Series α) (c : Mark closing), s.tokens yield ++ c.token :: rest = tokens ∧
      s.values.map value = bs ∧ c.span.stop = stop := by
  induction hn : tokens.length using Nat.strongRecOn generalizing tokens bs with
  | ind n ih =>
  by_cases hc : (current tokens).kind = closing
  · obtain ⟨c, ts, rfl⟩ := current_kind hp.ne_eof hc
    rw [hp.stops] at h
    cases h
    exact ⟨.empty, c, rfl, rfl, rfl⟩
  · rw [hp.goes hc] at h
    cases hb : item tokens with
    | error e =>
      rw [hb] at h
      cases h
    | ok r =>
      obtain ⟨b, after⟩ := r
      obtain ⟨x, rfl, rfl⟩ := hi.sound hb
      rw [hb] at h
      obtain ⟨more, hmore, hbs, ⟨comma, rfl⟩ | ⟨rfl, c, ts, rfl⟩⟩ := afterItem_ok h
      · obtain ⟨s, c, hs, hvalues, hstop⟩ := ih more.length
          (by rw [← hn, List.length_append, List.length_cons]; omega) hmore rfl
        refine ⟨s.cons x comma, c, ?_, ?_, hstop⟩
        · rw [Series.tokens_cons, List.append_assoc, List.cons_append, hs]
        · rw [Series.values_cons, List.map_cons, hvalues, ← hbs]
      · rw [hp.stops] at hmore
        obtain ⟨htail, hrest⟩ := Prod.mk.inj (Except.ok.inj hmore)
        cases hrest
        refine ⟨.items x [] none, c, ?_, ?_, rfl⟩
        · rw [Series.tokens, Series.tail_end, List.append_nil]
        · rw [hbs, ← htail]
          rfl

theorem SeriesParser.complete_items (hp : SeriesParser closing fault item parser)
    (hi : ItemParser closing yield value item) (x : α) (more : List (Mark .comma × α))
    (trailing : Option (Mark .comma)) (c : Mark closing) (rest : List Token) :
    parser (yield x ++ (Series.tail yield more trailing ++ c.token :: rest)) =
      .ok (value x :: more.map (value ·.2), c.span.stop, rest) := by
  have hitem : ∀ (x : α) (more : List (Mark .comma × α)),
      parser (yield x ++ (Series.tail yield more trailing ++ c.token :: rest)) =
        afterItem closing fault parser (value x)
          (Series.tail yield more trailing ++ c.token :: rest) := by
    intro x more
    rw [hp.goes (fun h => hi.itemwise.starts x _ (.inr h)),
      hi.complete x (Series.follows_tail more trailing c rest)]
    rfl
  induction more generalizing x with
  | nil =>
    rw [hitem x []]
    cases trailing with
    | none =>
      rw [Series.tail_end, List.nil_append, afterItem_closing hi.itemwise.apart, hp.stops]
      rfl
    | some comma =>
      rw [Series.tail_comma, List.singleton_append, afterItem_comma, hp.stops]
      rfl
  | cons m more ih =>
    obtain ⟨comma, y⟩ := m
    rw [hitem x, Series.tail_cons, List.cons_append, List.append_assoc, afterItem_comma, ih y]
    rfl

theorem SeriesParser.complete (hp : SeriesParser closing fault item parser)
    (hi : ItemParser closing yield value item) (s : Series α) (c : Mark closing)
    (rest : List Token) :
    parser (s.tokens yield ++ c.token :: rest) = .ok (s.values.map value, c.span.stop, rest) := by
  cases s with
  | empty => exact hp.stops c rest
  | items first more trailing =>
    rw [Series.tokens, List.append_assoc, hp.complete_items hi, Series.values, List.map_cons,
      List.map_map]
    rfl

end

/-! ## Arguments and references -/

/-- A value in front of other tokens. -/
def parseParameter (tokens : List Token) : Except Misparse (Parameter × List Token) :=
  match tokens with
  | [] => .error (unexpected .parameterValue [])
  | t :: rest => (parseValue t).map fun v => (⟨v, t.span⟩, rest)

theorem wordValue_eq (text : String) :
    wordValue text =
      if text = "true" then .bool true else if text = "false" then .bool false else .word text := by
  unfold wordValue
  split
  · rfl
  · rfl
  · rename_i htrue hfalse
    rw [if_neg htrue, if_neg hfalse]

theorem parseValue_token (v : Value) : parseValue v.token = .ok v.parameter.value := by
  cases v with
  | str value span => rfl
  | number text value valid span => simp [parseValue, Value.token, Value.parameter, valid]
  | word text span => exact congrArg Except.ok (wordValue_eq text)

theorem parseValue_ok {t : Token} {v : ParamValue} (h : parseValue t = .ok v) :
    ∃ x : Value, x.token = t ∧ x.parameter = ⟨v, t.span⟩ := by
  obtain ⟨kind, span⟩ := t
  unfold parseValue at h
  split at h
  · rename_i value hk
    cases h
    cases hk
    exact ⟨.str value span, rfl, rfl⟩
  · rename_i text hk
    cases hk
    split at h
    · rename_i valid
      cases h
      exact ⟨.number text v valid span, rfl, rfl⟩
    · cases h
  · rename_i word hk
    cases h
    cases hk
    exact ⟨.word word span, rfl, by rw [Value.parameter, wordValue_eq]⟩
  · cases h

theorem parseParameter_items :
    ItemParser .rparen Value.tokens Value.parameter parseParameter where
  itemwise := Value.itemwise
  sound {tokens rest b} h := by
    cases tokens with
    | nil => cases h
    | cons t ts =>
      obtain ⟨v, hv, heq⟩ := map_ok h
      cases heq
      obtain ⟨x, rfl, hx⟩ := parseValue_ok hv
      exact ⟨x, rfl, hx⟩
  complete x {rest} _ := by
    have hspan : x.token.span = x.parameter.span := by cases x <;> rfl
    change (parseValue x.token).map _ = _
    rw [parseValue_token, hspan]
    rfl

theorem parseValues_series :
    SeriesParser .rparen (unexpected .commaOrParen) parseParameter (whole <| parseValues ·) where
  ne_eof := nofun
  stops c rest := by
    rw [parseValues, if_pos c.token_kind]
    rfl
  goes {tokens} h := by
    cases tokens with
    | nil =>
      rw [parseValues]
      rfl
    | cons t ts =>
      rw [parseValues, if_neg (show t.kind ≠ .rparen from h), parseParameter]
      cases parseValue t with
      | error e => rfl
      | ok v =>
        cases ts with
        | nil => rfl
        | cons s more =>
          dsimp only [Except.map, Except.bind]
          by_cases hs : s.kind = .comma ∨ s.kind = .rparen
          · rw [afterItem_goes hs, if_pos hs]
            cases parseValues (if s.kind = .comma then more else s :: more) <;> rfl
          · rw [afterItem_stray hs, if_neg hs]
            rfl

theorem parseArguments_sound {stop stop' : Nat} {tokens after : List Token}
    {arguments : List Parameter}
    (h : seenArguments (parseArguments stop tokens) = .ok (arguments, stop', after)) :
    ∃ a : Option Arguments, a.elim [] (·.tokens) ++ after = tokens ∧
      a.elim [] (·.parameters) = arguments ∧ a.elim stop (·.right.span.stop) = stop' := by
  unfold parseArguments at h
  split at h
  · cases h
    exact ⟨none, rfl, rfl, rfl⟩
  split at h
  · rename_i t rest ht
    obtain ⟨left, rfl⟩ := Mark.of_kind ht
    split at h
    · cases h
    · rename_i p hp
      cases h
      obtain ⟨s, right, hs, hvalues, hstop⟩ :=
        parseValues_series.sound parseParameter_items (congrArg whole hp)
      refine ⟨some ⟨left, s, right⟩, ?_, hvalues, hstop⟩
      exact (Enclosed.tokens_append Value.tokens _ _).trans (congrArg _ hs)
  · cases h
    exact ⟨none, rfl, rfl, rfl⟩

theorem parseValues_complete (s : Series Value) (right : Mark .rparen) (rest : List Token) :
    ∃ shorter, parseValues (s.tokens Value.tokens ++ right.token :: rest) =
      .ok ⟨s.values.map (·.parameter), right.span.stop, rest, shorter⟩ :=
  whole_ok (parseValues_series.complete parseParameter_items s right rest)

theorem parseArguments_complete (stop : Nat) (a : Option Arguments) {rest : List Token}
    (h : (current rest).kind ≠ .lparen) :
    seenArguments (parseArguments stop (a.elim [] (·.tokens) ++ rest)) =
      .ok (a.elim [] (·.parameters), a.elim stop (·.right.span.stop), rest) := by
  cases a with
  | none =>
    cases rest with
    | nil => rfl
    | cons t ts => exact seenArguments_none h stop ts
  | some a =>
    obtain ⟨left, s, right⟩ := a
    obtain ⟨shorter, hs⟩ := parseValues_complete s right rest
    have htokens : (some ⟨left, s, right⟩).elim [] Arguments.tokens ++ rest =
        left.token :: (s.tokens Value.tokens ++ right.token :: rest) := Enclosed.tokens_append ..
    rw [htokens]
    exact seenArguments_some left.token_kind hs stop

/-- A reference in front of other tokens. -/
def parseReference (tokens : List Token) : Except Misparse (Composite × List Token) :=
  match tokens with
  | [] => .error (unexpected .compositeName [])
  | t :: rest =>
    match t.kind with
    | .ident ident =>
      (seenArguments (parseArguments t.span.stop rest)).map fun r =>
        (⟨ident, r.1, ⟨t.span.start, r.2.1⟩⟩, r.2.2)
    | _ => .error (unexpected .compositeName (t :: rest))

theorem parseReference_items :
    ItemParser .rangle Reference.tokens Reference.composite parseReference where
  itemwise := Reference.itemwise
  sound {tokens rest c} h := by
    unfold parseReference at h
    split at h
    · cases h
    rename_i t ts
    split at h
    · rename_i ident ht
      obtain ⟨⟨arguments, stop, after⟩, hseen, heq⟩ := map_ok h
      cases heq
      obtain ⟨a, rfl, rfl, rfl⟩ := parseArguments_sound hseen
      refine ⟨⟨⟨ident, t.span⟩, a⟩, ?_, rfl⟩
      rw [Reference.tokens, Name.of_kind ht, List.cons_append]
    · cases h
  complete r {rest} h := by
    have hrest : (current rest).kind ≠ .lparen := by
      rcases h with h | h <;> rw [h] <;> decide
    have hseen := parseArguments_complete r.name.span.stop r.arguments hrest
    change (seenArguments (parseArguments r.name.span.stop (r.arguments.elim [] (·.tokens) ++ rest))).map
      _ = _
    rw [hseen]
    rfl

theorem parseComposites_series :
    SeriesParser .rangle (unexpected .commaOrAngle) parseReference (whole <| parseComposites ·) where
  ne_eof := nofun
  stops c rest := by
    rw [parseComposites]
    rfl
  goes {tokens} h := by
    unfold parseReference
    cases tokens with
    | nil =>
      rw [parseComposites]
      rfl
    | cons t ts =>
      obtain ⟨kind, span⟩ := t
      rw [parseComposites]
      cases kind
      case ident ident =>
        dsimp only
        cases parseArguments span.stop ts with
        | error e => rfl
        | ok r =>
          obtain ⟨arguments, stop, after, shorter⟩ := r
          cases after with
          | nil => rfl
          | cons s more =>
            dsimp only [seenArguments, Except.map, Except.bind]
            by_cases hs : s.kind = .comma ∨ s.kind = .rangle
            · rw [afterItem_goes hs, if_pos hs]
              cases parseComposites (if s.kind = .comma then more else s :: more) <;> rfl
            · rw [afterItem_stray hs, if_neg hs]
              rfl
      case rangle => exact absurd rfl h
      all_goals rfl

/-! ## Statements -/

theorem parseStatement_sound {tokens : List Token} {p : Parsed tokens Statement}
    (h : parseStatement tokens = .ok p) :
    ∃ b : Binding, b.tokens ++ p.rest = tokens ∧ b.statement = p.value := by
  unfold parseStatement at h
  split at h
  · cases h
  rename_i t rest
  split at h
  · rename_i ident ht
    split at h
    · rename_i hvariable
      split at h
      · cases h
      rename_i a rest
      split at h
      · rename_i ha
        obtain ⟨sign, rfl⟩ := Mark.of_kind ha
        split at h
        · cases h
        rename_i e rest
        split at h
        · rename_i text he
          split at h
          · cases h
          · rename_i hfilled
            cases h
            obtain ⟨kind, span⟩ := e
            cases he
            refine ⟨⟨⟨ident, t.span⟩, hvariable, sign, text, by simpa using hfilled, span⟩, ?_, rfl⟩
            rw [Binding.tokens, Name.of_kind ht]
            rfl
        · cases h
      · cases h
    · cases h
  · cases h

theorem parseStatement_complete (b : Binding) (rest : List Token) :
    ∃ shorter, parseStatement (b.name.token :: b.sign.token :: ⟨.expr b.source, b.span⟩ :: rest) =
      .ok ⟨b.statement, b.span.stop, rest, shorter⟩ := by
  refine ⟨by simp only [List.length_cons]; omega, ?_⟩
  simp [parseStatement, Binding.statement, Name.token, b.isVariable, b.isFilled]

theorem whole_parseStatements_semi (m : Mark .semi) (rest : List Token) :
    whole (parseStatements (m.token :: rest)) = whole (parseStatements rest) := by
  rw [parseStatements, if_pos m.token_kind]
  cases parseStatements rest <;> rfl

theorem whole_parseStatements_semis (ms : List (Mark .semi)) (rest : List Token) :
    whole (parseStatements (semis ms ++ rest)) = whole (parseStatements rest) := by
  induction ms with
  | nil => rfl
  | cons m ms ih => exact (whole_parseStatements_semi m (semis ms ++ rest)).trans ih

theorem whole_parseStatements_end (right : Mark .rbrace) (rest : List Token) :
    whole (parseStatements (right.token :: rest)) = .ok ([], right.span.stop, rest) := by
  rw [parseStatements, if_neg (by rw [right.token_kind]; decide), if_pos right.token_kind]
  rfl

/-- Does a text go on after a statement? -/
def Separates (rest : List Token) : Prop :=
  (current rest).kind = .semi ∨ (current rest).kind = .rbrace

theorem whole_parseStatements_binding (b : Binding) {rest : List Token} (h : Separates rest) :
    whole (parseStatements (b.tokens ++ rest)) =
      (whole (parseStatements rest)).map fun r => (b.statement :: r.1, r.2) := by
  obtain ⟨shorter, hs⟩ := parseStatement_complete b rest
  simp only [Binding.tokens, List.cons_append, List.nil_append]
  rw [parseStatements, if_neg (by simp [Name.token]), if_neg (by simp [Name.token]), hs]
  dsimp only
  rw [if_pos (show _ ∨ _ from h)]
  cases parseStatements rest <;> rfl

theorem parseStatements_ok {t : Token} {ts rest : List Token} {ss : List Statement} {stop : Nat}
    (hsemi : t.kind ≠ .semi) (hbrace : t.kind ≠ .rbrace)
    (h : whole (parseStatements (t :: ts)) = .ok (ss, stop, rest)) :
    ∃ p, parseStatement (t :: ts) = .ok p ∧ Separates p.rest ∧
      ∃ more, whole (parseStatements p.rest) = .ok (more, stop, rest) ∧ ss = p.value :: more := by
  rw [parseStatements, if_neg hsemi, if_neg hbrace] at h
  split at h
  · cases h
  · rename_i p hp
    split at h
    · rename_i hsep
      split at h
      · cases h
      · rename_i q hq
        cases h
        exact ⟨p, hp, hsep, q.value, congrArg whole hq, rfl⟩
    · cases h

/-- A `;` in front of the inside of a body. -/
def Inside.semi (m : Mark .semi) (i : Inside) : Inside := { i with leading := m :: i.leading }

/-- A statement in front of the inside of a body. The `;` in front there come after it. -/
def Inside.binding (b : Binding) : Inside → Inside
  | ⟨leading, none, _, right, _⟩ => ⟨[], some ⟨b, []⟩, leading, right, nofun⟩
  | ⟨[], some _, trailing, right, _⟩ => ⟨[], some ⟨b, []⟩, trailing, right, nofun⟩
  | ⟨semi :: ms, some ⟨first, more⟩, trailing, right, _⟩ =>
    ⟨[], some ⟨b, ⟨semi, ms, first⟩ :: more⟩, trailing, right, nofun⟩

theorem Inside.tokens_binding (b : Binding) (i : Inside) {rest : List Token}
    (h : Separates (i.tokens ++ rest)) :
    (i.binding b).tokens = b.tokens ++ i.tokens := by
  obtain ⟨leading, bindings, trailing, right, settled⟩ := i
  cases bindings with
  | none =>
    obtain rfl := settled rfl
    simp [binding, tokens, Bindings.tokens, semis]
  | some bs =>
    cases leading with
    | nil => rcases h with h | h <;> cases h
    | cons m ms => simp [binding, tokens, Bindings.tokens, Next.tokens, semis]

theorem Inside.statements_binding (b : Binding) (i : Inside) {rest : List Token}
    (h : Separates (i.tokens ++ rest)) :
    (i.binding b).statements = b.statement :: i.statements := by
  obtain ⟨leading, bindings, trailing, right, settled⟩ := i
  cases bindings with
  | none => rfl
  | some bs =>
    cases leading with
    | nil => rcases h with h | h <;> cases h
    | cons m ms => rfl

theorem Inside.right_binding (b : Binding) (i : Inside) : (i.binding b).right = i.right := by
  obtain ⟨leading, bindings, trailing, right, settled⟩ := i
  cases bindings with
  | none => rfl
  | some bs => cases leading <;> rfl

theorem parseStatements_sound {tokens rest : List Token} {ss : List Statement} {stop : Nat}
    (h : whole (parseStatements tokens) = .ok (ss, stop, rest)) :
    ∃ i : Inside, i.tokens ++ rest = tokens ∧ i.statements = ss ∧ i.right.span.stop = stop := by
  induction hn : tokens.length using Nat.strongRecOn generalizing tokens ss with
  | ind n ih =>
  by_cases hsemi : (current tokens).kind = .semi
  · obtain ⟨m, ts, rfl⟩ := current_kind (by decide) hsemi
    rw [whole_parseStatements_semi] at h
    obtain ⟨i, rfl, rfl, rfl⟩ := ih ts.length (by rw [← hn, List.length_cons]; omega) h rfl
    exact ⟨i.semi m, rfl, rfl, rfl⟩
  by_cases hbrace : (current tokens).kind = .rbrace
  · obtain ⟨right, ts, rfl⟩ := current_kind (by decide) hbrace
    rw [whole_parseStatements_end] at h
    cases h
    exact ⟨⟨[], none, [], right, fun _ => rfl⟩, rfl, rfl, rfl⟩
  cases tokens with
  | nil =>
    rw [parseStatements] at h
    cases h
  | cons t ts =>
    obtain ⟨p, hs, hsep, more, hmore, rfl⟩ := parseStatements_ok (t := t) hsemi hbrace h
    obtain ⟨b, hb, hvalue⟩ := parseStatement_sound hs
    obtain ⟨i, hi, rfl, rfl⟩ := ih p.rest.length (hn ▸ p.shorter) hmore rfl
    rw [← hi] at hsep hb
    refine ⟨i.binding b, ?_, ?_, congrArg (·.span.stop) (i.right_binding b)⟩
    · rw [i.tokens_binding b hsep, List.append_assoc, hb]
    · rw [i.statements_binding b hsep, hvalue]

theorem separates_more (more : List Next) (trailing : List (Mark .semi)) (right : Mark .rbrace)
    (rest : List Token) :
    Separates (more.flatMap (·.tokens) ++ (semis trailing ++ right.token :: rest)) := by
  cases more with
  | cons n more => exact .inl rfl
  | nil =>
    cases trailing with
    | nil => exact .inr rfl
    | cons m ms => exact .inl rfl

theorem parseStatements_complete (i : Inside) (rest : List Token) :
    whole (parseStatements (i.tokens ++ rest)) = .ok (i.statements, i.right.span.stop, rest) := by
  rw [i.tokens_append, whole_parseStatements_semis]
  obtain ⟨leading, bindings, trailing, right, settled⟩ := i
  have hend : whole (parseStatements (semis trailing ++ right.token :: rest)) =
      .ok ([], right.span.stop, rest) := by
    rw [whole_parseStatements_semis, whole_parseStatements_end]
  cases bindings with
  | none => exact hend
  | some bs =>
    obtain ⟨first, more⟩ := bs
    have hmore : whole (parseStatements
        (more.flatMap (·.tokens) ++ (semis trailing ++ right.token :: rest))) =
        .ok (more.map (·.binding.statement), right.span.stop, rest) := by
      clear settled
      induction more with
      | nil => exact hend
      | cons n more ih =>
        rw [List.flatMap_cons, Next.tokens, List.append_assoc, List.cons_append, List.append_assoc,
          whole_parseStatements_semi, whole_parseStatements_semis,
          whole_parseStatements_binding _ (separates_more more trailing right rest), ih]
        rfl
    dsimp only [Option.elim_some]
    rw [Bindings.tokens, List.append_assoc, whole_parseStatements_binding _ (separates_more more trailing right rest), hmore]
    rfl

/-! ## Sections -/

/-- A namespace with references, which ends with them. -/
def addReferences (r : Option References) (n : Namespace) : Namespace :=
  r.elim n fun r => { n with composites := r.composites, span := ⟨n.span.start, r.right.span.stop⟩ }

/-- A namespace with parameters, which ends with them. -/
def addArguments (a : Option Arguments) (n : Namespace) : Namespace :=
  a.elim n fun a => { n with parameters := a.parameters, span := ⟨n.span.start, a.right.span.stop⟩ }

/-- A namespace with statements, which ends with them. -/
def addBody (b : Option Body) (n : Namespace) : Namespace :=
  b.elim n fun b =>
    { n with statements := b.inside.statements, span := ⟨n.span.start, b.inside.right.span.stop⟩ }

theorem Definition.toNamespace_eq (origin : Nat) (d : Definition) :
    d.toNamespace origin = addBody d.body (addArguments d.arguments
      (addReferences d.references ⟨d.name.text, [], [], [], origin, d.name.span⟩)) := by
  obtain ⟨name, references, arguments, body⟩ := d
  cases body <;> cases arguments <;> cases references <;> rfl

/-- The token that opens a section. -/
def opening : Section → TokenKind
  | .composites => .langle
  | .parameters => .lparen
  | .statements => .lbrace

theorem opens?_eq_some {kind : TokenKind} {s : Section} (h : opens? kind = some s) : kind = opening s := by
  unfold opens? at h
  split at h <;> cases h <;> rfl

theorem parseSections_ok {last : Option Section} {n m : Namespace} {tokens after : List Token}
    (h : ends (parseSections last n tokens) = .ok (m, after)) :
    (m = n ∧ after = tokens) ∨
      ∃ (s : Section) (left : Mark (opening s)) (rest : List Token) (p : Parsed rest Namespace),
        left.token :: rest = tokens ∧ sectionFault? last s = none ∧ parseSection s n rest = .ok p ∧
          ends (parseSections (some s) { p.value with span := ⟨n.span.start, p.stop⟩ } p.rest) =
            .ok (m, after) := by
  cases tokens with
  | nil =>
    rw [parseSections] at h
    cases h
    exact .inl ⟨rfl, rfl⟩
  | cons t rest =>
    cases hs : opens? t.kind with
    | none =>
      rw [parseSections] at h
      split at h
      · cases h
      · rw [hs] at h
        cases h
        exact .inl ⟨rfl, rfl⟩
    | some s =>
      obtain ⟨left, rfl⟩ := Mark.of_kind (opens?_eq_some hs)
      cases hf : sectionFault? last s with
      | some fault =>
        rw [parseSections, if_neg (by cases s <;> rintro ⟨⟩), hs] at h
        dsimp only at h
        rw [hf] at h
        cases h
      | none =>
        rw [ends_parseSections_section hs hf] at h
        cases hp : parseSection s n rest with
        | error e =>
          rw [hp] at h
          cases h
        | ok p =>
          rw [hp] at h
          exact .inr ⟨s, left, rest, p, rfl, hf, hp, h⟩

theorem parseSection_composites {n : Namespace} {rest : List Token} (left : Mark .langle)
    {p : Parsed rest Namespace} (h : parseSection .composites n rest = .ok p) :
    ∃ r : References, r.tokens ++ p.rest = left.token :: rest ∧
      { p.value with span := ⟨n.span.start, p.stop⟩ } = addReferences (some r) n := by
  cases hq : parseComposites rest with
  | error e =>
    rw [parseSection, hq] at h
    cases h
  | ok q =>
    rw [parseSection, hq] at h
    obtain rfl := Except.ok.inj h
    obtain ⟨s, right, hs, hvalues, hstop⟩ :=
      parseComposites_series.sound parseReference_items (congrArg whole hq)
    refine ⟨⟨left, s, right⟩, (Enclosed.tokens_append ..).trans (congrArg _ hs), ?_⟩
    dsimp only [addReferences, Option.elim_some, References.composites]
    rw [hvalues, hstop]

theorem parseSection_parameters {n : Namespace} {rest : List Token} (left : Mark .lparen)
    {p : Parsed rest Namespace} (h : parseSection .parameters n rest = .ok p) :
    ∃ a : Arguments, a.tokens ++ p.rest = left.token :: rest ∧
      { p.value with span := ⟨n.span.start, p.stop⟩ } = addArguments (some a) n := by
  cases hq : parseValues rest with
  | error e =>
    rw [parseSection, hq] at h
    cases h
  | ok q =>
    rw [parseSection, hq] at h
    obtain rfl := Except.ok.inj h
    obtain ⟨s, right, hs, hvalues, hstop⟩ :=
      parseValues_series.sound parseParameter_items (congrArg whole hq)
    refine ⟨⟨left, s, right⟩, (Enclosed.tokens_append ..).trans (congrArg _ hs), ?_⟩
    dsimp only [addArguments, Option.elim_some, Arguments.parameters]
    rw [hvalues, hstop]

theorem parseSection_statements {n : Namespace} {rest : List Token} (left : Mark .lbrace)
    {p : Parsed rest Namespace} (h : parseSection .statements n rest = .ok p) :
    ∃ b : Body, b.tokens ++ p.rest = left.token :: rest ∧
      { p.value with span := ⟨n.span.start, p.stop⟩ } = addBody (some b) n := by
  cases hq : parseStatements rest with
  | error e =>
    rw [parseSection, hq] at h
    cases h
  | ok q =>
    rw [parseSection, hq] at h
    obtain rfl := Except.ok.inj h
    obtain ⟨i, hi, hvalues, hstop⟩ := parseStatements_sound (congrArg whole hq)
    refine ⟨⟨left, i⟩, congrArg _ hi, ?_⟩
    dsimp only [addBody, Option.elim_some]
    rw [hvalues, hstop]

theorem parseSections_body {last : Section} (hlast : last ≠ .composites) {n m : Namespace}
    {tokens after : List Token} (h : ends (parseSections (some last) n tokens) = .ok (m, after)) :
    ∃ b : Option Body, b.elim [] (·.tokens) ++ after = tokens ∧ m = addBody b n := by
  obtain ⟨rfl, rfl⟩ | ⟨s, left, rest, p, rfl, hf, hp, hrest⟩ := parseSections_ok h
  · exact ⟨none, rfl, rfl⟩
  cases s with
  | composites => cases last <;> simp_all [sectionFault?, Section.index]
  | parameters => cases last <;> simp_all [sectionFault?, Section.index]
  | statements =>
    obtain ⟨b, hb, hvalue⟩ := parseSection_statements left hp
    obtain ⟨rfl, rfl⟩ := ends_parseSections_last hrest
    exact ⟨some b, hb, hvalue⟩

theorem parseSections_arguments {n m : Namespace} {tokens after : List Token}
    (h : ends (parseSections (some .composites) n tokens) = .ok (m, after)) :
    ∃ (a : Option Arguments) (b : Option Body),
      a.elim [] (·.tokens) ++ (b.elim [] (·.tokens) ++ after) = tokens ∧
        m = addBody b (addArguments a n) := by
  obtain ⟨rfl, rfl⟩ | ⟨s, left, rest, p, rfl, hf, hp, hrest⟩ := parseSections_ok h
  · exact ⟨none, none, rfl, rfl⟩
  cases s with
  | composites => cases hf
  | parameters =>
    obtain ⟨a, ha, hvalue⟩ := parseSection_parameters left hp
    obtain ⟨b, hb, rfl⟩ := parseSections_body (by decide) hrest
    refine ⟨some a, b, ?_, by rw [hvalue]⟩
    rw [hb]
    exact ha
  | statements =>
    obtain ⟨b, hb, hvalue⟩ := parseSection_statements left hp
    obtain ⟨rfl, rfl⟩ := ends_parseSections_last hrest
    exact ⟨none, some b, hb, hvalue⟩

theorem parseSections_references {n m : Namespace} {tokens after : List Token}
    (h : ends (parseSections none n tokens) = .ok (m, after)) :
    ∃ (r : Option References) (a : Option Arguments) (b : Option Body),
      r.elim [] (·.tokens) ++ (a.elim [] (·.tokens) ++ (b.elim [] (·.tokens) ++ after)) = tokens ∧
        m = addBody b (addArguments a (addReferences r n)) := by
  obtain ⟨rfl, rfl⟩ | ⟨s, left, rest, p, rfl, hf, hp, hrest⟩ := parseSections_ok h
  · exact ⟨none, none, none, rfl, rfl⟩
  cases s with
  | composites =>
    obtain ⟨r, hr, hvalue⟩ := parseSection_composites left hp
    obtain ⟨a, b, hab, rfl⟩ := parseSections_arguments hrest
    refine ⟨some r, a, b, ?_, by rw [hvalue]⟩
    rw [hab]
    exact hr
  | parameters =>
    obtain ⟨a, ha, hvalue⟩ := parseSection_parameters left hp
    obtain ⟨b, hb, rfl⟩ := parseSections_body (by decide) hrest
    refine ⟨none, some a, b, ?_, by rw [hvalue]; rfl⟩
    rw [hb]
    exact ha
  | statements =>
    obtain ⟨b, hb, hvalue⟩ := parseSection_statements left hp
    obtain ⟨rfl, rfl⟩ := ends_parseSections_last hrest
    exact ⟨none, none, some b, hb, hvalue⟩

/-! ## Each derivation is found -/

theorem ends_parseSections_fresh {rest : List Token} (h : NoSection (current rest).kind)
    (last : Option Section) (n : Namespace) : ends (parseSections last n rest) = .ok (n, rest) := by
  cases rest with
  | nil =>
    rw [parseSections]
    rfl
  | cons t ts => exact ends_parseSections_stop h last n ts

theorem ends_parseSections_body {last : Option Section} (hf : sectionFault? last .statements = none)
    (b : Option Body) (n : Namespace) {rest : List Token} (h : NoSection (current rest).kind) :
    ends (parseSections last n (b.elim [] (·.tokens) ++ rest)) = .ok (addBody b n, rest) := by
  cases b with
  | none => exact ends_parseSections_fresh h last n
  | some b =>
    obtain ⟨left, i⟩ := b
    obtain ⟨shorter, hi⟩ := whole_ok (parseStatements_complete i rest)
    have htokens : (some ⟨left, i⟩).elim [] Body.tokens ++ rest = left.token :: (i.tokens ++ rest) := rfl
    rw [htokens, ends_parseSections_section (s := .statements) rfl hf, parseSection, hi]
    exact ends_parseSections_fresh h _ _

theorem ends_parseSections_arguments {last : Option Section}
    (hf : sectionFault? last .parameters = none) (hf' : sectionFault? last .statements = none)
    (a : Option Arguments) (b : Option Body) (n : Namespace) {rest : List Token}
    (h : NoSection (current rest).kind) :
    ends (parseSections last n (a.elim [] (·.tokens) ++ (b.elim [] (·.tokens) ++ rest))) =
      .ok (addBody b (addArguments a n), rest) := by
  cases a with
  | none => exact ends_parseSections_body hf' b n h
  | some a =>
    obtain ⟨left, s, right⟩ := a
    obtain ⟨shorter, hs⟩ := parseValues_complete s right (b.elim [] (·.tokens) ++ rest)
    have htokens := Enclosed.tokens_append Value.tokens ⟨left, s, right⟩ (b.elim [] (·.tokens) ++ rest)
    dsimp only [Option.elim_some, Arguments.tokens]
    rw [htokens, ends_parseSections_section (s := .parameters) rfl hf, parseSection, hs]
    exact ends_parseSections_body (by decide) b _ h

theorem ends_parseSections_references (r : Option References) (a : Option Arguments)
    (b : Option Body) (n : Namespace) {rest : List Token} (h : NoSection (current rest).kind) :
    ends (parseSections none n
      (r.elim [] (·.tokens) ++ (a.elim [] (·.tokens) ++ (b.elim [] (·.tokens) ++ rest)))) =
      .ok (addBody b (addArguments a (addReferences r n)), rest) := by
  cases r with
  | none => exact ends_parseSections_arguments rfl rfl a b n h
  | some r =>
    obtain ⟨left, s, right⟩ := r
    obtain ⟨shorter, hs⟩ := whole_ok (parseComposites_series.complete parseReference_items s right
      (a.elim [] (·.tokens) ++ (b.elim [] (·.tokens) ++ rest)))
    have htokens := Enclosed.tokens_append Reference.tokens ⟨left, s, right⟩
      (a.elim [] (·.tokens) ++ (b.elim [] (·.tokens) ++ rest))
    dsimp only [Option.elim_some, References.tokens]
    rw [htokens, ends_parseSections_section (s := .composites) rfl rfl, parseSection, hs]
    exact ends_parseSections_arguments (by decide) (by decide) a b _ h

/-! ## Namespaces -/

theorem noSection_definitions (ds : List Definition) (ending : Mark .eof) :
    NoSection (current (ds.flatMap (·.tokens) ++ [ending.token])).kind := by
  cases ds <;> exact ⟨nofun, rfl⟩

theorem parseNamespaces_complete (origin : Nat) (d : Derivation) :
    parseNamespaces origin d.tokens = .ok (d.definitions.map (·.toNamespace origin)) := by
  obtain ⟨ds, ending⟩ := d
  rw [Derivation.tokens]
  induction ds with
  | nil => exact parseNamespaces_end ending.token_kind []
  | cons d ds ih =>
    have hsections := ends_parseSections_references d.references d.arguments d.body
      ⟨d.name.text, [], [], [], origin, d.name.span⟩ (noSection_definitions ds ending)
    rw [List.flatMap_cons, List.append_assoc, Definition.tokens_append, parseNamespaces_cons rfl,
      Name.token, hsections, ← d.toNamespace_eq, Except.bind, ih]
    rfl

/-- Tokens with their end, which stands nowhere else. -/
def Ended (tokens : List Token) : Prop :=
  ∃ (front : List Token) (ending : Mark .eof), tokens = front ++ [ending.token] ∧
    ∀ t ∈ front, t.kind ≠ .eof

theorem Ended.cons {t : Token} {tokens : List Token} (ht : t.kind ≠ .eof) (h : Ended tokens) :
    Ended (t :: tokens) := by
  obtain ⟨front, ending, rfl, hfront⟩ := h
  exact ⟨t :: front, ending, rfl, List.forall_mem_cons.mpr ⟨ht, hfront⟩⟩

theorem Ended.eof {t : Token} {rest : List Token} (ht : t.kind = .eof) (h : Ended (t :: rest)) :
    rest = [] := by
  obtain ⟨front, ending, heq, hfront⟩ := h
  cases front with
  | nil => exact (List.cons.inj heq).2
  | cons s front =>
    obtain ⟨rfl, -⟩ := List.cons.inj heq
    exact absurd ht (hfront t (List.mem_cons_self ..))

theorem Ended.of_append {front rest : List Token} (hfront : ∀ t ∈ front.getLast?, t.kind ≠ .eof)
    (h : Ended (front ++ rest)) : Ended rest := by
  obtain ⟨all, ending, heq, hall⟩ := h
  rcases List.eq_nil_or_concat rest with rfl | ⟨pre, t, rfl⟩
  · rw [List.append_nil] at heq
    refine absurd ending.token_kind (hfront _ ?_)
    rw [heq, List.getLast?_concat]
    rfl
  · rw [List.concat_eq_append, ← List.append_assoc] at heq
    obtain ⟨rfl, hlast⟩ := List.append_inj' heq rfl
    rw [List.concat_eq_append, hlast]
    exact ⟨pre, ending, rfl, fun t ht => hall t (List.mem_append_right front ht)⟩

theorem Definition.last_ne_eof (d : Definition) : ∀ t ∈ d.tokens.getLast?, t.kind ≠ .eof := by
  obtain ⟨name, references, arguments, body⟩ := d
  cases body <;> cases arguments <;> cases references <;>
    simp [tokens, Body.tokens, Inside.tokens, Arguments.tokens, References.tokens, Enclosed.tokens,
      Name.token, List.getLast?_append, List.getLast?_cons]

theorem parseNamespaces_start {origin : Nat} {t : Token} {rest : List Token} {ns : List Namespace}
    (h : parseNamespaces origin (t :: rest) = .ok ns) :
    (t.kind = .eof ∧ ns = []) ∨
      ∃ (ident : String) (m : Namespace) (ms : List Namespace), t.kind = .ident ident ∧ ns = m :: ms := by
  cases ht : t.kind with
  | eof =>
    rw [parseNamespaces_end ht] at h
    exact .inl ⟨rfl, (Except.ok.inj h).symm⟩
  | ident ident =>
    rw [parseNamespaces_cons ht] at h
    cases hends : ends (parseSections none ⟨ident, [], [], [], origin, t.span⟩ rest) with
    | error e =>
      rw [hends] at h
      cases h
    | ok r =>
      rw [hends] at h
      obtain ⟨ms, -, rfl⟩ := map_ok h
      exact .inr ⟨ident, r.1, ms, rfl, rfl⟩
  | _ =>
    rw [parseNamespaces, ht] at h
    cases h

theorem parseNamespaces_sound {origin : Nat} {tokens : List Token} {ns : List Namespace}
    (hended : Ended tokens) (h : parseNamespaces origin tokens = .ok ns) :
    ∃ d : Derivation, d.tokens = tokens ∧ d.definitions.map (·.toNamespace origin) = ns := by
  induction ns generalizing tokens with
  | nil =>
    cases tokens with
    | nil =>
      obtain ⟨front, ending, heq, -⟩ := hended
      simp at heq
    | cons t rest =>
      obtain ⟨ht, -⟩ | ⟨_, _, _, -, heq⟩ := parseNamespaces_start h
      · obtain rfl := hended.eof ht
        obtain ⟨ending, rfl⟩ := Mark.of_kind ht
        exact ⟨⟨[], ending⟩, rfl, rfl⟩
      · cases heq
  | cons m ms ih =>
    cases tokens with
    | nil =>
      rw [parseNamespaces] at h
      cases h
    | cons t rest =>
      obtain ⟨-, heq⟩ | ⟨ident, _, _, ht, -⟩ := parseNamespaces_start h
      · cases heq
      obtain ⟨after, hends, hmore⟩ := parseNamespaces_ok ht h
      obtain ⟨r, a, b, hrest, hm⟩ := parseSections_references hends
      have htokens : (⟨⟨ident, t.span⟩, r, a, b⟩ : Definition).tokens ++ after = t :: rest := by
        rw [Definition.tokens_append, Name.of_kind ht, hrest]
      rw [← htokens] at hended
      obtain ⟨⟨ds, ending⟩, rfl, rfl⟩ := ih (hended.of_append (Definition.last_ne_eof _)) hmore
      refine ⟨⟨⟨⟨ident, t.span⟩, r, a, b⟩ :: ds, ending⟩, ?_, ?_⟩
      · rw [← htokens]
        simp [Derivation.tokens]
      · rw [List.map_cons, Definition.toNamespace_eq, ← hm]

/-! ## Manifest texts -/

theorem lexemeAt_ne_eof {pos n : Nat} {c : Char} {cs : List Char} {kind : TokenKind}
    (h : lexemeAt pos c cs = .ok (some kind, n)) : kind ≠ .eof := by
  unfold lexemeAt at h
  split at h
  · cases h
  split at h
  · split at h <;> cases h
  split at h
  · cases h
  split at h
  · cases h
    exact nofun
  split at h
  · split at h <;> cases h
    exact nofun
  split at h
  · split at h <;> cases h
    exact nofun
  split at h
  · rename_i hsymbol
    cases h
    unfold symbol? at hsymbol
    split at hsymbol <;> cases hsymbol <;> exact nofun
  · cases h

theorem lexemes_ne_eof {pos : Nat} {cs : List Char} {ls : List Lexeme} (h : lexemes pos cs = .ok ls) :
    ∀ l ∈ ls, l.kind ≠ some .eof := by
  fun_induction lexemes pos cs generalizing ls with
  | case1 => cases h; simp
  | case2 => cases h
  | case3 => cases h
  | case4 pos cs blanks body start parts hparts written meant length rest more hmore =>
    rename_i ih
    cases h
    simpa using ih hmore
  | case5 => cases h
  | case6 => cases h
  | case7 pos c cs hc kind n hkind text more hmore =>
    rename_i ih
    cases h
    refine List.forall_mem_cons.mpr ⟨?_, ih hmore⟩
    intro heq
    obtain rfl : kind = some .eof := heq
    exact lexemeAt_ne_eof hkind rfl

theorem place_ended {ls : List Lexeme} (h : ∀ l ∈ ls, l.kind ≠ some .eof) (pos : Nat) :
    Ended (Lexeme.place pos ls) := by
  induction ls generalizing pos with
  | nil => exact ⟨[], ⟨⟨pos, pos⟩⟩, rfl, nofun⟩
  | cons l ls ih =>
    obtain ⟨hl, hls⟩ := List.forall_mem_cons.mp h
    unfold Lexeme.place
    dsimp only
    split
    · exact ih hls _
    · rename_i kind hkind
      exact (ih hls _).cons fun heq => hl (by rw [hkind]; exact congrArg some heq)

theorem lex_ended {source : String} {tokens : List Token} (h : lex source = .ok tokens) :
    Ended tokens := by
  obtain ⟨ls, hls, rfl⟩ := map_ok h
  exact place_ended (lexemes_ne_eof hls) 0

theorem parseOrigin_of_lex {source : String} {tokens : List Token} (h : lex source = .ok tokens)
    (origin : Nat) (name : String) :
    parseOrigin origin name source =
      ((parseNamespaces origin tokens).map Ast.mk).mapError
        fun e => ⟨e.fault, e.offset, name, source⟩ := by
  rw [parseOrigin, parseSource, h]

theorem parseOrigin_derives {source : String} {tokens : List Token} (h : lex source = .ok tokens)
    (origin : Nat) (name : String) (ast : Ast) :
    parseOrigin origin name source = .ok ast ↔
      ∃ d : Derivation, d.tokens = tokens ∧ d.ast origin = ast := by
  rw [parseOrigin_of_lex h]
  constructor
  · intro hast
    cases hns : parseNamespaces origin tokens with
    | error e =>
      rw [hns] at hast
      cases hast
    | ok ns =>
      rw [hns] at hast
      cases hast
      obtain ⟨d, hd, hvalue⟩ := parseNamespaces_sound (lex_ended h) hns
      exact ⟨d, hd, congrArg Ast.mk hvalue⟩
  · rintro ⟨d, rfl, rfl⟩
    rw [parseNamespaces_complete]
    rfl

/-- A manifest text is accepted if and only if its tokens have a derivation, which is the only one,
and then the manifest is what the derivation stands for. Any other text gives an error. -/
theorem parseOrigin_eq_ok_iff {source : String} {tokens : List Token} (h : lex source = .ok tokens)
    (origin : Nat) (name : String) :
    (∀ ast, parseOrigin origin name source = .ok ast ↔
      ∃ d : Derivation, d.tokens = tokens ∧ d.ast origin = ast) ∧
    (∀ d d' : Derivation, d.tokens = tokens → d'.tokens = tokens → d = d') ∧
    ((¬∃ d : Derivation, d.tokens = tokens) → ∃ e, parseOrigin origin name source = .error e) := by
  have hok := parseOrigin_derives h origin name
  refine ⟨hok, fun d d' hd hd' => Derivation.tokens_inj (hd.trans hd'.symm), fun hnone => ?_⟩
  cases hparse : parseOrigin origin name source with
  | error e => exact ⟨e, rfl⟩
  | ok ast =>
    obtain ⟨d, hd, -⟩ := (hok ast).mp hparse
    exact absurd ⟨d, hd⟩ hnone

/-- The derivation of a namespace with all three sections. -/
def completeDerivation : Derivation where
  definitions :=
    [⟨⟨"a", ⟨0, 1⟩⟩,
      some ⟨⟨⟨1, 2⟩⟩, .items ⟨⟨"b", ⟨2, 3⟩⟩, none⟩ [] (some ⟨⟨3, 4⟩⟩), ⟨⟨4, 5⟩⟩⟩,
      some ⟨⟨⟨5, 6⟩⟩, .items (.word "true" ⟨6, 10⟩) [] none, ⟨⟨10, 11⟩⟩⟩,
      some ⟨⟨⟨12, 13⟩⟩, [⟨⟨14, 15⟩⟩],
        some ⟨⟨⟨"x", ⟨16, 17⟩⟩, by decide +kernel, ⟨⟨18, 19⟩⟩, "_", by decide, ⟨20, 21⟩⟩, []⟩,
        [⟨⟨21, 22⟩⟩], ⟨⟨23, 24⟩⟩, nofun⟩⟩]
  ending := ⟨⟨24, 24⟩⟩

theorem completeDerivation_accepted :
    lex "a<b,>(true) \x7b ; x = _; \x7d" = .ok completeDerivation.tokens ∧
      parseOrigin 0 "m" "a<b,>(true) \x7b ; x = _; \x7d" = .ok (completeDerivation.ast 0) := by
  have h : lex "a<b,>(true) \x7b ; x = _; \x7d" = .ok completeDerivation.tokens := by cbv
  exact ⟨h, ((parseOrigin_eq_ok_iff h 0 "m").1 _).mpr ⟨completeDerivation, rfl, rfl⟩⟩

end EnvManifest.Grammar
