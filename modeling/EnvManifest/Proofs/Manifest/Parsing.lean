import EnvManifest.Proofs.Manifest.Lexing
import EnvManifest.Manifest.Parser

/-!
# Parsers, step by step

What each parser gives back for the tokens in front of it, without the places where things stand,
and that what it gives back is well-formed.
-/

namespace EnvManifest

open Text Decimal

/-! ## Steps -/

/-- What a parser gives back, and the tokens it leaves. -/
def seen {α : Type} {tokens : List Token} (r : Except Misparse (Parsed tokens α)) :
    Except Misparse (α × List Token) := r.map fun p => (p.value, p.rest)

theorem seen_ok {α : Type} {tokens after : List Token} {r : Except Misparse (Parsed tokens α)}
    {value : α} (h : seen r = .ok (value, after)) :
    ∃ p, r = .ok p ∧ p.value = value ∧ p.rest = after := by
  cases r with
  | error e => cases h
  | ok p =>
    cases h
    exact ⟨p, rfl, rfl, rfl⟩

theorem seen_parseValues_end {t : Token} (ht : t.kind = .rparen) (rest : List Token) :
    seen (parseValues (t :: rest)) = .ok ([], rest) := by
  rw [parseValues, if_pos ht]
  rfl

theorem seen_parseValues_cons {t c : Token} {v : ParamValue} {more : List Token}
    (ht : t.kind ≠ .rparen) (hv : parseValue t = .ok v) (hc : c.kind = .comma ∨ c.kind = .rparen) :
    seen (parseValues (t :: c :: more)) =
      (seen (parseValues (if c.kind = .comma then more else c :: more))).map
        fun r => (⟨v, t.span⟩ :: r.1, r.2) := by
  rw [parseValues, if_neg ht, hv]
  dsimp only
  rw [if_pos hc]
  cases parseValues (if c.kind = .comma then more else c :: more) <;> rfl

theorem seen_parseComposites_end {t : Token} (ht : t.kind = .rangle) (rest : List Token) :
    seen (parseComposites (t :: rest)) = .ok ([], rest) := by
  rw [parseComposites, ht]
  rfl

/-- What arguments are given, where they end, and the tokens after them. -/
def seenArguments {tokens : List Token}
    (r : Except Misparse (List Parameter × Nat × { rest : List Token // rest.length ≤ tokens.length })) :
    Except Misparse (List Parameter × Nat × List Token) := r.map fun p => (p.1, p.2.1, p.2.2.val)

theorem seenArguments_none {t : Token} (ht : t.kind ≠ .lparen) (stop : Nat) (rest : List Token) :
    seenArguments (parseArguments stop (t :: rest)) = .ok ([], stop, t :: rest) := by
  rw [parseArguments, if_neg ht]
  rfl

theorem seenArguments_some {t : Token} {rest : List Token} {p : Parsed rest (List Parameter)}
    (ht : t.kind = .lparen) (hp : parseValues rest = .ok p) (stop : Nat) :
    seenArguments (parseArguments stop (t :: rest)) = .ok (p.value, p.stop, p.rest) := by
  rw [parseArguments, if_pos ht, hp]
  rfl

theorem seen_parseComposites_cons {t c : Token} {ident : String} {rest more : List Token}
    {arguments : List Parameter} {stop : Nat} (ht : t.kind = .ident ident)
    (ha : seenArguments (parseArguments t.span.stop rest) = .ok (arguments, stop, c :: more))
    (hc : c.kind = .comma ∨ c.kind = .rangle) :
    seen (parseComposites (t :: rest)) =
      (seen (parseComposites (if c.kind = .comma then more else c :: more))).map
        fun r => (⟨ident, arguments, ⟨t.span.start, stop⟩⟩ :: r.1, r.2) := by
  cases hr : parseArguments t.span.stop rest with
  | error e =>
    rw [hr] at ha
    cases ha
  | ok found =>
    rw [hr] at ha
    obtain ⟨arguments', stop', after, hle⟩ := found
    cases ha
    rw [parseComposites, ht]
    dsimp only
    rw [hr]
    dsimp only
    rw [if_pos hc]
    cases parseComposites (if c.kind = .comma then more else c :: more) <;> rfl

theorem seen_parseStatements_semi {t : Token} (ht : t.kind = .semi) (rest : List Token) :
    seen (parseStatements (t :: rest)) = seen (parseStatements rest) := by
  rw [parseStatements, if_pos ht]
  cases parseStatements rest <;> rfl

theorem seen_parseStatements_end {t : Token} (ht : t.kind = .rbrace) (rest : List Token) :
    seen (parseStatements (t :: rest)) = .ok ([], rest) := by
  rw [parseStatements, if_neg (by rw [ht]; decide), if_pos ht]
  rfl

theorem seen_parseStatements_cons {t a e : Token} {ident text : String} {rest : List Token}
    (ht : t.kind = .ident ident) (hi : isVariableName ident.toList) (ha : a.kind = .assign)
    (he : e.kind = .expr text) (hne : text ≠ "") :
    seen (parseStatements (t :: a :: e :: rest)) =
      if (current rest).kind = .semi ∨ (current rest).kind = .rbrace then
        (seen (parseStatements rest)).map fun r =>
          (⟨ident, "=", ⟨text, e.span.start⟩, ⟨t.span.start, e.span.stop⟩⟩ :: r.1, r.2)
      else .error (unexpected .semiOrBrace rest) := by
  have hs : ∃ shorter, parseStatement (t :: a :: e :: rest) =
      .ok ⟨⟨ident, "=", ⟨text, e.span.start⟩, ⟨t.span.start, e.span.stop⟩⟩, e.span.stop, rest,
        shorter⟩ := by
    refine ⟨by simp only [List.length_cons]; omega, ?_⟩
    simp [parseStatement, ht, hi, ha, he, hne]
  obtain ⟨shorter, hs⟩ := hs
  rw [parseStatements, if_neg (by rw [ht]; simp), if_neg (by rw [ht]; simp), hs]
  dsimp only
  split
  · cases parseStatements rest <;> rfl
  · rfl

theorem seen_parseStatements_ok {t a e : Token} {ident text : String} {rest after : List Token}
    {ss : List Statement} (ht : t.kind = .ident ident) (hi : isVariableName ident.toList)
    (ha : a.kind = .assign) (he : e.kind = .expr text)
    (h : seen (parseStatements (t :: a :: e :: rest)) = .ok (ss, after)) :
    ∃ s more, ss = s :: more ∧ s.expression.source = text ∧
      seen (parseStatements rest) = .ok (more, after) := by
  by_cases hne : text = ""
  · have hs : parseStatement (t :: a :: e :: rest) =
        .error ⟨.emptyExpression ident, e.span.start⟩ := by
      simp [parseStatement, ht, hi, ha, he, hne]
    rw [parseStatements, if_neg (by rw [ht]; simp), if_neg (by rw [ht]; simp), hs] at h
    cases h
  · rw [seen_parseStatements_cons ht hi ha he hne] at h
    split at h
    · cases hmore : seen (parseStatements rest) with
      | error e =>
        rw [hmore] at h
        cases h
      | ok r =>
        rw [hmore] at h
        cases h
        exact ⟨_, r.1, rfl, rfl, rfl⟩
    · cases h

/-- The namespace that sections give, and the tokens after them. -/
def ends {tokens : List Token}
    (r : Except Misparse (Namespace × { rest : List Token // rest.length ≤ tokens.length })) :
    Except Misparse (Namespace × List Token) := r.map fun p => (p.1, p.2.val)

/-- Does no section start with this token? -/
def NoSection (kind : TokenKind) : Prop := kind ≠ .lbracket ∧ opens? kind = none

theorem ends_parseSections_stop {t : Token} (h : NoSection t.kind) (last : Option Section)
    (n : Namespace) (rest : List Token) :
    ends (parseSections last n (t :: rest)) = .ok (n, t :: rest) := by
  rw [parseSections, if_neg h.1]
  split
  · rfl
  · rename_i s hs
    rw [h.2] at hs
    exact absurd hs (by simp)

theorem ends_parseSections_section {t : Token} {s : Section} {last : Option Section}
    (hs : opens? t.kind = some s) (hf : sectionFault? last s = none) (n : Namespace)
    (rest : List Token) :
    ends (parseSections last n (t :: rest)) =
      (parseSection s n rest).bind fun p =>
        ends (parseSections (some s) { p.value with span := ⟨n.span.start, p.stop⟩ } p.rest) := by
  have hb : t.kind ≠ .lbracket := by
    intro hb
    rw [hb] at hs
    exact absurd hs (by simp [opens?])
  rw [parseSections, if_neg hb]
  split
  · rename_i hnone
    rw [hs] at hnone
    exact absurd hnone (by simp)
  · rename_i s' hs'
    obtain rfl : s = s' := Option.some.inj (hs.symm.trans hs')
    rw [hf]
    dsimp only
    cases parseSection s n rest with
    | error e => rfl
    | ok p =>
      dsimp only [Except.bind]
      cases parseSections (some s) { p.value with span := ⟨n.span.start, p.stop⟩ } p.rest <;> rfl

theorem ends_parseSections_last {n m : Namespace} {tokens after : List Token}
    (h : ends (parseSections (some .statements) n tokens) = .ok (m, after)) :
    m = n ∧ after = tokens := by
  unfold parseSections at h
  split at h
  · obtain ⟨rfl, rfl⟩ := Prod.mk.inj (Except.ok.inj h)
    exact ⟨rfl, rfl⟩
  split at h
  · exact absurd h (by simp [ends, Except.map])
  split at h
  · obtain ⟨rfl, rfl⟩ := Prod.mk.inj (Except.ok.inj h)
    exact ⟨rfl, rfl⟩
  · rename_i s hs
    cases s <;> exact absurd h (by simp [sectionFault?, Section.index, ends, Except.map])

theorem parseNamespaces_cons {origin : Nat} {t : Token} {ident : String} (ht : t.kind = .ident ident)
    (rest : List Token) :
    parseNamespaces origin (t :: rest) =
      (ends (parseSections none ⟨ident, [], [], [], origin, t.span⟩ rest)).bind fun r =>
        (parseNamespaces origin r.2).map (r.1 :: ·) := by
  rw [parseNamespaces, ht]
  dsimp only
  cases parseSections none ⟨ident, [], [], [], origin, t.span⟩ rest with
  | error e => rfl
  | ok r =>
    obtain ⟨n, after, hle⟩ := r
    dsimp only [ends, Except.map, Except.bind]
    cases parseNamespaces origin after <;> rfl

theorem parseNamespaces_ok {origin : Nat} {t : Token} {ident : String} (ht : t.kind = .ident ident)
    {rest : List Token} {m : Namespace} {ms : List Namespace}
    (h : parseNamespaces origin (t :: rest) = .ok (m :: ms)) :
    ∃ after, ends (parseSections none ⟨ident, [], [], [], origin, t.span⟩ rest) = .ok (m, after) ∧
      parseNamespaces origin after = .ok ms := by
  rw [parseNamespaces_cons ht] at h
  cases hends : ends (parseSections none ⟨ident, [], [], [], origin, t.span⟩ rest) with
  | error e =>
    rw [hends] at h
    cases h
  | ok r =>
    rw [hends] at h
    dsimp only [Except.bind] at h
    cases hmore : parseNamespaces origin r.2 with
    | error e =>
      rw [hmore] at h
      cases h
    | ok more =>
      rw [hmore] at h
      cases h
      exact ⟨r.2, rfl, hmore⟩

theorem parseNamespaces_end {origin : Nat} {t : Token} (ht : t.kind = .eof) (rest : List Token) :
    parseNamespaces origin (t :: rest) = .ok [] := by
  rw [parseNamespaces, ht]


/-! ## What is parsed is well-formed -/

def ParamValue.WellFormed : ParamValue → Prop
  | word w => isIdent w.toList ∧ w ≠ "true" ∧ w ≠ "false"
  | _ => True

structure Composite.WellFormed (c : Composite) : Prop where
  ident : isIdent c.ident.toList
  arguments : ∀ a ∈ c.arguments, a.value.WellFormed

structure Statement.WellFormed (s : Statement) : Prop where
  ident : isVariableName s.ident.toList
  operator : s.operator = "="
  source : IsSource s.expression.source.toList

structure Namespace.WellFormed (n : Namespace) : Prop where
  ident : isIdent n.ident.toList
  composites : ∀ c ∈ n.composites, c.WellFormed
  parameters : ∀ p ∈ n.parameters, p.value.WellFormed
  statements : ∀ s ∈ n.statements, s.WellFormed

theorem wordValue_wellFormed {word : String} (h : isIdent word.toList) :
    (wordValue word).WellFormed := by
  unfold wordValue
  split
  · trivial
  · trivial
  · exact ⟨h, by assumption, by assumption⟩

theorem parseNumber_wellFormed {text : String} {v : ParamValue} (h : parseNumber text = some v) :
    v.WellFormed := by
  unfold parseNumber at h
  obtain ⟨negative, digits⟩ := splitSign text.toList
  dsimp only at h
  split at h
  · unfold hexNumber? at h
    dsimp only at h
    split at h
    · cases h
    · cases h
      trivial
  · split at h
    · cases h
      trivial
    · obtain ⟨x, -, rfl⟩ := Option.map_eq_some_iff.mp h
      trivial

theorem parseValue_wellFormed {t : Token} {v : ParamValue} (ht : t.kind.WellFormed)
    (h : parseValue t = .ok v) : v.WellFormed := by
  unfold parseValue at h
  split at h
  · obtain rfl := Except.ok.inj h
    trivial
  · split at h
    · rename_i hv
      obtain rfl := Except.ok.inj h
      exact parseNumber_wellFormed hv
    · exact absurd h (by simp)
  · rename_i word hk
    obtain rfl := Except.ok.inj h
    rw [hk] at ht
    exact wordValue_wellFormed ht
  · exact absurd h (by simp)

theorem afterComma_subset (c : Token) (more : List Token) :
    (if _ : c.kind = .comma then more else c :: more) ⊆ c :: more := by
  split
  · exact List.subset_cons_self c more
  · exact List.Subset.refl _

theorem parseValues_wellFormed {tokens : List Token} (h : ∀ t ∈ tokens, t.kind.WellFormed)
    {p : Parsed tokens (List Parameter)} (hp : parseValues tokens = .ok p) :
    (∀ a ∈ p.value, a.value.WellFormed) ∧ p.rest ⊆ tokens := by
  fun_induction parseValues tokens with
  | case1 => cases hp
  | case2 t rest ht =>
    obtain rfl := Except.ok.inj hp
    simp
  | case3 => cases hp
  | case4 => cases hp
  | case5 => cases hp
  | case6 t ht v hv c more next hc q hq ih =>
    obtain rfl := Except.ok.inj hp
    have hnext : next ⊆ t :: c :: more :=
      List.Subset.trans (afterComma_subset c more) (List.subset_cons_self t (c :: more))
    obtain ⟨hvalues, hrest⟩ := ih (fun s hs => h s (hnext hs)) hq
    refine ⟨?_, List.Subset.trans hrest hnext⟩
    simp only [List.mem_cons]
    rintro a (rfl | ha)
    · exact parseValue_wellFormed (h t (List.mem_cons_self ..)) hv
    · exact hvalues a ha
  | case7 => cases hp

theorem parseArguments_wellFormed {stop stop' : Nat} {tokens : List Token}
    (h : ∀ t ∈ tokens, t.kind.WellFormed) {arguments : List Parameter}
    {after : { rest : List Token // rest.length ≤ tokens.length }}
    (hp : parseArguments stop tokens = .ok (arguments, stop', after)) :
    (∀ a ∈ arguments, a.value.WellFormed) ∧ after.val ⊆ tokens := by
  unfold parseArguments at hp
  split at hp
  · cases hp
    simp
  · rename_i t rest
    split at hp
    · split at hp
      · cases hp
      · rename_i p hvalues
        cases hp
        obtain ⟨hargs, hrest⟩ :=
          parseValues_wellFormed (fun s hs => h s (List.mem_cons_of_mem t hs)) hvalues
        exact ⟨hargs, fun s hs => List.mem_cons_of_mem t (hrest hs)⟩
    · cases hp
      simp

theorem parseComposites_wellFormed {tokens : List Token} (h : ∀ t ∈ tokens, t.kind.WellFormed)
    {p : Parsed tokens (List Composite)} (hp : parseComposites tokens = .ok p) :
    (∀ c ∈ p.value, c.WellFormed) ∧ p.rest ⊆ tokens := by
  fun_induction parseComposites tokens with
  | case1 => cases hp
  | case2 =>
    obtain rfl := Except.ok.inj hp
    simp
  | case3 => cases hp
  | case4 => cases hp
  | case5 => cases hp
  | case6 t rest ident ht arguments stop composite c more _ next hc q hq _ ha =>
    rename_i ih
    obtain rfl := Except.ok.inj hp
    have hrest : ∀ s ∈ rest, s.kind.WellFormed := fun s hs => h s (List.mem_cons_of_mem t hs)
    obtain ⟨harguments, hafter⟩ := parseArguments_wellFormed hrest ha
    have hnext : next ⊆ t :: rest :=
      List.Subset.trans (List.Subset.trans (afterComma_subset c more) hafter)
        (List.subset_cons_self t rest)
    obtain ⟨hcomposites, hleft⟩ := ih (fun s hs => h s (hnext hs)) hq
    refine ⟨?_, List.Subset.trans hleft hnext⟩
    simp only [List.mem_cons]
    rintro d (rfl | hd)
    · have hident := h t (List.mem_cons_self ..)
      rw [ht] at hident
      exact ⟨hident, harguments⟩
    · exact hcomposites d hd
  | case7 => cases hp
  | case8 => cases hp

theorem parseStatement_wellFormed {tokens : List Token} (h : ∀ t ∈ tokens, t.kind.WellFormed)
    {p : Parsed tokens Statement} (hp : parseStatement tokens = .ok p) :
    p.value.WellFormed ∧ p.rest ⊆ tokens := by
  unfold parseStatement at hp
  split at hp
  · cases hp
  rename_i t rest
  split at hp
  · rename_i ident ht
    split at hp
    · rename_i hvariable
      split at hp
      · cases hp
      rename_i a rest
      split at hp
      · split at hp
        · cases hp
        rename_i e rest
        split at hp
        · rename_i text he
          split at hp
          · cases hp
          · rename_i hne
            cases hp
            have htext := h e (by simp)
            rw [he] at htext
            refine ⟨⟨hvariable, rfl, htext.resolve_left fun hnil => hne (by simp [hnil])⟩, ?_⟩
            intro s hs
            simp [hs]
        · cases hp
      · cases hp
    · cases hp
  · cases hp

theorem parseStatements_wellFormed {tokens : List Token} (h : ∀ t ∈ tokens, t.kind.WellFormed)
    {p : Parsed tokens (List Statement)} (hp : parseStatements tokens = .ok p) :
    (∀ s ∈ p.value, s.WellFormed) ∧ p.rest ⊆ tokens := by
  fun_induction parseStatements tokens with
  | case1 => cases hp
  | case2 => cases hp
  | case3 t rest ht q hq ih =>
    obtain rfl := Except.ok.inj hp
    obtain ⟨hstatements, hrest⟩ := ih (fun s hs => h s (List.mem_cons_of_mem t hs)) hq
    exact ⟨hstatements, List.Subset.trans hrest (List.subset_cons_self t rest)⟩
  | case4 t rest hs hb =>
    obtain rfl := Except.ok.inj hp
    simp
  | case5 => cases hp
  | case6 => cases hp
  | case7 t rest hsemi hbrace s hs hend q hq ih =>
    obtain rfl := Except.ok.inj hp
    obtain ⟨hstatement, hafter⟩ := parseStatement_wellFormed h hs
    obtain ⟨hstatements, hrest⟩ := ih (fun u hu => h u (hafter hu)) hq
    refine ⟨?_, List.Subset.trans hrest hafter⟩
    simp only [List.mem_cons]
    rintro u (rfl | hu)
    · exact hstatement
    · exact hstatements u hu
  | case8 => cases hp

theorem parseSection_wellFormed {s : Section} {n : Namespace} {tokens : List Token}
    (h : ∀ t ∈ tokens, t.kind.WellFormed) (hn : n.WellFormed) {p : Parsed tokens Namespace}
    (hp : parseSection s n tokens = .ok p) : p.value.WellFormed ∧ p.rest ⊆ tokens := by
  unfold parseSection at hp
  cases s with
  | composites =>
    dsimp only at hp
    split at hp
    · cases hp
    · rename_i q hq
      cases hp
      obtain ⟨hcomposites, hrest⟩ := parseComposites_wellFormed h hq
      exact ⟨{ hn with composites := hcomposites }, hrest⟩
  | parameters =>
    dsimp only at hp
    split at hp
    · cases hp
    · rename_i q hq
      cases hp
      obtain ⟨hparameters, hrest⟩ := parseValues_wellFormed h hq
      exact ⟨{ hn with parameters := hparameters }, hrest⟩
  | statements =>
    dsimp only at hp
    split at hp
    · cases hp
    · rename_i q hq
      cases hp
      obtain ⟨hstatements, hrest⟩ := parseStatements_wellFormed h hq
      exact ⟨{ hn with statements := hstatements }, hrest⟩

theorem parseSections_wellFormed {last : Option Section} {n m : Namespace} {tokens : List Token}
    (h : ∀ t ∈ tokens, t.kind.WellFormed) (hn : n.WellFormed)
    {after : { rest : List Token // rest.length ≤ tokens.length }}
    (hp : parseSections last n tokens = .ok (m, after)) : m.WellFormed ∧ after.val ⊆ tokens := by
  fun_induction parseSections last n tokens with
  | case1 =>
    cases hp
    exact ⟨hn, List.Subset.refl _⟩
  | case2 => cases hp
  | case3 =>
    cases hp
    exact ⟨hn, List.Subset.refl _⟩
  | case4 => cases hp
  | case5 => cases hp
  | case6 => cases hp
  | case7 last n t rest hb s hs hf p hsection m' m'' left hle hsections ih =>
    cases hp
    obtain ⟨hvalue, hrest⟩ :=
      parseSection_wellFormed (fun s hs => h s (List.mem_cons_of_mem t hs)) hn hsection
    have hsub : p.rest ⊆ t :: rest := List.Subset.trans hrest (List.subset_cons_self t rest)
    obtain ⟨hm, hafter⟩ := ih (fun s hs => h s (hsub hs)) { hvalue with } hsections
    exact ⟨hm, List.Subset.trans hafter hsub⟩

theorem parseNamespaces_wellFormed {origin : Nat} {tokens : List Token}
    (h : ∀ t ∈ tokens, t.kind.WellFormed) {ns : List Namespace}
    (hp : parseNamespaces origin tokens = .ok ns) : ∀ n ∈ ns, n.WellFormed := by
  fun_induction parseNamespaces origin tokens generalizing ns with
  | case1 => cases hp; simp
  | case2 => cases hp; simp
  | case3 => cases hp
  | case4 => cases hp
  | case5 => cases hp
  | case6 t rest ident ht start n after hle hsections ns hns ih =>
    cases hp
    have hrest : ∀ s ∈ rest, s.kind.WellFormed := fun s hs => h s (List.mem_cons_of_mem t hs)
    have hident := h t (List.mem_cons_self ..)
    rw [ht] at hident
    have hstart : start.WellFormed := ⟨hident, by simp [start], by simp [start], by simp [start]⟩
    obtain ⟨hn, hafter⟩ := parseSections_wellFormed hrest hstart hsections
    have hmore := ih (fun s hs => hrest s (hafter hs)) hns
    simp only [List.mem_cons]
    rintro m (rfl | hm)
    · exact hn
    · exact hmore m hm
  | case7 => cases hp

end EnvManifest
