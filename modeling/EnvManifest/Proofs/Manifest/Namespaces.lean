import EnvManifest.Proofs.Manifest.Statements

/-!
# Namespaces, printed and read again
-/

namespace EnvManifest

open Text Decimal

/-- A namespace without its origin and the places of its parts. -/
def Namespace.unplaced (n : Namespace) : Namespace :=
  ⟨n.ident, n.composites.map Composite.unplaced, n.parameters.map Parameter.unplaced,
    n.statements.map Statement.unplaced, 0, ⟨0, 0⟩⟩

namespace Namespace

/-- Is everything in a namespace read back as it was? -/
structure ReadsBack (n : Namespace) : Prop where
  arguments : ∀ c ∈ n.composites, ∀ a ∈ c.arguments, a.value.readsBack
  parameters : ∀ p ∈ n.parameters, p.value.readsBack
  statements : ∀ s ∈ n.statements, s.readsBack

instance (n : Namespace) : Decidable n.ReadsBack :=
  decidable_of_iff
    ((∀ c ∈ n.composites, ∀ a ∈ c.arguments, a.value.readsBack) ∧
      (∀ p ∈ n.parameters, p.value.readsBack) ∧ ∀ s ∈ n.statements, s.readsBack)
    ⟨fun ⟨harguments, hparameters, hstatements⟩ => ⟨harguments, hparameters, hstatements⟩,
      fun h => ⟨h.arguments, h.parameters, h.statements⟩⟩

/-- The name and the lists of a printed namespace. -/
def header (n : Namespace) : List Char :=
  n.ident.toList ++ (printGroup '<' '>' Composite.print n.composites ++
    printGroup '(' ')' Parameter.print n.parameters)

/-- The tokens after the name. -/
def headerKinds (n : Namespace) : List TokenKind :=
  groupKinds .langle .rangle Composite.kinds n.composites ++
    groupKinds .lparen .rparen Parameter.kinds n.parameters

/-- What stands between the braces of a printed namespace. -/
def body (n : Namespace) : List Char :=
  if n.statements.isEmpty then [] else '\n' :: n.statements.flatMap Statement.line

def kinds (n : Namespace) : List TokenKind :=
  .ident n.ident :: (n.headerKinds ++
    .lbrace :: (n.statements.flatMap Statement.kinds ++ [.rbrace]))

theorem print_eq (n : Namespace) : n.print = n.header ++ ([' ', '{'] ++ (n.body ++ ['}'])) := by
  unfold print header body
  rw [show Statement.line = fun s => ' ' :: ' ' :: s.print ++ [';', '\n'] from rfl]
  split <;> simp

theorem reads_open (rest : List Char) : Reads [' ', '{'] [.lbrace] rest :=
  (Reads.space _).append (Reads.symbol (c := '{') rfl rest)

structure Lexes (n : Namespace) : Prop where
  composites : ∀ c ∈ n.composites, c.Lexes
  parameters : ∀ p ∈ n.parameters, p.value.Lexes

theorem apart_header (n : Namespace) {rest : List Char} (hrest : Apart rest) :
    Apart (printGroup '<' '>' Composite.print n.composites ++
      printGroup '(' ')' Parameter.print n.parameters ++ rest) := by
  rw [List.append_assoc]
  cases n.composites with
  | nil => exact Composite.apart_arguments n.parameters hrest
  | cons c cs => exact stops_cons (by decide) _

theorem reads_header {n : Namespace} (hn : n.WellFormed) (hl : n.Lexes) {rest : List Char}
    (hrest : Apart rest) : Reads n.header (.ident n.ident :: n.headerKinds) rest := by
  have hparameters := reads_group (o := '(') (c := ')') rfl rfl (by decide)
    (fun p hp rest hrest => Parameter.reads (hn.parameters p hp) rest hrest (hl.parameters p hp)) rest
  have hcomposites := reads_group (o := '<') (c := '>') rfl rfl (by decide)
    (fun c hc rest hrest => Composite.reads (hn.composites c hc) rest hrest (hl.composites c hc))
    (printGroup '(' ')' Parameter.print n.parameters ++ rest)
  exact (Reads.name hn.ident (apart_header n hrest)).append
    (hcomposites.append hparameters)

theorem fails_header {n : Namespace} (hn : n.WellFormed) (hl : ¬n.Lexes) {rest : List Char}
    (hrest : Apart rest) : Fails n.header rest := by
  refine (Reads.name hn.ident (apart_header n hrest)).fails ?_
  by_cases hc : ∀ c ∈ n.composites, c.Lexes
  · have hp : ¬∀ p ∈ n.parameters, p.value.Lexes := fun hp => hl ⟨hc, hp⟩
    have hcomposites := reads_group (o := '<') (c := '>') rfl rfl (by decide)
      (fun c hm rest hrest => Composite.reads (hn.composites c hm) rest hrest (hc c hm))
      (printGroup '(' ')' Parameter.print n.parameters ++ rest)
    exact hcomposites.fails (fails_group (o := '(') (c := ')') rfl (by decide)
      (fun p hm => Parameter.reads (hn.parameters p hm)) (fun p _ rest _ h => fails_value h rest)
      hp rest)
  · exact (fails_group (o := '<') (c := '>') rfl (by decide)
      (fun c hm => Composite.reads (hn.composites c hm))
      (fun c hm => Composite.fails (hn.composites c hm)) hc _).append

/-- The namespace that is parsed for a printed one, but for its statements. -/
def reread (n : Namespace) : Namespace :=
  { n with
    composites := n.composites.map Composite.reread
    parameters := n.parameters.map Parameter.reread }

end Namespace

theorem parseSections_composites {cs : List Composite} (hcs : ∀ c ∈ cs, c.WellFormed)
    {front : List Token}
    (hfront : front.map Token.kind = groupKinds .langle .rangle Composite.kinds cs)
    (m : Namespace) (hm : m.composites = []) (after : List Token) :
    ∃ ds span last, ds.map Composite.unplaced = cs.map (fun c => c.reread.unplaced) ∧
      (last = none ∨ last = some .composites) ∧
      ends (parseSections none m (front ++ after)) =
        ends (parseSections last { m with composites := ds, span := span } after) := by
  unfold groupKinds at hfront
  split at hfront
  · rename_i hempty
    obtain rfl := List.isEmpty_iff.mp hempty
    obtain rfl := List.map_eq_nil_iff.mp hfront
    refine ⟨[], m.span, none, rfl, .inl rfl, ?_⟩
    rw [← hm]
    rfl
  · rename_i hempty
    obtain ⟨o, ts, rfl, ho, hts⟩ := List.map_eq_cons_iff.mp hfront
    obtain ⟨items, closes, rfl, hitems, hcloses⟩ := List.map_eq_append_iff.mp hts
    obtain ⟨close, rfl, hclose⟩ := List.map_eq_singleton_iff.mp hcloses
    obtain ⟨ds, hds, hsame⟩ := parseComposites_kinds (by simpa using hempty) hcs hitems hclose after
    obtain ⟨p, hp, rfl, hrest⟩ := seen_ok hds
    refine ⟨p.value, ⟨m.span.start, p.stop⟩, some .composites, hsame, .inr rfl, ?_⟩
    rw [List.cons_append, List.append_assoc, List.singleton_append,
      ends_parseSections_section (s := .composites) (by rw [ho]; rfl) rfl]
    simp only [parseSection, hp, Except.bind, hrest]

theorem parseSections_parameters {ps : List Parameter} (hps : ∀ p ∈ ps, p.value.WellFormed)
    {front : List Token}
    (hfront : front.map Token.kind = groupKinds .lparen .rparen Parameter.kinds ps)
    {last : Option Section} (hlast : last = none ∨ last = some .composites) (m : Namespace)
    (hm : m.parameters = []) (after : List Token) :
    ∃ qs span last', qs.map Parameter.unplaced = ps.map (fun p => p.reread.unplaced) ∧
      sectionFault? last' .statements = none ∧
      ends (parseSections last m (front ++ after)) =
        ends (parseSections last' { m with parameters := qs, span := span } after) := by
  unfold groupKinds at hfront
  split at hfront
  · rename_i hempty
    obtain rfl := List.isEmpty_iff.mp hempty
    obtain rfl := List.map_eq_nil_iff.mp hfront
    refine ⟨[], m.span, last, rfl, by rcases hlast with rfl | rfl <;> rfl, ?_⟩
    rw [← hm]
    rfl
  · rename_i hempty
    obtain ⟨o, ts, rfl, ho, hts⟩ := List.map_eq_cons_iff.mp hfront
    obtain ⟨items, closes, rfl, hitems, hcloses⟩ := List.map_eq_append_iff.mp hts
    obtain ⟨close, rfl, hclose⟩ := List.map_eq_singleton_iff.mp hcloses
    obtain ⟨qs, hqs, hsame⟩ := parseValues_kinds (by simpa using hempty) hps hitems hclose after
    obtain ⟨p, hp, rfl, hrest⟩ := seen_ok hqs
    refine ⟨p.value, ⟨m.span.start, p.stop⟩, some .parameters, hsame, rfl, ?_⟩
    rw [List.cons_append, List.append_assoc, List.singleton_append,
      ends_parseSections_section (s := .parameters) (by rw [ho]; rfl)
        (by rcases hlast with rfl | rfl <;> rfl)]
    simp only [parseSection, hp, Except.bind, hrest]

/-- The sections of a printed namespace up to its statements. -/
theorem parseSections_header {n : Namespace} (hn : n.WellFormed) {front : List Token}
    (hfront : front.map Token.kind = n.headerKinds) (origin : Nat) (span : Span)
    (after : List Token) :
    ∃ m last, sectionFault? last .statements = none ∧
      (∀ us span', Namespace.unplaced { m with statements := us, span := span' } =
        { n.reread.unplaced with statements := us.map Statement.unplaced }) ∧
      ends (parseSections none ⟨n.ident, [], [], [], origin, span⟩ (front ++ after)) =
        ends (parseSections last m after) := by
  obtain ⟨composites, parameters, rfl, hcomposites, hparameters⟩ := List.map_eq_append_iff.mp hfront
  obtain ⟨ds, span₁, last₁, hds, hlast₁, hsections₁⟩ :=
    parseSections_composites hn.composites hcomposites ⟨n.ident, [], [], [], origin, span⟩ rfl
      (parameters ++ after)
  obtain ⟨qs, span₂, last₂, hqs, hlast₂, hsections₂⟩ :=
    parseSections_parameters hn.parameters hparameters hlast₁
      ⟨n.ident, ds, [], [], origin, span₁⟩ rfl after
  refine ⟨⟨n.ident, ds, qs, [], origin, span₂⟩, last₂, hlast₂, ?_, ?_⟩
  · intro us span'
    simp [Namespace.unplaced, Namespace.reread, hds, hqs, Function.comp_def]
  · rw [List.append_assoc, hsections₁, hsections₂]

theorem parseSections_statements {last : Option Section}
    (hlast : sectionFault? last .statements = none) {brace : Token} (hbrace : brace.kind = .lbrace)
    (m : Namespace) {rest after : List Token} {us : List Statement}
    (hus : seen (parseStatements rest) = .ok (us, after)) :
    ∃ span, ends (parseSections last m (brace :: rest)) =
      ends (parseSections (some .statements) { m with statements := us, span := span } after) := by
  obtain ⟨p, hp, rfl, rfl⟩ := seen_ok hus
  refine ⟨⟨m.span.start, p.stop⟩, ?_⟩
  rw [ends_parseSections_section (s := .statements) (by rw [hbrace]; rfl) hlast]
  simp only [parseSection, hp, Except.bind]

theorem parseSections_statements_ok {last : Option Section}
    (hlast : sectionFault? last .statements = none) {brace : Token} (hbrace : brace.kind = .lbrace)
    {m m' : Namespace} {rest after : List Token}
    (h : ends (parseSections last m (brace :: rest)) = .ok (m', after)) :
    ∃ us span, seen (parseStatements rest) = .ok (us, after) ∧
      m' = { m with statements := us, span := span } := by
  rw [ends_parseSections_section (s := .statements) (by rw [hbrace]; rfl) hlast] at h
  cases hp : parseStatements rest with
  | error e =>
    simp only [parseSection, hp, Except.bind] at h
    cases h
  | ok p =>
    simp only [parseSection, hp, Except.bind] at h
    obtain ⟨rfl, rfl⟩ := ends_parseSections_last h
    exact ⟨p.value, _, rfl, rfl⟩

theorem Namespace.exists_tokens {n : Namespace} {front : List Token}
    (h : front.map Token.kind = n.kinds) :
    ∃ name lists brace body close, front = name :: (lists ++ brace :: (body ++ [close])) ∧
      name.kind = .ident n.ident ∧ lists.map Token.kind = n.headerKinds ∧
      brace.kind = .lbrace ∧ body.map Token.kind = n.statements.flatMap Statement.kinds ∧
      close.kind = .rbrace := by
  obtain ⟨name, tail, rfl, hname, htail⟩ := List.map_eq_cons_iff.mp h
  obtain ⟨lists, tail, rfl, hlists, htail⟩ := List.map_eq_append_iff.mp htail
  obtain ⟨brace, tail, rfl, hbrace, htail⟩ := List.map_eq_cons_iff.mp htail
  obtain ⟨body, closes, rfl, hbody, hcloses⟩ := List.map_eq_append_iff.mp htail
  obtain ⟨close, rfl, hclose⟩ := List.map_eq_singleton_iff.mp hcloses
  exact ⟨name, lists, brace, body, close, rfl, hname, hlists, hbrace, hbody, hclose⟩

/-- A printed namespace, parsed up to what follows its statements. -/
theorem parseSections_kinds {n : Namespace} (hn : n.WellFormed) {lists body : List Token}
    {brace close : Token} (hlists : lists.map Token.kind = n.headerKinds)
    (hbrace : brace.kind = .lbrace)
    (hbody : body.map Token.kind = n.statements.flatMap Statement.kinds)
    (hclose : close.kind = .rbrace) (origin : Nat) (span : Span) (after : List Token) :
    ∃ m, m.unplaced = n.reread.unplaced ∧
      ends (parseSections none ⟨n.ident, [], [], [], origin, span⟩
          (lists ++ brace :: (body ++ close :: after))) =
        ends (parseSections (some .statements) m after) := by
  obtain ⟨m, last, hlast, hsame, hsections⟩ := parseSections_header hn hlists origin span
    (brace :: (body ++ close :: after))
  obtain ⟨us, hus, hstatements⟩ := parseStatements_kinds hn.statements hbody hclose after
  obtain ⟨span', hend⟩ := parseSections_statements hlast hbrace m hus
  refine ⟨{ m with statements := us, span := span' }, ?_, ?_⟩
  · rw [hsame, hstatements]
    rfl
  · rw [hsections, hend]

/-- A printed namespace is parsed, and then what follows it. -/
theorem parseNamespaces_kinds {n : Namespace} (hn : n.WellFormed) {front : List Token}
    (hfront : front.map Token.kind = n.kinds) (origin : Nat) {t : Token} (ht : NoSection t.kind)
    (after : List Token) :
    ∃ m, m.unplaced = n.reread.unplaced ∧
      parseNamespaces origin (front ++ t :: after) =
        (parseNamespaces origin (t :: after)).map (m :: ·) := by
  obtain ⟨name, lists, brace, body, close, rfl, hname, hlists, hbrace, hbody, hclose⟩ :=
    Namespace.exists_tokens hfront
  obtain ⟨m, hsame, hsections⟩ :=
    parseSections_kinds hn hlists hbrace hbody hclose origin name.span (t :: after)
  refine ⟨m, hsame, ?_⟩
  rw [List.cons_append, List.append_assoc, List.cons_append, List.append_assoc,
    List.singleton_append, parseNamespaces_cons hname, hsections, ends_parseSections_stop ht]
  rfl

theorem parseNamespaces_kinds_ok {n m : Namespace} (hn : n.WellFormed) {front after : List Token}
    (hfront : front.map Token.kind = n.kinds) {origin : Nat} {ms : List Namespace}
    (h : parseNamespaces origin (front ++ after) = .ok (m :: ms)) :
    parseNamespaces origin after = .ok ms := by
  obtain ⟨name, lists, brace, body, close, rfl, hname, hlists, hbrace, hbody, hclose⟩ :=
    Namespace.exists_tokens hfront
  obtain ⟨m', -, hsections⟩ :=
    parseSections_kinds hn hlists hbrace hbody hclose origin name.span after
  rw [List.cons_append, List.append_assoc, List.cons_append, List.append_assoc,
    List.singleton_append] at h
  obtain ⟨left, hends, hmore⟩ := parseNamespaces_ok hname h
  rw [hsections] at hends
  obtain ⟨-, rfl⟩ := ends_parseSections_last hends
  exact hmore

theorem Namespace.tokensFrom_body {n : Namespace} {pos : Nat} {rest : List Char} {ts : List Token}
    (h : tokensFrom pos (n.body ++ rest) = .ok ts) :
    ∃ pos', tokensFrom pos' (n.statements.flatMap Statement.line ++ rest) = .ok ts := by
  unfold Namespace.body at h
  split at h
  · rename_i hempty
    rw [List.isEmpty_iff.mp hempty]
    exact ⟨pos, h⟩
  · obtain ⟨front, after, pos', rfl, hfront, hafter⟩ :=
      (Reads.lineFeed (n.statements.flatMap Statement.line ++ rest)).ok h
    obtain rfl := List.map_eq_nil_iff.mp hfront
    exact ⟨pos', hafter⟩

/-- **A namespace that is parsed as itself reads back.** -/
theorem Namespace.readsBack_of_parse {n m : Namespace} (hn : n.WellFormed) {pos origin : Nat}
    {rest : List Char} {ts : List Token} {ms : List Namespace}
    (hts : tokensFrom pos (n.print ++ rest) = .ok ts)
    (h : parseNamespaces origin ts = .ok (m :: ms)) (hsame : m.unplaced = n.unplaced) :
    n.ReadsBack := by
  rw [Namespace.print_eq, List.append_assoc] at hts
  have hapart : Apart ([' ', '{'] ++ (n.body ++ ['}']) ++ rest) := stops_cons (by decide) _
  by_cases hl : n.Lexes
  case neg =>
    obtain ⟨e, he⟩ := Namespace.fails_header hn hl hapart pos
    rw [he] at hts
    cases hts
  obtain ⟨front, values, pos₁, rfl, hfront, hvalues⟩ := (Namespace.reads_header hn hl hapart).ok hts
  obtain ⟨name, lists, rfl, hname, hlists⟩ := List.map_eq_cons_iff.mp hfront
  rw [List.append_assoc] at hvalues
  obtain ⟨braces, left, pos₂, rfl, hbraces, hleft⟩ := (Namespace.reads_open _).ok hvalues
  obtain ⟨brace, rfl, hbrace⟩ := List.map_eq_singleton_iff.mp hbraces
  rw [List.append_assoc] at hleft
  obtain ⟨pos₃, hstatements⟩ := Namespace.tokensFrom_body hleft
  rw [List.cons_append] at h
  obtain ⟨after, hends, -⟩ := parseNamespaces_ok hname h
  obtain ⟨m₀, last, hlast, hunplaced, hsections⟩ :=
    parseSections_header hn hlists origin name.span ([brace] ++ left)
  rw [hsections] at hends
  obtain ⟨us, span, hus, rfl⟩ := parseSections_statements_ok hlast hbrace hends
  rw [hunplaced] at hsame
  have hcomposites : n.composites.map (Composite.unplaced ∘ Composite.reread) =
      n.composites.map Composite.unplaced := by
    simpa [Namespace.unplaced, Namespace.reread] using congrArg Namespace.composites hsame
  have hparameters : n.parameters.map (Parameter.unplaced ∘ Parameter.reread) =
      n.parameters.map Parameter.unplaced := by
    simpa [Namespace.unplaced, Namespace.reread] using congrArg Namespace.parameters hsame
  exact
    { arguments := fun c hc =>
        Composite.readsBack_of_unplaced (List.map_inj_left.mp hcomposites c hc)
      parameters := fun p hp =>
        Parameter.readsBack_of_unplaced (List.map_inj_left.mp hparameters p hp)
      statements := readsBack_of_parseStatements hn.statements hstatements hus
        (congrArg Namespace.statements hsame) }

/-! ## What reads back -/

theorem ParamValue.lexes_of_readsBack {v : ParamValue} (h : v.readsBack) : v.Lexes := by
  cases v with
  | float value =>
    obtain ⟨f, negative, hf, -, htext, -⟩ := text_readsBack h
    obtain ⟨c, cs, hc, hcs⟩ := f.text_eq_cons hf
    unfold ParamValue.Lexes
    dsimp only
    rw [htext, hcs]
    intro hinf
    have hlist := congrArg String.toList hinf
    rw [String.toList_ofList] at hlist
    cases negative with
    | true =>
      obtain rfl : c = 'i' := (List.cons.inj (List.cons.inj hlist).2).1
      exact absurd hc (by decide)
    | false =>
      obtain rfl : c = '-' := (List.cons.inj hlist).1
      exact absurd hc (by decide)
  | _ => trivial

namespace Namespace

theorem ReadsBack.lexes {n : Namespace} (h : n.ReadsBack) : n.Lexes where
  composites := fun c hc a ha => ParamValue.lexes_of_readsBack (h.arguments c hc a ha)
  parameters := fun p hp => ParamValue.lexes_of_readsBack (h.parameters p hp)

theorem ReadsBack.reread {n : Namespace} (h : n.ReadsBack) : n.reread = n := by
  have hparameter : ∀ p : Parameter, p.value.readsBack → p.reread = p := fun p hp => by
    unfold Parameter.reread
    rw [(ParamValue.reread_eq_iff p.value).mpr hp]
  have hcomposite : ∀ c ∈ n.composites, c.reread = c := fun c hc => by
    unfold Composite.reread
    rw [List.map_congr_left fun a ha => hparameter a (h.arguments c hc a ha), List.map_id']
  unfold Namespace.reread
  rw [List.map_congr_left hcomposite,
    List.map_congr_left fun p hp => hparameter p (h.parameters p hp), List.map_id', List.map_id']

theorem reads_body {n : Namespace} (hn : n.WellFormed) (h : n.ReadsBack) (rest : List Char) :
    Reads n.body (n.statements.flatMap Statement.kinds) rest := by
  have hlines := reads_statements hn.statements h.statements rest
  unfold body
  split
  · rename_i hempty
    rw [List.isEmpty_iff.mp hempty]
    exact Reads.nil rest
  · exact (Reads.lineFeed _).append hlines

theorem reads {n : Namespace} (hn : n.WellFormed) (h : n.ReadsBack) (rest : List Char) :
    Reads n.print n.kinds rest := by
  have hapart : Apart ([' ', '{'] ++ (n.body ++ ['}']) ++ rest) := stops_cons (by decide) _
  have hbody := (reads_body hn h _).append (Reads.symbol (c := '}') rfl rest)
  rw [print_eq]
  exact (reads_header hn h.lexes hapart).append ((reads_open _).append hbody)

end Namespace

end EnvManifest
