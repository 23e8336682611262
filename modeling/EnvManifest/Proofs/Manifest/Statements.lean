import EnvManifest.Proofs.Manifest.Composites

/-!
# Statements, printed and read again

Unlike a parameter, a statement that does not read back may still be parsed as another one. So the
statements of a printed namespace are followed up to the first of these.
-/

namespace EnvManifest

open Text

def Statement.unplaced (s : Statement) : Statement :=
  ⟨s.ident, s.operator, ⟨s.expression.source, 0⟩, ⟨0, 0⟩⟩

namespace Statement

/-- Is the expression of a statement read back as it was? -/
def readsBack (s : Statement) : Bool := EnvManifest.readsBack {} 0 s.expression.source.toList

def kinds (s : Statement) : List TokenKind :=
  [.ident s.ident, .assign, .expr s.expression.source, .semi]

/-- The line of a statement in a printed namespace. -/
def line (s : Statement) : List Char := ' ' :: ' ' :: s.print ++ [';', '\n']

theorem isIdent_of_isVariableName {name : List Char} (h : isVariableName name) : isIdent name := by
  cases name with
  | nil => exact absurd h (by decide)
  | cons c cs =>
    simp only [isVariableName, List.head?_cons, Option.any_some, Bool.and_eq_true,
      List.all_eq_true, List.mem_cons] at h
    simp only [isIdent, Bool.and_eq_true, List.all_eq_true]
    refine ⟨h.1, fun d hd => ?_⟩
    have := h.2 d (.inr hd)
    simp only [Bool.or_eq_true] at this
    simp only [isIdentPart, Bool.or_eq_true]
    exact .inl (.inl this)

theorem line_append {s : Statement} (hs : s.WellFormed) (rest : List Char) :
    s.line ++ rest = ([' ', ' '] ++ (s.ident.toList ++ [' '])) ++
      ('=' :: ' ' :: closedText {} s.expression.source.toList ('\n' :: rest)) := by
  unfold line Statement.print Expression.print closedText
  rw [hs.operator]
  simp

theorem reads_name {s : Statement} (hs : s.WellFormed) (rest : List Char) :
    Reads ([' ', ' '] ++ (s.ident.toList ++ [' '])) [.ident s.ident] rest := by
  have hident := Reads.name (isIdent_of_isVariableName hs.ident)
    (stops_cons (p := isIdentPart) (c := ' ') (by decide) rest)
  exact ((Reads.space _).append (Reads.space _)).append (hident.append (Reads.space rest))

theorem reads_close (rest : List Char) : Reads [';', '\n'] [.semi] rest :=
  (Reads.symbol (c := ';') rfl _).append (Reads.lineFeed rest)

theorem reads_expression {s : Statement} (hs : s.WellFormed) (h : s.readsBack) (rest : List Char) :
    Reads ('=' :: ' ' :: escapeSemicolons {} s.expression.source.toList)
      [.assign, .expr s.expression.source] (';' :: rest) := by
  have := Reads.expression hs.source h rest
  rwa [String.ofList_toList] at this

theorem reads {s : Statement} (hs : s.WellFormed) (h : s.readsBack) (rest : List Char) :
    Reads s.line s.kinds rest := by
  have hall := (reads_name hs _).append
    ((reads_expression hs h ('\n' :: rest)).append (reads_close rest))
  have htext : s.line = ([' ', ' '] ++ (s.ident.toList ++ [' '])) ++
      (('=' :: ' ' :: escapeSemicolons {} s.expression.source.toList) ++ [';', '\n']) := by
    have := line_append hs []
    simpa [closedText] using this
  rw [htext]
  exact hall

end Statement

theorem reads_statements {ss : List Statement} (hss : ∀ s ∈ ss, s.WellFormed)
    (h : ∀ s ∈ ss, s.readsBack) (rest : List Char) :
    Reads (ss.flatMap Statement.line) (ss.flatMap Statement.kinds) rest := by
  induction ss with
  | nil => exact Reads.nil rest
  | cons s ss ih =>
    rw [List.flatMap_cons, List.flatMap_cons]
    exact (Statement.reads (hss s (List.mem_cons_self ..)) (h s (List.mem_cons_self ..)) _).append
      (ih (fun u hu => hss u (List.mem_cons_of_mem s hu)) fun u hu => h u (List.mem_cons_of_mem s hu))

theorem parseStatements_kinds {ss : List Statement} (hss : ∀ s ∈ ss, s.WellFormed)
    {front : List Token} {close : Token} (hfront : front.map Token.kind = ss.flatMap Statement.kinds)
    (hclose : close.kind = .rbrace) (after : List Token) :
    ∃ us, seen (parseStatements (front ++ close :: after)) = .ok (us, after) ∧
      us.map Statement.unplaced = ss.map Statement.unplaced := by
  induction ss generalizing front with
  | nil =>
    obtain rfl := List.map_eq_nil_iff.mp hfront
    exact ⟨[], seen_parseStatements_end hclose after, rfl⟩
  | cons s ss ih =>
    have hs := hss s (List.mem_cons_self ..)
    rw [List.flatMap_cons] at hfront
    obtain ⟨t, ts, rfl, ht, hts⟩ := List.map_eq_cons_iff.mp hfront
    obtain ⟨a, ts, rfl, ha, hts⟩ := List.map_eq_cons_iff.mp hts
    obtain ⟨e, ts, rfl, he, hts⟩ := List.map_eq_cons_iff.mp hts
    obtain ⟨semi, ts, rfl, hsemi, hts⟩ := List.map_eq_cons_iff.mp hts
    obtain ⟨us, hus, hsame⟩ := ih (fun u hu => hss u (List.mem_cons_of_mem s hu)) hts
    have hne : s.expression.source ≠ "" := by
      intro hnil
      exact hs.source.ne_nil (by rw [hnil]; rfl)
    refine ⟨⟨s.ident, "=", ⟨s.expression.source, e.span.start⟩,
      ⟨t.span.start, e.span.stop⟩⟩ :: us, ?_, ?_⟩
    · rw [List.cons_append, List.cons_append, List.cons_append,
        seen_parseStatements_cons ht hs.ident ha he hne, List.cons_append, if_pos (.inl hsemi),
        seen_parseStatements_semi hsemi, hus]
      rfl
    · rw [List.map_cons, List.map_cons, hsame]
      simp [Statement.unplaced, hs.operator]

/-- **Statements that are parsed as themselves read back.** The first that does not would be parsed
as another one. -/
theorem readsBack_of_parseStatements {ss us : List Statement} (hss : ∀ s ∈ ss, s.WellFormed)
    {pos : Nat} {rest : List Char} {ts after : List Token}
    (hts : tokensFrom pos (ss.flatMap Statement.line ++ '}' :: rest) = .ok ts)
    (hus : seen (parseStatements ts) = .ok (us, after))
    (hsame : us.map Statement.unplaced = ss.map Statement.unplaced) :
    ∀ s ∈ ss, s.readsBack := by
  induction ss generalizing pos ts us with
  | nil => simp
  | cons s ss ih =>
    have hs := hss s (List.mem_cons_self ..)
    rw [List.flatMap_cons, List.append_assoc, Statement.line_append hs] at hts
    obtain ⟨names, values, pos', rfl, hnames, hvalues⟩ := (Statement.reads_name hs _).ok hts
    obtain ⟨t, rfl, ht⟩ := List.map_eq_singleton_iff.mp hnames
    obtain ⟨parts, a, e, text, left, hparts, rfl, ha, he, htext⟩ :=
      tokensFrom_assign_ok hs.source.head hvalues
    obtain ⟨u, more, rfl, hu, hmore⟩ := seen_parseStatements_ok ht hs.ident ha he hus
    rw [List.map_cons, List.map_cons, List.cons.injEq] at hsame
    obtain ⟨hhead, htail⟩ := hsame
    have hsource : text = s.expression.source := by
      rw [← hu]
      exact congrArg (fun w => w.expression.source) hhead
    have hread : s.readsBack := readsBack_of_segments_trimEnd hparts (hsource ▸ htext)
    -- Now that the expression reads back, what follows is read as it was printed.
    obtain ⟨front, left', pos'', hsplit, hfront, hleft⟩ :=
      (Statement.reads_expression hs hread ('\n' :: (ss.flatMap Statement.line ++ '}' :: rest))).ok
        hvalues
    obtain ⟨a', es, rfl, -, hes⟩ := List.map_eq_cons_iff.mp hfront
    obtain ⟨e', rfl, -⟩ := List.map_eq_singleton_iff.mp hes
    obtain rfl : left = left' := (List.cons.inj (List.cons.inj hsplit).2).2
    obtain ⟨closes, left', pos''', rfl, hcloses, hleft'⟩ := (Statement.reads_close _).ok hleft
    obtain ⟨semi, rfl, hsemi⟩ := List.map_eq_singleton_iff.mp hcloses
    rw [List.singleton_append, seen_parseStatements_semi hsemi] at hmore
    have hrec := ih (fun w hw => hss w (List.mem_cons_of_mem s hw)) hleft' hmore htail
    simp only [List.mem_cons]
    rintro w (rfl | hw)
    · exact hread
    · exact hrec w hw

end EnvManifest
