import EnvManifest.Proofs.Manifest.Moving
import EnvManifest.Proofs.Manifest.Tiling

/-!
# Blanks and comments between tokens

A manifest says the same with more blanks and comments in front of a token. Only the text of an
expression is kept as it is, and so nothing is put in after `=` or after an expression.
-/

namespace EnvManifest

open Text

/-! ## Fillers -/

/-- Blanks and complete comments: a comment of one line with the line feed that ends it, and every
other comment with the first mark that closes it. -/
inductive Filler : List Char → Prop
  | nil : Filler []
  | blank {c : Char} {cs : List Char} (blank : isBlank c) (more : Filler cs) : Filler (c :: cs)
  | line {mark body cs : List Char} (starts : mark = ['#'] ∨ mark = ['/', '/'])
      (line : ∀ c ∈ body, c ≠ '\n') (more : Filler cs) : Filler (mark ++ body ++ '\n' :: cs)
  | block {run cs : List Char} (closed : runThrough ['*', '/'] run = some run.length)
      (more : Filler cs) : Filler ('/' :: '*' :: run ++ cs)

/-- A filler starts with a blank or a comment. -/
theorem Filler.startsGap {gap : List Char} (h : Filler gap) : ∀ c ∈ gap.head?, startsGap c := by
  cases h with
  | nil => nofun
  | blank blank =>
    intro d hd
    obtain rfl := Option.some.inj hd
    simp [EnvManifest.startsGap, blank]
  | line starts =>
    obtain rfl | rfl := starts <;> (intro d hd; obtain rfl := Option.some.inj hd; rfl)
  | block =>
    intro d hd
    obtain rfl := Option.some.inj hd
    rfl

theorem lexemeAt_blank {c : Char} (hc : isBlank c) (pos : Nat) (cs : List Char) :
    lexemeAt pos c cs = .ok (none, 0) := by
  have hash : c ≠ '#' := ne_of_isBlank hc (by decide)
  have slash : c ≠ '/' := ne_of_isBlank hc (by decide)
  rw [lexemeAt, if_neg (by simp [hash, slash]), if_neg (by simp [slash]), if_pos hc]

/-- A text is read as gaps, and what follows it as some other pieces. -/
def FillsBefore (rest : List Char) (ls : List Lexeme) (gap : List Char) : Prop :=
  ∃ gaps : List Lexeme, (∀ l ∈ gaps, l.kind = none) ∧ Lexeme.source gaps = gap ∧
    Pieces (gap ++ rest) (gaps ++ ls)

theorem FillsBefore.cons {rest gap own : List Char} {ls : List Lexeme} {c : Char}
    (h : FillsBefore rest ls gap) (plain : c ≠ '=')
    (here : ∀ pos, lexemeAt pos c (own ++ (gap ++ rest)) = .ok (none, own.length)) :
    FillsBefore rest ls (c :: own ++ gap) := by
  obtain ⟨gaps, none, source, pieces⟩ := h
  refine ⟨⟨.none, c :: own⟩ :: gaps, List.forall_mem_cons.mpr ⟨rfl, none⟩, ?_, ?_⟩
  · rw [Lexeme.source_cons, source]
  · rw [List.append_assoc]
    exact .plain plain here pieces

theorem FillsBefore.blank {rest gap : List Char} {ls : List Lexeme} {c : Char}
    (h : FillsBefore rest ls gap) (hc : isBlank c) : FillsBefore rest ls (c :: gap) :=
  show FillsBefore rest ls (c :: [] ++ gap) from
    h.cons (ne_of_isBlank hc (by decide)) fun pos => lexemeAt_blank hc pos _

/-- A filler is read as gaps whatever follows it. -/
theorem Filler.fills {gap rest : List Char} {ls : List Lexeme} (h : Filler gap)
    (hrest : Pieces rest ls) : FillsBefore rest ls gap := by
  induction h with
  | nil => exact ⟨[], List.forall_mem_nil _, rfl, hrest⟩
  | blank blank more ih => exact ih.blank blank
  | @line mark body cs starts line more ih =>
    have feed : FillsBefore rest ls ('\n' :: cs) := ih.blank (by decide)
    have whole (more : List Char) : lineRun (body ++ '\n' :: more) = body.length :=
      lineRun_append.mpr ⟨line, .inr rfl⟩
    obtain rfl | rfl := starts
    · refine show FillsBefore rest ls ('#' :: body ++ '\n' :: cs) from
        feed.cons (by decide) fun pos => ?_
      rw [lexemeAt_hash, List.cons_append, whole]
    · refine show FillsBefore rest ls ('/' :: ('/' :: body) ++ '\n' :: cs) from
        feed.cons (by decide) fun pos => ?_
      rw [List.cons_append, lexemeAt_slash, lineRun_cons, if_neg (by decide), List.cons_append, whole,
        List.length_cons]
  | @block run cs closed more ih =>
    have run := (runThrough_take (by simp) closed).2.2 (cs ++ rest)
    rw [List.take_length] at run
    exact ih.cons (by decide) fun pos => lexemeAt_block run

/-! ## Pieces at a token -/

/-- A text whose first piece is a token starts with no blank. -/
theorem Pieces.head_of_token {cs : List Char} {l : Lexeme} {ls : List Lexeme} {kind : TokenKind}
    (h : Pieces cs (l :: ls)) (hl : l.kind = some kind) : ∃ c ∈ cs.head?, c ≠ '\n' := by
  generalize hls : l :: ls = pieces at h
  cases h with
  | nil => cases hls
  | @plain c _ _ _ _ _ here =>
    obtain ⟨rfl, -⟩ := List.cons.inj hls
    refine ⟨c, rfl, ?_⟩
    rintro rfl
    have blank := (here 0).symm.trans (lexemeAt_blank (by decide) 0 _)
    obtain rfl : _ = some kind := hl
    cases blank
  | assignment => exact ⟨'=', rfl, by decide⟩

/-- The piece of a token, which stands where the pieces before it end. -/
theorem place_split {pos : Nat} {ls : List Lexeme} {front after : List Token} {t : Token}
    (h : Lexeme.place pos ls = front ++ t :: after) (ht : t.kind ≠ .eof) :
    ∃ before l behind, ls = before ++ l :: behind ∧ l.kind = some t.kind ∧
      Lexeme.kinds before = front.map (·.kind) ∧ (Lexeme.place pos before).dropLast = front ∧
      t.span.start = pos + byteLength (Lexeme.source before) ∧
      Lexeme.place t.span.start (l :: behind) = t :: after := by
  induction ls generalizing pos front with
  | nil =>
    cases front with
    | nil =>
      obtain ⟨rfl, -⟩ := List.cons.inj h
      exact absurd rfl ht
    | cons s front =>
      obtain ⟨-, none⟩ := List.cons.inj h
      simp at none
  | cons l ls ih =>
    obtain ⟨_ | kind, text⟩ := l
    · obtain ⟨before, m, behind, rfl, kind, kinds, front, start, place⟩ := ih h
      refine ⟨⟨none, text⟩ :: before, m, behind, rfl, kind, kinds, front, ?_, place⟩
      rw [start, Lexeme.source_cons, byteLength_append, Nat.add_assoc]
    · cases front with
      | nil =>
        obtain ⟨rfl, -⟩ := List.cons.inj h
        exact ⟨[], _, ls, rfl, rfl, rfl, rfl, by simp [Lexeme.source], h⟩
      | cons s front =>
        obtain ⟨rfl, more⟩ := List.cons.inj h
        obtain ⟨before, m, behind, rfl, kind', kinds, front, start, place⟩ := ih more
        refine ⟨⟨some kind, text⟩ :: before, m, behind, rfl, kind', ?_, ?_, ?_, place⟩
        · rw [List.map_cons, ← kinds]
          rfl
        · rw [Lexeme.place, List.dropLast_cons_of_ne_nil (place_ne_nil _ before), front]
        · rw [start, Lexeme.source_cons, byteLength_append, Nat.add_assoc]

/-! ## Texts with a filler -/

/-- A text with another one put in at a byte offset. -/
def insertAt (offset : Nat) (gap : List Char) (source : String) : String :=
  String.ofList (slice source.toList 0 offset ++ gap ++
    slice source.toList offset (byteLength source.toList))

theorem insertAt_split {source : String} {front back : List Char} (h : source.toList = front ++ back)
    (gap : List Char) :
    (insertAt (byteLength front) gap source).toList = front ++ (gap ++ back) := by
  have before : slice (front ++ back) 0 (byteLength front) = front := by
    simpa using slice_split [] front back
  rw [insertAt, String.toList_ofList, h, before, slice_rest, List.append_assoc]

theorem place_gaps (pos : Nat) {gaps : List Lexeme} (h : ∀ l ∈ gaps, l.kind = none)
    (ls : List Lexeme) :
    Lexeme.place pos (gaps ++ ls) = Lexeme.place (pos + byteLength (Lexeme.source gaps)) ls := by
  induction gaps generalizing pos with
  | nil => rfl
  | cons l gaps ih =>
    obtain ⟨here, later⟩ := List.forall_mem_cons.mp h
    obtain ⟨kind, text⟩ := l
    obtain rfl : kind = none := here
    rw [List.cons_append, Lexeme.source_cons, byteLength_append, ← Nat.add_assoc, ← ih _ later]
    rfl

/-- The tokens of a text with a filler in front of a token. -/
theorem lex_insertAt {source : String} {front after : List Token} {t : Token} {gap : List Char}
    (h : lex source = .ok (front ++ t :: after)) (ht : t.kind ≠ .eof)
    (closed : ∀ p ∈ front.getLast?, p.kind.isOpen = false) (filler : Filler gap) :
    lex (insertAt t.span.start gap source) =
      .ok (front ++ (t :: after).map (·.shift (byteLength gap))) := by
  obtain ⟨ls, hls, hplace⟩ := Grammar.map_ok h
  obtain ⟨before, l, behind, rfl, kind, kinds, hfront, start, hafter⟩ := place_split hplace ht
  rw [Nat.zero_add] at start
  have shut : Closed (Lexeme.kinds before) := by
    rw [kinds]
    intro k hk
    rw [List.getLast?_map, Option.mem_map] at hk
    obtain ⟨p, hp, rfl⟩ := hk
    exact closed p hp
  obtain ⟨back, cut⟩ := (pieces_of_lexemes hls).cut shut
  obtain ⟨gaps, none, source', filled⟩ := filler.fills cut.rest
  have replaces : Replaces back (gap ++ back) := by
    intro c hc
    cases gap with
    | nil => exact .inl hc
    | cons d gap =>
      obtain rfl := Option.some.inj hc
      exact .inr (.inr ⟨filler.startsGap d rfl, cut.rest.head_of_token kind⟩)
  have whole := (cut.swap replaces filled).lexemes 0
  unfold lex
  rw [start, insertAt_split cut.split, whole]
  refine congrArg Except.ok ?_
  rw [place_append, place_gaps _ none, source', place_shift, Nat.zero_add, ← start, hafter, hfront]

/-! ## Manifests that say the same -/

def Ast.move (f : Nat → Nat) (ast : Ast) : Ast := ⟨ast.namespaces.map (·.move f)⟩

/-- Both texts are the same manifest but for places, or both have the same fault. -/
inductive ParsedAlike : Except ParseError Ast → Except ParseError Ast → Prop
  | ok {ast ast' : Ast} (same : (ast'.move fun _ => 0) = ast.move fun _ => 0) :
    ParsedAlike (.ok ast) (.ok ast')
  | error {e e' : ParseError} (fault : e'.fault = e.fault) (message : e'.message = e.message) :
    ParsedAlike (.error e) (.error e')

theorem parsedAlike_of_kinds {text text' : String} {tokens tokens' : List Token}
    (h : lex text = .ok tokens) (h' : lex text' = .ok tokens')
    (same : tokens'.map (·.move fun _ => 0) = tokens.map (·.move fun _ => 0)) (origin : Nat)
    (name : String) : ParsedAlike (parseOrigin origin name text) (parseOrigin origin name text') := by
  have moved := parseNamespaces_moved (f := fun _ => 0) origin tokens
  have moved' := parseNamespaces_moved (f := fun _ => 0) origin tokens'
  rw [Grammar.parseOrigin_of_lex h, Grammar.parseOrigin_of_lex h']
  rw [same] at moved'
  cases hr : parseNamespaces origin (tokens.map (·.move fun _ => 0)) with
  | ok ns =>
    rw [hr] at moved moved'
    obtain ⟨ms, hms, rfl⟩ := moved.ok_right
    obtain ⟨ms', hms', alike⟩ := moved'.ok_right
    rw [hms, hms']
    exact .ok (congrArg Ast.mk alike)
  | error e =>
    rw [hr] at moved moved'
    obtain ⟨m, hm, fault⟩ := moved.error_right
    obtain ⟨m', hm', fault'⟩ := moved'.error_right
    rw [hm, hm']
    have same : m'.fault = m.fault := fault'.symm.trans fault
    exact .error same (congrArg ParseFault.message same)

/-- **Blanks and comments between tokens say nothing.** -/
theorem filler_insignificant {source : String} {front after : List Token} {t : Token}
    {gap : List Char} (h : lex source = .ok (front ++ t :: after)) (ht : t.kind ≠ .eof)
    (closed : ∀ p ∈ front.getLast?, p.kind ≠ .assign ∧ ∀ text, p.kind ≠ .expr text)
    (filler : Filler gap) :
    lex (insertAt t.span.start gap source) =
        .ok (front ++ (t :: after).map (·.shift (byteLength gap))) ∧
      ∀ origin name, ParsedAlike (parseOrigin origin name source)
        (parseOrigin origin name (insertAt t.span.start gap source)) := by
  have shut : ∀ p ∈ front.getLast?, p.kind.isOpen = false := by
    intro p hp
    obtain ⟨assign, expr⟩ := closed p hp
    cases hk : p.kind with
    | assign => exact absurd hk assign
    | expr text => exact absurd hk (expr text)
    | _ => rfl
  have tokens := lex_insertAt h ht shut filler
  refine ⟨tokens, parsedAlike_of_kinds h tokens ?_⟩
  rw [List.map_append, List.map_append, List.map_map]
  rfl

theorem filler_before_bracket :
    lex "a(1)" = .ok ([⟨.ident "a", ⟨0, 1⟩⟩] ++ ⟨.lparen, ⟨1, 2⟩⟩ ::
        [⟨.number "1", ⟨2, 3⟩⟩, ⟨.rparen, ⟨3, 4⟩⟩, ⟨.eof, ⟨4, 4⟩⟩]) ∧
      Filler "/*(*/#é\n".toList ∧
      lex "a/*(*/#é\n(1)" = .ok ([⟨.ident "a", ⟨0, 1⟩⟩] ++
        [⟨.lparen, ⟨10, 11⟩⟩, ⟨.number "1", ⟨11, 12⟩⟩, ⟨.rparen, ⟨12, 13⟩⟩, ⟨.eof, ⟨13, 13⟩⟩]) ∧
      ∀ origin name, ParsedAlike (parseOrigin origin name "a(1)")
        (parseOrigin origin name "a/*(*/#é\n(1)") := by
  have tokens : lex "a(1)" = .ok ([⟨.ident "a", ⟨0, 1⟩⟩] ++ ⟨.lparen, ⟨1, 2⟩⟩ ::
      [⟨.number "1", ⟨2, 3⟩⟩, ⟨.rparen, ⟨3, 4⟩⟩, ⟨.eof, ⟨4, 4⟩⟩]) := by cbv
  have filler : Filler "/*(*/#é\n".toList := by
    have line : Filler (['#'] ++ ['é'] ++ '\n' :: []) := .line (.inl rfl) (by simp) .nil
    exact show Filler ('/' :: '*' :: ['(', '*', '/'] ++ _) from .block (by decide) line
  obtain ⟨filled, alike⟩ := filler_insignificant tokens (by decide) (by simp) filler
  have text : insertAt 1 "/*(*/#é\n".toList "a(1)" = "a/*(*/#é\n(1)" := by cbv
  have length : byteLength "/*(*/#é\n".toList = 9 := by cbv
  rw [text] at filled alike
  rw [length] at filled
  exact ⟨tokens, filler, filled, alike⟩

end EnvManifest
