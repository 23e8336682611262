import EnvManifest.Proofs.Manifest.Lookahead

/-!
# Texts one after another

A text is read piece by piece, and no piece looks far ahead. So a text may be cut between two pieces,
and another one may come there, as long as no expression is open.
-/

namespace EnvManifest

open Text

/-! ## Lines -/

/-- A text that is empty or goes on in a new line. -/
def Breaks (back : List Char) : Prop := ∀ c ∈ back.head?, c = '\n'

theorem breaks_cons (cs : List Char) : Breaks ('\n' :: cs) := by
  simp [Breaks]

/-- A new line may come after every text. -/
theorem Breaks.replaces {back : List Char} (h : Breaks back) (cs : List Char) : Replaces cs back :=
  fun c hc => .inr (.inl (h c hc))

/-! ## Pieces -/

theorem Lexeme.source_cons (l : Lexeme) (ls : List Lexeme) :
    Lexeme.source (l :: ls) = l.text ++ Lexeme.source ls := List.flatMap_cons

theorem Lexeme.source_append (ls more : List Lexeme) :
    Lexeme.source (ls ++ more) = Lexeme.source ls ++ Lexeme.source more := List.flatMap_append

/-- The pieces of an assignment whose expression has some parts. -/
def assignment (blanks : List Char) (parts : List Segment) : List Lexeme :=
  let text := parts.flatMap (·.written)
  let written := (dropBlankEnd parts).flatMap (·.written)
  [⟨some .assign, ['=']⟩, ⟨none, blanks⟩,
    ⟨some (.expr (String.ofList (trimEnd (parts.flatMap (·.meant))))), written⟩,
    ⟨none, text.drop written.length⟩]

theorem assignment_source (blanks : List Char) (parts : List Segment) :
    Lexeme.source (assignment blanks parts) = '=' :: (blanks ++ parts.flatMap (·.written)) := by
  obtain ⟨tail, split, -⟩ := dropBlankEnd_append parts
  have text : parts.flatMap (·.written) =
      (dropBlankEnd parts).flatMap (·.written) ++ tail.flatMap (·.written) := by
    rw [← List.flatMap_append, ← split]
  simp [Lexeme.source, assignment, text]

/-- The pieces of a text, wherever it starts. -/
inductive Pieces : List Char → List Lexeme → Prop
  | nil : Pieces [] []
  | plain {c : Char} {own rest : List Char} {kind : Option TokenKind} {ls : List Lexeme}
      (plain : c ≠ '=') (here : ∀ pos, lexemeAt pos c (own ++ rest) = .ok (kind, own.length))
      (more : Pieces rest ls) : Pieces (c :: (own ++ rest)) (⟨kind, c :: own⟩ :: ls)
  | assignment {blanks rest : List Char} {parts : List Segment} {ls : List Lexeme}
      (blank : ∀ c ∈ blanks, isBlank c) (starts : stops isBlank (parts.flatMap (·.written) ++ rest))
      (here : ∀ start, segments start start 0 (parts.flatMap (·.written) ++ rest) = .ok parts)
      (more : Pieces rest ls) :
      Pieces ('=' :: (blanks ++ (parts.flatMap (·.written) ++ rest))) (assignment blanks parts ++ ls)

theorem Pieces.lexemes {cs : List Char} {ls : List Lexeme} (h : Pieces cs ls) (pos : Nat) :
    lexemes pos cs = .ok ls := by
  induction h generalizing pos with
  | nil => rw [EnvManifest.lexemes]
  | plain plain here more ih =>
    rw [EnvManifest.lexemes, if_neg plain, here]
    dsimp only
    rw [List.take_left, List.drop_left, ih]
  | assignment blank starts here more ih =>
    rw [EnvManifest.lexemes, if_pos rfl, takeWhile_run blank starts]
    dsimp only
    rw [List.drop_left, here]
    dsimp only
    rw [List.take_left, List.drop_left, ih]
    rfl

theorem pieces_of_lexemes {pos : Nat} {cs : List Char} {ls : List Lexeme}
    (h : lexemes pos cs = .ok ls) : Pieces cs ls := by
  fun_induction lexemes pos cs generalizing ls with
  | case1 =>
    cases h
    exact .nil
  | case2 => cases h
  | case3 => cases h
  | case4 pos cs blanks body start parts hparts written meant length rest more hmore =>
    rename_i ih
    cases h
    obtain ⟨-, after, hbody⟩ := segments_sound hparts
    have split : cs = blanks ++ body := by
      simp only [blanks, body, drop_takeWhile, List.takeWhile_append_dropWhile]
    have taken : body.take length = parts.flatMap (·.written) := by
      rw [hbody]
      exact List.take_left
    have dropped : body.drop length = after := by
      rw [hbody]
      exact List.drop_left
    have starts : stops isBlank body := by
      simp only [body, blanks, drop_takeWhile]
      exact stops_dropWhile isBlank cs
    have blank : ∀ c ∈ blanks, isBlank c := fun c hc => List.all_eq_true.mp List.all_takeWhile c hc
    have later := ih hmore
    rw [dropped] at later
    have pieces := Pieces.assignment blank (hbody ▸ starts)
      (fun start => hbody ▸ segments_moved hparts start start) later
    rw [split, hbody]
    have same : rest = (parts.flatMap (·.written)).drop written.length := by
      simp only [rest, taken]
    rw [same]
    exact pieces
  | case5 => cases h
  | case6 => cases h
  | case7 pos c cs hc kind n hkind text more hmore =>
    rename_i ih
    cases h
    have fits := lexemeAt_fits hkind
    have here : lexemeAt pos c (cs.take n ++ cs.drop n) = .ok (kind, (cs.take n).length) := by
      rwa [List.take_append_drop, List.length_take_of_le fits]
    have pieces := Pieces.plain hc (fun pos' => lexemeAt_replace (replaces_refl _) here pos') (ih hmore)
    rwa [List.take_append_drop] at pieces

theorem Pieces.source {cs : List Char} {ls : List Lexeme} (h : Pieces cs ls) :
    Lexeme.source ls = cs := by
  induction h with
  | nil => rfl
  | plain plain here more ih => rw [Lexeme.source_cons, ih, List.cons_append]
  | assignment blank starts here more ih =>
    rw [Lexeme.source_append, assignment_source, ih, List.cons_append, List.append_assoc]

theorem lexemes_source {pos : Nat} {cs : List Char} {ls : List Lexeme}
    (h : lexemes pos cs = .ok ls) : Lexeme.source ls = cs := (pieces_of_lexemes h).source

/-- The first piece has characters. -/
theorem Pieces.first_ne_nil {cs : List Char} {l : Lexeme} {ls : List Lexeme} (h : Pieces cs (l :: ls)) :
    l.text ≠ [] := by
  generalize hls : l :: ls = pieces at h
  cases h with
  | nil => cases hls
  | plain =>
    obtain ⟨rfl, -⟩ := List.cons.inj hls
    exact List.cons_ne_nil _ _
  | assignment =>
    obtain ⟨rfl, -⟩ := List.cons.inj hls
    exact List.cons_ne_nil _ _

/-! ## Cuts -/

/-- The kinds of the tokens among some pieces. -/
def Lexeme.kinds (ls : List Lexeme) : List TokenKind := ls.filterMap (·.kind)

/-- Does an expression follow the token, or is it one that may go on? -/
def TokenKind.isOpen : TokenKind → Bool
  | .assign | .expr _ => true
  | _ => false

/-- Some tokens do not end in an assignment. -/
def Closed (kinds : List TokenKind) : Prop := ∀ k ∈ kinds.getLast?, k.isOpen = false

theorem Closed.of_append {ks ls : List TokenKind} (h : Closed (ks ++ ls)) : Closed ls := by
  intro k hk
  refine h k ?_
  rw [List.getLast?_append, Option.mem_def.mp hk]
  rfl

/-- No closed text ends with an assignment or with a part of it. -/
theorem not_closed_assignment {front back : List Lexeme} {blanks : List Char} {parts : List Segment}
    (h : assignment blanks parts = front ++ back) (hne : front ≠ []) :
    ¬Closed (Lexeme.kinds front) := by
  have opened : ∀ l ∈ front ++ back, ∀ k ∈ l.kind, k.isOpen := by
    rw [← h]
    simp [assignment, TokenKind.isOpen]
  cases front with
  | nil => exact absurd rfl hne
  | cons l front =>
    obtain ⟨rfl, -⟩ := List.cons.inj h
    intro closed
    obtain ⟨k, last⟩ : ∃ k, (Lexeme.kinds (⟨some .assign, ['=']⟩ :: front)).getLast? = some k :=
      ⟨_, List.getLast?_eq_some_getLast (List.cons_ne_nil TokenKind.assign (Lexeme.kinds front))⟩
    obtain ⟨l, hl, kind⟩ := List.mem_filterMap.mp (List.mem_of_getLast? last)
    have shut := closed k last
    rw [opened l (List.mem_append_left _ hl) k kind] at shut
    cases shut

/-- A text that may be cut after some of its pieces: what follows is read on its own, and another
text may come there. -/
structure CutAfter (cs : List Char) (front more : List Lexeme) (back : List Char) : Prop where
  split : cs = Lexeme.source front ++ back
  rest : Pieces back more
  swap {back' : List Char} {more' : List Lexeme} (replaces : Replaces back back')
    (pieces : Pieces back' more') : Pieces (Lexeme.source front ++ back') (front ++ more')

theorem CutAfter.plain {c : Char} {own rest back : List Char} {kind : Option TokenKind}
    {front more : List Lexeme} (cut : CutAfter rest front more back) (plain : c ≠ '=')
    (here : ∀ pos, lexemeAt pos c (own ++ rest) = .ok (kind, own.length)) :
    CutAfter (c :: (own ++ rest)) (⟨kind, c :: own⟩ :: front) more back := by
  refine ⟨?_, cut.rest, fun replaces pieces => ?_⟩
  · rw [Lexeme.source_cons, List.append_assoc, ← cut.split, List.cons_append]
  · have whole := cut.split ▸ here
    rw [Lexeme.source_cons, List.append_assoc, List.cons_append, List.cons_append]
    exact .plain plain (fun pos => lexemeAt_replace (replaces.append _) (whole pos) pos)
      (cut.swap replaces pieces)

/-- What closes an expression is a piece of its own, and so it comes before every cut that is not in
the assignment. -/
theorem CutAfter.assignment {blanks rest back : List Char} {parts : List Segment} {l : Lexeme}
    {tail more : List Lexeme} (cut : CutAfter rest (l :: tail) more back) (filled : l.text ≠ [])
    (blank : ∀ c ∈ blanks, isBlank c) (starts : stops isBlank (parts.flatMap (·.written) ++ rest))
    (here : ∀ start, segments start start 0 (parts.flatMap (·.written) ++ rest) = .ok parts) :
    CutAfter ('=' :: (blanks ++ (parts.flatMap (·.written) ++ rest)))
      (EnvManifest.assignment blanks parts ++ l :: tail) more back := by
  obtain ⟨mark, own, hl⟩ := List.exists_cons_of_ne_nil filled
  have source : Lexeme.source (l :: tail) = mark :: (own ++ Lexeme.source tail) := by
    rw [Lexeme.source_cons, hl, List.cons_append]
  have text := cut.split
  rw [source, List.cons_append] at text
  have marks : mark = ';' ∨ mark = '}' := segments_stop (here 0) rfl mark (by rw [text]; rfl)
  refine ⟨?_, cut.rest, fun {back' more'} replaces pieces => ?_⟩
  · rw [Lexeme.source_append, assignment_source, cut.split]
    simp
  · have here' (start : Nat) : segments start start 0
        (parts.flatMap (·.written) ++ (Lexeme.source (l :: tail) ++ back')) = .ok parts := by
      rw [source, List.cons_append]
      exact segments_replace (here start) (by rw [text]) (by obtain rfl | rfl := marks <;> decide) _
    have starts' : stops isBlank
        (parts.flatMap (·.written) ++ (Lexeme.source (l :: tail) ++ back')) := by
      intro c hc
      refine starts c ?_
      rw [← hc, text, source, List.cons_append]
      cases parts.flatMap (·.written) <;> rfl
    rw [Lexeme.source_append, assignment_source, List.cons_append, List.cons_append,
      List.append_assoc, List.append_assoc, List.append_assoc]
    exact .assignment blank starts' here' (cut.swap replaces pieces)

/-- A text may be cut where no assignment is open. -/
theorem Pieces.cut {cs : List Char} {front more : List Lexeme} (h : Pieces cs (front ++ more))
    (closed : Closed (Lexeme.kinds front)) : ∃ back, CutAfter cs front more back := by
  generalize hls : front ++ more = ls at h
  induction h generalizing front with
  | nil =>
    obtain ⟨rfl, rfl⟩ := List.append_eq_nil_iff.mp hls
    exact ⟨[], rfl, .nil, fun _ pieces => pieces⟩
  | @plain c own rest kind ls plain here more' ih =>
    cases front with
    | nil =>
      obtain rfl : more = _ := hls
      exact ⟨_, rfl, .plain plain here more', fun _ pieces => pieces⟩
    | cons l front =>
      obtain ⟨rfl, rfl⟩ := List.cons.inj hls
      have later : Closed (Lexeme.kinds front) := by
        cases kind with
        | none => exact closed
        | some kind => exact (show Closed ([kind] ++ Lexeme.kinds front) from closed).of_append
      obtain ⟨back, cut⟩ := ih later rfl
      exact ⟨back, cut.plain plain here⟩
  | @assignment blanks rest parts ls blank starts here more' ih =>
    obtain ⟨later, split, rfl⟩ | ⟨tail, rfl, rfl⟩ := List.append_eq_append_iff.mp hls
    · cases front with
      | nil =>
        obtain rfl : EnvManifest.assignment blanks parts = later := split
        exact ⟨_, rfl, .assignment blank starts here more', fun _ pieces => pieces⟩
      | cons l front => exact absurd closed (not_closed_assignment split (List.cons_ne_nil _ _))
    · cases tail with
      | nil =>
        rw [List.append_nil] at closed
        exact absurd closed (not_closed_assignment (List.append_nil _).symm (List.cons_ne_nil _ _))
      | cons l tail =>
        rw [Lexeme.kinds, List.filterMap_append] at closed
        obtain ⟨back, cut⟩ := ih closed.of_append rfl
        exact ⟨back, cut.assignment more'.first_ne_nil blank starts here⟩

/-- **The pieces of a text come first** in the text with another one in a new line. -/
theorem Pieces.append {cs back : List Char} {ls more : List Lexeme} (h : Pieces cs ls)
    (closed : Closed (Lexeme.kinds ls)) (breaks : Breaks back) (hback : Pieces back more) :
    Pieces (cs ++ back) (ls ++ more) := by
  have whole : Pieces cs (ls ++ []) := by rwa [List.append_nil]
  obtain ⟨_, cut⟩ := whole.cut closed
  have both := cut.swap (breaks.replaces _) hback
  rwa [h.source] at both

end EnvManifest
