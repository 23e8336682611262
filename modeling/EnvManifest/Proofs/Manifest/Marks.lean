import EnvManifest.Proofs.Manifest.Concatenation
import EnvManifest.Proofs.Manifest.Faults
import EnvManifest.Proofs.Manifest.Position
import EnvManifest.Proofs.Manifest.Stops

/-!
# The place of a parse error

A parse error is at a token or at a fault between tokens. No blank stands there, so that the place
is in one line of the text, which the excerpt shows with the mark under the right column.
-/

namespace EnvManifest

open Text

/-! ## Visible places -/

/-- A place of a text that starts at a byte offset. It has no blank: some other character stands
there, or the text ends. -/
def VisibleFrom (pos : Nat) (cs : List Char) (n : Nat) : Prop :=
  ∃ front rest, cs = front ++ rest ∧ n = pos + byteLength front ∧ ∀ c ∈ rest.head?, ¬isBlank c

section

variable {pos n : Nat} {front cs : List Char} {c : Char}

theorem visible_head (h : ¬isBlank c) : ∀ d ∈ (c :: cs).head?, ¬isBlank d := by
  intro d hd
  obtain rfl := Option.some.inj hd
  exact h

theorem visibleFrom_start (h : ∀ c ∈ cs.head?, ¬isBlank c) : VisibleFrom pos cs pos :=
  ⟨[], cs, rfl, rfl, h⟩

theorem VisibleFrom.later (h : VisibleFrom (pos + byteLength front) cs n) :
    VisibleFrom pos (front ++ cs) n := by
  obtain ⟨more, rest, rfl, place, visible⟩ := h
  exact ⟨front ++ more, rest, by simp, by rw [place, byteLength_append, Nat.add_assoc], visible⟩

end

theorem LexError.StandsIn.visible {e : LexError} {pos : Nat} {cs : List Char} (h : e.StandsIn pos cs) :
    VisibleFrom pos cs e.span.start := by
  obtain ⟨front, c, rest, text, starts, visible, -⟩ := h
  exact ⟨front, c :: rest, text, starts, visible_head visible⟩

theorem lexemeAt_visible {pos n : Nat} {c : Char} {cs : List Char} {kind : TokenKind}
    (h : lexemeAt pos c cs = .ok (some kind, n)) : ¬isBlank c := by
  unfold lexemeAt at h
  split at h
  · cases h
  split at h
  · split at h <;> cases h
  split at h
  · cases h
  · assumption

/-- Every token among pieces starts with a character that is no blank, or at the end of their text.
The second is for an expression without text. -/
def Lexeme.Visible : List Lexeme → Prop
  | [] => True
  | l :: ls => (l.kind ≠ none → ∀ c ∈ (source (l :: ls)).head?, ¬isBlank c) ∧ Visible ls

theorem lexemes_visible {pos : Nat} {cs : List Char} {ls : List Lexeme}
    (h : lexemes pos cs = .ok ls) : Lexeme.Visible ls := by
  have whole := lexemes_source h
  fun_induction lexemes pos cs generalizing ls with
  | case1 =>
    cases h
    trivial
  | case2 => cases h
  | case3 => cases h
  | case4 pos cs blanks body start parts hparts written meant length rest more hmore =>
    rename_i ih
    cases h
    have hcs : cs = blanks ++ body := by
      simp only [blanks, body, drop_takeWhile, List.takeWhile_append_dropWhile]
    have hbody : stops isBlank body := by
      simp only [body, blanks, drop_takeWhile]
      exact stops_dropWhile isBlank cs
    have text : Lexeme.source (⟨some (.expr (String.ofList meant)), written⟩ :: ⟨none, rest⟩ :: more) = body := by
      rw [hcs] at whole
      exact List.append_cancel_left (List.cons.inj whole).2
    have gap (l : Lexeme) (absent : l.kind = none) (text : List Char) :
        l.kind ≠ none → ∀ c ∈ text.head?, ¬isBlank c := fun token => absurd absent token
    refine ⟨fun _ => visible_head (by decide), gap _ rfl _, fun _ => ?_, gap _ rfl _,
      ih hmore (lexemes_source hmore)⟩
    rw [text]
    exact fun c hc => by simp [hbody c hc]
  | case5 => cases h
  | case6 => cases h
  | case7 pos c cs hc kind n hkind text more hmore =>
    rename_i ih
    cases h
    refine ⟨fun token => ?_, ih hmore (lexemes_source hmore)⟩
    obtain ⟨kind, rfl⟩ := Option.ne_none_iff_exists'.mp token
    exact visible_head (lexemeAt_visible hkind)

theorem place_visible (pos : Nat) {ls : List Lexeme} (h : Lexeme.Visible ls) :
    ∀ t ∈ Lexeme.place pos ls, VisibleFrom pos (Lexeme.source ls) t.span.start := by
  induction ls generalizing pos with
  | nil =>
    intro t ht
    obtain rfl := List.mem_singleton.mp ht
    exact visibleFrom_start (by simp [Lexeme.source])
  | cons l ls ih =>
    obtain ⟨here, more⟩ := h
    have later : ∀ t ∈ Lexeme.place (pos + byteLength l.text) ls,
        VisibleFrom pos (Lexeme.source (l :: ls)) t.span.start := fun t ht => (ih _ more t ht).later
    unfold Lexeme.place
    dsimp only
    split
    · exact later
    · rename_i kind hkind
      exact List.forall_mem_cons.mpr ⟨visibleFrom_start (here (by simp [hkind])), later⟩

theorem lex_visible {source : String} {ts : List Token} (h : lex source = .ok ts) :
    ∀ t ∈ ts, VisibleFrom 0 source.toList t.span.start := by
  obtain ⟨ls, hls, rfl⟩ := Grammar.map_ok h
  have visible := place_visible 0 (lexemes_visible hls)
  rwa [lexemes_source hls] at visible

/-! ## Parse errors -/

theorem parseSource_visible {origin : Nat} {source : String} {m : Misparse}
    (h : parseSource origin source = .error m) : VisibleFrom 0 source.toList m.offset := by
  unfold parseSource at h
  split at h
  · rename_i e hlex
    cases h
    exact (lex_error_standsIn hlex).visible
  · rename_i tokens hlex
    obtain ⟨ls, hls, rfl⟩ := Grammar.map_ok hlex
    have last := (tiles_of_lexemes hls).last
    obtain ⟨t, ht, place⟩ := parse_error_at_token last rfl (map_error h)
    rw [place]
    exact lex_visible hlex t ht

/-- An error is at a place of its text, in the line and the column that it names, and its excerpt
shows that line with the mark under that column. -/
structure ParseError.Marked (e : ParseError) : Prop where
  bounded : e.offset ≤ byteLength e.source.toList
  boundary : Boundary e.source.toList e.offset
  /-- A character that is no blank stands there, or the text ends. -/
  visible : ∀ c ∈ (slice e.source.toList e.offset (byteLength e.source.toList)).head?, ¬isBlank c
  shown : ∃ l : LineOf e.source.toList e.offset, e.position = (l.number, l.column) ∧
    splitChar '\n' e.detail.toList = l.excerptLines e.sourceName

/-- **Every parse error is placed and marked.** -/
theorem parse_error_marked {origin : Nat} {name source : String} {e : ParseError}
    (hname : '\n' ∉ name.toList) (h : parseOrigin origin name source = .error e) :
    e.sourceName = name ∧ e.source = source ∧ e.Marked := by
  unfold parseOrigin at h
  cases hparse : parseSource origin source with
  | ok ast =>
    rw [hparse] at h
    cases h
  | error m =>
    rw [hparse] at h
    cases h
    obtain ⟨fault, offset⟩ := m
    obtain ⟨front, rest, text, place, visible⟩ := parseSource_visible hparse
    obtain rfl : offset = byteLength front := place.trans (Nat.zero_add _)
    have unbroken : ∀ c ∈ rest.head?, c ≠ '\n' ∧ c ≠ '\r' := by
      intro c hc
      constructor <;> rintro rfl <;> exact absurd (visible _ hc) (by decide)
    obtain ⟨l⟩ := nonempty_lineOf front rest unbroken
    rw [← text] at l
    refine ⟨rfl, rfl, ?_, ⟨front, rest, text, rfl⟩, ?_, l, l.lineCol_eq, splitChar_excerpt hname l⟩
    · rw [text, byteLength_append]
      exact Nat.le_add_right ..
    · rwa [text, slice_rest]

def reservedText : String := "# é\r\na(1)\t[x]\r\n"

theorem reserved_section_marked :
    '\n' ∉ "m.env".toList ∧
      parseOrigin 0 "m.env" reservedText = .error ⟨.reservedSection, 11, "m.env", reservedText⟩ ∧
      ParseError.Marked ⟨.reservedSection, 11, "m.env", reservedText⟩ := by
  have name : '\n' ∉ "m.env".toList := by decide
  have fails : parseOrigin 0 "m.env" reservedText =
      .error ⟨.reservedSection, 11, "m.env", reservedText⟩ := by cbv
  exact ⟨name, fails, (parse_error_marked name fails).2.2⟩

end EnvManifest
