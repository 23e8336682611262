import Mathlib
import EnvManifest.Proofs.Manifest.Payloads

/-!
# Tokens tile a manifest

The tokens of a manifest stand one after another, and what they say is written there. Between them
are blanks and comments and nothing else, so that no character of the manifest is lost.
-/

namespace EnvManifest

open Text

/-! ## Gaps -/

/-- Blanks and whole comments with some text after them. A comment of one line runs to the end of
the line, and every other one to the first mark that closes it. -/
inductive Gap (rest : List Char) : List Char → Prop
  | nil : Gap rest []
  | blank {c : Char} {cs : List Char} (blank : isBlank c) (more : Gap rest cs) : Gap rest (c :: cs)
  | line {mark body cs : List Char} (starts : mark = ['#'] ∨ mark = ['/', '/'])
      (line : ∀ c ∈ body, c ≠ '\n') (ends : Breaks (cs ++ rest)) (more : Gap rest cs) :
      Gap rest (mark ++ body ++ cs)
  | block {run cs : List Char} (closed : runThrough ['*', '/'] run = some run.length)
      (more : Gap rest cs) : Gap rest ('/' :: '*' :: run ++ cs)

/-- What may stand between two tokens. Only blanks may follow an expression. -/
def Between (afterExpr : Bool) (rest gap : List Char) : Prop :=
  Gap rest gap ∧ (afterExpr → ∀ c ∈ gap, isBlank c)

/-- After anything but an expression, every gap may stand. -/
theorem Gap.between {rest gap : List Char} (h : Gap rest gap) : Between false rest gap :=
  ⟨h, fun expression => absurd expression (by decide)⟩

theorem Gap.blanks {rest gap w : List Char} (h : Gap rest gap) (hw : ∀ c ∈ w, isBlank c) :
    Gap rest (w ++ gap) := by
  induction w with
  | nil => exact h
  | cons c w ih =>
    obtain ⟨hc, hw⟩ := List.forall_mem_cons.mp hw
    exact .blank hc (ih hw)

/-- A gap does not start with a mark that closes a statement. -/
theorem Gap.ne_close {rest gap : List Char} (h : Gap rest gap) :
    ∀ c ∈ gap.head?, ¬(c = ';' ∨ c = '}') := by
  cases h with
  | nil => nofun
  | blank blank =>
    intro d hd
    obtain rfl := Option.some.inj hd
    rintro (rfl | rfl) <;> cases blank
  | line starts =>
    obtain rfl | rfl := starts <;> (intro d hd; obtain rfl := Option.some.inj hd; decide)
  | block =>
    intro d hd
    obtain rfl := Option.some.inj hd
    decide

theorem lineRun_split (cs : List Char) :
    (∀ c ∈ cs.take (lineRun cs), c ≠ '\n') ∧ Breaks (cs.drop (lineRun cs)) := by
  have whole : lineRun (cs.take (lineRun cs) ++ cs.drop (lineRun cs)) =
      (cs.take (lineRun cs)).length := by
    rw [List.take_append_drop]
    exact (List.length_take_of_le (List.takeWhile_prefix _).length_le).symm
  obtain ⟨plain, ends⟩ := lineRun_append.mp whole
  refine ⟨plain, fun c hc => ?_⟩
  obtain ends | ends := ends
  · rw [ends] at hc
    cases hc
  · exact Option.some.inj (hc.symm.trans ends)

/-- A piece that is no token makes the gap after it longer. -/
theorem gap_of_lexemeAt {pos n : Nat} {c : Char} {cs gap rest : List Char}
    (h : lexemeAt pos c cs = .ok (none, n)) (hcs : cs.drop n = gap ++ rest) (more : Gap rest gap) :
    Gap rest (c :: cs.take n ++ gap) := by
  unfold lexemeAt at h
  split at h
  · rename_i hmark
    obtain ⟨-, rfl⟩ := Prod.mk.inj (Except.ok.inj h)
    obtain ⟨plain, ends⟩ := lineRun_split cs
    rw [hcs] at ends
    obtain rfl | ⟨rfl, slash⟩ := hmark
    · exact .line (.inl rfl) plain ends more
    · obtain ⟨ds, rfl⟩ := List.head?_eq_some_iff.mp slash
      rw [lineRun_cons, if_neg (by decide), List.take_succ_cons] at plain ⊢
      exact .line (.inr rfl) (fun d hd => plain d (List.mem_cons_of_mem _ hd)) ends more
  split at h
  · rename_i hmark
    split at h
    · rename_i m hm
      obtain ⟨-, rfl⟩ := Prod.mk.inj (Except.ok.inj h)
      obtain ⟨rfl, star⟩ := hmark
      obtain ⟨ds, rfl⟩ := List.head?_eq_some_iff.mp star
      have hm : runThrough ['*', '/'] ds = some m := hm
      obtain ⟨-, fits, closed⟩ := runThrough_take (by simp) hm
      have run : runThrough ['*', '/'] (ds.take m) = some (ds.take m).length := by
        rw [List.length_take_of_le fits, ← List.append_nil (ds.take m)]
        exact closed []
      exact .block run more
    · cases h
  split at h
  · rename_i hblank
    obtain ⟨-, rfl⟩ := Prod.mk.inj (Except.ok.inj h)
    exact .blank hblank more
  repeat' split at h
  all_goals cases h

/-! ## Tiles -/

def TokenKind.isExpr : TokenKind → Bool
  | .expr _ => true
  | _ => false

/-- Tokens tile a text that starts at a byte offset: a gap, a token and the rest of the text, and
at last a gap and the end. Only the end and an expression may be empty. -/
inductive Tiles : Bool → Nat → List Char → List Token → Prop
  | eof {afterExpr : Bool} {pos stop : Nat} {gap : List Char} (between : Between afterExpr [] gap)
      (stops : stop = pos + byteLength gap) : Tiles afterExpr pos gap [⟨.eof, ⟨stop, stop⟩⟩]
  | token {afterExpr : Bool} {pos start stop : Nat} {kind : TokenKind} {gap own rest : List Char}
      {ts : List Token} (between : Between afterExpr (own ++ rest) gap)
      (starts : start = pos + byteLength gap) (stops : stop = start + byteLength own)
      (writes : kind.Writes own) (solid : own ≠ [] ∨ kind.isExpr)
      (more : Tiles kind.isExpr stop rest ts) :
      Tiles afterExpr pos (gap ++ (own ++ rest)) (⟨kind, ⟨start, stop⟩⟩ :: ts)

/-- A text with something before it that makes its first gap longer. -/
theorem Tiles.widen {afterExpr afterExpr' : Bool} {pos pos' : Nat} {piece cs : List Char}
    {ts : List Token} (h : Tiles afterExpr pos cs ts) (hpos : pos = pos' + byteLength piece)
    (longer : ∀ gap rest, cs = gap ++ rest → Between afterExpr rest gap →
      Between afterExpr' rest (piece ++ gap)) : Tiles afterExpr' pos' (piece ++ cs) ts := by
  cases h with
  | eof between stops =>
    refine .eof (longer cs [] (by simp) between) ?_
    rw [stops, hpos, byteLength_append, Nat.add_assoc]
  | token between starts stops writes solid more =>
    rw [← List.append_assoc]
    refine .token (longer _ _ rfl between) ?_ stops writes solid more
    rw [starts, hpos, byteLength_append, Nat.add_assoc]

/-- After an expression and the blanks behind it comes the mark that closes the statement. -/
theorem Tiles.afterExpression {pos pos' : Nat} {w cs : List Char} {ts : List Token}
    (h : Tiles false pos cs ts) (hpos : pos = pos' + byteLength w) (hw : ∀ c ∈ w, isBlank c)
    (closes : ∀ c ∈ cs.head?, c = ';' ∨ c = '}') : Tiles true pos' (w ++ cs) ts := by
  refine h.widen hpos ?_
  rintro gap rest rfl ⟨hgap, -⟩
  cases gap with
  | nil => exact ⟨hgap.blanks hw, fun _ => by simpa using hw⟩
  | cons c gap => exact absurd (closes c rfl) (hgap.ne_close c rfl)

/-- `=` and its expression tile a text whose rest is tiled. The blanks behind the expression go to
the first gap of the rest. -/
theorem Tiles.assignment {pos : Nat} {blanks written w after : List Char} {source : String}
    {ts : List Token} (blank : ∀ c ∈ blanks, isBlank c)
    (writes : (TokenKind.expr source).Writes written) (hw : ∀ c ∈ w, isBlank c)
    (closes : ∀ c ∈ after.head?, c = ';' ∨ c = '}')
    (more : Tiles false (pos + 1 + byteLength blanks + byteLength (written ++ w)) after ts) :
    Tiles false pos ('=' :: (blanks ++ (written ++ (w ++ after))))
      (⟨.assign, ⟨pos, pos + 1⟩⟩ ::
        ⟨.expr source, ⟨pos + 1 + byteLength blanks, pos + 1 + byteLength blanks + byteLength written⟩⟩ ::
          ts) := by
  have later : Tiles true (pos + 1 + byteLength blanks + byteLength written) (w ++ after) ts :=
    more.afterExpression (by rw [byteLength_append, Nat.add_assoc _ (byteLength written)]) hw closes
  have gap : Gap (written ++ (w ++ after)) blanks := by simpa using Gap.nil.blanks blank
  have expression : Tiles false (pos + 1) (blanks ++ (written ++ (w ++ after)))
      (⟨.expr source, ⟨pos + 1 + byteLength blanks, pos + 1 + byteLength blanks + byteLength written⟩⟩ ::
        ts) := .token gap.between rfl rfl writes (.inr rfl) later
  have assign : TokenKind.assign.Writes ['='] := rfl
  have here : Between false (['='] ++ (blanks ++ (written ++ (w ++ after)))) [] := Gap.nil.between
  exact .token here rfl rfl assign (.inl (by simp)) expression

/-- The pieces of a text tile it. -/
theorem tiles_of_lexemes {pos : Nat} {cs : List Char} {ls : List Lexeme}
    (h : lexemes pos cs = .ok ls) : Tiles false pos cs (Lexeme.place pos ls) := by
  fun_induction lexemes pos cs generalizing ls with
  | case1 pos =>
    cases h
    exact .eof Gap.nil.between rfl
  | case2 => cases h
  | case3 => cases h
  | case4 pos cs blanks body start parts hparts written meant length rest more hmore =>
    rename_i ih
    cases h
    obtain ⟨-, after, hbody⟩ := segments_sound hparts
    obtain ⟨w, hw, hblank, writes⟩ := expression_writes hparts
    have taken : body.take length = written ++ w := by
      rw [hbody, ← hw]
      exact List.take_left
    have dropped : body.drop length = after := by
      rw [hbody]
      exact List.drop_left
    have text : cs = blanks ++ (written ++ (w ++ after)) := by
      rw [← List.append_assoc written, ← taken, ← dropped, List.take_append_drop]
      simp only [blanks, body, drop_takeWhile, List.takeWhile_append_dropWhile]
    have blank : ∀ c ∈ blanks, isBlank c :=
      fun c hc => List.all_eq_true.mp List.all_takeWhile c hc
    have later := ih hmore
    rw [taken, dropped] at later
    have tiles := later.assignment blank writes hblank (segments_stop hparts hbody)
    have hrest : rest = w := by simp only [rest, taken, List.drop_left]
    rw [byteLength_append, ← Nat.add_assoc] at tiles
    rw [text, hrest]
    exact tiles
  | case5 => cases h
  | case6 => cases h
  | case7 pos c cs hc kind n hkind text more hmore =>
    rename_i ih
    cases h
    have split : c :: cs = text ++ cs.drop n := by simp [text]
    have later := ih hmore
    cases kind with
    | none =>
      -- A blank or a comment makes the first gap of the rest longer.
      rw [split]
      refine later.widen rfl ?_
      rintro gap rest hrest ⟨hgap, -⟩
      exact (gap_of_lexemeAt hkind hrest hgap).between
    | some kind =>
      have solid : kind.isExpr = false := by
        cases kind with
        | expr source => exact (lexemeAt_ne_expr hkind).elim
        | _ => rfl
      rw [split, ← List.nil_append (text ++ cs.drop n)]
      refine .token Gap.nil.between rfl rfl (lexemeAt_writes hkind) (.inl (by simp [text])) ?_
      rwa [solid]

/-! ## Slices -/

section

variable {start stop pos : Nat}

theorem slice_go_front {front : List Char} (cs : List Char) (hstart : pos + byteLength front ≤ start)
    (hstop : start ≤ stop) :
    slice.go start stop pos (front ++ cs) = slice.go start stop (pos + byteLength front) cs := by
  induction front generalizing pos with
  | nil => rfl
  | cons c front ih =>
    have size := c.utf8Size_pos
    rw [byteLength_cons, ← Nat.add_assoc] at hstart ⊢
    rw [List.cons_append, slice.go, if_neg (by omega), if_pos (by omega), ih hstart]

theorem slice_go_own {own : List Char} (back : List Char) (hstart : start ≤ pos)
    (hstop : pos + byteLength own = stop) : slice.go start stop pos (own ++ back) = own := by
  induction own generalizing pos with
  | nil =>
    have stopped : stop ≤ pos := Nat.le_of_eq hstop.symm
    cases back with
    | nil => rfl
    | cons c back => rw [List.nil_append, slice.go, if_pos stopped]
  | cons c own ih =>
    have size := c.utf8Size_pos
    rw [byteLength_cons, ← Nat.add_assoc] at hstop
    rw [List.cons_append, slice.go, if_neg (by omega), if_neg (by omega), ih (by omega) hstop]

end

/-- A slice is what stands between its offsets. -/
theorem slice_split (front own back : List Char) :
    slice (front ++ (own ++ back)) (byteLength front) (byteLength front + byteLength own) = own := by
  rw [slice, slice_go_front _ (Nat.le_of_eq (Nat.zero_add _)) (Nat.le_add_right ..), Nat.zero_add]
  exact slice_go_own back (Nat.le_refl _) rfl

theorem slice_rest (front back : List Char) :
    slice (front ++ back) (byteLength front) (byteLength (front ++ back)) = back := by
  have whole := slice_split front back []
  rwa [List.append_nil, ← byteLength_append] at whole

/-! ## Spans -/

/-- A byte offset at which a character of a text starts, or its end. -/
def Boundary (text : List Char) (n : Nat) : Prop :=
  ∃ front back, text = front ++ back ∧ byteLength front = n

/-- A token comes after a byte offset, with nothing but a gap between them. -/
def Token.Follows (t : Token) (text : List Char) (afterExpr : Bool) (pos : Nat) : Prop :=
  pos ≤ t.span.start ∧
    Between afterExpr (slice text t.span.start (byteLength text)) (slice text pos t.span.start)

section

variable {afterExpr : Bool} {pos : Nat} {before cs : List Char} {ts : List Token}

theorem Tiles.stands (h : Tiles afterExpr pos cs ts) (hpos : byteLength before = pos) :
    ∀ t ∈ ts, ∃ front own back, before ++ cs = front ++ (own ++ back) ∧
      t.span = ⟨byteLength front, byteLength front + byteLength own⟩ ∧ t.kind.Writes own ∧
      (own = [] → t.kind.isExpr ∨ t.kind = .eof) := by
  induction h generalizing before with
  | @eof _ pos stop gap between stops =>
    intro t ht
    obtain rfl := List.mem_singleton.mp ht
    refine ⟨before ++ gap, [], [], by simp, ?_, rfl, fun _ => .inr rfl⟩
    simp [stops, hpos]
  | @token _ pos start stop kind gap own rest ts between starts stops writes solid more ih =>
    have here : start = byteLength (before ++ gap) := by rw [starts, byteLength_append, hpos]
    rw [List.forall_mem_cons]
    constructor
    · refine ⟨before ++ gap, own, rest, by simp, ?_, writes, fun none => ?_⟩
      · rw [stops, here]
      · exact .inl (solid.resolve_left (not_not_intro none))
    · have later := @ih (before ++ gap ++ own) (by rw [byteLength_append, ← here, stops])
      simpa using later

theorem Tiles.le_start (h : Tiles afterExpr pos cs ts) : ∀ t ∈ ts, pos ≤ t.span.start := by
  induction h with
  | eof between stops =>
    intro t ht
    obtain rfl := List.mem_singleton.mp ht
    exact stops ▸ Nat.le_add_right ..
  | token between starts stops writes solid more ih =>
    rw [List.forall_mem_cons]
    refine ⟨starts ▸ Nat.le_add_right .., fun t ht => ?_⟩
    have := ih t ht
    omega

theorem Tiles.ordered (h : Tiles afterExpr pos cs ts) :
    ts.Pairwise fun s t => s.span.stop ≤ t.span.start := by
  induction h with
  | eof => exact List.pairwise_singleton ..
  | token between starts stops writes solid more ih => exact .cons more.le_start ih

theorem Tiles.last (h : Tiles afterExpr pos cs ts) :
    ts.getLast? = some ⟨.eof, ⟨pos + byteLength cs, pos + byteLength cs⟩⟩ := by
  induction h with
  | eof between stops => rw [stops]; rfl
  | token between starts stops writes solid more ih =>
    rw [List.getLast?_cons, ih, stops, starts]
    simp [Nat.add_assoc]

theorem Tiles.first (h : Tiles afterExpr pos cs ts) (hpos : byteLength before = pos) :
    ∀ t ∈ ts.head?, t.Follows (before ++ cs) afterExpr pos := by
  have follows {gap rest : List Char} (between : Between afterExpr rest gap) (t : Token)
      (starts : t.span.start = pos + byteLength gap) : t.Follows (before ++ (gap ++ rest)) afterExpr pos := by
    refine ⟨starts ▸ Nat.le_add_right .., ?_⟩
    rw [starts, ← hpos, slice_split, ← byteLength_append, ← List.append_assoc, slice_rest]
    exact between
  cases h with
  | @eof _ _ stop gap between stops =>
    intro t ht
    obtain rfl := Option.some.inj ht
    have stands := follows between ⟨.eof, ⟨stop, stop⟩⟩ stops
    rwa [List.append_nil] at stands
  | token between starts =>
    intro t ht
    obtain rfl := Option.some.inj ht
    exact follows between _ starts

theorem Tiles.chain (h : Tiles afterExpr pos cs ts) (hpos : byteLength before = pos) :
    ts.IsChain fun s t => t.Follows (before ++ cs) s.kind.isExpr s.span.stop := by
  induction h generalizing before with
  | eof => exact .singleton _
  | @token _ pos start stop kind gap own rest ts between starts stops writes solid more ih =>
    have reached : byteLength (before ++ gap ++ own) = stop := by
      rw [byteLength_append, byteLength_append, hpos, stops, starts]
    have text : before ++ (gap ++ (own ++ rest)) = before ++ gap ++ own ++ rest := by simp
    rw [text, List.isChain_cons]
    exact ⟨more.first reached, ih reached⟩

end

/-! ## Manifests -/

/-- Tokens tile a text. -/
structure Tiled (text : List Char) (tokens : List Token) : Prop where
  /-- Spans start and end between characters. -/
  boundaries : ∀ t ∈ tokens, Boundary text t.span.start ∧ Boundary text t.span.stop
  /-- Only the end of the text and an expression have no characters. -/
  spans : ∀ t ∈ tokens, t.span.start ≤ t.span.stop ∧
    (t.span.start = t.span.stop → t.kind.isExpr ∨ t.kind = .eof)
  ordered : tokens.Pairwise fun s t => s.span.stop ≤ t.span.start
  last : tokens.getLast? = some ⟨.eof, ⟨byteLength text, byteLength text⟩⟩
  /-- Before the first token there are only blanks and comments. -/
  first : ∀ t ∈ tokens.head?, t.Follows text false 0
  /-- Between two tokens there are only blanks and comments, and only blanks after an expression. -/
  next : tokens.IsChain fun s t => t.Follows text s.kind.isExpr s.span.stop
  /-- A token is what is written in its place. -/
  written : ∀ t ∈ tokens, t.kind.Writes (slice text t.span.start t.span.stop)

/-- **The tokens of a manifest tile it.** -/
theorem tokens_tile_manifest {source : String} {ts : List Token} (h : lex source = .ok ts) :
    Tiled source.toList ts := by
  unfold lex at h
  cases hls : lexemes 0 source.toList with
  | error e =>
    rw [hls] at h
    cases h
  | ok ls =>
    rw [hls] at h
    obtain rfl := Except.ok.inj h
    have tiles := tiles_of_lexemes hls
    have stands := tiles.stands byteLength_nil
    refine ⟨fun t ht => ?_, fun t ht => ?_, tiles.ordered, ?_, tiles.first byteLength_nil,
      tiles.chain byteLength_nil, fun t ht => ?_⟩
    · obtain ⟨front, own, back, text, span, -, -⟩ := stands t ht
      rw [List.nil_append] at text
      rw [span]
      exact ⟨⟨front, own ++ back, text, rfl⟩, ⟨front ++ own, back, by rw [text, List.append_assoc],
        byteLength_append ..⟩⟩
    · obtain ⟨front, own, back, -, span, -, solid⟩ := stands t ht
      rw [span]
      refine ⟨Nat.le_add_right .., fun none => solid ?_⟩
      cases own with
      | nil => rfl
      | cons c own =>
        have := c.utf8Size_pos
        dsimp only at none
        rw [byteLength_cons] at none
        omega
    · rw [tiles.last, Nat.zero_add]
    · obtain ⟨front, own, back, text, span, writes, -⟩ := stands t ht
      rw [List.nil_append] at text
      rw [span, text, slice_split]
      exact writes

def mixedManifest : String := "# é\na.b 1_0 0XfF 'é' /* * */= x\\; -- \\;\n ; // z"

def mixedTokens : List Token :=
  [⟨.ident "a.b", ⟨5, 8⟩⟩, ⟨.number "10", ⟨9, 12⟩⟩, ⟨.number "0xfF", ⟨13, 17⟩⟩, ⟨.str "é", ⟨18, 22⟩⟩,
    ⟨.assign, ⟨30, 31⟩⟩, ⟨.expr "x; -- \\;", ⟨32, 41⟩⟩, ⟨.semi, ⟨43, 44⟩⟩, ⟨.eof, ⟨49, 49⟩⟩]

theorem mixed_manifest_tiled :
    lex mixedManifest = .ok mixedTokens ∧ Tiled mixedManifest.toList mixedTokens := by
  have tokens : lex mixedManifest = .ok mixedTokens := by cbv
  exact ⟨tokens, tokens_tile_manifest tokens⟩

end EnvManifest
