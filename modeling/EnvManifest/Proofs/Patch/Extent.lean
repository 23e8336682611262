import EnvManifest.Proofs.Manifest.Captured
import EnvManifest.Proofs.Patch.Pairing
import Mathlib

/-!
# Where expressions end

Reader and rewriter scan the text of an expression each in its own way. Here is that they see the
same strings and braces in it, as long as they see the same comments.
-/

namespace EnvManifest.Patch

open Text

/-! ## What is open -/

/-- The number of open braces after a symbol. A `}` must close one, and a `;` must stand in one. -/
def bracesAfter (depth : Nat) : List Char → Option Nat
  | ['{'] => some (depth + 1)
  | ['}'] => if depth = 0 then none else some (depth - 1)
  | [';'] => if depth = 0 then none else some depth
  | _ => some depth

def Token.braces (depth : Nat) (t : Token) : Option Nat :=
  if t.kind = .punct then bracesAfter depth t.text else some depth

/-- All braces of some tokens are matched, and each `;` stands in braces. -/
def Balanced (ts : List Token) : Prop := ts.foldlM Token.braces 0 = some 0

instance (ts : List Token) : Decidable (Balanced ts) := inferInstanceAs (Decidable (_ = _))

/-- Is a string closed, after its opening quote? -/
def stringCloses (quote : Char) : List Char → Bool
  | [] => false
  | ['\\'] => false
  | '\\' :: _ :: cs => stringCloses quote cs
  | c :: cs => if c = quote then true else stringCloses quote cs

/-- Is a long bracket closed, after its first `[`? -/
def longCloses (cs : List Char) : Bool :=
  match longLevel? cs with
  | some level => (runThrough (longClose level) (cs.drop (level + 1))).isSome
  | none => true

/-- Is a string, a long string or a long comment closed? -/
def Piece.isClosed (p : Piece) : Bool :=
  match p.kind, p.text with
  | some .str, c :: cs => if c = '[' then longCloses cs else stringCloses c cs
  | none, '-' :: '-' :: '[' :: cs => longCloses cs
  | _, _ => true

/-! ## Where comments are the same -/

/-- Does a number end with the first dash of a comment? -/
def Piece.splitsComment (p q : Piece) : Prop :=
  p.kind = some .number ∧ p.text.getLast? = some '-' ∧ q.text.head? = some '-'

instance (p q : Piece) : Decidable (p.splitsComment q) := inferInstanceAs (Decidable (_ ∧ _))

/-- The comments of a text are the same for the reader, which knows comments of one line only: no
comment opens a long bracket, and no number takes the first dash of a comment. -/
structure LineComments (ps : List Piece) : Prop where
  short : ∀ p ∈ ps, p.kind = none → Script.openingLevel? (p.text.drop 2) = none
  whole : ps.IsChain fun p q => ¬p.splitsComment q

/-! ## One piece -/

def Piece.braces (depth : Nat) (p : Piece) : Option Nat :=
  if p.kind = some .punct then bracesAfter depth p.text else some depth

/-- A piece that is closed, and after which the reader is at the same place. -/
structure Ends (depth : Nat) (p : Piece) (rest : List Char) : Prop where
  closed : p.isClosed
  goes : ∃ d, p.braces depth = some d ∧ Captured d rest

/-- What starts no string, long bracket or comment is a part of one character. -/
theorem captured_single {depth : Nat} {c : Char} {cs : List Char} (h : Captured depth (c :: cs))
    (quote : ¬(c = '"' ∨ c = '\'')) (bracket : c = '[' → longLevel? cs = none)
    (dash : c = '-' → cs.head? ≠ some '-') :
    ¬endsAt depth c ∧ Captured (depthAfter depth c) cs := by
  obtain ⟨goes, front, back, rfl, here, rest⟩ := h.of_cons
  cases here with
  | quoted hq => exact absurd hq quote
  | long hb hl => cases (longLevel?_append hl back).symm.trans (bracket hb)
  | comment hd =>
    refine absurd ?_ (dash hd.1)
    rw [List.head?_append, hd.2]
    rfl
  | single => exact ⟨goes, rest⟩

/-- A character that opens and closes nothing, whatever follows. -/
def isInert (c : Char) : Bool :=
  c != '"' && c != '\'' && c != '[' && c != '-' && c != '{' && c != '}'

theorem captured_inert {depth : Nat} {c : Char} {cs : List Char} (h : Captured depth (c :: cs))
    (hc : isInert c) : Captured depth cs := by
  simp only [isInert, Bool.and_eq_true, bne_iff_ne, ne_eq] at hc
  obtain ⟨⟨⟨⟨⟨hdouble, hsingle⟩, hbracket⟩, hdash⟩, hopen⟩, hclose⟩ := hc
  have := (captured_single h (not_or.mpr ⟨hdouble, hsingle⟩) (absurd · hbracket)
    (absurd · hdash)).2
  rwa [depthAfter_eq hopen hclose] at this

theorem captured_drop {depth n : Nat} {cs : List Char} (h : Captured depth cs)
    (hcs : ∀ c ∈ cs.take n, isInert c) : Captured depth (cs.drop n) := by
  induction n generalizing cs with
  | zero => exact h
  | succ n ih =>
    cases cs with
    | nil => exact h
    | cons c cs =>
      exact ih (captured_inert h (hcs c (List.mem_cons_self ..)))
        fun d hd => hcs d (List.mem_cons_of_mem c hd)

/-! ## Gaps -/

theorem ends_blank {depth : Nat} {c : Char} {cs : List Char} (h : Captured depth (c :: cs))
    (hc : isAsciiBlank c) : Ends depth ⟨none, [c]⟩ cs := by
  have hne {d : Char} (hd : isAsciiBlank d = false) : c ≠ d := by
    rintro rfl
    cases hc.symm.trans hd
  refine ⟨?_, depth, rfl, captured_inert h ?_⟩
  · unfold Piece.isClosed
    split
    all_goals simp_all
  · simp [isInert, hne (d := '"') rfl, hne (d := '\'') rfl, hne (d := '[') rfl,
      hne (d := '-') rfl, hne (d := '{') rfl, hne (d := '}') rfl]

/-- A comment that opens a long bracket does so in its own text. -/
theorem openingLevel?_comment {more : List Char}
    (h : Script.openingLevel? (more.take (commentRun ('-' :: more) - 1)) = none) :
    Script.openingLevel? more = none := by
  cases ho : Script.openingLevel? more with
  | none => rfl
  | some level =>
    obtain ⟨cs, rfl, hl⟩ := Script.openingLevel?_some ho
    have hrun : commentRun ('-' :: '[' :: cs) = 2 + longRun level cs := by
      unfold commentRun
      simp only [List.drop_succ_cons, List.drop_zero, hl]
    have hlevel : level < (cs.take (longRun level cs)).length := by
      have := (longLevel?_take hl).1
      rw [List.length_take, longRun]
      split <;> omega
    rw [hrun, show 2 + longRun level cs - 1 = longRun level cs + 1 by omega,
      List.take_succ_cons] at h
    rw [← List.take_append_drop (longRun level cs) cs] at hl
    have := Script.longLevel?_within [] hl hlevel
    rw [List.append_nil] at this
    exact this.symm.trans h

theorem isClosed_comment {front : List Char} (h : Script.openingLevel? front = none) :
    Piece.isClosed ⟨none, '-' :: '-' :: front⟩ := by
  unfold Piece.isClosed
  split
  · cases ‹none = some Kind.str›
  · rename_i cs _ htext
    obtain rfl : front = '[' :: cs := by simpa using htext
    have hlevel : longLevel? cs = none := h
    rw [longCloses, hlevel]
  · rfl

theorem ends_comment {depth : Nat} {more : List Char} (h : Captured depth ('-' :: '-' :: more))
    (short : Script.openingLevel? (more.take (commentRun ('-' :: more) - 1)) = none) :
    Ends depth ⟨none, '-' :: ('-' :: more).take (commentRun ('-' :: more))⟩
      (('-' :: more).drop (commentRun ('-' :: more))) := by
  have hline := commentRun_line (openingLevel?_comment short)
  have hpos : commentRun ('-' :: more) = commentRun ('-' :: more) - 1 + 1 := by
    rw [hline, lineRun_cons, if_neg (by decide)]
    rfl
  refine ⟨?_, depth, rfl, ?_⟩
  · rw [hpos, List.take_succ_cons]
    exact isClosed_comment short
  · obtain ⟨-, front, back, hcs, here, rest⟩ := h.of_cons
    rw [hline, hcs]
    cases here with
    | quoted quote => simp at quote
    | long bracket => simp at bracket
    | comment dashes line => rwa [line, List.drop_left]
    | single quote bracket dash =>
      refine absurd ?_ (dash rfl)
      rw [← List.nil_append back, ← hcs]
      rfl

/-! ## Strings -/

/-- A string that is closed for the reader is the same for the rewriter. -/
theorem stringRun_of_quoteRun {quote : Char} {cs : List Char} (zs : List Char)
    (h : quoteRun quote cs = (cs.length, true)) :
    stringRun quote (cs ++ zs) = cs.length ∧ stringCloses quote cs := by
  obtain ⟨n, hn⟩ : ∃ n, n = cs.length := ⟨_, rfl⟩
  rw [← hn] at h ⊢
  fun_induction quoteRun quote cs generalizing n with
  | case1 => cases h
  | case2 => cases h
  | case3 d cs m closed hm ih =>
    cases h
    obtain ⟨hrun, hcloses⟩ := ih m hm (by simpa using hn)
    exact ⟨by rw [List.cons_append, List.cons_append, stringRun, hrun], hcloses⟩
  | case4 => cases h
  | case5 cs hnil hcons =>
    cases h
    have hq : quote ≠ '\\' := fun hq => by
      cases cs with
      | nil => exact hnil hq rfl
      | cons d ds => exact hcons d ds hq rfl
    rw [List.cons_append, stringRun_cons hq, if_pos rfl]
    simp [stringCloses]
  | case6 c cs hnil hcons hline hc m closed hm ih =>
    cases h
    have hb : c ≠ '\\' := fun hb => by
      cases cs with
      | nil => exact hnil hb rfl
      | cons d ds => exact hcons d ds hb rfl
    obtain ⟨hrun, hcloses⟩ := ih m hm (by simpa using hn)
    rw [List.cons_append, stringRun_cons hb, if_neg hc, hrun]
    simp [stringCloses, hc, hcloses]

theorem isClosed_str (c : Char) (cs : List Char) :
    Piece.isClosed ⟨some .str, c :: cs⟩ = if c = '[' then longCloses cs else stringCloses c cs := rfl

theorem ends_string {depth : Nat} {c : Char} {cs : List Char} (h : Captured depth (c :: cs))
    (hc : c = '"' ∨ c = '\'') :
    Ends depth ⟨some .str, c :: cs.take (stringRun c cs)⟩ (cs.drop (stringRun c cs)) := by
  have hne {d : Char} (hd : d ≠ '"' ∧ d ≠ '\'') : c ≠ d := by
    rintro rfl
    exact hc.elim hd.1 hd.2
  obtain ⟨-, front, back, rfl, here, rest⟩ := h.of_cons
  rw [depthAfter_eq (hne (by decide)) (hne (by decide))] at rest
  cases here with
  | quoted _ closed =>
    obtain ⟨hrun, hcloses⟩ := stringRun_of_quoteRun back closed
    rw [hrun, List.take_left, List.drop_left]
    exact ⟨by rw [isClosed_str, if_neg (hne (by decide)), hcloses], depth, rfl, rest⟩
  | long bracket => exact absurd bracket (hne (by decide))
  | comment dashes => exact absurd dashes.1 (hne (by decide))
  | single quote => exact absurd hc quote

theorem ends_long {depth level : Nat} {cs : List Char} (h : Captured depth ('[' :: cs))
    (hl : longLevel? cs = some level) :
    Ends depth ⟨some .str, '[' :: cs.take (longRun level cs)⟩ (cs.drop (longRun level cs)) := by
  obtain ⟨-, front, back, rfl, here, rest⟩ := h.of_cons
  cases here with
  | quoted quote => simp at quote
  | long _ opened closed whole =>
    cases (longLevel?_append opened back).symm.trans hl
    have hcloses : longCloses front := by simp only [longCloses, opened, closed, Option.isSome_some]
    have hrun : longRun level (front ++ back) = front.length := by
      rw [← List.append_nil (front.drop (level + 1))] at closed
      rw [longRun, List.drop_append_of_le_length (by omega),
        Script.runThrough_within back (Script.longClose_ne_nil level) closed
          (by rw [List.length_drop]; omega), whole]
    rw [hrun, List.take_left, List.drop_left]
    exact ⟨by rw [isClosed_str, if_pos rfl, hcloses], depth, rfl, rest⟩
  | comment dashes => simp at dashes
  | single quote bracket => cases hl.symm.trans (bracket rfl)

/-! ## Names and numbers -/

theorem isInert_of_isAlphanumeric {c : Char} (h : isAlphanumeric c) : isInert c := by
  simp only [isInert, Bool.and_eq_true, bne_iff_ne, ne_eq]
  refine ⟨⟨⟨⟨⟨?_, ?_⟩, ?_⟩, ?_⟩, ?_⟩, ?_⟩ <;> rintro rfl <;> revert h <;> decide

theorem isInert_of_isNamePart {c : Char} (h : isNamePart c) : isInert c := by
  simp only [isNamePart, Bool.or_eq_true, beq_iff_eq] at h
  obtain h | rfl := h
  · exact isInert_of_isAlphanumeric h
  · rfl

theorem isInert_of_isNameStart {c : Char} (h : isNameStart c) : isInert c := by
  refine isInert_of_isNamePart ?_
  simp only [isNameStart, Bool.or_eq_true] at h
  simp only [isNamePart, isAlphanumeric, Bool.or_eq_true]
  exact h.imp_left .inl

/-- The reader comes to the end of a number, if that is not within a comment for it. -/
theorem captured_number {hex : Bool} {depth : Nat} {previous : Char} {cs : List Char}
    (h : Captured depth cs)
    (whole : ¬((previous :: cs.take (numberRun hex previous cs)).getLast? = some '-' ∧
      (cs.drop (numberRun hex previous cs)).head? = some '-')) :
    Captured depth (cs.drop (numberRun hex previous cs)) := by
  induction cs generalizing previous with
  | nil => exact h
  | cons c cs ih =>
    rw [numberRun_cons] at whole ⊢
    split at whole
    · rename_i hc
      rw [if_pos hc]
      rw [List.take_succ_cons, List.drop_succ_cons, List.getLast?_cons_cons] at whole
      rw [List.drop_succ_cons]
      refine ih ?_ whole
      by_cases hdash : c = '-'
      · subst hdash
        refine (captured_single h (by decide) (absurd · (by decide)) fun _ hnext => whole ?_).2
        obtain ⟨ds, rfl⟩ := List.head?_eq_some_iff.mp hnext
        exact ⟨rfl, rfl⟩
      · refine captured_inert h ?_
        simp only [Bool.or_eq_true, Bool.and_eq_true, beq_iff_eq, Script.isPlusMinus] at hc
        obtain ((hc | rfl) | rfl) | ⟨rfl | rfl, -⟩ := hc
        · exact isInert_of_isAlphanumeric hc
        · rfl
        · rfl
        · rfl
        · exact absurd rfl hdash
    · rename_i hc
      rw [if_neg hc]
      exact h

/-! ## Symbols -/

theorem symbolRun_inert {c : Char} {cs : List Char} (h : symbolRun c cs ≠ 0) :
    ∀ d ∈ c :: cs.take (symbolRun c cs), isInert d := by
  have pairs : ∀ p ∈ doubled, isInert p.1 ∧ isInert p.2 := by decide
  unfold symbolRun at h ⊢
  cases cs with
  | nil => exact absurd rfl h
  | cons d more =>
    dsimp only at h ⊢
    split at h
    · rename_i hdots
      obtain ⟨rfl, rfl, hmore⟩ := hdots
      obtain ⟨ds, rfl⟩ := List.head?_eq_some_iff.mp hmore
      rw [if_pos ⟨rfl, rfl, rfl⟩]
      simp [isInert]
    · split at h
      · rename_i hnot hpair
        have := pairs _ (List.contains_iff_mem.mp hpair)
        rw [if_neg hnot, if_pos hpair]
        simpa using this
      · exact absurd rfl h

theorem bracesAfter_single {depth : Nat} {c : Char} (goes : ¬endsAt depth c) :
    bracesAfter depth [c] = some (depthAfter depth c) := by
  unfold bracesAfter depthAfter
  split
  all_goals simp_all [endsAt]

theorem braces_long (depth : Nat) (c d : Char) (cs : List Char) :
    Piece.braces depth ⟨some .punct, c :: d :: cs⟩ = some depth := by
  rw [Piece.braces, if_pos rfl]
  unfold bracesAfter
  split
  all_goals simp_all

theorem ends_symbol {depth : Nat} {c : Char} {cs : List Char} (h : Captured depth (c :: cs))
    (quote : ¬(c = '"' ∨ c = '\'')) (bracket : c = '[' → longLevel? cs = none)
    (dash : c = '-' → cs.head? ≠ some '-') :
    Ends depth ⟨some .punct, c :: cs.take (symbolRun c cs)⟩ (cs.drop (symbolRun c cs)) := by
  by_cases hrun : symbolRun c cs = 0
  · obtain ⟨goes, rest⟩ := captured_single h quote bracket dash
    rw [hrun]
    exact ⟨rfl, _, bracesAfter_single goes, rest⟩
  · have inert := List.forall_mem_cons.mp (symbolRun_inert hrun)
    cases cs with
    | nil => exact absurd rfl hrun
    | cons d ds =>
      refine ⟨rfl, depth, ?_, captured_drop (captured_inert h inert.1) inert.2⟩
      obtain ⟨n, hn⟩ := Nat.exists_eq_succ_of_ne_zero hrun
      rw [hn, List.take_succ_cons]
      exact braces_long depth c d (ds.take n)

/-! ## All pieces -/

/-- **One piece.** Where the comments are the same, reader and rewriter come to the same place. -/
theorem ends_pieceAt {depth : Nat} {c : Char} {cs : List Char} (h : Captured depth (c :: cs))
    {kind : Option Kind} {n : Nat} (hpiece : pieceAt c cs = (kind, n))
    (short : kind = none → Script.openingLevel? ((c :: cs.take n).drop 2) = none)
    (whole : ¬(kind = some .number ∧ (c :: cs.take n).getLast? = some '-' ∧
      (cs.drop n).head? = some '-')) : Ends depth ⟨kind, c :: cs.take n⟩ (cs.drop n) := by
  unfold pieceAt at hpiece
  split at hpiece
  · rename_i hblank
    cases hpiece
    exact ends_blank h hblank
  split at hpiece
  · rename_i hdashes
    cases hpiece
    obtain ⟨rfl, hcs⟩ := hdashes
    obtain ⟨more, rfl⟩ := List.head?_eq_some_iff.mp hcs
    refine ends_comment h ?_
    simpa [List.drop_take] using short rfl
  split at hpiece
  · rename_i hquote
    cases hpiece
    exact ends_string h hquote
  split at hpiece
  · rename_i hnumber
    cases hpiece
    refine ⟨rfl, depth, rfl, captured_number (captured_inert h ?_) fun hw => whole ⟨rfl, hw⟩⟩
    obtain hd | rfl := digit_or_point hnumber
    · exact isInert_of_isAlphanumeric (by simp [isAlphanumeric, hd])
    · rfl
  split at hpiece
  · rename_i hname
    cases hpiece
    exact ⟨rfl, depth, rfl, captured_drop (captured_inert h (isInert_of_isNameStart hname))
      fun d hd => isInert_of_isNamePart (forall_take_takeWhile cs d hd)⟩
  · rename_i hdashes hquote hnumber hname
    split at hpiece
    · rename_i level hl
      cases hpiece
      split at hl
      · rename_i hbracket
        subst hbracket
        exact ends_long h hl
      · cases hl
    · rename_i hl
      cases hpiece
      exact ends_symbol h hquote (fun hc => by rwa [if_pos hc] at hl) fun hc hcs => hdashes ⟨hc, hcs⟩

theorem foldlM_attach (gap : List Char) (ps : List Piece) (depth : Nat) :
    (attach gap ps).1.foldlM Token.braces depth = ps.foldlM Piece.braces depth := by
  induction ps generalizing gap depth with
  | nil => rfl
  | cons p ps ih =>
    obtain ⟨kind, text⟩ := p
    cases kind with
    | none => exact ih (gap ++ text) depth
    | some kind =>
      have same : Token.braces depth ⟨gap, kind, text⟩ = Piece.braces depth ⟨some kind, text⟩ := by
        simp [Token.braces, Piece.braces]
      rw [attach, List.foldlM_cons]
      dsimp only
      rw [same, List.foldlM_cons]
      exact congrArg _ (funext fun d => ih [] d)

/-- **All pieces.** -/
theorem closed_pieces {depth : Nat} {cs : List Char} (h : Captured depth cs)
    (same : LineComments (pieces cs)) :
    (pieces cs).foldlM Piece.braces depth = some 0 ∧ ∀ p ∈ pieces cs, p.isClosed := by
  fun_induction pieces cs generalizing depth with
  | case1 =>
    cases h
    exact ⟨rfl, List.forall_mem_nil _⟩
  | case2 c cs kind n hpiece ih =>
    obtain ⟨short, whole⟩ := same
    obtain ⟨first, short⟩ := List.forall_mem_cons.mp short
    obtain ⟨apart, whole⟩ := List.isChain_cons.mp whole
    have whole' : ¬ (kind = some .number ∧ (c :: cs.take n).getLast? = some '-' ∧
        (cs.drop n).head? = some '-') := by
      rintro ⟨hkind, hlast, hhead⟩
      obtain ⟨more, hmore⟩ := List.head?_eq_some_iff.mp hhead
      rw [hmore, pieces_cons] at apart
      exact apart _ rfl ⟨hkind, hlast, rfl⟩
    obtain ⟨hclosed, d, hbraces, rest⟩ := ends_pieceAt h hpiece first whole'
    obtain ⟨hfold, hall⟩ := ih rest ⟨short, whole⟩
    rw [List.foldlM_cons, hbraces]
    exact ⟨hfold, List.forall_mem_cons.mpr ⟨hclosed, hall⟩⟩

/-- **Reader and rewriter agree on where an expression ends.** -/
theorem balanced_of_kept {source : String} {ts : List EnvManifest.Token} (hlex : lex source = .ok ts)
    {t : EnvManifest.Token} (ht : t ∈ ts) {text : String} (hkind : t.kind = .expr text)
    (kept : Expression.Verbatim source.toList ⟨text, t.span.start⟩)
    (same : LineComments (pieces text.toList)) :
    Balanced (tokenize text.toList).1 ∧ ∀ p ∈ pieces text.toList, p.isClosed := by
  obtain ⟨hfold, hclosed⟩ := closed_pieces (captured_of_lex hlex ht hkind kept) same
  exact ⟨(foldlM_attach [] _ 0).trans hfold, hclosed⟩

/-- A table with braces, brackets and a comment in which `;` and `}` stand. -/
def nestedText : String := "\x7b '\x7d', [=[;]=] -- ;\n\x7d"

theorem nested_text_balanced :
    (∃ ts, lex ("a \x7b x = " ++ nestedText ++ "; \x7d") = .ok ts ∧
      ⟨.expr nestedText, ⟨8, 29⟩⟩ ∈ ts) ∧
    LineComments (pieces nestedText.toList) ∧
    Balanced (tokenize nestedText.toList).1 ∧ ∀ p ∈ pieces nestedText.toList, p.isClosed := by
  have hlex : lex ("a \x7b x = " ++ nestedText ++ "; \x7d") = .ok
      [⟨.ident "a", ⟨0, 1⟩⟩, ⟨.lbrace, ⟨2, 3⟩⟩, ⟨.ident "x", ⟨4, 5⟩⟩, ⟨.assign, ⟨6, 7⟩⟩,
        ⟨.expr nestedText, ⟨8, 29⟩⟩, ⟨.semi, ⟨29, 30⟩⟩, ⟨.rbrace, ⟨31, 32⟩⟩, ⟨.eof, ⟨32, 32⟩⟩] := by
    cbv
  have hpieces : pieces nestedText.toList =
      [⟨some .punct, ['{']⟩, ⟨none, [' ']⟩, ⟨some .str, "'\x7d'".toList⟩, ⟨some .punct, [',']⟩,
        ⟨none, [' ']⟩, ⟨some .str, "[=[;]=]".toList⟩, ⟨none, [' ']⟩, ⟨none, "-- ;".toList⟩,
        ⟨none, ['\n']⟩, ⟨some .punct, ['}']⟩] := by
    cbv
  have same : LineComments (pieces nestedText.toList) := by
    rw [hpieces]
    exact ⟨by decide, by decide⟩
  refine ⟨⟨_, hlex, by simp⟩, same, ?_⟩
  exact balanced_of_kept hlex (List.mem_of_getElem? (show _[4]? = _ from rfl)) rfl
    ⟨"a \x7b x = ".toList, "; \x7d".toList, by decide, by decide⟩ same

/-- A long comment is cut where its line ends: the reader does not know such comments. -/
theorem long_comment_cut :
    ∃ ts, lex "a \x7b x = 1 --[[ c\n; ]] \x7d" = .ok ts ∧ ∃ t ∈ ts, t.kind = .expr "1 --[[ c" ∧
      Expression.Verbatim "a \x7b x = 1 --[[ c\n; ]] \x7d".toList ⟨"1 --[[ c", t.span.start⟩ ∧
      ¬(Balanced (tokenize "1 --[[ c".toList).1 ∧
        ∀ p ∈ pieces "1 --[[ c".toList, p.isClosed) := by
  have hlex : lex "a \x7b x = 1 --[[ c\n; ]] \x7d" = .ok
      [⟨.ident "a", ⟨0, 1⟩⟩, ⟨.lbrace, ⟨2, 3⟩⟩, ⟨.ident "x", ⟨4, 5⟩⟩, ⟨.assign, ⟨6, 7⟩⟩,
        ⟨.expr "1 --[[ c", ⟨8, 16⟩⟩, ⟨.semi, ⟨17, 18⟩⟩, ⟨.rbracket, ⟨19, 20⟩⟩,
        ⟨.rbracket, ⟨20, 21⟩⟩, ⟨.rbrace, ⟨22, 23⟩⟩, ⟨.eof, ⟨23, 23⟩⟩] := by
    cbv
  have hpieces : pieces "1 --[[ c".toList =
      [⟨some .number, ['1']⟩, ⟨none, [' ']⟩, ⟨none, "--[[ c".toList⟩] := by
    cbv
  refine ⟨_, hlex, ⟨.expr "1 --[[ c", ⟨8, 16⟩⟩, by simp, rfl, ?_, ?_⟩
  · exact ⟨"a \x7b x = ".toList, "\n; ]] \x7d".toList, by decide, by decide⟩
  · rintro ⟨-, hclosed⟩
    rw [hpieces] at hclosed
    exact absurd (hclosed ⟨none, "--[[ c".toList⟩ (by simp)) (by decide)

/-- A number takes the first dash of a comment. -/
example : ¬Balanced (tokenize "1e--;".toList).1 := by
  have hpieces : pieces "1e--;".toList =
      [⟨some .number, "1e-".toList⟩, ⟨some .punct, ['-']⟩, ⟨some .punct, [';']⟩] := by
    cbv
  rw [tokenize, hpieces]
  decide

end EnvManifest.Patch
