import EnvManifest.Manifest.Lexer
import EnvManifest.Manifest.Printer

/-!
# Expressions, printed and read again

The printer puts a backslash before each `;` that would end the statement, as it sees it: it counts
quotes and braces. The reader knows long brackets and comments too. Here is where the two agree,
and that nothing else is read back.
-/

namespace EnvManifest

open Text

/-! ## What is read back -/

/-- How many braces are open after a character. -/
def depthAfter (depth : Nat) (c : Char) : Nat :=
  if c = '{' then depth + 1 else if c = '}' then depth - 1 else depth

/-- Does a comment start with these two characters? -/
def startsComment (c : Char) (next : Option Char) : Bool := c == '-' && next == some '-'

/-- Is an expression read back as it was? The walk goes along the text with the printer's state and
the reader's depth. A `;` must be escaped or in braces. A backslash must not come to stand before a
bare `;`. A quoted part, a long bracket and a comment must be closed, and printed without new
backslashes. -/
def readsBack (s : QuoteState) (depth : Nat) (cs : List Char) : Bool :=
  match cs with
  | [] => depth == 0
  | c :: cs =>
    if c = ';' then (s.isOpen || depth != 0) && readsBack (s.next c) depth cs
    else if c = '\\' then
      !cs.isEmpty && (cs.head? != some ';' || (s.next c).isOpen) && readsBack (s.next c) depth cs
    else if c = '}' ∧ depth = 0 then false
    else
      match segmentAt 0 c cs with
      | .error _ => false
      | .ok (n, part) =>
        escapeSemicolons s part == part && !(startsComment c cs.head? && (cs.drop n).isEmpty) &&
          readsBack (part.foldl QuoteState.next s) (depthAfter depth c) (cs.drop n)
termination_by cs.length
decreasing_by all_goals (simp only [List.length_cons, List.length_drop]; omega)

/-! ## The printer -/

@[simp] theorem escapeSemicolons_nil (s : QuoteState) : escapeSemicolons s [] = [] := rfl

theorem escapeSemicolons_cons (s : QuoteState) (c : Char) (cs : List Char) :
    escapeSemicolons s (c :: cs) =
      (if c = ';' ∧ s.isOpen then ['\\', c] else [c]) ++ escapeSemicolons (s.next c) cs := by
  rw [escapeSemicolons]
  split <;> rfl

theorem escapeSemicolons_append (s : QuoteState) (cs ds : List Char) :
    escapeSemicolons s (cs ++ ds) =
      escapeSemicolons s cs ++ escapeSemicolons (cs.foldl QuoteState.next s) ds := by
  induction cs generalizing s with
  | nil => rfl
  | cons c cs ih =>
    simp only [List.cons_append, escapeSemicolons_cons, ih, List.foldl_cons, List.append_assoc]

/-- The text of an expression, printed and closed by a `;`. -/
def closedText (s : QuoteState) (cs rest : List Char) : List Char :=
  escapeSemicolons s cs ++ ';' :: rest

theorem closedText_nil (s : QuoteState) (rest : List Char) : closedText s [] rest = ';' :: rest :=
  rfl

theorem closedText_plain {s : QuoteState} {c : Char} (h : ¬(c = ';' ∧ s.isOpen))
    (cs rest : List Char) : closedText s (c :: cs) rest = c :: closedText (s.next c) cs rest := by
  unfold closedText
  rw [escapeSemicolons_cons, if_neg h]
  rfl

theorem closedText_escaped {s : QuoteState} (h : s.isOpen) (cs rest : List Char) :
    closedText s (';' :: cs) rest = '\\' :: ';' :: closedText (s.next ';') cs rest := by
  unfold closedText
  rw [escapeSemicolons_cons, if_pos ⟨rfl, h⟩]
  rfl

/-- A part that the printer leaves alone stands in the printed text. -/
theorem closedText_part {s : QuoteState} {part : List Char} (h : escapeSemicolons s part = part)
    (cs rest : List Char) :
    closedText s (part ++ cs) rest = part ++ closedText (part.foldl QuoteState.next s) cs rest := by
  unfold closedText
  rw [escapeSemicolons_append, h, List.append_assoc]

/-- Where the printed text starts like the expression and blanks after it, the printer has put in
no backslash. -/
theorem unescaped_of_prefix {n : Nat} {s : QuoteState} {cs rest w : List Char}
    (hw : ∀ c ∈ w, isBlank c) (hn : n ≤ (closedText s cs rest).length)
    (h : (closedText s cs rest).take n <+: cs ++ w) :
    n ≤ cs.length ∧ escapeSemicolons s (cs.take n) = cs.take n := by
  induction n generalizing s cs with
  | zero => simp
  | succ n ih =>
    cases cs with
    | nil =>
      rw [closedText_nil, List.take_succ_cons, List.nil_append] at h
      have : isBlank ';' := hw _ (h.subset (List.mem_cons_self ..))
      simp [isBlank] at this
    | cons c cs =>
      by_cases hc : c = ';' ∧ s.isOpen
      · obtain ⟨rfl, ho⟩ := hc
        rw [closedText_escaped ho, List.take_succ_cons, List.cons_append, List.cons_prefix_cons] at h
        exact absurd h.1 (by decide)
      · rw [closedText_plain hc] at h hn
        rw [List.take_succ_cons, List.cons_append, List.cons_prefix_cons] at h
        obtain ⟨hlen, hsame⟩ := ih (by simpa using hn) h.2
        refine ⟨by simpa using hlen, ?_⟩
        rw [List.take_succ_cons, escapeSemicolons_cons, if_neg hc, hsame]
        rfl

/-- A bare `;` comes first where the text is empty, or starts with one that is not escaped. -/
theorem head?_closedText_semicolon (s : QuoteState) (cs rest : List Char) :
    (closedText s cs rest).head? = some ';' ↔ cs = [] ∨ (cs.head? = some ';' ∧ ¬s.isOpen) := by
  cases cs with
  | nil => simp [closedText_nil]
  | cons c cs =>
    by_cases hc : c = ';' ∧ s.isOpen
    · obtain ⟨rfl, ho⟩ := hc
      simp [closedText_escaped ho, ho]
    · rw [closedText_plain hc]
      simp only [List.head?_cons, Option.some.injEq, List.cons_ne_nil, false_or]
      exact ⟨fun h => ⟨h, fun ho => hc ⟨h, ho⟩⟩, And.left⟩

/-! ## Parts that are read as one -/

theorem quoteRun_cons (quote : Char) {c : Char} (h : c ≠ '\\') (cs : List Char) :
    quoteRun quote (c :: cs) =
      if c = '\n' then (0, false)
      else if c = quote then (1, true)
      else ((quoteRun quote cs).1 + 1, (quoteRun quote cs).2) := by
  rw [quoteRun]
  · exact fun hc _ => h hc
  · exact fun d ds hc _ => h hc

/-- A quoted part does not depend on what follows it. -/
theorem quoteRun_take {quote : Char} {cs : List Char} {n : Nat}
    (h : quoteRun quote cs = (n, true)) :
    n ≤ cs.length ∧ ∀ zs, quoteRun quote (cs.take n ++ zs) = (n, true) := by
  induction cs using quoteRun.induct quote generalizing n with
  | case1 => simp [quoteRun] at h
  | case2 => simp [quoteRun] at h
  | case3 d cs m closed hm ih =>
    rw [quoteRun, hm] at h
    obtain ⟨rfl, rfl⟩ := Prod.mk.inj h
    obtain ⟨hlen, hzs⟩ := ih hm
    refine ⟨by simpa using hlen, fun zs => ?_⟩
    rw [List.take_succ_cons, List.take_succ_cons, List.cons_append, List.cons_append, quoteRun, hzs]
  | case4 => simp [quoteRun] at h
  | case5 cs hnil hcons hn =>
    have hq : quote ≠ '\\' := fun hq => by
      cases cs with
      | nil => exact hnil hq rfl
      | cons d ds => exact hcons d ds hq rfl
    rw [quoteRun_cons quote hq, if_neg hn, if_pos rfl] at h
    obtain ⟨rfl, -⟩ := Prod.mk.inj h
    refine ⟨by simp, fun zs => ?_⟩
    rw [List.take_succ_cons, List.cons_append, quoteRun_cons quote hq, if_neg hn, if_pos rfl]
  | case6 c cs hnil hcons hn hc m closed hm ih =>
    have hb : c ≠ '\\' := fun hb => by
      cases cs with
      | nil => exact hnil hb rfl
      | cons d ds => exact hcons d ds hb rfl
    rw [quoteRun_cons quote hb, if_neg hn, if_neg hc, hm] at h
    obtain ⟨rfl, rfl⟩ := Prod.mk.inj h
    obtain ⟨hlen, hzs⟩ := ih hm
    refine ⟨by simpa using hlen, fun zs => ?_⟩
    rw [List.take_succ_cons, List.cons_append, quoteRun_cons quote hb, if_neg hn, if_neg hc, hzs]

theorem runThrough_prefix {close cs : List Char} (hne : close ≠ []) (h : close <+: cs) :
    runThrough close cs = some close.length := by
  cases cs with
  | nil => exact absurd (List.prefix_nil.mp h) hne
  | cons c cs => rw [runThrough, if_pos (List.isPrefixOf_iff_prefix.mpr h)]

/-- A run to a closing mark does not depend on what follows it. -/
theorem runThrough_take {close cs : List Char} {n : Nat} (hne : close ≠ [])
    (h : runThrough close cs = some n) :
    close.length ≤ n ∧ n ≤ cs.length ∧ ∀ zs, runThrough close (cs.take n ++ zs) = some n := by
  induction cs generalizing n with
  | nil => simp [runThrough] at h
  | cons c cs ih =>
    rw [runThrough] at h
    split at h
    · rename_i hp
      obtain rfl := Option.some.inj h
      have hpre : close <+: c :: cs := List.isPrefixOf_iff_prefix.mp hp
      refine ⟨Nat.le_refl _, hpre.length_le, fun zs => ?_⟩
      rw [← List.prefix_iff_eq_take.mp hpre]
      exact runThrough_prefix hne (List.prefix_append close zs)
    · rename_i hp
      obtain ⟨m, hm, rfl⟩ := Option.map_eq_some_iff.mp h
      obtain ⟨hle, hlen, hzs⟩ := ih hm
      refine ⟨by omega, by simpa using hlen, fun zs => ?_⟩
      rw [List.take_succ_cons, List.cons_append, runThrough, if_neg, hzs]
      · rfl
      · intro hp'
        -- The mark is no longer than what has been run through, so it would stand there before too.
        have hpre : close <+: c :: (cs.take m ++ zs) := List.isPrefixOf_iff_prefix.mp hp'
        have htake : close <+: c :: cs.take m :=
          List.prefix_of_prefix_length_le hpre (List.prefix_append (c :: cs.take m) zs)
            (by simp only [List.length_cons, List.length_take]; omega)
        exact hp (List.isPrefixOf_iff_prefix.mpr
          (htake.trans ((List.prefix_cons_inj c).mpr (List.take_prefix m cs))))

theorem longLevel?_cons (c : Char) (cs : List Char) :
    longLevel? (c :: cs) =
      if c = '=' then (longLevel? cs).map (· + 1) else if c = '[' then some 0 else none := by
  unfold longLevel?
  by_cases hc : c = '='
  · subst hc
    simp only [List.takeWhile_cons, beq_self_eq_true, if_true, List.length_cons, List.drop_succ_cons]
    split <;> simp
  · simp [hc]

/-- The opening of a long bracket does not depend on what follows it. -/
theorem longLevel?_take {cs : List Char} {level : Nat} (h : longLevel? cs = some level) :
    level + 1 ≤ cs.length ∧ ∀ zs, longLevel? (cs.take (level + 1) ++ zs) = some level := by
  induction cs generalizing level with
  | nil => simp [longLevel?] at h
  | cons c cs ih =>
    rw [longLevel?_cons] at h
    split at h
    · rename_i hc
      obtain ⟨m, hm, rfl⟩ := Option.map_eq_some_iff.mp h
      obtain ⟨hlen, hzs⟩ := ih hm
      refine ⟨by simpa using hlen, fun zs => ?_⟩
      rw [List.take_succ_cons, List.cons_append, longLevel?_cons, if_pos hc, hzs]
      rfl
    · rename_i hc
      split at h
      · rename_i hb
        obtain rfl := Option.some.inj h
        refine ⟨by simp, fun zs => ?_⟩
        rw [List.take_succ_cons, List.cons_append, longLevel?_cons, if_neg hc, if_pos hb]
      · exact absurd h (by simp)

theorem longLevel?_closedText (s : QuoteState) (cs rest : List Char) :
    longLevel? (closedText s cs rest) = longLevel? cs := by
  induction cs generalizing s with
  | nil => rw [closedText_nil, longLevel?_cons]; rfl
  | cons c cs ih =>
    by_cases hc : c = ';' ∧ s.isOpen
    · obtain ⟨rfl, ho⟩ := hc
      rw [closedText_escaped ho, longLevel?_cons, longLevel?_cons]
      rfl
    · rw [closedText_plain hc, longLevel?_cons, longLevel?_cons, ih]

/-- The printer changes no first character but `;`, and an empty text starts with the `;` that
closes it. -/
theorem head?_closedText {d : Char} (hd : d ≠ ';') (hb : d ≠ '\\') (s : QuoteState)
    (cs rest : List Char) : (closedText s cs rest).head? = some d ↔ cs.head? = some d := by
  cases cs with
  | nil => simp [closedText_nil, hd.symm]
  | cons c cs =>
    by_cases hc : c = ';' ∧ s.isOpen
    · obtain ⟨rfl, ho⟩ := hc
      simp [closedText_escaped ho, hd.symm, hb.symm]
    · simp [closedText_plain hc]

/-- A part is its first character and the characters that it takes. -/
theorem segmentAt_ok {pos : Nat} {c : Char} {cs : List Char} {n : Nat} {part : List Char}
    (hb : c ≠ '\\') (h : segmentAt pos c cs = .ok (n, part)) :
    ∃ front back, cs = front ++ back ∧ n = front.length ∧ part = c :: front := by
  suffices hlen : n ≤ cs.length ∧ part = c :: cs.take n from
    ⟨cs.take n, cs.drop n, (List.take_append_drop ..).symm,
      (List.length_take_of_le hlen.1).symm, hlen.2⟩
  unfold segmentAt at h
  rw [if_neg (fun hc => hb hc.1)] at h
  split at h
  · split at h
    · rename_i m hq
      obtain ⟨rfl, rfl⟩ := Prod.mk.inj (Except.ok.inj h)
      exact ⟨(quoteRun_take hq).1, rfl⟩
    · exact absurd h (by simp)
  split at h
  · split at h
    · obtain ⟨rfl, rfl⟩ := Prod.mk.inj (Except.ok.inj h)
      exact ⟨Nat.zero_le _, rfl⟩
    · rename_i level hl
      split at h
      · rename_i m hm
        obtain ⟨rfl, rfl⟩ := Prod.mk.inj (Except.ok.inj h)
        have hrun := (runThrough_take (by simp [longClose]) hm).2.1
        have hlevel := (longLevel?_take hl).1
        rw [List.length_drop] at hrun
        exact ⟨by omega, rfl⟩
      · exact absurd h (by simp)
  split at h
  · obtain ⟨rfl, rfl⟩ := Prod.mk.inj (Except.ok.inj h)
    exact ⟨(List.takeWhile_prefix _).length_le, rfl⟩
  · obtain ⟨rfl, rfl⟩ := Prod.mk.inj (Except.ok.inj h)
    exact ⟨Nat.zero_le _, rfl⟩

/-- Two texts that a part cannot tell apart when they follow it. -/
structure Alike (ys zs : List Char) : Prop where
  dash : ys.head? = some '-' ↔ zs.head? = some '-'
  line : ys.head? = some '\n' ↔ zs.head? = some '\n'
  level : longLevel? ys = longLevel? zs

theorem Alike.symm {ys zs : List Char} (h : Alike ys zs) : Alike zs ys :=
  ⟨h.dash.symm, h.line.symm, h.level.symm⟩

theorem alike_closedText (s : QuoteState) (cs rest : List Char) :
    Alike (closedText s cs rest) cs :=
  ⟨head?_closedText (by decide) (by decide) .., head?_closedText (by decide) (by decide) ..,
    longLevel?_closedText ..⟩

theorem lineRun_cons (c : Char) (cs : List Char) :
    lineRun (c :: cs) = if c = '\n' then 0 else lineRun cs + 1 := by
  unfold lineRun
  by_cases hc : c = '\n' <;> simp [hc]

/-- A line stops where a text ends or a line feed comes. -/
theorem lineRun_append {front ys : List Char} :
    lineRun (front ++ ys) = front.length ↔
      (∀ c ∈ front, c ≠ '\n') ∧ (ys = [] ∨ ys.head? = some '\n') := by
  induction front with
  | nil =>
    cases ys with
    | nil => simp [lineRun]
    | cons d ds =>
      rw [List.nil_append, lineRun_cons]
      by_cases hd : d = '\n' <;> simp [hd]
  | cons c front ih =>
    rw [List.cons_append, lineRun_cons]
    by_cases hc : c = '\n' <;> simp [hc, ih]

theorem segmentAt_comment {c : Char} {cs : List Char} (h : startsComment c cs.head?) (pos : Nat) :
    segmentAt pos c cs = .ok (lineRun cs, c :: cs.take (lineRun cs)) := by
  simp only [startsComment, Bool.and_eq_true, beq_iff_eq] at h
  simp [segmentAt, h.1, h.2]

/-- A part is read as the same whatever follows it, as long as that is alike. Only a comment that
runs to the end of the text goes on in what is put there. -/
theorem segmentAt_alike {pos : Nat} {c : Char} {front ys zs part : List Char} (hb : c ≠ '\\')
    (h : segmentAt pos c (front ++ ys) = .ok (front.length, part))
    (hc : startsComment c (front ++ ys).head? → ys ≠ []) (alike : Alike ys zs) (pos' : Nat) :
    segmentAt pos' c (front ++ zs) = .ok (front.length, c :: front) := by
  have done : ∀ n, n = front.length →
      (Except.ok (n, c :: (front ++ zs).take n) : Except LexError (Nat × List Char)) =
        .ok (front.length, c :: front) := by
    rintro _ rfl
    rw [List.take_left]
  unfold segmentAt at h ⊢
  rw [if_neg (fun hc => hb hc.1)] at h ⊢
  by_cases hq : c = '"' ∨ c = '\''
  · rw [if_pos hq] at h ⊢
    split at h
    · rename_i n hn
      have hlen : n = front.length := (Prod.mk.inj (Except.ok.inj h)).1
      have hrun := (quoteRun_take hn).2 zs
      rw [hlen, List.take_left] at hrun
      rw [hrun]
      exact done _ rfl
    · exact absurd h (by simp)
  rw [if_neg hq] at h ⊢
  by_cases hl : c = '['
  · rw [if_pos hl] at h ⊢
    split at h
    · rename_i hnone
      have hzero : 0 = front.length := (Prod.mk.inj (Except.ok.inj h)).1
      obtain rfl : front = [] := List.length_eq_zero_iff.mp hzero.symm
      rw [List.nil_append] at hnone
      rw [List.nil_append, ← alike.level, hnone]
      rfl
    · rename_i level hlevel
      split at h
      · rename_i n hn
        have hlen : level + 1 + n = front.length := (Prod.mk.inj (Except.ok.inj h)).1
        have hlong := (longLevel?_take hlevel).2 (front.drop (level + 1) ++ zs)
        rw [List.take_append_of_le_length (by omega), ← List.append_assoc,
          List.take_append_drop] at hlong
        rw [List.drop_append_of_le_length (by omega)] at hn
        have hrun := (runThrough_take (by simp [longClose]) hn).2.2 zs
        rw [List.take_append_of_le_length (by simp only [List.length_drop]; omega),
          List.take_of_length_le (by simp only [List.length_drop]; omega),
          ← List.drop_append_of_le_length (by omega)] at hrun
        simp only [hlong, hrun]
        exact done _ hlen
      · exact absurd h (by simp)
  rw [if_neg hl] at h ⊢
  by_cases hd : c = '-' ∧ (front ++ ys).head? = some '-'
  · rw [if_pos hd] at h
    have hlen : lineRun (front ++ ys) = front.length := (Prod.mk.inj (Except.ok.inj h)).1
    cases front with
    | nil =>
      obtain ⟨es, hes⟩ := List.head?_eq_some_iff.mp hd.2
      rw [hes, lineRun_cons, if_neg (by decide)] at hlen
      exact absurd hlen (by simp)
    | cons d ds =>
      rw [if_pos ⟨hd.1, by simpa using hd.2⟩]
      have hne := hc (by simpa [startsComment] using hd)
      obtain ⟨hline, hend⟩ := lineRun_append.mp hlen
      exact done _ (lineRun_append.mpr ⟨hline, .inr (alike.line.mp (hend.resolve_left hne))⟩)
  · rw [if_neg hd] at h
    have hzero : 0 = front.length := (Prod.mk.inj (Except.ok.inj h)).1
    obtain rfl : front = [] := List.length_eq_zero_iff.mp hzero.symm
    rw [List.nil_append] at hd
    rw [List.nil_append, if_neg (fun hz => hd ⟨hz.1, alike.dash.mpr hz.2⟩)]
    rfl

/-! ## The reader -/

/-- Does an expression end here? -/
abbrev endsAt (depth : Nat) (c : Char) : Prop := depth = 0 ∧ (c = ';' ∨ c = '}')

theorem segments_end {depth : Nat} {c : Char} (h : endsAt depth c) (start pos : Nat)
    (cs : List Char) : segments start pos depth (c :: cs) = .ok [] := by
  rw [segments, if_pos h]

theorem segments_part {depth : Nat} {c : Char} (h : ¬endsAt depth c) {start pos : Nat}
    {cs part : List Char} {n : Nat} (hpart : segmentAt pos c cs = .ok (n, part)) :
    segments start pos depth (c :: cs) =
      (segments start (pos + byteLength (c :: cs.take n)) (depthAfter depth c) (cs.drop n)).map
        (⟨c :: cs.take n, part⟩ :: ·) := by
  rw [segments, if_neg h, hpart]
  dsimp only
  unfold depthAfter
  split <;> rename_i hmore <;> rw [hmore] <;> rfl

theorem segments_ok {start pos depth : Nat} {c : Char} {cs : List Char} {parts : List Segment}
    (h : ¬endsAt depth c) (hok : segments start pos depth (c :: cs) = .ok parts) :
    ∃ n part more, segmentAt pos c cs = .ok (n, part) ∧
      segments start (pos + byteLength (c :: cs.take n)) (depthAfter depth c) (cs.drop n) =
        .ok more ∧ parts = ⟨c :: cs.take n, part⟩ :: more := by
  cases hpart : segmentAt pos c cs with
  | error e =>
    rw [segments, if_neg h, hpart] at hok
    exact absurd hok (by simp)
  | ok found =>
    obtain ⟨n, part⟩ := found
    rw [segments_part h hpart] at hok
    cases hmore : segments start (pos + byteLength (c :: cs.take n)) (depthAfter depth c)
        (cs.drop n) with
    | error e =>
      rw [hmore] at hok
      exact absurd hok (by simp [Except.map])
    | ok more =>
      rw [hmore] at hok
      exact ⟨n, part, more, rfl, hmore, (Except.ok.inj hok).symm⟩

theorem segmentAt_semicolon (pos : Nat) (cs : List Char) :
    segmentAt pos ';' cs = .ok (0, [';']) := by
  simp [segmentAt]

theorem segmentAt_escaped (pos : Nat) (cs : List Char) :
    segmentAt pos '\\' (';' :: cs) = .ok (1, [';']) := by
  simp [segmentAt]

theorem segmentAt_backslash (pos : Nat) {cs : List Char} (h : cs.head? ≠ some ';') :
    segmentAt pos '\\' cs = .ok (0, ['\\']) := by
  simp [segmentAt, h]

theorem segments_step {start pos depth : Nat} {c : Char} {cs part : List Char} {n : Nat}
    {more : List Segment} (h : ¬endsAt depth c) (hpart : segmentAt pos c cs = .ok (n, part))
    (hmore : segments start (pos + byteLength (c :: cs.take n)) (depthAfter depth c) (cs.drop n) =
      .ok more) :
    segments start pos depth (c :: cs) = .ok (⟨c :: cs.take n, part⟩ :: more) := by
  rw [segments_part h hpart, hmore]
  rfl

/-- **What reads back does so.** -/
theorem segments_closedText {s : QuoteState} {depth : Nat} {cs : List Char}
    (h : readsBack s depth cs) (start pos : Nat) (rest : List Char) :
    ∃ parts, segments start pos depth (closedText s cs rest) = .ok parts ∧
      parts.flatMap (·.meant) = cs ∧ parts.flatMap (·.written) = escapeSemicolons s cs := by
  fun_induction readsBack s depth cs generalizing pos with
  | case1 s depth =>
    obtain rfl : depth = 0 := by simpa using h
    exact ⟨[], segments_end ⟨rfl, .inl rfl⟩ .., rfl, rfl⟩
  | case2 s depth cs ih =>
    rw [Bool.and_eq_true] at h
    obtain ⟨hopen, hcs⟩ := h
    by_cases ho : s.isOpen
    · obtain ⟨parts, hparts, hmeant, hwritten⟩ := ih hcs (pos + byteLength ['\\', ';'])
      refine ⟨⟨['\\', ';'], [';']⟩ :: parts, ?_, ?_, ?_⟩
      · rw [closedText_escaped ho]
        exact segments_step (by simp) (segmentAt_escaped ..) hparts
      · simp [hmeant]
      · rw [escapeSemicolons_cons, if_pos ⟨rfl, ho⟩, ← hwritten]
        rfl
    · obtain ⟨parts, hparts, hmeant, hwritten⟩ := ih hcs (pos + byteLength [';'])
      have hplain : ¬(';' = ';' ∧ s.isOpen) := fun hc => ho hc.2
      refine ⟨⟨[';'], [';']⟩ :: parts, ?_, ?_, ?_⟩
      · rw [closedText_plain hplain]
        refine segments_step ?_ (segmentAt_semicolon ..) hparts
        simpa [ho] using hopen
      · simp [hmeant]
      · rw [escapeSemicolons_cons, if_neg hplain, ← hwritten]
        rfl
  | case3 s depth cs hc ih =>
    simp only [Bool.and_eq_true, Bool.not_eq_true', List.isEmpty_eq_false_iff, Bool.or_eq_true,
      bne_iff_ne] at h
    obtain ⟨⟨hne, hopen⟩, hcs⟩ := h
    have hhead : (closedText (s.next '\\') cs rest).head? ≠ some ';' := by
      rw [Ne, head?_closedText_semicolon]
      rintro (hnil | ⟨hsemi, hclosed⟩)
      · exact hne hnil
      · exact hopen.elim (fun hn => hn hsemi) hclosed
    obtain ⟨parts, hparts, hmeant, hwritten⟩ := ih hcs (pos + byteLength ['\\'])
    refine ⟨⟨['\\'], ['\\']⟩ :: parts, ?_, ?_, ?_⟩
    · rw [closedText_plain (fun hp => hc hp.1)]
      exact segments_step (by simp) (segmentAt_backslash pos hhead) hparts
    · simp [hmeant]
    · rw [escapeSemicolons_cons, if_neg (fun hp => hc hp.1), ← hwritten]
      rfl
  | case4 => exact absurd h (by simp)
  | case5 => exact absurd h (by simp)
  | case6 s depth c cs hs hb hd n part hpart ih =>
    simp only [Bool.and_eq_true, beq_iff_eq, Bool.not_eq_true', Bool.and_eq_false_iff] at h
    obtain ⟨⟨hsame, hcomment⟩, hcs⟩ := h
    obtain ⟨front, back, rfl, rfl, rfl⟩ := segmentAt_ok hb hpart
    rw [List.drop_left] at hcs hcomment ih
    obtain ⟨parts, hparts, hmeant, hwritten⟩ := ih hcs (pos + byteLength (c :: front))
    have hread : segmentAt pos c
        (front ++ closedText ((c :: front).foldl QuoteState.next s) back rest) =
          .ok (front.length, c :: front) := by
      refine segmentAt_alike hb hpart ?_ (alike_closedText ..).symm pos
      rintro hstart rfl
      rw [hstart] at hcomment
      simp at hcomment
    refine ⟨⟨c :: front, c :: front⟩ :: parts, ?_, ?_, ?_⟩
    · rw [← List.cons_append, closedText_part hsame, List.cons_append]
      have hends : ¬endsAt depth c := fun he => he.2.elim hs (fun hc => hd ⟨hc, he.1⟩)
      have := segments_step hends hread (by rw [List.take_left, List.drop_left]; exact hparts)
      rwa [List.take_left] at this
    · simp [hmeant]
    · rw [← List.cons_append, escapeSemicolons_append, hsame, ← hwritten]
      rfl

/-- A part of the printed text that means the text is a part of the text itself, and printed
without new backslashes. -/
theorem segmentAt_printed {s : QuoteState} {pos n : Nat} {c : Char} {cs rest w part : List Char}
    (hb : c ≠ '\\') (hs : c ≠ ';') (hw : ∀ c ∈ w, isBlank c)
    (h : segmentAt pos c (closedText (s.next c) cs rest) = .ok (n, part))
    (hmeant : part <+: c :: cs ++ w) :
    ∃ front back, cs = front ++ back ∧ n = front.length ∧ part = c :: front ∧
      escapeSemicolons s (c :: front) = c :: front ∧
      segmentAt 0 c (front ++ back) = .ok (front.length, c :: front) ∧
      (startsComment c (front ++ back).head? && back.isEmpty) = false := by
  obtain ⟨front, after, htext, rfl, rfl⟩ := segmentAt_ok hb h
  have hpre : front <+: cs ++ w := by
    rwa [List.cons_append, List.cons_prefix_cons, and_iff_right rfl] at hmeant
  have htake : (closedText (s.next c) cs rest).take front.length = front := by
    rw [htext, List.take_left]
  have hfits : front.length ≤ (closedText (s.next c) cs rest).length := by rw [htext]; simp
  obtain ⟨hlen, hsame⟩ := unescaped_of_prefix hw hfits (by rw [htake]; exact hpre)
  obtain ⟨back, rfl⟩ := List.prefix_of_prefix_length_le hpre (List.prefix_append cs w) hlen
  rw [List.take_left] at hsame
  rw [closedText_part hsame] at h
  have halike := alike_closedText (front.foldl QuoteState.next (s.next c)) back rest
  have hne : closedText (front.foldl QuoteState.next (s.next c)) back rest ≠ [] := by
    simp [closedText]
  refine ⟨front, back, rfl, rfl, rfl, ?_, segmentAt_alike hb h (fun _ => hne) halike 0, ?_⟩
  · rw [escapeSemicolons_cons, if_neg (fun hc => hs hc.1), hsame]
    rfl
  · refine Bool.eq_false_iff.mpr fun hend => ?_
    rw [Bool.and_eq_true, List.isEmpty_iff] at hend
    obtain ⟨hstart, rfl⟩ := hend
    -- The comment would take the `;` that closes the text.
    rw [List.append_nil] at hstart
    have hstart' : startsComment c
        (front ++ closedText (front.foldl QuoteState.next (s.next c)) [] rest).head? := by
      cases front with
      | nil => simp [startsComment] at hstart
      | cons d ds => exact hstart
    rw [segmentAt_comment hstart'] at h
    obtain ⟨-, hend⟩ := lineRun_append.mp (Prod.mk.inj (Except.ok.inj h)).1
    rw [closedText_nil] at hend
    simp at hend

/-- **And nothing else does.** Blanks after the text do not count. -/
theorem readsBack_of_segments {s : QuoteState} {depth start pos : Nat} {cs rest w : List Char}
    {parts : List Segment} (hw : ∀ c ∈ w, isBlank c)
    (h : segments start pos depth (closedText s cs rest) = .ok parts)
    (hmeant : parts.flatMap (·.meant) = cs ++ w) : readsBack s depth cs := by
  fun_induction readsBack s depth cs generalizing pos parts with
  | case1 s depth =>
    by_cases hd : depth = 0
    · simpa using hd
    · rw [closedText_nil] at h
      obtain ⟨n, part, more, hpart, -, rfl⟩ := segments_ok (fun he => hd he.1) h
      rw [segmentAt_semicolon] at hpart
      obtain ⟨-, rfl⟩ := Prod.mk.inj (Except.ok.inj hpart)
      have : isBlank ';' := hw _ (by rw [List.nil_append] at hmeant; simp [← hmeant])
      exact absurd this (by decide)
  | case2 s depth cs ih =>
    by_cases ho : s.isOpen
    · rw [closedText_escaped ho] at h
      obtain ⟨n, part, more, hpart, hmore, rfl⟩ := segments_ok (by simp) h
      rw [segmentAt_escaped] at hpart
      obtain ⟨rfl, rfl⟩ := Prod.mk.inj (Except.ok.inj hpart)
      have := ih hmore (by simpa using hmeant)
      simp [ho, this]
    · rw [closedText_plain (fun hc => ho hc.2)] at h
      by_cases hd : depth = 0
      · rw [segments_end ⟨hd, .inl rfl⟩] at h
        obtain rfl := Except.ok.inj h
        exact absurd hmeant (by simp)
      · obtain ⟨n, part, more, hpart, hmore, rfl⟩ := segments_ok (fun he => hd he.1) h
        rw [segmentAt_semicolon] at hpart
        obtain ⟨rfl, rfl⟩ := Prod.mk.inj (Except.ok.inj hpart)
        have := ih hmore (by simpa using hmeant)
        simp [hd, this]
  | case3 s depth cs hc ih =>
    rw [closedText_plain (fun hp => hc hp.1)] at h
    obtain ⟨n, part, more, hpart, hmore, rfl⟩ := segments_ok (by simp) h
    have hhead : (closedText (s.next '\\') cs rest).head? ≠ some ';' := by
      intro hsemi
      obtain ⟨ds, hds⟩ := List.head?_eq_some_iff.mp hsemi
      rw [hds, segmentAt_escaped] at hpart
      obtain ⟨-, rfl⟩ := Prod.mk.inj (Except.ok.inj hpart)
      simp at hmeant
    rw [segmentAt_backslash pos hhead] at hpart
    obtain ⟨rfl, rfl⟩ := Prod.mk.inj (Except.ok.inj hpart)
    have hcs := ih hmore (by simpa using hmeant)
    rw [Ne, head?_closedText_semicolon, not_or] at hhead
    have hopen : ¬cs.head? = some ';' ∨ (s.next '\\').isOpen = true :=
      (Decidable.not_and_iff_not_or_not.mp hhead.2).imp_right Decidable.not_not.mp
    simpa [hhead.1, hcs] using hopen
  | case4 s depth c cs hs hb hd =>
    rw [closedText_plain (fun hc => hs hc.1), segments_end ⟨hd.2, .inr hd.1⟩] at h
    obtain rfl := Except.ok.inj h
    exact absurd hmeant (by simp)
  | case5 s depth c cs hs hb hd e hpart =>
    rw [closedText_plain (fun hc => hs hc.1)] at h
    have hends : ¬endsAt depth c := fun he => he.2.elim hs (fun hc => hd ⟨hc, he.1⟩)
    obtain ⟨n, part, more, hprinted, -, rfl⟩ := segments_ok hends h
    obtain ⟨front, back, rfl, -, -, -, hpart', -⟩ :=
      segmentAt_printed hb hs hw hprinted ⟨more.flatMap (·.meant), by simpa using hmeant⟩
    rw [hpart'] at hpart
    exact absurd hpart (by simp)
  | case6 s depth c cs hs hb hd n part hpart ih =>
    rw [closedText_plain (fun hc => hs hc.1)] at h
    have hends : ¬endsAt depth c := fun he => he.2.elim hs (fun hc => hd ⟨hc, he.1⟩)
    obtain ⟨m, found, more, hprinted, hmore, rfl⟩ := segments_ok hends h
    obtain ⟨front, back, rfl, rfl, rfl, hsame, hpart', hcomment⟩ :=
      segmentAt_printed hb hs hw hprinted ⟨more.flatMap (·.meant), by simpa using hmeant⟩
    rw [hpart'] at hpart
    obtain ⟨rfl, rfl⟩ := Prod.mk.inj (Except.ok.inj hpart)
    have hfront : escapeSemicolons (s.next c) front = front := by
      rw [escapeSemicolons_cons, if_neg (fun hc => hs hc.1)] at hsame
      exact (List.cons.inj hsame).2
    rw [closedText_part hfront, List.drop_left] at hmore
    rw [List.drop_left] at ih ⊢
    have hcs := ih hmore (by simpa using hmeant)
    simp only [hsame, hcomment, hcs, beq_self_eq_true, Bool.not_false, Bool.and_self]

end EnvManifest
