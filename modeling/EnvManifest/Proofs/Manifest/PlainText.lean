import EnvManifest.Proofs.Manifest.RoundTrip

/-!
# Manifests without comments and long brackets

The printer counts quotes and braces, the reader knows comments and long brackets as well. Texts
that have neither look the same to both, whatever semicolons stand in them.
-/

namespace EnvManifest

open Text

/-! ## Plain texts -/

/-- Where a character of a text stands. -/
inductive Surrounding where
  | code
  | string (quote : Char)
  /-- After a backslash in a string. -/
  | escape (quote : Char)
deriving DecidableEq, Repr

def isQuote (c : Char) : Bool := c == '"' || c == '\''

/-- Do two characters start a comment or a long bracket? -/
def opensLong (c : Char) (next : Option Char) : Bool :=
  (c == '-' && next == some '-') || (c == '[' && (next == some '[' || next == some '='))

/-- Are the strings of a text closed on their lines and its braces balanced, and has it outside of
strings no comment, no long bracket and no backslash? -/
def isPlain (depth : Nat) : Surrounding → List Char → Bool
  | .code, [] => depth == 0
  | .code, c :: cs =>
    if isQuote c then isPlain depth (.string c) cs
    else if c = '{' then isPlain (depth + 1) .code cs
    else if c = '}' then depth != 0 && isPlain (depth - 1) .code cs
    else c != '\\' && !opensLong c cs.head? && isPlain depth .code cs
  | .string _, [] => false
  | .string quote, c :: cs =>
    if c = quote then isPlain depth .code cs
    else if c = '\\' then isPlain depth (.escape quote) cs
    else c != '\n' && isPlain depth (.string quote) cs
  | .escape _, [] => false
  | .escape quote, _ :: cs => isPlain depth (.string quote) cs

/-! ## Strings -/

theorem escapeSemicolons_quoted {s : QuoteState} (h : s.quote.isSome) (c : Char) (cs : List Char) :
    escapeSemicolons s (c :: cs) = c :: escapeSemicolons (s.next c) cs := by
  rw [escapeSemicolons_cons, if_neg]
  · rfl
  · rintro ⟨-, hopen⟩
    unfold QuoteState.isOpen at hopen
    rw [Bool.and_eq_true, Option.isNone_iff_eq_none] at hopen
    simp [hopen.1] at h

/-- The printer goes through a string like the reader, and comes out of it as it went in. -/
theorem isPlain_string {quote : Char} (hquote : isQuote quote) {depth : Nat} {cs : List Char}
    (h : isPlain depth (.string quote) cs) (d : Nat) :
    ∃ front back, cs = front ++ back ∧ quoteRun quote cs = (front.length, true) ∧
      escapeSemicolons ⟨d, some quote, false⟩ front = front ∧
      front.foldl QuoteState.next ⟨d, some quote, false⟩ = ⟨d, none, false⟩ ∧
      isPlain depth .code back := by
  have hbackslash : quote ≠ '\\' := by rintro rfl; cases hquote
  induction cs using quoteRun.induct quote with
  | case1 => simp [isPlain] at h
  | case2 => simp [isPlain, hbackslash.symm] at h
  | case3 c cs n closed hn ih =>
    simp only [isPlain, hbackslash.symm, if_false, if_true] at h
    obtain ⟨front, back, rfl, hrun, hprint, hstate, hback⟩ := ih h
    refine ⟨'\\' :: c :: front, back, rfl, ?_, ?_, ?_, hback⟩
    · rw [quoteRun, hrun]
      rfl
    · rw [escapeSemicolons_quoted rfl, escapeSemicolons_quoted (by simp [QuoteState.next])]
      simpa [QuoteState.next] using hprint
    · simpa [QuoteState.next] using hstate
  | case4 cs hnil hcons =>
    -- A line feed closes no string.
    have hq : '\n' ≠ quote := by rintro rfl; cases hquote
    simp [isPlain, hq] at h
  | case5 cs hnil hcons hline =>
    rw [isPlain, if_pos rfl] at h
    refine ⟨[quote], cs, rfl, ?_, ?_, ?_, h⟩
    · rw [quoteRun_cons quote hbackslash, if_neg hline, if_pos rfl]
      rfl
    · rw [escapeSemicolons_quoted rfl, escapeSemicolons_nil]
    · simp [QuoteState.next, hbackslash]
  | case6 c cs hnil hcons hline hc n closed hn ih =>
    have hb : c ≠ '\\' := by
      rintro rfl
      cases cs with
      | nil => exact hnil rfl rfl
      | cons d ds => exact hcons d ds rfl rfl
    rw [isPlain, if_neg hc, if_neg hb, Bool.and_eq_true] at h
    obtain ⟨front, back, rfl, hrun, hprint, hstate, hback⟩ := ih h.2
    refine ⟨c :: front, back, rfl, ?_, ?_, ?_, hback⟩
    · rw [quoteRun_cons quote hb, if_neg hline, if_neg hc, hrun]
      rfl
    · rw [escapeSemicolons_quoted rfl]
      simpa [QuoteState.next, hb, hc] using hprint
    · simpa [QuoteState.next, hb, hc] using hstate

/-! ## Texts -/

theorem segmentAt_single {c : Char} {cs : List Char} (hquote : ¬isQuote c) (hb : c ≠ '\\')
    (hlong : ¬opensLong c cs.head?) (pos : Nat) : segmentAt pos c cs = .ok (0, [c]) := by
  unfold isQuote at hquote
  unfold opensLong at hlong
  simp only [Bool.or_eq_true, Bool.and_eq_true, beq_iff_eq, not_or] at hquote hlong
  unfold segmentAt
  rw [if_neg (fun h => hb h.1), if_neg (not_or.mpr hquote)]
  split
  · rename_i hc
    have hlevel : longLevel? cs = none := by
      cases cs with
      | nil => rfl
      | cons d ds =>
        have hd : d ≠ '[' ∧ d ≠ '=' := by simpa [hc] using hlong.2
        rw [longLevel?_cons, if_neg hd.2, if_neg hd.1]
    rw [hlevel]
    rfl
  · rw [if_neg hlong.1]
    rfl

theorem next_code {c : Char} (h : ¬isQuote c) (depth : Nat) :
    QuoteState.next ⟨depth, none, false⟩ c = ⟨depthAfter depth c, none, false⟩ := by
  unfold isQuote at h
  simp only [Bool.or_eq_true, beq_iff_eq] at h
  simp only [QuoteState.next, if_neg h, depthAfter]
  split
  · rfl
  · split <;> rfl

/-- Outside of strings a plain text goes on with one character. -/
theorem isPlain_single {depth : Nat} {c : Char} {cs : List Char} (hquote : ¬isQuote c)
    (h : isPlain depth .code (c :: cs)) :
    c ≠ '\\' ∧ ¬opensLong c cs.head? ∧ isPlain (depthAfter depth c) .code cs := by
  rw [isPlain, if_neg hquote] at h
  unfold depthAfter
  split at h
  · rename_i hopen
    subst hopen
    exact ⟨by decide, by simp [opensLong], h⟩
  · split at h
    · rename_i hclose
      subst hclose
      rw [Bool.and_eq_true] at h
      exact ⟨by decide, by simp [opensLong], h.2⟩
    · rename_i hopen hclose
      simp only [Bool.and_eq_true, bne_iff_ne, Bool.not_eq_true'] at h
      rw [if_neg hopen, if_neg hclose]
      exact ⟨h.1.1, by simp [h.1.2], h.2⟩

/-- A plain text goes on with a part that is the same for the printer and the reader. -/
theorem segmentAt_of_isPlain {depth : Nat} {c : Char} {cs : List Char}
    (h : isPlain depth .code (c :: cs)) (hs : c ≠ ';') (pos : Nat) :
    ∃ front back, cs = front ++ back ∧ segmentAt pos c cs = .ok (front.length, c :: front) ∧
      escapeSemicolons ⟨depth, none, false⟩ (c :: front) = c :: front ∧
      (c :: front).foldl QuoteState.next ⟨depth, none, false⟩ =
        ⟨depthAfter depth c, none, false⟩ ∧
      startsComment c cs.head? = false ∧ isPlain (depthAfter depth c) .code back := by
  by_cases hquote : isQuote c
  · rw [isPlain, if_pos hquote] at h
    obtain ⟨front, back, rfl, hrun, hprint, hstate, hback⟩ := isPlain_string hquote h depth
    have hc : c = '"' ∨ c = '\'' := by simpa [isQuote] using hquote
    have hdepth : depthAfter depth c = depth := by obtain rfl | rfl := hc <;> rfl
    rw [hdepth]
    refine ⟨front, back, rfl, ?_, ?_, ?_, ?_, hback⟩
    · unfold segmentAt
      rw [if_neg (by obtain rfl | rfl := hc <;> simp), if_pos hc, hrun]
      simp
    · rw [escapeSemicolons_cons, if_neg (fun he => hs he.1)]
      simpa [QuoteState.next, hc] using hprint
    · simpa [QuoteState.next, hc] using hstate
    · obtain rfl | rfl := hc <;> rfl
  · obtain ⟨hb, hlong, hcs⟩ := isPlain_single hquote h
    refine ⟨[], cs, rfl, segmentAt_single hquote hb hlong pos, ?_, next_code hquote depth, ?_, hcs⟩
    · rw [escapeSemicolons_cons, if_neg (fun he => hs he.1)]
      rfl
    · unfold opensLong at hlong
      simp only [Bool.or_eq_true, not_or, Bool.not_eq_true] at hlong
      exact hlong.1

/-- **Plain texts read back.** -/
theorem readsBack_of_isPlain {depth : Nat} {cs : List Char} (h : isPlain depth .code cs) :
    readsBack ⟨depth, none, false⟩ depth cs := by
  generalize hs : (⟨depth, none, false⟩ : QuoteState) = s
  fun_induction readsBack s depth cs with
  | case1 => simpa [isPlain] using h
  | case2 s depth cs ih =>
    subst hs
    have hcs : isPlain depth .code cs := (isPlain_single (by decide) h).2.2
    rw [ih hcs rfl, Bool.and_true]
    unfold QuoteState.isOpen
    cases depth <;> rfl
  | case3 => simp [isPlain, isQuote] at h
  | case4 s depth c cs hsemi hb hd =>
    obtain ⟨rfl, rfl⟩ := hd
    simp [isPlain, isQuote] at h
  | case5 s depth c cs hsemi hb hd e hpart =>
    obtain ⟨front, back, -, hread, -⟩ := segmentAt_of_isPlain h hsemi 0
    cases hpart.symm.trans hread
  | case6 s depth c cs hsemi hb hd n part hpart ih =>
    subst hs
    obtain ⟨front, back, rfl, hread, hprint, hstate, hcomment, hback⟩ :=
      segmentAt_of_isPlain h hsemi 0
    obtain ⟨rfl, rfl⟩ := Prod.mk.inj (Except.ok.inj (hpart.symm.trans hread))
    rw [List.drop_left] at ih ⊢
    rw [ih hback hstate.symm, hprint, hcomment]
    simp

/-! ## Manifests -/

/-- The values in a namespace, its own and those it hands on. -/
def Namespace.values (n : Namespace) : List ParamValue :=
  n.parameters.map (·.value) ++ n.composites.flatMap fun c => c.arguments.map (·.value)

/-- A namespace with plain expressions, and with no number that manifests have no text for. -/
structure Namespace.Plain (n : Namespace) : Prop where
  finite : ∀ x, .float x ∈ n.values → x.isFinite
  statements : ∀ s ∈ n.statements, isPlain 0 .code s.expression.source.toList

theorem ParamValue.readsBack_of_finite {v : ParamValue} (h : ∀ x, .float x = v → x.isFinite) :
    v.readsBack := by
  cases v with
  | float x => exact h x rfl
  | _ => rfl

theorem Namespace.Plain.readsBack {n : Namespace} (h : n.Plain) : n.ReadsBack := by
  refine ⟨fun c hc a ha => ?_, fun p hp => ?_, fun s hs => readsBack_of_isPlain (h.statements s hs)⟩
  · refine ParamValue.readsBack_of_finite fun x hx => h.finite x ?_
    rw [hx]
    exact List.mem_append_right _ (List.mem_flatMap.mpr ⟨c, hc, List.mem_map.mpr ⟨a, ha, rfl⟩⟩)
  · refine ParamValue.readsBack_of_finite fun x hx => h.finite x ?_
    rw [hx]
    exact List.mem_append_left _ (List.mem_map.mpr ⟨p, hp, rfl⟩)

/-- **A printed manifest is parsed as itself** if its expressions are plain. -/
theorem parse_format_plain {ast : Ast} (h : ast.WellFormed) (hplain : ∀ n ∈ ast.namespaces, n.Plain) :
    ∃ again, parse ast.format = .ok again ∧ again.unplaced = ast.unplaced ∧
      again.format = ast.format := by
  have hread : ast.ReadsBack := fun n hn => (hplain n hn).readsBack
  obtain ⟨again, hparse, hsame⟩ := (parse_format_iff h).mpr hread
  refine ⟨again, hparse, hsame, ?_⟩
  rw [← again.format_unplaced, hsame, ast.format_unplaced]

/-- A manifest with every kind of value, and an expression with semicolons in a string, in braces
and outside of both. -/
def Ast.crowded : Ast :=
  ⟨[⟨"a.b-c",
    [⟨"x_", [⟨.str "\"é\n\\", ⟨0, 0⟩⟩, ⟨.int Int64.minValue, ⟨0, 0⟩⟩], ⟨0, 0⟩⟩, .named "y"],
    [⟨.word "release", ⟨0, 0⟩⟩, ⟨.bool true, ⟨0, 0⟩⟩],
    [⟨"v", "=", ⟨"f\x7b \"\x7d;\" ; '\\'' \x7d; - -x[i]", 0⟩, ⟨0, 0⟩⟩], 0, ⟨0, 0⟩⟩,
    ⟨"empty", [], [], [], 1, ⟨7, 9⟩⟩]⟩

theorem Ast.crowded_wellFormed : Ast.crowded.WellFormed := by
  unfold Ast.WellFormed Ast.crowded
  simp only [List.forall_mem_cons, List.not_mem_nil, false_implies, implies_true, and_true]
  refine ⟨⟨by decide, ?_, ?_, ?_⟩, ⟨by decide, by simp, by simp, by simp⟩⟩
  · simp only [List.forall_mem_cons, List.not_mem_nil, false_implies, implies_true, and_true]
    exact ⟨⟨by decide, by simp [ParamValue.WellFormed]⟩, ⟨by decide, by simp [Composite.named]⟩⟩
  · simp only [List.forall_mem_cons, List.not_mem_nil, false_implies, implies_true, and_true]
    exact ⟨⟨by decide, by decide, by decide⟩, trivial⟩
  · simp only [List.forall_mem_cons, List.not_mem_nil, false_implies, implies_true, and_true]
    exact ⟨by decide, rfl, by decide, stops_cons (by decide) _, by decide⟩

theorem Ast.crowded_plain : ∀ n ∈ Ast.crowded.namespaces, n.Plain := by
  unfold Ast.crowded
  simp only [List.forall_mem_cons, List.not_mem_nil, false_implies, implies_true, and_true]
  refine ⟨⟨by simp [Namespace.values, Composite.named], ?_⟩, ⟨by simp [Namespace.values], by simp⟩⟩
  simp only [List.forall_mem_cons, List.not_mem_nil, false_implies, implies_true, and_true]
  decide

theorem parse_format_crowded : Ast.crowded.WellFormed ∧ (∀ n ∈ Ast.crowded.namespaces, n.Plain) ∧
    ∃ again, parse Ast.crowded.format = .ok again ∧ again.unplaced = Ast.crowded.unplaced ∧
      again.format = Ast.crowded.format :=
  ⟨Ast.crowded_wellFormed, Ast.crowded_plain,
    parse_format_plain Ast.crowded_wellFormed Ast.crowded_plain⟩

end EnvManifest
