import Mathlib
import EnvManifest.Proofs.Eval.Facts
import EnvManifest.Proofs.Literal.WholeNumbers

/-!
# The types of parameters

A parameter reaches expressions as text. Its type is read back from the text: a whole number or a
boolean is the literal that it was, and a word is none. In an expression the literal of a whole
number has its value, also right behind an operator.
-/

namespace EnvManifest

open Text Script

/-! ## Differences -/

namespace Script

variable {ts : List Token} {e : Expr} {source : String}

/-- An operand at the end of a text, right behind a minus. -/
theorem Stands.right_run (hs : Stands ts e) {vs : List Lexeme} (hvs : vs.map (·.token) = ts)
    (k l : Nat) : ∃ f l', Stands ts f ∧
      ∀ n, expression (n + 10) Context.start.inner.inner 10 ⟨vs ++ [⟨.eof, k⟩], l⟩ =
        .ok (f, ⟨[⟨.eof, k⟩], l'⟩) := by
  cases hs with
  | @bare t e he =>
    obtain ⟨l₁, ws, rfl, hws⟩ := tokens_cons hvs
    obtain rfl := List.map_eq_nil_iff.1 hws
    refine ⟨e, l₁, .bare he, ?_⟩
    intro n
    rw [List.cons_append, List.nil_append, he.begin_run (by decide)]
    exact operators_run (end_stops k l₁ 10)
  | @enclosed inner e he =>
    obtain ⟨l₁, ws, rfl, hws⟩ := tokens_cons hvs
    obtain ⟨us, ends, rfl, hus, hends⟩ := List.map_eq_append_iff.1 hws
    obtain ⟨l₂, xs, rfl, hxs⟩ := tokens_cons hends
    obtain rfl := List.map_eq_nil_iff.1 hxs
    obtain ⟨f, l₃, hf, hrun⟩ := he.run Context.start.inner.inner.inner
      [⟨.eof, k⟩] (by decide) rfl hus l₂ l₁
    refine ⟨.single (f.settle l₂), l₂, .enclosed (hf.settle l₂), ?_⟩
    intro n
    rw [List.cons_append, List.append_assoc, List.cons_append, List.nil_append,
      single_run (by decide) rfl (hrun (n + 1))]
    exact operators_run (end_stops k l₂ 10)

/-- So is the name of the least whole number. -/
theorem least_right_run {vs : List Lexeme} (hvs : vs.map (·.token) = Literal.leastTokens)
    (k l : Nat) : ∃ l₁ l₂, ∀ n,
      expression (n + 10) Context.start.inner.inner 10 ⟨vs ++ [⟨.eof, k⟩], l⟩ =
        .ok (.single (.index l₁ (.global l₂ "math") (.str (encode "mininteger".toList))),
          ⟨[⟨.eof, k⟩], l₁⟩) := by
  obtain ⟨l₁, ws, rfl, hws⟩ := tokens_cons hvs
  obtain ⟨l₂, xs, rfl, hxs⟩ := tokens_cons hws
  obtain ⟨l₃, ys, rfl, hys⟩ := tokens_cons hxs
  obtain ⟨l₄, zs, rfl, hzs⟩ := tokens_cons hys
  obtain ⟨l₅, us, rfl, hus⟩ := tokens_cons hzs
  obtain rfl := List.map_eq_nil_iff.1 hus
  have hmath : "math" ≠ environmentName := by decide
  have hresolve : Context.start.inner.inner.inner.resolve "math" = .global 0 "math" :=
    resolve_start hmath
  have hfield (n : Nat) : expression (n + 7) Context.start.inner.inner.inner 0
      ⟨[⟨.name "math", l₂⟩, ⟨.mark ".", l₃⟩, ⟨.name "mininteger", l₄⟩, ⟨.mark ")", l₅⟩, ⟨.eof, k⟩],
        l₁⟩ = .ok (.index 0 (.global l₂ "math") (.str (encode "mininteger".toList)),
          ⟨[⟨.mark ")", l₅⟩, ⟨.eof, k⟩], l₄⟩) := by
    rw [field_run (by decide) "math" "mininteger" ⟨rfl, rfl⟩, hresolve]
    rfl
  refine ⟨l₅, l₂, ?_⟩
  intro n
  refine (single_run (by decide) rfl (hfield n)).trans ?_
  exact operators_run (end_stops k l₅ 10)

/-- A number minus an operand is a program that takes the operand from the number. -/
theorem parse_difference {a : Int64} {written : String}
    (h : Lexes [] source.toList (.int a written :: .mark "-" :: ts)) {P : Expr → Prop}
    (hright : ∀ (vs : List Lexeme) k l, vs.map (·.token) = ts → ∃ f l', P f ∧
      ∀ n, expression (n + 10) Context.start.inner.inner 10 ⟨vs ++ [⟨.eof, k⟩], l⟩ =
        .ok (f, ⟨[⟨.eof, k⟩], l'⟩)) :
    ∃ l f l', P f ∧ parseProgram (Engine.programText source) =
      .ok ⟨0, true, [.give [.binary l (.arith .sub) (.int a) (f.settle l')]]⟩ := by
  obtain ⟨l₁, us, hlex, hus⟩ := tokens_cons (h.lex 1)
  obtain ⟨l₂, vs, rfl, hvs⟩ := tokens_cons hus
  obtain ⟨ws, ends, rfl, hws, hends⟩ := List.map_eq_append_iff.1 hvs
  obtain ⟨k, xs, rfl, hxs⟩ := tokens_cons hends
  obtain rfl := List.map_eq_nil_iff.1 hxs
  obtain ⟨f, l', hf, hrun⟩ := hright ws k l₂ hws
  have hexpression (n : Nat) : expression (n + 20) Context.start.inner 0
      ⟨⟨.int a written, l₁⟩ :: ⟨.mark "-", l₂⟩ :: (ws ++ [⟨.eof, k⟩]), 1⟩ =
      .ok (.binary l₂ (.arith .sub) (.int a) (f.settle l'), ⟨[⟨.eof, k⟩], l'⟩) := by
    rw [(Atom.int a written).begin_run (by decide), binary_run rfl rfl (by decide) (hrun (n + 8))]
    exact operators_run (end_stops k l' 0)
  exact ⟨l₂, f, l', hf, parseProgram_run hlex rfl rfl hexpression⟩

end Script

/-- The text of an operand right behind a digit and a minus. -/
theorem Patch.OperandText.lexes_difference {text : List Char} {ts : List Script.Token}
    (ht : OperandText text ts) {d : Char} (hd : isDigit d) :
    Lexes [] (d :: '-' :: text)
      (.int (digitNumber d) (String.ofList [d]) :: .mark "-" :: ts) := by
  obtain ⟨c, more, rfl⟩ : ∃ c more, text = c :: more := by
    cases htext : text with
    | nil =>
      have hstarts := ht.starts
      simp [htext] at hstarts
    | cons c more => exact ⟨c, more, rfl⟩
  have hstarts : startsOperand c := ht.starts
  have hminus : Takes '-' (c :: more ++ []) (some (.mark "-")) 0 := by
    apply takes_symbol (by decide)
    intro e he
    obtain rfl := Option.some.inj he
    refine ⟨?_, fun hpoint => absurd hpoint (by decide), ?_⟩
    · rintro - rfl
      exact absurd hstarts (by decide)
    · simp [Patch.doubled]
  have hdigit : Lexes ('-' :: c :: more) [d] [.int (digitNumber d) (String.ofList [d])] :=
    lexes_digit hd (endsNumber_cons rfl (by decide) _)
  have hoperand : Lexes [] (c :: more) ts := ht.lexes [] (Patch.endsBefore_nil _)
  have hall := (lexes_token (v := []) hminus).append hoperand
  exact Lexes.append (u := [d]) (v := '-' :: c :: more) (by rwa [List.append_nil]) hall

variable {engine : Engine} {scope : ScopeId}

theorem look_difference {h : Heap} {s : Script.Scope} {e : Expr} {a b : Int64} (l : Nat)
    (he : h.look s e = some (.number (.int b))) :
    h.look s (.binary l (.arith .sub) (.int a) e) = some (.number (.int (a - b))) := by
  rw [Heap.look, he]
  rfl

/-- A digit minus a whole number has the value of the difference. -/
theorem evaluates_difference (hg : engine.GoesOn) {d : Char} (hd : isDigit d) (i : Int64)
    (hleast : i = Int64.minValue → engine.HasLeast scope) :
    engine.Evaluates scope (String.ofList (d :: '-' :: (Literal.int i).source))
      (.number (.int (digitNumber d - i))) := by
  obtain ⟨ts, ht, hvalue⟩ | hmin := (Literal.int i).source_denotes
  · have hlexes := ht.lexes_difference hd
    rw [← String.toList_ofList (l := d :: '-' :: (Literal.int i).source)] at hlexes
    obtain ⟨e, he⟩ : ∃ e, Stands ts e := by
      obtain ⟨e, he, -⟩ := ht.parse
      exact ⟨e, he⟩
    obtain ⟨l, f, l', hf, hparse⟩ := parse_difference hlexes
      fun vs k l hvs => he.right_run hvs k l
    rw [hf.settle] at hparse
    refine evaluates_of_look hg hparse rfl ?_ (look_difference l (hvalue f hf _ _))
    have hcost : mostCost + 4 < 900 := by decide
    have := hf.cost_le
    simp only [Expr.cost]
    omega
  · obtain rfl := Literal.int.inj hmin
    have hlexes := Literal.operandText_least.lexes_difference hd
    rw [← String.toList_ofList (l := d :: '-' :: (Literal.int Int64.minValue).source)] at hlexes
    obtain ⟨l, f, l', ⟨l₁, l₂, rfl⟩, hparse⟩ := parse_difference
      (P := fun f => ∃ l₁ l₂,
        f = .single (.index l₁ (.global l₂ "math") (.str (encode "mininteger".toList)))) hlexes
      fun vs k l hvs => by
        obtain ⟨l₁, l₂, hrun⟩ := least_right_run hvs k l
        exact ⟨_, l₁, ⟨l₁, l₂, rfl⟩, hrun⟩
    refine evaluates_of_look hg hparse rfl (Nat.le_of_ble_eq_true rfl) (look_difference l ?_)
    exact (hleast rfl).look _ l₁ l₂

/-! ## Texts of parameters -/

theorem trim_of_visible {cs : List Char} (h : ∀ c ∈ cs, isBlank c = false) : trim cs = cs := by
  have hfixed : ∀ {ds : List Char}, (∀ d ∈ ds, isBlank d = false) → ds.dropWhile isBlank = ds := by
    intro ds hds
    cases ds with
    | nil => rfl
    | cons d ds => exact List.dropWhile_cons_of_neg (by simp [hds d (List.mem_cons_self ..)])
  have hreverse : ∀ c ∈ cs.reverse, isBlank c = false := fun c hc => h c (List.mem_reverse.1 hc)
  unfold trim trimEnd trimStart
  rw [hfixed h, hfixed hreverse, List.reverse_reverse]

namespace Literal

/-- The text of a whole number is the literal of that number. -/
theorem ofText?_int (i : Int64) : ofText? (ParamValue.int i).text = some (.int i) := by
  have hdigits : ∀ d ∈ Nat.toDigits 10 i.toInt.natAbs, isDigit d := fun d => isDigit_of_mem_toDigits
  obtain ⟨sign, hsign, hvalue⟩ : ∃ sign : Sign,
      (toString i).toList = sign.written ++ Nat.toDigits 10 i.toInt.natAbs ∧
        sign.apply i.toInt.natAbs = i.toInt := by
    rw [Decimal.toList_toString, Decimal.Figures.ofNat_text]
    by_cases hneg : i.toInt < 0
    · refine ⟨.minus, by rw [decide_eq_true hneg]; rfl, ?_⟩
      simp only [Sign.apply]
      omega
    · refine ⟨.none, by rw [decide_eq_false hneg]; rfl, ?_⟩
      simp only [Sign.apply]
      omega
  have hvisible : ∀ c ∈ (toString i).toList, isBlank c = false := by
    rw [hsign]
    intro c hc
    obtain hc | hc := List.mem_append.1 hc
    · obtain rfl | rfl : c = '-' ∨ c = '+' := by
        simpa [isSign] using sign.written_signed c hc
      · decide
      · decide
    · have := toNat_of_isDigit (hdigits c hc)
      exact isBlank_of_visible (by omega)
  have hread := ofText?_decimal Nat.toDigits_ne_nil ((trim_of_visible hvisible).trans hsign) hdigits
  have hint : Word.int64? (if decide (sign = .minus) then -(i.toInt.natAbs : Int)
      else i.toInt.natAbs) = some i := by
    simp only [decide_eq_true_eq]
    rw [← Sign.apply_eq, hvalue, Word.int64?_toInt]
  unfold decimal? at hread
  dsimp only at hread
  rw [ofDecimal_toDigits, hint] at hread
  exact hread

theorem ofText?_bool (b : Bool) : ofText? (ParamValue.bool b).text = some (.bool b) := by
  cases b <;> rfl

/-! ## Words -/

theorem isBlank_of_isIdentPart {c : Char} (h : isIdentPart c) : isBlank c = false := by
  simp only [isIdentPart, isAlphanumeric, Bool.or_eq_true, beq_iff_eq] at h
  obtain (((h | h) | rfl) | rfl) | rfl := h
  · have := toNat_of_isLetter h
    exact isBlank_of_visible (by omega)
  · have := toNat_of_isDigit h
    exact isBlank_of_visible (by omega)
  all_goals decide

/-- What starts like a word is no number, also where only digits, points and dashes follow. -/
theorem number?_word {c : Char} (hc : isIdentStart c) (cs : List Char) :
    number? (c :: cs) = none := by
  have hstart : ∀ d, isIdentStart d = false → c ≠ d := by
    rintro d hd rfl
    simp [hd] at hc
  have hdigit : isDigit c = false := by
    rw [Bool.eq_false_iff]
    intro hdigit
    rw [isIdentStart_of_isDigit hdigit] at hc
    cases hc
  have hpoint : c ≠ '.' := hstart '.' (by decide)
  have hsign : isSign c = false := by
    simp [isSign, hstart '-' (by decide), hstart '+' (by decide)]
  have hlooks : looksDecimal (c :: cs) = false := by simp [looksDecimal, hdigit, hpoint]
  have hall : (c :: cs).all isDigit = false := by simp [hdigit]
  have hsplit := Sign.none.splitSign_written hsign cs
  rw [Sign.written, List.nil_append] at hsplit
  unfold number?
  rw [hsplit]
  dsimp only
  split
  · rfl
  · rename_i h
    exact absurd (List.cons.inj h).1 (hstart '0' (by decide))
  · rename_i h
    exact absurd (List.cons.inj h).1 (hstart '0' (by decide))
  · rw [hall, hlooks, if_neg (by decide), if_neg (by decide)]

/-- A word is no literal, but for the two truth values. -/
theorem ofText?_word {w : String} (h : isIdent w.toList) (htrue : w ≠ "true")
    (hfalse : w ≠ "false") : ofText? w = none := by
  obtain ⟨c, cs, hw⟩ : ∃ c cs, w.toList = c :: cs := by
    cases hw : w.toList with
    | nil => simp [hw, isIdent] at h
    | cons c cs => exact ⟨c, cs, rfl⟩
  rw [hw] at h
  obtain ⟨hc, hcs⟩ : isIdentStart c ∧ ∀ d ∈ cs, isIdentPart d := by
    simpa [isIdent] using h
  have hstart : ∀ d, isIdentStart d = false → c ≠ d := by
    rintro d hd rfl
    simp [hd] at hc
  have hvisible : ∀ d ∈ c :: cs, isBlank d = false :=
    List.forall_mem_cons.2
      ⟨(isIdentStart_plain hc).2.2.2, fun d hd => isBlank_of_isIdentPart (hcs d hd)⟩
  have hne (word : String) (hne : w ≠ word) : c :: cs ≠ word.toList := by
    rw [← hw]
    exact fun he => hne (String.toList_inj.1 he)
  unfold ofText? ofChars?
  rw [hw, trim_of_visible hvisible]
  dsimp only
  rw [if_neg (hne "true" htrue), if_neg (hne "false" hfalse),
    if_neg (not_or.2 ⟨hstart '"' (by decide), hstart '\'' (by decide)⟩),
    if_neg (hstart '[' (by decide)), number?_word hc]

/-! ## All parameters -/

/-- **The type of a parameter is read back from its text**, and its literal has its value in
expressions. -/
theorem parameter_types_recovered :
    (∀ i, ofText? (ParamValue.int i).text = some (.int i)) ∧
    (∀ b, ofText? (ParamValue.bool b).text = some (.bool b)) ∧
    (∀ source tokens, lex source = .ok tokens → ∀ t ∈ tokens, ∀ w, t.kind = .ident w →
      w ≠ "true" → w ≠ "false" → ofText? (ParamValue.word w).text = none ∧
        parameterDatum (ParamValue.word w).text = .ofString w) ∧
    ∀ (engine : Engine) (scope : ScopeId), engine.GoesOn →
      ∀ i, (i = Int64.minValue → engine.HasLeast scope) →
        engine.Evaluates scope (String.ofList (int i).source) (.number (.int i)) ∧
        ∃ n : Int64, n.toInt ≡ 1 - i.toInt [ZMOD 2 ^ 64] ∧
          engine.Evaluates scope ("1-" ++ String.ofList (int i).source) (.number (.int n)) := by
  refine ⟨ofText?_int, ofText?_bool, ?_, ?_⟩
  · intro source tokens hlex t ht w hkind htrue hfalse
    have hwellFormed := lex_wellFormed hlex t ht
    rw [hkind] at hwellFormed
    have hnone : ofText? w = none := ofText?_word hwellFormed htrue hfalse
    refine ⟨hnone, ?_⟩
    rw [ParamValue.text, parameterDatum, hnone]
    rfl
  · intro engine scope hg i hleast
    refine ⟨evaluates_literal hg (.int i) fun h => hleast (int.inj h), 1 - i, ?_, ?_⟩
    · rw [Int64.toInt_sub]
      exact Int.bmod_emod
    · have hdifference := evaluates_difference hg (d := '1') (by decide) i hleast
      have htext : "1-" ++ String.ofList (int i).source =
          String.ofList ('1' :: '-' :: (int i).source) := by
        rw [← String.toList_inj, String.toList_append, String.toList_ofList, String.toList_ofList]
        simp
      rw [htext]
      exact hdifference

/-- The least number is found by its name, and a word of figures is no number. -/
theorem least_and_word_recovered :
    (∃ (engine : Engine) (scope : ScopeId), engine.GoesOn ∧ engine.HasLeast scope ∧
      engine.Evaluates scope "(math.mininteger)" (.number (.int Int64.minValue)) ∧
      ∃ n : Int64, n.toInt = -9223372036854775807 ∧
        engine.Evaluates scope "1-(math.mininteger)" (.number (.int n))) ∧
    ofText? "e5.0-1" = none := by
  obtain ⟨-, -, words, numbers⟩ := parameter_types_recovered
  refine ⟨?_, ?_⟩
  · have goes : (Engine.new .bare [] .endless).scope.1.GoesOn := rfl
    have least : (Engine.new .bare [] .endless).scope.1.HasLeast
        (Engine.new .bare [] .endless).scope.2 := hasLeast_fresh rfl List.not_mem_nil
    obtain ⟨found, n, same, difference⟩ := numbers _ _ goes Int64.minValue fun _ => least
    refine ⟨_, _, goes, least, found, n, ?_, difference⟩
    have low := n.le_toInt
    have high := n.toInt_lt
    have minimum : Int64.minValue.toInt = -9223372036854775808 := rfl
    rw [minimum, Int.ModEq] at same
    omega
  · have tokens : lex "a(e5.0-1)" = .ok [⟨.ident "a", ⟨0, 1⟩⟩, ⟨.lparen, ⟨1, 2⟩⟩,
        ⟨.ident "e5.0-1", ⟨2, 8⟩⟩, ⟨.rparen, ⟨8, 9⟩⟩, ⟨.eof, ⟨9, 9⟩⟩] := by cbv
    exact (words _ _ tokens ⟨.ident "e5.0-1", ⟨2, 8⟩⟩ (by simp) _ rfl (by decide) (by decide)).1

end Literal

end EnvManifest
