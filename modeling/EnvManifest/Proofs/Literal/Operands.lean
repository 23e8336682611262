import EnvManifest.Proofs.Decimal.RoundTrip
import EnvManifest.Proofs.Literal.Agreement
import EnvManifest.Proofs.Patch.Rewriting

/-!
# Literals in the place of names

The text that a literal has in an expression is an operand: one token, or something in parentheses.
Whatever program such an operand stands in, its value is that of the literal.
-/

namespace EnvManifest

open Text Script
open Patch (OperandText EndsBefore)

/-! ## What operands are read as -/

namespace Script

variable {t u : Script.Token} {ts : List Script.Token} {e e' : Expr}

theorem Atom.unique (h : Atom t e) (h' : Atom t e') : e = e' := by
  generalize ht : t = t' at h'
  cases h <;> cases h' <;> simp_all

theorem Stands.atom (h : Stands [t] e) : Atom t e := by
  generalize hts : [t] = ts at h
  cases h with
  | bare h =>
    obtain rfl := List.singleton_inj.1 hts
    exact h
  | enclosed =>
    have hlength := congrArg List.length hts
    simp at hlength

theorem Stands.enclosed_of (h : Stands (.mark "(" :: ts ++ [.mark ")"]) e) :
    ∃ e', e = .single e' ∧ Enclosed ts e' := by
  generalize hus : Script.Token.mark "(" :: ts ++ [.mark ")"] = us at h
  cases h with
  | bare =>
    have hlength := congrArg List.length hus
    simp at hlength
  | @enclosed us e' h =>
    obtain rfl := List.append_cancel_right (List.cons.inj hus).2
    exact ⟨e', rfl, h⟩

theorem Enclosed.minus_of (h : Enclosed [.mark "-", t] e) :
    ∃ l e', e = .unary l .neg e' ∧ Atom t e' := by
  generalize hts : [Script.Token.mark "-", t] = ts at h
  cases h with
  | @minus t' e' h l =>
    obtain ⟨rfl, -⟩ := List.cons.inj (List.cons.inj hts).2
    exact ⟨l, e', rfl, h⟩
  | path => cases hts
  | _ =>
    have hlength := congrArg List.length hts
    simp at hlength

theorem Enclosed.quotient_of (h : Enclosed [t, .mark "/", u] e) :
    ∃ l a b, e = .binary l (.arith .div) a b ∧ Atom t a ∧ Atom u b := by
  generalize hts : [t, Script.Token.mark "/", u] = ts at h
  cases h with
  | @quotient t' u' a b ht hu l =>
    simp only [List.cons.injEq, and_true, true_and] at hts
    obtain ⟨rfl, rfl⟩ := hts
    exact ⟨l, a, b, rfl, ht, hu⟩
  | path => simp [pathTokens] at hts
  | _ =>
    have hlength := congrArg List.length hts
    simp at hlength

theorem Enclosed.minusQuotient_of (h : Enclosed [.mark "-", t, .mark "/", u] e) :
    ∃ l l' a b, e = .binary l (.arith .div) (.unary l' .neg a) b ∧ Atom t a ∧ Atom u b := by
  generalize hts : [Script.Token.mark "-", t, .mark "/", u] = ts at h
  cases h with
  | @minusQuotient t' u' a b ht hu l l' =>
    simp only [List.cons.injEq, and_true, true_and] at hts
    obtain ⟨rfl, rfl⟩ := hts
    exact ⟨l, l', a, b, rfl, ht, hu⟩
  | path => simp [pathTokens] at hts
  | _ =>
    have hlength := congrArg List.length hts
    simp at hlength

theorem Enclosed.path_of {root field : String} (h : Enclosed (pathTokens root [field]) e) :
    Reads [root, field] e := by
  generalize hts : pathTokens root [field] = ts at h
  cases h with
  | @path root' field' e h =>
    simp only [pathTokens, List.flatMap_cons, List.flatMap_nil, List.append_nil, List.cons.injEq,
      Token.name.injEq, and_true, true_and] at hts
    obtain ⟨rfl, rfl⟩ := hts
    exact h
  | _ => simp [pathTokens] at hts

end Script

/-! ## Texts of operands -/

theorem Patch.endsBefore_nil (text : List Char) : EndsBefore text [] :=
  ⟨stops_nil _, fun _ hhead => Option.some_ne_none _ hhead.symm⟩

/-- A text has the tokens of one operand only. -/
theorem Patch.OperandText.unique {text : List Char} {ts us : List Script.Token} (h : OperandText text ts)
    (h' : OperandText text us) : ts = us := by
  have hends := Patch.endsBefore_nil text
  have hlex := (h.lexes [] hends).lex 1
  rw [(h'.lexes [] hends).lex 1] at hlex
  exact (List.append_cancel_right hlex).symm

theorem lexes_token {c : Char} {v rest : List Char} {t : Script.Token}
    (h : Takes c (v ++ rest) (some t) v.length) : Lexes rest (c :: v) [t] := Patch.lexes_one h

theorem operandText_bare {c : Char} {v : List Char} {t : Script.Token} {e : Expr}
    (hc : startsOperand c) (hopen : c ≠ '(') (ht : Atom t e)
    (h : ∀ rest, EndsBefore (c :: v) rest → Takes c (v ++ rest) (some t) v.length) :
    OperandText (c :: v) [t] := by
  refine ⟨hc, ?_, .inl ⟨t, e, rfl, ht, ?_⟩⟩
  · intro rest hrest
    exact lexes_token (h rest hrest)
  · intro hhead
    exact hopen (Option.some.inj hhead)

theorem lexes_paren {c : Char} (hc : c = '(' ∨ c = ')') (rest : List Char) :
    Lexes rest [c] [.mark c.toString] := by
  have htakes : Takes c rest (some (.mark c.toString)) 0 := by
    apply takes_symbol
    · obtain rfl | rfl := hc <;> decide
    · intro d _
      refine ⟨?_, ?_, ?_⟩
      · obtain rfl | rfl := hc <;> nofun
      · obtain rfl | rfl := hc <;> nofun
      · obtain rfl | rfl := hc <;> simp [Patch.doubled]
  exact lexes_token (v := []) htakes

theorem operandText_enclosed {inner : List Char} {ts : List Script.Token} {e : Expr}
    (he : Enclosed ts e) (h : ∀ rest, Lexes (')' :: rest) inner ts) :
    OperandText ('(' :: inner ++ [')']) (.mark "(" :: ts ++ [.mark ")"]) := by
  refine ⟨rfl, ?_, .inr ⟨ts, e, rfl, he, rfl⟩⟩
  intro rest _
  have hinner : Lexes rest (inner ++ [')']) (ts ++ [.mark ")"]) :=
    (h rest).append (lexes_paren (.inr rfl) rest)
  exact (lexes_paren (.inl rfl) (inner ++ [')'] ++ rest)).append hinner

/-- A minus before a digit. -/
theorem lexes_sign {d : Char} (hd : isDigit d) (rest : List Char) :
    Lexes (d :: rest) ['-'] [.mark "-"] := by
  have htakes : Takes '-' (d :: rest) (some (.mark "-")) 0 := by
    apply takes_symbol (by decide)
    intro d' hd'
    obtain rfl := Option.some.inj hd'
    refine ⟨?_, nofun, ?_⟩
    · intro _
      exact ne_of_isDigit hd (by decide)
    · simp [Patch.doubled]
  exact lexes_token (v := []) htakes

/-- A text is an operand that has a value, whatever program it stands in. -/
def Denotes (text : List Char) (d : Datum) : Prop :=
  ∃ ts, OperandText text ts ∧ ∀ e, Stands ts e → ∀ (h : Heap) s, h.look s e = some d

theorem denotes_atom {c : Char} {v : List Char} {t : Script.Token} {e : Expr} {d : Datum}
    (hc : startsOperand c) (hopen : c ≠ '(') (ht : Atom t e)
    (htakes : ∀ rest, EndsBefore (c :: v) rest → Takes c (v ++ rest) (some t) v.length)
    (hd : ∀ (h : Heap) s, h.look s e = some d) : Denotes (c :: v) d := by
  refine ⟨[t], operandText_bare hc hopen ht htakes, ?_⟩
  intro e' he' h s
  rw [he'.atom.unique ht, hd]

/-! ## Numbers -/

/-- A number's figures, with a minus and in parentheses if it is negative. -/
theorem denotes_figures {f : Decimal.Figures} (hf : f.Valid) {r : Number}
    (hr : Number.ofNumeral? false f.text = some r) (negative : Bool) :
    Denotes (if negative then '(' :: Decimal.signed negative f.text ++ [')']
      else Decimal.signed negative f.text) (.number (if negative then r.neg else r)) := by
  obtain ⟨c, v, hc, htext⟩ := f.text_eq_cons hf
  obtain ⟨e, he, hvalue⟩ : ∃ e, Atom (numberToken f.text r) e ∧
      ∀ (h : Heap) s, h.look s e = some (.number r) := by
    cases r with
    | int n => exact ⟨.int n, .int n _, fun _ _ => rfl⟩
    | float x => exact ⟨.float x, .float x _, fun _ _ => rfl⟩
  have htakes (rest : List Char) (hrest : endsNumber rest) :
      Takes c (v ++ rest) (some (numberToken f.text r)) v.length := takes_figures hf htext hrest hr
  cases negative with
  | false =>
    simp only [Bool.false_eq_true, if_false, Decimal.signed, htext] at *
    refine denotes_atom ?_ (ne_of_isDigit hc (by decide)) he ?_ hvalue
    · simp [startsOperand, hc]
    · intro rest hrest
      exact htakes rest ⟨hrest.1, hrest.2 hc⟩
  | true =>
    simp only [if_true, Decimal.signed, htext] at *
    have hinner (rest : List Char) :
        Lexes (')' :: rest) ('-' :: c :: v) [.mark "-", numberToken (c :: v) r] := by
      have hdigits : Lexes (')' :: rest) (c :: v) [numberToken (c :: v) r] := by
        apply lexes_token
        apply htakes
        exact endsNumber_cons rfl (by decide) _
      exact (lexes_sign hc (v ++ ')' :: rest)).append hdigits
    refine ⟨_, operandText_enclosed (.minus he 0) hinner, ?_⟩
    intro e' hstands h s
    obtain ⟨_, rfl, henclosed⟩ := hstands.enclosed_of
    obtain ⟨l, _, rfl, hatom⟩ := henclosed.minus_of
    obtain rfl := hatom.unique he
    rw [Heap.look, Heap.look, hvalue]
    rfl

/-- The number of a digit. -/
def digitNumber (d : Char) : Int64 := Int64.ofInt (ofDecimal [d])

theorem lexes_digit {d : Char} (hd : isDigit d) {rest : List Char} (hrest : endsNumber rest) :
    Lexes rest [d] [.int (digitNumber d) (String.ofList [d])] := by
  have hdigits : ∀ c ∈ [d], isDigit c := by
    intro c hc
    rwa [List.mem_singleton.1 hc]
  have hsmall : ofDecimal [d] < Word.half := by
    have hrange := toNat_of_isDigit hd
    simp only [ofDecimal, List.foldl_cons, List.foldl_nil, digitValue, Word.half]
    omega
  have hvalid := Decimal.Figures.valid_whole (List.cons_ne_nil d []) hdigits
  have hnumeral := Literal.ofNumeral?_digits (List.cons_ne_nil d []) hdigits hsmall
  exact lexes_token (v := []) (takes_figures hvalid rfl hrest hnumeral)

/-- A digit, perhaps with a minus, by zero. -/
theorem denotes_quotient {d : Char} (hd : isDigit d) (negative : Bool) :
    Denotes ('(' :: Decimal.signed negative [d, '/', '0'] ++ [')'])
      (.number (.float (Float.ofInt (if negative then -digitNumber d else digitNumber d).toInt /
        Float.ofInt 0))) := by
  have hslash (rest : List Char) : Lexes ('0' :: rest) ['/'] [.mark "/"] := by
    have htakes : Takes '/' ('0' :: rest) (some (.mark "/")) 0 := by
      apply takes_symbol (by decide)
      intro c hc
      obtain rfl := Option.some.inj hc
      exact ⟨nofun, nofun, rfl⟩
    exact lexes_token (v := []) htakes
  have hzero (rest : List Char) :
      Lexes (')' :: rest) ['0'] [.int (digitNumber '0') (String.ofList ['0'])] :=
    lexes_digit (by decide) (endsNumber_cons rfl (by decide) _)
  have hquotient (rest : List Char) : Lexes (')' :: rest) [d, '/', '0']
      [.int (digitNumber d) (String.ofList [d]), .mark "/",
        .int (digitNumber '0') (String.ofList ['0'])] := by
    have hdigit : Lexes ('/' :: '0' :: ')' :: rest) [d]
        [.int (digitNumber d) (String.ofList [d])] :=
      lexes_digit hd (endsNumber_cons rfl (by decide) _)
    exact Lexes.append (v := ['/', '0']) hdigit ((hslash _).append (hzero rest))
  cases negative with
  | false =>
    -- The tokens leave the lines open, but not the numbers: every reading of them is this quotient.
    refine ⟨_, operandText_enclosed (.quotient (.int _ _) (.int _ _) 0) hquotient, ?_⟩
    intro e he h s
    obtain ⟨_, rfl, henclosed⟩ := he.enclosed_of
    obtain ⟨l, a, b, rfl, ha, hb⟩ := henclosed.quotient_of
    rw [ha.unique (.int _ _), hb.unique (.int _ _)]
    rfl
  | true =>
    have hinner (rest : List Char) :=
      (lexes_sign hd (['/', '0'] ++ ')' :: rest)).append (hquotient rest)
    refine ⟨_, operandText_enclosed (.minusQuotient (.int _ _) (.int _ _) 0 0) hinner, ?_⟩
    intro e he h s
    obtain ⟨_, rfl, henclosed⟩ := he.enclosed_of
    obtain ⟨l, l', a, b, rfl, ha, hb⟩ := henclosed.minusQuotient_of
    rw [ha.unique (.int _ _), hb.unique (.int _ _)]
    rfl

/-! ## All literals -/

namespace Literal

theorem denotes_bool (b : Bool) : Denotes (bool b).source (bool b).datum := by
  have htakes (word : String) {c : Char} {v : List Char} (hword : word.toList = c :: v)
      (hc : startsWord c) (hv : ∀ d ∈ v, isWordPart d) (rest : List Char)
      (hrest : EndsBefore (c :: v) rest) :
      Takes c (v ++ rest) (some (wordToken (c :: v))) v.length := takes_word hc hv hrest.1
  cases b with
  | true =>
    exact denotes_atom (by decide) (by decide) .true
      (htakes "true" rfl rfl (List.all_eq_true.1 rfl)) fun _ _ => rfl
  | false =>
    exact denotes_atom (by decide) (by decide) .false
      (htakes "false" rfl rfl (List.all_eq_true.1 rfl)) fun _ _ => rfl

theorem denotes_str (s : String) : Denotes (str s).source (str s).datum := by
  obtain ⟨shown, htakes⟩ := takes_quote s.toList
  refine denotes_atom (by decide) (by decide) (.str (encode s.toList) shown) ?_ fun _ _ => rfl
  intro rest _
  exact htakes rest

/-- The text of a whole number, but for the least one. -/
theorem intSource_eq {n : Int64} (hn : n ≠ Int64.minValue) :
    intSource n =
      if decide (n.toInt < 0) then
        '(' :: Decimal.signed (decide (n.toInt < 0)) (Decimal.Figures.ofNat n.toInt.natAbs).text ++ [')']
      else Decimal.signed (decide (n.toInt < 0)) (Decimal.Figures.ofNat n.toInt.natAbs).text := by
  have hiff : n < 0 ↔ decide (n.toInt < 0) = true := by
    rw [decide_eq_true_iff]
    exact Int64.lt_iff_toInt_lt
  unfold intSource
  rw [if_neg hn, Decimal.toList_toString, if_congr hiff rfl rfl]

theorem denotes_int {n : Int64} (hn : n ≠ Int64.minValue) :
    Denotes (int n).source (int n).datum := by
  have hlow := Int64.le_toInt n
  have hhigh := Int64.toInt_lt n
  have hne : n.toInt ≠ Int64.minValue.toInt := mt Int64.toInt_inj.1 hn
  have hmin : Int64.minValue.toInt = -9223372036854775808 := rfl
  have hsmall : n.toInt.natAbs < Word.half := by
    unfold Word.half
    omega
  have hnumeral : Number.ofNumeral? false (Decimal.Figures.ofNat n.toInt.natAbs).text =
      some (.int (Int64.ofInt n.toInt.natAbs)) := by
    rw [Decimal.Figures.ofNat_text]
    have hdigits := ofNumeral?_digits (Nat.toDigits_ne_nil (b := 10) (n := n.toInt.natAbs))
      (fun c hc => isDigit_of_mem_toDigits hc) (by rwa [ofDecimal_toDigits])
    rwa [ofDecimal_toDigits] at hdigits
  have hfigures := denotes_figures (Decimal.Figures.ofNat_valid _) hnumeral (decide (n.toInt < 0))
  have hvalue : (if decide (n.toInt < 0) then (Number.int (Int64.ofInt n.toInt.natAbs)).neg
      else Number.int (Int64.ofInt n.toInt.natAbs)) = .int n := by
    by_cases hneg : n.toInt < 0
    · have habs : (n.toInt.natAbs : Int) = -n.toInt := by omega
      rw [decide_eq_true hneg, if_pos rfl, Number.neg, habs, Int64.ofInt_neg, Int64.ofInt_toInt,
        Int64.neg_neg]
    · have habs : (n.toInt.natAbs : Int) = n.toInt := by omega
      rw [decide_eq_false hneg, if_neg (by decide), habs, Int64.ofInt_toInt]
  rw [hvalue, ← intSource_eq hn] at hfigures
  exact hfigures

/-- Figures with a point or an exponent are a float. -/
theorem ofNumeral?_fractional {f : Decimal.Figures} (hf : f.Valid)
    (hfraction : Decimal.isFractional f.text) :
    Number.ofNumeral? false f.text = some (.float (Decimal.nearest f.coefficient f.exponent)) := by
  have hall : f.text.all isDigit = false := by
    obtain ⟨c, hc, hmark⟩ := List.any_eq_true.1 hfraction
    rw [List.all_eq_false]
    refine ⟨c, hc, ?_⟩
    intro hdigit
    simp [ne_of_isDigit hdigit (d := '.') (by decide), ne_of_isDigit hdigit (d := 'e') (by decide),
      ne_of_isDigit hdigit (d := 'E') (by decide)] at hmark
  have hhex {x : Char} (hx : x = 'x' ∨ x = 'X') : x ∉ f.text := by
    intro hmem
    have hnot := f.mem_text hf hmem
    obtain rfl | rfl := hx <;> revert hnot <;> decide
  unfold Number.ofNumeral?
  dsimp only
  split
  · rename_i htext
    exact absurd (by rw [htext]; simp) (hhex (.inl rfl))
  · rename_i htext
    exact absurd (by rw [htext]; simp) (hhex (.inr rfl))
  · rw [hall, Bool.and_false, f.decimal?_text hf]
    rfl

theorem denotes_float (x : Float) : Denotes (float x).source (float x).datum := by
  rw [source, datum]
  unfold floatSource
  split
  · rename_i hnan
    have hquotient := denotes_quotient (d := '0') (by decide) false
    rw [Decimal.eq_of_isNaN hnan]
    exact hquotient
  · rename_i hnan
    split
    · rename_i hinf
      have hx := Decimal.eq_of_isInf hinf
      split
      · rename_i hnegative
        rw [if_pos hnegative] at hx
        rw [hx]
        exact denotes_quotient (d := '1') (by decide) true
      · rename_i hpositive
        rw [if_neg hpositive] at hx
        rw [hx]
        exact denotes_quotient (d := '1') (by decide) false
    · rename_i hinf
      have hfinite : x.isFinite = true := by
        rw [Decimal.isFinite_eq, Bool.eq_false_iff.2 hnan, Bool.eq_false_iff.2 hinf]
        rfl
      obtain ⟨f, hf, hfraction, htext, hread⟩ := Decimal.text_figures hfinite
      have hfigures := denotes_figures hf (ofNumeral?_fractional hf hfraction) (Decimal.isNegative x)
      have hvalue : (if Decimal.isNegative x then
          (Number.float (Decimal.nearest f.coefficient f.exponent)).neg
          else Number.float (Decimal.nearest f.coefficient f.exponent)) = .float x := by
        rw [Decimal.float?_signed hf, Option.map_some] at hread
        have hx := congrArg Number.float (Option.some.inj hread)
        rwa [apply_ite Number.float] at hx
      rw [hvalue] at hfigures
      rwa [htext, String.toList_ofList]

/-- The tokens of the library's name of the least whole number, in parentheses. -/
def leastTokens : List Script.Token := .mark "(" :: pathTokens "math" ["mininteger"] ++ [.mark ")"]

theorem operandText_least : OperandText (int Int64.minValue).source leastTokens := by
  have hword (word : String) {c : Char} {v rest : List Char} (hw : word.toList = c :: v)
      (hc : startsWord c) (hv : ∀ d ∈ v, isWordPart d) (hrest : stops isWordPart rest) :
      Lexes rest (c :: v) [wordToken (c :: v)] := lexes_token (takes_word hc hv hrest)
  have hinner (rest : List Char) : Lexes (')' :: rest) "math.mininteger".toList
      (pathTokens "math" ["mininteger"]) := by
    have hmath : Lexes ('.' :: ("mininteger".toList ++ ')' :: rest)) "math".toList
        [.name "math"] := hword "math" rfl rfl (List.all_eq_true.1 rfl) (stops_cons rfl _)
    have hpoint : Lexes ("mininteger".toList ++ ')' :: rest) ['.'] [.mark "."] := by
      have htakes : Takes '.' ("mininteger".toList ++ ')' :: rest) (some (.mark ".")) 0 := by
        apply takes_symbol (by decide)
        intro c hc
        obtain rfl := Option.some.inj hc
        exact ⟨nofun, fun _ => rfl, rfl⟩
      exact lexes_token (v := []) htakes
    have hleast : Lexes (')' :: rest) "mininteger".toList [.name "mininteger"] :=
      hword "mininteger" rfl rfl (List.all_eq_true.1 rfl) (stops_cons rfl _)
    exact Lexes.append (v := '.' :: "mininteger".toList) hmath (hpoint.append hleast)
  have hpath : Enclosed (pathTokens "math" ["mininteger"])
      (.index 0 (.index 0 (.var ⟨environmentName, 0, false⟩) (.str (encode "math".toList)))
        (.str (encode "mininteger".toList))) := by
    apply Enclosed.path
    exact .field 0 (.global 0 rfl "math") "mininteger"
  exact operandText_enclosed hpath hinner

/-- **The text of a literal is an operand with the literal's value**, but for the least whole number,
whose text is the name that the library has for it. -/
theorem source_denotes (l : Literal) :
    Denotes l.source l.datum ∨ l = int Int64.minValue := by
  cases l with
  | bool b => exact .inl (denotes_bool b)
  | int n =>
    by_cases hn : n = Int64.minValue
    · exact .inr (congrArg int hn)
    · exact .inl (denotes_int hn)
  | float x => exact .inl (denotes_float x)
  | str s => exact .inl (denotes_str s)

/-- Does a program that has an operand for the least whole number find that number by its name? -/
def FindsLeast (h : Heap) (s : Script.Scope) (e : Expr) : Prop :=
  ∀ e', e = .single e' → Script.Reads ["math", "mininteger"] e' →
    h.look s e' = some (int Int64.minValue).datum

theorem exists_operandText (l : Literal) : ∃ ts, OperandText l.source ts := by
  obtain ⟨ts, hts, -⟩ | rfl := source_denotes l
  · exact ⟨ts, hts⟩
  · exact ⟨_, operandText_least⟩

/-- What stands in an expression for a literal has the literal's value. -/
theorem look_operand {l : Literal} {ts : List Script.Token} {e : Expr}
    (ht : OperandText l.source ts) (he : Stands ts e) {h : Heap} {s : Script.Scope}
    (hleast : FindsLeast h s e) : h.look s e = some l.datum := by
  obtain ⟨us, hus, hvalue⟩ | rfl := source_denotes l
  · obtain rfl := ht.unique hus
    exact hvalue e he h s
  · obtain rfl := ht.unique operandText_least
    obtain ⟨e', rfl, henclosed⟩ := he.enclosed_of
    rw [Heap.look]
    exact hleast e' rfl henclosed.path_of

end Literal

theorem denotes_nil : Denotes "nil".toList .nil := by
  refine denotes_atom (by decide) (by decide) .nil ?_ fun _ _ => rfl
  intro rest hrest
  exact takes_word rfl (List.all_eq_true.1 rfl) hrest.1

/-- So is the text of every value that has one. -/
theorem Value.exists_operandText {v : Value} {text : List Char} (h : v.source? = some text) :
    ∃ ts, OperandText text ts := by
  cases v with
  | null =>
    obtain rfl := Option.some.inj h
    obtain ⟨ts, hts, -⟩ := denotes_nil
    exact ⟨ts, hts⟩
  | bool b =>
    obtain rfl := Option.some.inj h
    exact Literal.exists_operandText (.bool b)
  | int n =>
    unfold Value.source? at h
    dsimp only at h
    split at h
    · obtain rfl := Option.some.inj h
      exact Literal.exists_operandText (.int (Int64.ofInt n))
    · obtain rfl := Option.some.inj h
      exact Literal.exists_operandText (.float (Float.ofInt n))
  | float x =>
    obtain rfl := Option.some.inj h
    exact Literal.exists_operandText (.float x)
  | str s =>
    obtain rfl := Option.some.inj h
    exact Literal.exists_operandText (.str s)
  | list vs => cases h
  | object fs => cases h

end EnvManifest
