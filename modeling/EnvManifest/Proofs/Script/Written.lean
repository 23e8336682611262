import EnvManifest.Literal
import EnvManifest.Proofs.Decimal.Figures
import EnvManifest.Proofs.Script.Locality
import EnvManifest.Proofs.Text.Digits

/-!
# Tokens of written values

What words, symbols, numbers and strings are read as, with what may follow them.
-/

namespace EnvManifest.Script

open Text Decimal

/-! ## Words and symbols -/

theorem takes_word {c : Char} {v z : List Char} (hc : startsWord c) (hv : ∀ d ∈ v, isWordPart d)
    (hz : stops isWordPart z) : Takes c (v ++ z) (some (wordToken (c :: v))) v.length := by
  refine ⟨fun l => ?_, ?_⟩
  · rw [tokenAt_word hc, takeWhile_run hv hz]
  · unfold wordToken
    split <;> rfl

theorem lexes_one {c : Char} {v : List Char} {t : Token} (h : Takes c v (some t) v.length) :
    Lexes [] (c :: v) [t] := by
  have htakes : Takes c (v ++ ([] ++ [])) (some t) v.length := by simpa using h
  have hall : Lexes [] (c :: (v ++ [])) ([t] ++ []) := .cons htakes .nil
  rwa [List.append_nil] at hall

/-- A word of letters is one token. -/
theorem lexes_word {c : Char} {v : List Char} (hc : startsWord c) (hv : ∀ d ∈ v, isWordPart d) :
    Lexes [] (c :: v) [wordToken (c :: v)] := by
  have htakes := takes_word hc hv (stops_nil _)
  rw [List.append_nil] at htakes
  exact lexes_one htakes

/-- Does nothing but a symbol start with the character, apart from comments and numbers? -/
def isSymbol (c : Char) : Bool :=
  0x21 ≤ c.toNat && c.toNat ≤ 0x7E && !startsWord c && !isDigit c && c != '[' && c != '"' &&
    c != '\''

theorem takes_symbol {c : Char} {z : List Char} (hc : isSymbol c)
    (hz : ∀ d, z.head? = some d → (c = '-' → d ≠ '-') ∧ (c = '.' → isDigit d = false) ∧
      Patch.doubled.contains (c, d) = false) :
    Takes c z (some (.mark c.toString)) 0 := by
  simp only [isSymbol, Bool.and_eq_true, decide_eq_true_eq, Bool.not_eq_true', bne_iff_ne] at hc
  obtain ⟨⟨⟨⟨⟨⟨hlow, hhigh⟩, hword⟩, hdigit⟩, hbracket⟩, hquote⟩, hquote'⟩ := hc
  have hrun : Patch.symbolRun c z = 0 := symbolRun_eq_zero.2 fun d hd => (hz d hd).2.2
  have hshown : shownSymbol c = c.toString := if_pos ⟨Nat.le_of_succ_le hlow, hhigh⟩
  have hnumber : ¬(isDigit c || (c == '.' && z.head?.any isDigit)) := by
    rw [hdigit, Bool.false_or, Bool.and_eq_true, beq_iff_eq]
    rintro ⟨hc, hd⟩
    obtain ⟨d, hd, hdigit⟩ := (Option.any_eq_true _ _).1 hd
    rw [(hz d hd).2.1 hc] at hdigit
    cases hdigit
  refine ⟨fun l => ?_, rfl⟩
  unfold tokenAt
  dsimp only
  rw [if_neg (by simp [not_isBreak_of_visible hlow]), if_neg (by simp [not_isSpace_of_visible hlow]),
    if_neg (fun hm => (hz '-' hm.2).1 hm.1 rfl), if_neg hbracket,
    if_neg (not_or.2 ⟨hquote, hquote'⟩), if_neg hnumber,
    if_neg (by simpa [startsWord] using hword), symbolAt_length, symbolAt_eq, if_pos hrun, hrun,
    hshown]

/-! ## Numbers -/

theorem numeralRun_plain {ds z : List Char}
    (h : ∀ c ∈ ds, isNumeral false c ∧ isPower false c = false) :
    numeralRun false (ds ++ z) = ds.length + numeralRun false z := by
  induction ds with
  | nil => simp
  | cons c ds ih =>
    obtain ⟨hc, hpower⟩ := h c (List.mem_cons_self ..)
    rw [List.cons_append, numeralRun_cons, hpower, hc, ih fun d hd => h d (List.mem_cons_of_mem c hd)]
    simp only [Bool.false_and, List.length_cons]
    simp [Nat.add_right_comm]

theorem plain_of_isDigit {c : Char} (h : isDigit c) :
    isNumeral false c ∧ isPower false c = false := by
  refine ⟨by simp [isNumeral, isHexDigit_of_isDigit h], ?_⟩
  simp [isPower, ne_of_isDigit h (d := 'e') (by decide), ne_of_isDigit h (d := 'E') (by decide)]

theorem numeralRun_end {z : List Char} (hz : stops (isNumeral false) z) :
    numeralRun false z = 0 := by
  cases z with
  | nil => rfl
  | cons c z =>
    have hc := hz c rfl
    have hpower : isPower false c = false := by
      simp only [isNumeral, Bool.or_eq_false_iff] at hc
      exact hc.1.1
    rw [numeralRun_cons, hpower, hc]
    rfl

theorem numeralRun_power {negative : Bool} {ds z : List Char} (hne : ds ≠ [])
    (hds : ∀ c ∈ ds, isDigit c) (hz : stops (isNumeral false) z) :
    numeralRun false ('e' :: ((if negative then '-' :: ds else ds) ++ z)) =
      ('e' :: if negative then '-' :: ds else ds).length := by
  have hrun : numeralRun false (ds ++ z) = ds.length := by
    rw [numeralRun_plain fun c hc => plain_of_isDigit (hds c hc), numeralRun_end hz, Nat.add_zero]
  have he : isPower false 'e' = true := rfl
  cases negative with
  | true =>
    have hsign : ('-' :: (ds ++ z)).head?.any isPlusMinus = true := rfl
    simp only [reduceIte, List.cons_append]
    rw [numeralRun_cons, he, hsign, if_pos (by rfl), List.drop_succ_cons, List.drop_zero, hrun]
    rfl
  | false =>
    obtain ⟨d, ds, rfl⟩ := List.exists_cons_of_ne_nil hne
    have hd := hds d (List.mem_cons_self ..)
    have hsign : (d :: ds ++ z).head?.any isPlusMinus = false := by
      simp [isPlusMinus, ne_of_isDigit hd (d := '+') (by decide),
        ne_of_isDigit hd (d := '-') (by decide)]
    simp only [Bool.false_eq_true, reduceIte]
    rw [numeralRun_cons, he, hsign, hrun]
    rfl

/-- A number is read to its end. -/
theorem numeralRun_figures {f : Figures} (hf : f.Valid) {z : List Char}
    (hz : stops (isNumeral false) z) : numeralRun false (f.text ++ z) = f.text.length := by
  have hplaces : ∀ c ∈ f.placesText, isNumeral false c ∧ isPower false c = false := by
    intro c hc
    unfold Figures.placesText at hc
    split at hc
    · cases hc
    · rename_i ds hds
      obtain rfl | hc := List.mem_cons.1 hc
      · decide
      · exact plain_of_isDigit (hf.places ds hds c hc)
  have hpower : numeralRun false (f.powerText ++ z) = f.powerText.length := by
    unfold Figures.powerText
    split
    · exact numeralRun_end hz
    · rename_i negative ds hds
      obtain ⟨hne, hdigits⟩ := hf.power negative ds hds
      exact numeralRun_power hne hdigits hz
  unfold Figures.text
  rw [List.append_assoc, List.append_assoc, numeralRun_plain fun c hc => plain_of_isDigit (hf.whole c hc),
    numeralRun_plain hplaces, hpower, List.length_append, List.length_append]

/-- Can a number end before a text? -/
def endsNumber (z : List Char) : Prop := stops isWordPart z ∧ z.head? ≠ some '.'

theorem endsNumber_nil : endsNumber [] := ⟨stops_nil _, by decide⟩

theorem endsNumber_cons {c : Char} (h : isWordPart c = false) (hc : c ≠ '.') (z : List Char) :
    endsNumber (c :: z) :=
  ⟨stops_cons h z, fun hhead => hc (Option.some.inj hhead)⟩

/-- The token of a number. -/
def numberToken (written : List Char) : Number → Token
  | .int v => .int v (String.ofList written)
  | .float v => .float v (String.ofList written)

theorem tokenAt_digit {c : Char} (h : isDigit c) (l : Nat) (cs : List Char) :
    tokenAt l c cs = (some (numeralAt c cs).1, (numeralAt c cs).2) := by
  have hvisible : 0x21 ≤ c.toNat := Nat.le_trans (by decide) (toNat_of_isDigit h).1
  have hne : ∀ d, isDigit d = false → c ≠ d := fun d hd => ne_of_isDigit h hd
  unfold tokenAt
  dsimp only
  rw [if_neg (by simp [not_isBreak_of_visible hvisible]),
    if_neg (by simp [not_isSpace_of_visible hvisible]), if_neg (fun hm => hne '-' rfl hm.1),
    if_neg (hne '[' rfl), if_neg (not_or.2 ⟨hne '"' rfl, hne '\'' rfl⟩), if_pos (by simp [h])]

theorem takes_figures {f : Figures} (hf : f.Valid) {c : Char} {v z : List Char}
    (htext : f.text = c :: v) (hz : endsNumber z) {r : Number}
    (hr : Number.ofNumeral? false f.text = some r) :
    Takes c (v ++ z) (some (numberToken f.text r)) v.length := by
  have hc : isDigit c := by
    obtain ⟨d, ds, hd, htext'⟩ := f.text_eq_cons hf
    obtain ⟨rfl, -⟩ := List.cons.inj (htext.symm.trans htext')
    exact hd
  have hnumeral : stops (isNumeral false) z := by
    intro d hd
    refine Bool.eq_false_iff.2 fun hn => ?_
    have hgo := isAlphanumeric_of_isNumeral hn
    have hword := hz.1 d hd
    simp only [isWordPart, Bool.or_eq_false_iff] at hword
    rw [hword.1, Bool.false_or, beq_iff_eq] at hgo
    exact hz.2 (hgo ▸ hd)
  have hhex : isHexNumeral c (v ++ z) = false := by
    have hx : (v ++ z).head?.any (fun x => x == 'x' || x == 'X') = false := by
      cases v with
      | nil =>
        cases hd : z.head? with
        | none => simp [hd]
        | some d =>
          have hword := hz.1 d hd
          rw [List.nil_append, hd, Option.any_some]
          refine Bool.eq_false_iff.2 fun hx => ?_
          simp only [Bool.or_eq_true, beq_iff_eq] at hx
          obtain rfl | rfl := hx <;> cases hword
      | cons d v =>
        have hd := f.mem_text hf (c := d) (by rw [htext]; simp)
        rw [List.cons_append, List.head?_cons, Option.any_some]
        refine Bool.eq_false_iff.2 fun hx => ?_
        simp only [Bool.or_eq_true, beq_iff_eq] at hx
        obtain rfl | rfl := hx <;> revert hd <;> decide
    rw [isHexNumeral, hx, Bool.and_false]
  have hrun : numeralLength c (v ++ z) = v.length := by
    have hrun := numeralRun_figures hf hnumeral
    rw [htext, List.cons_append, numeralRun_cons, (plain_of_isDigit hc).2, (plain_of_isDigit hc).1] at hrun
    unfold numeralLength
    rw [if_neg (by rw [hhex]; decide)]
    exact Nat.succ.inj hrun
  have hfree : z.head?.any startsWord = false := by
    cases hd : z.head? with
    | none => rfl
    | some d =>
      refine Bool.eq_false_iff.2 fun hw => ?_
      have hw : startsWord d := hw
      have := hz.1 d hd
      rw [isWordPart_of_startsWord hw] at this
      cases this
  have hat : numeralAt c (v ++ z) = (numberToken f.text r, v.length) := by
    rw [numeralAt_eq, hrun]
    dsimp only
    rw [List.drop_left, hfree, if_neg (by decide), List.take_left, ← htext, hr]
    cases r <;> rfl
  refine ⟨fun l => ?_, by cases r <;> rfl⟩
  rw [tokenAt_digit hc, hat]

/-! ## Strings -/

theorem stringBody_part {quote c : Char} {more : List Char} {front rest : Bytes} {k m : Nat}
    (hc : c ≠ quote) (hb : isBreak c = false) (hp : stringPart c more = .ok (front, k))
    (hr : stringBody quote (more.drop k) = .ok (rest, m)) :
    stringBody quote (c :: more) = .ok (front ++ rest, k + m + 1) := by
  rw [stringBody_cons, if_neg hc, if_neg (by simp [hb]), hp]
  dsimp only
  rw [hr]

theorem encode_ascii {c : Char} (h : c.toNat ≤ 0x7F) : encode [c] = [UInt8.ofNat c.toNat] := by
  rw [encode, List.flatMap_cons, List.flatMap_nil, List.append_nil, String.utf8EncodeChar]
  exact if_pos h

theorem ofDecimal_padded (width n : Nat) : ofDecimal (toDecimalPadded width n) = n := by
  rw [toDecimalPadded, ofDecimal_zeros_append, ofDecimal_toDigits]

theorem isDigit_of_mem_padded {width n : Nat} {c : Char} (h : c ∈ toDecimalPadded width n) :
    isDigit c := by
  obtain h | h := List.mem_append.1 h
  · obtain rfl := List.eq_of_mem_replicate h
    decide
  · exact isDigit_of_mem_toDigits h

theorem length_padded {width n : Nat} (hw : 0 < width) (h : n < 10 ^ width) :
    (toDecimalPadded width n).length = width := by
  have hle := (Nat.length_toDigits_le_iff (by decide) hw).2 h
  rw [toDecimalPadded, List.length_append, List.length_replicate]
  omega

/-- A character that is written as a number of three digits. -/
theorem escape_padded {n : Nat} (hn : n ≤ 255) (z : List Char) :
    escape (toDecimalPadded 3 n ++ z) = .ok ([UInt8.ofNat n], 3) := by
  have hlength : (toDecimalPadded 3 n).length = 3 :=
    length_padded (by decide) (Nat.lt_of_le_of_lt hn (by decide))
  have hdigits : ∀ c ∈ toDecimalPadded 3 n, isDigit c := fun c hc => isDigit_of_mem_padded hc
  have hvalue := ofDecimal_padded 3 n
  generalize toDecimalPadded 3 n = ds at hlength hdigits hvalue
  match ds, hlength with
  | [a, b, c], _ =>
    have ha := hdigits a (by simp)
    have hrun : (([a, b, c] ++ z).take 3).takeWhile isDigit = [a, b, c] := by
      have htake : ([a, b, c] ++ z).take 3 = [a, b, c] := rfl
      rw [htake]
      simpa using takeWhile_run hdigits (stops_nil isDigit)
    rw [List.cons_append, escape_other (ne_of_isDigit ha (by decide)) (ne_of_isDigit ha (by decide))
      (ne_of_isDigit ha (by decide)), if_neg, if_pos ha, ← List.cons_append, hrun]
    · dsimp only
      rw [hvalue, if_pos hn]
      rfl
    · simp [isBreak, ne_of_isDigit ha (d := '\n') (by decide), ne_of_isDigit ha (d := '\r') (by decide)]

/-- The letters after a backslash that a literal writes, and what they stand for. -/
def writtenEscapes : List (Char × Char) :=
  [('"', '"'), ('\\', '\\'), ('n', '\n'), ('r', '\r'), ('t', '\t')]

/-- What a literal writes for a character: a letter after a backslash, its number, or itself. -/
inductive WrittenAs (c : Char) : List Char → Prop
  | letter (e : Char) (he : (e, c) ∈ writtenEscapes) : WrittenAs c ['\\', e]
  | number (hn : c.toNat ≤ 0x7F) : WrittenAs c ('\\' :: toDecimalPadded 3 c.toNat)
  | self (hquote : c ≠ '"') (hslash : c ≠ '\\') (hfeed : c ≠ '\n') (hreturn : c ≠ '\r')
    (hvisible : 0x20 ≤ c.toNat) : WrittenAs c [c]

theorem writtenAs_quotedChar (c : Char) : WrittenAs c (Literal.quotedChar c) := by
  have hletter : ∀ e d, (e, d) ∈ writtenEscapes → c = d → WrittenAs c ['\\', e] := by
    rintro e d he rfl
    exact .letter e he
  unfold Literal.quotedChar
  split
  · exact hletter _ '"' (by decide) ‹_›
  rename_i hquote
  split
  · exact hletter _ '\\' (by decide) ‹_›
  rename_i hslash
  split
  · exact hletter _ '\n' (by decide) ‹_›
  rename_i hfeed
  split
  · exact hletter _ '\r' (by decide) ‹_›
  rename_i hreturn
  split
  · exact hletter _ '\t' (by decide) ‹_›
  split
  · exact .number (by omega)
  · exact .self hquote hslash hfeed hreturn (by omega)

theorem writtenEscapes_visible {e c : Char} (he : (e, c) ∈ writtenEscapes) :
    e ≠ '\r' ∧ 0x20 < e.toNat := by
  simp only [writtenEscapes, List.mem_cons, Prod.mk.injEq, List.not_mem_nil, or_false] at he
  obtain ⟨rfl, rfl⟩ | ⟨rfl, rfl⟩ | ⟨rfl, rfl⟩ | ⟨rfl, rfl⟩ | ⟨rfl, rfl⟩ := he <;>
    exact ⟨by decide, by decide⟩

/-- The engine reads each of the letters as what it stands for. -/
theorem escape_letter {e c : Char} (he : (e, c) ∈ writtenEscapes) (z : List Char) :
    escape (e :: z) = .ok (encode [c], 1) := by
  simp only [writtenEscapes, List.mem_cons, Prod.mk.injEq, List.not_mem_nil, or_false] at he
  obtain ⟨rfl, rfl⟩ | ⟨rfl, rfl⟩ | ⟨rfl, rfl⟩ | ⟨rfl, rfl⟩ | ⟨rfl, rfl⟩ := he <;> rfl

/-- One character as a literal writes it. -/
theorem stringBody_quotedChar (c : Char) {z : List Char} {rest : Bytes} {m : Nat}
    (hr : stringBody '"' z = .ok (rest, m)) :
    stringBody '"' (Literal.quotedChar c ++ z) =
      .ok (encode [c] ++ rest, (Literal.quotedChar c).length + m) := by
  have hwritten := writtenAs_quotedChar c
  generalize Literal.quotedChar c = written at hwritten ⊢
  cases hwritten with
  | letter e he =>
    have hbody := stringBody_part (c := '\\') (by decide) (by decide) (escape_letter he z) hr
    rwa [Nat.add_right_comm 1 m 1] at hbody
  | number hn =>
    have hlength : (toDecimalPadded 3 c.toNat).length = 3 := length_padded (by decide) (by omega)
    have hescape : stringPart '\\' (toDecimalPadded 3 c.toNat ++ z) = .ok (encode [c], 3) := by
      rw [encode_ascii hn]
      exact escape_padded (by omega) z
    rw [List.cons_append, List.length_cons, hlength, Nat.add_right_comm 3 1 m]
    refine stringBody_part (by decide) (by decide) hescape ?_
    rwa [List.drop_left' hlength]
  | self hquote hslash hfeed hreturn =>
    have hbreak : isBreak c = false := by simp [isBreak, hfeed, hreturn]
    have hpart : stringPart c z = .ok (encode [c], 0) := if_neg hslash
    have hbody := stringBody_part hquote hbreak hpart hr
    rwa [Nat.zero_add, Nat.add_comm m 1] at hbody

theorem stringBody_quote (cs z : List Char) :
    stringBody '"' (cs.flatMap Literal.quotedChar ++ '"' :: z) =
      .ok (encode cs, (cs.flatMap Literal.quotedChar).length + 1) := by
  induction cs with
  | nil =>
    rw [List.flatMap_nil, List.nil_append, stringBody_cons, if_pos rfl]
    rfl
  | cons c cs ih =>
    rw [List.flatMap_cons, List.append_assoc, stringBody_quotedChar c ih, List.length_append,
      ← encode_append, Nat.add_assoc]
    rfl

/-- A string is read as its bytes, whatever follows it. -/
theorem takes_quote (cs : List Char) : ∃ shown, ∀ z,
    Takes '"' (cs.flatMap Literal.quotedChar ++ ['"'] ++ z) (some (.str (encode cs) shown))
      (cs.flatMap Literal.quotedChar ++ ['"']).length := by
  refine ⟨encode ['"'] ++ encode cs ++ encode ['"'], fun z => ⟨fun l => ?_, rfl⟩⟩
  have hbody := stringBody_quote cs z
  have hat : tokenAt l '"' (cs.flatMap Literal.quotedChar ++ ['"'] ++ z) =
      (some (stringAt '"' (cs.flatMap Literal.quotedChar ++ ['"'] ++ z)).1,
        (stringAt '"' (cs.flatMap Literal.quotedChar ++ ['"'] ++ z)).2) := rfl
  have hlength : (cs.flatMap Literal.quotedChar ++ ['"']).length =
      (cs.flatMap Literal.quotedChar).length + 1 := List.length_append
  rw [hat, stringAt, List.append_assoc, List.singleton_append, hbody, hlength]

end EnvManifest.Script
