import EnvManifest.Proofs.Manifest.Expression
import EnvManifest.Proofs.Decimal.Figures

/-!
# Printed pieces, read again

Each piece that the printer writes is read as the tokens it stands for, whatever follows it, as long
as that does not go on with the piece.
-/

namespace EnvManifest

open Text Decimal

/-! ## Tokens of a text -/

/-- The tokens of a text that starts at a byte offset. -/
def tokensFrom (pos : Nat) (cs : List Char) : Except LexError (List Token) :=
  (lexemes pos cs).map (Lexeme.place pos)

theorem lex_eq (source : String) : lex source = tokensFrom 0 source.toList := rfl

theorem tokensFrom_nil (pos : Nat) : tokensFrom pos [] = .ok [⟨.eof, ⟨pos, pos⟩⟩] := by
  unfold tokensFrom
  rw [lexemes]
  rfl

theorem tokensFrom_gap {pos n : Nat} {c : Char} {cs : List Char} (hc : c ≠ '=')
    (h : lexemeAt pos c cs = .ok (none, n)) :
    tokensFrom pos (c :: cs) = tokensFrom (pos + byteLength (c :: cs.take n)) (cs.drop n) := by
  unfold tokensFrom
  rw [lexemes, if_neg hc, h]
  dsimp only
  cases lexemes (pos + byteLength (c :: cs.take n)) (cs.drop n) <;> rfl

theorem tokensFrom_token {pos n : Nat} {c : Char} {cs : List Char} {kind : TokenKind}
    (hc : c ≠ '=') (h : lexemeAt pos c cs = .ok (some kind, n)) :
    tokensFrom pos (c :: cs) =
      (tokensFrom (pos + byteLength (c :: cs.take n)) (cs.drop n)).map
        (⟨kind, ⟨pos, pos + byteLength (c :: cs.take n)⟩⟩ :: ·) := by
  unfold tokensFrom
  rw [lexemes, if_neg hc, h]
  dsimp only
  cases lexemes (pos + byteLength (c :: cs.take n)) (cs.drop n) <;> rfl

theorem tokensFrom_error {pos : Nat} {c : Char} {cs : List Char} {e : LexError}
    (hc : c ≠ '=') (h : lexemeAt pos c cs = .error e) : tokensFrom pos (c :: cs) = .error e := by
  unfold tokensFrom
  rw [lexemes, if_neg hc, h]
  rfl

/-! ## Identifiers -/

/-- Does a text not go on with an identifier or a number? -/
abbrev Apart (rest : List Char) : Prop := stops isIdentPart rest

/-- A whole identifier. -/
def isIdent : List Char → Bool
  | [] => false
  | c :: cs => isIdentStart c && cs.all isIdentPart

theorem isIdentStart_plain {c : Char} (h : isIdentStart c) :
    c ≠ '#' ∧ c ≠ '/' ∧ c ≠ '=' ∧ isBlank c = false := by
  refine ⟨?_, ?_, ?_, ?_⟩
  · rintro rfl; exact absurd h (by decide)
  · rintro rfl; exact absurd h (by decide)
  · rintro rfl; exact absurd h (by decide)
  · simp only [isIdentStart, Bool.or_eq_true, beq_iff_eq] at h
    rcases h with h | rfl
    · exact isBlank_of_visible (by have := toNat_of_isLetter h; omega)
    · decide

/-! ## What is read as known tokens -/

/-- A text is read as tokens of some kinds, and then what follows is read. -/
def Reads (text : List Char) (kinds : List TokenKind) (rest : List Char) : Prop :=
  ∀ pos, ∃ front pos', front.map Token.kind = kinds ∧
    tokensFrom pos (text ++ rest) = (tokensFrom pos' rest).map (front ++ ·)

namespace Reads

theorem nil (rest : List Char) : Reads [] [] rest := by
  intro pos
  refine ⟨[], pos, rfl, ?_⟩
  rw [List.nil_append]
  cases tokensFrom pos rest <;> rfl

theorem append {a b rest : List Char} {ks ls : List TokenKind} (ha : Reads a ks (b ++ rest))
    (hb : Reads b ls rest) : Reads (a ++ b) (ks ++ ls) rest := by
  intro pos
  obtain ⟨front, mid, hks, hfront⟩ := ha pos
  obtain ⟨back, pos', hls, hback⟩ := hb mid
  refine ⟨front ++ back, pos', by rw [List.map_append, hks, hls], ?_⟩
  rw [List.append_assoc, hfront, hback]
  cases tokensFrom pos' rest
  · rfl
  · simp [Except.map]

theorem gap {c : Char} {cs rest : List Char} (hc : c ≠ '=')
    (h : ∀ pos, lexemeAt pos c (cs ++ rest) = .ok (none, cs.length)) :
    Reads (c :: cs) [] rest := by
  intro pos
  refine ⟨[], pos + byteLength (c :: cs), rfl, ?_⟩
  rw [List.cons_append, tokensFrom_gap hc (h pos), List.take_left, List.drop_left]
  cases tokensFrom (pos + byteLength (c :: cs)) rest <;> rfl

theorem token {c : Char} {cs rest : List Char} {kind : TokenKind} (hc : c ≠ '=')
    (h : ∀ pos, lexemeAt pos c (cs ++ rest) = .ok (some kind, cs.length)) :
    Reads (c :: cs) [kind] rest := by
  intro pos
  refine ⟨[⟨kind, ⟨pos, pos + byteLength (c :: cs)⟩⟩], pos + byteLength (c :: cs), rfl, ?_⟩
  rw [List.cons_append, tokensFrom_token hc (h pos), List.take_left, List.drop_left]
  rfl

theorem space (rest : List Char) : Reads [' '] [] rest :=
  gap (by decide) fun _ => rfl

theorem lineFeed (rest : List Char) : Reads ['\n'] [] rest :=
  gap (by decide) fun _ => rfl

theorem symbol {c : Char} {kind : TokenKind} (h : symbol? c = some kind) (rest : List Char) :
    Reads [c] [kind] rest := by
  unfold symbol? at h
  split at h <;> cases h <;> exact token (by decide) fun _ => rfl

theorem ident {w rest : List Char} (hw : isIdent w) (hrest : Apart rest) :
    Reads w [.ident (String.ofList w)] rest := by
  cases w with
  | nil => exact absurd hw (by simp [isIdent])
  | cons c cs =>
    simp only [isIdent, Bool.and_eq_true, List.all_eq_true] at hw
    obtain ⟨hstart, hpart⟩ := hw
    obtain ⟨hhash, hslash, hassign, hblank⟩ := isIdentStart_plain hstart
    refine token hassign fun pos => ?_
    unfold lexemeAt
    rw [if_neg (by simp [hhash, hslash]), if_neg (by simp [hslash]), if_neg (by simp [hblank]),
      if_pos hstart, takeWhile_run hpart hrest]

theorem name {w : String} (h : isIdent w.toList) {rest : List Char} (hrest : Apart rest) :
    Reads w.toList [.ident w] rest := by
  have := ident h hrest
  rwa [String.ofList_toList] at this

theorem ok {text rest : List Char} {kinds : List TokenKind} (h : Reads text kinds rest)
    {pos : Nat} {ts : List Token} (hts : tokensFrom pos (text ++ rest) = .ok ts) :
    ∃ front after pos', ts = front ++ after ∧ front.map Token.kind = kinds ∧
      tokensFrom pos' rest = .ok after := by
  obtain ⟨front, pos', hkinds, htokens⟩ := h pos
  rw [htokens] at hts
  cases hrest : tokensFrom pos' rest with
  | error e =>
    rw [hrest] at hts
    cases hts
  | ok after =>
    rw [hrest] at hts
    cases hts
    exact ⟨front, after, pos', rfl, hkinds, hrest⟩

end Reads

/-! ## Strings -/

theorem stringBody_escape {quote : Char} (hq : quote ≠ '\\') {start pos : Nat} {v : Char}
    (es : List Char) {cs : List Char} (h : escape pos (es ++ cs) = .ok (v, es.length)) :
    stringBody quote start pos ('\\' :: es ++ cs) =
      (stringBody quote start (pos + 1 + byteLength es) cs).map
        fun r => (v :: r.1, ('\\' :: es).length + r.2) := by
  rw [List.cons_append, stringBody, if_neg (by decide), if_neg hq.symm, if_pos rfl, h]
  dsimp only
  rw [List.take_left, List.drop_left, List.length_cons, Nat.add_comm es.length]
  cases stringBody quote start (pos + 1 + byteLength es) cs <;> rfl

theorem stringBody_plain {quote : Char} {start pos : Nat} {c : Char} {cs : List Char}
    (hn : c ≠ '\n') (hq : c ≠ quote) (hb : c ≠ '\\') :
    stringBody quote start pos ([c] ++ cs) =
      (stringBody quote start (pos + c.utf8Size) cs).map fun r => (c :: r.1, [c].length + r.2) := by
  rw [List.singleton_append, stringBody, if_neg hn, if_neg hq, if_neg hb]
  cases stringBody quote start (pos + c.utf8Size) cs <;> rfl

theorem escape_numbered (pos : Nat) (c : Char) (rest : List Char) :
    escape pos (['u', '{'] ++ toHex c.toNat ++ ['}'] ++ rest) =
      .ok (c, (['u', '{'] ++ toHex c.toNat ++ ['}']).length) := by
  have hrun : (toHex c.toNat ++ '}' :: rest).takeWhile isHexDigit = toHex c.toNat :=
    takeWhile_run (fun d hd => isHexDigit_of_mem_toHex hd) (fun d hd => by cases hd; rfl)
  have hlen := length_toHex_le c
  have hne : (toHex c.toNat).length ≠ 0 := by simpa using toHex_ne_nil c.toNat
  simp only [List.cons_append, List.nil_append, List.append_assoc, escape, hrun, List.drop_left,
    ofHex_toHex, charOf?_toNat]
  rw [if_pos ⟨rfl, hne, hlen⟩]
  simp only [List.length_cons, List.length_append, List.length_nil]
  rw [show 3 + (toHex c.toNat).length = (toHex c.toNat).length + (0 + 1) + 1 + 1 by omega]

theorem stringBody_asciiChar (c : Char) (start pos : Nat) (rest : List Char) :
    ∃ pos', stringBody '"' start pos (asciiChar c ++ rest) =
      (stringBody '"' start pos' rest).map fun r => (c :: r.1, (asciiChar c).length + r.2) := by
  unfold asciiChar
  by_cases ht : c = '\t'
  · subst ht
    exact ⟨_, stringBody_escape (by decide) ['t'] rfl⟩
  by_cases hr : c = '\r'
  · subst hr
    exact ⟨_, stringBody_escape (by decide) ['r'] rfl⟩
  by_cases hn : c = '\n'
  · subst hn
    exact ⟨_, stringBody_escape (by decide) ['n'] rfl⟩
  by_cases ha : c = '\''
  · subst ha
    exact ⟨_, stringBody_escape (by decide) ['\''] rfl⟩
  by_cases hq : c = '"'
  · subst hq
    exact ⟨_, stringBody_escape (by decide) ['"'] rfl⟩
  by_cases hb : c = '\\'
  · subst hb
    exact ⟨_, stringBody_escape (by decide) ['\\'] rfl⟩
  rw [if_neg ht, if_neg hr, if_neg hn, if_neg ha, if_neg hq, if_neg hb]
  split
  · exact ⟨_, stringBody_plain hn hq hb⟩
  · exact ⟨_, stringBody_escape (by decide) (['u', '{'] ++ toHex c.toNat ++ ['}'])
      (escape_numbered pos c rest)⟩

theorem stringBody_asciiChars (cs : List Char) (start pos : Nat) (rest : List Char) :
    stringBody '"' start pos (cs.flatMap asciiChar ++ '"' :: rest) =
      .ok (cs, (cs.flatMap asciiChar).length + 1) := by
  induction cs generalizing pos with
  | nil =>
    rw [List.flatMap_nil, List.nil_append, stringBody, if_neg (by decide), if_pos rfl]
    rfl
  | cons c cs ih =>
    rw [List.flatMap_cons, List.append_assoc]
    obtain ⟨pos', hc⟩ := stringBody_asciiChar c start pos (cs.flatMap asciiChar ++ '"' :: rest)
    rw [hc, ih pos', List.length_append]
    simp [Except.map, Nat.add_assoc]

theorem Reads.str (value : String) (rest : List Char) :
    Reads (quotedAscii value.toList) [.str value] rest := by
  unfold quotedAscii
  rw [List.cons_append]
  refine Reads.token (by decide) fun pos => ?_
  rw [List.append_assoc, List.singleton_append]
  have hstart : startsNumber '"' (value.toList.flatMap asciiChar ++ '"' :: rest).head? = false := by
    simp [startsNumber, isDigit, isSign]
  unfold lexemeAt
  rw [if_neg (by simp), if_neg (by simp), if_neg (by decide), if_neg (by decide),
    if_neg (by rw [hstart]; decide), if_pos (.inl rfl), stringBody_asciiChars]
  simp

/-! ## Numbers -/

theorem dropSign_digit {c : Char} (hc : isDigit c) (cs : List Char) :
    dropSign (c :: cs) = c :: cs := by
  have hminus : c ≠ '-' := ne_of_isDigit hc (by decide)
  have hplus : c ≠ '+' := ne_of_isDigit hc (by decide)
  simp [dropSign, isSign, hminus, hplus]

theorem dropSign_signed {f : Figures} (hf : f.Valid) (negative : Bool) (rest : List Char) :
    dropSign (signed negative f.text ++ rest) = f.text ++ rest := by
  obtain ⟨c, cs, hc, htext⟩ := f.text_eq_cons hf
  unfold signed
  cases negative with
  | true => rfl
  | false => rw [if_neg (by decide), htext, List.cons_append, dropSign_digit hc]

theorem Apart.stops {rest : List Char} (h : Apart rest) {p : Char → Bool}
    (hp : ∀ c, p c → isIdentPart c) : Text.stops p rest := by
  intro c hc
  refine Bool.eq_false_iff.mpr fun hpc => ?_
  have := h c hc
  rw [hp c hpc] at this
  exact absurd this (by decide)

theorem isIdentPart_of_isDigitOrGap (c : Char) (h : isDigitOrGap c) : isIdentPart c := by
  simp only [isDigitOrGap, Bool.or_eq_true, beq_iff_eq] at h
  rcases h with h | rfl
  · simp [isIdentPart, isAlphanumeric, h]
  · rfl

theorem isDigitOrGap_of_isDigit {c : Char} (h : isDigit c) : isDigitOrGap c := by
  simp [isDigitOrGap, h]

theorem stops_power (f : Figures) {rest : List Char} (hrest : Apart rest) :
    Text.stops isDigitOrGap (f.powerText ++ rest) := by
  unfold Figures.powerText
  split
  · exact hrest.stops isIdentPart_of_isDigitOrGap
  · exact stops_cons (by decide) _

theorem dropPlaces_cons {c : Char} (hc : c ≠ '.') (cs : List Char) :
    dropPlaces (c :: cs) = c :: cs := by
  unfold dropPlaces
  split
  · rename_i heq
    exact absurd (List.cons.inj heq).1 hc
  · rfl

theorem dropPlaces_text {f : Figures} (hf : f.Valid) {rest : List Char} (hrest : Apart rest) :
    dropPlaces (f.placesText ++ (f.powerText ++ rest)) = f.powerText ++ rest := by
  unfold Figures.placesText
  cases hplaces : f.places with
  | none =>
    rw [List.nil_append]
    unfold Figures.powerText
    split
    · cases rest with
      | nil => rfl
      | cons c cs =>
        refine dropPlaces_cons ?_ cs
        rintro rfl
        exact absurd (hrest '.' rfl) (by decide)
    · exact dropPlaces_cons (by decide) _
  | some ds =>
    exact dropWhile_run (fun c hc => isDigitOrGap_of_isDigit (hf.places ds hplaces c hc))
      (stops_power f hrest)

theorem dropExponent_text {f : Figures} (hf : f.Valid) {rest : List Char} (hrest : Apart rest) :
    dropExponent (f.powerText ++ rest) = .ok rest := by
  unfold Figures.powerText
  cases hpower : f.power with
  | none =>
    rw [List.nil_append]
    cases rest with
    | nil => rfl
    | cons c cs =>
      rw [dropExponent, if_neg]
      rintro (rfl | rfl)
      · exact absurd (hrest 'e' rfl) (by decide)
      · exact absurd (hrest 'E' rfl) (by decide)
  | some p =>
    obtain ⟨negative, ds⟩ := p
    obtain ⟨hne, hds⟩ := hf.power negative ds hpower
    obtain ⟨d, ds, rfl⟩ := List.exists_cons_of_ne_nil hne
    have hsign : dropSign ((if negative then '-' :: d :: ds else d :: ds) ++ rest) =
        d :: ds ++ rest := by
      cases negative with
      | true => rfl
      | false => exact dropSign_digit (hds d (List.mem_cons_self ..)) _
    have hrun := dropWhile_run (fun c hc => isDigitOrGap_of_isDigit (hds c hc))
      (hrest.stops isIdentPart_of_isDigitOrGap)
    dsimp only
    rw [List.cons_append, dropExponent, if_pos (.inl rfl), hsign]
    dsimp only
    rw [hrun, if_pos (by simp [hds d (List.mem_cons_self ..)])]

theorem isHexMark_second {f : Figures} (hf : f.Valid) {rest : List Char} (hrest : Apart rest)
    {c x : Char} {ds : List Char} (h : f.text ++ rest = c :: x :: ds) : isHexMark x = false := by
  obtain ⟨d, cs, -, htext⟩ := f.text_eq_cons hf
  rw [htext, List.cons_append] at h
  cases cs with
  | nil =>
    obtain rfl : rest = x :: ds := (List.cons.inj h).2
    refine hrest.stops (fun y hy => ?_) x rfl
    simp only [isHexMark, Bool.or_eq_true, beq_iff_eq] at hy
    rcases hy with rfl | rfl <;> rfl
  | cons y ys =>
    obtain rfl : y = x := (List.cons.inj (List.cons.inj h).2).1
    rcases Figures.mem_text hf (c := y) (by simp [htext]) with hd | rfl | rfl | rfl
    · simp [isHexMark, ne_of_isDigit hd (show isDigit 'x' = false by decide),
        ne_of_isDigit hd (show isDigit 'X' = false by decide)]
    all_goals rfl

theorem isStray_of_apart {rest : List Char} (h : Apart rest) :
    rest.head?.any (fun c => isLetter c || c == '_') = false := by
  cases rest with
  | nil => rfl
  | cons c cs =>
    refine h.stops (p := fun d => isLetter d || d == '_') (fun d hd => ?_) c rfl
    rcases Bool.or_eq_true _ _ ▸ hd with hd | hd
    · simp [isIdentPart, isAlphanumeric, hd]
    · obtain rfl := beq_iff_eq.mp hd
      rfl

theorem dropNumber_signed {f : Figures} (hf : f.Valid) (negative : Bool) {rest : List Char}
    (hrest : Apart rest) : dropNumber (signed negative f.text ++ rest) = .ok rest := by
  have hdigits : dropExponent (dropPlaces ((f.text ++ rest).dropWhile isDigitOrGap)) = .ok rest := by
    have hstop : Text.stops isDigitOrGap (f.placesText ++ (f.powerText ++ rest)) := by
      cases hplaces : f.places with
      | none => simpa [Figures.placesText, hplaces] using stops_power f hrest
      | some ds =>
        unfold Figures.placesText
        rw [hplaces]
        exact stops_cons (by decide) _
    unfold Figures.text
    rw [List.append_assoc, List.append_assoc,
      dropWhile_run (fun c hc => isDigitOrGap_of_isDigit (hf.whole c hc)) hstop,
      dropPlaces_text hf hrest, dropExponent_text hf hrest]
  have hstray := isStray_of_apart hrest
  unfold dropNumber
  rw [dropSign_signed hf]
  dsimp only
  split
  · rename_i x ds heq
    rw [if_neg (by rw [isHexMark_second hf hrest heq]; decide), hdigits]
    exact if_neg (by rw [hstray]; decide)
  · rw [hdigits]
    exact if_neg (by rw [hstray]; decide)

theorem filter_text {f : Figures} (hf : f.Valid) : f.text.filter (· != '_') = f.text := by
  rw [List.filter_eq_self]
  intro c hc
  rcases Figures.mem_text hf hc with hd | rfl | rfl | rfl
  · exact bne_iff_ne.mpr (ne_of_isDigit hd (by decide))
  all_goals rfl

theorem numberText_signed {f : Figures} (hf : f.Valid) (negative : Bool) :
    numberText (signed negative f.text) = signed negative f.text := by
  have hdrop : dropSign (signed negative f.text) = f.text := by
    simpa using dropSign_signed hf negative []
  have hsign : (signed negative f.text).take ((signed negative f.text).length - f.text.length) ++
      f.text = signed negative f.text := by
    cases negative <;> simp [signed]
  unfold numberText
  rw [hdrop]
  dsimp only
  split
  · rename_i x ds heq
    have hx : isHexMark x = false :=
      isHexMark_second hf (stops_nil isIdentPart) (by rw [List.append_nil]; exact heq)
    rw [if_neg (by rw [hx]; decide), ← heq, filter_text hf, hsign]
  · rw [filter_text hf, hsign]

theorem isIdentStart_of_isDigit {c : Char} (h : isDigit c) : isIdentStart c = false := by
  refine Bool.eq_false_iff.mpr fun hstart => ?_
  simp only [isIdentStart, Bool.or_eq_true, beq_iff_eq] at hstart
  rcases hstart with hletter | rfl
  · have := toNat_of_isLetter hletter
    have := toNat_of_isDigit h
    omega
  · exact absurd h (by decide)

theorem lexemeAt_number {pos : Nat} {c : Char} {cs rest : List Char}
    (hc : isDigit c ∨ isSign c) (hstart : startsNumber c (cs ++ rest).head?)
    (hdrop : dropNumber (c :: (cs ++ rest)) = .ok rest) :
    lexemeAt pos c (cs ++ rest) =
      .ok (some (.number (String.ofList (numberText (c :: cs)))), cs.length) := by
  have hplain : c ≠ '#' ∧ c ≠ '/' ∧ isBlank c = false ∧ isIdentStart c = false := by
    rcases hc with hd | hs
    · exact ⟨ne_of_isDigit hd (by decide), ne_of_isDigit hd (by decide),
        isBlank_of_visible (by have := toNat_of_isDigit hd; omega), isIdentStart_of_isDigit hd⟩
    · obtain rfl | rfl : c = '-' ∨ c = '+' := by simpa [isSign] using hs
      all_goals decide
  obtain ⟨hhash, hslash, hblank, hident⟩ := hplain
  have hlen : (cs ++ rest).length - rest.length = cs.length := by simp
  unfold lexemeAt
  rw [if_neg (by simp [hhash, hslash]), if_neg (by simp [hslash]), if_neg (by simp [hblank]),
    if_neg (by simp [hident]), if_pos hstart, hdrop]
  dsimp only
  rw [hlen, List.take_left]

theorem Reads.number {f : Figures} (hf : f.Valid) (negative : Bool) {rest : List Char}
    (hrest : Apart rest) :
    Reads (signed negative f.text) [.number (String.ofList (signed negative f.text))] rest := by
  obtain ⟨d, ds, hd, htext⟩ := f.text_eq_cons hf
  have hdrop := dropNumber_signed hf negative hrest
  have hsame := numberText_signed hf negative
  cases negative with
  | true =>
    rw [show signed true f.text = '-' :: f.text from rfl] at hdrop hsame ⊢
    refine Reads.token (by decide) fun pos => ?_
    rw [lexemeAt_number (.inr rfl) _ hdrop, hsame]
    rw [htext]
    simp [startsNumber, isSign, hd]
  | false =>
    rw [show signed false f.text = d :: ds from htext] at hdrop hsame ⊢
    refine Reads.token (ne_of_isDigit hd (by decide)) fun pos => ?_
    rw [lexemeAt_number (.inl hd) _ hdrop, hsame]
    simp [startsNumber, hd]

/-! ## Expressions -/

theorem trimEnd_append (cs : List Char) : ∃ w, cs = trimEnd cs ++ w ∧ ∀ c ∈ w, isBlank c := by
  refine ⟨(cs.reverse.takeWhile isBlank).reverse, ?_, ?_⟩
  · unfold trimEnd
    rw [← List.reverse_append, List.takeWhile_append_dropWhile, List.reverse_reverse]
  · intro c hc
    exact List.all_eq_true.mp List.all_takeWhile c (List.mem_reverse.mp hc)

theorem dropBlankEnd_append (parts : List Segment) :
    ∃ blanks, parts = dropBlankEnd parts ++ blanks ∧ ∀ s ∈ blanks, s.isBlank := by
  refine ⟨(parts.reverse.takeWhile Segment.isBlank).reverse, ?_, ?_⟩
  · unfold dropBlankEnd
    rw [← List.reverse_append, List.takeWhile_append_dropWhile, List.reverse_reverse]
  · intro s hs
    exact List.all_eq_true.mp List.all_takeWhile s (List.mem_reverse.mp hs)

/-- The text of an expression: it is not empty, and no blanks stand at its ends. -/
structure IsSource (cs : List Char) : Prop where
  ne_nil : cs ≠ []
  head : stops isBlank cs
  last : trimEnd cs = cs

theorem stops_closedText {s : QuoteState} {cs : List Char} (h : stops isBlank cs)
    (rest : List Char) : stops isBlank (closedText s cs rest) := by
  cases cs with
  | nil => exact stops_cons (by decide) _
  | cons c cs =>
    by_cases hc : c = ';' ∧ s.isOpen
    · obtain ⟨rfl, ho⟩ := hc
      rw [closedText_escaped ho]
      exact stops_cons (by decide) _
    · rw [closedText_plain hc]
      exact stops_cons (h c rfl) _

/-- The tokens after `=`: the assignment, the expression and what follows it. -/
theorem tokensFrom_assign (pos : Nat) {body : List Char} (h : stops isBlank body) :
    tokensFrom pos ('=' :: ' ' :: body) =
      (segments (pos + 2) (pos + 2) 0 body).bind fun parts =>
        let written := (dropBlankEnd parts).flatMap (·.written)
        let length := (parts.flatMap (·.written)).length
        let stop := pos + 2 + byteLength written
        (lexemes (pos + 2 + byteLength (body.take length)) (body.drop length)).map fun more =>
          ⟨.assign, ⟨pos, pos + 1⟩⟩ ::
            ⟨.expr (String.ofList (trimEnd (parts.flatMap (·.meant)))), ⟨pos + 2, stop⟩⟩ ::
            Lexeme.place (stop + byteLength ((body.take length).drop written.length)) more := by
  have hblank : (' ' :: body).takeWhile isBlank = [' '] := by
    rw [List.takeWhile_cons_of_pos (by decide)]
    exact congrArg _ (takeWhile_run (List.forall_mem_nil _) h)
  unfold tokensFrom
  rw [lexemes, if_pos rfl, hblank]
  dsimp only
  rw [show (' ' :: body).drop [' '].length = body from rfl,
    show pos + 1 + byteLength [' '] = pos + 2 from rfl]
  cases segments (pos + 2) (pos + 2) 0 body with
  | error e => rfl
  | ok parts =>
    dsimp only [Except.bind]
    cases lexemes (pos + 2 + byteLength (body.take (parts.flatMap (·.written)).length))
        (body.drop (parts.flatMap (·.written)).length) with
    | error e => rfl
    | ok more => rfl

theorem tokensFrom_assign_ok {pos : Nat} {s : QuoteState} {src rest : List Char}
    {ts : List Token} (hsrc : stops isBlank src)
    (h : tokensFrom pos ('=' :: ' ' :: closedText s src rest) = .ok ts) :
    ∃ parts a e text after, segments (pos + 2) (pos + 2) 0 (closedText s src rest) = .ok parts ∧
      ts = a :: e :: after ∧ a.kind = .assign ∧ e.kind = .expr text ∧
      text.toList = trimEnd (parts.flatMap (·.meant)) := by
  rw [tokensFrom_assign pos (stops_closedText hsrc rest)] at h
  cases hparts : segments (pos + 2) (pos + 2) 0 (closedText s src rest) with
  | error e =>
    rw [hparts] at h
    cases h
  | ok parts =>
    rw [hparts] at h
    dsimp only [Except.bind] at h
    cases hmore : lexemes (pos + 2 + byteLength ((closedText s src rest).take
        (parts.flatMap (·.written)).length))
        ((closedText s src rest).drop (parts.flatMap (·.written)).length) with
    | error e =>
      rw [hmore] at h
      cases h
    | ok more =>
      rw [hmore] at h
      cases h
      exact ⟨parts, _, _, _, _, rfl, rfl, rfl, rfl, String.toList_ofList⟩

/-- An expression that reads back is read as itself, up to the `;` that closes it. -/
theorem Reads.expression {src : List Char} (hsrc : IsSource src) (h : readsBack {} 0 src)
    (rest : List Char) :
    Reads ('=' :: ' ' :: escapeSemicolons {} src) [.assign, .expr (String.ofList src)]
      (';' :: rest) := by
  intro pos
  obtain ⟨parts, hparts, hmeant, hwritten⟩ := segments_closedText h (pos + 2) (pos + 2) rest
  obtain ⟨blanks, hblanks, -⟩ := dropBlankEnd_append parts
  have hsplit : escapeSemicolons {} src =
      (dropBlankEnd parts).flatMap (·.written) ++ blanks.flatMap (·.written) := by
    rw [← hwritten, ← List.flatMap_append, ← hblanks]
  have hbody : escapeSemicolons {} src ++ ';' :: rest = closedText {} src rest := rfl
  rw [List.cons_append, List.cons_append, hbody,
    tokensFrom_assign pos (stops_closedText hsrc.head rest), hparts]
  dsimp only [Except.bind]
  rw [hwritten, hmeant, hsrc.last, ← hbody, List.take_left, List.drop_left]
  refine ⟨[⟨.assign, ⟨pos, pos + 1⟩⟩, ⟨.expr (String.ofList src), ⟨pos + 2,
    pos + 2 + byteLength ((dropBlankEnd parts).flatMap (·.written))⟩⟩],
    pos + 2 + byteLength (escapeSemicolons {} src), rfl, ?_⟩
  unfold tokensFrom
  rw [hsplit, List.drop_left, byteLength_append, ← Nat.add_assoc]
  cases lexemes _ (';' :: rest) <;> rfl

/-- An expression is read as itself only if it reads back. -/
theorem readsBack_of_segments_trimEnd {src rest : List Char} {start pos : Nat}
    {parts : List Segment} (h : segments start pos 0 (closedText {} src rest) = .ok parts)
    (hmeant : src = trimEnd (parts.flatMap (·.meant))) : readsBack {} 0 src := by
  obtain ⟨w, hw, hblank⟩ := trimEnd_append (parts.flatMap (·.meant))
  rw [← hmeant] at hw
  exact readsBack_of_segments hblank h hw

/-! ## What is read is well-formed -/

/-- The texts of identifiers and expressions are such texts. -/
def TokenKind.WellFormed : TokenKind → Prop
  | .ident name => isIdent name.toList
  | .expr text => text = "" ∨ IsSource text.toList
  | _ => True

theorem lexemeAt_wellFormed {pos n : Nat} {c : Char} {cs : List Char} {kind : TokenKind}
    (h : lexemeAt pos c cs = .ok (some kind, n)) : kind.WellFormed := by
  unfold lexemeAt at h
  split at h
  · cases h
  split at h
  · split at h <;> cases h
  split at h
  · cases h
  split at h
  · rename_i hstart
    cases h
    simp [TokenKind.WellFormed, isIdent, hstart]
  split at h
  · split at h <;> cases h
    trivial
  split at h
  · split at h <;> cases h
    trivial
  split at h
  · rename_i hsymbol
    cases h
    unfold symbol? at hsymbol
    split at hsymbol <;> cases hsymbol <;> trivial
  · cases h

theorem stops_trimEnd {cs : List Char} (h : stops isBlank cs) : stops isBlank (trimEnd cs) := by
  obtain ⟨w, hw, -⟩ := trimEnd_append cs
  intro c hc
  refine h c ?_
  rw [hw, List.head?_append, hc]
  rfl

theorem trimEnd_trimEnd (cs : List Char) : trimEnd (trimEnd cs) = trimEnd cs := by
  have h : stops isBlank (cs.reverse.dropWhile isBlank) := stops_dropWhile isBlank cs.reverse
  unfold trimEnd
  rw [List.reverse_reverse]
  exact congrArg _ (dropWhile_run (List.forall_mem_nil _) h)

theorem stops_meant {start pos : Nat} {body : List Char} {parts : List Segment}
    (hbody : stops isBlank body) (h : segments start pos 0 body = .ok parts) :
    stops isBlank (parts.flatMap (·.meant)) := by
  cases body with
  | nil =>
    rw [segments, if_pos rfl] at h
    cases h
    exact stops_nil _
  | cons c cs =>
    by_cases hend : endsAt 0 c
    · rw [segments_end hend] at h
      cases h
      exact stops_nil _
    · obtain ⟨n, part, more, hpart, -, rfl⟩ := segments_ok hend h
      have hhead : ∃ d ds, part = d :: ds ∧ isBlank d = false := by
        by_cases hb : c = '\\'
        · subst hb
          by_cases hsemi : cs.head? = some ';'
          · obtain ⟨ds, rfl⟩ := List.head?_eq_some_iff.mp hsemi
            rw [segmentAt_escaped] at hpart
            cases hpart
            exact ⟨';', [], rfl, by decide⟩
          · rw [segmentAt_backslash pos hsemi] at hpart
            cases hpart
            exact ⟨'\\', [], rfl, by decide⟩
        · obtain ⟨front, back, -, -, rfl⟩ := segmentAt_ok hb hpart
          exact ⟨c, front, rfl, hbody c rfl⟩
      obtain ⟨d, ds, rfl, hd⟩ := hhead
      exact stops_cons hd _

theorem isSource_of_segments {start pos : Nat} {body : List Char} {parts : List Segment}
    (hbody : stops isBlank body) (h : segments start pos 0 body = .ok parts) :
    (TokenKind.expr (String.ofList (trimEnd (parts.flatMap (·.meant))))).WellFormed := by
  have hhead := stops_trimEnd (stops_meant hbody h)
  have hlast := trimEnd_trimEnd (parts.flatMap (·.meant))
  by_cases hnil : trimEnd (parts.flatMap (·.meant)) = []
  · rw [hnil]
    exact .inl rfl
  · exact .inr (by rw [String.toList_ofList]; exact ⟨hnil, hhead, hlast⟩)

theorem lexemes_wellFormed {pos : Nat} {cs : List Char} {ls : List Lexeme}
    (h : lexemes pos cs = .ok ls) : ∀ l ∈ ls, ∀ kind, l.kind = some kind → kind.WellFormed := by
  fun_induction lexemes pos cs generalizing ls with
  | case1 => cases h; simp
  | case2 => cases h
  | case3 => cases h
  | case4 pos cs blanks body start parts hparts written meant length rest more hmore =>
    rename_i ih
    cases h
    have hbody : stops isBlank body := by
      simp only [body, blanks, drop_takeWhile]
      exact stops_dropWhile isBlank cs
    have hexpr := isSource_of_segments hbody hparts
    simp only [List.mem_cons]
    rintro l (rfl | rfl | rfl | rfl | hl) kind hkind
    · cases hkind; trivial
    · cases hkind
    · cases hkind; exact hexpr
    · cases hkind
    · exact ih hmore l hl kind hkind
  | case5 => cases h
  | case6 => cases h
  | case7 pos c cs hc found n hfound text more hmore =>
    rename_i ih
    cases h
    simp only [List.mem_cons]
    rintro l (rfl | hl) kind hkind
    · obtain rfl : found = some kind := hkind
      exact lexemeAt_wellFormed hfound
    · exact ih hmore l hl kind hkind

theorem place_wellFormed {pos : Nat} {ls : List Lexeme}
    (h : ∀ l ∈ ls, ∀ kind, l.kind = some kind → kind.WellFormed) :
    ∀ t ∈ Lexeme.place pos ls, t.kind.WellFormed := by
  induction ls generalizing pos with
  | nil =>
    intro t ht
    obtain rfl := List.mem_singleton.mp ht
    trivial
  | cons l ls ih =>
    have hmore : ∀ stop, ∀ t ∈ Lexeme.place stop ls, t.kind.WellFormed :=
      fun stop => ih fun m hm => h m (List.mem_cons_of_mem l hm)
    unfold Lexeme.place
    dsimp only
    split
    · exact hmore _
    · rename_i kind hkind
      simp only [List.mem_cons]
      rintro t (rfl | ht)
      · exact h l (List.mem_cons_self ..) kind hkind
      · exact hmore _ t ht

theorem lex_wellFormed {source : String} {ts : List Token} (h : lex source = .ok ts) :
    ∀ t ∈ ts, t.kind.WellFormed := by
  unfold lex at h
  cases hls : lexemes 0 source.toList with
  | error e =>
    rw [hls] at h
    cases h
  | ok ls =>
    rw [hls] at h
    cases h
    exact place_wellFormed (lexemes_wellFormed hls)

end EnvManifest
