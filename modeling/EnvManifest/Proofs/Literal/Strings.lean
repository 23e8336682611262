import EnvManifest.Proofs.Literal.Quoting
import EnvManifest.Proofs.Text.Utf8
import Mathlib.Data.List.Induction
import Mathlib.Data.List.TakeWhile

/-!
# String literals of both readers

A parameter is read here, and an expression is read by the engine. On string literals both come to
the same text, but for escapes that name a byte, and for ends of lines other than a line feed.
-/

namespace EnvManifest.Literal

open Text

/-! ## Escapes -/

/-- Does an escape after its backslash name a character below 128, if it names one by a byte? One in
braces must name some number. -/
def plainEscape : List Char → Bool
  | 'x' :: ds => ofHex ((ds.take 2).takeWhile isHexDigit) < 128
  | 'u' :: '\x7b' :: ds => ds.head? != some '\x7d'
  | c :: cs => !isDigit c || ofDecimal (((c :: cs).take 3).takeWhile isDigit) < 128
  | [] => true

/-- Are all escapes of a text plain? What stands right behind a backslash is never a backslash of its
own. -/
def plainEscapes : List Char → Bool
  | '\\' :: c :: cs => plainEscape (c :: cs) && plainEscapes cs
  | _ :: cs => plainEscapes cs
  | [] => true

theorem encode_byte {n : Nat} (h : n < 128) : encode [Char.ofNat n] = [UInt8.ofNat n] := by
  have hvalid : n.isValidChar := .inl (by omega)
  have hn : (Char.ofNat n).toNat = n := by
    have hofNat : Char.ofNat n = Char.ofNatAux n hvalid := dif_pos hvalid
    rw [hofNat]
    rfl
  have hascii : (Char.ofNat n).toNat ≤ 0x7F := by omega
  rw [Script.encode_ascii hascii, hn]

theorem ofHex_le_append (ds es : List Char) : ofHex ds ≤ ofHex (ds ++ es) := by
  induction es using List.reverseRecOn with
  | nil => exact Nat.le_of_eq (by rw [List.append_nil])
  | append_singleton es e ih =>
    rw [← List.append_assoc, ofHex_append]
    omega

theorem utf8EncodeChar_eq_encodeCode (c : Char) :
    String.utf8EncodeChar c = Script.encodeCode c.toNat := by
  have hvalid : c.toNat < 0xD800 ∨ 0xDFFF < c.toNat ∧ c.toNat < 0x110000 := c.valid
  have hv : c.val.toNat = c.toNat := rfl
  have hbyte : ∀ {m n : Nat}, m = n → UInt8.ofNat m = UInt8.ofNat n := fun h => congrArg _ h
  have hpow : Nat.pow 64 0 = 1 ∧ Nat.pow 64 1 = 64 ∧ Nat.pow 64 2 = 4096 := ⟨rfl, rfl, rfl⟩
  unfold Script.encodeCode String.utf8EncodeChar
  dsimp only
  rw [hv, hpow.1, hpow.2.1, hpow.2.2, Nat.div_one]
  by_cases h1 : c.toNat ≤ 0x7F
  · have h1' : c.toNat < 0x80 := by omega
    rw [if_pos h1, if_pos h1']
  have h1' : ¬ c.toNat < 0x80 := by omega
  rw [if_neg h1, if_neg h1']
  by_cases h2 : c.toNat ≤ 0x7FF
  · have h2' : c.toNat < 0x800 := by omega
    rw [if_pos h2, if_pos h2', hbyte (show c.toNat / 64 % 32 + 192 = 0xC0 + c.toNat / 64 by omega),
      hbyte (Nat.add_comm (c.toNat % 64) 128)]
  have h2' : ¬ c.toNat < 0x800 := by omega
  rw [if_neg h2, if_neg h2']
  by_cases h3 : c.toNat ≤ 0xFFFF
  · have h3' : c.toNat < 0x10000 := by omega
    rw [if_pos h3, if_pos h3',
      hbyte (show c.toNat / 4096 % 16 + 224 = 0xE0 + c.toNat / 0x1000 by omega),
      hbyte (Nat.add_comm (c.toNat / 64 % 64) 128), hbyte (Nat.add_comm (c.toNat % 64) 128)]
  have h3' : ¬ c.toNat < 0x10000 := by omega
  have h4 : c.toNat < 0x200000 := by omega
  rw [if_neg h3, if_neg h3', if_pos h4,
    hbyte (show c.toNat / 262144 % 8 + 240 = 0xF0 + c.toNat / 0x40000 by omega),
    hbyte (Nat.add_comm (c.toNat / 4096 % 64) 128), hbyte (Nat.add_comm (c.toNat / 64 % 64) 128),
    hbyte (Nat.add_comm (c.toNat % 64) 128)]

/-- A character has the same bytes by its number. -/
theorem encodeCode_toNat (c : Char) : Script.encodeCode c.toNat = encode [c] := by
  rw [encode_cons, ← utf8EncodeChar_eq_encodeCode]
  exact (List.append_nil _).symm

theorem charOf?_some {n : Nat} {c : Char} (h : charOf? n = some c) : n = c.toNat := by
  unfold charOf? at h
  by_cases hn : n.isValidChar
  · rw [dif_pos hn] at h
    obtain rfl := Option.some.inj h
    rfl
  · rw [dif_neg hn] at h
    cases h

/-- A character by its number in braces. -/
theorem unicodeEscape_char {ds : List Char} {c : Char}
    (hclose : (ds.drop (ds.takeWhile isHexDigit).length).head? = some '\x7d')
    (hc : charOf? (ofHex (ds.takeWhile isHexDigit)) = some c) (hne : ds.head? ≠ some '\x7d') :
    Script.unicodeEscape ('\x7b' :: ds) =
      .ok (encode [c], (ds.takeWhile isHexDigit).length + 3) := by
  have hvalue := charOf?_some hc
  have hvalid : c.toNat < 0xD800 ∨ 0xDFFF < c.toNat ∧ c.toNat < 0x110000 := c.valid
  have hdigits : ds.takeWhile isHexDigit ≠ [] := by
    intro hnil
    rw [hnil] at hclose
    exact hne hclose
  have hfits : ∀ k ∈ List.range ((ds.takeWhile isHexDigit).length + 1),
      (decide (ofHex ((ds.takeWhile isHexDigit).take k) ≤ 0x7FFFFFFF)) = true := by
    intro k _
    have hle := ofHex_le_append ((ds.takeWhile isHexDigit).take k) ((ds.takeWhile isHexDigit).drop k)
    rw [List.take_append_drop] at hle
    rw [decide_eq_true_eq]
    omega
  rw [Script.unicodeEscape_brace]
  dsimp only
  rw [List.takeWhile_eq_self_iff.2 hfits, List.length_range, if_neg (by simpa using hdigits),
    if_neg (by omega), if_pos hclose, hvalue, encodeCode_toNat]

/-- Characters that are not written by a number have the same escapes. -/
theorem simpleEscape_of_plain {c v : Char} (h : simpleEscape? c = some v) (hc : c ≠ '\n') :
    Script.isBreak c = false ∧ ∃ b, Script.simpleEscape? c = some b ∧ encode [v] = [b] := by
  unfold simpleEscape? at h
  split at h
  case h_11 => exact absurd rfl hc
  case h_12 => cases h
  all_goals
    obtain rfl := Option.some.inj h
    exact ⟨rfl, _, rfl, rfl⟩

section

variable {cs : List Char} {c v : Char} {n : Nat}

theorem escape_hex_of_plain (h : escape? ('x' :: cs) = some (v, n))
    (hp : ofHex ((cs.take 2).takeWhile isHexDigit) < 128) :
    Script.escape ('x' :: cs) = .ok (encode [v], n) := by
  have h : (if ((cs.take 2).takeWhile isHexDigit).length = 2 then
      some (Char.ofNat (ofHex ((cs.take 2).takeWhile isHexDigit)), 3) else none) =
      some (v, n) := h
  rw [Script.escape_hex]
  dsimp only
  split at h
  · rename_i hlength
    obtain ⟨rfl, rfl⟩ := Prod.mk.inj (Option.some.inj h)
    rw [if_pos hlength, encode_byte hp]
  · cases h

theorem escape_unicode_of_plain (h : escape? ('u' :: cs) = some (v, n))
    (hp : plainEscape ('u' :: cs)) : Script.escape ('u' :: cs) = .ok (encode [v], n) := by
  unfold escape? at h
  split at h
  · rename_i he
    cases he
  · rename_i ds he
    obtain ⟨-, rfl⟩ := List.cons.inj he
    have hp : ds.head? ≠ some '\x7d' := bne_iff_ne.1 hp
    dsimp only at h
    split at h
    · rename_i hclose
      obtain ⟨c, hc, hcn⟩ := Option.map_eq_some_iff.1 h
      obtain ⟨rfl, rfl⟩ := Prod.mk.inj hcn
      exact unicodeEscape_char hclose hc hp
    · cases h
  · rename_i he
    obtain ⟨rfl, rfl⟩ := List.cons.inj he
    cases h
  · cases h

theorem plainEscape_decimal (hd : isDigit c) (hp : plainEscape (c :: cs)) :
    ofDecimal (((c :: cs).take 3).takeWhile isDigit) < 128 := by
  unfold plainEscape at hp
  split at hp
  · rename_i he
    rw [(List.cons.inj he).1] at hd
    cases hd
  · rename_i he
    rw [(List.cons.inj he).1] at hd
    cases hd
  · rename_i he
    obtain ⟨rfl, rfl⟩ := List.cons.inj he
    simpa [hd] using hp
  · rename_i he
    cases he

/-- A character by its number in decimal digits. -/
theorem escape_decimal_of_plain (hd : isDigit c) (h : escape? (c :: cs) = some (v, n))
    (hp : plainEscape (c :: cs)) : Script.escape (c :: cs) = .ok (encode [v], n) := by
  have hx : c ≠ 'x' := ne_of_isDigit hd (by decide)
  have hz : c ≠ 'z' := ne_of_isDigit hd (by decide)
  have hu : c ≠ 'u' := ne_of_isDigit hd (by decide)
  have hsmall := plainEscape_decimal hd hp
  have hb : Script.isBreak c = false := by
    simp [Script.isBreak, ne_of_isDigit hd (d := '\n') (by decide),
      ne_of_isDigit hd (d := '\r') (by decide)]
  rw [escape?_other hx hu, if_pos hd] at h
  dsimp only at h
  rw [if_pos (by omega)] at h
  obtain ⟨rfl, rfl⟩ := Prod.mk.inj (Option.some.inj h)
  rw [Script.escape_other hx hz hu, hb, if_neg (by decide), if_pos hd]
  dsimp only
  rw [if_pos (by omega), encode_byte hsmall]

/-- A character that stands for one by itself, or the end of a line. -/
theorem escape_simple_of_plain (hd : ¬ isDigit c) (hx : c ≠ 'x') (hz : c ≠ 'z') (hu : c ≠ 'u')
    (h : escape? (c :: cs) = some (v, n)) (hr : '\r' ∉ c :: cs) :
    Script.escape (c :: cs) = .ok (encode [v], n) := by
  rw [escape?_other hx hu, if_neg hd] at h
  rw [Script.escape_other hx hz hu]
  obtain ⟨w, hw, hwn⟩ := Option.map_eq_some_iff.1 h
  obtain ⟨rfl, rfl⟩ := Prod.mk.inj hwn
  by_cases hfeed : c = '\n'
  · subst hfeed
    obtain rfl := Option.some.inj hw
    -- The engine takes two ends of lines for one, but only with a carriage return among them.
    have hpair : cs.head?.any (Script.isBreakPair '\n') = false := by
      cases cs with
      | nil => rfl
      | cons d cs =>
        simp only [List.mem_cons, not_or] at hr
        exact Patch.not_isBreakPair (by decide) (Ne.symm hr.2.1)
    rw [hpair]
    rfl
  · obtain ⟨hb, b, hbyte, hencode⟩ := simpleEscape_of_plain hw hfeed
    rw [hb, if_neg (by decide), if_neg hd, hbyte, hencode]

/-- Both readers take a plain escape for the same character. -/
theorem escape_of_plain (h : escape? cs = some (v, n)) (hp : plainEscape cs) (hr : '\r' ∉ cs) :
    Script.escape cs = .ok (encode [v], n) := by
  cases cs with
  | nil => cases h
  | cons c cs =>
    by_cases hx : c = 'x'
    · subst hx
      exact escape_hex_of_plain h (of_decide_eq_true hp)
    by_cases hu : c = 'u'
    · subst hu
      exact escape_unicode_of_plain h hp
    by_cases hd : isDigit c
    · exact escape_decimal_of_plain hd h hp
    -- The engine alone has `\z`, which skips spaces.
    have hz : c ≠ 'z' := by
      rintro rfl
      cases h
    exact escape_simple_of_plain hd hx hz hu h hr

end

/-! ## Strings in quotes -/

theorem plainEscapes_cons {c : Char} (hc : c ≠ '\\') (cs : List Char) :
    plainEscapes (c :: cs) = plainEscapes cs := by
  rw [plainEscapes.eq_def]
  split
  · rename_i h
    exact absurd (List.cons.inj h).1 hc
  · rename_i h
    rw [(List.cons.inj h).2]
  · rename_i h
    cases h

/-- What follows the characters of an escape is plain too. -/
theorem plainEscapes_drop {cs : List Char} {n : Nat} (h : plainEscapes cs)
    (hn : ∀ c ∈ cs.take n, Patch.isInner c) : plainEscapes (cs.drop n) := by
  induction n generalizing cs with
  | zero => exact h
  | succ n ih =>
    cases cs with
    | nil => exact h
    | cons c cs =>
      have hc := hn c (List.mem_cons_self ..)
      simp only [Patch.isInner, Bool.and_eq_true, bne_iff_ne, ne_eq] at hc
      rw [plainEscapes_cons hc.1.1] at h
      exact ih h fun d hd => hn d (List.mem_cons_of_mem c hd)

/-- An escape, and what follows it up to the quote. -/
theorem stringBody_of_escape {quote d v : Char} {cs rest : List Char} {n : Nat}
    (hquote : '\\' ≠ quote) (he : escape? (d :: cs) = some (v, n))
    (hrest : quoted? quote ((d :: cs).drop n) = some rest) (hr : '\r' ∉ d :: cs)
    (hp : plainEscapes ('\\' :: d :: cs))
    (ih : ∀ k < cs.length, quoted? quote (cs.drop k) = some rest → plainEscapes (cs.drop k) →
      Script.stringBody quote (cs.drop k) = .ok (encode rest, (cs.drop k).length)) :
    Script.stringBody quote ('\\' :: d :: cs) =
      .ok (encode (v :: rest), ('\\' :: d :: cs).length) := by
  obtain ⟨hplain, hmore⟩ : plainEscape (d :: cs) ∧ plainEscapes cs := by
    simpa only [plainEscapes, Bool.and_eq_true] using hp
  have hescape := escape_of_plain he hplain hr
  obtain ⟨hpos, hinner⟩ := Patch.escape_inner hr hescape
  obtain ⟨n, rfl⟩ := Nat.exists_eq_succ_of_ne_zero (Nat.pos_iff_ne_zero.1 hpos)
  rw [List.drop_succ_cons] at hrest
  have hle : n < cs.length := by
    refine Nat.lt_of_not_le fun hle => ?_
    rw [List.drop_eq_nil_of_le hle, quoted?] at hrest
    cases hrest
  have hbody := ih n hle hrest (plainEscapes_drop hmore hinner)
  have hall := Script.stringBody_part hquote rfl hescape
    (by rw [List.drop_succ_cons]; exact hbody)
  have hlength : n + 1 + (cs.drop n).length + 1 = ('\\' :: d :: cs).length := by
    simp only [List.length_drop, List.length_cons]
    omega
  rw [hall, hlength, ← encode_append]
  rfl

/-- **Both readers take a plain string in quotes for the same text.** -/
theorem stringBody_of_quoted {quote : Char} {cs body : List Char} (h : quoted? quote cs = some body)
    (hr : '\r' ∉ cs) (hp : plainEscapes cs) :
    Script.stringBody quote cs = .ok (encode body, cs.length) := by
  induction hn : cs.length using Nat.strongRecOn generalizing cs body with
  | _ _ ih =>
    subst hn
    cases cs with
    | nil =>
      rw [quoted?] at h
      cases h
    | cons c cs =>
      obtain ⟨hcr, hmore⟩ := not_or.1 (mt List.mem_cons.2 hr)
      rw [quoted?_cons] at h
      by_cases hc : c = quote
      · rw [if_pos hc] at h
        split at h
        · rename_i hempty
          obtain rfl := Option.some.inj h
          obtain rfl := List.isEmpty_iff.1 hempty
          rw [Script.stringBody_cons, if_pos hc]
          rfl
        · cases h
      rw [if_neg hc] at h
      split at h
      · cases h
      rename_i hfeed
      have hb : Script.isBreak c = false := by simp [Script.isBreak, hfeed, Ne.symm hcr]
      split at h
      · rename_i hback
        subst hback
        cases cs with
        | nil => cases h
        | cons d cs =>
          cases he : escape? (d :: cs) with
          | none =>
            rw [he] at h
            cases h
          | some p =>
            obtain ⟨v, n⟩ := p
            rw [he] at h
            obtain ⟨rest, hrest, rfl⟩ := Option.map_eq_some_iff.1 h
            apply stringBody_of_escape hc he hrest hmore hp
            intro k hk hrest hplain
            exact ih _ (by simp only [List.length_cons, List.length_drop]; omega) hrest
              (fun hm => hmore (List.mem_cons_of_mem d (List.mem_of_mem_drop hm))) hplain rfl
      · rename_i hback
        obtain ⟨rest, hrest, rfl⟩ := Option.map_eq_some_iff.1 h
        have hbody := ih _ (Nat.lt_succ_self _) hrest hmore (by rwa [plainEscapes_cons hback] at hp)
          rfl
        have hpart : Script.stringPart c cs = .ok (encode [c], 0) := if_neg hback
        have hall := Script.stringBody_part hc hb hpart (by rwa [List.drop_zero])
        rw [hall, Nat.zero_add, List.length_cons, ← encode_append]
        rfl

theorem takes_string {quote : Char} (hq : quote = '"' ∨ quote = '\'') {cs body : List Char}
    (h : Script.stringBody quote cs = .ok (encode body, cs.length)) :
    ∃ shown, Script.Takes quote cs (some (.str (encode body) shown)) cs.length := by
  refine ⟨encode [quote] ++ encode body ++ encode [quote], fun l => ?_, rfl⟩
  have hat : Script.tokenAt l quote cs =
      (some (Script.stringAt quote cs).1, (Script.stringAt quote cs).2) := by
    obtain rfl | rfl := hq <;> rfl
  rw [hat, Script.stringAt, h]

/-! ## Long strings -/

/-- Without carriage returns, ends of lines are what they are. -/
theorem plainBreaks_self {cs : List Char} (h : '\r' ∉ cs) : Script.plainBreaks cs = cs := by
  fun_induction Script.plainBreaks cs with
  | case1 => rfl
  | case2 c hc =>
    simp only [List.mem_singleton] at h
    simp only [Script.isBreak, Bool.or_eq_true, beq_iff_eq] at hc
    rw [hc.resolve_right (Ne.symm h)]
  | case3 => rfl
  | case4 c d cs hpair =>
    simp only [List.mem_cons, not_or] at h
    rw [Patch.not_isBreakPair (Ne.symm h.1) (Ne.symm h.2.1)] at hpair
    cases hpair
  | case5 c d cs hpair hc ih =>
    simp only [List.mem_cons, not_or] at h
    simp only [Script.isBreak, Bool.or_eq_true, beq_iff_eq] at hc
    rw [ih (by simpa using h.2), hc.resolve_right (Ne.symm h.1)]
  | case6 c d cs hpair hc ih =>
    simp only [List.mem_cons, not_or] at h
    rw [ih (by simpa using h.2)]

/-- Where the value has no carriage return, both readers see the same end of line at its start. -/
theorem plainBreaks_cases {cs : List Char} (h : '\r' ∉ dropFirstBreak cs) :
    Script.plainBreaks cs = '\n' :: dropFirstBreak cs ∨
      Script.plainBreaks cs = dropFirstBreak cs ∧ ∀ more, dropFirstBreak cs ≠ '\n' :: more := by
  unfold dropFirstBreak at h ⊢
  split at h
  · rename_i cs
    have hbreak : Script.plainBreaks ('\r' :: '\n' :: cs) = '\n' :: Script.plainBreaks cs := rfl
    rw [hbreak, plainBreaks_self h]
    exact .inl rfl
  · exact .inl (plainBreaks_self (by simpa using h))
  · rename_i hcrlf hlf
    exact .inr ⟨plainBreaks_self h, fun more hmore => hlf more hmore⟩

/-- The engine reads a long string up to the first closing bracket. -/
theorem takes_longString {cs : List Char} {level : Nat} {value : List Char}
    (hl : longLevel? cs = some level) (h : longString? cs = some value)
    (hclose : runThrough (longClose level) (cs.drop (level + 1)) =
      some (cs.drop (level + 1)).length) (hr : '\r' ∉ value) :
    ∃ shown, Script.Takes '[' cs (some (.str (encode value) shown)) cs.length := by
  have hlength : (longClose level).length = level + 2 := by simp [longClose]
  have hvalue : dropFirstBreak ((cs.drop (level + 1)).take
      ((cs.drop (level + 1)).length - (level + 2))) = value := by
    simp only [longString?, hl, Option.bind_eq_bind, Option.bind_some, hlength] at h
    split at h
    · exact Option.some.inj h
    · cases h
  have hle : level + 1 ≤ cs.length := by
    have hpos := Script.pos_of_runThrough hclose
    rw [List.length_drop] at hpos
    omega
  have hbreak := plainBreaks_cases (hvalue ▸ hr)
  rw [hvalue] at hbreak
  refine ⟨encode ('[' :: List.replicate level '=' ++ ['[']) ++ encode value ++
    encode (longClose level), fun l => ?_, rfl⟩
  have hat : Script.tokenAt l '[' cs =
      (some (Script.bracketAt l cs).1, (Script.bracketAt l cs).2) := rfl
  have hall : level + 1 + (cs.drop (level + 1)).length = cs.length := by
    rw [List.length_drop]
    omega
  rw [hat, Script.bracketAt, hl]
  dsimp only
  rw [Script.longStringAt, hclose]
  dsimp only
  rw [hall]
  obtain hbreak | ⟨hbreak, hne⟩ := hbreak
  · rw [hbreak]
    rfl
  · rw [hbreak]
    split
    · exact absurd rfl (hne _)
    · rfl

end EnvManifest.Literal
