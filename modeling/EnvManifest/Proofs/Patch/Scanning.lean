import EnvManifest.Proofs.Patch.Edits
import EnvManifest.Proofs.Patch.Scanner

/-!
# The scanner finds the tokens of a text

At a place of a text the scanner over bytes finds the piece that starts there, and takes no part of
the text that is not there. So it comes to the end of every text, with the tokens of it.
-/

namespace EnvManifest.Patch

open Text

/-! ## The same ends -/

section

variable {d : Char}

theorem ne_of_beyond {c : Char} (h : 0x7F < d.toNat) (hc : c.toNat ≤ 0x7F) : d ≠ c := by
  rintro rfl
  omega

theorem beq_beyond {c : Char} (h : 0x7F < d.toNat) (hc : c.toNat ≤ 0x7F) : (d == c) = false :=
  beq_eq_false_iff_ne.2 (ne_of_beyond h hc)

theorem isAlphanumeric_beyond (h : 0x7F < d.toNat) : isAlphanumeric d = false := by
  refine Bool.eq_false_iff.2 fun halpha => ?_
  obtain hletter | hdigit := Bool.or_eq_true _ _ ▸ halpha
  · have := toNat_of_isLetter hletter
    omega
  · have := toNat_of_isDigit hdigit
    omega

theorem isDigit_beyond (h : 0x7F < d.toNat) : isDigit d = false := by
  have halpha := isAlphanumeric_beyond h
  rw [isAlphanumeric, Bool.or_eq_false_iff] at halpha
  exact halpha.2

theorem isAsciiBlank_beyond (h : 0x7F < d.toNat) : isAsciiBlank d = false := by
  have hfeed : (d.toNat == 0x0C) = false := beq_eq_false_iff_ne.2 (by omega)
  rw [isAsciiBlank, beq_beyond h (by decide), beq_beyond h (by decide), beq_beyond h (by decide),
    beq_beyond h (by decide), hfeed]
  rfl

theorem isNamePart_beyond (h : 0x7F < d.toNat) : isNamePart d = false := by
  rw [isNamePart, isAlphanumeric_beyond h, beq_beyond h (by decide)]
  rfl

theorem isNameStart_beyond (h : 0x7F < d.toNat) : isNameStart d = false := by
  refine Bool.eq_false_iff.2 fun hstart => ?_
  exact absurd (isNamePart_of_isNameStart hstart) (by simp [isNamePart_beyond h])

theorem isX_beyond (d : Char) (h : 0x7F < d.toNat) : (d == 'x' || d == 'X') = false := by
  rw [beq_beyond h (by decide), beq_beyond h (by decide)]
  rfl

end

/-- Bytes behind ASCII neither end a string nor escape anything. -/
theorem quotedEnd_skip {bytes : List Char} {quote : Char} {i j : Nat} (hq : quote.toNat ≤ 0x7F)
    (hij : i ≤ j) (h : ∀ k, i ≤ k → k < j → ∃ d, bytes[k]? = some d ∧ 0x7F < d.toNat) :
    quotedEnd bytes quote i = quotedEnd bytes quote j := by
  induction hij using Nat.decreasingInduction with
  | self => rfl
  | of_succ k hk ih =>
    obtain ⟨d, hd, hbeyond⟩ := h k (Nat.le_refl k) hk
    rw [quotedEnd_at quote hd, if_neg (ne_of_beyond hbeyond (by decide)),
      if_neg (ne_of_beyond hbeyond hq), ih fun k' hk' => h k' (by omega)]

section

variable {source front cs : List Char}

theorem ne_backslash {c : Char} {cs : List Char} (hlast : c = '\\' → cs = [] → False)
    (hmore : ∀ d ds, c = '\\' → cs = d :: ds → False) : c ≠ '\\' := by
  rintro rfl
  cases cs with
  | nil => exact hlast rfl rfl
  | cons d ds => exact hmore d ds rfl rfl

/-- A backslash may leave the scanner inside a character. It is back at a place of the text before
anything can happen. -/
theorem quotedEnd_eq {quote : Char} (hq : quote.toNat ≤ 0x7F) (h : source = front ++ cs) :
    quotedEnd (octets source) quote (byteLength front) =
      byteLength front + byteLength (cs.take (stringRun quote cs)) := by
  fun_induction stringRun quote cs generalizing front with
  | case1 =>
    rw [quotedEnd_behind _ (by simp [h])]
    simp [h]
  | case2 =>
    have hslash : '\\'.utf8Size = 1 := rfl
    rw [quotedEnd_at _ (octet_ascii h (by decide)), if_pos rfl, quotedEnd_behind _ (by simp [h, hslash])]
    simp [h]
  | case3 d cs ih =>
    have hsize := d.utf8Size_pos
    have hafter : source = (front ++ ['\\']) ++ d :: cs := by simp [h]
    have hrest := @ih (front ++ ['\\', d]) (by simp [h])
    have hplace : byteLength (front ++ ['\\', d]) = byteLength (front ++ ['\\']) + d.utf8Size := by
      simp [Nat.add_assoc]
    have hslashed : byteLength (front ++ ['\\']) = byteLength front + 1 := byteLength_snoc (by decide) front
    have hskip : quotedEnd (octets source) quote (byteLength front + 2) =
        quotedEnd (octets source) quote (byteLength (front ++ ['\\', d])) :=
      quotedEnd_skip hq (by omega) fun k hk hkj => octet_beyond hafter (.inl (by omega)) (by omega)
    rw [quotedEnd_at _ (octet_ascii h (by decide)), if_pos rfl, hskip, hrest]
    simp [Nat.add_assoc]
  | case4 cs hlast hmore =>
    rw [quotedEnd_at _ (octet_ascii h hq), if_neg (ne_backslash hlast hmore), if_pos rfl]
    simp [utf8Size_ascii hq]
  | case5 c cs hlast hmore hc ih =>
    have hrest := @ih (front ++ [c]) (by simp [h])
    have hplace : byteLength (front ++ [c]) = byteLength front + c.utf8Size := by simp
    have hnext : quotedEnd (octets source) quote (byteLength front) =
        quotedEnd (octets source) quote (byteLength (front ++ [c])) := by
      by_cases hascii : c.toNat ≤ 0x7F
      · rw [quotedEnd_at _ (octet_ascii h hascii), if_neg (ne_backslash hlast hmore), if_neg hc, hplace,
          utf8Size_ascii hascii]
      · exact quotedEnd_skip hq (by omega) fun k hk hkj => octet_beyond h (.inr (by omega)) (by omega)
    rw [hnext, hrest]
    simp [Nat.add_assoc]

/-- What a byte of a number has to be. -/
def continuesNumber (hex : Bool) (previous b : Char) : Bool :=
  isAlphanumeric b || b == '.' || b == '_' || ((b == '+' || b == '-') && allowsSign hex previous)

theorem continuesNumber_beyond {hex : Bool} {previous d : Char} (h : 0x7F < d.toNat) :
    continuesNumber hex previous d = false := by
  rw [continuesNumber, isAlphanumeric_beyond h, beq_beyond h (by decide), beq_beyond h (by decide),
    beq_beyond h (by decide), beq_beyond h (by decide)]
  rfl

theorem marksExponent_and_not_isHexE (bytes : List Char) (start : Nat) (previous : Char) :
    (marksExponent previous && !isHexE bytes start previous) =
      allowsSign (bytes[start + 1]?.any fun b => b == 'x' || b == 'X') previous := by
  unfold marksExponent isHexE allowsSign
  generalize bytes[start + 1]?.any (fun b => b == 'x' || b == 'X') = hex
  by_cases he : previous = 'e' ∨ previous = 'E'
  · obtain rfl | rfl := he <;> cases hex <;> rfl
  · obtain ⟨he, hE⟩ := not_or.1 he
    simp [beq_eq_false_iff_ne.2 he, beq_eq_false_iff_ne.2 hE]

theorem numberEnd_eq {start : Nat} {p : Char} (hp : p.toNat ≤ 0x7F) (hstart : start ≤ byteLength front)
    (h : source = front ++ p :: cs) :
    numberEnd (octets source) start (byteLength front + 1) =
      byteLength front + 1 + byteLength (cs.take
        (numberRun ((octets source)[start + 1]?.any fun b => b == 'x' || b == 'X') p cs)) := by
  induction cs generalizing front p with
  | nil =>
    rw [numberEnd_behind _ (by simp [h, utf8Size_ascii hp])]
    simp
  | cons c cs ih =>
    have hafter : source = (front ++ [p]) ++ c :: cs := by simp [h]
    have hplace := byteLength_snoc hp front
    obtain ⟨b, hb, hbc⟩ := octet_at hafter
    rw [hplace] at hb
    have hprevious : (octets source)[byteLength front + 1 - 1]? = some p := octet_ascii h hp
    have hstep : numberEnd (octets source) start (byteLength front + 1) =
        if continuesNumber ((octets source)[start + 1]?.any fun b => b == 'x' || b == 'X') p b then
          numberEnd (octets source) start (byteLength front + 1 + 1)
        else byteLength front + 1 := by
      rw [numberEnd_at start hb hprevious, decide_eq_true (by omega), Bool.and_true, Bool.and_assoc,
        marksExponent_and_not_isHexE]
      rfl
    rw [hstep]
    change _ = byteLength front + 1 + byteLength ((c :: cs).take (if continuesNumber _ p c then _ else 0))
    obtain ⟨rfl, hc⟩ | ⟨hbeyond, hc⟩ := hbc
    · split
      · rw [← hplace, ih hc (by omega) hafter, List.take_succ_cons, byteLength_cons, utf8Size_ascii hc,
          Nat.add_assoc]
      · rfl
    · rw [continuesNumber_beyond hbeyond, continuesNumber_beyond hc]
      rfl

theorem wordEnd_eq (h : source = front ++ cs) :
    wordEnd (octets source) (byteLength front) =
      byteLength front + byteLength (cs.takeWhile isNamePart) := by
  induction cs generalizing front with
  | nil =>
    rw [wordEnd_behind (by simp [h])]
    rfl
  | cons c cs ih =>
    obtain ⟨b, hb, hbc⟩ := octet_at h
    rw [wordEnd_at hb, List.takeWhile_cons]
    obtain ⟨rfl, hc⟩ | ⟨hbeyond, hc⟩ := hbc
    · have hplace := byteLength_snoc hc front
      split
      · rw [← hplace, @ih (front ++ [b]) (by simp [h]), hplace, byteLength_cons, utf8Size_ascii hc,
          Nat.add_assoc]
      · rfl
    · rw [isNamePart_beyond hbeyond, isNamePart_beyond hc]
      rfl

end

theorem longLevel?_octets (cs : List Char) : longLevel? (octets cs) = longLevel? cs := by
  induction cs with
  | nil => rfl
  | cons c cs ih =>
    by_cases hc : c.toNat ≤ 0x7F
    · rw [octets_cons, octets_ascii hc, List.singleton_append, longLevel?_cons, longLevel?_cons, ih]
    · have hbeyond : 0x7F < c.toNat := Nat.lt_of_not_le hc
      obtain ⟨d, ds, hds⟩ : ∃ d ds, octets [c] = d :: ds := by
        refine List.exists_cons_of_length_pos ?_
        rw [length_octets]
        exact c.utf8Size_pos
      have hd : 0x7F < d.toNat := octets_beyond hbeyond d (hds ▸ List.mem_cons_self ..)
      rw [octets_cons, hds, List.cons_append, longLevel?_cons, longLevel?_cons,
        if_neg (ne_of_beyond hd (by decide)), if_neg (ne_of_beyond hd (by decide)),
        if_neg (ne_of_beyond hbeyond (by decide)), if_neg (ne_of_beyond hbeyond (by decide))]

theorem bracket?_eq (cs : List Char) : bracket? cs = Script.openingLevel? cs := by
  unfold bracket?
  split
  · exact longLevel?_octets _
  · rename_i hne
    unfold Script.openingLevel?
    split
    · exact absurd rfl (hne _)
    · rfl

/-- What stands behind the first `[` of a long bracket. -/
theorem eq_of_longLevel? {cs : List Char} {level : Nat} (h : longLevel? cs = some level) :
    cs = List.replicate level '=' ++ '[' :: cs.drop (level + 1) := by
  induction cs generalizing level with
  | nil => cases h
  | cons c cs ih =>
    rw [longLevel?_cons] at h
    split at h
    · obtain ⟨m, hm, rfl⟩ := Option.map_eq_some_iff.1 h
      rename_i hc
      rw [List.replicate_succ, List.cons_append, List.drop_succ_cons, ← ih hm, hc]
    · split at h
      · cases h
        rename_i hc
        rw [hc]
        rfl
      · cases h

/-- A part of it that goes on behind the second `[`. -/
theorem take_of_longLevel? {cs : List Char} {level : Nat} (h : longLevel? cs = some level) (n : Nat) :
    cs.take (level + 1 + n) =
      List.replicate level '=' ++ '[' :: (cs.drop (level + 1)).take n := by
  have hlength : level + 1 + n - level = n + 1 := by omega
  conv_lhs => rw [eq_of_longLevel? h]
  rw [List.take_append, List.length_replicate, hlength, List.take_succ_cons,
    List.take_of_length_le (by rw [List.length_replicate]; omega)]

theorem byteLength_replicate (n : Nat) : byteLength (List.replicate n '=') = n := by
  induction n with
  | zero => rfl
  | succ n ih =>
    rw [List.replicate_succ, byteLength_cons, ih, Nat.add_comm]
    rfl

section

variable {source front more : List Char} {level : Nat}

theorem longEnd?_eq (hl : longLevel? more = some level) (h : source = front ++ '[' :: more) :
    longEnd? source (byteLength front) level =
      some (byteLength front + byteLength ('[' :: more.take (longRun level more))) := by
  have hsize : '['.utf8Size = 1 := rfl
  obtain ⟨inner, hinner⟩ : ∃ inner, inner = more.drop (level + 1) := ⟨_, rfl⟩
  have hmore := eq_of_longLevel? hl
  rw [← hinner] at hmore
  have hsource : source = (front ++ '[' :: (List.replicate level '=' ++ ['['])) ++ inner := by
    simp [h, hmore]
  have hbody : byteLength (front ++ '[' :: (List.replicate level '=' ++ ['['])) =
      byteLength front + level + 2 := by
    simp only [byteLength_append, byteLength_cons, byteLength_nil, byteLength_replicate, hsize]
    omega
  have hfrom : from? source (byteLength front + level + 2) = some inner := by
    rw [← hbody, hsource, from?_front]
  have hoffset := offset?_runThrough (Script.longClose_ne_nil level) inner
  rw [longEnd?, hfrom, longRun, ← hinner]
  dsimp only [Option.map_some]
  cases hrun : runThrough (longClose level) inner with
  | none =>
    rw [hrun] at hoffset
    rw [Option.map_eq_none_iff.1 hoffset, List.take_length, h, byteLength_append]
  | some n =>
    rw [hrun] at hoffset
    obtain ⟨p, hp, hpn⟩ := Option.map_eq_some_iff.1 hoffset
    rw [hp, take_of_longLevel? hl, ← hinner]
    simp only [byteLength_append, byteLength_cons, byteLength_replicate, hsize, ← hpn]
    congr 1
    omega

theorem commentEnd?_eq (h : source = front ++ '-' :: '-' :: more) :
    commentEnd? source (byteLength front) ('-' :: '-' :: more) =
      some (byteLength front + byteLength ('-' :: ('-' :: more).take (commentRun ('-' :: more)))) := by
  have hsource : source = (front ++ ['-', '-']) ++ more := by simp [h]
  have hplace : byteLength (front ++ ['-', '-']) = byteLength front + 2 := byteLength_append ..
  have hfrom : from? source (byteLength front + 2) = some more := by
    rw [← hplace, hsource, from?_front]
  rw [commentEnd?, hfrom]
  dsimp only [Option.bind_some]
  rw [bracket?_eq]
  cases hl : Script.openingLevel? more with
  | some level =>
    obtain ⟨inner, rfl, hlevel⟩ := Script.openingLevel?_some hl
    dsimp only
    rw [← hplace, longEnd?_eq hlevel hsource, hplace, commentRun_bracket, hlevel]
    dsimp only
    rw [Nat.add_comm 2, List.take_succ_cons, List.take_succ_cons]
    have hdash : '-'.utf8Size = 1 := rfl
    simp only [byteLength_cons, hdash]
    congr 1
    omega
  | none =>
    have hline := offset?_line ('-' :: '-' :: more)
    rw [lineRun_cons, if_neg (by decide), List.take_succ_cons] at hline
    rw [commentRun_line hl, ← hline, h, byteLength_append]
    cases offset? ['\n'] ('-' :: '-' :: more) <;> rfl

end

theorem find?_pairs (c d : Char) (more : List Char) (ps : List (Char × Char)) :
    (ps.map fun p => [p.1, p.2]).find? (·.isPrefixOf (c :: d :: more)) =
      if ps.contains (c, d) then some [c, d] else none := by
  induction ps with
  | nil => rfl
  | cons p ps ih =>
    have hpair : [p.1, p.2].isPrefixOf (c :: d :: more) = (p == (c, d)) := by
      rw [Bool.eq_iff_iff, List.isPrefixOf_iff_prefix, beq_iff_eq, List.cons_prefix_cons,
        List.cons_prefix_cons, Prod.ext_iff]
      simp
    rw [List.map_cons, List.find?_cons, hpair, List.contains_cons, ih]
    by_cases hp : p = (c, d)
    · simp [hp]
    · rw [beq_eq_false_iff_ne.2 hp, beq_eq_false_iff_ne.2 (Ne.symm hp), Bool.false_or]

theorem symbolSize_eq (c : Char) (cs : List Char) :
    symbolSize (c :: cs) = byteLength (c :: cs.take (symbolRun c cs)) := by
  have hsymbols : symbols = ['.', '.', '.'] :: doubled.map fun p => [p.1, p.2] := rfl
  have hlong : ∀ symbol ∈ symbols, 2 ≤ symbol.length := by decide
  cases cs with
  | nil =>
    have hnone : symbols.find? (·.isPrefixOf [c]) = none := by
      rw [List.find?_eq_none]
      intro symbol hsymbol hpre
      have := (List.isPrefixOf_iff_prefix.1 hpre).length_le
      have := hlong symbol hsymbol
      simp only [List.length_cons, List.length_nil] at *
      omega
    rw [symbolSize, hnone]
    rfl
  | cons d more =>
    have hdots : ['.', '.', '.'].isPrefixOf (c :: d :: more) =
        decide (c = '.' ∧ d = '.' ∧ more.head? = some '.') := by
      rw [Bool.eq_iff_iff, List.isPrefixOf_iff_prefix, decide_eq_true_iff, List.cons_prefix_cons,
        List.cons_prefix_cons, List.head?_eq_some_iff]
      constructor
      · rintro ⟨rfl, rfl, rest, rfl⟩
        exact ⟨rfl, rfl, rest, rfl⟩
      · rintro ⟨rfl, rfl, rest, rfl⟩
        exact ⟨rfl, rfl, rest, rfl⟩
    rw [symbolSize, hsymbols, List.find?_cons, hdots, find?_pairs, symbolRun]
    by_cases h : c = '.' ∧ d = '.' ∧ more.head? = some '.'
    · obtain ⟨rfl, rfl, hmore⟩ := h
      obtain ⟨rest, rfl⟩ := List.head?_eq_some_iff.1 hmore
      rfl
    · rw [decide_eq_false h, if_neg h]
      cases doubled.contains (c, d) <;> rfl

section

variable {source front cs : List Char} {c : Char}

/-- The byte behind an ASCII character, as far as a test for ASCII characters sees it. -/
theorem any_next {p : Char → Bool} (hp : ∀ d, 0x7F < d.toNat → p d = false) (hc : c.toNat ≤ 0x7F)
    (h : source = front ++ c :: cs) : (octets source)[byteLength front + 1]?.any p = cs.head?.any p := by
  have hplace := byteLength_snoc hc front
  cases cs with
  | nil =>
    rw [List.getElem?_eq_none (by rw [length_octets, h, hplace])]
    rfl
  | cons d cs =>
    obtain ⟨b, hb, hbd⟩ := octet_at (show source = (front ++ [c]) ++ d :: cs by simp [h])
    rw [← hplace, hb]
    obtain ⟨rfl, -⟩ | ⟨hbeyond, hd⟩ := hbd
    · rfl
    · simp [hp b hbeyond, hp d hd]

/-- The long bracket at a place is the same by its bytes. -/
theorem bracket?_cons : (if c = '[' then bracket? (c :: cs) else none) =
    if c = '[' then longLevel? cs else none := by
  split
  · subst c
    exact bracket?_eq _
  · rfl

/-- At a place of the text the scanner has the rest of it. -/
theorem step?_at {b : Char} (h : source = front ++ c :: cs)
    (hb : (octets source)[byteLength front]? = some b) :
    step? source (byteLength front) =
      if isAsciiBlank b then some (none, byteLength front + 1)
      else if ['-', '-'].isPrefixOf (c :: cs) then
        (commentEnd? source (byteLength front) (c :: cs)).map (none, ·)
      else
        match if b = '[' then bracket? (c :: cs) else none with
        | some level => (longEnd? source (byteLength front) level).map (some .str, ·)
        | none =>
          if b = '"' ∨ b = '\'' then
            some (some .str, quotedEnd (octets source) b (byteLength front + 1))
          else if isDigit b || (b == '.' && (octets source)[byteLength front + 1]?.any isDigit) then
            some (some .number, numberEnd (octets source) (byteLength front) (byteLength front))
          else if isNameStart b then some (some .name, wordEnd (octets source) (byteLength front))
          else some (some .punct, byteLength front + symbolSize (c :: cs)) := by
  have hfrom : from? source (byteLength front) = some (c :: cs) := by rw [h, from?_front]
  rw [step?, hb, hfrom]
  rfl

/-- What is not ASCII is a symbol of its own, by its first byte as by itself. -/
theorem step?_beyond {kind : Option Kind} {n : Nat} {b : Char} (hp : pieceAt c cs = (kind, n))
    (h : source = front ++ c :: cs) (hb : (octets source)[byteLength front]? = some b)
    (hbeyond : 0x7F < b.toNat) (hc : 0x7F < c.toNat) :
    step? source (byteLength front) = some (kind, byteLength front + byteLength (c :: cs.take n)) := by
  unfold pieceAt at hp
  rw [step?_at h hb]
  have hquote : ∀ {d : Char}, 0x7F < d.toNat → ¬(d = '"' ∨ d = '\'') := fun hd =>
    not_or.2 ⟨ne_of_beyond hd (by decide), ne_of_beyond hd (by decide)⟩
  have hprefix : ¬['-', '-'].isPrefixOf (c :: cs) := by
    rw [List.isPrefixOf_iff_prefix, List.cons_prefix_cons]
    exact fun hdash => ne_of_beyond hc (by decide) hdash.1.symm
  rw [if_neg (by simp [isAsciiBlank_beyond hc]), if_neg fun hdash => ne_of_beyond hc (by decide) hdash.1,
    if_neg (hquote hc), if_neg (by simp [isDigit_beyond hc, ne_of_beyond hc]),
    if_neg (by simp [isNameStart_beyond hc]), if_neg (ne_of_beyond hc (by decide))] at hp
  obtain ⟨rfl, rfl⟩ := Prod.mk.inj hp
  rw [if_neg (by simp [isAsciiBlank_beyond hbeyond]), if_neg hprefix, if_neg (ne_of_beyond hbeyond (by decide))]
  dsimp only
  rw [if_neg (hquote hbeyond), if_neg (by simp [isDigit_beyond hbeyond, ne_of_beyond hbeyond]),
    if_neg (by simp [isNameStart_beyond hbeyond]), symbolSize_eq]

theorem step?_ascii {kind : Option Kind} {n : Nat} (hp : pieceAt c cs = (kind, n))
    (h : source = front ++ c :: cs) (hc : c.toNat ≤ 0x7F) :
    step? source (byteLength front) = some (kind, byteLength front + byteLength (c :: cs.take n)) := by
  have hb := octet_ascii h hc
  unfold pieceAt at hp
  rw [step?_at h hb]
  have hsize := utf8Size_ascii hc
  have hafter : source = (front ++ [c]) ++ cs := by simp [h]
  have hplace := byteLength_snoc hc front
  by_cases hblank : isAsciiBlank c
  · rw [if_pos hblank] at hp ⊢
    obtain ⟨rfl, rfl⟩ := Prod.mk.inj hp
    rw [List.take_zero, byteLength_cons, hsize]
    rfl
  rw [if_neg hblank] at hp ⊢
  by_cases hdash : c = '-' ∧ cs.head? = some '-'
  · rw [if_pos hdash] at hp
    obtain ⟨rfl, rfl⟩ := Prod.mk.inj hp
    obtain ⟨rfl, hhead⟩ := hdash
    obtain ⟨more, rfl⟩ := List.head?_eq_some_iff.1 hhead
    have hprefix : ['-', '-'].isPrefixOf ('-' :: '-' :: more) := rfl
    rw [if_pos hprefix, commentEnd?_eq h]
    rfl
  have hprefix : ¬['-', '-'].isPrefixOf (c :: cs) := by
    rw [List.isPrefixOf_iff_prefix, List.cons_prefix_cons]
    rintro ⟨rfl, rest, rfl⟩
    exact hdash ⟨rfl, rfl⟩
  rw [if_neg hdash] at hp
  rw [if_neg hprefix, bracket?_cons]
  cases hl : (if c = '[' then longLevel? cs else none) with
  | some level =>
    rw [hl] at hp
    obtain ⟨rfl, hl⟩ : c = '[' ∧ longLevel? cs = some level := by
      split at hl
      · exact ⟨‹_›, hl⟩
      · cases hl
    have hdigit : ¬(isDigit '[' || ('[' == '.' && cs.head?.any isDigit)) := by
      simp [show isDigit '[' = false from rfl]
    rw [if_neg (by decide), if_neg hdigit, if_neg (by decide)] at hp
    obtain ⟨rfl, rfl⟩ := Prod.mk.inj hp
    dsimp only
    rw [longEnd?_eq hl h]
    rfl
  | none =>
    rw [hl] at hp
    dsimp only at hp ⊢
    by_cases hquote : c = '"' ∨ c = '\''
    · rw [if_pos hquote] at hp ⊢
      obtain ⟨rfl, rfl⟩ := Prod.mk.inj hp
      rw [← hplace, quotedEnd_eq hc hafter, hplace, byteLength_cons, hsize, Nat.add_assoc]
    rw [if_neg hquote] at hp ⊢
    rw [any_next (fun d hd => isDigit_beyond hd) hc h]
    by_cases hdigit : isDigit c || (c == '.' && cs.head?.any isDigit)
    · rw [if_pos hdigit] at hp ⊢
      obtain ⟨rfl, rfl⟩ := Prod.mk.inj hp
      rw [numberEnd_first _ hb hdigit, numberEnd_eq hc (Nat.le_refl _) h, any_next isX_beyond hc h,
        byteLength_cons, hsize, Nat.add_assoc]
    rw [if_neg hdigit] at hp ⊢
    by_cases hname : isNameStart c
    · rw [if_pos hname] at hp ⊢
      obtain ⟨rfl, rfl⟩ := Prod.mk.inj hp
      rw [wordEnd_eq h, List.takeWhile_cons, if_pos (isNamePart_of_isNameStart hname),
        ← List.prefix_iff_eq_take.1 (List.takeWhile_prefix isNamePart)]
    rw [if_neg hname] at hp ⊢
    obtain ⟨rfl, rfl⟩ := Prod.mk.inj hp
    rw [symbolSize_eq]

/-- **At a place of the text the scanner takes no part that is not there, and finds the same piece.** -/
theorem step?_eq {kind : Option Kind} {n : Nat} (hp : pieceAt c cs = (kind, n))
    (h : source = front ++ c :: cs) :
    step? source (byteLength front) = some (kind, byteLength front + byteLength (c :: cs.take n)) := by
  obtain ⟨b, hb, ⟨-, hc⟩ | ⟨hbeyond, hc⟩⟩ := octet_at h
  · exact step?_ascii hp h hc
  · exact step?_beyond hp h hb hbeyond hc

end

/-! ## The same tokens -/

/-- Tokens with the offsets that they have behind a text of some length. -/
def located (place : Nat) : List Token → List Placed
  | [] => []
  | t :: ts =>
    let start := place + byteLength t.gap
    let stop := start + byteLength t.text
    ⟨t.kind, t.text, start, stop⟩ :: located stop ts

section

variable {source : List Char} {i j : Nat}

theorem lt_of_step?_some {kind : Option Kind} (h : step? source i = some (kind, j)) :
    i < byteLength source := by
  obtain ⟨b, hb, -⟩ := Option.bind_eq_some_iff.1 h
  rw [← length_octets]
  exact (List.getElem?_eq_some_iff.1 hb).1

theorem scan_gap (h : step? source i = some (none, j)) : scan source i = scan source j := by
  rw [scan, if_pos (lt_of_step?_some h)]
  split <;> simp_all

theorem scan_token {kind : Kind} (h : step? source i = some (some kind, j)) :
    scan source i =
      (between? source i j).bind fun text => (scan source j).map (⟨kind, text, i, j⟩ :: ·) := by
  rw [scan, if_pos (lt_of_step?_some h)]
  split <;> simp_all

theorem scan_end (h : byteLength source ≤ i) : scan source i = some [] := by
  rw [scan, if_neg (Nat.not_lt.2 h)]

/-- From a place behind a gap the scanner finds the tokens of the rest. The first of them has the
gap before it. -/
theorem scan_attach {before gap cs : List Char} (h : source = before ++ gap ++ cs) :
    scan source (byteLength before + byteLength gap) =
      some (located (byteLength before) (attach gap (pieces cs)).1) := by
  fun_induction pieces cs generalizing before gap with
  | case1 =>
    rw [scan_end (by simp [h])]
    rfl
  | case2 c cs kind n hpiece ih =>
    have hstep := step?_eq hpiece h
    rw [byteLength_append] at hstep
    have hrest : source = before ++ gap ++ (c :: cs.take n) ++ cs.drop n := by simp [h]
    cases kind with
    | none =>
      have hnext := @ih before (gap ++ c :: cs.take n) (by rw [hrest, List.append_assoc before])
      rw [byteLength_append, ← Nat.add_assoc] at hnext
      rw [scan_gap hstep, hnext]
      rfl
    | some kind =>
      have hnext := @ih (before ++ gap ++ c :: cs.take n) [] (by rw [hrest, List.append_nil])
      have hown := between?_own (before ++ gap) (c :: cs.take n) (cs.drop n)
      rw [← List.append_assoc, ← hrest] at hown
      simp only [byteLength_append] at hnext hown
      rw [scan_token hstep, hown]
      dsimp only [Option.bind_some]
      rw [byteLength_nil, Nat.add_zero] at hnext
      rw [hnext]
      rfl

/-- **On every text the scanner comes to the end, and finds its tokens where they stand.** -/
theorem scan_eq (source : List Char) : scan source 0 = some (located 0 (tokenize source).1) :=
  scan_attach (show source = [] ++ [] ++ source from rfl)

end

end EnvManifest.Patch
