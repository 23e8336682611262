import EnvManifest.Patch.Token
import EnvManifest.Proofs.Script.Numerals

/-!
# Tokens and what follows them

A token of a program stays the same whatever follows it, as long as that starts alike, or an operand
comes where a name came. So the text of a program can be read piece by piece.
-/

namespace EnvManifest.Script

open Text

/-! ## Words -/

/-- Does a word go on with the character? -/
def isWordPart (c : Char) : Bool := isAlphanumeric c || c == '_'

theorem isWordPart_of_startsWord {c : Char} (h : startsWord c) : isWordPart c := by
  simp only [startsWord, Bool.or_eq_true] at h
  simp only [isWordPart, isAlphanumeric, Bool.or_eq_true]
  exact h.imp_left .inl

theorem word_stops {t : Option Token} {x y : List Char} (hf : Follows t x y)
    (hx : stops isWordPart x) : stops isWordPart y :=
  hf.stops (fun _ => isWordPart_of_startsWord) hx

/-- The token of a word. -/
def wordToken (cs : List Char) : Token :=
  if keywords.contains (String.ofList cs) then .mark (String.ofList cs) else .name (String.ofList cs)

theorem not_isSpace_of_visible {c : Char} (h : 0x21 ≤ c.toNat) : Number.isSpace c = false := by
  have hc : c ≠ ' ' := by
    rintro rfl
    revert h
    decide
  simp only [Number.isSpace, Bool.or_eq_false_iff, beq_eq_false_iff_ne, Bool.and_eq_false_iff,
    decide_eq_false_iff_not]
  exact ⟨hc, .inr (by omega)⟩

theorem ne_of_startsWord {c d : Char} (h : startsWord c) (hd : startsWord d = false) :
    c ≠ d := by
  rintro rfl
  rw [h] at hd
  cases hd

theorem not_isDigit_of_startsWord {c : Char} (h : startsWord c) : isDigit c = false := by
  refine Bool.eq_false_iff.2 fun hd => ?_
  have hd := toNat_of_isDigit hd
  simp only [startsWord, Bool.or_eq_true, beq_iff_eq] at h
  obtain h | rfl := h
  · have := toNat_of_isLetter h
    omega
  · revert hd
    decide

theorem visible_of_startsWord {c : Char} (h : startsWord c) : 0x21 ≤ c.toNat := by
  simp only [startsWord, Bool.or_eq_true, beq_iff_eq] at h
  obtain h | rfl := h
  · have := toNat_of_isLetter h
    omega
  · decide

theorem not_isBreak_of_visible {c : Char} (h : 0x21 ≤ c.toNat) : isBreak c = false := by
  refine Bool.eq_false_iff.2 fun hc => ?_
  simp only [isBreak, Bool.or_eq_true, beq_iff_eq] at hc
  obtain rfl | rfl := hc <;> revert h <;> decide

theorem tokenAt_word {c : Char} (h : startsWord c) (l : Nat) (cs : List Char) :
    tokenAt l c cs =
      (some (wordToken (c :: cs.takeWhile isWordPart)), (cs.takeWhile isWordPart).length) := by
  have hvisible := visible_of_startsWord h
  have hne : ∀ d, startsWord d = false → c ≠ d := fun d hd => ne_of_startsWord h hd
  unfold tokenAt
  dsimp only
  rw [if_neg (by simp [not_isBreak_of_visible hvisible]),
    if_neg (by simp [not_isSpace_of_visible hvisible]), if_neg (fun hm => hne '-' rfl hm.1),
    if_neg (hne '[' rfl), if_neg (not_or.2 ⟨hne '"' rfl, hne '\'' rfl⟩),
    if_neg (by simp [not_isDigit_of_startsWord h, hne '.' rfl])]
  exact if_pos h

/-! ## Symbols -/

open Patch (symbolRun doubled)

theorem symbolRun_le (c : Char) (cs : List Char) : symbolRun c cs ≤ cs.length := by
  unfold symbolRun
  split
  · exact Nat.le_refl 0
  · rename_i d more
    split
    · rename_i h
      cases more with
      | nil => simp at h
      | cons e more => simp
    · split <;> simp

theorem doubled_symbols : ["..", "==", "~=", "<=", ">=", "<<", ">>", "//", "::"].Perm
    (doubled.map fun p => String.ofList [p.1, p.2]) := by
  decide

theorem contains_doubled (c d : Char) :
    ["..", "==", "~=", "<=", ">=", "<<", ">>", "//", "::"].contains (String.ofList [c, d]) =
      doubled.contains (c, d) := by
  rw [Bool.eq_iff_iff, List.contains_iff_mem, List.contains_iff_mem, doubled_symbols.mem_iff,
    List.mem_map]
  constructor
  · rintro ⟨⟨a, b⟩, hp, he⟩
    obtain ⟨rfl, rfl⟩ : a = c ∧ b = d := by simpa using String.ofList_injective he
    exact hp
  · exact fun h => ⟨(c, d), h, rfl⟩

theorem three_points (c d : Char) (more : List Char) :
    String.ofList (c :: (d :: more).take 2) = "..." ↔ c = '.' ∧ d = '.' ∧ more.head? = some '.' := by
  have hthree : ("..." : String) = String.ofList ['.', '.', '.'] := rfl
  rw [hthree]
  refine ⟨fun h => ?_, ?_⟩
  · have h := String.ofList_injective h
    cases more with
    | nil => simp at h
    | cons e more => simpa using h
  · rintro ⟨rfl, rfl, h⟩
    obtain ⟨_, rfl⟩ := List.head?_eq_some_iff.1 h
    rfl

/-- The longest symbol has the characters that a rewriter gives it. -/
theorem symbolAt_eq (c : Char) (cs : List Char) :
    symbolAt c cs =
      if symbolRun c cs = 0 then shownSymbol c
      else String.ofList (c :: cs.take (symbolRun c cs)) := by
  unfold symbolAt
  dsimp only
  cases cs with
  | nil =>
    have hone : ["..", "==", "~=", "<=", ">=", "<<", ">>", "//", "::"].contains
        (String.ofList [c]) = false := by
      rw [Bool.eq_false_iff, ne_eq, List.contains_iff_mem, doubled_symbols.mem_iff, List.mem_map]
      rintro ⟨p, -, he⟩
      simpa using String.ofList_injective he
    have hthree : String.ofList [c] ≠ "..." := by
      have hthree : ("..." : String) = String.ofList ['.', '.', '.'] := rfl
      rw [hthree]
      exact fun h => by simpa using String.ofList_injective h
    rw [List.take_nil, List.take_nil, if_neg hthree, hone]
    rfl
  | cons d more =>
    rw [List.take_succ_cons (i := 0), List.take_zero, contains_doubled]
    by_cases h3 : c = '.' ∧ d = '.' ∧ more.head? = some '.'
    · have hrun : symbolRun c (d :: more) = 2 := if_pos h3
      rw [if_pos ((three_points c d more).2 h3), hrun, if_neg (by decide)]
    · rw [if_neg (mt (three_points c d more).1 h3)]
      split
      · rename_i h2
        have hrun : symbolRun c (d :: more) = 1 := (if_neg h3).trans (if_pos h2)
        rw [hrun]
        rfl
      · rename_i h2
        have hrun : symbolRun c (d :: more) = 0 := (if_neg h3).trans (if_neg h2)
        rw [hrun]
        rfl

theorem isPrintable_of_symbolRun {c : Char} {cs : List Char} (h : symbolRun c cs ≠ 0) :
    tokenAt.isPrintable c := by
  have hdoubled : ∀ p ∈ doubled, tokenAt.isPrintable p.1 := by decide
  unfold symbolRun at h
  split at h
  · exact absurd rfl h
  · split at h
    · rename_i h3
      rw [h3.1]
      decide
    · split at h
      · rename_i h2
        exact hdoubled _ (List.contains_iff_mem.1 h2)
      · exact absurd rfl h

/-- The number of characters of a symbol after its first one. -/
theorem symbolAt_length (c : Char) (cs : List Char) :
    (if tokenAt.isPrintable c then (symbolAt c cs).length - 1 else 0) = symbolRun c cs := by
  rw [symbolAt_eq]
  by_cases h : symbolRun c cs = 0
  · rw [if_pos h, h]
    split
    · rename_i hc
      simp only [tokenAt.isPrintable, Bool.and_eq_true, decide_eq_true_eq] at hc
      rw [shownSymbol, if_pos hc, Char.toString_eq_singleton, String.length_singleton]
    · rfl
  · rw [if_neg h, if_pos (isPrintable_of_symbolRun h), String.length_ofList, List.length_cons,
      List.length_take, Nat.min_eq_left (symbolRun_le c cs)]
    rfl

theorem doubled_second {c d : Char} (h : doubled.contains (c, d) = true) :
    startsOperand d = false := by
  have hdoubled : ∀ p ∈ doubled, startsOperand p.2 = false := by decide
  exact hdoubled _ (List.contains_iff_mem.1 h)

theorem symbolRun_cons (c d : Char) (cs : List Char) :
    symbolRun c (d :: cs) =
      if c = '.' ∧ d = '.' ∧ cs.head? = some '.' then 2
      else if doubled.contains (c, d) then 1
      else 0 := rfl

theorem symbolRun_eq_zero {c : Char} {cs : List Char} :
    symbolRun c cs = 0 ↔ ∀ d, cs.head? = some d → doubled.contains (c, d) = false := by
  cases cs with
  | nil => simp [symbolRun]
  | cons d cs =>
    rw [symbolRun_cons]
    constructor
    · intro h e he
      obtain rfl := Option.some.inj he
      split at h
      · cases h
      · split at h
        · cases h
        · rename_i h2
          exact Bool.eq_false_iff.2 h2
    · intro h
      have h := h d rfl
      rw [if_neg, h, if_neg (by decide)]
      rintro ⟨rfl, rfl, -⟩
      revert h
      decide

theorem symbolRun_local {c : Char} {v x y : List Char} {t : Option Token} (hf : Follows t x y)
    (h : symbolRun c (v ++ x) = v.length) : symbolRun c (v ++ y) = v.length := by
  cases v with
  | nil =>
    rw [List.nil_append, List.length_nil, symbolRun_eq_zero] at h ⊢
    intro d hd
    cases hf with
    | same hxy => exact h d (hxy ▸ hd)
    | operand _ _ hy hb =>
      obtain rfl := Option.some.inj (hy.symm.trans hd)
      refine Bool.eq_false_iff.2 fun hc => ?_
      rw [doubled_second hc] at hb
      cases hb
  | cons d v =>
    rw [List.cons_append, symbolRun_cons] at h ⊢
    split at h
    · rename_i h3
      obtain ⟨e, rfl⟩ := List.length_eq_one_iff.1 (Nat.succ.inj h.symm)
      rw [if_pos (show c = '.' ∧ d = '.' ∧ ([e] ++ y).head? = some '.' from h3)]
      rfl
    · rename_i h3
      split at h
      · rename_i h2
        obtain rfl : v = [] := List.eq_nil_of_length_eq_zero (Nat.succ.inj h.symm)
        rw [if_neg, if_pos h2]
        · rfl
        · rintro ⟨hc, hd, hy⟩
          rw [List.nil_append] at hy h3
          cases hf with
          | same hxy => exact h3 ⟨hc, hd, hxy ▸ hy⟩
          | operand _ _ hy' hb =>
            obtain rfl := Option.some.inj (hy'.symm.trans hy)
            revert hb
            decide
      · cases h

/-! ## All tokens -/

theorem isBreak_of_isBreakPair {c d : Char} (h : isBreakPair c d) : isBreak d := by
  simp only [isBreakPair, Bool.or_eq_true, Bool.and_eq_true, beq_iff_eq] at h
  obtain ⟨-, rfl⟩ | ⟨-, rfl⟩ := h <;> decide

/-- What the next character decides is the same, if neither words nor operands start so. -/
theorem Follows.any_head {t : Option Token} {x y : List Char} (hf : Follows t x y)
    {p : Char → Bool} (hp : ∀ c, startsWord c || startsOperand c → p c = false) (v : List Char) :
    (v ++ y).head?.any p = (v ++ x).head?.any p := by
  rw [List.head?_append, List.head?_append]
  cases v.head? with
  | some c => rfl
  | none =>
    cases hf with
    | same h => rw [h]
    | operand hx ha hy hb => simp [hx, hy, hp _, ha, hb]

theorem not_isBreak {c : Char} (h : startsWord c || startsOperand c) : isBreak c = false := by
  refine Bool.eq_false_iff.2 fun hc => ?_
  simp only [isBreak, Bool.or_eq_true, beq_iff_eq] at hc
  obtain rfl | rfl := hc <;> revert h <;> decide

/-- A number does not end before a word. -/
theorem Follows.number {c : Char} {v x y : List Char} {t : Token} {s : Option Token}
    (hf : Follows s x y) (ht : t.isBad = false) (h : numeralAt c (v ++ x) = (t, v.length)) :
    y.head? = x.head? := by
  cases hf with
  | same h => exact h
  | operand hx ha =>
    have hstop := (numeralAt_ok h ht).2.1
    rw [List.drop_left] at hstop
    have := hstop _ hx
    rw [ha] at this
    cases this

theorem commentAt_ok {l n : Nat} {cs : List Char} {t : Option Token}
    (h : commentAt l ('-' :: cs) = (t, n)) (ht : t.all (!·.isBad)) : t = none ∧ n ≠ 0 := by
  cases ho : openingLevel? cs with
  | none =>
    rw [commentAt_none ho, List.takeWhile_cons_of_pos (by decide)] at h
    obtain ⟨rfl, rfl⟩ := Prod.mk.inj h
    exact ⟨rfl, Nat.succ_ne_zero _⟩
  | some level =>
    obtain ⟨more, rfl, hl⟩ := openingLevel?_some ho
    rw [commentAt_some hl] at h
    split at h
    · obtain ⟨rfl, rfl⟩ := Prod.mk.inj h
      exact ⟨rfl, by omega⟩
    · obtain ⟨rfl, -⟩ := Prod.mk.inj h
      cases ht

/-- A single point before an operand stays no number. -/
theorem Follows.point {t : Option Token} {v x y : List Char} (hf : Follows t x y)
    (hx : (v ++ x).head?.any isDigit = false) (ht : v = [] → ∀ d, x.head? = some d →
      d ≠ '.' → t = some (.mark ".")) : (v ++ y).head?.any isDigit = false := by
  cases v with
  | cons d v => exact hx
  | nil =>
    cases hf with
    | same h => rwa [List.nil_append, h]
    | operand hx' ha _ _ hmark =>
      exact absurd (ht rfl _ hx' (by rintro rfl; revert ha; decide)) hmark

theorem symbolAt_point {cs : List Char} (h : ∀ d, cs.head? = some d → d ≠ '.') :
    symbolAt '.' cs = "." := by
  have hrun : symbolRun '.' cs = 0 := by
    rw [symbolRun_eq_zero]
    intro d hd
    refine Bool.eq_false_iff.2 fun hc => h d hd ?_
    simpa [doubled] using hc
  rw [symbolAt_eq, if_pos hrun]
  rfl

/-- **Tokens are local.** What follows a token matters to it by its first character only, and an
operand may follow as well as a name. -/
theorem Takes.local {c : Char} {v x y : List Char} {t : Option Token}
    (h : Takes c (v ++ x) t v.length) (hf : Follows t x y) : Takes c (v ++ y) t v.length := by
  refine ⟨fun l => ?_, h.2⟩
  have ht := h.2
  have h := h.1 l
  unfold tokenAt at h ⊢
  dsimp only at h ⊢
  by_cases hbreak : isBreak c
  · have hpair : ∀ d, startsWord d || startsOperand d → isBreakPair c d = false := fun d hd =>
      Bool.eq_false_iff.2 fun hp => by
        have := not_isBreak hd
        rw [isBreak_of_isBreakPair hp] at this
        cases this
    rw [if_pos hbreak] at h ⊢
    rwa [hf.any_head hpair]
  rw [if_neg hbreak] at h ⊢
  by_cases hspace : Number.isSpace c
  · rwa [if_pos hspace] at h ⊢
  rw [if_neg hspace] at h ⊢
  have hminus : (v ++ y).head? = some '-' ↔ (v ++ x).head? = some '-' := by
    have key := hf.any_head (p := (· == '-'))
      (fun d hd => beq_eq_false_iff_ne.2 (by rintro rfl; revert hd; decide)) v
    simpa [Option.any_eq_true] using Bool.eq_iff_iff.1 key
  by_cases hcomment : c = '-' ∧ (v ++ x).head? = some '-'
  · rw [if_pos ⟨hcomment.1, hminus.2 hcomment.2⟩]
    rw [if_pos hcomment] at h
    obtain ⟨more, hmore⟩ := List.head?_eq_some_iff.1 hcomment.2
    obtain ⟨rfl, hpos⟩ := commentAt_ok (hmore ▸ h) ht
    obtain ⟨d, v, rfl⟩ := List.exists_cons_of_length_pos (Nat.pos_of_ne_zero hpos)
    obtain ⟨rfl, rfl⟩ := List.cons.inj hmore
    exact commentAt_local hf h
  rw [if_neg hcomment] at h
  rw [if_neg (by rwa [hminus])]
  by_cases hbracket : c = '['
  · rw [if_pos hbracket] at h ⊢
    obtain ⟨rfl, hn⟩ := Prod.mk.inj h
    rw [bracketAt_local hf (by simpa using ht) (Prod.ext rfl hn)]
  rw [if_neg hbracket] at h ⊢
  by_cases hquote : c = '"' ∨ c = '\''
  · rw [if_pos hquote] at h ⊢
    obtain ⟨rfl, hn⟩ := Prod.mk.inj h
    rw [stringAt_local y (by simpa using ht) (Prod.ext rfl hn)]
  rw [if_neg hquote] at h ⊢
  by_cases hnumber : isDigit c || (c == '.' && (v ++ x).head?.any isDigit)
  · rw [if_pos hnumber] at h
    obtain ⟨rfl, hn⟩ := Prod.mk.inj h
    have hxy := hf.number (by simpa using ht) (Prod.ext rfl hn)
    rw [if_pos (by rwa [List.head?_append, hxy, ← List.head?_append]),
      numeralAt_local hxy (by simpa using ht) (Prod.ext rfl hn)]
  rw [if_neg hnumber] at h
  simp only [Bool.or_eq_true, Bool.and_eq_true, not_or, Bool.not_eq_true] at hnumber
  by_cases hword : isLetter c || c == '_'
  · have hpoint : ¬(isDigit c || (c == '.' && (v ++ y).head?.any isDigit)) := by
      simp only [Bool.or_eq_true, Bool.and_eq_true, not_or, Bool.not_eq_true, beq_iff_eq]
      exact ⟨hnumber.1, fun h => by obtain ⟨rfl, -⟩ := h; revert hword; decide⟩
    rw [if_pos hword] at h
    obtain ⟨rfl, hn⟩ := Prod.mk.inj h
    rw [if_neg hpoint, if_pos hword, takeWhile_of_length hn (word_stops hf (stops_of_length hn).2),
      takeWhile_run (stops_of_length hn).1 (stops_of_length hn).2]
  · rw [if_neg hword, symbolAt_length] at h
    obtain ⟨rfl, hn⟩ := Prod.mk.inj h
    have hy := symbolRun_local hf hn
    have hsymbol : symbolAt c (v ++ y) = symbolAt c (v ++ x) := by
      rw [symbolAt_eq, symbolAt_eq, hy, hn, List.take_left, List.take_left]
    have hpoint : ¬(isDigit c || (c == '.' && (v ++ y).head?.any isDigit)) := by
      simp only [Bool.or_eq_true, Bool.and_eq_true, not_or, Bool.not_eq_true, beq_iff_eq]
      refine ⟨hnumber.1, ?_⟩
      rintro ⟨rfl, hd⟩
      have hx : (v ++ x).head?.any isDigit = false := by simpa using hnumber.2
      rw [hf.point hx] at hd
      · cases hd
      · rintro rfl d hd' hne
        rw [List.nil_append, symbolAt_point (fun e he => ?_)]
        rwa [Option.some.inj (he.symm.trans hd')]
    rw [if_neg hpoint, if_neg hword, symbolAt_length, hsymbol, hy]

/-- A gap before a token stays one before another token. -/
theorem Lexes.gap {x y g : List Char} (h : Lexes x g []) (hf : Follows none x y) : Lexes y g [] := by
  generalize hts : ([] : List Token) = ts at h
  induction h with
  | nil => exact .nil
  | @cons c v w t ts h hw ih =>
    obtain ⟨ht, hts⟩ := List.append_eq_nil_iff.1 hts.symm
    obtain rfl : t = none := by simpa using ht
    subst hts
    have hrest : Follows none (w ++ x) (w ++ y) := by
      cases w with
      | nil => exact hf
      | cons d w => exact .same rfl
    exact .cons (h.local hrest) (ih rfl)

/-! ## Kinds of tokens -/

/-- What starts with a character, and how many characters follow it there, if it can be read. -/
inductive Shape (c : Char) (cs : List Char) : Option Token → Nat → Prop
  | lineEnd (h : isBreak c) : Shape c cs none (if cs.head?.any (isBreakPair c) then 1 else 0)
  | space (hb : isBreak c = false) (h : Number.isSpace c) : Shape c cs none 0
  | lineComment {more : List Char} (hc : c = '-') (hcs : cs = '-' :: more)
    (ho : openingLevel? more = none) : Shape c cs none (cs.takeWhile (!isBreak ·)).length
  | longComment {more : List Char} {level k : Nat} (hc : c = '-') (hcs : cs = '-' :: '[' :: more)
    (hl : longLevel? more = some level)
    (hk : runThrough (longClose level) (more.drop (level + 1)) = some k) :
    Shape c cs none (2 + (level + 1) + k)
  | longString {level k : Nat} (value shown : Bytes) (hc : c = '[') (hl : longLevel? cs = some level)
    (hk : runThrough (longClose level) (cs.drop (level + 1)) = some k) :
    Shape c cs (some (.str value shown)) (level + 1 + k)
  | bracket (hc : c = '[') (hl : longLevel? cs = none) : Shape c cs (some (.mark "[")) 0
  | string {value : Bytes} {n : Nat} (shown : Bytes) (hc : c = '"' ∨ c = '\'')
    (hs : stringBody c cs = .ok (value, n)) : Shape c cs (some (.str value shown)) n
  | number {t : Token} {r : Number} (hc : isDigit c || (c == '.' && cs.head?.any isDigit))
    (hstop : stops startsWord (cs.drop (numeralLength c cs)))
    (hr : Number.ofNumeral? false (c :: cs.take (numeralLength c cs)) = some r)
    (ht : numeralAt c cs = (t, numeralLength c cs)) :
    Shape c cs (some t) (numeralLength c cs)
  | word (hc : startsWord c) : Shape c cs (some (wordToken (c :: cs.takeWhile isWordPart)))
    (cs.takeWhile isWordPart).length
  | symbol (hb : isBreak c = false) (hs : Number.isSpace c = false)
    (hm : ¬(c = '-' ∧ cs.head? = some '-')) (hl : c ≠ '[') (hq : ¬(c = '"' ∨ c = '\''))
    (hn : ¬(isDigit c || (c == '.' && cs.head?.any isDigit))) (hw : startsWord c = false) :
    Shape c cs (some (.mark (symbolAt c cs))) (symbolRun c cs)

theorem commentAt_shape {l n : Nat} {cs : List Char} {t : Option Token}
    (h : commentAt l ('-' :: cs) = (t, n)) (ht : t.all (!·.isBad)) : Shape '-' ('-' :: cs) t n := by
  cases ho : openingLevel? cs with
  | none =>
    rw [commentAt_none ho] at h
    obtain ⟨rfl, rfl⟩ := Prod.mk.inj h
    exact .lineComment rfl rfl ho
  | some level =>
    obtain ⟨more, rfl, hl⟩ := openingLevel?_some ho
    rw [commentAt_some hl] at h
    split at h
    · obtain ⟨rfl, rfl⟩ := Prod.mk.inj h
      exact .longComment rfl rfl hl ‹_›
    · obtain ⟨rfl, -⟩ := Prod.mk.inj h
      cases ht

theorem bracketAt_shape {l n : Nat} {cs : List Char} {t : Token} (h : bracketAt l cs = (t, n))
    (ht : t.isBad = false) : Shape '[' cs (some t) n := by
  unfold bracketAt at h
  split at h
  · rename_i level hl
    unfold longStringAt at h
    dsimp only at h
    split at h
    · obtain ⟨rfl, rfl⟩ := Prod.mk.inj h
      exact .longString _ _ rfl hl ‹_›
    · obtain ⟨rfl, -⟩ := Prod.mk.inj h
      cases ht
  · split at h
    · obtain ⟨rfl, -⟩ := Prod.mk.inj h
      cases ht
    · obtain ⟨rfl, rfl⟩ := Prod.mk.inj h
      exact .bracket rfl ‹_›

theorem stringAt_shape {c : Char} (hc : c = '"' ∨ c = '\'') {n : Nat} {cs : List Char} {t : Token}
    (h : stringAt c cs = (t, n)) (ht : t.isBad = false) : Shape c cs (some t) n := by
  unfold stringAt at h
  dsimp only at h
  split at h
  · obtain ⟨rfl, rfl⟩ := Prod.mk.inj h
    exact .string _ hc ‹_›
  · obtain ⟨rfl, -⟩ := Prod.mk.inj h
    cases ht
  · obtain ⟨rfl, -⟩ := Prod.mk.inj h
    cases ht

theorem tokenAt_shape {l n : Nat} {c : Char} {cs : List Char} {t : Option Token}
    (h : tokenAt l c cs = (t, n)) (ht : t.all (!·.isBad)) : Shape c cs t n := by
  unfold tokenAt at h
  dsimp only at h
  by_cases hbreak : isBreak c
  · rw [if_pos hbreak] at h
    obtain ⟨rfl, rfl⟩ := Prod.mk.inj h
    exact .lineEnd hbreak
  rw [if_neg hbreak] at h
  by_cases hspace : Number.isSpace c
  · rw [if_pos hspace] at h
    obtain ⟨rfl, rfl⟩ := Prod.mk.inj h
    exact .space (by simpa using hbreak) hspace
  rw [if_neg hspace] at h
  by_cases hcomment : c = '-' ∧ cs.head? = some '-'
  · rw [if_pos hcomment] at h
    obtain ⟨rfl, hcs⟩ := hcomment
    obtain ⟨more, rfl⟩ := List.head?_eq_some_iff.1 hcs
    exact commentAt_shape h ht
  rw [if_neg hcomment] at h
  by_cases hbracket : c = '['
  · rw [if_pos hbracket] at h
    obtain ⟨rfl, hn⟩ := Prod.mk.inj h
    subst hbracket
    exact bracketAt_shape (Prod.ext rfl hn) (by simpa using ht)
  rw [if_neg hbracket] at h
  by_cases hquote : c = '"' ∨ c = '\''
  · rw [if_pos hquote] at h
    obtain ⟨rfl, hn⟩ := Prod.mk.inj h
    exact stringAt_shape hquote (Prod.ext rfl hn) (by simpa using ht)
  rw [if_neg hquote] at h
  by_cases hnumber : isDigit c || (c == '.' && cs.head?.any isDigit)
  · rw [if_pos hnumber] at h
    obtain ⟨rfl, hn⟩ := Prod.mk.inj h
    have hnumeral : numeralAt c cs = ((numeralAt c cs).1, n) := Prod.ext rfl hn
    obtain ⟨rfl, hstop, r, hr⟩ := numeralAt_ok hnumeral (by simpa using ht)
    exact .number hnumber hstop hr hnumeral
  rw [if_neg hnumber] at h
  by_cases hword : isLetter c || c == '_'
  · rw [if_pos hword] at h
    obtain ⟨rfl, rfl⟩ := Prod.mk.inj h
    exact .word hword
  · rw [if_neg hword, symbolAt_length] at h
    obtain ⟨rfl, rfl⟩ := Prod.mk.inj h
    exact .symbol (by simpa using hbreak) (by simpa using hspace) hcomment hbracket hquote hnumber
      (by simpa [startsWord] using hword)

/-! ## Reading a whole text -/

theorem takeWhile_le (p : Char → Bool) (cs : List Char) : (cs.takeWhile p).length ≤ cs.length :=
  (List.takeWhile_prefix p).length_le

theorem Shape.le {c : Char} {cs : List Char} {t : Option Token} {n : Nat} (h : Shape c cs t n) :
    n ≤ cs.length := by
  cases h with
  | lineEnd =>
    split
    · cases cs with
      | nil => cases ‹Option.any _ _ = true›
      | cons => exact Nat.succ_le_succ (Nat.zero_le _)
    · exact Nat.zero_le _
  | space => exact Nat.zero_le _
  | lineComment => exact takeWhile_le _ _
  | longComment hc hcs hl hk =>
    have hpos := pos_of_runThrough hk
    have hle := runThrough_le hk
    rw [List.length_drop] at hle
    simp only [hcs, List.length_cons]
    omega
  | longString value shown hc hl hk =>
    have hpos := pos_of_runThrough hk
    have hle := runThrough_le hk
    rw [List.length_drop] at hle
    omega
  | bracket => exact Nat.zero_le _
  | string shown hc hs => exact stringBody_le hs
  | number => exact numeralLength_le _ _
  | word => exact takeWhile_le _ _
  | symbol => exact symbolRun_le _ _

theorem commentAt_line {l l' n : Nat} {cs : List Char} {t : Option Token}
    (h : commentAt l ('-' :: cs) = (t, n)) (ht : t.all (!·.isBad)) :
    commentAt l' ('-' :: cs) = (t, n) := by
  cases ho : openingLevel? cs with
  | none =>
    rw [commentAt_none ho] at h ⊢
    exact h
  | some level =>
    obtain ⟨more, rfl, hl⟩ := openingLevel?_some ho
    rw [commentAt_some hl] at h ⊢
    split at h
    · exact h
    · obtain ⟨rfl, -⟩ := Prod.mk.inj h
      cases ht

theorem bracketAt_line {l l' n : Nat} {cs : List Char} {t : Token} (h : bracketAt l cs = (t, n))
    (ht : t.isBad = false) : bracketAt l' cs = (t, n) := by
  unfold bracketAt at h ⊢
  split at h
  · obtain ⟨k, hk, -⟩ := longStringAt_ok h ht
    unfold longStringAt at h ⊢
    simp only [hk] at h ⊢
    exact h
  · exact h

/-- On which line a token stands matters to faults only. -/
theorem takes_of_tokenAt {l n : Nat} {c : Char} {cs : List Char} {t : Option Token}
    (h : tokenAt l c cs = (t, n)) (ht : t.all (!·.isBad)) : Takes c cs t n := by
  refine ⟨fun l' => ?_, ht⟩
  unfold tokenAt at h ⊢
  dsimp only at h ⊢
  split at h
  · rwa [if_pos ‹_›]
  rw [if_neg ‹_›]
  split at h
  · rwa [if_pos ‹_›]
  rw [if_neg ‹_›]
  split at h
  · rename_i hc
    rw [if_pos hc]
    obtain ⟨more, rfl⟩ := List.head?_eq_some_iff.1 hc.2
    exact commentAt_line h ht
  rw [if_neg ‹_›]
  split at h
  · rw [if_pos ‹_›]
    obtain ⟨rfl, hn⟩ := Prod.mk.inj h
    have hsame : bracketAt l cs = ((bracketAt l cs).1, n) := Prod.ext rfl hn
    have hbad : (bracketAt l cs).1.isBad = false := by simpa using ht
    rw [bracketAt_line hsame hbad]
  rw [if_neg ‹_›]
  exact h

/-- A text without faults can be read to its end. -/
theorem lexes_of_lex {l : Nat} {cs : List Char} (h : ∀ x ∈ lex l cs, x.token.isBad = false) :
    ∃ us, Lexes [] cs us := by
  induction hn : cs.length using Nat.strongRecOn generalizing cs l with
  | _ n ih =>
    subst hn
    cases cs with
    | nil => exact ⟨[], .nil⟩
    | cons c cs =>
      obtain ⟨⟨t, k⟩, htoken⟩ : ∃ p, tokenAt l c cs = p := ⟨_, rfl⟩
      unfold lex at h
      rw [htoken] at h
      dsimp only at h
      have hrest : t.all (!·.isBad) ∧ ∃ l', ∀ x ∈ lex l' (cs.drop k), x.token.isBad = false := by
        cases t with
        | none => exact ⟨rfl, _, h⟩
        | some t =>
          cases t with
          | bad m =>
            have := h _ (List.mem_singleton_self _)
            cases this
          | _ => exact ⟨rfl, _, fun x hx => h x (List.mem_cons_of_mem _ hx)⟩
      obtain ⟨ht, l', hrest⟩ := hrest
      obtain ⟨us, hus⟩ := ih _ (by rw [List.length_drop, List.length_cons]; omega) hrest rfl
      have htake : (cs.take k).length = k := List.length_take_of_le (tokenAt_shape htoken ht).le
      have hfirst : Takes c (cs.take k ++ (cs.drop k ++ [])) t (cs.take k).length := by
        rw [List.append_nil, List.take_append_drop, htake]
        exact takes_of_tokenAt htoken ht
      refine ⟨t.toList ++ us, ?_⟩
      have hall := Lexes.cons hfirst hus
      rwa [List.take_append_drop] at hall

end EnvManifest.Script
