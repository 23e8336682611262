import EnvManifest.Proofs.Script.Locality

/-!
# Pieces and tokens

A rewriter cuts the text of an expression where the engine does. Only the blanks of the two differ:
a carriage return ends a line for the engine alone, and a vertical tab is a symbol for the rewriter.
-/

namespace EnvManifest.Patch

open Text
open Script (isBreak isBreakPair numeralRun)

/-- Without the two blanks of which rewriter and engine think differently. -/
def Plain (cs : List Char) : Prop := ∀ c ∈ cs, c ≠ '\r' ∧ c.toNat ≠ 0x0B

instance (cs : List Char) : Decidable (Plain cs) := inferInstanceAs (Decidable (∀ c ∈ cs, _))

theorem Plain.of_cons {c : Char} {cs : List Char} (h : Plain (c :: cs)) : Plain cs :=
  fun d hd => h d (List.mem_cons_of_mem c hd)

theorem Plain.drop {cs : List Char} (h : Plain cs) (n : Nat) : Plain (cs.drop n) :=
  fun d hd => h d (List.mem_of_mem_drop hd)

theorem isBreak_eq {c : Char} (h : c ≠ '\r') : isBreak c = (c == '\n') := by
  simp [isBreak, h]

theorem not_isBreakPair {c d : Char} (hc : c ≠ '\r') (hd : d ≠ '\r') : isBreakPair c d = false := by
  simp [isBreakPair, hc, hd]

/-! ## Strings -/

/-- Has the character no meaning of its own in a string? -/
def isInner (c : Char) : Bool := c != '\\' && c != '"' && c != '\''

theorem stringRun_cons {quote c : Char} (hc : c ≠ '\\') (cs : List Char) :
    stringRun quote (c :: cs) = if c = quote then 1 else stringRun quote cs + 1 := by
  rw [stringRun.eq_4 quote c cs (fun h => absurd h hc) (fun d ds h => absurd h hc)]

theorem stringRun_inner {quote : Char} (hq : quote = '"' ∨ quote = '\'') {cs : List Char} {n : Nat}
    (h : ∀ c ∈ cs.take n, isInner c) (hn : n ≤ cs.length) :
    stringRun quote cs = stringRun quote (cs.drop n) + n := by
  induction n generalizing cs with
  | zero => rfl
  | succ n ih =>
    cases cs with
    | nil => cases hn
    | cons c cs =>
      have hc := h c (List.mem_cons_self ..)
      simp only [isInner, Bool.and_eq_true, bne_iff_ne, ne_eq] at hc
      have hquote : c ≠ quote := by
        rintro rfl
        exact hq.elim hc.1.2 hc.2
      rw [stringRun_cons hc.1.1, if_neg hquote,
        ih (fun d hd => h d (List.mem_cons_of_mem c hd)) (Nat.le_of_succ_le_succ hn),
        List.drop_succ_cons, Nat.add_assoc]

theorem isInner_of_isHexDigit {c : Char} (h : isHexDigit c) : isInner c := by
  simp only [isInner, Bool.and_eq_true, bne_iff_ne, ne_eq]
  refine ⟨⟨?_, ?_⟩, ?_⟩ <;> rintro rfl <;> revert h <;> decide

theorem isInner_of_isSpace {c : Char} (h : Script.Number.isSpace c) : isInner c := by
  simp only [isInner, Bool.and_eq_true, bne_iff_ne, ne_eq]
  refine ⟨⟨?_, ?_⟩, ?_⟩ <;> rintro rfl <;> revert h <;> decide

theorem forall_take_of_length {p : Char → Bool} {cs : List Char} {n : Nat}
    (h : ((cs.take n).takeWhile p).length = n) : ∀ c ∈ cs.take n, p c := by
  intro c hc
  have hall : (cs.take n).takeWhile p = cs.take n :=
    (List.takeWhile_prefix p).eq_of_length_le (by rw [h]; exact List.length_take_le n cs)
  rw [← hall] at hc
  exact List.all_eq_true.1 List.all_takeWhile c hc

theorem forall_take_takeWhile {p : Char → Bool} (cs : List Char) :
    ∀ c ∈ cs.take (cs.takeWhile p).length, p c := by
  intro c hc
  rw [(List.prefix_iff_eq_take.1 (List.takeWhile_prefix p)).symm] at hc
  exact List.all_eq_true.1 List.all_takeWhile c hc

/-- An escape goes on with characters that have no meaning of their own. -/
theorem escape_inner {d : Char} {cs : List Char} {bs : Bytes} {k : Nat} (hp : '\r' ∉ d :: cs)
    (h : Script.escape (d :: cs) = .ok (bs, k)) : 0 < k ∧ ∀ c ∈ cs.take (k - 1), isInner c := by
  by_cases hx : d = 'x'
  · subst hx
    rw [Script.escape_hex] at h
    dsimp only at h
    split at h
    · rename_i hlen
      obtain ⟨-, rfl⟩ := Prod.mk.inj (Except.ok.inj h)
      exact ⟨by decide, fun c hc => isInner_of_isHexDigit (forall_take_of_length hlen c hc)⟩
    · cases h
  by_cases hz : d = 'z'
  · subst hz
    have h : Except.ok ([], (cs.takeWhile Script.Number.isSpace).length + 1) = .ok (bs, k) := h
    obtain ⟨-, rfl⟩ := Prod.mk.inj (Except.ok.inj h)
    exact ⟨Nat.succ_pos _, fun c hc => isInner_of_isSpace (forall_take_takeWhile cs c hc)⟩
  by_cases hu : d = 'u'
  · subst hu
    obtain ⟨more, rfl, rfl, hclose⟩ := Script.unicodeEscape_ok h
    refine ⟨Nat.succ_pos _, fun c hc => ?_⟩
    have hc : c ∈ '\x7b' :: more.take ((more.takeWhile isHexDigit).length + 1) := hc
    rw [List.take_add_one, hclose, List.mem_cons, List.mem_append] at hc
    obtain rfl | hc | hc := hc
    · rfl
    · exact isInner_of_isHexDigit (forall_take_takeWhile more c hc)
    · rw [Option.toList_some, List.mem_singleton] at hc
      rw [hc]
      rfl
  rw [Script.escape_other hx hz hu] at h
  split at h
  · obtain ⟨-, rfl⟩ := Prod.mk.inj (Except.ok.inj h)
    have hpair : cs.head?.any (isBreakPair d) = false := by
      cases cs with
      | nil => rfl
      | cons e cs =>
        simp only [List.mem_cons, not_or] at hp
        exact not_isBreakPair (Ne.symm hp.1) (Ne.symm hp.2.1)
    rw [hpair]
    simp
  · split at h
    · rename_i hd
      dsimp only at h
      split at h
      · obtain ⟨-, rfl⟩ := Prod.mk.inj (Except.ok.inj h)
        rw [List.take_succ_cons, List.takeWhile_cons_of_pos hd, List.length_cons]
        refine ⟨Nat.succ_pos _, fun c hc => isInner_of_isHexDigit (Script.isHexDigit_of_isDigit ?_)⟩
        have hle : ((cs.take 2).takeWhile isDigit).length ≤ 2 :=
          Nat.le_trans (Script.takeWhile_le _ _) (List.length_take_le 2 cs)
        refine forall_take_takeWhile (cs.take 2) c ?_
        rwa [List.take_take, Nat.min_eq_left hle]
      · cases h
    · split at h
      · obtain ⟨-, rfl⟩ := Prod.mk.inj (Except.ok.inj h)
        simp
      · cases h

/-- A string is as long for the rewriter as for the engine. -/
theorem stringRun_eq {quote : Char} (hq : quote = '"' ∨ quote = '\'') {cs : List Char} {bs : Bytes}
    {n : Nat} (hp : Plain cs) (h : Script.stringBody quote cs = .ok (bs, n)) :
    stringRun quote cs = n := by
  have hback : quote ≠ '\\' := by
    rintro rfl
    revert hq
    decide
  induction hn : cs.length using Nat.strongRecOn generalizing cs bs n with
  | _ _ ih =>
    subst hn
    obtain ⟨c, more, rfl, ⟨rfl, -, rfl⟩ | ⟨hc, -, front, k, rest, m, hpart, hr, -, rfl⟩⟩ :=
      Script.stringBody_ok h
    · rw [stringRun_cons hback, if_pos rfl]
    · have hrest := ih _ (by rw [List.length_drop, List.length_cons]; omega)
        (hp.of_cons.drop k) hr rfl
      have hpos := Script.stringBody_pos hr
      unfold Script.stringPart at hpart
      split at hpart
      · rename_i hback
        subst hback
        cases more with
        | nil =>
          rw [List.drop_nil, Script.stringBody] at hr
          cases hr
        | cons d more =>
          obtain ⟨hk, hinner⟩ := escape_inner (fun h => (hp.of_cons _ h).1 rfl) hpart
          obtain ⟨k, rfl⟩ := Nat.exists_eq_succ_of_ne_zero (Nat.pos_iff_ne_zero.1 hk)
          have hle := Script.stringBody_le hr
          rw [List.drop_succ_cons] at hrest hr hle
          rw [List.length_drop] at hle
          rw [stringRun.eq_3, stringRun_inner hq hinner (by simp only [Nat.succ_sub_one]; omega),
            Nat.succ_sub_one, hrest]
          omega
      · rename_i hback
        obtain ⟨-, rfl⟩ := Prod.mk.inj (Except.ok.inj hpart)
        rw [stringRun_cons hback, if_neg hc]
        rw [List.drop_zero] at hrest
        rw [hrest, Nat.zero_add]

/-! ## Numbers -/

theorem numberRun_cons (hex : Bool) (previous c : Char) (cs : List Char) :
    numberRun hex previous (c :: cs) =
      if isAlphanumeric c || c == '.' || c == '_' ||
          (Script.isPlusMinus c && allowsSign hex previous) then numberRun hex c cs + 1
      else 0 := rfl

theorem allowsSign_eq {hex : Bool} {c : Char} (h : (c == 'p' || c == 'P') → hex) :
    allowsSign hex c = Script.isPower hex c := by
  cases hex with
  | true => simp [allowsSign, Script.isPower]
  | false =>
    have hp : (c == 'p' || c == 'P') = false := by simpa using h
    simp [allowsSign, Script.isPower, hp]

theorem hex_of_isNumeral {hex : Bool} {c : Char} (h : Script.isNumeral hex c)
    (hc : c == 'p' || c == 'P') : hex := by
  cases hex with
  | true => rfl
  | false =>
    simp only [Bool.or_eq_true, beq_iff_eq] at hc
    obtain rfl | rfl := hc <;> revert h <;> decide

theorem not_isPower_of_isPlusMinus {hex : Bool} {c : Char} (h : Script.isPlusMinus c) :
    Script.isPower hex c = false := by
  simp only [Script.isPlusMinus, Bool.or_eq_true, beq_iff_eq] at h
  obtain rfl | rfl := h <;> cases hex <;> rfl

theorem not_mark_of_isPlusMinus {c : Char} (h : Script.isPlusMinus c) :
    (c == 'p' || c == 'P') = false := by
  simp only [Script.isPlusMinus, Bool.or_eq_true, beq_iff_eq] at h
  obtain rfl | rfl := h <;> rfl

/-- A number is as long for the rewriter as for the engine. -/
theorem numberRun_eq {hex : Bool} {previous : Char} {cs : List Char}
    (hmark : (previous == 'p' || previous == 'P') → hex)
    (hsign : Script.isPower hex previous → cs.head?.any Script.isPlusMinus = false)
    (hstop : stops Script.startsWord (cs.drop (numeralRun hex cs))) :
    numberRun hex previous cs = numeralRun hex cs := by
  induction hn : cs.length using Nat.strongRecOn generalizing cs previous with
  | _ n ih =>
    subst hn
    cases cs with
    | nil => rfl
    | cons c cs =>
      rw [numberRun_cons, allowsSign_eq hmark]
      rw [Script.numeralRun_cons] at hstop ⊢
      by_cases hpower : Script.isPower hex c && cs.head?.any Script.isPlusMinus
      · rw [if_pos hpower] at hstop ⊢
        simp only [Bool.and_eq_true] at hpower
        cases cs with
        | nil => cases hpower.2
        | cons d cs =>
          obtain ⟨hc, hd⟩ : Script.isPower hex c ∧ Script.isPlusMinus d := hpower
          have hmark' : (c == 'p' || c == 'P') → hex :=
            hex_of_isNumeral (by simp [Script.isNumeral, hc])
          have hrest : numberRun hex d cs = numeralRun hex cs :=
            ih cs.length (by simp only [List.length_cons]; omega)
              (by simp [not_mark_of_isPlusMinus hd]) (by simp [not_isPower_of_isPlusMinus hd]) hstop
              rfl
          rw [if_pos (by simp [Script.isAlphanumeric_of_isPower hc]), numberRun_cons, allowsSign_eq hmark',
            if_pos (by simp [hc, hd]), hrest]
          rfl
      · rw [if_neg hpower] at hstop ⊢
        by_cases hnumeral : Script.isNumeral hex c
        · rw [if_pos hnumeral] at hstop ⊢
          have hgo := Script.isAlphanumeric_of_isNumeral hnumeral
          rw [if_pos (by rw [hgo]; rfl), ih cs.length (by simp) (hex_of_isNumeral hnumeral)
            (fun hc => by simpa [hc] using hpower) hstop rfl]
        · rw [if_neg hnumeral] at hstop ⊢
          -- Where the engine ends a number, no word begins, and no sign after a power.
          refine if_neg fun hgo => ?_
          rw [Bool.or_eq_true, Bool.and_eq_true] at hgo
          obtain hgo | ⟨hs, hprevious⟩ := hgo
          · obtain h | h := Script.isNumeral_or_startsWord hgo
            · exact hnumeral h
            · have := hstop c rfl
              rw [h] at this
              cases this
          · have := hsign hprevious
            rw [List.head?_cons, Option.any_some, hs] at this
            cases this

/-- Does a number start with the character, if that comes next? -/
def startsNumber (c : Char) (cs : List Char) : Bool := isDigit c || (c == '.' && cs.head?.any isDigit)

theorem digit_or_point {c : Char} {cs : List Char} (h : startsNumber c cs) : isDigit c ∨ c = '.' := by
  simp only [startsNumber, Bool.or_eq_true, Bool.and_eq_true, beq_iff_eq] at h
  exact h.imp_right And.left

theorem ne_of_startsNumber {c d : Char} {cs : List Char} (h : startsNumber c cs)
    (hd : (isDigit d || d == '.') = false) : c ≠ d := by
  rintro rfl
  obtain h | rfl := digit_or_point h
  · simp [h] at hd
  · cases hd

theorem numeralRun_stopped {hex : Bool} {c : Char} (cs : List Char)
    (h : Script.isNumeral hex c = false) : numeralRun hex (c :: cs) = 0 := by
  have hpower : Script.isPower hex c = false := by
    simp only [Script.isNumeral, Bool.or_eq_false_iff] at h
    exact h.1.1
  rw [Script.numeralRun_cons, hpower, h]
  rfl

theorem numberRun_numeral {c : Char} {cs : List Char} (hc : startsNumber c cs)
    (hstop : stops Script.startsWord (cs.drop (Script.numeralLength c cs))) :
    numberRun (cs.head?.any fun x => x == 'x' || x == 'X') c cs = Script.numeralLength c cs := by
  have hmark : (c == 'p' || c == 'P') = false := by
    simp [ne_of_startsNumber hc (d := 'p') rfl, ne_of_startsNumber hc (d := 'P') rfl]
  have hpower : Script.isPower false c = false := by
    simp [Script.isPower, ne_of_startsNumber hc (d := 'e') rfl, ne_of_startsNumber hc (d := 'E') rfl]
  unfold Script.numeralLength at hstop ⊢
  cases hx : cs.head?.any fun x => x == 'x' || x == 'X' with
  | false =>
    have hhex : Script.isHexNumeral c cs = false := by simp [Script.isHexNumeral, hx]
    rw [if_neg (by simp [hhex])] at hstop ⊢
    exact numberRun_eq (by simp [hmark]) (by simp [hpower]) hstop
  | true =>
    cases cs with
    | nil => cases hx
    | cons x ds =>
      have hx : x = 'x' ∨ x = 'X' := by simpa using hx
      by_cases hzero : c = '0'
      · have hhex : Script.isHexNumeral c (x :: ds) := by simp [Script.isHexNumeral, hzero, hx]
        rw [if_pos hhex] at hstop ⊢
        have hgo : isAlphanumeric x := by obtain rfl | rfl := hx <;> decide
        have hrest : numberRun true x ds = numeralRun true ds :=
          numberRun_eq (fun _ => rfl) (by obtain rfl | rfl := hx <;> simp [Script.isPower]) hstop
        rw [numberRun_cons, if_pos (by simp [hgo]), hrest]
        rfl
      · -- Without the zero, the `x` would be a word right after a number.
        have hhex : ¬Script.isHexNumeral c (x :: ds) := by simp [Script.isHexNumeral, hzero]
        rw [if_neg hhex, numeralRun_stopped ds (by obtain rfl | rfl := hx <;> decide)] at hstop
        have hword := hstop x rfl
        obtain rfl | rfl := hx <;> cases hword

/-! ## All pieces -/

/-- The token or the gap of a program that a piece is. -/
inductive Tells : Option Kind → List Char → Option Script.Token → Prop
  | gap (cs : List Char) : Tells none cs none
  | name {c : Char} (hc : Script.startsWord c) (cs : List Char) :
    Tells (some .name) (c :: cs) (some (Script.wordToken (c :: cs)))
  | int (cs : List Char) (n : Int64) (shown : String) :
    Tells (some .number) cs (some (.int n shown))
  | float (cs : List Char) (x : Float) (shown : String) :
    Tells (some .number) cs (some (.float x shown))
  | str (cs : List Char) (value shown : Bytes) : Tells (some .str) cs (some (.str value shown))
  | punct (cs : List Char) : Tells (some .punct) cs (some (.mark (String.ofList cs)))
  /-- A character that is no symbol of the language. -/
  | other {c : Char} (hc : Script.tokenAt.isPrintable c = false) :
    Tells (some .punct) [c] (some (.mark (Script.shownSymbol c)))

theorem Plain.not_pair {c : Char} {cs : List Char} (h : Plain (c :: cs)) :
    cs.head?.any (isBreakPair c) = false := by
  cases cs with
  | nil => rfl
  | cons d cs =>
    exact not_isBreakPair (h c (List.mem_cons_self ..)).1
      (h d (List.mem_cons_of_mem c (List.mem_cons_self ..))).1

theorem Plain.lineRun {cs : List Char} (h : Plain cs) :
    lineRun cs = (cs.takeWhile (!isBreak ·)).length := by
  unfold Text.lineRun
  induction cs with
  | nil => rfl
  | cons c cs ih =>
    have hc : (c != '\n') = !isBreak c := by
      rw [isBreak_eq (h c (List.mem_cons_self ..)).1]
      rfl
    rw [List.takeWhile_cons, List.takeWhile_cons, hc]
    split
    · rw [List.length_cons, List.length_cons, ih h.of_cons]
    · rfl

theorem isAsciiBlank_of_isSpace {c : Char} (h : Script.Number.isSpace c)
    (hc : c ≠ '\r' ∧ c.toNat ≠ 0x0B) (hb : isBreak c = false) : isAsciiBlank c := by
  have hfeed : c ≠ '\n' := by
    rintro rfl
    cases hb
  have key : ∀ d : Char, c.toNat = d.toNat → c = d := fun d => Char.toNat_inj.1
  simp only [Script.Number.isSpace, Bool.or_eq_true, beq_iff_eq, Bool.and_eq_true,
    decide_eq_true_eq] at h
  obtain rfl | ⟨h9, h13⟩ := h
  · rfl
  · have hr : c.toNat ≠ 0x0D := fun h => hc.1 (key '\r' h)
    have hn : c.toNat ≠ 0x0A := fun h => hfeed (key '\n' h)
    obtain h | h : c.toNat = 9 ∨ c.toNat = 0x0C := by omega
    · rw [key '\t' h]
      rfl
    · simp [isAsciiBlank, h]

theorem not_isAsciiBlank {c : Char} (h : Script.Number.isSpace c = false) :
    isAsciiBlank c = false := by
  refine Bool.eq_false_iff.2 fun hc => ?_
  simp only [isAsciiBlank, Bool.or_eq_true, beq_iff_eq] at hc
  obtain (((rfl | rfl) | rfl) | rfl) | hc := hc
  · cases h
  · cases h
  · cases h
  · cases h
  · simp [Script.Number.isSpace, hc] at h

theorem commentRun_line {more : List Char} (h : Script.openingLevel? more = none) :
    commentRun ('-' :: more) = lineRun ('-' :: more) := by
  unfold commentRun
  rw [List.drop_succ_cons, List.drop_zero]
  split
  · have h : longLevel? _ = none := h
    rw [h]
  · rfl

theorem commentRun_bracket (more : List Char) :
    commentRun ('-' :: '[' :: more) =
      match longLevel? more with
      | some level => 2 + longRun level more
      | none => lineRun ('-' :: '[' :: more) := rfl

theorem commentRun_long {more : List Char} {level k : Nat} (hl : longLevel? more = some level)
    (hk : runThrough (longClose level) (more.drop (level + 1)) = some k) :
    commentRun ('-' :: '[' :: more) = 2 + (level + 1) + k := by
  rw [commentRun_bracket, hl]
  dsimp only
  rw [longRun, hk, Nat.add_assoc]

theorem pieceAt_bracket (cs : List Char) :
    pieceAt '[' cs =
      match longLevel? cs with
      | some level => (some .str, longRun level cs)
      | none => (some .punct, symbolRun '[' cs) := rfl

theorem pieceAt_number {c : Char} {cs : List Char} (h : startsNumber c cs) :
    pieceAt c cs =
      (some .number, numberRun (cs.head?.any fun x => x == 'x' || x == 'X') c cs) := by
  have hvisible : 0x21 ≤ c.toNat := by
    obtain hd | rfl := digit_or_point h
    · exact Nat.le_trans (by decide) (toNat_of_isDigit hd).1
    · decide
  have hquote : ¬(c = '"' ∨ c = '\'') :=
    not_or.2 ⟨ne_of_startsNumber h rfl, ne_of_startsNumber h rfl⟩
  unfold pieceAt
  rw [if_neg (by simp [not_isAsciiBlank (Script.not_isSpace_of_visible hvisible)]),
    if_neg (fun hm => ne_of_startsNumber h rfl hm.1), if_neg hquote]
  exact if_pos h

theorem pieceAt_name {c : Char} {cs : List Char} (h : Script.startsWord c) :
    pieceAt c cs = (some .name, (cs.takeWhile Script.isWordPart).length) := by
  have hspace := Script.not_isSpace_of_visible (Script.visible_of_startsWord h)
  have hne : ∀ d, Script.startsWord d = false → c ≠ d := fun d hd => Script.ne_of_startsWord h hd
  unfold pieceAt
  rw [if_neg (by simp [not_isAsciiBlank hspace]), if_neg (fun hm => hne '-' rfl hm.1),
    if_neg (not_or.2 ⟨hne '"' rfl, hne '\'' rfl⟩),
    if_neg (by simp [Script.not_isDigit_of_startsWord h, hne '.' rfl])]
  exact if_pos h

theorem tells_number {c : Char} {cs : List Char} {t : Script.Token} {r : Script.Number}
    (hstop : stops Script.startsWord (cs.drop (Script.numeralLength c cs)))
    (hr : Script.Number.ofNumeral? false (c :: cs.take (Script.numeralLength c cs)) = some r)
    (ht : Script.numeralAt c cs = (t, Script.numeralLength c cs)) :
    Tells (some .number) (c :: cs.take (Script.numeralLength c cs)) (some t) := by
  have hfree : (cs.drop (Script.numeralLength c cs)).head?.any Script.startsWord = false := by
    cases hd : (cs.drop (Script.numeralLength c cs)).head? with
    | none => rfl
    | some d => exact hstop d hd
  rw [Script.numeralAt_eq] at ht
  dsimp only at ht
  rw [hfree, if_neg (by decide), hr] at ht
  cases r with
  | int v =>
    obtain ⟨rfl, -⟩ := Prod.mk.inj ht
    exact .int _ _ _
  | float v =>
    obtain ⟨rfl, -⟩ := Prod.mk.inj ht
    exact .float _ _ _

theorem tells_symbol (c : Char) (cs : List Char) :
    Tells (some .punct) (c :: cs.take (symbolRun c cs)) (some (.mark (Script.symbolAt c cs))) := by
  rw [Script.symbolAt_eq]
  by_cases hrun : symbolRun c cs = 0
  · rw [if_pos hrun, hrun, List.take_zero]
    cases hc : Script.tokenAt.isPrintable c with
    | true =>
      have hshown : Script.shownSymbol c = String.ofList [c] := by
        simp only [Script.tokenAt.isPrintable, Bool.and_eq_true, decide_eq_true_eq] at hc
        exact (if_pos hc).trans (Char.toString_eq_singleton.trans String.singleton_eq_ofList)
      rw [hshown]
      exact .punct _
    | false => exact .other hc
  · rw [if_neg hrun]
    exact .punct _

/-- The piece that starts where a token or a gap of a program starts ends where that ends. -/
theorem pieceAt_eq {c : Char} {cs : List Char} {t : Option Script.Token} {n : Nat}
    (h : Script.Shape c cs t n) (hp : Plain (c :: cs)) :
    ∃ kind, pieceAt c cs = (kind, n) ∧ Tells kind (c :: cs.take n) t := by
  have hc := hp c (List.mem_cons_self ..)
  cases h with
  | lineEnd h =>
    obtain rfl : c = '\n' := by simpa [isBreak_eq hc.1] using h
    rw [hp.not_pair]
    exact ⟨none, rfl, .gap _⟩
  | space hb h =>
    refine ⟨none, ?_, .gap _⟩
    rw [pieceAt, if_pos (isAsciiBlank_of_isSpace h hc hb)]
  | lineComment h hcs ho =>
    subst h hcs
    refine ⟨none, ?_, .gap _⟩
    rw [← hp.of_cons.lineRun, ← commentRun_line ho]
    rfl
  | longComment h hcs hl hk =>
    subst h hcs
    refine ⟨none, ?_, .gap _⟩
    rw [← commentRun_long hl hk]
    rfl
  | longString value shown h hl hk =>
    subst h
    refine ⟨some .str, ?_, .str _ _ _⟩
    rw [pieceAt_bracket, hl]
    dsimp only
    rw [longRun, hk]
  | bracket h hl =>
    subst h
    refine ⟨some .punct, ?_, .punct _⟩
    rw [pieceAt_bracket, hl]
    dsimp only
    rw [Script.symbolRun_eq_zero.2 (fun d _ => by simp [doubled])]
  | string shown h hs =>
    refine ⟨some .str, ?_, .str _ _ _⟩
    rw [← stringRun_eq h hp.of_cons hs]
    obtain rfl | rfl := h <;> rfl
  | number h hstop hr ht =>
    refine ⟨some .number, ?_, tells_number hstop hr ht⟩
    rw [pieceAt_number h, numberRun_numeral h hstop]
  | word h =>
    refine ⟨some .name, pieceAt_name h, ?_⟩
    rw [← List.prefix_iff_eq_take.1 (List.takeWhile_prefix Script.isWordPart)]
    exact .name h _
  | symbol hb hs hm hl hq hn hw =>
    refine ⟨some .punct, ?_, tells_symbol c cs⟩
    unfold pieceAt
    rw [if_neg (by simp [not_isAsciiBlank hs]), if_neg hm, if_neg hq, if_neg hn,
      if_neg (by simpa [isNameStart, Script.startsWord] using hw), if_neg hl]

end EnvManifest.Patch
