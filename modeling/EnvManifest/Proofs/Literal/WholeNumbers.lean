import Mathlib
import EnvManifest.Proofs.Literal.Agreement
import EnvManifest.Proofs.Manifest.Integers

/-!
# Whole numbers as literals

A text of a sign and digits is a whole number. In decimal digits it is the number itself where 64
bits hold it, and the nearest float elsewhere. In hexadecimal digits it wraps around, as long as 64
bits hold its magnitude.
-/

namespace EnvManifest

open Text
open WholeNumber (positional_eq_foldl ofDecimal_eq ofHex_eq least greatest)

theorem positional_snoc (base : Nat) (digit : Char → Nat) (ds : List Char) (d : Char) :
    positional base digit (ds ++ [d]) = positional base digit ds * base + digit d := by
  rw [positional_eq_foldl, positional_eq_foldl, List.foldl_append]
  rfl

theorem positional_le_append {base : Nat} (h : 0 < base) (digit : Char → Nat) (ds es : List Char) :
    positional base digit ds ≤ positional base digit (ds ++ es) := by
  induction es using List.reverseRecOn with
  | nil => rw [List.append_nil]
  | append_singleton es e ih =>
    rw [← List.append_assoc, positional_snoc]
    have := Nat.le_mul_of_pos_right (positional base digit (ds ++ es)) h
    omega

namespace Sign

theorem splitSign_written (sign : Sign) {c : Char} (h : isSign c = false) (cs : List Char) :
    Decimal.splitSign (sign.written ++ c :: cs) = (decide (sign = .minus), c :: cs) := by
  cases sign with
  | plus => rfl
  | minus => rfl
  | none =>
    have hminus : c ≠ '-' := by
      rintro rfl
      simp [isSign] at h
    have hplus : c ≠ '+' := by
      rintro rfl
      simp [isSign] at h
    simp [written, Decimal.splitSign, hminus, hplus]

theorem apply_between (sign : Sign) {m n : Nat} (h : m ≤ n) {low high : Int} (hlow : low ≤ 0)
    (hhigh : 0 ≤ high) (hn : low ≤ sign.apply n ∧ sign.apply n ≤ high) :
    low ≤ sign.apply m ∧ sign.apply m ≤ high := by
  rw [apply_eq] at hn ⊢
  split at hn
  · rw [if_pos ‹_›]
    omega
  · rw [if_neg ‹_›]
    omega

end Sign

namespace Literal

/-- 64 bits hold the number with its sign. -/
def Within (n : Int) : Prop := least ≤ n ∧ n ≤ greatest

def decimalValue (digits : List Char) : Nat := positional 10 digitValue digits

def hexValue (digits : List Char) : Nat := positional 16 (fun d => (hexValue? d).getD 0) digits

/-- What a sign and decimal digits are read as. The steps go through the digits from the left: what
is read so far is multiplied by ten, and the next digit is added. -/
inductive Exact (sign : Sign) (digits : List Char) : Option Literal → Prop
  | int {n : Int64} (same : n.toInt = sign.apply (decimalValue digits))
    (steps : ∀ front d back, digits = front ++ d :: back →
      Within (sign.apply (10 * decimalValue front)) ∧
        Within (sign.apply (decimalValue (front ++ [d])))) :
    Exact sign digits (some (.int n))
  | float (past : ¬Within (sign.apply (decimalValue digits))) :
    Exact sign digits (some (.float
      (if sign = .minus then -Decimal.nearest (decimalValue digits) 0
       else Decimal.nearest (decimalValue digits) 0)))

/-- What a sign and hexadecimal digits are read as. The steps are those of the magnitude, which has
no sign; the sign comes last and wraps around. -/
inductive Wrapped (sign : Sign) (digits : List Char) : Option Literal → Prop
  | int {n : Int64} (small : hexValue digits < 2 ^ 64)
    (same : n.toInt ≡ sign.apply (hexValue digits) [ZMOD 2 ^ 64])
    (steps : ∀ front d back, digits = front ++ d :: back →
      16 * hexValue front < 2 ^ 64 ∧ hexValue (front ++ [d]) < 2 ^ 64) :
    Wrapped sign digits (some (.int n))
  | float {x : Float} (past : 2 ^ 64 ≤ hexValue digits) : Wrapped sign digits (some (.float x))

/-! ## Steps -/

theorem positional_step (base : Nat) (h : 0 < base) (digit : Char → Nat) (front back : List Char)
    (d : Char) :
    base * positional base digit front ≤ positional base digit (front ++ [d]) ∧
      positional base digit (front ++ [d]) ≤ positional base digit (front ++ d :: back) := by
  refine ⟨?_, ?_⟩
  · rw [positional_snoc, Nat.mul_comm]
    exact Nat.le_add_right ..
  · rw [show front ++ d :: back = (front ++ [d]) ++ back by simp]
    exact positional_le_append h ..

theorem steps_within {sign : Sign} {digits : List Char}
    (h : Within (sign.apply (decimalValue digits))) (front : List Char) (d : Char)
    (back : List Char) (hsplit : digits = front ++ d :: back) :
    Within (sign.apply (10 * decimalValue front)) ∧
      Within (sign.apply (decimalValue (front ++ [d]))) := by
  subst hsplit
  obtain ⟨hmul, hadd⟩ := positional_step 10 (by decide) digitValue front back d
  have hends : least ≤ 0 ∧ 0 ≤ greatest := by decide
  exact ⟨sign.apply_between (hmul.trans hadd) hends.1 hends.2 h,
    sign.apply_between hadd hends.1 hends.2 h⟩

/-! ## Decimal digits -/

theorem decimal?_exact (sign : Sign) {digits : List Char} (filled : digits ≠ [])
    (hds : ∀ d ∈ digits, isDigit d) :
    Exact sign digits (decimal? (decide (sign = .minus)) digits) := by
  have hvalue : (if decide (sign = .minus) then -(ofDecimal digits : Int) else ofDecimal digits) =
      sign.apply (decimalValue digits) := by
    simp [Sign.apply_eq, ofDecimal_eq, decimalValue]
  unfold decimal?
  dsimp only
  rw [hvalue]
  by_cases hwithin : Within (sign.apply (decimalValue digits))
  · have hword : Word.int64? (sign.apply (decimalValue digits)) =
        some (Int64.ofInt (sign.apply (decimalValue digits))) := by
      unfold Within least greatest at hwithin
      unfold Word.int64? Word.half
      rw [if_pos (by omega)]
    rw [hword]
    refine .int ?_ (steps_within hwithin)
    unfold Within least greatest at hwithin
    exact Int64.toInt_ofInt_of_le (by omega) (by omega)
  · have hword : Word.int64? (sign.apply (decimalValue digits)) = none := by
      unfold Within least greatest at hwithin
      unfold Word.int64? Word.half
      rw [if_neg (by omega)]
    have hread := Decimal.Figures.decimal?_text (Decimal.Figures.valid_whole filled hds)
    simp only [Decimal.Figures.text, Decimal.Figures.placesText, Decimal.Figures.powerText,
      Decimal.Figures.coefficient, Decimal.Figures.exponent, Option.getD_none, List.append_nil,
      ofDecimal_eq] at hread
    rw [hword, hread]
    have hfloat := Exact.float hwithin
    simpa [decimalValue] using hfloat

theorem number?_decimal (sign : Sign) {digits : List Char} (filled : digits ≠ [])
    (hds : ∀ d ∈ digits, isDigit d) :
    number? (sign.written ++ digits) = decimal? (decide (sign = .minus)) digits := by
  obtain ⟨c, more, rfl⟩ := List.exists_cons_of_ne_nil filled
  have hsign : isSign c = false := by
    have hc := hds c (List.mem_cons_self ..)
    simp [isSign, ne_of_isDigit hc (d := '-') (by decide), ne_of_isDigit hc (d := '+') (by decide)]
  unfold number?
  rw [sign.splitSign_written hsign]
  dsimp only
  split
  · rename_i h
    cases h
  · rename_i h
    exact absurd (hds 'x' (h ▸ by simp)) (by decide)
  · rename_i h
    exact absurd (hds 'X' (h ▸ by simp)) (by decide)
  · rw [if_pos (List.all_eq_true.2 hds)]

/-! ## Hexadecimal digits -/

theorem hexadecimal?_wrapped (sign : Sign) {digits : List Char} (filled : digits ≠ [])
    (hds : ∀ d ∈ digits, isHexDigit d) :
    Wrapped sign digits (hexadecimal? (decide (sign = .minus)) digits) := by
  have hempty : (digits.isEmpty || !digits.all isHexDigit) = false := by
    simpa [filled] using hds
  have hvalue : ofHex digits = hexValue digits := ofHex_eq digits
  have hsize : Word.size = 2 ^ 64 := by decide
  unfold hexadecimal?
  rw [hempty, if_neg (by decide)]
  dsimp only
  rw [hvalue, hsize]
  split
  · rename_i hsmall
    refine .int hsmall ?_ fun front d back hsplit => ?_
    · rw [Int64.toInt_ofInt, Sign.apply_eq]
      simp only [decide_eq_true_eq]
      exact Int.bmod_emod
    · obtain ⟨hmul, hadd⟩ :=
        positional_step 16 (by decide) (fun d => (hexValue? d).getD 0) front back d
      subst hsplit
      exact ⟨(hmul.trans hadd).trans_lt hsmall, hadd.trans_lt hsmall⟩
  · exact .float (by omega)

theorem number?_hexadecimal (sign : Sign) {x : Char} (hx : isHexMark x) (digits : List Char) :
    number? (sign.written ++ '0' :: x :: digits) =
      hexadecimal? (decide (sign = .minus)) digits := by
  unfold number?
  rw [sign.splitSign_written (by decide)]
  obtain rfl | rfl : x = 'x' ∨ x = 'X' := by simpa [isHexMark] using hx
  all_goals rfl

/-! ## Texts -/

/-- A text that starts with a digit or a sign is a number or no literal. -/
theorem ofText?_number {text : String} {c : Char} {more : List Char}
    (h : trim text.toList = c :: more) (hc : isDigit c ∨ isSign c) :
    ofText? text = number? (c :: more) := by
  have hnot : ∀ d, isDigit d = false → isSign d = false → c ≠ d := by
    rintro d hd hs rfl
    simp [hd, hs] at hc
  have htrue : c :: more ≠ "true".toList := fun h => hnot 't' (by decide) (by decide)
    (List.cons.inj h).1
  have hfalse : c :: more ≠ "false".toList := fun h => hnot 'f' (by decide) (by decide)
    (List.cons.inj h).1
  have hquote : ¬(c = '"' ∨ c = '\'') := not_or.2
    ⟨hnot '"' (by decide) (by decide), hnot '\'' (by decide) (by decide)⟩
  have hbracket : c ≠ '[' := hnot '[' (by decide) (by decide)
  unfold ofText? ofChars?
  rw [h]
  dsimp only
  rw [if_neg htrue, if_neg hfalse, if_neg hquote, if_neg hbracket]

theorem ofText?_signed {text : String} {sign : Sign} {c : Char} {more : List Char}
    (h : trim text.toList = sign.written ++ c :: more) (hc : isDigit c) :
    ofText? text = number? (sign.written ++ c :: more) := by
  cases sign with
  | none => exact ofText?_number h (.inl hc)
  | plus => exact ofText?_number h (.inr (by decide))
  | minus => exact ofText?_number h (.inr (by decide))

theorem ofText?_decimal {text : String} {sign : Sign} {digits : List Char} (filled : digits ≠ [])
    (h : trim text.toList = sign.written ++ digits) (hds : ∀ d ∈ digits, isDigit d) :
    ofText? text = decimal? (decide (sign = .minus)) digits := by
  rw [← number?_decimal sign filled hds]
  obtain ⟨c, more, rfl⟩ := List.exists_cons_of_ne_nil filled
  exact ofText?_signed h (hds c (List.mem_cons_self ..))

/-- **A sign and digits are a literal by the arithmetic of 64 bits.** -/
theorem whole_number_literals (text : String) (sign : Sign) (digits : List Char)
    (filled : digits ≠ []) :
    (trim text.toList = sign.written ++ digits → (∀ d ∈ digits, isDigit d) →
      Exact sign digits (ofText? text)) ∧
    (∀ x, isHexMark x → trim text.toList = sign.written ++ '0' :: x :: digits →
      (∀ d ∈ digits, isHexDigit d) → Wrapped sign digits (ofText? text)) := by
  refine ⟨fun h hds => ?_, fun x hx h hds => ?_⟩
  · rw [ofText?_decimal filled h hds]
    exact decimal?_exact sign filled hds
  · rw [ofText?_signed h (by decide), number?_hexadecimal sign hx]
    exact hexadecimal?_wrapped sign filled hds

/-- The least number of all is one, and the greatest magnitude wraps around to one. -/
theorem outermost_literals :
    (∃ n : Int64, ofText? "\t-09223372036854775808 " = some (.int n) ∧ n.toInt = least) ∧
      ∃ n : Int64, ofText? "-0XFFFFFFFFFFFFFFFF" = some (.int n) ∧ n.toInt = 1 := by
  refine ⟨?_, ?_⟩
  · have trimmed : trim "\t-09223372036854775808 ".toList =
        Sign.minus.written ++ "09223372036854775808".toList := by decide +kernel
    have read := (whole_number_literals _ .minus _ (by decide)).1 trimmed (List.all_eq_true.1 rfl)
    have value : decimalValue "09223372036854775808".toList = 9223372036854775808 := by
      decide +kernel
    generalize ofText? "\t-09223372036854775808 " = l at read
    cases read with
    | int same steps => exact ⟨_, rfl, by rw [same, value]; rfl⟩
    | float past => exact absurd ⟨by rw [value]; decide, by rw [value]; decide⟩ past
  · have trimmed : trim "-0XFFFFFFFFFFFFFFFF".toList =
        Sign.minus.written ++ '0' :: 'X' :: List.replicate 16 'F' := by decide +kernel
    have read :=
      (whole_number_literals _ .minus _ (by decide)).2 'X' rfl trimmed (List.all_eq_true.1 rfl)
    have value : hexValue (List.replicate 16 'F') = 18446744073709551615 := by decide +kernel
    generalize ofText? "-0XFFFFFFFFFFFFFFFF" = l at read
    cases read with
    | @int n small same steps =>
      rw [value, Int.ModEq] at same
      have low := n.le_toInt
      have high := n.toInt_lt
      refine ⟨n, rfl, ?_⟩
      simp only [Sign.apply] at same
      omega
    | float past => exact absurd past (by rw [value]; decide)

end Literal

end EnvManifest
