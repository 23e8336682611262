import EnvManifest.Proofs.Decimal.Value

/-!
# Rounding

An operation on floats computes the first bits of its result, and two bits that say where the
exact result lies above them. From these the nearest float is found.
-/

namespace EnvManifest.Decimal

open Float.Model Float.Model.UnpackedFloat

/-- A mantissa with its two further bits stands for the exact number `q`. -/
def Marks (em : ExtendedMantissa) (q : ℚ) : Prop :=
  match em.roundBit, em.stickyBit with
  | false, false => q = em.mantissa
  | false, true => em.mantissa < q ∧ q < em.mantissa + 1 / 2
  | true, false => q = em.mantissa + 1 / 2
  | true, true => em.mantissa + 1 / 2 < q ∧ q < em.mantissa + 1

theorem marks_exact (m : Nat) : Marks (.ofMantissaAndAccuracy m .exact) m := rfl

namespace Marks

variable {em : ExtendedMantissa} {q : ℚ}

theorem mantissa_le (h : Marks em q) : em.mantissa ≤ q := by
  obtain ⟨m, round, sticky⟩ := em
  unfold Marks at h
  cases round <;> cases sticky <;> dsimp only at h ⊢ <;> linarith

theorem lt_mantissa_succ (h : Marks em q) : q < em.mantissa + 1 := by
  obtain ⟨m, round, sticky⟩ := em
  unfold Marks at h
  cases round <;> cases sticky <;> dsimp only at h ⊢ <;> linarith

/-- A bit moves from the mantissa into the marks. -/
theorem shiftRightOne (h : Marks em q) : Marks em.shiftRightOne (q / 2) := by
  obtain ⟨m, round, sticky⟩ := em
  have hsplit : (m : ℚ) = 2 * (m / 2 : Nat) + (m % 2 : Nat) := by
    exact_mod_cast (Nat.div_add_mod m 2).symm
  rcases Nat.mod_two_eq_zero_or_one m with heven | hodd
  · have hround : (m % 2 != 0) = false := by rw [heven, bne_self_eq_false]
    rw [heven, Nat.cast_zero, add_zero] at hsplit
    unfold Marks ExtendedMantissa.shiftRightOne at *
    cases round <;> cases sticky <;>
      simp only [hround, Bool.or_self, Bool.or_true, Bool.or_false] at h ⊢
    · linarith
    · constructor <;> linarith
    · constructor <;> linarith
    · constructor <;> linarith
  · have hround : (m % 2 != 0) = true := by rw [hodd]; rfl
    rw [hodd, Nat.cast_one] at hsplit
    unfold Marks ExtendedMantissa.shiftRightOne at *
    cases round <;> cases sticky <;>
      simp only [hround, Bool.or_self, Bool.or_true, Bool.or_false] at h ⊢
    · linarith
    · constructor <;> linarith
    · constructor <;> linarith
    · constructor <;> linarith

theorem shiftRight (h : Marks em q) (n : Nat) : Marks (em >>> n) (q / 2 ^ n) := by
  induction n with
  | zero =>
    rw [pow_zero, div_one]
    exact h
  | succ n ih =>
    have hstep := ih.shiftRightOne
    rw [div_div, ← pow_succ] at hstep
    exact hstep

/-- **A number at most one half away from `n` is rounded to `n`**, if `n` is even or the distance
is less. -/
theorem roundedMantissa_eq (h : Marks em q) {n : Nat} (hlow : n - 1 / 2 ≤ q)
    (hhigh : q ≤ n + 1 / 2) (hodd : n % 2 = 1 → n - 1 / 2 < q ∧ q < n + 1 / 2) :
    em.roundedMantissa = n := by
  have hbelow : n ≤ em.mantissa + 1 := by
    have := h.lt_mantissa_succ
    have hlt : (n : ℚ) < em.mantissa + 2 := by linarith
    have : n < em.mantissa + 2 := by exact_mod_cast hlt
    omega
  have habove : em.mantissa ≤ n := by
    have := h.mantissa_le
    have hlt : (em.mantissa : ℚ) < n + 1 := by linarith
    have : em.mantissa < n + 1 := by exact_mod_cast hlt
    omega
  obtain ⟨m, round, sticky⟩ := em
  dsimp only at hbelow habove
  unfold ExtendedMantissa.roundedMantissa
  obtain rfl | rfl : n = m ∨ n = m + 1 := by omega
  · unfold Marks at h
    cases round <;> cases sticky <;> dsimp only at h
    · rfl
    · rfl
    · have hm : n % 2 = 0 := by
        rcases Nat.mod_two_eq_zero_or_one n with heven | hn
        · exact heven
        · have := hodd hn
          linarith
      simp [ExtendedMantissa.accuracy, Accuracy.roundToNearestEven, hm]
    · linarith
  · push_cast at hlow hhigh hodd
    unfold Marks at h
    cases round <;> cases sticky <;> dsimp only at h
    · linarith
    · linarith
    · have hm : m % 2 = 1 := by
        rcases Nat.mod_two_eq_zero_or_one m with heven | hm
        · have := hodd (by omega)
          linarith
        · exact hm
      simp [ExtendedMantissa.accuracy, Accuracy.roundToNearestEven, hm]
    · rfl

end Marks

/-- The marks of a quotient are found from its remainder. -/
theorem marks_accuracyOfFraction (a : Nat) {b : Nat} (hb : 0 < b) :
    Marks (.ofMantissaAndAccuracy (a / b) (accuracyOfFraction (a % b) b)) (a / b) := by
  have hden : (0 : ℚ) < b := by exact_mod_cast hb
  have hsplit : (a : ℚ) = b * (a / b : Nat) + (a % b : Nat) := by
    exact_mod_cast (Nat.div_add_mod a b).symm
  have hvalue : (a : ℚ) / b = (a / b : Nat) + (a % b : Nat) / (b : ℚ) := by
    conv_lhs => rw [hsplit]
    field_simp
  have hsmall : ((a % b : Nat) : ℚ) / b < 1 := by
    rw [div_lt_one hden]
    exact_mod_cast Nat.mod_lt _ hb
  unfold accuracyOfFraction
  split
  · rename_i hzero
    rw [hzero, Nat.cast_zero, zero_div, add_zero] at hvalue
    exact hvalue
  · rename_i hpos
    have hpos' : 0 < ((a % b : Nat) : ℚ) / b := by
      have : 0 < a % b := Nat.pos_of_ne_zero hpos
      positivity
    rw [hvalue]
    rcases lt_trichotomy (2 * (a % b)) b with hlt | heq | hgt
    · have hlt' : ((a % b : Nat) : ℚ) / b < 1 / 2 := by
        rw [div_lt_div_iff₀ hden two_pos]
        have : 2 * ((a % b : Nat) : ℚ) < b := by exact_mod_cast hlt
        linarith
      rw [Nat.compare_eq_lt.mpr hlt]
      constructor
      · exact lt_add_of_pos_right _ hpos'
      · exact add_lt_add_right hlt' _
    · have heq' : ((a % b : Nat) : ℚ) / b = 1 / 2 := by
        rw [div_eq_div_iff hden.ne' two_ne_zero]
        have : 2 * ((a % b : Nat) : ℚ) = b := by exact_mod_cast heq
        linarith
      rw [Nat.compare_eq_eq.mpr heq, heq']
      rfl
    · have hgt' : 1 / 2 < ((a % b : Nat) : ℚ) / b := by
        rw [div_lt_div_iff₀ two_pos hden]
        have : (b : ℚ) < 2 * (a % b : Nat) := by exact_mod_cast hgt
        linarith
      rw [Nat.compare_eq_gt.mpr hgt]
      constructor
      · exact add_lt_add_right hgt' _
      · exact add_lt_add_right hsmall _

theorem mantissa_ofMantissaAndAccuracy (m : Nat) (accuracy : Accuracy) :
    (ExtendedMantissa.ofMantissaAndAccuracy m accuracy).mantissa = m := by
  cases accuracy with
  | exact => rfl
  | inexact o => cases o <;> rfl

/-- The exponent to which a mantissa is shifted. -/
def target (m : Nat) (e : Int) : Int := max (m.log2 - 52 + e) (-1074)

theorem targetExponent_eq (m : Nat) (e : Int) :
    Format.binary64.targetExponent (totalExponent m e) = target m e := by
  have hbits : Format.binary64.mantissaBits = 53 := rfl
  have hleast : Format.binary64.minExponent = -1074 := rfl
  unfold Format.targetExponent totalExponent target
  rw [hbits, hleast]
  omega

theorem shiftToTargetExponent_eq (m : Nat) (e : Int) (accuracy : Accuracy) :
    shiftToTargetExponent .binary64 m e accuracy =
      (ExtendedMantissa.ofMantissaAndAccuracy m accuracy >>> (target m e - e).toNat,
        e + (target m e - e).toNat) := by
  unfold shiftToTargetExponent shiftToExponent
  rw [targetExponent_eq]

section Bits

variable {r : ℚ} {m : Nat} {e : Int} {accuracy : Accuracy}

theorem log2_lt_of_marks (hm : Marks (.ofMantissaAndAccuracy m accuracy) (r / 2 ^ e)) (hpos : 0 < m)
    {k : Int} (hr : r < 2 ^ k) : m.log2 + e < k := by
  have hscale : (0 : ℚ) < 2 ^ e := by positivity
  have hle := hm.mantissa_le
  rw [mantissa_ofMantissaAndAccuracy, le_div_iff₀ hscale] at hle
  have hlog : (2 : ℚ) ^ (m.log2 : Int) ≤ m := by
    rw [zpow_natCast]
    exact_mod_cast Nat.log2_self_le hpos.ne'
  rw [← zpow_lt_zpow_iff_right₀ (one_lt_two (α := ℚ))]
  calc (2 : ℚ) ^ ((m.log2 : Int) + e) = 2 ^ (m.log2 : Int) * 2 ^ e := zpow_add₀ two_ne_zero _ _
    _ ≤ m * 2 ^ e := mul_le_mul_of_nonneg_right hlog hscale.le
    _ ≤ r := hle
    _ < 2 ^ k := hr

theorem le_log2_of_marks (hm : Marks (.ofMantissaAndAccuracy m accuracy) (r / 2 ^ e)) {k : Int}
    (hr : 2 ^ k ≤ r) (he : e ≤ k) : k ≤ m.log2 + e := by
  have hscale : (0 : ℚ) < 2 ^ e := by positivity
  obtain ⟨n, hn⟩ := Int.eq_ofNat_of_zero_le (show 0 ≤ k - e by omega)
  obtain rfl : k = n + e := by omega
  have hlt := hm.lt_mantissa_succ
  rw [mantissa_ofMantissaAndAccuracy] at hlt
  have hle : (2 : ℚ) ^ n ≤ r / 2 ^ e := by
    rw [le_div_iff₀ hscale, ← zpow_natCast, ← zpow_add₀ two_ne_zero]
    exact hr
  have hpow : 2 ^ n < m + 1 := by
    have : (2 : ℚ) ^ n < m + 1 := lt_of_le_of_lt hle hlt
    exact_mod_cast this
  have hpos : 0 < 2 ^ n := Nat.two_pow_pos n
  have hlog : n ≤ m.log2 := (Nat.le_log2 (by omega)).mpr (by omega)
  omega

end Bits

/-- Are there enough bits to round? -/
def Fine (m : Nat) (e : Int) : Prop := e ≤ -1074 ∨ Binary.hiddenBit ≤ m

theorem le_log2_of_hiddenBit_le {m : Nat} (h : Binary.hiddenBit ≤ m) : 52 ≤ m.log2 := by
  unfold Binary.hiddenBit at h
  exact (Nat.le_log2 (by omega)).mpr h

theorem Fine.le_target {m : Nat} {e : Int} (h : Fine m e) : e ≤ target m e := by
  unfold target
  rcases h with he | hm
  · omega
  · have := le_log2_of_hiddenBit_le hm
    omega

theorem roundWithAccuracy_of_shifts {m n : Nat} {e e' k : Int} {accuracy : Accuracy}
    {first second : ExtendedMantissa} {s : Sign} {hpos : 0 < n}
    (hfirst : shiftToTargetExponent .binary64 m e accuracy = (first, e'))
    (hsecond : shiftToTargetExponent .binary64 first.roundedMantissa e' .exact = (second, k))
    (hn : second.mantissa = n) :
    roundWithAccuracy .binary64 s m e accuracy = .finite s n k hpos := by
  subst hn
  unfold roundWithAccuracy
  rw [hfirst]
  dsimp only
  rw [hsecond]
  exact dif_neg hpos.ne'

namespace Binary.Nearby

variable {b : Binary} {r : ℚ}

theorem le_of_full (hr : b.Nearby r) (hfull : hiddenBit ≤ b.mantissa) :
    2 ^ (51 + b.exponent) ≤ r := by
  have hscale : (0 : ℚ) < 2 ^ b.exponent := by positivity
  have hmantissa : (4503599627370496 : ℚ) ≤ b.mantissa := by
    unfold hiddenBit at hfull
    exact_mod_cast hfull
  have hpower : (2 : ℚ) ^ (51 : Int) = 2251799813685248 := by norm_num
  calc (2 : ℚ) ^ (51 + b.exponent) = 2 ^ (51 : Int) * 2 ^ b.exponent := zpow_add₀ two_ne_zero _ _
    _ ≤ b.low := by
      unfold low
      apply mul_le_mul_of_nonneg_right _ hscale.le
      rw [hpower]
      split <;> linarith
    _ ≤ r := hr.low_le

/-- Below the full mantissas lies only the lower part of the interval of a power of two. -/
theorem eq_hiddenBit_of_lt (hr : b.Nearby r) (hfull : hiddenBit ≤ b.mantissa)
    (hlt : r < 2 ^ (52 + b.exponent)) : b.mantissa = hiddenBit := by
  have hscale : (0 : ℚ) < 2 ^ b.exponent := by positivity
  have hbit : (hiddenBit : ℚ) = 2 ^ (52 : Int) := by norm_num [hiddenBit]
  have hlow : b.low < hiddenBit * 2 ^ b.exponent := by
    rw [hbit, ← zpow_add₀ two_ne_zero]
    exact lt_of_le_of_lt hr.low_le hlt
  have hmantissa : (b.mantissa : ℚ) < hiddenBit + 1 := by
    have hlt := lt_of_mul_lt_mul_right hlow hscale.le
    split at hlt <;> linarith
  have : b.mantissa < hiddenBit + 1 := by exact_mod_cast hmantissa
  omega

theorem roundedMantissa_eq (hr : b.Nearby r) {em : ExtendedMantissa}
    (hm : Marks em (r / 2 ^ b.exponent)) : em.roundedMantissa = b.mantissa := by
  have hscale : (0 : ℚ) < 2 ^ b.exponent := by positivity
  have hlow : (b.mantissa - 1 / 2) * 2 ^ b.exponent ≤ b.low := by
    unfold low
    apply mul_le_mul_of_nonneg_right _ hscale.le
    split <;> linarith
  refine hm.roundedMantissa_eq ?_ ?_ ?_
  · rw [le_div_iff₀ hscale]
    exact hlow.trans hr.low_le
  · rw [div_le_iff₀ hscale]
    exact hr.le_high
  · intro hodd
    obtain ⟨hl, hh⟩ := hr.odd hodd
    rw [lt_div_iff₀ hscale, div_lt_iff₀ hscale]
    exact ⟨lt_of_le_of_lt hlow hl, hh⟩

/-- With one bit more the lower part of the interval of a power of two is rounded up to it. -/
theorem roundedMantissa_eq_of_lt (hr : b.Nearby r) (hbit : b.mantissa = hiddenBit)
    (hleast : b.exponent ≠ -1074) (hlt : r < 2 ^ (52 + b.exponent)) {em : ExtendedMantissa}
    (hm : Marks em (r / 2 ^ (b.exponent - 1))) : em.roundedMantissa = 2 * hiddenBit := by
  have hscale : (0 : ℚ) < 2 ^ (b.exponent - 1) := by positivity
  have hdouble : (2 : ℚ) ^ b.exponent = 2 * 2 ^ (b.exponent - 1) := by
    rw [zpow_sub_one₀ two_ne_zero]
    field_simp
  have hvalue : (hiddenBit : ℚ) = 2 ^ (52 : Int) := by norm_num [hiddenBit]
  have hlow : b.low = (2 * hiddenBit - 1 / 2) * 2 ^ (b.exponent - 1) := by
    unfold low
    rw [if_pos ⟨hbit, hleast⟩, hbit, hdouble]
    ring
  have hhigh : r < 2 * hiddenBit * 2 ^ (b.exponent - 1) := by
    rw [zpow_add₀ two_ne_zero, hdouble, ← hvalue] at hlt
    linarith
  refine hm.roundedMantissa_eq ?_ ?_ (by omega)
  · push_cast
    rw [le_div_iff₀ hscale, ← hlow]
    exact hr.low_le
  · push_cast
    rw [div_le_iff₀ hscale]
    linarith

end Binary.Nearby

namespace Binary.Canonical

variable {b : Binary} {r : ℚ} {m : Nat} {e : Int} {accuracy : Accuracy}

theorem lt_of_nearby (hb : b.Canonical) (hr : b.Nearby r) : r < 2 ^ (53 + b.exponent) := by
  have hscale : (0 : ℚ) < 2 ^ b.exponent := by positivity
  have hmantissa : (b.mantissa : ℚ) + 1 ≤ 2 ^ (53 : Int) := by
    have := hb.mantissa_lt
    unfold hiddenBit at this
    have hle : b.mantissa + 1 ≤ 2 ^ 53 := by omega
    exact_mod_cast hle
  calc r ≤ b.high := hr.le_high
    _ < 2 ^ (53 : Int) * 2 ^ b.exponent := by
      unfold high
      apply mul_lt_mul_of_pos_right _ hscale
      linarith
    _ = 2 ^ (53 + b.exponent) := (zpow_add₀ two_ne_zero _ _).symm

/-- The exponent to which a mantissa is shifted is that of the number, or one less if the number is
a power of two and the mantissa still has to be rounded up to it. -/
theorem target_cases (hb : b.Canonical) (hr : b.Nearby r) (hfine : Fine m e)
    (hm : Marks (.ofMantissaAndAccuracy m accuracy) (r / 2 ^ e)) :
    target m e = b.exponent ∨
      target m e = b.exponent - 1 ∧ b.mantissa = hiddenBit ∧ b.exponent ≠ -1074 ∧
        r < 2 ^ (52 + b.exponent) := by
  have hzero : m = 0 → e ≤ -1074 ∧ m.log2 = 0 := by
    rintro rfl
    refine ⟨hfine.resolve_right ?_, by simp⟩
    unfold hiddenBit
    omega
  have hupper : m = 0 ∨ m.log2 + e < 53 + b.exponent := by
    rcases Nat.eq_zero_or_pos m with hzero | hpos
    · exact .inl hzero
    · exact .inr (log2_lt_of_marks hm hpos (hb.lt_of_nearby hr))
  have hle := hb.le_exponent
  by_cases hleast : b.exponent = -1074
  · refine .inl ?_
    unfold target
    omega
  · have hfull : hiddenBit ≤ b.mantissa := hb.full.resolve_right hleast
    have hreach : e ≤ 51 + b.exponent := by
      rcases hfine with he | hwide
      · omega
      · have := le_log2_of_hiddenBit_le hwide
        omega
    by_cases hpower : 2 ^ (52 + b.exponent) ≤ r
    · have := le_log2_of_marks hm hpower (by omega)
      refine .inl ?_
      unfold target
      omega
    · have hlt := not_le.mp hpower
      have hlower := le_log2_of_marks hm (hr.le_of_full hfull) hreach
      have hpos : 0 < m := by
        refine Nat.pos_of_ne_zero fun h => ?_
        have := hzero h
        omega
      have := log2_lt_of_marks hm hpos hlt
      refine .inr ⟨?_, hr.eq_hiddenBit_of_lt hfull hlt, hleast, hlt⟩
      unfold target
      omega

theorem target_self (hb : b.Canonical) : target b.mantissa b.exponent = b.exponent := by
  have hle := hb.le_exponent
  have hupper : b.mantissa.log2 < 53 := (Nat.log2_lt hb.pos.ne').mpr hb.mantissa_lt
  unfold target
  rcases hb.full with hfull | hleast
  · have := le_log2_of_hiddenBit_le hfull
    omega
  · omega

/-- **A result is rounded to the number that it is nearby.** -/
theorem roundWithAccuracy_eq (hb : b.Canonical) (hr : b.Nearby r) (hfine : Fine m e)
    (hm : Marks (.ofMantissaAndAccuracy m accuracy) (r / 2 ^ e)) (s : Sign) :
    roundWithAccuracy .binary64 s m e accuracy = .finite s b.mantissa b.exponent hb.pos := by
  have hle := hfine.le_target
  have hshift : r / 2 ^ e / 2 ^ (target m e - e).toNat = r / 2 ^ target m e := by
    rw [← zpow_natCast, Int.toNat_of_nonneg (by omega), div_div, ← zpow_add₀ two_ne_zero]
    congr 2
    omega
  have hmarks := hm.shiftRight (target m e - e).toNat
  rw [hshift] at hmarks
  have hexponent : e + (target m e - e).toNat = target m e := by omega
  have hfirst := shiftToTargetExponent_eq m e accuracy
  rw [hexponent] at hfirst
  rcases hb.target_cases hr hfine hm with hsame | ⟨hless, hbit, hleast, hlt⟩
  · rw [hsame] at hmarks hfirst
    have hsecond : shiftToTargetExponent .binary64 b.mantissa b.exponent .exact =
        (⟨b.mantissa, false, false⟩, b.exponent) := by
      rw [shiftToTargetExponent_eq, hb.target_self, sub_self, Int.toNat_zero, Nat.cast_zero,
        add_zero]
      rfl
    rw [← hr.roundedMantissa_eq hmarks] at hsecond
    exact roundWithAccuracy_of_shifts hfirst hsecond (hr.roundedMantissa_eq hmarks)
  · rw [hless] at hmarks hfirst
    have htarget : target (2 * hiddenBit) (b.exponent - 1) = b.exponent := by
      have := hb.le_exponent
      have hlog : (2 * hiddenBit).log2 = 53 := by decide
      unfold target
      omega
    have hsecond : shiftToTargetExponent .binary64 (2 * hiddenBit) (b.exponent - 1) .exact =
        (⟨hiddenBit, false, false⟩, b.exponent) := by
      rw [shiftToTargetExponent_eq, htarget, sub_sub_cancel, Int.toNat_one, Nat.cast_one,
        sub_add_cancel]
      rfl
    rw [← hr.roundedMantissa_eq_of_lt hbit hleast hlt hmarks] at hsecond
    exact roundWithAccuracy_of_shifts hfirst hsecond hbit.symm

end Binary.Canonical

end EnvManifest.Decimal
