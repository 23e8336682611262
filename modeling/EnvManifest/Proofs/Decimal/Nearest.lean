import EnvManifest.Decimal.Read
import EnvManifest.Proofs.Decimal.Bits
import EnvManifest.Proofs.Decimal.Rounding
import EnvManifest.Proofs.Text.Digits

/-!
# The nearest float

A decimal that is nearby a float is read as this float, be it by one product or quotient of two
floats or by way of long numbers.
-/

namespace EnvManifest.Decimal

open Float.Model Float.Model.UnpackedFloat

variable {b : Binary} {r : ℚ}

theorem mul_eq (hb : b.Canonical) (hr : b.Nearby r) {m n : Nat} {e k : Int} {hm : 0 < m}
    {hn : 0 < n} (hvalue : (m * 2 ^ e) * (n * 2 ^ k) = r) (hfine : Fine (m * n) (e + k)) :
    UnpackedFloat.mul .binary64 (.finite .positive m e hm) (.finite .positive n k hn) =
      .finite .positive b.mantissa b.exponent hb.pos := by
  have hmarks : Marks (.ofMantissaAndAccuracy (m * n) .exact) (r / 2 ^ (e + k)) := by
    have hquotient : r / 2 ^ (e + k) = (m * n : Nat) := by
      rw [← hvalue, zpow_add₀ two_ne_zero]
      push_cast
      field_simp
    rw [hquotient]
    exact marks_exact _
  exact hb.roundWithAccuracy_eq hr hfine hmarks .positive

/-- A quotient is computed to 53 bits, unless it is below all of them. -/
theorem fine_divCore {m n : Nat} {e k : Int} (hm : 0 < m) (hn : 0 < n) :
    Fine (divCore .binary64 m e n k).1 (divCore .binary64 m e n k).2.1 := by
  unfold divCore
  dsimp only
  generalize htarget : min (e - k) (Format.binary64.targetExponent
    (totalExponent m e - totalExponent n k)) = t
  have hcases : t ≤ -1074 ∨ t ≤ e - k ∧ t ≤ m.log2 + e - (n.log2 + k) - 53 := by
    unfold Format.targetExponent totalExponent at htarget
    have hbits : Format.binary64.mantissaBits = 53 := rfl
    have hleast : Format.binary64.minExponent = -1074 := rfl
    rw [hbits, hleast] at htarget
    omega
  rcases hcases with hsmall | ⟨hle, hwide⟩
  · exact .inl hsmall
  · have hshift : n.log2 + 53 ≤ m.log2 + (e - k - t).toNat := by omega
    refine .inr ((Nat.le_div_iff_mul_le hn).mpr ?_)
    calc Binary.hiddenBit * n ≤ 2 ^ 52 * 2 ^ (n.log2 + 1) :=
          Nat.mul_le_mul_left _ Nat.lt_log2_self.le
      _ = 2 ^ (n.log2 + 53) := by rw [← pow_add]; congr 1; omega
      _ ≤ 2 ^ (m.log2 + (e - k - t).toNat) := Nat.pow_le_pow_right two_pos hshift
      _ = 2 ^ m.log2 * 2 ^ (e - k - t).toNat := pow_add ..
      _ ≤ m * 2 ^ (e - k - t).toNat := Nat.mul_le_mul_right _ (Nat.log2_self_le hm.ne')
      _ = m <<< (e - k - t).toNat := (Nat.shiftLeft_eq ..).symm

theorem marks_divCore {m n : Nat} {e k : Int} (hn : 0 < n)
    (hvalue : (m * 2 ^ e) / (n * 2 ^ k) = r) :
    Marks (.ofMantissaAndAccuracy (divCore .binary64 m e n k).1 (divCore .binary64 m e n k).2.2)
      (r / 2 ^ (divCore .binary64 m e n k).2.1) := by
  unfold divCore
  dsimp only
  generalize htarget : min (e - k) (Format.binary64.targetExponent
    (totalExponent m e - totalExponent n k)) = t
  have hle : t ≤ e - k := by omega
  have hpos : (0 : ℚ) < n := by exact_mod_cast hn
  have hmarks := marks_accuracyOfFraction (m <<< (e - k - t).toNat) hn
  have hquotient : r / 2 ^ t = ((m <<< (e - k - t).toNat : Nat) : ℚ) / n := by
    rw [← hvalue, Nat.shiftLeft_eq]
    push_cast
    rw [← zpow_natCast, Int.toNat_of_nonneg (by omega), zpow_sub₀ two_ne_zero,
      zpow_sub₀ two_ne_zero]
    field_simp
  rw [hquotient]
  exact hmarks

theorem div_eq (hb : b.Canonical) (hr : b.Nearby r) {m n : Nat} {e k : Int} {hm : 0 < m}
    {hn : 0 < n} (hvalue : (m * 2 ^ e) / (n * 2 ^ k) = r) :
    UnpackedFloat.div .binary64 (.finite .positive m e hm) (.finite .positive n k hn) =
      .finite .positive b.mantissa b.exponent hb.pos :=
  hb.roundWithAccuracy_eq hr (fine_divCore hm hn) (marks_divCore hn hvalue) .positive

/-- Two floats whose product is nearby a float have this product. -/
theorem float_mul_eq (hb : b.Canonical) (hr : b.Nearby r) {x y : Float} {m n : Nat} {e k : Int}
    {hm : 0 < m} {hn : 0 < n} (hx : x.toModel.unpack = .finite .positive m e hm)
    (hy : y.toModel.unpack = .finite .positive n k hn) (hvalue : (m * 2 ^ e) * (n * 2 ^ k) = r)
    (hfine : Fine (m * n) (e + k)) : x * y = hb.toFloat .positive := by
  change Float.ofModel (.pack (UnpackedFloat.mul .binary64 x.toModel.unpack y.toModel.unpack)) = _
  rw [hx, hy, mul_eq hb hr hvalue hfine]
  rfl

theorem float_div_eq (hb : b.Canonical) (hr : b.Nearby r) {x y : Float} {m n : Nat} {e k : Int}
    {hm : 0 < m} {hn : 0 < n} (hx : x.toModel.unpack = .finite .positive m e hm)
    (hy : y.toModel.unpack = .finite .positive n k hn) (hvalue : (m * 2 ^ e) / (n * 2 ^ k) = r) :
    x / y = hb.toFloat .positive := by
  change Float.ofModel (.pack (UnpackedFloat.div .binary64 x.toModel.unpack y.toModel.unpack)) = _
  rw [hx, hy, div_eq hb hr hvalue]
  rfl

theorem le_of_nearby (hb : b.Canonical) (hr : b.Nearby r) : 2 ^ (-1075 : Int) ≤ r := by
  have hmantissa : (1 : ℚ) ≤ b.mantissa := by exact_mod_cast hb.pos
  have hexponent : (2 : ℚ) ^ (-1074 : Int) ≤ 2 ^ b.exponent :=
    zpow_le_zpow_right₀ one_le_two hb.le_exponent
  have hscale : (0 : ℚ) < 2 ^ b.exponent := by positivity
  calc (2 : ℚ) ^ (-1075 : Int) = 2⁻¹ * 2 ^ (-1074 : Int) := by
        rw [← zpow_neg_one, ← zpow_add₀ two_ne_zero]
        norm_num
    _ ≤ 2⁻¹ * 2 ^ b.exponent := by linarith
    _ ≤ b.low := by
      unfold Binary.low
      apply mul_le_mul_of_nonneg_right _ hscale.le
      split <;> linarith
    _ ≤ r := hr.low_le

theorem lt_of_nearby (hb : b.Canonical) (hr : b.Nearby r) : r < 2 ^ (1024 : Int) := by
  have hexponent := hb.exponent_le
  exact lt_of_lt_of_le (hb.lt_of_nearby hr) (zpow_le_zpow_right₀ one_le_two (by omega))

theorem pos_of_nearby (hb : b.Canonical) (hr : b.Nearby r) : 0 < r :=
  lt_of_lt_of_le (by positivity) (le_of_nearby hb hr)

section Scientific

variable {c : Nat} {d : Int}

theorem coefficient_pos (hb : b.Canonical) (hr : b.Nearby (c * 10 ^ d)) : 0 < c := by
  refine Nat.pos_of_ne_zero ?_
  rintro rfl
  have := pos_of_nearby hb hr
  simp at this

/-- The exponent of a decimal that is nearby a float is no larger than that of the float. -/
theorem exponent_lt_of_nearby (hb : b.Canonical) (hr : b.Nearby (c * 10 ^ d)) : d < 1024 := by
  have hone : (1 : ℚ) ≤ c := by exact_mod_cast coefficient_pos hb hr
  refine lt_of_not_ge fun h => ?_
  have hpower : (2 : ℚ) ^ (1024 : Int) ≤ c * 10 ^ d :=
    calc (2 : ℚ) ^ (1024 : Int) ≤ 10 ^ (1024 : Int) :=
          zpow_le_zpow_left₀ (by norm_num) (by norm_num) (by norm_num)
      _ ≤ 10 ^ d := zpow_le_zpow_right₀ (by norm_num) h
      _ ≤ c * 10 ^ d := le_mul_of_one_le_left (by positivity) hone
  exact absurd (lt_of_nearby hb hr) (not_lt.mpr hpower)

theorem le_exponent_of_nearby (hb : b.Canonical) (hr : b.Nearby (c * 10 ^ d)) :
    -1076 ≤ d + c.log2 := by
  refine le_of_not_gt fun h => ?_
  have hcoefficient : (c : ℚ) < 2 ^ ((c.log2 : Int) + 1) := by
    have hlt : c < 2 ^ (c.log2 + 1) := Nat.lt_log2_self
    have : (c : ℚ) < 2 ^ (c.log2 + 1) := by exact_mod_cast hlt
    rwa [← zpow_natCast, Nat.cast_add, Nat.cast_one] at this
  have hpower : (10 : ℚ) ^ d ≤ 2 ^ d := by
    have hneg : (2 : ℚ) ^ (-d) ≤ 10 ^ (-d) :=
      zpow_le_zpow_left₀ (by omega) (by norm_num) (by norm_num)
    rw [zpow_neg, zpow_neg] at hneg
    exact (inv_le_inv₀ (by positivity) (by positivity)).mp hneg
  have hlt : (c : ℚ) * 10 ^ d < 2 ^ (-1075 : Int) :=
    calc (c : ℚ) * 10 ^ d < 2 ^ ((c.log2 : Int) + 1) * 10 ^ d :=
          mul_lt_mul_of_pos_right hcoefficient (by positivity)
      _ ≤ 2 ^ ((c.log2 : Int) + 1) * 2 ^ d := mul_le_mul_of_nonneg_left hpower (by positivity)
      _ = 2 ^ ((c.log2 : Int) + 1 + d) := (zpow_add₀ two_ne_zero _ _).symm
      _ ≤ 2 ^ (-1075 : Int) := zpow_le_zpow_right₀ one_le_two (by omega)
  exact absurd (le_of_nearby hb hr) (not_le.mpr hlt)

theorem unpacked_ofScientific (hb : b.Canonical) (hr : b.Nearby (c * 10 ^ d)) :
    UnpackedFloat.ofScientific .binary64 c d =
      .finite .positive b.mantissa b.exponent hb.pos := by
  have hc := coefficient_pos hb hr
  have hhigh := exponent_lt_of_nearby hb hr
  have hlow := le_exponent_of_nearby hb hr
  have hbits : Format.binary64.mantissaBits = 53 := rfl
  unfold UnpackedFloat.ofScientific
  rw [dif_neg hc.ne', if_neg (by norm_num; omega), if_neg (by norm_num; omega)]
  by_cases hd : 0 ≤ d
  · rw [if_pos hd]
    refine mul_eq hb hr ?_ ?_
    · rw [hbits, Nat.shiftLeft_eq]
      push_cast
      have hone : (9007199254740992 : ℚ) * (2 ^ (53 : Int))⁻¹ = 1 := by norm_num
      rw [← zpow_natCast (10 : ℚ), Int.toNat_of_nonneg hd, zpow_neg, mul_assoc (c : ℚ), hone,
        mul_one, mul_one]
    · refine .inr ?_
      rw [hbits, Nat.shiftLeft_eq, mul_right_comm]
      exact Nat.le_trans (by decide) (Nat.le_mul_of_pos_left _
        (Nat.mul_pos hc (Nat.pow_pos (by decide))))
  · rw [if_neg hd]
    refine div_eq hb hr ?_
    push_cast
    rw [← zpow_natCast, Int.toNat_of_nonneg (by omega), zpow_neg]
    simp

/-- The float of a whole number of at most 53 bits. -/
def whole (c : Nat) : Binary := ⟨c <<< (52 - c.log2), -((52 - c.log2 : Nat) : Int)⟩

theorem hiddenBit_le_whole (hc : 0 < c) (hlt : c < 2 ^ 53) :
    Binary.hiddenBit ≤ (whole c).mantissa := by
  have hlog : c.log2 < 53 := (Nat.log2_lt hc.ne').mpr hlt
  unfold whole
  dsimp only
  rw [Nat.shiftLeft_eq]
  calc Binary.hiddenBit = 2 ^ (c.log2 + (52 - c.log2)) := by
        rw [Nat.add_sub_cancel' (by omega)]
        rfl
    _ = 2 ^ c.log2 * 2 ^ (52 - c.log2) := pow_add ..
    _ ≤ c * 2 ^ (52 - c.log2) := Nat.mul_le_mul_right _ (Nat.log2_self_le hc.ne')

theorem whole_lt (hc : 0 < c) (hlt : c < 2 ^ 53) :
    (whole c).mantissa < 2 * Binary.hiddenBit := by
  have hlog : c.log2 < 53 := (Nat.log2_lt hc.ne').mpr hlt
  unfold whole
  dsimp only
  rw [Nat.shiftLeft_eq]
  calc c * 2 ^ (52 - c.log2) < 2 ^ (c.log2 + 1) * 2 ^ (52 - c.log2) :=
        Nat.mul_lt_mul_of_pos_right Nat.lt_log2_self (Nat.two_pow_pos _)
    _ = 2 ^ (c.log2 + 1 + (52 - c.log2)) := (pow_add ..).symm
    _ = 2 * Binary.hiddenBit := by
      rw [show c.log2 + 1 + (52 - c.log2) = 53 by omega]
      rfl

theorem canonical_whole (hc : 0 < c) (hlt : c < 2 ^ 53) : (whole c).Canonical := by
  have hfull := hiddenBit_le_whole hc hlt
  refine ⟨Nat.lt_of_lt_of_le (by decide) hfull, whole_lt hc hlt, ?_, ?_, .inl hfull⟩
  all_goals unfold whole
  all_goals dsimp only
  all_goals omega

theorem value_whole (c : Nat) : (whole c).value = c := by
  unfold whole Binary.value
  dsimp only
  rw [Nat.shiftLeft_eq, zpow_neg, zpow_natCast]
  push_cast
  field_simp

theorem toFloat_toUInt64 (hc : 0 < c) (hlt : c < 2 ^ 53) :
    c.toUInt64.toFloat = (canonical_whole hc hlt).toFloat .positive := by
  have hcast : c.toUInt64.toNat = c :=
    UInt64.toNat_ofNat_of_lt' (Nat.lt_of_lt_of_le hlt (by decide))
  have hsign : compare (c : Int) 0 = .gt := Int.compare_eq_gt.mpr (by omega)
  have htarget : (-target c 0).toNat = 52 - c.log2 := by
    unfold target
    omega
  have hmarks : Marks (.ofMantissaAndAccuracy (whole c).mantissa .exact)
      ((whole c).value / 2 ^ (whole c).exponent) := by
    rw [Binary.value, mul_div_cancel_right₀ _ (by positivity)]
    exact marks_exact _
  have hround := (canonical_whole hc hlt).roundWithAccuracy_eq (Binary.nearby_value _)
    (.inr (hiddenBit_le_whole hc hlt)) hmarks .positive
  change Float.ofModel (.pack (UnpackedFloat.normalize .binary64 c.toUInt64.toNat 0 .positive)) = _
  unfold Binary.Canonical.toFloat UnpackedFloat.normalize UnpackedFloat.round decreaseExponent
  rw [← hround]
  simp only [hcast, hsign, Int.toNat_natCast, targetExponent_eq, zero_sub, htarget]
  rfl

/-- Is an unpacked float exactly `10 ^ n`? -/
def isPowerOfTen (n : Nat) : UnpackedFloat → Bool
  | .finite .positive m k _ => -52 ≤ k && m * 2 ^ (k + 52).toNat == 10 ^ n * 2 ^ 52
  | _ => false

theorem isPowerOfTen_table (n : Fin 23) :
    isPowerOfTen n (Float.exactlyRepresentablePowersOfTen[n]).toModel.unpack := by
  revert n
  decide +kernel

theorem eq_finite_of_isPowerOfTen {n : Nat} {x : UnpackedFloat} (h : isPowerOfTen n x) :
    ∃ m k, ∃ hm : 0 < m, x = .finite .positive m k hm ∧ (m : ℚ) * 2 ^ k = 10 ^ n := by
  cases x with
  | finite s m k hm =>
    cases s with
    | negative => exact absurd h Bool.false_ne_true
    | positive =>
      unfold isPowerOfTen at h
      dsimp only at h
      rw [Bool.and_eq_true, decide_eq_true_eq, beq_iff_eq] at h
      obtain ⟨hk, hvalue⟩ := h
      refine ⟨m, k, hm, rfl, ?_⟩
      have hcast : (m : ℚ) * 2 ^ (k + 52).toNat = 10 ^ n * 2 ^ 52 := by exact_mod_cast hvalue
      rw [← zpow_natCast, Int.toNat_of_nonneg (by omega), zpow_add₀ two_ne_zero,
        ← mul_assoc] at hcast
      exact mul_right_cancel₀ (by norm_num) hcast
  | _ => exact absurd h Bool.false_ne_true

/-- **A decimal is read as the float that it is nearby.** -/
theorem ofScientific_eq (hb : b.Canonical) {s : Bool} {e : Nat}
    (hr : b.Nearby (c * 10 ^ (if s then -(e : Int) else e))) :
    Float.ofScientific c s e = hb.toFloat .positive := by
  have hc := coefficient_pos hb hr
  unfold Float.ofScientific
  split
  · rename_i hshort
    obtain ⟨hlt, he⟩ := hshort
    have hsize : Float.exactlyRepresentablePowersOfTen.size = 23 := rfl
    have hindex : e < Float.exactlyRepresentablePowersOfTen.size := by omega
    obtain ⟨m, k, hm, hpower, hvalue⟩ := eq_finite_of_isPowerOfTen (isPowerOfTen_table ⟨e, hindex⟩)
    have hwhole : (whole c).mantissa * 2 ^ (whole c).exponent = (c : ℚ) := value_whole c
    have hunpacked := unpack_toFloat (canonical_whole hc hlt) .positive
    rw [← toFloat_toUInt64 hc hlt] at hunpacked
    cases s with
    | true =>
      refine float_div_eq hb hr hunpacked hpower ?_
      rw [hwhole, hvalue, if_pos rfl, zpow_neg, zpow_natCast, div_eq_mul_inv]
    | false =>
      refine float_mul_eq hb hr hunpacked hpower ?_ (.inr ?_)
      · rw [hwhole, hvalue, if_neg (by decide), zpow_natCast]
      · exact Nat.le_trans (hiddenBit_le_whole hc hlt) (Nat.le_mul_of_pos_right _ hm)
  · have hexponent : (if s then Int.negOfNat e else Int.ofNat e) = if s then -(e : Int) else e := by
      rw [Int.negOfNat_eq]
      rfl
    dsimp only
    rw [hexponent]
    unfold Float.Model.ofScientific
    rw [unpacked_ofScientific hb hr]
    rfl

theorem lt_pow_length (c : Nat) : c < 10 ^ (toString c).length := by
  rw [Nat.toString_eq_repr]
  exact (Nat.length_repr_le_iff Nat.length_repr_pos).mp (Nat.le_refl _)

theorem pow_length_le (hc : 0 < c) : 10 ^ ((toString c).length - 1) ≤ c := by
  rw [Nat.toString_eq_repr]
  rcases Nat.eq_zero_or_pos (c.repr.length - 1) with hone | hmore
  · rw [hone, pow_zero]
    exact hc
  · refine Nat.le_of_not_lt fun h => ?_
    have := (Nat.length_repr_le_iff hmore).mpr h
    have := Nat.length_repr_pos (n := c)
    omega

theorem two_zpow_le (n : Nat) : (2 : ℚ) ^ (3 * n : Int) ≤ 10 ^ (n : Int) := by
  rw [zpow_mul, zpow_natCast, zpow_natCast]
  exact pow_le_pow_left₀ (by positivity) (by norm_num) n

/-- The guards against long numbers never refuse a decimal that is nearby a float. -/
theorem nearest_eq (hb : b.Canonical) (hr : b.Nearby (c * 10 ^ d)) :
    nearest c d = hb.toFloat .positive := by
  have hc := coefficient_pos hb hr
  have hlen : 0 < (toString c).length := by
    rw [Nat.toString_eq_repr]
    exact Nat.length_repr_pos
  have hscale : (0 : ℚ) < 10 ^ d := by positivity
  have hlow : -400 ≤ d + (toString c).length := by
    refine le_of_not_gt fun h => ?_
    have hlt : (c : ℚ) < 10 ^ (toString c).length := by exact_mod_cast lt_pow_length c
    have hsmall : (c : ℚ) * 10 ^ d < 2 ^ (-1075 : Int) :=
      calc (c : ℚ) * 10 ^ d < 10 ^ (toString c).length * 10 ^ d :=
            mul_lt_mul_of_pos_right hlt hscale
        _ = 10 ^ (d + (toString c).length) := by
          rw [zpow_add₀ (by norm_num), zpow_natCast, mul_comm]
        _ ≤ 10 ^ (-401 : Int) := zpow_le_zpow_right₀ (by norm_num) (by omega)
        _ = (10 ^ ((401 : Nat) : Int))⁻¹ := zpow_neg ..
        _ ≤ (2 ^ (3 * (401 : Nat) : Int))⁻¹ := inv_anti₀ (by positivity) (two_zpow_le 401)
        _ = 2 ^ (-1203 : Int) := (zpow_neg ..).symm
        _ ≤ 2 ^ (-1075 : Int) := zpow_le_zpow_right₀ one_le_two (by norm_num)
    exact absurd (le_of_nearby hb hr) (not_le.mpr hsmall)
  have hhigh : d + (toString c).length ≤ 400 := by
    refine le_of_not_gt fun h => ?_
    have hle : (10 : ℚ) ^ ((toString c).length - 1) ≤ c := by exact_mod_cast pow_length_le hc
    have hlarge : (2 : ℚ) ^ (1024 : Int) ≤ c * 10 ^ d :=
      calc (2 : ℚ) ^ (1024 : Int) ≤ 2 ^ (3 * (400 : Nat) : Int) :=
            zpow_le_zpow_right₀ one_le_two (by norm_num)
        _ ≤ 10 ^ ((400 : Nat) : Int) := two_zpow_le 400
        _ ≤ 10 ^ (((toString c).length - 1 : Nat) + d) :=
          zpow_le_zpow_right₀ (by norm_num) (by omega)
        _ = 10 ^ ((toString c).length - 1) * 10 ^ d := by
          rw [zpow_add₀ (by norm_num), zpow_natCast]
        _ ≤ c * 10 ^ d := mul_le_mul_of_nonneg_right hle hscale.le
    exact absurd (lt_of_nearby hb hr) (not_lt.mpr hlarge)
  unfold nearest
  rw [if_neg hc.ne']
  dsimp only
  rw [if_neg (by omega), if_neg (by omega)]
  split
  · rename_i hd
    refine ofScientific_eq hb ?_
    rw [if_neg (by decide), Int.toNat_of_nonneg hd]
    exact hr
  · rename_i hd
    refine ofScientific_eq hb ?_
    rw [if_pos rfl, Int.toNat_of_nonneg (by omega), neg_neg]
    exact hr

end Scientific

end EnvManifest.Decimal
