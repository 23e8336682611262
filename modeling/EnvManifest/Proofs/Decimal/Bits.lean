import EnvManifest.Decimal.Layout
import EnvManifest.Proofs.Decimal.Value

/-!
# The bits of a float

A float is packed into a sign, eleven bits of exponent and 52 bits of mantissa. A canonical number
is unpacked from the bits that it is packed into, and a finite float is the packed form of the
number that it is read as.
-/

namespace EnvManifest.Decimal

open Float.Model Float.Model.UnpackedFloat

theorem toNat_packComponents (s : Sign) (e : BitVec 11) (m : BitVec 52) :
    (packComponents .binary64 s e m).toNat =
      s.toBitVec.toNat * 2 ^ 63 + e.toNat * 2 ^ 52 + m.toNat := by
  unfold packComponents
  rw [BitVec.toNat_append, ← Nat.shiftLeft_add_eq_or_of_lt m.isLt, BitVec.toNat_append,
    ← Nat.shiftLeft_add_eq_or_of_lt e.isLt, Nat.shiftLeft_eq, Nat.shiftLeft_eq]
  omega

theorem toNat_unpackExponent (bits : BitVec 64) :
    (@unpackExponent .binary64 bits).toNat = bits.toNat / 2 ^ 52 % 2048 := by
  change (bits.toNat >>> 52) % 2 ^ 11 = _
  rw [Nat.shiftRight_eq_div_pow]

theorem toNat_unpackMantissa (bits : BitVec 64) :
    (@unpackMantissa .binary64 bits).toNat = bits.toNat % 2 ^ 52 := by
  change (bits.toNat >>> 0) % 2 ^ 52 = _
  rw [Nat.shiftRight_zero]

theorem toNat_unpackSign (bits : BitVec 64) :
    (@unpackSign .binary64 bits).toNat = bits.toNat / 2 ^ 63 % 2 := by
  change (bits.toNat >>> 63) % 2 ^ 1 = _
  rw [Nat.shiftRight_eq_div_pow]

theorem ofBitVec_unpackSign (bits : BitVec 64) :
    Sign.ofBitVec (@unpackSign .binary64 bits) =
      if 2 ^ 63 ≤ bits.toNat then .negative else .positive := by
  have hbits := toNat_unpackSign bits
  have hlt := bits.isLt
  unfold Sign.ofBitVec
  split
  · rename_i hzero
    rw [hzero, BitVec.toNat_zero] at hbits
    rw [if_neg (by omega)]
  · rename_i hone
    rw [if_pos]
    refine Nat.le_of_not_lt fun h => hone (BitVec.eq_of_toNat_eq ?_)
    rw [hbits, BitVec.toNat_zero]
    omega

/-- The part of the bits below the sign. -/
def Binary.bits (b : Binary) : Nat :=
  if hiddenBit ≤ b.mantissa then (b.exponent + 1075).toNat * 2 ^ 52 + (b.mantissa - hiddenBit)
  else b.mantissa

theorem Binary.Canonical.bits_lt {b : Binary} (hb : b.Canonical) : b.bits < 2047 * 2 ^ 52 := by
  have := hb.mantissa_lt
  have := hb.exponent_le
  unfold bits hiddenBit at *
  split <;> omega

theorem toNat_pack {b : Binary} (hb : b.Canonical) (s : Sign) :
    (UnpackedFloat.pack .binary64 (.finite s b.mantissa b.exponent hb.pos)).toNat =
      s.toBitVec.toNat * 2 ^ 63 + b.bits := by
  have hlt := hb.mantissa_lt
  have hle := hb.le_exponent
  have hhigh := hb.exponent_le
  have hbiased : (b.exponent + Format.binary64.exponentBias +
      Format.binary64.mantissaBitsWithoutImplicit).toNat = (b.exponent + 1075).toNat := by
    change (b.exponent + (1023 : Nat) + (52 : Nat)).toNat = _
    omega
  have hwidth : Format.binary64.mantissaBits = 53 := rfl
  unfold UnpackedFloat.pack
  simp only [hbiased, hwidth]
  rw [if_neg (by omega)]
  unfold Binary.bits
  split
  · rename_i hlog
    have hfull : Binary.hiddenBit ≤ b.mantissa := by
      unfold Binary.hiddenBit
      exact (Nat.le_log2 hb.pos.ne').mp (show 52 ≤ b.mantissa.log2 by omega)
    rw [if_pos hfull, toNat_packComponents, BitVec.toNat_ofNat, BitVec.toNat_ofNat]
    unfold Binary.hiddenBit at *
    omega
  · rename_i hlog
    have hsmall : ¬ Binary.hiddenBit ≤ b.mantissa := by
      intro hfull
      unfold Binary.hiddenBit at hfull
      have h52 : 52 ≤ b.mantissa.log2 := (Nat.le_log2 hb.pos.ne').mpr hfull
      have h53 : b.mantissa.log2 < 53 := (Nat.log2_lt hb.pos.ne').mpr hlt
      omega
    rw [if_neg hsmall, toNat_packComponents, BitVec.toNat_ofNat, BitVec.toNat_ofNat]
    unfold Binary.hiddenBit at *
    omega

theorem toNat_bit_one_append (m : BitVec 52) : (1#1 ++ m).toNat = Binary.hiddenBit + m.toNat := by
  rw [BitVec.toNat_append, ← Nat.shiftLeft_add_eq_or_of_lt m.isLt, Nat.shiftLeft_eq]
  rfl

theorem finite_congr {s s' : Sign} {m m' : Nat} {e e' : Int} {h : 0 < m} {h' : 0 < m'}
    (hs : s = s') (hm : m = m') (he : e = e') :
    UnpackedFloat.finite s m e h = .finite s' m' e' h' := by
  subst hs hm he
  rfl

/-- **What is packed is unpacked again.** -/
theorem unpack_pack {b : Binary} (hb : b.Canonical) (s : Sign) :
    UnpackedFloat.unpack .binary64
        (UnpackedFloat.pack .binary64 (.finite s b.mantissa b.exponent hb.pos)) =
      .finite s b.mantissa b.exponent hb.pos := by
  have hbits := toNat_pack hb s
  generalize UnpackedFloat.pack .binary64 (.finite s b.mantissa b.exponent hb.pos) = packed at *
  have hbits_lt := hb.bits_lt
  have hmantissa_lt := hb.mantissa_lt
  have hle_exponent := hb.le_exponent
  have hpos := hb.pos
  have hfields : packed.toNat / 2 ^ 52 % 2048 = b.bits / 2 ^ 52 ∧
      packed.toNat % 2 ^ 52 = b.bits % 2 ^ 52 := by
    rw [hbits]
    omega
  have hexponent := toNat_unpackExponent packed
  have hmantissa := toNat_unpackMantissa packed
  rw [hfields.1] at hexponent
  rw [hfields.2] at hmantissa
  have hsign : Sign.ofBitVec (@unpackSign .binary64 packed) = s := by
    rw [ofBitVec_unpackSign, hbits]
    cases s with
    | negative => exact if_pos (by simp [Sign.toBitVec])
    | positive =>
      refine if_neg ?_
      simp only [Sign.toBitVec, BitVec.toNat_zero]
      omega
  have hfinite : @unpackExponent .binary64 packed ≠ -1#11 := by
    intro h
    rw [h] at hexponent
    have hones : (-1#11 : BitVec 11).toNat = 2047 := rfl
    omega
  have hbias : (Format.binary64.exponentBias : Int) = 1023 := rfl
  unfold Binary.bits Binary.hiddenBit at hexponent hmantissa
  unfold UnpackedFloat.unpack
  dsimp only
  rw [if_neg hfinite]
  by_cases hfull : 4503599627370496 ≤ b.mantissa
  · rw [if_pos hfull] at hexponent hmantissa
    unfold Binary.hiddenBit at hmantissa_lt
    have hnormal : @unpackExponent .binary64 packed ≠ 0#11 := by
      intro h
      rw [h, BitVec.toNat_zero] at hexponent
      omega
    rw [if_neg hnormal]
    refine finite_congr hsign ?_ ?_
    · rw [toNat_bit_one_append, hmantissa]
      unfold Binary.hiddenBit
      omega
    · rw [hexponent, hbias]
      omega
  · rw [if_neg hfull] at hexponent hmantissa
    have hleast : b.exponent = -1074 := hb.full.resolve_left hfull
    have hsubnormal : @unpackExponent .binary64 packed = 0#11 :=
      BitVec.eq_of_toNat_eq (by rw [hexponent, BitVec.toNat_zero]; omega)
    have hnonzero : @unpackMantissa .binary64 packed ≠ 0#52 := by
      intro h
      rw [h, BitVec.toNat_zero] at hmantissa
      omega
    rw [if_pos hsubnormal, dif_neg hnonzero]
    refine finite_congr hsign ?_ ?_
    · rw [hmantissa]
      omega
    · rw [hsubnormal, hbias, hleast]
      rfl

/-- The float of a number that is packed. -/
def Binary.Canonical.toFloat {b : Binary} (hb : b.Canonical) (s : Sign) : Float :=
  .ofModel (.pack (.finite s b.mantissa b.exponent hb.pos))

theorem unpack_toFloat {b : Binary} (hb : b.Canonical) (s : Sign) :
    (hb.toFloat s).toModel.unpack = .finite s b.mantissa b.exponent hb.pos :=
  unpack_pack hb s

theorem toNat_toBits_toFloat {b : Binary} (hb : b.Canonical) (s : Sign) :
    (hb.toFloat s).toBits.toNat = s.toBitVec.toNat * 2 ^ 63 + b.bits :=
  toNat_pack hb s

theorem neg_toFloat {b : Binary} (hb : b.Canonical) :
    -hb.toFloat .positive = hb.toFloat .negative := by
  change Float.ofModel (.pack (hb.toFloat .positive).toModel.unpack.neg) = _
  rw [unpack_toFloat hb]
  rfl

theorem eq_of_toNat_toBits {x y : Float} (h : x.toBits.toNat = y.toBits.toNat) : x = y := by
  obtain ⟨⟨bits, hx⟩⟩ := x
  obtain ⟨⟨bits', hy⟩⟩ := y
  obtain rfl : bits = bits' := UInt64.toNat_inj.mp h
  rfl

theorem exponent_ne_of_isFinite {x : Float} (h : x.isFinite) :
    x.toBits.toNat / 2 ^ 52 % 2048 ≠ 2047 := by
  intro hfield
  have hones : @unpackExponent .binary64 x.toBits.toBitVec = -1#11 :=
    BitVec.eq_of_toNat_eq (by rw [toNat_unpackExponent]; exact hfield)
  have hfalse : x.isFinite = false := by
    change (UnpackedFloat.unpack .binary64 x.toBits.toBitVec).isFinite = false
    unfold UnpackedFloat.unpack
    dsimp only
    rw [if_pos hones]
    split <;> rfl
  rw [hfalse] at h
  exact absurd h (by decide)

namespace Binary

theorem canonical_ofFloat {x : Float} (h : x.isFinite) (hpos : 0 < (ofFloat x).mantissa) :
    (ofFloat x).Canonical := by
  have hfield := exponent_ne_of_isFinite h
  unfold ofFloat hiddenBit at *
  dsimp only at hpos ⊢
  split at hpos
  · rename_i hzero
    rw [if_pos hzero]
    refine ⟨hpos, ?_, ?_, ?_, .inr rfl⟩
    all_goals simp only [hiddenBit]
    all_goals omega
  · rename_i hnonzero
    rw [if_neg hnonzero]
    refine ⟨hpos, ?_, ?_, ?_, .inl ?_⟩
    all_goals simp only [hiddenBit]
    all_goals omega

theorem bits_ofFloat (x : Float) : (ofFloat x).bits = x.toBits.toNat % 2 ^ 63 := by
  unfold ofFloat bits hiddenBit
  dsimp only
  split
  · dsimp only
    rw [if_neg (by omega)]
    omega
  · dsimp only
    rw [if_pos (by omega)]
    omega

end Binary

/-- **A finite number is the packed form of what it is read as.** -/
theorem eq_toFloat {x : Float} (h : x.isFinite) (hpos : 0 < (Binary.ofFloat x).mantissa) :
    x = (Binary.canonical_ofFloat h hpos).toFloat
      (if isNegative x then .negative else .positive) := by
  have hlt := x.toBits.toNat_lt
  apply eq_of_toNat_toBits
  rw [toNat_toBits_toFloat, Binary.bits_ofFloat]
  unfold isNegative
  split
  · rename_i hnegative
    have := of_decide_eq_true hnegative
    simp only [Sign.toBitVec, BitVec.toNat_ofNat]
    omega
  · rename_i hpositive
    have : ¬ _ := fun h => hpositive (decide_eq_true h)
    simp only [Sign.toBitVec, BitVec.toNat_ofNat]
    omega

theorem eq_zero {x : Float} (hzero : (Binary.ofFloat x).mantissa = 0) :
    x = if isNegative x then -0 else 0 := by
  have hlt := x.toBits.toNat_lt
  have hbits := Binary.bits_ofFloat x
  unfold Binary.bits at hbits
  rw [hzero, if_neg (by decide)] at hbits
  apply eq_of_toNat_toBits
  unfold isNegative
  split
  · rename_i hnegative
    have := of_decide_eq_true hnegative
    have hminus : (-0 : Float).toBits.toNat = 9223372036854775808 := by decide
    omega
  · rename_i hpositive
    have : ¬ _ := fun h => hpositive (decide_eq_true h)
    have hplus : (0 : Float).toBits.toNat = 0 := by decide
    omega

/-! ## The others -/

theorem isFinite_eq (x : Float) : x.isFinite = !(x.isNaN || x.isInf) := by
  change x.toModel.unpack.isFinite = !(x.toModel.unpack.isNaN || x.toModel.unpack.isInf)
  cases x.toModel.unpack <;> rfl

/-- What is not finite has an exponent of ones. -/
theorem exponent_of_not_finite {x : Float} (h : x.isFinite = false) :
    @unpackExponent .binary64 x.toBits.toBitVec = -1#11 := by
  by_contra hones
  have hfinite : x.isFinite = true := by
    change (UnpackedFloat.unpack .binary64 x.toBits.toBitVec).isFinite = true
    unfold UnpackedFloat.unpack
    dsimp only
    rw [if_neg hones]
    by_cases hsmall : @unpackExponent .binary64 x.toBits.toBitVec = 0#11
    · rw [if_pos hsmall]
      by_cases hzero : @unpackMantissa .binary64 x.toBits.toBitVec = 0#52
      · rw [dif_pos hzero]
        rfl
      · rw [dif_neg hzero]
        rfl
    · rw [if_neg hsmall]
      rfl
  rw [h] at hfinite
  cases hfinite

theorem fields_of_isInf {x : Float} (h : x.isInf) :
    x.toBits.toNat / 2 ^ 52 % 2048 = 2047 ∧ x.toBits.toNat % 2 ^ 52 = 0 := by
  have hones := exponent_of_not_finite (x := x) (by rw [isFinite_eq, h, Bool.or_true]; rfl)
  have hunpack : (UnpackedFloat.unpack .binary64 x.toBits.toBitVec).isInf = true := h
  unfold UnpackedFloat.unpack at hunpack
  dsimp only at hunpack
  rw [if_pos hones] at hunpack
  by_cases hmantissa : @unpackMantissa .binary64 x.toBits.toBitVec = 0#52
  · have hexponent := congrArg BitVec.toNat hones
    have hzero := congrArg BitVec.toNat hmantissa
    rw [toNat_unpackExponent] at hexponent
    rw [toNat_unpackMantissa] at hzero
    exact ⟨hexponent, hzero⟩
  · rw [if_neg hmantissa] at hunpack
    cases hunpack

/-- An infinity is a quotient by zero. -/
theorem eq_of_isInf {x : Float} (h : x.isInf) :
    x = if isNegative x then Float.ofInt (-1) / Float.ofInt 0 else Float.ofInt 1 / Float.ofInt 0 := by
  have hlt := x.toBits.toNat_lt
  obtain ⟨hexponent, hmantissa⟩ := fields_of_isInf h
  apply eq_of_toNat_toBits
  unfold isNegative
  split
  · rename_i hnegative
    have := of_decide_eq_true hnegative
    have hminus : (Float.ofInt (-1) / Float.ofInt 0).toBits.toNat = 18442240474082181120 := by decide
    omega
  · rename_i hpositive
    have : ¬ _ := fun h => hpositive (decide_eq_true h)
    have hplus : (Float.ofInt 1 / Float.ofInt 0).toBits.toNat = 9218868437227405312 := by decide
    omega

/-- There is one float that is not a number. -/
theorem eq_of_isNaN {x : Float} (h : x.isNaN) : x = Float.ofInt 0 / Float.ofInt 0 := by
  have hones := exponent_of_not_finite (x := x) (by rw [isFinite_eq, h, Bool.true_or]; rfl)
  have hunpack : (UnpackedFloat.unpack .binary64 x.toBits.toBitVec).isNaN = true := h
  unfold UnpackedFloat.unpack at hunpack
  dsimp only at hunpack
  rw [if_pos hones] at hunpack
  by_cases hmantissa : @unpackMantissa .binary64 x.toBits.toBitVec = 0#52
  · rw [if_pos hmantissa] at hunpack
    cases hunpack
  · have hpacked := x.toModel.valid.eq_packedNaN hones hmantissa
    have hnan : (Float.ofInt 0 / Float.ofInt 0).toBits.toNat = (packedNaN .binary64).toNat := by
      decide
    apply eq_of_toNat_toBits
    rw [hnan, ← hpacked]
    rfl

end EnvManifest.Decimal
