import EnvManifest.Decimal.Shortest
import Mathlib.Algebra.Order.Field.Power
import Mathlib.Data.Rat.Cast.Order
import Mathlib.Tactic.FieldSimp
import Mathlib.Tactic.Linarith
import Mathlib.Tactic.NormNum
import Mathlib.Tactic.Positivity
import Mathlib.Tactic.Ring

/-!
# Numbers as rationals

Quotients, binary numbers and decimals stand for rationals. The tests that run are comparisons of
whole numbers; here they are comparisons of rationals.
-/

namespace EnvManifest.Decimal

namespace Quotient

def value (q : Quotient) : ℚ := q.num / q.den

theorem den_scale_pos {base : Nat} (hbase : 0 < base) (e : Int) {q : Quotient} (h : 0 < q.den) :
    0 < (scale base e q).den := by
  unfold scale
  split
  · exact h
  · exact Nat.mul_pos h (Nat.pow_pos hbase)

theorem value_scale {base : Nat} (hbase : 0 < base) (e : Int) (q : Quotient) :
    (scale base e q).value = q.value * (base : ℚ) ^ e := by
  have hb : (base : ℚ) ≠ 0 := by positivity
  unfold scale value
  split
  · rename_i he
    obtain ⟨n, rfl⟩ := Int.eq_ofNat_of_zero_le he
    simp only [Int.toNat_natCast, Nat.pow_eq, zpow_natCast]
    push_cast
    ring
  · rename_i he
    obtain ⟨n, hn⟩ := Int.eq_ofNat_of_zero_le (show 0 ≤ -e by omega)
    obtain rfl : e = -(n : Int) := by omega
    simp only [neg_neg, Int.toNat_natCast, Nat.pow_eq, zpow_neg, zpow_natCast]
    push_cast
    field_simp

theorem le_iff {p q : Quotient} (hp : 0 < p.den) (hq : 0 < q.den) :
    p.le q = true ↔ p.value ≤ q.value := by
  have hp' : (0 : ℚ) < p.den := by exact_mod_cast hp
  have hq' : (0 : ℚ) < q.den := by exact_mod_cast hq
  unfold le value
  rw [decide_eq_true_eq, div_le_div_iff₀ hp' hq']
  norm_cast

theorem lt_iff {p q : Quotient} (hp : 0 < p.den) (hq : 0 < q.den) :
    p.lt q = true ↔ p.value < q.value := by
  have hp' : (0 : ℚ) < p.den := by exact_mod_cast hp
  have hq' : (0 : ℚ) < q.den := by exact_mod_cast hq
  unfold lt value
  rw [decide_eq_true_eq, div_lt_div_iff₀ hp' hq']
  norm_cast

/-- Rounding moves a number by one half at most. -/
theorem abs_round_sub_le {q : Quotient} (h : 0 < q.den) : |(q.round : ℚ) - q.value| ≤ 1 / 2 := by
  have hden : (0 : ℚ) < q.den := by exact_mod_cast h
  have hsplit : (q.num : ℚ) = q.den * (q.num / q.den : Nat) + (q.num % q.den : Nat) := by
    exact_mod_cast (Nat.div_add_mod q.num q.den).symm
  have hvalue : q.value = (q.num / q.den : Nat) + (q.num % q.den : Nat) / (q.den : ℚ) := by
    unfold value
    rw [hsplit]
    field_simp
  have hsmall : ((q.num % q.den : Nat) : ℚ) < q.den := by exact_mod_cast Nat.mod_lt _ h
  have hpos : (0 : ℚ) ≤ (q.num % q.den : Nat) := Nat.cast_nonneg _
  -- the fraction lies below one half if the number is rounded down, and above it otherwise
  have hdown : 2 * (q.num % q.den) ≤ q.den →
      |((q.num / q.den : Nat) : ℚ) - q.value| ≤ 1 / 2 := by
    intro hle
    have hle' : 2 * ((q.num % q.den : Nat) : ℚ) ≤ q.den := by exact_mod_cast hle
    rw [hvalue, sub_add_cancel_left, abs_neg, abs_of_nonneg (by positivity), div_le_iff₀ hden]
    linarith
  have hup : q.den ≤ 2 * (q.num % q.den) →
      |((q.num / q.den + 1 : Nat) : ℚ) - q.value| ≤ 1 / 2 := by
    intro hle
    have hle' : (q.den : ℚ) ≤ 2 * (q.num % q.den : Nat) := by exact_mod_cast hle
    have hhalf : 1 / 2 ≤ ((q.num % q.den : Nat) : ℚ) / q.den := by
      rw [le_div_iff₀ hden]
      linarith
    have hone : ((q.num % q.den : Nat) : ℚ) / q.den ≤ 1 := by
      rw [div_le_iff₀ hden]
      linarith
    rw [hvalue, abs_le]
    push_cast
    constructor <;> linarith
  unfold round
  dsimp only
  split
  · exact hdown (by omega)
  · split
    · exact hup (by omega)
    · split
      · exact hdown (by omega)
      · exact hup (by omega)

end Quotient

namespace Binary

def value (b : Binary) : ℚ := b.mantissa * 2 ^ b.exponent

theorem value_toQuotient (b : Binary) : b.toQuotient.value = b.value := by
  unfold toQuotient
  rw [Quotient.value_scale (by decide)]
  unfold Quotient.value value
  norm_num

theorem den_toQuotient_pos (b : Binary) : 0 < b.toQuotient.den :=
  Quotient.den_scale_pos (by decide) _ Nat.one_pos

/-- The numbers that a mantissa of 53 bits and an exponent of eleven bits stand for. -/
structure Canonical (b : Binary) : Prop where
  pos : 0 < b.mantissa
  mantissa_lt : b.mantissa < 2 * hiddenBit
  le_exponent : -1074 ≤ b.exponent
  exponent_le : b.exponent ≤ 971
  full : hiddenBit ≤ b.mantissa ∨ b.exponent = -1074

/-- The least number that rounds to `b`. Below a power of two the neighbour is only half as far
away. -/
def low (b : Binary) : ℚ :=
  (b.mantissa - (if b.mantissa = hiddenBit ∧ b.exponent ≠ -1074 then 1 / 4 else 1 / 2)) *
    2 ^ b.exponent

/-- The greatest number that rounds to `b`. -/
def high (b : Binary) : ℚ := (b.mantissa + 1 / 2) * 2 ^ b.exponent

/-- Does a rational round to `b`? -/
structure Nearby (b : Binary) (r : ℚ) : Prop where
  low_le : b.low ≤ r
  le_high : r ≤ b.high
  odd : b.mantissa % 2 = 1 → b.low < r ∧ r < b.high

theorem value_low {b : Binary} (h : 0 < b.mantissa) : b.interval.low.value = b.low := by
  have hscale : (2 : ℚ) ^ (b.exponent - 2) = 2 ^ b.exponent / 4 := by
    rw [zpow_sub₀ two_ne_zero]
    norm_num
  unfold interval low
  rw [Quotient.value_scale (by decide)]
  unfold Quotient.value
  dsimp only
  push_cast
  rw [hscale]
  split
  · rw [Nat.cast_sub (by omega)]
    push_cast
    ring
  · rw [Nat.cast_sub (by omega)]
    push_cast
    ring

theorem value_high (b : Binary) : b.interval.high.value = b.high := by
  have hscale : (2 : ℚ) ^ (b.exponent - 2) = 2 ^ b.exponent / 4 := by
    rw [zpow_sub₀ two_ne_zero]
    norm_num
  unfold interval high
  rw [Quotient.value_scale (by decide)]
  unfold Quotient.value
  dsimp only
  push_cast
  rw [hscale]
  ring

/-- **The interval is that of the numbers that round to `b`.** -/
theorem contains_iff {b : Binary} (hb : 0 < b.mantissa) {q : Quotient} (hq : 0 < q.den) :
    b.interval.contains q = true ↔ b.Nearby q.value := by
  have hlow : 0 < b.interval.low.den := Quotient.den_scale_pos (by decide) _ Nat.one_pos
  have hhigh : 0 < b.interval.high.den := Quotient.den_scale_pos (by decide) _ Nat.one_pos
  unfold Interval.contains
  split
  · rename_i hclosed
    have heven : b.mantissa % 2 = 0 := of_decide_eq_true hclosed
    rw [Bool.and_eq_true, Quotient.le_iff hlow hq, Quotient.le_iff hq hhigh, value_low hb,
      value_high]
    constructor
    · rintro ⟨hl, hh⟩
      exact ⟨hl, hh, by omega⟩
    · intro h
      exact ⟨h.low_le, h.le_high⟩
  · rename_i hopen
    have hodd : b.mantissa % 2 ≠ 0 := fun h => hopen (decide_eq_true h)
    rw [Bool.and_eq_true, Quotient.lt_iff hlow hq, Quotient.lt_iff hq hhigh, value_low hb,
      value_high]
    constructor
    · rintro ⟨hl, hh⟩
      exact ⟨hl.le, hh.le, fun _ => ⟨hl, hh⟩⟩
    · intro h
      exact h.odd (by omega)

theorem low_lt_value {b : Binary} : b.low < b.value := by
  have hscale : (0 : ℚ) < 2 ^ b.exponent := by positivity
  unfold low value
  apply mul_lt_mul_of_pos_right _ hscale
  split <;> linarith

theorem value_lt_high {b : Binary} : b.value < b.high := by
  have hscale : (0 : ℚ) < 2 ^ b.exponent := by positivity
  unfold high value
  apply mul_lt_mul_of_pos_right _ hscale
  linarith

theorem nearby_value (b : Binary) : b.Nearby b.value :=
  ⟨low_lt_value.le, value_lt_high.le, fun _ => ⟨low_lt_value, value_lt_high⟩⟩

end Binary

end EnvManifest.Decimal
