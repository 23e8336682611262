import EnvManifest.Proofs.Decimal.Value

/-!
# The shortest decimal is nearby

The decimal that is chosen for a number lies in the interval of the numbers that round to it: a
point of a grid because it is looked up there, and seventeen digits because they are close enough.
-/

namespace EnvManifest.Decimal

namespace Numeral

def value (d : Numeral) : ℚ := d.coefficient * 10 ^ d.exponent

theorem value_strip (d : Numeral) : d.strip.value = d.value := by
  have hgo : ∀ (fuel c : Nat) (e : Int),
      (strip.go fuel c e).value = (⟨c, e⟩ : Numeral).value := by
    intro fuel
    induction fuel with
    | zero =>
      intro c e
      rfl
    | succ fuel ih =>
      intro c e
      unfold strip.go
      split
      · rename_i hzero
        have hc : (c : ℚ) = (c / 10 : Nat) * 10 := by
          exact_mod_cast (Nat.div_mul_cancel (Nat.dvd_of_mod_eq_zero hzero.2)).symm
        rw [ih]
        unfold value
        rw [hc, zpow_add_one₀ (by norm_num)]
        ring
      · rfl
  exact hgo _ _ _

end Numeral

namespace Quotient

/-- The constant is a little more than the logarithm of two: for an exponent below zero the guess
is too low, and above zero the excess is lost in the rounding. -/
theorem ten_zpow_guess_le {a : Int} (hlow : -1100 ≤ a) (hhigh : a ≤ 1100) :
    (10 : ℚ) ^ (a * 30103 / 100000) ≤ 2 ^ a := by
  have hpos : ∀ n < 1101, 10 ^ (n * 30103 / 100000) ≤ 2 ^ n := by decide +kernel
  have hneg : ∀ n < 1101, 2 ^ n ≤ 10 ^ ((n * 30103 + 99999) / 100000) := by decide +kernel
  rcases Int.le_total 0 a with h | h
  · obtain ⟨n, rfl⟩ := Int.eq_ofNat_of_zero_le h
    have hguess : (n : Int) * 30103 / 100000 = (n * 30103 / 100000 : Nat) := by omega
    rw [hguess, zpow_natCast, zpow_natCast]
    exact_mod_cast hpos n (by omega)
  · obtain ⟨n, hn⟩ := Int.eq_ofNat_of_zero_le (show 0 ≤ -a by omega)
    have hguess : a * 30103 / 100000 = -((n * 30103 + 99999) / 100000 : Nat) := by omega
    have ha : a = -(n : Int) := by omega
    rw [hguess, ha, zpow_neg, zpow_neg, zpow_natCast, zpow_natCast]
    refine inv_anti₀ (by positivity) ?_
    exact_mod_cast hneg n (by omega)

theorem two_zpow_le_value {q : Quotient} (hnum : 0 < q.num) (hden : 0 < q.den) :
    (2 : ℚ) ^ ((q.num.log2 : Int) - q.den.log2 - 1) ≤ q.value := by
  have hden' : (0 : ℚ) < q.den := by exact_mod_cast hden
  have hlower : (2 : ℚ) ^ q.num.log2 ≤ q.num := by exact_mod_cast Nat.log2_self_le hnum.ne'
  have hupper : (q.den : ℚ) ≤ 2 ^ (q.den.log2 + 1) := by
    have hlt : q.den < 2 ^ (q.den.log2 + 1) := Nat.lt_log2_self
    exact_mod_cast hlt.le
  unfold value
  rw [le_div_iff₀ hden']
  calc (2 : ℚ) ^ ((q.num.log2 : Int) - q.den.log2 - 1) * q.den ≤
        2 ^ ((q.num.log2 : Int) - q.den.log2 - 1) * 2 ^ (q.den.log2 + 1) :=
        mul_le_mul_of_nonneg_left hupper (by positivity)
    _ = 2 ^ q.num.log2 := by
      rw [← zpow_natCast, ← zpow_natCast, ← zpow_add₀ two_ne_zero]
      congr 1
      push_cast
      ring
    _ ≤ q.num := hlower

theorem ten_zpow_step_le {q : Quotient} (hden : 0 < q.den) (fuel : Nat) {k : Int}
    (h : (10 : ℚ) ^ k ≤ q.value) : (10 : ℚ) ^ log10.step q fuel k ≤ q.value := by
  induction fuel generalizing k with
  | zero => exact h
  | succ fuel ih =>
    unfold log10.step
    split
    · rename_i hle
      refine ih ?_
      rw [le_iff (den_scale_pos (by decide) _ Nat.one_pos) hden, value_scale (by decide)] at hle
      simpa [value] using hle
    · exact h

theorem ten_zpow_log10_le {q : Quotient} (hnum : 0 < q.num) (hden : 0 < q.den)
    (hlow : -1100 ≤ (q.num.log2 : Int) - q.den.log2 - 1)
    (hhigh : (q.num.log2 : Int) - q.den.log2 - 1 ≤ 1100) : (10 : ℚ) ^ q.log10 ≤ q.value :=
  ten_zpow_step_le hden 4
    ((ten_zpow_guess_le hlow hhigh).trans (two_zpow_le_value hnum hden))

end Quotient

namespace Binary

variable {b : Binary}

theorem log2_toQuotient (hb : b.Canonical) :
    0 < b.toQuotient.num ∧ -1100 ≤ (b.toQuotient.num.log2 : Int) - b.toQuotient.den.log2 - 1 ∧
      (b.toQuotient.num.log2 : Int) - b.toQuotient.den.log2 - 1 ≤ 1100 := by
  have hle := hb.le_exponent
  have hhigh := hb.exponent_le
  have hlt : b.mantissa < 2 ^ 53 := hb.mantissa_lt
  unfold toQuotient Quotient.scale
  split
  · rename_i he
    have hpow : 0 < 2 ^ b.exponent.toNat := Nat.two_pow_pos _
    have hnum : 0 < b.mantissa * 2 ^ b.exponent.toNat := Nat.mul_pos hb.pos hpow
    have hlog : (b.mantissa * 2 ^ b.exponent.toNat).log2 < 53 + b.exponent.toNat := by
      refine (Nat.log2_lt hnum.ne').mpr ?_
      rw [pow_add]
      exact Nat.mul_lt_mul_of_pos_right hlt hpow
    have hone : Nat.log2 1 = 0 := by decide
    dsimp only [Nat.pow_eq]
    omega
  · rename_i he
    have hlog : b.mantissa.log2 < 53 := (Nat.log2_lt hb.pos.ne').mpr hlt
    have hpos := hb.pos
    dsimp only [Nat.pow_eq]
    rw [one_mul, Nat.log2_two_pow]
    omega

theorem ten_zpow_log10_le (hb : b.Canonical) : (10 : ℚ) ^ b.toQuotient.log10 ≤ b.value := by
  obtain ⟨hnum, hlow, hhigh⟩ := log2_toQuotient hb
  rw [← value_toQuotient]
  exact Quotient.ten_zpow_log10_le hnum b.den_toQuotient_pos hlow hhigh

/-- Sixteen digits below the number there is room for an error of one half. -/
theorem nearby_of_close (hb : b.Canonical) {r : ℚ}
    (h : |r - b.value| ≤ b.value / (2 * 10 ^ 16)) : b.Nearby r := by
  have hscale : (0 : ℚ) < 2 ^ b.exponent := by positivity
  have hmantissa : (b.mantissa : ℚ) < 9007199254740992 := by exact_mod_cast hb.mantissa_lt
  obtain ⟨hbelow, habove⟩ := abs_le.mp h
  have hshare : b.value / (2 * 10 ^ 16) = b.mantissa / (2 * 10 ^ 16) * 2 ^ b.exponent := by
    unfold value
    ring
  have hlow : b.low < r := by
    have hroom : (b.mantissa : ℚ) / (2 * 10 ^ 16) <
        if b.mantissa = hiddenBit ∧ b.exponent ≠ -1074 then 1 / 4 else 1 / 2 := by
      split
      · rename_i hnarrow
        rw [hnarrow.1]
        norm_num [hiddenBit]
      · linarith
    have := mul_lt_mul_of_pos_right hroom hscale
    unfold low
    rw [sub_mul]
    unfold value at hbelow hshare
    linarith
  have hhigh : r < b.high := by
    have hroom : (b.mantissa : ℚ) / (2 * 10 ^ 16) < 1 / 2 := by linarith
    have := mul_lt_mul_of_pos_right hroom hscale
    unfold high
    rw [add_mul]
    unfold value at habove hshare
    linarith
  exact ⟨hlow.le, hhigh.le, fun _ => ⟨hlow, hhigh⟩⟩

theorem nearby_of_onGrid? (hb : b.Canonical) {e : Int} {c : Nat} (h : b.onGrid? e = some c) :
    b.Nearby (c * 10 ^ e) := by
  have hinside : ∀ n, b.interval.contains (Quotient.scale 10 e ⟨n, 1⟩) = true →
      b.Nearby (n * 10 ^ e) := by
    intro n hn
    rw [contains_iff hb.pos (Quotient.den_scale_pos (by decide) _ Nat.one_pos),
      Quotient.value_scale (by decide)] at hn
    simpa [Quotient.value] using hn
  unfold onGrid? at h
  dsimp only at h
  split at h
  · exact absurd h (by simp)
  · rename_i hn _
    obtain rfl := Option.some.inj h
    exact hinside _ hn
  · rename_i _ hn
    obtain rfl := Option.some.inj h
    exact hinside _ hn
  · rename_i hn hn'
    split at h
    · obtain rfl := Option.some.inj h
      exact hinside _ hn
    · split at h
      · obtain rfl := Option.some.inj h
        exact hinside _ hn'
      · split at h
        · obtain rfl := Option.some.inj h
          exact hinside _ hn
        · obtain rfl := Option.some.inj h
          exact hinside _ hn'

/-- Seventeen digits are enough. -/
theorem nearby_round (hb : b.Canonical) {top : Int} (htop : (10 : ℚ) ^ top ≤ b.value) :
    b.Nearby ((Quotient.scale 10 (16 - top) b.toQuotient).round * 10 ^ (top - 16)) := by
  have hden : 0 < (Quotient.scale 10 (16 - top) b.toQuotient).den :=
    Quotient.den_scale_pos (by decide) _ b.den_toQuotient_pos
  have hround := Quotient.abs_round_sub_le hden
  generalize (Quotient.scale 10 (16 - top) b.toQuotient).round = n at hround
  rw [Quotient.value_scale (by decide), value_toQuotient] at hround
  have hscale : (0 : ℚ) < 10 ^ (top - 16) := by positivity
  have hinverse : (10 : ℚ) ^ (16 - top) * 10 ^ (top - 16) = 1 := by
    rw [← zpow_add₀ (by norm_num)]
    simp
  have hpower : (10 : ℚ) ^ (top - 16) = 10 ^ top / 10 ^ 16 := by
    rw [zpow_sub₀ (by norm_num)]
    norm_num
  apply nearby_of_close hb
  calc |(n : ℚ) * 10 ^ (top - 16) - b.value| =
        |((n : ℚ) - b.value * 10 ^ (16 - top)) * 10 ^ (top - 16)| := by
        rw [sub_mul, mul_assoc b.value, hinverse, mul_one]
    _ = |(n : ℚ) - b.value * 10 ^ (16 - top)| * 10 ^ (top - 16) := by
      rw [abs_mul, abs_of_pos hscale]
    _ ≤ 1 / 2 * 10 ^ (top - 16) := mul_le_mul_of_nonneg_right hround hscale.le
    _ = 10 ^ top / (2 * 10 ^ 16) := by rw [hpower]; ring
    _ ≤ b.value / (2 * 10 ^ 16) := div_le_div_of_nonneg_right htop (by positivity)

/-- **The shortest decimal rounds to its number.** -/
theorem nearby_shortest (hb : b.Canonical) : b.Nearby b.shortest.value := by
  unfold shortest
  dsimp only
  rw [Numeral.value_strip]
  cases hfound : (List.range 17).findSome? fun (n : Nat) =>
      (b.onGrid? (b.toQuotient.log10 - n)).map fun c =>
        (⟨c, b.toQuotient.log10 - n⟩ : Numeral) with
  | none => exact nearby_round hb (ten_zpow_log10_le hb)
  | some d =>
    obtain ⟨n, -, hn⟩ := List.exists_of_findSome?_eq_some hfound
    obtain ⟨c, hc, rfl⟩ := Option.map_eq_some_iff.mp hn
    exact nearby_of_onGrid? hb hc

end Binary

end EnvManifest.Decimal
