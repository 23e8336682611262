import EnvManifest.Proofs.Decimal.Figures
import EnvManifest.Proofs.Decimal.Nearest
import EnvManifest.Proofs.Decimal.Shortest

/-!
# Floats, printed and read again
-/

namespace EnvManifest.Decimal

open EnvManifest.Text

/-- Does a text have the marks of a float? -/
def isFractional (cs : List Char) : Bool := cs.any fun c => c == '.' || c == 'e' || c == 'E'

namespace Figures

def value (f : Figures) : ℚ := f.coefficient * 10 ^ f.exponent

/-- The figures of digits that are written without an exponent. -/
def ofPositional (digits : List Char) (e : Int) : Figures :=
  if 0 ≤ e then ⟨digits ++ List.replicate e.toNat '0', some ['0'], none⟩
  else
    let places := (-e).toNat
    if places < digits.length then
      ⟨digits.take (digits.length - places), some (digits.drop (digits.length - places)), none⟩
    else ⟨['0'], some (List.replicate (places - digits.length) '0' ++ digits), none⟩

/-- The figures of digits with an exponent. -/
def ofScientific (digits : List Char) (top : Int) : Figures :=
  let power := Nat.toDigits 10 top.natAbs
  let sign : Bool := decide (top < 0)
  match digits with
  | d :: e :: more => ⟨[d], some (e :: more), some (sign, power)⟩
  | ds => ⟨ds, none, some (sign, power)⟩

theorem text_ofPositional (digits : List Char) (e : Int) :
    (ofPositional digits e).text = positional true digits e := by
  unfold ofPositional positional
  dsimp only
  split
  · simp [text, placesText, powerText]
  · split
    · simp [text, placesText, powerText]
    · simp [text, placesText, powerText]

theorem text_ofScientific (digits : List Char) (top : Int) :
    (ofScientific digits top).text = scientific false 1 digits top := by
  have hpad : 1 - (Nat.toDigits 10 top.natAbs).length = 0 := by
    have : 0 < (Nat.toDigits 10 top.natAbs).length := Nat.length_toDigits_pos
    omega
  unfold ofScientific scientific
  dsimp only
  rw [Nat.toString_eq_repr, Nat.toList_repr, hpad]
  by_cases hsign : top < 0
  · split <;> simp [text, placesText, powerText, hsign]
  · split <;> simp [text, placesText, powerText, hsign]

variable {digits : List Char}

theorem isDigit_of_mem_zeros {n : Nat} {c : Char} (h : c ∈ List.replicate n '0') : isDigit c := by
  obtain rfl := List.eq_of_mem_replicate h
  decide

theorem valid_ofPositional (hne : digits ≠ []) (hdigits : ∀ c ∈ digits, isDigit c) (e : Int) :
    (ofPositional digits e).Valid := by
  unfold ofPositional
  dsimp only
  split
  · refine ⟨by simp [hne], ?_, ?_, by simp⟩
    · intro c hc
      rcases List.mem_append.mp hc with hd | hz
      · exact hdigits c hd
      · exact isDigit_of_mem_zeros hz
    · rintro ds hds c hc
      obtain rfl := Option.some.inj hds
      obtain rfl := List.mem_singleton.mp hc
      decide
  · split
    · rename_i hplaces
      refine ⟨?_, fun c hc => hdigits c (List.mem_of_mem_take hc), ?_, by simp⟩
      · dsimp only
        rw [Ne, List.take_eq_nil_iff, not_or]
        exact ⟨by omega, hne⟩
      · rintro ds hds c hc
        obtain rfl := Option.some.inj hds
        exact hdigits c (List.mem_of_mem_drop hc)
    · refine ⟨by simp, ?_, ?_, by simp⟩
      · intro c hc
        obtain rfl := List.mem_singleton.mp hc
        decide
      · rintro ds hds c hc
        obtain rfl := Option.some.inj hds
        rcases List.mem_append.mp hc with hz | hd
        · exact isDigit_of_mem_zeros hz
        · exact hdigits c hd

theorem valid_ofScientific (hne : digits ≠ []) (hdigits : ∀ c ∈ digits, isDigit c) (top : Int) :
    (ofScientific digits top).Valid := by
  have hpower : ∀ negative ds,
      some (decide (top < 0), Nat.toDigits 10 top.natAbs) = some (negative, ds) →
        ds ≠ [] ∧ ∀ c ∈ ds, isDigit c := by
    intro negative ds h
    obtain ⟨-, rfl⟩ := Prod.mk.inj (Option.some.inj h)
    exact ⟨Nat.toDigits_ne_nil, fun c hc => isDigit_of_mem_toDigits hc⟩
  unfold ofScientific
  dsimp only
  split
  · rename_i d e more
    refine ⟨by simp, ?_, ?_, hpower⟩
    · intro c hc
      obtain rfl := List.mem_singleton.mp hc
      exact hdigits c (List.mem_cons_self ..)
    · rintro ds hds c hc
      obtain rfl := Option.some.inj hds
      exact hdigits c (List.mem_cons_of_mem _ hc)
  · exact ⟨hne, hdigits, by simp, hpower⟩

theorem value_ofPositional (digits : List Char) (e : Int) :
    (ofPositional digits e).value = ofDecimal digits * 10 ^ e := by
  unfold ofPositional
  dsimp only
  split
  · rename_i he
    obtain ⟨n, rfl⟩ := Int.eq_ofNat_of_zero_le he
    have hcoefficient : ofDecimal (digits ++ List.replicate n '0' ++ ['0']) =
        10 ^ (n + 1) * ofDecimal digits := by
      rw [List.append_assoc, ← List.replicate_succ', ofDecimal_append_zeros]
    unfold value coefficient exponent
    simp only [Int.toNat_natCast, Option.getD_some, List.length_singleton]
    rw [hcoefficient]
    push_cast
    rw [zpow_neg_one, pow_succ, zpow_natCast]
    ring
  · rename_i he
    split
    · rename_i hplaces
      have hlength : (digits.drop (digits.length - (-e).toNat)).length = (-e).toNat := by
        rw [List.length_drop]
        omega
      unfold value coefficient exponent
      simp only [Option.getD_some, List.take_append_drop]
      rw [hlength, Int.toNat_of_nonneg (by omega), neg_neg, add_zero]
    · rename_i hplaces
      have hlength : (List.replicate ((-e).toNat - digits.length) '0' ++ digits).length =
          (-e).toNat := by
        rw [List.length_append, List.length_replicate]
        omega
      have hcoefficient : ofDecimal (['0'] ++ (List.replicate ((-e).toNat - digits.length) '0' ++
          digits)) = ofDecimal digits := by
        rw [← List.append_assoc, List.singleton_append, ← List.replicate_succ,
          ofDecimal_zeros_append]
      unfold value coefficient exponent
      simp only [Option.getD_some]
      rw [hcoefficient, hlength, Int.toNat_of_nonneg (by omega), neg_neg, add_zero]

theorem value_ofScientific (hne : digits ≠ []) (e : Int) :
    (ofScientific digits (e + digits.length - 1)).value = ofDecimal digits * 10 ^ e := by
  have hpower : ∀ top : Int, (if decide (top < 0) = true then
      -(ofDecimal (Nat.toDigits 10 top.natAbs) : Int) else
        ofDecimal (Nat.toDigits 10 top.natAbs)) = top := by
    intro top
    rw [ofDecimal_toDigits]
    simp only [decide_eq_true_eq]
    split <;> omega
  unfold ofScientific value coefficient exponent
  dsimp only
  split
  · rename_i d c more
    simp only [hpower, Option.getD_some, List.singleton_append, List.length_cons]
    congr 2
    push_cast
    omega
  · rename_i hshort
    simp only [hpower, Option.getD_none, List.append_nil, List.length_nil]
    match digits, hne, hshort with
    | [d], _, _ => simp
    | d :: c :: more, _, h => exact absurd rfl (h d c more)

theorem isFractional_ofPositional (digits : List Char) (e : Int) :
    isFractional (ofPositional digits e).text := by
  have hpoint : '.' ∈ (ofPositional digits e).text := by
    unfold ofPositional text placesText
    dsimp only
    split
    · simp
    · split <;> simp
  exact List.any_eq_true.mpr ⟨'.', hpoint, by decide⟩

theorem isFractional_ofScientific (digits : List Char) (top : Int) :
    isFractional (ofScientific digits top).text := by
  have hmark : 'e' ∈ (ofScientific digits top).text := by
    unfold ofScientific text powerText
    dsimp only
    split <;> simp
  exact List.any_eq_true.mpr ⟨'e', hmark, by decide⟩

end Figures

/-- A decimal is written in figures of the same value. -/
theorem text_numeral (d : Numeral) :
    ∃ f : Figures, f.Valid ∧ isFractional f.text ∧ d.text .message = f.text ∧
      f.value = d.value := by
  have hne : Nat.toDigits 10 d.coefficient ≠ [] := Nat.toDigits_ne_nil
  have hdigits : ∀ c ∈ Nat.toDigits 10 d.coefficient, isDigit c :=
    fun c hc => isDigit_of_mem_toDigits hc
  unfold Numeral.text Numeral.value
  dsimp only
  rw [Nat.toString_eq_repr, Nat.toList_repr]
  split
  · refine ⟨.ofPositional _ d.exponent, Figures.valid_ofPositional hne hdigits _,
      Figures.isFractional_ofPositional _ _, (Figures.text_ofPositional _ _).symm, ?_⟩
    rw [Figures.value_ofPositional, ofDecimal_toDigits]
  · refine ⟨.ofScientific _ _, Figures.valid_ofScientific hne hdigits _,
      Figures.isFractional_ofScientific _ _, (Figures.text_ofScientific _ _).symm, ?_⟩
    rw [Figures.value_ofScientific hne, ofDecimal_toDigits]

theorem text_of_isFinite {x : Float} (h : x.isFinite) (l : Layout) :
    text l x = String.ofList (signed (isNegative x)
      (if (Binary.ofFloat x).mantissa = 0 then positional l.keepPoint ['0'] 0
        else (Binary.ofFloat x).shortest.text l)) := by
  rw [isFinite_eq, Bool.not_eq_true', Bool.or_eq_false_iff] at h
  unfold text textWith signed
  rw [h.1, h.2]
  rfl

/-- The figures of a finite number with its sign read back. -/
theorem text_figures {x : Float} (h : x.isFinite) :
    ∃ f, Figures.Valid f ∧ isFractional f.text ∧
      text .message x = String.ofList (signed (isNegative x) f.text) ∧
      float? (signed (isNegative x) f.text) = some x := by
  rw [text_of_isFinite h]
  by_cases hzero : (Binary.ofFloat x).mantissa = 0
  · let zero : Figures := .ofPositional ['0'] 0
    have hdigit : ∀ c ∈ ['0'], isDigit c := List.forall_mem_singleton.mpr (by decide)
    have hvalid : zero.Valid := Figures.valid_ofPositional (by simp) hdigit 0
    refine ⟨zero, hvalid, Figures.isFractional_ofPositional _ _, ?_, ?_⟩
    · rw [if_pos hzero, Figures.text_ofPositional]
      rfl
    · rw [float?_signed hvalid]
      have hnearest : nearest zero.coefficient zero.exponent = 0 := if_pos (by decide)
      rw [hnearest, Option.map_some, ← eq_zero hzero]
  · have hpos := Nat.pos_of_ne_zero hzero
    have hcanonical := Binary.canonical_ofFloat h hpos
    obtain ⟨f, hvalid, hfractional, htext, hvalue⟩ := text_numeral (Binary.ofFloat x).shortest
    have hnearby := Binary.nearby_shortest hcanonical
    rw [← hvalue] at hnearby
    refine ⟨f, hvalid, hfractional, ?_, ?_⟩
    · rw [if_neg hzero, htext]
    · rw [float?_signed hvalid, nearest_eq hcanonical hnearby, Option.map_some]
      have hx := eq_toFloat h hpos
      split
      · rename_i hnegative
        rw [neg_toFloat]
        rw [if_pos hnegative] at hx
        exact congrArg some hx.symm
      · rename_i hpositive
        rw [if_neg hpositive] at hx
        exact congrArg some hx.symm

/-- **A finite number is read back.** -/
theorem text_readsBack {x : Float} (h : x.isFinite) :
    ∃ f negative, Figures.Valid f ∧ isFractional f.text ∧
      text .message x = String.ofList (signed negative f.text) ∧
      float? (signed negative f.text) = some x := by
  obtain ⟨f, hf⟩ := text_figures h
  exact ⟨f, isNegative x, hf⟩

/-- The others are words. -/
theorem text_of_not_finite {x : Float} (h : x.isFinite = false) :
    text .message x = "inf" ∨ text .message x = "-inf" ∨ text .message x = "NaN" := by
  rw [isFinite_eq, Bool.not_eq_false', Bool.or_eq_true] at h
  unfold text textWith
  rcases h with hnan | hinf
  · rw [if_pos hnan]
    exact .inr (.inr rfl)
  · split
    · exact .inr (.inr rfl)
    · split
      · exact .inr (.inl rfl)
      · exact .inl rfl

end EnvManifest.Decimal
