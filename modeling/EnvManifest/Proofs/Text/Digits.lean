import EnvManifest.Proofs.Text.Run
import Mathlib.Algebra.Group.Nat.Defs

/-!
# Digits, written and read

Numbers can be told apart by their texts, and these hold no controls.
-/

namespace EnvManifest.Text

theorem ofHex_append (ds : List Char) (d : Char) :
    ofHex (ds ++ [d]) = ofHex ds * 16 + (hexValue? d).getD 0 := by
  simp [ofHex, List.foldl_append]

theorem hexValue?_digitChar {n : Nat} (h : n < 16) : hexValue? n.digitChar = some n := by
  revert n
  decide

theorem ofHex_toHex (n : Nat) : ofHex (toHex n) = n := by
  unfold toHex
  induction n using Nat.strongRecOn with
  | _ n ih =>
    rw [Nat.toDigits_eq_if (by decide)]
    split
    · rename_i h
      simp [ofHex, hexValue?_digitChar h]
    · rename_i h
      rw [ofHex_append, ih (n / 16) (by omega), hexValue?_digitChar (Nat.mod_lt _ (by decide)),
        Option.getD_some]
      omega

theorem ofDecimal_eq_ofDigitChars (ds : List Char) : ofDecimal ds = Nat.ofDigitChars 10 ds 0 := by
  have hstep : (fun (n : Nat) (d : Char) => n * 10 + digitValue d) =
      fun n d => 10 * n + (d.toNat - '0'.toNat) := by
    funext n d
    rw [Nat.mul_comm]
    rfl
  unfold ofDecimal
  rw [hstep, Nat.ofDigitChars_eq_foldl]

theorem ofDecimal_toDigits (n : Nat) : ofDecimal (Nat.toDigits 10 n) = n := by
  rw [ofDecimal_eq_ofDigitChars, Nat.ofDigitChars_ten_toDigits]

theorem ofDecimal_append_zeros (ds : List Char) (n : Nat) :
    ofDecimal (ds ++ List.replicate n '0') = 10 ^ n * ofDecimal ds := by
  rw [ofDecimal_eq_ofDigitChars, ofDecimal_eq_ofDigitChars, Nat.ofDigitChars_append,
    Nat.ofDigitChars_replicate_zero]

theorem ofDecimal_zeros_append (n : Nat) (ds : List Char) :
    ofDecimal (List.replicate n '0' ++ ds) = ofDecimal ds := by
  rw [ofDecimal_eq_ofDigitChars, ofDecimal_eq_ofDigitChars, Nat.ofDigitChars_append,
    Nat.ofDigitChars_replicate_zero, Nat.mul_zero]

theorem isHexDigit_of_mem_toHex {n : Nat} {c : Char} (h : c ∈ toHex n) : isHexDigit c := by
  unfold toHex at h
  induction n using Nat.strongRecOn with
  | _ n ih =>
    rw [Nat.toDigits_eq_if (by decide)] at h
    split at h
    · rename_i hn
      obtain rfl := List.mem_singleton.mp h
      simp [isHexDigit, hexValue?_digitChar hn]
    · rename_i hn
      rcases List.mem_append.mp h with hc | hc
      · exact ih (n / 16) (by omega) hc
      · obtain rfl := List.mem_singleton.mp hc
        simp [isHexDigit, hexValue?_digitChar (Nat.mod_lt n (show 0 < 16 by decide))]

theorem isDigit_of_mem_toDigits {n : Nat} {c : Char} (h : c ∈ Nat.toDigits 10 n) : isDigit c := by
  have := Nat.isDigit_of_mem_toDigits (by decide) (by decide) h
  simpa [isDigit, Char.isDigit, Char.le_def] using this

theorem charOf?_toNat (c : Char) : charOf? c.toNat = some c := by
  unfold charOf?
  rw [dif_pos (show c.toNat.isValidChar from c.valid)]
  rfl

/-- The number of a character has at most six hexadecimal digits. -/
theorem length_toHex_le (c : Char) : (toHex c.toNat).length ≤ 6 := by
  unfold toHex
  rw [Nat.length_toDigits_le_iff (by decide) (by decide)]
  have hvalid : c.toNat.isValidChar := c.valid
  unfold Nat.isValidChar at hvalid
  omega

theorem toHex_ne_nil (n : Nat) : toHex n ≠ [] := Nat.toDigits_ne_nil

/-! ## Texts without controls -/

/-- Holds a text no character below the blank? -/
def Printable (cs : List Char) : Prop := ∀ c ∈ cs, 0x20 ≤ c.toNat

instance (cs : List Char) : Decidable (Printable cs) :=
  List.decidableBAll (fun c : Char => 0x20 ≤ c.toNat) cs

section

variable {cs ds : List Char}

theorem printable_append : Printable (cs ++ ds) ↔ Printable cs ∧ Printable ds :=
  List.forall_mem_append

theorem printable_cons {c : Char} : Printable (c :: cs) ↔ 0x20 ≤ c.toNat ∧ Printable cs :=
  List.forall_mem_cons

theorem Printable.subset (h : Printable cs) (sub : ds ⊆ cs) : Printable ds :=
  fun c hc => h c (sub hc)

theorem printable_of_digits (h : ∀ c ∈ cs, isDigit c) : Printable cs := fun c hc => by
  have := toNat_of_isDigit (h c hc)
  omega

theorem printable_zeros (n : Nat) : Printable (List.replicate n '0') := fun c hc => by
  rw [List.eq_of_mem_replicate hc]
  decide

theorem isDigit_of_mem_toString {n : Nat} {c : Char} (h : c ∈ (toString n).toList) : isDigit c := by
  rw [Nat.toString_eq_repr, Nat.toList_repr] at h
  exact isDigit_of_mem_toDigits h

theorem printable_toString (n : Nat) : Printable (toString n).toList :=
  printable_of_digits fun _ hc => isDigit_of_mem_toString hc

theorem printable_bool (b : Bool) : Printable (toString b).toList := by cases b <;> decide

theorem toString_negSucc (n : Nat) :
    (toString (Int.negSucc n)).toList = '-' :: (toString (n + 1)).toList := String.toList_append

theorem printable_int (n : Int) : Printable (toString n).toList := by
  cases n with
  | ofNat n => exact printable_toString n
  | negSucc n =>
    rw [toString_negSucc]
    exact printable_cons.mpr ⟨by decide, printable_toString _⟩

theorem toString_nat_inj {m n : Nat} (h : (toString m).toList = (toString n).toList) : m = n := by
  rw [Nat.toString_eq_repr, Nat.toString_eq_repr, Nat.toList_repr, Nat.toList_repr] at h
  rw [← ofDecimal_toDigits m, h, ofDecimal_toDigits]

theorem toString_int_inj {m n : Int} (h : (toString m).toList = (toString n).toList) : m = n := by
  have unsigned (n : Nat) : '-' ∉ (toString n).toList := fun hc =>
    absurd (isDigit_of_mem_toString hc) (by decide)
  cases m with
  | ofNat m =>
    cases n with
    | ofNat n => rw [toString_nat_inj h]
    | negSucc n =>
      rw [toString_negSucc] at h
      exact absurd (h ▸ List.mem_cons_self ..) (unsigned m)
  | negSucc m =>
    rw [toString_negSucc] at h
    cases n with
    | ofNat n => exact absurd (h ▸ List.mem_cons_self ..) (unsigned n)
    | negSucc n =>
      rw [toString_negSucc] at h
      rw [Nat.succ.inj (toString_nat_inj (List.cons.inj h).2)]

theorem printable_toHex (n : Nat) : Printable (toHex n) := fun c hc => by
  have digit := isHexDigit_of_mem_toHex hc
  refine Nat.le_of_not_lt fun small => ?_
  have none : ∀ k < 0x20, isHexDigit (Char.ofNat k) = false := by decide
  rw [← Char.ofNat_toNat c, none _ small] at digit
  cases digit

theorem printable_toHexPadded (width n : Nat) : Printable (toHexPadded width n) :=
  printable_append.mpr ⟨printable_zeros _, printable_toHex n⟩

theorem length_toHexPadded {width n : Nat} (pos : 0 < width) (h : n < 16 ^ width) :
    (toHexPadded width n).length = width := by
  have short := (Nat.length_toDigits_le_iff (by decide) pos).mpr h
  rw [toHexPadded, toHex, List.length_append, List.length_replicate]
  omega

theorem ofHex_zeros_append (n : Nat) (ds : List Char) : ofHex (List.replicate n '0' ++ ds) = ofHex ds := by
  induction n with
  | zero => rfl
  | succ n ih => exact ih

theorem toHexPadded_inj {width m n : Nat} (h : toHexPadded width m = toHexPadded width n) : m = n := by
  have value : ∀ n, ofHex (toHexPadded width n) = n := fun n => by
    rw [toHexPadded, ofHex_zeros_append, ofHex_toHex]
  rw [← value m, h, value]

end

end EnvManifest.Text
