import EnvManifest.Decimal.Read
import EnvManifest.Proofs.Text.Digits
import EnvManifest.Proofs.Text.Run

/-!
# Decimal figures

A decimal as it is written: digits, perhaps a point with digits after it, and perhaps a power of
ten. Here is what such a text is read as.
-/

namespace EnvManifest.Decimal

open EnvManifest.Text

/-- A decimal without its sign. -/
structure Figures where
  whole : List Char
  places : Option (List Char)
  /-- Is the power negative, and its digits. -/
  power : Option (Bool × List Char)

theorem splitSign_digits {ds : List Char} (h : ∀ c ∈ ds, isDigit c) :
    splitSign ds = (false, ds) := by
  unfold splitSign
  split
  · exact absurd (h '-' (List.mem_cons_self ..)) (by decide)
  · exact absurd (h '+' (List.mem_cons_self ..)) (by decide)
  · rfl

namespace Figures

def placesText (f : Figures) : List Char :=
  match f.places with
  | none => []
  | some ds => '.' :: ds

def powerText (f : Figures) : List Char :=
  match f.power with
  | none => []
  | some (negative, ds) => 'e' :: (if negative then '-' :: ds else ds)

def text (f : Figures) : List Char := f.whole ++ (f.placesText ++ f.powerText)

structure Valid (f : Figures) : Prop where
  whole_ne_nil : f.whole ≠ []
  whole : ∀ c ∈ f.whole, isDigit c
  places : ∀ ds, f.places = some ds → ∀ c ∈ ds, isDigit c
  power : ∀ negative ds, f.power = some (negative, ds) → ds ≠ [] ∧ ∀ c ∈ ds, isDigit c

/-- The number without its point. -/
def coefficient (f : Figures) : Nat := ofDecimal (f.whole ++ f.places.getD [])

/-- The power of ten that belongs to the number without its point. -/
def exponent (f : Figures) : Int :=
  -((f.places.getD []).length : Int) +
    match f.power with
    | none => 0
    | some (negative, ds) => if negative then -(ofDecimal ds : Int) else ofDecimal ds

theorem notMark_of_front {f : Figures} (hf : f.Valid) {c : Char}
    (hc : c ∈ f.whole ++ f.placesText) : isDigit c ∨ c = '.' := by
  unfold placesText at hc
  rcases List.mem_append.mp hc with hw | hp
  · exact .inl (hf.whole c hw)
  · cases hplaces : f.places with
    | none =>
      rw [hplaces] at hp
      exact absurd hp (by simp)
    | some ds =>
      rw [hplaces] at hp
      rcases List.mem_cons.mp hp with rfl | hd
      · exact .inr rfl
      · exact .inl (hf.places ds hplaces c hd)

theorem splitMark_text {f : Figures} (hf : f.Valid) :
    splitMark 'e' f.text =
      (f.whole ++ f.placesText, f.power.map fun p => if p.1 then '-' :: p.2 else p.2) := by
  have hfront : ∀ c ∈ f.whole ++ f.placesText, (!(c == 'e' || c == 'e'.toUpper)) = true := by
    intro c hc
    rcases notMark_of_front hf hc with hd | rfl
    · have he : c ≠ 'e' := ne_of_isDigit hd (by decide)
      have hE : c ≠ 'E' := ne_of_isDigit hd (by decide)
      simp [he, hE]
    · decide
  have hstop : stops (fun c => !(c == 'e' || c == 'e'.toUpper)) f.powerText := by
    unfold powerText
    split
    · exact stops_nil _
    · exact stops_cons (by decide) _
  unfold splitMark text
  rw [← List.append_assoc]
  dsimp only
  rw [dropWhile_run hfront hstop, takeWhile_run hfront hstop]
  unfold powerText
  cases f.power <;> simp

theorem mantissa?_front {f : Figures} (hf : f.Valid) :
    mantissa? isDigit ofDecimal (f.whole ++ f.placesText) =
      some (f.coefficient, -((f.places.getD []).length : Int)) := by
  have hstop : stops isDigit f.placesText := by
    unfold placesText
    split
    · exact stops_nil _
    · exact stops_cons (by decide) _
  unfold mantissa? coefficient
  rw [takeWhile_run hf.whole hstop, dropWhile_run hf.whole hstop]
  unfold placesText
  cases hplaces : f.places with
  | none => simp [hf.whole_ne_nil]
  | some ds =>
    have hall : ds.all isDigit = true := List.all_eq_true.mpr (hf.places ds hplaces)
    simp [hf.whole_ne_nil, hall]

theorem exponent?_power {f : Figures} (hf : f.Valid) {negative : Bool} {ds : List Char}
    (h : f.power = some (negative, ds)) :
    exponent? (if negative then '-' :: ds else ds) =
      some (if negative then -(ofDecimal ds : Int) else ofDecimal ds) := by
  obtain ⟨hne, hds⟩ := hf.power negative ds h
  have hall : ds.all isDigit = true := List.all_eq_true.mpr hds
  cases negative with
  | true => simp [exponent?, splitSign, hne, hall]
  | false =>
    have hsign : splitSign ds = (false, ds) := splitSign_digits hds
    simp [exponent?, hsign, hne, hall]

/-- **Figures are read as their number.** -/
theorem decimal?_text {f : Figures} (hf : f.Valid) :
    decimal? f.text = some (nearest f.coefficient f.exponent) := by
  unfold decimal?
  rw [splitMark_text hf]
  dsimp only
  rw [mantissa?_front hf]
  unfold exponent
  cases hpower : f.power with
  | none => simp
  | some p =>
    obtain ⟨negative, ds⟩ := p
    simp [exponent?_power hf hpower]

theorem mem_text {f : Figures} (hf : f.Valid) {c : Char} (hc : c ∈ f.text) :
    isDigit c ∨ c = '.' ∨ c = 'e' ∨ c = '-' := by
  unfold text at hc
  rw [← List.append_assoc] at hc
  rcases List.mem_append.mp hc with hfront | hpower
  · rcases notMark_of_front hf hfront with hd | hd
    · exact .inl hd
    · exact .inr (.inl hd)
  · unfold powerText at hpower
    cases hp : f.power with
    | none =>
      rw [hp] at hpower
      exact absurd hpower (by simp)
    | some p =>
      obtain ⟨negative, ds⟩ := p
      obtain ⟨-, hds⟩ := hf.power negative ds hp
      rw [hp] at hpower
      rcases List.mem_cons.mp hpower with rfl | hd
      · exact .inr (.inr (.inl rfl))
      · cases negative with
        | true =>
          rcases List.mem_cons.mp hd with rfl | hd
          · exact .inr (.inr (.inr rfl))
          · exact .inl (hds c hd)
        | false => exact .inl (hds c hd)

theorem text_eq_cons {f : Figures} (hf : f.Valid) :
    ∃ c cs, isDigit c ∧ f.text = c :: cs := by
  cases hw : f.whole with
  | nil => exact absurd hw hf.whole_ne_nil
  | cons c cs =>
    refine ⟨c, cs ++ (f.placesText ++ f.powerText), hf.whole c (by simp [hw]), ?_⟩
    unfold text
    rw [hw, List.cons_append]

end Figures

/-- A text with a minus in front, if it is negative. -/
def signed (negative : Bool) (text : List Char) : List Char :=
  if negative then '-' :: text else text

theorem splitSign_signed {f : Figures} (hf : f.Valid) (negative : Bool) :
    splitSign (signed negative f.text) = (negative, f.text) := by
  obtain ⟨c, cs, hc, htext⟩ := f.text_eq_cons hf
  unfold signed
  cases negative with
  | true => rfl
  | false =>
    rw [if_neg (by decide), htext]
    unfold splitSign
    split
    · rename_i heq
      obtain ⟨rfl, -⟩ := List.cons.inj heq
      exact absurd hc (by decide)
    · rename_i heq
      obtain ⟨rfl, -⟩ := List.cons.inj heq
      exact absurd hc (by decide)
    · rfl

theorem toLower_of_isDigit {c : Char} (h : isDigit c) : c.toLower = c := by
  have hc := toNat_of_isDigit h
  unfold Char.toLower
  rw [dif_neg]
  intro hupper
  have hle : 65 ≤ c.toNat := UInt32.le_iff_toNat_le.mp hupper.1
  omega

theorem ofList_toLower_ne {c : Char} (hc : isDigit c) (cs : List Char) {word : String}
    (hword : word.toList.head?.all (!isDigit ·)) :
    String.ofList ((c :: cs).map Char.toLower) ≠ word := by
  rintro rfl
  have hlower := toLower_of_isDigit hc
  rw [String.toList_ofList, List.map_cons, List.head?_cons, hlower] at hword
  simp [hc] at hword

theorem float?_signed {f : Figures} (hf : f.Valid) (negative : Bool) :
    float? (signed negative f.text) =
      (some (nearest f.coefficient f.exponent)).map fun x => if negative then -x else x := by
  obtain ⟨c, cs, hc, htext⟩ := f.text_eq_cons hf
  unfold float?
  rw [splitSign_signed hf, ← f.decimal?_text hf]
  dsimp only
  congr 1
  split
  · rename_i heq
    rw [htext] at heq
    exact absurd heq (ofList_toLower_ne hc cs (by decide))
  · rename_i heq
    rw [htext] at heq
    exact absurd heq (ofList_toLower_ne hc cs (by decide))
  · rename_i heq
    rw [htext] at heq
    exact absurd heq (ofList_toLower_ne hc cs (by decide))
  · rfl

/-! ## Whole numbers -/

/-- The figures of a whole number. -/
def Figures.ofNat (n : Nat) : Figures := ⟨Nat.toDigits 10 n, none, none⟩

theorem Figures.valid_whole {cs : List Char} (hne : cs ≠ []) (hds : ∀ d ∈ cs, isDigit d) :
    (⟨cs, none, none⟩ : Figures).Valid where
  whole_ne_nil := hne
  whole := hds
  places := fun _ h => by cases h
  power := fun _ _ h => by cases h

theorem Figures.ofNat_valid (n : Nat) : (Figures.ofNat n).Valid :=
  Figures.valid_whole Nat.toDigits_ne_nil fun _ hc => isDigit_of_mem_toDigits hc

theorem Figures.ofNat_text (n : Nat) : (Figures.ofNat n).text = Nat.toDigits 10 n := by
  simp [Figures.ofNat, Figures.text, Figures.placesText, Figures.powerText]

theorem toList_toString (n : Int64) :
    (toString n).toList = signed (decide (n.toInt < 0)) (Figures.ofNat n.toInt.natAbs).text := by
  rw [Figures.ofNat_text]
  show (Int.repr n.toInt).toList = _
  cases n.toInt with
  | ofNat m => simp [signed, Int.repr, Nat.toList_repr]
  | negSucc m => simp [signed, Int.repr, Nat.toList_repr, Int.negSucc_lt_zero]

end EnvManifest.Decimal
