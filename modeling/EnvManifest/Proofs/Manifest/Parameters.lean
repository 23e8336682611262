import EnvManifest.Proofs.Decimal.RoundTrip
import EnvManifest.Proofs.Manifest.Parsing

/-!
# Parameters, printed and read again
-/

namespace EnvManifest

open Text Decimal

/-! ## Numbers -/

theorem dropPlus_signed {f : Figures} (hf : f.Valid) (negative : Bool) :
    (signed negative f.text).dropWhile (· == '+') = signed negative f.text := by
  obtain ⟨c, cs, hc, htext⟩ := f.text_eq_cons hf
  unfold signed
  cases negative with
  | true => rfl
  | false =>
    rw [if_neg (by decide), htext, List.dropWhile_cons_of_neg]
    simpa using ne_of_isDigit hc (d := '+') (by decide)

theorem parseNumber_signed {f : Figures} (hf : f.Valid) (negative : Bool) :
    parseNumber (String.ofList (signed negative f.text)) =
      match if isFractional f.text then none else int64? (signed negative f.text) with
      | some n => some (.int n)
      | none => (Decimal.float? (signed negative f.text)).map .float := by
  unfold parseNumber
  rw [String.toList_ofList, splitSign_signed hf]
  dsimp only
  split
  · rename_i hex heq
    have hx := isHexMark_second hf (stops_nil isIdentPart) (by rw [List.append_nil]; exact heq)
    exact absurd hx (by decide)
  · rw [dropPlus_signed hf]
    rfl

theorem parseNumber_toString (n : Int64) : parseNumber (toString n) = some (.int n) := by
  have hf := Figures.ofNat_valid n.toInt.natAbs
  have hdigits : ∀ c ∈ Nat.toDigits 10 n.toInt.natAbs, isDigit c :=
    fun c hc => isDigit_of_mem_toDigits hc
  have hwhole : isFractional (Figures.ofNat n.toInt.natAbs).text = false := by
    rw [Figures.ofNat_text]
    refine List.any_eq_false.mpr fun c hc => ?_
    have hd := hdigits c hc
    simp [ne_of_isDigit hd (d := '.') (by decide), ne_of_isDigit hd (d := 'e') (by decide),
      ne_of_isDigit hd (d := 'E') (by decide)]
  have hvalue : (if decide (n.toInt < 0) = true then -(n.toInt.natAbs : Int) else n.toInt.natAbs) =
      n.toInt := by
    split <;> rename_i h <;> simp at h <;> omega
  have hint : int64? (signed (decide (n.toInt < 0)) (Figures.ofNat n.toInt.natAbs).text) =
      some n := by
    unfold int64?
    rw [splitSign_signed hf, Figures.ofNat_text]
    dsimp only
    rw [if_neg, ofDecimal_toDigits, hvalue]
    · have hlow := n.le_toInt
      have hhigh := n.toInt_lt
      unfold Word.int64?
      rw [if_pos ⟨by unfold Word.half; omega, by unfold Word.half; omega⟩, Int64.ofInt_toInt]
    · simp [Nat.toDigits_ne_nil, List.all_eq_true.mpr hdigits]
  rw [← String.ofList_toList (s := toString n), toList_toString, parseNumber_signed hf, hwhole,
    if_neg (by decide), hint]

theorem parseNumber_text {x : Float} (h : x.isFinite) :
    parseNumber (Decimal.text .message x) = some (.float x) := by
  obtain ⟨f, negative, hf, hfractional, htext, hread⟩ := text_readsBack h
  rw [htext, parseNumber_signed hf, hfractional, if_pos rfl, hread]
  rfl

/-! ## Values -/

namespace ParamValue

/-- Is a value read back as itself? An infinite float is not: it is printed as a word. -/
def readsBack : ParamValue → Bool
  | float value => value.isFinite
  | _ => true

/-- The token that a printed value is read as. -/
def kind : ParamValue → TokenKind
  | str value => .str value
  | word value => .ident value
  | int value => .number (toString value)
  | float value =>
    if value.isFinite then .number (Decimal.text .message value)
    else .ident (Decimal.text .message value)
  | bool value => .ident (toString value)

/-- The value that a printed value is parsed as. -/
def reread : ParamValue → ParamValue
  | float value => if value.isFinite then .float value else .word (Decimal.text .message value)
  | value => value

/-- Has a printed value a token? Only minus infinity has none. -/
def Lexes : ParamValue → Prop
  | float value => Decimal.text .message value ≠ "-inf"
  | _ => True

theorem reread_eq_iff (v : ParamValue) : v.reread = v ↔ v.readsBack := by
  cases v <;> simp [reread, readsBack]

end ParamValue

theorem wordValue_word {w : String} (ht : w ≠ "true") (hf : w ≠ "false") :
    wordValue w = .word w := by
  unfold wordValue
  split
  · exact absurd rfl ht
  · exact absurd rfl hf
  · rfl

theorem parseValue_kind {v : ParamValue} (hv : v.WellFormed) (span : Span) :
    parseValue ⟨v.kind, span⟩ = .ok v.reread := by
  cases v with
  | str value => rfl
  | word value => exact congrArg Except.ok (wordValue_word hv.2.1 hv.2.2)
  | int value => simp [parseValue, ParamValue.kind, parseNumber_toString, ParamValue.reread]
  | float value =>
    cases h : value.isFinite with
    | true => simp [parseValue, ParamValue.kind, ParamValue.reread, h, parseNumber_text h]
    | false =>
      have hword : wordValue (Decimal.text .message value) =
          .word (Decimal.text .message value) := by
        rcases text_of_not_finite h with hw | hw | hw <;> rw [hw] <;> rfl
      simp [parseValue, ParamValue.kind, ParamValue.reread, h, hword]
  | bool value => cases value <;> rfl

theorem reads_value {v : ParamValue} (hv : v.WellFormed) (hl : v.Lexes) {rest : List Char}
    (hrest : Apart rest) : Reads v.print [v.kind] rest := by
  cases v with
  | str value => exact Reads.str value rest
  | word value => 
    have := Reads.ident hv.1 hrest
    rwa [String.ofList_toList] at this
  | int value =>
    have := Reads.number (Figures.ofNat_valid value.toInt.natAbs) (decide (value.toInt < 0)) hrest
    rwa [← toList_toString, String.ofList_toList] at this
  | float value =>
    unfold ParamValue.kind ParamValue.print
    dsimp only
    cases h : value.isFinite with
    | true =>
      obtain ⟨f, negative, hf, -, htext, -⟩ := text_readsBack h
      rw [if_pos rfl, htext, String.toList_ofList]
      exact Reads.number hf negative hrest
    | false =>
      rw [if_neg (by decide)]
      rcases text_of_not_finite h with hw | hw | hw
      · rw [hw]
        exact Reads.ident (w := "inf".toList) (by decide) hrest
      · exact absurd hw hl
      · rw [hw]
        exact Reads.ident (w := "NaN".toList) (by decide) hrest
  | bool value =>
    cases value
    · exact Reads.ident (w := "false".toList) (by decide) hrest
    · exact Reads.ident (w := "true".toList) (by decide) hrest

/-- A text that has no tokens, whatever follows it. -/
def Fails (text rest : List Char) : Prop := ∀ pos, ∃ e, tokensFrom pos (text ++ rest) = .error e

theorem Reads.fails {a b rest : List Char} {ks : List TokenKind} (ha : Reads a ks (b ++ rest))
    (hb : Fails b rest) : Fails (a ++ b) rest := by
  intro pos
  obtain ⟨front, pos', -, htokens⟩ := ha pos
  obtain ⟨e, he⟩ := hb pos'
  refine ⟨e, ?_⟩
  rw [List.append_assoc, htokens, he]
  rfl

theorem Fails.append {a b rest : List Char} (h : Fails a (b ++ rest)) : Fails (a ++ b) rest := by
  intro pos
  rw [List.append_assoc]
  exact h pos

theorem fails_value {v : ParamValue} (h : ¬v.Lexes) (rest : List Char) : Fails v.print rest := by
  cases v with
  | float value =>
    have htext : Decimal.text .message value = "-inf" := Decidable.not_not.mp h
    intro pos
    unfold ParamValue.print
    dsimp only
    rw [htext]
    exact ⟨_, tokensFrom_error (by decide) rfl⟩
  | _ => exact absurd trivial h

end EnvManifest
