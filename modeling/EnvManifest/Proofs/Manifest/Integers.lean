import Mathlib
import EnvManifest.Proofs.Manifest.Concatenation
import EnvManifest.Proofs.Manifest.Parameters
import EnvManifest.Proofs.Manifest.Tiling

/-!
# Whole numbers as parameters

A whole number is written with a sign and digits: decimal ones, with `_` after the first, or
hexadecimal ones. As a parameter it keeps its value where 64 bits hold it.
-/

namespace EnvManifest

open Text Decimal Grammar

/-! ## How whole numbers are written -/

inductive Sign where
  | none | plus | minus
deriving DecidableEq, Repr

namespace Sign

def written : Sign → List Char
  | none => []
  | plus => ['+']
  | minus => ['-']

def apply : Sign → Nat → Int
  | minus, n => -n
  | _, n => n

theorem apply_eq (s : Sign) (n : Nat) : s.apply n = if s = .minus then -(n : Int) else n := by
  cases s <;> rfl

theorem written_signed (s : Sign) : ∀ c ∈ s.written, isSign c := by
  cases s <;> simp [written, isSign]

theorem written_single (s : Sign) : s.written.length ≤ 1 := by cases s <;> decide

end Sign

/-- The number that digits of a base denote, the most significant first. -/
def positional (base : Nat) (digit : Char → Nat) (ds : List Char) : Nat :=
  Nat.ofDigits base (ds.reverse.map digit)

/-- The digits of a whole number. -/
inductive Magnitude where
  | decimal (first : Char) (more : List Char) (starts : isDigit first)
      (goes : ∀ c ∈ more, isDigitOrGap c)
  | hex (mark : Char) (digits : List Char) (marks : isHexMark mark) (filled : digits ≠ [])
      (goes : ∀ c ∈ digits, isHexDigit c)

namespace Magnitude

def written : Magnitude → List Char
  | decimal first more _ _ => first :: more
  | hex mark digits _ _ _ => '0' :: mark :: digits

def value : Magnitude → Nat
  | decimal first more _ _ => positional 10 digitValue (first :: more.filter (· != '_'))
  | hex _ digits _ _ _ => positional 16 (fun d => (hexValue? d).getD 0) digits

def isHex : Magnitude → Bool
  | decimal .. => false
  | hex .. => true

/-- The digits as a token has them. -/
def plain : Magnitude → List Char
  | decimal first more _ _ => first :: more.filter (· != '_')
  | hex _ digits _ _ _ => '0' :: 'x' :: digits

end Magnitude

/-- A whole number as it is written. -/
structure WholeNumber where
  sign : Sign
  magnitude : Magnitude

namespace WholeNumber

def written (w : WholeNumber) : List Char := w.sign.written ++ w.magnitude.written

def value (w : WholeNumber) : Int := w.sign.apply w.magnitude.value

/-- The least and the greatest number that 64 bits hold with its sign. -/
def least : Int := -9223372036854775808

def greatest : Int := 9223372036854775807

/-- The nearest float. -/
def float (w : WholeNumber) : Float :=
  if w.sign = .minus then -nearest w.magnitude.value 0 else nearest w.magnitude.value 0

/-- What a whole number is as a parameter. It is a hexadecimal number only where 64 bits hold its
magnitude too, which is not so for the least number of all. A decimal number past the ends is the
nearest float. -/
inductive ReadAs (w : WholeNumber) (offset : Nat) : Except Misparse ParamValue → Prop
  | int {n : Int64} (same : n.toInt = w.value) (magnitude : w.magnitude.isHex → w.value ≠ least) :
      ReadAs w offset (.ok (.int n))
  | float (decimal : ¬w.magnitude.isHex) (past : w.value < least ∨ greatest < w.value) :
      ReadAs w offset (.ok (.float w.float))
  | refused (hex : w.magnitude.isHex) (past : w.value ≤ least ∨ greatest < w.value) :
      ReadAs w offset (.error ⟨.invalidNumber, offset⟩)

/-! ## What is left of the spelling -/

theorem isDigit_of_kept {more : List Char} (goes : ∀ c ∈ more, isDigitOrGap c) :
    ∀ c ∈ more.filter (· != '_'), isDigit c := by
  intro c hc
  obtain ⟨hc, hgap⟩ := List.mem_filter.mp hc
  have := goes c hc
  simp only [isDigitOrGap, Bool.or_eq_true, beq_iff_eq] at this
  exact this.resolve_right (bne_iff_ne.mp hgap)

theorem unmarked_decimal (sign : Sign) {first : Char} {more : List Char} (starts : isDigit first)
    (goes : ∀ c ∈ more, isDigitOrGap c) : ∀ c ∈ sign.written ++ first :: more, noHexMark c := by
  refine List.forall_mem_append.mpr ⟨fun c hc => noHexMark_covers.sign c (sign.written_signed c hc), ?_⟩
  exact List.forall_mem_cons.mpr ⟨noHexMark_covers.gap first (isDigitOrGap_of_isDigit starts),
    fun c hc => noHexMark_covers.gap c (goes c hc)⟩

theorem written_number (w : WholeNumber) : NumberWritten w.written := by
  obtain ⟨sign, magnitude⟩ := w
  cases magnitude with
  | decimal first more starts goes => exact .decimal (unmarked_decimal sign starts goes)
  | hex mark digits marks filled goes =>
    exact .hex sign.written_signed sign.written_single marks goes

theorem numberText_whole (w : WholeNumber) :
    numberText w.written = w.sign.written ++ w.magnitude.plain := by
  obtain ⟨sign, magnitude⟩ := w
  cases magnitude with
  | decimal first more starts goes =>
    have kept : sign.written.filter (· != '_') = sign.written := by cases sign <;> rfl
    have digit : (first != '_') = true := bne_iff_ne.mpr (ne_of_isDigit starts (by decide))
    refine (numberText_decimal (unmarked_decimal sign starts goes)).trans ?_
    rw [List.filter_append, kept, List.filter_cons, if_pos digit]
    rfl
  | hex mark digits marks filled goes =>
    exact numberText_hex sign.written_signed sign.written_single marks

/-! ## What the number is parsed as -/

theorem positional_eq_foldl (base : Nat) (digit : Char → Nat) (ds : List Char) :
    positional base digit ds = ds.foldl (fun n d => n * base + digit d) 0 := by
  rw [positional, Nat.ofDigits_eq_foldr, List.foldr_map, List.foldr_reverse]
  simp only [Nat.cast_id, Nat.mul_comm, Nat.add_comm]

theorem ofDecimal_eq (ds : List Char) : ofDecimal ds = positional 10 digitValue ds :=
  (positional_eq_foldl ..).symm

theorem ofHex_eq (ds : List Char) : ofHex ds = positional 16 (fun d => (hexValue? d).getD 0) ds :=
  (positional_eq_foldl ..).symm

/-- A whole number that 64 bits hold, or else the float in its place. -/
def narrowed (n : Int) (x : Float) : ParamValue := ((Word.int64? n).map .int).getD (.float x)

theorem narrowed_within {n : Int} (x : Float) (h : least ≤ n ∧ n ≤ greatest) :
    ∃ m : Int64, narrowed n x = .int m ∧ m.toInt = n := by
  unfold least greatest at h
  refine ⟨Int64.ofInt n, ?_, Int64.toInt_ofInt_of_le (by omega) (by omega)⟩
  rw [narrowed, Word.int64?, if_pos ⟨by unfold Word.half; omega, by unfold Word.half; omega⟩]
  rfl

theorem narrowed_past {n : Int} (x : Float) (h : n < least ∨ greatest < n) :
    narrowed n x = .float x := by
  unfold least greatest at h
  rw [narrowed, Word.int64?, if_neg (by unfold Word.half; omega)]
  rfl

section

variable {ds : List Char}

theorem parseNumber_plus (digits : ∀ c ∈ ds, isDigit c) :
    parseNumber (String.ofList ('+' :: ds)) = parseNumber (String.ofList ds) := by
  unfold parseNumber
  rw [String.toList_ofList, String.toList_ofList, splitSign_digits digits]
  rfl

theorem parseNumber_signed_digits (negative : Bool) (nonempty : ds ≠ [])
    (digits : ∀ c ∈ ds, isDigit c) :
    parseNumber (String.ofList (signed negative ds)) =
      some (narrowed (if negative then -(ofDecimal ds : Int) else ofDecimal ds)
        (if negative then -nearest (ofDecimal ds) 0 else nearest (ofDecimal ds) 0)) := by
  have valid : (Figures.mk ds none none).Valid := ⟨nonempty, digits, nofun, nofun⟩
  have text : (Figures.mk ds none none).text = ds := List.append_nil ds
  have whole : isFractional ds = false := by
    refine List.any_eq_false.mpr fun c hc => ?_
    have hd := digits c hc
    simp [ne_of_isDigit hd (d := '.') (by decide), ne_of_isDigit hd (d := 'e') (by decide),
      ne_of_isDigit hd (d := 'E') (by decide)]
  have split := splitSign_signed valid negative
  have parsed := parseNumber_signed valid negative
  have float := float?_signed valid negative
  have coefficient : (Figures.mk ds none none).coefficient = ofDecimal ds :=
    congrArg ofDecimal (List.append_nil ds)
  rw [text] at split parsed float
  rw [coefficient] at float
  rw [parsed, whole, if_neg (by decide), int64?, split]
  dsimp only
  rw [if_neg (by simp [nonempty, List.all_eq_true.mpr digits]), float, narrowed]
  cases Word.int64? (if negative then -(ofDecimal ds : Int) else ofDecimal ds) <;> rfl

theorem parseNumber_digits (sign : Sign) (nonempty : ds ≠ []) (digits : ∀ c ∈ ds, isDigit c) :
    parseNumber (String.ofList (sign.written ++ ds)) =
      some (narrowed (sign.apply (ofDecimal ds))
        (if sign = .minus then -nearest (ofDecimal ds) 0 else nearest (ofDecimal ds) 0)) := by
  have bare := parseNumber_signed_digits false nonempty digits
  cases sign with
  | none => exact bare
  | plus => exact (parseNumber_plus digits).trans bare
  | minus => exact parseNumber_signed_digits true nonempty digits

theorem parseNumber_hex (sign : Sign) (nonempty : ds ≠ []) (digits : ∀ c ∈ ds, isHexDigit c) :
    parseNumber (String.ofList (sign.written ++ '0' :: 'x' :: ds)) =
      if Word.half ≤ ofHex ds then none else some (.int (Int64.ofInt (sign.apply (ofHex ds)))) := by
  have split : splitSign (sign.written ++ '0' :: 'x' :: ds) =
      (decide (sign = .minus), '0' :: 'x' :: ds) := by
    cases sign <;> simp [Sign.written, splitSign]
  rw [parseNumber, String.toList_ofList, split]
  dsimp only
  unfold hexNumber?
  simp only [Sign.apply_eq, List.all_eq_true.mpr digits, List.isEmpty_eq_false_iff.mpr nonempty,
    Bool.not_true, Bool.false_or, decide_eq_true_eq]

end

theorem parseNumber_of_decimal {w : WholeNumber} (h : ¬w.magnitude.isHex) :
    parseNumber (String.ofList (numberText w.written)) = some (narrowed w.value w.float) := by
  rw [numberText_whole]
  obtain ⟨sign, magnitude⟩ := w
  cases magnitude with
  | decimal first more starts goes =>
    have digits : ∀ c ∈ first :: more.filter (· != '_'), isDigit c :=
      List.forall_mem_cons.mpr ⟨starts, isDigit_of_kept goes⟩
    have parsed := parseNumber_digits sign (List.cons_ne_nil _ _) digits
    rwa [ofDecimal_eq] at parsed
  | hex => exact absurd rfl h

theorem half_le_iff (sign : Sign) (n : Nat) :
    Word.half ≤ n ↔ ¬(least < sign.apply n ∧ sign.apply n ≤ greatest) := by
  rw [Sign.apply_eq]
  unfold Word.half least greatest
  split <;> omega

theorem parseNumber_of_hex {w : WholeNumber} (h : w.magnitude.isHex) :
    parseNumber (String.ofList (numberText w.written)) =
      if least < w.value ∧ w.value ≤ greatest then some (.int (Int64.ofInt w.value)) else none := by
  rw [numberText_whole]
  obtain ⟨sign, magnitude⟩ := w
  cases magnitude with
  | decimal => cases h
  | hex mark digits marks filled goes =>
    have parsed := parseNumber_hex sign filled goes
    rw [ofHex_eq, if_congr (half_le_iff sign _) rfl rfl, ite_not] at parsed
    exact parsed

/-- A token that has a whole number. -/
theorem readAs_of_token {w : WholeNumber} {t : Token}
    (number : t.kind = .number (String.ofList (numberText w.written))) :
    w.ReadAs t.span.start (parseValue t) := by
  rw [parseValue, number]
  dsimp only
  by_cases hex : w.magnitude.isHex
  · rw [parseNumber_of_hex hex]
    by_cases within : least < w.value ∧ w.value ≤ greatest
    · rw [if_pos within]
      refine .int (Int64.toInt_ofInt_of_le ?_ ?_) fun _ => within.1.ne'
      · unfold least greatest at within
        omega
      · unfold least greatest at within
        omega
    · rw [if_neg within]
      exact .refused hex (by omega)
  · rw [parseNumber_of_decimal hex]
    by_cases within : least ≤ w.value ∧ w.value ≤ greatest
    · obtain ⟨m, hm, same⟩ := narrowed_within w.float within
      dsimp only
      rw [hm]
      exact .int same fun h => absurd h hex
    · have past : w.value < least ∨ greatest < w.value := by omega
      dsimp only
      rw [narrowed_past w.float past]
      exact .float hex past

/-! ## Whole numbers in manifests -/

/-- A token is what is written in its place. -/
theorem writes_slice {source : String} {tokens : List Token} (h : lex source = .ok tokens)
    {t : Token} (ht : t ∈ tokens) :
    t.kind.Writes (slice source.toList t.span.start t.span.stop) := by
  obtain ⟨ls, hls, rfl⟩ := map_ok h
  obtain ⟨front, own, back, hsource, span, writes, -⟩ :=
    (tiles_of_lexemes hls).stands byteLength_nil t ht
  rw [List.nil_append] at hsource
  rwa [hsource, span, slice_split]

/-- A token that stands where a whole number is written has that number. -/
theorem number_of_slice {w : WholeNumber} {source : String} {tokens : List Token}
    (h : lex source = .ok tokens) {t : Token} (ht : t ∈ tokens) {text : String}
    (number : t.kind = .number text)
    (written : slice source.toList t.span.start t.span.stop = w.written) :
    t.kind = .number (String.ofList (numberText w.written)) := by
  have writes := writes_slice h ht
  rw [written, number] at writes
  rw [number, numberText_written w.written_number, ← show text.toList = _ from writes,
    String.ofList_toList]

end WholeNumber

/-! ## Parameters and their tokens -/

/-- The parameters of a namespace, and those of its references. -/
def Namespace.allParameters (n : Namespace) : List Parameter :=
  n.parameters ++ n.composites.flatMap (·.arguments)

namespace Grammar

theorem Arguments.exists_value {a : Arguments} {p : Parameter} (h : p ∈ a.parameters) :
    ∃ v : Value, v.parameter = p ∧ v.token ∈ a.tokens := by
  obtain ⟨v, hv, rfl⟩ := List.mem_map.mp h
  exact ⟨v, rfl, (Enclosed.together Value.tokens hv).subset (List.mem_singleton_self _)⟩

theorem References.exists_value {r : References} {c : Composite} {p : Parameter}
    (hc : c ∈ r.composites) (hp : p ∈ c.arguments) :
    ∃ v : Value, v.parameter = p ∧ v.token ∈ r.tokens := by
  obtain ⟨⟨name, arguments⟩, hx, rfl⟩ := List.mem_map.mp hc
  cases arguments with
  | none => cases hp
  | some a =>
    obtain ⟨v, hv, ht⟩ := Arguments.exists_value hp
    exact ⟨v, hv, (Enclosed.together Reference.tokens hx).subset (List.mem_cons_of_mem _ ht)⟩

/-- Each parameter of a namespace comes from a token of it. -/
theorem Definition.exists_value {d : Definition} {origin : Nat} {p : Parameter}
    (h : p ∈ (d.toNamespace origin).allParameters) :
    ∃ v : Value, v.parameter = p ∧ v.token ∈ d.tokens := by
  obtain ⟨name, references, arguments, body⟩ := d
  rcases List.mem_append.mp h with hp | hp
  · cases arguments with
    | none => cases hp
    | some a =>
      obtain ⟨v, hv, ht⟩ := Arguments.exists_value hp
      exact ⟨v, hv, by simp [tokens, ht]⟩
  · obtain ⟨c, hc, hargument⟩ := List.mem_flatMap.mp hp
    cases references with
    | none => cases hc
    | some r =>
      obtain ⟨v, hv, ht⟩ := References.exists_value hc hargument
      exact ⟨v, hv, by simp [tokens, ht]⟩

end Grammar

/-- Each parameter of a manifest is what the value of a token in its place is parsed as. -/
theorem exists_token_of_parameter {origin : Nat} {name source : String} {ast : Ast}
    {tokens : List Token} (hlex : lex source = .ok tokens)
    (h : parseOrigin origin name source = .ok ast) {n : Namespace} (hn : n ∈ ast.namespaces)
    {p : Parameter} (hp : p ∈ n.allParameters) :
    ∃ t ∈ tokens, parseValue t = .ok p.value ∧ t.span = p.span := by
  obtain ⟨d, hd, rfl⟩ := parseOrigin_ok.mp h
  obtain rfl := Except.ok.inj (hlex.symm.trans hd)
  obtain ⟨definition, hdefinition, rfl⟩ := List.mem_map.mp hn
  obtain ⟨v, rfl, ht⟩ := Definition.exists_value hp
  refine ⟨v.token, ?_, parseValue_token v, by cases v <;> rfl⟩
  exact List.mem_append_left _ (List.mem_flatMap.mpr ⟨definition, hdefinition, ht⟩)

namespace WholeNumber

theorem dropSign_written (sign : Sign) {c : Char} (hc : isDigit c) (cs : List Char) :
    dropSign (sign.written ++ c :: cs) = c :: cs := by
  cases sign with
  | none => exact dropSign_digit hc cs
  | plus => rfl
  | minus => rfl

theorem dropNumber_whole (w : WholeNumber) : dropNumber (w.written ++ [')']) = .ok [')'] := by
  obtain ⟨sign, magnitude⟩ := w
  cases magnitude with
  | decimal first more starts goes =>
    have body : dropSign ((WholeNumber.mk sign (.decimal first more starts goes)).written ++ [')']) =
        first :: (more ++ [')']) :=
      (congrArg dropSign (List.append_assoc ..)).trans (dropSign_written sign starts _)
    have unmarked : ∀ c ∈ more ++ [')'], ¬isHexMark c := by
      refine List.forall_mem_append.mpr ⟨fun c hc => ?_, by simp [isHexMark]⟩
      simpa [noHexMark] using noHexMark_covers.gap c (goes c hc)
    have digits : ∀ c ∈ first :: more, isDigitOrGap c :=
      List.forall_mem_cons.mpr ⟨isDigitOrGap_of_isDigit starts, goes⟩
    have rest : dropDecimal (first :: more ++ [')']) = .ok [')'] := by
      rw [dropDecimal, dropWhile_run digits (stops_cons (by decide) _)]
      rfl
    rw [dropNumber_decimal, body, ← List.cons_append, rest]
    · rfl
    · intro x ds hds
      rw [body, List.cons.injEq] at hds
      exact unmarked x (by simp [hds.2])
  | hex mark digits marks filled goes =>
    have body : dropSign
        ((WholeNumber.mk sign (.hex mark digits marks filled goes)).written ++ [')']) =
        '0' :: mark :: (digits ++ [')']) :=
      (congrArg dropSign (List.append_assoc ..)).trans (dropSign_written sign (by decide) _)
    have rest : dropHex (digits ++ [')']) = .ok [')'] := by
      rw [dropHex, dropWhile_run goes (stops_cons (by decide) _), if_neg]
      simpa using filled
    rw [dropNumber_hex body marks, rest]
    rfl

/-- The manifest of one namespace whose only parameter is a whole number. -/
def manifest (w : WholeNumber) : String := String.ofList ('a' :: '(' :: (w.written ++ [')']))

theorem written_eq_cons (w : WholeNumber) :
    ∃ c cs, w.written = c :: cs ∧ (isDigit c ∨ isSign c) ∧ startsNumber c (cs ++ [')']).head? := by
  obtain ⟨sign, magnitude⟩ := w
  obtain ⟨d, ds, hd, hds⟩ : ∃ d ds, isDigit d ∧ magnitude.written = d :: ds := by
    cases magnitude with
    | decimal first more starts goes => exact ⟨first, more, starts, rfl⟩
    | hex mark digits => exact ⟨'0', mark :: digits, rfl, rfl⟩
  rw [written, hds]
  cases sign with
  | none => exact ⟨d, ds, rfl, .inl hd, by simp [startsNumber, hd]⟩
  | plus => exact ⟨'+', d :: ds, rfl, .inr rfl, by simp [startsNumber, isSign, hd]⟩
  | minus => exact ⟨'-', d :: ds, rfl, .inr rfl, by simp [startsNumber, isSign, hd]⟩

/-- The tokens of that manifest. -/
def tokens (w : WholeNumber) : List Token :=
  let stop := 2 + byteLength w.written
  [⟨.ident "a", ⟨0, 1⟩⟩, ⟨.lparen, ⟨1, 2⟩⟩,
    ⟨.number (String.ofList (numberText w.written)), ⟨2, stop⟩⟩, ⟨.rparen, ⟨stop, stop + 1⟩⟩,
    ⟨.eof, ⟨stop + 1, stop + 1⟩⟩]

theorem lex_manifest (w : WholeNumber) : lex w.manifest = .ok w.tokens := by
  obtain ⟨c, cs, hw, first, starts⟩ := w.written_eq_cons
  have whole := w.dropNumber_whole
  rw [hw, List.cons_append] at whole
  have name : lexemeAt 0 'a' ('(' :: (w.written ++ [')'])) = .ok (some (.ident "a"), 0) := rfl
  have left : lexemeAt 1 '(' (w.written ++ [')']) = .ok (some .lparen, 0) := rfl
  have number : lexemeAt 2 c (cs ++ [')']) =
      .ok (some (.number (String.ofList (numberText w.written))), cs.length) :=
    hw ▸ lexemeAt_number first starts whole
  have right (pos : Nat) : lexemeAt pos ')' [] = .ok (some .rparen, 0) := rfl
  have assign : c ≠ '=' := by
    obtain hd | hs := first
    · exact ne_of_isDigit hd (by decide)
    · rintro rfl
      cases hs
  have ending (pos : Nat) : tokensFrom pos [')'] =
      .ok [⟨.rparen, ⟨pos, pos + 1⟩⟩, ⟨.eof, ⟨pos + 1, pos + 1⟩⟩] := by
    rw [tokensFrom_token (by decide) (right pos), List.drop_zero, tokensFrom_nil]
    rfl
  have parameter : tokensFrom 2 (w.written ++ [')']) = .ok (w.tokens.drop 2) := by
    rw [hw, List.cons_append, tokensFrom_token assign number, List.drop_left, List.take_left, ending,
      ← hw]
    rfl
  rw [lex_eq, manifest, String.toList_ofList, tokensFrom_token (by decide) name]
  refine (congrArg (Except.map _) (tokensFrom_token (by decide) left)).trans ?_
  refine (congrArg (fun r => Except.map _ (Except.map _ r)) parameter).trans ?_
  rfl

/-- The manifest of a parameter, or the fault of its token. -/
theorem parse_manifest (w : WholeNumber) (origin : Nat) :
    parseNamespaces origin w.tokens =
      (parseValue ⟨.number (String.ofList (numberText w.written)), ⟨2, 2 + byteLength w.written⟩⟩).map
        fun v => [⟨"a", [], [⟨v, ⟨2, 2 + byteLength w.written⟩⟩], [], origin,
          ⟨0, 3 + byteLength w.written⟩⟩] := by
  unfold tokens
  generalize String.ofList (numberText w.written) = text
  generalize byteLength w.written = n
  dsimp only [parseValue]
  cases hv : parseNumber text with
  | none =>
    have values (rest : List Token) : parseValues (⟨.number text, ⟨2, 2 + n⟩⟩ :: rest) =
        .error ⟨.invalidNumber, 2⟩ := by
      rw [parseValues, if_neg (by simp), parseValue]
      dsimp only
      rw [hv]
    rw [parseNamespaces_cons rfl, ends_parseSections_section (s := .parameters) rfl rfl, parseSection,
      values]
    rfl
  | some v =>
    let arguments : Arguments :=
      ⟨⟨⟨1, 2⟩⟩, .items (.number text v hv ⟨2, 2 + n⟩) [] none, ⟨⟨2 + n, 2 + n + 1⟩⟩⟩
    have parsed := parseNamespaces_complete origin
      ⟨[⟨⟨"a", ⟨0, 1⟩⟩, none, some arguments, none⟩], ⟨⟨2 + n + 1, 2 + n + 1⟩⟩⟩
    rw [show 3 + n = 2 + n + 1 by omega]
    exact parsed

/-- A value that stands where a whole number is written is a number. -/
theorem exists_number (w : WholeNumber) {source : String} {tokens : List Token}
    (h : lex source = .ok tokens) {t : Token} (ht : t ∈ tokens) {v : ParamValue}
    (value : parseValue t = .ok v)
    (written : slice source.toList t.span.start t.span.stop = w.written) :
    ∃ text, t.kind = .number text := by
  have writes := writes_slice h ht
  have wellFormed := lex_wellFormed h t ht
  obtain ⟨c, cs, hw, first, -⟩ := w.written_eq_cons
  rw [written, hw] at writes
  unfold parseValue at value
  split at value
  · rename_i hkind
    rw [hkind] at writes
    obtain ⟨quote, body, hquote, hsame⟩ := writes
    obtain ⟨rfl, -⟩ := List.cons.inj hsame
    obtain rfl | rfl := hquote <;> exact absurd first (by decide)
  · rename_i text hkind
    exact ⟨text, hkind⟩
  · rename_i word hkind
    rw [hkind] at writes wellFormed
    have word : isIdent (c :: cs) := writes ▸ wellFormed
    have start : isIdentStart c := ((Bool.and_eq_true _ _).mp word).1
    obtain hd | hs := first
    · exact absurd start (by rw [isIdentStart_of_isDigit hd]; decide)
    · obtain rfl | rfl : c = '-' ∨ c = '+' := by simpa [isSign] using hs
      all_goals exact absurd start (by decide)
  · cases value

/-! ## Reading whole numbers -/

/-- **Whole numbers are read exactly.** -/
theorem whole_numbers_exact (w : WholeNumber) :
    (∀ source tokens, lex source = .ok tokens → ∀ t ∈ tokens, ∀ text, t.kind = .number text →
      slice source.toList t.span.start t.span.stop = w.written →
        w.ReadAs t.span.start (parseValue t)) ∧
    (∀ origin name source ast, parseOrigin origin name source = .ok ast → ∀ n ∈ ast.namespaces,
      ∀ p ∈ n.allParameters, slice source.toList p.span.start p.span.stop = w.written →
        w.ReadAs p.span.start (.ok p.value)) ∧
    ∃ r, w.ReadAs 2 r ∧ parse w.manifest =
      (r.map fun v => ⟨[⟨"a", [], [⟨v, ⟨2, 2 + byteLength w.written⟩⟩], [], 0,
        ⟨0, 3 + byteLength w.written⟩⟩]⟩).mapError
          fun e => ⟨e.fault, e.offset, anonymous, w.manifest⟩ := by
  refine ⟨fun source tokens hlex t ht text number written =>
    readAs_of_token (number_of_slice hlex ht number written), ?_, ?_⟩
  · intro origin name source ast h n hn p hp written
    obtain ⟨d, hlex, -⟩ := parseOrigin_ok.mp h
    obtain ⟨t, ht, value, span⟩ := exists_token_of_parameter hlex h hn hp
    rw [← span] at written ⊢
    rw [← value]
    obtain ⟨text, number⟩ := w.exists_number hlex ht value written
    exact readAs_of_token (number_of_slice hlex ht number written)
  · refine ⟨_, readAs_of_token (t := ⟨_, ⟨2, 2 + byteLength w.written⟩⟩) rfl, ?_⟩
    rw [parse, parseNamed, parseOrigin_of_lex w.lex_manifest, parse_manifest]
    cases parseValue _ <;> rfl

/-- The least number of all, in decimal digits. -/
def leastDecimal : WholeNumber :=
  ⟨.minus, .decimal '9' ['_', '2', '2', '3', '_', '3', '7', '2', '_', '0', '3', '6', '_', '8', '5', '4',
    '_', '7', '7', '5', '_', '8', '0', '8'] (by decide) (by simp [isDigitOrGap, isDigit])⟩

theorem least_decimal_exact :
    ∃ t : Token, lex "a<b(-9_223_372_036_854_775_808)>" = .ok
        [⟨.ident "a", ⟨0, 1⟩⟩, ⟨.langle, ⟨1, 2⟩⟩, ⟨.ident "b", ⟨2, 3⟩⟩, ⟨.lparen, ⟨3, 4⟩⟩, t,
          ⟨.rparen, ⟨30, 31⟩⟩, ⟨.rangle, ⟨31, 32⟩⟩, ⟨.eof, ⟨32, 32⟩⟩] ∧
      ∃ n : Int64, parseValue t = .ok (.int n) ∧ n.toInt = least := by
  have tokens : lex "a<b(-9_223_372_036_854_775_808)>" = .ok
      [⟨.ident "a", ⟨0, 1⟩⟩, ⟨.langle, ⟨1, 2⟩⟩, ⟨.ident "b", ⟨2, 3⟩⟩, ⟨.lparen, ⟨3, 4⟩⟩,
        ⟨.number "-9223372036854775808", ⟨4, 30⟩⟩, ⟨.rparen, ⟨30, 31⟩⟩, ⟨.rangle, ⟨31, 32⟩⟩,
        ⟨.eof, ⟨32, 32⟩⟩] := by cbv
  have value : leastDecimal.value = least := by decide +kernel
  refine ⟨_, tokens, ?_⟩
  have read := (whole_numbers_exact leastDecimal).1 _ _ tokens
    ⟨.number "-9223372036854775808", ⟨4, 30⟩⟩ (by simp) _ rfl (by decide +kernel)
  cases read with
  | int same => exact ⟨_, rfl, same.trans value⟩

/-- The least number of all, in hexadecimal digits. -/
def leastHexadecimal : WholeNumber :=
  ⟨.minus, .hex 'x' ('8' :: List.replicate 15 '0') (by decide) (by simp)
    (by simp [isHexDigit, hexValue?])⟩

/-- In hexadecimal digits the least number is none. -/
theorem least_hexadecimal_refused :
    leastHexadecimal.manifest = "a(-0x8000000000000000)" ∧ leastHexadecimal.value = least ∧
      parse leastHexadecimal.manifest =
        .error ⟨.invalidNumber, 2, anonymous, leastHexadecimal.manifest⟩ := by
  have value : leastHexadecimal.value = least := by decide +kernel
  refine ⟨by decide +kernel, value, ?_⟩
  have number := parseNumber_of_hex (w := leastHexadecimal) rfl
  rw [if_neg (by simp [value])] at number
  rw [parse, parseNamed, parseOrigin_of_lex (lex_manifest _), parse_manifest, parseValue]
  dsimp only
  rw [number]
  rfl

end WholeNumber

end EnvManifest
