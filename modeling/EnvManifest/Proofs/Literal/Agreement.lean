import EnvManifest.Proofs.Literal.Strings

/-!
# Literals of both readers

A text that is a literal is an expression with the same value, unless it is one of a few kinds that
the two readers take for different things.
-/

namespace EnvManifest

open Text Script

namespace Literal

/-- What the literal is in an expression. -/
def datum : Literal → Datum
  | bool b => .bool b
  | int n => .number (.int n)
  | float x => .number (.float x)
  | str s => .ofString s

/-! ## Numbers -/

/-- Digits that 64 bits hold are a whole number. -/
theorem ofNumeral?_digits {cs : List Char} (hne : cs ≠ []) (hds : ∀ d ∈ cs, isDigit d)
    (hn : ofDecimal cs < Word.half) :
    Number.ofNumeral? false cs = some (.int (Int64.ofInt (ofDecimal cs))) := by
  have hword : Word.int64? (ofDecimal cs : Int) = some (Int64.ofInt (ofDecimal cs)) :=
    if_pos ⟨by unfold Word.half; omega, by exact_mod_cast hn⟩
  have hall : (!cs.isEmpty && cs.all isDigit) = true := by
    simpa [hne] using hds
  unfold Number.ofNumeral?
  dsimp only
  split
  · exact absurd (hds 'x' (by simp)) (by decide)
  · exact absurd (hds 'X' (by simp)) (by decide)
  · simp only [Bool.false_eq_true, if_false]
    rw [hall, if_pos rfl, hword]

theorem takes_decimal {c : Char} {v : List Char} (hds : ∀ d ∈ c :: v, isDigit d)
    (hn : ofDecimal (c :: v) < Word.half) :
    Takes c v (some (.int (Int64.ofInt (ofDecimal (c :: v))) (String.ofList (c :: v)))) v.length := by
  have hvalid := Decimal.Figures.valid_whole (List.cons_ne_nil c v) hds
  have htext : (⟨c :: v, none, none⟩ : Decimal.Figures).text = c :: v := by
    simp [Decimal.Figures.text, Decimal.Figures.placesText, Decimal.Figures.powerText]
  have hnumeral := ofNumeral?_digits (List.cons_ne_nil c v) hds hn
  have htakes := takes_figures hvalid htext endsNumber_nil (htext ▸ hnumeral)
  rwa [List.append_nil, htext] at htakes

theorem numeralRun_hex {ds : List Char} (h : ∀ c ∈ ds, isHexDigit c) :
    numeralRun true ds = ds.length := by
  induction ds with
  | nil => rfl
  | cons c ds ih =>
    have hc := h c (List.mem_cons_self ..)
    have hpower : isPower true c = false := by
      refine Bool.eq_false_iff.2 fun hp => ?_
      obtain ⟨-, rfl | rfl⟩ | ⟨hf, -⟩ := isPower_cases hp
      · revert hc
        decide
      · revert hc
        decide
      · cases hf
    have hnumeral : isNumeral true c = true := by simp [isNumeral, hc]
    rw [numeralRun_cons, hpower, hnumeral, ih fun d hd => h d (List.mem_cons_of_mem c hd)]
    rfl

theorem takes_hexadecimal {x : Char} (hx : x = 'x' ∨ x = 'X') {ds : List Char} (hne : ds ≠ [])
    (hds : ∀ c ∈ ds, isHexDigit c) :
    Takes '0' (x :: ds) (some (.int (Int64.ofInt (ofHex ds)) (String.ofList ('0' :: x :: ds))))
      (x :: ds).length := by
  have hlength : numeralLength '0' (x :: ds) = (x :: ds).length := by
    have hhex : isHexNumeral '0' (x :: ds) = true := by obtain rfl | rfl := hx <;> rfl
    rw [numeralLength, if_pos hhex, List.drop_succ_cons, List.drop_zero, numeralRun_hex hds]
    rfl
  have hnumeral : Number.ofNumeral? false ('0' :: x :: ds) = some (.int (Int64.ofInt (ofHex ds))) := by
    have hall : (!ds.isEmpty && ds.all isHexDigit) = true := by
      simpa [hne] using hds
    have hread : Number.ofNumeral? false ('0' :: x :: ds) =
        if !ds.isEmpty && ds.all isHexDigit then some (.int (Int64.ofInt (ofHex ds)))
        else (Decimal.hexadecimal? ds).map .float := by
      obtain rfl | rfl := hx <;> rfl
    rw [hread, if_pos hall]
  refine ⟨fun l => ?_, rfl⟩
  rw [tokenAt_digit (by decide), numeralAt_eq, hlength]
  dsimp only
  rw [List.drop_length, if_neg (by decide), List.take_length, hnumeral]

/-! ## Texts that both readers take alike -/

/-- The texts, without blanks around them, that both readers take for the same literal: a number has
no plus, and is not the least one in decimal digits; a string has plain escapes; the first closing
bracket of a long string is the last one; and no string has a carriage return but by an escape. -/
def readsAlike : List Char → Bool
  | '+' :: _ => false
  | '-' :: digits => !(digits.all isDigit && ofDecimal digits == Word.half)
  | '"' :: cs => !cs.contains '\r' && plainEscapes cs
  | '\'' :: cs => !cs.contains '\r' && plainEscapes cs
  | '[' :: cs =>
    let level := (longLevel? cs).getD 0
    let body := cs.drop (level + 1)
    runThrough (longClose level) body == some body.length &&
      !((longString? cs).getD []).contains '\r'
  | _ => true

variable {engine : Engine} {scope : ScopeId} {cs : List Char}

/-- A text of one token that is a value. -/
theorem evaluates_atom (hg : engine.GoesOn) {t : Script.Token} {e : Expr} {d : Datum}
    (h : Lexes [] cs [t]) (he : Atom t e) (hl : ∀ h s, Heap.look h s e = some d) :
    engine.Evaluates scope (String.ofList cs) d := by
  rw [← String.toList_ofList (l := cs)] at h
  have hcall : e.isCall = false := by cases he <;> rfl
  refine evaluates_of_look hg (parse_atom h he) hcall ?_ (hl _ _)
  rw [he.cost]
  decide

/-- A text of a minus and a whole number. -/
theorem evaluates_minus (hg : engine.GoesOn) {n : Int64} {written : String}
    (h : Lexes [] cs [.mark "-", .int n written]) :
    engine.Evaluates scope (String.ofList cs) (.number (.int (-n))) := by
  rw [← String.toList_ofList (l := cs)] at h
  obtain ⟨l, hprogram⟩ := parse_minus h (.int n written)
  exact evaluates_of_look hg hprogram rfl (Nat.le_of_ble_eq_true rfl) rfl

theorem lexes_minus {c : Char} {v : List Char} {t : Script.Token} (hc : c ≠ '-')
    (h : Takes c v (some t) v.length) : Lexes [] ('-' :: c :: v) [.mark "-", t] := by
  have hminus : Takes '-' ([] ++ (c :: v ++ [])) (some (.mark "-")) 0 := by
    rw [List.nil_append, List.append_nil]
    refine takes_symbol (by decide) fun d hd => ?_
    obtain rfl := Option.some.inj hd
    exact ⟨fun _ => hc, nofun, rfl⟩
  exact .cons hminus (lexes_one h)

/-! ## Whole numbers -/

/-- Digits without a sign, and the whole number that they and their sign make. -/
inductive Whole (negative : Bool) (n : Int64) : List Char → Prop
  | decimal {c : Char} {v : List Char} (hds : ∀ d ∈ c :: v, isDigit d)
    (hn : Word.int64? (if negative then -(ofDecimal (c :: v) : Int) else ofDecimal (c :: v)) = some n) :
    Whole negative n (c :: v)
  | hexadecimal {x : Char} {ds : List Char} (hx : x = 'x' ∨ x = 'X') (hne : ds ≠ [])
    (hds : ∀ c ∈ ds, isHexDigit c)
    (hn : n = Int64.ofInt (if negative then -(ofHex ds : Int) else ofHex ds)) :
    Whole negative n ('0' :: x :: ds)

theorem whole_of_hexadecimal? {negative : Bool} {x : Char} (hx : x = 'x' ∨ x = 'X') {ds : List Char}
    {n : Int64} (h : hexadecimal? negative ds = some (.int n)) : Whole negative n ('0' :: x :: ds) := by
  unfold hexadecimal? at h
  split at h
  · cases h
  · rename_i hds
    simp only [Bool.or_eq_true, List.isEmpty_iff, Bool.not_eq_true', not_or, Bool.not_eq_false,
      List.all_eq_true] at hds
    dsimp only at h
    split at h
    · exact .hexadecimal hx hds.1 hds.2 (Literal.int.inj (Option.some.inj h)).symm
    · cases h

theorem whole_of_number? {cs : List Char} {n : Int64} (h : number? cs = some (.int n)) :
    Whole (Decimal.splitSign cs).1 n (Decimal.splitSign cs).2 := by
  unfold number? at h
  generalize Decimal.splitSign cs = signed at h ⊢
  obtain ⟨negative, ds⟩ := signed
  dsimp only at h ⊢
  split at h
  · cases h
  · exact whole_of_hexadecimal? (.inl rfl) h
  · exact whole_of_hexadecimal? (.inr rfl) h
  · rename_i hne _ _
    split at h
    · rename_i hall
      obtain ⟨c, v, rfl⟩ := List.exists_cons_of_ne_nil hne
      unfold decimal? at h
      dsimp only at h
      split at h
      · rename_i hn
        obtain rfl := Literal.int.inj (Option.some.inj h)
        exact .decimal (List.all_eq_true.1 hall) hn
      · cases hd : Decimal.decimal? (c :: v) <;> simp [hd] at h
    · split at h
      · cases hd : Decimal.decimal? ds <;> simp [hd] at h
      · cases h

theorem int64?_some {n : Int} {m : Int64} (h : Word.int64? n = some m) :
    (-(Word.half : Int) ≤ n ∧ n < Word.half) ∧ m = Int64.ofInt n := by
  unfold Word.int64? at h
  split at h
  · exact ⟨‹_›, (Option.some.inj h).symm⟩
  · cases h

theorem evaluates_number (hg : engine.GoesOn) {n : Int64} (h : number? cs = some (.int n))
    (hr : readsAlike cs) : engine.Evaluates scope (String.ofList cs) (.number (.int n)) := by
  have hwhole := whole_of_number? h
  unfold Decimal.splitSign at hwhole
  split at hwhole
  · rename_i ds
    dsimp only at hwhole
    cases hwhole with
    | @decimal c v hds hn =>
      obtain ⟨⟨hlow, -⟩, rfl⟩ := int64?_some hn
      -- The engine reads the figures without their sign, so that these would be a float.
      have hne : ofDecimal (c :: v) ≠ Word.half := by
        have hall : (c :: v).all isDigit = true := List.all_eq_true.2 hds
        simpa [readsAlike, hall] using hr
      have hlt : ofDecimal (c :: v) < Word.half := by
        rw [if_pos rfl] at hlow
        omega
      have hsign : c ≠ '-' := ne_of_isDigit (hds c (List.mem_cons_self ..)) (by decide)
      rw [if_pos rfl, Int64.ofInt_neg]
      exact evaluates_minus hg (lexes_minus hsign (takes_decimal hds hlt))
    | hexadecimal hx hne hds hn =>
      rw [hn, if_pos rfl, Int64.ofInt_neg]
      exact evaluates_minus hg (lexes_minus (by decide) (takes_hexadecimal hx hne hds))
  · cases hr
  · dsimp only at hwhole
    cases hwhole with
    | decimal hds hn =>
      obtain ⟨⟨-, hhigh⟩, rfl⟩ := int64?_some hn
      rw [if_neg (by decide)] at hhigh ⊢
      exact evaluates_atom hg (lexes_one (takes_decimal hds (by omega))) (.int _ _) fun _ _ => rfl
    | hexadecimal hx hne hds hn =>
      rw [hn, if_neg (by decide)]
      exact evaluates_atom hg (lexes_one (takes_hexadecimal hx hne hds)) (.int _ _) fun _ _ => rfl

/-! ## All literals -/

theorem datum_ofList (cs : List Char) : (str (String.ofList cs)).datum = .str (encode cs) := by
  rw [datum, Datum.ofString, String.toList_ofList]

theorem evaluates_string (hg : engine.GoesOn) {bs shown : Bytes} {c : Char} {v : List Char}
    (h : Takes c v (some (.str bs shown)) v.length) :
    engine.Evaluates scope (String.ofList (c :: v)) (.str bs) :=
  evaluates_atom hg (lexes_one h) (.str bs shown) fun _ _ => rfl

theorem number?_number {cs : List Char} {l : Literal} (h : number? cs = some l) :
    (∃ n, l = .int n) ∨ ∃ x, l = .float x := by
  have hhex : ∀ {negative ds}, hexadecimal? negative ds = some l →
      (∃ n, l = .int n) ∨ ∃ x, l = .float x := by
    intro negative ds h
    unfold hexadecimal? at h
    split at h
    · cases h
    · dsimp only at h
      split at h
      · exact .inl ⟨_, (Option.some.inj h).symm⟩
      · exact .inr ⟨_, (Option.some.inj h).symm⟩
  unfold number? at h
  dsimp only at h
  split at h
  · cases h
  · exact hhex h
  · exact hhex h
  · split at h
    · unfold decimal? at h
      dsimp only at h
      split at h
      · exact .inl ⟨_, (Option.some.inj h).symm⟩
      · obtain ⟨x, -, rfl⟩ := Option.map_eq_some_iff.1 h
        exact .inr ⟨_, rfl⟩
    · split at h
      · obtain ⟨x, -, rfl⟩ := Option.map_eq_some_iff.1 h
        exact .inr ⟨_, rfl⟩
      · cases h

/-- **A literal is an expression of the same value**, if it is one that both readers take alike. -/
theorem literal_read_alike {text : String} {l : Literal} (hl : ofText? text = some l)
    (hf : ∀ x, l ≠ .float x) (hr : readsAlike (trim text.toList)) {engine : Engine}
    (hg : engine.GoesOn) (scope : ScopeId) :
    engine.Evaluates scope (String.ofList (trim text.toList)) l.datum := by
  unfold ofText? ofChars? at hl
  split at hl
  · cases hl
  rename_i c more htrim
  rw [htrim] at hr ⊢
  split at hl
  · rename_i htrue
    obtain rfl := Option.some.inj hl
    rw [htrue]
    exact evaluates_atom hg (lexes_word rfl (List.all_eq_true.1 rfl)) .true fun _ _ => rfl
  split at hl
  · rename_i hfalse
    obtain rfl := Option.some.inj hl
    rw [hfalse]
    exact evaluates_atom hg (lexes_word rfl (List.all_eq_true.1 rfl)) .false fun _ _ => rfl
  split at hl
  · rename_i hquote
    obtain ⟨body, hbody, rfl⟩ := Option.map_eq_some_iff.1 hl
    have hplain : '\r' ∉ more ∧ plainEscapes more := by
      obtain rfl | rfl := hquote <;> simpa [readsAlike] using hr
    obtain ⟨shown, htakes⟩ := takes_string hquote (stringBody_of_quoted hbody hplain.1 hplain.2)
    rw [datum_ofList]
    exact evaluates_string hg htakes
  split at hl
  · rename_i hbracket
    subst hbracket
    obtain ⟨value, hvalue, rfl⟩ := Option.map_eq_some_iff.1 hl
    obtain ⟨level, hlevel⟩ : ∃ level, longLevel? more = some level := by
      unfold longString? at hvalue
      obtain ⟨level, hlevel, -⟩ := Option.bind_eq_some_iff.1 hvalue
      exact ⟨level, hlevel⟩
    have hplain : runThrough (longClose level) (more.drop (level + 1)) =
        some (more.drop (level + 1)).length ∧ '\r' ∉ value := by
      simpa [readsAlike, hlevel, hvalue] using hr
    obtain ⟨shown, htakes⟩ := takes_longString hlevel hvalue hplain.1 hplain.2
    rw [datum_ofList]
    exact evaluates_string hg htakes
  · obtain ⟨n, rfl⟩ | ⟨x, rfl⟩ := number?_number hl
    · exact evaluates_number hg hl hr
    · exact absurd rfl (hf x)

/-- A long string with closing brackets of another level. -/
theorem long_string_read_alike : ∃ engine : Engine, engine.GoesOn ∧
    ofText? " [=[a]]]=]" = some (.str "a]]") ∧ readsAlike (trim " [=[a]]]=]".toList) ∧
      engine.Evaluates 0 (String.ofList (trim " [=[a]]]=]".toList)) (str "a]]").datum := by
  have goes : (Engine.new .bare (Facts.ofHost .bare) .endless).GoesOn := rfl
  have read : ofText? " [=[a]]]=]" = some (.str "a]]") := by rfl
  have alike : readsAlike (trim " [=[a]]]=]".toList) := by decide
  exact ⟨_, goes, read, alike, literal_read_alike read nofun alike goes 0⟩

/-- A long string may end in the middle of what looks like an earlier closing bracket. The engine
takes that one for its end, and what is left is no expression. -/
theorem overlapping_bracket_refused :
    (parseProgram (Engine.programText "[[a]]]")).toOption.isNone := by decide +kernel

/-- Not every literal is an expression of the same value. -/
theorem literal_not_always_read_alike : ¬ ∀ (text : String) (l : Literal) (engine : Engine)
    (scope : ScopeId), ofText? text = some l → (∀ x, l ≠ .float x) → engine.GoesOn →
    engine.Evaluates scope (String.ofList (trim text.toList)) l.datum := by
  intro h
  have read : ofText? "[[a]]]" = some (.str "a]") := by rfl
  have goes : (Engine.new .bare (Facts.ofHost .bare) .endless).GoesOn := rfl
  obtain ⟨program, loaded, hcompile, -⟩ := h "[[a]]]" (.str "a]") _ 0 read nofun goes
  have hsource : String.ofList (trim "[[a]]]".toList) = "[[a]]]" := by decide
  have hrefused := overlapping_bracket_refused
  rw [hsource, compile_eq] at hcompile
  cases hparse : parseProgram (Engine.programText "[[a]]]") with
  | ok body =>
    rw [hparse] at hrefused
    cases hrefused
  | error fault =>
    rw [hparse] at hcompile
    cases hcompile

end Literal

end EnvManifest
