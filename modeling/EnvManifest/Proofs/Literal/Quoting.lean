import EnvManifest.Proofs.Eval.Composite
import EnvManifest.Proofs.Eval.Looking
import EnvManifest.Proofs.Patch.Pieces
import EnvManifest.Proofs.Script.Written

/-!
# Strings in quotes

A string in quotes is one token of an expression. It reads back as the string, both as a literal and
as an expression.
-/

namespace EnvManifest

open Text

namespace Patch

/-! ## One token -/

theorem plain_quotedChar (c : Char) : Plain (Literal.quotedChar c) := by
  have hwritten := Script.writtenAs_quotedChar c
  generalize Literal.quotedChar c = written at hwritten
  cases hwritten with
  | letter e he =>
    obtain ⟨hreturn, hvisible⟩ := Script.writtenEscapes_visible he
    exact List.forall_mem_cons.2 ⟨by decide, List.forall_mem_singleton.2 ⟨hreturn, by omega⟩⟩
  | number =>
    refine List.forall_mem_cons.2 ⟨by decide, ?_⟩
    intro d hd
    have hdigit := Script.isDigit_of_mem_padded hd
    have hrange := toNat_of_isDigit hdigit
    exact ⟨ne_of_isDigit hdigit (by decide), by omega⟩
  | self _ _ _ hreturn hvisible =>
    intro d hd
    obtain rfl := List.mem_singleton.1 hd
    exact ⟨hreturn, by omega⟩

/-- A string in quotes runs to its closing quote. -/
theorem stringRun_quote (cs : List Char) :
    stringRun '"' (cs.flatMap Literal.quotedChar ++ ['"']) =
      (cs.flatMap Literal.quotedChar ++ ['"']).length := by
  have hplain : Plain (cs.flatMap Literal.quotedChar ++ ['"']) := by
    intro d hd
    obtain hd | hd := List.mem_append.1 hd
    · obtain ⟨c, -, hd⟩ := List.mem_flatMap.1 hd
      exact plain_quotedChar c d hd
    · obtain rfl := List.mem_singleton.1 hd
      decide
  rw [stringRun_eq (.inl rfl) hplain (Script.stringBody_quote cs []), List.length_append,
    List.length_singleton]

theorem pieces_quote (cs : List Char) :
    pieces (Literal.quote cs) = [⟨some .str, Literal.quote cs⟩] := by
  have hpiece : pieceAt '"' (cs.flatMap Literal.quotedChar ++ ['"']) =
      (some .str, (cs.flatMap Literal.quotedChar ++ ['"']).length) := by
    have hstring : pieceAt '"' (cs.flatMap Literal.quotedChar ++ ['"']) =
        (some .str, stringRun '"' (cs.flatMap Literal.quotedChar ++ ['"'])) := rfl
    rw [hstring, stringRun_quote]
  rw [Literal.quote, List.cons_append, pieces, hpiece]
  dsimp only
  rw [List.take_length, List.drop_length, pieces]

theorem tokenize_quote (cs : List Char) :
    tokenize (Literal.quote cs) = ([⟨[], .str, Literal.quote cs⟩], []) := by
  rw [tokenize, pieces_quote]
  rfl

end Patch

namespace Literal

/-! ## Reading back -/

theorem trim_of_ends {c d : Char} (v : List Char) (hc : isBlank c = false) (hd : isBlank d = false) :
    trim (c :: (v ++ [d])) = c :: (v ++ [d]) := by
  have hstart : trimStart (c :: (v ++ [d])) = c :: (v ++ [d]) := by
    rw [trimStart, List.dropWhile_cons_of_neg (by simp [hc])]
  have hreverse : (c :: (v ++ [d])).reverse = d :: (c :: v).reverse := by simp
  rw [trim, hstart, trimEnd, hreverse, List.dropWhile_cons_of_neg (by simp [hd]), ← hreverse,
    List.reverse_reverse]

/-- Escapes other than `\x` and `\u` are digits, or one character. -/
theorem escape?_other {c : Char} (hx : c ≠ 'x') (hu : c ≠ 'u') (cs : List Char) :
    escape? (c :: cs) =
      if isDigit c then
        let digits := ((c :: cs).take 3).takeWhile isDigit
        if ofDecimal digits ≤ 255 then some (Char.ofNat (ofDecimal digits), digits.length) else none
      else (simpleEscape? c).map fun v => (v, 1) := by
  unfold escape?
  split
  · rename_i h
    exact absurd (List.cons.inj h).1 hx
  · rename_i h
    exact absurd (List.cons.inj h).1 hu
  · rename_i h
    obtain ⟨rfl, rfl⟩ := List.cons.inj h
    rfl
  · rename_i h
    cases h

/-- A character that is written as a number of three digits. -/
theorem escape?_padded {n : Nat} (hn : n ≤ 255) (z : List Char) :
    escape? (toDecimalPadded 3 n ++ z) = some (Char.ofNat n, 3) := by
  have hlength : (toDecimalPadded 3 n).length = 3 :=
    Script.length_padded (by decide) (Nat.lt_of_le_of_lt hn (by decide))
  have hdigits : ∀ c ∈ toDecimalPadded 3 n, isDigit c := fun c hc => Script.isDigit_of_mem_padded hc
  have hvalue := Script.ofDecimal_padded 3 n
  generalize toDecimalPadded 3 n = ds at hlength hdigits hvalue
  match ds, hlength with
  | [a, b, c], _ =>
    have ha := hdigits a (by simp)
    have hrun : (([a, b, c] ++ z).take 3).takeWhile isDigit = [a, b, c] := by
      have htake : ([a, b, c] ++ z).take 3 = [a, b, c] := rfl
      rw [htake]
      simpa using takeWhile_run hdigits (stops_nil isDigit)
    rw [List.cons_append, escape?_other (ne_of_isDigit ha (by decide)) (ne_of_isDigit ha (by decide)),
      if_pos ha, ← List.cons_append, hrun]
    dsimp only
    rw [hvalue, if_pos hn]
    rfl

theorem quoted?_cons (quote c : Char) (cs : List Char) :
    quoted? quote (c :: cs) =
      if c = quote then (if cs.isEmpty then some [] else none)
      else if c = '\n' then none
      else if c = '\\' then
        match escape? cs with
        | none => none
        | some (v, n) => (quoted? quote (cs.drop n)).map (v :: ·)
      else (quoted? quote cs).map (c :: ·) := by
  have hbody := quoted?.eq_def quote (c :: cs)
  dsimp only at hbody
  refine hbody.trans ?_
  cases escape? cs <;> rfl

/-- One character as a literal writes it reads back. -/
theorem quoted?_quotedChar (c : Char) {z rest : List Char} (hr : quoted? '"' z = some rest) :
    quoted? '"' (quotedChar c ++ z) = some (c :: rest) := by
  have hwritten := Script.writtenAs_quotedChar c
  generalize quotedChar c = written at hwritten ⊢
  cases hwritten with
  | letter e he =>
    have hescape : escape? (e :: z) = some (c, 1) := by
      simp only [Script.writtenEscapes, List.mem_cons, Prod.mk.injEq, List.not_mem_nil,
        or_false] at he
      obtain ⟨rfl, rfl⟩ | ⟨rfl, rfl⟩ | ⟨rfl, rfl⟩ | ⟨rfl, rfl⟩ | ⟨rfl, rfl⟩ := he <;> rfl
    rw [List.cons_append, List.singleton_append, quoted?_cons, if_neg (by decide),
      if_neg (by decide), if_pos rfl, hescape]
    dsimp only
    rw [List.drop_succ_cons, List.drop_zero, hr]
    rfl
  | number hn =>
    have hlength : (toDecimalPadded 3 c.toNat).length = 3 :=
      Script.length_padded (by decide) (by omega)
    rw [List.cons_append, quoted?_cons, if_neg (by decide), if_neg (by decide), if_pos rfl,
      escape?_padded (by omega), Char.ofNat_toNat]
    dsimp only
    rw [List.drop_left' hlength, hr]
    rfl
  | self hquote hslash hfeed =>
    rw [List.singleton_append, quoted?_cons, if_neg hquote, if_neg hfeed, if_neg hslash, hr]
    rfl

theorem quoted?_quote (cs : List Char) :
    quoted? '"' (cs.flatMap quotedChar ++ ['"']) = some cs := by
  induction cs with
  | nil => rw [List.flatMap_nil, List.nil_append, quoted?_cons, if_pos rfl, if_pos (by rfl)]
  | cons c cs ih =>
    rw [List.flatMap_cons, List.append_assoc]
    exact quoted?_quotedChar c ih

/-- **A string in quotes is a literal, and loses them again.** -/
theorem ofText?_quote (s : String) :
    ofText? (String.ofList (quote s.toList)) = some (.str s) := by
  have hends : quote s.toList = '"' :: (s.toList.flatMap quotedChar ++ ['"']) := rfl
  have htrue : quote s.toList ≠ "true".toList := fun h => absurd (List.cons.inj h).1 (by decide)
  have hfalse : quote s.toList ≠ "false".toList := fun h => absurd (List.cons.inj h).1 (by decide)
  rw [hends] at htrue hfalse
  rw [ofText?, ofChars?, String.toList_ofList, hends, trim_of_ends _ (by decide) (by decide)]
  dsimp only
  rw [if_neg htrue, if_neg hfalse, if_pos (.inl rfl), quoted?_quote, Option.map_some,
    String.ofList_toList]

theorem unquote?_quote (s : String) : unquote? (String.ofList (quote s.toList)) = some s := by
  rw [unquote?, ofText?_quote]

/-! ## In the engine -/

theorem lexes_quote (cs rest : List Char) :
    ∃ shown, Script.Lexes rest (quote cs) [.str (encode cs) shown] := by
  obtain ⟨shown, htakes⟩ := Script.takes_quote cs
  refine ⟨shown, ?_⟩
  have hall : Script.Lexes rest ('"' :: ((cs.flatMap quotedChar ++ ['"']) ++ []))
      ([.str (encode cs) shown] ++ []) := .cons (htakes _) .nil
  rwa [List.append_nil] at hall

/-- **A string in quotes stays what it is.** It is one string for whatever scans an expression, and
both readers give the string back. -/
theorem quote_lossless (s : String) {engine : Engine} (hg : engine.GoesOn) (scope : ScopeId) :
    Patch.tokenize (quote s.toList) = ([⟨[], .str, quote s.toList⟩], []) ∧
      unquote? (String.ofList (quote s.toList)) = some s ∧
      engine.Evaluates scope (String.ofList (quote s.toList)) (.ofString s) := by
  refine ⟨Patch.tokenize_quote s.toList, unquote?_quote s, ?_⟩
  obtain ⟨shown, hlexes⟩ := lexes_quote s.toList []
  rw [← String.toList_ofList (l := quote s.toList)] at hlexes
  have hprogram := Script.parse_atom hlexes (.str (encode s.toList) shown)
  exact evaluates_of_look hg hprogram rfl (Nat.le_of_ble_eq_true rfl) rfl

/-- A string with a quote, a backslash, and a control character before a digit. -/
theorem quoted_controls_kept : ∃ engine : Engine, engine.GoesOn ∧
    Patch.tokenize (quote ['"', '\\', '\x1f', '7', 'é']) =
        ([⟨[], .str, quote ['"', '\\', '\x1f', '7', 'é']⟩], []) ∧
      unquote? (String.ofList (quote ['"', '\\', '\x1f', '7', 'é'])) = some "\"\\\x1f7é" ∧
      engine.Evaluates 0 (String.ofList (quote ['"', '\\', '\x1f', '7', 'é']))
        (.ofString "\"\\\x1f7é") := by
  have goes : (Engine.new .bare (Facts.ofHost .bare) .endless).GoesOn := rfl
  exact ⟨_, goes, quote_lossless "\"\\\x1f7é" goes 0⟩

end Literal

end EnvManifest
