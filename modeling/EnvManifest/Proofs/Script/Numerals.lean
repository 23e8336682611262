import EnvManifest.Proofs.Script.Lexing

/-!
# Numerals

Where a number in a program ends, and that what follows matters by its first character only. A word
right after a number makes both a fault, since no letter that ends a run of figures can be one.
-/

namespace EnvManifest.Script

open Text

/-! ## Runs of figures -/

/-- Does an exponent start with the character? -/
def isPower (hex : Bool) (c : Char) : Bool :=
  if hex then c == 'p' || c == 'P' else c == 'e' || c == 'E'

def isPlusMinus (c : Char) : Bool := c == '+' || c == '-'

/-- Does a numeral go on with the character? -/
def isNumeral (hex : Bool) (c : Char) : Bool := isPower hex c || isHexDigit c || c == '.'

theorem numeralRun_cons (hex : Bool) (c : Char) (cs : List Char) :
    numeralRun hex (c :: cs) =
      if isPower hex c && cs.head?.any isPlusMinus then numeralRun hex (cs.drop 1) + 2
      else if isNumeral hex c then numeralRun hex cs + 1
      else 0 := by
  cases cs with
  | nil => simp [numeralRun, isPower, isNumeral]
  | cons d more => rfl

theorem numeralRun_le (hex : Bool) (cs : List Char) : numeralRun hex cs ≤ cs.length := by
  induction hn : cs.length using Nat.strongRecOn generalizing cs with
  | _ n ih =>
    subst hn
    cases cs with
    | nil => exact Nat.le_refl 0
    | cons c cs =>
      rw [numeralRun_cons]
      split
      · rename_i h
        cases cs with
        | nil => simp at h
        | cons d cs =>
          have := ih cs.length (by simp only [List.length_cons]; omega) cs rfl
          simp only [List.drop_succ_cons, List.drop_zero, List.length_cons]
          omega
      · split
        · exact Nat.succ_le_succ (ih cs.length (by simp) cs rfl)
        · exact Nat.zero_le _

theorem numeralRun_stops (hex : Bool) (cs : List Char) :
    stops (isNumeral hex) (cs.drop (numeralRun hex cs)) := by
  induction hn : cs.length using Nat.strongRecOn generalizing cs with
  | _ n ih =>
    subst hn
    cases cs with
    | nil => exact stops_nil _
    | cons c cs =>
      rw [numeralRun_cons]
      split
      · cases cs with
        | nil => exact stops_nil _
        | cons d cs => exact ih cs.length (by simp only [List.length_cons]; omega) cs rfl
      · split
        · exact ih cs.length (by simp) cs rfl
        · exact stops_cons (Bool.eq_false_iff.2 ‹_›) _

theorem numeralRun_local {hex : Bool} {v x y : List Char} (hxy : y.head? = x.head?)
    (h : numeralRun hex (v ++ x) = v.length) : numeralRun hex (v ++ y) = v.length := by
  induction hn : v.length using Nat.strongRecOn generalizing v with
  | _ n ih =>
    subst hn
    cases v with
    | nil =>
      have hx := numeralRun_stops hex x
      rw [List.nil_append, List.length_nil] at h ⊢
      rw [h] at hx
      cases y with
      | nil => rfl
      | cons c y =>
        have hc := hx c hxy.symm
        have hpower : isPower hex c = false := by
          simp only [isNumeral, Bool.or_eq_false_iff] at hc
          exact hc.1.1
        rw [numeralRun_cons, hc, hpower]
        rfl
    | cons c v =>
      rw [List.cons_append, numeralRun_cons, List.length_cons] at h ⊢
      have hhead : (v ++ y).head? = (v ++ x).head? := by
        rw [List.head?_append, List.head?_append, hxy]
      rw [hhead]
      split at h
      · rw [if_pos ‹_›]
        cases v with
        | nil =>
          rw [List.length_nil] at h
          omega
        | cons d v =>
          simp only [List.cons_append, List.drop_succ_cons, List.drop_zero, List.length_cons]
            at h ⊢
          rw [ih v.length (by simp only [List.length_cons]; omega) (by omega) rfl]
      · rw [if_neg ‹_›]
        split at h
        · rw [if_pos ‹_›, ih v.length (by simp) (by omega) rfl]
        · omega

/-! ## Characters of numbers -/

theorem mem_splitSign {cs : List Char} {c : Char} (hc : c ∈ cs) :
    c ∈ (Decimal.splitSign cs).2 ∨ isPlusMinus c := by
  unfold Decimal.splitSign
  split
  · obtain rfl | hc := List.mem_cons.1 hc
    · exact .inr rfl
    · exact .inl hc
  · obtain rfl | hc := List.mem_cons.1 hc
    · exact .inr rfl
    · exact .inl hc
  · exact .inl hc

theorem mem_of_exponent? {cs : List Char} {n : Int} (h : Decimal.exponent? cs = some n) {c : Char}
    (hc : c ∈ cs) : isDigit c ∨ isPlusMinus c := by
  unfold Decimal.exponent? at h
  dsimp only at h
  split at h
  · cases h
  · rename_i hds
    simp only [Bool.or_eq_true, Bool.not_eq_true', not_or, Bool.not_eq_false] at hds
    exact (mem_splitSign hc).imp_left fun hc => List.all_eq_true.1 hds.2 c hc

theorem mem_of_mantissa? {p : Char → Bool} {f : List Char → Nat} {cs : List Char} {r : Nat × Int}
    (h : Decimal.mantissa? p f cs = some r) {c : Char} (hc : c ∈ cs) : p c ∨ c = '.' := by
  rw [← List.takeWhile_append_dropWhile (p := p) (l := cs)] at hc
  obtain hc | hc := List.mem_append.1 hc
  · exact .inl (List.all_eq_true.1 List.all_takeWhile c hc)
  · unfold Decimal.mantissa? at h
    dsimp only at h
    split at h
    · rename_i hd
      rw [hd] at hc
      cases hc
    · rename_i places hd
      rw [hd] at hc
      split at h
      · rename_i hall
        obtain rfl | hc := List.mem_cons.1 hc
        · exact .inr rfl
        · simp only [Bool.and_eq_true] at hall
          exact .inl (List.all_eq_true.1 hall.1 c hc)
      · cases h
    · cases h

theorem mem_splitMark {mark : Char} {cs : List Char} {c : Char} (hc : c ∈ cs) :
    c ∈ (Decimal.splitMark mark cs).1 ∨ c = mark ∨ c = mark.toUpper ∨
      ∃ ds, (Decimal.splitMark mark cs).2 = some ds ∧ c ∈ ds := by
  unfold Decimal.splitMark
  dsimp only
  split
  · exact .inl hc
  · rename_i d more hd
    rw [← List.takeWhile_append_dropWhile (p := fun c => !(c == mark || c == mark.toUpper))
      (l := cs), hd] at hc
    obtain hc | hc := List.mem_append.1 hc
    · exact .inl hc
    · obtain rfl | hc := List.mem_cons.1 hc
      · have hmark := List.head?_dropWhile_not (fun c => !(c == mark || c == mark.toUpper)) cs
        rw [hd] at hmark
        have hmark : ¬c = mark → c = mark.toUpper := by simpa using hmark
        by_cases h : c = mark
        · exact .inr (.inl h)
        · exact .inr (.inr (.inl (hmark h)))
      · exact .inr (.inr (.inr ⟨more, rfl, hc⟩))

/-- The characters of a numeral are digits, points, powers and signs. -/
theorem mem_of_figures {p : Char → Bool} {f : List Char → Nat} {mark : Char} {cs : List Char}
    {r : Nat × Int} (hm : Decimal.mantissa? p f (Decimal.splitMark mark cs).1 = some r)
    (hpower : ∀ ds, (Decimal.splitMark mark cs).2 = some ds → ∃ n, Decimal.exponent? ds = some n)
    {c : Char} (hc : c ∈ cs) :
    (p c ∨ c = '.') ∨ (c = mark ∨ c = mark.toUpper) ∨ isDigit c ∨ isPlusMinus c := by
  have hparts : c ∈ (Decimal.splitMark mark cs).1 ∨ c = mark ∨ c = mark.toUpper ∨
      ∃ ds, (Decimal.splitMark mark cs).2 = some ds ∧ c ∈ ds := mem_splitMark hc
  obtain hc | hc | hc | ⟨ds, hds, hc⟩ := hparts
  · exact .inl (mem_of_mantissa? hm hc)
  · exact .inr (.inl (.inl hc))
  · exact .inr (.inl (.inr hc))
  · obtain ⟨n, hn⟩ := hpower ds hds
    exact .inr (.inr (mem_of_exponent? hn hc))

theorem isHexDigit_of_isDigit {c : Char} (h : isDigit c) : isHexDigit c := by
  simp only [isDigit, Bool.and_eq_true, decide_eq_true_eq] at h
  simp [isHexDigit, hexValue?, h]

theorem mem_of_decimal? {cs : List Char} {x : Float} (h : Decimal.decimal? cs = some x) {c : Char}
    (hc : c ∈ cs) : isNumeral false c ∨ isPlusMinus c := by
  unfold Decimal.decimal? at h
  dsimp only at h
  obtain ⟨r, hm, h⟩ := Option.bind_eq_some_iff.1 h
  have hpower : ∀ ds, (Decimal.splitMark 'e' cs).2 = some ds →
      ∃ n, Decimal.exponent? ds = some n := by
    intro ds hds
    rw [hds] at h
    obtain ⟨n, hn, -⟩ := Option.bind_eq_some_iff.1 h
    exact ⟨n, hn⟩
  obtain (hc | rfl) | (rfl | rfl) | hc | hc := mem_of_figures hm hpower hc
  · exact .inl (by simp [isNumeral, isHexDigit_of_isDigit hc])
  · exact .inl rfl
  · exact .inl rfl
  · exact .inl (by decide)
  · exact .inl (by simp [isNumeral, isHexDigit_of_isDigit hc])
  · exact .inr hc

theorem mem_of_hexadecimal? {cs : List Char} {x : Float} (h : Decimal.hexadecimal? cs = some x)
    {c : Char} (hc : c ∈ cs) : isNumeral true c ∨ isPlusMinus c := by
  unfold Decimal.hexadecimal? at h
  dsimp only at h
  obtain ⟨r, hm, h⟩ := Option.bind_eq_some_iff.1 h
  have hpower : ∀ ds, (Decimal.splitMark 'p' cs).2 = some ds →
      ∃ n, Decimal.exponent? ds = some n := by
    intro ds hds
    rw [hds] at h
    obtain ⟨n, hn, -⟩ := Option.bind_eq_some_iff.1 h
    exact ⟨n, hn⟩
  obtain (hc | rfl) | (rfl | rfl) | hc | hc := mem_of_figures hm hpower hc
  · exact .inl (by simp [isNumeral, hc])
  · exact .inl rfl
  · exact .inl rfl
  · exact .inl (by decide)
  · exact .inl (by simp [isNumeral, isHexDigit_of_isDigit hc])
  · exact .inr hc

theorem mem_of_hexNumeral? {ds : List Char} {x : Char} (hx : x = 'x' ∨ x = 'X') {r : Number}
    (h : Number.ofNumeral? false ('0' :: x :: ds) = some r) {c : Char} (hc : c ∈ ds) :
    isNumeral true c ∨ isPlusMinus c := by
  have h : (if !ds.isEmpty && ds.all isHexDigit then
        some (.int (Int64.ofInt (ofHex ds : Int)))
      else (Decimal.hexadecimal? ds).map .float) = some r := by
    obtain rfl | rfl := hx <;> exact h
  split at h
  · rename_i hall
    simp only [Bool.and_eq_true] at hall
    have := List.all_eq_true.1 hall.2 c hc
    exact .inl (by simp [isNumeral, this])
  · obtain ⟨f, hf, -⟩ := Option.map_eq_some_iff.1 h
    exact mem_of_hexadecimal? hf hc

theorem mem_of_ofNumeral? {cs : List Char} (hcs : ∀ x ds, cs = '0' :: x :: ds → x ≠ 'x' ∧ x ≠ 'X')
    {r : Number} (h : Number.ofNumeral? false cs = some r) {c : Char} (hc : c ∈ cs) :
    isNumeral false c ∨ isPlusMinus c := by
  unfold Number.ofNumeral? at h
  dsimp only at h
  split at h
  · exact absurd rfl (hcs _ _ rfl).1
  · exact absurd rfl (hcs _ _ rfl).2
  · split at h
    · rename_i hi
      split at hi
      · rename_i hall
        simp only [Bool.and_eq_true] at hall
        have := List.all_eq_true.1 hall.2 c hc
        exact .inl (by simp [isNumeral, isHexDigit_of_isDigit this])
      · cases hi
    · obtain ⟨f, hf, -⟩ := Option.map_eq_some_iff.1 h
      exact mem_of_decimal? hf hc

theorem isAlphanumeric_of_isHexDigit {c : Char} (h : isHexDigit c) : isAlphanumeric c := by
  have key : ∀ a b : Char, a ≤ c → c ≤ b → a.toNat ≤ c.toNat ∧ c.toNat ≤ b.toNat :=
    fun a b ha hb => ⟨UInt32.le_iff_toNat_le.1 ha, UInt32.le_iff_toNat_le.1 hb⟩
  unfold isHexDigit hexValue? at h
  simp only [isAlphanumeric, isLetter, isDigit, Bool.or_eq_true, Bool.and_eq_true,
    decide_eq_true_eq, Char.le_def, UInt32.le_iff_toNat_le]
  split at h
  · rename_i hd
    exact .inr (key _ _ hd.1 hd.2)
  · split at h
    · rename_i hd
      have := key _ _ hd.1 hd.2
      exact .inl (.inl ⟨this.1, Nat.le_trans this.2 (by decide)⟩)
    · split at h
      · rename_i hd
        have := key _ _ hd.1 hd.2
        exact .inl (.inr ⟨this.1, Nat.le_trans this.2 (by decide)⟩)
      · cases h

theorem isPower_cases {hex : Bool} {c : Char} (h : isPower hex c) :
    (hex = true ∧ (c = 'p' ∨ c = 'P')) ∨ (hex = false ∧ (c = 'e' ∨ c = 'E')) := by
  cases hex with
  | true => exact .inl ⟨rfl, by simpa [isPower] using h⟩
  | false => exact .inr ⟨rfl, by simpa [isPower] using h⟩

theorem isAlphanumeric_of_isPower {hex : Bool} {c : Char} (h : isPower hex c) :
    isAlphanumeric c := by
  obtain ⟨-, rfl | rfl⟩ | ⟨-, rfl | rfl⟩ := isPower_cases h <;> decide

theorem isAlphanumeric_of_isNumeral {hex : Bool} {c : Char} (h : isNumeral hex c) :
    (isAlphanumeric c || c == '.') = true := by
  simp only [isNumeral, Bool.or_eq_true] at h ⊢
  obtain (h | h) | h := h
  · exact .inl (isAlphanumeric_of_isPower h)
  · exact .inl (isAlphanumeric_of_isHexDigit h)
  · exact .inr h

/-- The engine goes on with every character but a sign, after which a number goes on. -/
theorem isNumeral_or_startsWord {hex : Bool} {c : Char}
    (h : (isAlphanumeric c || c == '.' || c == '_') = true) :
    isNumeral hex c ∨ startsWord c := by
  simp only [isAlphanumeric, Bool.or_eq_true] at h
  simp only [isNumeral, startsWord, Bool.or_eq_true]
  obtain ((h | h) | h) | h := h
  · exact .inr (.inl h)
  · exact .inl (.inl (.inr (isHexDigit_of_isDigit h)))
  · exact .inl (.inr h)
  · exact .inr (.inr h)

/-! ## Numbers -/

/-! The numeral that starts with a character, as `numeralAt` reads it. -/

def isHexNumeral (c : Char) (cs : List Char) : Bool :=
  c == '0' && cs.head?.any fun x => x == 'x' || x == 'X'

def numeralLength (c : Char) (cs : List Char) : Nat :=
  if isHexNumeral c cs then numeralRun true (cs.drop 1) + 1 else numeralRun false cs

theorem numeralLength_le (c : Char) (cs : List Char) : numeralLength c cs ≤ cs.length := by
  unfold numeralLength
  split
  · rename_i h
    cases cs with
    | nil => simp [isHexNumeral] at h
    | cons d cs => exact Nat.succ_le_succ (numeralRun_le true cs)
  · exact numeralRun_le false cs

theorem not_isPlusMinus_of_startsWord {c : Char} (h : startsWord c) : isPlusMinus c = false := by
  simp only [isPlusMinus, Bool.or_eq_false_iff, beq_eq_false_iff_ne]
  exact ⟨by rintro rfl; revert h; decide, by rintro rfl; revert h; decide⟩

theorem mem_take_of_head? {cs : List Char} {n : Nat} {d : Char} (h : (cs.drop n).head? = some d) :
    d ∈ cs.take (n + 1) := by
  rw [List.head?_drop] at h
  refine List.mem_of_getElem? (i := n) ?_
  rw [List.getElem?_take, if_pos (Nat.lt_succ_self n)]
  exact h

/-- A word right after a numeral spoils it. -/
theorem ofNumeral?_spoilt {c : Char} {cs : List Char} {d : Char} (hd : startsWord d)
    (h : (cs.drop (numeralLength c cs)).head? = some d) :
    Number.ofNumeral? false (c :: cs.take (numeralLength c cs + 1)) = none := by
  have hsign := not_isPlusMinus_of_startsWord hd
  refine Option.eq_none_iff_forall_ne_some.2 fun r hr => ?_
  unfold numeralLength at h hr
  split at h
  · rename_i hhex
    rw [if_pos hhex] at hr
    simp only [isHexNumeral, Bool.and_eq_true, beq_iff_eq] at hhex
    obtain ⟨rfl, hx⟩ := hhex
    cases cs with
    | nil => cases hx
    | cons x ds =>
      simp only [List.head?_cons, Option.any_some, Bool.or_eq_true, beq_iff_eq,
        List.drop_succ_cons, List.drop_zero, List.take_succ_cons] at hx h hr
      have hstop := numeralRun_stops true ds d h
      obtain hm | hm := mem_of_hexNumeral? hx hr (mem_take_of_head? h)
      · rw [hstop] at hm
        cases hm
      · rw [hsign] at hm
        cases hm
  · rename_i hhex
    rw [if_neg hhex] at hr
    have hstop := numeralRun_stops false cs d h
    have hcs : ∀ x ds, c :: cs.take (numeralRun false cs + 1) = '0' :: x :: ds →
        x ≠ 'x' ∧ x ≠ 'X' := by
      intro x ds he
      obtain ⟨rfl, he₁⟩ := List.cons.inj he
      cases cs with
      | nil => cases he₁
      | cons y cs =>
        obtain ⟨rfl, -⟩ := List.cons.inj he₁
        simpa [isHexNumeral] using hhex
    obtain hm | hm := mem_of_ofNumeral? hcs hr (List.mem_cons_of_mem c (mem_take_of_head? h))
    · rw [hstop] at hm
      cases hm
    · rw [hsign] at hm
      cases hm

theorem numeralAt_eq (c : Char) (cs : List Char) :
    numeralAt c cs =
      let run := numeralLength c cs
      let n := if (cs.drop run).head?.any startsWord then run + 1 else run
      let shown := String.ofList (c :: cs.take n)
      match Number.ofNumeral? false (c :: cs.take n) with
      | some (.int v) => (.int v shown, n)
      | some (.float v) => (.float v shown, n)
      | none => (.bad ("malformed number near '" ++ shown ++ "'"), n) := rfl

theorem numeralAt_ok {c : Char} {cs : List Char} {t : Token} {n : Nat}
    (h : numeralAt c cs = (t, n)) (ht : t.isBad = false) :
    n = numeralLength c cs ∧ stops startsWord (cs.drop n) ∧
      ∃ r, Number.ofNumeral? false (c :: cs.take n) = some r := by
  rw [numeralAt_eq] at h
  dsimp only at h
  have hfree : (cs.drop (numeralLength c cs)).head?.any startsWord = false := by
    refine Bool.eq_false_iff.2 fun hs => ?_
    obtain ⟨d, hd, hw⟩ := (Option.any_eq_true _ _).1 hs
    rw [if_pos hs, ofNumeral?_spoilt hw hd] at h
    obtain ⟨rfl, -⟩ := Prod.mk.inj h
    cases ht
  rw [hfree] at h
  have hn : n = numeralLength c cs ∧ ∃ r, Number.ofNumeral? false (c :: cs.take n) = some r := by
    split at h
    · rename_i v hv
      obtain ⟨-, rfl⟩ := Prod.mk.inj h
      exact ⟨rfl, _, hv⟩
    · rename_i v hv
      obtain ⟨-, rfl⟩ := Prod.mk.inj h
      exact ⟨rfl, _, hv⟩
    · obtain ⟨rfl, -⟩ := Prod.mk.inj h
      cases ht
  refine ⟨hn.1, fun d hd => ?_, hn.2⟩
  rw [hn.1] at hd
  rw [hd] at hfree
  exact hfree

theorem isHexNumeral_local {c : Char} {v x y : List Char} (hxy : y.head? = x.head?) :
    isHexNumeral c (v ++ y) = isHexNumeral c (v ++ x) := by
  unfold isHexNumeral
  rw [List.head?_append, List.head?_append, hxy]

theorem numeralLength_local {c : Char} {v x y : List Char} (hxy : y.head? = x.head?)
    (h : numeralLength c (v ++ x) = v.length) : numeralLength c (v ++ y) = v.length := by
  unfold numeralLength at h ⊢
  rw [isHexNumeral_local hxy]
  split at h
  · rw [if_pos ‹_›]
    cases v with
    | nil => cases h
    | cons d v =>
      simp only [List.cons_append, List.drop_succ_cons, List.drop_zero, List.length_cons] at h ⊢
      rw [numeralRun_local hxy (Nat.succ.inj h)]
  · rw [if_neg ‹_›]
    exact numeralRun_local hxy h

theorem numeralAt_local {c : Char} {v x y : List Char} {t : Token} (hxy : y.head? = x.head?)
    (ht : t.isBad = false) (h : numeralAt c (v ++ x) = (t, v.length)) :
    numeralAt c (v ++ y) = (t, v.length) := by
  obtain ⟨hlen, hstop, -⟩ := numeralAt_ok h ht
  have hy := numeralLength_local hxy hlen.symm
  rw [List.drop_left] at hstop
  have hfree : ∀ {z : List Char}, z.head? = x.head? → z.head?.any startsWord = false := by
    intro z hz
    cases hd : z.head? with
    | none => rfl
    | some d => exact hstop d (hz ▸ hd)
  rw [numeralAt_eq] at h ⊢
  dsimp only at h ⊢
  rw [← hlen, List.drop_left, hfree rfl] at h
  rw [hy, List.drop_left, hfree hxy]
  simpa using h

end EnvManifest.Script
