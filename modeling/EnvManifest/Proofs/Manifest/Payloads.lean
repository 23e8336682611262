import EnvManifest.Proofs.Manifest.Appending
import EnvManifest.Proofs.Manifest.Captured

/-!
# What tokens say

A token says what is written in its place, but for a few changes. A number loses its `_`, and its
`0X` becomes `0x`. An expression loses the backslash of each `\;` that stands in no string, long
bracket or comment, and the blanks at its end.
-/

namespace EnvManifest

open Text

/-! ## Numbers -/

/-- With `0x` in the place of each `0X`. -/
def lowerHexMark : List Char → List Char
  | '0' :: 'X' :: cs => '0' :: 'x' :: lowerHexMark cs
  | c :: cs => c :: lowerHexMark cs
  | [] => []

/-- A number without `_`, and with `0x` in the place of `0X`. -/
def plainNumber (written : List Char) : List Char := lowerHexMark (written.filter (· != '_'))

theorem lowerHexMark_append {cs : List Char} (h : ∀ c ∈ cs, c ≠ 'X' ∧ c ≠ '0') (ds : List Char) :
    lowerHexMark (cs ++ ds) = cs ++ lowerHexMark ds := by
  induction cs with
  | nil => rfl
  | cons c cs ih =>
    obtain ⟨hc, h⟩ := List.forall_mem_cons.mp h
    rw [List.cons_append, lowerHexMark, ih h]
    · rfl
    · exact fun _ hzero _ => hc.2 hzero

theorem lowerHexMark_plain {cs : List Char} (h : ∀ c ∈ cs, c ≠ 'X') : lowerHexMark cs = cs := by
  fun_induction lowerHexMark cs with
  | case1 => simp at h
  | case2 c cs _ ih => rw [ih fun d hd => h d (List.mem_cons_of_mem c hd)]
  | case3 => rfl

/-- Reading drops some characters of a kind. -/
def Drops (p : Char → Bool) (cs rest : List Char) : Prop :=
  ∃ own, cs = own ++ rest ∧ ∀ c ∈ own, p c

section

variable {p : Char → Bool} {cs ds rest : List Char}

theorem drops_refl : Drops p cs cs := ⟨[], rfl, List.forall_mem_nil _⟩

theorem drops_one {c : Char} (hc : p c) : Drops p (c :: cs) cs := ⟨[c], rfl, by simpa using hc⟩

theorem Drops.trans (h : Drops p cs ds) (h' : Drops p ds rest) : Drops p cs rest := by
  obtain ⟨own, rfl, hown⟩ := h
  obtain ⟨more, rfl, hmore⟩ := h'
  exact ⟨own ++ more, by rw [List.append_assoc], List.forall_mem_append.mpr ⟨hown, hmore⟩⟩

theorem drops_dropWhile {q : Char → Bool} (h : ∀ c, q c → p c) (cs : List Char) :
    Drops p cs (cs.dropWhile q) :=
  ⟨cs.takeWhile q, List.takeWhile_append_dropWhile.symm,
    fun c hc => h c (List.all_eq_true.mp List.all_takeWhile c hc)⟩

theorem drops_sign (h : ∀ c, isSign c → p c) (cs : List Char) : Drops p cs (dropSign cs) := by
  cases cs with
  | nil => exact drops_refl
  | cons c cs =>
    rw [dropSign]
    split
    · rename_i hc
      exact drops_one (h c hc)
    · exact drops_refl

end

/-- A kind with all the characters that decimal numbers are made of. -/
structure Covers (p : Char → Bool) : Prop where
  gap : ∀ c, isDigitOrGap c → p c
  sign : ∀ c, isSign c → p c
  mark : ∀ c, c = '.' ∨ c = 'e' ∨ c = 'E' → p c

section

variable {p : Char → Bool} (covers : Covers p)
include covers

theorem Covers.drops_places (cs : List Char) : Drops p cs (dropPlaces cs) := by
  unfold dropPlaces
  split
  · exact (drops_one (covers.mark _ (.inl rfl))).trans (drops_dropWhile covers.gap _)
  · exact drops_refl

theorem Covers.drops_exponent {cs rest : List Char} (h : dropExponent cs = .ok rest) :
    Drops p cs rest := by
  cases cs with
  | nil =>
    cases h
    exact drops_refl
  | cons c cs =>
    rw [dropExponent] at h
    split at h
    · rename_i hc
      dsimp only at h
      split at h
      · cases h
        exact (drops_one (covers.mark c (.inr hc))).trans
          ((drops_sign covers.sign cs).trans (drops_dropWhile covers.gap _))
      · cases h
    · cases h
      exact drops_refl

theorem Covers.drops_decimal {cs rest : List Char} (h : dropDecimal cs = .ok rest) :
    Drops p cs rest :=
  (drops_dropWhile covers.gap cs).trans ((covers.drops_places _).trans (covers.drops_exponent h))

end

/-- A character that a decimal number may have. -/
def noHexMark (c : Char) : Bool := !isHexMark c

theorem noHexMark_covers : Covers noHexMark where
  gap c h := by
    cases hx : isHexMark c with
    | false => rw [noHexMark, hx]; rfl
    | true =>
      obtain rfl | rfl : c = 'x' ∨ c = 'X' := by simpa [isHexMark] using hx
      all_goals exact absurd h (by decide)
  sign c h := by
    obtain rfl | rfl : c = '-' ∨ c = '+' := by simpa [isSign] using h
    all_goals decide
  mark := by
    rintro c (rfl | rfl | rfl) <;> decide

theorem settleNumber_ok {cs rest : List Char} (h : settleNumber cs = .ok rest) : rest = cs := by
  unfold settleNumber at h
  split at h
  · cases h
  · exact (Except.ok.inj h).symm

/-- What is written of a number: a sign and hexadecimal digits, or no hexadecimal mark at all. -/
inductive NumberWritten : List Char → Prop
  | hex {sign digits : List Char} {x : Char} (signed : ∀ c ∈ sign, isSign c) (single : sign.length ≤ 1)
      (mark : isHexMark x) (all : ∀ d ∈ digits, isHexDigit d) :
      NumberWritten (sign ++ '0' :: x :: digits)
  | decimal {cs : List Char} (unmarked : ∀ c ∈ cs, noHexMark c) : NumberWritten cs

theorem dropSign_append (cs : List Char) :
    ∃ sign, cs = sign ++ dropSign cs ∧ (∀ c ∈ sign, isSign c) ∧ sign.length ≤ 1 := by
  cases cs with
  | nil => exact ⟨[], rfl, List.forall_mem_nil _, Nat.zero_le 1⟩
  | cons c cs =>
    rw [dropSign]
    split
    · rename_i hc
      exact ⟨[c], rfl, by simpa using hc, Nat.le_refl 1⟩
    · exact ⟨[], rfl, List.forall_mem_nil _, Nat.zero_le 1⟩

theorem dropNumber_written {cs rest : List Char} (h : dropNumber cs = .ok rest) :
    ∃ own, cs = own ++ rest ∧ NumberWritten own := by
  obtain ⟨sign, hsign, signed, single⟩ := dropSign_append cs
  by_cases hex : ∃ x ds, dropSign cs = '0' :: x :: ds ∧ isHexMark x
  · obtain ⟨x, ds, hcs, hx⟩ := hex
    rw [dropNumber_hex hcs hx, dropHex] at h
    split at h
    · cases h
    · obtain rfl := settleNumber_ok h
      refine ⟨sign ++ '0' :: x :: ds.takeWhile isHexDigit, ?_, .hex signed single hx fun d hd =>
        List.all_eq_true.mp List.all_takeWhile d hd⟩
      rw [hcs] at hsign
      simp [hsign]
  · have decimal : ∀ x ds, dropSign cs = '0' :: x :: ds → ¬isHexMark x :=
      fun x ds hcs hx => hex ⟨x, ds, hcs, hx⟩
    rw [dropNumber_decimal decimal] at h
    cases hds : dropDecimal (dropSign cs) with
    | error e => rw [hds] at h; cases h
    | ok ds =>
      rw [hds] at h
      obtain rfl := settleNumber_ok h
      obtain ⟨own, hown, unmarked⟩ :=
        (drops_sign noHexMark_covers.sign cs).trans (noHexMark_covers.drops_decimal hds)
      exact ⟨own, hown, .decimal unmarked⟩

theorem numberText_hex {sign digits : List Char} {x : Char} (signed : ∀ c ∈ sign, isSign c)
    (single : sign.length ≤ 1) (mark : isHexMark x) :
    numberText (sign ++ '0' :: x :: digits) = sign ++ '0' :: 'x' :: digits := by
  have body : dropSign (sign ++ '0' :: x :: digits) = '0' :: x :: digits := by
    match sign, single with
    | [], _ => rfl
    | [c], _ => exact if_pos (signed c (List.mem_singleton_self c))
  have front : (sign ++ '0' :: x :: digits).take
      ((sign ++ '0' :: x :: digits).length - ('0' :: x :: digits).length) = sign := by
    rw [List.length_append, Nat.add_sub_cancel, List.take_left]
  rw [numberText, body, front]
  exact congrArg (sign ++ ·) (if_pos mark)

theorem numberText_decimal {written : List Char} (unmarked : ∀ c ∈ written, noHexMark c) :
    numberText written = written.filter (· != '_') := by
  obtain ⟨sign, hsign, signed, -⟩ := dropSign_append written
  unfold numberText
  generalize dropSign written = body at hsign ⊢
  subst hsign
  have front : (sign ++ body).take ((sign ++ body).length - body.length) = sign := by
    rw [List.length_append, Nat.add_sub_cancel, List.take_left]
  have kept : sign.filter (· != '_') = sign := by
    refine List.filter_eq_self.mpr fun c hc => ?_
    obtain rfl | rfl : c = '-' ∨ c = '+' := by simpa [isSign] using signed c hc
    all_goals rfl
  rw [front, List.filter_append, kept]
  dsimp only
  split
  · rename_i x ds
    have hx : noHexMark x := unmarked x (by simp)
    rw [if_neg (by simpa [noHexMark] using hx)]
  · rfl

theorem numberText_written {written : List Char} (h : NumberWritten written) :
    numberText written = plainNumber written := by
  cases h with
  | @hex sign digits x signed single mark all =>
    have plain : ∀ c, c ∈ sign ∨ c ∈ digits → c ≠ '_' ∧ c ≠ 'X' := by
      rintro c (hc | hc)
      · constructor <;> rintro rfl <;> exact absurd (signed _ hc) (by decide)
      · constructor <;> rintro rfl <;> exact absurd (all _ hc) (by decide)
    have zero : ∀ c ∈ sign, c ≠ 'X' ∧ c ≠ '0' := by
      intro c hc
      refine ⟨(plain c (.inl hc)).2, ?_⟩
      rintro rfl
      exact absurd (signed _ hc) (by decide)
    have mark' : x = 'x' ∨ x = 'X' := by simpa [isHexMark] using mark
    have kept : (sign ++ '0' :: x :: digits).filter (· != '_') = sign ++ '0' :: x :: digits := by
      refine List.filter_eq_self.mpr fun c hc => bne_iff_ne.mpr ?_
      simp only [List.mem_append, List.mem_cons] at hc
      obtain hc | rfl | rfl | hc := hc
      · exact (plain c (.inl hc)).1
      · decide
      · obtain rfl | rfl := mark' <;> decide
      · exact (plain c (.inr hc)).1
    have digits' : lowerHexMark digits = digits := lowerHexMark_plain fun c hc => (plain c (.inr hc)).2
    rw [numberText_hex signed single mark, plainNumber, kept, lowerHexMark_append zero]
    obtain rfl | rfl := mark'
    · rw [lowerHexMark_plain]
      rintro c hc rfl
      simp only [List.mem_cons] at hc
      obtain h | h | hc := hc
      · cases h
      · cases h
      · exact (plain _ (.inr hc)).2 rfl
    · rw [lowerHexMark, digits']
  | decimal unmarked =>
    rw [numberText_decimal unmarked, plainNumber, lowerHexMark_plain]
    intro c hc
    rintro rfl
    exact absurd (unmarked _ (List.mem_filter.mp hc).1) (by decide)

/-! ## Strings -/

/-- A string that is read ends with its quote. -/
theorem stringBody_ends {quote : Char} {start pos n : Nat} {cs vs : List Char}
    (h : stringBody quote start pos cs = .ok (vs, n)) : [quote] <:+ cs.take n := by
  fun_induction stringBody quote start pos cs generalizing vs n with
  | case1 => cases h
  | case2 => cases h
  | case3 =>
    cases h
    exact List.suffix_rfl
  | case4 => cases h
  | case5 => cases h
  | case6 pos cs v k hescape vs m hmore hline hq ih =>
    cases h
    rw [show 1 + k + m = (k + m) + 1 by omega, List.take_succ_cons, List.take_add]
    exact (ih hmore).trans ((List.suffix_append _ _).trans (List.suffix_cons _ _))
  | case7 => cases h
  | case8 pos c cs hline hq hb vs m hmore ih =>
    cases h
    rw [show 1 + m = m + 1 by omega, List.take_succ_cons]
    exact (ih hmore).trans (List.suffix_cons _ _)

/-! ## Expressions -/

/-- How many characters after this one belong to the string, the long bracket or the comment that
starts with it. -/
def opaqueRun (c : Char) (cs : List Char) : Nat :=
  if c = '"' ∨ c = '\'' then (quoteRun c cs).1
  else if c = '[' then
    match longLevel? cs with
    | none => 0
    | some level =>
      match runThrough (longClose level) (cs.drop (level + 1)) with
      | none => cs.length
      | some n => level + 1 + n
  else if c = '-' ∧ cs.head? = some '-' then lineRun cs
  else 0

/-- With `;` in the place of each `\;` that stands in no string, long bracket or comment. -/
def unescaped (cs : List Char) : List Char :=
  match cs with
  | [] => []
  | c :: cs =>
    if c = '\\' ∧ cs.head? = some ';' then ';' :: unescaped (cs.drop 1)
    else c :: cs.take (opaqueRun c cs) ++ unescaped (cs.drop (opaqueRun c cs))
termination_by cs.length
decreasing_by all_goals (simp only [List.length_cons, List.length_drop]; omega)

theorem unescaped_escape (cs : List Char) : unescaped ('\\' :: ';' :: cs) = ';' :: unescaped cs := by
  rw [unescaped, if_pos ⟨rfl, rfl⟩]
  rfl

theorem opaqueRun_of_part {c : Char} {front back : List Char} (h : Part c front back) :
    opaqueRun c (front ++ back) = front.length := by
  cases h with
  | quoted quote closed =>
    have run := (quoteRun_take closed).2 back
    rw [List.take_length] at run
    rw [opaqueRun, if_pos quote, run]
  | @long _ level n bracket opened closed whole =>
    subst bracket
    have run := (runThrough_take (Script.longClose_ne_nil level) closed).2.2 back
    rw [List.take_of_length_le (by rw [List.length_drop]; omega)] at run
    rw [opaqueRun, if_neg (by decide), if_pos rfl, longLevel?_append opened]
    dsimp only
    rw [List.drop_append_of_le_length (by omega), run]
    exact whole.symm
  | comment dashes line =>
    obtain ⟨rfl, next⟩ := dashes
    have dash : (front ++ back).head? = some '-' := by rw [List.head?_append, next]; rfl
    rw [opaqueRun, if_neg (by decide), if_neg (by decide), if_pos ⟨rfl, dash⟩, line]
  | single quote bracket dash =>
    rw [opaqueRun, if_neg quote, List.nil_append]
    by_cases hb : c = '['
    · rw [if_pos hb, bracket hb]
      rfl
    · rw [if_neg hb, if_neg fun hd => dash hd.1 hd.2]
      rfl

theorem unescaped_part {c : Char} {front back : List Char} (h : Part c front back)
    (kept : ¬(c = '\\' ∧ (front ++ back).head? = some ';')) :
    unescaped (c :: (front ++ back)) = c :: front ++ unescaped back := by
  rw [unescaped, if_neg kept, opaqueRun_of_part h, List.take_left, List.drop_left]

/-- The parts of an expression say what is written, without the backslashes, also where the text
is cut after some of them. -/
theorem unescaped_segments {start pos depth : Nat} {cs : List Char} {front back : List Segment}
    (h : segments start pos depth cs = .ok (front ++ back)) :
    unescaped (front.flatMap (·.written)) = front.flatMap (·.meant) := by
  generalize hparts : front ++ back = parts at h
  fun_induction segments start pos depth cs generalizing front parts with
  | case1 =>
    cases h
    obtain ⟨rfl, -⟩ := List.append_eq_nil_iff.mp hparts
    simp [unescaped]
  | case2 => cases h
  | case3 =>
    cases h
    obtain ⟨rfl, -⟩ := List.append_eq_nil_iff.mp hparts
    simp [unescaped]
  | case4 => cases h
  | case5 => cases h
  | case6 pos depth c cs hend n meant hpart depth' written more hmore =>
    rename_i ih
    cases h
    cases front with
    | nil => simp [unescaped]
    | cons s front =>
      rw [List.cons_append, List.cons.injEq] at hparts
      obtain ⟨rfl, rfl⟩ := hparts
      have rest := ih _ rfl hmore
      obtain ⟨-, after, hafter⟩ := segments_sound hmore
      rw [List.flatMap_append, List.append_assoc] at hafter
      rw [List.flatMap_cons, List.flatMap_cons, ← rest]
      obtain same | ⟨hwritten, hmeant⟩ := segmentAt_sound hpart
      · obtain rfl : meant = c :: cs.take n := same
        have here := part_of_segmentAt hpart
        rw [hafter] at here
        refine unescaped_part here.cut ?_
        rintro ⟨rfl, semi⟩
        -- The text is cut, but a `;` after the backslash would have stood there before too.
        have escaped : cs.head? = some ';' := by
          rw [← List.take_append_drop n cs, hafter, ← List.append_assoc, List.head?_append, semi]
          rfl
        obtain ⟨more, rfl⟩ := List.head?_eq_some_iff.mp escaped
        rw [segmentAt_escaped] at hpart
        cases hpart
      · obtain rfl : meant = [';'] := hmeant
        have hescape : written = ['\\', ';'] := hwritten
        dsimp only
        rw [hescape]
        exact unescaped_escape _

theorem segmentAt_blank {c : Char} (hc : isBlank c) (pos : Nat) (cs : List Char) :
    segmentAt pos c cs = .ok (0, [c]) := by
  have other {d : Char} (hd : isBlank d = false) : c ≠ d := ne_of_isBlank hc hd
  have quote : ¬(c = '"' ∨ c = '\'') := not_or_intro (other (by decide)) (other (by decide))
  rw [segmentAt, if_neg fun h => other (by decide) h.1, if_neg quote, if_neg (other (by decide)),
    if_neg fun h => other (by decide) h.1]
  rfl

/-- A part that is blank is one blank, which means itself. -/
theorem blank_of_segments {start pos depth : Nat} {cs : List Char} {parts : List Segment}
    (h : segments start pos depth cs = .ok parts) :
    ∀ s ∈ parts, s.isBlank → ∃ c, isBlank c ∧ s = ⟨[c], [c]⟩ := by
  fun_induction segments start pos depth cs generalizing parts with
  | case1 => cases h; simp
  | case2 => cases h
  | case3 => cases h; simp
  | case4 => cases h
  | case5 => cases h
  | case6 pos depth c cs hend n meant hpart depth' written more hmore =>
    rename_i ih
    cases h
    simp only [List.mem_cons]
    rintro s (rfl | hs) blank
    · have hc : isBlank c := blank
      rw [segmentAt_blank hc] at hpart
      cases hpart
      exact ⟨c, hc, rfl⟩
    · exact ih hmore s hs blank

/-! ## All tokens -/

/-- The token is what such a text is read as. -/
def TokenKind.Writes (kind : TokenKind) (written : List Char) : Prop :=
  match kind with
  | .ident name => name.toList = written
  | .number text => text.toList = plainNumber written
  | .str _ => ∃ quote body, (quote = '"' ∨ quote = '\'') ∧ written = quote :: body ++ [quote]
  | .expr source => source.toList = trimEnd (unescaped written)
  | .assign => written = ['=']
  | .eof => written = []
  | kind => ∃ c, written = [c] ∧ symbol? c = some kind

theorem symbol_writes {c : Char} {kind : TokenKind} (h : symbol? c = some kind) : kind.Writes [c] := by
  have here : ∃ d, [c] = [d] ∧ symbol? d = some kind := ⟨c, rfl, h⟩
  unfold symbol? at h
  split at h <;> cases h <;> exact here

theorem noHexMark_of_startsNumber {c : Char} {next : Option Char} (h : startsNumber c next) :
    noHexMark c := by
  cases hx : isHexMark c with
  | false => rw [noHexMark, hx]; rfl
  | true =>
    obtain rfl | rfl : c = 'x' ∨ c = 'X' := by simpa [isHexMark] using hx
    all_goals cases h

theorem number_writes {c : Char} {cs rest : List Char} (hstart : startsNumber c cs.head?)
    (h : dropNumber (c :: cs) = .ok rest) :
    NumberWritten (c :: cs.take (cs.length - rest.length)) := by
  obtain ⟨own, hown, written⟩ := dropNumber_written h
  cases own with
  | nil =>
    obtain rfl : c :: cs = rest := hown
    have none : cs.length - (c :: cs).length = 0 := by simp
    rw [none]
    exact .decimal (by simpa using noHexMark_of_startsNumber hstart)
  | cons d own =>
    rw [List.cons_append, List.cons.injEq] at hown
    obtain ⟨rfl, rfl⟩ := hown
    rwa [List.length_append, Nat.add_sub_cancel, List.take_left]

theorem lexemeAt_writes {pos n : Nat} {c : Char} {cs : List Char} {kind : TokenKind}
    (h : lexemeAt pos c cs = .ok (some kind, n)) : kind.Writes (c :: cs.take n) := by
  unfold lexemeAt at h
  split at h
  · cases h
  split at h
  · split at h <;> cases h
  split at h
  · cases h
  split at h
  · cases h
    simp only [TokenKind.Writes, String.toList_ofList]
    rw [← List.prefix_iff_eq_take.mp (List.takeWhile_prefix isIdentPart)]
  split at h
  · rename_i hstart
    split at h
    · rename_i rest hrest
      cases h
      simp only [TokenKind.Writes, String.toList_ofList]
      exact numberText_written (number_writes hstart hrest)
    · cases h
  split at h
  · rename_i hquote
    split at h
    · rename_i value m hbody
      cases h
      obtain ⟨body, hends⟩ := stringBody_ends hbody
      exact ⟨c, body, hquote, by rw [← hends, List.cons_append]⟩
    · cases h
  · split at h
    · rename_i k hk
      cases h
      exact symbol_writes hk
    · cases h

/-- What is written of an expression: blanks may follow it, and it is what its parts say. -/
theorem expression_writes {start pos depth : Nat} {cs : List Char} {parts : List Segment}
    (h : segments start pos depth cs = .ok parts) :
    ∃ w, parts.flatMap (·.written) = (dropBlankEnd parts).flatMap (·.written) ++ w ∧
      (∀ c ∈ w, isBlank c) ∧
      (TokenKind.expr (String.ofList (trimEnd (parts.flatMap (·.meant))))).Writes
        ((dropBlankEnd parts).flatMap (·.written)) := by
  obtain ⟨tail, htail, hblank⟩ := dropBlankEnd_append parts
  have each : ∀ s ∈ tail, ∃ c, isBlank c ∧ s = ⟨[c], [c]⟩ := fun s hs =>
    blank_of_segments h s (htail ▸ List.mem_append_right _ hs) (hblank s hs)
  have blanks (text : Segment → List Char) (htext : ∀ c, text ⟨[c], [c]⟩ = [c]) :
      ∀ c ∈ tail.flatMap text, isBlank c := by
    intro c hc
    obtain ⟨s, hs, hc⟩ := List.mem_flatMap.mp hc
    obtain ⟨d, hd, rfl⟩ := each s hs
    rw [htext, List.mem_singleton] at hc
    rwa [hc]
  refine ⟨tail.flatMap (·.written), ?_, blanks _ fun _ => rfl, ?_⟩
  · rw [← List.flatMap_append, ← htail]
  · have meant : trimEnd (parts.flatMap (·.meant)) =
        trimEnd ((dropBlankEnd parts).flatMap (·.meant)) := by
      conv_lhs => rw [htail, List.flatMap_append, trimEnd_append_blank _ (blanks _ fun _ => rfl)]
    rw [htail] at h
    rw [meant, TokenKind.Writes, String.toList_ofList, unescaped_segments h]

end EnvManifest
