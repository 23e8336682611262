import EnvManifest.Proofs.Manifest.Places

/-!
# Looking ahead

A piece is read from its own characters and at most one more. So it stays what it is where another
text comes after it, as long as that text does not go on with the piece.
-/

namespace EnvManifest

open Text

/-! ## What may come instead -/

theorem ne_of_isBlank {c d : Char} (hc : isBlank c) (hd : isBlank d = false) : c ≠ d := by
  rintro rfl
  rw [hd] at hc
  cases hc

/-- Does a blank or a comment start with this character? -/
def startsGap (c : Char) : Bool := isBlank c || c == '#' || c == '/'

/-- A text that may come in the place of another one. It starts alike or in a new line, or with a
blank or a comment where the line goes on, so that no comment before it gets longer. -/
def Replaces (back back' : List Char) : Prop :=
  ∀ c ∈ back'.head?, c ∈ back.head? ∨ c = '\n' ∨ (startsGap c ∧ ∃ d ∈ back.head?, d ≠ '\n')

theorem replaces_nil (back : List Char) : Replaces back [] := nofun

theorem replaces_refl (back : List Char) : Replaces back back := fun _ hc => .inl hc

theorem Replaces.append {back back' : List Char} (h : Replaces back back') (front : List Char) :
    Replaces (front ++ back) (front ++ back') := by
  cases front with
  | nil => exact h
  | cons c front => exact fun d hd => .inl hd

/-- Are these characters never the start of a blank or a comment? -/
def Solid (p : Char → Bool) : Prop := ∀ c, p c → startsGap c = false

theorem solid_visible {c : Char} (h : 0x21 ≤ c.toNat ∧ c.toNat ≤ 0x7E) (hash : c ≠ '#')
    (slash : c ≠ '/') : startsGap c = false := by
  simp [startsGap, isBlank_of_visible h, hash, slash]

theorem solid_identPart : Solid isIdentPart := by
  intro c hc
  simp only [isIdentPart, isAlphanumeric, Bool.or_eq_true, beq_iff_eq] at hc
  obtain ((((hletter | hdigit) | rfl) | rfl) | rfl) := hc
  · have := toNat_of_isLetter hletter
    refine solid_visible (by omega) ?_ ?_ <;> (rintro rfl; exact absurd hletter (by decide))
  · have := toNat_of_isDigit hdigit
    refine solid_visible (by omega) ?_ ?_ <;> (rintro rfl; exact absurd hdigit (by decide))
  all_goals decide

theorem solid_sign : Solid isSign := by
  intro c hc
  obtain rfl | rfl : c = '-' ∨ c = '+' := by simpa [isSign] using hc
  all_goals decide

theorem Solid.mono {p q : Char → Bool} (h : Solid p) (hq : ∀ c, q c → p c) : Solid q :=
  fun c hc => h c (hq c hc)

theorem Replaces.stops {back back' : List Char} (h : Replaces back back') {p : Char → Bool}
    (solid : Solid p) (hstop : stops p back) : stops p back' := by
  intro c hc
  have gap : startsGap c → p c = false := fun hgap => by
    refine Bool.eq_false_iff.mpr fun hp => ?_
    rw [solid c hp] at hgap
    cases hgap
  obtain same | rfl | ⟨hgap, -⟩ := h c hc
  · exact hstop c same
  · exact gap (by decide)
  · exact gap hgap

/-! ## Readers -/

section

variable {ε : Type} {p : Char → Bool} {f g : List Char → Except ε (List Char)}

/-- A reading of the start of a text gives what is left of it. What it leaves may be replaced. -/
structure Reader (f : List Char → Except ε (List Char)) : Prop where
  suffix {cs rest : List Char} : f cs = .ok rest → rest <:+ cs
  swap {own back back' : List Char} : Replaces back back' → f (own ++ back) = .ok back →
    f (own ++ back') = .ok back'

theorem reader_stop : Reader (Except.ok : List Char → Except ε (List Char)) where
  suffix h := by
    obtain rfl := Except.ok.inj h
    exact List.suffix_rfl
  swap _ h := by
    obtain rfl := List.append_left_eq_self.mp (Except.ok.inj h)
    rfl

theorem reader_fault (e : List Char → ε) : Reader fun cs => .error (e cs) := ⟨nofun, nofun⟩

theorem reader_run (solid : Solid p) :
    Reader fun cs => (.ok (cs.dropWhile p) : Except ε (List Char)) where
  suffix h := by
    obtain rfl := Except.ok.inj h
    exact List.dropWhile_suffix p
  swap {own back back'} hback h := by
    have rest := Except.ok.inj h
    have split := List.takeWhile_append_dropWhile (p := p) (l := own ++ back)
    rw [rest] at split
    have run : ∀ c ∈ own, p c := by
      rw [← List.append_cancel_right split]
      exact fun c hc => List.all_eq_true.mp List.all_takeWhile c hc
    have stop : stops p back := by
      rw [← rest]
      exact stops_dropWhile p _
    rw [dropWhile_run run (hback.stops solid stop)]

theorem Reader.bind (hf : Reader f) (hg : Reader g) : Reader fun cs => f cs >>= g where
  suffix {cs rest} h := by
    cases hmid : f cs with
    | error e =>
      rw [hmid] at h
      cases h
    | ok mid =>
      rw [hmid] at h
      exact (hg.suffix h).trans (hf.suffix hmid)
  swap {own back back'} hback h := by
    cases hmid : f (own ++ back) with
    | error e =>
      rw [hmid] at h
      cases h
    | ok mid =>
      rw [hmid] at h
      obtain ⟨more, rfl⟩ := hg.suffix h
      obtain ⟨first, hfirst⟩ := hf.suffix hmid
      obtain rfl : first ++ more = own := by
        rw [← List.append_assoc] at hfirst
        exact List.append_cancel_right hfirst
      rw [List.append_assoc] at hmid ⊢
      rw [hf.swap (hback.append more) hmid]
      exact hg.swap hback h

/-- One reading after a mark, and another where the mark is missing. -/
def afterMark (p : Char → Bool) (f g : List Char → Except ε (List Char)) :
    List Char → Except ε (List Char)
  | [] => g []
  | c :: cs => if p c then f cs else g (c :: cs)

theorem afterMark_stops {cs : List Char} (h : stops p cs) : afterMark p f g cs = g cs := by
  cases cs with
  | nil => rfl
  | cons c cs => rw [afterMark, if_neg (by simp [h c rfl])]

theorem reader_afterMark (solid : Solid p) (hf : Reader f) (hg : Reader g) :
    Reader (afterMark p f g) where
  suffix {cs rest} h := by
    cases cs with
    | nil => exact hg.suffix h
    | cons c cs =>
      rw [afterMark] at h
      split at h
      · exact (hf.suffix h).trans (List.suffix_cons c cs)
      · exact hg.suffix h
  swap {own back back'} hback h := by
    cases own with
    | nil =>
      have stop : stops p back := by
        intro c hc
        obtain ⟨cs, rfl⟩ := List.head?_eq_some_iff.mp hc
        refine Bool.eq_false_iff.mpr fun hp => ?_
        rw [List.nil_append, afterMark, if_pos hp] at h
        exact absurd (hf.suffix h).length_le (by simp)
      have rest : g ([] ++ back) = .ok back := (afterMark_stops stop).symm.trans h
      exact (afterMark_stops (hback.stops solid stop)).trans (hg.swap hback rest)
    | cons c own =>
      rw [List.cons_append, afterMark] at h ⊢
      split
      · rename_i hp
        rw [if_pos hp] at h
        exact hf.swap hback h
      · rename_i hp
        rw [if_neg hp] at h
        have rest : g (c :: own ++ back) = .ok back := h
        exact hg.swap hback rest

end

/-! ## Numbers -/

/-- What follows the digits of a number, which has no letter right after them. -/
def settleNumber (rest : List Char) : Except (LexFault × List Char) (List Char) :=
  if rest.head?.any (fun c => isLetter c || c == '_') then .error (.strayInNumber, rest.drop 1)
  else .ok rest

def dropHex (ds : List Char) : Except (LexFault × List Char) (List Char) :=
  if (ds.dropWhile isHexDigit).length = ds.length then .error (.missingHexDigits, ds)
  else .ok (ds.dropWhile isHexDigit)

def dropDecimal (body : List Char) : Except (LexFault × List Char) (List Char) :=
  dropExponent (dropPlaces (body.dropWhile isDigitOrGap))

theorem dropNumber_hex {cs ds : List Char} {x : Char} (hcs : dropSign cs = '0' :: x :: ds)
    (hx : isHexMark x) : dropNumber cs = dropHex ds >>= settleNumber := by
  unfold dropNumber dropHex settleNumber
  simp only [hcs, hx, if_true]
  split <;> rfl

theorem dropNumber_decimal {cs : List Char} (hcs : ∀ x ds, dropSign cs = '0' :: x :: ds → ¬isHexMark x) :
    dropNumber cs = dropDecimal (dropSign cs) >>= settleNumber := by
  unfold dropNumber
  dsimp only
  split
  · rename_i x ds heq
    rw [if_neg (hcs x ds heq), heq]
    rfl
  · rfl

theorem dropDecimal_digit {d : Char} (hd : isDigitOrGap d) (cs : List Char) :
    dropDecimal (d :: cs) = dropDecimal cs := by
  rw [dropDecimal, List.dropWhile_cons_of_pos hd, dropDecimal]

/-- A reading of a part of a number. -/
abbrev NumberPart := List Char → Except (LexFault × List Char) (List Char)

/-- The digits of a number after its sign. -/
def dropDigits : NumberPart :=
  afterMark (· == '0') (afterMark isHexMark dropHex dropDecimal) dropDecimal

theorem dropNumber_eq (cs : List Char) : dropNumber cs = dropDigits (dropSign cs) >>= settleNumber := by
  by_cases hex : ∃ x ds, dropSign cs = '0' :: x :: ds ∧ isHexMark x
  · obtain ⟨x, ds, hcs, hx⟩ := hex
    rw [dropNumber_hex hcs hx, hcs, dropDigits, afterMark, if_pos (beq_self_eq_true '0'), afterMark,
      if_pos hx]
  · have decimal : ∀ x ds, dropSign cs = '0' :: x :: ds → ¬isHexMark x :=
      fun x ds hcs hx => hex ⟨x, ds, hcs, hx⟩
    rw [dropNumber_decimal decimal, dropDigits]
    congr 1
    cases hcs : dropSign cs with
    | nil => rfl
    | cons c ds =>
      rw [afterMark]
      split
      · rename_i hc
        obtain rfl := beq_iff_eq.mp hc
        have unmarked : stops isHexMark ds := fun x hx => by
          obtain ⟨more, rfl⟩ := List.head?_eq_some_iff.mp hx
          simpa using decimal x more hcs
        rw [afterMark_stops unmarked, dropDecimal_digit (by decide)]
      · rfl

theorem solid_digitOrGap : Solid isDigitOrGap := solid_identPart.mono isIdentPart_of_isDigitOrGap

theorem solid_digit : Solid isDigit := solid_digitOrGap.mono fun _ => isDigitOrGap_of_isDigit

theorem isAlphanumeric_of_isHexDigit {c : Char} (h : isHexDigit c) : isAlphanumeric c := by
  unfold isHexDigit hexValue? at h
  split at h
  · rename_i hc
    simp [isAlphanumeric, isDigit, hc]
  split at h
  · rename_i hc
    simp [isAlphanumeric, isLetter, hc.1, Char.le_trans hc.2 (by decide : 'f' ≤ 'z')]
  split at h
  · rename_i hc
    simp [isAlphanumeric, isLetter, hc.1, Char.le_trans hc.2 (by decide : 'F' ≤ 'Z')]
  · cases h

theorem solid_hexDigit : Solid isHexDigit :=
  solid_identPart.mono fun c hc => by simp [isIdentPart, isAlphanumeric_of_isHexDigit hc]

theorem solid_eq {d : Char} (hd : startsGap d = false) : Solid (· == d) := by
  intro c hc
  rwa [beq_iff_eq.mp hc]

theorem reader_sign : Reader (fun cs => .ok (dropSign cs) : NumberPart) := by
  have same : (fun cs => .ok (dropSign cs) : NumberPart) = afterMark isSign .ok .ok := by
    funext cs
    cases cs with
    | nil => rfl
    | cons c cs =>
      rw [afterMark, dropSign]
      split <;> rfl
  rw [same]
  exact reader_afterMark solid_sign reader_stop reader_stop

theorem reader_places : Reader (fun cs => .ok (dropPlaces cs) : NumberPart) := by
  have same : (fun cs => .ok (dropPlaces cs) : NumberPart) =
      afterMark (· == '.') (fun cs => .ok (cs.dropWhile isDigitOrGap)) .ok := by
    funext cs
    cases cs with
    | nil => rfl
    | cons c cs =>
      rw [afterMark]
      split
      · rename_i hc
        rw [beq_iff_eq.mp hc]
        rfl
      · rename_i hc
        rw [dropPlaces_cons (by simpa using hc)]
  rw [same]
  exact reader_afterMark (solid_eq (by decide)) (reader_run solid_digitOrGap) reader_stop

/-- The digits of an exponent after its sign. -/
def dropPower : NumberPart :=
  afterMark isDigit (fun ds => .ok (ds.dropWhile isDigitOrGap)) fun ds => .error (.malformedExponent, ds)

theorem dropExponent_eq :
    dropExponent = afterMark (fun c => c == 'e' || c == 'E')
      (fun cs => .ok (dropSign cs) >>= dropPower) .ok := by
  funext cs
  cases cs with
  | nil => rfl
  | cons c cs =>
    have power (ds : List Char) : dropPower ds =
        if ds.head?.any isDigit then .ok (ds.dropWhile isDigitOrGap)
        else .error (.malformedExponent, ds) := by
      cases ds with
      | nil => rfl
      | cons d ds =>
        rw [dropPower, afterMark, List.head?_cons, Option.any_some]
        split
        · rename_i hd
          rw [List.dropWhile_cons_of_pos (isDigitOrGap_of_isDigit hd)]
        · rfl
    rw [afterMark, dropExponent]
    simp only [Bool.or_eq_true, beq_iff_eq]
    congr 1
    exact (power (dropSign cs)).symm

theorem reader_power : Reader dropPower :=
  reader_afterMark solid_digit (reader_run solid_digitOrGap) (reader_fault _)

theorem reader_exponent : Reader dropExponent := by
  rw [dropExponent_eq]
  refine reader_afterMark (solid_identPart.mono fun c hc => ?_) (reader_sign.bind reader_power)
    reader_stop
  obtain rfl | rfl : c = 'e' ∨ c = 'E' := by simpa using hc
  all_goals rfl

theorem reader_hex : Reader dropHex := by
  have same : dropHex = afterMark isHexDigit (fun ds => .ok (ds.dropWhile isHexDigit))
      fun ds => .error (.missingHexDigits, ds) := by
    funext cs
    cases cs with
    | nil => rfl
    | cons c cs =>
      rw [afterMark, dropHex]
      by_cases hc : isHexDigit c
      · have shorter := (List.dropWhile_suffix isHexDigit (l := cs)).length_le
        rw [List.dropWhile_cons_of_pos hc, if_pos hc, if_neg (by rw [List.length_cons]; omega)]
      · rw [List.dropWhile_cons_of_neg hc, if_neg hc, if_pos rfl]
  rw [same]
  exact reader_afterMark solid_hexDigit (reader_run solid_hexDigit) (reader_fault _)

theorem reader_settle : Reader settleNumber := by
  have same : settleNumber = afterMark (fun c => isLetter c || c == '_')
      (fun cs => .error (.strayInNumber, cs)) .ok := by
    funext cs
    cases cs with
    | nil => rfl
    | cons c cs => rfl
  rw [same]
  refine reader_afterMark (solid_identPart.mono fun c hc => ?_) (reader_fault _) reader_stop
  obtain hletter | rfl : isLetter c ∨ c = '_' := by simpa using hc
  · simp [isIdentPart, isAlphanumeric, hletter]
  · rfl

theorem reader_decimal : Reader dropDecimal :=
  ((reader_run solid_digitOrGap).bind reader_places).bind reader_exponent

theorem reader_hexMark : Reader (afterMark isHexMark dropHex dropDecimal) := by
  refine reader_afterMark (solid_identPart.mono fun c hc => ?_) reader_hex reader_decimal
  obtain rfl | rfl : c = 'x' ∨ c = 'X' := by simpa [isHexMark] using hc
  all_goals rfl

theorem reader_digits : Reader dropDigits :=
  reader_afterMark (solid_eq (by decide)) reader_hexMark reader_decimal

theorem reader_number : Reader dropNumber := by
  rw [show dropNumber = fun cs => dropDigits (dropSign cs) >>= settleNumber from funext dropNumber_eq]
  exact (reader_sign.bind reader_digits).bind reader_settle

theorem dropDecimal_point {ds mid : List Char} (h : dropDecimal ('.' :: ds) = .ok mid) :
    mid <:+ ds := by
  have power : dropExponent (ds.dropWhile isDigitOrGap) = .ok mid := h
  exact (reader_exponent.suffix power).trans (List.dropWhile_suffix _)

theorem dropDigits_digit {d : Char} (hd : isDigit d) {ds mid : List Char}
    (h : dropDigits (d :: ds) = .ok mid) : mid <:+ ds := by
  rw [dropDigits, afterMark] at h
  split at h
  · exact reader_hexMark.suffix h
  · rw [dropDecimal_digit (isDigitOrGap_of_isDigit hd)] at h
    exact reader_decimal.suffix h

/-- A number that starts with no digit has one more character at least. -/
theorem dropNumber_reaches {c d : Char} {ds rest : List Char} (hstart : startsNumber c (some d))
    (hc : ¬isDigit c) (h : dropNumber (c :: d :: ds) = .ok rest) : rest <:+ ds := by
  rw [dropNumber_eq] at h
  cases hmid : dropDigits (dropSign (c :: d :: ds)) with
  | error e =>
    rw [hmid] at h
    cases h
  | ok mid =>
    rw [hmid] at h
    refine (reader_settle.suffix h).trans ?_
    rw [dropSign] at hmid
    have start : (isSign c ∧ (isDigit d ∨ d = '.')) ∨ (c = '.' ∧ isDigit d) := by
      simpa [startsNumber, hc] using hstart
    obtain ⟨hsign, hd | rfl⟩ | ⟨rfl, hd⟩ := start
    · rw [if_pos hsign] at hmid
      exact dropDigits_digit hd hmid
    · rw [if_pos hsign] at hmid
      exact dropDecimal_point hmid
    · have places : dropDecimal ('.' :: ds) = .ok mid := by
        rw [← hmid]
        change dropExponent _ = dropExponent ((d :: ds).dropWhile isDigitOrGap)
        rw [List.dropWhile_cons_of_pos (isDigitOrGap_of_isDigit hd)]
        rfl
      exact dropDecimal_point places

/-! ## Strings -/

theorem escape_byte_take {pos n : Nat} {ds : List Char} {v : Char}
    (h : escape pos ('x' :: ds) = .ok (v, n)) :
    n ≤ ds.length + 1 ∧ ∀ pos' zs, escape pos' (('x' :: ds).take n ++ zs) = .ok (v, n) := by
  rw [escape] at h
  split at h
  · rename_i hlen
    cases h
    have htwo : 2 ≤ ds.length := by
      have := (List.takeWhile_prefix isHexDigit (l := ds.take 2)).length_le
      rw [hlen, List.length_take] at this
      omega
    refine ⟨Nat.succ_le_succ htwo, fun pos' zs => ?_⟩
    have kept : (ds.take 2 ++ zs).take 2 = ds.take 2 := by
      rw [List.take_append_of_le_length (by simp [htwo]), List.take_take, Nat.min_self]
    rw [List.take_succ_cons, List.cons_append, escape, kept, if_pos hlen]
  · cases h

/-- An escape with its digits in braces. -/
theorem escape_braces {pos : Nat} {digits zs : List Char} {v : Char}
    (hex : ∀ d ∈ digits, isHexDigit d) (filled : digits.length ≠ 0) (short : digits.length ≤ 6)
    (value : charOf? (ofHex digits) = some v) :
    escape pos ('u' :: '{' :: (digits ++ '}' :: zs)) = .ok (v, 3 + digits.length) := by
  have run : (digits ++ '}' :: zs).takeWhile isHexDigit = digits :=
    takeWhile_run hex (stops_cons (by decide) _)
  rw [escape]
  simp only [run, List.drop_left, List.head?_cons]
  rw [if_pos ⟨trivial, filled, short⟩, value]

theorem escape_braces_take {pos n : Nat} {ds : List Char} {v : Char}
    (h : escape pos ('u' :: '{' :: ds) = .ok (v, n)) :
    n ≤ ds.length + 2 ∧ ∀ pos' zs, escape pos' (('u' :: '{' :: ds).take n ++ zs) = .ok (v, n) := by
  rw [escape] at h
  split at h
  · rename_i hclosed
    split at h
    · rename_i c value
      cases h
      generalize hdigits : ds.takeWhile isHexDigit = digits at hclosed value
      obtain ⟨closed, filled, short⟩ := hclosed
      obtain ⟨more, hmore⟩ := List.head?_eq_some_iff.mp closed
      have hex : ∀ d ∈ digits, isHexDigit d := by
        rw [← hdigits]
        exact fun d hd => List.all_eq_true.mp List.all_takeWhile d hd
      have split : ds = (digits ++ ['}']) ++ more := by
        rw [List.append_assoc, List.singleton_append, ← hmore, ← hdigits, drop_takeWhile,
          List.takeWhile_append_dropWhile]
      have len : 3 + digits.length = (digits ++ ['}']).length + 2 := by simp; omega
      refine ⟨by rw [split, len]; simp only [List.length_append]; omega, fun pos' zs => ?_⟩
      have kept : ('u' :: '{' :: ds).take (3 + digits.length) ++ zs =
          'u' :: '{' :: (digits ++ '}' :: zs) := by
        rw [split, len, List.take_succ_cons, List.take_succ_cons, List.take_left]
        simp
      rw [kept, escape_braces hex filled short value]
    · cases h
  · cases h

theorem escape_simple {c u : Char} (simple : simpleEscape? c = some u) (pos : Nat) (zs : List Char) :
    escape pos (c :: zs) = .ok (u, 1) := by
  unfold escape
  split
  · rename_i heq
    obtain ⟨rfl, -⟩ := List.cons.inj heq
    cases simple
  · rename_i heq
    obtain ⟨rfl, -⟩ := List.cons.inj heq
    cases simple
  · rename_i heq
    obtain ⟨rfl, -⟩ := List.cons.inj heq
    rw [simple]
  · rename_i heq
    cases heq

/-- An escape does not depend on what follows it. -/
theorem escape_take {pos n : Nat} {cs : List Char} {v : Char} (h : escape pos cs = .ok (v, n)) :
    n ≤ cs.length ∧ ∀ pos' zs, escape pos' (cs.take n ++ zs) = .ok (v, n) := by
  have hescape := h
  unfold escape at h
  split at h
  · exact escape_byte_take hescape
  · exact escape_braces_take hescape
  · split at h
    · rename_i u simple
      cases h
      exact ⟨by simp, fun pos' zs => escape_simple simple pos' zs⟩
    · cases h
  · cases h

/-- A string does not depend on what follows it. -/
theorem stringBody_take {quote : Char} {start pos n : Nat} {cs vs : List Char}
    (h : stringBody quote start pos cs = .ok (vs, n)) :
    n ≤ cs.length ∧ ∀ start' pos' zs,
      stringBody quote start' pos' (cs.take n ++ zs) = .ok (vs, n) := by
  fun_induction stringBody quote start pos cs generalizing vs n with
  | case1 => cases h
  | case2 => cases h
  | case3 =>
    cases h
    rename_i hline
    refine ⟨by simp, fun start' pos' zs => ?_⟩
    rw [List.take_succ_cons, List.cons_append, stringBody, if_neg hline, if_pos rfl]
  | case4 => cases h
  | case5 => cases h
  | case6 pos cs v k hescape vs m hmore hline hq ih =>
    cases h
    obtain ⟨hk, escaped⟩ := escape_take hescape
    obtain ⟨hm, rest⟩ := ih hmore
    rw [List.length_drop] at hm
    refine ⟨by simp only [List.length_cons]; omega, fun start' pos' zs => ?_⟩
    have kept : ('\\' :: cs).take (1 + k + m) ++ zs =
        '\\' :: (cs.take k ++ ((cs.drop k).take m ++ zs)) := by
      rw [show 1 + k + m = (k + m) + 1 by omega, List.take_succ_cons, List.take_add]
      simp
    have len : (cs.take k).length = k := List.length_take_of_le hk
    rw [kept, stringBody, if_neg hline, if_neg hq, if_pos rfl, escaped]
    dsimp only
    rw [List.take_left' len, List.drop_left' len, rest]
  | case7 => cases h
  | case8 pos c cs hline hq hb vs m hmore ih =>
    cases h
    obtain ⟨hm, rest⟩ := ih hmore
    refine ⟨by simp only [List.length_cons]; omega, fun start' pos' zs => ?_⟩
    have kept : (c :: cs).take (1 + m) ++ zs = c :: (cs.take m ++ zs) := by
      rw [Nat.add_comm, List.take_succ_cons, List.cons_append]
    rw [kept, stringBody, if_neg hline, if_neg hq, if_neg hb, rest]

/-! ## Pieces -/

/-- A comment of one line ends where it did. -/
theorem lineRun_replace {front back back' : List Char} (hback : Replaces back back')
    (h : lineRun (front ++ back) = front.length) : lineRun (front ++ back') = front.length := by
  obtain ⟨plain, ends⟩ := lineRun_append.mp h
  refine lineRun_append.mpr ⟨plain, ?_⟩
  cases back' with
  | nil => exact .inl rfl
  | cons c cs =>
    right
    obtain same | rfl | ⟨-, d, hd, goes⟩ := hback c rfl
    · obtain rfl | ends := ends
      · cases same
      · exact same.symm.trans ends ▸ rfl
    · rfl
    · obtain rfl | ends := ends
      · cases hd
      · exact absurd (Option.some.inj (hd.symm.trans ends)) goes

theorem lexemeAt_hash (pos : Nat) (cs : List Char) :
    lexemeAt pos '#' cs = .ok (none, lineRun cs) := by
  rw [lexemeAt, if_pos (.inl rfl)]

/-- What a `/` starts. -/
theorem lexemeAt_slash_ok {pos n : Nat} {cs : List Char} {kind : Option TokenKind}
    (h : lexemeAt pos '/' cs = .ok (kind, n)) :
    kind = none ∧ ((cs.head? = some '/' ∧ n = lineRun cs) ∨
      ∃ ds m, cs = '*' :: ds ∧ runThrough ['*', '/'] ds = some m ∧ n = m + 1) := by
  unfold lexemeAt at h
  split at h
  · rename_i line
    cases h
    exact ⟨rfl, .inl ⟨(line.resolve_left (by decide)).2, rfl⟩⟩
  split at h
  · rename_i block
    obtain ⟨ds, rfl⟩ := List.head?_eq_some_iff.mp block.2
    split at h
    · rename_i m run
      cases h
      exact ⟨rfl, .inr ⟨ds, m, rfl, run, rfl⟩⟩
    · cases h
  rw [if_neg (by decide), if_neg (by decide), if_neg (by simp [startsNumber, isDigit, isSign]),
    if_neg (by decide)] at h
  cases h

theorem lexemeAt_slash {pos : Nat} {cs : List Char} :
    lexemeAt pos '/' ('/' :: cs) = .ok (none, lineRun ('/' :: cs)) := by
  rw [lexemeAt, if_pos (.inr ⟨rfl, rfl⟩)]

theorem lexemeAt_block {pos m : Nat} {cs : List Char} (h : runThrough ['*', '/'] cs = some m) :
    lexemeAt pos '/' ('*' :: cs) = .ok (none, m + 1) := by
  rw [lexemeAt, if_neg (by simp), if_pos ⟨rfl, rfl⟩, List.drop_one, List.tail_cons, h]

/-- A number stays what it is where another text comes after it. -/
theorem dropNumber_replace {c : Char} {front back back' rest : List Char}
    (hback : Replaces back back') (h : dropNumber (c :: (front ++ back)) = .ok rest)
    (hlen : (front ++ back).length - rest.length = front.length) :
    ∃ rest', dropNumber (c :: (front ++ back')) = .ok rest' ∧
      (front ++ back').length - rest'.length = front.length := by
  have left := reader_number.suffix h
  obtain short | none : rest.length = back.length ∨ front = [] ∧ rest = c :: back := by
    have fits := left.length_le
    rw [List.length_append] at hlen
    rw [List.length_cons, List.length_append] at fits
    by_cases all : rest.length ≤ front.length + back.length
    · exact .inl (by omega)
    · obtain rfl := List.eq_nil_of_length_eq_zero (l := front) (by omega)
      exact .inr ⟨rfl, left.eq_of_length (by simp at fits all ⊢; omega)⟩
  · have after : back <:+ c :: (front ++ back) := List.suffix_append (c :: front) back
    obtain rfl := (List.suffix_of_suffix_length_le left after short.le).eq_of_length short
    have own : dropNumber ((c :: front) ++ rest) = .ok rest := h
    exact ⟨back', reader_number.swap hback own, by simp⟩
  · obtain ⟨rfl, rfl⟩ := none
    have whole : dropNumber ([] ++ (c :: back)) = .ok (c :: back) := h
    exact ⟨c :: back', reader_number.swap (hback.append [c]) whole, by simp⟩

theorem startsNumber_replace {c : Char} {front back back' rest : List Char}
    (hstart : startsNumber c (front ++ back).head?)
    (h : dropNumber (c :: (front ++ back)) = .ok rest)
    (hlen : (front ++ back).length - rest.length = front.length) :
    startsNumber c (front ++ back').head? := by
  cases front with
  | cons d front => exact hstart
  | nil =>
    by_cases hc : isDigit c
    · simp [startsNumber, hc]
    · rw [List.nil_append] at hstart h hlen
      cases back with
      | nil => simp [startsNumber, hc] at hstart
      | cons d ds =>
        have reach := (dropNumber_reaches hstart hc h).length_le
        rw [List.length_cons, List.length_nil] at hlen
        omega

/-- A comment stays what it is where another text comes after it. -/
theorem lexemeAt_slash_replace {pos : Nat} {front back back' : List Char} {kind : Option TokenKind}
    (hback : Replaces back back') (h : lexemeAt pos '/' (front ++ back) = .ok (kind, front.length))
    (pos' : Nat) : lexemeAt pos' '/' (front ++ back') = .ok (kind, front.length) := by
  obtain ⟨rfl, ⟨head, line⟩ | ⟨ds, m, split, run, len⟩⟩ := lexemeAt_slash_ok h
  · cases front with
    | nil =>
      obtain ⟨ds, rfl⟩ := List.head?_eq_some_iff.mp head
      cases line
    | cons d front =>
      obtain rfl := Option.some.inj head
      rw [List.cons_append, lexemeAt_slash, ← List.cons_append, lineRun_replace hback line.symm]
  · cases front with
    | nil => cases len
    | cons d front =>
      rw [List.cons_append] at split
      obtain ⟨rfl, rfl⟩ := List.cons.inj split
      obtain rfl : front.length = m := Nat.succ.inj len
      have run := (runThrough_take (by simp) run).2.2 back'
      rw [List.take_left] at run
      rw [List.cons_append, lexemeAt_block run, List.length_cons]

/-- A run of characters stays what it is where another text comes after it. -/
theorem takeWhile_replace {p : Char → Bool} (solid : Solid p) {front back back' : List Char}
    (hback : Replaces back back') (h : ((front ++ back).takeWhile p).length = front.length) :
    (front ++ back).takeWhile p = front ∧ (front ++ back').takeWhile p = front := by
  have split := List.takeWhile_append_dropWhile (p := p) (l := front ++ back)
  obtain ⟨run, rest⟩ := List.append_inj split h
  have all : ∀ d ∈ front, p d := by
    rw [← run]
    exact fun d hd => List.all_eq_true.mp List.all_takeWhile d hd
  have stop : stops p back := rest ▸ stops_dropWhile p _
  exact ⟨run, takeWhile_run all (hback.stops solid stop)⟩

/-- A mark of one character starts no number. -/
theorem not_startsNumber_symbol {c : Char} {symbol : TokenKind} (h : symbol? c = some symbol)
    (next : Option Char) : ¬startsNumber c next := by
  unfold symbol? at h
  split at h <;> first | (simp [startsNumber, isDigit, isSign]; done) | cases h

/-- A piece stays what it is where another text comes after it. -/
theorem lexemeAt_replace {pos : Nat} {c : Char} {front back back' : List Char}
    {kind : Option TokenKind} (hback : Replaces back back')
    (h : lexemeAt pos c (front ++ back) = .ok (kind, front.length)) (pos' : Nat) :
    lexemeAt pos' c (front ++ back') = .ok (kind, front.length) := by
  by_cases hash : c = '#'
  · subst hash
    rw [lexemeAt_hash] at h ⊢
    obtain ⟨rfl, line⟩ := Prod.mk.inj (Except.ok.inj h)
    rw [lineRun_replace hback line]
  by_cases slash : c = '/'
  · subst slash
    exact lexemeAt_slash_replace hback h pos'
  have line (d : Option Char) : ¬(c = '#' ∨ (c = '/' ∧ d = some '/')) := by simp [hash, slash]
  have block (d : Option Char) : ¬(c = '/' ∧ d = some '*') := by simp [slash]
  unfold lexemeAt at h ⊢
  rw [if_neg (line _), if_neg (block _)] at h ⊢
  by_cases blank : isBlank c
  · rw [if_pos blank] at h ⊢
    exact h
  rw [if_neg blank] at h ⊢
  by_cases ident : isIdentStart c
  · rw [if_pos ident] at h ⊢
    obtain ⟨rfl, len⟩ := Prod.mk.inj (Except.ok.inj h)
    obtain ⟨run, run'⟩ := takeWhile_replace solid_identPart hback len
    rw [run', run]
  rw [if_neg ident] at h ⊢
  by_cases number : startsNumber c (front ++ back).head?
  · rw [if_pos number] at h
    split at h
    · rename_i rest hrest
      obtain ⟨rfl, len⟩ := Prod.mk.inj (Except.ok.inj h)
      obtain ⟨rest', hrest', len'⟩ := dropNumber_replace hback hrest len
      rw [if_pos (startsNumber_replace number hrest len), hrest']
      dsimp only
      rw [len, len', List.take_left, List.take_left]
    · cases h
  rw [if_neg number] at h
  by_cases quote : c = '"' ∨ c = '\''
  · rw [if_pos quote] at h
    rw [if_neg (by obtain rfl | rfl := quote <;> simp [startsNumber, isDigit, isSign]), if_pos quote]
    split at h
    · rename_i value n body
      obtain ⟨rfl, rfl⟩ := Prod.mk.inj (Except.ok.inj h)
      have body := (stringBody_take body).2 pos' (pos' + 1) back'
      rw [List.take_left] at body
      rw [body]
    · cases h
  rw [if_neg quote] at h
  cases hsymbol : symbol? c with
  | none =>
    rw [hsymbol] at h
    cases h
  | some symbol =>
    rw [hsymbol] at h
    rw [if_neg (not_startsNumber_symbol hsymbol _), if_neg quote]
    exact h

/-- A piece is a part of its text. -/
theorem lexemeAt_fits {pos n : Nat} {c : Char} {cs : List Char} {kind : Option TokenKind}
    (h : lexemeAt pos c cs = .ok (kind, n)) : n ≤ cs.length := by
  unfold lexemeAt at h
  split at h
  · cases h
    exact (List.takeWhile_prefix _).length_le
  split at h
  · rename_i block
    split at h
    · rename_i m run
      cases h
      obtain ⟨ds, rfl⟩ := List.head?_eq_some_iff.mp block.2
      exact Nat.succ_le_succ (runThrough_take (by simp) run).2.1
    · cases h
  split at h
  · cases h
    exact Nat.zero_le _
  split at h
  · cases h
    exact (List.takeWhile_prefix _).length_le
  split at h
  · split at h <;> cases h
    exact Nat.sub_le ..
  split at h
  · split at h
    · rename_i body
      cases h
      exact (stringBody_take body).1
    · cases h
  · split at h <;> cases h
    exact Nat.zero_le _

/-! ## Expressions -/

/-- An expression stops at the end of the text, or at the mark that closes its statement. -/
theorem segments_stop {start pos depth : Nat} {cs rest : List Char} {parts : List Segment}
    (h : segments start pos depth cs = .ok parts) (hcs : cs = parts.flatMap (·.written) ++ rest) :
    ∀ c ∈ rest.head?, c = ';' ∨ c = '}' := by
  fun_induction segments start pos depth cs generalizing parts with
  | case1 =>
    cases h
    obtain rfl : [] = rest := hcs
    simp
  | case2 => cases h
  | case3 pos depth c cs hend =>
    cases h
    obtain rfl : c :: cs = rest := hcs
    rintro d hd
    obtain rfl := Option.some.inj hd
    exact hend.2
  | case4 => cases h
  | case5 => cases h
  | case6 pos depth c cs hend n meant hpart depth' written more hmore =>
    rename_i ih
    cases h
    refine ih hmore ?_
    rw [List.flatMap_cons, List.append_assoc] at hcs
    have same : written ++ cs.drop n = written ++ (more.flatMap (·.written) ++ rest) := by
      rw [← hcs]
      simp [written]
    exact List.append_cancel_left same

/-- A part of an expression is the same wherever it stands. -/
theorem segmentAt_moved {pos n : Nat} {c : Char} {cs part : List Char}
    (h : segmentAt pos c cs = .ok (n, part)) (pos' : Nat) : segmentAt pos' c cs = .ok (n, part) := by
  unfold segmentAt at h ⊢
  by_cases escaped : c = '\\' ∧ cs.head? = some ';'
  · rwa [if_pos escaped] at h ⊢
  rw [if_neg escaped] at h ⊢
  by_cases quote : c = '"' ∨ c = '\''
  · rw [if_pos quote] at h ⊢
    cases run : quoteRun c cs with
    | mk m closed =>
      rw [run] at h
      cases closed with
      | false => cases h
      | true => exact h
  rw [if_neg quote] at h ⊢
  by_cases bracket : c = '['
  · rw [if_pos bracket] at h ⊢
    cases hlevel : longLevel? cs with
    | none => rwa [hlevel] at h
    | some level =>
      rw [hlevel] at h
      dsimp only at h ⊢
      cases hrun : runThrough (longClose level) (cs.drop (level + 1)) with
      | none =>
        rw [hrun] at h
        cases h
      | some m => rwa [hrun] at h
  rwa [if_neg bracket] at h ⊢

theorem segments_moved {start pos depth : Nat} {cs : List Char} {parts : List Segment}
    (h : segments start pos depth cs = .ok parts) (start' pos' : Nat) :
    segments start' pos' depth cs = .ok parts := by
  fun_induction segments start pos depth cs generalizing parts pos' with
  | case1 =>
    cases h
    rw [segments, if_pos rfl]
  | case2 => cases h
  | case3 pos depth c cs hend =>
    cases h
    exact segments_end hend ..
  | case4 => cases h
  | case5 => cases h
  | case6 pos depth c cs hend n meant hpart depth' written more hmore =>
    rename_i ih
    cases h
    exact segments_step hend (segmentAt_moved hpart pos') (ih hmore _)

/-- What follows a mark in an expression is not seen before the mark. -/
theorem alike_mark {mark : Char} (hmark : mark ≠ '=') (cs back back' : List Char) :
    Alike (cs ++ mark :: back) (cs ++ mark :: back') where
  dash := by cases cs <;> rfl
  line := by cases cs <;> rfl
  level := by
    induction cs with
    | nil =>
      rw [List.nil_append, List.nil_append, longLevel?_cons, longLevel?_cons, if_neg hmark,
        if_neg hmark]
    | cons c cs ih => rw [List.cons_append, List.cons_append, longLevel?_cons, longLevel?_cons, ih]

theorem segmentAt_replace {mark : Char} (hmark : mark ≠ '=') {pos : Nat} {c : Char}
    {own rest back part : List Char}
    (h : segmentAt pos c (own ++ (rest ++ mark :: back)) = .ok (own.length, part))
    (back' : List Char) :
    segmentAt pos c (own ++ (rest ++ mark :: back')) = .ok (own.length, part) := by
  by_cases hc : c = '\\'
  · subst hc
    have head : (own ++ (rest ++ mark :: back)).head? = (own ++ (rest ++ mark :: back')).head? := by
      cases own <;> cases rest <;> rfl
    by_cases escaped : (own ++ (rest ++ mark :: back)).head? = some ';'
    · obtain ⟨ds, hds⟩ := List.head?_eq_some_iff.mp escaped
      obtain ⟨ds', hds'⟩ := List.head?_eq_some_iff.mp (head ▸ escaped)
      rw [hds, segmentAt_escaped] at h
      rw [hds', segmentAt_escaped, h]
    · rw [segmentAt_backslash pos escaped] at h
      rw [segmentAt_backslash pos (head ▸ escaped), h]
  · have whole := segmentAt_alike hc h (fun _ => by simp) (alike_mark hmark rest back back') pos
    obtain ⟨front, after, split, len, rfl⟩ := segmentAt_ok hc h
    obtain rfl := List.append_inj_left split len
    exact whole

/-- An expression stays what it is where another text comes after the mark that closes it. -/
theorem segments_replace {start pos depth : Nat} {cs back : List Char} {mark : Char}
    {parts : List Segment} (h : segments start pos depth cs = .ok parts)
    (hcs : cs = parts.flatMap (·.written) ++ mark :: back) (hmark : mark ≠ '=') (back' : List Char) :
    segments start pos depth (parts.flatMap (·.written) ++ mark :: back') = .ok parts := by
  fun_induction segments start pos depth cs generalizing parts with
  | case1 => cases h; cases hcs
  | case2 => cases h
  | case3 pos depth c cs hend =>
    cases h
    obtain ⟨rfl, rfl⟩ := List.cons.inj hcs
    exact segments_end hend ..
  | case4 => cases h
  | case5 => cases h
  | case6 pos depth c cs hend n meant hpart depth' written more hmore =>
    rename_i ih
    cases h
    have rest : cs.drop n = more.flatMap (·.written) ++ mark :: back := by
      rw [List.flatMap_cons, List.append_assoc, List.cons_append, List.cons.injEq] at hcs
      exact List.append_cancel_left ((List.take_append_drop n cs).trans hcs.2)
    have fits : n ≤ cs.length := by
      have := congrArg List.length rest
      simp only [List.length_drop, List.length_append, List.length_cons] at this
      omega
    have split : cs = cs.take n ++ (more.flatMap (·.written) ++ mark :: back) := by
      rw [← rest, List.take_append_drop]
    have len : (cs.take n).length = n := List.length_take_of_le fits
    have part : segmentAt pos c (cs.take n ++ (more.flatMap (·.written) ++ mark :: back)) =
        .ok ((cs.take n).length, meant) := by rwa [← split, len]
    have here := segmentAt_replace hmark part back'
    have later := ih hmore rest
    rw [List.flatMap_cons, List.append_assoc]
    refine (segments_part hend here).trans ?_
    rw [List.take_left, List.drop_left]
    exact congrArg (Except.map _) later

end EnvManifest
