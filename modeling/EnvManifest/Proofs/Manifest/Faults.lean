import EnvManifest.Proofs.Manifest.Tiling

/-!
# Where a text has no tokens

A fault has a span: it starts at the piece that cannot be read and ends where the reader has got to.
Both ends are places of the text, but for one fault: after the backslash of an unknown escape one
byte is counted, whatever stands there.
-/

namespace EnvManifest

open Text

/-! ## Characters of one byte -/

def isAscii (c : Char) : Bool := c.utf8Size == 1

theorem isAscii_of_toNat {c : Char} (h : c.toNat ≤ 127) : isAscii c :=
  beq_iff_eq.mpr (Char.utf8Size_eq_one_iff.mpr (UInt32.le_iff_toNat_le.mpr h))

theorem byteLength_of_isAscii {cs : List Char} (h : ∀ c ∈ cs, isAscii c) :
    byteLength cs = cs.length := by
  induction cs with
  | nil => rfl
  | cons c cs ih =>
    obtain ⟨hc, h⟩ := List.forall_mem_cons.mp h
    rw [byteLength_cons, ih h, beq_iff_eq.mp hc, List.length_cons, Nat.add_comm]

theorem isAscii_of_isDigit {c : Char} (h : isDigit c) : isAscii c :=
  isAscii_of_toNat (by have := toNat_of_isDigit h; omega)

theorem isAscii_of_isLetter {c : Char} (h : isLetter c) : isAscii c :=
  isAscii_of_toNat (by have := toNat_of_isLetter h; omega)

theorem isAscii_of_isHexDigit {c : Char} (h : isHexDigit c) : isAscii c := by
  simp only [isHexDigit, hexValue?, Char.le_def, UInt32.le_iff_toNat_le] at h
  refine isAscii_of_toNat ?_
  split at h
  · rename_i hc
    exact hc.2.trans (by decide)
  split at h
  · rename_i hc
    exact hc.2.trans (by decide)
  split at h
  · rename_i hc
    exact hc.2.trans (by decide)
  · cases h

theorem isAscii_covers : Covers isAscii where
  gap c h := by
    obtain h | rfl : isDigit c ∨ c = '_' := by simpa [isDigitOrGap] using h
    · exact isAscii_of_isDigit h
    · rfl
  sign c h := by
    obtain rfl | rfl : c = '-' ∨ c = '+' := by simpa [isSign] using h
    all_goals rfl
  mark := by
    rintro c (rfl | rfl | rfl) <;> rfl

/-! ## Places of faults -/

/-- Where the span of a fault ends, with the text from its start on. -/
inductive LexError.Ends (e : LexError) : List Char → Prop
  | known {own back : List Char} (known : e.fault ≠ .unknownEscape)
      (stops : e.span.stop = e.span.start + byteLength own) : e.Ends (own ++ back)
  /-- An unknown escape is two bytes, whatever follows its backslash. -/
  | unknown {rest : List Char} (unknown : e.fault = .unknownEscape)
      (stops : e.span.stop = e.span.start + 2) : e.Ends ('\\' :: rest)

/-- The span of a fault stands in a text that starts at a byte offset. It starts with a character
that is no blank. -/
def LexError.StandsIn (e : LexError) (pos : Nat) (cs : List Char) : Prop :=
  ∃ front c rest, cs = front ++ c :: rest ∧ e.span.start = pos + byteLength front ∧ ¬isBlank c ∧
    e.Ends (c :: rest)

/-- A fault of a text inside something that starts before: that is not closed, or the fault stands
in the text. -/
def LexError.StandsFrom (e : LexError) (start pos : Nat) (cs : List Char) : Prop :=
  (e.fault ≠ .unknownEscape ∧ e.span.start = start ∧
      ∃ own back, cs = own ++ back ∧ e.span.stop = pos + byteLength own) ∨
    e.StandsIn pos cs

section

variable {e : LexError} {fault : LexFault} {start pos stop : Nat} {c : Char}
  {front cs own back : List Char}

theorem LexError.StandsIn.later (h : e.StandsIn (pos + byteLength front) cs) :
    e.StandsIn pos (front ++ cs) := by
  obtain ⟨more, c, rest, rfl, starts, visible, ends⟩ := h
  exact ⟨front ++ more, c, rest, by simp, by rw [starts, byteLength_append, Nat.add_assoc], visible, ends⟩

/-- A fault of the piece that starts a text. -/
theorem LexError.StandsIn.here (known : fault ≠ .unknownEscape) (visible : ¬isBlank c)
    (text : c :: cs = own ++ back) (stops : stop = pos + byteLength own) :
    LexError.StandsIn ⟨fault, ⟨pos, stop⟩⟩ pos (c :: cs) :=
  ⟨[], c, cs, rfl, rfl, visible, by rw [text]; exact .known known stops⟩

/-- A fault whose span has only characters of one byte. -/
theorem LexError.StandsIn.counted (known : fault ≠ .unknownEscape) (visible : ¬isBlank c)
    (text : c :: cs = own ++ back) (ascii : ∀ d ∈ own, isAscii d) (stops : stop = pos + own.length) :
    LexError.StandsIn ⟨fault, ⟨pos, stop⟩⟩ pos (c :: cs) :=
  .here known visible text (by rw [byteLength_of_isAscii ascii, stops])

theorem LexError.StandsFrom.later (h : e.StandsFrom start (pos + byteLength front) cs) :
    e.StandsFrom start pos (front ++ cs) := by
  obtain ⟨known, starts, own, back, rfl, stops⟩ | h := h
  · refine .inl ⟨known, starts, front ++ own, back, by simp, ?_⟩
    rw [stops, byteLength_append, Nat.add_assoc]
  · exact .inr h.later

theorem LexError.StandsFrom.whole (h : e.StandsFrom pos pos (c :: cs)) (visible : ¬isBlank c) :
    e.StandsIn pos (c :: cs) := by
  obtain ⟨known, starts, own, back, text, stops⟩ | h := h
  · refine ⟨[], c, cs, rfl, starts, visible, ?_⟩
    rw [text]
    exact .known known (by rw [stops, starts])
  · exact h

end

/-! ## Strings -/

theorem unknownEscape_standsIn (pos : Nat) (cs : List Char) :
    LexError.StandsIn ⟨.unknownEscape, ⟨pos, pos + 2⟩⟩ pos ('\\' :: cs) :=
  ⟨[], '\\', cs, rfl, rfl, by decide, .unknown rfl rfl⟩

theorem escape_error {pos : Nat} {cs : List Char} {e : LexError} (h : escape pos cs = .error e) :
    e.StandsIn pos ('\\' :: cs) := by
  have visible : ¬isBlank '\\' := by decide
  have digits (ds : List Char) : ∀ c ∈ ds.takeWhile isHexDigit, isAscii c := fun c hc =>
    isAscii_of_isHexDigit (List.all_eq_true.mp List.all_takeWhile c hc)
  unfold escape at h
  split at h
  · rename_i ds
    dsimp only at h
    split at h
    · cases h
    · cases h
      obtain ⟨back, hback⟩ := (List.takeWhile_prefix isHexDigit).trans (List.take_prefix 2 ds)
      have ascii := List.forall_mem_append.mpr
        ⟨(List.all_eq_true.mp rfl : ∀ c ∈ ['\\', 'x'], isAscii c), digits (ds.take 2)⟩
      have text : '\\' :: 'x' :: ds =
          ['\\', 'x'] ++ (ds.take 2).takeWhile isHexDigit ++ back := by simp [hback]
      refine .counted (by simp) visible text ascii ?_
      simp only [List.length_append, List.length_cons, List.length_nil]
      omega
  · rename_i ds
    have hds : ds.takeWhile isHexDigit ++ ds.dropWhile isHexDigit = ds :=
      List.takeWhile_append_dropWhile
    simp only [drop_takeWhile] at h
    split at h
    · rename_i closed
      split at h
      · cases h
      · cases h
        obtain ⟨back, hback⟩ := List.head?_eq_some_iff.mp closed.1
        have ascii := List.forall_mem_append.mpr
          ⟨(List.all_eq_true.mp rfl : ∀ c ∈ ['\\', 'u', '\x7b'], isAscii c), List.forall_mem_append.mpr
            ⟨digits ds, (List.all_eq_true.mp rfl : ∀ c ∈ ['\x7d'], isAscii c)⟩⟩
        rw [hback] at hds
        have text : '\\' :: 'u' :: '\x7b' :: ds =
            ['\\', 'u', '\x7b'] ++ (ds.takeWhile isHexDigit ++ ['\x7d']) ++ back := by simp [hds]
        refine .counted (by simp) visible text ascii ?_
        simp only [List.length_append, List.length_cons, List.length_nil]
        omega
    · cases h
      have ascii := List.forall_mem_append.mpr
        ⟨(List.all_eq_true.mp rfl : ∀ c ∈ ['\\', 'u', '\x7b'], isAscii c), digits ds⟩
      have text : '\\' :: 'u' :: '\x7b' :: ds =
          ['\\', 'u', '\x7b'] ++ ds.takeWhile isHexDigit ++ ds.dropWhile isHexDigit := by simp [hds]
      refine .counted (by simp) visible text ascii ?_
      simp only [List.length_append, List.length_cons, List.length_nil]
      omega
  · split at h
    · cases h
    · cases h
      exact unknownEscape_standsIn ..
  · cases h
    exact unknownEscape_standsIn ..

theorem stringBody_error {quote : Char} {start pos : Nat} {cs : List Char} {e : LexError}
    (h : stringBody quote start pos cs = .error e) : e.StandsFrom start pos cs := by
  fun_induction stringBody quote start pos cs with
  | case1 =>
    cases h
    exact .inl ⟨by simp, rfl, [], [], rfl, rfl⟩
  | case2 pos cs =>
    cases h
    exact .inl ⟨by simp, rfl, [], _, rfl, rfl⟩
  | case3 => cases h
  | case4 pos cs e' hescape =>
    cases h
    exact .inr (escape_error hescape)
  | case5 pos cs v n hescape e' hmore hline hq ih =>
    cases h
    have text : '\\' :: cs = ('\\' :: cs.take n) ++ cs.drop n := by simp
    have more : e.StandsFrom start (pos + byteLength ('\\' :: cs.take n)) (cs.drop n) := by
      rw [byteLength_cons, ← Nat.add_assoc]
      exact ih hmore
    rw [text]
    exact more.later
  | case6 => cases h
  | case7 pos c cs hline hq hb e' hmore ih =>
    cases h
    have more : e.StandsFrom start (pos + byteLength [c]) cs := ih hmore
    exact more.later
  | case8 => cases h

/-! ## Numbers -/

/-- The fault of a number comes after characters of one byte. -/
def LexFault.ComesAfter (fault : LexFault) (cs rest : List Char) : Prop :=
  fault ≠ .unknownEscape ∧ Drops isAscii cs rest

section

variable {cs rest : List Char} {fault : LexFault}

theorem LexFault.ComesAfter.later {ds : List Char} (h : fault.ComesAfter ds rest)
    (drops : Drops isAscii cs ds) : fault.ComesAfter cs rest :=
  ⟨h.1, drops.trans h.2⟩

theorem dropExponent_error (h : dropExponent cs = .error (fault, rest)) : fault.ComesAfter cs rest := by
  unfold dropExponent at h
  split at h
  · split at h
    · rename_i c cs hc
      dsimp only at h
      split at h
      · cases h
      · cases h
        exact ⟨by simp, (drops_one (isAscii_covers.mark c (.inr hc))).trans
          (drops_sign isAscii_covers.sign cs)⟩
    · cases h
  · cases h

theorem settleNumber_error (h : settleNumber cs = .error (fault, rest)) : fault.ComesAfter cs rest := by
  unfold settleNumber at h
  split at h
  · rename_i stray
    cases h
    obtain ⟨c, hc, letter⟩ := (Option.any_eq_true _ _).mp stray
    obtain ⟨more, rfl⟩ := List.head?_eq_some_iff.mp hc
    refine ⟨by simp, drops_one ?_⟩
    obtain letter | rfl : isLetter c ∨ c = '_' := by simpa using letter
    · exact isAscii_of_isLetter letter
    · rfl
  · cases h

theorem dropNumber_error (h : dropNumber cs = .error (fault, rest)) : fault.ComesAfter cs rest := by
  -- The digits end in a fault of their own, or something stray follows them.
  have settled {r : Except (LexFault × List Char) (List Char)} {body : List Char}
      (ok : ∀ ds, r = .ok ds → Drops isAscii body ds)
      (error : r = .error (fault, rest) → fault.ComesAfter body rest)
      (hr : r >>= settleNumber = .error (fault, rest)) : fault.ComesAfter body rest := by
    cases r with
    | error e => exact error hr
    | ok ds => exact (settleNumber_error hr).later (ok ds rfl)
  have sign := drops_sign isAscii_covers.sign cs
  by_cases hex : ∃ x ds, dropSign cs = '0' :: x :: ds ∧ isHexMark x
  · obtain ⟨x, ds, hcs, hx⟩ := hex
    rw [dropNumber_hex hcs hx] at h
    rw [hcs] at sign
    have mark : isAscii x := by
      obtain rfl | rfl : x = 'x' ∨ x = 'X' := by simpa [isHexMark] using hx
      all_goals rfl
    have digits : Drops isAscii cs ds := sign.trans ((drops_one rfl).trans (drops_one mark))
    unfold dropHex at h
    refine (settled (fun more hmore => ?_) (fun hmore => ?_) h).later digits
    · split at hmore
      · cases hmore
      · cases hmore
        exact drops_dropWhile (fun _ => isAscii_of_isHexDigit) ds
    · split at hmore
      · cases hmore
        exact ⟨by simp, drops_refl⟩
      · cases hmore
  · rw [dropNumber_decimal fun x ds hcs hx => hex ⟨x, ds, hcs, hx⟩] at h
    refine (settled (fun _ => isAscii_covers.drops_decimal) (fun hmore => ?_) h).later sign
    exact (dropExponent_error hmore).later
      ((drops_dropWhile isAscii_covers.gap _).trans (isAscii_covers.drops_places _))

end

theorem isAscii_of_startsNumber {c : Char} {next : Option Char} (h : startsNumber c next) :
    isAscii c := by
  simp only [startsNumber, Bool.or_eq_true, Bool.and_eq_true, beq_iff_eq] at h
  obtain (digit | ⟨sign, -⟩) | ⟨rfl, -⟩ := h
  · exact isAscii_of_isDigit digit
  · exact isAscii_covers.sign c sign
  · rfl

/-- The fault of a number is counted in characters from its start. -/
theorem number_standsIn {pos : Nat} {c : Char} {cs rest : List Char} {fault : LexFault}
    (hstart : startsNumber c cs.head?) (visible : ¬isBlank c)
    (h : dropNumber (c :: cs) = .error (fault, rest)) :
    LexError.StandsIn ⟨fault, ⟨pos, pos + 1 + (cs.length - rest.length)⟩⟩ pos (c :: cs) := by
  obtain ⟨known, own, hown, ascii⟩ := dropNumber_error h
  cases own with
  | nil =>
    obtain rfl : c :: cs = rest := hown
    have single : ∀ d ∈ [c], isAscii d := by simpa using isAscii_of_startsNumber hstart
    have text : c :: cs = [c] ++ cs := rfl
    exact .counted known visible text single (by simp)
  | cons d own =>
    refine .counted known visible hown ascii ?_
    rw [List.cons_append, List.cons.injEq] at hown
    obtain ⟨rfl, rfl⟩ := hown
    simp only [List.length_append, List.length_cons]
    omega

/-! ## Pieces -/

theorem lexemeAt_error {pos : Nat} {c : Char} {cs : List Char} {e : LexError}
    (h : lexemeAt pos c cs = .error e) : e.StandsIn pos (c :: cs) := by
  unfold lexemeAt at h
  split at h
  · cases h
  split at h
  · rename_i hmark
    split at h
    · cases h
    · cases h
      obtain ⟨rfl, -⟩ := hmark
      refine .here (by simp) (by decide) (List.append_nil _).symm ?_
      rw [byteLength_cons, ← Nat.add_assoc]
      rfl
  split at h
  · cases h
  rename_i visible
  split at h
  · cases h
  split at h
  · rename_i hstart
    split at h
    · cases h
    · rename_i fault rest hrest
      cases h
      exact number_standsIn hstart visible hrest
  split at h
  · rename_i hquote
    split at h
    · cases h
    · rename_i e' hbody
      cases h
      have quote : c.utf8Size = 1 := by
        obtain rfl | rfl := hquote <;> rfl
      have body : e.StandsFrom pos (pos + byteLength [c]) cs := by
        rw [byteLength_cons, quote]
        exact stringBody_error hbody
      exact body.later.whole visible
  split at h
  · cases h
  · cases h
    have text : c :: cs = [c] ++ cs := rfl
    exact .here (by simp) visible text rfl

/-! ## Expressions -/

theorem segmentAt_error {pos : Nat} {c : Char} {cs : List Char} {e : LexError}
    (h : segmentAt pos c cs = .error e) : e.StandsIn pos (c :: cs) := by
  unfold segmentAt at h
  dsimp only at h
  split at h
  · cases h
  split at h
  · rename_i hquote
    split at h
    · cases h
    · rename_i n hrun
      cases h
      have visible : isBlank c = false ∧ c.utf8Size = 1 := by
        obtain rfl | rfl := hquote <;> exact ⟨rfl, rfl⟩
      have text : c :: cs = (c :: cs.take n) ++ cs.drop n := by simp
      refine .here (by simp) (by simp [visible]) text ?_
      rw [byteLength_cons, visible.2, Nat.add_assoc]
  split at h
  · rename_i hbracket
    split at h
    · cases h
    · split at h
      · cases h
      · cases h
        subst hbracket
        refine .here (by simp) (by decide) (List.append_nil _).symm ?_
        rw [byteLength_cons, ← Nat.add_assoc]
        rfl
  split at h <;> cases h

theorem segments_error {start pos depth : Nat} {cs : List Char} {e : LexError}
    (h : segments start pos depth cs = .error e) : e.StandsFrom start pos cs := by
  fun_induction segments start pos depth cs with
  | case1 => cases h
  | case2 =>
    cases h
    exact .inl ⟨by simp, rfl, [], [], rfl, rfl⟩
  | case3 => cases h
  | case4 pos depth c cs hend e' hpart =>
    cases h
    exact .inr (segmentAt_error hpart)
  | case5 pos depth c cs hend n meant hpart depth' written e' hmore ih =>
    cases h
    have text : c :: cs = written ++ cs.drop n := by simp [written]
    rw [text]
    exact (ih hmore).later
  | case6 => cases h

/-- A text that has no tokens has its fault at a place of its own. -/
theorem lexemes_error {pos : Nat} {cs : List Char} {e : LexError} (h : lexemes pos cs = .error e) :
    e.StandsIn pos cs := by
  fun_induction lexemes pos cs with
  | case1 => cases h
  | case2 pos cs blanks body start e' hparts =>
    cases h
    have text : '=' :: cs = ('=' :: blanks) ++ body := by
      simp only [blanks, body, drop_takeWhile, List.cons_append, List.takeWhile_append_dropWhile]
    have visible : stops isBlank body := by
      simp only [blanks, body, drop_takeWhile]
      exact stops_dropWhile isBlank cs
    have inside : e.StandsFrom start start body := segments_error hparts
    have place : pos + byteLength ('=' :: blanks) = start := by
      rw [byteLength_cons, ← Nat.add_assoc]
      rfl
    rw [text]
    refine LexError.StandsIn.later ?_
    rw [place]
    cases hbody : body with
    | nil =>
      rw [hbody, segments] at hparts
      cases hparts
    | cons c more =>
      rw [hbody] at inside visible
      exact inside.whole (by simp [visible c rfl])
  | case3 pos cs blanks body start parts hparts length e' hmore ih =>
    cases h
    have text : '=' :: cs = ('=' :: blanks ++ body.take length) ++ body.drop length := by
      simp only [blanks, body, drop_takeWhile, List.append_assoc, List.take_append_drop,
        List.cons_append, List.takeWhile_append_dropWhile]
    rw [text]
    refine LexError.StandsIn.later ?_
    rw [byteLength_append, byteLength_cons, ← Nat.add_assoc, ← Nat.add_assoc]
    exact ih hmore
  | case4 => cases h
  | case5 pos c cs hc e' hkind =>
    cases h
    exact lexemeAt_error hkind
  | case6 pos c cs hc kind n hkind text e' hmore ih =>
    cases h
    have split : c :: cs = text ++ cs.drop n := by simp [text]
    rw [split]
    exact (ih hmore).later
  | case7 => cases h

theorem map_error {ε α β : Type} {f : α → β} {r : Except ε α} {e : ε} (h : r.map f = .error e) :
    r = .error e := by
  cases r with
  | error e' => exact congrArg Except.error (Except.error.inj h)
  | ok a => cases h

theorem lex_error_standsIn {source : String} {e : LexError} (h : lex source = .error e) :
    e.StandsIn 0 source.toList := lexemes_error (map_error h)

/-! ## Spans -/

/-- A span of a text: in order, not past its end, and with both ends between characters. -/
structure Span.Inside (text : List Char) (s : Span) : Prop where
  ordered : s.start ≤ s.stop
  bounded : s.stop ≤ byteLength text
  start : Boundary text s.start
  stop : Boundary text s.stop

theorem inside_of_slice (front own back : List Char) :
    Span.Inside (front ++ (own ++ back)) ⟨byteLength front, byteLength front + byteLength own⟩ where
  ordered := Nat.le_add_right ..
  bounded := by
    simp only [byteLength_append]
    omega
  start := ⟨front, own ++ back, rfl, rfl⟩
  stop := ⟨front ++ own, back, (List.append_assoc ..).symm, byteLength_append ..⟩

/-- No place of a text is inside a character. -/
theorem not_boundary_within {front back : List Char} {c : Char} {n : Nat}
    (after : byteLength front < n) (before : n < byteLength front + c.utf8Size) :
    ¬Boundary (front ++ c :: back) n := by
  rintro ⟨front', back', text, rfl⟩
  obtain ⟨own, rfl, own_eq⟩ | ⟨own, rfl, -⟩ := List.append_eq_append_iff.mp text
  · cases own with
    | nil => simp at after
    | cons d own =>
      obtain ⟨rfl, -⟩ := List.cons.inj own_eq
      simp only [byteLength_append, byteLength_cons] at before
      omega
  · rw [byteLength_append] at after
    omega

/-- Two bytes from a backslash on are inside the text if a character of one byte follows it. -/
theorem inside_escape_iff (front rest : List Char) :
    Span.Inside (front ++ '\\' :: rest) ⟨byteLength front, byteLength front + 2⟩ ↔
      ∃ c ∈ rest.head?, isAscii c := by
  have backslash : '\\'.utf8Size = 1 := rfl
  constructor
  · rintro ⟨-, bounded, -, stop⟩
    cases rest with
    | nil =>
      simp only [byteLength_append, byteLength_cons, byteLength_nil, backslash] at bounded
      omega
    | cons c rest =>
      refine ⟨c, rfl, ?_⟩
      by_contra wide
      have size : 1 < c.utf8Size :=
        Nat.lt_of_le_of_ne c.utf8Size_pos fun one => wide (beq_iff_eq.mpr one.symm)
      have text : front ++ '\\' :: c :: rest = (front ++ ['\\']) ++ c :: rest := by simp
      rw [text] at stop
      refine not_boundary_within ?_ ?_ stop
      all_goals
        simp only [byteLength_append, byteLength_cons, byteLength_nil, backslash]
        omega
  · rintro ⟨c, hc, one⟩
    obtain ⟨rest, rfl⟩ := List.head?_eq_some_iff.mp hc
    have width : byteLength ['\\', c] = 2 := by
      rw [byteLength_cons, byteLength_cons, beq_iff_eq.mp one]
      rfl
    have inside := inside_of_slice front ['\\', c] rest
    rwa [width] at inside

/-- The fault is an escape that nothing follows, or a character of more than one byte. -/
def LexError.Overruns (e : LexError) (text : List Char) : Prop :=
  e.fault = .unknownEscape ∧ ∃ front rest, text = front ++ '\\' :: rest ∧
    byteLength front = e.span.start ∧ ¬∃ c ∈ rest.head?, isAscii c

/-- **The span of a fault is inside the text, but for an unknown escape that is no character of one
byte.** Even then it starts between two characters, at a backslash, and it is two bytes long. -/
theorem lex_error_inside_iff {source : String} {e : LexError} (h : lex source = .error e) :
    (e.span.Inside source.toList ↔ ¬e.Overruns source.toList) ∧
      Boundary source.toList e.span.start ∧
      (e.Overruns source.toList → e.span.stop = e.span.start + 2) := by
  obtain ⟨fault, start, stop⟩ := e
  obtain ⟨front, c, rest, text, starts, -, ends⟩ := lex_error_standsIn h
  generalize source.toList = cs at text ⊢
  generalize c :: rest = body at text ends
  obtain rfl : start = byteLength front := starts.trans (Nat.zero_add _)
  subst text
  have place : Boundary (front ++ body) (byteLength front) := ⟨front, body, rfl, rfl⟩
  cases ends with
  | @known own back known stops =>
    obtain rfl : stop = byteLength front + byteLength own := stops
    exact ⟨iff_of_true (inside_of_slice ..) fun past => known past.1, place,
      fun past => absurd past.1 known⟩
  | @unknown rest unknown stops =>
    obtain rfl : stop = byteLength front + 2 := stops
    refine ⟨?_, place, fun _ => rfl⟩
    rw [inside_escape_iff]
    constructor
    · rintro narrow ⟨-, front', rest', text, same, wide⟩
      obtain ⟨rfl, body_eq⟩ := eq_of_byteLength text same.symm
      obtain ⟨-, rfl⟩ := List.cons.inj body_eq
      exact wide narrow
    · intro clear
      by_contra wide
      exact clear ⟨unknown, front, rest, rfl, rfl, wide⟩

theorem open_escape_inside :
    lex "a(\"é\\u\x7b1é" = .error ⟨.malformedUnicodeEscape, ⟨5, 9⟩⟩ ∧
      Span.Inside "a(\"é\\u\x7b1é".toList ⟨5, 9⟩ := by
  have fault : lex "a(\"é\\u\x7b1é" = .error ⟨.malformedUnicodeEscape, ⟨5, 9⟩⟩ := by cbv
  exact ⟨fault, (lex_error_inside_iff fault).1.mpr fun past => absurd past.1 (by decide)⟩

/-- A backslash at the end of a text is a fault that ends after the text. -/
theorem bare_backslash_overruns :
    lex "a(\"\\" = .error ⟨.unknownEscape, ⟨3, 5⟩⟩ ∧ byteLength "a(\"\\".toList = 4 ∧
      ¬Span.Inside "a(\"\\".toList ⟨3, 5⟩ := by
  refine ⟨by cbv, by decide, fun inside => ?_⟩
  exact absurd inside.bounded (by decide)

end EnvManifest
