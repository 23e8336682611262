import EnvManifest.Proofs.Manifest.Places
import EnvManifest.Proofs.Script.Lexing

/-!
# What an expression captures

The reader takes an expression part by part. Here is what parts look like, and that the text of an
expression is made of parts, with all its braces closed, wherever it is kept as it is written.
-/

namespace EnvManifest

open Text

/-! ## Parts -/

/-- A part of an expression: its first character, what belongs to it, and what follows. -/
inductive Part (c : Char) : List Char → List Char → Prop
  | quoted {front : List Char} (quote : c = '"' ∨ c = '\'')
    (closed : quoteRun c front = (front.length, true)) (back : List Char) : Part c front back
  | long {front : List Char} {level n : Nat} (bracket : c = '[')
    (opened : longLevel? front = some level)
    (closed : runThrough (longClose level) (front.drop (level + 1)) = some n)
    (whole : front.length = level + 1 + n) (back : List Char) : Part c front back
  | comment {front back : List Char} (dashes : c = '-' ∧ front.head? = some '-')
    (line : lineRun (front ++ back) = front.length) : Part c front back
  | single {back : List Char} (quote : ¬(c = '"' ∨ c = '\''))
    (bracket : c = '[' → longLevel? back = none) (dash : c = '-' → back.head? ≠ some '-') :
    Part c [] back

/-- Where the reader keeps what is written, it has read a part. -/
theorem part_of_segmentAt {pos n : Nat} {c : Char} {cs : List Char}
    (h : segmentAt pos c cs = .ok (n, c :: cs.take n)) : Part c (cs.take n) (cs.drop n) := by
  unfold segmentAt at h
  split at h
  · rename_i hc
    obtain ⟨-, hsemi⟩ := Prod.mk.inj (Except.ok.inj h)
    rw [hc.1, List.cons.injEq] at hsemi
    exact absurd hsemi.1 (by decide)
  split at h
  · rename_i hq
    split at h
    · rename_i m hm
      obtain ⟨rfl, -⟩ := Prod.mk.inj (Except.ok.inj h)
      obtain ⟨hlen, hrun⟩ := quoteRun_take hm
      refine .quoted hq ?_ _
      rw [List.length_take_of_le hlen, ← hrun [], List.append_nil]
    · cases h
  split at h
  · rename_i hq hb
    split at h
    · rename_i hl
      obtain ⟨rfl, -⟩ := Prod.mk.inj (Except.ok.inj h)
      exact .single hq (fun _ => hl) (fun hd => by rw [hb] at hd; cases hd)
    · rename_i level hl
      split at h
      · rename_i m hm
        obtain ⟨rfl, -⟩ := Prod.mk.inj (Except.ok.inj h)
        have hrun := (runThrough_take (Script.longClose_ne_nil level) hm).2.1
        have hlevel := (longLevel?_take hl).1
        rw [List.length_drop] at hrun
        have hlen : (cs.take (level + 1 + m)).length = level + 1 + m :=
          List.length_take_of_le (by omega)
        rw [← List.take_append_drop (level + 1 + m) cs] at hl hm
        rw [List.drop_append_of_le_length (by omega)] at hm
        have hopened := Script.longLevel?_within [] hl (by omega)
        have hclosed := Script.runThrough_within [] (Script.longClose_ne_nil level) hm
          (by rw [List.length_drop]; omega)
        rw [List.append_nil] at hopened hclosed
        exact .long hb hopened hclosed hlen _
      · cases h
  split at h
  · rename_i hq hb hd
    obtain ⟨rfl, -⟩ := Prod.mk.inj (Except.ok.inj h)
    obtain ⟨more, rfl⟩ := List.head?_eq_some_iff.mp hd.2
    refine .comment ⟨hd.1, ?_⟩ ?_
    · rw [lineRun_cons, if_neg (by decide)]
      rfl
    · rw [List.take_append_drop, List.length_take_of_le]
      exact (List.takeWhile_prefix _).length_le
  · rename_i hq hb hd
    obtain ⟨rfl, -⟩ := Prod.mk.inj (Except.ok.inj h)
    exact .single hq (fun hc => absurd hc hb) (fun hc hcs => hd ⟨hc, hcs⟩)

theorem longLevel?_append {ys : List Char} {level : Nat} (h : longLevel? ys = some level)
    (zs : List Char) : longLevel? (ys ++ zs) = some level := by
  have hlen := (longLevel?_take h).1
  rw [← List.append_nil ys] at h
  exact Script.longLevel?_within zs h (by omega)

/-- A part stays one where the text after it is cut. -/
theorem Part.cut {c : Char} {front ys zs : List Char} (h : Part c front (ys ++ zs)) :
    Part c front ys := by
  cases h with
  | quoted quote closed => exact .quoted quote closed ys
  | long bracket opened closed whole => exact .long bracket opened closed whole ys
  | comment dashes line =>
    obtain ⟨hline, hend⟩ := lineRun_append.mp line
    refine .comment dashes (lineRun_append.mpr ⟨hline, ?_⟩)
    cases ys with
    | nil => exact .inl rfl
    | cons d ys => exact .inr (hend.resolve_left (by simp))
  | single quote bracket dash =>
    refine .single quote (fun hb => ?_) (fun hd hys => dash hd ?_)
    · cases hys : longLevel? ys with
      | none => rfl
      | some level => cases (longLevel?_append hys zs).symm.trans (bracket hb)
    · rw [List.head?_append, hys]
      rfl

/-- A closed string ends with its quote. -/
theorem getLast?_of_quoteRun {quote : Char} {cs : List Char}
    (h : quoteRun quote cs = (cs.length, true)) : cs.getLast? = some quote := by
  obtain ⟨n, hn⟩ : ∃ n, n = cs.length := ⟨_, rfl⟩
  rw [← hn] at h
  fun_induction quoteRun quote cs generalizing n with
  | case1 => cases h
  | case2 => cases h
  | case3 d cs m closed hm ih =>
    cases h
    rw [List.getLast?_cons, List.getLast?_cons, ih m hm (by simpa using hn)]
    rfl
  | case4 => cases h
  | case5 cs =>
    cases h
    obtain rfl : cs = [] := List.length_eq_zero_iff.mp (by simpa using hn.symm)
    rfl
  | case6 c cs hnil hcons hline hc m closed hm ih =>
    cases h
    rw [List.getLast?_cons, ih m hm (by simpa using hn)]
    rfl

/-- A run to a closing mark ends with it. -/
theorem suffix_of_runThrough {close cs : List Char} {n : Nat} (h : runThrough close cs = some n) :
    close <:+ cs.take n := by
  induction cs generalizing n with
  | nil => cases h
  | cons c cs ih =>
    rw [runThrough] at h
    split at h
    · rename_i hp
      obtain rfl := Option.some.inj h
      exact ⟨[], List.prefix_iff_eq_take.mp (List.isPrefixOf_iff_prefix.mp hp)⟩
    · obtain ⟨m, hm, rfl⟩ := Option.map_eq_some_iff.mp h
      exact (ih hm).trans (List.suffix_cons c _)

/-- Only a comment has blanks at its end, and without them it is one too. -/
theorem Part.trim {c : Char} {front w back : List Char} (h : Part c (front ++ w) back)
    (hw : ∀ d ∈ w, isBlank d) : Part c front [] := by
  obtain rfl | ⟨v, d, hvd⟩ := w.eq_nil_or_concat
  · rw [List.append_nil] at h
    exact Part.cut (show Part c front ([] ++ back) from h)
  rw [List.concat_eq_append] at hvd
  subst hvd
  have visible {e : Char} (hlast : (front ++ (v ++ [d])).getLast? = some e) : isBlank e := by
    rw [← List.append_assoc, List.getLast?_concat] at hlast
    exact Option.some.inj hlast ▸ hw d (by simp)
  generalize hall : front ++ (v ++ [d]) = all at h visible
  cases h with
  | quoted quote closed =>
    have := visible (getLast?_of_quoteRun closed)
    obtain rfl | rfl := quote <;> cases this
  | long bracket opened closed whole =>
    rename_i level n
    have hclose := suffix_of_runThrough closed
    rw [List.take_of_length_le (by rw [List.length_drop]; omega)] at hclose
    obtain ⟨u, hu⟩ := hclose.trans (List.drop_suffix _ _)
    have := visible (e := ']') (by rw [← hu, longClose, ← List.append_assoc, List.getLast?_concat])
    cases this
  | comment dashes line =>
    subst hall
    obtain ⟨hline, -⟩ := lineRun_append.mp line
    refine .comment ⟨dashes.1, ?_⟩ (lineRun_append.mpr ⟨fun e he => hline e (by simp [he]), .inl rfl⟩)
    cases front with
    | nil =>
      have hdash : isBlank '-' := hw '-' (List.mem_of_mem_head? dashes.2)
      cases hdash
    | cons e front => exact dashes.2
  | single => simp at hall

/-! ## Texts made of parts -/

/-- A text made of parts, in which every brace is closed that is open before it or opened in it.
No `;` or `}` stands where no brace is open. -/
inductive Captured : Nat → List Char → Prop
  | nil : Captured 0 []
  | part {depth : Nat} {c : Char} {front back : List Char} (goes : ¬endsAt depth c)
    (here : Part c front back) (rest : Captured (depthAfter depth c) back) :
    Captured depth (c :: (front ++ back))

theorem Captured.of_cons {depth : Nat} {c : Char} {cs : List Char} (h : Captured depth (c :: cs)) :
    ¬endsAt depth c ∧ ∃ front back, cs = front ++ back ∧ Part c front back ∧
      Captured (depthAfter depth c) back := by
  cases h with
  | part goes here rest => exact ⟨goes, _, _, rfl, here, rest⟩

/-- What the reader takes for an expression is made of parts. -/
theorem captured_of_segments {start pos depth : Nat} {cs : List Char} {parts : List Segment}
    (h : segments start pos depth cs = .ok parts) (same : ∀ s ∈ parts, s.meant = s.written) :
    Captured depth (parts.flatMap (·.written)) := by
  fun_induction segments start pos depth cs generalizing parts with
  | case1 =>
    cases h
    exact .nil
  | case2 => cases h
  | case3 pos depth c cs hend =>
    cases h
    obtain ⟨rfl, -⟩ := hend
    exact .nil
  | case4 => cases h
  | case5 => cases h
  | case6 pos depth c cs hend n meant hpart depth' written more hmore =>
    rename_i ih
    cases h
    obtain ⟨-, rest, hrest⟩ := segments_sound hmore
    obtain rfl : meant = written := same _ (List.mem_cons_self ..)
    have here := part_of_segmentAt hpart
    rw [hrest] at here
    exact .part hend here.cut (ih hmore fun s hs => same s (List.mem_cons_of_mem _ hs))

theorem depthAfter_eq {c : Char} (hopen : c ≠ '{') (hclose : c ≠ '}') (depth : Nat) :
    depthAfter depth c = depth := by
  rw [depthAfter, if_neg hopen, if_neg hclose]

/-- Blanks at the end can be left out. -/
theorem Captured.trim {depth : Nat} {cs w : List Char} (h : Captured depth (cs ++ w))
    (hw : ∀ c ∈ w, isBlank c) : Captured depth cs := by
  generalize hall : cs ++ w = all at h
  induction h generalizing cs w with
  | nil =>
    obtain ⟨rfl, -⟩ := List.append_eq_nil_iff.mp hall
    exact .nil
  | part goes here rest ih =>
    rename_i depth c front back
    cases cs with
    | nil =>
      obtain rfl : w = c :: (front ++ back) := hall
      have hblank := hw c (List.mem_cons_self ..)
      rw [← depthAfter_eq (c := c) (by rintro rfl; cases hblank) (by rintro rfl; cases hblank) depth]
      exact ih (w := back) (fun d hd => hw d (by simp [hd])) rfl
    | cons d cs =>
      rw [List.cons_append, List.cons.injEq] at hall
      obtain ⟨rfl, hall⟩ := hall
      obtain ⟨v, rfl, rfl⟩ | ⟨v, rfl, rfl⟩ := List.append_eq_append_iff.mp hall
      · -- The blanks start in this part.
        have ended := @ih [] back (fun e he => hw e (by simp [he])) rfl
        have := Captured.part goes (here.trim fun e he => hw e (by simp [he])) ended
        rwa [List.append_nil] at this
      · exact .part goes here.cut (ih hw rfl)

/-! ## Texts that are kept -/

/-- An expression whose text stands in a manifest as it is, so that nothing has been dropped. -/
def Expression.Verbatim (text : List Char) (x : Expression) : Prop :=
  ∃ front back, text = front ++ x.source.toList ++ back ∧ byteLength front = x.offset

/-- A place in a text is given by its offset. -/
theorem eq_of_byteLength {xs ys us vs : List Char} (h : xs ++ us = ys ++ vs)
    (hlen : byteLength xs = byteLength ys) : xs = ys ∧ us = vs := by
  induction xs generalizing ys with
  | nil =>
    cases ys with
    | nil => exact ⟨rfl, h⟩
    | cons c ys =>
      have := c.utf8Size_pos
      simp only [byteLength_nil, byteLength_cons] at hlen
      omega
  | cons c xs ih =>
    cases ys with
    | nil =>
      have := c.utf8Size_pos
      simp only [byteLength_nil, byteLength_cons] at hlen
      omega
    | cons d ys =>
      rw [List.cons_append, List.cons_append, List.cons.injEq] at h
      obtain ⟨rfl, h⟩ := h
      obtain ⟨rfl, hrest⟩ := ih h (by simpa using hlen)
      exact ⟨rfl, hrest⟩

/-- Where the text that is meant is written, no part is an escape. -/
theorem same_of_prefix {parts : List Segment} {cs w rest : List Char} (sound : ∀ s ∈ parts, s.Sound)
    (hmeant : cs ++ w = parts.flatMap (·.meant)) (hw : ∀ c ∈ w, isBlank c)
    (hpre : cs <+: parts.flatMap (·.written) ++ rest) : ∀ s ∈ parts, s.meant = s.written := by
  induction parts generalizing cs w with
  | nil => simp
  | cons s parts ih =>
    have sound' : ∀ s ∈ parts, s.Sound := fun t ht => sound t (List.mem_cons_of_mem s ht)
    rw [List.flatMap_cons] at hmeant hpre
    rw [List.append_assoc] at hpre
    obtain same | ⟨hwritten, hescaped⟩ := sound s (List.mem_cons_self ..)
    · refine List.forall_mem_cons.mpr ⟨same, ?_⟩
      rw [same] at hmeant
      obtain ⟨v, hv, rfl⟩ | ⟨v, rfl, hv⟩ := List.append_eq_append_iff.mp hmeant
      · exact @ih [] _ sound' rfl (fun c hc => hw c (List.mem_append_right v hc)) List.nil_prefix
      · exact ih sound' hv.symm hw ((List.prefix_append_right_inj _).mp hpre)
    · rw [hescaped] at hmeant
      rw [hwritten] at hpre
      cases cs with
      | nil =>
        have : isBlank ';' := hw ';' (by rw [← List.nil_append w, hmeant]; simp)
        cases this
      | cons c cs =>
        obtain rfl : c = ';' := (List.cons.inj hmeant).1
        exact absurd (List.cons_prefix_cons.mp hpre).1 (by decide)

/-- **An expression that is kept is made of parts.** -/
theorem captured_of_lex {source : String} {ts : List Token} (h : lex source = .ok ts) {t : Token}
    (ht : t ∈ ts) {text : String} (hkind : t.kind = .expr text)
    (kept : Expression.Verbatim source.toList ⟨text, t.span.start⟩) : Captured 0 text.toList := by
  obtain ⟨front, body, parts, hread⟩ := lex_readIn h t ht text hkind
  obtain rfl := TokenKind.expr.inj (hread.kind.symm.trans hkind)
  obtain ⟨before, after, hsource, hoffset⟩ := kept
  obtain ⟨sound, rest, hbody⟩ := segments_sound hread.run
  obtain ⟨w, hw, blank⟩ := trimEnd_append (parts.flatMap (·.meant))
  dsimp only at hsource hoffset
  rw [String.toList_ofList] at hsource ⊢
  rw [List.append_assoc, hread.text] at hsource
  obtain ⟨-, hplace⟩ := eq_of_byteLength hsource (hread.offset.trans hoffset.symm)
  have same := same_of_prefix sound hw.symm blank ⟨after, by rw [← hplace, hbody]⟩
  have hall : parts.flatMap (·.written) = parts.flatMap (·.meant) := by
    rw [List.flatMap_def, List.flatMap_def, List.map_congr_left fun s hs => (same s hs).symm]
  have captured := captured_of_segments hread.run same
  rw [hall, hw] at captured
  exact captured.trim blank

end EnvManifest
