import EnvManifest.Proofs.Text.Run
import EnvManifest.Script.Lexer

/-!
# Texts as tokens

A text is read token by token. What is read of its front depends on what follows by one character at
most.
-/

namespace EnvManifest.Script

open Text

/-! ## Texts that can be read -/

def Token.isBad : Token → Bool
  | .bad _ => true
  | _ => false

/-- So many characters after a character belong to one token or gap. -/
def Takes (c : Char) (cs : List Char) (t : Option Token) (n : Nat) : Prop :=
  (∀ l, tokenAt l c cs = (t, n)) ∧ t.all (!·.isBad)

/-- The front of a text is read as tokens, up to where the rest begins. -/
inductive Lexes (rest : List Char) : List Char → List Token → Prop
  | nil : Lexes rest [] []
  | cons {c : Char} {v w : List Char} {t : Option Token} {ts : List Token}
    (h : Takes c (v ++ (w ++ rest)) t v.length) (hw : Lexes rest w ts) :
    Lexes rest (c :: (v ++ w)) (t.toList ++ ts)

theorem Lexes.append {rest u v : List Char} {ts us : List Token} (hu : Lexes (v ++ rest) u ts)
    (hv : Lexes rest v us) : Lexes rest (u ++ v) (ts ++ us) := by
  induction hu with
  | nil => exact hv
  | @cons c x w t ts h _ ih =>
    rw [List.cons_append, List.append_assoc, List.append_assoc]
    refine .cons ?_ ih
    rwa [List.append_assoc]

/-- A text that can be read to its end is lexed into its tokens. -/
theorem Lexes.lex {u : List Char} {ts : List Token} (h : Lexes [] u ts) (l : Nat) :
    (Script.lex l u).map (·.token) = ts ++ [.eof] := by
  induction h generalizing l with
  | nil => simp [Script.lex]
  | @cons c v w t ts h _ ih =>
    rw [List.append_nil] at h
    unfold Script.lex
    rw [h.1]
    dsimp only
    rw [List.drop_left]
    cases t with
    | none => simpa using ih _
    | some t =>
      have ht := h.2
      cases t with
      | bad => simp [Token.isBad] at ht
      | _ => simpa using ih _

/-! ## What may follow -/

def startsWord (c : Char) : Bool := isLetter c || c == '_'

/-- The characters with which the text of a known value starts. -/
def startsOperand (c : Char) : Bool := isDigit c || isLetter c || c == '"' || c == '('

/-- What follows a token, and what may follow in its place: a text that starts alike, or an operand
in the place of a name. -/
inductive Follows (t : Option Token) (x y : List Char) : Prop
  | same (h : y.head? = x.head?)
  | operand {a b : Char} (hx : x.head? = some a) (ha : startsWord a) (hy : y.head? = some b)
    (hb : startsOperand b) (ht : t ≠ some (.mark "."))

/-- A run that words go on with ends where it ended. -/
theorem Follows.stops {t : Option Token} {x y : List Char} (h : Follows t x y) {p : Char → Bool}
    (hp : ∀ c, startsWord c → p c) (hx : stops p x) : stops p y := by
  cases h with
  | same h =>
    intro c hc
    exact hx c (h ▸ hc)
  | operand ha hw =>
    have := hx _ ha
    rw [hp _ hw] at this
    cases this

theorem stops_of_length {p : Char → Bool} {v x : List Char}
    (h : ((v ++ x).takeWhile p).length = v.length) : (∀ c ∈ v, p c) ∧ stops p x := by
  rw [List.takeWhile_append] at h
  split at h
  · rename_i hv
    have hall : v.takeWhile p = v := (List.takeWhile_prefix p).eq_of_length hv
    refine ⟨fun c hc => ?_, fun c hc => ?_⟩
    · rw [← hall] at hc
      exact List.all_eq_true.1 List.all_takeWhile c hc
    · have hnil : x.takeWhile p = [] := by simpa using h
      cases x with
      | nil => cases hc
      | cons d x =>
        obtain rfl := Option.some.inj hc
        refine Bool.eq_false_iff.2 fun hp => ?_
        rw [List.takeWhile_cons_of_pos hp] at hnil
        cases hnil
  · rename_i hv
    exact absurd h hv

theorem takeWhile_of_length {p : Char → Bool} {v x y : List Char}
    (h : ((v ++ x).takeWhile p).length = v.length) (hy : stops p y) :
    (v ++ y).takeWhile p = v :=
  takeWhile_run (stops_of_length h).1 hy

/-- A run that ends within the front of a text. -/
theorem takeWhile_within {p : Char → Bool} {v x : List Char} (y : List Char)
    (h : ((v ++ x).takeWhile p).length < v.length) :
    (v ++ y).takeWhile p = (v ++ x).takeWhile p := by
  rw [List.takeWhile_append, List.takeWhile_append]
  rw [List.takeWhile_append] at h
  split at h
  · rw [List.length_append] at h
    omega
  · rename_i hv
    rw [if_neg hv, if_neg hv]

/-! ## Long brackets -/

theorem le_of_runThrough {close cs : List Char} {n : Nat} (h : runThrough close cs = some n) :
    close.length ≤ n := by
  induction cs generalizing n with
  | nil => cases h
  | cons c cs ih =>
    rw [runThrough] at h
    split at h
    · cases h
      exact Nat.le_refl _
    · obtain ⟨m, hm, rfl⟩ := Option.map_eq_some_iff.1 h
      exact Nat.le_succ_of_le (ih hm)

theorem runThrough_le {close cs : List Char} {n : Nat} (h : runThrough close cs = some n) :
    n ≤ cs.length := by
  induction cs generalizing n with
  | nil => cases h
  | cons c cs ih =>
    rw [runThrough] at h
    split at h
    · cases h
      exact (List.isPrefixOf_iff_prefix.1 ‹_›).length_le
    · obtain ⟨m, hm, rfl⟩ := Option.map_eq_some_iff.1 h
      exact Nat.succ_le_succ (ih hm)

/-- What closes within the front of a text closes there whatever follows. -/
theorem runThrough_within {close v x : List Char} (y : List Char) {n : Nat} (hc : close ≠ [])
    (h : runThrough close (v ++ x) = some n) (hn : n ≤ v.length) :
    runThrough close (v ++ y) = some n := by
  have hpos : 0 < close.length := List.length_pos_iff.2 hc
  have hle := le_of_runThrough h
  induction v generalizing n with
  | nil =>
    simp only [List.length_nil] at hn
    omega
  | cons c v ih =>
    rw [List.cons_append, runThrough] at h ⊢
    -- The opening part is as long as `close` at least, so that nothing of the rest is seen.
    have hfront : close.length ≤ (c :: v).length := Nat.le_trans hle hn
    have hsame : close.isPrefixOf (c :: (v ++ y)) = close.isPrefixOf (c :: (v ++ x)) := by
      have key : ∀ z, close.isPrefixOf (c :: (v ++ z)) = true ↔ close <+: c :: v := by
        intro z
        rw [List.isPrefixOf_iff_prefix, ← List.cons_append]
        exact ⟨fun h => List.prefix_of_prefix_length_le h (List.prefix_append _ _) hfront,
          fun h => h.trans (List.prefix_append _ _)⟩
      rw [Bool.eq_iff_iff, key, key]
    rw [hsame]
    split at h
    · rw [if_pos ‹_›]
      exact h
    · rw [if_neg ‹_›]
      obtain ⟨m, hm, rfl⟩ := Option.map_eq_some_iff.1 h
      rw [ih hm (by simpa using hn) (le_of_runThrough hm)]
      rfl

theorem longLevel?_eq {cs : List Char} {level : Nat} (h : longLevel? cs = some level) :
    (cs.takeWhile (· == '=')).length = level ∧ cs[level]? = some '[' := by
  unfold longLevel? at h
  dsimp only at h
  split at h
  · rename_i hd
    cases h
    rw [List.head?_drop] at hd
    exact ⟨rfl, hd⟩
  · cases h

theorem longLevel?_within {v x : List Char} (y : List Char) {level : Nat}
    (h : longLevel? (v ++ x) = some level) (hv : level < v.length) :
    longLevel? (v ++ y) = some level := by
  obtain ⟨hl, hd⟩ := longLevel?_eq h
  unfold longLevel?
  dsimp only
  rw [takeWhile_within y (hl ▸ hv), hl, List.head?_drop, if_pos]
  rw [List.getElem?_append_left hv] at hd ⊢
  exact hd

/-- Neither `=` nor `[` comes next. -/
def Unbracketed (cs : List Char) : Prop := ∀ c, cs.head? = some c → c ≠ '=' ∧ c ≠ '['

theorem Follows.unbracketed {t : Option Token} {x y : List Char} (h : Follows t x y)
    (hx : Unbracketed x) : Unbracketed y := by
  cases h with
  | same h =>
    intro c hc
    exact hx c (h ▸ hc)
  | operand _ _ hy hb =>
    intro c hc
    obtain rfl := Option.some.inj (hy.symm.trans hc)
    exact ⟨by rintro rfl; revert hb; decide, by rintro rfl; revert hb; decide⟩

theorem longLevel?_congr (v : List Char) {x y : List Char} (hx : Unbracketed x)
    (hy : Unbracketed y) : longLevel? (v ++ x) = longLevel? (v ++ y) := by
  have key : ∀ {z}, Unbracketed z → longLevel? (v ++ z) =
      if (v.takeWhile (· == '=')).length = v.length then none else longLevel? v := by
    intro z hz
    have hnil : z.takeWhile (· == '=') = [] := by
      cases z with
      | nil => rfl
      | cons c z => exact List.takeWhile_cons_of_neg (by simpa using (hz c rfl).1)
    unfold longLevel?
    dsimp only
    rw [List.takeWhile_append]
    split
    · rw [hnil, List.append_nil, List.drop_left, if_neg]
      intro h
      exact (hz _ h).2 rfl
    · rename_i hne
      have hlt : (v.takeWhile (· == '=')).length < v.length :=
        Nat.lt_of_le_of_ne (List.takeWhile_prefix _).length_le hne
      rw [List.head?_drop, List.head?_drop, List.getElem?_append_left hlt]
  rw [key hx, key hy]

/-! ## Comments -/

theorem short_local {v x y : List Char} {t : Option Token} (hf : Follows t x y)
    (h : ((v ++ x).takeWhile (!isBreak ·)).length = v.length) :
    ((v ++ y).takeWhile (!isBreak ·)).length = v.length := by
  rw [takeWhile_of_length h (hf.stops (fun c hc => ?_) (stops_of_length h).2)]
  simp only [startsWord, Bool.or_eq_true, beq_iff_eq] at hc
  obtain hc | rfl := hc
  · simp only [isBreak, Bool.not_eq_true', Bool.or_eq_false_iff, beq_eq_false_iff_ne]
    constructor
    · rintro rfl
      revert hc
      decide
    · rintro rfl
      revert hc
      decide
  · decide

theorem unbracketed_of_break {x : List Char} (h : stops (!isBreak ·) x) : Unbracketed x := by
  intro c hc
  have := h c hc
  exact ⟨by rintro rfl; revert this; decide, by rintro rfl; revert this; decide⟩

/-- The level of the long bracket with which a text starts. -/
def openingLevel? : List Char → Option Nat
  | '[' :: cs => longLevel? cs
  | _ => none

theorem commentAt_none {l : Nat} {cs : List Char} (h : openingLevel? cs = none) :
    commentAt l ('-' :: cs) = (none, (('-' :: cs).takeWhile (!isBreak ·)).length) := by
  unfold commentAt
  simp only [List.drop_succ_cons, List.drop_zero]
  split
  · have h : longLevel? _ = none := h
    rw [h]
  · rfl

theorem commentAt_some {l level : Nat} {cs : List Char} (h : longLevel? cs = some level) :
    commentAt l ('-' :: '[' :: cs) =
      match runThrough (longClose level) (cs.drop (level + 1)) with
      | some n => (none, 2 + (level + 1) + n)
      | none => (some (.bad ("unfinished long comment (starting at line " ++ toString l ++
          ") near <eof>")), cs.length + 2) := by
  unfold commentAt
  simp only [List.drop_succ_cons, List.drop_zero, h]
  rfl

theorem openingLevel?_some {cs : List Char} {level : Nat} (h : openingLevel? cs = some level) :
    ∃ more, cs = '[' :: more ∧ longLevel? more = some level := by
  unfold openingLevel? at h
  split at h
  · exact ⟨_, rfl, h⟩
  · cases h

theorem openingLevel?_congr (v : List Char) {x y : List Char} (hx : Unbracketed x)
    (hy : Unbracketed y) : openingLevel? (v ++ x) = openingLevel? (v ++ y) := by
  have key : ∀ {z}, Unbracketed z → openingLevel? z = none := by
    intro z hz
    unfold openingLevel?
    split
    · exact absurd rfl (hz _ rfl).2
    · rfl
  cases v with
  | nil => exact (key hx).trans (key hy).symm
  | cons d v =>
    by_cases hd : d = '['
    · subst hd
      exact longLevel?_congr v hx hy
    · simp [openingLevel?, hd]

theorem longClose_ne_nil (level : Nat) : longClose level ≠ [] := by
  simp [longClose]

theorem pos_of_runThrough {level k : Nat} {cs : List Char}
    (h : runThrough (longClose level) cs = some k) : 0 < k :=
  Nat.lt_of_lt_of_le (List.length_pos_iff.2 (longClose_ne_nil level)) (le_of_runThrough h)

theorem commentAt_local {l : Nat} {v x y : List Char} (hf : Follows none x y)
    (h : commentAt l ('-' :: (v ++ x)) = (none, v.length + 1)) :
    commentAt l ('-' :: (v ++ y)) = (none, v.length + 1) := by
  cases ho : openingLevel? (v ++ x) with
  | none =>
    rw [commentAt_none ho] at h
    have hx : ((('-' :: v) ++ x).takeWhile (!isBreak ·)).length = ('-' :: v).length :=
      congrArg Prod.snd h
    have hux := unbracketed_of_break (stops_of_length hx).2
    have hy : openingLevel? (v ++ y) = none := by
      rw [← openingLevel?_congr v hux (hf.unbracketed hux), ho]
    rw [commentAt_none hy]
    exact congrArg (Prod.mk none) (short_local (v := '-' :: v) hf hx)
  | some level =>
    obtain ⟨more, hm, hl⟩ := openingLevel?_some ho
    rw [hm, commentAt_some hl] at h
    cases hr : runThrough (longClose level) (more.drop (level + 1)) with
    | none => simp [hr] at h
    | some n =>
      rw [hr] at h
      have hn : 2 + (level + 1) + n = v.length + 1 := congrArg Prod.snd h
      cases v with
      | nil =>
        rw [List.length_nil] at hn
        omega
      | cons d v =>
        rw [List.cons_append] at hm
        obtain ⟨rfl, rfl⟩ := List.cons.inj hm
        rw [List.length_cons] at hn
        rw [List.drop_append_of_le_length (by omega)] at hr
        rw [List.cons_append, commentAt_some (longLevel?_within y hl (by omega)),
          List.drop_append_of_le_length (by omega),
          runThrough_within y (longClose_ne_nil level) hr (by rw [List.length_drop]; omega)]
        exact h

/-! ## Brackets -/

theorem longStringAt_ok {l level n : Nat} {cs : List Char} {t : Token}
    (h : longStringAt l level cs = (t, n)) (ht : t.isBad = false) :
    ∃ k, runThrough (longClose level) (cs.drop (level + 1)) = some k ∧ n = level + 1 + k := by
  unfold longStringAt at h
  dsimp only at h
  split at h
  · rename_i k hk
    cases h
    exact ⟨k, hk, rfl⟩
  · cases h
    cases ht

theorem longStringAt_within {l level k : Nat} {v x : List Char} (y : List Char)
    (hk : runThrough (longClose level) ((v ++ x).drop (level + 1)) = some k)
    (hv : level + 1 + k ≤ v.length) :
    longStringAt l level (v ++ y) = longStringAt l level (v ++ x) := by
  have hdrop : ∀ z, (v ++ z).drop (level + 1) = v.drop (level + 1) ++ z :=
    fun z => List.drop_append_of_le_length (by omega)
  have htake : ∀ z, (v.drop (level + 1) ++ z).take (k - (level + 2)) =
      (v.drop (level + 1)).take (k - (level + 2)) :=
    fun z => List.take_append_of_le_length (by rw [List.length_drop]; omega)
  rw [hdrop] at hk
  have hky := runThrough_within y (longClose_ne_nil level) hk (by rw [List.length_drop]; omega)
  unfold longStringAt
  simp only [hdrop, hk, hky, htake]

theorem bracketAt_local {l : Nat} {v x y : List Char} {t : Token} (hf : Follows (some t) x y)
    (ht : t.isBad = false) (h : bracketAt l (v ++ x) = (t, v.length)) :
    bracketAt l (v ++ y) = (t, v.length) := by
  unfold bracketAt at h ⊢
  cases hl : longLevel? (v ++ x) with
  | some level =>
    rw [hl] at h
    obtain ⟨k, hk, hn⟩ := longStringAt_ok h ht
    rw [longLevel?_within y hl (by omega)]
    exact (longStringAt_within y hk (Nat.le_of_eq hn.symm)).trans h
  | none =>
    rw [hl] at h
    dsimp only at h
    split at h
    · obtain ⟨rfl, -⟩ := Prod.mk.inj h
      cases ht
    · rename_i hne
      obtain ⟨rfl, hn⟩ := Prod.mk.inj h
      obtain rfl := List.eq_nil_of_length_eq_zero hn.symm
      have hx : Unbracketed x := by
        intro c hc
        refine ⟨?_, ?_⟩
        · rintro rfl
          exact hne hc
        · rintro rfl
          cases x with
          | nil => cases hc
          | cons d x =>
            obtain rfl := Option.some.inj hc
            simp [longLevel?] at hl
      have hy := hf.unbracketed hx
      rw [← longLevel?_congr [] hx hy, hl]
      exact if_neg fun h => (hy _ h).1 rfl

/-! ## Strings -/

theorem unicodeEscape_ok {cs : List Char} {bs : Bytes} {n : Nat}
    (h : unicodeEscape cs = .ok (bs, n)) :
    ∃ more, cs = '{' :: more ∧ n = (more.takeWhile isHexDigit).length + 3 ∧
      more[(more.takeWhile isHexDigit).length]? = some '}' := by
  unfold unicodeEscape at h
  split at h
  · rename_i more
    dsimp only at h
    split at h
    · cases h
    · split at h
      · cases h
      · split at h
        · rename_i hclose
          rw [List.head?_drop] at hclose
          obtain ⟨-, rfl⟩ := Prod.mk.inj (Except.ok.inj h)
          exact ⟨more, rfl, rfl, hclose⟩
        · cases h
  · cases h

theorem unicodeEscape_brace (more : List Char) :
    unicodeEscape ('\x7b' :: more) =
      let digits := more.takeWhile isHexDigit
      let rest := more.drop digits.length
      if digits.isEmpty then .error (escapeFault "hexadecimal digit expected" ['u', '\x7b'] more)
      else
        let fitting := (List.range (digits.length + 1)).takeWhile fun k =>
          ofHex (digits.take k) ≤ 0x7FFFFFFF
        let read := fitting.length - 1
        if read < digits.length then
          .error (escapeFault "UTF-8 value too large" ('u' :: '\x7b' :: digits.take read)
            (more.drop read))
        else if rest.head? = some '\x7d' then .ok (encodeCode (ofHex digits), digits.length + 3)
        else .error (escapeFault "missing '\x7d'" ('u' :: '\x7b' :: digits) rest) := rfl

theorem unicodeEscape_within {v x : List Char} (y : List Char) {bs : Bytes} {n : Nat}
    (h : unicodeEscape (v ++ x) = .ok (bs, n)) (hn : n ≤ v.length + 1) :
    unicodeEscape (v ++ y) = .ok (bs, n) := by
  obtain ⟨more, hm, hlen, hclose⟩ := unicodeEscape_ok h
  cases v with
  | nil =>
    rw [List.length_nil] at hn
    omega
  | cons c v =>
    rw [List.cons_append] at hm
    obtain ⟨rfl, rfl⟩ := List.cons.inj hm
    rw [List.length_cons] at hn
    have hdigits := takeWhile_within (v := v) (x := x) y (p := isHexDigit) (by omega)
    have hhead : ((v ++ y).drop ((v ++ x).takeWhile isHexDigit).length).head? = some '}' := by
      rw [List.head?_drop, List.getElem?_append_left (by omega)]
      rwa [List.getElem?_append_left (by omega)] at hclose
    rw [List.cons_append, unicodeEscape_brace] at h ⊢
    dsimp only at h ⊢
    rw [hdigits]
    split at h
    · cases h
    · rename_i hne
      rw [if_neg hne]
      split at h
      · cases h
      · rename_i hfit
        rw [if_neg hfit, if_pos hhead]
        rwa [if_pos (by rw [List.head?_drop]; exact hclose)] at h

theorem escape_hex (cs : List Char) :
    escape ('x' :: cs) =
      let digits := (cs.take 2).takeWhile isHexDigit
      if digits.length = 2 then .ok ([UInt8.ofNat (ofHex digits)], 3)
      else
        .error (escapeFault "hexadecimal digit expected" ('x' :: digits)
          (cs.drop digits.length)) := rfl

theorem escape_other {c : Char} (hx : c ≠ 'x') (hz : c ≠ 'z') (hu : c ≠ 'u') (cs : List Char) :
    escape (c :: cs) =
      if isBreak c then .ok ([10], if cs.head?.any (isBreakPair c) then 2 else 1)
      else if isDigit c then
        let digits := ((c :: cs).take 3).takeWhile isDigit
        if ofDecimal digits ≤ 255 then .ok ([UInt8.ofNat (ofDecimal digits)], digits.length)
        else .error (escapeFault "decimal escape too large" digits ((c :: cs).drop digits.length))
      else
        match simpleEscape? c with
        | some b => .ok ([b], 1)
        | none => .error (escapeFault "invalid escape sequence" [] (c :: cs)) :=
  escape.eq_5 c cs hx hz hu

/-- An escape that ends within the front of a text. -/
theorem escape_within {v x : List Char} (y : List Char) {bs : Bytes} {n : Nat}
    (h : escape (v ++ x) = .ok (bs, n)) (hn : n < v.length) : escape (v ++ y) = .ok (bs, n) := by
  obtain ⟨c, v, rfl⟩ := List.exists_cons_of_length_pos (Nat.zero_lt_of_lt hn)
  rw [List.cons_append] at h ⊢
  rw [List.length_cons] at hn
  by_cases hx : c = 'x'
  · subst hx
    rw [escape_hex] at h ⊢
    dsimp only at h ⊢
    split at h
    · obtain ⟨-, rfl⟩ := Prod.mk.inj (Except.ok.inj h)
      rename_i hd
      rw [List.take_append_of_le_length (by omega)] at h hd ⊢
      rw [if_pos hd]
      exact h
    · cases h
  by_cases hz : c = 'z'
  · subst hz
    have h : Except.ok ([], ((v ++ x).takeWhile Number.isSpace).length + 1) = .ok (bs, n) := h
    obtain ⟨-, rfl⟩ := Prod.mk.inj (Except.ok.inj h)
    have hw := takeWhile_within y (Nat.lt_of_succ_lt_succ hn)
    rw [← h, ← hw]
    rfl
  by_cases hu : c = 'u'
  · subst hu
    exact unicodeEscape_within y h (by omega)
  rw [escape_other hx hz hu] at h ⊢
  split at h
  · rename_i hb
    rw [if_pos hb]
    obtain ⟨-, rfl⟩ := Prod.mk.inj (Except.ok.inj h)
    obtain ⟨d, v, rfl⟩ : ∃ d w, v = d :: w := List.exists_cons_of_length_pos (by
      split at hn <;> omega)
    exact h
  · rename_i hb
    rw [if_neg hb]
    split at h
    · rename_i hd
      rw [if_pos hd]
      have hdigits : ((c :: (v ++ y)).take 3).takeWhile isDigit =
          ((c :: (v ++ x)).take 3).takeWhile isDigit := by
        have hlen : (((c :: (v ++ x)).take 3).takeWhile isDigit).length < (c :: v).length := by
          dsimp only at h
          split at h
          · obtain ⟨-, rfl⟩ := Prod.mk.inj (Except.ok.inj h)
            exact hn
          · cases h
        simp only [← List.cons_append] at hlen ⊢
        by_cases h3 : 3 ≤ (c :: v).length
        · rw [List.take_append_of_le_length h3, List.take_append_of_le_length h3]
        · rw [List.take_append, List.take_of_length_le (by omega)] at hlen ⊢
          rw [List.take_append, List.take_of_length_le (l := c :: v) (by omega)]
          exact takeWhile_within _ hlen
      dsimp only at h ⊢
      rw [hdigits]
      split at h
      · rw [if_pos ‹_›]
        exact h
      · cases h
    · rename_i hd
      rw [if_neg hd]
      split at h
      · exact h
      · cases h

/-- What a character of a string stands for, and how many characters after it belong to it. -/
def stringPart (c : Char) (cs : List Char) : Except StringFault (Bytes × Nat) :=
  if c = '\\' then escape cs else .ok (encode [c], 0)

theorem stringBody_cons (quote c : Char) (cs : List Char) :
    stringBody quote (c :: cs) =
      if c = quote then .ok ([], 1)
      else if isBreak c then .error (.within "unfinished string" [] 0)
      else
        match stringPart c cs with
        | .error fault => .error fault
        | .ok (bs, n) =>
          match stringBody quote (cs.drop n) with
          | .error fault => .error (fault.after bs (n + 1))
          | .ok (more, m) => .ok (bs ++ more, n + m + 1) := by
  rw [stringBody]
  rfl

/-- A string ends with its quote, or starts with a character or an escape and goes on. -/
theorem stringBody_ok {quote : Char} {cs : List Char} {bs : Bytes} {n : Nat}
    (h : stringBody quote cs = .ok (bs, n)) :
    ∃ c more, cs = c :: more ∧ (c = quote ∧ bs = [] ∧ n = 1 ∨ c ≠ quote ∧ isBreak c = false ∧
      ∃ front k rest m, stringPart c more = .ok (front, k) ∧
        stringBody quote (more.drop k) = .ok (rest, m) ∧ bs = front ++ rest ∧ n = k + m + 1) := by
  cases cs with
  | nil =>
    rw [stringBody] at h
    cases h
  | cons c more =>
    refine ⟨c, more, rfl, ?_⟩
    rw [stringBody_cons] at h
    split at h
    · obtain ⟨rfl, rfl⟩ := Prod.mk.inj (Except.ok.inj h)
      exact .inl ⟨‹_›, rfl, rfl⟩
    · rename_i hq
      split at h
      · cases h
      · rename_i hb
        refine .inr ⟨hq, by simpa using hb, ?_⟩
        cases hp : stringPart c more with
        | error => simp [hp] at h
        | ok p =>
          obtain ⟨front, k⟩ := p
          rw [hp] at h
          dsimp only at h
          cases hr : stringBody quote (more.drop k) with
          | error => simp [hr] at h
          | ok p =>
            obtain ⟨rest, m⟩ := p
            rw [hr] at h
            obtain ⟨rfl, rfl⟩ := Prod.mk.inj (Except.ok.inj h)
            exact ⟨front, k, rest, m, rfl, hr, rfl, rfl⟩

theorem stringBody_pos {quote : Char} {cs : List Char} {bs : Bytes} {n : Nat}
    (h : stringBody quote cs = .ok (bs, n)) : 0 < n := by
  obtain ⟨c, more, -, ⟨-, -, rfl⟩ | ⟨-, -, front, k, rest, m, -, -, -, rfl⟩⟩ := stringBody_ok h
  · exact Nat.one_pos
  · exact Nat.succ_pos _

theorem stringBody_le {quote : Char} {cs : List Char} {bs : Bytes} {n : Nat}
    (h : stringBody quote cs = .ok (bs, n)) : n ≤ cs.length := by
  induction hn : cs.length using Nat.strongRecOn generalizing cs bs n with
  | _ _ ih =>
    subst hn
    obtain ⟨c, more, rfl, ⟨-, -, rfl⟩ | ⟨-, -, front, k, rest, m, -, hr, -, rfl⟩⟩ := stringBody_ok h
    · simp
    · have hm := stringBody_pos hr
      have hle := ih _ (by rw [List.length_drop, List.length_cons]; omega) hr rfl
      rw [List.length_drop] at hle
      rw [List.length_cons]
      omega

theorem stringBody_within {quote : Char} {v x : List Char} (y : List Char) {bs : Bytes}
    (h : stringBody quote (v ++ x) = .ok (bs, v.length)) :
    stringBody quote (v ++ y) = .ok (bs, v.length) := by
  induction hn : v.length using Nat.strongRecOn generalizing v bs with
  | _ n ih =>
    subst hn
    have hpos := stringBody_pos h
    obtain ⟨c, v, rfl⟩ := List.exists_cons_of_length_pos hpos
    obtain ⟨_, _, hcons, hcase⟩ := stringBody_ok h
    rw [List.cons_append] at hcons
    obtain ⟨rfl, rfl⟩ := List.cons.inj hcons
    rw [List.length_cons] at hcase ⊢
    rw [List.cons_append, stringBody_cons]
    obtain ⟨hq, rfl, hv⟩ | ⟨hq, hb, front, k, rest, m, hp, hr, rfl, hv⟩ := hcase
    · rw [if_pos hq, hv]
    · have hm := stringBody_pos hr
      have hpy : stringPart c (v ++ y) = .ok (front, k) := by
        unfold stringPart at hp ⊢
        split at hp
        · rw [if_pos ‹_›]
          exact escape_within y hp (by omega)
        · rw [if_neg ‹_›]
          exact hp
      rw [List.drop_append_of_le_length (by omega)] at hr
      obtain rfl : m = (v.drop k).length := by rw [List.length_drop]; omega
      have hry := ih _ (by rw [List.length_drop, List.length_cons]; omega) hr rfl
      rw [if_neg hq, if_neg (by rw [hb]; decide), hpy]
      dsimp only
      rw [List.drop_append_of_le_length (by omega), hry]
      dsimp only
      rw [hv]

theorem stringAt_local {quote : Char} {v x : List Char} (y : List Char) {t : Token}
    (ht : t.isBad = false) (h : stringAt quote (v ++ x) = (t, v.length)) :
    stringAt quote (v ++ y) = (t, v.length) := by
  unfold stringAt at h ⊢
  dsimp only at h ⊢
  split at h
  · rename_i value n hs
    obtain ⟨rfl, hn⟩ := Prod.mk.inj h
    rw [hn] at hs
    rw [stringBody_within y hs]
  · obtain ⟨rfl, -⟩ := Prod.mk.inj h
    cases ht
  · obtain ⟨rfl, -⟩ := Prod.mk.inj h
    cases ht

end EnvManifest.Script
