import EnvManifest.Patch.Rewrite
import EnvManifest.Proofs.Patch.Pairing

/-!
# Rewritten expressions

The program of a rewritten expression has the tokens of the old one, with the tokens of the new texts
in the place of paths. Where the new texts do not fit what stands around them, this fails.
-/

namespace EnvManifest.Patch

open Text
open Script (Lexes Takes Follows Spliced Atom Enclosed startsWord startsOperand isWordPart pathTokens)

/-! ## Texts of operands -/

/-- Can the text of an operand end before another text? -/
def EndsBefore (text rest : List Char) : Prop :=
  stops isWordPart rest ∧ (text.head?.any isDigit → rest.head? ≠ some '.')

/-- The tokens of an operand's text, which is a single token or stands in parentheses. -/
structure OperandText (text : List Char) (ts : List Script.Token) : Prop where
  starts : text.head?.any startsOperand
  lexes : ∀ rest, EndsBefore text rest → Lexes rest text ts
  shape : (∃ t e, ts = [t] ∧ Atom t e ∧ text.head? ≠ some '(') ∨
    ∃ inner e, ts = .mark "(" :: inner ++ [.mark ")"] ∧ Enclosed inner e ∧ text.head? = some '('

/-! ## Paths -/

/-- Fields of a name: points, each with a name after it. -/
inductive Dotted : List Token → List String → Prop
  | nil : Dotted [] []
  | cons {dot name : Token} {ts : List Token} {names : List String} (hdot : dot.text = ['.'])
    (hname : name.kind = .name) (h : Dotted ts names) :
    Dotted (dot :: name :: ts) (String.ofList name.text :: names)

/-- A path as hints have it. -/
def dotted (root : String) (fields : List String) : String :=
  fields.foldl (fun path name => path ++ "." ++ name) root

theorem found_some {hints : List Hint} {path : String} {used : Nat} {found : Option (Nat × Value)}
    {n : Nat} {v : Value}
    (h : ((Hint.value? hints path).map fun v => (used, v)).or found = some (n, v)) :
    found = some (n, v) ∨ n = used ∧ Hint.value? hints path = some v := by
  cases hv : Hint.value? hints path with
  | none => exact .inl (by simpa [hv] using h)
  | some w =>
    rw [hv, Option.map_some, Option.some_or] at h
    obtain ⟨rfl, rfl⟩ := Prod.mk.inj (Option.some.inj h)
    exact .inr ⟨rfl, rfl⟩

theorem longestPath_some {hints : List Hint} {path : String} {used : Nat}
    {found : Option (Nat × Value)} {ts : List Token} {n : Nat} {v : Value}
    (h : longestPath hints path used found ts = some (n, v)) :
    found = some (n, v) ∨ ∃ gone rest names, ts = gone ++ rest ∧ n = used + gone.length ∧
      Dotted gone names ∧ Hint.value? hints (dotted path names) = some v := by
  fun_induction longestPath hints path used found ts with
  | case1 path used found dot name more found' hd ih =>
    obtain hfound | ⟨gone, rest, names, rfl, rfl, hdotted, hv⟩ := ih h
    · refine (found_some hfound).imp_right fun ⟨hn, hv⟩ => ?_
      exact ⟨[], dot :: name :: more, [], rfl, hn, .nil, hv⟩
    · refine .inr ⟨dot :: name :: gone, rest, _, rfl, ?_, .cons hd.1 hd.2 hdotted, hv⟩
      simp only [List.length_cons]
      omega
  | case2 path used found dot name more found' hd =>
    refine (found_some h).imp_right fun ⟨hn, hv⟩ => ?_
    exact ⟨[], dot :: name :: more, [], rfl, hn, .nil, hv⟩
  | case3 ts path used found =>
    refine (found_some h).imp_right fun ⟨hn, hv⟩ => ?_
    exact ⟨[], ts, [], rfl, hn, .nil, hv⟩

/-- The text that stands for a path wherever it is replaced: the parameter's literal, or a known
value. -/
def operand? (p : Patch) (s : Surroundings) (locals : List (List Char)) :
    List String → Option (List Char)
  | [] => none
  | root :: fields =>
    if locals.contains root.toList then none
    else if root = p.ident then if fields = [] then p.literal.map Literal.source else none
    else if s.shadowed.contains root then none
    else (Hint.value? s.hints (dotted root fields)).bind Value.source?

theorem operand?_cons (p : Patch) (s : Surroundings) {locals : List (List Char)} {root : String}
    (h : locals.contains root.toList = false) (fields : List String) :
    operand? p s locals (root :: fields) =
      if root = p.ident then if fields = [] then p.literal.map Literal.source else none
      else if s.shadowed.contains root then none
      else (Hint.value? s.hints (dotted root fields)).bind Value.source? :=
  if_neg (by rw [h]; decide)

theorem replacement?_some {p : Patch} {s : Surroundings} {locals : List (List Char)}
    {previous : List Char} {t : Token} {after : List Token} {n : Nat} {text : List Char}
    (h : replacement? p s locals previous t after = some (n, text)) :
    t.kind = .name ∧ previous ≠ ['.'] ∧ ∃ gone rest names, after = gone ++ rest ∧
      n = gone.length ∧ Dotted gone names ∧
      operand? p s locals (String.ofList t.text :: names) = some text := by
  unfold replacement? at h
  dsimp only at h
  split at h
  · cases h
  · rename_i hname
    simp only [not_or, not_not, Bool.not_eq_true, Bool.not_eq_false'] at hname
    obtain ⟨hkind, hprevious, hlocal⟩ := hname
    refine ⟨by simpa using hkind, ?_, ?_⟩
    · rintro rfl
      revert hprevious
      decide
    have hlocals : locals.contains (String.ofList t.text).toList = false := by
      rw [String.toList_ofList]
      exact hlocal
    split at h
    · rename_i hident
      split at h
      · cases h
      · obtain ⟨l, hl, hp⟩ := Option.map_eq_some_iff.1 h
        obtain ⟨rfl, rfl⟩ := Prod.mk.inj hp
        refine ⟨[], after, [], rfl, rfl, .nil, ?_⟩
        rw [operand?_cons p s hlocals, if_pos hident, if_pos rfl, hl]
        rfl
    · rename_i hident
      split at h
      · cases h
      · rename_i hshadowed
        obtain ⟨⟨used, v⟩, hpath, h⟩ := Option.bind_eq_some_iff.1 h
        dsimp only at h
        split at h
        · cases h
        · obtain ⟨source, hsource, hp⟩ := Option.bind_eq_some_iff.1 h
          obtain ⟨rfl, rfl⟩ := Prod.mk.inj (Option.some.inj hp)
          obtain hnone | ⟨gone, rest, names, rfl, rfl, hdotted, hv⟩ := longestPath_some hpath
          · cases hnone
          · refine ⟨gone, rest, names, rfl, Nat.zero_add _, hdotted, ?_⟩
            rw [operand?_cons p s hlocals, if_neg hident, if_neg hshadowed, hv]
            exact hsource

/-! ## Where new texts fit -/

/-- The token with which a part starts. -/
def Part.first : Part → Token
  | kept t => t
  | replaced t _ _ => t

def Token.isKeyword (t : Token) : Bool :=
  t.kind == .name && Script.keywords.contains (String.ofList t.text)

/-- Can a text stand in the place of a path before a token? -/
def fitsBefore (text : List Char) (next : Token) : Bool :=
  next.text != ['='] && (text.head? == some '(' || !next.extends) &&
    (!text.head?.any isDigit || next.source.head? != some '.')

/-- Does every new text fit what stands around it? It must not follow the end of an operand, which
it could be taken to go on with, and the next token must not go on with it. -/
def fits (ended : Bool) : List Part → Bool
  | [] => true
  | .kept t :: parts => fits t.ends parts
  | .replaced t more text :: parts =>
    !ended && (t :: more).all (!·.isKeyword) &&
      parts.head?.all (fun next => fitsBefore text next.first) && fits true parts

/-! ## Neighbours -/

/-- A text that starts alike, or with an operand in the place of a name that can be a reference. -/
inductive Near (previous x y : List Char) : Prop
  | same (h : y.head? = x.head?)
  | operand {a b : Char} (hx : x.head? = some a) (ha : startsWord a) (hy : y.head? = some b)
    (hb : startsOperand b) (hp : previous ≠ ['.'])

theorem Near.follows {previous x y : List Char} (h : Near previous x y) {t : Option Script.Token}
    (ht : t = some (.mark ".") → previous = ['.']) : Follows t x y := by
  cases h with
  | same h => exact .same h
  | operand hx ha hy hb hp => exact .operand hx ha hy hb (mt ht hp)

/-- Where no word comes, the texts start alike. -/
theorem Near.head {previous x y : List Char} (h : Near previous x y) (hx : stops isWordPart x) :
    y.head? = x.head? := by
  cases h with
  | same h => exact h
  | operand hx' ha =>
    have := hx _ hx'
    rw [Script.isWordPart_of_startsWord ha] at this
    cases this

/-- What the tokens of two programs have in common, whatever the lines they stand on. -/
def SplicedTokens (known : List String → List Script.Token → Prop) (b : Bool)
    (us us' : List Script.Token) : Prop :=
  ∀ ls ls', ls.map (·.token) = us ++ [.eof] → ls'.map (·.token) = us' ++ [.eof] →
    Spliced known b ls ls'

section

variable {known : List String → List Script.Token → Prop} {b : Bool} {us us' : List Script.Token}

theorem SplicedTokens.nil : SplicedTokens known b [] [] := by
  intro ls ls' h h'
  obtain ⟨l, vs, rfl, hv⟩ := Script.tokens_cons h
  obtain ⟨l', vs', rfl, hv'⟩ := Script.tokens_cons h'
  obtain rfl := List.map_eq_nil_iff.1 hv
  obtain rfl := List.map_eq_nil_iff.1 hv'
  exact .keep _ _ _ _ (.nil _)

theorem SplicedTokens.keep (u : Script.Token) (h : SplicedTokens known u.ends us us') :
    SplicedTokens known b (u :: us) (u :: us') := by
  intro ls ls' hl hl'
  obtain ⟨l, vs, rfl, hv⟩ := Script.tokens_cons hl
  obtain ⟨l', vs', rfl, hv'⟩ := Script.tokens_cons hl'
  exact .keep _ _ _ _ (h vs vs' hv hv')

theorem tokens_append {ls : List Script.Lexeme} {ts ts' : List Script.Token}
    (h : ls.map (·.token) = ts ++ ts') :
    ∃ xs ys, ls = xs ++ ys ∧ xs.map (·.token) = ts ∧ ys.map (·.token) = ts' :=
  List.map_eq_append_iff.1 h

theorem head_of_tokens {ls : List Script.Lexeme} (h : ls.map (·.token) = us ++ [.eof])
    {P : Script.Token → Prop} (heof : P .eof) (hus : ∀ u ∈ us.head?, P u) :
    ∀ x ∈ ls.head?, P x.token := by
  intro x hx
  cases us with
  | nil =>
    obtain ⟨l, vs, rfl, -⟩ := Script.tokens_cons h
    obtain rfl := Option.some.inj hx
    exact heof
  | cons u us =>
    obtain ⟨l, vs, rfl, -⟩ := Script.tokens_cons h
    obtain rfl := Option.some.inj hx
    exact hus u rfl

theorem SplicedTokens.replace {root : String} {fields : List String} {text : List Char}
    {ts : List Script.Token} (ht : OperandText text ts) (hk : known (root :: fields) ts)
    (hnext : ∀ u ∈ us.head?, (text.head? ≠ some '(' → u.extends = false) ∧ u ≠ .mark "=")
    (h : SplicedTokens known true us us') :
    SplicedTokens known false (pathTokens root fields ++ us) (ts ++ us') := by
  intro ls ls' hl hl'
  rw [List.append_assoc] at hl hl'
  obtain ⟨path, rest, rfl, hpath, hrest⟩ := tokens_append hl
  obtain ⟨new, rest', rfl, hnew, hrest'⟩ := tokens_append hl'
  have hheads := head_of_tokens hrest
    (P := fun u => (text.head? ≠ some '(' → u.extends = false) ∧ u ≠ .mark "=")
    ⟨fun _ => rfl, nofun⟩ hnext
  have hs := h rest rest' hrest hrest'
  obtain ⟨t, e, rfl, ha, hopen⟩ | ⟨inner, e, rfl, he, hopen⟩ := ht.shape
  · obtain ⟨l, vs, rfl, hv⟩ := Script.tokens_cons hnew
    obtain rfl := List.map_eq_nil_iff.1 hv
    exact .bare hpath ha hk (fun u hu => ⟨(hheads u hu).1 hopen, (hheads u hu).2⟩) hs
  · obtain ⟨l, vs, rfl, hv⟩ := Script.tokens_cons hnew
    obtain ⟨ws, last, rfl, hw, hlast⟩ := tokens_append hv
    obtain ⟨l', zs, rfl, hz⟩ := Script.tokens_cons hlast
    obtain rfl := List.map_eq_nil_iff.1 hz
    subst hw
    have := @Spliced.enclosed _ _ _ _ _ l l' _ _ _ hpath he hk (fun u hu => (hheads u hu).2) hs
    simpa using this

end

/-! ## Names and points of a program -/

theorem takes_point {x : List Char} {u : Script.Token} (h : Takes '.' x (some u) 0) :
    u = .mark "." := by
  have hs := Script.tokenAt_shape (h.1 1) h.2
  generalize ht : some u = t at hs
  generalize hn : 0 = n at hs
  cases hs with
  | longString _ _ hc => exact absurd hc (by decide)
  | bracket hc => exact absurd hc (by decide)
  | string _ hc => exact absurd hc (by decide)
  | number hc =>
    -- A point with a digit after it is longer.
    cases x with
    | nil => cases hc
    | cons d x =>
      have hd : isDigit d := hc
      have hnumeral : Script.isNumeral false d := by
        simp [Script.isNumeral, Script.isHexDigit_of_isDigit hd]
      have hlength : Script.numeralLength '.' (d :: x) = Script.numeralRun false (d :: x) := rfl
      rw [hlength, Script.numeralRun_cons, if_pos hnumeral] at hn
      split at hn <;> cases hn
  | word hc => cases hc
  | symbol =>
    rw [Option.some.inj ht, Script.symbolAt_eq, if_pos hn.symm]
    rfl
  | _ => cases ht

theorem Paired.name {last : List Char} {t : Token} {ts : List Token} {us : List Script.Token}
    (h : Paired last (t :: ts) us) (hname : t.kind = .name) :
    ∃ us₁, us = Script.wordToken t.text :: us₁ ∧ Paired last ts us₁ ∧
      stops isWordPart (written ts last) ∧ t.text.head?.any startsWord ∧
      Lexes (t.text ++ written ts last) t.gap [] := by
  cases h with
  | @cons _ _ u us c v hgap htext htakes htells h =>
    rw [hname, htext] at htells
    cases htells with
    | name hc =>
      have htoken := htakes.1 0
      rw [Script.tokenAt_word hc] at htoken
      obtain ⟨-, hn⟩ := Prod.mk.inj htoken
      refine ⟨us, by rw [htext], h, (Script.stops_of_length hn).2, ?_, hgap⟩
      rw [htext]
      exact hc

theorem wordToken_name {t : Token} (h : t.isKeyword = false) (hname : t.kind = .name) :
    Script.wordToken t.text = .name (String.ofList t.text) := by
  simp only [Token.isKeyword, hname, beq_self_eq_true, Bool.true_and] at h
  unfold Script.wordToken
  rw [if_neg (by rw [h]; decide)]

theorem Paired.dotted {last : List Char} {gone rest : List Token} {names : List String}
    {us : List Script.Token} (hd : Dotted gone names) (hk : ∀ t ∈ gone, t.isKeyword = false)
    (h : Paired last (gone ++ rest) us) (hstop : stops isWordPart (written (gone ++ rest) last)) :
    ∃ us₁, us = names.flatMap (fun n => [.mark ".", .name n]) ++ us₁ ∧ Paired last rest us₁ ∧
      stops isWordPart (written rest last) := by
  induction hd generalizing us with
  | nil => exact ⟨us, rfl, h, hstop⟩
  | @cons dot name gone names hdot hname hd ih =>
    cases h with
    | @cons _ _ u us c v hgap htext htakes htells h =>
      obtain ⟨rfl, rfl⟩ := List.cons.inj (htext.symm.trans hdot)
      obtain rfl := takes_point htakes
      obtain ⟨us₁, rfl, h, hstop₁, -⟩ := Paired.name h hname
      obtain ⟨us₂, rfl, h, hstop₂⟩ :=
        ih (fun t ht => hk t (List.mem_cons_of_mem _ (List.mem_cons_of_mem _ ht))) h hstop₁
      have hnk := hk name (List.mem_cons_of_mem _ (List.mem_cons_self ..))
      refine ⟨us₂, ?_, h, hstop₂⟩
      rw [wordToken_name hnk hname]
      rfl

/-! ## Rewriting -/

/-- The tokens that stand for a path wherever it is replaced. -/
def known (p : Patch) (s : Surroundings) (locals : List (List Char)) (names : List String)
    (ts : List Script.Token) : Prop :=
  ∃ text, operand? p s locals names = some text ∧ OperandText text ts

/-- The text of a rewritten expression, from some token on. -/
def rewritten (p : Patch) (s : Surroundings) (locals : List (List Char)) (previous : List Char)
    (tokens : List Token) (last : List Char) : List Char :=
  (parts p s locals previous tokens).flatMap Part.after ++ last

section

variable {p : Patch} {s : Surroundings} {locals : List (List Char)} {previous last : List Char}
  {t : Token} {ts : List Token}

theorem parts_kept (h : replacement? p s locals previous t ts = none) :
    parts p s locals previous (t :: ts) = .kept t :: parts p s locals t.text ts := by
  rw [parts, h]

theorem parts_replaced {gone rest : List Token} {text : List Char}
    (h : replacement? p s locals previous t (gone ++ rest) = some (gone.length, text)) :
    parts p s locals previous (t :: (gone ++ rest)) =
      .replaced t gone text :: parts p s locals ((gone.getLast?.getD t).text) rest := by
  rw [parts, h]
  dsimp only
  rw [List.take_left, List.drop_left]

theorem parts_first : ∃ part more, parts p s locals previous (t :: ts) = part :: more ∧
    part.first = t := by
  rw [parts]
  split
  · exact ⟨_, _, rfl, rfl⟩
  · exact ⟨_, _, rfl, rfl⟩

/-- No point comes at the start of a gap. -/
theorem gap_head {x g : List Char} (h : Lexes x g []) : g.head? ≠ some '.' := by
  generalize hts : ([] : List Script.Token) = ts at h
  cases h with
  | nil => nofun
  | @cons c v w t ts h hw =>
    obtain ⟨ht, -⟩ := List.append_eq_nil_iff.1 hts.symm
    obtain rfl : t = none := by simpa using ht
    intro hc
    obtain rfl := Option.some.inj hc
    have hs := Script.tokenAt_shape (h.1 0) rfl
    generalize v.length = n at hs
    generalize ht : (none : Option Script.Token) = t at hs
    cases hs with
    | lineEnd h => cases h
    | space _ h => cases h
    | lineComment hc => exact absurd hc (by decide)
    | longComment hc => exact absurd hc (by decide)
    | _ => cases ht

theorem Lexes.then {u v : List Char} {ts us : List Script.Token} (hu : Lexes v u ts)
    (hv : Lexes [] v us) : Lexes [] (u ++ v) (ts ++ us) :=
  Script.Lexes.append (by rwa [List.append_nil]) hv

/-- A token stays as it was, whatever becomes of what follows it. -/
theorem rewritten_kept {u : Script.Token} {us : List Script.Token} {ended : Bool}
    (h : Paired last (t :: ts) (u :: us)) (hr : replacement? p s locals previous t ts = none)
    {us' : List Script.Token}
    (hlex : Lexes [] (rewritten p s locals t.text ts last) us')
    (hnear : Near t.text (written ts last) (rewritten p s locals t.text ts last))
    (hs : SplicedTokens (known p s locals) t.ends us us') :
    Lexes [] (rewritten p s locals previous (t :: ts) last) (u :: us') ∧
      Near previous (written (t :: ts) last) (rewritten p s locals previous (t :: ts) last) ∧
      SplicedTokens (known p s locals) ended (u :: us) (u :: us') := by
  have hafter : rewritten p s locals previous (t :: ts) last =
      t.gap ++ (t.text ++ rewritten p s locals t.text ts last) := by
    unfold rewritten
    rw [parts_kept hr]
    simp [Part.after, Token.source]
  cases h with
  | @cons _ _ _ _ c v hgap htext htakes htells h =>
    have hpoint : some u = some (.mark ".") → t.text = ['.'] := by
      intro hu
      obtain rfl := Option.some.inj hu
      exact (text_of_mark htells (by decide) (by decide)).1
    have htoken : Lexes (rewritten p s locals t.text ts last) (c :: v) [u] :=
      lexes_one (htakes.local (hnear.follows hpoint))
    rw [← htext] at htoken
    have hgap' : Lexes (t.text ++ rewritten p s locals t.text ts last) t.gap [] :=
      hgap.gap (.same (by rw [htext]; rfl))
    rw [hafter, written_cons]
    refine ⟨Lexes.then hgap' (Lexes.then htoken hlex), .same ?_, .keep u ?_⟩
    · rw [htext]
      cases t.gap <;> rfl
    · rwa [← ends_eq htells]

/-- What comes after a path does not go on with the text in its place, if that fits. -/
theorem endsBefore_of_fits {rest : List Token} {us : List Script.Token} {text : List Char}
    (h : Paired last rest us) (hstop : stops isWordPart (written rest last))
    (hfit : ∀ next ∈ rest.head?, fitsBefore text next) {y : List Char}
    (hy : y.head? = (written rest last).head?) :
    EndsBefore text y ∧
      ∀ u ∈ us.head?, (text.head? ≠ some '(' → u.extends = false) ∧ u ≠ .mark "=" := by
  have hstop' : stops isWordPart y := fun c hc => hstop c (hy ▸ hc)
  cases h with
  | nil h =>
    refine ⟨⟨hstop', fun _ => ?_⟩, nofun⟩
    rw [hy]
    exact gap_head h
  | @cons next ts u us c v hgap htext htakes htells h =>
    have hnext := hfit next rfl
    simp only [fitsBefore, Bool.and_eq_true, Bool.or_eq_true, bne_iff_ne, beq_iff_eq,
      Bool.not_eq_true', ne_eq] at hnext
    obtain ⟨⟨hequals, hextends⟩, hpoint⟩ := hnext
    refine ⟨⟨hstop', fun hdigit hc => ?_⟩, fun w hw => ?_⟩
    · obtain hnone | hne := hpoint
      · rw [hnone] at hdigit
        cases hdigit
      · refine hne ?_
        rw [hy, written_cons, htext] at hc
        rw [Token.source, htext]
        cases hg : next.gap with
        | nil => simpa [hg] using hc
        | cons d g => simpa [hg] using hc
    · obtain rfl := Option.some.inj hw
      refine ⟨fun hopen => ?_, ?_⟩
      · rw [← extends_eq htells]
        exact hextends.resolve_left hopen
      · rintro rfl
        exact hequals (text_of_mark htells (by decide) (by decide)).1

/-- A text in the place of a path is read as its tokens, if it fits. -/
theorem rewritten_replaced {us us' ts : List Script.Token} {gone rest : List Token}
    {names : List String} {text : List Char}
    (hr : replacement? p s locals previous t (gone ++ rest) = some (gone.length, text))
    (hprevious : previous ≠ ['.']) (ho : operand? p s locals (String.ofList t.text :: names) = some text)
    (htext : OperandText text ts) (hfit : ∀ next ∈ rest.head?, fitsBefore text next)
    (hgap : Lexes (t.text ++ written (gone ++ rest) last) t.gap [])
    (hword : t.text.head?.any startsWord) (h : Paired last rest us)
    (hstop : stops isWordPart (written rest last))
    (hlex : Lexes [] (rewritten p s locals ((gone.getLast?.getD t).text) rest last) us')
    (hnear : Near ((gone.getLast?.getD t).text) (written rest last)
      (rewritten p s locals ((gone.getLast?.getD t).text) rest last))
    (hs : SplicedTokens (known p s locals) true us us') :
    Lexes [] (rewritten p s locals previous (t :: (gone ++ rest)) last) (ts ++ us') ∧
      Near previous (written (t :: (gone ++ rest)) last)
        (rewritten p s locals previous (t :: (gone ++ rest)) last) ∧
      SplicedTokens (known p s locals) false
        (pathTokens (String.ofList t.text) names ++ us) (ts ++ us') := by
  have hafter : rewritten p s locals previous (t :: (gone ++ rest)) last =
      t.gap ++ (text ++ rewritten p s locals ((gone.getLast?.getD t).text) rest last) := by
    unfold rewritten
    rw [parts_replaced hr]
    simp [Part.after]
  obtain ⟨hends, hnext⟩ := endsBefore_of_fits h hstop hfit (hnear.head hstop)
  obtain ⟨a, ha, haw⟩ := (Option.any_eq_true _ _).1 hword
  obtain ⟨b, hb, hbo⟩ := (Option.any_eq_true _ _).1 htext.starts
  have hx : (t.text ++ written (gone ++ rest) last).head? = some a := by
    rw [List.head?_append, ha]
    rfl
  have hy : (text ++ rewritten p s locals ((gone.getLast?.getD t).text) rest last).head? = some b := by
    rw [List.head?_append, hb]
    rfl
  have hgap' := hgap.gap (.operand hx haw hy hbo nofun)
  rw [hafter, written_cons]
  have hall : Lexes [] _ ([] ++ (ts ++ us')) :=
    Lexes.then hgap' (Lexes.then (htext.lexes _ hends) hlex)
  refine ⟨hall, ?_, .replace htext ⟨text, ho, htext⟩ hnext hs⟩
  cases hg : t.gap with
  | nil => exact .operand hx haw hy hbo hprevious
  | cons d g => exact .same rfl

end

/-- **A rewritten expression has the old tokens, with operands in the place of paths,** if each new
text fits what stands around it. -/
theorem rewritten_spliced {p : Patch} {s : Surroundings} {locals : List (List Char)}
    (htexts : ∀ names text, operand? p s locals names = some text → ∃ ts, OperandText text ts)
    {previous last : List Char} {tokens : List Token} {us : List Script.Token} {ended : Bool}
    (h : Paired last tokens us) (hfit : fits ended (parts p s locals previous tokens)) :
    ∃ us', Lexes [] (rewritten p s locals previous tokens last) us' ∧
      Near previous (written tokens last) (rewritten p s locals previous tokens last) ∧
      SplicedTokens (known p s locals) ended us us' := by
  induction hn : tokens.length using Nat.strongRecOn generalizing previous tokens us ended with
  | _ _ ih =>
    subst hn
    cases tokens with
    | nil =>
      cases h with
      | nil h =>
        refine ⟨[], ?_, .same ?_, .nil⟩
        · rwa [rewritten, parts]
        · rw [rewritten, parts]
          rfl
    | cons t ts =>
      cases hr : replacement? p s locals previous t ts with
      | none =>
        rw [parts_kept hr] at hfit
        have hcons := h
        cases h with
        | cons hgap htext htakes htells h =>
          obtain ⟨us', hlex, hnear, hs⟩ := ih ts.length (Nat.lt_succ_self _) h hfit rfl
          exact ⟨_, rewritten_kept hcons hr hlex hnear hs⟩
      | some r =>
        obtain ⟨n, text⟩ := r
        obtain ⟨hname, hprevious, gone, rest, names, rfl, rfl, hd, ho⟩ := replacement?_some hr
        rw [parts_replaced hr] at hfit
        simp only [fits, Bool.and_eq_true, Bool.not_eq_true', List.all_eq_true] at hfit
        obtain ⟨⟨⟨rfl, hkeyword⟩, hnext⟩, hfit⟩ := hfit
        have hnext : ∀ next ∈ rest.head?, fitsBefore text next := by
          intro next hm
          cases rest with
          | nil => cases hm
          | cons next rest =>
            obtain rfl := Option.some.inj hm
            obtain ⟨part, more, hparts, rfl⟩ : ∃ part more,
                parts p s locals (gone.getLast?.getD t).text (next :: rest) = part :: more ∧
                  part.first = next := parts_first
            rw [hparts] at hnext
            exact hnext
        obtain ⟨us₁, rfl, h, hstop, hword, hgap⟩ := h.name hname
        obtain ⟨us₂, rfl, hrest, hstop⟩ :=
          h.dotted hd (fun u hu => hkeyword u (List.mem_cons_of_mem _ hu)) hstop
        obtain ⟨ts, htext⟩ := htexts _ _ ho
        obtain ⟨us', hlex, hnear, hs⟩ := ih rest.length
          (by simp only [List.length_cons, List.length_append]; omega) hrest hfit rfl
        refine ⟨ts ++ us', ?_⟩
        have hname := wordToken_name (hkeyword t (List.mem_cons_self ..)) hname
        rw [hname]
        exact rewritten_replaced hr hprevious ho htext hnext hgap hword hrest hstop hlex hnear hs

end EnvManifest.Patch
