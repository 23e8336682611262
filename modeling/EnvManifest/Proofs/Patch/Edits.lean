import EnvManifest.Proofs.Manifest.Tiling
import EnvManifest.Proofs.Patch.Fates

/-!
# A rewritten expression as edits of its source

A rewriter copies its source but for some ranges, which stand in order and do not overlap. Each of
them is the name of the parameter or a path to a known value. No string is touched, and no comment
but one inside a path.
-/

namespace EnvManifest.Patch

open Text

/-! ## Edits -/

/-- A range of a source, in bytes, and the text in its place. -/
structure Edit where
  start : Nat
  stop : Nat
  text : List Char

/-- The source from a place on, with the edits made. -/
def edited (source : List Char) (place : Nat) : List Edit → List Char
  | [] => slice source place (byteLength source)
  | e :: edits => slice source place e.start ++ e.text ++ edited source e.stop edits

/-- The edits stand in order from a place on. They do not overlap, and none splits a character. -/
def InOrder (source : List Char) (place : Nat) : List Edit → Prop
  | [] => place ≤ byteLength source
  | e :: edits => place ≤ e.start ∧ e.start < e.stop ∧ Boundary source e.start ∧
      Boundary source e.stop ∧ InOrder source e.stop edits

/-- A token or a part of a gap stands in a source, from one byte to another. -/
def Piece.Stands (x : Piece) (source : List Char) (start stop : Nat) : Prop :=
  ∃ front back, pieces source = front ++ x :: back ∧
    start = byteLength (front.flatMap (·.text)) ∧ stop = start + byteLength x.text

/-- The range is that of a token and some more tokens right behind it. The token before it, if there
is one, leaves a name free. -/
structure Edit.Covers (e : Edit) (source : List Char) (first : Token) (more : List Token) :
    Prop where
  run : ∃ front back, (tokenize source).1 = front ++ first :: (more ++ back) ∧
    e.start = byteLength (front.flatMap Token.source ++ first.gap) ∧
    ∀ u ∈ front.getLast?, String.ofList u.text ∉ [".", ":", "::", "local", "function", "goto"]
  stop : e.stop = e.start + byteLength (first.text ++ more.flatMap Token.source)

/-- What a rewriter may do. -/
inductive Edit.Permitted (e : Edit) (p : Patch) (s : Surroundings) (source : List Char) : Prop
  /-- The name of the parameter becomes its literal. -/
  | name {t : Token} {l : Literal} (covers : e.Covers source t []) (kind : t.kind = .name)
    (name : t.text = p.ident.toList) (literal : p.literal = some l) (new : e.text = l.source)
  /-- A path becomes the known value that it names. -/
  | path {t : Token} {more : List Token} {fields : List String} {v : Value}
    (covers : e.Covers source t more) (kind : t.kind = .name) (points : Dotted more fields)
    (value : Hint.value? s.hints (dotted (String.ofList t.text) fields) = some v)
    (new : v.source? = some e.text)
    (root : String.ofList t.text ≠ p.ident ∧ String.ofList t.text ∉ s.shadowed)

/-- The strings and comments around an edit are left alone: a string does not meet it, and a part of
a gap that meets it stands between two tokens of it. -/
structure Edit.Spares (e : Edit) (source : List Char) : Prop where
  strings : ∀ (x : Piece) a b, x.Stands source a b → x.kind = some .str →
    b ≤ e.start ∨ e.stop ≤ a
  gaps : ∀ (x : Piece) a b, x.Stands source a b → x.kind = none →
    b ≤ e.start ∨ e.stop ≤ a ∨ ∃ (y z : Piece) (c d c' d' : Nat),
      y.Stands source c d ∧ y.kind.isSome ∧ e.start ≤ c ∧ d ≤ a ∧
        z.Stands source c' d' ∧ z.kind.isSome ∧ b ≤ c' ∧ d' ≤ e.stop

/-! ## Copies -/

section

variable {source front own back : List Char} {edits : List Edit}

theorem byteLength_pos {cs : List Char} (h : cs ≠ []) : 0 < byteLength cs := by
  cases cs with
  | nil => exact absurd rfl h
  | cons c cs => exact Nat.lt_of_lt_of_le c.utf8Size_pos (Nat.le_add_right ..)

/-- A place in a text that is not before the end of a part of it. -/
theorem front_of_le {front' back' : List Char} (h : front ++ back = front' ++ back')
    (hle : byteLength front ≤ byteLength front') : ∃ more, front' = front ++ more := by
  obtain ⟨more, hmore, -⟩ | ⟨more, hmore, -⟩ := List.append_eq_append_iff.mp h
  · exact ⟨more, hmore⟩
  · cases more with
    | nil => exact ⟨[], by simpa using hmore.symm⟩
    | cons c more =>
      have := byteLength_pos (List.cons_ne_nil c more)
      rw [hmore, byteLength_append] at hle
      omega

/-- What comes before the first edit is copied. -/
theorem edited_copy (hsource : source = front ++ (own ++ back))
    (h : InOrder source (byteLength front + byteLength own) edits) :
    edited source (byteLength front) edits =
      own ++ edited source (byteLength front + byteLength own) edits := by
  have hassoc : source = (front ++ own) ++ back := by rw [hsource, List.append_assoc]
  have hlength : byteLength front + byteLength own = byteLength (front ++ own) :=
    (byteLength_append ..).symm
  cases edits with
  | nil =>
    have hrest : slice source (byteLength front) (byteLength source) = own ++ back := by
      rw [hsource, slice_rest]
    have hrest' : slice source (byteLength (front ++ own)) (byteLength source) = back := by
      rw [hassoc, slice_rest]
    rw [edited, edited, hlength, hrest, hrest']
  | cons e edits =>
    obtain ⟨hle, -, ⟨front', back', hboundary, hstart⟩, -⟩ := h
    obtain ⟨more, rfl⟩ : ∃ more, front' = front ++ own ++ more := by
      apply front_of_le (hassoc.symm.trans hboundary)
      rw [byteLength_append, hstart]
      exact hle
    have hwhole : slice source (byteLength front) e.start = own ++ more := by
      have hsplit := slice_split front (own ++ more) back'
      rwa [← byteLength_append, ← List.append_assoc, ← List.append_assoc, hstart, ← hboundary]
        at hsplit
    have hpart : slice source (byteLength (front ++ own)) e.start = more := by
      have hsplit := slice_split (front ++ own) more back'
      rwa [← byteLength_append, ← List.append_assoc, hstart, ← hboundary] at hsplit
    rw [edited, edited, hlength, hwhole, hpart]
    simp

theorem InOrder.earlier {place place' : Nat} (h : InOrder source place edits)
    (hle : place' ≤ place) : InOrder source place' edits := by
  cases edits with
  | nil => exact Nat.le_trans hle h
  | cons e edits => exact ⟨Nat.le_trans hle h.1, h.2⟩

end

/-! ## Pieces of tokens -/

/-- The piece of a token. -/
def Token.piece (t : Token) : Piece := ⟨some t.kind, t.text⟩

theorem ne_nil_of_mem_pieces {cs : List Char} {x : Piece} (h : x ∈ pieces cs) : x.text ≠ [] := by
  fun_induction pieces cs with
  | case1 => cases h
  | case2 c cs kind n hpiece ih =>
    obtain rfl | h := List.mem_cons.1 h
    · exact List.cons_ne_nil _ _
    · exact ih h

/-- Where a token stands among tokens, its piece stands among the pieces. -/
theorem attach_split {gap : List Char} {ps : List Piece} {front back : List Token} {t : Token}
    (h : (attach gap ps).1 = front ++ t :: back) : ∃ before after,
      ps = before ++ t.piece :: after ∧ (attach [] after).1 = back ∧
      gap ++ before.flatMap (·.text) = front.flatMap Token.source ++ t.gap ∧
      ∀ x ∈ before, x.kind = none ∨ ∃ u ∈ front, x = u.piece := by
  fun_induction attach gap ps generalizing front with
  | case1 gap => simp at h
  | case2 gap x ps hx ih =>
    obtain ⟨before, after, rfl, hafter, htext, hbefore⟩ := ih h
    refine ⟨x :: before, after, rfl, hafter, ?_, List.forall_mem_cons.2 ⟨.inl hx, hbefore⟩⟩
    rw [List.flatMap_cons, ← List.append_assoc]
    exact htext
  | case3 gap x ps kind hx tokens last hattach ih =>
    rw [hattach] at ih
    cases front with
    | nil =>
      obtain ⟨rfl, rfl⟩ := List.cons.inj h
      refine ⟨[], ps, ?_, ?_, by simp, List.forall_mem_nil _⟩
      · rw [Token.piece, ← hx, List.nil_append]
      · rw [hattach]
    | cons u front =>
      obtain ⟨rfl, htokens⟩ := List.cons.inj h
      obtain ⟨before, after, rfl, hafter, htext, hbefore⟩ := ih htokens
      refine ⟨x :: before, after, rfl, hafter, ?_, ?_⟩
      · rw [List.nil_append] at htext
        simp [htext, Token.source]
      · refine List.forall_mem_cons.2 ⟨.inr ⟨_, List.mem_cons_self .., ?_⟩, fun y hy => ?_⟩
        · rw [Token.piece, ← hx]
        · obtain hnone | ⟨v, hv, rfl⟩ := hbefore y hy
          · exact .inl hnone
          · exact .inr ⟨v, List.mem_cons_of_mem _ hv, rfl⟩

/-- The pieces of some tokens at the start end with the last of them. -/
theorem attach_run {ps : List Piece} {run back : List Token} (h : (attach [] ps).1 = run ++ back) :
    ∃ middle after, ps = middle ++ after ∧
      middle.flatMap (·.text) = run.flatMap Token.source ∧
      (∀ x ∈ middle, x.kind = none ∨ ∃ u ∈ run, x = u.piece) ∧
      ∀ x ∈ middle.getLast?, x.kind.isSome := by
  induction run generalizing ps with
  | nil => exact ⟨[], ps, rfl, rfl, List.forall_mem_nil _, by simp⟩
  | cons t run ih =>
    have h : (attach [] ps).1 = [] ++ t :: (run ++ back) := h
    obtain ⟨before, after, rfl, hafter, htext, hbefore⟩ := attach_split h
    obtain ⟨middle, after, rfl, hmiddle, hkinds, hlast⟩ := ih hafter
    refine ⟨before ++ t.piece :: middle, after, by simp, ?_, ?_, ?_⟩
    · simp only [List.nil_append, List.flatMap_nil] at htext
      rw [List.flatMap_append, List.flatMap_cons, hmiddle, htext]
      simp [Token.source, Token.piece]
    · intro x hx
      obtain hx | hx := List.mem_append.1 hx
      · obtain hnone | ⟨u, hu, -⟩ := hbefore x hx
        · exact .inl hnone
        · exact absurd hu List.not_mem_nil
      obtain rfl | hx := List.mem_cons.1 hx
      · exact .inr ⟨t, List.mem_cons_self .., rfl⟩
      · obtain hnone | ⟨u, hu, rfl⟩ := hkinds x hx
        · exact .inl hnone
        · exact .inr ⟨u, List.mem_cons_of_mem _ hu, rfl⟩
    · intro x hx
      rw [List.getLast?_append, List.getLast?_cons] at hx
      cases hmiddle : middle.getLast? with
      | none =>
        rw [hmiddle] at hx
        obtain rfl := Option.some.inj hx
        rfl
      | some y =>
        rw [hmiddle] at hx hlast
        obtain rfl := Option.some.inj hx
        exact hlast _ rfl

/-- A string is no point. -/
theorem ne_point_of_mem_pieces {cs : List Char} {x : Piece} (h : x ∈ pieces cs)
    (hstr : x.kind = some .str) : x.text ≠ ['.'] := by
  fun_induction pieces cs with
  | case1 => cases h
  | case2 c cs kind n hpiece ih =>
    obtain rfl | h := List.mem_cons.1 h
    · intro htext
      obtain ⟨rfl, -⟩ := List.cons.inj htext
      obtain rfl : kind = some .str := hstr
      unfold pieceAt at hpiece
      simp only [show isAsciiBlank '.' = false from rfl, show isDigit '.' = false from rfl,
        show isNameStart '.' = false from rfl] at hpiece
      by_cases hd : cs.head?.any isDigit <;> simp [hd] at hpiece
    · exact ih h

theorem mem_left_or_right {α : Type} {as bs front back : List α} {x : α}
    (h : as ++ bs = front ++ x :: back) :
    (∃ more, as = front ++ x :: more) ∨ ∃ more, front = as ++ more ∧ bs = more ++ x :: back := by
  obtain ⟨more, rfl, hbs⟩ | ⟨more, rfl, hback⟩ := List.append_eq_append_iff.1 h
  · exact .inr ⟨more, rfl, hbs⟩
  · cases more with
    | nil => exact .inr ⟨[], by simp, by simpa using hback.symm⟩
    | cons y more =>
      obtain ⟨rfl, -⟩ := List.cons.inj hback
      exact .inl ⟨more, rfl⟩

/-! ## What a rewriter may do -/

section

variable {p : Patch} {s : Surroundings} {source : List Char} {e : Edit}

/-- Tokens that stand in a row have pieces in a row, with nothing but gaps between them. -/
theorem Edit.Covers.pieces {t : Token} {more : List Token} (h : e.Covers source t more) :
    ∃ before middle after, Patch.pieces source = before ++ (t.piece :: middle ++ after) ∧
      e.start = byteLength (before.flatMap (·.text)) ∧
      e.stop = e.start + byteLength ((t.piece :: middle).flatMap (·.text)) ∧
      (∀ x ∈ middle, x.kind = none ∨ ∃ u ∈ more, x = u.piece) ∧
      ∀ x ∈ middle.getLast?, x.kind.isSome := by
  obtain ⟨front, back, htokens, hstart, -⟩ := h.run
  obtain ⟨before, after, hpieces, hafter, htext, -⟩ := attach_split htokens
  obtain ⟨middle, after, rfl, hmiddle, hkinds, hlast⟩ := attach_run hafter
  refine ⟨before, middle, after, hpieces, ?_, ?_, hkinds, hlast⟩
  · rw [hstart, ← htext, List.nil_append]
  · rw [h.stop, List.flatMap_cons, hmiddle]
    rfl

theorem Dotted.point_or_name {ts : List Token} {names : List String} (h : Dotted ts names) :
    ∀ u ∈ ts, u.text = ['.'] ∨ u.kind = .name := by
  induction h with
  | nil => nofun
  | cons hdot hname h ih =>
    exact List.forall_mem_cons.2 ⟨.inl hdot, List.forall_mem_cons.2 ⟨.inr hname, ih⟩⟩

/-- The tokens of an edit are names and points. -/
theorem Edit.Permitted.covers (h : e.Permitted p s source) : ∃ t more, e.Covers source t more ∧
    ∀ u ∈ t :: more, u.text = ['.'] ∨ u.kind = .name := by
  cases h with
  | name covers kind => exact ⟨_, [], covers, List.forall_mem_cons.2 ⟨.inr kind, nofun⟩⟩
  | path covers kind points =>
    exact ⟨_, _, covers, List.forall_mem_cons.2 ⟨.inr kind, points.point_or_name⟩⟩

/-- A piece that stands in a source is before some pieces in a row, behind them or one of them. -/
theorem Piece.Stands.place {x : Piece} {a b : Nat} {before run after : List Piece}
    (hx : x.Stands source a b) (hpieces : pieces source = before ++ (run ++ after)) :
    b ≤ byteLength (before.flatMap (·.text)) ∨
      byteLength (before.flatMap (·.text)) + byteLength (run.flatMap (·.text)) ≤ a ∨
      ∃ own rest, run = own ++ x :: rest ∧
        a = byteLength (before.flatMap (·.text)) + byteLength (own.flatMap (·.text)) ∧
        b = a + byteLength x.text := by
  obtain ⟨front, back, hsplit, rfl, rfl⟩ := hx
  rw [hpieces] at hsplit
  obtain ⟨more, rfl⟩ | ⟨own, rfl, hrun⟩ := mem_left_or_right hsplit
  · left
    simp only [List.flatMap_append, List.flatMap_cons, byteLength_append]
    omega
  obtain ⟨rest, hrun⟩ | ⟨more, rfl, -⟩ := mem_left_or_right hrun
  · refine .inr (.inr ⟨own, rest, hrun, ?_, rfl⟩)
    rw [List.flatMap_append, byteLength_append]
  · right; left
    simp only [List.flatMap_append, byteLength_append]
    omega

/-- No string meets an edit whose tokens are names and points. -/
theorem Edit.Covers.strings {t : Token} {more : List Token} (h : e.Covers source t more)
    (htokens : ∀ u ∈ t :: more, u.text = ['.'] ∨ u.kind = .name) {x : Piece} {a b : Nat}
    (hx : x.Stands source a b) (hstr : x.kind = some .str) : b ≤ e.start ∨ e.stop ≤ a := by
  obtain ⟨before, middle, after, hpieces, hstart, hstop, hkinds, -⟩ := h.pieces
  rw [hstop, hstart]
  obtain hx' | hx' | ⟨own, rest, hrun, -⟩ := hx.place hpieces
  · exact .inl hx'
  · exact .inr hx'
  have hmem : x ∈ t.piece :: middle := by
    rw [hrun]
    exact List.mem_append_right _ (List.mem_cons_self ..)
  obtain ⟨u, hu, rfl⟩ : ∃ u ∈ t :: more, x = u.piece := by
    obtain rfl | hmem := List.mem_cons.1 hmem
    · exact ⟨t, List.mem_cons_self .., rfl⟩
    · obtain hnone | ⟨u, hu, rfl⟩ := hkinds x hmem
      · rw [hnone] at hstr
        cases hstr
      · exact ⟨u, List.mem_cons_of_mem _ hu, rfl⟩
  obtain hpoint | hname := htokens u hu
  · have hmem : u.piece ∈ Patch.pieces source := by
      rw [hpieces]
      exact List.mem_append_right _ (List.mem_append_left _ hmem)
    exact absurd hpoint (ne_point_of_mem_pieces hmem hstr)
  · rw [Token.piece, hname] at hstr
    cases hstr

/-- A part of a gap that meets an edit is between two tokens of it, since the edit starts and ends
with a token. -/
theorem Edit.Covers.gaps {t : Token} {more : List Token} (h : e.Covers source t more) {x : Piece}
    {a b : Nat} (hx : x.Stands source a b) (hnone : x.kind = none) :
    b ≤ e.start ∨ e.stop ≤ a ∨ ∃ (y z : Piece) (c d c' d' : Nat),
      y.Stands source c d ∧ y.kind.isSome ∧ e.start ≤ c ∧ d ≤ a ∧
        z.Stands source c' d' ∧ z.kind.isSome ∧ b ≤ c' ∧ d' ≤ e.stop := by
  obtain ⟨before, middle, after, hpieces, hstart, hstop, -, hlast⟩ := h.pieces
  obtain hx' | hx' | ⟨own, rest, hrun, ha, hb⟩ := hx.place hpieces
  · exact .inl (hstart ▸ hx')
  · exact .inr (.inl (by rwa [hstop, hstart]))
  rw [← hstart] at ha
  obtain ⟨own, rfl, hmiddle⟩ : ∃ own', own = t.piece :: own' ∧ middle = own' ++ x :: rest := by
    cases own with
    | nil =>
      obtain ⟨rfl, -⟩ := List.cons.inj hrun
      cases hnone
    | cons y own =>
      obtain ⟨rfl, hmiddle⟩ := List.cons.inj hrun
      exact ⟨own, rfl, hmiddle⟩
  obtain ⟨rest, z, rfl⟩ : ∃ rest' z, rest = rest' ++ [z] := by
    obtain rfl | ⟨rest, z, rfl⟩ := List.eq_nil_or_concat rest
    · have hsome := hlast x (by simp [hmiddle])
      rw [hnone] at hsome
      cases hsome
    · exact ⟨rest, z, by simp⟩
  have hz : z.kind.isSome := hlast z (by
    rw [hmiddle, ← List.cons_append, ← List.append_assoc, List.getLast?_concat]
    rfl)
  refine .inr (.inr ⟨t.piece, z, e.start, e.start + byteLength t.text,
    b + byteLength (rest.flatMap (·.text)), e.stop, ?_, rfl, Nat.le_refl _, ?_, ?_, hz,
    Nat.le_add_right .., Nat.le_refl _⟩)
  · exact ⟨before, middle ++ after, hpieces, hstart, rfl⟩
  · simp only [ha, List.flatMap_cons, byteLength_append, Token.piece]
    omega
  · refine ⟨before ++ t.piece :: (own ++ x :: rest), after, ?_, ?_, ?_⟩
    · rw [hpieces, hmiddle]
      simp
    · simp only [hb, ha, hstart, List.flatMap_append, List.flatMap_cons, byteLength_append]
      omega
    · simp only [hstop, hb, ha, hmiddle, List.flatMap_append, List.flatMap_cons,
        List.flatMap_nil, byteLength_append, byteLength_nil]
      omega

theorem Edit.Permitted.spares (h : e.Permitted p s source) : e.Spares source := by
  obtain ⟨t, more, covers, htokens⟩ := h.covers
  exact ⟨fun _ _ _ hx => covers.strings htokens hx, fun _ _ _ hx => covers.gaps hx⟩

/-- A name that is replaced stands where a name can be a reference. -/
theorem replacement?_allows {locals : List (List Char)} {previous : List Char} {t : Token}
    {after : List Token} {r : Nat × List Char}
    (h : replacement? p s locals previous t after = some r) : allowsReference previous := by
  unfold replacement? at h
  split at h
  · cases h
  · rename_i hfree
    simp only [not_or, Bool.not_eq_true', Bool.not_eq_false] at hfree
    exact hfree.2.1

theorem operand?_some {locals : List (List Char)} {root : String} {fields : List String}
    {text : List Char} (h : operand? p s locals (root :: fields) = some text) :
    (root = p.ident ∧ fields = [] ∧ ∃ l, p.literal = some l ∧ text = l.source) ∨
      (root ≠ p.ident ∧ root ∉ s.shadowed ∧
        ∃ v, Hint.value? s.hints (dotted root fields) = some v ∧ v.source? = some text) := by
  simp only [operand?] at h
  split at h
  · cases h
  split at h
  · rename_i hident
    split at h
    · rename_i hfields
      obtain ⟨l, hl, rfl⟩ := Option.map_eq_some_iff.1 h
      exact .inl ⟨hident, hfields, l, hl, rfl⟩
    · cases h
  rename_i hident
  split at h
  · cases h
  · rename_i hshadowed
    exact .inr ⟨hident, by simpa using hshadowed, Option.bind_eq_some_iff.1 h⟩

/-- The text of a token is not empty. -/
theorem text_ne_nil {front back : List Token} {t : Token}
    (h : (tokenize source).1 = front ++ t :: back) : t.text ≠ [] := by
  obtain ⟨before, after, hpieces, -⟩ := attach_split h
  have hmem : t.piece ∈ pieces source := by
    rw [hpieces]
    exact List.mem_append_right _ (List.mem_cons_self ..)
  exact ne_nil_of_mem_pieces hmem

/-- The edit that puts a text in the place of tokens. -/
def Edit.ofRun (front : List Token) (t : Token) (more : List Token) (text : List Char) : Edit :=
  let start := byteLength (front.flatMap Token.source ++ t.gap)
  ⟨start, start + byteLength (t.text ++ more.flatMap Token.source), text⟩

section

variable {front more : List Token} {t : Token} {back : List Char} (text : List Char)
  (h : source = front.flatMap Token.source ++ ((t :: more).flatMap Token.source ++ back))
include h

theorem Edit.ofRun_boundaries : Boundary source (Edit.ofRun front t more text).start ∧
    Boundary source (Edit.ofRun front t more text).stop := by
  constructor
  · refine ⟨front.flatMap Token.source ++ t.gap, t.text ++ more.flatMap Token.source ++ back, ?_,
      rfl⟩
    simp [h, Token.source]
  · refine ⟨front.flatMap Token.source ++ (t :: more).flatMap Token.source, back, ?_, ?_⟩
    · rw [h, List.append_assoc]
    · simp [Edit.ofRun, Token.source, Nat.add_assoc]

/-- Between the tokens before and the edit stands the gap of its first token. -/
theorem Edit.ofRun_slice : slice source (byteLength (front.flatMap Token.source))
    (Edit.ofRun front t more text).start = t.gap := by
  have hsplit := slice_split (front.flatMap Token.source) t.gap
    (t.text ++ more.flatMap Token.source ++ back)
  have hwhole : source = front.flatMap Token.source ++
      (t.gap ++ (t.text ++ more.flatMap Token.source ++ back)) := by simp [h, Token.source]
  rwa [← hwhole, ← byteLength_append] at hsplit

end

/-- A replacement is a permitted edit. -/
theorem permitted_ofRun {locals : List (List Char)} {front gone rest : List Token} {t : Token}
    {text : List Char} (h : (tokenize source).1 = front ++ t :: (gone ++ rest))
    (hr : replacement? p s locals (lastText [] front) t (gone ++ rest) =
      some (gone.length, text)) :
    (Edit.ofRun front t gone text).Permitted p s source := by
  have hallows := replacement?_allows hr
  obtain ⟨hkind, -, gone', rest', names, hsplit, hlength, hdotted, hoperand⟩ :=
    replacement?_some hr
  obtain ⟨rfl, rfl⟩ := List.append_inj hsplit hlength
  have hcovers : (Edit.ofRun front t gone text).Covers source t gone := by
    refine ⟨⟨front, rest, h, rfl, fun u hu => ?_⟩, rfl⟩
    have hlast : lastText [] front = u.text := by
      rw [lastText, Option.mem_def.1 hu]
      rfl
    rw [hlast] at hallows
    simpa [allowsReference] using hallows
  obtain ⟨hident, rfl, l, hl, rfl⟩ | ⟨hident, hshadowed, v, hv, hsource⟩ := operand?_some hoperand
  · cases hdotted
    refine .name hcovers hkind ?_ hl rfl
    rw [← hident, String.toList_ofList]
  · exact .path hcovers hkind hdotted hv hsource ⟨hident, hshadowed⟩

/-! ## Rewriting -/

/-- The parts from some token on are edits of the source from there on. The place at which the copy
goes on is the end of the tokens before. -/
theorem edits_of_parts (locals : List (List Char)) {front tokens : List Token} {last : List Char}
    (h : tokenize source = (front ++ tokens, last)) : ∃ edits,
      InOrder source (byteLength (front.flatMap Token.source)) edits ∧
      (parts p s locals (lastText [] front) tokens).flatMap Part.after ++ last =
        edited source (byteLength (front.flatMap Token.source)) edits ∧
      ∀ e ∈ edits, e.Permitted p s source := by
  have hsource : source = front.flatMap Token.source ++ (tokens.flatMap Token.source ++ last) := by
    have := tokenize_source source
    rw [h] at this
    simpa using this.symm
  induction hlength : tokens.length using Nat.strongRecOn generalizing front tokens with
  | _ k ih =>
    subst hlength
    cases tokens with
    | nil =>
      rw [List.flatMap_nil, List.nil_append] at hsource
      refine ⟨[], ?_, ?_, nofun⟩
      · rw [InOrder, hsource, byteLength_append]
        exact Nat.le_add_right ..
      · rw [parts, edited, hsource, slice_rest]
        rfl
    | cons t ts =>
      cases hr : replacement? p s locals (lastText [] front) t ts with
      | none =>
        have hnext : tokenize source = (front ++ [t] ++ ts, last) := by simpa using h
        obtain ⟨edits, horder, htext, hall⟩ :=
          ih ts.length (Nat.lt_succ_self _) hnext (by simpa using hsource) rfl
        have hplace : byteLength ((front ++ [t]).flatMap Token.source) =
            byteLength (front.flatMap Token.source) + byteLength t.source := by simp
        rw [hplace] at horder htext
        rw [lastText_append] at htext
        refine ⟨edits, horder.earlier (Nat.le_add_right ..), ?_, hall⟩
        rw [List.flatMap_cons, List.append_assoc] at hsource
        rw [parts_kept hr, edited_copy hsource horder, ← htext]
        simp [Part.after, lastText]
      | some r =>
        obtain ⟨n, text⟩ := r
        obtain ⟨-, -, gone, rest, names, rfl, rfl, -⟩ := replacement?_some hr
        have hnext : tokenize source = (front ++ t :: gone ++ rest, last) := by simpa using h
        obtain ⟨edits, horder, htext, hall⟩ := ih rest.length
          (by simp only [List.length_cons, List.length_append]; omega) hnext
          (by simpa using hsource) rfl
        have htokens : (tokenize source).1 = front ++ t :: (gone ++ rest) := congrArg Prod.fst h
        have hplace : byteLength ((front ++ t :: gone).flatMap Token.source) =
            (Edit.ofRun front t gone text).stop := by
          simp [Edit.ofRun, Token.source, Nat.add_assoc]
        rw [hplace] at horder htext
        rw [lastText_append, lastText_cons, lastText_gone] at htext
        rw [← List.cons_append, List.flatMap_append, List.append_assoc] at hsource
        obtain ⟨hstart, hstop⟩ := Edit.ofRun_boundaries text hsource
        have hpos := byteLength_pos (text_ne_nil htokens)
        refine ⟨Edit.ofRun front t gone text :: edits, ⟨?_, ?_, hstart, hstop, horder⟩, ?_,
          List.forall_mem_cons.2 ⟨permitted_ofRun htokens hr, hall⟩⟩
        · simp [Edit.ofRun]
        · simp only [Edit.ofRun, byteLength_append]
          omega
        · rw [parts_replaced hr, edited, ← htext, Edit.ofRun_slice text hsource]
          simp [Part.after, Edit.ofRun]

theorem value?_some {hints : List Hint} {path : String} {v : Value}
    (h : Hint.value? hints path = some v) : ∃ hint ∈ hints, hint.known = .value v := by
  unfold Hint.value? at h
  split at h
  · rename_i found
    obtain rfl := Option.some.inj h
    exact ⟨_, List.mem_of_find?_eq_some found, rfl⟩
  · cases h

theorem edits_of_apply (p : Patch) (s : Surroundings) (source : String) :
    ∃ edits, InOrder source.toList 0 edits ∧
      (p.apply s source).toList = edited source.toList 0 edits ∧
      ∀ e ∈ edits, e.Permitted p s source.toList := by
  have htokens : tokenize source.toList =
      ([] ++ (tokenize source.toList).1, (tokenize source.toList).2) := rfl
  obtain ⟨edits, horder, htext, hall⟩ :=
    edits_of_parts (p := p) (s := s) (declared (tokenize source.toList).1) htokens
  refine ⟨edits, horder, ?_, hall⟩
  unfold apply
  rw [String.toList_ofList]
  exact htext

/-- Where no literal and no known value is, an expression stays as it was. -/
theorem apply_of_nothing_known {source : String} (hp : p.literal = none)
    (hs : ∀ hint ∈ s.hints, ∀ v, hint.known ≠ .value v) : p.apply s source = source := by
  obtain ⟨edits, -, htext, hall⟩ := edits_of_apply p s source
  cases edits with
  | nil =>
    rw [edited] at htext
    exact String.toList_inj.1 (htext.trans (slice_rest [] source.toList))
  | cons e edits =>
    cases hall e (List.mem_cons_self ..) with
    | name _ _ _ literal =>
      rw [hp] at literal
      cases literal
    | path _ _ _ value =>
      obtain ⟨hint, hmem, hknown⟩ := value?_some value
      exact absurd hknown (hs hint hmem _)

end

/-- **A rewriter touches only what it may.** The rewritten expression is its source with some ranges
replaced. They stand in order and do not overlap. Each of them is the name of the parameter or a
path to a known value, and the strings and comments around it are left alone. -/
theorem apply_edits (ident : String) (text : Option String) (s : Surroundings) (source : String) :
    (∃ edits, InOrder source.toList 0 edits ∧
      ((ofParameter ident text).apply s source).toList = edited source.toList 0 edits ∧
      ∀ e ∈ edits, e.Permitted (ofParameter ident text) s source.toList ∧ e.Spares source.toList) ∧
    (text.bind Literal.ofText? = none → (∀ hint ∈ s.hints, ∀ v, hint.known ≠ .value v) →
      (ofParameter ident text).apply s source = source) := by
  obtain ⟨edits, horder, htext, hall⟩ := edits_of_apply (ofParameter ident text) s source
  refine ⟨⟨edits, horder, htext, fun e he => ⟨hall e he, (hall e he).spares⟩⟩, fun hnone hs => ?_⟩
  exact apply_of_nothing_known hnone hs

/-- A word is no literal, and a function is no value. -/
theorem word_and_function_stay :
    (some "web").bind Literal.ofText? = none ∧
      (∀ hint ∈ [(⟨"env", .function⟩ : Hint)], ∀ v, hint.known ≠ .value v) ∧
      (ofParameter "name" (some "web")).apply ⟨[⟨"env", .function⟩], []⟩ "env(name) -- é" =
        "env(name) -- é" := by
  have hword : (some "web").bind Literal.ofText? = none := by cbv
  have hhints : ∀ hint ∈ [(⟨"env", .function⟩ : Hint)], ∀ v, hint.known ≠ .value v := by simp
  exact ⟨hword, hhints, (apply_edits "name" (some "web") ⟨[⟨"env", .function⟩], []⟩
    "env(name) -- é").2 hword hhints⟩

end EnvManifest.Patch
