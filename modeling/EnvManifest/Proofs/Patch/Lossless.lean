import EnvManifest.Proofs.Patch.Scanning

/-!
# The tokens of an expression lose nothing

Every text has tokens, whatever it is. They stand in order at places of the text, none is empty, and
between them are blanks and comments and nothing else.
-/

namespace EnvManifest.Patch

open Text

/-! ## Gaps -/

/-- Blanks and comments with some text after them. A comment of one line runs to the end of the line,
and a long one to the first bracket that closes it, or to the end of the text without one. -/
inductive Skipped (rest : List Char) : List Char → Prop
  | nil : Skipped rest []
  | blank {c : Char} {cs : List Char} (blank : isAsciiBlank c) (more : Skipped rest cs) :
      Skipped rest (c :: cs)
  | line {body cs : List Char} (short : Script.openingLevel? body = none)
      (line : ∀ c ∈ body, c ≠ '\n') (ends : Breaks (cs ++ rest)) (more : Skipped rest cs) :
      Skipped rest ('-' :: '-' :: (body ++ cs))
  | long {level : Nat} {run cs : List Char}
      (closed : runThrough (longClose level) run = some run.length) (more : Skipped rest cs) :
      Skipped rest ('-' :: '-' :: '[' :: (List.replicate level '=' ++ '[' :: (run ++ cs)))
  | unclosed {level : Nat} {body : List Char} (never : runThrough (longClose level) body = none)
      (last : rest = []) :
      Skipped rest ('-' :: '-' :: '[' :: (List.replicate level '=' ++ '[' :: body))

theorem unbracketed_of_breaks {cs : List Char} (h : Breaks cs) : Script.Unbracketed cs := by
  intro c hc
  obtain rfl := h c hc
  decide

/-- A piece that is no token makes the gap after it longer. -/
theorem Skipped.piece {c : Char} {cs gap rest : List Char} {n : Nat} (hp : pieceAt c cs = (none, n))
    (hcs : cs.drop n = gap ++ rest) (more : Skipped rest gap) :
    Skipped rest (c :: cs.take n ++ gap) := by
  unfold pieceAt at hp
  split at hp
  · rename_i hblank
    obtain ⟨-, rfl⟩ := Prod.mk.inj hp
    exact .blank hblank more
  split at hp
  · rename_i hdash
    obtain ⟨-, rfl⟩ := Prod.mk.inj hp
    obtain ⟨rfl, hhead⟩ := hdash
    obtain ⟨ds, rfl⟩ := List.head?_eq_some_iff.1 hhead
    cases hl : Script.openingLevel? ds with
    | none =>
      obtain ⟨plain, ends⟩ := lineRun_split ds
      have short : Script.openingLevel? (ds.take (lineRun ds)) = none := by
        have hcongr := Script.openingLevel?_congr (ds.take (lineRun ds)) (unbracketed_of_breaks ends)
          (@unbracketed_of_breaks [] nofun)
        rwa [List.take_append_drop, hl, List.append_nil, eq_comm] at hcongr
      rw [commentRun_line hl, lineRun_cons, if_neg (by decide)] at hcs ⊢
      rw [List.drop_succ_cons] at hcs
      rw [hcs] at ends
      exact .line short plain ends more
    | some level =>
      obtain ⟨inner, rfl, hlevel⟩ := Script.openingLevel?_some hl
      have hinner := eq_of_longLevel? hlevel
      rw [commentRun_bracket, hlevel] at hcs ⊢
      dsimp only at hcs ⊢
      rw [Nat.add_comm 2, List.drop_succ_cons, List.drop_succ_cons] at hcs
      rw [Nat.add_comm 2, List.take_succ_cons, List.take_succ_cons]
      unfold longRun at hcs ⊢
      cases hrun : runThrough (longClose level) (inner.drop (level + 1)) with
      | none =>
        rw [hrun] at hcs
        dsimp only at hcs ⊢
        rw [List.drop_length] at hcs
        obtain ⟨rfl, rfl⟩ := List.append_eq_nil_iff.1 hcs.symm
        rw [List.take_length, List.append_nil, hinner]
        exact .unclosed hrun rfl
      | some k =>
        rw [hrun] at hcs
        dsimp only at hcs ⊢
        obtain ⟨-, fits, closed⟩ := runThrough_take (Script.longClose_ne_nil level) hrun
        have run : runThrough (longClose level) ((inner.drop (level + 1)).take k) =
            some ((inner.drop (level + 1)).take k).length := by
          rw [List.length_take_of_le fits, ← List.append_nil ((inner.drop (level + 1)).take k)]
          exact closed []
        have long := Skipped.long run more
        rw [take_of_longLevel? hlevel]
        simpa using long
  repeat' split at hp
  all_goals cases hp

/-! ## Tokens with gaps -/

/-- Between tokens, before the first and after the last, nothing but gaps. -/
def Spaced : List Token → List Char → Prop
  | [], last => Skipped [] last
  | t :: ts, last => Skipped (t.text ++ (ts.flatMap Token.source ++ last)) t.gap ∧ Spaced ts last

/-- Tokens with a longer gap before the first. Without tokens it is the gap at the end. -/
def widen (gap : List Char) : List Token × List Char → List Token × List Char
  | ([], last) => ([], gap ++ last)
  | (t :: ts, last) => ({ t with gap := gap ++ t.gap } :: ts, last)

theorem attach_append (gap more : List Char) (ps : List Piece) :
    attach (gap ++ more) ps = widen gap (attach more ps) := by
  fun_induction attach more ps with
  | case1 => rfl
  | case2 more x ps hx ih =>
    rw [attach, hx]
    dsimp only
    rw [List.append_assoc, ih]
  | case3 more x ps kind hx tokens last hattach ih =>
    rw [attach, hx]
    dsimp only
    rw [hattach]
    rfl

theorem Spaced.widen {gap : List Char} {r : List Token × List Char} (h : Spaced r.1 r.2)
    (longer : ∀ own rest, r.1.flatMap Token.source ++ r.2 = own ++ rest → Skipped rest own →
      Skipped rest (gap ++ own)) : Spaced (widen gap r).1 (widen gap r).2 := by
  obtain ⟨ts, last⟩ := r
  cases ts with
  | nil => exact longer last [] (by simp) h
  | cons t ts =>
    have rest : (t :: ts).flatMap Token.source ++ last =
        t.gap ++ (t.text ++ (ts.flatMap Token.source ++ last)) := by simp [Token.source]
    exact ⟨longer _ _ rest h.1, h.2⟩

/-- The tokens of any text have nothing but gaps between them. -/
theorem spaced_attach (cs : List Char) :
    Spaced (attach [] (pieces cs)).1 (attach [] (pieces cs)).2 := by
  fun_induction pieces cs with
  | case1 => exact .nil
  | case2 c cs kind n hpiece ih =>
    have hrest := attach_source [] (pieces (cs.drop n))
    rw [flatMap_pieces, List.nil_append] at hrest
    cases kind with
    | none =>
      have hattach : attach [] (⟨none, c :: cs.take n⟩ :: pieces (cs.drop n)) =
          Patch.widen (c :: cs.take n) (attach [] (pieces (cs.drop n))) := by
        rw [← attach_append, List.append_nil]
        rfl
      rw [hattach]
      refine ih.widen fun own rest hown hskipped => ?_
      exact hskipped.piece hpiece (hrest.symm.trans hown)
    | some kind => exact ⟨.nil, ih⟩

/-! ## Tokens in place -/

/-- A token stands in a text: it is what the text has between two places of it, and is not empty. -/
structure Placed.Stands (t : Placed) (source : List Char) : Prop where
  solid : t.start < t.stop
  starts : Boundary source t.start
  stops : Boundary source t.stop
  text : slice source t.start t.stop = t.text

/-- What stands between tokens from an offset on, each with what comes after it. -/
def gaps (source : List Char) (place : Nat) : List Placed → List (List Char × List Char)
  | [] => [(slice source place (byteLength source), [])]
  | t :: ts =>
    (slice source place t.start, slice source t.start (byteLength source)) :: gaps source t.stop ts

section

variable {source before last : List Char} {tokens : List Token}

theorem stands_of_located (h : source = before ++ (tokens.flatMap Token.source ++ last))
    (solid : ∀ t ∈ tokens, t.text ≠ []) :
    ∀ x ∈ located (byteLength before) tokens, x.Stands source := by
  induction tokens generalizing before with
  | nil => nofun
  | cons t ts ih =>
    have ht := byteLength_pos (solid t (List.mem_cons_self ..))
    have hown : source = before ++ t.gap ++ (t.text ++ (ts.flatMap Token.source ++ last)) := by
      simp [h, Token.source]
    have hafter : source = before ++ t.gap ++ t.text ++ (ts.flatMap Token.source ++ last) := by
      simp [h, Token.source]
    have hstart : byteLength before + byteLength t.gap = byteLength (before ++ t.gap) :=
      (byteLength_append ..).symm
    have hstop : byteLength (before ++ t.gap) + byteLength t.text =
        byteLength (before ++ t.gap ++ t.text) := (byteLength_append ..).symm
    rw [located, hstart, hstop, List.forall_mem_cons]
    refine ⟨⟨?_, ⟨_, _, hown, rfl⟩, ⟨_, _, hafter, rfl⟩, ?_⟩, ?_⟩
    · dsimp only
      omega
    · dsimp only
      rw [← hstop, hown, slice_split]
    · exact ih hafter fun u hu => solid u (List.mem_cons_of_mem _ hu)

theorem le_start_of_located {place : Nat} : ∀ x ∈ located place tokens, place ≤ x.start := by
  induction tokens generalizing place with
  | nil => nofun
  | cons t ts ih =>
    rw [located, List.forall_mem_cons]
    refine ⟨Nat.le_add_right .., fun x hx => ?_⟩
    have := ih x hx
    omega

theorem located_ordered (place : Nat) (tokens : List Token) :
    (located place tokens).Pairwise fun x y => x.stop ≤ y.start := by
  induction tokens generalizing place with
  | nil => exact .nil
  | cons t ts ih => exact .cons le_start_of_located (ih _)

theorem skipped_of_spaced (h : source = before ++ (tokens.flatMap Token.source ++ last))
    (spaced : Spaced tokens last) :
    ∀ g ∈ gaps source (byteLength before) (located (byteLength before) tokens),
      Skipped g.2 g.1 := by
  induction tokens generalizing before with
  | nil =>
    have hlast : slice source (byteLength before) (byteLength source) = last := by
      rw [h]
      exact slice_rest before last
    rw [located, gaps, List.forall_mem_singleton, hlast]
    exact spaced
  | cons t ts ih =>
    have hgap : source = before ++ (t.gap ++ (t.text ++ (ts.flatMap Token.source ++ last))) := by
      simp [h, Token.source]
    have hafter : source = before ++ t.gap ++ t.text ++ (ts.flatMap Token.source ++ last) := by
      simp [h, Token.source]
    have hown : slice source (byteLength before) (byteLength before + byteLength t.gap) = t.gap := by
      rw [hgap, slice_split]
    have hrest : slice source (byteLength before + byteLength t.gap) (byteLength source) =
        t.text ++ (ts.flatMap Token.source ++ last) := by
      rw [← byteLength_append, hgap, ← List.append_assoc, slice_rest]
    have hnext := ih hafter spaced.2
    rw [byteLength_append, byteLength_append] at hnext
    rw [located, gaps, List.forall_mem_cons]
    refine ⟨?_, hnext⟩
    dsimp only
    rw [hown, hrest]
    exact spaced.1

end

/-- **Any text has tokens, and they lose nothing.** The scanner comes to the end of it and takes no
part that is not there. Its tokens are those of the text. They are not empty, stand at places of the
text one behind another, and leave nothing but blanks and comments between them. -/
theorem scan_lossless (source : List Char) :
    ∃ tokens, scan source 0 = some tokens ∧
      tokens = located 0 (tokenize source).1 ∧
      (∀ t ∈ tokens, t.Stands source) ∧
      tokens.Pairwise (fun t u => t.stop ≤ u.start) ∧
      ∀ gap ∈ gaps source 0 tokens, Skipped gap.2 gap.1 := by
  have hsource : source = [] ++ ((tokenize source).1.flatMap Token.source ++ (tokenize source).2) :=
    (tokenize_source source).symm
  have solid : ∀ t ∈ (tokenize source).1, t.text ≠ [] := fun t ht => by
    obtain ⟨front, back, htokens⟩ := List.append_of_mem ht
    exact text_ne_nil htokens
  exact ⟨_, scan_eq source, rfl, stands_of_located hsource solid, located_ordered 0 _,
    skipped_of_spaced hsource (spaced_attach source)⟩

end EnvManifest.Patch
