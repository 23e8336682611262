import EnvManifest.Proofs.Patch.Pieces
import EnvManifest.Proofs.Script.Splicing

/-!
# The tokens of a rewriter and of a program

An expression that the engine can read has the same tokens for the rewriter, one by one.
-/

namespace EnvManifest.Patch

open Text
open Script (Lexes Takes)

/-- The text of tokens and of the gap at the end. -/
def written (ts : List Token) (last : List Char) : List Char := ts.flatMap Token.source ++ last

theorem written_cons (t : Token) (ts : List Token) (last : List Char) :
    written (t :: ts) last = t.gap ++ (t.text ++ written ts last) := by
  simp [written, Token.source]

/-- Tokens of an expression, with the gap after them, and the same tokens of its program. -/
inductive Paired (last : List Char) : List Token → List Script.Token → Prop
  | nil (h : Lexes [] last []) : Paired last [] []
  | cons {t : Token} {ts : List Token} {u : Script.Token} {us : List Script.Token} {c : Char}
    {v : List Char} (hgap : Lexes (t.text ++ written ts last) t.gap []) (htext : t.text = c :: v)
    (htakes : Takes c (v ++ written ts last) (some u) v.length)
    (htells : Tells (some t.kind) t.text (some u)) (h : Paired last ts us) :
    Paired last (t :: ts) (u :: us)

theorem written_attach (gap cs : List Char) :
    written (attach gap (pieces cs)).1 (attach gap (pieces cs)).2 = gap ++ cs := by
  rw [written, attach_source, flatMap_pieces]

theorem pieces_cons (c : Char) (cs : List Char) :
    pieces (c :: cs) =
      ⟨(pieceAt c cs).1, c :: cs.take (pieceAt c cs).2⟩ :: pieces (cs.drop (pieceAt c cs).2) := by
  rw [pieces]

/-- A piece alone, whatever follows it. -/
theorem lexes_one {c : Char} {v y : List Char} {t : Option Script.Token}
    (h : Takes c (v ++ y) t v.length) : Lexes y (c :: v) t.toList := by
  have hone : Lexes y ((c :: v) ++ []) (t.toList ++ []) := .cons h .nil
  rwa [List.append_nil, List.append_nil] at hone

theorem Tells.kind_of_gap {kind : Option Kind} {cs : List Char} (h : Tells kind cs none) :
    kind = none := by
  cases h
  rfl

theorem Tells.kind_of_token {kind : Option Kind} {cs : List Char} {u : Script.Token}
    (h : Tells kind cs (some u)) : ∃ k, kind = some k := by
  cases h <;> exact ⟨_, rfl⟩

theorem paired_of_lexes {cs gap : List Char} {us : List Script.Token} (h : Lexes [] cs us)
    (hp : Plain cs) (hgap : Lexes cs gap []) :
    Paired (attach gap (pieces cs)).2 (attach gap (pieces cs)).1 us := by
  induction h generalizing gap with
  | nil =>
    rw [pieces]
    exact .nil hgap
  | @cons c v w t us h hw ih =>
    rw [List.append_nil] at h
    have hpw : Plain w := fun d hd => hp d (List.mem_cons_of_mem c (List.mem_append_right v hd))
    obtain ⟨kind, hpiece, htells⟩ := pieceAt_eq (Script.tokenAt_shape (h.1 1) h.2) hp
    rw [List.take_left] at htells
    rw [pieces_cons, hpiece]
    dsimp only
    rw [List.take_left, List.drop_left]
    cases t with
    | none =>
      obtain rfl := htells.kind_of_gap
      have hlonger : Lexes w (gap ++ c :: v) ([] ++ none.toList) := hgap.append (lexes_one h)
      exact ih hpw hlonger
    | some u =>
      obtain ⟨k, rfl⟩ := htells.kind_of_token
      have hw := written_attach [] w
      rw [List.nil_append] at hw
      have hattach : attach gap (⟨some k, c :: v⟩ :: pieces w) =
          (⟨gap, k, c :: v⟩ :: (attach [] (pieces w)).1, (attach [] (pieces w)).2) := rfl
      rw [hattach]
      exact .cons (by rwa [hw]) rfl (by rwa [hw]) htells (ih hpw .nil)

/-- The tokens of an expression without faults. -/
theorem paired_tokenize {cs : List Char} {us : List Script.Token} (h : Lexes [] cs us)
    (hp : Plain cs) : Paired (tokenize cs).2 (tokenize cs).1 us :=
  paired_of_lexes h hp .nil

/-! ## What a token is for the parser -/

/-- Can a call or an access follow on the token? -/
def Token.ends (t : Token) : Bool :=
  match t.kind with
  | .name => !Script.keywords.contains (String.ofList t.text)
  | .str => true
  | .number => false
  | .punct => [")", "]", "\x7d"].contains (String.ofList t.text)

/-- Does the token go on with the operand before it? -/
def Token.extends (t : Token) : Bool :=
  match t.kind with
  | .name => false
  | .str => true
  | .number => false
  | .punct => [".", "[", ":", "(", "\x7b"].contains (String.ofList t.text)

theorem shownSymbol_head {c : Char} (hc : Script.tokenAt.isPrintable c = false) :
    (Script.shownSymbol c).toList.head? = some '<' := by
  have hc : ¬(0x20 ≤ c.toNat ∧ c.toNat ≤ 0x7E) := by
    simpa [Script.tokenAt.isPrintable] using hc
  rw [Script.shownSymbol, if_neg hc, String.toList_append, String.toList_append]
  rfl

/-- A mark of the language is the text of its token. -/
theorem text_of_mark {kind : Option Kind} {cs : List Char} {m : String}
    (h : Tells kind cs (some (.mark m))) (hk : m ∉ Script.keywords) (hm : m.toList.head? ≠ some '<') :
    cs = m.toList ∧ kind = some .punct := by
  generalize hu : some (Script.Token.mark m) = u at h
  cases h with
  | name =>
    obtain hu := Option.some.inj hu
    unfold Script.wordToken at hu
    split at hu
    · rename_i hword
      cases hu
      exact absurd (List.contains_iff_mem.1 hword) hk
    · cases hu
  | punct cs =>
    cases hu
    exact ⟨(String.toList_ofList).symm, rfl⟩
  | other hc =>
    cases hu
    exact absurd (shownSymbol_head hc) hm
  | _ => cases hu

/-- No symbol of the language is a keyword, or shows a character by its number. -/
theorem not_contains_other {marks : List String}
    (hmarks : ∀ m ∈ marks, m.toList.head? ≠ some '<' ∧ m.toList.head?.all Script.tokenAt.isPrintable)
    {c : Char} (hc : Script.tokenAt.isPrintable c = false) :
    marks.contains (String.ofList [c]) = marks.contains (Script.shownSymbol c) := by
  have hshown : marks.contains (Script.shownSymbol c) = false := by
    refine Bool.eq_false_iff.2 fun h => ?_
    exact (hmarks _ (List.contains_iff_mem.1 h)).1 (shownSymbol_head hc)
  have hone : marks.contains (String.ofList [c]) = false := by
    refine Bool.eq_false_iff.2 fun h => ?_
    have hall := (hmarks _ (List.contains_iff_mem.1 h)).2
    rw [String.toList_ofList] at hall
    exact absurd hall (by simp [hc])
  rw [hshown, hone]

theorem ends_eq {t : Token} {u : Script.Token} (h : Tells (some t.kind) t.text (some u)) :
    t.ends = u.ends := by
  obtain ⟨gap, kind, text⟩ := t
  dsimp only at h
  unfold Token.ends
  dsimp only
  cases h with
  | name =>
    have hkeyword : ∀ k ∈ Script.keywords, (Script.Token.mark k).ends = false := by decide
    dsimp only
    unfold Script.wordToken
    split
    · rename_i hword
      rw [hword, hkeyword _ (List.contains_iff_mem.1 hword)]
      rfl
    · rename_i hword
      rw [Bool.eq_false_iff.2 hword]
      rfl
  | other hc =>
    refine not_contains_other ?_ hc
    decide
  | _ => rfl

theorem extends_eq {t : Token} {u : Script.Token} (h : Tells (some t.kind) t.text (some u)) :
    t.extends = u.extends := by
  obtain ⟨gap, kind, text⟩ := t
  dsimp only at h
  unfold Token.extends
  dsimp only
  cases h with
  | name =>
    have hkeyword : ∀ k ∈ Script.keywords, (Script.Token.mark k).extends = false := by decide
    dsimp only
    unfold Script.wordToken
    split
    · rename_i hword
      rw [hkeyword _ (List.contains_iff_mem.1 hword)]
    · rfl
  | other hc =>
    refine not_contains_other ?_ hc
    decide
  | _ => rfl

end EnvManifest.Patch
