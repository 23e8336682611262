import EnvManifest.Proofs.Patch.Pairing
import EnvManifest.Proofs.Patch.Rewriting
import EnvManifest.Proofs.Script.Grammar
import Mathlib.Data.List.Forall2
import Mathlib.Data.String.Basic

/-!
# What a rewriter sees of a program
-/

namespace EnvManifest.Patch

open Text
open Script (Takes Item)

/-- The word that a token is: a name or a keyword. -/
def word? : Script.Token → Option String
  | .name n => some n
  | .mark m => if Script.keywords.contains m then some m else none
  | _ => none

/-- The marks that a rewriter looks for. -/
def watched : List String :=
  [".", ":", "::", "local", "function", "goto", "for", "in", "(", ",", "<", ">", "="]

/-- A token of an expression shows its token of the program: words and watched marks are the same. -/
structure Shows (t : Token) (u : Script.Token) : Prop where
  word : ∀ n, t.kind = .name ∧ t.text = n.toList ↔ word? u = some n
  mark : ∀ m ∈ watched, t.text = m.toList ↔ u = .mark m

theorem word?_wordToken (cs : List Char) : word? (Script.wordToken cs) = some (String.ofList cs) := by
  unfold Script.wordToken
  split
  · rename_i h
    simp [word?, List.contains_iff_mem.1 h]
  · rfl

theorem shows_name {t : Token} {c : Char} {v : List Char} (hk : t.kind = .name)
    (ht : t.text = c :: v) (hc : Script.startsWord c) : Shows t (Script.wordToken t.text) := by
  refine ⟨fun n => ?_, fun m hm => ?_⟩
  · rw [word?_wordToken, Option.some_inj, ← String.toList_inj, String.toList_ofList]
    exact and_iff_right hk
  · constructor
    · intro h
      have hw : ∀ m ∈ watched, m.toList.head?.any Script.startsWord →
          Script.keywords.contains m := by decide
      have hm := hw m hm (by rw [← h, ht]; exact hc)
      rw [h, Script.wordToken, String.ofList_toList, if_pos hm]
    · intro h
      unfold Script.wordToken at h
      split at h
      · rw [← Script.Token.mark.inj h, String.toList_ofList]
      · cases h

theorem shows_other {t : Token} {u : Script.Token} (hk : t.kind ≠ .name) (hw : word? u = none)
    (hm : ∀ m ∈ watched, t.text ≠ m.toList ∧ u ≠ .mark m) : Shows t u := by
  refine ⟨fun n => ?_, fun m hmem => ?_⟩
  · rw [hw]
    exact iff_of_false (fun h => hk h.1) nofun
  · exact iff_of_false (hm m hmem).1 (hm m hmem).2

/-- What the first characters of watched marks are not. -/
theorem watched_head {p : Char → Bool} (hp : ∀ m ∈ watched, m.toList.head?.all (!p ·)) {c : Char}
    (hc : p c) {v : List Char} {m : String} (hm : m ∈ watched) : c :: v ≠ m.toList := by
  intro h
  have hhead := hp m hm
  rw [← h] at hhead
  simp [hc] at hhead

/-- A number does not look like a point: it starts with a digit, or goes on with one. -/
theorem number_ne_watched {c : Char} {v x : List Char} {u : Script.Token}
    (htakes : Takes c x (some u) v.length)
    (hc : isDigit c || (c == '.' && x.head?.any isDigit)) (hu : u ≠ .mark ".") {m : String}
    (hm : m ∈ watched) : c :: v ≠ m.toList := by
  by_cases hd : isDigit c
  · exact watched_head (by decide) hd hm
  · intro h
    obtain rfl : c = '.' := by
      simp only [hd, Bool.false_or, Bool.and_eq_true, beq_iff_eq] at hc
      exact hc.1
    have hpoint : ∀ m ∈ watched, m.toList.head? = some '.' → m.toList = ['.'] := by decide
    rw [hpoint m hm (by rw [← h]; rfl)] at h
    obtain rfl := (List.cons.inj h).2
    exact hu (takes_point htakes)

theorem shows_value {t : Token} {u : Script.Token} {c : Char} {v x : List Char}
    (hk : t.kind ≠ .name) (ht : t.text = c :: v) (htakes : Takes c x (some u) v.length)
    (hw : word? u = none) (hu : ∀ m, u ≠ .mark m) : Shows t u := by
  refine shows_other hk hw fun m hm => ⟨?_, hu m⟩
  rw [ht]
  have hs := Script.tokenAt_shape (htakes.1 1) htakes.2
  generalize hn : v.length = n at hs
  generalize huu : some u = w at hs
  cases hs with
  | number hc => exact number_ne_watched htakes hc (hu ".") hm
  | longString _ _ hc => exact watched_head (p := (· == '[')) (by decide) (beq_iff_eq.2 hc) hm
  | string _ hc =>
    exact watched_head (p := fun c => c == '"' || c == '\'') (by decide) (by simpa using hc) hm
  | bracket => exact absurd (Option.some.inj huu) (hu "[")
  | symbol => exact absurd (Option.some.inj huu) (hu _)
  | word =>
    rw [Option.some.inj huu, word?_wordToken] at hw
    cases hw
  | _ => cases huu

/-- A symbol does not start as a word. -/
def Token.isSymbol (t : Token) : Prop := t.kind = .punct → t.text.head?.any Script.startsWord = false

theorem shows_of_takes {t : Token} {u : Script.Token} {c : Char} {v x : List Char}
    (ht : t.text = c :: v) (htakes : Takes c x (some u) v.length)
    (h : Tells (some t.kind) t.text (some u)) (hsymbol : t.isSymbol) : Shows t u := by
  obtain ⟨gap, kind, text⟩ := t
  dsimp only at h ht
  subst ht
  cases h with
  | name hc => exact shows_name rfl rfl hc
  | int => exact shows_value nofun rfl htakes rfl nofun
  | float => exact shows_value nofun rfl htakes rfl nofun
  | str => exact shows_value nofun rfl htakes rfl nofun
  | punct =>
    have hword : Script.startsWord c = false := hsymbol rfl
    refine ⟨fun n => iff_of_false (fun h => nomatch h.1) ?_, fun m _ => ?_⟩
    · have hkeyword : ∀ k ∈ Script.keywords, k.toList.head?.any Script.startsWord := by decide
      simp only [word?, Option.ite_none_right_eq_some, not_and]
      intro hk
      have hhead := hkeyword _ (List.contains_iff_mem.1 hk)
      rw [String.toList_ofList, List.head?_cons, Option.any_some, hword] at hhead
      cases hhead
    · rw [Script.Token.mark.injEq, ← String.toList_inj, String.toList_ofList]
  | other hc =>
    refine shows_other nofun ?_ fun m hm => ⟨?_, ?_⟩
    · have hkeyword : ∀ k ∈ Script.keywords, k.toList.head? ≠ some '<' := by decide
      refine if_neg fun hk => ?_
      exact hkeyword _ (List.contains_iff_mem.1 hk) (shownSymbol_head hc)
    · refine watched_head (p := fun c => !Script.tokenAt.isPrintable c) (by decide) ?_ hm
      rw [hc]
      rfl
    · rintro ⟨⟩
      have hone : ∀ m ∈ watched, m.toList.head? = some '<' → m.toList = ['<'] := by decide
      have hshown := hone _ hm (shownSymbol_head hc)
      have hc : ¬(0x20 ≤ c.toNat ∧ c.toNat ≤ 0x7E) := by
        simpa [Script.tokenAt.isPrintable] using hc
      rw [Script.shownSymbol, if_neg hc, String.toList_append, String.toList_append] at hshown
      cases hshown

theorem mem_attach {gap : List Char} {ps : List Piece} {t : Token} (h : t ∈ (attach gap ps).1) :
    ⟨some t.kind, t.text⟩ ∈ ps := by
  induction ps generalizing gap with
  | nil => cases h
  | cons p ps ih =>
    obtain ⟨kind, text⟩ := p
    cases kind with
    | none => exact List.mem_cons_of_mem _ (ih h)
    | some k =>
      obtain rfl | h := List.mem_cons.1 h
      · exact List.mem_cons_self ..
      · exact List.mem_cons_of_mem _ (ih h)

theorem mem_pieces {cs : List Char} {p : Piece} (h : p ∈ pieces cs) :
    ∃ c x, p.kind = (pieceAt c x).1 ∧ p.text.head? = some c := by
  fun_induction pieces cs with
  | case1 => cases h
  | case2 c cs kind n hp ih =>
    obtain rfl | h := List.mem_cons.1 h
    · exact ⟨c, cs, by rw [hp], rfl⟩
    · exact ih h

theorem isSymbol_tokenize {cs : List Char} {t : Token} (h : t ∈ (tokenize cs).1) : t.isSymbol := by
  intro hk
  obtain ⟨c, x, hkind, hhead⟩ := mem_pieces (mem_attach h)
  dsimp only at hkind hhead
  rw [hhead]
  refine Bool.eq_false_iff.2 fun hc => ?_
  rw [pieceAt_name hc, hk] at hkind
  cases hkind

theorem Paired.shows {last : List Char} {ts : List Token} {us : List Script.Token}
    (h : Paired last ts us) (hsymbol : ∀ t ∈ ts, t.isSymbol) : List.Forall₂ Shows ts us := by
  induction h with
  | nil => exact .nil
  | cons _ htext htakes htells _ ih =>
    refine .cons (shows_of_takes htext htakes htells (hsymbol _ (List.mem_cons_self ..))) (ih ?_)
    exact fun t ht => hsymbol t (List.mem_cons_of_mem _ ht)

/-- The tokens of an expression show those of its program, one by one. -/
theorem shows_tokenize {cs : List Char} {us : List Script.Token} (h : Script.Lexes [] cs us)
    (hp : Plain cs) : List.Forall₂ Shows (tokenize cs).1 us :=
  (paired_tokenize h hp).shows fun _ => isSymbol_tokenize

/-! ## Tokens and items -/

/-- The tokens of an expression show those of its program. -/
abbrev Show (ts : List Token) (xs : List Item) : Prop :=
  List.Forall₂ (fun t x => Shows t x.token) ts xs

theorem isMark_iff {u : Script.Token} {m : String} : u.isMark m = true ↔ u = .mark m := by
  constructor
  · exact Script.isMark_eq
  · rintro rfl
    simp [Script.Token.isMark]

theorem Shows.isMark {t : Token} {u : Script.Token} (h : Shows t u) {m : String} (hm : m ∈ watched) :
    (t.text == m.toList) = u.isMark m := by
  rw [Bool.eq_iff_iff, beq_iff_eq, isMark_iff]
  exact h.mark m hm

theorem Shows.isWord {t : Token} {u : Script.Token} (h : Shows t u) :
    (t.kind == .name) = (word? u).isSome := by
  rw [Bool.eq_iff_iff, beq_iff_eq, Option.isSome_iff_exists]
  constructor
  · exact fun hk => ⟨String.ofList t.text, (h.word _).1 ⟨hk, String.toList_ofList.symm⟩⟩
  · rintro ⟨n, hn⟩
    exact ((h.word n).2 hn).1

theorem forall₂_run {α β : Type} {R : α → β → Prop} {p : α → Bool} {q : β → Bool}
    (hpq : ∀ a b, R a b → p a = q b) {xs : List α} {ys : List β} (h : List.Forall₂ R xs ys) :
    List.Forall₂ R (xs.takeWhile p) (ys.takeWhile q) ∧
      List.Forall₂ R (xs.dropWhile p) (ys.dropWhile q) := by
  induction h with
  | nil => exact ⟨.nil, .nil⟩
  | @cons a b xs ys hab h ih =>
    rw [List.takeWhile_cons, List.takeWhile_cons, List.dropWhile_cons, List.dropWhile_cons,
      hpq a b hab]
    split
    · exact ⟨.cons hab ih.1, ih.2⟩
    · exact ⟨.nil, .cons hab h⟩

end EnvManifest.Patch
