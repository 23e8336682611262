import EnvManifest.Proofs.Patch.Rewriting

/-!
# What becomes of a token
-/

namespace EnvManifest.Patch

/-- What becomes of a token of an expression. -/
inductive Fate where
  | kept
  | replaced (text : List Char)
  /-- The token is behind the root of a path that is replaced. -/
  | dropped
deriving DecidableEq, Repr

/-- The tokens of a part, each with what becomes of it. -/
def Part.fates : Part → List (Token × Fate)
  | kept t => [(t, .kept)]
  | replaced t more text => (t, .replaced text) :: more.map fun u => (u, .dropped)

/-- What stands for a token. -/
def Fate.after (t : Token) : Fate → List Char
  | kept => t.source
  | replaced text => t.gap ++ text
  | dropped => []

/-- The tokens of an expression, each with what becomes of it. -/
def fates (p : Patch) (s : Surroundings) (source : String) : List (Token × Fate) :=
  let tokens := (tokenize source.toList).1
  (parts p s (declared tokens) [] tokens).flatMap Part.fates

/-- What becomes of the token at a place. -/
def fate? (p : Patch) (s : Surroundings) (source : String) (k : Nat) : Option Fate :=
  (p.fates s source)[k]?.map Prod.snd

theorem Part.after_fates (part : Part) :
    part.fates.flatMap (fun x => x.2.after x.1) = part.after := by
  cases part with
  | kept t => simp [Part.fates, Part.after, Fate.after]
  | replaced t more text => simp [Part.fates, Part.after, Fate.after, List.flatMap_map]

/-- A rewritten expression is what stands for its tokens. -/
theorem apply_fates (p : Patch) (s : Surroundings) (source : String) :
    (p.apply s source).toList =
      (p.fates s source).flatMap (fun x => x.2.after x.1) ++ (tokenize source.toList).2 := by
  unfold apply fates
  rw [String.toList_ofList, List.flatMap_assoc]
  simp only [Part.after_fates]

section

variable {p : Patch} {s : Surroundings} {source : String} {tokens : List Token} {last : List Char}
  {ps : List Part} (ht : tokenize source.toList = (tokens, last))
  (hp : parts p s (declared tokens) [] tokens = ps)
include ht hp

theorem fates_of_parts : p.fates s source = ps.flatMap Part.fates := by
  unfold fates
  rw [ht]
  exact congrArg (List.flatMap Part.fates) hp

theorem apply_of_parts : p.apply s source = String.ofList (ps.flatMap Part.after ++ last) := by
  unfold apply
  rw [ht, ← hp]

end

section

variable {p : Patch} {s : Surroundings} {locals : List (List Char)} {previous : List Char}

theorem fates_tokens (tokens : List Token) :
    ((parts p s locals previous tokens).flatMap Part.fates).map Prod.fst = tokens := by
  fun_induction parts p s locals previous tokens with
  | case1 => rfl
  | case2 previous t ts h ih => simpa [Part.fates] using ih
  | case3 previous t ts n text h gone ih =>
    simp only [List.flatMap_cons, List.map_append, ih, Part.fates, List.map_cons, List.map_map]
    simp [gone, Function.comp_def]

/-- A declared name is not replaced. -/
theorem not_declared_of_replaced {tokens : List Token} {t : Token} {text : List Char}
    (h : (t, .replaced text) ∈ (parts p s locals previous tokens).flatMap Part.fates) :
    locals.contains t.text = false := by
  fun_induction parts p s locals previous tokens with
  | case1 => cases h
  | case2 previous u ts hr ih =>
    rw [List.flatMap_cons, Part.fates, List.singleton_append, List.mem_cons] at h
    obtain h | h := h
    · cases h
    · exact ih h
  | case3 previous u ts n new hr gone ih =>
    rw [List.flatMap_cons, Part.fates, List.cons_append, List.mem_cons, List.mem_append] at h
    obtain h | h | h := h
    · obtain ⟨rfl, -⟩ := Prod.mk.inj h
      unfold replacement? at hr
      dsimp only at hr
      split at hr
      · cases hr
      · simp_all
    · obtain ⟨v, -, hv⟩ := List.mem_map.1 h
      cases hv
    · exact ih h

/-- The text before what follows some tokens. -/
def lastText (previous : List Char) (front : List Token) : List Char :=
  (front.getLast?.map (·.text)).getD previous

theorem lastText_cons (previous : List Char) (t : Token) (front : List Token) :
    lastText previous (t :: front) = lastText t.text front := by
  unfold lastText
  rw [List.getLast?_cons]
  cases front.getLast? <;> rfl

/-- What becomes of a token that is replaced or kept for itself. -/
def Fate.of : Option (Nat × List Char) → Fate
  | none => kept
  | some (_, text) => replaced text

theorem lastText_append (previous : List Char) (front more : List Token) :
    lastText previous (front ++ more) = lastText (lastText previous front) more := by
  unfold lastText
  rw [List.getLast?_append]
  cases more.getLast? <;> rfl

theorem lastText_gone (u : Token) (gone : List Token) :
    lastText u.text gone = (gone.getLast?.getD u).text := by
  unfold lastText
  cases gone.getLast? <;> rfl

/-- A path behind its root: points, and names behind them. -/
theorem Dotted.split {front back : List Token} {t : Token} {names : List String}
    (h : Dotted (front ++ t :: back) names) (previous : List Char) :
    t.text = ['.'] ∨ lastText previous front = ['.'] := by
  generalize htokens : front ++ t :: back = tokens at h
  induction h generalizing front previous with
  | nil => cases front <;> cases htokens
  | @cons dot name ts names hdot hname h ih =>
    obtain _ | ⟨a, _ | ⟨b, front⟩⟩ := front
    · obtain ⟨rfl, -⟩ := List.cons.inj htokens
      exact .inl hdot
    · obtain ⟨rfl, -⟩ := List.cons.inj htokens
      exact .inr hdot
    · rw [lastText_cons, lastText_cons]
      exact ih _ (List.cons.inj (List.cons.inj htokens).2).2

/-- What becomes of a token depends on what stands around it, if it is in no path. -/
theorem fates_at {front back : List Token} {t : Token} (ht : t.text ≠ ['.'])
    (hlast : lastText previous front ≠ ['.']) :
    ((parts p s locals previous (front ++ t :: back)).flatMap Part.fates)[front.length]? =
      some (t, .of (replacement? p s locals (lastText previous front) t back)) := by
  induction hlength : front.length using Nat.strongRecOn generalizing front previous with
  | _ k ih =>
    subst hlength
    cases front with
    | nil =>
      have hnil : lastText previous [] = previous := rfl
      rw [List.nil_append, parts, hnil]
      cases replacement? p s locals previous t back <;> rfl
    | cons u front =>
      rw [lastText_cons] at hlast ⊢
      rw [List.cons_append]
      cases hr : replacement? p s locals previous u (front ++ t :: back) with
      | none =>
        rw [parts_kept hr]
        exact ih front.length (Nat.lt_succ_self _) hlast rfl
      | some r =>
        obtain ⟨n, text⟩ := r
        obtain ⟨-, -, gone, rest, names, hgone, rfl, hdotted, -⟩ := replacement?_some hr
        obtain ⟨more, rfl, rfl⟩ : ∃ more, front = gone ++ more ∧ rest = more ++ t :: back := by
          obtain ⟨more, rfl, hrest⟩ | ⟨more, hfront, hrest⟩ := List.append_eq_append_iff.1 hgone
          · cases more with
            | nil => exact ⟨[], by simp, by simpa using hrest.symm⟩
            | cons v more =>
              obtain ⟨rfl, -⟩ := List.cons.inj hrest
              exact absurd (hdotted.split u.text) (not_or.2 ⟨ht, hlast⟩)
          · exact ⟨more, hfront, hrest⟩
        rw [hgone] at hr ⊢
        rw [parts_replaced hr, List.flatMap_cons]
        rw [lastText_append, lastText_gone] at hlast ⊢
        have hlength : (Part.replaced u gone text).fates.length = gone.length + 1 := by
          simp [Part.fates]
        have hindex : (u :: (gone ++ more)).length = gone.length + 1 + more.length := by
          simp only [List.length_cons, List.length_append]
          omega
        rw [hindex, List.getElem?_append_right (by omega), hlength, Nat.add_sub_cancel_left]
        exact ih more.length (by omega) hlast rfl

end

end EnvManifest.Patch
