import EnvManifest.Engine
import EnvManifest.Proofs.Script.Derivation

/-!
# Expressions that can be run

A program gives back an expression. If it can be read at all, then the tokens of the expression have
a derivation in the grammar.
-/

namespace EnvManifest.Script

open Text

/-- The tokens of a text that is an expression, each in its place. -/
structure Expresses (source : String) (xs : List Item) : Prop where
  lexes : Lexes [] source.toList (xs.map (·.token))
  derived : IsExpression xs

/-! ## The end of a text -/

theorem lexes_of_tokens {cs : List Char} {ts : List Token}
    (h : (lex 1 cs).map (·.token) = ts ++ [.eof]) (hb : ∀ t ∈ ts, t.isBad = false) :
    Lexes [] cs ts := by
  have hall : ∀ x ∈ lex 1 cs, x.token.isBad = false := by
    intro x hx
    have hmem := List.mem_map_of_mem (f := fun x : Lexeme => x.token) hx
    rw [h, List.mem_append, List.mem_singleton] at hmem
    obtain hmem | hmem := hmem
    · exact hb _ hmem
    · rw [hmem]
      rfl
  obtain ⟨us, hus⟩ := lexes_of_lex hall
  have hsame := hus.lex 1
  rw [h] at hsame
  rwa [List.append_cancel_right hsame]

theorem numeralAt_ne_eof (c : Char) (cs : List Char) : (numeralAt c cs).1 ≠ .eof := by
  unfold numeralAt
  dsimp only
  split <;> nofun

theorem tokenAt_ne_eof (l : Nat) (c : Char) (cs : List Char) : (tokenAt l c cs).1 ≠ some .eof := by
  intro h
  have hs := tokenAt_shape (n := (tokenAt l c cs).2) (Prod.ext h rfl) rfl
  generalize (tokenAt l c cs).2 = n at hs
  generalize ht : some Token.eof = t at hs
  cases hs with
  | number hc hstop hr hnumeral =>
    obtain rfl := Option.some.inj ht
    exact numeralAt_ne_eof c cs (congrArg Prod.fst hnumeral)
  | word =>
    have hword := Option.some.inj ht
    unfold wordToken at hword
    split at hword <;> cases hword
  | _ => cases ht

/-- Nothing stands behind tokens that are read and an end. -/
theorem lex_ends {l : Nat} {cs : List Char} {ts more : List Token}
    (h : (lex l cs).map (·.token) = ts ++ more) (hts : ∀ t ∈ ts, t.isRead)
    (hmore : ∀ t ∈ more.head?, t = .eof) : more = [.eof] := by
  fun_induction lex l cs generalizing ts with
  | case1 l =>
    obtain _ | ⟨t, ts⟩ := ts
    · exact h.symm
    · obtain ⟨rfl, -⟩ := List.cons.inj h
      cases hts _ (List.mem_cons_self ..)
  | case2 l c cs n next hn =>
    rename_i ih
    exact ih h hts
  | case3 l c cs n next message =>
    obtain _ | ⟨t, ts⟩ := ts
    · rw [List.map_singleton, List.nil_append] at h
      rw [← h] at hmore
      cases hmore _ rfl
    · obtain ⟨rfl, -⟩ := List.cons.inj h
      cases hts _ (List.mem_cons_self ..)
  | case4 l c cs n next t hbad hn =>
    rename_i ih
    obtain _ | ⟨u, ts⟩ := ts
    · rw [List.map_cons, List.nil_append] at h
      rw [← h] at hmore
      exact absurd ((congrArg Prod.fst hn).trans (congrArg some (hmore _ rfl))) (tokenAt_ne_eof l c cs)
    · exact ih (List.cons.inj h).2 fun t ht => hts t (List.mem_cons_of_mem _ ht)

/-! ## Programs -/

theorem lex_programText (source : String) :
    lex 1 (Engine.programText source) = ⟨.mark "return", 1⟩ :: lex 1 source.toList := by
  have hspace : lex 1 (' ' :: source.toList) = lex 1 source.toList := by
    rw [lex]
    rfl
  have hword : ("eturn".toList ++ ' ' :: source.toList).takeWhile isWordPart = "eturn".toList := by
    rw [List.takeWhile_append_of_pos (List.all_eq_true.1 rfl)]
    rfl
  have hdrop : ("eturn".toList ++ ' ' :: source.toList).drop 5 = ' ' :: source.toList := rfl
  have htake : ("eturn".toList ++ ' ' :: source.toList).take 5 = "eturn".toList := rfl
  have hlength : ("eturn".toList).length = 5 := rfl
  have hreturn : wordToken ('r' :: "eturn".toList) = .mark "return" := rfl
  have htext : Engine.programText source = 'r' :: ("eturn".toList ++ ' ' :: source.toList) := rfl
  rw [htext, lex, tokenAt_word (by decide), hword, hlength, hreturn]
  dsimp only
  rw [htake, hdrop, ← hspace]
  rfl

/-- A block that starts with `return` gives back what follows. -/
theorem block_return (n : Nat) (ctx : Context) :
    YieldsAt (.mark "return") (block n ctx) fun _ ts => ∃ us,
      Spells [.phrase .given ctx.names] us ∧ ts = .mark "return" :: us := by
  cases n with
  | zero =>
    unfold block
    exact Yields.atFirst (.never exhausted_ne)
  | succ n =>
    unfold block
    refine .atBlockEnd (.isMark (YieldsAt.enter fun inner hi => ?_))
    refine .bind ((derives n).giveStatement inner) ?_
    rintro s _ ⟨us, hus, rfl⟩
    rw [hi] at hus
    exact .pure ⟨us, hus, List.append_nil _⟩

theorem parseProgram_ends {cs : List Char} {body : FunctionBody} (h : parseProgram cs = .ok body) :
    ∃ b s, block (fuelFor (lex 1 cs)) Context.start ⟨lex 1 cs, 1⟩ = .ok (b, s) ∧
      s.first = .eof := by
  unfold parseProgram at h
  dsimp only at h
  split at h
  · rename_i x b s hx
    cases h
    obtain ⟨b', r, hb, hx⟩ := bind_ok.1 hx
    refine ⟨b', r, hb, ?_⟩
    obtain ⟨⟨t, l⟩, r', hr, hx⟩ := bind_ok.1 hx
    obtain ⟨hfirst, rfl⟩ := Prod.mk.inj (Except.ok.inj ((current_run r).symm.trans hr))
    rw [Reader.first, hfirst]
    dsimp only at hx
    split at hx
    · rfl
    · exact (fault_ne _ _ _ hx).elim
  · cases h

/-- **Every expression that can be run is derived in the grammar.** -/
theorem expresses_of_parseProgram {source : String} {body : FunctionBody}
    (h : parseProgram (Engine.programText source) = .ok body) : ∃ xs, Expresses source xs := by
  obtain ⟨b, s, hb, hend⟩ := parseProgram_ends h
  have hlex := lex_programText source
  rw [hlex] at hb
  obtain ⟨_, hpass, us, ⟨xs, hx, rfl⟩, rfl⟩ := block_return _ _ _ _ _ rfl hb
  have htokens := List.cons.inj hpass.tokens |>.2
  have hread : ∀ t ∈ xs.map (·.token), t.isRead :=
    fun t ht => hpass.read t (List.mem_cons_of_mem _ ht)
  have hrest : ∀ t ∈ (s.tokens.map (·.token)).head?, t = .eof := by
    intro t ht
    rw [List.head?_map] at ht
    obtain ⟨x, hx, rfl⟩ := Option.map_eq_some_iff.1 ht
    obtain ⟨more, hmore⟩ := List.head?_eq_some_iff.1 hx
    rwa [Reader.first, hmore] at hend
  rw [lex_ends htokens hread hrest] at htokens
  exact ⟨xs, lexes_of_tokens htokens fun t ht => isBad_of_isRead (hread t ht), hx⟩

end EnvManifest.Script
