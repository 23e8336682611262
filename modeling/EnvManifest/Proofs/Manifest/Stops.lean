import EnvManifest.Proofs.Manifest.Parsing

/-!
# Where a parser stops

A parser takes tokens from the front, and never the end of the manifest. A fault is always at the
first token that it has not taken.
-/

namespace EnvManifest

/-- Some tokens are taken, none of them the end. -/
def Consumes (tokens rest : List Token) : Prop :=
  ∃ own, tokens = own ++ rest ∧ ∀ t ∈ own, t.kind ≠ .eof

/-- A fault is at the first token after some that are taken. -/
def Misparse.StopsIn (m : Misparse) (tokens : List Token) : Prop :=
  ∃ rest, Consumes tokens rest ∧ m.offset = (current rest).span.start

/-- A parser takes some tokens, or stops at a fault in them. -/
def Advances (tokens : List Token) : Except Misparse (List Token) → Prop
  | .ok rest => Consumes tokens rest
  | .error m => m.StopsIn tokens

section

variable {tokens more rest : List Token} {t : Token} {m : Misparse}

theorem consumes_refl : Consumes tokens tokens := ⟨[], rfl, List.forall_mem_nil _⟩

theorem consumes_cons (h : t.kind ≠ .eof) (later : Consumes more rest) : Consumes (t :: more) rest := by
  obtain ⟨own, rfl, hown⟩ := later
  exact ⟨t :: own, rfl, List.forall_mem_cons.mpr ⟨h, hown⟩⟩

theorem Consumes.trans (h : Consumes tokens more) (later : Consumes more rest) : Consumes tokens rest := by
  obtain ⟨own, rfl, hown⟩ := h
  obtain ⟨own', rfl, hown'⟩ := later
  exact ⟨own ++ own', by simp, List.forall_mem_append.mpr ⟨hown, hown'⟩⟩

theorem stopsIn_here (h : m.offset = (current tokens).span.start) : m.StopsIn tokens :=
  ⟨tokens, consumes_refl, h⟩

theorem Consumes.stopsIn (h : Consumes tokens more) (later : m.StopsIn more) : m.StopsIn tokens := by
  obtain ⟨rest, hconsumes, place⟩ := later
  exact ⟨rest, h.trans hconsumes, place⟩

theorem Advances.ok {α : Type} {f : α → List Token} {r : Except Misparse α} {a : α}
    (h : Advances tokens (r.map f)) (hr : r = .ok a) : Consumes tokens (f a) := by
  subst hr
  exact h

theorem Advances.error {α : Type} {f : α → List Token} {r : Except Misparse α}
    (h : Advances tokens (r.map f)) (hr : r = .error m) : m.StopsIn tokens := by
  subst hr
  exact h

end

/-- A comma after an item is taken. -/
theorem consumes_comma (t : Token) (rest : List Token) :
    Consumes (t :: rest) (if t.kind = .comma then rest else t :: rest) := by
  split
  · rename_i comma
    exact consumes_cons (by simp [comma]) consumes_refl
  · exact consumes_refl

/-! ## Values -/

theorem parseValue_ne_eof {t : Token} {v : ParamValue} (h : parseValue t = .ok v) :
    t.kind ≠ .eof := by
  intro eof
  rw [parseValue, eof] at h
  cases h

theorem parseValue_error {t : Token} {m : Misparse} (h : parseValue t = .error m) :
    m.offset = t.span.start := by
  unfold parseValue at h
  repeat' split at h
  all_goals
    cases h
    try rfl

theorem parseValues_advances (tokens : List Token) :
    Advances tokens ((parseValues tokens).map (·.rest)) := by
  fun_induction parseValues tokens with
  | case1 => exact stopsIn_here rfl
  | case2 t rest closing => exact consumes_cons (by simp [closing]) consumes_refl
  | case3 t rest _ m hvalue => exact stopsIn_here (parseValue_error hvalue)
  | case4 t _ v hvalue =>
    exact (consumes_cons (parseValue_ne_eof hvalue) consumes_refl).stopsIn (stopsIn_here rfl)
  | case5 t _ v hvalue s more next _ m hmore ih =>
    exact (consumes_cons (parseValue_ne_eof hvalue) (consumes_comma s more)).stopsIn (ih.error hmore)
  | case6 t _ v hvalue s more next _ p hmore ih =>
    exact (consumes_cons (parseValue_ne_eof hvalue) (consumes_comma s more)).trans (ih.ok hmore)
  | case7 t _ v hvalue s more _ =>
    exact (consumes_cons (parseValue_ne_eof hvalue) consumes_refl).stopsIn (stopsIn_here rfl)

/-! ## Sections -/

theorem parseArguments_advances (stop : Nat) (tokens : List Token) :
    Advances tokens ((parseArguments stop tokens).map (·.2.2.1)) := by
  unfold parseArguments
  split
  · exact consumes_refl
  rename_i t rest
  split
  · rename_i left
    have opened : Consumes (t :: rest) rest := consumes_cons (by simp [left]) consumes_refl
    split
    · rename_i m hvalues
      exact opened.stopsIn ((parseValues_advances rest).error hvalues)
    · rename_i p hvalues
      exact opened.trans ((parseValues_advances rest).ok hvalues)
  · exact consumes_refl

theorem consumes_reference {t : Token} {ident : String} {rest after : List Token}
    {arguments : List Parameter} {stop : Nat} {shorter : after.length ≤ rest.length}
    (ht : t.kind = .ident ident)
    (h : parseArguments t.span.stop rest = .ok (arguments, stop, ⟨after, shorter⟩)) :
    Consumes (t :: rest) after :=
  consumes_cons (by simp [ht]) ((parseArguments_advances t.span.stop rest).ok h)

theorem parseComposites_advances (tokens : List Token) :
    Advances tokens ((parseComposites tokens).map (·.rest)) := by
  fun_induction parseComposites tokens with
  | case1 => exact stopsIn_here rfl
  | case2 t rest closing => exact consumes_cons (by simp [closing]) consumes_refl
  | case3 t rest ident ht m harguments =>
    have stopped := (parseArguments_advances t.span.stop rest).error harguments
    exact (consumes_cons (by simp [ht]) consumes_refl).stopsIn stopped
  | case4 t rest ident ht arguments stop _ _ harguments =>
    exact (consumes_reference ht harguments).stopsIn (stopsIn_here rfl)
  | case5 t rest ident ht arguments stop s more _ next _ m hmore _ harguments ih =>
    exact ((consumes_reference ht harguments).trans (consumes_comma s more)).stopsIn (ih.error hmore)
  | case6 t rest ident ht arguments stop _ s more _ next _ p hmore _ harguments ih =>
    exact ((consumes_reference ht harguments).trans (consumes_comma s more)).trans (ih.ok hmore)
  | case7 t rest ident ht arguments stop s more _ _ _ harguments =>
    exact (consumes_reference ht harguments).stopsIn (stopsIn_here rfl)
  | case8 => exact stopsIn_here rfl

theorem parseStatement_advances (tokens : List Token) :
    Advances tokens ((parseStatement tokens).map (·.rest)) := by
  unfold parseStatement
  split
  · exact stopsIn_here rfl
  rename_i t rest
  split
  · rename_i ident ht
    have name {after : List Token} : Consumes (t :: after) after := consumes_cons (by simp [ht]) consumes_refl
    split
    · split
      · exact name.stopsIn (stopsIn_here rfl)
      rename_i a rest
      split
      · rename_i ha
        have assign {after : List Token} : Consumes (t :: a :: after) after :=
          name.trans (consumes_cons (by simp [ha]) consumes_refl)
        split
        · exact assign.stopsIn (stopsIn_here rfl)
        rename_i e rest
        split
        · rename_i text he
          split
          · exact assign.stopsIn (stopsIn_here rfl)
          · exact assign.trans (consumes_cons (by simp [he]) consumes_refl)
        · exact assign.stopsIn (stopsIn_here rfl)
      · exact name.stopsIn (stopsIn_here rfl)
    · exact stopsIn_here rfl
  · exact stopsIn_here rfl

theorem parseStatements_advances (tokens : List Token) :
    Advances tokens ((parseStatements tokens).map (·.rest)) := by
  fun_induction parseStatements tokens with
  | case1 => exact stopsIn_here rfl
  | case2 t rest semi m hmore ih =>
    exact (consumes_cons (by simp [semi]) consumes_refl).stopsIn (ih.error hmore)
  | case3 t rest semi p hmore ih => exact consumes_cons (by simp [semi]) (ih.ok hmore)
  | case4 t rest _ closing => exact consumes_cons (by simp [closing]) consumes_refl
  | case5 t rest _ _ m hstatement => exact (parseStatement_advances (t :: rest)).error hstatement
  | case6 t rest _ _ s hstatement _ m hmore ih =>
    exact ((parseStatement_advances (t :: rest)).ok hstatement).stopsIn (ih.error hmore)
  | case7 t rest _ _ s hstatement _ p hmore ih =>
    exact ((parseStatement_advances (t :: rest)).ok hstatement).trans (ih.ok hmore)
  | case8 t rest _ _ s hstatement _ =>
    exact ((parseStatement_advances (t :: rest)).ok hstatement).stopsIn (stopsIn_here rfl)

/-! ## Namespaces -/

theorem parseSection_advances (s : Section) (n : Namespace) (tokens : List Token) :
    Advances tokens ((parseSection s n tokens).map (·.rest)) := by
  unfold parseSection
  cases s with
  | composites =>
    dsimp only
    split
    next hm => exact (parseComposites_advances tokens).error hm
    next hp => exact (parseComposites_advances tokens).ok hp
  | parameters =>
    dsimp only
    split
    next hm => exact (parseValues_advances tokens).error hm
    next hp => exact (parseValues_advances tokens).ok hp
  | statements =>
    dsimp only
    split
    next hm => exact (parseStatements_advances tokens).error hm
    next hp => exact (parseStatements_advances tokens).ok hp

theorem consumes_opening {s : Section} {t : Token} (h : opens? t.kind = some s) (rest : List Token) :
    Consumes (t :: rest) rest := by
  refine consumes_cons (fun eof => ?_) consumes_refl
  rw [eof] at h
  cases h

theorem parseSections_advances (last : Option Section) (n : Namespace) (tokens : List Token) :
    Advances tokens ((parseSections last n tokens).map (·.2.1)) := by
  fun_induction parseSections last n tokens with
  | case1 => exact consumes_refl
  | case2 => exact stopsIn_here rfl
  | case3 => exact consumes_refl
  | case4 => exact stopsIn_here rfl
  | case5 last n t rest _ s opened _ m hsection =>
    exact (consumes_opening opened rest).stopsIn ((parseSection_advances s n rest).error hsection)
  | case6 last n t rest _ s opened _ p hsection next m hmore ih =>
    have taken := (consumes_opening opened rest).trans ((parseSection_advances s n rest).ok hsection)
    exact taken.stopsIn (ih.error hmore)
  | case7 last n t rest _ s opened _ p hsection next m after _ hmore ih =>
    have taken := (consumes_opening opened rest).trans ((parseSection_advances s n rest).ok hsection)
    exact taken.trans (ih.ok hmore)

theorem parseNamespaces_error {origin : Nat} {tokens : List Token} {m : Misparse}
    (h : parseNamespaces origin tokens = .error m) : m.StopsIn tokens := by
  fun_induction parseNamespaces origin tokens with
  | case1 => cases h
  | case2 => cases h
  | case3 =>
    cases h
    exact stopsIn_here rfl
  | case4 t rest ident ht start m' hsections =>
    cases h
    have stopped := (parseSections_advances none start rest).error hsections
    exact (consumes_cons (by simp [ht]) consumes_refl).stopsIn stopped
  | case5 t rest ident ht start n after _ hsections m' hmore ih =>
    have taken := (parseSections_advances none start rest).ok hsections
    exact (consumes_cons (by simp [ht]) taken).stopsIn (ih (hmore.trans h))
  | case6 => cases h
  | case7 =>
    cases h
    exact stopsIn_here rfl

/-- **A manifest has its first fault at one of its tokens.** -/
theorem parse_error_at_token {origin : Nat} {tokens : List Token} {m : Misparse} {stop : Token}
    (last : tokens.getLast? = some stop) (eof : stop.kind = .eof)
    (h : parseNamespaces origin tokens = .error m) : ∃ t ∈ tokens, m.offset = t.span.start := by
  obtain ⟨rest, ⟨own, rfl, plain⟩, place⟩ := parseNamespaces_error h
  cases rest with
  | nil =>
    rw [List.append_nil] at last
    exact absurd eof (plain stop (List.mem_of_getLast? last))
  | cons t rest => exact ⟨t, by simp, place⟩

end EnvManifest
