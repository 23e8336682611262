import EnvManifest.Proofs.Script.Splicing

/-!
# Paths, and operands in their place

What the parser makes of the tokens of a path, and of an operand that stands in its place.
-/

namespace EnvManifest.Script

open Text

variable {known : List String → List Token → Prop}

/-! ## Paths and operands as expressions -/

theorem Atom.settle {t : Token} {e : Expr} (h : Atom t e) (l : Nat) : e.settle l = e := by
  cases h <;> rfl

theorem Reads.settle {names : List String} {e : Expr} (h : Reads names e) (l : Nat) :
    Reads names (e.settle l) := by
  cases h with
  | var v => exact .var v
  | global k hv n =>
    cases k with
    | zero => exact .global l hv n
    | succ k => exact .global _ hv n
  | field k h n =>
    cases k with
    | zero => exact .field l h n
    | succ k => exact .field _ h n

theorem Enclosed.settle {ts : List Token} {e : Expr} (h : Enclosed ts e) (l : Nat) :
    Enclosed ts (e.settle l) := by
  cases h with
  | minus h l' => exact .minus h l'
  | quotient ht hu l' => exact .quotient ht hu l'
  | minusQuotient ht hu l' l'' => exact .minusQuotient ht hu l' l''
  | path h => exact .path (h.settle l)

theorem Stands.settle {ts : List Token} {e : Expr} (h : Stands ts e) (l : Nat) : e.settle l = e := by
  cases h with
  | bare h => exact h.settle l
  | enclosed => rfl

theorem Stands.isTarget {ts : List Token} {e : Expr} (h : Stands ts e) : e.isTarget = false := by
  cases h with
  | bare h => cases h <;> rfl
  | enclosed => rfl

theorem Swaps.isCall {e e' : Expr} (h : Swaps known e e') : e.isCall = false ∧ e'.isCall = false := by
  obtain ⟨names, ts, hr, -, hs⟩ := h
  refine ⟨by cases hr <;> rfl, ?_⟩
  cases hs with
  | bare h => cases h <;> rfl
  | enclosed => rfl

theorem Context.reads {ctx : Context} (h : (findBinding environmentName ctx.scope).isSome)
    (n : String) : Reads [n] (ctx.resolve n) := by
  unfold Context.resolve
  dsimp only
  cases hn : findBinding n ctx.scope with
  | some x => exact .var ⟨n, x.1, _⟩
  | none =>
    obtain ⟨x, hx⟩ := Option.isSome_iff_exists.1 h
    rw [hx]
    exact .global 0 rfl n

theorem exhausted_ne {α : Type} (r : Reader) (x : α × Reader) :
    (exhausted : Parser α) r ≠ .ok x := nofun

theorem unary?_of_operand {t : Token} (h : t = .mark "(" ∨ ∃ e, Atom t e) : unary? t = none := by
  obtain rfl | ⟨e, he⟩ := h
  · rfl
  · cases he <;> rfl

theorem infix?_of_operand {t : Token} (h : t = .mark "(" ∨ ∃ e, Atom t e) : infix? t = none := by
  obtain rfl | ⟨e, he⟩ := h
  · rfl
  · cases he <;> rfl

/-! ## Paths -/

variable {n : Nat} {ctx : Context} {ts : List Lexeme}

theorem suffixes_path {names fields : List String} {e : Expr} {path : List Lexeme} {last : Nat}
    {x : Expr × Reader} (hr : Reads names e)
    (hp : path.map (·.token) = fields.flatMap fun n => [.mark ".", .name n])
    (h : suffixes n ctx e ⟨path ++ ts, last⟩ = .ok x) :
    ∃ m ≤ n, ∃ e₁ last₁, Reads (names ++ fields) e₁ ∧
      suffixes m ctx e₁ ⟨ts, last₁⟩ = .ok x := by
  induction fields generalizing n names e path last with
  | nil =>
    obtain rfl : path = [] := by simpa using hp
    exact ⟨n, Nat.le_refl n, e, last, by simpa using hr, h⟩
  | cons f fs ih =>
    obtain ⟨l, path₁, rfl, hp₁⟩ := tokens_cons hp
    obtain ⟨l', path₂, rfl, hp₂⟩ := tokens_cons hp₁
    cases n with
    | zero => exact (exhausted_ne _ _ (by unfold suffixes at h; exact h)).elim
    | succ n =>
      have h : suffixes n ctx (.index 0 (e.settle last) (.str (encode f.toList)))
          ⟨path₂ ++ ts, l'⟩ = .ok x := by
        unfold suffixes at h
        exact h
      obtain ⟨m, hm, e₁, last₁, hr, h⟩ := ih (.field 0 (hr.settle last) f) hp₂ h
      exact ⟨m, Nat.le_succ_of_le hm, e₁, last₁, by simpa using hr, h⟩

theorem suffixes_stop {e : Expr} {r : Reader} {x : Expr × Reader} (hr : r.first.extends = false)
    (h : suffixes n ctx e r = .ok x) : x = (e, r) := by
  cases n with
  | zero => exact (exhausted_ne _ _ (by unfold suffixes at h; exact h)).elim
  | succ n =>
    unfold suffixes at h
    obtain ⟨⟨t, l⟩, s, ht, h⟩ := bind_ok.1 h
    rw [current_run, Except.ok.injEq, Prod.mk.injEq] at ht
    obtain ⟨ht, rfl⟩ := ht
    rw [Reader.first, ht] at hr
    dsimp only at h hr
    split at h
    case h_7 =>
      cases h
      rfl
    all_goals exact absurd hr (by simp [Token.extends])

theorem suffixed_path {root : String} {fields : List String} {path : List Lexeme} {last : Nat}
    {x : Expr × Reader} (hg : (findBinding environmentName ctx.scope).isSome)
    (hp : path.map (·.token) = pathTokens root fields)
    (h : suffixed n ctx ⟨path ++ ts, last⟩ = .ok x) :
    ∃ m < n, ∃ e last₁, Reads (root :: fields) e ∧ suffixes m ctx e ⟨ts, last₁⟩ = .ok x := by
  obtain ⟨l, path₁, rfl, hp₁⟩ := tokens_cons hp
  cases n with
  | zero => exact (exhausted_ne _ _ (by unfold suffixed at h; exact h)).elim
  | succ n =>
    have h : suffixes n ctx (ctx.resolve root) ⟨path₁ ++ ts, l⟩ = .ok x := by
      unfold suffixed at h
      exact h
    obtain ⟨m, hm, e, last₁, hr, h⟩ := suffixes_path (Context.reads hg root) hp₁ h
    exact ⟨m, Nat.lt_succ_of_le hm, e, last₁, hr, h⟩

/-- An operand that starts with a name or a parenthesis is read with what follows it. -/
theorem operand_suffixed {t : Token} {l last : Nat} {x : Expr × Reader}
    (ht : (∃ name, t = .name name) ∨ t = .mark "(")
    (h : operand (n + 1) ctx ⟨⟨t, l⟩ :: ts, last⟩ = .ok x) :
    suffixed n ctx ⟨⟨t, l⟩ :: ts, last⟩ = .ok x := by
  unfold operand at h
  obtain ⟨name, rfl⟩ | rfl := ht <;> exact h

theorem first_extends {last : Nat}
    (h : ∀ u ∈ ts.head?, u.token.extends = false ∧ u.token ≠ .mark "=") :
    (Reader.first ⟨ts, last⟩).extends = false := by
  cases ts with
  | nil => rfl
  | cons u ts => exact (h u rfl).1

/-- A path is no key of a field. -/
theorem path_ne_key {root f : String} {fields : List String} {path us : List Lexeme} {l l' : Nat}
    (hp : path.map (·.token) = pathTokens root fields)
    (hnext : ∀ u ∈ ts.head?, u.token ≠ .mark "=") :
    path ++ ts ≠ ⟨.name f, l⟩ :: ⟨.mark "=", l'⟩ :: us := by
  intro h
  obtain ⟨k, vs, rfl, hv⟩ := tokens_cons hp
  cases fields with
  | nil =>
    obtain rfl := List.map_eq_nil_iff.1 hv
    obtain ⟨-, rfl⟩ := List.cons.inj h
    exact hnext _ rfl rfl
  | cons g gs =>
    obtain ⟨k', ws, rfl, -⟩ := tokens_cons hv
    simp at h

/-- A key with its `=` stands on both sides or on none. -/
theorem Spliced.key {ts' : List Lexeme} (h : Spliced known false ts ts') :
    (∃ f l l' k k' us us', ts = ⟨.name f, l⟩ :: ⟨.mark "=", k⟩ :: us ∧
        ts' = ⟨.name f, l'⟩ :: ⟨.mark "=", k'⟩ :: us' ∧ Spliced known false us us') ∨
      (∀ f l k us, ts ≠ ⟨.name f, l⟩ :: ⟨.mark "=", k⟩ :: us) ∧
        ∀ f l k us, ts' ≠ ⟨.name f, l⟩ :: ⟨.mark "=", k⟩ :: us := by
  cases h with
  | nil => exact .inr ⟨nofun, nofun⟩
  | keep _ t l l' h =>
    by_cases ht : ∃ f, t = .name f
    · obtain ⟨f, rfl⟩ := ht
      cases h with
      | nil => exact .inr ⟨nofun, nofun⟩
      | keep _ u k k' h =>
        by_cases hu : u = .mark "="
        · obtain rfl := hu
          exact .inl ⟨f, l, l', k, k', _, _, rfl, rfl, h⟩
        · exact .inr ⟨by simp [hu], by simp [hu]⟩
    · exact .inr ⟨fun f _ _ _ e => ht ⟨f, by simp_all⟩, fun f _ _ _ e => ht ⟨f, by simp_all⟩⟩
  | bare hp ha hk hnext h =>
    refine .inr ⟨fun f l k us => path_ne_key hp fun u hu => (hnext u hu).2, fun f l k us e => ?_⟩
    cases e
    cases ha
  | enclosed hp he hk hnext h => exact .inr ⟨fun f l k us => path_ne_key hp hnext, nofun⟩

/-- A symbol that starts no operand comes first on both sides or on none. -/
theorem Spliced.mark {b : Bool} {ts' : List Lexeme} (h : Spliced known b ts ts') (text : String)
    (ht : text ∉ operandMarks) :
    (∃ l us l' us', ts = ⟨.mark text, l⟩ :: us ∧ ts' = ⟨.mark text, l'⟩ :: us' ∧
        Spliced known true ts ts') ∨
      (∀ l us, ts ≠ ⟨.mark text, l⟩ :: us) ∧ ∀ l us, ts' ≠ ⟨.mark text, l⟩ :: us := by
  cases h with
  | nil => exact .inr ⟨nofun, nofun⟩
  | keep _ t l l' h =>
    by_cases hu : t = .mark text
    · obtain rfl := hu
      exact .inl ⟨l, _, l', _, rfl, rfl, .keep _ _ _ _ h⟩
    · exact .inr ⟨by simp [hu], by simp [hu]⟩
  | bare hp ha =>
    obtain ⟨k, us, rfl, -⟩ := tokens_cons hp
    refine .inr ⟨nofun, fun l us e => ?_⟩
    cases e
    simpa [Token.isMark] using isMark_operand (.inr ⟨_, ha⟩) ht
  | enclosed hp he =>
    obtain ⟨k, us, rfl, -⟩ := tokens_cons hp
    refine .inr ⟨nofun, fun l us e => ?_⟩
    cases e
    simp [operandMarks] at ht

/-- A field with neither a name and a `=` nor a key in brackets is an expression. -/
theorem field_item {last : Nat} {x : Field × Reader}
    (hkey : ∀ f l k us, ts ≠ ⟨.name f, l⟩ :: ⟨.mark "=", k⟩ :: us)
    (hbracket : ∀ l us, ts ≠ ⟨.mark "[", l⟩ :: us)
    (h : field (n + 1) ctx ⟨ts, last⟩ = .ok x) :
    (expression n ctx 0 >>= fun e => pure (.item e)) ⟨ts, last⟩ = .ok x := by
  unfold field at h
  obtain ⟨r, s, hr, h⟩ := bind_ok.1 h
  cases hr
  dsimp only at h
  split at h
  · exact (hkey _ _ _ _ rfl).elim
  · exact (hbracket _ _ rfl).elim
  · cases h
  · exact h

/-! ## Operands -/

theorem enter_ok {inner : Context} {r s : Reader} (h : ctx.enter r = .ok (inner, s)) : s = r := by
  unfold Context.enter at h
  split at h
  · cases h
    rfl
  · cases h

theorem operators_stop {limit : Nat} {e : Expr} {r : Reader} {x : Expr × Reader}
    (hr : ∀ y, infix? r.first = some y → y.2.1 ≤ limit)
    (h : operators n ctx limit e r = .ok x) : x = (e, r) := by
  cases n with
  | zero => exact (exhausted_ne _ _ (by unfold operators at h; exact h)).elim
  | succ n =>
    unfold operators at h
    obtain ⟨⟨t, l⟩, s, ht, h⟩ := bind_ok.1 h
    rw [current_run, Except.ok.injEq, Prod.mk.injEq] at ht
    obtain ⟨ht, rfl⟩ := ht
    rw [Reader.first, ht] at hr
    dsimp only at h hr
    cases hi : infix? t with
    | none =>
      rw [hi] at h
      cases h
      rfl
    | some y =>
      obtain ⟨op, left, right⟩ := y
      rw [hi] at h
      dsimp only at h
      rw [if_pos (hr _ hi)] at h
      cases h
      rfl

theorem Atom.operand {t : Token} {e : Expr} (he : Atom t e) {l last : Nat} {x : Expr × Reader}
    (h : Script.operand n ctx ⟨⟨t, l⟩ :: ts, last⟩ = .ok x) : x = (e, ⟨ts, l⟩) := by
  cases n with
  | zero => exact (exhausted_ne _ _ (by unfold Script.operand at h; exact h)).elim
  | succ n =>
    unfold Script.operand at h
    cases he <;> (cases h; rfl)

/-- A number or the like is not called and has no fields. -/
theorem Atom.suffixed_ne {t : Token} {e : Expr} (he : Atom t e) (l last : Nat)
    (x : Expr × Reader) : Script.suffixed n ctx ⟨⟨t, l⟩ :: ts, last⟩ ≠ .ok x := by
  intro h
  cases n with
  | zero => exact exhausted_ne _ _ (by unfold suffixed at h; exact h)
  | succ n =>
    unfold suffixed at h
    have h : (Parser.fault "unexpected symbol" : Parser Expr) ⟨⟨t, l⟩ :: ts, last⟩ = .ok x := by
      cases he <;> exact h
    exact fault_ne _ _ _ h

/-- An expression that starts with a number or the like goes on with the operators after it. -/
theorem Atom.begins {t : Token} {e : Expr} (he : Atom t e) {l last limit : Nat}
    {x : Expr × Reader} (h : Script.expression n ctx limit ⟨⟨t, l⟩ :: ts, last⟩ = .ok x) :
    ∃ m inner, operators m inner limit e ⟨ts, l⟩ = .ok x := by
  cases n with
  | zero => exact (exhausted_ne _ _ (by unfold Script.expression at h; exact h)).elim
  | succ n =>
    unfold Script.expression at h
    obtain ⟨inner, s, hi, h⟩ := bind_ok.1 h
    obtain rfl := enter_ok hi
    obtain ⟨_, s, hc, h⟩ := bind_ok.1 h
    cases hc
    dsimp only [List.headD_cons] at h
    rw [unary?_of_operand (.inr ⟨e, he⟩)] at h
    obtain ⟨f, s, hf, h⟩ := bind_ok.1 h
    cases he.operand hf
    exact ⟨n, inner, h⟩

theorem Atom.expression {t : Token} {e : Expr} (he : Atom t e) {l last limit : Nat}
    {x : Expr × Reader} (hs : ∀ y, infix? (Reader.first ⟨ts, l⟩) = some y → y.2.1 ≤ limit)
    (h : Script.expression n ctx limit ⟨⟨t, l⟩ :: ts, last⟩ = .ok x) : x = (e, ⟨ts, l⟩) := by
  obtain ⟨m, inner, h⟩ := he.begins h
  exact operators_stop hs h

/-- No operator comes before a closing parenthesis. -/
theorem closing_stops (k l : Nat) (ts : List Lexeme) (limit : Nat) (y : Infix × Nat × Nat)
    (h : infix? (Reader.first ⟨⟨.mark ")", k⟩ :: ts, l⟩) = some y) : y.2.1 ≤ limit := by
  cases h

/-- A quotient with a number on its right. -/
theorem quotient_operators {limit : Nat} (hlimit : limit < 11) {e f : Expr} {u : Token}
    (hu : Atom u f) {l l' k last : Nat} {x : Expr × Reader}
    (h : operators n ctx limit e ⟨⟨.mark "/", l⟩ :: ⟨u, l'⟩ :: ⟨.mark ")", k⟩ :: ts, last⟩ =
      .ok x) :
    x = (.binary l (.arith .div) (e.settle l) f, ⟨⟨.mark ")", k⟩ :: ts, l'⟩) := by
  cases n with
  | zero => exact (exhausted_ne _ _ (by unfold operators at h; exact h)).elim
  | succ n =>
    unfold operators at h
    obtain ⟨_, s, hc, h⟩ := bind_ok.1 h
    cases hc
    have h : (if 11 ≤ limit then pure e else do
        Parser.advance
        let right ← Script.expression n ctx 11
        let left := e.settle l
        operators n ctx limit (combine (.plain (.arith .div)) l (← Parser.lastLine) left right))
          ⟨⟨.mark "/", l⟩ :: ⟨u, l'⟩ :: ⟨.mark ")", k⟩ :: ts, last⟩ = .ok x := h
    rw [if_neg (by omega)] at h
    obtain ⟨_, s, ha, h⟩ := bind_ok.1 h
    cases ha
    obtain ⟨g, s, hg, h⟩ := bind_ok.1 h
    cases hu.expression (closing_stops k l' ts 11) hg
    obtain ⟨_, s, hl, h⟩ := bind_ok.1 h
    cases hl
    obtain rfl := operators_stop (closing_stops k l' ts limit) h
    rw [combine, hu.settle]
    rfl

/-- A number with a sign before it is the left of what follows. -/
theorem minus_expression {e : Expr} {t : Token} (he : Atom t e) {l l' last : Nat}
    {x : Expr × Reader} (hs : ∀ y, infix? (Reader.first ⟨ts, l'⟩) = some y → y.2.1 ≤ 12)
    (h : Script.expression n ctx 0 ⟨⟨.mark "-", l⟩ :: ⟨t, l'⟩ :: ts, last⟩ = .ok x) :
    ∃ m inner, operators m inner 0 (.unary l .neg e) ⟨ts, l'⟩ = .ok x := by
  cases n with
  | zero => exact (exhausted_ne _ _ (by unfold Script.expression at h; exact h)).elim
  | succ n =>
    unfold Script.expression at h
    obtain ⟨inner, s, hi, h⟩ := bind_ok.1 h
    obtain rfl := enter_ok hi
    obtain ⟨_, s, hc, h⟩ := bind_ok.1 h
    cases hc
    have h : (do
        Parser.advance
        let e ← Script.expression n inner unaryPower
        operators n inner 0 (.unary l .neg (e.settle (← Parser.lastLine))))
          ⟨⟨.mark "-", l⟩ :: ⟨t, l'⟩ :: ts, last⟩ = .ok x := h
    obtain ⟨_, s, ha, h⟩ := bind_ok.1 h
    cases ha
    obtain ⟨f, s, hf, h⟩ := bind_ok.1 h
    cases he.expression hs hf
    obtain ⟨_, s, hl, h⟩ := bind_ok.1 h
    cases hl
    rw [he.settle] at h
    exact ⟨n, inner, h⟩

/-- A path before a closing parenthesis. -/
theorem path_expression {root : String} {fields : List String} {path : List Lexeme} {k last : Nat}
    {x : Expr × Reader} (hg : (findBinding environmentName ctx.scope).isSome)
    (hp : path.map (·.token) = pathTokens root fields)
    (h : Script.expression n ctx 0 ⟨path ++ ⟨.mark ")", k⟩ :: ts, last⟩ = .ok x) :
    ∃ e last₁, Reads (root :: fields) e ∧ x = (e, ⟨⟨.mark ")", k⟩ :: ts, last₁⟩) := by
  obtain ⟨l, path₁, rfl, hp₁⟩ := tokens_cons hp
  cases n with
  | zero => exact (exhausted_ne _ _ (by unfold Script.expression at h; exact h)).elim
  | succ n =>
    unfold Script.expression at h
    obtain ⟨inner, s, hi, h⟩ := bind_ok.1 h
    have hgi : (findBinding environmentName inner.scope).isSome := by
      unfold Context.enter at hi
      split at hi
      · cases hi
        exact hg
      · cases hi
    obtain rfl := enter_ok hi
    obtain ⟨_, s, hc, h⟩ := bind_ok.1 h
    cases hc
    obtain ⟨f, s, hf, h⟩ := bind_ok.1 h
    cases n with
    | zero => exact (exhausted_ne _ _ (by unfold Script.operand at hf; exact hf)).elim
    | succ n =>
      have hf := operand_suffixed (.inl ⟨root, rfl⟩) hf
      obtain ⟨m, -, e, last₁, hr, hf⟩ := suffixed_path hgi hp hf
      cases suffixes_stop rfl hf
      obtain rfl := operators_stop (closing_stops k last₁ ts 0) h
      exact ⟨_, last₁, hr, rfl⟩

/-- What stands in parentheses is read up to the closing one. -/
theorem Enclosed.expression {inner : List Lexeme} {e : Expr} {k last : Nat} {x : Expr × Reader}
    (hg : (findBinding environmentName ctx.scope).isSome) (he : Enclosed (inner.map (·.token)) e)
    (h : Script.expression n ctx 0 ⟨inner ++ ⟨.mark ")", k⟩ :: ts, last⟩ = .ok x) :
    Enclosed (inner.map (·.token)) x.1 ∧ x.2.tokens = ⟨.mark ")", k⟩ :: ts := by
  generalize hi : inner.map (·.token) = tokens at he
  cases he with
  | minus he =>
    obtain ⟨l, us, rfl, hi₁⟩ := tokens_cons hi
    obtain ⟨l', vs, rfl, hi₂⟩ := tokens_cons hi₁
    obtain rfl := List.map_eq_nil_iff.1 hi₂
    obtain ⟨m, _, h⟩ := minus_expression he (closing_stops k l' ts 12) h
    obtain rfl := operators_stop (closing_stops k l' ts 0) h
    exact ⟨.minus he l, rfl⟩
  | quotient ht hu =>
    obtain ⟨l, us, rfl, hi₁⟩ := tokens_cons hi
    obtain ⟨l₁, vs, rfl, hi₂⟩ := tokens_cons hi₁
    obtain ⟨l₂, ws, rfl, hi₃⟩ := tokens_cons hi₂
    obtain rfl := List.map_eq_nil_iff.1 hi₃
    obtain ⟨m, _, h⟩ := ht.begins h
    obtain rfl := quotient_operators (by decide) hu h
    rw [ht.settle]
    exact ⟨.quotient ht hu l₁, rfl⟩
  | minusQuotient ht hu =>
    obtain ⟨l, us, rfl, hi₁⟩ := tokens_cons hi
    obtain ⟨l₁, vs, rfl, hi₂⟩ := tokens_cons hi₁
    obtain ⟨l₂, ws, rfl, hi₃⟩ := tokens_cons hi₂
    obtain ⟨l₃, zs, rfl, hi₄⟩ := tokens_cons hi₃
    obtain rfl := List.map_eq_nil_iff.1 hi₄
    obtain ⟨m, _, h⟩ := minus_expression ht (by rintro _ ⟨⟩; decide) h
    obtain rfl := quotient_operators (by decide) hu h
    exact ⟨.minusQuotient ht hu l₂ l, rfl⟩
  | path =>
    obtain ⟨e, last', hr, hx⟩ := path_expression hg hi h
    rw [hx]
    exact ⟨hi ▸ .path hr, rfl⟩

theorem suffixed_enclosed {inner : List Lexeme} {e : Expr} {l k last : Nat} {x : Expr × Reader}
    (hg : (findBinding environmentName ctx.scope).isSome) (he : Enclosed (inner.map (·.token)) e)
    (h : suffixed n ctx ⟨⟨.mark "(", l⟩ :: (inner ++ ⟨.mark ")", k⟩ :: ts), last⟩ = .ok x) :
    ∃ m e₁, Enclosed (inner.map (·.token)) e₁ ∧
      suffixes m ctx (.single e₁) ⟨ts, k⟩ = .ok x := by
  cases n with
  | zero => exact (exhausted_ne _ _ (by unfold suffixed at h; exact h)).elim
  | succ n =>
    unfold suffixed at h
    obtain ⟨_, s, hc, h⟩ := bind_ok.1 h
    cases hc
    have h : (do
        Parser.advance
        let e ← Script.expression n ctx 0
        Parser.close ")" "(" l
        suffixes n ctx (.single (e.settle (← Parser.lastLine))) : Parser Expr)
          ⟨⟨.mark "(", l⟩ :: (inner ++ ⟨.mark ")", k⟩ :: ts), last⟩ = .ok x := h
    obtain ⟨_, s, ha, h⟩ := bind_ok.1 h
    cases ha
    obtain ⟨e₁, s, hx, h⟩ := bind_ok.1 h
    obtain ⟨he₁, ht⟩ := he.expression hg hx
    obtain ⟨_, s', hclose, h⟩ := bind_ok.1 h
    obtain ⟨_, _, ht', rfl⟩ := close_ok hclose
    rw [ht] at ht'
    cases ht'
    obtain ⟨_, s, hl, h⟩ := bind_ok.1 h
    cases hl
    exact ⟨n, _, he₁.settle _, h⟩

end EnvManifest.Script
