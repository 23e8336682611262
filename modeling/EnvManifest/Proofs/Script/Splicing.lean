import EnvManifest.Proofs.Script.Folds
import EnvManifest.Script.Parser

/-!
# Tokens in the place of names

One list of tokens is spliced into another one if the tokens of some operands stand in the place of
some names, or of dotted paths of names. The parts of the parser that read single tokens go on alike
on both lists, as long as both are accepted.
-/

namespace EnvManifest.Script

open Text

/-! ## What stands in the place of a name -/

/-- The tokens of a name with fields after it. -/
def pathTokens (root : String) (fields : List String) : List Token :=
  .name root :: fields.flatMap fun n => [.mark ".", .name n]

/-- An expression that reads a path: a variable or a global, or a field of what a path reads. -/
inductive Reads : List String → Expr → Prop
  | var (v : Variable) : Reads [v.name] (.var v)
  | global (l : Nat) {v : Variable} (hv : v.name = environmentName) (n : String) :
    Reads [n] (.index l (.var v) (.str (encode n.toList)))
  | field (l : Nat) {names : List String} {e : Expr} (h : Reads names e) (n : String) :
    Reads (names ++ [n]) (.index l e (.str (encode n.toList)))

/-- One token that is an operand on its own, and its meaning. -/
inductive Atom : Token → Expr → Prop
  | nil : Atom (.mark "nil") .nil
  | true : Atom (.mark "true") (.bool true)
  | false : Atom (.mark "false") (.bool false)
  | int (n : Int64) (written : String) : Atom (.int n written) (.int n)
  | float (x : Float) (written : String) : Atom (.float x written) (.float x)
  | str (bs shown : Bytes) : Atom (.str bs shown) (.str bs)

/-- What may stand in parentheses, and its meaning: a number with a sign, a quotient of two numbers,
or a field of a name. -/
inductive Enclosed : List Token → Expr → Prop
  | minus {t : Token} {e : Expr} (h : Atom t e) (l : Nat) :
    Enclosed [.mark "-", t] (.unary l .neg e)
  | quotient {t u : Token} {e f : Expr} (ht : Atom t e) (hu : Atom u f) (l : Nat) :
    Enclosed [t, .mark "/", u] (.binary l (.arith .div) e f)
  | minusQuotient {t u : Token} {e f : Expr} (ht : Atom t e) (hu : Atom u f) (l l' : Nat) :
    Enclosed [.mark "-", t, .mark "/", u] (.binary l (.arith .div) (.unary l' .neg e) f)
  | path {root field : String} {e : Expr} (h : Reads [root, field] e) :
    Enclosed (pathTokens root [field]) e

/-- The tokens of an operand, and its meaning. -/
inductive Stands : List Token → Expr → Prop
  | bare {t : Token} {e : Expr} (h : Atom t e) : Stands [t] e
  | enclosed {ts : List Token} {e : Expr} (h : Enclosed ts e) :
    Stands (.mark "(" :: ts ++ [.mark ")"]) (.single e)

/-- An expression that reads a path, and one that the tokens in its place mean. -/
def Swaps (known : List String → List Token → Prop) (e e' : Expr) : Prop :=
  ∃ names ts, Reads names e ∧ known names ts ∧ Stands ts e'

/-! ## Spliced tokens -/

/-- Can a call or an access follow on the token? -/
def Token.ends : Token → Bool
  | .name _ | .str _ _ => true
  | .mark t => [")", "]", "\x7d"].contains t
  | _ => false

/-- Does the token go on with the operand before it? -/
def Token.extends : Token → Bool
  | .str _ _ => true
  | .mark t => [".", "[", ":", "(", "\x7b"].contains t
  | _ => false

/-- Tokens with known operands in the place of some paths. No path stands after the end of an operand
or before a `=`, and one with a bare token in its place is not gone on with. -/
inductive Spliced (known : List String → List Token → Prop) :
    Bool → List Lexeme → List Lexeme → Prop
  | nil (b : Bool) : Spliced known b [] []
  | keep (b : Bool) (t : Token) (l l' : Nat) {ts ts' : List Lexeme}
    (h : Spliced known t.ends ts ts') : Spliced known b (⟨t, l⟩ :: ts) (⟨t, l'⟩ :: ts')
  | bare {path ts ts' : List Lexeme} {t : Token} {l : Nat} {root : String} {fields : List String}
    {e : Expr} (hp : path.map (·.token) = pathTokens root fields) (ha : Atom t e)
    (hk : known (root :: fields) [t])
    (hnext : ∀ u ∈ ts.head?, u.token.extends = false ∧ u.token ≠ .mark "=")
    (h : Spliced known true ts ts') : Spliced known false (path ++ ts) (⟨t, l⟩ :: ts')
  | enclosed {path ts ts' inner : List Lexeme} {l l' : Nat} {root : String} {fields : List String}
    {e : Expr} (hp : path.map (·.token) = pathTokens root fields)
    (he : Enclosed (inner.map (·.token)) e)
    (hk : known (root :: fields) (.mark "(" :: inner.map (·.token) ++ [.mark ")"]))
    (hnext : ∀ u ∈ ts.head?, u.token ≠ .mark "=") (h : Spliced known true ts ts') :
    Spliced known false (path ++ ts) (⟨.mark "(", l⟩ :: (inner ++ ⟨.mark ")", l'⟩ :: ts'))

/-- The first token. -/
def Reader.first (r : Reader) : Token := (r.tokens.headD ⟨.eof, 0⟩).token

/-! ## Parsers that go on alike -/

section

variable (known : List String → List Token → Prop) {α β γ δ : Type}

/-- If both are accepted, the results are related, and the rest is spliced. -/
def Agree (b : Bool) (Q : α → β → Prop) (x : Except SyntaxFault (α × Reader))
    (y : Except SyntaxFault (β × Reader)) : Prop :=
  ∀ a r a' r', x = .ok (a, r) → y = .ok (a', r') → Q a a' ∧ Spliced known b r.tokens r'.tokens

/-- Two parsers that agree on spliced tokens. -/
def Sim (b b' : Bool) (p : Parser α) (p' : Parser β) (Q : α → β → Prop) : Prop :=
  ∀ r r', Spliced known b r.tokens r'.tokens → Agree known b' Q (p r) (p' r')

/-- Two parsers that agree on spliced tokens of which these are the first. -/
def SimAt (t t' : Token) (b b' : Bool) (p : Parser α) (p' : Parser β) (Q : α → β → Prop) : Prop :=
  ∀ r r', r.first = t → r'.first = t' → Spliced known b r.tokens r'.tokens →
    Agree known b' Q (p r) (p' r')

end

variable {known : List String → List Token → Prop} {α β γ δ : Type} {b b' b₁ b₂ : Bool}

/-- Where no path may stand, one may stand as well. -/
theorem Spliced.weaken {ts ts' : List Lexeme} (h : Spliced known true ts ts') (b : Bool) :
    Spliced known b ts ts' := by
  cases h with
  | nil => exact .nil b
  | keep _ t l l' h => exact .keep b t l l' h

theorem Spliced.loosen {ts ts' : List Lexeme} (h : Spliced known b ts ts') :
    Spliced known false ts ts' := by
  cases b with
  | true => exact h.weaken _
  | false => exact h

theorem bind_ok {p : Parser α} {k : α → Parser γ} {r : Reader} {x : γ × Reader} :
    (p >>= k) r = .ok x ↔ ∃ a s, p r = .ok (a, s) ∧ k a s = .ok x := by
  simp only [Bind.bind, StateT.bind, Except.bind]
  cases h : p r with
  | error => simp
  | ok y =>
    obtain ⟨a, s⟩ := y
    simp

theorem tokens_cons {ls : List Lexeme} {t : Token} {ts : List Token}
    (h : ls.map (·.token) = t :: ts) : ∃ l us, ls = ⟨t, l⟩ :: us ∧ us.map (·.token) = ts := by
  obtain ⟨⟨_, l⟩, us, rfl, rfl, hus⟩ := List.map_eq_cons_iff.1 h
  exact ⟨l, us, rfl, hus⟩

/-- The first tokens are the same, or a name and the start of an operand. -/
theorem Spliced.head {ts ts' : List Lexeme} (h : Spliced known b ts ts') :
    (Spliced known true ts ts' ∧ (ts.headD ⟨.eof, 0⟩).token = (ts'.headD ⟨.eof, 0⟩).token) ∨
      b = false ∧ (∃ n l us, ts = ⟨.name n, l⟩ :: us) ∧
        ∃ t l us, ts' = ⟨t, l⟩ :: us ∧ (t = .mark "(" ∨ ∃ e, Atom t e) := by
  cases h with
  | nil => exact .inl ⟨.nil _, rfl⟩
  | keep _ t l l' h => exact .inl ⟨.keep _ t l l' h, rfl⟩
  | @bare path ts ts' t l root fields e hp ha =>
    obtain ⟨l', us, rfl, -⟩ := tokens_cons hp
    exact .inr ⟨rfl, ⟨root, l', us ++ ts, rfl⟩, t, l, ts', rfl, .inr ⟨e, ha⟩⟩
  | @enclosed path ts ts' inner l l' root fields e hp he =>
    obtain ⟨l', us, rfl, -⟩ := tokens_cons hp
    exact .inr ⟨rfl, ⟨root, l', us ++ ts, rfl⟩, _, l, _, rfl, .inl rfl⟩

namespace Sim

variable {Q : α → β → Prop} {p : Parser α} {p' : Parser β}

theorem pure {a : α} {a' : β} (h : Q a a') :
    Sim known b b (Pure.pure a : Parser α) (Pure.pure a' : Parser β) Q := by
  intro r r' hr _ _ _ _ e e'
  cases e
  cases e'
  exact ⟨h, hr⟩

theorem bind {R : γ → δ → Prop} {k : α → Parser γ} {k' : β → Parser δ}
    (hp : Sim known b b₁ p p' Q) (hk : ∀ a a', Q a a' → Sim known b₁ b₂ (k a) (k' a') R) :
    Sim known b b₂ (p >>= k) (p' >>= k') R := by
  intro r r' hr c s c' s' e e'
  obtain ⟨a, r₁, ha, he⟩ := bind_ok.1 e
  obtain ⟨a', r₁', ha', he'⟩ := bind_ok.1 e'
  obtain ⟨hq, hs⟩ := hp r r' hr a r₁ a' r₁' ha ha'
  exact hk a a' hq r₁ r₁' hs c s c' s' he he'

theorem weaken (hp : Sim known b true p p' Q) (b₁ : Bool) : Sim known b b₁ p p' Q := by
  intro r r' hr a s a' s' e e'
  obtain ⟨ha, hs⟩ := hp r r' hr a s a' s' e e'
  exact ⟨ha, hs.weaken b₁⟩

theorem weaken_in (hp : Sim known false b₁ p p' Q) : Sim known b b₁ p p' Q :=
  fun r r' hr => hp r r' hr.loosen

theorem ite {c : Prop} [Decidable c] {q : Parser α} {q' : Parser β}
    (hp : c → Sim known b b₁ p p' Q) (hq : ¬c → Sim known b b₁ q q' Q) :
    Sim known b b₁ (if c then p else q) (if c then p' else q') Q := by
  by_cases h : c
  · simpa only [if_pos h] using hp h
  · simpa only [if_neg h] using hq h

theorem simAt {t t' : Token} (hp : Sim known b b₁ p p' Q) : SimAt known t t' b b₁ p p' Q :=
  fun r r' _ _ hr => hp r r' hr

/-- The first one accepts nothing. -/
theorem left (hp : ∀ r x, p r ≠ .ok x) : Sim known b b₁ p p' Q :=
  fun r _ _ _ _ _ _ e _ => absurd e (hp r _)

theorem right (hp : ∀ r x, p' r ≠ .ok x) : Sim known b b₁ p p' Q :=
  fun _ r' _ _ _ _ _ _ e' => absurd e' (hp r' _)

end Sim

/-! ## Single tokens -/

section

variable {Q : α → β → Prop}

theorem current_run (r : Reader) : Parser.current r = .ok (r.tokens.headD ⟨.eof, 0⟩, r) := rfl

theorem Sim.lastLine : Sim known b b Parser.lastLine Parser.lastLine fun _ _ => True := by
  intro r r' hr _ _ _ _ e e'
  cases e
  cases e'
  exact ⟨trivial, hr⟩

theorem Sim.currentLine : Sim known b b Parser.currentLine Parser.currentLine fun _ _ => True := by
  intro r r' hr _ _ _ _ e e'
  cases e
  cases e'
  exact ⟨trivial, hr⟩

theorem fault_ne (message : String) (r : Reader) (x : α × Reader) :
    (Parser.fault message : Parser α) r ≠ .ok x := by
  intro h
  obtain ⟨⟨t, l⟩, s, -, h⟩ := bind_ok.1 h
  cases t <;> cases h

theorem fault_bind_ne (message : String) (k : α → Parser γ) (r : Reader) (x : γ × Reader) :
    ((Parser.fault message : Parser α) >>= k) r ≠ .ok x := by
  intro h
  obtain ⟨a, s, h, -⟩ := bind_ok.1 h
  exact fault_ne _ _ _ h

theorem misuse_ne (message : String) (r : Reader) (x : α × Reader) :
    (Parser.misuse message : Parser α) r ≠ .ok x := by
  intro h
  cases h

/-- Is it this symbol or keyword? -/
def Token.isMark (text : String) : Token → Bool
  | .mark t => t == text
  | _ => false

theorem isMark_run (text : String) (r : Reader) :
    Parser.isMark text r = .ok ((r.tokens.headD ⟨.eof, 0⟩).token.isMark text, r) := by
  show (match (r.tokens.headD ⟨.eof, 0⟩).token with
    | .mark t => Pure.pure (t == text)
    | _ => Pure.pure false : Parser Bool) r = _
  cases (r.tokens.headD ⟨.eof, 0⟩).token <;> rfl

theorem isMark_eq {t : Token} {text : String} (h : t.isMark text = true) : t = .mark text := by
  cases t with
  | mark t => simpa [Token.isMark] using h
  | _ => simp [Token.isMark] at h

theorem accept_yes (text : String) {r : Reader} (h : r.first.isMark text = true) :
    ∃ l ts, r.tokens = ⟨.mark text, l⟩ :: ts ∧ Parser.accept text r = .ok (true, ⟨ts, l⟩) := by
  obtain ⟨ts, last⟩ := r
  cases ts with
  | nil => simp [Reader.first, Token.isMark] at h
  | cons x ts =>
    obtain ⟨t, l⟩ := x
    obtain rfl : t = .mark text := isMark_eq h
    refine ⟨l, ts, rfl, bind_ok.2 ⟨true, ⟨⟨.mark text, l⟩ :: ts, last⟩, ?_, rfl⟩⟩
    rw [isMark_run]
    exact congrArg (fun x => Except.ok (x, _)) h

theorem accept_no (text : String) {r : Reader} (h : r.first.isMark text = false) :
    Parser.accept text r = .ok (false, r) := by
  refine bind_ok.2 ⟨false, r, ?_, rfl⟩
  rw [isMark_run]
  exact congrArg (fun x => Except.ok (x, _)) h

/-- Does a block end before the token? -/
def Token.closesBlock : Token → Bool
  | .eof => true
  | .mark t => ["else", "elseif", "end", "until"].contains t
  | _ => false

theorem atBlockEnd_run (r : Reader) : Parser.atBlockEnd r = .ok (r.first.closesBlock, r) := by
  show (match r.first with
    | .eof => Pure.pure true
    | .mark t => Pure.pure (["else", "elseif", "end", "until"].contains t)
    | _ => Pure.pure false : Parser Bool) r = _
  cases r.first <;> rfl

/-- The marks with which an operand starts. -/
def operandMarks : List String := ["(", "nil", "true", "false"]

theorem isMark_operand {t : Token} (h : t = .mark "(" ∨ ∃ e, Atom t e) {text : String}
    (ht : text ∉ operandMarks) : t.isMark text = false := by
  simp only [operandMarks, List.mem_cons, List.not_mem_nil, or_false, not_or] at ht
  obtain rfl | ⟨e, he⟩ := h
  · simpa [Token.isMark] using Ne.symm ht.1
  · cases he <;> simp [Token.isMark] <;> tauto

/-- Whether a symbol comes first is the same on both sides. If it does, no path comes first. -/
theorem Spliced.isMark {r r' : Reader} (hr : Spliced known b r.tokens r'.tokens) (text : String)
    (ht : text ∉ operandMarks) : r.first.isMark text = r'.first.isMark text ∧
      (r.first.isMark text = true → Spliced known true r.tokens r'.tokens) := by
  obtain ⟨hk, hh⟩ | ⟨-, ⟨n, l, us, hn⟩, t, l', us', hl, ht'⟩ := hr.head
  · exact ⟨by rw [Reader.first, hh, Reader.first], fun _ => hk⟩
  · have h : r.first.isMark text = false := by simp [Reader.first, hn, Token.isMark]
    have h' : r'.first.isMark text = false := by
      simpa [Reader.first, hl] using isMark_operand ht' ht
    exact ⟨h.trans h'.symm, fun hm => by simp [h] at hm⟩

/-- Where no path can come first on one side, or no operand on the other, the first tokens are the
same. -/
theorem Spliced.tail {t t' : Token} {l l' : Nat} {ts ts' : List Lexeme}
    (h : Spliced known b (⟨t, l⟩ :: ts) (⟨t', l'⟩ :: ts'))
    (ht : (∀ n, t ≠ .name n) ∨ ∃ n, t' = .name n) : t = t' ∧ Spliced known t.ends ts ts' := by
  obtain ⟨hk, -⟩ | ⟨-, ⟨n, l₁, us, hn⟩, u, l₂, us', hl, hu⟩ := h.head
  · cases hk with | keep _ _ _ _ hs => exact ⟨rfl, hs⟩
  · cases hn
    cases hl
    obtain ht | ⟨n', rfl⟩ := ht
    · exact absurd rfl (ht n)
    · obtain hu | ⟨e, hu⟩ := hu <;> cases hu

/-! ## What single tokens are accepted -/

theorem expect_ok {text : String} {r s : Reader} {u : Unit}
    (h : Parser.expect text r = .ok (u, s)) :
    ∃ l ts, r.tokens = ⟨.mark text, l⟩ :: ts ∧ s = ⟨ts, l⟩ := by
  obtain ⟨x, r₁, hx, h⟩ := bind_ok.1 h
  cases hm : r.first.isMark text with
  | true =>
    obtain ⟨l, ts, ht, ha⟩ := accept_yes text hm
    rw [ha] at hx
    cases hx
    cases h
    exact ⟨l, ts, ht, rfl⟩
  | false =>
    rw [accept_no text hm] at hx
    cases hx
    exact (fault_ne _ _ _ h).elim

theorem close_ok {text opening : String} {line : Nat} {r s : Reader} {u : Unit}
    (h : Parser.close text opening line r = .ok (u, s)) :
    ∃ l ts, r.tokens = ⟨.mark text, l⟩ :: ts ∧ s = ⟨ts, l⟩ := by
  obtain ⟨x, r₁, hx, h⟩ := bind_ok.1 h
  cases hm : r.first.isMark text with
  | true =>
    obtain ⟨l, ts, ht, ha⟩ := accept_yes text hm
    rw [ha] at hx
    cases hx
    cases h
    exact ⟨l, ts, ht, rfl⟩
  | false =>
    rw [accept_no text hm] at hx
    cases hx
    obtain ⟨k, r₂, -, h⟩ := bind_ok.1 h
    split at h <;> exact (fault_ne _ _ _ h).elim

theorem name_ok {n : String} {r s : Reader} (h : Parser.name r = .ok (n, s)) :
    ∃ l ts, r.tokens = ⟨.name n, l⟩ :: ts ∧ s = ⟨ts, l⟩ := by
  obtain ⟨ts, last⟩ := r
  cases ts with
  | nil => cases h
  | cons x ts =>
    obtain ⟨t, l⟩ := x
    cases t with
    | name n =>
      cases h
      exact ⟨l, ts, rfl, rfl⟩
    | _ => cases h

/-- A token that is known is passed. -/
theorem SimAt.advance {t t' : Token} {k : Unit → Parser α} {k' : Unit → Parser β}
    (hk : Sim known t.ends b' (k ()) (k' ()) Q) :
    SimAt known t t' true b' (Parser.advance >>= k) (Parser.advance >>= k') Q := by
  rintro ⟨ts, l⟩ ⟨ts', l'⟩ rfl - hr
  cases hr with
  | nil => exact hk _ _ (.nil _)
  | keep _ t l l' h => exact hk _ _ h

namespace Sim

/-- A symbol is looked for. If it is there, no path is. -/
theorem isMark (text : String) (ht : text ∉ operandMarks) {k : Bool → Parser α}
    {k' : Bool → Parser β} (hyes : Sim known true b' (k true) (k' true) Q)
    (hno : Sim known b b' (k false) (k' false) Q) :
    Sim known b b' (Parser.isMark text >>= k) (Parser.isMark text >>= k') Q := by
  intro r r' hr c s c' s' e e'
  obtain ⟨x, r₁, hx, e⟩ := bind_ok.1 e
  obtain ⟨x', r₁', hx', e'⟩ := bind_ok.1 e'
  rw [isMark_run, Except.ok.injEq, Prod.mk.injEq] at hx hx'
  obtain ⟨hx, rfl⟩ := hx
  obtain ⟨hx', rfl⟩ := hx'
  obtain ⟨hsame, hfix⟩ := hr.isMark text ht
  obtain rfl : x = x' := hx.symm.trans (hsame.trans hx')
  cases x with
  | true => exact hyes r r' (hfix hx) c s c' s' e e'
  | false => exact hno r r' hr c s c' s' e e'

theorem isMarks (text : String) (ht : text ∉ operandMarks) :
    Sim known b b (Parser.isMark text) (Parser.isMark text) Eq := by
  intro r r' hr x s x' s' e e'
  rw [isMark_run] at e e'
  cases e
  cases e'
  exact ⟨(hr.isMark text ht).1, hr⟩

/-- The first token is looked at. -/
theorem current {k : Lexeme → Parser α} {k' : Lexeme → Parser β}
    (hsame : ∀ t l l', SimAt known t t true b' (k ⟨t, l⟩) (k' ⟨t, l'⟩) Q)
    (hother : b = false → ∀ n l t l', (t = .mark "(" ∨ ∃ e, Atom t e) →
      SimAt known (.name n) t false b' (k ⟨.name n, l⟩) (k' ⟨t, l'⟩) Q) :
    Sim known b b' (Parser.current >>= k) (Parser.current >>= k') Q := by
  intro ⟨ts, last⟩ ⟨ts', last'⟩ hr
  have hf := hr.loosen
  obtain ⟨hk, hh⟩ | ⟨hb, ⟨n, l, us, rfl⟩, t, l', us', rfl, ht⟩ := hr.head
  · have := hsame (ts.headD ⟨.eof, 0⟩).token (ts.headD ⟨.eof, 0⟩).line (ts'.headD ⟨.eof, 0⟩).line
      ⟨ts, last⟩ ⟨ts', last'⟩ rfl hh.symm hk
    nth_rewrite 2 [hh] at this
    exact this
  · exact hother hb n l t l' ht ⟨_, last⟩ ⟨_, last'⟩ rfl rfl hf

/-- A token that is no path is passed. -/
theorem advance {k : Unit → Parser α} {k' : Unit → Parser β}
    (hk : Sim known false b' (k ()) (k' ()) Q) :
    Sim known true b' (Parser.advance >>= k) (Parser.advance >>= k') Q := by
  intro ⟨ts, l⟩ ⟨ts', l'⟩ hr
  cases hr with
  | nil => exact hk _ _ (.nil _)
  | keep _ t l l' h => exact hk _ _ h.loosen

/-- A symbol is passed if it is there. -/
theorem accept (text : String) (ht : text ∉ operandMarks) {k : Bool → Parser α}
    {k' : Bool → Parser β} (hyes : Sim known (Token.mark text).ends b' (k true) (k' true) Q)
    (hno : Sim known b b' (k false) (k' false) Q) :
    Sim known b b' (Parser.accept text >>= k) (Parser.accept text >>= k') Q := by
  intro r r' hr c s c' s' e e'
  obtain ⟨x, r₁, hx, e⟩ := bind_ok.1 e
  obtain ⟨x', r₁', hx', e'⟩ := bind_ok.1 e'
  obtain ⟨hsame, hfix⟩ := hr.isMark text ht
  cases hm : r.first.isMark text with
  | true =>
    obtain ⟨l, ts, ht, ha⟩ := accept_yes text hm
    obtain ⟨l', ts', ht', ha'⟩ := accept_yes text (hsame ▸ hm)
    rw [ha] at hx
    rw [ha'] at hx'
    cases hx
    cases hx'
    have hs := hfix hm
    rw [ht, ht'] at hs
    cases hs with | keep _ _ _ _ hs => exact hyes _ _ hs c s c' s' e e'
  | false =>
    rw [accept_no text hm] at hx
    rw [accept_no text (hsame ▸ hm)] at hx'
    cases hx
    cases hx'
    exact hno r r' hr c s c' s' e e'

theorem accepts (text : String) (ht : text ∉ operandMarks) (he : (Token.mark text).ends = b) :
    Sim known b b (Parser.accept text) (Parser.accept text) Eq := by
  subst he
  have h : Sim known _ _ (Parser.accept text >>= Pure.pure) (Parser.accept text >>= Pure.pure)
      Eq := .accept text ht (Sim.pure rfl) (Sim.pure rfl)
  simpa only [bind_pure] using h

/-- A symbol must come first. -/
theorem expect (text : String) : Sim known b (Token.mark text).ends (Parser.expect text)
    (Parser.expect text) fun _ _ => True := by
  intro r r' hr a s a' s' e e'
  obtain ⟨l, ts, ht, rfl⟩ := expect_ok e
  obtain ⟨l', ts', ht', rfl⟩ := expect_ok e'
  rw [ht, ht'] at hr
  exact ⟨trivial, (hr.tail (.inl nofun)).2⟩

theorem close (text opening : String) (line line' : Nat) :
    Sim known b (Token.mark text).ends (Parser.close text opening line)
      (Parser.close text opening line') fun _ _ => True := by
  intro r r' hr a s a' s' e e'
  obtain ⟨l, ts, ht, rfl⟩ := close_ok e
  obtain ⟨l', ts', ht', rfl⟩ := close_ok e'
  rw [ht, ht'] at hr
  exact ⟨trivial, (hr.tail (.inl nofun)).2⟩

theorem name : Sim known b true Parser.name Parser.name Eq := by
  intro r r' hr n s n' s' e e'
  obtain ⟨l, ts, ht, rfl⟩ := name_ok e
  obtain ⟨l', ts', ht', rfl⟩ := name_ok e'
  rw [ht, ht'] at hr
  obtain ⟨hn, hs⟩ := hr.tail (.inr ⟨n', rfl⟩)
  exact ⟨Token.name.inj hn, hs⟩

theorem atBlockEnd : Sim known b b Parser.atBlockEnd Parser.atBlockEnd Eq := by
  intro r r' hr x s x' s' e e'
  rw [atBlockEnd_run] at e e'
  cases e
  cases e'
  refine ⟨?_, hr⟩
  obtain ⟨-, hh⟩ | ⟨-, ⟨n, l, us, hn⟩, t, l', us', hl, ht⟩ := hr.head
  · exact congrArg Token.closesBlock hh
  · have h' : r'.first.closesBlock = false := by
      rw [Reader.first, hl]
      obtain rfl | ⟨e, he⟩ := ht
      · rfl
      · cases he <;> rfl
    rw [h', Reader.first, hn]
    rfl

end Sim

end

end EnvManifest.Script
