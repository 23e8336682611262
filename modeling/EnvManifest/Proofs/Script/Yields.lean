import EnvManifest.Proofs.Script.Locality
import EnvManifest.Proofs.Script.Operands

/-!
# Tokens that are gone past

What a parser makes of tokens, as a relation of its result and the tokens that it goes past when it
accepts. There is one rule for each way to put parsers together.
-/

namespace EnvManifest.Script

/-- Can the token be read, and is it not the end? -/
def Token.isRead : Token → Bool
  | .eof | .bad _ => false
  | _ => true

/-- What tells that a token can be read. -/
theorem isRead_of {f : Token → Bool} (heof : f .eof = false) (hbad : ∀ m, f (.bad m) = false)
    {t : Token} (h : f t) : t.isRead := by
  cases t with
  | eof => exact absurd h (by rw [heof]; decide)
  | bad m => exact absurd h (by rw [hbad]; decide)
  | _ => rfl

theorem isBad_of_isRead {t : Token} (h : t.isRead) : t.isBad = false := by
  cases t with
  | bad => cases h
  | _ => rfl

/-- The tokens between two places. All of them have been read. -/
structure Passes (r s : Reader) (ts : List Token) : Prop where
  tokens : r.tokens.map (·.token) = ts ++ s.tokens.map (·.token)
  read : ∀ t ∈ ts, t.isRead

namespace Passes

variable {r s u : Reader} {ts us : List Token}

theorem refl (r : Reader) : Passes r r [] := ⟨rfl, nofun⟩

theorem trans (h : Passes r s ts) (h' : Passes s u us) : Passes r u (ts ++ us) := by
  refine ⟨by rw [h.tokens, h'.tokens, List.append_assoc], fun t ht => ?_⟩
  exact (List.mem_append.1 ht).elim (h.read t) (h'.read t)

theorem cons {t : Token} {l l' : Nat} {tokens : List Lexeme} (ht : t.isRead)
    (h : Passes ⟨tokens, l⟩ s ts) (hr : r.tokens = ⟨t, l'⟩ :: tokens) : Passes r s (t :: ts) := by
  refine ⟨by rw [hr, List.map_cons, h.tokens, List.cons_append], fun u hu => ?_⟩
  obtain rfl | hu := List.mem_cons.1 hu
  · exact ht
  · exact h.read u hu

end Passes

/-- The tokens that a parser goes past when it accepts, and its result, are so. -/
def Yields {α : Type} (p : Parser α) (Q : α → List Token → Prop) : Prop :=
  ∀ r a s, p r = .ok (a, s) → ∃ ts, Passes r s ts ∧ Q a ts

/-- They are so if this token comes first. -/
def YieldsAt {α : Type} (t : Token) (p : Parser α) (Q : α → List Token → Prop) : Prop :=
  ∀ r a s, r.first = t → p r = .ok (a, s) → ∃ ts, Passes r s ts ∧ Q a ts

/-- The parser goes past nothing. -/
def Peeks {α : Type} (p : Parser α) : Prop := ∀ r a s, p r = .ok (a, s) → s = r

section

variable {α β : Type} {p : Parser α} {k : α → Parser β} {P : α → List Token → Prop}
  {Q : β → List Token → Prop} {t : Token}

theorem peeks_lastLine : Peeks Parser.lastLine := by
  intro r a s h
  cases h
  rfl

theorem peeks_currentLine : Peeks Parser.currentLine := by
  intro r a s h
  cases h
  rfl

theorem peeks_isMark (text : String) : Peeks (Parser.isMark text) := by
  intro r a s h
  rw [isMark_run] at h
  cases h
  rfl

theorem peeks_atBlockEnd : Peeks Parser.atBlockEnd := by
  intro r a s h
  rw [atBlockEnd_run] at h
  cases h
  rfl

namespace Yields

theorem pure {b : β} (h : Q b []) : Yields (Pure.pure b : Parser β) Q := by
  intro r a s e
  cases e
  exact ⟨[], .refl _, h⟩

/-- The parser accepts nothing. -/
theorem never {q : Parser β} (h : ∀ r x, q r ≠ .ok x) : Yields q Q :=
  fun r _ _ e => absurd e (h r _)

theorem imp {R : α → List Token → Prop} (hp : Yields p P) (h : ∀ a ts, P a ts → R a ts) :
    Yields p R := by
  intro r a s e
  obtain ⟨ts, hr, ha⟩ := hp r a s e
  exact ⟨ts, hr, h a ts ha⟩

theorem bind (hp : Yields p P) (hk : ∀ a ts, P a ts → Yields (k a) fun b us => Q b (ts ++ us)) :
    Yields (p >>= k) Q := by
  intro r b s e
  obtain ⟨a, r', ha, hb⟩ := bind_ok.1 e
  obtain ⟨ts, hr, hP⟩ := hp r a r' ha
  obtain ⟨us, hr', hQ⟩ := hk a ts hP r' b s hb
  exact ⟨ts ++ us, hr.trans hr', hQ⟩

theorem atFirst {q : Parser β} (h : Yields q Q) : YieldsAt t q Q := fun r a s _ e => h r a s e

theorem ite {c : Prop} [Decidable c] {q q' : Parser β} (hq : c → Yields q Q)
    (hq' : ¬c → Yields q' Q) : Yields (if c then q else q') Q := by
  split
  · exact hq ‹_›
  · exact hq' ‹_›

theorem peek (hp : Peeks p) (hk : ∀ a, Yields (k a) Q) : Yields (p >>= k) Q := by
  intro r b s e
  obtain ⟨a, r', ha, hb⟩ := bind_ok.1 e
  obtain rfl := hp r a r' ha
  exact hk a r' b s hb

/-- One token that must come first. -/
theorem token {f : α → Token} (hf : ∀ a, (f a).isRead)
    (hp : ∀ {a r s}, p r = .ok (a, s) → ∃ l ts, r.tokens = ⟨f a, l⟩ :: ts ∧ s = ⟨ts, l⟩)
    (hk : ∀ a, Yields (k a) fun b us => Q b (f a :: us)) : Yields (p >>= k) Q := by
  intro r b s e
  obtain ⟨a, r', ha, hb⟩ := bind_ok.1 e
  obtain ⟨l, ts, hr, rfl⟩ := hp ha
  obtain ⟨us, hus, hQ⟩ := hk a _ b s hb
  exact ⟨f a :: us, hus.cons (hf a) hr, hQ⟩

theorem expect {text : String} {k : Unit → Parser β}
    (hk : Yields (k ()) fun b us => Q b (.mark text :: us)) : Yields (Parser.expect text >>= k) Q :=
  token (fun _ => rfl) expect_ok fun _ => hk

theorem close {text opening : String} {line : Nat} {k : Unit → Parser β}
    (hk : Yields (k ()) fun b us => Q b (.mark text :: us)) :
    Yields (Parser.close text opening line >>= k) Q :=
  token (fun _ => rfl) close_ok fun _ => hk

theorem name {k : String → Parser β} (hk : ∀ n, Yields (k n) fun b us => Q b (.name n :: us)) :
    Yields (Parser.name >>= k) Q :=
  token (fun _ => rfl) name_ok hk

/-- A symbol is passed if it is there. -/
theorem accept {text : String} {k : Bool → Parser β}
    (hyes : Yields (k true) fun b us => Q b (.mark text :: us)) (hno : Yields (k false) Q) :
    Yields (Parser.accept text >>= k) Q := by
  intro r b s e
  obtain ⟨x, r', hx, hb⟩ := bind_ok.1 e
  cases hm : r.first.isMark text with
  | true =>
    obtain ⟨l, ts, hr, ha⟩ := accept_yes text hm
    rw [ha] at hx
    cases hx
    obtain ⟨us, hus, hQ⟩ := hyes _ b s hb
    exact ⟨.mark text :: us, hus.cons rfl hr, hQ⟩
  | false =>
    rw [accept_no text hm] at hx
    cases hx
    exact hno _ b s hb

/-- A symbol is looked for. -/
theorem isMark {text : String} {k : Bool → Parser β} (hyes : YieldsAt (.mark text) (k true) Q)
    (hno : Yields (k false) Q) : Yields (Parser.isMark text >>= k) Q := by
  intro r b s e
  obtain ⟨x, r', hx, hb⟩ := bind_ok.1 e
  rw [isMark_run] at hx
  cases hm : (r.tokens.headD ⟨.eof, 0⟩).token.isMark text with
  | true =>
    rw [hm] at hx
    cases hx
    exact hyes r b s (isMark_eq hm) hb
  | false =>
    rw [hm] at hx
    cases hx
    exact hno r b s hb

/-- The first token is looked at. -/
theorem current {k : Lexeme → Parser β} (hk : ∀ t l, YieldsAt t (k ⟨t, l⟩) Q) :
    Yields (Parser.current >>= k) Q := by
  intro r b s e
  exact hk _ _ r b s rfl e

end Yields

namespace YieldsAt

theorem bind (hp : YieldsAt t p P)
    (hk : ∀ a ts, P a ts → Yields (k a) fun b us => Q b (ts ++ us)) :
    YieldsAt t (p >>= k) Q := by
  intro r b s hr e
  obtain ⟨a, r', ha, hb⟩ := bind_ok.1 e
  obtain ⟨ts, hts, hP⟩ := hp r a r' hr ha
  obtain ⟨us, hus, hQ⟩ := hk a ts hP r' b s hb
  exact ⟨ts ++ us, hts.trans hus, hQ⟩

theorem imp {R : α → List Token → Prop} (hp : YieldsAt t p P) (h : ∀ a ts, P a ts → R a ts) :
    YieldsAt t p R := by
  intro r a s hr e
  obtain ⟨ts, hts, ha⟩ := hp r a s hr e
  exact ⟨ts, hts, h a ts ha⟩

theorem peek (hp : Peeks p) (hk : ∀ a, YieldsAt t (k a) Q) : YieldsAt t (p >>= k) Q := by
  intro r b s hr e
  obtain ⟨a, r', ha, hb⟩ := bind_ok.1 e
  obtain rfl := hp r a r' ha
  exact hk a r' b s hr hb

/-- The first token is gone past. -/
theorem advance {k : Unit → Parser β} (ht : t.isRead)
    (hk : Yields (k ()) fun b us => Q b (t :: us)) : YieldsAt t (Parser.advance >>= k) Q := by
  rintro ⟨tokens, last⟩ b s rfl e
  cases tokens with
  | nil => cases ht
  | cons x tokens =>
    obtain ⟨us, hus, hQ⟩ := hk ⟨tokens, x.line⟩ b s e
    exact ⟨x.token :: us, hus.cons ht rfl, hQ⟩

theorem isMark {text : String} {k : Bool → Parser β} (hk : YieldsAt t (k (t.isMark text)) Q) :
    YieldsAt t (Parser.isMark text >>= k) Q := by
  rintro r b s rfl e
  obtain ⟨x, r', hx, hb⟩ := bind_ok.1 e
  rw [isMark_run] at hx
  cases hx
  exact hk r b s rfl hb

theorem atBlockEnd {k : Bool → Parser β} (hk : YieldsAt t (k t.closesBlock) Q) :
    YieldsAt t (Parser.atBlockEnd >>= k) Q := by
  rintro r b s rfl e
  obtain ⟨x, r', hx, hb⟩ := bind_ok.1 e
  rw [atBlockEnd_run] at hx
  cases hx
  exact hk r b s rfl hb

end YieldsAt

end

end EnvManifest.Script
