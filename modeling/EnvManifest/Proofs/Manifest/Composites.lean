import EnvManifest.Proofs.Manifest.Parameters

/-!
# Parameters and composites, printed and read again

A printed part is read as its tokens, and the tokens are parsed as the part that is reread. The
parts are compared without their places.
-/

namespace EnvManifest

open Text

/-! ## Lists -/

section Lists

variable {α : Type} {print : α → List Char} {kinds : α → List TokenKind}

theorem printList_cons_cons (print : α → List Char) (i j : α) (items : List α) :
    printList print (i :: j :: items) = print i ++ ([',', ' '] ++ printList print (j :: items)) := by
  unfold printList
  rw [List.map_cons, List.map_cons, List.intercalate_cons_cons, List.append_assoc]

theorem reads_comma (rest : List Char) : Reads [',', ' '] [.comma] rest :=
  Reads.append (Reads.symbol (c := ',') rfl (' ' :: rest)) (Reads.space rest)

/-- The tokens of items with a comma between them. -/
def listKinds (kinds : α → List TokenKind) (items : List α) : List TokenKind :=
  [TokenKind.comma].intercalate (items.map kinds)

theorem listKinds_cons_cons (kinds : α → List TokenKind) (i j : α) (items : List α) :
    listKinds kinds (i :: j :: items) =
      kinds i ++ ([TokenKind.comma] ++ listKinds kinds (j :: items)) := by
  unfold listKinds
  rw [List.map_cons, List.map_cons, List.intercalate_cons_cons, List.append_assoc]

theorem reads_list {items : List α}
    (h : ∀ i ∈ items, ∀ rest, Apart rest → Reads (print i) (kinds i) rest) {rest : List Char}
    (hrest : Apart rest) : Reads (printList print items) (listKinds kinds items) rest := by
  induction items with
  | nil => exact Reads.nil rest
  | cons i items ih =>
    have hi := h i (List.mem_cons_self ..)
    cases items with
    | nil => simpa [printList, listKinds] using hi rest hrest
    | cons j items =>
      have hmore := ih fun k hk => h k (List.mem_cons_of_mem i hk)
      rw [printList_cons_cons, listKinds_cons_cons]
      exact (hi _ (stops_cons (by decide) _)).append ((reads_comma _).append hmore)

/-- Where an item has no token, the list has none. -/
theorem fails_list {P : α → Prop} {items : List α}
    (h : ∀ i ∈ items, ∀ rest, Apart rest → P i → Reads (print i) (kinds i) rest)
    (hfail : ∀ i ∈ items, ∀ rest, Apart rest → ¬P i → Fails (print i) rest)
    (hnot : ¬∀ i ∈ items, P i) {rest : List Char} (hrest : Apart rest) :
    Fails (printList print items) rest := by
  induction items with
  | nil => exact absurd (List.forall_mem_nil _) hnot
  | cons i items ih =>
    have hi := hfail i (List.mem_cons_self ..)
    cases items with
    | nil =>
      have hP : ¬P i := fun hP => hnot (by simpa using hP)
      simpa [printList] using hi rest hrest hP
    | cons j items =>
      rw [printList_cons_cons]
      by_cases hP : P i
      · have hmore : ¬∀ k ∈ j :: items, P k := fun hall => hnot (by simpa [hP] using hall)
        have hrec := ih (fun k hk => h k (List.mem_cons_of_mem i hk))
          (fun k hk => hfail k (List.mem_cons_of_mem i hk)) hmore
        exact (h i (List.mem_cons_self ..) _ (stops_cons (by decide) _) hP).fails
          ((reads_comma _).fails hrec)
      · exact (hi _ (stops_cons (by decide) _) hP).append

/-- The tokens of items between two marks. -/
def groupKinds (opening closing : TokenKind) (kinds : α → List TokenKind) (items : List α) :
    List TokenKind :=
  if items.isEmpty then [] else opening :: (listKinds kinds items ++ [closing])

theorem reads_group {o c : Char} {opening closing : TokenKind} (ho : symbol? o = some opening)
    (hc : symbol? c = some closing) (hapart : isIdentPart c = false) {items : List α}
    (h : ∀ i ∈ items, ∀ rest, Apart rest → Reads (print i) (kinds i) rest) (rest : List Char) :
    Reads (printGroup o c print items) (groupKinds opening closing kinds items) rest := by
  unfold printGroup groupKinds
  split
  · exact Reads.nil rest
  · exact (Reads.symbol ho _).append
      ((reads_list h (stops_cons hapart rest)).append (Reads.symbol hc rest))

theorem fails_group {o c : Char} {opening : TokenKind} (ho : symbol? o = some opening)
    (hapart : isIdentPart c = false) {P : α → Prop} {items : List α}
    (h : ∀ i ∈ items, ∀ rest, Apart rest → P i → Reads (print i) (kinds i) rest)
    (hfail : ∀ i ∈ items, ∀ rest, Apart rest → ¬P i → Fails (print i) rest)
    (hnot : ¬∀ i ∈ items, P i) (rest : List Char) :
    Fails (printGroup o c print items) rest := by
  unfold printGroup
  split
  · rename_i hempty
    rw [List.isEmpty_iff.mp hempty] at hnot
    exact absurd (List.forall_mem_nil _) hnot
  · exact (Reads.symbol ho _).fails (fails_list h hfail hnot (stops_cons hapart rest)).append

end Lists

/-! ## Without places -/

def Parameter.unplaced (p : Parameter) : Parameter := ⟨p.value, ⟨0, 0⟩⟩

def Composite.unplaced (c : Composite) : Composite :=
  ⟨c.ident, c.arguments.map Parameter.unplaced, ⟨0, 0⟩⟩

/-! ## What printed parts are read as -/

namespace Parameter

def kinds (p : Parameter) : List TokenKind := [p.value.kind]

def reread (p : Parameter) : Parameter := ⟨p.value.reread, p.span⟩

theorem reads {p : Parameter} (hp : p.value.WellFormed) (rest : List Char) (hrest : Apart rest)
    (hl : p.value.Lexes) : Reads p.print p.kinds rest :=
  reads_value hp hl hrest

end Parameter

namespace Composite

def kinds (c : Composite) : List TokenKind :=
  .ident c.ident :: groupKinds .lparen .rparen Parameter.kinds c.arguments

def reread (c : Composite) : Composite := { c with arguments := c.arguments.map Parameter.reread }

def Lexes (c : Composite) : Prop := ∀ a ∈ c.arguments, a.value.Lexes

theorem apart_arguments (arguments : List Parameter) {rest : List Char} (hrest : Apart rest) :
    Apart (printGroup '(' ')' Parameter.print arguments ++ rest) := by
  unfold printGroup
  split
  · exact hrest
  · exact stops_cons (by decide) _

theorem reads {c : Composite} (hc : c.WellFormed) (rest : List Char) (hrest : Apart rest)
    (hl : c.Lexes) : Reads c.print c.kinds rest := by
  have harguments := reads_group (o := '(') (c := ')') rfl rfl (by decide)
    (fun a ha rest hrest => Parameter.reads (hc.arguments a ha) rest hrest (hl a ha)) rest
  exact (Reads.name hc.ident (apart_arguments c.arguments hrest)).append harguments

theorem fails {c : Composite} (hc : c.WellFormed) (rest : List Char) (hrest : Apart rest)
    (hl : ¬c.Lexes) : Fails c.print rest := by
  have harguments := fails_group (o := '(') (c := ')') rfl (by decide)
    (fun a ha => Parameter.reads (hc.arguments a ha)) (fun a _ rest _ h => fails_value h rest) hl rest
  exact (Reads.name hc.ident (apart_arguments c.arguments hrest)).fails harguments

end Composite

/-! ## What printed parts are parsed as -/

theorem Parameter.parseValue {p : Parameter} (hp : p.value.WellFormed) {t : Token}
    (ht : t.kind = p.value.kind) :
    t.kind ≠ .rparen ∧ EnvManifest.parseValue t = .ok p.value.reread := by
  obtain ⟨kind, span⟩ := t
  obtain rfl : kind = p.value.kind := ht
  refine ⟨?_, parseValue_kind hp span⟩
  unfold ParamValue.kind
  split <;> try split
  all_goals simp

theorem parseValues_kinds {ps : List Parameter} (hne : ps ≠ [])
    (hps : ∀ p ∈ ps, p.value.WellFormed) {front : List Token} {close : Token}
    (hfront : front.map Token.kind = listKinds Parameter.kinds ps) (hclose : close.kind = .rparen)
    (after : List Token) :
    ∃ qs, seen (parseValues (front ++ close :: after)) = .ok (qs, after) ∧
      qs.map Parameter.unplaced = ps.map fun p => p.reread.unplaced := by
  induction ps generalizing front with
  | nil => exact absurd rfl hne
  | cons p ps ih =>
    have hp := hps p (List.mem_cons_self ..)
    cases ps with
    | nil =>
      rw [listKinds, List.map_singleton, List.intercalate_singleton] at hfront
      obtain ⟨t, ts, rfl, ht, hts⟩ := List.map_eq_cons_iff.mp hfront
      obtain rfl := List.map_eq_nil_iff.mp hts
      obtain ⟨hkind, hvalue⟩ := Parameter.parseValue hp ht
      refine ⟨[⟨p.value.reread, t.span⟩], ?_, rfl⟩
      rw [List.cons_append, List.nil_append, seen_parseValues_cons hkind hvalue (.inr hclose),
        if_neg (by rw [hclose]; decide), seen_parseValues_end hclose]
      rfl
    | cons q ps =>
      rw [listKinds_cons_cons] at hfront
      obtain ⟨t, ts, rfl, ht, hts⟩ := List.map_eq_cons_iff.mp hfront
      obtain ⟨c, ts, rfl, hc, hts⟩ := List.map_eq_cons_iff.mp hts
      obtain ⟨hkind, hvalue⟩ := Parameter.parseValue hp ht
      obtain ⟨qs, hqs, hsame⟩ :=
        ih (by simp) (fun r hr => hps r (List.mem_cons_of_mem p hr)) hts
      refine ⟨⟨p.value.reread, t.span⟩ :: qs, ?_, ?_⟩
      · rw [List.cons_append, List.cons_append, seen_parseValues_cons hkind hvalue (.inl hc),
          if_pos hc, hqs]
        rfl
      · rw [List.map_cons, hsame]
        rfl

theorem parseArguments_kinds {ps : List Parameter} (hps : ∀ p ∈ ps, p.value.WellFormed)
    {front : List Token}
    (hfront : front.map Token.kind = groupKinds .lparen .rparen Parameter.kinds ps) {c : Token}
    (hc : c.kind ≠ .lparen) (stop : Nat) (after : List Token) :
    ∃ qs stop', seenArguments (parseArguments stop (front ++ c :: after)) =
        .ok (qs, stop', c :: after) ∧
      qs.map Parameter.unplaced = ps.map fun p => p.reread.unplaced := by
  unfold groupKinds at hfront
  split at hfront
  · rename_i hempty
    obtain rfl := List.isEmpty_iff.mp hempty
    obtain rfl := List.map_eq_nil_iff.mp hfront
    exact ⟨[], stop, seenArguments_none hc stop after, rfl⟩
  · rename_i hempty
    obtain ⟨o, ts, rfl, ho, hts⟩ := List.map_eq_cons_iff.mp hfront
    obtain ⟨values, closes, rfl, hvalues, hcloses⟩ := List.map_eq_append_iff.mp hts
    obtain ⟨close, rfl, hclose⟩ := List.map_eq_singleton_iff.mp hcloses
    obtain ⟨qs, hqs, hsame⟩ :=
      parseValues_kinds (by simpa using hempty) hps hvalues hclose (c :: after)
    obtain ⟨p, hp, rfl, hrest⟩ := seen_ok hqs
    refine ⟨p.value, p.stop, ?_, hsame⟩
    rw [List.cons_append, List.append_assoc, List.singleton_append, seenArguments_some ho hp, hrest]

theorem parseComposites_kinds {cs : List Composite} (hne : cs ≠ []) (hcs : ∀ c ∈ cs, c.WellFormed)
    {front : List Token} {close : Token}
    (hfront : front.map Token.kind = listKinds Composite.kinds cs) (hclose : close.kind = .rangle)
    (after : List Token) :
    ∃ ds, seen (parseComposites (front ++ close :: after)) = .ok (ds, after) ∧
      ds.map Composite.unplaced = cs.map fun c => c.reread.unplaced := by
  induction cs generalizing front with
  | nil => exact absurd rfl hne
  | cons c cs ih =>
    have hc := hcs c (List.mem_cons_self ..)
    cases cs with
    | nil =>
      rw [listKinds, List.map_singleton, List.intercalate_singleton] at hfront
      obtain ⟨t, ts, rfl, ht, hts⟩ := List.map_eq_cons_iff.mp hfront
      obtain ⟨qs, stop, hqs, hsame⟩ := parseArguments_kinds hc.arguments hts
        (by rw [hclose]; decide) t.span.stop after
      refine ⟨[⟨c.ident, qs, ⟨t.span.start, stop⟩⟩], ?_, ?_⟩
      · rw [List.cons_append, seen_parseComposites_cons ht hqs (.inr hclose),
          if_neg (by rw [hclose]; decide), seen_parseComposites_end hclose]
        rfl
      · simp [Composite.unplaced, Composite.reread, hsame, Function.comp_def]
    | cons d cs =>
      rw [listKinds_cons_cons] at hfront
      obtain ⟨mine, others, rfl, hmine, hothers⟩ := List.map_eq_append_iff.mp hfront
      obtain ⟨t, ts, rfl, ht, hts⟩ := List.map_eq_cons_iff.mp hmine
      obtain ⟨s, others, rfl, hs, hothers⟩ := List.map_eq_cons_iff.mp hothers
      obtain ⟨qs, stop, hqs, hsame⟩ := parseArguments_kinds hc.arguments hts
        (by rw [hs]; decide) t.span.stop (others ++ close :: after)
      obtain ⟨ds, hds, hmore⟩ :=
        ih (by simp) (fun e he => hcs e (List.mem_cons_of_mem c he)) hothers
      refine ⟨⟨c.ident, qs, ⟨t.span.start, stop⟩⟩ :: ds, ?_, ?_⟩
      · rw [List.append_assoc, List.cons_append, List.cons_append,
          seen_parseComposites_cons ht hqs (.inl hs), if_pos hs, hds]
        rfl
      · rw [List.map_cons, hmore]
        simp [Composite.unplaced, Composite.reread, hsame, Function.comp_def]

theorem Parameter.readsBack_of_unplaced {p : Parameter} (h : p.reread.unplaced = p.unplaced) :
    p.value.readsBack :=
  (ParamValue.reread_eq_iff p.value).mp (congrArg Parameter.value h)

theorem Composite.readsBack_of_unplaced {c : Composite} (h : c.reread.unplaced = c.unplaced) :
    ∀ a ∈ c.arguments, a.value.readsBack := by
  have harguments : c.arguments.map (Parameter.unplaced ∘ Parameter.reread) =
      c.arguments.map Parameter.unplaced := by
    simpa [Composite.unplaced, Composite.reread] using congrArg Composite.arguments h
  intro a ha
  exact Parameter.readsBack_of_unplaced (List.map_inj_left.mp harguments a ha)

end EnvManifest
