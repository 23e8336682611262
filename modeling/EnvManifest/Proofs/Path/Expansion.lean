import Mathlib.Data.List.Forall2
import EnvManifest.Path.Expand
import EnvManifest.Proofs.Path.Absolute
import EnvManifest.Proofs.Text.Run

/-!
# Expanded variables

A text with variables has one reading as a row of pieces, and its expansion is what the pieces stand
for, one after the other. The first piece that stands for nothing is the fault that is reported.
-/

namespace EnvManifest.Path

open Text

/-! ## Readings -/

/-- Does a `$` before this text stand for itself? No `$`, no name, and no brace but `{}` follow. -/
structure IsLone (rest : List Char) : Prop where
  dollar : rest.head? ≠ some '$'
  name : stops isVariablePart rest
  brace : ∀ inner, rest = '{' :: inner → inner.head? = some '}'

/-- The piece that a `$` before a text makes with it, and what is left of the text. -/
inductive AfterDollar : List Char → Item → List Char → Prop where
  | dollar (rest : List Char) : AfterDollar ('$' :: rest) .dollar rest
  | braced {name : List Char} (rest : List Char) : name ≠ [] → '}' ∉ name →
    AfterDollar ('{' :: (name ++ '}' :: rest)) (.braced name) rest
  | unclosed {inner : List Char} : '}' ∉ inner → AfterDollar ('{' :: inner) (.unclosed inner) []
  | bare {name rest : List Char} : name ≠ [] → (∀ c ∈ name, isVariablePart c) →
    stops isVariablePart rest → AfterDollar (name ++ rest) (.bare name) rest
  | lone {rest : List Char} : IsLone rest → AfterDollar rest (.char '$') rest

/-- A text is read as a row of pieces. -/
inductive Reads : List Char → List Item → Prop where
  | nil : Reads [] []
  | char {c : Char} {rest : List Char} {pieces : List Item} :
    c ≠ '$' → Reads rest pieces → Reads (c :: rest) (.char c :: pieces)
  | dollar {cs rest : List Char} {piece : Item} {pieces : List Item} :
    AfterDollar cs piece rest → Reads rest pieces → Reads ('$' :: cs) (piece :: pieces)

theorem exists_afterDollar (cs : List Char) : ∃ piece rest, AfterDollar cs piece rest := by
  cases cs with
  | nil => exact ⟨_, _, .lone ⟨nofun, stops_nil _, nofun⟩⟩
  | cons c inner =>
    by_cases dollar : c = '$'
    · subst dollar
      exact ⟨_, _, .dollar inner⟩
    by_cases brace : c = '{'
    · subst brace
      by_cases closed : '}' ∈ inner
      · obtain ⟨name, rest, rfl, first⟩ := List.eq_append_cons_of_mem closed
        by_cases empty : name = []
        · subst empty
          exact ⟨_, _, .lone ⟨nofun, stops_cons (by decide) _, fun _ e => by cases e; rfl⟩⟩
        · exact ⟨_, _, .braced rest empty first⟩
      · exact ⟨_, _, .unclosed closed⟩
    cases part : isVariablePart c with
    | false =>
      have lone : IsLone (c :: inner) :=
        ⟨by simp [dollar], stops_cons part _, fun _ e => absurd (List.cons.inj e).1 brace⟩
      exact ⟨_, _, .lone lone⟩
    | true =>
      rw [← List.takeWhile_append_dropWhile (p := isVariablePart) (l := c :: inner)]
      refine ⟨_, _, .bare ?_ (fun d hd => ?_) (stops_dropWhile _ _)⟩
      · rw [List.takeWhile_cons_of_pos part]
        nofun
      · exact List.all_eq_true.mp List.all_takeWhile d hd

theorem itemAfterDollar_name {cs : List Char} (dollar : cs.head? ≠ some '$')
    (brace : cs.head? ≠ some '{') : itemAfterDollar cs =
      if (cs.takeWhile isVariablePart).isEmpty then (.char '$', 0)
      else (.bare (cs.takeWhile isVariablePart), (cs.takeWhile isVariablePart).length) := by
  unfold itemAfterDollar
  split
  · exact absurd rfl dollar
  · exact absurd rfl brace
  · rfl

/-- The piece behind a `$` is found as it is read. -/
theorem itemAfterDollar_eq {cs rest : List Char} {piece : Item} (h : AfterDollar cs piece rest) :
    (itemAfterDollar cs).1 = piece ∧ cs.drop (itemAfterDollar cs).2 = rest := by
  cases h with
  | dollar => exact ⟨rfl, rfl⟩
  | @braced name rest nonempty first =>
    have run : (name ++ '}' :: rest).takeWhile (· != '}') = name :=
      takeWhile_run (fun c hc => bne_iff_ne.mpr (ne_of_mem_of_not_mem hc first))
        (stops_cons (by decide) _)
    simp [itemAfterDollar, run, nonempty]
  | @unclosed inner first =>
    have run : (inner ++ []).takeWhile (· != '}') = inner :=
      takeWhile_run (fun c hc => bne_iff_ne.mpr (ne_of_mem_of_not_mem hc first)) (stops_nil _)
    rw [List.append_nil] at run
    simp [itemAfterDollar, run]
  | @bare name rest nonempty proper stop =>
    have run : (name ++ rest).takeWhile isVariablePart = name := takeWhile_run proper stop
    obtain ⟨c, name', rfl⟩ := List.exists_cons_of_ne_nil nonempty
    have part := proper c (List.mem_cons_self ..)
    have dollar : c ≠ '$' := by
      rintro rfl
      exact absurd part (by decide)
    have brace : c ≠ '{' := by
      rintro rfl
      exact absurd part (by decide)
    rw [itemAfterDollar_name (by simpa using dollar) (by simpa using brace), run]
    exact ⟨rfl, List.drop_left⟩
  | lone lone =>
    by_cases brace : cs.head? = some '{'
    · obtain ⟨inner, rfl⟩ := List.head?_eq_some_iff.mp brace
      obtain ⟨after, rfl⟩ := List.head?_eq_some_iff.mp (lone.brace _ rfl)
      exact ⟨rfl, rfl⟩
    · have run : ([] ++ cs).takeWhile isVariablePart = [] := takeWhile_run nofun lone.name
      rw [List.nil_append] at run
      rw [itemAfterDollar_name lone.dollar brace, run]
      exact ⟨rfl, rfl⟩

theorem items_of_reads {text : List Char} {pieces : List Item} (h : Reads text pieces) :
    items text = pieces := by
  induction h with
  | nil => rw [items]
  | char plain _ ih => rw [items, if_neg plain, ih]
  | dollar piece _ ih =>
    obtain ⟨item, rest⟩ := itemAfterDollar_eq piece
    rw [items, if_pos rfl]
    simp only
    rw [item, rest, ih]

theorem exists_reads (text : List Char) : ∃ pieces, Reads text pieces := by
  induction h : text.length using Nat.strongRecOn generalizing text with
  | ind n ih =>
    subst h
    cases text with
    | nil => exact ⟨[], .nil⟩
    | cons c cs =>
      by_cases dollar : c = '$'
      · subst dollar
        obtain ⟨piece, rest, after⟩ := exists_afterDollar cs
        have shorter : rest.length < cs.length + 1 := by
          rw [← (itemAfterDollar_eq after).2, List.length_drop]
          omega
        obtain ⟨pieces, read⟩ := ih _ shorter rest rfl
        exact ⟨_, .dollar after read⟩
      · obtain ⟨pieces, read⟩ := ih _ (Nat.lt_succ_self _) cs rfl
        exact ⟨_, .char dollar read⟩

theorem reads_iff {text : List Char} {pieces : List Item} : Reads text pieces ↔ pieces = items text := by
  constructor
  · exact fun h => (items_of_reads h).symm
  · rintro rfl
    obtain ⟨pieces, read⟩ := exists_reads text
    rw [items_of_reads read]
    exact read

/-! ## What pieces stand for -/

section

variable {valueOf? : String → Option String}

/-- A piece stands for a text. -/
inductive Item.Gives (valueOf? : String → Option String) : Item → List Char → Prop where
  | char (c : Char) : Gives valueOf? (.char c) [c]
  | dollar : Gives valueOf? .dollar ['$']
  | braced {name : List Char} {value : String} : valueOf? (String.ofList name) = some value →
    Gives valueOf? (.braced name) value.toList
  | bare {name : List Char} {value : String} : valueOf? (String.ofList name) = some value →
    Gives valueOf? (.bare name) value.toList

/-- A piece of a text stands for nothing: it names a variable that is not set, or has no end. -/
inductive Item.Fails (valueOf? : String → Option String) (text : List Char) :
    Item → ExpandError → Prop where
  | braced {name : List Char} : valueOf? (String.ofList name) = none →
    Fails valueOf? text (.braced name) (.unsetVariable (String.ofList name))
  | bare {name : List Char} : valueOf? (String.ofList name) = none →
    Fails valueOf? text (.bare name) (.unsetVariable (String.ofList name))
  | unclosed (inner : List Char) :
    Fails valueOf? text (.unclosed inner) (.unclosed (String.ofList text))

variable {text : List Char}

theorem value_of_gives {piece : Item} {out : List Char} (h : piece.Gives valueOf? out) :
    piece.value text valueOf? = .ok out := by
  cases h with
  | char | dollar => rfl
  | braced value | bare value => simp only [Item.value, value]

theorem value_of_fails {piece : Item} {e : ExpandError} (h : piece.Fails valueOf? text e) :
    piece.value text valueOf? = .error e := by
  cases h with
  | braced unset | bare unset => simp only [Item.value, unset]
  | unclosed => rfl

theorem gives_or_fails (valueOf? : String → Option String) (text : List Char) (piece : Item) :
    (∃ out, piece.Gives valueOf? out) ∨ ∃ e, piece.Fails valueOf? text e := by
  cases piece with
  | char c => exact .inl ⟨_, .char c⟩
  | dollar => exact .inl ⟨_, .dollar⟩
  | braced name =>
    cases value : valueOf? (String.ofList name) with
    | some v => exact .inl ⟨_, .braced value⟩
    | none => exact .inr ⟨_, .braced value⟩
  | bare name =>
    cases value : valueOf? (String.ofList name) with
    | some v => exact .inl ⟨_, .bare value⟩
    | none => exact .inr ⟨_, .bare value⟩
  | unclosed inner => exact .inr ⟨_, .unclosed inner⟩

theorem not_fails_of_gives {piece : Item} {out : List Char} (h : piece.Gives valueOf? out)
    (e : ExpandError) : ¬ piece.Fails valueOf? text e := by
  intro fault
  have both := value_of_fails fault
  rw [value_of_gives h] at both
  cases both

/-- Pieces that stand for something give it in their order. -/
theorem mapM_of_gives {pieces : List Item} {outs : List (List Char)}
    (h : List.Forall₂ (Item.Gives valueOf?) pieces outs) :
    pieces.mapM (Item.value text valueOf?) = .ok outs := by
  induction h with
  | nil => rfl
  | cons first _ ih =>
    rw [List.mapM_cons, value_of_gives first, ih]
    rfl

theorem gives_of_forall₂ {pieces : List Item} {outs : List (List Char)}
    (h : List.Forall₂ (Item.Gives valueOf?) pieces outs) :
    ∀ p ∈ pieces, ∃ out, p.Gives valueOf? out :=
  ((List.forall₂_and_left _ _).mp (h.imp fun _ out given => ⟨⟨out, given⟩, given⟩)).1

/-- The first piece that stands for nothing is the fault. -/
theorem mapM_of_fails {before after : List Item} {piece : Item} {e : ExpandError}
    (h : ∀ p ∈ before, ∃ out, p.Gives valueOf? out) (fault : piece.Fails valueOf? text e) :
    (before ++ piece :: after).mapM (Item.value text valueOf?) = .error e := by
  induction before with
  | nil =>
    rw [List.nil_append, List.mapM_cons, value_of_fails fault]
    rfl
  | cons p before ih =>
    obtain ⟨⟨out, first⟩, rest⟩ := List.forall_mem_cons.mp h
    rw [List.cons_append, List.mapM_cons, value_of_gives first, ih rest]
    rfl

/-- All pieces stand for something, or there is a first one that does not. -/
theorem all_give_or_first_fails (valueOf? : String → Option String) (text : List Char)
    (pieces : List Item) :
    (∃ outs, List.Forall₂ (Item.Gives valueOf?) pieces outs) ∨
      ∃ before piece after e, pieces = before ++ piece :: after ∧
        (∀ p ∈ before, ∃ out, p.Gives valueOf? out) ∧ piece.Fails valueOf? text e := by
  induction pieces with
  | nil => exact .inl ⟨[], .nil⟩
  | cons piece pieces ih =>
    obtain ⟨out, first⟩ | ⟨e, fault⟩ := gives_or_fails valueOf? text piece
    · obtain ⟨outs, rest⟩ | ⟨before, later, after, e, rfl, given, fault⟩ := ih
      · exact .inl ⟨out :: outs, .cons first rest⟩
      · exact .inr ⟨piece :: before, later, after, e, rfl,
          List.forall_mem_cons.mpr ⟨⟨out, first⟩, given⟩, fault⟩
    · exact .inr ⟨[], piece, pieces, e, rfl, nofun, fault⟩

end

/-! ## Expansions -/

/-- What the expansion of a text is, by its pieces. -/
theorem expandVariables_eq (valueOf? : String → Option String) {text : List Char}
    {pieces : List Item} (h : Reads text pieces) : expandVariables valueOf? text =
      (pieces.mapM (Item.value text valueOf?)).map List.flatten := by
  rw [reads_iff.mp h, expandVariables]
  cases (items text).mapM (Item.value text valueOf?) <;> rfl

theorem expandVariables_eq_ok_iff (valueOf? : String → Option String) {text out : List Char}
    {pieces : List Item} (h : Reads text pieces) : expandVariables valueOf? text = .ok out ↔
      ∃ outs, List.Forall₂ (Item.Gives valueOf?) pieces outs ∧ out = outs.flatten := by
  rw [expandVariables_eq valueOf? h]
  constructor
  · intro found
    obtain ⟨outs, given⟩ | ⟨before, piece, after, e, rfl, given, fault⟩ :=
      all_give_or_first_fails valueOf? text pieces
    · rw [mapM_of_gives given] at found
      exact ⟨outs, given, (Except.ok.inj found).symm⟩
    · rw [mapM_of_fails given fault] at found
      cases found
  · rintro ⟨outs, given, rfl⟩
    rw [mapM_of_gives given]
    rfl

theorem expandVariables_eq_error_iff (valueOf? : String → Option String) {text : List Char}
    {pieces : List Item} (h : Reads text pieces) {e : ExpandError} :
    expandVariables valueOf? text = .error e ↔ ∃ before piece after,
      pieces = before ++ piece :: after ∧ (∀ p ∈ before, ∃ out, p.Gives valueOf? out) ∧
        piece.Fails valueOf? text e := by
  rw [expandVariables_eq valueOf? h]
  constructor
  · intro found
    obtain ⟨outs, given⟩ | ⟨before, piece, after, e', rfl, given, fault⟩ :=
      all_give_or_first_fails valueOf? text pieces
    · rw [mapM_of_gives given] at found
      cases found
    · rw [mapM_of_fails given fault] at found
      cases found
      exact ⟨before, piece, after, rfl, given, fault⟩
  · rintro ⟨before, piece, after, rfl, given, fault⟩
    rw [mapM_of_fails given fault]
    rfl

theorem exists_fault_iff (valueOf? : String → Option String) {text : List Char}
    {pieces : List Item} (h : Reads text pieces) :
    (∃ e, expandVariables valueOf? text = .error e) ↔
      ∃ piece ∈ pieces, ∃ e, piece.Fails valueOf? text e := by
  constructor
  · rintro ⟨e, found⟩
    obtain ⟨before, piece, after, rfl, -, fault⟩ := (expandVariables_eq_error_iff valueOf? h).mp found
    exact ⟨piece, by simp, e, fault⟩
  · rintro ⟨piece, mem, e, fault⟩
    cases found : expandVariables valueOf? text with
    | error e => exact ⟨e, rfl⟩
    | ok out =>
      obtain ⟨outs, given, -⟩ := (expandVariables_eq_ok_iff valueOf? h).mp found
      obtain ⟨out, gives⟩ := gives_of_forall₂ given piece mem
      exact absurd fault (not_fails_of_gives gives e)

/-! ## Doubled `$` -/

/-- The text with each `$` twice. -/
def doubled (text : List Char) : List Char :=
  text.flatMap fun c => if c = '$' then ['$', '$'] else [c]

/-- The piece that a character makes there. -/
def pieceOf (c : Char) : Item := if c = '$' then .dollar else .char c

theorem reads_doubled (text : List Char) : Reads (doubled text) (text.map pieceOf) := by
  induction text with
  | nil => exact .nil
  | cons c text ih =>
    rw [doubled, List.flatMap_cons, List.map_cons, pieceOf]
    by_cases dollar : c = '$'
    · rw [if_pos dollar, if_pos dollar]
      exact .dollar (.dollar _) ih
    · rw [if_neg dollar, if_neg dollar]
      exact .char dollar ih

theorem gives_pieceOf (valueOf? : String → Option String) (c : Char) :
    (pieceOf c).Gives valueOf? [c] := by
  unfold pieceOf
  split
  next dollar =>
    rw [dollar]
    exact .dollar
  next => exact .char c

theorem expandVariables_doubled (valueOf? : String → Option String) (text : List Char) :
    expandVariables valueOf? (doubled text) = .ok text := by
  rw [expandVariables_eq_ok_iff valueOf? (reads_doubled text)]
  refine ⟨text.map fun c => [c], ?_, ?_⟩
  · rw [List.forall₂_map_left_iff, List.forall₂_map_right_iff, List.forall₂_same]
    exact fun c _ => gives_pieceOf valueOf? c
  · rw [← List.flatMap_def, List.flatMap_singleton']

/-! ## Expanded paths -/

/-- An expanded path is the normal form of a path behind its base. -/
theorem expand_eq_normalize {valueOf? : String → Option String} {home base text result : List Char}
    (h : expand valueOf? home (some base) text = .ok result) :
    ∃ path, result = normalize (join base path) := by
  unfold expand at h
  cases expanded : expandVariables valueOf? text with
  | error e =>
    rw [expanded] at h
    cases h
  | ok expandedText =>
    rw [expanded] at h
    exact ⟨_, (Except.ok.inj h).symm⟩

/-- **Variables expand in one pass.** A text has exactly one reading, from left to right. It expands
to what its pieces stand for, if all of them do, and else fails with the fault of the first that does
not. So a text is kept if each `$` in it is doubled, and a path expands behind an absolute base to
an absolute path in normal form. -/
theorem variables_expand_in_one_pass (valueOf? : String → Option String) (text : List Char) :
    (∃ pieces, (∀ other, Reads text other ↔ other = pieces) ∧
      (∀ out, expandVariables valueOf? text = .ok out ↔
        ∃ outs, List.Forall₂ (Item.Gives valueOf?) pieces outs ∧ out = outs.flatten) ∧
      ((∃ e, expandVariables valueOf? text = .error e) ↔
        ∃ piece ∈ pieces, ∃ e, piece.Fails valueOf? text e) ∧
      ∀ e, expandVariables valueOf? text = .error e ↔ ∃ before piece after,
        pieces = before ++ piece :: after ∧ (∀ p ∈ before, ∃ out, p.Gives valueOf? out) ∧
          piece.Fails valueOf? text e) ∧
    expandVariables valueOf? (doubled text) = .ok text ∧
    ∀ home base result, isAbsolute base = true →
      expand valueOf? home (some base) text = .ok result →
        isAbsolute result = true ∧ normalize result = result ∧ IsCanonical result := by
  have read : Reads text (items text) := reads_iff.mpr rfl
  refine ⟨⟨items text, fun other => reads_iff, fun out => expandVariables_eq_ok_iff valueOf? read,
    exists_fault_iff valueOf? read, fun e => expandVariables_eq_error_iff valueOf? read⟩,
    expandVariables_doubled valueOf? text, ?_⟩
  intro home base result absolute found
  obtain ⟨path, rfl⟩ := expand_eq_normalize found
  have joined := isAbsolute_join absolute path
  exact ⟨by rw [isAbsolute_normalize, joined], normalize_normalize _, isCanonical_normalize joined⟩

/-- A reference that a variable holds is kept. An absolute path takes the place of its base. -/
theorem held_reference_kept :
    let valueOf? := fun name => if name = "A" then some "/x$A" else none
    expandVariables valueOf? "$$A:$A${}".toList = .ok "$A:/x$A${}".toList ∧
      isAbsolute "/srv".toList = true ∧
      expand valueOf? [] (some "/srv".toList) "${A}//../b/".toList = .ok "/b".toList ∧
      IsCanonical "/b".toList := by
  intro valueOf?
  have absolute : isAbsolute "/srv".toList = true := by decide
  have found : expand valueOf? [] (some "/srv".toList) "${A}//../b/".toList = .ok "/b".toList := by cbv
  obtain ⟨-, -, canonical⟩ := variables_expand_in_one_pass valueOf? "${A}//../b/".toList
  exact ⟨by cbv, absolute, found, (canonical _ _ _ absolute found).2.2⟩

end EnvManifest.Path
