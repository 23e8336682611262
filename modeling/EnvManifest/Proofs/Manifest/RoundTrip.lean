import EnvManifest.Proofs.Manifest.Namespaces

/-!
# Manifests, printed and read again
-/

namespace EnvManifest

open Text

/-! ## Manifests -/

namespace Ast

def unplaced (ast : Ast) : Ast := ⟨ast.namespaces.map Namespace.unplaced⟩

def WellFormed (ast : Ast) : Prop := ∀ n ∈ ast.namespaces, n.WellFormed

/-- Is everything in a manifest read back as it was? -/
def ReadsBack (ast : Ast) : Prop := ∀ n ∈ ast.namespaces, n.ReadsBack

instance (ast : Ast) : Decidable ast.ReadsBack :=
  inferInstanceAs (Decidable (∀ n ∈ ast.namespaces, n.ReadsBack))

end Ast

/-- The text of namespaces. -/
def printAll (ns : List Namespace) : List Char :=
  ['\n'].intercalate (ns.map fun n => n.print ++ ['\n'])

theorem printAll_cons (n : Namespace) (ns : List Namespace) :
    ∃ gap, printAll (n :: ns) = n.print ++ (gap ++ printAll ns) ∧ Reads gap [] (printAll ns) := by
  unfold printAll
  cases ns with
  | nil =>
    refine ⟨['\n'], ?_, Reads.lineFeed _⟩
    simp
  | cons m ns =>
    refine ⟨['\n', '\n'], ?_, (Reads.lineFeed _).append (Reads.lineFeed _)⟩
    rw [List.map_cons, List.map_cons, List.intercalate_cons_cons]
    simp

theorem reads_namespaces {ns : List Namespace} (hns : ∀ n ∈ ns, n.WellFormed)
    (h : ∀ n ∈ ns, n.ReadsBack) : Reads (printAll ns) (ns.flatMap Namespace.kinds) [] := by
  induction ns with
  | nil => exact Reads.nil []
  | cons n ns ih =>
    obtain ⟨gap, htext, hgap⟩ := printAll_cons n ns
    have hn := Namespace.reads (hns n (List.mem_cons_self ..)) (h n (List.mem_cons_self ..))
    have hmore := ih (fun m hm => hns m (List.mem_cons_of_mem n hm))
      fun m hm => h m (List.mem_cons_of_mem n hm)
    rw [htext, List.flatMap_cons]
    rw [← List.append_nil (printAll ns)] at hgap
    exact (hn _).append (hgap.append hmore)

theorem parseNamespaces_all {ns : List Namespace} (hns : ∀ n ∈ ns, n.WellFormed)
    {front : List Token} (hfront : front.map Token.kind = ns.flatMap Namespace.kinds)
    {stop : Token} (hstop : stop.kind = .eof) (origin : Nat) :
    ∃ ms, parseNamespaces origin (front ++ [stop]) = .ok ms ∧
      ms.map Namespace.unplaced = ns.map fun n => n.reread.unplaced := by
  induction ns generalizing front with
  | nil =>
    obtain rfl := List.map_eq_nil_iff.mp hfront
    exact ⟨[], parseNamespaces_end hstop [], rfl⟩
  | cons n ns ih =>
    rw [List.flatMap_cons] at hfront
    obtain ⟨mine, others, rfl, hmine, hothers⟩ := List.map_eq_append_iff.mp hfront
    obtain ⟨ms, hms, hsame⟩ := ih (fun m hm => hns m (List.mem_cons_of_mem n hm)) hothers
    obtain ⟨t, after, hafter, ht⟩ : ∃ t after, others ++ [stop] = t :: after ∧ NoSection t.kind := by
      cases ns with
      | nil =>
        obtain rfl := List.map_eq_nil_iff.mp hothers
        exact ⟨stop, [], rfl, by rw [hstop]; exact ⟨by decide, rfl⟩⟩
      | cons m ns =>
        obtain ⟨t, more, rfl, hkind, -⟩ := List.map_eq_cons_iff.mp hothers
        exact ⟨t, more ++ [stop], rfl, by rw [hkind]; exact ⟨by simp, rfl⟩⟩
    obtain ⟨m, hm, hparse⟩ :=
      parseNamespaces_kinds (hns n (List.mem_cons_self ..)) hmine origin ht after
    refine ⟨m :: ms, ?_, ?_⟩
    · rw [List.append_assoc, hafter, hparse, ← hafter, hms]
      rfl
    · rw [List.map_cons, List.map_cons, hm, hsame]

/-- **Namespaces that are parsed as themselves read back.** -/
theorem readsBack_of_parseNamespaces {ns ms : List Namespace} (hns : ∀ n ∈ ns, n.WellFormed)
    {pos origin : Nat} {ts : List Token} (hts : tokensFrom pos (printAll ns) = .ok ts)
    (h : parseNamespaces origin ts = .ok ms)
    (hsame : ms.map Namespace.unplaced = ns.map Namespace.unplaced) : ∀ n ∈ ns, n.ReadsBack := by
  induction ns generalizing pos ts ms with
  | nil => simp
  | cons n ns ih =>
    have hn := hns n (List.mem_cons_self ..)
    obtain ⟨gap, htext, hgap⟩ := printAll_cons n ns
    rw [htext] at hts
    obtain ⟨m, ms, rfl, hm, hms⟩ := List.map_eq_cons_iff.mp hsame
    have hread := Namespace.readsBack_of_parse hn hts h hm
    obtain ⟨front, after, pos₁, rfl, hfront, hafter⟩ := (Namespace.reads hn hread _).ok hts
    obtain ⟨blanks, left, pos₂, rfl, hblanks, hleft⟩ := hgap.ok hafter
    obtain rfl := List.map_eq_nil_iff.mp hblanks
    have hmore := parseNamespaces_kinds_ok hn hfront h
    have hrec := ih (fun m hm => hns m (List.mem_cons_of_mem n hm)) hleft hmore hms
    simp only [List.mem_cons]
    rintro m (rfl | hm)
    · exact hread
    · exact hrec m hm

/-! ## Formatting -/

theorem parse_eq_ok {source : String} {ast : Ast} :
    parse source = .ok ast ↔
      ∃ ts, lex source = .ok ts ∧ parseNamespaces 0 ts = .ok ast.namespaces := by
  obtain ⟨ns⟩ := ast
  unfold parse parseNamed parseOrigin parseSource
  cases lex source with
  | error e => simp [Except.mapError]
  | ok ts =>
    simp only [Except.ok.injEq, exists_eq_left']
    cases parseNamespaces 0 ts <;> simp [Except.mapError, Except.map]

theorem parse_wellFormed {source : String} {ast : Ast} (h : parse source = .ok ast) :
    ast.WellFormed := by
  obtain ⟨ts, hts, hns⟩ := parse_eq_ok.mp h
  exact parseNamespaces_wellFormed (lex_wellFormed hts) hns

/-- A manifest reads back exactly if everything in it does. -/
theorem parse_format_iff {ast : Ast} (h : ast.WellFormed) :
    (∃ again, parse ast.format = .ok again ∧ again.unplaced = ast.unplaced) ↔ ast.ReadsBack := by
  have htokens : lex ast.format = tokensFrom 0 (printAll ast.namespaces) := by
    rw [lex_eq, Ast.format, String.toList_ofList]
    rfl
  constructor
  · rintro ⟨again, hparse, hsame⟩
    obtain ⟨ts, hts, hns⟩ := parse_eq_ok.mp hparse
    rw [htokens] at hts
    exact readsBack_of_parseNamespaces h hts hns (congrArg Ast.namespaces hsame)
  · intro hread
    obtain ⟨front, pos, hfront, hall⟩ := reads_namespaces h hread 0
    have hstop : (⟨.eof, ⟨pos, pos⟩⟩ : Token).kind = .eof := rfl
    rw [List.append_nil, tokensFrom_nil] at hall
    obtain ⟨ms, hms, hsame⟩ := parseNamespaces_all h hfront hstop 0
    refine ⟨⟨ms⟩, parse_eq_ok.mpr ⟨_, htokens.trans hall, hms⟩, ?_⟩
    unfold Ast.unplaced
    rw [hsame, List.map_congr_left fun n hn => congrArg Namespace.unplaced (hread n hn).reread]

theorem printGroup_map {α β : Type} (o c : Char) (print : β → List Char) (f : α → β)
    (items : List α) : printGroup o c print (items.map f) = printGroup o c (print ∘ f) items := by
  unfold printGroup printList
  rw [List.map_map, List.isEmpty_map]

theorem Composite.print_unplaced (c : Composite) : c.unplaced.print = c.print := by
  unfold Composite.print Composite.unplaced
  rw [printGroup_map]
  rfl

theorem Namespace.print_unplaced (n : Namespace) : n.unplaced.print = n.print := by
  have hcomposites : Composite.print ∘ Composite.unplaced = Composite.print :=
    funext Composite.print_unplaced
  have hparameters : Parameter.print ∘ Parameter.unplaced = Parameter.print := rfl
  unfold Namespace.print Namespace.unplaced
  dsimp only
  rw [printGroup_map, printGroup_map, hcomposites, hparameters, List.isEmpty_map, List.flatMap_map]
  rfl

theorem Ast.format_unplaced (ast : Ast) : ast.unplaced.format = ast.format := by
  unfold Ast.format Ast.print Ast.unplaced
  rw [List.map_map, show (fun n : Namespace => n.print ++ ['\n']) ∘ Namespace.unplaced =
    fun n => n.print ++ ['\n'] from funext fun n => congrArg (· ++ ['\n']) n.print_unplaced]

/-- **Formatting keeps a manifest exactly if everything in it reads back.** -/
theorem format_preserves_iff {source : String} {ast : Ast} (h : parse source = .ok ast) :
    (∃ again, parse ast.format = .ok again ∧ again.unplaced = ast.unplaced ∧
      again.format = ast.format) ↔ ast.ReadsBack := by
  rw [← parse_format_iff (parse_wellFormed h)]
  constructor
  · rintro ⟨again, hparse, hsame, -⟩
    exact ⟨again, hparse, hsame⟩
  · rintro ⟨again, hparse, hsame⟩
    refine ⟨again, hparse, hsame, ?_⟩
    rw [← again.format_unplaced, hsame, ast.format_unplaced]

/-- Formatting keeps a manifest with a `;` in quotes. -/
theorem format_preserves_quoted : ∃ ast, parse "a(1.5) \x7b x = \"b;\"; y = 1 \x7d" = .ok ast ∧
    ∃ again, parse ast.format = .ok again ∧ again.unplaced = ast.unplaced ∧
      again.format = ast.format := by
  have hreads : (parse "a(1.5) \x7b x = \"b;\"; y = 1 \x7d").toOption.any
      (fun ast => ast.ReadsBack) := by decide +kernel
  cases hparse : parse "a(1.5) \x7b x = \"b;\"; y = 1 \x7d" with
  | error e =>
    rw [hparse] at hreads
    exact absurd hreads (by simp [Except.toOption])
  | ok ast =>
    rw [hparse] at hreads
    exact ⟨ast, rfl, (format_preserves_iff hparse).mpr (of_decide_eq_true hreads)⟩

/-- Formatting puts a backslash into a long bracket. -/
theorem format_changes_bracket : ¬∀ source ast, parse source = .ok ast →
    ∃ again, parse ast.format = .ok again ∧ again.unplaced = ast.unplaced ∧
      again.format = ast.format := by
  intro h
  have hchanged : (parse "a \x7b x = [[;]] \x7d").toOption.any fun ast =>
      (parse ast.format).toOption.any fun again =>
        again.unplaced.namespaces.map (fun n => n.statements.map (·.expression.source)) !=
          ast.unplaced.namespaces.map fun n => n.statements.map (·.expression.source) := by
    decide +kernel
  cases hparse : parse "a \x7b x = [[;]] \x7d" with
  | error e =>
    rw [hparse] at hchanged
    exact absurd hchanged (by simp [Except.toOption])
  | ok ast =>
    obtain ⟨again, hagain, hsame, -⟩ := h _ ast hparse
    rw [hparse] at hchanged
    simp [Except.toOption, hagain, hsame] at hchanged

end EnvManifest
