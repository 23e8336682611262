import EnvManifest.Proofs.Manifest.Parsing
import EnvManifest.Eval.Model
import Mathlib.Data.List.Induction
import Mathlib.Data.List.TakeWhile

/-!
# Where expressions stand

An expression is a piece of its manifest, from which the backslash of each `\;` has been dropped.
Its offset is that of the piece.
-/

namespace EnvManifest

open Text

/-! ## Parts of expressions -/

/-- A part says what is written, or it is `\;`. -/
def Segment.Sound (s : Segment) : Prop :=
  s.meant = s.written ∨ (s.written = ['\\', ';'] ∧ s.meant = [';'])

theorem segmentAt_sound {pos n : Nat} {c : Char} {cs part : List Char}
    (h : segmentAt pos c cs = .ok (n, part)) : Segment.Sound ⟨c :: cs.take n, part⟩ := by
  by_cases hc : c = '\\'
  · subst hc
    by_cases hs : cs.head? = some ';'
    · obtain ⟨ds, rfl⟩ := List.head?_eq_some_iff.mp hs
      rw [segmentAt_escaped] at h
      cases h
      exact .inr ⟨rfl, rfl⟩
    · rw [segmentAt_backslash pos hs] at h
      cases h
      exact .inl rfl
  · obtain ⟨front, back, rfl, rfl, rfl⟩ := segmentAt_ok hc h
    exact .inl (by simp)

theorem segments_sound {start pos depth : Nat} {cs : List Char} {parts : List Segment}
    (h : segments start pos depth cs = .ok parts) :
    (∀ s ∈ parts, s.Sound) ∧ ∃ rest, cs = parts.flatMap (·.written) ++ rest := by
  fun_induction segments start pos depth cs generalizing parts with
  | case1 => cases h; simp
  | case2 => cases h
  | case3 => cases h; simp
  | case4 => cases h
  | case5 => cases h
  | case6 =>
    rename_i pos depth c cs hend n meant hpart depth' written more hmore ih
    cases h
    obtain ⟨sound, rest, hrest⟩ := ih hmore
    refine ⟨List.forall_mem_cons.mpr ⟨segmentAt_sound hpart, sound⟩, rest, ?_⟩
    rw [List.flatMap_cons, List.append_assoc, ← hrest]
    simp [written]

theorem trimEnd_append_blank {w : List Char} (cs : List Char) (h : ∀ c ∈ w, isBlank c) :
    trimEnd (cs ++ w) = trimEnd cs := by
  have blank : ∀ c ∈ w.reverse, isBlank c := fun c hc => h c (List.mem_reverse.mp hc)
  unfold trimEnd
  rw [List.reverse_append, List.dropWhile_append_of_pos blank]

theorem trimEnd_append_visible {w : List Char} (cs : List Char) (h : ¬ ∀ c ∈ w, isBlank c) :
    trimEnd (cs ++ w) = cs ++ trimEnd w := by
  have visible : (w.reverse.dropWhile isBlank).isEmpty = false := by
    rw [Bool.eq_false_iff, ne_eq, List.isEmpty_iff, List.dropWhile_eq_nil_iff]
    simpa using h
  unfold trimEnd
  rw [List.reverse_append, List.dropWhile_append, visible]
  simp

/-- Parts without the blanks at their end are parts too. -/
theorem exists_trimmed {parts : List Segment} (h : ∀ s ∈ parts, s.Sound) :
    ∃ trimmed : List Segment, (∀ s ∈ trimmed, s.Sound) ∧
      trimmed.flatMap (·.written) = trimEnd (parts.flatMap (·.written)) ∧
      trimmed.flatMap (·.meant) = trimEnd (parts.flatMap (·.meant)) := by
  induction parts using List.reverseRecOn with
  | nil => exact ⟨[], by simp, rfl, rfl⟩
  | append_singleton parts s ih =>
    have hparts : ∀ s ∈ parts, s.Sound := fun s hs => h s (by simp [hs])
    rw [List.flatMap_append, List.flatMap_append, List.flatMap_singleton, List.flatMap_singleton]
    obtain same | ⟨hwritten, hmeant⟩ := h s (by simp)
    · rw [same]
      by_cases blank : ∀ c ∈ s.written, isBlank c
      · rw [trimEnd_append_blank _ blank, trimEnd_append_blank _ blank]
        exact ih hparts
      · rw [trimEnd_append_visible _ blank, trimEnd_append_visible _ blank]
        refine ⟨parts ++ [⟨trimEnd s.written, trimEnd s.written⟩], ?_, by simp, by simp⟩
        intro t ht
        rcases List.mem_append.mp ht with ht | ht
        · exact hparts t ht
        · obtain rfl := List.mem_singleton.mp ht
          exact .inl rfl
    · have visible {w : List Char} (hw : ';' ∈ w) : ¬ ∀ c ∈ w, isBlank c :=
        fun blank => absurd (blank ';' hw) (by decide)
      refine ⟨parts ++ [s], h, ?_, ?_⟩
      · rw [trimEnd_append_visible _ (visible (by simp [hwritten]))]
        simp [hwritten, trimEnd, isBlank]
      · rw [trimEnd_append_visible _ (visible (by simp [hmeant]))]
        simp [hmeant, trimEnd, isBlank]

/-! ## From text to tokens -/

/-- Where a text has an expression: what stands before it, its parts, and what follows. -/
structure Expression.StandsIn (text : List Char) (x : Expression) (front : List Char)
    (parts : List Segment) (back : List Char) : Prop where
  text : text = front ++ parts.flatMap (·.written) ++ back
  offset : x.offset = byteLength front
  source : x.source.toList = parts.flatMap (·.meant)
  sound : ∀ s ∈ parts, s.Sound

/-- A token that holds an expression stands where the expression does. -/
def Token.PlacedIn (text : List Char) (t : Token) : Prop :=
  ∀ source, t.kind = .expr source →
    ∃ front parts back, Expression.StandsIn text ⟨source, t.span.start⟩ front parts back

theorem lexemeAt_ne_expr {pos n : Nat} {c : Char} {cs : List Char} {source : String} :
    lexemeAt pos c cs ≠ .ok (some (.expr source), n) := by
  have symbols : symbol? c ≠ some (.expr source) := by
    unfold symbol?
    split <;> simp
  intro h
  unfold lexemeAt at h
  repeat' split at h
  all_goals simp_all

/-- The reading of an expression: where its token stands in a text, and the parts it has there. -/
structure Token.ReadIn (text : List Char) (t : Token) (front body : List Char)
    (parts : List Segment) : Prop where
  text : text = front ++ body
  offset : byteLength front = t.span.start
  run : segments t.span.start t.span.start 0 body = .ok parts
  kind : t.kind = .expr (String.ofList (trimEnd (parts.flatMap (·.meant))))

theorem place_readIn {pos : Nat} {before cs : List Char} {ls : List Lexeme}
    (hpos : byteLength before = pos) (h : lexemes pos cs = .ok ls) :
    ∀ t ∈ Lexeme.place pos ls, ∀ source, t.kind = .expr source →
      ∃ front body parts, t.ReadIn (before ++ cs) front body parts := by
  fun_induction lexemes pos cs generalizing before ls with
  | case1 =>
    cases h
    simp [Lexeme.place]
  | case2 => cases h
  | case3 => cases h
  | case4 =>
    rename_i pos cs blanks body start parts hparts written meant length rest more hmore ih
    cases h
    obtain ⟨-, after, hbody⟩ := segments_sound hparts
    obtain ⟨tail, htail, -⟩ := dropBlankEnd_append parts
    have hcs : cs = blanks ++ body := by
      simp only [blanks, body, drop_takeWhile, List.takeWhile_append_dropWhile]
    have taken : body.take length = parts.flatMap (·.written) := by
      rw [hbody]
      exact List.take_left
    have whole : written ++ rest = parts.flatMap (·.written) := by
      have hparts : parts.flatMap (·.written) = written ++ tail.flatMap (·.written) := by
        rw [← List.flatMap_append, ← htail]
      simp only [rest, taken, hparts, List.drop_left]
    have reached : byteLength (before ++ '=' :: blanks ++ body.take length) =
        start + byteLength (body.take length) := by
      simp [hpos, start, show '='.utf8Size = 1 from rfl]
      omega
    have later := ih reached hmore
    have split : before ++ '=' :: blanks ++ body.take length ++ body.drop length =
        before ++ '=' :: cs := by
      rw [List.append_assoc, List.take_append_drop, hcs]
      simp
    rw [split] at later
    have stop : start + byteLength written + byteLength rest =
        start + byteLength (body.take length) := by
      rw [taken, ← whole, byteLength_append]
      omega
    have at_assign : byteLength ['='] = 1 := rfl
    simp only [Lexeme.place, at_assign, List.mem_cons]
    rw [stop]
    rintro t (rfl | rfl | ht) source hsource
    · cases hsource
    · refine ⟨before ++ '=' :: blanks, body, parts, ?_, ?_, hparts, rfl⟩
      · rw [hcs]
        simp
      · simp [hpos, show '='.utf8Size = 1 from rfl]
        omega
    · exact later t ht source hsource
  | case5 => cases h
  | case6 => cases h
  | case7 pos c cs hc found n hfound text more hmore =>
    rename_i ih
    cases h
    have split : before ++ c :: cs = before ++ text ++ cs.drop n := by simp [text]
    have reached : byteLength (before ++ text) = pos + byteLength text := by simp [hpos]
    have later := ih reached hmore
    rw [← split] at later
    unfold Lexeme.place
    dsimp only
    split
    · exact later
    · rename_i _ kind
      simp only [List.mem_cons]
      rintro t (rfl | ht) source hsource
      · obtain rfl : kind = .expr source := hsource
        exact (lexemeAt_ne_expr hfound).elim
      · exact later t ht source hsource

theorem lex_readIn {source : String} {ts : List Token} (h : lex source = .ok ts) :
    ∀ t ∈ ts, ∀ text, t.kind = .expr text →
      ∃ front body parts, t.ReadIn source.toList front body parts := by
  unfold lex at h
  cases hls : lexemes 0 source.toList with
  | error e =>
    rw [hls] at h
    cases h
  | ok ls =>
    rw [hls] at h
    cases h
    exact place_readIn byteLength_nil hls

theorem Token.ReadIn.placedIn {text front body : List Char} {t : Token} {parts : List Segment}
    (h : t.ReadIn text front body parts) : t.PlacedIn text := by
  obtain ⟨sound, after, hbody⟩ := segments_sound h.run
  obtain ⟨trimmed, htrimmed, hwritten, hmeant⟩ := exists_trimmed sound
  obtain ⟨w, hw, -⟩ := trimEnd_append (parts.flatMap (·.written))
  intro source hsource
  obtain rfl := TokenKind.expr.inj (h.kind.symm.trans hsource)
  refine ⟨front, trimmed, w ++ after, ?_, h.offset.symm, ?_, htrimmed⟩
  · rw [hwritten, h.text, List.append_assoc, ← List.append_assoc _ w, ← hw, ← hbody]
  · rw [String.toList_ofList, hmeant]

theorem lex_placedIn {source : String} {ts : List Token} (h : lex source = .ok ts) :
    ∀ t ∈ ts, t.PlacedIn source.toList := by
  intro t ht text hkind
  obtain ⟨front, body, parts, hreads⟩ := lex_readIn h t ht text hkind
  exact hreads.placedIn text hkind

/-! ## From tokens to statements -/

/-- The expression of a statement is that of a token, with its place. -/
def Statement.TakenFrom (tokens : List Token) (s : Statement) : Prop :=
  ∃ t ∈ tokens, t.kind = .expr s.expression.source ∧ t.span.start = s.expression.offset

theorem Statement.TakenFrom.mono {tokens more : List Token} {s : Statement}
    (h : s.TakenFrom tokens) (hsub : tokens ⊆ more) : s.TakenFrom more := by
  obtain ⟨t, ht, same⟩ := h
  exact ⟨t, hsub ht, same⟩

theorem parseStatement_takenFrom {tokens : List Token} {p : Parsed tokens Statement}
    (hp : parseStatement tokens = .ok p) : p.value.TakenFrom tokens := by
  unfold parseStatement at hp
  repeat' split at hp
  all_goals cases hp
  rename_i e rest _ source he _
  exact ⟨e, by simp, he, rfl⟩

section

variable {tokens : List Token} (h : ∀ t ∈ tokens, t.kind.WellFormed)
include h

theorem parseStatements_takenFrom {p : Parsed tokens (List Statement)}
    (hp : parseStatements tokens = .ok p) : ∀ s ∈ p.value, s.TakenFrom tokens := by
  fun_induction parseStatements tokens with
  | case1 => cases hp
  | case2 => cases hp
  | case3 t rest ht q hq ih =>
    obtain rfl := Except.ok.inj hp
    have later := ih (fun u hu => h u (List.mem_cons_of_mem t hu)) hq
    exact fun s hs => (later s hs).mono (List.subset_cons_self t rest)
  | case4 t rest hs hb =>
    obtain rfl := Except.ok.inj hp
    simp
  | case5 => cases hp
  | case6 => cases hp
  | case7 t rest hsemi hbrace s hs hend q hq ih =>
    obtain rfl := Except.ok.inj hp
    have hrest := (parseStatement_wellFormed h hs).2
    simp only [List.mem_cons]
    rintro u (rfl | hu)
    · exact parseStatement_takenFrom hs
    · exact (ih (fun t ht => h t (hrest ht)) hq u hu).mono hrest
  | case8 => cases hp

/-- A namespace whose statements are taken from some tokens stays one. -/
theorem parseSection_takenFrom {s : Section} {n : Namespace} {all : List Token}
    (hall : tokens ⊆ all) (hn : ∀ s ∈ n.statements, s.TakenFrom all) {p : Parsed tokens Namespace}
    (hp : parseSection s n tokens = .ok p) :
    p.value.origin = n.origin ∧ ∀ s ∈ p.value.statements, s.TakenFrom all := by
  unfold parseSection at hp
  split at hp <;> split at hp <;> cases hp
  · exact ⟨rfl, hn⟩
  · exact ⟨rfl, hn⟩
  next q hq => exact ⟨rfl, fun s hs => (parseStatements_takenFrom h hq s hs).mono hall⟩

theorem parseSections_takenFrom {last : Option Section} {n m : Namespace} {all : List Token}
    (hall : tokens ⊆ all) (wellFormed : n.WellFormed) (hn : ∀ s ∈ n.statements, s.TakenFrom all)
    {after : { rest : List Token // rest.length ≤ tokens.length }}
    (hp : parseSections last n tokens = .ok (m, after)) :
    m.origin = n.origin ∧ ∀ s ∈ m.statements, s.TakenFrom all := by
  fun_induction parseSections last n tokens with
  | case1 => cases hp; exact ⟨rfl, hn⟩
  | case2 => cases hp
  | case3 => cases hp; exact ⟨rfl, hn⟩
  | case4 => cases hp
  | case5 => cases hp
  | case6 => cases hp
  | case7 last n t rest hb s hs hf p hsection m' m'' left hle hsections ih =>
    cases hp
    have hrest : ∀ u ∈ rest, u.kind.WellFormed := fun u hu => h u (List.mem_cons_of_mem t hu)
    obtain ⟨value, left⟩ := parseSection_wellFormed hrest wellFormed hsection
    obtain ⟨origin, taken⟩ :=
      parseSection_takenFrom hrest (List.Subset.trans (List.subset_cons_self t rest) hall) hn hsection
    have hsub : p.rest ⊆ t :: rest := List.Subset.trans left (List.subset_cons_self t rest)
    obtain ⟨origin', taken'⟩ := ih (fun u hu => h u (hsub hu)) (List.Subset.trans hsub hall)
      { value with } taken hsections
    exact ⟨origin'.trans origin, taken'⟩

theorem parseNamespaces_takenFrom {origin : Nat} {ns : List Namespace} {all : List Token}
    (hall : tokens ⊆ all) (hp : parseNamespaces origin tokens = .ok ns) :
    ∀ n ∈ ns, n.origin = origin ∧ ∀ s ∈ n.statements, s.TakenFrom all := by
  fun_induction parseNamespaces origin tokens generalizing ns with
  | case1 => cases hp; simp
  | case2 => cases hp; simp
  | case3 => cases hp
  | case4 => cases hp
  | case5 => cases hp
  | case6 t rest ident ht start n after hle hsections ns hns ih =>
    cases hp
    have hrest : ∀ s ∈ rest, s.kind.WellFormed := fun s hs => h s (List.mem_cons_of_mem t hs)
    have hident := h t (List.mem_cons_self ..)
    rw [ht] at hident
    have hstart : start.WellFormed := ⟨hident, by simp [start], by simp [start], by simp [start]⟩
    have hsub := List.Subset.trans (List.subset_cons_self t rest) hall
    have first := parseSections_takenFrom hrest hsub hstart (by simp [start]) hsections
    obtain ⟨-, hafter⟩ := parseSections_wellFormed hrest hstart hsections
    simp only [List.mem_cons]
    rintro m (rfl | hm)
    · exact first
    · exact ih (fun s hs => hrest s (hafter hs)) (List.Subset.trans hafter hsub) hns m hm
  | case7 => cases hp

end

/-! ## From texts to namespaces -/

/-- A namespace of a text: its expressions stand in it. -/
def Namespace.StandsIn (text : String) (n : Namespace) : Prop :=
  ∀ s ∈ n.statements, ∃ front parts back, s.expression.StandsIn text.toList front parts back

theorem parseOrigin_standsIn {origin : Nat} {name source : String} {ast : Ast}
    (h : parseOrigin origin name source = .ok ast) :
    ∀ n ∈ ast.namespaces, n.origin = origin ∧ n.StandsIn source := by
  unfold parseOrigin parseSource at h
  cases hts : lex source with
  | error e =>
    rw [hts] at h
    cases h
  | ok ts =>
    rw [hts] at h
    dsimp only at h
    cases hns : parseNamespaces origin ts with
    | error e =>
      rw [hns] at h
      cases h
    | ok ns =>
      rw [hns] at h
      cases h
      intro n hn
      obtain ⟨same, taken⟩ :=
        parseNamespaces_takenFrom (lex_wellFormed hts) (List.Subset.refl ts) hns n hn
      refine ⟨same, fun s hs => ?_⟩
      obtain ⟨t, ht, kind, place⟩ := taken s hs
      have := lex_placedIn hts t ht _ kind
      rwa [place] at this

theorem parseAll_standsIn {origin : Nat} {sources : List Source} {ast : Ast}
    (h : Model.parseAll origin sources = .ok ast) :
    ∀ n ∈ ast.namespaces, ∃ i source, n.origin = origin + i ∧ sources[i]? = some source ∧
      n.StandsIn source.text := by
  induction sources generalizing origin ast with
  | nil => cases h; simp
  | cons source sources ih =>
    unfold Model.parseAll at h
    split at h
    · cases h
    next first hfirst =>
      cases hmore : Model.parseAll (origin + 1) sources with
      | error e =>
        rw [hmore] at h
        cases h
      | ok more =>
        rw [hmore] at h
        cases h
        intro n hn
        rcases List.mem_append.mp hn with hn | hn
        · obtain ⟨same, stands⟩ := parseOrigin_standsIn hfirst n hn
          exact ⟨0, source, same, rfl, stands⟩
        · obtain ⟨i, other, same, hi, stands⟩ := ih hmore n hn
          exact ⟨i + 1, other, by omega, hi, stands⟩

/-- The number of a namespace is that of the text in which its expressions stand. -/
theorem ofSources_standsIn {sources : List Source} {m : Model}
    (h : Model.ofSources sources = .ok m) :
    m.sources = sources ∧ ∀ n ∈ m.ast.namespaces, ∃ source, sources[n.origin]? = some source ∧
      n.StandsIn source.text := by
  unfold Model.ofSources at h
  cases hall : Model.parseAll 0 sources with
  | error e =>
    rw [hall] at h
    cases h
  | ok ast =>
    rw [hall] at h
    cases h
    refine ⟨rfl, fun n hn => ?_⟩
    obtain ⟨i, source, same, hi, stands⟩ := parseAll_standsIn hall n hn
    obtain rfl : i = n.origin := by omega
    exact ⟨source, hi, stands⟩

end EnvManifest
