import EnvManifest.Proofs.Eval.Composite
import EnvManifest.Proofs.Manifest.Places
import EnvManifest.Proofs.Manifest.Position

/-!
# The line of a failed expression

The engine says in which line of an expression an error is. The evaluation looks for the start of
that line in the text of the expression, and adds its offset to that of the expression. In the
manifest the line starts later by as many bytes as backslashes have been dropped before it.
-/

namespace EnvManifest

open Text

/-! ## Lines of a text -/

namespace Pass

theorem lineStart?_succ {n : Nat} {front : List Char} (fresh : '\n' ∉ front) (more : List Char) :
    lineStart? (front ++ '\n' :: more) (n + 2) =
      (lineStart? more (n + 1)).map (byteLength front + 1 + ·) := by
  have run : (front ++ '\n' :: more).takeWhile (· != '\n') = front :=
    takeWhile_run (fun c hc => by simpa using ne_of_mem_of_not_mem hc fresh) (stops_cons (by simp) _)
  rw [lineStart?]
  simp only [run, List.drop_left]

theorem lineStart?_append {n : Nat} {before : List Char} (h : StartsLine n before)
    (after : List Char) : lineStart? (before ++ after) n = some (byteLength before) := by
  match n with
  | 0 => exact absurd h.count (Nat.succ_ne_zero _)
  | 1 =>
    obtain rfl := startsLine_one.mp h
    rfl
  | n + 2 =>
    obtain ⟨front, more, rfl, fresh, starts⟩ := startsLine_succ.mp h
    rw [List.append_assoc, List.cons_append, lineStart?_succ fresh, lineStart?_append starts after]
    simp [show '\n'.utf8Size = 1 from rfl, Nat.add_assoc]

theorem lineStart?_eq_some {n k : Nat} {cs : List Char} (h : lineStart? cs n = some k) :
    ∃ before after, cs = before ++ after ∧ StartsLine n before := by
  match n with
  | 0 => cases h
  | 1 => exact ⟨[], cs, rfl, startsLine_one.mpr rfl⟩
  | n + 2 =>
    by_cases mem : '\n' ∈ cs
    · obtain ⟨front, more, rfl, fresh⟩ := List.eq_append_cons_of_mem mem
      rw [lineStart?_succ fresh] at h
      obtain ⟨_, h, -⟩ := Option.map_eq_some_iff.mp h
      obtain ⟨before, after, rfl, starts⟩ := lineStart?_eq_some h
      exact ⟨front ++ '\n' :: before, after, by simp, startsLine_succ.mpr ⟨_, _, rfl, fresh, starts⟩⟩
    · have whole : cs.takeWhile (· != '\n') = cs :=
        List.takeWhile_eq_self_iff.mpr fun c hc => by simpa using ne_of_mem_of_not_mem hc mem
      rw [lineStart?, whole, List.drop_length] at h
      cases h

end Pass

/-! ## Lines of an expression -/

/-- How many characters the reader drops from the parts that start among the first `n` characters
of an expression. -/
def dropped (n : Nat) : List Segment → Nat
  | [] => 0
  | s :: ss =>
    if n = 0 then 0 else (s.written.length - s.meant.length) + dropped (n - s.written.length) ss

theorem dropped_zero (parts : List Segment) : dropped 0 parts = 0 := by
  cases parts <;> rfl

/-- Nothing is dropped exactly if every part that starts there says what is written. -/
theorem dropped_eq_zero_iff {parts : List Segment} (h : ∀ s ∈ parts, s.Sound) (n : Nat) :
    dropped n parts = 0 ↔ ∀ done s more, parts = done ++ s :: more →
      (done.flatMap (·.written)).length < n → s.meant = s.written := by
  induction parts generalizing n with
  | nil => simp [dropped]
  | cons s parts ih =>
    obtain ⟨hs, h⟩ := List.forall_mem_cons.mp h
    unfold dropped
    by_cases hn : n = 0
    · simp [hn]
    rw [if_neg hn, Nat.add_eq_zero_iff, ih h]
    constructor
    · rintro ⟨first, later⟩ done t more split hdone
      cases done with
      | nil =>
        obtain ⟨rfl, -⟩ := List.cons.inj split
        obtain same | ⟨hwritten, hmeant⟩ := hs
        · exact same
        · simp [hwritten, hmeant] at first
      | cons u done =>
        obtain ⟨rfl, tail⟩ := List.cons.inj split
        simp only [List.flatMap_cons, List.length_append] at hdone
        exact later done t more tail (by omega)
    · intro same
      refine ⟨?_, fun done t more split hdone => ?_⟩
      · rw [same [] s parts rfl (Nat.pos_of_ne_zero hn), Nat.sub_self]
      · refine same (s :: done) t more (by rw [split, List.cons_append]) ?_
        simp only [List.flatMap_cons, List.length_append]
        omega

theorem Segment.Sound.count_eq {s : Segment} (h : s.Sound) :
    s.meant.count '\n' = s.written.count '\n' := by
  obtain same | ⟨hwritten, hmeant⟩ := h
  · rw [same]
  · rw [hwritten, hmeant]
    rfl

theorem Segment.Sound.byteLength_eq {s : Segment} (h : s.Sound) :
    byteLength s.meant + (s.written.length - s.meant.length) = byteLength s.written := by
  obtain same | ⟨hwritten, hmeant⟩ := h
  · rw [same, Nat.sub_self, Nat.add_zero]
  · rw [hwritten, hmeant]
    rfl

theorem count_meant {parts : List Segment} (h : ∀ s ∈ parts, s.Sound) :
    (parts.flatMap (·.meant)).count '\n' = (parts.flatMap (·.written)).count '\n' := by
  induction parts with
  | nil => rfl
  | cons s parts ih =>
    obtain ⟨hs, h⟩ := List.forall_mem_cons.mp h
    simp only [List.flatMap_cons, List.count_append, ih h, hs.count_eq]

/-- A part that ends a line says what is written. -/
theorem Segment.Sound.eq_of_mem {s : Segment} (h : s.Sound) (mem : '\n' ∈ s.written) :
    s.meant = s.written := by
  obtain same | ⟨hwritten, -⟩ := h
  · exact same
  · simp [hwritten] at mem

/-- A line of the manifest is a line of what the expression says, and starts later by what is
dropped. -/
theorem exists_meant_line {parts : List Segment} (h : ∀ s ∈ parts, s.Sound) {n : Nat}
    {before after : List Char} (split : parts.flatMap (·.written) = before ++ after)
    (starts : StartsLine n before) :
    ∃ before' after', parts.flatMap (·.meant) = before' ++ after' ∧ StartsLine n before' ∧
      byteLength before' + dropped before.length parts = byteLength before := by
  induction parts generalizing n before with
  | nil =>
    obtain ⟨rfl, rfl⟩ := List.append_eq_nil_iff.mp split.symm
    exact ⟨[], [], rfl, starts, rfl⟩
  | cons s parts ih =>
    obtain ⟨hs, h⟩ := List.forall_mem_cons.mp h
    by_cases hb : before = []
    · subst hb
      exact ⟨[], _, rfl, starts, by simp [dropped]⟩
    have hlen : before.length ≠ 0 := by simpa using hb
    have last := starts.last hb
    rw [List.flatMap_cons, List.append_eq_append_iff] at split
    rw [List.flatMap_cons, dropped, if_neg hlen]
    rcases split with ⟨later, rfl, split⟩ | ⟨rest, hwritten, -⟩
    · have starts' : StartsLine (later.count '\n' + 1) later := by
        refine ⟨rfl, fun hl => ?_⟩
        obtain ⟨c, later, rfl⟩ := List.exists_cons_of_ne_nil hl
        simpa using last
      obtain ⟨before', after', hmore, ⟨count, last'⟩, size⟩ := ih h split starts'
      have hcount := starts.count
      have hdrop : (s.written ++ later).length - s.written.length = later.length := by simp
      rw [hdrop]
      refine ⟨s.meant ++ before', after', by rw [hmore, List.append_assoc], ⟨?_, fun _ => ?_⟩, ?_⟩
      · rw [List.count_append] at hcount ⊢
        rw [hs.count_eq]
        omega
      · by_cases hb' : before' = []
        -- The line starts right after the part, which therefore ends a line.
        · subst hb'
          have none : later = [] := by
            by_contra hl
            have pos := List.count_pos_iff.mpr (List.mem_of_getLast? (starts'.last hl))
            simp at count
            omega
          subst none
          rw [List.append_nil] at last ⊢
          rwa [hs.eq_of_mem (List.mem_of_getLast? last)]
        · rw [List.getLast?_append, last' hb']
          rfl
      · have first := hs.byteLength_eq
        rw [byteLength_append, byteLength_append]
        omega
    -- The line starts in the part.
    · have mem : '\n' ∈ s.written := by
        rw [hwritten]
        exact List.mem_append_left _ (List.mem_of_getLast? last)
      have same := hs.eq_of_mem mem
      have short : before.length - s.written.length = 0 := by simp [hwritten]
      refine ⟨before, rest ++ parts.flatMap (·.meant), ?_, starts, ?_⟩
      · rw [same, hwritten, List.append_assoc]
      · rw [same, Nat.sub_self, short, dropped_zero]
        rfl

/-! ## Errors of expressions -/

/-- An error is about a statement of a namespace. -/
structure ExpressionError.Concerns (x : ExpressionError) (ns : Namespace) (s : Statement) : Prop where
  owner : x.owner = ns.ident
  statement : x.statement = s.ident
  source : x.source = s.expression.source
  origin : x.origin = ns.origin

theorem concerns_of_expressionError {ns : Namespace} {s : Statement} {e : EngineError}
    {x : ExpressionError} (h : Pass.expressionError ns s e = .expression x) :
    x.Concerns ns s ∧ x.reason = e.describe.2 ∧
      x.offset = (e.describe.1.bind (Pass.lineStart? s.expression.source.toList)).map
        (s.expression.offset + ·) := by
  obtain rfl := EvalError.expression.inj h
  exact ⟨⟨rfl, rfl, rfl, rfl⟩, rfl, rfl⟩

/-- An error of an expression is that of a namespace of the manifest. -/
def Ast.Raises (ast : Ast) (o : EvalOptions) (error : EvalError) : Prop :=
  ∀ x, error = .expression x → ∃ ns ∈ ast.namespaces, error.OfNamespace o ns

theorem Ast.Raises.of_ne {ast : Ast} {o : EvalOptions} {error : EvalError}
    (h : ∀ x, error ≠ .expression x) : ast.Raises o error := fun x hx => absurd hx (h x)

theorem evalComposite_raises (e : Evaluator) (chain : List String) :
    ∀ place c, Ends (evalComposite e chain place c) (fun _ => True) (e.ast.Raises e.options) := by
  induction chain using chain_induction e.ast with
  | step chain ih =>
    intro place c
    have go : Ends Evaluation.goOn (fun _ => True) (e.ast.Raises e.options) :=
      goOn_ends.mono (fun _ h => h) fun _ h => h ▸ (.of_ne (by simp))
    rw [evalComposite_eq, evalReference]
    refine go.bind fun _ _ => ?_
    split
    next again => exact ends_throw (.of_ne (by simp))
    next fresh =>
    split
    next undefined =>
      split
      · exact ends_throw (.of_ne (by simp))
      · exact ends_pure trivial
    next defined =>
    split
    · exact ends_throw (.of_ne (by simp))
    · refine (ends_foldlM (P := fun _ => True) _ (fun env t ht => ?_) _).mono (fun _ _ => trivial)
        fun _ h => h
      have mem : t.1 ∈ e.ast.namespaces :=
        (List.mem_filter.mp (List.fst_mem_of_mem_zipIdx ht)).1
      have composed : Ends (evalMany e.host e.options e.schedule (evalComposite e (chain ++ [c.ident]))
          (place ++ [t.2]) t.1.composites) (fun _ => ∀ d ∈ t.1.composites, True)
          (e.ast.Raises e.options) :=
        evalMany_ends (.of_ne (by simp)) fun place d _ => ih c.ident fresh defined place d
      have definition : Ends (evalDefinition e (evalComposite e (chain ++ [c.ident])) place c t)
          (fun _ => True) (e.ast.Raises e.options) := composed.bind fun _ _ =>
        (runNamespace_ends _ _ _ _ _).mono (fun _ h => h) fun _ h _ _ => ⟨t.1, mem, h⟩
      exact definition.bind fun _ _ => ends_pure trivial

section

variable {text front back : List Char} {parts : List Segment} {x : Expression} {n : Nat}

/-- The evaluation finds a line that the manifest has, and misses its start by what is dropped. -/
theorem lineStart?_of_written (h : x.StandsIn text front parts back) {before after : List Char}
    (split : parts.flatMap (·.written) = before ++ after) (starts : StartsLine n before) :
    ∃ k, Pass.lineStart? x.source.toList n = some k ∧
      x.offset + k + dropped before.length parts = byteLength (front ++ before) := by
  obtain ⟨before', after', meant, starts', size⟩ := exists_meant_line h.sound split starts
  refine ⟨byteLength before', ?_, ?_⟩
  · rw [h.source, meant, Pass.lineStart?_append starts']
  · rw [h.offset, byteLength_append]
    omega

theorem lineStart?_of_unwritten (h : x.StandsIn text front parts back)
    (fewer : ∀ before after, parts.flatMap (·.written) = before ++ after → ¬ StartsLine n before) :
    Pass.lineStart? x.source.toList n = none := by
  cases found : Pass.lineStart? x.source.toList n with
  | none => rfl
  | some k =>
    rw [h.source] at found
    obtain ⟨before, after, meant, starts⟩ := Pass.lineStart?_eq_some found
    have many : before.count '\n' ≤ (parts.flatMap (·.written)).count '\n' := by
      rw [← count_meant h.sound, meant, List.count_append]
      exact Nat.le_add_right ..
    obtain ⟨before', after', split, starts'⟩ := exists_startsLine many
    exact (fewer before' after' split (starts.count ▸ starts')).elim

end

/-- An error of an expression is about a statement of the text with its number. If the engine says
that it is in some line, the offset is that of the line's start as the manifest has it, less the
number of backslashes that have been dropped before it; there is none for a line that the
expression does not have. The excerpt is for that offset. -/
def ExpressionError.Located (x : ExpressionError) (m : Model) (o : EvalOptions) : Prop :=
  ∃ source ns s e front parts back,
    m.sources[x.origin]? = some source ∧ ns ∈ m.ast.namespaces ∧ s ∈ ns.statements ∧
    x.Concerns ns s ∧ ns.Fails o s e ∧ x.reason = e.describe.2 ∧
    s.expression.StandsIn source.text.toList front parts back ∧
    (e.describe.1 = none → x.offset = none) ∧
    ∀ n, e.describe.1 = some n →
      (∀ before after, parts.flatMap (·.written) = before ++ after → StartsLine n before →
        ∃ offset, x.offset = some offset ∧
          offset + dropped before.length parts = byteLength (front ++ before) ∧
          m.detail? (.expression x) = some (excerpt source.name source.text offset) ∧
          (dropped before.length parts = 0 →
            lineCol source.text.toList offset = lineColOf (front ++ before))) ∧
      ((∀ before after, parts.flatMap (·.written) = before ++ after → ¬ StartsLine n before) →
        x.offset = none)

/-- Every error of an expression is located, whatever the sources and the evaluation. -/
theorem expression_error_located {sources : List Source} {m : Model}
    (parsed : Model.ofSources sources = .ok m) {host : Host} {schedule : Schedule} {o : EvalOptions}
    {p : Patience} {names : List String} {x : ExpressionError}
    (fails : m.eval host schedule o p names = .error (.expression x)) : x.Located m o := by
  have raised : m.ast.Raises o (.expression x) := by
    refine (evalMany_ends (fun _ h => nomatch h) fun place c _ => ?_ :
      Ends (evalRequested ⟨host, m.ast, o, schedule⟩ names)
        (fun _ => ∀ c ∈ names.map Composite.named, True) _).error (eval_eq_error fails)
    exact evalComposite_raises _ [] place c
  obtain ⟨ns, hns, s, hs, e, failing, error⟩ := raised x rfl
  obtain ⟨concerns, reason, offset⟩ := concerns_of_expressionError error
  obtain ⟨same, stands⟩ := ofSources_standsIn parsed
  obtain ⟨source, hsource, hstands⟩ := stands ns hns
  obtain ⟨front, parts, back, place⟩ := hstands s hs
  rw [← concerns.origin, ← same] at hsource
  refine ⟨source, ns, s, e, front, parts, back, hsource, hns, hs, concerns, failing, reason, place,
    fun unknown => by rw [offset, unknown]; rfl, fun n line => ⟨fun before after split starts => ?_,
    fun fewer => by rw [offset, line, Option.bind_some, lineStart?_of_unwritten place fewer]; rfl⟩⟩
  obtain ⟨k, found, start⟩ := lineStart?_of_written place split starts
  have known : x.offset = some (s.expression.offset + k) := by
    rw [offset, line, Option.bind_some, found, Option.map_some]
  refine ⟨_, known, start, ?_, fun exact => ?_⟩
  · simp [Model.detail?, EvalError.position?, known, hsource]
  · rw [exact, Nat.add_zero] at start
    rw [lineCol, start, place.text, split, ← List.append_assoc, List.append_assoc _ after,
      charsBefore_append]

theorem eval_eq_error_of_map {m : Model} {host : Host} {schedule : Schedule} {o : EvalOptions}
    {p : Patience} {names : List String} {error : EvalError}
    (h : (m.eval host schedule o p names).map (fun _ => ()) = .error error) :
    m.eval host schedule o p names = .error error := by
  revert h
  cases m.eval host schedule o p names <;> simp [Except.map]

/-- A manifest with an expression that fails in its second line. -/
def failingText : String := "a \x7b x = (function()\n return nil .. 'x' end)() \x7d"

def failingError : ExpressionError :=
  ⟨"a", "x", "(function()\n return nil .. 'x' end)()", 0, some 20, "attempt to concatenate a nil value"⟩

theorem failing_is_located : ∃ m, Model.ofText failingText = .ok m ∧
    m.eval .bare .calm .default .endless ["a"] = .error (.expression failingError) ∧
    failingError.Located m .default := by
  have h : ((Model.ofText failingText).toOption.map fun m =>
      (m.eval .bare .calm .default .endless ["a"]).map fun _ => ()) =
      some (.error (.expression failingError)) := by decide +kernel
  cases hm : Model.ofText failingText with
  | error e =>
    rw [hm] at h
    cases h
  | ok m =>
    rw [hm] at h
    have fails := eval_eq_error_of_map (Option.some.inj h)
    exact ⟨m, rfl, fails, expression_error_located hm fails⟩

/-- The same with `\;` in the first line of the expression. -/
def shiftedText : String :=
  "a \x7b\n  x = (function() local y = 1 \\;\n return nil .. 'x' end)()\n\x7d"

def shiftedExpression : Expression :=
  ⟨"(function() local y = 1 ;\n return nil .. 'x' end)()", 10⟩

def shiftedError : ExpressionError :=
  ⟨"a", "x", shiftedExpression.source, 0, some 36, "attempt to concatenate a nil value"⟩

/-- The line that an error is about. -/
def errorLine? : Except EngineError Value → Option Nat
  | .ok _ => none
  | .error e => e.describe.1

/-- The engine says that the error is in the second line of the expression, which starts at 37. The
offset of the error is 36. -/
theorem escaped_semicolon_shifts_line :
    ∃ m ns s e front parts back before after, Model.ofText shiftedText = .ok m ∧
      m.eval .bare .calm .default .endless ["a"] = .error (.expression shiftedError) ∧
      ns ∈ m.ast.namespaces ∧ s ∈ ns.statements ∧ shiftedError.Concerns ns s ∧
      ns.Fails .default s e ∧ e.describe.1 = some 2 ∧
      s.expression.StandsIn shiftedText.toList front parts back ∧
      parts.flatMap (·.written) = before ++ after ∧ StartsLine 2 before ∧
      byteLength (front ++ before) = 37 ∧ shiftedError.offset = some 36 := by
  let engine := Engine.new .bare (Facts.ofHost .bare) .endless
  have run : (Model.ofText shiftedText).toOption.any fun m =>
      (m.eval .bare .calm .default .endless ["a"]).map (fun _ => ()) =
        .error (.expression shiftedError) ∧
      m.ast.namespaces.any fun ns => ns.ident = "a" ∧ ns.origin = 0 ∧ ns.statements.any fun s =>
        s.ident = "x" ∧ s.expression = shiftedExpression ∧
        errorLine? (Pass.valueOf ⟨ns, [], none, 1, 1⟩ .default 0 s engine).1 = some 2 := by
    decide +kernel
  simp only [Option.any_eq_true, List.any_eq_true, decide_eq_true_eq] at run
  obtain ⟨m, hm, fails, ns, hns, owner, origin, s, hs, statement, expression, found⟩ := run
  have parsed : Model.ofText shiftedText = .ok m := by
    cases hr : Model.ofText shiftedText with
    | error e => simp [hr, Except.toOption] at hm
    | ok m' => simpa [hr, Except.toOption] using hm
  cases he : (Pass.valueOf ⟨ns, [], none, 1, 1⟩ .default 0 s engine).1 with
  | ok v => simp [errorLine?, he] at found
  | error e =>
    rw [he] at found
    refine ⟨m, ns, s, e, "a \x7b\n  x = ".toList,
      [⟨"(function() local y = 1 ".toList, "(function() local y = 1 ".toList⟩,
        ⟨['\\', ';'], [';']⟩,
        ⟨"\n return nil .. 'x' end)()".toList, "\n return nil .. 'x' end)()".toList⟩],
      "\n\x7d".toList, "(function() local y = 1 \\;\n".toList, " return nil .. 'x' end)()".toList,
      parsed, eval_eq_error_of_map fails, hns, hs, ⟨owner.symm, statement.symm, ?_, origin.symm⟩,
      ⟨⟨ns, [], none, 1, 1⟩, 0, engine, rfl, he⟩, found, ?_, by decide, ⟨by decide, by decide⟩,
      by decide, rfl⟩
    · rw [expression]
      rfl
    · rw [expression]
      exact ⟨by decide, by decide, by decide, by simp [Segment.Sound]⟩

end EnvManifest
