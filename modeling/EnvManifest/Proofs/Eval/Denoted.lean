import EnvManifest.Proofs.Eval.Scopes
import EnvManifest.Proofs.Patch.Folded
import EnvManifest.Proofs.Patch.Names
import EnvManifest.Proofs.Patch.Scoping

/-!
# What the name of a parameter stands for

A parameter whose text is a literal is written into the expressions of a pass. Any other one is bound
in the scope of the pass. Both ways the name stands for the parameter, unless what the pass composes
binds the name too.
-/

namespace EnvManifest

open Text Script Patch

/-- What a parameter is in expressions: the literal that its text is, or else the text. -/
def parameterDatum (text : String) : Datum :=
  ((Literal.ofText? text).map Literal.datum).getD (.ofString text)

/-! ## Operands alone -/

variable {engine : Engine} {scope : ScopeId}

theorem Patch.OperandText.parse {text : List Char} {ts : List Script.Token}
    (ht : OperandText text ts) : ∃ e, Stands ts e ∧
      parseProgram (Engine.programText (String.ofList text)) = .ok ⟨0, true, [.give [e]]⟩ := by
  have hlexes : Lexes [] (String.ofList text).toList ts := by
    rw [String.toList_ofList]
    exact ht.lexes [] (Patch.endsBefore_nil _)
  obtain ⟨t, e, rfl, he, -⟩ | ⟨inner, e, rfl, he, -⟩ := ht.shape
  · exact ⟨e, .bare he, parse_atom hlexes he⟩
  · obtain ⟨e', he', hparse⟩ := he.parse hlexes
    exact ⟨.single e', .enclosed he', hparse⟩

/-- Does a scope find the least whole number by the library's name for it? -/
def Engine.HasLeast (engine : Engine) (scope : ScopeId) : Prop :=
  ∃ library, engine.heap.index (.table scope) (.ofString "math") = .done library ∧
    engine.heap.index library (.ofString "mininteger") = .done (Literal.int Int64.minValue).datum

/-- Then its name is a path of two fields. -/
theorem Engine.HasLeast.look (h : engine.HasLeast scope) (e : Expr) (l l' : Nat) :
    (engine.loaded scope e).heap.look engine.programScope
      (.index l (.global l' "math") (.str (encode "mininteger".toList))) =
      some (Literal.int Int64.minValue).datum := by
  obtain ⟨library, hlibrary, hfound⟩ := h
  have hmath : (engine.loaded scope e).heap.look engine.programScope (.global l' "math") =
      some library := by
    rw [look_global, valueOf_loaded, index_loaded, hlibrary]
    rfl
  have hkey : Datum.str (encode "mininteger".toList) = .ofString "mininteger" := rfl
  rw [Heap.look, hmath, Heap.look, hkey]
  show (Heap.index _ library (.ofString "mininteger")).done? = _
  rw [index_loaded, hfound]
  rfl

/-- The text of an operand that has a value in every program has it alone. -/
theorem looks_of_denotes {text : List Char} {d : Datum} (h : Denotes text d) :
    engine.Looks scope (String.ofList text) d mostCost := by
  obtain ⟨ts, ht, hvalue⟩ := h
  obtain ⟨e, he, hparse⟩ := ht.parse
  refine ⟨e, hparse, ?_, he.cost_le, hvalue e he _ _⟩
  cases he with
  | bare he => cases he <;> rfl
  | enclosed => rfl

/-- So has the text of a literal. -/
theorem looks_literal (l : Literal) (hleast : l = .int Int64.minValue → engine.HasLeast scope) :
    engine.Looks scope (String.ofList l.source) l.datum mostCost := by
  obtain h | rfl := l.source_denotes
  · exact looks_of_denotes h
  · -- This text is a path, so that the value is looked up in two steps.
    have hlexes : Lexes [] (String.ofList (Literal.int Int64.minValue).source).toList
        Literal.leastTokens := by
      rw [String.toList_ofList]
      exact Literal.operandText_least.lexes [] (Patch.endsBefore_nil _)
    obtain ⟨l, l', hparse⟩ := parse_path hlexes
    rw [resolve_start (by decide)] at hparse
    exact ⟨_, hparse, rfl, Nat.le_refl mostCost, (hleast rfl).look _ l l'⟩

theorem evaluates_literal (hg : engine.GoesOn) (l : Literal)
    (hleast : l = .int Int64.minValue → engine.HasLeast scope) :
    engine.Evaluates scope (String.ofList l.source) l.datum :=
  (looks_literal l hleast).evaluates hg (by decide)

/-! ## References -/

namespace Patch

/-- What a program has where the name of a parameter stood: what the new text is read as, or else
the global of that name. -/
inductive StandsFor (ident : String) : Fate → Expr → Prop
  | replaced {text : List Char} {ts : List Script.Token} {e : Expr} (ht : OperandText text ts)
    (he : Stands ts e) : StandsFor ident (.replaced text) e
  | kept (l : Nat) {v : Variable} (hv : v.name = environmentName) :
    StandsFor ident .kept (.index l (.var v) (.str (encode ident.toList)))

/-- A free reference to a name, in an expression that declares the name nowhere. No list of local
names runs on over it, and it is not taken for a label's or a function's name. -/
structure FreeReference (ident source : String) (xs : List Item) (k : Nat) : Prop where
  expression : Expresses source xs
  plain : Plain source.toList
  use : xs[k]? = some ⟨.name ident, .use true⟩
  before : ∀ y ∈ (xs.take k).getLast?, y.token ≠ .mark "::" ∧ y.token ≠ .mark "function"
  undeclared : ident ∉ introduced xs
  unswept : ident ∉ swept xs

/-- A free reference to a parameter becomes its literal, or stays if it has none. -/
theorem fate?_reference {p : Patch} {source : String} {xs : List Item} {k : Nat}
    (href : FreeReference p.ident source xs k) (s : Surroundings) :
    p.fate? s source k = some ((p.literal.map fun l => .replaced l.source).getD .kept) := by
  obtain ⟨h, hp, hk, hbefore, hdeclared, hswept⟩ := href
  obtain ⟨front, back, rfl, rfl⟩ := split_at hk
  rw [List.take_left] at hbefore
  have hshow := show_of_expresses h hp
  have horderly := h.derived.orderly
  obtain ⟨hfront, hback⟩ := Adjacent.of_split horderly.flows.chain
  obtain ⟨before, t, after, hb, ht, ha, hfate⟩ := fate?_split hshow nofun
    (fun y hy => (hfront y hy).use rfl "." (by decide)) p s
  obtain ⟨hkind, htext⟩ := (ht.word p.ident).2 rfl
  have hlocals : t.text ∉ declared (tokenize source.toList).1 := by
    intro hmem
    -- What the scan takes for declared is introduced somewhere, or swept up behind a list.
    obtain ⟨n, hn, hfound⟩ := of_mem_declared hshow List.suffix_rfl horderly.headed
      horderly.flows.chain hmem
    obtain rfl : n = p.ident := String.toList_inj.1 (hn.symm.trans htext)
    exact hfound.elim hdeclared hswept
  have hname : String.ofList t.text = p.ident := by
    rw [htext, String.ofList_toList]
  have hreplaced : replacement? p s (declared (tokenize source.toList).1) (lastText [] before) t
      after = p.literal.map fun l => (0, l.source) := by
    unfold replacement?
    dsimp only
    rw [if_neg, if_pos hname, not_assigned ha rfl hback, if_neg (by decide)]
    simp [hkind, allowsReference_use hb rfl hfront hbefore, hlocals]
  rw [hfate, hreplaced]
  cases p.literal <;> rfl

end Patch

/-! ## The name of the parameter -/

/-- What an expression sees of the parameter at some moment of a pass: its globals are the names of
the scope, in which nobody has bound the parameter's name since the scope was opened, and the
library has not lost the least whole number. -/
structure Sees (opened : Engine) (scope : ScopeId) (ident : String) (h : Heap) (s : Script.Scope)
    (e : Expr) : Prop where
  globals : ∀ l v key, e = .index l (.var v) key → h.valueOf s v.index = .table scope
  unbound : (h.table scope).get (.ofString ident) = (opened.heap.table scope).get (.ofString ident)
  least : Literal.FindsLeast h s e

variable {pass : Pass} {o : EvalOptions} {text : String} {start opened : Engine}

theorem last?_parameter (hparameter : pass.parameter = some text)
    (hcomposed : o.parameterName ∉ pass.composed.keys) :
    Fields.last? o.parameterName (pass.bindings o) = some (.str text) := by
  unfold Pass.bindings
  rw [hparameter, ← List.cons_append, Fields.last?_append, Fields.last?_eq_none hcomposed,
    Option.none_or]
  have hpair : (Pass.contextName, pass.context o) ::
      ((some text).map fun text => (o.parameterName, Value.str text)).toList =
        [(Pass.contextName, pass.context o)] ++ [(o.parameterName, Value.str text)] := rfl
  rw [hpair, Fields.last?_append, Fields.last?_singleton, if_pos rfl]
  rfl

theorem openScope_ok (pass : Pass) (o : EvalOptions) (start : Engine) :
    outcome (pass.openScope o) start =
      (.ok start.scope.2, start.scope.1.bindAll start.scope.2 (pass.bindings o)) := by
  rw [openScope_eq, outcome_modifyGet]

/-- A scope has the parameter's text under its name, unless what the pass composes hides it. -/
theorem get_parameter (hopen : outcome (pass.openScope o) start = (.ok scope, opened))
    (hparameter : pass.parameter = some text) (hcomposed : o.parameterName ∉ pass.composed.keys) :
    (opened.heap.table scope).get (.ofString o.parameterName) = .ofString text := by
  rw [openScope_ok] at hopen
  obtain ⟨hscope, rfl⟩ := Prod.mk.inj hopen
  obtain rfl := Except.ok.inj hscope
  exact (hasScope_scope start).get_bindAll_str (last?_parameter hparameter hcomposed)

/-- What stands for a free reference has the parameter's value. -/
theorem reference_denotes (hopen : outcome (pass.openScope o) start = (.ok scope, opened))
    (hparameter : pass.parameter = some text)
    (hcomposed : Literal.ofText? text = none → o.parameterName ∉ pass.composed.keys)
    {source : String} {xs : List Item} {k : Nat}
    (href : FreeReference o.parameterName source xs k) (s : Surroundings) :
    ∃ fate, (ofParameter o.parameterName pass.parameter).fate? s source k = some fate ∧
      (∃ e, StandsFor o.parameterName fate e) ∧
      ∀ e, StandsFor o.parameterName fate e → ∀ h locals,
        Sees opened scope o.parameterName h locals e →
          h.look locals e = some (parameterDatum text) := by
  have hfate : (ofParameter o.parameterName pass.parameter).fate? s source k = _ :=
    fate?_reference href s
  have hliteral : (ofParameter o.parameterName pass.parameter).literal = Literal.ofText? text := by
    rw [hparameter]
    rfl
  rw [hliteral] at hfate
  refine ⟨_, hfate, ?_⟩
  unfold parameterDatum
  cases hl : Literal.ofText? text with
  | some l =>
    obtain ⟨ts, ht⟩ := l.exists_operandText
    obtain ⟨e, he, -⟩ := ht.parse
    refine ⟨⟨e, .replaced ht he⟩, ?_⟩
    intro e hstands h locals hsees
    cases hstands with
    | replaced ht he => exact Literal.look_operand ht he hsees.least
  | none =>
    -- The name stays, and a global is a field of the scope.
    refine ⟨⟨_, .kept 0 (v := ⟨environmentName, 0, false⟩) rfl⟩, ?_⟩
    intro e hstands h locals hsees
    cases hstands with
    | @kept l v hv =>
      have hglobals := hsees.globals _ _ _ rfl
      have hfound := hsees.unbound.trans (get_parameter hopen hparameter (hcomposed hl))
      have hsome : ((h.table scope).get (.ofString o.parameterName)).isNil = false := by
        rw [hfound]
        rfl
      have hindex := index_found hsome
      rw [hfound] at hindex
      rw [Heap.look, Heap.look, Heap.look, hglobals]
      exact congrArg Heap.Access.done? hindex

/-- An expression that is the name of a parameter without a literal has the text that the scope has
under the name. -/
theorem evaluates_found {p : Patch} (hname : isVariableName p.ident.toList)
    (hword : p.ident ∉ keywords) (henv : p.ident ≠ environmentName) (hliteral : p.literal = none)
    (s : Surroundings) (hg : engine.GoesOn)
    (hfound : (engine.heap.table scope).get (.ofString p.ident) = .ofString text) :
    engine.Evaluates scope (p.apply s p.ident) (.ofString text) := by
  rw [apply_ident hname hword, hliteral]
  obtain ⟨l, hparse⟩ := parse_name (lexes_variable hname hword) henv
  exact evaluates_of_look hg hparse rfl (Nat.le_of_ble_eq_true rfl) (look_name hfound nofun _ l)

/-- An expression that is the name of the parameter has its value. -/
theorem name_denotes (hopen : outcome (pass.openScope o) start = (.ok scope, opened))
    (hparameter : pass.parameter = some text) (hname : isVariableName o.parameterName.toList)
    (hword : o.parameterName ∉ keywords) (henv : o.parameterName ≠ environmentName)
    (hcomposed : Literal.ofText? text = none → o.parameterName ∉ pass.composed.keys)
    (s : Surroundings) (hg : engine.GoesOn)
    (hunbound : (engine.heap.table scope).get (.ofString o.parameterName) =
      (opened.heap.table scope).get (.ofString o.parameterName))
    (hleast : Literal.ofText? text = some (.int Int64.minValue) → engine.HasLeast scope) :
    engine.Evaluates scope
      ((ofParameter o.parameterName pass.parameter).apply s o.parameterName)
      (parameterDatum text) := by
  have hliteral : (ofParameter o.parameterName pass.parameter).literal = Literal.ofText? text := by
    rw [hparameter]
    rfl
  unfold parameterDatum
  cases hl : Literal.ofText? text with
  | some l =>
    have happly : (ofParameter o.parameterName pass.parameter).apply s o.parameterName = _ :=
      apply_ident (p := ofParameter o.parameterName pass.parameter) (s := s) hname hword
    rw [happly, hliteral, hl]
    apply evaluates_literal hg l
    intro hmin
    exact hleast (hl.trans (congrArg some hmin))
  | none =>
    have hfound := hunbound.trans (get_parameter hopen hparameter (hcomposed hl))
    exact evaluates_found (p := ofParameter o.parameterName pass.parameter) hname hword henv
      (hliteral.trans hl) s hg hfound

/-- **The name of a parameter stands for it**, unless its text is no literal and what the pass
composes binds the name. Every free reference to it becomes an operand with its value, or stays and
finds it in the scope; the program that runs is the old one with operands in the place of paths; and
an expression that is the name alone has its value. -/
theorem parameter_denotes (hopen : outcome (pass.openScope o) start = (.ok scope, opened))
    (hparameter : pass.parameter = some text) (hname : isVariableName o.parameterName.toList)
    (hword : o.parameterName ∉ keywords) (henv : o.parameterName ≠ environmentName)
    (hcomposed : Literal.ofText? text = none → o.parameterName ∉ pass.composed.keys)
    (s : Surroundings) :
    (∀ {source : String} {xs : List Item} {k : Nat}, FreeReference o.parameterName source xs k →
      ∃ fate, (ofParameter o.parameterName pass.parameter).fate? s source k = some fate ∧
        (∃ e, StandsFor o.parameterName fate e) ∧
        ∀ e, StandsFor o.parameterName fate e → ∀ h locals,
          Sees opened scope o.parameterName h locals e →
            h.look locals e = some (parameterDatum text)) ∧
    (∀ {source : String} {body body' : FunctionBody}, Plain source.toList →
      Fits (ofParameter o.parameterName pass.parameter) s source →
      parseProgram (Engine.programText source) = .ok body →
      parseProgram (Engine.programText
        ((ofParameter o.parameterName pass.parameter).apply s source)) = .ok body' →
      FunctionFolds (Swaps (known (ofParameter o.parameterName pass.parameter) s
        (declared (tokenize source.toList).1))) body body') ∧
    ∀ engine : Engine, engine.GoesOn →
      (engine.heap.table scope).get (.ofString o.parameterName) =
        (opened.heap.table scope).get (.ofString o.parameterName) →
      (Literal.ofText? text = some (.int Int64.minValue) → engine.HasLeast scope) →
      engine.Evaluates scope
        ((ofParameter o.parameterName pass.parameter).apply s o.parameterName)
        (parameterDatum text) := by
  refine ⟨?_, ?_, ?_⟩
  · intro source xs k href
    exact reference_denotes hopen hparameter hcomposed href s
  · intro source body body' hplain hfits hbody hbody'
    exact apply_folds hplain hfits hbody hbody'
  · intro engine hg hunbound hleast
    exact name_denotes hopen hparameter hname hword henv hcomposed s hg hunbound hleast

theorem exists_ok {ε α : Type} {r : Except ε α} (h : r.toOption.isSome) : ∃ a, r = .ok a := by
  cases r with
  | ok a => exact ⟨a, rfl⟩
  | error e => cases h

/-- A pass of `p \x7b v = _ \x7d`. -/
def readingPass (text : String) (composed : Fields Value) : Pass :=
  ⟨⟨"p", [], [], [⟨"v", "=", ⟨"_", 8⟩, ⟨4, 9⟩⟩], 0, ⟨0, 11⟩⟩, composed, some text, 1, 1⟩

theorem freeReference_parameterItems :
    FreeReference "_" "(function(n) local a = n return a + _ end)(_)" parameterItems 12 := by
  refine ⟨expresses_parameterItems, ?_, rfl, ?_, ?_, ?_⟩
  · simp [Plain]
  · simp [parameterItems, Item.mark]
  · decide
  · decide

/-- A word that is a parameter is found where it is referred to, and is what its name alone comes to.
A negative number stands in parentheses in the program of a sum. -/
theorem word_and_number_denoted :
    (∃ (start opened : Engine) (scope : ScopeId) (e : Expr) (h : Heap) (locals : Script.Scope),
      outcome ((readingPass "word" []).openScope .default) start = (.ok scope, opened) ∧
        StandsFor "_" .kept e ∧ Sees opened scope "_" h locals e ∧
        h.look locals e = some (.ofString "word") ∧
        opened.Evaluates scope ((ofParameter "_" (some "word")).apply ⟨[], []⟩ "_")
          (.ofString "word")) ∧
    ∃ body body', parseProgram (Engine.programText "_ + 1") = .ok body ∧
      parseProgram (Engine.programText
        ((ofParameter "_" (some "-3")).apply ⟨[], []⟩ "_ + 1")) = .ok body' ∧
      FunctionFolds (Swaps (known (ofParameter "_" (some "-3")) ⟨[], []⟩
        (declared (tokenize "_ + 1".toList).1))) body body' := by
  have hname : isVariableName "_".toList := by decide
  have hword : "_" ∉ keywords := by decide
  have henv : "_" ≠ environmentName := by decide
  have hliteral : Literal.ofText? "word" = none := by rfl
  have hvalue : parameterDatum "word" = .ofString "word" := by
    unfold parameterDatum
    rw [hliteral]
    rfl
  refine ⟨?_, ?_⟩
  · have hgoes : ((Engine.new .bare (Facts.ofHost .bare) .endless).scope.1.bindAll
        (Engine.new .bare (Facts.ofHost .bare) .endless).scope.2
        ((readingPass "word" []).bindings .default)).GoesOn := rfl
    -- Nothing more is asked of the engine, and its heap would be a large term.
    generalize Engine.new .bare (Facts.ofHost .bare) .endless = start at hgoes
    have hopen := openScope_ok (readingPass "word" []) .default start
    generalize start.scope.1.bindAll start.scope.2 ((readingPass "word" []).bindings .default) =
      opened at hopen hgoes
    generalize start.scope.2 = scope at hopen
    obtain ⟨hreference, -, hname⟩ :=
      parameter_denotes hopen rfl hname hword henv (fun _ => List.not_mem_nil) ⟨[], []⟩
    obtain ⟨fate, hfate, -, hlook⟩ := hreference freeReference_parameterItems
    have hkept : (ofParameter "_" (some "word")).fate? ⟨[], []⟩
        "(function(n) local a = n return a + _ end)(_)" 12 = some .kept :=
      fate?_reference freeReference_parameterItems ⟨[], []⟩
    obtain rfl := Option.some.inj (hfate.symm.trans hkept)
    have hstands : StandsFor "_" .kept (.global 0 "_") := .kept 0 rfl
    have hsees : Sees opened scope "_" (opened.loaded scope (.global 0 "_")).heap
        opened.programScope (.global 0 "_") := by
      refine ⟨?_, rfl, ?_⟩
      · intro l v key he
        cases he
        exact valueOf_loaded opened scope _
      · intro e' he
        cases he
    rw [hvalue] at hlook hname
    refine ⟨start, opened, scope, _, _, _, hopen, hstands, hsees, hlook _ hstands _ _ hsees, ?_⟩
    exact hname opened hgoes rfl (by rw [hliteral]; intro h; cases h)
  · have hsum : (parseProgram (Engine.programText "_ + 1")).toOption.isSome := by decide +kernel
    have hpatched : (parseProgram (Engine.programText
        ((ofParameter "_" (some "-3")).apply ⟨[], []⟩ "_ + 1"))).toOption.isSome := by
      decide +kernel
    have hfits : Fits (ofParameter "_" (some "-3")) ⟨[], []⟩ "_ + 1" := by
      unfold Fits
      decide +kernel
    obtain ⟨body, hbody⟩ := exists_ok hsum
    obtain ⟨body', hbody'⟩ := exists_ok hpatched
    obtain ⟨-, hfolds, -⟩ := parameter_denotes
      (openScope_ok (readingPass "-3" []) .default (Engine.new .bare (Facts.ofHost .bare) .endless))
      rfl hname hword henv (fun _ => List.not_mem_nil) ⟨[], []⟩
    exact ⟨body, body', hbody, hbody', hfolds (by simp [Plain]) hfits hbody hbody'⟩

theorem Engine.Evaluates.unique {source : String} {d d' : Datum}
    (h : engine.Evaluates scope source d) (h' : engine.Evaluates scope source d') : d = d' := by
  obtain ⟨program, loaded, hcompile, hrun⟩ := h
  obtain ⟨program', loaded', hcompile', hrun'⟩ := h'
  obtain ⟨rfl, rfl⟩ := Prod.mk.inj (Except.ok.inj (hcompile.symm.trans hcompile'))
  exact Except.ok.inj (hrun.symm.trans hrun')

/-- A name that the composed namespaces bind hides a parameter whose text is no literal. -/
theorem composed_name_hides_parameter : ¬ ∀ (pass : Pass) (text : String) (start opened : Engine)
    (scope : ScopeId), outcome (pass.openScope .default) start = (.ok scope, opened) →
    pass.parameter = some text → opened.GoesOn →
    opened.Evaluates scope ((ofParameter EvalOptions.default.parameterName pass.parameter).apply
      ⟨opened.hints, pass.shadowed .default⟩ EvalOptions.default.parameterName)
      (parameterDatum text) := by
  intro h
  have hopen : outcome ((readingPass "word" [("_", .str "from b")]).openScope .default)
      (Engine.new .bare (Facts.ofHost .bare) .endless) = (.ok _, _) := openScope_ok _ _ _
  have hgoes : ((Engine.new .bare (Facts.ofHost .bare) .endless).scope.1.bindAll
      (Engine.new .bare (Facts.ofHost .bare) .endless).scope.2
      ((readingPass "word" [("_", .str "from b")]).bindings .default)).GoesOn := rfl
  have hlast : Fields.last? "_" ((readingPass "word" [("_", .str "from b")]).bindings .default) =
      some (.str "from b") := rfl
  generalize Engine.new .bare (Facts.ofHost .bare) .endless = start at hopen hgoes
  have hfound := (hasScope_scope start).get_bindAll_str hlast
  have hword := h _ "word" _ _ _ hopen rfl hgoes
  have hsame : parameterDatum "word" = .ofString "from b" :=
    hword.unique (evaluates_found (p := ofParameter "_" (some "word")) (by decide) (by decide)
      (by decide) rfl _ hgoes hfound)
  have hvalue : parameterDatum "word" = .ofString "word" := rfl
  exact absurd (Heap.ofString_injective (hvalue.symm.trans hsame)) (by decide)

end EnvManifest
