import EnvManifest.Proofs.Eval.Isolation
import EnvManifest.Proofs.Eval.Scopes
import EnvManifest.Proofs.Patch.Names

/-!
# Variables that are read back

A statement that is the name of a variable has the value that was recorded for the variable, in the
same pass and in the namespaces that compose it.
-/

namespace EnvManifest

open Text Script Heap

/-! ## Statements that are names -/

/-- A datum that is read as a text without quotes keeps its text. -/
theorem unquoted_self {h : Heap} {around : List Nat} {fuel : Nat} {d : Datum} {v : Value}
    (hv : h.valueWithin around fuel d = .ok v)
    (hquoted : ∀ text, v = .str text → Literal.unquote? text = none) :
    (((Engine.text? d).bind Literal.unquote?).map Datum.ofString).getD d = d := by
  cases d with
  | str bs =>
    simp only [valueWithin] at hv
    cases hbs : decode? bs with
    | none =>
      rw [hbs] at hv
      cases hv
    | some cs =>
      rw [hbs] at hv
      obtain rfl := Except.ok.inj hv
      have htext : Engine.text? (.str bs) = some (String.ofList cs) := by
        unfold Engine.text?
        dsimp only
        rw [decodeLossy_of_decode? hbs]
      rw [htext, Option.bind_some, hquoted _ rfl]
      rfl
  | _ => rfl

variable {engine : Engine} {scope : ScopeId} {name : String} {d : Datum}

/-- A name that is read as a datum is an expression with that datum, which is bound to the variable
of the statement. -/
theorem evaluate_name (hg : engine.GoesOn) (hname : isVariableName name.toList)
    (hword : name ∉ keywords) (henv : name ≠ environmentName)
    (hd : (engine.heap.table scope).get (.ofString name) = d)
    (hnil : d = .nil → engine.Unknown scope name)
    (hself : (((Engine.text? d).bind Literal.unquote?).map Datum.ofString).getD d = d)
    (other : String) :
    ∃ after : Engine, Pass.evaluate engine scope other name = (after.toValue d, after) ∧
      after.heap.tables = (engine.heap.setTable scope (.ofString other) d).tables := by
  obtain ⟨l, hprogram⟩ := parse_name (lexes_variable hname hword) henv
  have hlook := look_name hd hnil (.global l name) l
  obtain ⟨c, hrun⟩ := run_loaded hg scope rfl (Nat.le_of_ble_eq_true rfl) hlook
  unfold Pass.evaluate
  rw [compile_give scope hprogram]
  dsimp only
  rw [hrun]
  dsimp only
  rw [hself]
  exact ⟨_, rfl, rfl⟩

/-! ## Statements -/

theorem goesOn_of_endless (hp : engine.clock.patience = .endless) : engine.GoesOn := by
  unfold Engine.GoesOn
  rw [hp, Patience.ask_endless]

variable {pass : Pass} {o : EvalOptions} {s t : Statement} {v : Value} {after : Engine}

/-- Where nobody cancels, a statement comes to the value of its expression. -/
theorem outcome_runStatement_ok (hp : engine.clock.patience = .endless) :
    outcome (pass.runStatement o scope s) engine = (.ok v, after) ↔
      pass.valueOf o scope s engine = (.ok v, after) := by
  rw [runStatement_eq, outcome_bind_ok (goOn_endless hp), outcome_bind, outcome_modifyGet]
  rcases pass.valueOf o scope s engine with ⟨_ | w, there⟩
  · constructor
    · intro h
      dsimp only at h
      rw [outcome_bind] at h
      rcases hgo : outcome (Passing.ofEvaluation Evaluation.goOn) there with ⟨_ | _, there'⟩
      · rw [hgo] at h
        cases h
      · rw [hgo] at h
        cases h
    · intro h
      cases h
  · dsimp only
    rw [outcome_pure]
    simp only [Prod.mk.injEq, Except.ok.injEq]

/-- A statement with a value has bound its variable to a datum of that value. -/
theorem bound_of_valueOf (h : pass.valueOf o scope s engine = (.ok v, after)) :
    ∃ d before, after = Engine.bindDatum before scope s.ident d ∧ after.heap.toValue d = .ok v := by
  rw [valueOf_eq] at h
  split at h
  · cases h
  · generalize ((Engine.load _ scope engine).2.run (Engine.load _ scope engine).1) = ran at h
    obtain ⟨result, before⟩ := ran
    cases result with
    | error e => cases h
    | ok d =>
      unfold Engine.keep at h
      dsimp only at h
      obtain ⟨hvalue, rfl⟩ := Prod.mk.inj h
      refine ⟨_, before, rfl, ?_⟩
      unfold Engine.toValue at hvalue
      cases hd : (Engine.bindDatum before scope s.ident _).heap.toValue _ with
      | error e =>
        rw [hd] at hvalue
        cases hvalue
      | ok w =>
        rw [hd] at hvalue
        exact congrArg Except.ok (Except.ok.inj hvalue)

/-- The source of a statement that is the name of another variable stays that name. -/
theorem valueOf_name (hname : isVariableName name.toList) (hword : name ∉ keywords)
    (hparameter : name ≠ o.parameterName) (hhidden : name ∈ pass.shadowed o)
    (ht : t.expression.source = name) :
    pass.valueOf o scope t engine = Pass.evaluate engine scope t.ident name := by
  unfold Pass.valueOf
  dsimp only
  rw [ht, Patch.apply_hidden hname hword hparameter hhidden]

/-! ## The same pass -/

/-- A scope in which a name can be read back. -/
structure Engine.ReadsBack (engine : Engine) (scope : ScopeId) (name : String) : Prop where
  known : scope < engine.heap.tables.size
  /-- The scope is no list. -/
  fields : engine.heap.isList scope = false
  /-- A name that the scope does not have is not known beyond it. -/
  found : (engine.heap.table scope).get (.ofString name) = .nil → engine.Unknown scope name

theorem get_bindDatum (before : Engine) (name : String) (d : Datum)
    (hknown : scope < (before.bindDatum scope name d).heap.tables.size) :
    ((before.bindDatum scope name d).heap.table scope).get (.ofString name) = d := by
  have hsize := size_setTable before.heap scope (.ofString name) d
  unfold Engine.bindDatum at hknown ⊢
  dsimp only at hknown ⊢
  rw [table_setTable_self (hsize ▸ hknown), Datum.ofString, Table.get_set_str]

/-- A heap with the tables of another one in which the scope has changed. -/
theorem tables_of_set {h h' : Heap} {key d : Datum}
    (ht : h'.tables = (h.setTable scope key d).tables) :
    h'.tables.size = h.tables.size ∧ ∀ id, id ≠ scope → h'.table id = h.table id := by
  refine ⟨by rw [ht, size_setTable], ?_⟩
  intro id hne
  have hother := table_setTable_of_ne (h := h) hne key d
  unfold Heap.table at hother ⊢
  rwa [ht]

/-- A statement that follows in the same pass reads the variable. -/
theorem following_reads (hname : isVariableName s.ident.toList) (hword : s.ident ∉ keywords)
    (henv : s.ident ≠ environmentName) (hparameter : s.ident ≠ o.parameterName)
    (hquoted : ∀ text, v = .str text → Literal.unquote? text = none)
    (hp : engine.clock.patience = .endless)
    (hs : outcome (pass.runStatement o scope s) engine = (.ok v, after))
    (hmem : s ∈ pass.ns.statements) (hscope : after.ReadsBack scope s.ident)
    (ht : t.expression.source = s.ident) :
    (outcome (pass.runStatement o scope t) after).1 = .ok v := by
  have hendless : after.clock.patience = .endless := by
    have hafter := ((patient_runStatement pass o scope s).endless engine hp).1
    rwa [hs] at hafter
  obtain ⟨d, before, hbound, hvalue⟩ := bound_of_valueOf ((outcome_runStatement_ok hp).1 hs)
  have hd : (after.heap.table scope).get (.ofString s.ident) = d := by
    have hknown := hscope.known
    rw [hbound] at hknown ⊢
    exact get_bindDatum before s.ident d hknown
  have hhidden : s.ident ∈ pass.shadowed o := by
    unfold Pass.shadowed
    simp only [List.mem_append, List.mem_map]
    exact .inl (.inr ⟨s, hmem, rfl⟩)
  obtain ⟨last, heval, htables⟩ := evaluate_name (goesOn_of_endless hendless) hname hword henv hd
    (fun hn => hscope.found (hd.trans hn)) (unquoted_self hvalue hquoted) t.ident
  have hread : last.heap.toValue d = .ok v := by
    obtain ⟨hsize, hsame⟩ := tables_of_set htables
    -- A table that the scope names was read without coming to the scope, which would be a cycle.
    have hpairs : ∀ own, d = .table own →
        (.ofString s.ident, d) ∈ (after.heap.table scope).pairs := by
      intro own hown
      exact Table.mem_pairs hd (by rw [hown]; rfl)
    exact toValue_beside hsize hsame hscope.fields hpairs hvalue
  have hvalueOf : pass.valueOf o scope t after = (.ok v, last) := by
    rw [valueOf_name hname hword hparameter hhidden ht, heval]
    unfold Engine.toValue
    rw [hread]
    rfl
  rw [(outcome_runStatement_ok hendless).2 hvalueOf]

/-! ## Composing namespaces -/

theorem last?_bindings (o : EvalOptions) (hsorted : Fields.Sorted pass.composed)
    (hv : pass.composed.get? name = some v) : Fields.last? name (pass.bindings o) = some v := by
  unfold Pass.bindings
  rw [← List.cons_append, Fields.last?_append, Fields.last?_of_sorted hsorted, hv]
  rfl

/-- The first statement of a namespace reads what the composed namespaces bind. -/
theorem composing_reads (hname : isVariableName name.toList) (hword : name ∉ keywords)
    (henv : name ≠ environmentName) (hparameter : name ≠ o.parameterName)
    (hquoted : ∀ text, v = .str text → Literal.unquote? text = none)
    (hp : engine.clock.patience = .endless) (hsorted : Fields.Sorted pass.composed)
    (hv : pass.composed.get? name = some v) (hproper : v.Proper) (hwhole : v.Whole)
    (hnull : v = .null → engine.Lacks name) (ht : t.expression.source = name) :
    (outcome (pass.openScope o >>= fun scope => pass.runStatement o scope t) engine).1 = .ok v := by
  have hendless := ((patient_openScope pass o).endless engine hp).1
  rw [openScope_eq, outcome_modifyGet] at hendless
  rw [openScope_eq, outcome_bind, outcome_modifyGet]
  dsimp only at hendless ⊢
  have hstores := (hasScope_scope engine).bindAll_stores (last?_bindings o hsorted hv) hproper hwhole
  have hunknown : v = .null →
      (engine.scope.1.bindAll engine.scope.2 (pass.bindings o)).Unknown engine.scope.2 name :=
    fun hn => (hnull hn).unknown (pass.bindings o)
  generalize engine.scope.1.bindAll engine.scope.2 (pass.bindings o) = opened at *
  obtain ⟨d, hd, hnil, hread⟩ := hstores.read
  -- A name that is composed is never replaced, so that the engine sees the name itself.
  have hhidden : name ∈ pass.shadowed o := by
    unfold Pass.shadowed
    simp only [List.mem_append]
    exact .inl (.inl (Fields.mem_keys_iff.2 ⟨v, hv⟩))
  obtain ⟨last, heval, htables⟩ := evaluate_name (goesOn_of_endless hendless) hname hword henv hd
    (fun hn => hunknown (hnil hn)) (unquoted_self (hread opened.heap (.refl _)) hquoted) t.ident
  have hvalueOf : pass.valueOf o engine.scope.2 t opened = (.ok v, last) := by
    obtain ⟨hsize, hsame⟩ := tables_of_set htables
    rw [valueOf_name hname hword hparameter hhidden ht, heval]
    unfold Engine.toValue
    rw [hread last.heap ⟨Nat.le_of_eq hsize.symm, fun id _ hne => hsame id hne⟩]
    rfl
  rw [(outcome_runStatement_ok hendless).2 hvalueOf]

/-! ## Both -/

/-- A whole number, if the result is one. -/
def whole? : Except EvalError Value → Option Int
  | .ok (.int n) => some n
  | _ => none

theorem eq_of_whole? {r : Except EvalError Value} {n : Int} (h : whole? r = some n) :
    r = .ok (.int n) := by
  unfold whole? at h
  split at h
  · rw [Option.some.inj h]
  · cases h

/-- The only pass of a text with two statements, after the first of them. -/
def afterFirst (text : String)
    (p : Pass → Statement → Statement → ScopeId → Engine → Except EvalError Value → Engine → Bool) :
    Bool :=
  (passesOf? text).any fun (ns, ps) =>
    match ps, ns.statements with
    | [pass], [s, t] =>
      match outcome (pass.openScope .default) (Engine.fresh .bare) with
      | (.ok scope, opened) =>
        let ran := outcome (pass.runStatement .default scope s) opened
        decide (pass.ns.statements = [s, t]) && p pass s t scope opened ran.1 ran.2
      | _ => false
    | _, _ => false

theorem exists_afterFirst {text : String}
    {p : Pass → Statement → Statement → ScopeId → Engine → Except EvalError Value → Engine → Bool}
    (h : afterFirst text p = true) : ∃ pass s t scope opened r after,
      pass.ns.statements = [s, t] ∧ opened.clock.patience = .endless ∧
        outcome (pass.runStatement .default scope s) opened = (r, after) ∧
        p pass s t scope opened r after = true := by
  obtain ⟨ns, h⟩ := exists_passes h
  dsimp only at h
  split at h
  · rename_i pass s t _ _
    split at h
    · rename_i scope opened hopened
      rw [Bool.and_eq_true, decide_eq_true_eq] at h
      have hendless := ((patient_openScope pass .default).endless (Engine.fresh .bare) rfl).1
      rw [hopened] at hendless
      exact ⟨pass, s, t, scope, opened, _, _, h.1, hendless, rfl, h.2⟩
    · cases h
  · cases h

/-- A number in a variable, and the variable in another one. -/
theorem number_values : afterFirst "a \x7b x = 1; y = x \x7d" fun _ s t scope _ r after =>
    isVariableName s.ident.toList && s.ident == "x" && t.expression.source == "x" &&
      whole? r == some 1 && scope < after.heap.tables.size && !after.heap.isList scope &&
      !((after.heap.table scope).get (.ofString s.ident)).isNil := by decide +kernel

/-- A reserved word that is a variable. -/
theorem keyword_values : afterFirst "a \x7b end = 1; y = end \x7d" fun pass s t scope _ r after =>
    isVariableName s.ident.toList && s.ident == "end" && t.expression.source == "end" &&
      whole? r == some 1 &&
      whole? (outcome (pass.runStatement .default scope t) after).1 == none := by decide +kernel

end EnvManifest
