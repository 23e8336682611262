import EnvManifest.Eval.Model
import EnvManifest.Proofs.Eval.Outcome

/-!
# What passes come to

A pass fails only by cancellation or with the error of one of its statements.
-/

namespace EnvManifest

/-! ## Running -/

/-- An engine with another patience. -/
def Engine.withPatience (engine : Engine) (patience : Patience) : Engine :=
  { engine with clock := { engine.clock with patience } }

/-- Work that changes its state and ends with a result. -/
theorem outcome_set_then {σ α : Type} (result : Except EvalError α) (s t : σ) :
    outcome (set t >>= fun _ =>
        match result with
        | .ok a => pure a
        | .error e => throw e : Work σ α) s = (result, t) := by
  rw [outcome_bind, outcome_set]
  cases result <;> rfl

theorem outcome_ofEvaluation {α : Type} (work : Evaluation α) (engine : Engine) :
    outcome (Passing.ofEvaluation work) engine =
      ((outcome work engine.clock.patience).1,
        engine.withPatience (outcome work engine.clock.patience).2) := by
  unfold Passing.ofEvaluation
  rw [outcome_bind, outcome_get]
  exact outcome_set_then (outcome work engine.clock.patience).1 engine
    (engine.withPatience (outcome work engine.clock.patience).2)

/-- The value of a statement in an engine, and the engine after it. -/
def Pass.valueOf (pass : Pass) (o : EvalOptions) (scope : ScopeId) (s : Statement)
    (engine : Engine) : Except EngineError Value × Engine :=
  let patch := Patch.ofParameter o.parameterName pass.parameter
  Pass.evaluate engine scope s.ident
    (patch.apply ⟨engine.hints, pass.shadowed o⟩ s.expression.source)

theorem outcome_modifyGet {σ α : Type} (f : σ → α × σ) (s : σ) :
    outcome (modifyGet f : Work σ α) s = (.ok (f s).1, (f s).2) := rfl

theorem runStatement_eq (pass : Pass) (o : EvalOptions) (scope : ScopeId) (s : Statement) :
    pass.runStatement o scope s = (do
      Passing.ofEvaluation Evaluation.goOn
      match ← modifyGet (pass.valueOf o scope s) with
      | .ok v => return v
      | .error e =>
        Passing.ofEvaluation Evaluation.goOn
        throw (Pass.expressionError pass.ns s e)) := rfl

/-! ## Errors -/

/-- In some pass of a namespace, the engine has an error in the place of a statement's value. -/
def Namespace.Fails (ns : Namespace) (o : EvalOptions) (s : Statement) (e : EngineError) : Prop :=
  ∃ (pass : Pass) (scope : ScopeId) (engine : Engine),
    pass.ns = ns ∧ (pass.valueOf o scope s engine).1 = .error e

/-- The errors of a namespace itself: a statement of it fails, or the work is cancelled. -/
def EvalError.OfNamespace (o : EvalOptions) (ns : Namespace) : EvalError → Prop
  | .cancelled => True
  | .expression x =>
    ∃ s ∈ ns.statements, ∃ e, ns.Fails o s e ∧ Pass.expressionError ns s e = .expression x
  | _ => False

theorem ends_ofEvaluation {α : Type} {work : Evaluation α} {good : α → Prop}
    {bad : EvalError → Prop} (h : Ends work good bad) : Ends (Passing.ofEvaluation work) good bad := by
  intro engine
  rw [outcome_ofEvaluation]
  exact h engine.clock.patience

theorem ends_modifyGet {σ α : Type} {bad : EvalError → Prop} (f : σ → α × σ) :
    Ends (modifyGet f : Work σ α) (fun a => ∃ s, a = (f s).1) bad :=
  fun s => ⟨s, rfl⟩

theorem runStatement_ends (pass : Pass) (o : EvalOptions) (scope : ScopeId) {s : Statement}
    (hs : s ∈ pass.ns.statements) :
    Ends (pass.runStatement o scope s) (fun _ => True) (EvalError.OfNamespace o pass.ns) := by
  have go : Ends (Passing.ofEvaluation Evaluation.goOn) (fun _ => True)
      (EvalError.OfNamespace o pass.ns) :=
    ends_ofEvaluation (goOn_ends.mono (fun _ h => h) fun _ h => h ▸ trivial)
  rw [runStatement_eq]
  refine go.bind fun _ _ => (ends_modifyGet _).bind fun result hr => ?_
  obtain ⟨engine, hr⟩ := hr
  split
  · exact ends_pure trivial
  next e => exact go.bind fun _ _ => ends_throw ⟨s, hs, e, ⟨pass, scope, engine, rfl, hr.symm⟩, rfl⟩

theorem run_ends (pass : Pass) (o : EvalOptions) :
    Ends (pass.run o) (fun _ => True) (EvalError.OfNamespace o pass.ns) := by
  unfold Pass.run
  have opened : Ends (pass.openScope o) (fun _ => True) (EvalError.OfNamespace o pass.ns) :=
    fun _ => trivial
  refine opened.bind fun scope _ => ?_
  refine (ends_foldlM (P := fun _ => True) _ (fun bound s hs => ?_) _).mono (fun _ _ => trivial)
    fun _ h => h
  exact (runStatement_ends pass o scope hs).bind fun _ _ => ends_pure trivial

/-- The work of the passes of a namespace. -/
def runPasses (o : EvalOptions) (ns : Namespace) (composed : Fields Value)
    (parameters : List Parameter) : Passing (Fields Value) :=
  (passes ns composed parameters).foldlM (fun bound pass => return Fields.union bound (← pass.run o))
    composed

theorem outcome_runNamespace (host : Host) (o : EvalOptions) (ns : Namespace)
    (composed : Environment) (arguments : List Parameter) (p : Patience) :
    let parameters := ns.parameters ++ composed.parameters ++ arguments
    let ran := outcome (runPasses o ns composed.vars parameters)
      (Engine.new host (Facts.ofHost host) p)
    outcome (runNamespace host o ns composed arguments) p =
      (ran.1.map fun vars => ⟨vars, parameters⟩, ran.2.clock.patience) := by
  intro parameters ran
  unfold runNamespace
  change outcome (get >>= fun _ => _) p = _
  rw [outcome_bind, outcome_get]
  change outcome (set ran.2.clock.patience >>= fun _ => _) p = _
  rw [outcome_bind, outcome_set]
  dsimp only
  split
  · rename_i vars h
    have result : ran.1 = .ok vars := h
    rw [result]
    rfl
  · rename_i e h
    have result : ran.1 = .error e := h
    rw [result]
    rfl

theorem ns_of_mem_passes {ns : Namespace} {composed : Fields Value} {parameters : List Parameter}
    {pass : Pass} (h : pass ∈ passes ns composed parameters) : pass.ns = ns := by
  obtain ⟨t, -, rfl⟩ := List.mem_map.mp h
  rfl

theorem runPasses_ends (o : EvalOptions) (ns : Namespace) (composed : Fields Value)
    (parameters : List Parameter) :
    Ends (runPasses o ns composed parameters) (fun _ => True) (EvalError.OfNamespace o ns) := by
  unfold runPasses
  refine (ends_foldlM (P := fun _ => True) _ (fun bound pass hp => ?_) _).mono
    (fun _ _ => trivial) fun _ h => h
  rw [← ns_of_mem_passes hp]
  exact (run_ends pass o).bind fun _ _ => ends_pure trivial

theorem runNamespace_ends (host : Host) (o : EvalOptions) (ns : Namespace) (composed : Environment)
    (arguments : List Parameter) :
    Ends (runNamespace host o ns composed arguments) (fun _ => True)
      (EvalError.OfNamespace o ns) := by
  intro p
  rw [outcome_runNamespace]
  cases hr : (outcome (runPasses o ns composed.vars (ns.parameters ++ composed.parameters ++ arguments))
      (Engine.new host (Facts.ofHost host) p)).1 with
  | ok vars => trivial
  | error e => exact (runPasses_ends o ns _ _).error hr

end EnvManifest
