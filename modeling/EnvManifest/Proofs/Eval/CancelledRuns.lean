import EnvManifest.Proofs.Eval.Interruption
import EnvManifest.Proofs.Eval.Parallel

/-!
# Cancelled evaluations

An evaluation that asks its composites one after another is cancelled, or it comes to the same as
one that is never cancelled, unless one of its statements has caught the cancellation.
-/

namespace EnvManifest

open Patiently

/-! ## Statements that are executed -/

/-- A pass that starts in an engine executes a statement in another one. -/
def Pass.Executes (pass : Pass) (o : EvalOptions) (engine : Engine) (scope : ScopeId)
    (s : Statement) (there : Engine) : Prop :=
  ∃ opened bound, outcome (pass.openScope o) engine = (.ok scope, opened) ∧
    Comes (fun (bound : Fields Value) s => return bound.insert s.ident (← pass.runStatement o scope s))
      pass.ns.statements [] opened bound s there

/-- A namespace that starts with a patience executes a statement in an engine. -/
def Namespace.Executes (ns : Namespace) (host : Host) (o : EvalOptions) (composed : Environment)
    (arguments : List Parameter) (p : Patience) (pass : Pass) (scope : ScopeId) (s : Statement)
    (there : Engine) : Prop :=
  ∃ bound engine,
    Comes (fun bound pass => return Fields.union bound (← pass.run o))
      (passes ns composed.vars (ns.parameters ++ composed.parameters ++ arguments)) composed.vars
      (Engine.new host (Facts.ofHost host) p) bound pass engine ∧
    pass.Executes o engine scope s there

/-- One composite after those before it. -/
def mergeTask (task : Task) (place : Place) (env : Environment) (t : Composite × Nat) :
    Evaluation Environment :=
  return env.merge (← task (place ++ [t.2]) t.1)

/-- One definition of a reference after those before it. -/
def mergeDefinition (e : Evaluator) (task : Task) (place : Place) (c : Composite)
    (env : Environment) (t : Namespace × Nat) : Evaluation Environment :=
  return env.merge (← evalDefinition e task place c t)

/-- An evaluation of a reference that starts with a patience executes a statement in an engine: one
of its definitions does, or one of their composites. -/
inductive Evaluator.Executes (e : Evaluator) : List String → Place → Composite → Patience →
    Pass → ScopeId → Statement → Engine → Prop where
  | own {chain place c p env t q composed r pass scope s there} (asked : p.ask.1 = false)
      (fresh : c.ident ∉ chain)
      (definition : Comes (mergeDefinition e (evalComposite e (chain ++ [c.ident])) place c)
        (e.ast.lookup c.ident).zipIdx .empty p.ask.2 env t q)
      (composes : outcome (evalMany e.host e.options e.schedule
        (evalComposite e (chain ++ [c.ident])) (place ++ [t.2]) t.1.composites) q =
          (.ok composed, r))
      (executes : t.1.Executes e.host e.options composed c.arguments r pass scope s there) :
      Executes e chain place c p pass scope s there
  | composed {chain place c p env t q env' d r pass scope s there} (asked : p.ask.1 = false)
      (fresh : c.ident ∉ chain)
      (definition : Comes (mergeDefinition e (evalComposite e (chain ++ [c.ident])) place c)
        (e.ast.lookup c.ident).zipIdx .empty p.ask.2 env t q)
      (composite : Comes (mergeTask (evalComposite e (chain ++ [c.ident])) (place ++ [t.2]))
        t.1.composites.zipIdx .empty q env' d r)
      (executes : Executes e (chain ++ [c.ident]) (place ++ [t.2] ++ [d.2]) d.1 r pass scope s there) :
      Executes e chain place c p pass scope s there

/-- In an evaluation of requested names that starts with a patience, a statement catches its
cancellation. -/
def Model.CatchesCancellation (m : Model) (host : Host) (schedule : Schedule) (o : EvalOptions)
    (p : Patience) (names : List String) : Prop :=
  let e : Evaluator := ⟨host, m.ast, o, schedule⟩
  ∃ env c q pass scope s there,
    Comes (mergeTask (evalComposite e []) []) (names.map Composite.named).zipIdx .empty p env c q ∧
    e.Executes [] ([] ++ [c.2]) c.1 q pass scope s there ∧
    pass.CatchesCancellation o scope s there

/-! ## Passes -/

theorem faithful_openScope (pass : Pass) (o : EvalOptions) (engine : Engine) :
    Faithful (pass.openScope o) engine := by
  intro q hq
  refine .inr ⟨q, ?_, ?_⟩
  · exact Patience.le_trans ((patient_openScope pass o).spends engine) hq
  · rw [openScope_eq, outcome_modifyGet, outcome_modifyGet, scope_withPatience, bindAll_withPatience]

theorem faithful_run {pass : Pass} {o : EvalOptions} {engine : Engine}
    (h : ∀ scope s there, pass.Executes o engine scope s there →
      ¬ pass.CatchesCancellation o scope s there) : Faithful (pass.run o) engine := by
  unfold Pass.run
  refine (faithful_openScope pass o engine).bind fun scope opened hopened => ?_
  refine faithful_foldlM fun bound s there hs => ?_
  refine (faithful_runStatement (h scope s there ⟨opened, bound, hopened, hs⟩)).bind fun v t _ => ?_
  exact faithful_pure _ t

theorem faithful_runPasses {host : Host} {o : EvalOptions} {ns : Namespace}
    {composed : Environment} {arguments : List Parameter} {p : Patience}
    (h : ∀ pass scope s there, ns.Executes host o composed arguments p pass scope s there →
      ¬ pass.CatchesCancellation o scope s there) :
    Faithful (runPasses o ns composed.vars (ns.parameters ++ composed.parameters ++ arguments))
      (Engine.new host (Facts.ofHost host) p) := by
  unfold runPasses
  refine faithful_foldlM fun bound pass engine hpass => ?_
  refine (faithful_run fun scope s there hs => ?_).bind fun v t _ => faithful_pure _ t
  exact h pass scope s there ⟨bound, engine, hpass, hs⟩

theorem faithful_runNamespace {host : Host} {o : EvalOptions} {ns : Namespace}
    {composed : Environment} {arguments : List Parameter} {p : Patience}
    (h : ∀ pass scope s there, ns.Executes host o composed arguments p pass scope s there →
      ¬ pass.CatchesCancellation o scope s there) :
    Faithful (runNamespace host o ns composed arguments) p := by
  intro q hq
  rw [outcome_runNamespace]
  have start : withPatience (Engine.new host (Facts.ofHost host) p) q =
      Engine.new host (Facts.ofHost host) q := rfl
  obtain stopped | ⟨q', hq', same⟩ := faithful_runPasses h q hq
  · rw [stopped]
    exact .inl rfl
  · refine .inr ⟨q', hq', ?_⟩
    change outcome (runNamespace host o ns composed arguments) q = _
    rw [outcome_runNamespace, ← start, same]
    rfl

/-! ## References -/

theorem faithful_evalComposite {e : Evaluator} (serial : e.options.Serial e.host)
    (chain : List String) : ∀ place c p,
      (∀ pass scope s there, e.Executes chain place c p pass scope s there →
        ¬ pass.CatchesCancellation e.options scope s there) →
      Faithful (evalComposite e chain place c) p := by
  induction chain using chain_induction e.ast with
  | step chain ih =>
    intro place c p h
    rw [evalComposite_eq, evalReference]
    refine (asks_goOn.faithful p).bind fun _ asked hasked => ?_
    rw [asks_goOn p] at hasked
    have no : p.ask.1 = false := by
      cases yes : p.ask.1 with
      | false => rfl
      | true =>
        change (if p.ask.1 then _ else _, _) = _ at hasked
        rw [yes] at hasked
        cases hasked
    obtain rfl : p.ask.2 = asked := congrArg Prod.snd hasked
    split
    next again => exact faithful_throw _ _
    next fresh =>
    split
    next undefined =>
      split
      · exact faithful_throw _ _
      · exact faithful_pure _ _
    next defined =>
    split
    · exact faithful_throw _ _
    · refine faithful_foldlM fun env t q ht => ?_
      refine Faithful.bind ?_ fun env' r _ => faithful_pure _ r
      refine Faithful.bind ?_ fun composed r hr => ?_
      · rw [evalMany_of_serial serial]
        refine faithful_foldlM fun env' d r hd => ?_
        refine Faithful.bind ?_ fun env' r _ => faithful_pure _ r
        refine ih c.ident fresh defined _ d.1 r fun pass scope s there hs => ?_
        exact h pass scope s there (.composed no fresh ht hd hs)
      · exact faithful_runNamespace fun pass scope s there hs =>
          h pass scope s there (.own no fresh ht hr hs)

/-- A truth value, if it is the only variable. -/
def truth? : Except EvalError (Fields Value) → Option Bool
  | .ok [(_, .bool b)] => some b
  | _ => none

/-- A loop of more than a thousand steps that is called so that errors are caught. -/
def caughtText : String := "a \x7b x = pcall(function() for i = 1, 500 do end end) \x7d"

/-- The evaluation ends with another value if its third question, which the loop asks, is answered
with yes. -/
theorem caughtText_values : (Model.ofText caughtText).toOption.any fun m =>
    truth? (m.eval .bare .calm EvalOptions.default.serial ⟨some 2⟩ ["a"]) = some false ∧
    truth? (m.eval .bare .calm EvalOptions.default.serial .endless ["a"]) = some true := by decide +kernel

end EnvManifest
