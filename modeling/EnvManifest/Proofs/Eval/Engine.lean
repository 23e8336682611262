import EnvManifest.Proofs.Eval.Steady

/-!
# Engines with more patience

A machine asks after every thousand steps. With more patience it takes the same steps, so a
statement and a namespace come to the same.
-/

namespace EnvManifest

open Patiently

/-! ## Clocks -/

instance : Patiently Clock :=
  ⟨Clock.patience, fun c q => { c with patience := q }, fun _ _ => rfl, fun _ _ _ => rfl⟩

theorem tick_le (c : Clock) : c.tick.2.patience ≤ c.patience := by
  unfold Clock.tick
  split
  · exact Patience.le_refl _
  · exact Patience.ask_le _

theorem tick_yes {c : Clock} (h : c.tick.1 = true) : c.tick.2.patience = .exhausted := by
  unfold Clock.tick at h ⊢
  split at h
  · cases h
  next late =>
    rw [if_neg late]
    change c.patience.ask.2 = .exhausted
    rw [Patience.ask_yes h, Patience.ask_exhausted]

theorem tick_no {c : Clock} {q : Patience} (h : c.tick.1 = false) (hq : c.patience ≤ q) :
    ∃ q', c.tick.2.patience ≤ q' ∧
      (withPatience c q).tick = (false, withPatience c.tick.2 q') := by
  unfold Clock.tick at h ⊢
  split at h
  next early =>
    rw [if_pos early]
    exact ⟨q, hq, if_pos early⟩
  next late =>
    obtain ⟨no, le⟩ := Patience.ask_no h hq
    rw [if_neg late]
    refine ⟨q.ask.2, le, (if_neg late).trans ?_⟩
    change (q.ask.1, _) = _
    rw [no]
    rfl

theorem tick_endless {c : Clock} (h : c.patience = .endless) :
    c.tick.1 = false ∧ c.tick.2.patience = .endless := by
  unfold Clock.tick
  split
  · exact ⟨rfl, h⟩
  · rw [h, Patience.ask_endless]
    exact ⟨rfl, rfl⟩

/-! ## Machines -/

section

open Script

theorem steps_le (host : Host) (fuel : Nat) (c : Clock) (m : Machine) :
    (Engine.steps host fuel c m).1.patience ≤ c.patience := by
  induction fuel generalizing c m with
  | zero => exact Patience.le_refl _
  | succ fuel ih =>
    rw [Engine.steps]
    have tick := tick_le c
    split
    · exact Patience.le_refl _
    · split
      next h =>
        rw [h] at tick
        exact Patience.le_trans (ih ..) tick
      next h =>
        rw [h] at tick
        exact Patience.le_trans (ih ..) tick

/-- A machine takes the same steps with more patience, unless it uses up what it has. -/
theorem steps_same (host : Host) (fuel : Nat) (c : Clock) (m : Machine) {q : Patience}
    (hq : c.patience ≤ q) :
    (Engine.steps host fuel c m).1.patience = .exhausted ∨
    ∃ q', (Engine.steps host fuel c m).1.patience ≤ q' ∧
      Engine.steps host fuel (withPatience c q) m =
        (withPatience (Engine.steps host fuel c m).1 q', (Engine.steps host fuel c m).2) := by
  induction fuel generalizing c m q with
  | zero => exact .inr ⟨q, hq, rfl⟩
  | succ fuel ih =>
    rw [Engine.steps, Engine.steps]
    cases m.outcome? with
    | some _ => exact .inr ⟨q, hq, rfl⟩
    | none =>
      rcases ht : c.tick with ⟨_ | _, c'⟩
      · obtain ⟨q', hq', same⟩ := tick_no (by rw [ht]) hq
        rw [ht] at hq' same
        rw [same]
        exact ih c' _ hq'
      · have used := tick_yes (c := c) (by rw [ht])
        rw [ht] at used
        exact .inl (Patience.eq_exhausted (used ▸ steps_le ..))

theorem steps_endless (host : Host) (fuel : Nat) (c : Clock) (m : Machine)
    (h : c.patience = .endless) : (Engine.steps host fuel c m).1.patience = .endless := by
  induction fuel generalizing c m with
  | zero => exact h
  | succ fuel ih =>
    rw [Engine.steps]
    split
    · exact h
    · obtain ⟨no, endless⟩ := tick_endless h
      split
      next ht =>
        rw [ht] at endless
        exact ih _ _ endless
      next ht =>
        rw [ht] at no
        cases no

end

/-! ## Engines -/

/-- What a machine that has stopped gives back. -/
def Engine.resultOf (m : Script.Machine) : Except EngineError Script.Datum :=
  match m.outcome? with
  | some (.ok values) => .ok (Script.first values)
  | some (.error e) => .error (.error e)
  | none => .error .endless

theorem run_eq (engine : Engine) (program : Program) :
    let ran := Engine.steps engine.host Engine.maxSteps engine.clock
      (Script.Machine.start engine.heap program)
    engine.run program =
      (Engine.resultOf ran.2, { engine with heap := ran.2.heap, clock := ran.1 }) := rfl

/-- An engine after some of its own work, which goes the same way with more patience unless it uses
up what it has. -/
structure SteadyStep {α : Type} (f : Engine → α × Engine) : Prop where
  spends : ∀ engine, patience (f engine).2 ≤ patience engine
  same : ∀ engine q, patience engine ≤ q →
    patience (f engine).2 = .exhausted ∨
    ∃ q', patience (f engine).2 ≤ q' ∧
      f (withPatience engine q) = ((f engine).1, withPatience (f engine).2 q')
  endless : ∀ engine, patience engine = .endless → patience (f engine).2 = .endless

theorem steadyStep_run (program : Program) : SteadyStep fun engine => engine.run program where
  spends engine := by
    rw [run_eq]
    exact steps_le ..
  same engine q hq := by
    rw [run_eq, run_eq]
    rcases steps_same engine.host Engine.maxSteps engine.clock
      (Script.Machine.start engine.heap program) hq with used | ⟨q', hq', same⟩
    · exact .inl used
    · refine .inr ⟨q', hq', ?_⟩
      change (Engine.resultOf (Engine.steps engine.host Engine.maxSteps
        (withPatience engine.clock q) (Script.Machine.start engine.heap program)).2,
        ({ engine with
          heap := (Engine.steps engine.host Engine.maxSteps (withPatience engine.clock q)
            (Script.Machine.start engine.heap program)).2.heap,
          clock := (Engine.steps engine.host Engine.maxSteps (withPatience engine.clock q)
            (Script.Machine.start engine.heap program)).1 } : Engine)) = _
      rw [same]
      rfl
  endless engine h := by
    rw [run_eq]
    exact steps_endless _ _ _ _ h

theorem steadyStep_of_untimed {α : Type} {f : Engine → α × Engine}
    (h : ∀ engine q, f (withPatience engine q) = ((f engine).1, withPatience (f engine).2 q)) :
    SteadyStep f := by
  have kept engine : patience (f engine).2 = patience engine := by
    have same := h engine (patience engine)
    have self : withPatience engine (patience engine) = engine := rfl
    rw [self] at same
    exact (congrArg (fun r => patience r.2) same).trans (patience_with ..)
  refine ⟨fun engine => kept engine ▸ Patience.le_refl _, fun engine q hq => ?_, fun engine he => ?_⟩
  · exact .inr ⟨q, kept engine ▸ hq, h engine q⟩
  · rw [kept, he]

theorem SteadyStep.comp {α β : Type} {f : Engine → α × Engine} {g : α → Engine → β × Engine}
    (hf : SteadyStep f) (hg : ∀ a, SteadyStep (g a)) :
    SteadyStep fun engine => g (f engine).1 (f engine).2 where
  spends engine := Patience.le_trans ((hg _).spends _) (hf.spends engine)
  same engine q hq := by
    obtain used | ⟨q', hq', same⟩ := hf.same engine q hq
    · exact .inl (Patience.eq_exhausted (used ▸ (hg _).spends _))
    · rw [same]
      exact (hg _).same _ q' hq'
  endless engine h := (hg _).endless _ (hf.endless engine h)

/-! ## Statements -/

/-- The program of an expression, loaded into an engine. -/
def Engine.load (body : Script.FunctionBody) (scope : ScopeId) (engine : Engine) :
    Program × Engine :=
  let (h, f) := engine.heap.newProgram EngineError.chunk body (.table scope)
  (f, { engine with heap := h })

/-- The value of what an expression came to, bound to a name. -/
def Engine.keep (scope : ScopeId) (name : String) (result : Except EngineError Script.Datum)
    (engine : Engine) : Except EngineError Value × Engine :=
  match result with
  | .error e => (.error e, engine)
  | .ok d =>
    let d := (((Engine.text? d).bind Literal.unquote?).map Script.Datum.ofString).getD d
    let engine := engine.bindDatum scope name d
    (engine.toValue d, engine)

theorem compile_eq (engine : Engine) (source : String) (scope : ScopeId) :
    engine.compile source scope =
      match Script.parseProgram (Engine.programText source) with
      | .error fault => .error (.malformed fault)
      | .ok body => .ok (Engine.load body scope engine) := rfl

/-- The value of an expression, bound to a name, with any way to run programs. The way in which they
are run is left open so that nothing counts the steps of a run. -/
def Pass.evaluateWith (run : Engine → Program → Except EngineError Script.Datum × Engine)
    (engine : Engine) (scope : ScopeId) (name source : String) :
    Except EngineError Value × Engine :=
  match engine.compile source scope with
  | .error e => (.error e, engine)
  | .ok (program, engine) =>
    match run engine program with
    | (.error e, engine) => (.error e, engine)
    | (.ok d, engine) =>
      let d := (((Engine.text? d).bind Literal.unquote?).map Script.Datum.ofString).getD d
      let engine := engine.bindDatum scope name d
      (engine.toValue d, engine)

theorem evaluate_eq (engine : Engine) (scope : ScopeId) (name source : String) :
    Pass.evaluate engine scope name source =
      Pass.evaluateWith Engine.run engine scope name source := rfl

theorem evaluateWith_eq (run : Engine → Program → Except EngineError Script.Datum × Engine)
    (engine : Engine) (scope : ScopeId) (name source : String) :
    Pass.evaluateWith run engine scope name source =
      match Script.parseProgram (Engine.programText source) with
      | .error fault => (.error (.malformed fault), engine)
      | .ok body =>
        let ran := run (Engine.load body scope engine).2 (Engine.load body scope engine).1
        Engine.keep scope name ran.1 ran.2 := by
  unfold Pass.evaluateWith
  rw [compile_eq]
  cases Script.parseProgram (Engine.programText source) with
  | error fault => rfl
  | ok body =>
    dsimp only
    generalize run (Engine.load body scope engine).2 (Engine.load body scope engine).1 = ran
    rcases ran with ⟨_ | d, ran⟩ <;> rfl

theorem steadyStep_keep (scope : ScopeId) (name : String)
    (result : Except EngineError Script.Datum) : SteadyStep (Engine.keep scope name result) := by
  refine steadyStep_of_untimed fun engine q => ?_
  cases result <;> rfl

theorem steadyStep_evaluate (scope : ScopeId) (name source : String) :
    SteadyStep fun engine => Pass.evaluate engine scope name source := by
  simp only [evaluate_eq, evaluateWith_eq]
  cases Script.parseProgram (Engine.programText source) with
  | error fault => exact steadyStep_of_untimed fun _ _ => rfl
  | ok body =>
    have loads : SteadyStep (Engine.load body scope) := steadyStep_of_untimed fun _ _ => rfl
    have runs : SteadyStep fun engine =>
        (Engine.load body scope engine).2.run (Engine.load body scope engine).1 :=
      loads.comp fun program => steadyStep_run program
    exact runs.comp fun result => steadyStep_keep scope name result

theorem steadyStep_hints {α : Type} {f : List Hint → Engine → α × Engine}
    (hf : ∀ hints, SteadyStep (f hints)) : SteadyStep fun engine => f engine.hints engine where
  spends engine := (hf engine.hints).spends engine
  same engine := (hf engine.hints).same engine
  endless engine := (hf engine.hints).endless engine

theorem SteadyStep.patient {α : Type} {f : Engine → α × Engine} (hf : SteadyStep f) :
    Patient (modifyGet f : Passing α) := by
  refine ⟨⟨fun engine => ?_, fun engine q hq => ?_, fun engine he => ?_⟩, fun engine _ => ?_⟩
  · exact hf.spends engine
  · obtain used | ⟨q', hq', same⟩ := hf.same engine q hq
    · exact .inl ⟨used, not_genuine_ok⟩
    · refine .inr ⟨q', hq', ?_⟩
      rw [outcome_modifyGet, outcome_modifyGet, same]
  · exact ⟨hf.endless engine he, nofun⟩
  · exact not_genuine_ok

theorem patient_runStatement (pass : Pass) (o : EvalOptions) (scope : ScopeId) (s : Statement) :
    Patient (pass.runStatement o scope s) := by
  have value : SteadyStep (pass.valueOf o scope s) :=
    steadyStep_hints fun hints => steadyStep_evaluate scope s.ident
      ((Patch.ofParameter o.parameterName pass.parameter).apply ⟨hints, pass.shadowed o⟩
        s.expression.source)
  rw [runStatement_eq]
  refine asks_ofEvaluation.bind (value.patient.toSteady.bind fun result => ?_)
  split
  · exact patient_pure _
  · exact asks_ofEvaluation.bind (steady_throw nofun)

/-! ## Namespaces -/

theorem scope_withPatience (engine : Engine) (q : Patience) :
    (withPatience engine q).scope = (withPatience engine.scope.1 q, engine.scope.2) := rfl

def Engine.bindAll (scope : ScopeId) (bindings : List (String × Value)) (engine : Engine) : Engine :=
  bindings.foldl (fun engine b => engine.bind scope b.1 b.2) engine

theorem bindAll_withPatience (scope : ScopeId) (bindings : List (String × Value)) (engine : Engine)
    (q : Patience) :
    Engine.bindAll scope bindings (withPatience engine q) =
      withPatience (Engine.bindAll scope bindings engine) q := by
  induction bindings generalizing engine with
  | nil => rfl
  | cons b bindings ih => exact ih (engine.bind scope b.1 b.2)

theorem openScope_eq (pass : Pass) (o : EvalOptions) :
    pass.openScope o = modifyGet fun engine =>
      (engine.scope.2, Engine.bindAll engine.scope.2 (pass.bindings o) engine.scope.1) := rfl

theorem patient_openScope (pass : Pass) (o : EvalOptions) : Patient (pass.openScope o) := by
  rw [openScope_eq]
  refine SteadyStep.patient (steadyStep_of_untimed fun engine q => ?_)
  simp only [scope_withPatience, bindAll_withPatience]

theorem patient_run (pass : Pass) (o : EvalOptions) : Patient (pass.run o) :=
  (patient_openScope pass o).bind fun scope =>
    patient_foldlM (fun _ s _ => (patient_runStatement pass o scope s).bind fun _ => patient_pure _) _

theorem patient_runPasses (o : EvalOptions) (ns : Namespace) (composed : Fields Value)
    (parameters : List Parameter) : Patient (runPasses o ns composed parameters) :=
  patient_foldlM (fun _ pass _ => (patient_run pass o).bind fun _ => patient_pure _) _

theorem Patient.inner {α β : Type} {m : Passing α} {w : Evaluation β} {f : α → β}
    (hm : Patient m) (start : Patience → Engine) (held : ∀ p, patience (start p) = p)
    (alike : ∀ p q, withPatience (start p) q = start q)
    (hw : ∀ p, outcome w p =
      ((outcome m (start p)).1.map f, patience (outcome m (start p)).2)) : Patient w := by
  have genuine {r : Except EvalError α} (h : Genuine (r.map f)) : Genuine r := by
    obtain ⟨e, h, genuine⟩ := h
    cases r with
    | ok a => cases h
    | error e' => exact ⟨e, congrArg _ (Except.error.inj h), genuine⟩
  refine ⟨⟨fun p => ?_, fun p q hq => ?_, fun p hp => ?_⟩, fun p hp => ?_⟩
  · rw [hw]
    have spends := hm.spends (start p)
    rwa [held] at spends
  · rw [hw]
    obtain ⟨used, notGenuine⟩ | ⟨q', hq', same⟩ := hm.same (start p) q (by rwa [held])
    · exact .inl ⟨used, fun h => notGenuine (genuine h)⟩
    · refine .inr ⟨q', hq', ?_⟩
      change outcome w q = _
      rw [hw, ← alike p q, same, patience_with]
      rfl
  · rw [hw]
    obtain ⟨endless, calm⟩ := hm.endless (start p) (by rwa [held])
    refine ⟨endless, fun h => calm ?_⟩
    cases hr : (outcome m (start p)).1 with
    | ok a => rw [hr] at h; cases h
    | error e => rw [hr] at h; exact congrArg Except.error (Except.error.inj h)
  · rw [hw]
    exact fun h => hm.yields (start p) (by rwa [held]) (genuine h)

theorem patient_runNamespace (host : Host) (o : EvalOptions) (ns : Namespace)
    (composed : Environment) (arguments : List Parameter) :
    Patient (runNamespace host o ns composed arguments) :=
  (patient_runPasses o ns composed.vars (ns.parameters ++ composed.parameters ++ arguments)).inner
    (Engine.new host (Facts.ofHost host)) (fun _ => rfl) (fun _ _ => rfl) fun p =>
    outcome_runNamespace host o ns composed arguments p

end EnvManifest
