import EnvManifest.Proofs.Eval.Engine
import EnvManifest.Proofs.Script.Machine

/-!
# Interrupted expressions

A cancellation stops an expression as an error does. If no function that catches errors is running,
it unwinds all frames, and the statement is cancelled. So a statement is cancelled, or it comes to
the same with more patience, or it has caught its cancellation.
-/

namespace EnvManifest

open Patiently

/-! ## Unwinding -/

namespace Script.Machine

/-- An error is raised, and no frame catches it. -/
structure Unwinds (m : Machine) : Prop where
  raises : ∃ d, m.control = .raise d
  uncaught : ∀ f ∈ m.frames, ¬ Catches f

theorem Unwinds.step {m : Machine} (hm : m.Unwinds) (host : Host) : (m.step host).Unwinds := by
  obtain ⟨h, control, frames, depth⟩ := m
  obtain ⟨⟨d, rfl : control = .raise d⟩, uncaught⟩ := hm
  cases frames with
  | nil => exact ⟨⟨d, rfl⟩, uncaught⟩
  | cons f fs =>
    have free := uncaught f List.mem_cons_self
    have rest : ∀ g ∈ fs, ¬ Catches g := fun g hg => uncaught g (List.mem_cons_of_mem f hg)
    cases f with
    | after site a =>
      cases a with
      | protect | protectWith => exact absurd trivial free
      | _ => exact ⟨⟨d, rfl⟩, rest⟩
    | _ => exact ⟨⟨d, rfl⟩, rest⟩

theorem Unwinds.result {m : Machine} (hm : m.Unwinds) : ∃ e, Engine.resultOf m = .error e := by
  obtain ⟨h, control, frames, depth⟩ := m
  obtain ⟨⟨d, rfl : control = .raise d⟩, -⟩ := hm
  cases frames with
  | nil => exact ⟨.error d, rfl⟩
  | cons f fs => exact ⟨.endless, rfl⟩

end Script.Machine

open Script

theorem Script.Machine.Unwinds.steps {m : Machine} (hm : m.Unwinds) (host : Host) (fuel : Nat)
    (c : Clock) : (Engine.steps host fuel c m).2.Unwinds := by
  induction fuel generalizing c m with
  | zero => exact hm
  | succ fuel ih =>
    rw [Engine.steps]
    split
    · exact hm
    · split
      · exact ih (hm.step host) _
      · exact ih (m := { m with control := .raise Engine.cancelled }) ⟨⟨_, rfl⟩, hm.uncaught⟩ _

/-! ## Runs -/

/-- A machine that takes so many steps at most is cancelled while a function that catches errors is
running. -/
def CaughtWithin (host : Host) (fuel : Nat) (c : Clock) (m : Machine) : Prop :=
  ∃ n < fuel, ∃ c' m', Engine.steps host n c m = (c', m') ∧ m'.outcome? = none ∧
    c'.tick.1 = true ∧ ∃ f ∈ m'.frames, Machine.Catches f

theorem caughtWithin_step {host : Host} {fuel : Nat} {c c' : Clock} {m : Machine}
    (running : m.outcome? = none) (ticked : c.tick = (false, c'))
    (h : CaughtWithin host fuel c' (m.step host)) : CaughtWithin host (fuel + 1) c m := by
  obtain ⟨n, hn, d, m', steps, caught⟩ := h
  refine ⟨n + 1, Nat.succ_lt_succ hn, d, m', ?_, caught⟩
  rw [Engine.steps, running, ticked]
  exact steps

/-- A machine whose cancellation is not caught fails, or takes the same steps with more patience. -/
theorem steps_uncaught {host : Host} {fuel : Nat} {c : Clock} {m : Machine}
    (h : ¬ CaughtWithin host fuel c m) {q : Patience} (hq : c.patience ≤ q) :
    ((Engine.steps host fuel c m).1.patience = .exhausted ∧
      ∃ e, Engine.resultOf (Engine.steps host fuel c m).2 = .error e) ∨
    ∃ q', (Engine.steps host fuel c m).1.patience ≤ q' ∧
      Engine.steps host fuel (withPatience c q) m =
        (withPatience (Engine.steps host fuel c m).1 q', (Engine.steps host fuel c m).2) := by
  induction fuel generalizing c m q with
  | zero => exact .inr ⟨q, hq, rfl⟩
  | succ fuel ih =>
    rw [Engine.steps, Engine.steps]
    cases running : m.outcome? with
    | some _ => exact .inr ⟨q, hq, rfl⟩
    | none =>
      rcases ht : c.tick with ⟨_ | _, c'⟩
      · obtain ⟨q', hq', same⟩ := tick_no (by rw [ht]) hq
        rw [ht] at hq' same
        rw [same]
        exact ih (fun caught => h (caughtWithin_step running ht caught)) hq'
      · have used := tick_yes (c := c) (by rw [ht])
        rw [ht] at used
        have unwinds : Machine.Unwinds { m with control := .raise Engine.cancelled } :=
          ⟨⟨_, rfl⟩, fun f hf hc => h ⟨0, Nat.succ_pos _, c, m, rfl, running, by rw [ht], f, hf, hc⟩⟩
        exact .inl ⟨Patience.eq_exhausted (used ▸ steps_le ..), (unwinds.steps host fuel c').result⟩

/-- The run of a program is cancelled while a function that catches errors is running. -/
def Engine.CatchesCancellation (engine : Engine) (program : Program) : Prop :=
  CaughtWithin engine.host Engine.maxSteps engine.clock (Machine.start engine.heap program)

theorem run_uncaught {engine : Engine} {program : Program}
    (h : ¬ engine.CatchesCancellation program) {q : Patience} (hq : patience engine ≤ q) :
    (patience (engine.run program).2 = .exhausted ∧ ∃ e, (engine.run program).1 = .error e) ∨
    ∃ q', patience (engine.run program).2 ≤ q' ∧
      (withPatience engine q).run program =
        ((engine.run program).1, withPatience (engine.run program).2 q') := by
  rw [run_eq, run_eq]
  obtain used | ⟨q', hq', same⟩ := steps_uncaught h hq
  · exact .inl used
  · refine .inr ⟨q', hq', ?_⟩
    change (Engine.resultOf (Engine.steps engine.host Engine.maxSteps
      (withPatience engine.clock q) (Machine.start engine.heap program)).2,
      ({ engine with
        heap := (Engine.steps engine.host Engine.maxSteps (withPatience engine.clock q)
          (Machine.start engine.heap program)).2.heap,
        clock := (Engine.steps engine.host Engine.maxSteps (withPatience engine.clock q)
          (Machine.start engine.heap program)).1 } : Engine)) = _
    rw [same]
    rfl

/-! ## Statements -/

/-- The expression of a statement in an engine. -/
def Pass.sourceOf (pass : Pass) (o : EvalOptions) (s : Statement) (engine : Engine) : String :=
  (Patch.ofParameter o.parameterName pass.parameter).apply ⟨engine.hints, pass.shadowed o⟩
    s.expression.source

/-- A statement that is about to run in an engine catches its cancellation. -/
def Pass.CatchesCancellation (pass : Pass) (o : EvalOptions) (scope : ScopeId) (s : Statement)
    (engine : Engine) : Prop :=
  let asked := engine.withPatience engine.clock.patience.ask.2
  engine.clock.patience.ask.1 = false ∧
  ∃ body, parseProgram (Engine.programText (pass.sourceOf o s engine)) = .ok body ∧
    (Engine.load body scope asked).2.CatchesCancellation (Engine.load body scope asked).1

theorem valueOf_eq (pass : Pass) (o : EvalOptions) (scope : ScopeId) (s : Statement)
    (engine : Engine) :
    pass.valueOf o scope s engine =
      match parseProgram (Engine.programText (pass.sourceOf o s engine)) with
      | .error fault => (.error (.malformed fault), engine)
      | .ok body =>
        Engine.keep scope s.ident
          ((Engine.load body scope engine).2.run (Engine.load body scope engine).1).1
          ((Engine.load body scope engine).2.run (Engine.load body scope engine).1).2 := by
  change Pass.evaluate engine scope s.ident (pass.sourceOf o s engine) = _
  exact evaluateWith_eq Engine.run engine scope s.ident (pass.sourceOf o s engine)

theorem keep_withPatience (scope : ScopeId) (name : String) (result : Except EngineError Datum)
    (engine : Engine) (q : Patience) :
    Engine.keep scope name result (withPatience engine q) =
      ((Engine.keep scope name result engine).1,
        withPatience (Engine.keep scope name result engine).2 q) := by
  cases result <;> rfl

theorem patience_keep (scope : ScopeId) (name : String) (result : Except EngineError Datum)
    (engine : Engine) : patience (Engine.keep scope name result engine).2 = patience engine := by
  cases result <;> rfl

theorem valueOf_uncaught {pass : Pass} {o : EvalOptions} {scope : ScopeId} {s : Statement}
    {engine : Engine}
    (h : ∀ body, parseProgram (Engine.programText (pass.sourceOf o s engine)) = .ok body →
      ¬ (Engine.load body scope engine).2.CatchesCancellation (Engine.load body scope engine).1)
    {q : Patience} (hq : patience engine ≤ q) :
    (patience (pass.valueOf o scope s engine).2 = .exhausted ∧
      ∃ e, (pass.valueOf o scope s engine).1 = .error e) ∨
    ∃ q', patience (pass.valueOf o scope s engine).2 ≤ q' ∧
      pass.valueOf o scope s (withPatience engine q) =
        ((pass.valueOf o scope s engine).1, withPatience (pass.valueOf o scope s engine).2 q') := by
  have source : pass.sourceOf o s (withPatience engine q) = pass.sourceOf o s engine := rfl
  rw [valueOf_eq, valueOf_eq, source]
  cases hbody : parseProgram (Engine.programText (pass.sourceOf o s engine)) with
  | error fault => exact .inr ⟨q, hq, rfl⟩
  | ok body =>
    have load : Engine.load body scope (withPatience engine q) =
        ((Engine.load body scope engine).1, withPatience (Engine.load body scope engine).2 q) := rfl
    dsimp only
    rw [load]
    dsimp only
    obtain ⟨used, e, he⟩ | ⟨q', hq', same⟩ :=
      @run_uncaught (Engine.load body scope engine).2 _ (h body hbody) _ hq
    · rw [he]
      exact .inl ⟨used, e, rfl⟩
    · rw [same]
      refine .inr ⟨q', ?_, keep_withPatience ..⟩
      rwa [patience_keep]

/-! ## Faithful work -/

section

variable {σ α β : Type} [Patiently σ]

/-- Work is cancelled in a state, or it comes to the same with more patience. -/
def Faithful (m : Work σ α) (s : σ) : Prop :=
  ∀ q, patience s ≤ q →
    (outcome m s).1 = .error .cancelled ∨
    ∃ q', patience (outcome m s).2 ≤ q' ∧
      outcome m (withPatience s q) = ((outcome m s).1, withPatience (outcome m s).2 q')

theorem faithful_pure (a : α) (s : σ) : Faithful (pure a : Work σ α) s :=
  fun q hq => .inr ⟨q, hq, rfl⟩

theorem faithful_throw (e : EvalError) (s : σ) : Faithful (throw e : Work σ α) s :=
  fun q hq => .inr ⟨q, hq, rfl⟩

theorem Faithful.bind {m : Work σ α} {f : α → Work σ β} {s : σ} (hm : Faithful m s)
    (hf : ∀ a t, outcome m s = (.ok a, t) → Faithful (f a) t) : Faithful (m >>= f) s := by
  intro q hq
  rw [outcome_bind, outcome_bind]
  rcases hr : outcome m s with ⟨e | a, t⟩
  · obtain stopped | ⟨q', hq', same⟩ := hm q hq
    · rw [hr] at stopped
      cases stopped
      exact .inl rfl
    · rw [hr] at hq' same
      rw [same]
      exact .inr ⟨q', hq', rfl⟩
  · obtain stopped | ⟨q', hq', same⟩ := hm q hq
    · rw [hr] at stopped
      cases stopped
    · rw [hr] at hq' same
      rw [same]
      exact hf a t hr q' hq'

theorem Asks.faithful {m : Work σ Unit} (hm : Asks m) (s : σ) : Faithful m s := by
  intro q hq
  rw [hm s, hm (withPatience s q), patience_with, patience_with, with_with]
  cases h : (patience s).ask.1 with
  | true => exact .inl rfl
  | false =>
    obtain ⟨no, le⟩ := Patience.ask_no h hq
    rw [no]
    exact .inr ⟨q.ask.2, le, by rw [with_with]⟩

/-- A walk comes to an item, in a state. -/
def Comes (f : β → α → Work σ β) (as : List α) (b : β) (s : σ) (c : β) (a : α) (t : σ) : Prop :=
  ∃ before after, as = before ++ a :: after ∧ outcome (before.foldlM f b) s = (.ok c, t)

theorem faithful_foldlM {f : β → α → Work σ β} {as : List α} {b : β} {s : σ}
    (h : ∀ c a t, Comes f as b s c a t → Faithful (f c a) t) : Faithful (as.foldlM f b) s := by
  induction as generalizing b s with
  | nil => exact faithful_pure b s
  | cons a as ih =>
    rw [List.foldlM_cons]
    refine (h b a s ⟨[], as, rfl, rfl⟩).bind fun c t hr => ih fun d x u hd => ?_
    obtain ⟨before, after, rfl, ok⟩ := hd
    refine h d x u ⟨a :: before, after, rfl, ?_⟩
    rw [List.foldlM_cons, outcome_bind_ok hr, ok]

end

theorem faithful_runStatement {pass : Pass} {o : EvalOptions} {scope : ScopeId} {s : Statement}
    {engine : Engine} (h : ¬ pass.CatchesCancellation o scope s engine) :
    Faithful (pass.runStatement o scope s) engine := by
  rw [runStatement_eq]
  refine (asks_ofEvaluation.faithful engine).bind fun _ asked hasked => ?_
  have no : (patience engine).ask.1 = false := by
    rw [asks_ofEvaluation engine] at hasked
    cases yes : (patience engine).ask.1 with
    | false => rfl
    | true =>
      rw [yes] at hasked
      cases hasked
  have uncaught : ∀ body, parseProgram (Engine.programText (pass.sourceOf o s asked)) = .ok body →
      ¬ (Engine.load body scope asked).2.CatchesCancellation (Engine.load body scope asked).1 := by
    rw [asks_ofEvaluation engine] at hasked
    obtain rfl : withPatience engine (patience engine).ask.2 = asked := congrArg Prod.snd hasked
    exact fun body hbody caught => h ⟨no, body, hbody, caught⟩
  intro q hq
  obtain ⟨used, e, he⟩ | ⟨q', hq', same⟩ := valueOf_uncaught uncaught hq
  · -- the error is that of the cancellation, and the next question is answered with yes
    have failed : outcome (modifyGet (pass.valueOf o scope s) : Passing _) asked =
        (.ok (.error e), (pass.valueOf o scope s asked).2) := by
      rw [outcome_modifyGet, he]
    have stopped : outcome (Passing.ofEvaluation Evaluation.goOn)
        (pass.valueOf o scope s asked).2 =
          (.error .cancelled, withPatience (pass.valueOf o scope s asked).2 .exhausted) := by
      rw [asks_ofEvaluation, used]
      rfl
    rw [outcome_bind_ok failed]
    dsimp only
    rw [outcome_bind_error stopped]
    exact .inl rfl
  · rw [outcome_bind, outcome_bind, outcome_modifyGet, outcome_modifyGet, same]
    dsimp only
    cases (pass.valueOf o scope s asked).1 with
    | ok v => exact .inr ⟨q', hq', rfl⟩
    | error e =>
      exact ((asks_ofEvaluation.faithful _).bind fun _ t _ => faithful_throw _ t) q' hq'

end EnvManifest
