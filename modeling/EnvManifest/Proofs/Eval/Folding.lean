import EnvManifest.Proofs.Eval.Engine
import EnvManifest.Proofs.Script.Parsing
import EnvManifest.Proofs.Script.Run

/-!
# Expressions with known values in the place of names

An engine runs two expressions to the same value, if operands stand in the one where paths stand in
the other, and each path has the value of its operand whenever the program reads it.
-/

namespace EnvManifest

open Script

variable {known : List String → List Script.Token → Prop}

/-! ## Costs -/

theorem Script.Atom.cost {t : Script.Token} {e : Expr} (h : Atom t e) : e.cost = 1 := by
  cases h <;> rfl

theorem Script.Reads.cost_le {names : List String} {e : Expr} (h : Reads names e) :
    e.cost + 3 ≤ 4 * (names.length + 1) := by
  induction h with
  | var v => simp [Expr.cost]
  | global l hv n => simp [Expr.cost]
  | field l h n ih =>
    simp only [Expr.cost, List.length_append, List.length_cons, List.length_nil]
    omega

/-- The most steps that an operand in the place of a path takes. -/
def mostCost : Nat := 11

theorem Script.Stands.cost_le {ts : List Script.Token} {e : Expr} (h : Stands ts e) : e.cost ≤ mostCost := by
  cases h with
  | bare h =>
    rw [h.cost]
    decide
  | enclosed h =>
    cases h with
    | minus h => simp [Expr.cost, h.cost, mostCost]
    | quotient ht hu => simp [Expr.cost, ht.cost, hu.cost, mostCost]
    | minusQuotient ht hu => simp [Expr.cost, ht.cost, hu.cost, mostCost]
    | path h =>
      have := h.cost_le
      simp only [List.length_cons, List.length_nil] at this
      simp only [Expr.cost, mostCost]
      omega

/-! ## Runs -/

/-- With endless patience, nothing but the most steps stops a machine before its end. -/
theorem steps_eq_iterate (host : Host) (n : Nat) (c : Clock) (m : Machine)
    (h : c.patience = .endless) : (Engine.steps host n c m).2 = (Machine.step host)^[n] m := by
  induction n generalizing c m with
  | zero => rfl
  | succ n ih =>
    rw [Engine.steps, Function.iterate_succ_apply]
    cases ho : m.outcome? with
    | some r =>
      rw [Machine.step_of_outcome (by simp [ho])]
      exact (Function.iterate_fixed (Machine.step_of_outcome (by simp [ho])) n).symm
    | none =>
      obtain ⟨no, endless⟩ := tick_endless h
      rcases ht : c.tick with ⟨_ | _, c'⟩
      · rw [ht] at endless
        exact ih c' _ endless
      · rw [ht] at no
        cases no

/-- The machine at the start of an expression's program. -/
def Engine.machine (engine : Engine) (scope : ScopeId) (body : FunctionBody) : Machine :=
  Machine.start (Engine.load body scope engine).2.heap (Engine.load body scope engine).1

/-- The machine at the end of an expression's program, if it ends within so many steps. -/
theorem steps_of_stopped {engine : Engine} (hp : engine.clock.patience = .endless) {m : Machine} {n : Nat}
    (hn : ((Machine.step engine.host)^[n] m).outcome?.isSome) (hmax : n ≤ Engine.maxSteps) :
    (Engine.steps engine.host Engine.maxSteps engine.clock m).2 =
      (Machine.step engine.host)^[n] m := by
  rw [steps_eq_iterate _ _ _ _ hp]
  obtain ⟨k, hk⟩ := Nat.exists_eq_add_of_le' hmax
  rw [hk, Function.iterate_add_apply]
  exact Function.iterate_fixed (Machine.step_of_outcome hn) k

/-- What is kept of two runs that end alike is the same value. -/
theorem keep_folds {swaps : Expr → Expr → Prop} (scope : ScopeId) (name : String)
    {engine engine' : Engine} {m m' : Machine} (hm : MachineFolds swaps m m')
    (he : engine.heap = m.heap) (he' : engine'.heap = m'.heap) (v : Value) :
    (Engine.keep scope name (Engine.resultOf m) engine).1 = .ok v ↔
      (Engine.keep scope name (Engine.resultOf m') engine').1 = .ok v := by
  obtain ⟨hstop, hvalues⟩ := hm.outcome
  unfold Engine.resultOf
  cases ho : m.outcome? with
  | none =>
    have ho' : m'.outcome? = none := by simpa [ho] using hstop
    simp [ho', Engine.keep]
  | some r =>
    cases r with
    | ok values =>
      rw [(hvalues values).1 ho]
      unfold Engine.keep Engine.toValue Engine.bindDatum
      dsimp only
      rw [he, he', (hm.heap.setTable scope _ _).toValue]
    | error e =>
      obtain ⟨r', ho'⟩ : ∃ r', m'.outcome? = some r' :=
        Option.isSome_iff_exists.1 (by simpa [ho] using hstop)
      cases r' with
      | ok values => simp [(hvalues values).2 ho'] at ho
      | error e' => simp [ho', Engine.keep]

/-- **Known values in the place of paths.** If the program of an expression folds into that of
another one, and each path in it is read with the value of its operand, then the engine gives both
the same value, or none. -/
theorem evaluate_folds {engine : Engine} (hp : engine.clock.patience = .endless) (scope : ScopeId)
    (name : String) {source source' : String} {body body' : FunctionBody}
    (hs : Spliced known false (Script.lex 1 (Engine.programText source))
      (Script.lex 1 (Engine.programText source')))
    (h : parseProgram (Engine.programText source) = .ok body)
    (h' : parseProgram (Engine.programText source') = .ok body')
    (hk : ∀ k, Machine.Keeps (Swaps known)
      ((Machine.step engine.host)^[k] (engine.machine scope body))) {n : Nat}
    (hn : ((Machine.step engine.host)^[n] (engine.machine scope body)).outcome?.isSome)
    (hmax : mostCost * n ≤ Engine.maxSteps) (v : Value) :
    (Pass.evaluate engine scope name source).1 = .ok v ↔
      (Pass.evaluate engine scope name source').1 = .ok v := by
  have hbody : FunctionFolds (Swaps known) body body' := parseProgram_folds hs h h'
  have hstart : MachineFolds (Swaps known) (engine.machine scope body)
      (engine.machine scope body') := by
    obtain ⟨hheap, hprogram⟩ := (HeapFolds.refl engine.heap).newProgram EngineError.chunk hbody
      (.table scope)
    refine ⟨hheap, ?_, .nil, rfl⟩
    unfold Engine.machine Engine.load
    dsimp only
    rw [hprogram]
    exact .call _ _
  obtain ⟨n', hle, hend⟩ := Machine.run_folds (fun _ _ => Swaps.isCall)
    (fun _ _ ⟨_, _, _, _, hs⟩ => hs.cost_le) (by decide) n hstart hk hn
  have hn' : ((Machine.step engine.host)^[n'] (engine.machine scope body')).outcome?.isSome := by
    rw [← hend.outcome.1]
    exact hn
  have hmost : n ≤ mostCost * n := Nat.le_mul_of_pos_left n (by decide)
  rw [evaluate_eq, evaluate_eq, evaluateWith_eq, evaluateWith_eq, h, h']
  dsimp only
  rw [run_eq, run_eq]
  have hends : MachineFolds (Swaps known)
      (Engine.steps engine.host Engine.maxSteps engine.clock (engine.machine scope body)).2
      (Engine.steps engine.host Engine.maxSteps engine.clock (engine.machine scope body')).2 := by
    rw [steps_of_stopped hp hn (Nat.le_trans hmost hmax),
      steps_of_stopped hp hn' (Nat.le_trans hle hmax)]
    exact hend
  exact keep_folds scope name hends rfl rfl v

end EnvManifest
