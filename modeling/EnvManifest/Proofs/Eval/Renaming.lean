import EnvManifest.Proofs.Eval.CancelledRuns
import EnvManifest.Proofs.Eval.Folding
import EnvManifest.Proofs.Script.Renaming.Machine

/-!
# Engines with other numbers

Two engines that differ in the numbers of their heaps give expressions the same values, as long as
none of them writes such a number into a text. So a pass comes to the same in both.
-/

namespace EnvManifest

open Patiently Script

variable {r : Renaming}

/-! ## Results -/

def EngineError.rename (r : Renaming) : EngineError → EngineError
  | .error d => .error (d.rename r)
  | .malformed fault => .malformed fault
  | .exchange e => .exchange e
  | .endless => .endless

theorem datumText_rename (d : Datum) :
    EngineError.datumText (d.rename r) = EngineError.datumText d := by
  cases d with
  | number n => cases n <;> rfl
  | _ => rfl

theorem EngineError.describe_rename (e : EngineError) : (e.rename r).describe = e.describe := by
  have same : (e.rename r).text = e.text := by
    cases e with
    | error d => exact datumText_rename d
    | _ => rfl
  unfold describe
  rw [same]

def renameResult (r : Renaming) : Except EngineError Datum → Except EngineError Datum
  | .ok d => .ok (d.rename r)
  | .error e => .error (e.rename r)

theorem resultOf_renamed {m m' : Machine} (hm : MachineRenamed r m m') :
    Engine.resultOf m' = renameResult r (Engine.resultOf m) := by
  unfold Engine.resultOf
  rw [Machine.outcome?_renamed hm]
  cases m.outcome? with
  | none => rfl
  | some result =>
    cases result with
    | ok values => exact congrArg Except.ok (first_rename values)
    | error d => rfl

/-! ## Engines -/

/-- Engines that nothing stops and that differ in the numbers of their heaps. -/
structure EngineRenamed (r : Renaming) (e e' : Engine) : Prop where
  host : e'.host = e.host
  hints : e'.hints = e.hints
  heap : HeapRenamed r e.heap e'.heap
  endless : e.clock.patience = .endless
  endless' : e'.clock.patience = .endless

/-- The run of a program writes the number of a table or a function into a text. -/
def Engine.ShowsNumber (engine : Engine) (program : Program) : Prop :=
  ∃ n < Engine.maxSteps,
    ((Machine.step engine.host)^[n] (Machine.start engine.heap program)).showsNumber = true

/-- Does a machine stop within so many steps, and no number is shown before? -/
def Script.Machine.stopsHidden (host : Host) : Nat → Machine → Bool
  | 0, m => m.outcome?.isSome
  | n + 1, m => !m.showsNumber && stopsHidden host n (m.step host)

theorem Script.Machine.hidden_of_stopsHidden {host : Host} {n : Nat} {m : Machine}
    (h : m.stopsHidden host n = true) (k : Nat) :
    ((Machine.step host)^[k] m).showsNumber = false := by
  induction n generalizing m k with
  | zero =>
    rw [Function.iterate_fixed (Machine.step_of_outcome h) k]
    obtain ⟨heap, control, frames, depth⟩ := m
    cases control with
    | call site origin f args => cases frames <;> cases h
    | _ => rfl
  | succ n ih =>
    obtain ⟨hidden, rest⟩ := Bool.and_eq_true_iff.1 h
    cases k with
    | zero => exact Bool.not_eq_eq_eq_not.1 hidden
    | succ k => exact ih rest k

namespace EngineRenamed

variable {e e' : Engine}

theorem withHeap (he : EngineRenamed r e e') {h h' : Heap} (hh : HeapRenamed r h h') :
    EngineRenamed r { e with heap := h } { e' with heap := h' } :=
  ⟨he.host, he.hints, hh, he.endless, he.endless'⟩

theorem steps (he : EngineRenamed r e e') {p : Program} (hidden : ¬ e.ShowsNumber p) :
    MachineRenamed r
      (Engine.steps e.host Engine.maxSteps e.clock (Machine.start e.heap p)).2
      (Engine.steps e'.host Engine.maxSteps e'.clock (Machine.start e'.heap (p.rename r))).2 := by
  rw [steps_eq_iterate _ _ _ _ he.endless, steps_eq_iterate _ _ _ _ he.endless', he.host]
  have start : MachineRenamed r (Machine.start e.heap p) (Machine.start e'.heap (p.rename r)) :=
    ⟨he.heap, rfl, rfl, rfl⟩
  refine Machine.iterate_renamed e.host start fun n hn => ?_
  exact Bool.eq_false_iff.2 fun shows => hidden ⟨n, hn, shows⟩

theorem run (he : EngineRenamed r e e') {p : Program} (hidden : ¬ e.ShowsNumber p) :
    (e'.run (p.rename r)).1 = renameResult r (e.run p).1 ∧
      EngineRenamed r (e.run p).2 (e'.run (p.rename r)).2 := by
  have ran := he.steps hidden
  rw [run_eq, run_eq]
  exact ⟨resultOf_renamed ran, he.host, he.hints, ran.heap,
    steps_endless _ _ _ _ he.endless, steps_endless _ _ _ _ he.endless'⟩

/-! ## Statements -/

theorem load (he : EngineRenamed r e e') (body : FunctionBody) (scope : ScopeId) :
    (Engine.load body (r.table scope) e').1 = (Engine.load body scope e).1.rename r ∧
      EngineRenamed r (Engine.load body scope e).2 (Engine.load body (r.table scope) e').2 := by
  obtain ⟨heap, program⟩ := he.heap.newProgram EngineError.chunk body (.table scope)
  exact ⟨program, he.withHeap heap⟩

theorem bindDatum (he : EngineRenamed r e e') (scope : ScopeId) (name : String) (d : Datum) :
    EngineRenamed r (e.bindDatum scope name d)
      (e'.bindDatum (r.table scope) name (d.rename r)) :=
  he.withHeap (he.heap.setTable scope (.ofString name) d)

theorem scope (he : EngineRenamed r e e') :
    e'.scope.2 = r.table e.scope.2 ∧ EngineRenamed r e.scope.1 e'.scope.1 := by
  have same : Table.rename r (tableOf [(Heap.indexKey, .table Heap.globals)]) =
      tableOf [(Heap.indexKey, .table Heap.globals)] := by
    simp only [tableOf, List.foldl_cons, List.foldl_nil]
    rw [← Table.set_rename, Table.rename_empty, Datum.rename_table, r.globals]
    rfl
  obtain ⟨ruled, rules⟩ := he.heap.newTable (tableOf [(Heap.indexKey, .table Heap.globals)])
  rw [same] at ruled rules
  obtain ⟨opened, id⟩ := ruled.newTable { Table.empty with
    metatable := some (e.heap.newTable (tableOf [(Heap.indexKey, .table Heap.globals)])).2 }
  rw [Table.rename_metatable, ← rules] at opened id
  exact ⟨id, he.withHeap opened⟩

theorem bindAll (he : EngineRenamed r e e') (scope : ScopeId) (bindings : List (String × Value)) :
    EngineRenamed r (Engine.bindAll scope bindings e)
      (Engine.bindAll (r.table scope) bindings e') := by
  induction bindings generalizing e e' with
  | nil => exact he
  | cons b bindings ih =>
    obtain ⟨heap, datum⟩ := he.heap.ofValue b.2
    have bound := heap.setTable scope (.ofString b.1) (e.heap.ofValue b.2).2
    rw [← datum] at bound
    exact ih (he.withHeap bound)

theorem toValue (he : EngineRenamed r e e') (d : Datum) :
    e'.toValue (d.rename r) = e.toValue d := by
  unfold Engine.toValue
  rw [he.heap.toValue]

/-- A string in quotes that loses them. -/
theorem unquoted_rename (d : Datum) :
    ((((Engine.text? (d.rename r)).bind Literal.unquote?).map Datum.ofString).getD (d.rename r)) =
      ((((Engine.text? d).bind Literal.unquote?).map Datum.ofString).getD d).rename r := by
  have text : Engine.text? (d.rename r) = Engine.text? d := by cases d <;> rfl
  rw [text]
  cases (Engine.text? d).bind Literal.unquote? <;> rfl

theorem keep (he : EngineRenamed r e e') (scope : ScopeId) (name : String)
    (result : Except EngineError Datum) :
    (Engine.keep (r.table scope) name (renameResult r result) e').1 =
        (Engine.keep scope name result e).1.mapError (.rename r) ∧
      EngineRenamed r (Engine.keep scope name result e).2
        (Engine.keep (r.table scope) name (renameResult r result) e').2 := by
  cases result with
  | error error => exact ⟨rfl, he⟩
  | ok d =>
    have bound := he.bindDatum scope name
      ((((Engine.text? d).bind Literal.unquote?).map Datum.ofString).getD d)
    simp only [Engine.keep, renameResult]
    rw [unquoted_rename, bound.toValue]
    refine ⟨?_, bound⟩
    unfold Engine.toValue
    cases (Engine.bindDatum _ _ _ _).heap.toValue _ <;> rfl

end EngineRenamed

/-- A statement that is about to run in an engine writes the number of a table or a function into a
text. -/
def Pass.ShowsNumber (pass : Pass) (o : EvalOptions) (scope : ScopeId) (s : Statement)
    (engine : Engine) : Prop :=
  ∃ body, parseProgram (Engine.programText (pass.sourceOf o s engine)) = .ok body ∧
    (Engine.load body scope engine).2.ShowsNumber (Engine.load body scope engine).1

theorem EngineRenamed.valueOf {e e' : Engine} (he : EngineRenamed r e e') {pass : Pass}
    {o : EvalOptions} {scope : ScopeId} {s : Statement}
    (hidden : ¬ pass.ShowsNumber o scope s e) :
    (pass.valueOf o (r.table scope) s e').1 =
        (pass.valueOf o scope s e).1.mapError (.rename r) ∧
      EngineRenamed r (pass.valueOf o scope s e).2 (pass.valueOf o (r.table scope) s e').2 := by
  have source : pass.sourceOf o s e' = pass.sourceOf o s e := by
    unfold Pass.sourceOf
    rw [he.hints]
  rw [valueOf_eq, valueOf_eq, source]
  cases hbody : parseProgram (Engine.programText (pass.sourceOf o s e)) with
  | error fault => exact ⟨rfl, he⟩
  | ok body =>
    dsimp only
    obtain ⟨program, loaded⟩ := he.load body scope
    obtain ⟨result, ran⟩ := loaded.run fun shows => hidden ⟨body, hbody, shows⟩
    rw [program, result]
    exact ran.keep scope s.ident _

/-! ## Work in step -/

/-- Work in one engine comes to the same as other work in the other one, up to numbers. -/
def InStep {α β : Type} (r : Renaming) (f : α → β) (m : Passing α) (m' : Passing β)
    (e e' : Engine) : Prop :=
  (outcome m' e').1 = (outcome m e).1.map f ∧ EngineRenamed r (outcome m e).2 (outcome m' e').2

section

variable {α β γ δ : Type} {f : α → β} {e e' : Engine}

theorem inStep_pure (he : EngineRenamed r e e') (a : α) :
    InStep r f (pure a) (pure (f a)) e e' := ⟨rfl, he⟩

theorem inStep_throw (he : EngineRenamed r e e') (error : EvalError) :
    InStep r f (throw error : Passing α) (throw error) e e' := ⟨rfl, he⟩

theorem inStep_modifyGet {g : Engine → α × Engine} {g' : Engine → β × Engine}
    (value : (g' e').1 = f (g e).1) (after : EngineRenamed r (g e).2 (g' e').2) :
    InStep r f (modifyGet g) (modifyGet g') e e' := ⟨congrArg Except.ok value, after⟩

theorem InStep.bind {m : Passing α} {m' : Passing β} {k : α → Passing γ} {k' : β → Passing δ}
    {g : γ → δ} (hm : InStep r f m m' e e')
    (hk : ∀ a t t', outcome m e = (.ok a, t) → EngineRenamed r t t' →
      InStep r g (k a) (k' (f a)) t t') : InStep r g (m >>= k) (m' >>= k') e e' := by
  obtain ⟨same, after⟩ := hm
  rcases hr : outcome m e with ⟨error | a, t⟩ <;> rcases hr' : outcome m' e' with ⟨result, t'⟩
  · rw [hr, hr'] at same after
    obtain rfl : result = .error error := same
    refine ⟨?_, ?_⟩ <;> rw [outcome_bind_error hr, outcome_bind_error hr']
    · rfl
    · exact after
  · rw [hr, hr'] at same after
    obtain rfl : result = .ok (f a) := same
    have next := hk a t t' hr after
    refine ⟨?_, ?_⟩ <;> rw [outcome_bind_ok hr, outcome_bind_ok hr']
    · exact next.1
    · exact next.2

theorem inStep_foldlM {k k' : β → α → Passing β} {as : List α} {b : β}
    (he : EngineRenamed r e e')
    (h : ∀ c a t t', Comes k as b e c a t → EngineRenamed r t t' →
      InStep r id (k c a) (k' c a) t t') : InStep r id (as.foldlM k b) (as.foldlM k' b) e e' := by
  induction as generalizing b e e' with
  | nil => exact inStep_pure he b
  | cons a as ih =>
    rw [List.foldlM_cons, List.foldlM_cons]
    refine (h b a e e' ⟨[], as, rfl, rfl⟩ he).bind fun c t t' hr ht => ih ht ?_
    intro d x u u' hd hu
    obtain ⟨before, after, rfl, ok⟩ := hd
    refine h d x u u' ⟨a :: before, after, rfl, ?_⟩ hu
    rw [List.foldlM_cons, outcome_bind_ok hr, ok]

theorem goOn_endless {e : Engine} (h : e.clock.patience = .endless) :
    outcome (Passing.ofEvaluation Evaluation.goOn) e = (.ok (), e) := by
  obtain ⟨host, heap, ⟨p, ticks⟩, hints⟩ := e
  obtain rfl : p = .endless := h
  exact asks_ofEvaluation _

theorem inStep_goOn (he : EngineRenamed r e e') :
    InStep r id (Passing.ofEvaluation Evaluation.goOn) (Passing.ofEvaluation Evaluation.goOn)
      e e' := by
  rw [InStep, goOn_endless he.endless, goOn_endless he.endless']
  exact ⟨rfl, he⟩

end

/-! ## Passes -/

theorem inStep_runStatement {e e' : Engine} (he : EngineRenamed r e e') {pass : Pass}
    {o : EvalOptions} {scope : ScopeId} {s : Statement}
    (hidden : ¬ pass.ShowsNumber o scope s e) :
    InStep r id (pass.runStatement o scope s) (pass.runStatement o (r.table scope) s) e e' := by
  rw [runStatement_eq, runStatement_eq]
  refine (inStep_goOn he).bind fun _ t t' ht hr => ?_
  obtain rfl : e = t := by
    rw [goOn_endless he.endless] at ht
    exact congrArg Prod.snd ht
  obtain ⟨value, after⟩ := hr.valueOf hidden
  refine (inStep_modifyGet value after).bind fun result u u' _ hu => ?_
  cases result with
  | ok v => exact inStep_pure hu v
  | error error =>
    refine (inStep_goOn hu).bind fun _ t t' _ ht => ?_
    have same : Pass.expressionError pass.ns s (error.rename r) =
        Pass.expressionError pass.ns s error := by
      unfold Pass.expressionError
      rw [error.describe_rename]
    change InStep r id (throw _) (throw (Pass.expressionError pass.ns s (error.rename r))) t t'
    rw [same]
    exact inStep_throw ht _

theorem inStep_openScope {e e' : Engine} (he : EngineRenamed r e e') (pass : Pass)
    (o : EvalOptions) : InStep r r.table (pass.openScope o) (pass.openScope o) e e' := by
  obtain ⟨scope, opened⟩ := he.scope
  have bound := opened.bindAll e.scope.2 (pass.bindings o)
  rw [← scope] at bound
  rw [openScope_eq]
  refine inStep_modifyGet scope ?_
  dsimp only
  exact bound

theorem inStep_run {e e' : Engine} (he : EngineRenamed r e e') {pass : Pass} {o : EvalOptions}
    (hidden : ∀ scope s there, pass.Executes o e scope s there →
      ¬ pass.ShowsNumber o scope s there) :
    InStep r id (pass.run o) (pass.run o) e e' := by
  unfold Pass.run
  refine (inStep_openScope he pass o).bind fun scope opened opened' hopened hr => ?_
  refine inStep_foldlM hr fun bound s there there' hs ht => ?_
  have run := inStep_runStatement ht (hidden scope s there ⟨opened, bound, hopened, hs⟩)
  exact run.bind fun v t t' _ ht => inStep_pure ht _

end EnvManifest
