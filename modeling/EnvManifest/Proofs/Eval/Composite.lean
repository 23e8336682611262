import EnvManifest.Proofs.Eval.Pass
import EnvManifest.Proofs.Eval.Schedule

/-!
# The evaluation of a reference

A reference is evaluated definition by definition, each with a chain that is longer by one name.
What holds of all references is proved from the longer chains to the shorter ones.
-/

namespace EnvManifest

/-! ## One reference -/

/-- The environment of one definition of a reference, if its composites are evaluated by a task. -/
def evalDefinition (e : Evaluator) (task : Task) (place : Place) (c : Composite)
    (t : Namespace × Nat) : Evaluation Environment := do
  let composed ← evalMany e.host e.options e.schedule task (place ++ [t.2]) t.1.composites
  runNamespace e.host e.options t.1 composed c.arguments

/-- The environment of all definitions of a reference. -/
def evalDefinitions (e : Evaluator) (task : Task) (place : Place) (c : Composite) :
    Evaluation Environment :=
  (e.ast.lookup c.ident).zipIdx.foldlM
    (fun env t => return env.merge (← evalDefinition e task place c t)) .empty

/-- The environment of a reference, if the composites of its definitions are evaluated by a task. -/
def evalReference (e : Evaluator) (task : Task) (chain : List String) (place : Place)
    (c : Composite) : Evaluation Environment := do
  Evaluation.goOn
  if c.ident ∈ chain then throw (.cycle (chain ++ [c.ident]))
  else if e.ast.lookup c.ident = [] then
    if e.options.strict then throw (.undefinedNamespace c.ident) else return .empty
  else if e.options.unique && hasDuplicate ((e.ast.lookup c.ident).map Namespace.print) then
    throw (.duplicate c.ident)
  else evalDefinitions e task place c

theorem evalComposite_eq (e : Evaluator) (chain : List String) (place : Place) (c : Composite) :
    evalComposite e chain place c =
      evalReference e (evalComposite e (chain ++ [c.ident])) chain place c := by
  rw [evalComposite, evalReference]
  congr 1
  funext _
  split
  · rfl
  · split
    · rfl
    · split
      · rfl
      · simp only [evalDefinitions, evalDefinition, bind_assoc]

/-! ## Chains -/

/-- One evaluation of a reference asks for another. Both are given with their chains. -/
inductive Ast.Calls (ast : Ast) : List String × Composite → List String × Composite → Prop where
  | composite {chain : List String} {c d : Composite} {n : Namespace} (fresh : c.ident ∉ chain)
      (defined : n ∈ ast.lookup c.ident) (composed : d ∈ n.composites) :
      Calls ast (chain, c) (chain ++ [c.ident], d)

/-- No evaluation asks for others without end. -/
theorem calls_wellFounded (ast : Ast) : WellFounded fun x y => ast.Calls y x := by
  refine Subrelation.wf (r := InvImage (· < ·) fun x => (ast.unvisited x.1).length) ?_
    (InvImage.wf _ Nat.lt_wfRel.wf)
  rintro _ _ ⟨fresh, defined, _⟩
  exact Ast.length_unvisited_lt fresh (List.ne_nil_of_mem defined)

/-- What holds of a chain if it holds of each longer chain that a definition leads to holds of all
chains. -/
theorem chain_induction (ast : Ast) {motive : List String → Prop}
    (step : ∀ chain, (∀ a, a ∉ chain → ast.lookup a ≠ [] → motive (chain ++ [a])) → motive chain)
    (chain : List String) : motive chain := by
  induction hn : (ast.unvisited chain).length using Nat.strongRecOn generalizing chain with
  | _ n ih =>
    refine step chain fun a fresh defined => ?_
    exact ih _ (hn ▸ Ast.length_unvisited_lt fresh defined) _ rfl

/-! ## Requested names -/

/-- The environment of requested names. -/
def evalRequested (e : Evaluator) (names : List String) : Evaluation Environment :=
  evalMany e.host e.options e.schedule (evalComposite e []) [] (names.map Composite.named)

section

variable {m : Model} {host : Host} {schedule : Schedule} {o : EvalOptions} {p : Patience}
  {names : List String}

theorem eval_eq :
    m.eval host schedule o p names =
      (outcome (evalRequested ⟨host, m.ast, o, schedule⟩ names) p).1.map (·.vars) := rfl

theorem eval_eq_ok {vars : Fields Value} (h : m.eval host schedule o p names = .ok vars) :
    ∃ env, (outcome (evalRequested ⟨host, m.ast, o, schedule⟩ names) p).1 = .ok env ∧
      env.vars = vars := by
  rw [eval_eq] at h
  cases hr : (outcome (evalRequested ⟨host, m.ast, o, schedule⟩ names) p).1 with
  | ok env => exact ⟨env, rfl, by simpa [hr, Except.map] using h⟩
  | error e => simp [hr, Except.map] at h

theorem eval_eq_error {error : EvalError} (h : m.eval host schedule o p names = .error error) :
    (outcome (evalRequested ⟨host, m.ast, o, schedule⟩ names) p).1 = .error error := by
  rw [eval_eq] at h
  cases hr : (outcome (evalRequested ⟨host, m.ast, o, schedule⟩ names) p).1 with
  | ok env => simp [hr, Except.map] at h
  | error e => simpa [hr, Except.map] using h

end

/-! ## Small models -/

/-- A host with nothing in it. -/
def Host.bare : Host := ⟨[], "", "/", .directory [], "", "", "", "", "", 1⟩

/-- A namespace that only composes others. -/
def Namespace.composing (ident : String) (composites : List String) : Namespace :=
  ⟨ident, composites.map .named, [], [], 0, ⟨0, 0⟩⟩

/-! ## Tasks that agree -/

section

variable {host : Host} {o : EvalOptions} {schedule : Schedule} {task task' : Task} {place : Place}

theorem chunkResults_congr {tasks : List (Composite × Nat)}
    (h : ∀ t ∈ tasks, task (place ++ [t.2]) t.1 = task' (place ++ [t.2]) t.1) (p : Patience) :
    chunkResults schedule task place p tasks = chunkResults schedule task' place p tasks := by
  have alone : ∀ t ∈ tasks, runAlone schedule task (place ++ [t.2]) p t.1 =
      runAlone schedule task' (place ++ [t.2]) p t.1 := by
    intro t ht
    simp only [runAlone, h t ht]
  have each (fails : Bool) : ∀ t ∈ tasks, runTask schedule task place fails p t =
      runTask schedule task' place fails p t := by
    intro t ht
    simp only [runTask, runTold, alone t ht, h t ht]
  have fails : failsUntold schedule task place p tasks = failsUntold schedule task' place p tasks := by
    rw [failsUntold, failsUntold, Bool.eq_iff_iff, List.any_eq_true, List.any_eq_true]
    exact exists_congr fun t => and_congr_right fun ht => by rw [alone t ht]
  rw [chunkResults_eq, chunkResults_eq, fails, List.map_congr_left (each _)]

theorem evalMany_congr {cs : List Composite}
    (h : ∀ place, ∀ c ∈ cs, task place c = task' place c) :
    evalMany host o schedule task place cs = evalMany host o schedule task' place cs := by
  unfold evalMany
  split
  · refine foldlM_congr (fun env t ht => ?_) _
    simp only [h _ t.1 (List.fst_mem_of_mem_zipIdx ht)]
  · refine foldlM_congr (fun env tasks ht => ?_) _
    have here : ∀ t ∈ tasks, task (place ++ [t.2]) t.1 = task' (place ++ [t.2]) t.1 :=
      fun t h' => h _ t.1 (List.fst_mem_of_mem_zipIdx (mem_of_mem_chunks ht h'))
    simp only [evalChunk, chunkResults_congr here]

theorem evalReference_congr {e : Evaluator} {chain : List String} {c : Composite}
    (h : ∀ d, e.ast.Calls (chain, c) (chain ++ [c.ident], d) → ∀ place, task place d = task' place d) :
    evalReference e task chain place c = evalReference e task' chain place c := by
  unfold evalReference
  congr 1
  funext _
  split
  · rfl
  next fresh =>
    have same : evalDefinitions e task place c = evalDefinitions e task' place c := by
      refine foldlM_congr (fun env t ht => ?_) _
      have defined := List.fst_mem_of_mem_zipIdx ht
      have many : ∀ place, ∀ d ∈ t.1.composites, task place d = task' place d :=
        fun place d hd => h d (.composite fresh defined hd) place
      simp only [evalDefinition, evalMany_congr many]
    rw [same]

end

end EnvManifest
