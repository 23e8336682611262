import EnvManifest.Proofs.Eval.Composite
import EnvManifest.Proofs.Value.Fields

/-!
# The order of executions

A run executes statements in an order that can be read off the manifest, and the last execution
that binds a variable counts. A journal is what a run records: each execution with its value. The
evaluation without a journal is the one with it, of which only the last value of each variable is
kept.
-/

namespace EnvManifest

/-! ## Executions -/

/-- The execution of a statement in a pass of a definition. -/
structure Execution where
  ns : Namespace
  parameter : Option String
  /-- The number of the pass, from one. -/
  index : Nat
  /-- The number of passes. -/
  count : Nat
  statement : Statement

/-- The executions of the passes of a definition: one pass for each parameter, or one without. -/
def Namespace.executions (ns : Namespace) (parameters : List Parameter) : List Execution :=
  let texts := if parameters.isEmpty then [none] else parameters.map fun p => some p.value.text
  texts.zipIdx.flatMap fun (text, i) =>
    ns.statements.map fun s => ⟨ns, text, i + 1, texts.length, s⟩

/-- The parameters that a reference hands up: for each of its definitions, those of the definition,
those that its composites hand up, and the arguments of the reference. -/
def Ast.parametersOf (ast : Ast) (chain : List String) (c : Composite) : List Parameter :=
  if _again : c.ident ∈ chain then []
  else if _undefined : ast.lookup c.ident = [] then []
  else (ast.lookup c.ident).flatMap fun n =>
    n.parameters ++ n.composites.flatMap (ast.parametersOf (chain ++ [c.ident])) ++ c.arguments
termination_by (ast.unvisited chain).length
decreasing_by exact Ast.length_unvisited_lt _again _undefined

/-- The executions of a reference: for each of its definitions, those of its composites, and then
its own. -/
def Ast.executionsOf (ast : Ast) (chain : List String) (c : Composite) : List Execution :=
  if _again : c.ident ∈ chain then []
  else if _undefined : ast.lookup c.ident = [] then []
  else (ast.lookup c.ident).flatMap fun n =>
    n.composites.flatMap (ast.executionsOf (chain ++ [c.ident])) ++
      n.executions (n.parameters ++
        n.composites.flatMap (ast.parametersOf (chain ++ [c.ident])) ++ c.arguments)
termination_by (ast.unvisited chain).length
decreasing_by exact Ast.length_unvisited_lt _again _undefined

/-- The executions of requested names. -/
def Ast.executions (ast : Ast) (names : List String) : List Execution :=
  names.flatMap fun name => ast.executionsOf [] (.named name)

/-! ## Journals -/

/-- What a run records, and the parameters that it hands up. -/
structure Journal where
  entries : List (Execution × Value)
  parameters : List Parameter

namespace Journal

def empty : Journal := ⟨[], []⟩

def append (a b : Journal) : Journal := ⟨a.entries ++ b.entries, a.parameters ++ b.parameters⟩

/-- The variables of some entries with their values, in the order of the run. -/
def bindings (entries : List (Execution × Value)) : List (String × Value) :=
  entries.map fun (x, v) => (x.statement.ident, v)

/-- The environment in which the last value of each variable counts. -/
def environment (j : Journal) : Environment := ⟨Fields.ofList (bindings j.entries), j.parameters⟩

/-- The last value of a variable. -/
def last? (j : Journal) (name : String) : Option Value :=
  ((j.entries.filter fun (x, _) => x.statement.ident == name).getLast?).map (·.2)

end Journal

/-! ## Runs with a journal -/

/-- The execution of a statement in a pass. -/
def Pass.execution (pass : Pass) (s : Statement) : Execution :=
  ⟨pass.ns, pass.parameter, pass.index, pass.count, s⟩

/-- The entries of a pass. -/
def Pass.journal (pass : Pass) (o : EvalOptions) : Passing (List (Execution × Value)) := do
  let scope ← pass.openScope o
  pass.ns.statements.foldlM (fun entries s => do
    let v ← pass.runStatement o scope s
    return entries ++ [(pass.execution s, v)]) []

/-- The entries of some passes of a definition, after those of its composites. -/
def journalPasses (o : EvalOptions) (ns : Namespace) (composed : Journal)
    (parameters : List Parameter) : Passing (List (Execution × Value)) :=
  (passes ns composed.environment.vars parameters).foldlM
    (fun entries pass => return entries ++ (← pass.journal o)) composed.entries

/-- The entries of a definition, after those of its composites. -/
def journalNamespace (host : Host) (o : EvalOptions) (ns : Namespace) (composed : Journal)
    (arguments : List Parameter) : Evaluation Journal := do
  let parameters := ns.parameters ++ composed.parameters ++ arguments
  let work := journalPasses o ns composed parameters
  let (result, engine) := (work.run).run (Engine.new host (Facts.ofHost host) (← get))
  set engine.clock.patience
  match result with
  | .ok entries => return ⟨entries, parameters⟩
  | .error e => throw e

/-- The entries of some composites, one after another. -/
def journalMany (task : Composite → Evaluation Journal) (composites : List Composite) :
    Evaluation Journal :=
  composites.foldlM (fun j c => return j.append (← task c)) .empty

/-- The entries of a reference, with the names on the way to it. -/
def journalComposite (e : Evaluator) (chain : List String) (c : Composite) : Evaluation Journal := do
  Evaluation.goOn
  if _again : c.ident ∈ chain then throw (.cycle (chain ++ [c.ident]))
  else if _undefined : e.ast.lookup c.ident = [] then
    if e.options.strict then throw (.undefinedNamespace c.ident) else return .empty
  else if e.options.unique && hasDuplicate ((e.ast.lookup c.ident).map Namespace.print) then
    throw (.duplicate c.ident)
  else
    (e.ast.lookup c.ident).foldlM (fun j ns => do
      let composed ← journalMany (journalComposite e (chain ++ [c.ident])) ns.composites
      return j.append (← journalNamespace e.host e.options ns composed c.arguments)) .empty
termination_by (e.ast.unvisited chain).length
decreasing_by exact Ast.length_unvisited_lt _again _undefined

/-- The entries of requested names. -/
def journalRequested (e : Evaluator) (names : List String) : Evaluation Journal :=
  journalMany (journalComposite e []) (names.map Composite.named)

/-! ## Runs with and without a journal -/

namespace Journal

theorem bindings_append (a b : List (Execution × Value)) :
    bindings (a ++ b) = bindings a ++ bindings b := List.map_append

@[simp] theorem environment_parameters (j : Journal) : j.environment.parameters = j.parameters := rfl

theorem environment_append (a b : Journal) :
    (a.append b).environment = a.environment.merge b.environment := by
  simp only [environment, append, Environment.merge, bindings_append, Fields.union_ofList]

end Journal

theorem run_eq_journal (pass : Pass) (o : EvalOptions) :
    pass.run o = (fun entries => Fields.ofList (Journal.bindings entries)) <$> pass.journal o := by
  rw [Pass.run, Pass.journal, map_bind]
  congr 1
  funext scope
  refine foldlM_map (φ := fun entries => Fields.ofList (Journal.bindings entries))
    (fun entries s _ => ?_) []
  simp only [map_bind, map_pure, Fields.insert_ofList, Journal.bindings_append]
  rfl

theorem runPasses_eq_journal (o : EvalOptions) (ns : Namespace) (composed : Journal)
    (parameters : List Parameter) :
    runPasses o ns composed.environment.vars parameters =
      (fun entries => Fields.ofList (Journal.bindings entries)) <$>
        journalPasses o ns composed parameters := by
  refine foldlM_map (φ := fun entries => Fields.ofList (Journal.bindings entries))
    (fun entries pass _ => ?_) composed.entries
  simp only [run_eq_journal, map_bind, map_pure, bind_map_left, Journal.bindings_append,
    Fields.union_ofList]

theorem outcome_journalNamespace (host : Host) (o : EvalOptions) (ns : Namespace)
    (composed : Journal) (arguments : List Parameter) (p : Patience) :
    let parameters := ns.parameters ++ composed.parameters ++ arguments
    let ran := outcome (journalPasses o ns composed parameters)
      (Engine.new host (Facts.ofHost host) p)
    outcome (journalNamespace host o ns composed arguments) p =
      (ran.1.map fun entries => ⟨entries, parameters⟩, ran.2.clock.patience) := by
  intro parameters ran
  unfold journalNamespace
  change outcome (get >>= fun _ => _) p = _
  rw [outcome_bind, outcome_get]
  change outcome (set ran.2.clock.patience >>= fun _ =>
    match ran.1 with
    | .ok entries => pure (⟨entries, parameters⟩ : Journal)
    | .error e => throw e) p = _
  rw [outcome_bind, outcome_set]
  cases ran.1 <;> rfl

theorem runNamespace_eq_journal (host : Host) (o : EvalOptions) (ns : Namespace)
    (composed : Journal) (arguments : List Parameter) :
    runNamespace host o ns composed.environment arguments =
      Journal.environment <$> journalNamespace host o ns composed arguments := by
  refine work_ext fun p => ?_
  rw [outcome_runNamespace, outcome_map, outcome_journalNamespace, runPasses_eq_journal,
    outcome_map]
  simp only [Journal.environment_parameters]
  rcases outcome (journalPasses o ns composed _) _ with ⟨_ | entries, engine⟩ <;> rfl

/-! ## Runs without chunks -/

/-- Composites are evaluated one after another. -/
def EvalOptions.Serial (o : EvalOptions) (host : Host) : Prop :=
  min (o.parallelism host) host.cores ≤ 1

theorem evalMany_of_serial {host : Host} {o : EvalOptions} (serial : o.Serial host)
    (schedule : Schedule) (task : Task) (place : Place) (cs : List Composite) :
    evalMany host o schedule task place cs = evalSerially task place cs := by
  have none : o.chunkSize? host cs.length = none :=
    if_neg fun ⟨parallel, _⟩ => Nat.not_lt.mpr serial parallel
  rw [evalMany, none]

theorem foldlM_zipIdx {m : Type → Type} [Monad m] {α β : Type} (f : β → α → m β) (as : List α)
    (b : β) : as.zipIdx.foldlM (fun b t => f b t.1) b = as.foldlM f b := by
  conv_rhs => rw [← List.zipIdx_map_fst 0 as, List.foldlM_map]

theorem evalSerially_eq_journal {task : Task} {journal : Composite → Evaluation Journal}
    {place : Place} {cs : List Composite}
    (h : ∀ place, ∀ c ∈ cs, task place c = Journal.environment <$> journal c) :
    evalSerially task place cs = Journal.environment <$> journalMany journal cs := by
  have places : evalSerially task place cs =
      cs.foldlM (fun env c => return env.merge (← Journal.environment <$> journal c)) .empty := by
    rw [← foldlM_zipIdx]
    refine foldlM_congr (fun env t ht => ?_) _
    simp only [h _ t.1 (List.fst_mem_of_mem_zipIdx ht)]
  rw [places]
  refine foldlM_map (φ := Journal.environment) (fun j c _ => ?_) .empty
  simp only [map_bind, map_pure, bind_map_left, Journal.environment_append]

theorem evalComposite_eq_journal {e : Evaluator} (serial : e.options.Serial e.host)
    (chain : List String) :
    ∀ place c, evalComposite e chain place c = Journal.environment <$> journalComposite e chain c := by
  induction chain using chain_induction e.ast with
  | step chain ih =>
    intro place c
    rw [evalComposite_eq, evalReference, journalComposite, map_bind]
    congr 1
    funext _
    split
    next again => rfl
    next fresh =>
    split
    next undefined => split <;> rfl
    next defined =>
    split
    · rfl
    · have composed : ∀ place, ∀ n ∈ e.ast.lookup c.ident,
          evalMany e.host e.options e.schedule (evalComposite e (chain ++ [c.ident])) place n.composites =
            Journal.environment <$>
              journalMany (journalComposite e (chain ++ [c.ident])) n.composites := by
        intro place n hn
        rw [evalMany_of_serial serial]
        exact evalSerially_eq_journal fun place d _ => ih c.ident fresh defined place d
      have places : evalDefinitions e (evalComposite e (chain ++ [c.ident])) place c =
          (e.ast.lookup c.ident).foldlM (fun env n => do
            let composed ← journalMany (journalComposite e (chain ++ [c.ident])) n.composites
            let own ← journalNamespace e.host e.options n composed c.arguments
            return env.merge own.environment) .empty := by
        rw [← foldlM_zipIdx]
        refine foldlM_congr (fun env t ht => ?_) _
        simp only [evalDefinition, composed _ t.1 (List.fst_mem_of_mem_zipIdx ht), bind_map_left,
          runNamespace_eq_journal, bind_assoc]
      rw [places]
      refine foldlM_map (φ := Journal.environment) (fun j n _ => ?_) .empty
      simp only [map_bind, map_pure, Journal.environment_append]

theorem evalRequested_eq_journal {e : Evaluator} (serial : e.options.Serial e.host)
    (names : List String) :
    evalRequested e names = Journal.environment <$> journalRequested e names := by
  rw [evalRequested, evalMany_of_serial serial]
  exact evalSerially_eq_journal fun place c _ => evalComposite_eq_journal serial [] place c

/-! ## What a journal has -/

/-- The executions that some entries are about. -/
def executed (entries : List (Execution × Value)) : List Execution := entries.map (·.1)

/-- A journal of some executions, with some parameters handed up. -/
def Journal.Of (executions : List Execution) (parameters : List Parameter) (j : Journal) : Prop :=
  executed j.entries = executions ∧ j.parameters = parameters

theorem Journal.Of.append {a b : Journal} {xs ys : List Execution} {ps qs : List Parameter}
    (ha : a.Of xs ps) (hb : b.Of ys qs) : (a.append b).Of (xs ++ ys) (ps ++ qs) := by
  obtain ⟨rfl, rfl⟩ := ha
  obtain ⟨rfl, rfl⟩ := hb
  exact ⟨List.map_append, rfl⟩

theorem passes_executions (ns : Namespace) (composed : Fields Value) (parameters : List Parameter) :
    (passes ns composed parameters).flatMap (fun pass => pass.ns.statements.map pass.execution) =
      ns.executions parameters := by
  simp only [passes, Namespace.executions, List.flatMap_map]
  rfl

theorem passJournal_ends (pass : Pass) (o : EvalOptions) :
    Ends (pass.journal o) (fun entries => executed entries = pass.ns.statements.map pass.execution)
      (fun _ => True) := by
  have opened : Ends (pass.openScope o) (fun _ => True) (fun _ => True) := fun _ => trivial
  refine opened.bind fun scope _ => ?_
  refine ends_foldlM_inv (I := fun before entries => executed entries = before.map pass.execution)
    _ rfl fun before entries s hs h => ?_
  refine ((runStatement_ends pass o scope hs).mono (fun _ h => h) fun _ _ => trivial).bind fun v _ =>
    ends_pure ?_
  simp only [executed, List.map_append] at h ⊢
  rw [h]
  rfl

theorem journalNamespace_ends (host : Host) (o : EvalOptions) (ns : Namespace) (composed : Journal)
    (arguments : List Parameter) :
    Ends (journalNamespace host o ns composed arguments)
      (Journal.Of
        (executed composed.entries ++ ns.executions (ns.parameters ++ composed.parameters ++ arguments))
        (ns.parameters ++ composed.parameters ++ arguments)) (fun _ => True) := by
  have made : Ends
      (journalPasses o ns composed (ns.parameters ++ composed.parameters ++ arguments))
      (fun entries => executed entries = executed composed.entries ++
        ns.executions (ns.parameters ++ composed.parameters ++ arguments))
      (fun _ => True) := by
    rw [← passes_executions ns composed.environment.vars]
    refine ends_foldlM_inv (I := fun before entries => executed entries = executed composed.entries ++
      before.flatMap fun pass : Pass => pass.ns.statements.map pass.execution) _ (by simp)
      fun before entries pass _ h => ?_
    refine (passJournal_ends pass o).bind fun own hown => ends_pure ?_
    rw [executed, List.map_append]
    change executed entries ++ executed own = _
    rw [h, hown]
    simp
  intro p
  rw [outcome_journalNamespace]
  cases hr : (outcome (journalPasses o ns composed (ns.parameters ++ composed.parameters ++ arguments))
      (Engine.new host (Facts.ofHost host) p)).1 with
  | ok entries => exact ⟨made.ok hr, rfl⟩
  | error e => trivial

theorem journalMany_ends {task : Composite → Evaluation Journal} {cs : List Composite}
    {xs : Composite → List Execution} {ps : Composite → List Parameter}
    (h : ∀ c ∈ cs, Ends (task c) (Journal.Of (xs c) (ps c)) (fun _ => True)) :
    Ends (journalMany task cs) (Journal.Of (cs.flatMap xs) (cs.flatMap ps)) (fun _ => True) := by
  refine ends_foldlM_inv (I := fun before => Journal.Of (before.flatMap xs) (before.flatMap ps))
    _ ⟨rfl, rfl⟩ fun before j c hc hj => ?_
  refine (h c hc).bind fun own hown => ends_pure ?_
  simpa using hj.append hown

theorem journalComposite_ends (e : Evaluator) (chain : List String) :
    ∀ c, Ends (journalComposite e chain c)
      (Journal.Of (e.ast.executionsOf chain c) (e.ast.parametersOf chain c)) (fun _ => True) := by
  induction chain using chain_induction e.ast with
  | step chain ih =>
    intro c
    rw [journalComposite]
    refine (goOn_ends.mono (fun _ h => h) fun _ _ => trivial).bind fun _ _ => ?_
    rw [Ast.executionsOf, Ast.parametersOf]
    split
    next again => exact ends_throw trivial
    next fresh =>
    split
    next undefined =>
      split
      · exact ends_throw trivial
      · exact ends_pure ⟨rfl, rfl⟩
    next defined =>
    split
    · exact ends_throw trivial
    · refine ends_foldlM_inv (I := fun before => Journal.Of (before.flatMap _) (before.flatMap _))
        _ ⟨rfl, rfl⟩ fun before j n hn hj => ?_
      have composed := journalMany_ends (fun d (_ : d ∈ n.composites) => ih c.ident fresh defined d)
      refine composed.bind fun composed hc => ?_
      refine (journalNamespace_ends _ _ _ _ _).bind fun own hown => ends_pure ?_
      rw [hc.1, hc.2] at hown
      simpa using hj.append hown

theorem last?_environment (j : Journal) (name : String) :
    j.environment.vars.get? name = j.last? name := by
  rw [Journal.environment, Fields.get?_ofList, Fields.last?, Journal.last?, Journal.bindings,
    ← List.map_reverse, List.find?_map, List.getLast?_eq_head?_reverse, ← List.filter_reverse,
    List.head?_filter, Option.map_map]
  rfl

theorem mem_keys_environment {j : Journal} {executions : List Execution} {name : String}
    (h : executed j.entries = executions) :
    name ∈ j.environment.vars.keys ↔ ∃ x ∈ executions, x.statement.ident = name := by
  subst h
  simp only [Fields.mem_keys_iff, last?_environment, ← Option.isSome_iff_exists]
  simp [Journal.last?, executed]

/-- One after another, an evaluation that succeeds executes statements in the order that the
manifest gives. Its variables are those of the executed statements, and each has the value that
its last execution recorded. -/
theorem eval_keeps_last_values (m : Model) (host : Host) (schedule : Schedule) (o : EvalOptions)
    (p : Patience) (names : List String) (vars : Fields Value) (serial : o.Serial host)
    (succeeds : m.eval host schedule o p names = .ok vars) :
    ∃ j, (outcome (journalRequested ⟨host, m.ast, o, schedule⟩ names) p).1 = .ok j ∧
      executed j.entries = m.ast.executions names ∧
      vars.Sorted ∧
      (∀ name, name ∈ vars.keys ↔ ∃ x ∈ m.ast.executions names, x.statement.ident = name) ∧
      ∀ name, vars.get? name = j.last? name := by
  obtain ⟨env, ran, rfl⟩ := eval_eq_ok succeeds
  rw [evalRequested_eq_journal serial, outcome_map] at ran
  cases hj : (outcome (journalRequested ⟨host, m.ast, o, schedule⟩ names) p).1 with
  | error e => simp [hj, Except.map] at ran
  | ok j =>
    obtain rfl : j.environment = env := by simpa [hj, Except.map] using ran
    have made : executed j.entries = m.ast.executions names := by
      have of := (journalMany_ends fun c _ => journalComposite_ends ⟨host, m.ast, o, schedule⟩ [] c).ok hj
      rw [of.1, List.flatMap_map]
      rfl
    exact ⟨j, rfl, made, Fields.sorted_ofList _, fun _ => mem_keys_environment made,
      last?_environment j⟩

/-- A name that gets its parameters from the one that it composes, and binds the same variable. -/
def overlap : Model :=
  ⟨⟨[⟨"a", [.named "b"], [], [⟨"x", "=", ⟨"1", 0⟩, ⟨0, 0⟩⟩], 0, ⟨0, 0⟩⟩,
    ⟨"b", [], [⟨.word "p", ⟨0, 0⟩⟩, ⟨.word "q", ⟨0, 0⟩⟩], [⟨"x", "=", ⟨"2", 0⟩, ⟨0, 0⟩⟩], 0, ⟨0, 0⟩⟩]⟩, []⟩

theorem overlap_keeps_last_values :
    ((overlap.ast.executions ["a"]).map fun x => (x.ns.ident, x.parameter)) =
      [("b", some "p"), ("b", some "q"), ("a", some "p"), ("a", some "q")] ∧
    ∃ vars, overlap.eval .bare .calm .default .endless ["a"] = .ok vars ∧
      ∀ name, name ∈ vars.keys ↔ ∃ x ∈ overlap.ast.executions ["a"], x.statement.ident = name := by
  constructor
  · decide +kernel
  · have succeeds : (overlap.eval .bare .calm .default .endless ["a"]).isOk = true := by
      decide +kernel
    cases hr : overlap.eval .bare .calm .default .endless ["a"] with
    | ok vars =>
      have serial : EvalOptions.default.Serial .bare := Nat.le_refl 1
      obtain ⟨_, _, _, _, keys, _⟩ := eval_keeps_last_values _ _ _ _ _ _ vars serial hr
      exact ⟨vars, rfl, keys⟩
    | error e => simp [hr, Except.isOk, Except.toBool] at succeeds

end EnvManifest
