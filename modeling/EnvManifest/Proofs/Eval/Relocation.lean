import EnvManifest.Proofs.Eval.Composite
import EnvManifest.Proofs.Manifest.Concatenation
import EnvManifest.Proofs.Manifest.RoundTrip

/-!
# Namespaces that move to one text

The namespaces of some texts can be moved to one that holds these texts from some offsets on. An
evaluation then comes to the same variables, or to an error that has moved in the same way.
-/

namespace EnvManifest

open Text

/-! ## Moving -/

/-- A namespace in one text that has the text of the namespace from some offset on. -/
def Namespace.relocate (start : Nat → Nat) (n : Namespace) : Namespace :=
  { n.shift (start n.origin) with origin := 0 }

def EvalError.relocate (start : Nat → Nat) : EvalError → EvalError
  | expression e =>
    expression { e with origin := 0, offset := e.offset.map (· + start e.origin) }
  | e => e

theorem expressionError_relocate (start : Nat → Nat) (n : Namespace) (s : Statement)
    (e : EngineError) :
    Pass.expressionError (n.relocate start) (s.shift (start n.origin)) e =
      (Pass.expressionError n s e).relocate start := by
  unfold Pass.expressionError EvalError.relocate
  dsimp only [Namespace.relocate, Namespace.shift, Statement.shift]
  congr 2
  cases e.describe.1.bind (Pass.lineStart? s.expression.source.toList) with
  | none => rfl
  | some offset =>
    simp only [Option.map_some, Option.some.injEq]
    omega

/-! ## Work that comes to the same -/

section

variable (start : Nat → Nat) {σ α β γ δ : Type}

inductive SameResult (R : α → β → Prop) : Except EvalError α → Except EvalError β → Prop
  | ok {a : α} {b : β} (h : R a b) : SameResult R (.ok a) (.ok b)
  | error (e : EvalError) : SameResult R (.error e) (.error (e.relocate start))

/-- Work comes to the same as other work, up to a relation of values and to the places in errors. -/
def Matches (R : α → β → Prop) (m : Work σ α) (m' : Work σ β) : Prop :=
  ∀ s, SameResult start R (outcome m s).1 (outcome m' s).1 ∧ (outcome m' s).2 = (outcome m s).2

variable {start} {R : α → β → Prop} {Q : γ → δ → Prop}

theorem matches_pure {a : α} {b : β} (h : R a b) :
    Matches start R (pure a : Work σ α) (pure b) := fun _ => ⟨.ok h, rfl⟩

theorem matches_throw {e e' : EvalError} (h : e' = e.relocate start) :
    Matches start R (throw e : Work σ α) (throw e') := by
  subst h
  exact fun _ => ⟨.error e, rfl⟩

theorem Matches.bind {m : Work σ α} {m' : Work σ β} {k : α → Work σ γ} {k' : β → Work σ δ}
    (hm : Matches start R m m') (hk : ∀ a b, R a b → Matches start Q (k a) (k' b)) :
    Matches start Q (m >>= k) (m' >>= k') := by
  intro s
  obtain ⟨same, after⟩ := hm s
  rw [outcome_bind, outcome_bind]
  rcases hr : outcome m s with ⟨r, t⟩
  rcases hr' : outcome m' s with ⟨r', t'⟩
  rw [hr, hr'] at same after
  obtain rfl : t' = t := after
  cases same with
  | ok h => exact hk _ _ h t'
  | error e => exact ⟨.error e, rfl⟩

theorem matches_foldlM {k : α → γ → Work σ α} {k' : β → γ → Work σ β} {as : List γ} {a : α} {b : β}
    (h : ∀ a b, ∀ c ∈ as, R a b → Matches start R (k a c) (k' b c)) (hab : R a b) :
    Matches start R (as.foldlM k a) (as.foldlM k' b) := by
  induction as generalizing a b with
  | nil => exact matches_pure hab
  | cons c as ih =>
    rw [List.foldlM_cons, List.foldlM_cons]
    refine (h a b c List.mem_cons_self hab).bind fun a b hab => ?_
    exact ih (fun a b c hc => h a b c (List.mem_cons_of_mem _ hc)) hab

theorem matches_goOn : Matches start Eq Evaluation.goOn Evaluation.goOn := by
  intro p
  refine ⟨?_, rfl⟩
  rw [outcome_goOn]
  cases p.ask.1
  · exact .ok rfl
  · exact .error .cancelled

theorem matches_ofEvaluation {m : Evaluation α} {m' : Evaluation β} (h : Matches start R m m') :
    Matches start R (Passing.ofEvaluation m) (Passing.ofEvaluation m') := by
  intro engine
  obtain ⟨same, after⟩ := h engine.clock.patience
  rw [outcome_ofEvaluation, outcome_ofEvaluation, after]
  exact ⟨same, rfl⟩

theorem matches_modifyGet (f : σ → α × σ) :
    Matches start Eq (modifyGet f : Work σ α) (modifyGet f) := fun _ => ⟨.ok rfl, rfl⟩

end

variable {start : Nat → Nat}

/-! ## Passes -/

def Pass.relocate (start : Nat → Nat) (pass : Pass) : Pass :=
  { pass with ns := pass.ns.relocate start }

theorem matches_runStatement (pass : Pass) (o : EvalOptions) (scope : ScopeId) (s : Statement) :
    Matches start Eq (pass.runStatement o scope s)
      ((pass.relocate start).runStatement o scope (s.shift (start pass.ns.origin))) := by
  have hvalue : (pass.relocate start).valueOf o scope (s.shift (start pass.ns.origin)) =
      pass.valueOf o scope s := by
    have hshadowed : (pass.relocate start).shadowed o = pass.shadowed o := by
      unfold Pass.shadowed Pass.relocate Namespace.relocate Namespace.shift
      rw [List.map_map]
      rfl
    unfold Pass.valueOf
    rw [hshadowed]
    rfl
  rw [runStatement_eq, runStatement_eq, hvalue]
  refine (matches_ofEvaluation matches_goOn).bind fun _ _ _ => ?_
  refine (matches_modifyGet _).bind fun result result' hresult => ?_
  subst hresult
  cases result with
  | ok v => exact matches_pure rfl
  | error e =>
    refine (matches_ofEvaluation matches_goOn).bind fun _ _ _ => ?_
    exact matches_throw (expressionError_relocate start pass.ns s e)

theorem matches_run (pass : Pass) (o : EvalOptions) :
    Matches start Eq (pass.run o) ((pass.relocate start).run o) := by
  unfold Pass.run
  refine Matches.bind (R := Eq) (matches_modifyGet _) fun scope scope' hscope => ?_
  subst hscope
  have hstatements : (pass.relocate start).ns.statements =
      pass.ns.statements.map (·.shift (start pass.ns.origin)) := rfl
  rw [hstatements, List.foldlM_map]
  refine matches_foldlM (fun bound bound' s _ hbound => ?_) rfl
  subst hbound
  refine (matches_runStatement pass o scope s).bind fun v v' hv => ?_
  subst hv
  exact matches_pure rfl

theorem passes_relocate (n : Namespace) (composed : Fields Value) {ps qs : List Parameter}
    (h : qs.map (·.value) = ps.map (·.value)) :
    passes (n.relocate start) composed qs = (passes n composed ps).map (Pass.relocate start) := by
  have hempty : qs.isEmpty = ps.isEmpty := by
    rw [← List.isEmpty_map (f := Parameter.value), h, List.isEmpty_map]
  have htexts (ps : List Parameter) : ps.map (fun p => some p.value.text) =
      (ps.map (·.value)).map fun v => some v.text := by
    rw [List.map_map]
    rfl
  unfold passes
  dsimp only
  rw [hempty, htexts, htexts, h]
  generalize (if ps.isEmpty then [none] else _) = texts
  rw [List.map_map]
  rfl

theorem matches_runPasses (o : EvalOptions) (n : Namespace) (composed : Fields Value)
    {ps qs : List Parameter} (h : qs.map (·.value) = ps.map (·.value)) :
    Matches start Eq (runPasses o n composed ps) (runPasses o (n.relocate start) composed qs) := by
  unfold runPasses
  rw [passes_relocate n composed h, List.foldlM_map]
  refine matches_foldlM (fun bound bound' pass _ hbound => ?_) rfl
  subst hbound
  refine (matches_run pass o).bind fun v v' hv => ?_
  subst hv
  exact matches_pure rfl

/-- Environments that differ in the places of their parameters only. -/
structure Environment.Alike (a b : Environment) : Prop where
  vars : b.vars = a.vars
  parameters : b.parameters.map (·.value) = a.parameters.map (·.value)

theorem Environment.Alike.merge {a b a' b' : Environment} (h : a.Alike b) (h' : a'.Alike b') :
    (a.merge a').Alike (b.merge b') := by
  refine ⟨?_, ?_⟩
  · simp only [Environment.merge, h.vars, h'.vars]
  · simp only [Environment.merge, List.map_append, h.parameters, h'.parameters]

theorem parameters_shift (k : Nat) (ps : List Parameter) :
    (ps.map (·.shift k)).map (·.value) = ps.map (·.value) := by
  rw [List.map_map]
  rfl

theorem matches_runNamespace (host : Host) (o : EvalOptions) (n : Namespace) {a b : Environment}
    (h : a.Alike b) (k : Nat) (arguments : List Parameter) :
    Matches start Environment.Alike (runNamespace host o n a arguments)
      (runNamespace host o (n.relocate start) b (arguments.map (·.shift k))) := by
  have hparameters : ((n.relocate start).parameters ++ b.parameters ++
      arguments.map (·.shift k)).map (·.value) =
        (n.parameters ++ a.parameters ++ arguments).map (·.value) := by
    simp only [List.map_append, h.parameters, parameters_shift]
    congr 2
    exact parameters_shift _ _
  intro p
  rw [outcome_runNamespace, outcome_runNamespace, h.vars]
  have hpasses : Matches start Eq _ _ := matches_runPasses o n a.vars hparameters
  obtain ⟨same, after⟩ := hpasses (Engine.new host (Facts.ofHost host) p)
  rw [after]
  refine ⟨?_, rfl⟩
  generalize (outcome (runPasses o n a.vars _) _).1 = r at same ⊢
  generalize (outcome (runPasses o (n.relocate start) a.vars _) _).1 = r' at same ⊢
  cases same with
  | ok hvars => exact .ok ⟨hvars.symm, hparameters⟩
  | error e => exact .error e

/-! ## Tasks -/

theorem chunks_map {α β : Type} (f : α → β) (size : Nat) (items : List α) :
    chunks size (items.map f) = (chunks size items).map (·.map f) := by
  fun_induction chunks size items with
  | case1 items hend hnil =>
    rw [List.isEmpty_iff.mp hnil, List.map_nil, chunks]
    simp
  | case2 items hend hsome =>
    have hsize : size = 0 := hend.resolve_right (by simpa using hsome)
    rw [chunks, dif_pos (.inl hsize), List.isEmpty_map, if_neg hsome]
    rfl
  | case3 items hmore ih =>
    rw [chunks, dif_neg (by simpa using hmore), ← List.map_take, ← List.map_drop, ih]
    rfl

section

variable {schedule : Schedule} {task task' : Task} {place : Place} {cs : List Composite}

theorem evalSerially_map (f : Composite → Composite) :
    evalSerially task place (cs.map f) = evalSerially (fun place c => task place (f c)) place cs := by
  unfold evalSerially
  rw [List.zipIdx_map, List.foldlM_map]
  rfl

theorem evalChunk_map (f : Composite → Composite) (tasks : List (Composite × Nat)) :
    evalChunk schedule task place (tasks.map (Prod.map f id)) =
      evalChunk schedule (fun place c => task place (f c)) place tasks := by
  have hresults (p : Patience) :
      chunkResults schedule task place p (tasks.map (Prod.map f id)) =
        chunkResults schedule (fun place c => task place (f c)) place p tasks := by
    rw [chunkResults_eq, chunkResults_eq, List.map_map]
    have hfails : failsUntold schedule task place p (tasks.map (Prod.map f id)) =
        failsUntold schedule (fun place c => task place (f c)) place p tasks := by
      unfold failsUntold
      rw [List.any_map]
      rfl
    rw [hfails]
    rfl
  unfold evalChunk
  simp only [hresults]

theorem evalMany_map {host : Host} {o : EvalOptions} (f : Composite → Composite) :
    evalMany host o schedule task place (cs.map f) =
      evalMany host o schedule (fun place c => task place (f c)) place cs := by
  unfold evalMany
  rw [List.length_map]
  split
  · exact evalSerially_map f
  · unfold evalChunks
    rw [List.zipIdx_map, chunks_map, List.foldlM_map]
    simp only [evalChunk_map]

theorem matches_evalSerially
    (h : ∀ place, ∀ c ∈ cs, Matches start Environment.Alike (task place c) (task' place c)) :
    Matches start Environment.Alike (evalSerially task place cs) (evalSerially task' place cs) := by
  unfold evalSerially
  refine matches_foldlM (fun env env' t ht henv => ?_) ⟨rfl, rfl⟩
  refine (h _ t.1 (List.fst_mem_of_mem_zipIdx ht)).bind fun a b hab => ?_
  exact matches_pure (henv.merge hab)

/-! ## Chunks -/

/-- Results of two tasks that come to the same. -/
structure TaskResult.Matches (start : Nat → Nat) (r r' : TaskResult) : Prop where
  result : SameResult start Environment.Alike r.1 r'.1
  patience : r'.2 = r.2

theorem TaskResult.Matches.failed {r r' : TaskResult} (h : r.Matches start r') :
    failed r' = failed r := by
  obtain ⟨r, p⟩ := r
  obtain ⟨r', p'⟩ := r'
  cases h.result <;> rfl

section

variable {rs rs' : List TaskResult} (h : List.Forall₂ (TaskResult.Matches start) rs rs')
include h

theorem restOf_matches (p : Patience) : restOf p rs' = restOf p rs := by
  unfold restOf
  induction h generalizing p with
  | nil => rfl
  | cons hr _ ih => rw [List.foldl_cons, List.foldl_cons, hr.patience, ih]

theorem any_failed_matches : rs'.any failed = rs.any failed := by
  induction h with
  | nil => rfl
  | cons hr _ ih => rw [List.any_cons, List.any_cons, hr.failed, ih]

theorem genuineError?_matches :
    genuineError? rs' = (genuineError? rs).map (.relocate start) := by
  unfold genuineError?
  induction h with
  | nil => rfl
  | @cons r r' _ _ hr _ ih =>
    rw [List.findSome?_cons, List.findSome?_cons, ih]
    obtain ⟨r, p⟩ := r
    obtain ⟨r', p'⟩ := r'
    cases hr.result with
    | ok h => rfl
    | error e => cases e <;> rfl

theorem environments_match {a b : Environment} (hab : a.Alike b) :
    Environment.Alike ((rs.filterMap fun r => r.1.toOption).foldl Environment.merge a)
      ((rs'.filterMap fun r => r.1.toOption).foldl Environment.merge b) := by
  induction h generalizing a b with
  | nil => exact hab
  | @cons r r' _ _ hr _ ih =>
    obtain ⟨r, p⟩ := r
    obtain ⟨r', p'⟩ := r'
    cases hr.result with
    | ok h => exact ih (hab.merge h)
    | error e => exact ih hab

end

variable {tasks : List (Composite × Nat)}

theorem chunkResults_matches
    (h : ∀ place, ∀ t ∈ tasks, Matches start Environment.Alike (task place t.1) (task' place t.1))
    (p : Patience) :
    List.Forall₂ (TaskResult.Matches start) (chunkResults schedule task place p tasks)
      (chunkResults schedule task' place p tasks) := by
  have alone (t) (ht : t ∈ tasks) : (runAlone schedule task (place ++ [t.2]) p t.1).Matches start
      (runAlone schedule task' (place ++ [t.2]) p t.1) := by
    obtain ⟨result, patience⟩ := h (place ++ [t.2]) t ht (taskPatience schedule (place ++ [t.2]) p)
    exact ⟨result, patience⟩
  have fails : failsUntold schedule task' place p tasks = failsUntold schedule task place p tasks := by
    rw [failsUntold, failsUntold, Bool.eq_iff_iff, List.any_eq_true, List.any_eq_true]
    exact exists_congr fun t => and_congr_right fun ht => by rw [(alone t ht).failed]
  rw [chunkResults_eq, chunkResults_eq, fails, List.forall₂_map_left_iff, List.forall₂_map_right_iff,
    List.forall₂_same]
  intro t ht
  unfold runTask
  split
  · rename_i limit _ _
    obtain ⟨result, patience⟩ := h (place ++ [t.2]) t ht
      ((taskPatience schedule (place ++ [t.2]) p).least ⟨some limit⟩)
    exact ⟨result, congrArg (fun rest => (taskPatience schedule (place ++ [t.2]) p).after
      (((taskPatience schedule (place ++ [t.2]) p).least ⟨some limit⟩).since rest)) patience⟩
  · exact alone t ht

theorem matches_evalChunk
    (h : ∀ place, ∀ t ∈ tasks, Matches start Environment.Alike (task place t.1) (task' place t.1)) :
    Matches start (fun as bs => ∀ a b, Environment.Alike a b →
        Environment.Alike (as.foldl Environment.merge a) (bs.foldl Environment.merge b))
      (evalChunk schedule task place tasks) (evalChunk schedule task' place tasks) := by
  intro p
  have hresults : List.Forall₂ (TaskResult.Matches start) (chunkResults schedule task place p tasks)
      (chunkResults schedule task' place p tasks) := chunkResults_matches h p
  rw [outcome_evalChunk, outcome_evalChunk, restOf_matches hresults, any_failed_matches hresults, genuineError?_matches hresults]
  split
  · refine ⟨?_, rfl⟩
    split
    · exact .error .cancelled
    · cases genuineError? (chunkResults schedule task place p tasks) with
      | none => exact .error .cancelled
      | some e => exact .error e
  · exact ⟨.ok fun a b hab => environments_match hresults hab, rfl⟩

theorem matches_evalMany {host : Host} {o : EvalOptions}
    (h : ∀ place, ∀ c ∈ cs, Matches start Environment.Alike (task place c) (task' place c)) :
    Matches start Environment.Alike (evalMany host o schedule task place cs)
      (evalMany host o schedule task' place cs) := by
  unfold evalMany
  split
  · exact matches_evalSerially h
  · unfold evalChunks
    refine matches_foldlM (fun env env' tasks ht henv => ?_) ⟨rfl, rfl⟩
    refine matches_goOn.bind fun _ _ _ => ?_
    refine (matches_evalChunk fun place t hmem => ?_).bind fun as bs hmerge =>
      matches_pure (hmerge _ _ henv)
    exact h place t.1 (List.fst_mem_of_mem_zipIdx (mem_of_mem_chunks ht hmem))

end

/-! ## References -/

/-- An evaluator of namespaces that have moved. -/
def Evaluator.relocate (start : Nat → Nat) (e : Evaluator) : Evaluator :=
  { e with ast := ⟨e.ast.namespaces.map (·.relocate start)⟩ }

theorem lookup_relocate (e : Evaluator) (ident : String) :
    (e.relocate start).ast.lookup ident = (e.ast.lookup ident).map (·.relocate start) := by
  unfold Ast.lookup Evaluator.relocate
  rw [List.filter_map]
  rfl

theorem Namespace.unplaced_relocate (n : Namespace) : (n.relocate start).unplaced = n.unplaced := by
  have hparameters (k : Nat) (ps : List Parameter) :
      (ps.map (·.shift k)).map Parameter.unplaced = ps.map Parameter.unplaced := by
    rw [List.map_map]
    rfl
  have hcomposites : Composite.unplaced ∘ (·.shift (start n.origin)) = Composite.unplaced := by
    funext c
    simp only [Function.comp, Composite.unplaced, Composite.shift, hparameters]
  unfold unplaced relocate shift
  dsimp only
  rw [hparameters, List.map_map, hcomposites, List.map_map]
  rfl

theorem Namespace.print_relocate (n : Namespace) : (n.relocate start).print = n.print := by
  rw [← n.print_unplaced, ← (n.relocate start).print_unplaced, n.unplaced_relocate]

theorem matches_evalDefinitions {e : Evaluator} {task task' : Task} (c : Composite) (k : Nat)
    (h : ∀ n ∈ e.ast.lookup c.ident, ∀ k place d,
      Matches start Environment.Alike (task place d) (task' place (d.shift k))) (place : Place) :
    Matches start Environment.Alike (evalDefinitions e task place c)
      (evalDefinitions (e.relocate start) task' place (c.shift k)) := by
  unfold evalDefinitions
  rw [show (c.shift k).ident = c.ident from rfl, lookup_relocate, List.zipIdx_map, List.foldlM_map]
  refine matches_foldlM (fun env env' t ht henv => ?_) ⟨rfl, rfl⟩
  have hn := List.fst_mem_of_mem_zipIdx ht
  have hmany : Matches start Environment.Alike
      (evalMany e.host e.options e.schedule task (place ++ [t.2]) t.1.composites)
      (evalMany e.host e.options e.schedule task' (place ++ [t.2])
        (t.1.composites.map (·.shift (start t.1.origin)))) := by
    rw [evalMany_map]
    exact matches_evalMany fun place d _ => h t.1 hn _ place d
  have hdefinition : Matches start Environment.Alike (evalDefinition e task place c t)
      (evalDefinition (e.relocate start) task' place (c.shift k) (t.1.relocate start, t.2)) :=
    hmany.bind fun a b hab => matches_runNamespace e.host e.options t.1 hab k c.arguments
  exact hdefinition.bind fun a b hab => matches_pure (henv.merge hab)

theorem matches_evalComposite (e : Evaluator) (chain : List String) :
    ∀ k place c, Matches start Environment.Alike (evalComposite e chain place c)
      (evalComposite (e.relocate start) chain place (c.shift k)) := by
  induction chain using chain_induction e.ast with
  | step chain ih =>
    intro k place c
    rw [evalComposite_eq, evalComposite_eq]
    unfold evalReference
    refine matches_goOn.bind fun _ _ _ => ?_
    have hprint : Namespace.print ∘ (·.relocate start) = Namespace.print :=
      funext Namespace.print_relocate
    have hsame : (e.relocate start).options = e.options := rfl
    rw [show (c.shift k).ident = c.ident from rfl, lookup_relocate, List.map_map, hprint, hsame]
    simp only [List.map_eq_nil_iff]
    split
    · exact matches_throw rfl
    rename_i hfresh
    split
    · split
      · exact matches_throw rfl
      · exact matches_pure ⟨rfl, rfl⟩
    rename_i hdefined
    split
    · exact matches_throw rfl
    · exact matches_evalDefinitions c k (fun _ _ => ih c.ident hfresh hdefined) place

theorem matches_evalRequested (e : Evaluator) (names : List String) :
    Matches start Environment.Alike (evalRequested e names)
      (evalRequested (e.relocate start) names) := by
  -- A requested name has no place, so nothing moves it.
  have hnames : names.map Composite.named = (names.map Composite.named).map (·.shift 0) := by
    rw [List.map_map]
    rfl
  unfold evalRequested
  conv in (evalMany (e.relocate start).host _ _ _ _ _) => rw [hnames, evalMany_map]
  exact matches_evalMany fun place c _ => matches_evalComposite e [] 0 place c

/-- **Models of moved namespaces come to the same.** -/
theorem eval_relocate {m m' : Model}
    (h : m'.ast.namespaces = m.ast.namespaces.map (·.relocate start)) (host : Host)
    (schedule : Schedule) (o : EvalOptions) (p : Patience) (names : List String) :
    m'.eval host schedule o p names =
      (m.eval host schedule o p names).mapError (.relocate start) := by
  have hast : (⟨host, m'.ast, o, schedule⟩ : Evaluator) =
      Evaluator.relocate start ⟨host, m.ast, o, schedule⟩ := by
    unfold Evaluator.relocate
    rw [← h]
  have hrequested : Matches start Environment.Alike _ _ :=
    matches_evalRequested ⟨host, m.ast, o, schedule⟩ names
  obtain ⟨same, -⟩ := hrequested p
  rw [eval_eq, eval_eq, hast]
  generalize (outcome (evalRequested ⟨host, m.ast, o, schedule⟩ names) p).1 = r at same ⊢
  generalize (outcome (evalRequested (Evaluator.relocate start _) names) p).1 = r' at same ⊢
  cases same with
  | ok hab => exact congrArg Except.ok hab.vars
  | error e => rfl

/-! ## Texts in one -/

/-- Some texts in one, each in a line of its own. -/
def joinLines (texts : List String) : String := "\n".intercalate texts

/-- The byte offset of a text in the text of some texts. -/
def startOf (texts : List String) (i : Nat) : Nat :=
  ((texts.take i).map fun text => byteLength text.toList + 1).sum

theorem startOf_cons (text : String) (texts : List String) (i : Nat) :
    startOf (text :: texts) (i + 1) = startOf texts i + (byteLength text.toList + 1) := by
  unfold startOf
  rw [List.take_succ_cons, List.map_cons, List.sum_cons, Nat.add_comm]

theorem relocate_eq (start : Nat → Nat) (n : Namespace) :
    n.relocate start = { n with origin := 0 }.shift (start n.origin) := rfl

theorem Ast.namespaces_append (a b : Ast) : (a ++ b).namespaces = a.namespaces ++ b.namespaces := rfl

/-- Texts that can be parsed are one such text. -/
theorem joined_derivation {origin : Nat} {sources : List Source} {ast : Ast}
    (h : Model.parseAll origin sources = .ok ast) :
    ∃ d : Grammar.Derivation, lex (joinLines (sources.map (·.text))) = .ok d.tokens ∧
      (d.ast 0).namespaces =
        ast.namespaces.map (·.relocate fun i => startOf (sources.map (·.text)) (i - origin)) := by
  induction sources generalizing origin ast with
  | nil =>
    cases h
    exact ⟨⟨[], ⟨⟨0, 0⟩⟩⟩, tokensFrom_nil 0, rfl⟩
  | cons source sources ih =>
    unfold Model.parseAll at h
    split at h
    · cases h
    next first hfirst =>
      obtain ⟨rest, hrest, rfl⟩ := Grammar.map_ok h
      obtain ⟨d, hd, rfl⟩ := parseOrigin_ok.mp hfirst
      have hplace : (d.ast 0).namespaces = (d.ast origin).namespaces.map (·.relocate fun i =>
          startOf ((source :: sources).map (·.text)) (i - origin)) := by
        simp only [Grammar.Derivation.ast, List.map_map]
        refine List.map_congr_left fun n _ => ?_
        rw [Function.comp, relocate_eq]
        dsimp only [Grammar.Definition.toNamespace]
        rw [Nat.sub_self]
        exact (Namespace.shift_zero _).symm
      cases sources with
      | nil =>
        cases hrest
        exact ⟨d, hd, hplace.trans (by rw [Ast.namespaces_append]; simp)⟩
      | cons source' sources =>
        obtain ⟨e, he, hmore⟩ := ih hrest
        refine ⟨d.append e (byteLength source.text.toList + 1), ?_, ?_⟩
        · have := lex_twoLines hd he
          unfold joinLines at this ⊢
          rw [List.map_cons, List.map_cons, String.intercalate_cons_cons]
          exact this
        · rw [Grammar.Derivation.ast_append, hplace, hmore, Ast.namespaces_append, List.map_append,
            List.map_map]
          congr 1
          refine List.map_congr_left fun n hn => ?_
          obtain ⟨i, -, hi, -⟩ := parseAll_standsIn hrest n hn
          rw [Function.comp, relocate_eq, relocate_eq, Namespace.shift_shift,
            show n.origin - origin = n.origin - (origin + 1) + 1 by omega]
          exact congrArg (Namespace.shift · _) (startOf_cons ..).symm

/-- **Manifests in one text come to the same** as in texts of their own, up to the places in errors. -/
theorem eval_joined {sources : List Source} {m : Model} (h : Model.ofSources sources = .ok m) :
    ∃ m', Model.ofText (joinLines (sources.map (·.text))) = .ok m' ∧
      ∀ host schedule o p names, m'.eval host schedule o p names =
        (m.eval host schedule o p names).mapError (.relocate (startOf (sources.map (·.text)))) := by
  obtain ⟨ast, hast, rfl⟩ := Grammar.map_ok h
  obtain ⟨d, hd, hplace⟩ := joined_derivation hast
  have hparse : parseOrigin 0 anonymous (joinLines (sources.map (·.text))) = .ok (d.ast 0) :=
    parseOrigin_ok.mpr ⟨d, hd, rfl⟩
  refine ⟨⟨d.ast 0 ++ ⟨[]⟩, [⟨anonymous, joinLines (sources.map (·.text))⟩]⟩, ?_,
    eval_relocate ?_⟩
  · unfold Model.ofText Model.ofSources Model.parseAll
    dsimp only
    rw [hparse]
    rfl
  · rw [Ast.namespaces_append, hplace]
    simp

/-- **Manifests can be put one after another.** Two texts that can be parsed are one such text, in
which the namespaces of the second have moved. Models of several texts and of these texts in one
come to the same values, or to errors that differ in their places. -/
theorem manifests_concatenate :
    (∀ (text more : String) (a b : Ast), parse text = .ok a → parse more = .ok b →
      ∃ c, parse (text ++ "\n" ++ more) = .ok c ∧
        c.namespaces = a.namespaces ++ b.namespaces.map (·.shift (byteLength text.toList + 1))) ∧
    (∀ (sources : List Source) (m : Model), Model.ofSources sources = .ok m →
      ∃ m', Model.ofText (joinLines (sources.map (·.text))) = .ok m' ∧
        ∀ host schedule o p names, m'.eval host schedule o p names =
          (m.eval host schedule o p names).mapError
            (.relocate (startOf (sources.map (·.text))))) :=
  ⟨fun _ _ _ _ ha hb => parse_twoLines ha hb, fun _ _ h => eval_joined h⟩

/-- A text that ends in a comment, and one after it. -/
theorem commented_concatenate :
    (∃ a b c, parse "a \x7b x = 1 \x7d # b" = .ok a ∧ parse "b<a> \x7b y = z.z \x7d" = .ok b ∧
      parse ("a \x7b x = 1 \x7d # b" ++ "\n" ++ "b<a> \x7b y = z.z \x7d") = .ok c ∧
      c.namespaces = a.namespaces ++ b.namespaces.map (·.shift 16)) ∧
    ∃ m m', Model.ofSources [⟨"m", "a \x7b x = 1 \x7d # b"⟩, ⟨"n", "b<a> \x7b y = z.z \x7d"⟩] = .ok m ∧
      Model.ofText (joinLines ["a \x7b x = 1 \x7d # b", "b<a> \x7b y = z.z \x7d"]) = .ok m' ∧
      ∀ host schedule o p names, m'.eval host schedule o p names =
        (m.eval host schedule o p names).mapError
          (.relocate (startOf ["a \x7b x = 1 \x7d # b", "b<a> \x7b y = z.z \x7d"])) := by
  have some_of {ε α : Type} {r : Except ε α} (h : r.toOption.isSome) : ∃ a, r = .ok a := by
    cases r with
    | error e => cases h
    | ok a => exact ⟨a, rfl⟩
  obtain ⟨a, ha⟩ := some_of (r := parse "a \x7b x = 1 \x7d # b") (by decide +kernel)
  obtain ⟨b, hb⟩ := some_of (r := parse "b<a> \x7b y = z.z \x7d") (by decide +kernel)
  obtain ⟨m, hm⟩ := some_of (r := Model.ofSources [⟨"m", "a \x7b x = 1 \x7d # b"⟩,
    ⟨"n", "b<a> \x7b y = z.z \x7d"⟩]) (by decide +kernel)
  obtain ⟨c, hc, hplace⟩ := manifests_concatenate.1 _ _ a b ha hb
  obtain ⟨m', hm', heval⟩ := manifests_concatenate.2 _ m hm
  exact ⟨⟨a, b, c, ha, hb, hc, hplace⟩, m, m', hm, hm', heval⟩

end EnvManifest
