import EnvManifest.Proofs.Eval.Denoted
import EnvManifest.Proofs.Eval.ReadBack
import EnvManifest.Proofs.Eval.Walks

/-!
# Strict mode

Strict mode only adds errors for undefined names. Where both modes succeed they give the same
environment, and outside strict mode a reference to an undefined name could as well not be there.
-/

namespace EnvManifest

/-! ## Definitions in both modes -/

/-- What the expressions of a definition come to, pass by pass: their values, or the first error. -/
def Namespace.record (n : Namespace) (host : Host) (o : EvalOptions) (composed : Fields Value)
    (parameters : List Parameter) : Except EvalError (List (List (Execution × Value))) :=
  (outcome ((passes n composed parameters).mapM fun pass => pass.journal o)
    (Engine.new host (Facts.ofHost host) .endless)).1

/-- No expression of a definition comes to something else in strict mode. -/
def Namespace.IgnoresStrict (n : Namespace) (host : Host) (o : EvalOptions) : Prop :=
  ∀ composed parameters, n.record host (o.inMode true) composed parameters =
    n.record host (o.inMode false) composed parameters

theorem foldlM_mapM {m : Type → Type} [Monad m] [LawfulMonad m] {α β γ : Type} (g : α → m γ)
    (f : β → γ → β) (as : List α) (b : β) :
    as.foldlM (fun b a => f b <$> g a) b = (fun cs => cs.foldl f b) <$> as.mapM g := by
  induction as generalizing b with
  | nil => simp
  | cons a as ih =>
    rw [List.foldlM_cons, List.mapM_cons, bind_map_left, map_bind]
    congr 1
    funext c
    rw [ih, map_bind, map_eq_pure_bind]
    simp only [map_pure, List.foldl_cons]

/-- The variables of a definition, given what its expressions come to. -/
def recordedVars (composed : Fields Value) (record : List (List (Execution × Value))) :
    Fields Value :=
  record.foldl (fun vars entries => Fields.union vars (Fields.ofList (Journal.bindings entries)))
    composed

theorem ran_runNamespace (host : Host) (o : EvalOptions) (n : Namespace) (composed : Environment)
    (arguments : List Parameter) :
    let parameters := n.parameters ++ composed.parameters ++ arguments
    ran (runNamespace host o n composed arguments) =
      (n.record host o composed.vars parameters).map fun record =>
        ⟨recordedVars composed.vars record, parameters⟩ := by
  intro parameters
  have work : runPasses o n composed.vars parameters = recordedVars composed.vars <$>
      (passes n composed.vars parameters).mapM fun pass => pass.journal o := by
    refine Eq.trans ?_ (foldlM_mapM (fun pass : Pass => pass.journal o) _ _ composed.vars)
    refine foldlM_congr (fun vars pass _ => ?_) _
    rw [run_eq_journal, bind_map_left, map_eq_pure_bind]
  rw [ran, outcome_runNamespace, work, outcome_map, Namespace.record]
  cases (outcome ((passes n composed.vars parameters).mapM fun pass => pass.journal o) _).1 <;> rfl

theorem alike_of_ignoresStrict {e : Evaluator} {n : Namespace}
    (h : n.IgnoresStrict e.host e.options) (strict : Bool) : e.Alike strict n := by
  intro composed arguments
  have modes (s : Bool) : ran (runNamespace e.host (e.options.inMode s) n composed arguments) =
      ran (runNamespace e.host (e.options.inMode false) n composed arguments) := by
    cases s with
    | false => rfl
    | true => rw [ran_runNamespace, ran_runNamespace, h]
  exact (modes strict).trans (modes e.options.strict).symm

/-! ## Requested names -/

/-- The walks of an evaluation of requested names, in its order. -/
def Ast.walksOf (ast : Ast) (names : List String) : List (List String × String) :=
  (names.map Composite.named).flatMap (ast.walks [])

/-- A walk ends with a name that has no definition. -/
def Ast.misses (ast : Ast) (walk : List String × String) : Bool := (ast.lookup walk.2).isEmpty

section

variable {e : Evaluator} {names : List String}

theorem exists_ok_of_mergeAll {α : Type} {result : α → Except EvalError Environment} {as : List α}
    {env whole : Environment} (h : mergeAll result env as = .ok whole) :
    ∀ a ∈ as, ∃ own, result a = .ok own := by
  intro a ha
  cases hr : result a with
  | ok own => exact ⟨own, rfl⟩
  | error error =>
    obtain ⟨_, _, _, _, failed⟩ := mergeAll_error ha hr env
    cases h.symm.trans failed

theorem opened_of_requested (serial : e.options.Serial e.host) {env : Environment}
    (h : ran (evalRequested e names) = .ok env) :
    ∀ c ∈ names.map Composite.named, ∀ walk ∈ e.ast.walks [] c, closes walk = false := by
  intro c hc
  rw [ran_evalRequested serial] at h
  obtain ⟨own, hown⟩ := exists_ok_of_mergeAll h c hc
  exact opened_of_ok serial hown

/-- What requested names that succeed in one mode come to in another one. -/
theorem ran_requested_inMode (serial : e.options.Serial e.host) (strict : Bool)
    (alike : ∀ n ∈ e.ast.namespaces, e.Alike strict n) {env : Environment}
    (h : ran (evalRequested e names) = .ok env) :
    ran (evalRequested (e.inMode strict) names) =
      ((e.ast.walksOf names).find? fun walk => strict && e.ast.misses walk).elim (.ok env)
        fun walk => .error (.undefinedNamespace walk.2) := by
  have there : (e.inMode strict).options.Serial (e.inMode strict).host := serial
  have opened := opened_of_requested serial h
  rw [ran_evalRequested serial] at h
  have same := mergeAll_firstOr
    (fun c _ env hc => comesTo_elsewhere serial alike [] [] c env hc) h
  have faults : (names.map Composite.named).flatMap (e.ast.faults strict []) =
      (e.ast.walksOf names).filterMap (e.ast.fault? strict) := by
    rw [Ast.walksOf, List.filterMap_flatMap]
    rfl
  rw [ran_evalRequested there, same, faults]
  refine firstOr_find fun walk hw => ?_
  obtain ⟨c, hc, hw⟩ := List.mem_flatMap.mp hw
  rw [Ast.fault?, opened c hc walk hw]
  rfl

end

/-! ## References to undefined names -/

/-- A definition without the references to names that have no definition. -/
def Ast.prune (ast : Ast) (n : Namespace) : Namespace :=
  { n with composites := n.composites.filter fun c => !(ast.lookup c.ident).isEmpty }

/-- The manifest without the references to undefined names. -/
def Ast.pruned (ast : Ast) : Ast := ⟨ast.namespaces.map ast.prune⟩

def Model.pruned (m : Model) : Model := ⟨m.ast.pruned, m.sources⟩

def Evaluator.pruned (e : Evaluator) : Evaluator := { e with ast := e.ast.pruned }

theorem lookup_pruned (ast : Ast) (ident : String) :
    ast.pruned.lookup ident = (ast.lookup ident).map ast.prune := List.filter_map

/-- The passes of a definition do not look at its composites. -/
theorem runNamespace_prune (host : Host) (o : EvalOptions) (ast : Ast) (n : Namespace)
    (composed : Environment) (arguments : List Parameter) :
    runNamespace host o (ast.prune n) composed arguments = runNamespace host o n composed arguments := by
  refine work_ext fun p => ?_
  rw [outcome_runNamespace, outcome_runNamespace]
  have work (parameters : List Parameter) : runPasses o (ast.prune n) composed.vars parameters =
      runPasses o n composed.vars parameters := by
    rw [runPasses, runPasses, passes, passes, List.foldlM_map, List.foldlM_map]
    rfl
  rw [work]
  rfl

/-- Two results are the same, unless one of them is an error of some kind. -/
def SameUnless {α : Type} (bad : EvalError → Prop) (r s : Except EvalError α) : Prop :=
  r = s ∨ ∃ error, bad error ∧ (r = .error error ∨ s = .error error)

section

variable {α β : Type} {bad : EvalError → Prop}

theorem sameUnless_refl {r : Except EvalError α} : SameUnless bad r r := .inl rfl

theorem SameUnless.bind {r s : Except EvalError α} {f g : α → Except EvalError β}
    (h : SameUnless bad r s) (hf : ∀ a, SameUnless bad (f a) (g a)) :
    SameUnless bad (r >>= f) (s >>= g) := by
  obtain rfl | ⟨error, hbad, rfl | rfl⟩ := h
  · cases r with
    | ok a => exact hf a
    | error error => exact .inl rfl
  · exact .inr ⟨error, hbad, .inl rfl⟩
  · exact .inr ⟨error, hbad, .inr rfl⟩

theorem SameUnless.map {r s : Except EvalError α} {f : α → β} (h : SameUnless bad r s) :
    SameUnless bad (r.map f) (s.map f) := by
  obtain rfl | ⟨error, hbad, rfl | rfl⟩ := h
  · exact .inl rfl
  · exact .inr ⟨error, hbad, .inl rfl⟩
  · exact .inr ⟨error, hbad, .inr rfl⟩

theorem mergeAll_sameUnless {result other : α → Except EvalError Environment} {as : List α}
    (h : ∀ a ∈ as, SameUnless bad (result a) (other a)) (env : Environment) :
    SameUnless bad (mergeAll result env as) (mergeAll other env as) := by
  induction as generalizing env with
  | nil => exact sameUnless_refl
  | cons a as ih =>
    obtain ⟨ha, h⟩ := List.forall_mem_cons.mp h
    rw [mergeAll, mergeAll, List.foldlM_cons, List.foldlM_cons]
    exact (ha.bind fun own => sameUnless_refl).bind fun env => ih h env

/-- Results that are empty may be left out. -/
theorem mergeAll_filter {result : α → Except EvalError Environment} {p : α → Bool} {as : List α}
    (h : ∀ a ∈ as, p a = false → result a = .ok .empty) (env : Environment) :
    mergeAll result env as = mergeAll result env (as.filter p) := by
  induction as generalizing env with
  | nil => rfl
  | cons a as ih =>
    obtain ⟨ha, h⟩ := List.forall_mem_cons.mp h
    cases hp : p a with
    | true =>
      rw [List.filter_cons_of_pos hp, mergeAll, mergeAll, List.foldlM_cons, List.foldlM_cons]
      congr 1
      funext env
      exact ih h env
    | false =>
      have skipped : env.merge .empty = env := by
        rw [Environment.merge, Environment.empty, List.append_nil]
        rfl
      rw [List.filter_cons_of_neg (by simp [hp]), mergeAll, List.foldlM_cons, ha hp]
      change mergeAll result (env.merge .empty) as = _
      rw [skipped]
      exact ih h env

end

/-- The guard against repeated definitions stops an evaluation. -/
def EvalOptions.Stops (o : EvalOptions) (error : EvalError) : Prop :=
  o.unique = true ∧ ∃ ident, error = .duplicate ident

theorem SameUnless.eq_of_unguarded {α : Type} {o : EvalOptions} {r s : Except EvalError α}
    (h : SameUnless o.Stops r s) (unguarded : o.unique = false) : r = s := by
  obtain same | ⟨error, ⟨guarded, _⟩, _⟩ := h
  · exact same
  · simp [unguarded] at guarded

theorem comesTo_pruned {e : Evaluator} (serial : e.options.Serial e.host)
    (lenient : e.options.strict = false) (chain : List String) :
    (∀ a ∈ chain, e.ast.lookup a ≠ []) → ∀ c,
      SameUnless e.options.Stops (e.comesTo chain c) (e.pruned.comesTo chain c) := by
  have there : e.pruned.options.Serial e.pruned.host := serial
  induction chain using chain_induction e.ast with
  | step chain ih =>
    intro known c
    rw [comesTo_eq serial, comesTo_eq there]
    by_cases again : c.ident ∈ chain
    · rw [reference_again again, reference_again again]
      exact sameUnless_refl
    have lookup : e.pruned.ast.lookup c.ident = (e.ast.lookup c.ident).map e.ast.prune :=
      lookup_pruned e.ast c.ident
    by_cases undefined : e.ast.lookup c.ident = []
    · rw [reference_undefined again undefined, reference_undefined again (by rw [lookup, undefined]; rfl)]
      exact sameUnless_refl
    have defined : e.pruned.ast.lookup c.ident ≠ [] := by rwa [lookup, Ne, List.map_eq_nil_iff]
    cases single : e.repeats c.ident with
    | true =>
      have guarded := ((Bool.and_eq_true ..).mp single).1
      exact .inr ⟨_, ⟨guarded, c.ident, rfl⟩, .inl (reference_repeated again undefined single)⟩
    | false =>
    cases single' : e.pruned.repeats c.ident with
    | true =>
      have guarded := ((Bool.and_eq_true ..).mp single').1
      exact .inr ⟨_, ⟨guarded, c.ident, rfl⟩, .inr (reference_repeated again defined single')⟩
    | false =>
    rw [reference_defined again undefined single, reference_defined again defined single', lookup]
    have known' : ∀ a ∈ chain ++ [c.ident], e.ast.lookup a ≠ [] := by
      intro a ha
      rcases List.mem_append.mp ha with ha | ha
      · exact known a ha
      · rwa [List.mem_singleton.mp ha]
    have skipped : ∀ d : Composite, (!(e.ast.lookup d.ident).isEmpty) = false →
        e.comesTo (chain ++ [c.ident]) d = .ok .empty := by
      intro d missing
      have missing : e.ast.lookup d.ident = [] := by simpa using missing
      have fresh : d.ident ∉ chain ++ [c.ident] := fun ha => known' _ ha missing
      rw [comesTo_eq serial, reference_undefined fresh missing, lenient]
      rfl
    rw [mergeAll, mergeAll, List.foldlM_map]
    refine mergeAll_sameUnless (fun n _ => ?_) .empty
    rw [Evaluator.definition, Evaluator.definition, mergeAll_filter fun d _ => skipped d]
    refine (mergeAll_sameUnless (fun d _ => ih c.ident again undefined known' d) .empty).bind
      fun composed => ?_
    exact .inl (congrArg ran (runNamespace_prune ..).symm)

/-! ## Expressions with one value -/

/-- Where nobody cancels it, work succeeds with a value of some kind. -/
def Succeeds {α : Type} (m : Passing α) (good : α → Prop) : Prop :=
  ∀ engine : Engine, engine.clock.patience = .endless →
    ∃ a after, outcome m engine = (.ok a, after) ∧ after.clock.patience = .endless ∧ good a

/-- A statement has one value, whatever its pass, the settings and the engine are. -/
def Statement.Has (s : Statement) (v : Value) : Prop :=
  ∀ (pass : Pass) (o : EvalOptions) (scope : ScopeId) (engine : Engine),
    engine.clock.patience = .endless → (pass.valueOf o scope s engine).1 = .ok v

section

variable {α β : Type}

theorem succeeds_pure {a : α} {good : α → Prop} (h : good a) : Succeeds (pure a) good :=
  fun engine he => ⟨a, engine, rfl, he, h⟩

theorem Succeeds.bind {m : Passing α} {f : α → Passing β} {good : α → Prop} {good' : β → Prop}
    (h : Succeeds m good) (hf : ∀ a, good a → Succeeds (f a) good') : Succeeds (m >>= f) good' := by
  intro engine he
  obtain ⟨a, after, hm, hafter, ha⟩ := h engine he
  rw [outcome_bind_ok hm]
  exact hf a ha after hafter

theorem succeeds_of_patient {m : Passing α} {good : α → Prop} (hm : Patient m)
    (h : ∀ engine : Engine, engine.clock.patience = .endless → ∃ a after,
      outcome m engine = (.ok a, after) ∧ good a) : Succeeds m good := by
  intro engine he
  obtain ⟨a, after, ran, ha⟩ := h engine he
  have endless := (hm.endless engine he).1
  rw [ran] at endless
  exact ⟨a, after, ran, endless, ha⟩

theorem succeeds_mapM {f : α → Passing β} {g : α → β} {as : List α}
    (h : ∀ a ∈ as, Succeeds (f a) (· = g a)) : Succeeds (as.mapM f) (· = as.map g) := by
  induction as with
  | nil => exact succeeds_pure rfl
  | cons a as ih =>
    obtain ⟨ha, h⟩ := List.forall_mem_cons.mp h
    rw [List.mapM_cons]
    refine ha.bind fun b hb => (ih h).bind fun bs hbs => succeeds_pure ?_
    rw [hb, hbs, List.map_cons]

end

section

variable {n : Namespace} {values : Statement → Value} {o : EvalOptions}

theorem succeeds_runStatement {pass : Pass} {s : Statement} {v : Value} (h : s.Has v)
    (scope : ScopeId) : Succeeds (pass.runStatement o scope s) (· = v) := by
  refine succeeds_of_patient (patient_runStatement pass o scope s) fun engine he => ?_
  have value : pass.valueOf o scope s engine = (.ok v, (pass.valueOf o scope s engine).2) :=
    Prod.ext (h pass o scope engine he) rfl
  exact ⟨v, _, (outcome_runStatement_ok he).mpr value, rfl⟩

theorem succeeds_statements (pass : Pass) (scope : ScopeId) {statements : List Statement}
    (h : ∀ s ∈ statements, s.Has (values s)) (entries : List (Execution × Value)) :
    Succeeds (statements.foldlM (fun entries s => do
        let v ← pass.runStatement o scope s
        return entries ++ [(pass.execution s, v)]) entries)
      (· = entries ++ statements.map fun s => (pass.execution s, values s)) := by
  induction statements generalizing entries with
  | nil => exact succeeds_pure (by simp)
  | cons s statements ih =>
    obtain ⟨hs, h⟩ := List.forall_mem_cons.mp h
    rw [List.foldlM_cons, List.map_cons, ← List.singleton_append, ← List.append_assoc]
    have first : Succeeds (do
        let v ← pass.runStatement o scope s
        return entries ++ [(pass.execution s, v)])
        (· = entries ++ [(pass.execution s, values s)]) :=
      (succeeds_runStatement hs scope).bind fun v hv => succeeds_pure (by rw [hv])
    refine first.bind fun next hnext => ?_
    rw [hnext]
    exact ih h _

theorem succeeds_journal {pass : Pass} (h : ∀ s ∈ pass.ns.statements, s.Has (values s)) :
    Succeeds (pass.journal o) (· = pass.ns.statements.map fun s => (pass.execution s, values s)) := by
  have opened : Succeeds (pass.openScope o) fun _ => True :=
    succeeds_of_patient (patient_openScope pass o) fun engine _ =>
      ⟨_, _, openScope_ok pass o engine, trivial⟩
  exact opened.bind fun scope _ => succeeds_statements pass scope h []

/-- Expressions with one value do not look at the mode. -/
theorem ignoresStrict_of_has (host : Host) (h : ∀ s ∈ n.statements, s.Has (values s)) :
    n.IgnoresStrict host o := by
  have record (o : EvalOptions) (composed : Fields Value) (parameters : List Parameter) :
      n.record host o composed parameters = .ok ((passes n composed parameters).map fun pass =>
        pass.ns.statements.map fun s => (pass.execution s, values s)) := by
    have each : ∀ pass ∈ passes n composed parameters, Succeeds (pass.journal o)
        (· = pass.ns.statements.map fun s => (pass.execution s, values s)) := by
      intro pass hp
      refine succeeds_journal fun s hs => h s ?_
      rwa [ns_of_mem_passes hp] at hs
    obtain ⟨_, _, made, -, rfl⟩ := succeeds_mapM each (Engine.new host (Facts.ofHost host) .endless) rfl
    rw [Namespace.record, made]
  intro composed parameters
  rw [record, record]

end

/-- A number that is written out. -/
theorem statement_has_int {s : Statement} (hs : s.expression.source = "1") : s.Has (.int 1) := by
  intro pass o scope engine he
  have tokens : Patch.tokenize "1".toList = ([⟨[], .number, ['1']⟩], []) := by cbv
  have kept (p : Patch) (around : Patch.Surroundings) : p.apply around "1" = "1" := by
    rw [Patch.apply, tokens]
    simp [Patch.parts, Patch.replacement?, Patch.Part.after, Patch.Token.source]
  have text : String.ofList (Literal.int 1).source = "1" := by cbv
  have evaluates : engine.Evaluates scope (String.ofList (Literal.int 1).source) (Literal.int 1).datum :=
    evaluates_literal (goesOn_of_endless he) (.int 1) fun least =>
      absurd (Literal.int.inj least) (by decide)
  rw [text] at evaluates
  obtain ⟨program, loaded, compiled, ran⟩ := evaluates
  unfold Pass.valueOf Pass.evaluate
  dsimp only
  rw [hs, kept, compiled]
  dsimp only
  rcases hr : loaded.run program with ⟨_ | d, after⟩
  · rw [hr] at ran
    cases ran
  · rw [hr] at ran
    obtain rfl := Except.ok.inj ran
    rfl

/-! ## Both modes -/

section

variable {m : Model} {host : Host} {schedule : Schedule} {o : EvalOptions} {names : List String}

theorem eval_inMode {vars : Fields Value} (serial : o.Serial host) (strict : Bool)
    (ignores : ∀ n ∈ m.ast.namespaces, n.IgnoresStrict host o)
    (h : m.eval host schedule o .endless names = .ok vars) :
    m.eval host schedule (o.inMode strict) .endless names =
      ((m.ast.walksOf names).find? fun walk => strict && m.ast.misses walk).elim (.ok vars)
        fun walk => .error (.undefinedNamespace walk.2) := by
  obtain ⟨env, henv, rfl⟩ := eval_eq_ok h
  have alike : ∀ n ∈ m.ast.namespaces, Evaluator.Alike ⟨host, m.ast, o, schedule⟩ strict n :=
    fun n hn => alike_of_ignoresStrict (e := ⟨host, m.ast, o, schedule⟩) (ignores n hn) strict
  have same := ran_requested_inMode (e := ⟨host, m.ast, o, schedule⟩) serial strict alike henv
  rw [eval_eq]
  refine (congrArg (Except.map (·.vars)) same).trans ?_
  cases (m.ast.walksOf names).find? fun walk => strict && m.ast.misses walk <;> rfl

theorem exists_misses {vars : Fields Value} (serial : o.Serial host)
    (h : m.eval host schedule o .endless names = .ok vars) {name a : String} (hname : name ∈ names)
    (reached : Relation.ReflTransGen m.ast.Composes name a) (undefined : m.ast.lookup a = []) :
    ∃ walk ∈ m.ast.walksOf names, m.ast.misses walk = true := by
  obtain ⟨env, henv, -⟩ := eval_eq_ok h
  have hc : Composite.named name ∈ names.map Composite.named := List.mem_map_of_mem hname
  have opened := opened_of_requested (e := ⟨host, m.ast, o, schedule⟩) serial henv
  obtain ⟨way, hw⟩ := exists_walk (c := .named name) (opened _ hc) reached
  exact ⟨_, List.mem_flatMap_of_mem hc hw, by simp [Ast.misses, undefined]⟩

theorem eval_pruned (serial : o.Serial host) (lenient : o.strict = false) :
    SameUnless o.Stops (m.eval host schedule o .endless names)
      (m.pruned.eval host schedule o .endless names) := by
  rw [eval_eq, eval_eq]
  refine SameUnless.map ?_
  change SameUnless o.Stops (ran (evalRequested ⟨host, m.ast, o, schedule⟩ names))
    (ran (evalRequested (Evaluator.pruned ⟨host, m.ast, o, schedule⟩) names))
  have there : (Evaluator.pruned ⟨host, m.ast, o, schedule⟩).options.Serial host := serial
  rw [ran_evalRequested serial, ran_evalRequested there]
  exact mergeAll_sameUnless (fun c _ => comesTo_pruned serial lenient [] (by simp) c) .empty

end

/-- If no expression looks at the mode, strict mode only adds errors for undefined names: what
succeeds in strict mode gives the same variables otherwise, and what succeeds otherwise gives them
in strict mode too, unless it meets an undefined name. The first one is the error. Outside strict
mode, the references to undefined names may be deleted, unless the guard against definitions with
the same text stops one of the evaluations. -/
theorem strict_mode_adds_undefined (m : Model) (host : Host) (schedule : Schedule) (o : EvalOptions)
    (names : List String) (serial : o.Serial host)
    (ignores : ∀ n ∈ m.ast.namespaces, n.IgnoresStrict host o) :
    (∀ vars, m.eval host schedule (o.inMode true) .endless names = .ok vars →
      m.eval host schedule (o.inMode false) .endless names = .ok vars) ∧
    (∀ vars, m.eval host schedule (o.inMode false) .endless names = .ok vars →
      ((∀ name ∈ names, ∀ a, Relation.ReflTransGen m.ast.Composes name a → m.ast.lookup a ≠ []) →
        m.eval host schedule (o.inMode true) .endless names = .ok vars) ∧
      ((∃ name ∈ names, ∃ a, Relation.ReflTransGen m.ast.Composes name a ∧ m.ast.lookup a = []) →
        ∃ walk, (m.ast.walksOf names).find? m.ast.misses = some walk ∧
          m.eval host schedule (o.inMode true) .endless names =
            .error (.undefinedNamespace walk.2))) ∧
    SameUnless o.Stops (m.eval host schedule (o.inMode false) .endless names)
      (m.pruned.eval host schedule (o.inMode false) .endless names) := by
  refine ⟨fun vars h => ?_, fun vars h => ⟨fun defined => ?_, fun ⟨name, hname, a, reached, ha⟩ => ?_⟩,
    eval_pruned serial rfl⟩
  · have same := eval_inMode (o := o.inMode true) serial false ignores h
    rwa [List.find?_eq_none.mpr (by simp)] at same
  · have same := eval_inMode (o := o.inMode false) serial true ignores h
    have none : (m.ast.walksOf names).find? m.ast.misses = none := by
      refine List.find?_eq_none.mpr fun walk hw misses => ?_
      obtain ⟨c, hc, hw⟩ := List.mem_flatMap.mp hw
      obtain ⟨name, hname, rfl⟩ := List.mem_map.mp hc
      exact defined name hname walk.2 (reaches_of_walk hw) (by simpa [Ast.misses] using misses)
    simp only [Bool.true_and] at same
    rwa [none] at same
  · have same := eval_inMode (o := o.inMode false) serial true ignores h
    simp only [Bool.true_and] at same
    obtain ⟨walk, hw, misses⟩ := exists_misses (o := o.inMode false) serial h hname reached ha
    cases first : (m.ast.walksOf names).find? m.ast.misses with
    | none => exact absurd misses (List.find?_eq_none.mp first walk hw)
    | some walk =>
      rw [first] at same
      exact ⟨walk, rfl, same⟩

/-- A name that composes one without a definition. -/
def gappy : Model :=
  ⟨⟨[⟨"a", [.named "b", .named "ghost"], [], [⟨"x", "=", ⟨"1", 0⟩, ⟨0, 0⟩⟩], 0, ⟨0, 0⟩⟩,
    .composing "b" []]⟩, []⟩

theorem gappy_in_both_modes :
    (gappy.eval .bare .calm (EvalOptions.default.inMode false) .endless ["a"]).isOk = true ∧
    gappy.eval .bare .calm (EvalOptions.default.inMode true) .endless ["a"] =
      .error (.undefinedNamespace "ghost") ∧
    gappy.eval .bare .calm (EvalOptions.default.inMode false) .endless ["a"] =
      gappy.pruned.eval .bare .calm (EvalOptions.default.inMode false) .endless ["a"] := by
  have ignores : ∀ n ∈ gappy.ast.namespaces, n.IgnoresStrict .bare .default := by
    have written : ∀ n ∈ gappy.ast.namespaces, ∀ s ∈ n.statements, s.expression.source = "1" := by
      decide
    exact fun n hn => ignoresStrict_of_has .bare fun s hs => statement_has_int (written n hn s hs)
  have both := strict_mode_adds_undefined gappy .bare .calm .default ["a"] (Nat.le_refl 1) ignores
  have succeeds : (gappy.eval .bare .calm (EvalOptions.default.inMode false) .endless ["a"]).isOk =
      true := by decide +kernel
  refine ⟨succeeds, ?_, both.2.2.eq_of_unguarded rfl⟩
  cases h : gappy.eval .bare .calm (EvalOptions.default.inMode false) .endless ["a"] with
  | error error => simp [h, Except.isOk, Except.toBool] at succeeds
  | ok vars =>
    have reached : Relation.ReflTransGen gappy.ast.Composes "a" "ghost" :=
      .single ⟨_, .head _, .named "ghost", .tail _ (.head _), rfl⟩
    obtain ⟨walk, first, failed⟩ :=
      (both.2.1 vars h).2 ⟨"a", .head _, "ghost", reached, by decide⟩
    have found : (gappy.ast.walksOf ["a"]).find? gappy.ast.misses = some (["a"], "ghost") := by cbv
    obtain rfl := Option.some.inj (found.symm.trans first)
    exact failed

/-- Two definitions whose texts are the same but for a reference to a name without a definition. -/
def nearTwins : Model :=
  ⟨⟨[⟨"a", [.named "ghost"], [], [⟨"x", "=", ⟨"1", 0⟩, ⟨0, 0⟩⟩], 0, ⟨0, 0⟩⟩,
    ⟨"a", [], [], [⟨"x", "=", ⟨"1", 0⟩, ⟨0, 0⟩⟩], 0, ⟨0, 0⟩⟩]⟩, []⟩

/-- With the guard against repeated definitions. -/
def EvalOptions.guarded : EvalOptions := { EvalOptions.default with unique := true }

/-- The guard stops the evaluation without the reference, and not the one with it. -/
theorem guard_stops_pruned :
    EvalOptions.guarded.Serial .bare ∧
    (∀ n ∈ nearTwins.ast.namespaces, n.IgnoresStrict .bare .guarded) ∧
    nearTwins.pruned.eval .bare .calm (EvalOptions.guarded.inMode false) .endless ["a"] =
      .error (.duplicate "a") ∧
    nearTwins.eval .bare .calm (EvalOptions.guarded.inMode false) .endless ["a"] ≠
      nearTwins.pruned.eval .bare .calm (EvalOptions.guarded.inMode false) .endless ["a"] := by
  have written : ∀ n ∈ nearTwins.ast.namespaces, ∀ s ∈ n.statements, s.expression.source = "1" := by
    decide
  have stopped : nearTwins.pruned.eval .bare .calm (EvalOptions.guarded.inMode false) .endless ["a"] =
      .error (.duplicate "a") := by cbv
  have succeeds : (nearTwins.eval .bare .calm (EvalOptions.guarded.inMode false) .endless
      ["a"]).isOk = true := by decide +kernel
  refine ⟨Nat.le_refl 1, fun n hn => ?_, stopped, fun same => ?_⟩
  · exact ignoresStrict_of_has .bare fun s hs => statement_has_int (written n hn s hs)
  · rw [same, stopped] at succeeds
    cases succeeds

end EnvManifest
