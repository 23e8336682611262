import EnvManifest.Proofs.Eval.Composite
import Mathlib

/-!
# Composition has no cycles

Names are the nodes of a graph, with an edge from a name to each composite of its definitions. An
evaluation that succeeds has explored all that can be reached from the requested names, and an
evaluation that reports a cycle has walked it.
-/

namespace EnvManifest

/-! ## The graph of names -/

/-- An edge: a definition of the first name composes the second. -/
def Ast.Composes (ast : Ast) (a b : String) : Prop :=
  ∃ n ∈ ast.lookup a, ∃ c ∈ n.composites, c.ident = b

/-- A walk that comes back to one of its names with its last step, and not before. -/
structure Ast.IsCycle (ast : Ast) (walk : List String) : Prop where
  edges : walk.IsChain ast.Composes
  distinct : walk.dropLast.Nodup
  returns : ∃ a, walk.getLast? = some a ∧ a ∈ walk.dropLast

/-- A name that is not on its chain, and after which the same holds of all that it composes. -/
inductive Ast.Explored (ast : Ast) : List String → String → Prop where
  | intro {chain : List String} {a : String} (fresh : a ∉ chain)
      (next : ∀ b, ast.Composes a b → Explored ast (chain ++ [a]) b) : Explored ast chain a

variable {ast : Ast}

/-! ## Explored names -/

theorem explored_reach {chain : List String} {a b : String} (h : ast.Explored chain a)
    (path : Relation.ReflTransGen ast.Composes a b) : ∃ more, ast.Explored (chain ++ more) b := by
  induction path with
  | refl => exact ⟨[], by simpa using h⟩
  | @tail b c _ step ih =>
    obtain ⟨more, ⟨_, next⟩⟩ := ih
    exact ⟨more ++ [b], by simpa using next c step⟩

/-- After a path of at least one edge its first name is on the chain. -/
theorem explored_path {chain : List String} {a b : String} (h : ast.Explored chain a)
    (path : Relation.TransGen ast.Composes a b) :
    ∃ more, ast.Explored (chain ++ [a] ++ more) b := by
  obtain ⟨c, step, rest⟩ := Relation.TransGen.head'_iff.mp path
  obtain ⟨_, next⟩ := h
  exact explored_reach (next c step) rest

theorem explored_acyclic {chain : List String} {a b : String} (h : ast.Explored chain a)
    (path : Relation.ReflTransGen ast.Composes a b) : ¬ Relation.TransGen ast.Composes b b := by
  intro cycle
  obtain ⟨more, hb⟩ := explored_reach h path
  obtain ⟨again, ⟨fresh, _⟩⟩ := explored_path hb cycle
  exact fresh (by simp)

/-! ## Evaluation -/

/-- An error that comes from a reference with its chain: a cycle goes on from the chain. -/
def Ast.ErrorFrom (ast : Ast) (walk : List String) : EvalError → Prop
  | .cycle names => ast.IsCycle names ∧ walk <+: names
  | _ => True

theorem errorFrom_of_longer {walk : List String} {a : String} {error : EvalError}
    (h : ast.ErrorFrom (walk ++ [a]) error) : ast.ErrorFrom walk error := by
  cases error with
  | cycle names => exact ⟨h.1, (List.prefix_append walk [a]).trans h.2⟩
  | _ => trivial

theorem errorFrom_ofNamespace {walk : List String} {o : EvalOptions} {ns : Namespace}
    {error : EvalError} (h : error.OfNamespace o ns) : ast.ErrorFrom walk error := by
  cases error <;> trivial

theorem isCycle_concat {chain : List String} {a : String}
    (edges : (chain ++ [a]).IsChain ast.Composes) (distinct : chain.Nodup) (again : a ∈ chain) :
    ast.IsCycle (chain ++ [a]) where
  edges := edges
  distinct := by rwa [List.dropLast_concat]
  returns := ⟨a, List.getLast?_concat, by rwa [List.dropLast_concat]⟩

theorem explored_undefined {chain : List String} {a : String} (fresh : a ∉ chain)
    (undefined : ast.lookup a = []) : ast.Explored chain a := by
  refine .intro fresh fun b ⟨n, hn, _⟩ => ?_
  simp [undefined] at hn

theorem evalDefinition_ends {e : Evaluator} {task : Task} {chain : List String} {place : Place}
    {c : Composite} {t : Namespace × Nat} (edges : (chain ++ [c.ident]).IsChain e.ast.Composes)
    (ht : t.1 ∈ e.ast.lookup c.ident)
    (htask : ∀ place d, (chain ++ [c.ident] ++ [d.ident]).IsChain e.ast.Composes →
      Ends (task place d) (fun _ => e.ast.Explored (chain ++ [c.ident]) d.ident)
        (e.ast.ErrorFrom (chain ++ [c.ident] ++ [d.ident]))) :
    Ends (evalDefinition e task place c t)
      (fun _ => ∀ d ∈ t.1.composites, e.ast.Explored (chain ++ [c.ident]) d.ident)
      (e.ast.ErrorFrom (chain ++ [c.ident])) := by
  have composed : Ends (evalMany e.host e.options e.schedule task (place ++ [t.2]) t.1.composites)
      (fun _ => ∀ d ∈ t.1.composites, e.ast.Explored (chain ++ [c.ident]) d.ident)
      (e.ast.ErrorFrom (chain ++ [c.ident])) := by
    refine evalMany_ends trivial fun place d hd => ?_
    have edge : e.ast.Composes c.ident d.ident := ⟨t.1, ht, d, hd, rfl⟩
    have further : (chain ++ [c.ident] ++ [d.ident]).IsChain e.ast.Composes := by
      rw [List.append_assoc]
      exact List.isChain_append_cons_cons.mpr ⟨edges, edge, .singleton _⟩
    exact (htask place d further).mono (fun _ h => h) fun _ h => errorFrom_of_longer h
  refine composed.bind fun _ explored => ?_
  exact (runNamespace_ends _ _ _ _ _).mono (fun _ _ => explored) fun _ h => errorFrom_ofNamespace h

theorem evalComposite_ends (e : Evaluator) (chain : List String) :
    ∀ place c, (chain ++ [c.ident]).IsChain e.ast.Composes → chain.Nodup →
      Ends (evalComposite e chain place c) (fun _ => e.ast.Explored chain c.ident)
        (e.ast.ErrorFrom (chain ++ [c.ident])) := by
  induction chain using chain_induction e.ast with
  | step chain ih =>
    intro place c edges distinct
    have go : Ends Evaluation.goOn (fun _ => True) (e.ast.ErrorFrom (chain ++ [c.ident])) :=
      goOn_ends.mono (fun _ h => h) fun _ h => h ▸ trivial
    rw [evalComposite_eq, evalReference]
    refine go.bind fun _ _ => ?_
    split
    next again => exact ends_throw ⟨isCycle_concat edges distinct again, List.prefix_rfl⟩
    next fresh =>
    split
    next undefined =>
      split
      · exact ends_throw trivial
      · exact ends_pure (explored_undefined fresh undefined)
    next defined =>
    split
    · exact ends_throw trivial
    · have longer : (chain ++ [c.ident]).Nodup :=
        List.concat_eq_append ▸ List.Nodup.concat fresh distinct
      have walk : Ends (evalDefinitions e (evalComposite e (chain ++ [c.ident])) place c)
          (fun _ => ∀ t ∈ (e.ast.lookup c.ident).zipIdx, ∀ d ∈ t.1.composites,
            e.ast.Explored (chain ++ [c.ident]) d.ident) (e.ast.ErrorFrom (chain ++ [c.ident])) := by
        refine ends_foldlM _ (fun env t ht => ?_) _
        refine Ends.bind (evalDefinition_ends edges (List.fst_mem_of_mem_zipIdx ht)
          fun place d further => ?_) fun _ h => ends_pure h
        exact ih c.ident fresh defined place d further longer
      refine walk.mono (fun _ h => .intro fresh ?_) fun _ h => h
      rintro b ⟨n, hn, d, hd, rfl⟩
      exact forall_zipIdx (P := fun n => ∀ d ∈ n.composites, e.ast.Explored _ d.ident) h n hn d hd

/-- The requested names: a success explores all of them, and a cycle starts with one of them. -/
theorem evalRequested_ends (e : Evaluator) (names : List String) :
    Ends (evalRequested e names) (fun _ => ∀ c ∈ names.map Composite.named, e.ast.Explored [] c.ident)
      (fun error => ∀ walk, error = .cycle walk →
        (∃ name ∈ names, walk.head? = some name) ∧ e.ast.IsCycle walk) := by
  refine evalMany_ends (by simp) fun place c hc => ?_
  obtain ⟨name, hname, rfl⟩ := List.mem_map.mp hc
  refine (evalComposite_ends e [] place (.named name) (.singleton _) .nil).mono (fun _ h => h) ?_
  rintro error h walk rfl
  obtain ⟨more, rfl⟩ := h.2
  exact ⟨⟨name, hname, rfl⟩, h.1⟩

/-- The recursion of an evaluation is given by the calls of references, which never go on without
end. No cycle can be reached from the requested names of an evaluation that succeeds, and a cycle
that it reports is one and starts with a requested name. -/
theorem composition_ends_and_finds_cycles (m : Model) (host : Host) (schedule : Schedule)
    (o : EvalOptions) (p : Patience) (names : List String) :
    (WellFounded fun x y => m.ast.Calls y x) ∧
    (∀ chain place c task,
      (∀ d, m.ast.Calls (chain, c) (chain ++ [c.ident], d) → ∀ place,
        task place d = evalComposite ⟨host, m.ast, o, schedule⟩ (chain ++ [c.ident]) place d) →
      evalComposite ⟨host, m.ast, o, schedule⟩ chain place c =
        evalReference ⟨host, m.ast, o, schedule⟩ task chain place c) ∧
    (∀ vars, m.eval host schedule o p names = .ok vars →
      ∀ name ∈ names, ∀ a, Relation.ReflTransGen m.ast.Composes name a →
        ¬ Relation.TransGen m.ast.Composes a a) ∧
    (∀ walk, m.eval host schedule o p names = .error (.cycle walk) →
      (∃ name ∈ names, walk.head? = some name) ∧ m.ast.IsCycle walk) := by
  have ends := evalRequested_ends ⟨host, m.ast, o, schedule⟩ names
  refine ⟨calls_wellFounded m.ast, fun chain place c task same => ?_, fun vars hr name hname a => ?_,
    fun walk hr => ?_⟩
  · rw [evalComposite_eq]
    exact evalReference_congr fun d hd place => (same d hd place).symm
  · obtain ⟨env, hr, -⟩ := eval_eq_ok hr
    exact explored_acyclic (ends.ok hr (.named name) (List.mem_map_of_mem hname))
  · exact ends.error (eval_eq_error hr) walk rfl

/-- Two names that compose each other, and a name that composes another one. -/
def loop : Model := ⟨⟨[.composing "a" ["b"], .composing "b" ["a"]]⟩, []⟩

def line : Model := ⟨⟨[.composing "a" ["b"], .composing "b" []]⟩, []⟩

theorem loop_is_a_cycle_and_line_is_not :
    loop.ast.IsCycle ["a", "b", "a"] ∧ ¬ Relation.TransGen line.ast.Composes "b" "b" := by
  constructor
  · have reported : loop.eval .bare .calm .default .endless ["a"] =
        .error (.cycle ["a", "b", "a"]) := by cbv
    exact ((composition_ends_and_finds_cycles ..).2.2.2 _ reported).2
  · have succeeds : (line.eval .bare .calm .default .endless ["a"]).isOk = true := by
      decide +kernel
    have edge : line.ast.Composes "a" "b" := ⟨_, .head _, .named "b", .head _, rfl⟩
    cases hr : line.eval .bare .calm .default .endless ["a"] with
    | ok vars =>
      exact (composition_ends_and_finds_cycles ..).2.2.1 vars hr "a" (.head _) "b" (.single edge)
    | error e => simp [hr, Except.isOk, Except.toBool] at succeeds

end EnvManifest
