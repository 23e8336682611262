import EnvManifest.Proofs.Eval.Walks

/-!
# Unreachable names

An evaluation sees the definitions of the names that can be reached from the requested ones, and no
others. So definitions of other names change neither its variables nor its error, whatever the
schedule is and whoever cancels it.
-/

namespace EnvManifest

/-- The same evaluation of another manifest. -/
def Evaluator.onAst (e : Evaluator) (ast : Ast) : Evaluator := { e with ast }

/-- Two manifests have the same definitions of all names that can be reached from a name. -/
def Ast.SameFrom (ast other : Ast) (ident : String) : Prop :=
  ∀ a, Relation.ReflTransGen ast.Composes ident a → other.lookup a = ast.lookup a

section

variable {ast other : Ast} {a b : String}

theorem Ast.SameFrom.self (h : ast.SameFrom other a) : other.lookup a = ast.lookup a := h a .refl

theorem Ast.SameFrom.next (h : ast.SameFrom other a) (step : ast.Composes a b) :
    ast.SameFrom other b := fun c path => h c (.head step path)

end

theorem evalReference_onAst {e : Evaluator} {other : Ast} {task : Task} {chain : List String}
    {place : Place} {c : Composite} (same : other.lookup c.ident = e.ast.lookup c.ident) :
    evalReference (e.onAst other) task chain place c = evalReference e task chain place c := by
  unfold evalReference evalDefinitions evalDefinition Evaluator.onAst
  dsimp only
  rw [same]

theorem evalComposite_onAst {e : Evaluator} {other : Ast} (chain : List String) :
    ∀ place c, e.ast.SameFrom other c.ident →
      evalComposite (e.onAst other) chain place c = evalComposite e chain place c := by
  induction chain using chain_induction e.ast with
  | step chain ih =>
    intro place c same
    rw [evalComposite_eq, evalComposite_eq, evalReference_onAst same.self]
    refine evalReference_congr fun d called place => ?_
    cases called with
    | composite fresh hn hd =>
      exact ih c.ident fresh (List.ne_nil_of_mem hn) place d (same.next ⟨_, hn, d, hd, rfl⟩)

/-- Two models that have the same definitions of all names that can be reached from the requested
ones have the same evaluations. -/
theorem eval_of_sameFrom {m m' : Model} {host : Host} {schedule : Schedule} {o : EvalOptions}
    {p : Patience} {names : List String} (same : ∀ name ∈ names, m.ast.SameFrom m'.ast name) :
    m'.eval host schedule o p names = m.eval host schedule o p names := by
  have siblings : evalRequested ⟨host, m'.ast, o, schedule⟩ names =
      evalRequested ⟨host, m.ast, o, schedule⟩ names := by
    refine evalMany_congr fun place c hc => ?_
    obtain ⟨name, hname, rfl⟩ := List.mem_map.mp hc
    exact evalComposite_onAst (e := ⟨host, m.ast, o, schedule⟩) [] place (.named name) (same name hname)
  rw [eval_eq, eval_eq, siblings]

theorem lookup_of_other {more : List Namespace} {a : String} (h : ∀ n ∈ more, n.ident ≠ a) :
    (⟨more⟩ : Ast).lookup a = [] := by
  refine List.filter_eq_nil_iff.mpr fun n hn => ?_
  simpa using h n hn

/-- Namespaces that cannot be reached from the requested names may be added to a model. Its
evaluations give the same variables or the same error. -/
theorem unreachable_changes_nothing (m : Model) (more : List Namespace) (sources : List Source)
    (host : Host) (schedule : Schedule) (o : EvalOptions) (p : Patience) (names : List String)
    (unreachable : ∀ name ∈ names, ∀ n ∈ more,
      ¬ Relation.ReflTransGen m.ast.Composes name n.ident) :
    Model.eval ⟨m.ast ++ ⟨more⟩, sources⟩ host schedule o p names =
      m.eval host schedule o p names := by
  refine eval_of_sameFrom fun name hname a path => ?_
  have other : ∀ n ∈ more, n.ident ≠ a := by
    rintro n hn rfl
    exact unreachable name hname n hn path
  rw [Ast.lookup_append, lookup_of_other other, List.append_nil]

/-- A name that composes itself, and one that composes a name without a definition. -/
def unrelated : List Namespace := [.composing "c" ["a", "c"], .composing "d" ["ghost"]]

theorem line_with_others :
    Model.eval ⟨line.ast ++ ⟨unrelated⟩, []⟩ .bare .calm .strictly .endless ["a"] =
      line.eval .bare .calm .strictly .endless ["a"] := by
  refine unreachable_changes_nothing line _ [] .bare .calm .strictly .endless ["a"] ?_
  intro name hname n hn reached
  obtain rfl := List.mem_singleton.mp hname
  have closed : ∀ a ∈ ["a", "b"], ∀ n ∈ line.ast.lookup a, ∀ c ∈ n.composites,
      c.ident ∈ ["a", "b"] := by decide
  have apart : ∀ n ∈ unrelated, n.ident ∉ ["a", "b"] := by decide
  exact apart n hn (reaches_within closed (.head _) reached)

end EnvManifest
