import EnvManifest.Eval.Schedule

/-!
# Composition

The evaluation of a reference: all definitions of its name, each after the namespaces that it
composes. The names on the way to a reference are its chain, and none of them may come back.
-/

namespace EnvManifest

/-! ## Termination -/

/-- The namespaces whose names are not in a chain. -/
def Ast.unvisited (ast : Ast) (chain : List String) : List Namespace :=
  ast.namespaces.filter fun n => !chain.contains n.ident

theorem Ast.length_unvisited_lt {ast : Ast} {chain : List String} {ident : String}
    (fresh : ident ∉ chain) (defined : ast.lookup ident ≠ []) :
    (ast.unvisited (chain ++ [ident])).length < (ast.unvisited chain).length := by
  obtain ⟨n, rest, hn⟩ := List.exists_cons_of_ne_nil defined
  have mem : n ∈ ast.lookup ident := by simp [hn]
  obtain ⟨mem, same⟩ := List.mem_filter.mp mem
  have same : n.ident = ident := by simpa using same
  have fewer : ast.unvisited (chain ++ [ident]) =
      (ast.unvisited chain).filter fun n => n.ident != ident := by
    simp only [unvisited, List.filter_filter]
    congr 1
    funext m
    by_cases h : m.ident = ident <;> simp [h]
  rw [fewer]
  refine List.length_filter_lt_length_iff_exists.mpr ⟨n, ?_, by simp [same]⟩
  exact List.mem_filter.mpr ⟨mem, by simpa [same] using fresh⟩

/-! ## References -/

/-- Does a definition have the same text as a later one? -/
def hasDuplicate : List (List Char) → Bool
  | [] => false
  | text :: texts => texts.contains text || hasDuplicate texts

/-- What an evaluation knows from the start. -/
structure Evaluator where
  host : Host
  ast : Ast
  options : EvalOptions
  schedule : Schedule

/-- The environment of a reference, with the names on the way to it. -/
def evalComposite (e : Evaluator) (chain : List String) (place : Place) (c : Composite) :
    Evaluation Environment := do
  Evaluation.goOn
  if _cyclic : c.ident ∈ chain then throw (.cycle (chain ++ [c.ident]))
  else if _undefined : e.ast.lookup c.ident = [] then
    if e.options.strict then throw (.undefinedNamespace c.ident) else return .empty
  else if e.options.unique && hasDuplicate ((e.ast.lookup c.ident).map Namespace.print) then
    throw (.duplicate c.ident)
  else
    (e.ast.lookup c.ident).zipIdx.foldlM (fun env (ns, d) => do
      let composed ← evalMany e.host e.options e.schedule (evalComposite e (chain ++ [c.ident]))
        (place ++ [d]) ns.composites
      return env.merge (← runNamespace e.host e.options ns composed c.arguments)) .empty
termination_by (e.ast.unvisited chain).length
decreasing_by exact Ast.length_unvisited_lt _cyclic _undefined

end EnvManifest
