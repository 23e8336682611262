import EnvManifest.Proofs.Eval.Walks

/-!
# A reference after other chains

A name means the same on every way to it. A reference that succeeds with one chain gives the same
environment with every other one, unless it leads to a name of that chain. Then the evaluation has
a cycle, the first one that it comes to.
-/

namespace EnvManifest

section

variable {e : Evaluator} {chain other : List String} {c : Composite} {env : Environment}

/-- What a reference that succeeds with some chain comes to with another one. -/
theorem comesTo_other (serial : e.options.Serial e.host) (h : e.comesTo chain c = .ok env) :
    e.comesTo other c = ((e.ast.walks other c).find? closes).elim (.ok env) fun walk =>
      .error (.cycle (walk.1 ++ [walk.2])) := by
  have same : e.comesTo other c = firstOr (e.ast.faults e.options.strict other c) env :=
    comesTo_elsewhere serial (fun n _ => alike_self n) chain other c env h
  rw [same]
  refine firstOr_find fun walk hw => ?_
  have defined := defined_of_ok serial h walk.2 (reaches_of_walk hw)
  cases hs : e.options.strict with
  | true => simp [Ast.fault?, defined hs]
  | false => simp [Ast.fault?]

/-- A walk after another chain comes back only to a name of that chain. -/
theorem closes_onto (serial : e.options.Serial e.host) (h : e.comesTo chain c = .ok env)
    {walk : List String × String} (hw : walk ∈ e.ast.walks other c) (again : closes walk = true) :
    walk.2 ∈ other := by
  rcases leads_of_walk hw walk.2 (by simpa [closes] using again) with ha | ⟨reached, cycle⟩
  · exact ha
  · exact (explored_acyclic (explored_of_walks (opened_of_ok serial h)) reached cycle).elim

/-- A walk after a chain comes back to each name of it that can be reached. -/
theorem exists_closes {a : String} (reached : Relation.ReflTransGen e.ast.Composes c.ident a)
    (ha : a ∈ other) : ∃ walk ∈ e.ast.walks other c, closes walk = true := by
  by_contra none
  have opened : ∀ walk ∈ e.ast.walks other c, closes walk = false :=
    fun walk hw => Bool.eq_false_iff.mpr fun again => none ⟨walk, hw, again⟩
  obtain ⟨way, hw⟩ := exists_walk opened reached
  have onWay : a ∈ way := (prefix_of_walk hw).subset ha
  simpa [closes, onWay] using opened _ hw

/-- A reference that succeeds with a chain succeeds with each other chain, from which it reaches no
name, and gives the same environment. With every other chain it has a cycle, and the walk that the
error tells is the first one that comes back. -/
theorem means_same_on_all_chains (e : Evaluator) (serial : e.options.Serial e.host)
    (chain other : List String) (place place' : Place) (c : Composite) (env : Environment)
    (succeeds : ran (evalComposite e chain place c) = .ok env) :
    ((∀ a, Relation.ReflTransGen e.ast.Composes c.ident a → a ∉ other) →
      ran (evalComposite e other place' c) = .ok env) ∧
    ((∃ a, Relation.ReflTransGen e.ast.Composes c.ident a ∧ a ∈ other) →
      ∃ walk, (e.ast.walks other c).find? closes = some walk ∧
        ran (evalComposite e other place' c) = .error (.cycle (walk.1 ++ [walk.2]))) := by
  rw [ran_evalComposite chain place serial] at succeeds
  rw [ran_evalComposite other place' serial, comesTo_other serial succeeds]
  constructor
  · intro clear
    have none : (e.ast.walks other c).find? closes = none := by
      refine List.find?_eq_none.mpr fun walk hw again => ?_
      exact clear walk.2 (reaches_of_walk hw) (closes_onto serial succeeds hw again)
    rw [none]
    rfl
  · rintro ⟨a, reached, ha⟩
    obtain ⟨walk, hw, again⟩ := exists_closes reached ha
    cases first : (e.ast.walks other c).find? closes with
    | none => exact absurd again (List.find?_eq_none.mp first walk hw)
    | some walk => exact ⟨walk, rfl, rfl⟩

/-- Two ways from one name to another. -/
def diamond : Model :=
  ⟨⟨[.composing "top" ["left", "right"], .composing "left" ["base"], .composing "right" ["base"],
    .composing "base" []]⟩, []⟩

/-- The evaluation of a model one after another. -/
def Model.evaluator (m : Model) : Evaluator := ⟨.bare, m.ast, .default, .calm⟩

theorem diamond_after_other_chains :
    ran (evalComposite diamond.evaluator ["outer"] [] (.named "top")) =
      ran (evalComposite diamond.evaluator [] [] (.named "top")) ∧
    ran (evalComposite diamond.evaluator ["base"] [] (.named "top")) =
      .error (.cycle ["base", "top", "left", "base"]) := by
  have serial : diamond.evaluator.options.Serial diamond.evaluator.host := Nat.le_refl 1
  have succeeds : (ran (evalComposite diamond.evaluator [] [] (.named "top"))).isOk = true := by
    decide +kernel
  cases h : ran (evalComposite diamond.evaluator [] [] (.named "top")) with
  | error error => simp [h, Except.isOk, Except.toBool] at succeeds
  | ok env =>
    constructor
    · refine (means_same_on_all_chains _ serial [] ["outer"] [] [] _ _ h).1 fun a reached ha => ?_
      obtain rfl := List.mem_singleton.mp ha
      have closed : ∀ a ∈ ["top", "left", "right", "base"], ∀ n ∈ diamond.ast.lookup a,
          ∀ c ∈ n.composites, c.ident ∈ ["top", "left", "right", "base"] := by decide
      exact absurd (reaches_within closed (.head _) reached) (by decide)
    · have reached : Relation.ReflTransGen diamond.ast.Composes "top" "base" :=
        .tail (.single ⟨_, .head _, .named "left", .head _, rfl⟩)
          ⟨_, .head _, .named "base", .head _, rfl⟩
      obtain ⟨walk, first, failed⟩ :=
        (means_same_on_all_chains _ serial [] ["base"] [] [] _ _ h).2 ⟨"base", reached, .head _⟩
      have found : (diamond.ast.walks ["base"] (.named "top")).find? closes =
          some (["base", "top", "left"], "base") := by cbv
      obtain rfl := Option.some.inj (found.symm.trans first)
      exact failed

end

end EnvManifest
