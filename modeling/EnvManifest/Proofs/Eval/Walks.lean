import EnvManifest.Proofs.Eval.Composition
import EnvManifest.Proofs.Eval.Parallel

/-!
# The walks of an evaluation

One after another, an evaluation walks from each name to the names that it composes, in the order of
the manifest. Where a reference succeeds once, it succeeds after every chain and in every mode, with
the same environment, unless one of the walks ends with a name that must not be there. The first of
these walks is the error.
-/

namespace EnvManifest

/-! ## One step -/

/-- A definition, if its composites have come to some results. -/
def Evaluator.definition (e : Evaluator) (result : Composite → Except EvalError Environment)
    (arguments : List Parameter) (n : Namespace) : Except EvalError Environment := do
  let composed ← mergeAll result .empty n.composites
  ran (runNamespace e.host e.options n composed arguments)

/-- The definitions of a name are guarded against repetition, and two of them have the same text. -/
def Evaluator.repeats (e : Evaluator) (ident : String) : Bool :=
  e.options.unique && hasDuplicate ((e.ast.lookup ident).map Namespace.print)

/-- A reference, if the composites of its definitions have come to some results. -/
def Evaluator.reference (e : Evaluator) (result : Composite → Except EvalError Environment)
    (chain : List String) (c : Composite) : Except EvalError Environment :=
  if c.ident ∈ chain then .error (.cycle (chain ++ [c.ident]))
  else if e.ast.lookup c.ident = [] then
    if e.options.strict then .error (.undefinedNamespace c.ident) else .ok .empty
  else if e.repeats c.ident then .error (.duplicate c.ident)
  else mergeAll (e.definition result c.arguments) .empty (e.ast.lookup c.ident)

section

variable {e : Evaluator} {result : Composite → Except EvalError Environment} {chain : List String}
  {c : Composite}

theorem reference_again (again : c.ident ∈ chain) :
    e.reference result chain c = .error (.cycle (chain ++ [c.ident])) := if_pos again

theorem reference_undefined (fresh : c.ident ∉ chain) (undefined : e.ast.lookup c.ident = []) :
    e.reference result chain c =
      if e.options.strict then .error (.undefinedNamespace c.ident) else .ok .empty := by
  rw [Evaluator.reference, if_neg fresh, if_pos undefined]

theorem reference_repeated (fresh : c.ident ∉ chain) (defined : e.ast.lookup c.ident ≠ [])
    (repeated : e.repeats c.ident = true) :
    e.reference result chain c = .error (.duplicate c.ident) := by
  rw [Evaluator.reference, if_neg fresh, if_neg defined, if_pos repeated]

theorem reference_defined (fresh : c.ident ∉ chain) (defined : e.ast.lookup c.ident ≠ [])
    (single : e.repeats c.ident = false) :
    e.reference result chain c =
      mergeAll (e.definition result c.arguments) .empty (e.ast.lookup c.ident) := by
  rw [Evaluator.reference, if_neg fresh, if_neg defined, single]
  rfl

/-- A reference that succeeds is skipped, or its definitions succeed. -/
theorem reference_eq_ok {env : Environment} (h : e.reference result chain c = .ok env) :
    c.ident ∉ chain ∧
    (e.ast.lookup c.ident = [] ∧ env = .empty ∨
      e.ast.lookup c.ident ≠ [] ∧ e.repeats c.ident = false ∧
        mergeAll (e.definition result c.arguments) .empty (e.ast.lookup c.ident) = .ok env) := by
  by_cases again : c.ident ∈ chain
  · rw [reference_again again] at h
    cases h
  refine ⟨again, ?_⟩
  by_cases undefined : e.ast.lookup c.ident = []
  · rw [reference_undefined again undefined] at h
    split at h
    · cases h
    · exact .inl ⟨undefined, (Except.ok.inj h).symm⟩
  cases repeated : e.repeats c.ident with
  | true =>
    rw [reference_repeated again undefined repeated] at h
    cases h
  | false =>
    rw [reference_defined again undefined repeated] at h
    exact .inr ⟨undefined, rfl, h⟩

end

theorem comesTo_eq {e : Evaluator} (serial : e.options.Serial e.host) (chain : List String)
    (c : Composite) :
    e.comesTo chain c = e.reference (e.comesTo (chain ++ [c.ident])) chain c := by
  rw [Evaluator.comesTo, evalComposite_eq, evalReference, ran_goOn, Evaluator.reference,
    Evaluator.repeats]
  split
  · rfl
  split
  · split <;> rfl
  split
  · rfl
  rw [ran_evalDefinitions, ← mergeAll_zipIdx]
  refine foldlM_congr (fun env t _ => ?_) _
  rw [ran_evalDefinition, ran_siblings _ _ serial]
  rfl

theorem ran_evalRequested {e : Evaluator} (serial : e.options.Serial e.host) (names : List String) :
    ran (evalRequested e names) = mergeAll (e.comesTo []) .empty (names.map Composite.named) :=
  ran_siblings [] [] serial _

/-! ## Walks -/

/-- The names that an evaluation meets from a reference with its chain, in its order, each with the
chain on the way to it. -/
def Ast.walks (ast : Ast) (chain : List String) (c : Composite) : List (List String × String) :=
  (chain, c.ident) ::
    if _again : c.ident ∈ chain then []
    else if _undefined : ast.lookup c.ident = [] then []
    else (ast.lookup c.ident).flatMap fun n =>
      n.composites.flatMap (ast.walks (chain ++ [c.ident]))
termination_by (ast.unvisited chain).length
decreasing_by exact Ast.length_unvisited_lt _again _undefined

/-- A walk comes back to a name on its chain. -/
def closes (walk : List String × String) : Bool := walk.2 ∈ walk.1

/-- The error at the end of a walk. -/
def Ast.fault? (ast : Ast) (strict : Bool) (walk : List String × String) : Option EvalError :=
  if closes walk then some (.cycle (walk.1 ++ [walk.2]))
  else if strict && (ast.lookup walk.2).isEmpty then some (.undefinedNamespace walk.2)
  else none

/-- The errors at the ends of the walks from a reference. -/
def Ast.faults (ast : Ast) (strict : Bool) (chain : List String) (c : Composite) : List EvalError :=
  (ast.walks chain c).filterMap (ast.fault? strict)

section

variable {ast : Ast} {strict : Bool} {chain : List String} {c : Composite}

theorem walks_again (again : c.ident ∈ chain) : ast.walks chain c = [(chain, c.ident)] := by
  rw [Ast.walks, dif_pos again]

theorem walks_undefined (undefined : ast.lookup c.ident = []) :
    ast.walks chain c = [(chain, c.ident)] := by
  rw [Ast.walks]
  split
  · rfl
  · rfl

theorem walks_defined (fresh : c.ident ∉ chain) :
    ast.walks chain c = (chain, c.ident) :: (ast.lookup c.ident).flatMap fun n =>
      n.composites.flatMap (ast.walks (chain ++ [c.ident])) := by
  rw [Ast.walks, dif_neg fresh]
  split
  next undefined => rw [undefined]; rfl
  next => rfl

end

/-! ## What walks reach -/

section

variable {ast : Ast}

theorem mem_walks_self (chain : List String) (c : Composite) :
    (chain, c.ident) ∈ ast.walks chain c := by
  rw [Ast.walks]
  exact List.mem_cons_self

/-- A walk of one step more. -/
theorem mem_walks_of_next {chain : List String} {c d : Composite} {n : Namespace}
    {walk : List String × String} (fresh : c.ident ∉ chain) (defined : n ∈ ast.lookup c.ident)
    (composed : d ∈ n.composites) (h : walk ∈ ast.walks (chain ++ [c.ident]) d) :
    walk ∈ ast.walks chain c := by
  rw [walks_defined fresh]
  exact List.mem_cons_of_mem _
    (List.mem_flatMap_of_mem defined (List.mem_flatMap_of_mem composed h))

theorem walks_cases {chain : List String} {c : Composite} {walk : List String × String}
    (h : walk ∈ ast.walks chain c) :
    walk = (chain, c.ident) ∨
    c.ident ∉ chain ∧ ∃ n ∈ ast.lookup c.ident, ∃ d ∈ n.composites,
      walk ∈ ast.walks (chain ++ [c.ident]) d := by
  by_cases again : c.ident ∈ chain
  · rw [walks_again again] at h
    exact .inl (List.mem_singleton.mp h)
  · rw [walks_defined again] at h
    rcases List.mem_cons.mp h with h | h
    · exact .inl h
    · obtain ⟨n, hn, h⟩ := List.mem_flatMap.mp h
      obtain ⟨d, hd, h⟩ := List.mem_flatMap.mp h
      exact .inr ⟨again, n, hn, d, hd, h⟩

end

section

variable {ast : Ast} {chain : List String} {c : Composite} {walk : List String × String}

/-- What holds of the walk that ends at once, and of each walk if it holds of the same walk from one
step later, holds of all walks. -/
@[elab_as_elim]
theorem walks_induction {motive : List String → Composite → Prop}
    (here : ∀ chain c, walk = (chain, c.ident) → motive chain c)
    (next : ∀ chain c n d, c.ident ∉ chain → n ∈ ast.lookup c.ident → d ∈ n.composites →
      motive (chain ++ [c.ident]) d → motive chain c)
    (h : walk ∈ ast.walks chain c) : motive chain c := by
  induction chain using chain_induction ast generalizing c with
  | step chain ih =>
    obtain rfl | ⟨fresh, n, hn, d, hd, h⟩ := walks_cases h
    · exact here chain c rfl
    · exact next chain c n d fresh hn hd (ih c.ident fresh (List.ne_nil_of_mem hn) h)

theorem reaches_of_walk (h : walk ∈ ast.walks chain c) :
    Relation.ReflTransGen ast.Composes c.ident walk.2 := by
  refine walks_induction ?_ ?_ h
  · rintro chain c rfl
    exact .refl
  · exact fun chain c n d _ hn hd rest => .head ⟨n, hn, d, hd, rfl⟩ rest

theorem prefix_of_walk (h : walk ∈ ast.walks chain c) : chain <+: walk.1 := by
  refine walks_induction ?_ ?_ h
  · rintro chain c rfl
    exact List.prefix_rfl
  · exact fun chain c n d _ _ _ rest => (List.prefix_append chain [c.ident]).trans rest

/-- A name on the chain of a walk that was not there from the start leads to its end. -/
theorem leads_of_walk (h : walk ∈ ast.walks chain c) :
    ∀ a ∈ walk.1, a ∈ chain ∨ Relation.ReflTransGen ast.Composes c.ident a ∧
      Relation.TransGen ast.Composes a walk.2 := by
  refine walks_induction (motive := fun chain c => walk ∈ ast.walks chain c ∧ ∀ a ∈ walk.1,
    a ∈ chain ∨ Relation.ReflTransGen ast.Composes c.ident a ∧
      Relation.TransGen ast.Composes a walk.2) ?_ ?_ h |>.2
  · rintro chain c rfl
    exact ⟨mem_walks_self chain c, fun a ha => .inl ha⟩
  · intro chain c n d fresh hn hd ⟨mem, rest⟩
    have step : ast.Composes c.ident d.ident := ⟨n, hn, d, hd, rfl⟩
    refine ⟨mem_walks_of_next fresh hn hd mem, fun a ha => ?_⟩
    rcases rest a ha with ha | ⟨reached, leads⟩
    · rcases List.mem_append.mp ha with ha | ha
      · exact .inl ha
      · obtain rfl := List.mem_singleton.mp ha
        exact .inr ⟨.refl, Relation.TransGen.head'_iff.mpr ⟨d.ident, step, reaches_of_walk mem⟩⟩
    · exact .inr ⟨.head step reached, leads⟩

/-- A walk that does not close goes on to each name that its last one composes. -/
theorem walk_goesOn (h : walk ∈ ast.walks chain c) (opened : closes walk = false) {b : String}
    (step : ast.Composes walk.2 b) : (walk.1 ++ [walk.2], b) ∈ ast.walks chain c := by
  refine walks_induction ?_ ?_ h
  · rintro chain c rfl
    obtain ⟨n, hn, d, hd, rfl⟩ := step
    exact mem_walks_of_next (by simpa [closes] using opened) hn hd (mem_walks_self _ d)
  · exact fun chain c n d fresh hn hd rest => mem_walks_of_next fresh hn hd rest

/-- If no walk closes, they come to all names that can be reached. -/
theorem exists_walk (opened : ∀ walk ∈ ast.walks chain c, closes walk = false) {a : String}
    (path : Relation.ReflTransGen ast.Composes c.ident a) : ∃ way, (way, a) ∈ ast.walks chain c := by
  induction path with
  | refl => exact ⟨chain, mem_walks_self chain c⟩
  | tail _ step ih =>
    obtain ⟨way, h⟩ := ih
    exact ⟨_, walk_goesOn h (opened _ h) step⟩

/-- If no walk closes, all that can be reached is explored. -/
theorem explored_of_walks (opened : ∀ walk ∈ ast.walks chain c, closes walk = false) :
    ast.Explored chain c.ident := by
  induction chain using chain_induction ast generalizing c with
  | step chain ih =>
    have fresh : c.ident ∉ chain := by simpa [closes] using opened _ (mem_walks_self chain c)
    refine .intro fresh ?_
    rintro b ⟨n, hn, d, hd, rfl⟩
    exact ih c.ident fresh (List.ne_nil_of_mem hn) fun walk h =>
      opened walk (mem_walks_of_next fresh hn hd h)

end

/-! ## Faults -/

section

variable {ast : Ast} {strict : Bool} {chain : List String} {c : Composite}

theorem faults_again (again : c.ident ∈ chain) :
    ast.faults strict chain c = [.cycle (chain ++ [c.ident])] := by
  simp [Ast.faults, walks_again again, Ast.fault?, closes, again]

theorem faults_undefined (fresh : c.ident ∉ chain) (undefined : ast.lookup c.ident = []) :
    ast.faults strict chain c = if strict then [.undefinedNamespace c.ident] else [] := by
  cases strict <;> simp [Ast.faults, walks_undefined undefined, Ast.fault?, closes, fresh, undefined]

theorem faults_defined (fresh : c.ident ∉ chain) (defined : ast.lookup c.ident ≠ []) :
    ast.faults strict chain c = (ast.lookup c.ident).flatMap fun n =>
      n.composites.flatMap (ast.faults strict (chain ++ [c.ident])) := by
  have here : ast.fault? strict (chain, c.ident) = none := by
    simp [Ast.fault?, closes, fresh, defined]
  rw [Ast.faults, walks_defined fresh, List.filterMap_cons_none here]
  simp only [List.filterMap_flatMap]
  rfl

end

/-! ## Success elsewhere -/

/-- The first of some errors, or a result if there are none. -/
def firstOr {α : Type} (errors : List EvalError) (a : α) : Except EvalError α :=
  match errors with
  | [] => .ok a
  | error :: _ => .error error

theorem firstOr_eq_ok {α : Type} {errors : List EvalError} {a b : α}
    (h : firstOr errors a = .ok b) : errors = [] := by
  cases errors with
  | nil => rfl
  | cons error errors => cases h

/-- Results that are the same but for errors of some of them: together they are the same but for
the first error. -/
theorem mergeAll_firstOr {α : Type} {result other : α → Except EvalError Environment}
    {errors : α → List EvalError} {as : List α}
    (each : ∀ a ∈ as, ∀ own, result a = .ok own → other a = firstOr (errors a) own)
    {env whole : Environment} (h : mergeAll result env as = .ok whole) :
    mergeAll other env as = firstOr (as.flatMap errors) whole := by
  induction as generalizing env with
  | nil => exact h
  | cons a as ih =>
    rw [mergeAll, List.foldlM_cons] at h ⊢
    cases ha : result a with
    | error error => rw [ha] at h; cases h
    | ok own =>
      rw [ha] at h
      rw [each a List.mem_cons_self own ha, List.flatMap_cons]
      cases errors a with
      | nil => exact ih (fun b hb => each b (List.mem_cons_of_mem _ hb)) h
      | cons error rest => rfl

/-- The same settings in strict mode or not. -/
def EvalOptions.inMode (o : EvalOptions) (strict : Bool) : EvalOptions := { o with strict }

/-- The same evaluation in strict mode or not. -/
def Evaluator.inMode (e : Evaluator) (strict : Bool) : Evaluator :=
  { e with options := e.options.inMode strict }

/-- A definition comes to the same in another mode. -/
def Evaluator.Alike (e : Evaluator) (strict : Bool) (n : Namespace) : Prop :=
  ∀ composed arguments, ran (runNamespace e.host (e.options.inMode strict) n composed arguments) =
    ran (runNamespace e.host e.options n composed arguments)

section

variable {e : Evaluator} {strict : Bool}

/-- A reference that succeeds with one chain comes to the same with every other one and in another
mode, but for the errors of its walks. -/
theorem comesTo_elsewhere (serial : e.options.Serial e.host)
    (alike : ∀ n ∈ e.ast.namespaces, e.Alike strict n) (chain : List String) :
    ∀ other c env, e.comesTo chain c = .ok env →
      (e.inMode strict).comesTo other c = firstOr (e.ast.faults strict other c) env := by
  induction chain using chain_induction e.ast with
  | step chain ih =>
    intro other c env h
    have there : (e.inMode strict).options.Serial (e.inMode strict).host := serial
    rw [comesTo_eq serial] at h
    rw [comesTo_eq there]
    by_cases again : c.ident ∈ other
    · rw [reference_again again, faults_again again]
      rfl
    obtain ⟨fresh, ⟨undefined, rfl⟩ | ⟨defined, single, h⟩⟩ := reference_eq_ok h
    · rw [reference_undefined (e := e.inMode strict) again undefined, faults_undefined again undefined]
      cases strict <;> rfl
    rw [reference_defined (e := e.inMode strict) again defined single, faults_defined again defined]
    refine mergeAll_firstOr (fun n hn own hown => ?_) h
    rw [Evaluator.definition] at hown ⊢
    cases hc : mergeAll (e.comesTo (chain ++ [c.ident])) .empty n.composites with
    | error error => rw [hc] at hown; cases hown
    | ok composed =>
      rw [hc] at hown
      rw [mergeAll_firstOr (fun d _ env hd => ih c.ident fresh defined _ d env hd) hc]
      cases n.composites.flatMap (e.ast.faults strict (other ++ [c.ident])) with
      | nil => exact (alike n (List.mem_filter.mp hn).1 composed c.arguments).trans hown
      | cons error rest => rfl

theorem alike_self (n : Namespace) : e.Alike e.options.strict n := fun _ _ => rfl

/-- No walk of a reference that succeeds has an error. -/
theorem faults_of_ok (serial : e.options.Serial e.host) {chain : List String} {c : Composite}
    {env : Environment} (h : e.comesTo chain c = .ok env) :
    e.ast.faults e.options.strict chain c = [] := by
  have same := comesTo_elsewhere serial (fun n _ => alike_self n) chain chain c env h
  exact firstOr_eq_ok (same.symm.trans h)

end

/-! ## What success tells -/

/-- The first error among some walks, all of one kind. -/
theorem firstOr_find {α β : Type} {fault : α → Option EvalError} {p : α → Bool}
    {error : α → EvalError} {as : List α} {b : β}
    (h : ∀ a ∈ as, fault a = if p a then some (error a) else none) :
    firstOr (as.filterMap fault) b = (as.find? p).elim (.ok b) fun a => .error (error a) := by
  induction as with
  | nil => rfl
  | cons a as ih =>
    obtain ⟨ha, h⟩ := List.forall_mem_cons.mp h
    cases hp : p a with
    | true =>
      rw [hp, if_pos rfl] at ha
      rw [List.filterMap_cons_some ha, List.find?_cons_of_pos hp]
      rfl
    | false =>
      rw [hp, if_neg (by simp)] at ha
      rw [List.filterMap_cons_none ha, List.find?_cons_of_neg (by simp [hp])]
      exact ih h

section

variable {e : Evaluator} {chain : List String} {c : Composite} {env : Environment}

theorem fault?_of_ok (serial : e.options.Serial e.host) (h : e.comesTo chain c = .ok env) :
    ∀ walk ∈ e.ast.walks chain c, e.ast.fault? e.options.strict walk = none :=
  List.filterMap_eq_nil_iff.mp (faults_of_ok serial h)

theorem opened_of_ok (serial : e.options.Serial e.host) (h : e.comesTo chain c = .ok env) :
    ∀ walk ∈ e.ast.walks chain c, closes walk = false := by
  intro walk hw
  have none := fault?_of_ok serial h walk hw
  cases again : closes walk with
  | false => rfl
  | true => simp [Ast.fault?, again] at none

/-- In strict mode, a reference that succeeds leads to defined names only. -/
theorem defined_of_ok (serial : e.options.Serial e.host) (h : e.comesTo chain c = .ok env)
    (a : String) (reached : Relation.ReflTransGen e.ast.Composes c.ident a)
    (strict : e.options.strict = true) : e.ast.lookup a ≠ [] := by
  obtain ⟨way, hw⟩ := exists_walk (opened_of_ok serial h) reached
  have none := fault?_of_ok serial h _ hw
  intro undefined
  simp [Ast.fault?, opened_of_ok serial h _ hw, strict, undefined] at none

end

/-- Names that compose only each other are all that can be reached from them. -/
theorem reaches_within {ast : Ast} {names : List String} {a b : String}
    (closed : ∀ a ∈ names, ∀ n ∈ ast.lookup a, ∀ c ∈ n.composites, c.ident ∈ names)
    (ha : a ∈ names) (path : Relation.ReflTransGen ast.Composes a b) : b ∈ names := by
  induction path with
  | refl => exact ha
  | tail _ step ih =>
    obtain ⟨n, hn, c, hc, rfl⟩ := step
    exact closed _ ih n hn c hc

end EnvManifest
