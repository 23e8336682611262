import EnvManifest.Proofs.Eval.Interleaving
import EnvManifest.Proofs.Eval.Parallel

/-!
# The error of a chunk

A task that fails cancels the rest of its chunk, and the tasks that notice fail too. The error that
is reported is never such an echo: it is the first error in the chunk, in the order of the manifest,
that a task has of its own.
-/

namespace EnvManifest

/-! ## Walks that fail -/

/-- A walk that fails has a first step that fails. -/
theorem foldlM_error {σ α β : Type} {f : β → α → Work σ β} {as : List α} {b : β} {s t : σ}
    {e : EvalError} (h : outcome (as.foldlM f b) s = (.error e, t)) :
    ∃ before a after c u, as = before ++ a :: after ∧
      outcome (before.foldlM f b) s = (.ok c, u) ∧ outcome (f c a) u = (.error e, t) := by
  induction as generalizing b s with
  | nil => cases h
  | cons a as ih =>
    rw [List.foldlM_cons] at h
    rcases hr : outcome (f b a) s with ⟨e' | c, u⟩
    · rw [outcome_bind_error hr] at h
      exact ⟨[], a, as, b, s, rfl, rfl, hr.trans h⟩
    · rw [outcome_bind_ok hr] at h
      obtain ⟨before, x, after, d, v, rfl, ok, error⟩ := ih h
      refine ⟨a :: before, x, after, d, v, rfl, ?_, error⟩
      rw [List.foldlM_cons, outcome_bind_ok hr, ok]

theorem foldlM_chunks {m : Type → Type} [Monad m] [LawfulMonad m] {α β : Type} {f : β → α → m β}
    (chunks : List (List α)) (b : β) :
    chunks.foldlM (fun b chunk => chunk.foldlM f b) b = chunks.flatten.foldlM f b := by
  induction chunks generalizing b with
  | nil => rfl
  | cons chunk chunks ih => simp only [List.foldlM_cons, List.flatten_cons, List.foldlM_append, ih]

/-- Steady work is cancelled only when its patience is used up. -/
theorem Steady.exhausted_of_cancelled {σ α : Type} [Patiently σ] {m : Work σ α} (hm : Steady m)
    {s t : σ} (h : outcome m s = (.error .cancelled, t)) : Patiently.patience t = .exhausted := by
  obtain ⟨used, -⟩ | ⟨q, -, same⟩ := hm.same s .endless (Patience.le_endless _)
  · rwa [h] at used
  · have calm := (hm.endless _ (Patiently.patience_with s .endless)).2
    rw [same, h] at calm
    exact (calm rfl).elim

theorem Steady.genuine_of_calm {α : Type} {m : Evaluation α} (hm : Steady m) {p rest : Patience}
    {error : EvalError} (h : outcome m p = (.error error, rest)) (calm : rest.ask.1 = false) :
    error ≠ .cancelled := by
  rintro rfl
  rw [show rest = .exhausted from hm.exhausted_of_cancelled h] at calm
  cases calm

/-! ## Chunks in a row -/

namespace Evaluator

variable (e : Evaluator) (task : Task) (place : Place)

/-- The composites in chunks, each with its number. One after another, each is a chunk of its own. -/
def chunksOf (cs : List Composite) : List (List (Composite × Nat)) :=
  chunks ((e.options.chunkSize? e.host cs.length).getD 1) cs.zipIdx

/-- A chunk among a number of composites. -/
def runChunk (count : Nat) (env : Environment) (tasks : List (Composite × Nat)) :
    Evaluation Environment :=
  match e.options.chunkSize? e.host count with
  | none => tasks.foldlM (fun env t => return env.merge (← task (place ++ [t.2]) t.1)) env
  | some _ => do
    Evaluation.goOn
    return (← evalChunk e.schedule task place tasks).foldl Environment.merge env

/-- What the composites of a chunk come to. -/
def chunkOutcomes (count : Nat) (p : Patience) (tasks : List (Composite × Nat)) : List TaskResult :=
  match e.options.chunkSize? e.host count with
  | none => tasks.map fun t => outcome (task (place ++ [t.2]) t.1) p
  | some _ => chunkResults e.schedule task place p.ask.2 tasks

theorem evalMany_eq_chunks (cs : List Composite) :
    evalMany e.host e.options e.schedule task place cs =
      (e.chunksOf cs).foldlM (e.runChunk task place cs.length) .empty := by
  unfold evalMany runChunk chunksOf
  cases e.options.chunkSize? e.host cs.length with
  | none => rw [foldlM_chunks, chunks_flatten]; rfl
  | some size => rfl

variable {e task place}

theorem runChunk_congr {task' : Task} {tasks : List (Composite × Nat)}
    (h : ∀ t ∈ tasks, task (place ++ [t.2]) t.1 = task' (place ++ [t.2]) t.1) (count : Nat)
    (env : Environment) :
    e.runChunk task place count env tasks = e.runChunk task' place count env tasks := by
  unfold runChunk
  split
  · exact foldlM_congr (fun env t ht => by rw [h t ht]) env
  · simp only [evalChunk, chunkResults_congr h]

end Evaluator

theorem singleton_of_mem_chunks {α : Type} {items chunk : List α} (h : chunk ∈ chunks 1 items) :
    ∃ a, chunk = [a] := by
  fun_induction chunks 1 items with
  | case1 items hs empty => cases h
  | case2 items hs nonempty => rcases hs with hs | rfl <;> simp_all
  | case3 items hs ih =>
    rcases List.mem_cons.mp h with rfl | h
    · obtain ⟨a, rest, rfl⟩ := List.exists_cons_of_ne_nil (not_or.mp hs).2
      exact ⟨a, rfl⟩
    · exact ih h

/-! ## The first error of its own -/

/-- A list of results has a first error that is not the cancellation by another one. -/
structure FirstGenuine (results : List TaskResult) (error : EvalError) : Prop where
  genuine : error ≠ .cancelled
  first : ∃ earlier rest later, results = earlier ++ (.error error, rest) :: later ∧
    ∀ r ∈ earlier, ¬ Genuine r.1

theorem firstGenuine_of_genuineError? {results : List TaskResult} {error : EvalError}
    (h : genuineError? results = some error) : FirstGenuine results error := by
  refine ⟨genuineError?_ne_cancelled h, ?_⟩
  obtain ⟨earlier, ⟨result, rest⟩, later, rfl, here, quiet⟩ := List.findSome?_eq_some_iff.mp h
  have own : result = .error error := by
    rcases result with ⟨_ | _⟩ | _ <;> simp_all
  refine ⟨earlier, rest, later, by rw [own], fun r hr => ?_⟩
  rintro ⟨e, he, genuine⟩
  have none := quiet r hr
  rw [he] at none
  cases e <;> simp_all

section

variable {e : Evaluator} {task : Task} {place : Place} {count : Nat} {env : Environment}
  {tasks : List (Composite × Nat)} {p rest : Patience} {error : EvalError}

theorem evalChunk_error (h : ∀ place, ∀ t ∈ tasks, Patient (task place t.1))
    (hr : outcome (evalChunk e.schedule task place tasks) p = (.error error, rest))
    (calm : rest.ask.1 = false) :
    genuineError? (chunkResults e.schedule task place p tasks) = some error := by
  have genuine := (patient_evalChunk h).genuine_of_calm hr calm
  rw [outcome_evalChunk] at hr
  split at hr
  · split at hr
    · exact (genuine (Except.error.inj (congrArg Prod.fst hr)).symm).elim
    · have reported := Except.error.inj (congrArg Prod.fst hr)
      cases hg : genuineError? (chunkResults e.schedule task place p tasks) with
      | none => exact (genuine (by rw [← reported, hg]; rfl)).elim
      | some e' => rw [← reported, hg]; rfl
  · cases hr

theorem runChunk_error (h : ∀ place, ∀ t ∈ tasks, Patient (task place t.1))
    (single : e.options.chunkSize? e.host count = none → ∃ t, tasks = [t])
    (hr : outcome (e.runChunk task place count env tasks) p = (.error error, rest))
    (calm : rest.ask.1 = false) :
    FirstGenuine (e.chunkOutcomes task place count p tasks) error := by
  refine firstGenuine_of_genuineError? ?_
  unfold Evaluator.runChunk at hr
  unfold Evaluator.chunkOutcomes
  split at hr
  next serial =>
    obtain ⟨t, rfl⟩ := single serial
    have own : outcome (task (place ++ [t.2]) t.1) p = (.error error, rest) := by
      rw [List.foldlM_cons, outcome_bind, outcome_bind] at hr
      rcases ht : outcome (task (place ++ [t.2]) t.1) p with ⟨e' | env', q⟩ <;> rw [ht] at hr
      · exact hr
      · cases hr
    have genuine := (h (place ++ [t.2]) t List.mem_cons_self).genuine_of_calm own calm
    simp only [List.map_cons, List.map_nil, own, genuineError?]
    cases error <;> simp_all
  next size parallel =>
    rw [outcome_bind, outcome_goOn] at hr
    cases asked : p.ask.1 with
    | true =>
      rw [asked] at hr
      obtain rfl : p.ask.2 = rest := congrArg Prod.snd hr
      rw [Patience.ask_yes asked] at calm
      cases calm
    | false =>
      rw [asked] at hr
      change outcome (evalChunk e.schedule task place tasks >>= fun _ => _) p.ask.2 = _ at hr
      refine evalChunk_error h ?_ calm
      rw [outcome_bind] at hr
      rcases hc : outcome (evalChunk e.schedule task place tasks) p.ask.2 with ⟨e' | envs, q⟩ <;>
        rw [hc] at hr
      · obtain ⟨rfl, rfl⟩ : e' = error ∧ q = rest := by simpa using hr
        rfl
      · cases hr

end

/-- A list of composites that fails although nobody has cancelled it from outside fails in its first
chunk that fails, with the first error in that chunk that is not a cancellation. Nothing after that
chunk is evaluated: the composites in it may as well be evaluated by any other task. -/
theorem failing_chunk_reports_first_genuine_error {e : Evaluator} {chain : List String}
    {place : Place} {composites : List Composite} {p rest : Patience} {error : EvalError}
    (fails : outcome (evalMany e.host e.options e.schedule (evalComposite e chain) place composites)
      p = (.error error, rest))
    (calm : rest.ask.1 = false) :
    ∃ before chunk after env q,
      e.chunksOf composites = before ++ chunk :: after ∧
      outcome (before.foldlM (e.runChunk (evalComposite e chain) place composites.length) .empty) p =
        (.ok env, q) ∧
      FirstGenuine (e.chunkOutcomes (evalComposite e chain) place composites.length q chunk) error ∧
      ∀ task : Task,
        (∀ t ∈ (before ++ [chunk]).flatten,
          task (place ++ [t.2]) t.1 = evalComposite e chain (place ++ [t.2]) t.1) →
        outcome (evalMany e.host e.options e.schedule task place composites) p =
          (.error error, rest) := by
  have patient := patient_evalComposite e chain
  rw [e.evalMany_eq_chunks] at fails
  obtain ⟨before, chunk, after, env, q, split, ok, failure⟩ := foldlM_error fails
  have single (serial : e.options.chunkSize? e.host composites.length = none) :
      ∃ t, chunk = [t] := by
    have mem : chunk ∈ e.chunksOf composites := by simp [split]
    rw [Evaluator.chunksOf, serial] at mem
    exact singleton_of_mem_chunks mem
  refine ⟨before, chunk, after, env, q, split, ok, ?_, fun task same => ?_⟩
  · exact runChunk_error (fun place t _ => patient place t.1) single failure calm
  · have here : ∀ c ∈ before ++ [chunk], ∀ env,
        e.runChunk task place composites.length env c =
          e.runChunk (evalComposite e chain) place composites.length env c :=
      fun c hc => e.runChunk_congr (fun t ht => same t (List.mem_flatten.mpr ⟨c, hc, ht⟩)) _
    have done : outcome (before.foldlM (e.runChunk task place composites.length) .empty) p =
        (.ok env, q) := by
      rw [foldlM_congr fun env c hc => here c (List.mem_append_left _ hc) env, ok]
    have stopped : outcome (e.runChunk task place composites.length env chunk) q =
        (.error error, rest) := by rw [here chunk (by simp), failure]
    rw [e.evalMany_eq_chunks, split, List.foldlM_append, outcome_bind_ok done, List.foldlM_cons,
      outcome_bind_error stopped]

/-- The first task of the first chunk is told to stop, because the second one has failed. -/
def hastyEvaluator : Evaluator := ⟨.dual, lonely.ast, .strictly, .hasty⟩

theorem hasty_reports_missing_name :
    ∃ before chunk after env q,
      hastyEvaluator.chunksOf (["a", "b", "c"].map .named) = before ++ chunk :: after ∧
      outcome (before.foldlM (hastyEvaluator.runChunk (evalComposite hastyEvaluator []) [] 3) .empty)
        .endless = (.ok env, q) ∧
      FirstGenuine (hastyEvaluator.chunkOutcomes (evalComposite hastyEvaluator []) [] 3 q chunk)
        (.undefinedNamespace "b") ∧
      ∀ task : Task,
        (∀ t ∈ (before ++ [chunk]).flatten,
          task ([] ++ [t.2]) t.1 = evalComposite hastyEvaluator [] ([] ++ [t.2]) t.1) →
        outcome (evalMany .dual .strictly .hasty task [] (["a", "b", "c"].map .named)) .endless =
          (.error (.undefinedNamespace "b"), .endless) := by
  have fails : outcome (evalMany .dual .strictly .hasty (evalComposite hastyEvaluator []) []
      (["a", "b", "c"].map .named)) .endless = (.error (.undefinedNamespace "b"), .endless) := by
    have error : (outcome (evalMany .dual .strictly .hasty (evalComposite hastyEvaluator []) []
        (["a", "b", "c"].map .named)) .endless).1.map (fun _ => ()) =
        .error (.undefinedNamespace "b") := by decide +kernel
    refine Prod.ext ?_ (by decide +kernel)
    revert error
    cases (outcome (evalMany .dual .strictly .hasty (evalComposite hastyEvaluator []) []
      (["a", "b", "c"].map .named)) .endless).1 <;> simp [Except.map]
  exact failing_chunk_reports_first_genuine_error fails rfl

end EnvManifest
