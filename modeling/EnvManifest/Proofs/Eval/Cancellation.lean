import EnvManifest.Proofs.Eval.Composite
import EnvManifest.Proofs.Eval.Engine

/-!
# Chunks with more patience

A task that is told to stop either notices and is cancelled, or comes to what it comes to if nobody
tells it. So a chunk and a reference are as steady as their statements.
-/

namespace EnvManifest

open Patiently

/-! ## Tasks -/

section

variable {schedule : Schedule} {task : Task} {place : Place} {c : Composite} {limit : Nat}

/-- A task of a chunk: it uses up the patience of the chunk and has no error of its own, or it comes
to the same in a chunk with more patience. -/
def SteadyTask (run : Patience → TaskResult) : Prop :=
  ∀ p q, p ≤ q → ((run p).2 = .exhausted ∧ ¬ Genuine (run p).1) ∨
    ((run p).1 = (run q).1 ∧ (run p).2 ≤ (run q).2)

theorem taskPatience_le (schedule : Schedule) (place : Place) {p q : Patience} (h : p ≤ q) :
    taskPatience schedule place p ≤ taskPatience schedule place q := by
  rcases p with ⟨_ | m⟩ <;> rcases q with ⟨_ | n⟩ <;> try trivial
  cases hn : schedule.noticesOuter place with
  | none => simpa [taskPatience, hn] using h
  | some k => simpa [taskPatience, hn] using Patience.le_refl _

theorem steady_runAlone (h : Patient (task place c)) :
    SteadyTask fun p => runAlone schedule task place p c := by
  intro p q hq
  obtain used | ⟨q', hq', same⟩ :=
    h.same _ _ (taskPatience_le schedule place hq)
  · exact .inl used
  · have result : runAlone schedule task place q c =
        ((runAlone schedule task place p c).1, q') := same
    dsimp only
    rw [result]
    exact .inr ⟨rfl, hq'⟩

theorem runTold_eq (p : Patience) :
    let own := taskPatience schedule place p
    let ran := outcome (task place c) (own.least ⟨some limit⟩)
    runTold schedule task place p limit c =
      (ran.1, own.after ((own.least ⟨some limit⟩).since ran.2)) := rfl

theorem steady_runTold (h : Patient (task place c)) :
    SteadyTask fun p => runTold schedule task place p limit c := by
  intro p q hq
  have own := taskPatience_le schedule place hq
  simp only [runTold_eq]
  generalize taskPatience schedule place p = p at own ⊢
  generalize taskPatience schedule place q = q at own ⊢
  have spends := h.spends (p.least ⟨some limit⟩)
  by_cases late : (⟨some limit⟩ : Patience) ≤ p
  -- Both tasks are told before their own patience ends, and so at the same moment.
  · have same : q.least ⟨some limit⟩ = p.least ⟨some limit⟩ := by
      rw [Patience.least_of_late late, Patience.least_of_late (Patience.le_trans late own)]
    refine .inr ⟨by rw [same], ?_⟩
    exact Patience.after_since_le own (by rw [same]; exact Patience.le_refl _) spends
  -- The patience of the first one ends before it is told.
  · have longer : p.least ⟨some limit⟩ ≤ q.least ⟨some limit⟩ :=
      Patience.le_least (Patience.le_trans (Patience.least_le_left _ _) own)
        (Patience.least_le_right _ _)
    obtain ⟨used, notGenuine⟩ | ⟨q', hq', same⟩ := h.same _ _ longer
    · refine .inl ⟨?_, notGenuine⟩
      change (outcome (task place c) (p.least ⟨some limit⟩)).2 = .exhausted at used
      rw [used, Patience.least_of_early late]
      rcases p with ⟨_ | m⟩
      · exact (late trivial).elim
      · exact congrArg (fun n => Patience.mk (some n)) (Nat.sub_self m)
    · have result : outcome (task place c) (q.least ⟨some limit⟩) =
          ((outcome (task place c) (p.least ⟨some limit⟩)).1, q') := same
      rw [result]
      exact .inr ⟨rfl, Patience.after_since_le own hq' spends⟩

end

/-! ## Chunks -/

theorem restOf_le (p : Patience) (results : List TaskResult) : restOf p results ≤ p := by
  induction results generalizing p with
  | nil => exact Patience.le_refl p
  | cons r results ih => exact Patience.le_trans (ih _) (Patience.least_le_left p r.2)

theorem restOf_le_of_mem {p : Patience} {results : List TaskResult} {r : TaskResult}
    (h : r ∈ results) : restOf p results ≤ r.2 := by
  induction results generalizing p with
  | nil => cases h
  | cons r' results ih =>
    rcases List.mem_cons.mp h with rfl | h
    · exact Patience.le_trans (restOf_le _ results) (Patience.least_le_right p r.2)
    · exact ih h

theorem restOf_le_restOf {α : Type} {run run' : α → TaskResult} {tasks : List α} {p q : Patience}
    (hq : p ≤ q) (h : ∀ t ∈ tasks, (run t).2 ≤ (run' t).2) :
    restOf p (tasks.map run) ≤ restOf q (tasks.map run') := by
  induction tasks generalizing p q with
  | nil => exact hq
  | cons t tasks ih =>
    obtain ⟨ht, h⟩ := List.forall_mem_cons.mp h
    exact ih (Patience.least_le_least hq ht) h

theorem restOf_endless {results : List TaskResult} (h : ∀ r ∈ results, r.2 = .endless) :
    restOf .endless results = .endless := by
  induction results with
  | nil => rfl
  | cons r results ih =>
    obtain ⟨hr, h⟩ := List.forall_mem_cons.mp h
    rw [restOf, List.foldl_cons, hr]
    exact ih h

section

variable {schedule : Schedule} {task : Task} {place : Place} {tasks : List (Composite × Nat)}

theorem steady_runTask {t : Composite × Nat} (h : ∀ place, Patient (task place t.1)) (fails : Bool) :
    SteadyTask fun p => runTask schedule task place fails p t := by
  unfold runTask
  split
  · exact steady_runTold (h _)
  · exact steady_runAlone (h _)

theorem chunkResults_same (schedule : Schedule) (place : Place)
    (h : ∀ place, ∀ t ∈ tasks, Patient (task place t.1)) {p q : Patience}
    (hq : p ≤ q) :
    (∃ r ∈ chunkResults schedule task place p tasks, r.2 = .exhausted) ∨
    ∃ run run' : Composite × Nat → TaskResult,
      chunkResults schedule task place p tasks = tasks.map run ∧
      chunkResults schedule task place q tasks = tasks.map run' ∧
      ∀ t ∈ tasks, (run t).1 = (run' t).1 ∧ (run t).2 ≤ (run' t).2 := by
  rw [chunkResults_eq, chunkResults_eq]
  generalize hf : failsUntold schedule task place p tasks = fails
  by_cases used : ∃ t ∈ tasks, (runTask schedule task place fails p t).2 = .exhausted
  · obtain ⟨t, ht, used⟩ := used
    exact .inl ⟨_, List.mem_map_of_mem ht, used⟩
  · have same : ∀ t ∈ tasks,
        (runTask schedule task place fails p t).1 = (runTask schedule task place fails q t).1 ∧
        (runTask schedule task place fails p t).2 ≤ (runTask schedule task place fails q t).2 := by
      intro t ht
      obtain ⟨h', -⟩ | same := steady_runTask (h · t ht) fails p q hq
      · exact (used ⟨t, ht, h'⟩).elim
      · exact same
    have fails' : failsUntold schedule task place q tasks = fails := by
      rw [← hf, failsUntold, failsUntold, Bool.eq_iff_iff, List.any_eq_true, List.any_eq_true]
      refine exists_congr fun t => and_congr_right fun ht => ?_
      cases hn : schedule.notices (place ++ [t.2]) with
      | some limit => simp
      | none =>
        have result := (same t ht).1
        rw [runTask_untold task p hn, runTask_untold task q hn] at result
        simp [failed, result]
    rw [fails']
    exact .inr ⟨_, _, rfl, rfl, same⟩

theorem outcome_evalChunk_exhausted {p : Patience}
    (h : restOf p (chunkResults schedule task place p tasks) = .exhausted) :
    outcome (evalChunk schedule task place tasks) p = (.error .cancelled, .exhausted) := by
  rw [outcome_evalChunk, h]
  rfl

theorem genuineError?_ne_cancelled {results : List TaskResult} {e : EvalError}
    (h : genuineError? results = some e) : e ≠ .cancelled := by
  obtain ⟨r, -, he⟩ := List.exists_of_findSome?_eq_some h
  rcases r with ⟨_ | _, _⟩ <;> grind

theorem genuineError?_isSome {results : List TaskResult} {r : TaskResult} (hr : r ∈ results)
    (h : Genuine r.1) : (genuineError? results).isSome = true := by
  obtain ⟨e, he, genuine⟩ := h
  refine List.findSome?_isSome_iff.mpr ⟨r, hr, ?_⟩
  rcases r with ⟨_ | _, _⟩ <;> grind

/-- What a chunk comes to is given by the results of its tasks, apart from their patience. -/
theorem chunk_congr {α : Type} {run run' : α → TaskResult} {tasks : List α}
    (h : ∀ t ∈ tasks, (run t).1 = (run' t).1) :
    (tasks.map run).any failed = (tasks.map run').any failed ∧
    genuineError? (tasks.map run) = genuineError? (tasks.map run') ∧
    ((tasks.map run).filterMap fun r => r.1.toOption) =
      (tasks.map run').filterMap fun r => r.1.toOption := by
  induction tasks with
  | nil => exact ⟨rfl, rfl, rfl⟩
  | cons t tasks ih =>
    obtain ⟨ht, h⟩ := List.forall_mem_cons.mp h
    obtain ⟨fails, error, environments⟩ := ih h
    simp only [List.map_cons, List.any_cons, genuineError?, List.findSome?_cons, failed,
      List.filterMap_cons, ht] at fails error environments ⊢
    rw [fails, error, environments]
    exact ⟨rfl, rfl, rfl⟩

theorem endless_runTask {t : Composite × Nat} (h : ∀ place, Patient (task place t.1)) (fails : Bool) :
    (runTask schedule task place fails .endless t).2 = .endless := by
  unfold runTask
  split
  · rfl
  · exact ((h _).endless .endless rfl).1

theorem genuine_of_failed {t : Composite × Nat} (h : ∀ place, Patient (task place t.1))
    (fails : failed (runAlone schedule task (place ++ [t.2]) .endless t.1) = true) :
    Genuine (runAlone schedule task (place ++ [t.2]) .endless t.1).1 := by
  have calm := ((h (place ++ [t.2])).endless .endless rfl).2
  change (runAlone schedule task (place ++ [t.2]) .endless t.1).1 ≠ _ at calm
  cases hr : (runAlone schedule task (place ++ [t.2]) .endless t.1).1 with
  | ok env => simp [failed, hr] at fails
  | error e => exact ⟨e, rfl, fun same => calm (by rw [hr, same])⟩

/-- In a chunk that is not cancelled, a task can only fail if some task fails with an error of its
own. -/
theorem genuine_of_any_failed (h : ∀ place, ∀ t ∈ tasks, Patient (task place t.1))
    (fails : (chunkResults schedule task place .endless tasks).any failed = true) :
    ∃ e, genuineError? (chunkResults schedule task place .endless tasks) = some e := by
  rw [chunkResults_eq] at fails ⊢
  rw [← Option.isSome_iff_exists]
  cases hf : failsUntold schedule task place .endless tasks with
  | true =>
    obtain ⟨t, ht, untold⟩ := List.any_eq_true.mp hf
    obtain ⟨failing, untold⟩ := (Bool.and_eq_true _ _).mp untold
    have genuine := genuine_of_failed (fun place => h place t ht) failing
    rw [← runTask_untold task .endless (Option.isNone_iff_eq_none.mp untold) true] at genuine
    exact genuineError?_isSome (List.mem_map_of_mem ht) genuine
  | false =>
    rw [hf, List.any_map, List.any_eq_true] at fails
    obtain ⟨t, ht, failing⟩ := fails
    have genuine := genuine_of_failed (fun place => h place t ht) failing
    exact genuineError?_isSome (List.mem_map_of_mem ht) genuine

theorem restOf_chunkResults_endless (h : ∀ place, ∀ t ∈ tasks, Patient (task place t.1)) :
    restOf .endless (chunkResults schedule task place .endless tasks) = .endless := by
  refine restOf_endless fun r hr => ?_
  rw [chunkResults_eq] at hr
  obtain ⟨t, ht, rfl⟩ := List.mem_map.mp hr
  exact endless_runTask (fun place => h place t ht) _

theorem evalChunk_same (schedule : Schedule) (place : Place)
    (h : ∀ place, ∀ t ∈ tasks, Patient (task place t.1)) {p q : Patience}
    (hq : p ≤ q) :
    outcome (evalChunk schedule task place tasks) p = (.error .cancelled, .exhausted) ∨
    (outcome (evalChunk schedule task place tasks) q).1 =
        (outcome (evalChunk schedule task place tasks) p).1 ∧
      (outcome (evalChunk schedule task place tasks) p).2 ≤
        (outcome (evalChunk schedule task place tasks) q).2 := by
  obtain ⟨r, hr, used⟩ | ⟨run, run', hp', hq', same⟩ := chunkResults_same schedule place h hq
  · exact .inl (outcome_evalChunk_exhausted (Patience.eq_exhausted (used ▸ restOf_le_of_mem hr)))
  · have rest := restOf_le_restOf hq fun t ht => (same t ht).2
    obtain ⟨fails, error, environments⟩ := chunk_congr fun t ht => (same t ht).1
    cases stop : (restOf p (tasks.map run)).ask.1 with
    | true =>
      refine .inl (outcome_evalChunk_exhausted ?_)
      rw [hp', Patience.ask_yes stop]
    | false =>
      obtain ⟨stop', rest⟩ := Patience.ask_no stop rest
      rw [outcome_evalChunk, outcome_evalChunk, hp', hq', stop, stop', fails, error, environments]
      split
      · cases again : (restOf p (tasks.map run)).ask.2.ask.1 with
        | true =>
          refine .inl ?_
          rw [Patience.ask_yes again]
          rfl
        | false =>
          obtain ⟨again', rest⟩ := Patience.ask_no again rest
          rw [again']
          exact .inr ⟨rfl, rest⟩
      · exact .inr ⟨rfl, rest⟩

theorem patient_evalChunk (h : ∀ place, ∀ t ∈ tasks, Patient (task place t.1)) :
    Patient (evalChunk schedule task place tasks) := by
  refine ⟨⟨fun p => ?_, fun p q hq => ?_, fun p hp => ?_⟩, fun p hp => ?_⟩
  · have rest := Patience.le_trans (Patience.ask_le (restOf p (chunkResults schedule task place p tasks)))
      (restOf_le p (chunkResults schedule task place p tasks))
    rw [outcome_evalChunk]
    split
    · exact Patience.le_trans (Patience.ask_le _) rest
    · exact rest
  · obtain used | ⟨result, rest⟩ :=
      evalChunk_same schedule place h (p := p) hq
    · rw [used]
      exact .inl ⟨rfl, not_genuine_cancelled⟩
    · exact .inr ⟨_, rest, Prod.ext result rfl⟩
  · obtain rfl : p = .endless := hp
    rw [outcome_evalChunk, restOf_chunkResults_endless h, Patience.ask_endless]
    split
    next fails =>
      obtain ⟨e, genuine⟩ := genuine_of_any_failed h (by simpa using fails)
      rw [genuine]
      exact ⟨rfl, fun same => genuineError?_ne_cancelled genuine (Except.error.inj same)⟩
    next => exact ⟨rfl, nofun⟩
  · have used : restOf p (chunkResults schedule task place p tasks) = .exhausted :=
      Patience.eq_exhausted (hp ▸ restOf_le p _)
    rw [outcome_evalChunk_exhausted used]
    exact not_genuine_cancelled

end

section

variable {schedule : Schedule} {task : Task} {place : Place}

theorem patient_evalMany {host : Host} {o : EvalOptions} {cs : List Composite}
    (h : ∀ place, ∀ c ∈ cs, Patient (task place c)) :
    Patient (evalMany host o schedule task place cs) := by
  unfold evalMany
  split
  · exact patient_foldlM (fun _ t ht => (h _ t.1 (List.fst_mem_of_mem_zipIdx ht)).bind fun _ =>
      patient_pure _) _
  · refine patient_foldlM (fun _ tasks ht => asks_goOn.bind ?_) _
    have here : ∀ place, ∀ t ∈ tasks, Patient (task place t.1) :=
      fun place t h' => h place t.1 (List.fst_mem_of_mem_zipIdx (mem_of_mem_chunks ht h'))
    exact ((patient_evalChunk here).bind fun _ => patient_pure _).toSteady

end

/-! ## References -/

theorem patient_evalComposite (e : Evaluator) (chain : List String) :
    ∀ place c, Patient (evalComposite e chain place c) := by
  induction chain using chain_induction e.ast with
  | step chain ih =>
    intro place c
    rw [evalComposite_eq, evalReference]
    refine asks_goOn.bind ?_
    split
    next again => exact steady_throw (by simp)
    next fresh =>
    split
    next undefined =>
      split
      · exact steady_throw (by simp)
      · exact (patient_pure _).toSteady
    next defined =>
    split
    · exact steady_throw (by simp)
    · refine (patient_foldlM (fun env t ht => Patient.bind ?_ fun _ => patient_pure _) _).toSteady
      have composed : Patient (evalMany e.host e.options e.schedule
          (evalComposite e (chain ++ [c.ident])) (place ++ [t.2]) t.1.composites) :=
        patient_evalMany fun place d _ => ih c.ident fresh defined place d
      exact composed.bind fun _ => patient_runNamespace _ _ _ _ _

end EnvManifest
