import EnvManifest.Proofs.Eval.Outcome

/-!
# Tasks and chunks

What the tasks of a chunk come to, and what a list of tasks comes to if all that is known about
each of them is with which values and errors it ends.
-/

namespace EnvManifest

/-! ## Chunks -/

theorem chunks_flatten {α : Type} (size : Nat) (items : List α) :
    (chunks size items).flatten = items := by
  fun_induction chunks size items with
  | case1 items _ empty => simpa using (List.isEmpty_iff.mp empty).symm
  | case2 items _ => simp
  | case3 items _ ih => rw [List.flatten_cons, ih, List.take_append_drop]

theorem mem_of_mem_chunks {α : Type} {size : Nat} {items chunk : List α} {a : α}
    (hc : chunk ∈ chunks size items) (ha : a ∈ chunk) : a ∈ items := by
  rw [← chunks_flatten size items]
  exact List.mem_flatten.mpr ⟨chunk, hc, ha⟩

theorem forall_zipIdx {α : Type} {as : List α} {P : α → Prop} (h : ∀ t ∈ as.zipIdx, P t.1) :
    ∀ a ∈ as, P a := by
  intro a ha
  obtain ⟨i, hi⟩ := List.mem_iff_getElem?.mp ha
  exact h (a, i) (List.mk_mem_zipIdx_iff_getElem?.mpr hi)

/-! ## The results of a chunk -/

/-- Has a task failed that is never told to stop? -/
def failsUntold (schedule : Schedule) (task : Task) (place : Place) (p : Patience)
    (tasks : List (Composite × Nat)) : Bool :=
  tasks.any fun t => failed (runAlone schedule task (place ++ [t.2]) p t.1) &&
    (schedule.notices (place ++ [t.2])).isNone

/-- What a task comes to, in a chunk that has failed or in one that has not. -/
def runTask (schedule : Schedule) (task : Task) (place : Place) (fails : Bool) (p : Patience)
    (t : Composite × Nat) : TaskResult :=
  match fails, schedule.notices (place ++ [t.2]) with
  | true, some limit => runTold schedule task (place ++ [t.2]) p limit t.1
  | _, _ => runAlone schedule task (place ++ [t.2]) p t.1

/-- The patience of a chunk after its tasks. -/
def restOf (p : Patience) (results : List TaskResult) : Patience :=
  results.foldl (fun p r => p.least r.2) p

section

variable (schedule : Schedule) (task : Task) (place : Place) (p : Patience)
  (tasks : List (Composite × Nat))

theorem runTask_untold {schedule : Schedule} {place : Place} {t : Composite × Nat}
    (h : schedule.notices (place ++ [t.2]) = none) (fails : Bool) :
    runTask schedule task place fails p t = runAlone schedule task (place ++ [t.2]) p t.1 := by
  cases fails <;> simp only [runTask, h]

theorem runTask_told {schedule : Schedule} {place : Place} {t : Composite × Nat} {limit : Nat}
    (h : schedule.notices (place ++ [t.2]) = some limit) :
    runTask schedule task place true p t =
      runTold schedule task (place ++ [t.2]) p limit t.1 := by
  simp only [runTask, h]

theorem chunkResults_eq :
    chunkResults schedule task place p tasks =
      tasks.map (runTask schedule task place (failsUntold schedule task place p tasks) p) := by
  have zipped (f : Composite × Nat → TaskResult) :
      (tasks.map f).zip tasks = tasks.map fun t => (f t, t) := by
    induction tasks with
    | nil => rfl
    | cons t tasks ih => rw [List.map_cons, List.zip_cons_cons, ih, List.map_cons]
  simp only [chunkResults, zipped, List.any_map, List.map_map]
  change (if failsUntold schedule task place p tasks then _ else _) = _
  split
  next fails =>
    rw [fails]
    refine List.map_congr_left fun t _ => ?_
    cases hn : schedule.notices (place ++ [t.2]) with
    | none => simp only [runTask_untold task p hn, Function.comp, hn]
    | some limit => simp only [runTask_told task p hn, Function.comp, hn]
  next fails =>
    rw [Bool.eq_false_iff.mpr fails]
    rfl

theorem runTask_eq (fails : Bool) (t : Composite × Nat) :
    ∃ q, (runTask schedule task place fails p t).1 = (outcome (task (place ++ [t.2]) t.1) q).1 := by
  unfold runTask
  split <;> exact ⟨_, rfl⟩

theorem outcome_evalChunk :
    let results := chunkResults schedule task place p tasks
    outcome (evalChunk schedule task place tasks) p =
      if (restOf p results).ask.1 || results.any failed then
        (if (restOf p results).ask.2.ask.1 then .error .cancelled
          else .error ((genuineError? results).getD .cancelled), (restOf p results).ask.2.ask.2)
      else (.ok (results.filterMap fun r => r.1.toOption), (restOf p results).ask.2) := by
  intro results
  unfold evalChunk
  rw [outcome_bind, outcome_get]
  change outcome (set (restOf p results) >>= fun _ => _) p = _
  rw [outcome_bind, outcome_set]
  change outcome (Evaluation.isCancelled >>= fun _ => _) (restOf p results) = _
  rw [outcome_bind, outcome_isCancelled]
  change outcome (if (restOf p results).ask.1 || results.any failed then _ else _)
    (restOf p results).ask.2 = _
  split
  · rw [outcome_bind, outcome_goOn]
    cases (restOf p results).ask.2.ask.1 <;> rfl
  · rfl

end

theorem genuineError?_eq_some {results : List TaskResult} {error : EvalError}
    (h : genuineError? results = some error) : ∃ r ∈ results, r.1 = .error error := by
  obtain ⟨r, hr, he⟩ := List.exists_of_findSome?_eq_some h
  refine ⟨r, hr, ?_⟩
  rcases r with ⟨_ | _, _⟩ <;> grind

/-! ## How tasks end -/

section

variable {good : Composite → Prop} {bad : EvalError → Prop} {task : Task} {place : Place}

theorem evalSerially_ends {cs : List Composite}
    (htask : ∀ place, ∀ c ∈ cs, Ends (task place c) (fun _ => good c) bad) :
    Ends (evalSerially task place cs) (fun _ => ∀ c ∈ cs, good c) bad := by
  have walk : Ends (evalSerially task place cs) (fun _ => ∀ t ∈ cs.zipIdx, good t.1) bad := by
    refine ends_foldlM _ (fun env t ht => ?_) _
    exact (htask _ t.1 (List.fst_mem_of_mem_zipIdx ht)).bind fun _ h => ends_pure h
  exact walk.mono (fun _ h => forall_zipIdx h) fun _ h => h

theorem evalChunk_ends {schedule : Schedule} {tasks : List (Composite × Nat)} (hbad : bad .cancelled)
    (htask : ∀ place, ∀ t ∈ tasks, Ends (task place t.1) (fun _ => good t.1) bad) :
    Ends (evalChunk schedule task place tasks) (fun _ => ∀ t ∈ tasks, good t.1) bad := by
  refine ends_of (fun p envs hr t ht => ?_) (fun p error hr => ?_)
  · rw [outcome_evalChunk, chunkResults_eq] at hr
    generalize failsUntold schedule task place p tasks = fails at hr
    split at hr
    · split at hr <;> cases hr
    next calm =>
      obtain ⟨q, h⟩ := runTask_eq schedule task place p fails t
      have ok : failed (runTask schedule task place fails p t) = false := by
        simp only [Bool.or_eq_true, List.any_map, List.any_eq_true, not_or, not_exists, not_and,
          Bool.not_eq_true] at calm
        exact calm.2 t ht
      cases hres : (runTask schedule task place fails p t).1 with
      | ok env => exact (htask _ t ht).ok (h.symm.trans hres)
      | error e => simp [failed, hres] at ok
  · rw [outcome_evalChunk, chunkResults_eq] at hr
    generalize failsUntold schedule task place p tasks = fails at hr
    split at hr
    · split at hr
      · simpa [← Except.error.inj hr] using hbad
      · cases hg : genuineError? (tasks.map (runTask schedule task place fails p)) with
        | none => simpa [hg, ← Except.error.inj hr] using hbad
        | some e =>
          obtain ⟨r, hr', he⟩ := genuineError?_eq_some hg
          obtain ⟨t, ht, rfl⟩ := List.mem_map.mp hr'
          obtain ⟨q, h⟩ := runTask_eq schedule task place p fails t
          have same : error = e := by simpa [hg] using (Except.error.inj hr).symm
          exact same ▸ (htask _ t ht).error (h.symm.trans he)
    · cases hr

theorem evalChunks_ends {schedule : Schedule} {size : Nat} {cs : List Composite}
    (hbad : bad .cancelled)
    (htask : ∀ place, ∀ c ∈ cs, Ends (task place c) (fun _ => good c) bad) :
    Ends (evalChunks schedule task place size cs) (fun _ => ∀ c ∈ cs, good c) bad := by
  have walk : Ends (evalChunks schedule task place size cs)
      (fun _ => ∀ tasks ∈ chunks size cs.zipIdx, ∀ t ∈ tasks, good t.1) bad := by
    refine ends_foldlM _ (fun env tasks ht => ?_) _
    refine (goOn_ends.mono (fun _ h => h) fun _ he => he ▸ hbad).bind fun _ _ => ?_
    have here : ∀ place, ∀ t ∈ tasks, Ends (task place t.1) (fun _ => good t.1) bad :=
      fun place t h => htask place t.1 (List.fst_mem_of_mem_zipIdx (mem_of_mem_chunks ht h))
    exact (evalChunk_ends hbad here).bind fun _ h => ends_pure h
  refine walk.mono (fun _ h => forall_zipIdx fun t ht => ?_) fun _ h => h
  rw [← chunks_flatten size cs.zipIdx] at ht
  obtain ⟨tasks, hc, htasks⟩ := List.mem_flatten.mp ht
  exact h tasks hc t htasks

/-- Some composites, one after another or in chunks: all of them end well, or the work ends with an
error of one of them or is cancelled. -/
theorem evalMany_ends {host : Host} {o : EvalOptions} {schedule : Schedule} {cs : List Composite}
    (hbad : bad .cancelled)
    (htask : ∀ place, ∀ c ∈ cs, Ends (task place c) (fun _ => good c) bad) :
    Ends (evalMany host o schedule task place cs) (fun _ => ∀ c ∈ cs, good c) bad := by
  unfold evalMany
  split
  · exact evalSerially_ends htask
  · exact evalChunks_ends hbad htask

end

end EnvManifest
