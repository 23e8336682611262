import EnvManifest.Proofs.Eval.Cancellation
import EnvManifest.Proofs.Eval.Journal

/-!
# At the same time or one after another

Without cancellation from outside, an evaluation whose tasks run at the same time succeeds if and
only if the evaluation one after another does, and then with the same variables. If no two siblings
fail, it also fails with the same error. Both hold for all schedules.
-/

namespace EnvManifest

/-! ## Runs that nobody cancels -/

/-- What some work comes to if nobody cancels it. -/
def ran {α : Type} (m : Evaluation α) : Except EvalError α := (outcome m .endless).1

section

variable {α β : Type}

theorem Steady.outcome_endless {m : Evaluation α} (hm : Steady m) :
    outcome m .endless = (ran m, .endless) := Prod.ext rfl (hm.endless .endless rfl).1

theorem ran_bind {m : Evaluation α} {f : α → Evaluation β} (hm : Steady m) :
    ran (m >>= f) = ran m >>= fun a => ran (f a) := by
  rw [ran, outcome_bind, hm.outcome_endless]
  cases ran m <;> rfl

theorem ran_goOn {f : Unit → Evaluation α} : ran (Evaluation.goOn >>= f) = ran (f ()) := by
  rw [ran, outcome_bind_ok (outcome_goOn .endless)]
  rfl

theorem ran_foldlM {f : β → α → Evaluation β} {as : List α}
    (h : ∀ b, ∀ a ∈ as, Steady (f b a)) (b : β) :
    ran (as.foldlM f b) = as.foldlM (fun b a => ran (f b a)) b := by
  induction as generalizing b with
  | nil => rfl
  | cons a as ih =>
    rw [List.foldlM_cons, List.foldlM_cons, ran_bind (h b a List.mem_cons_self)]
    congr 1
    funext c
    exact ih (fun b x hx => h b x (List.mem_cons_of_mem _ hx)) c

end

/-! ## Agreement -/

/-- Two results that are the same, except that they may be different errors if a condition does not
hold. -/
structure Agrees {α : Type} (single : Prop) (r s : Except EvalError α) : Prop where
  success : r.toOption = s.toOption
  error : single → r = s

section

variable {α β : Type} {single : Prop}

theorem agrees_refl {r : Except EvalError α} : Agrees single r r := ⟨rfl, fun _ => rfl⟩

theorem Agrees.bind {r s : Except EvalError α} {f g : α → Except EvalError β}
    (h : Agrees single r s) (hf : ∀ a, Agrees single (f a) (g a)) :
    Agrees single (r >>= f) (s >>= g) := by
  refine ⟨?_, fun hs => ?_⟩
  · have success := h.success
    cases r with
    | ok a =>
      cases s with
      | ok b =>
        obtain rfl : a = b := Option.some.inj success
        exact (hf a).success
      | error e => cases success
    | error e =>
      cases s with
      | ok b => cases success
      | error e' => exact rfl
  · rw [h.error hs]
    congr 1
    funext a
    exact (hf a).error hs

theorem Agrees.map {r s : Except EvalError α} {f : α → β} (h : Agrees single r s) :
    Agrees single (r.map f) (s.map f) := by
  refine ⟨?_, fun hs => by rw [h.error hs]⟩
  have success := h.success
  cases r <;> cases s <;> simp_all [Except.map, Except.toOption]

theorem Agrees.ok_iff {r s : Except EvalError α} {a : α} (h : Agrees single r s) :
    r = .ok a ↔ s = .ok a := by
  have success := h.success
  cases r <;> cases s <;> simp_all [Except.toOption]

theorem Agrees.trans {r s t : Except EvalError α} (h : Agrees single r s) (h' : Agrees single s t) :
    Agrees single r t :=
  ⟨h.success.trans h'.success, fun hs => (h.error hs).trans (h'.error hs)⟩

theorem agrees_foldlM {f g : β → α → Except EvalError β} {as : List α}
    (h : ∀ b, ∀ a ∈ as, Agrees single (f b a) (g b a)) (b : β) :
    Agrees single (as.foldlM f b) (as.foldlM g b) := by
  induction as generalizing b with
  | nil => exact agrees_refl
  | cons a as ih =>
    rw [List.foldlM_cons, List.foldlM_cons]
    exact (h b a List.mem_cons_self).bind fun c =>
      ih (fun b x hx => h b x (List.mem_cons_of_mem _ hx)) c

end

/-! ## Results in one -/

/-- Some results in one. The first error counts. -/
def mergeAll {α : Type} (result : α → Except EvalError Environment) (env : Environment)
    (as : List α) : Except EvalError Environment :=
  as.foldlM (fun env a => return env.merge (← result a)) env

/-- All results that are errors are the same. -/
def OneError {α : Type} (result : α → Except EvalError Environment) (as : List α) : Prop :=
  ∀ a ∈ as, ∀ b ∈ as, ∀ e e', result a = .error e → result b = .error e' → e = e'

section

variable {α : Type} {result : α → Except EvalError Environment}

theorem mergeAll_ok {as : List α} {f : α → Environment} (h : ∀ a ∈ as, result a = .ok (f a))
    (env : Environment) :
    mergeAll result env as = .ok ((as.map f).foldl Environment.merge env) := by
  induction as generalizing env with
  | nil => rfl
  | cons a as ih =>
    obtain ⟨ha, h⟩ := List.forall_mem_cons.mp h
    rw [mergeAll, List.foldlM_cons, ha]
    exact ih h _

theorem mergeAll_error {as : List α} {a : α} {e : EvalError} (ha : a ∈ as)
    (h : result a = .error e) (env : Environment) :
    ∃ b ∈ as, ∃ e', result b = .error e' ∧ mergeAll result env as = .error e' := by
  induction as generalizing env with
  | nil => cases ha
  | cons x as ih =>
    rw [mergeAll, List.foldlM_cons]
    cases hx : result x with
    | error e' => exact ⟨x, List.mem_cons_self, e', hx, rfl⟩
    | ok own =>
      have ha : a ∈ as := by
        rcases List.mem_cons.mp ha with rfl | ha
        · rw [h] at hx
          cases hx
        · exact ha
      obtain ⟨b, hb, e', hb', whole⟩ := ih ha (env.merge own)
      exact ⟨b, List.mem_cons_of_mem _ hb, e', hb', whole⟩

theorem mergeAll_append (as bs : List α) (env : Environment) :
    mergeAll result env (as ++ bs) = mergeAll result env as >>= fun env => mergeAll result env bs :=
  List.foldlM_append

theorem mergeAll_congr {result' : α → Except EvalError Environment} {as : List α}
    (h : ∀ a ∈ as, result a = result' a) (env : Environment) :
    mergeAll result env as = mergeAll result' env as :=
  foldlM_congr (fun env a ha => by rw [h a ha]) env

theorem mergeAll_zipIdx (as : List α) (env : Environment) :
    mergeAll (fun t => result t.1) env as.zipIdx = mergeAll result env as := by
  unfold mergeAll
  conv_rhs => rw [← foldlM_zipIdx]

theorem mergeAll_flatten (chunks : List (List α)) (env : Environment) :
    mergeAll result env chunks.flatten = chunks.foldlM (mergeAll result) env := by
  induction chunks generalizing env with
  | nil => rfl
  | cons chunk chunks ih =>
    rw [List.flatten_cons, mergeAll_append, List.foldlM_cons]
    congr 1
    funext env
    exact ih env

end

/-! ## Chunks -/

section

variable {schedule : Schedule} {task : Task} {place : Place} {tasks : List (Composite × Nat)}
  {single : Prop}

/-- What a task of a chunk comes to on its own. -/
def ranAlone (task : Task) (place : Place) (t : Composite × Nat) : Except EvalError Environment :=
  ran (task (place ++ [t.2]) t.1)

theorem error_of_genuine {t : Composite × Nat} (h : ∀ place, Patient (task place t.1)) {fails : Bool}
    {e : EvalError} (genuine : e ≠ .cancelled)
    (he : (runTask schedule task place fails .endless t).1 = .error e) :
    ranAlone task place t = .error e := by
  unfold runTask at he
  split at he
  next limit _ =>
    rw [runTold_eq] at he
    obtain ⟨-, notGenuine⟩ | ⟨q', -, same⟩ := (h (place ++ [t.2])).same _ .endless
      (Patience.le_endless ((taskPatience schedule (place ++ [t.2]) .endless).least ⟨some limit⟩))
    · exact (notGenuine ⟨e, he, genuine⟩).elim
    · exact (congrArg Prod.fst same).trans he
  next => exact he

theorem failed_iff {r : TaskResult} : failed r = true ↔ ∃ e, r.1 = .error e := by
  rcases r with ⟨_ | _, _⟩ <;> simp [failed]

variable (schedule)

theorem ran_evalChunk_ok (h : ∀ place, ∀ t ∈ tasks, Patient (task place t.1))
    {f : Composite × Nat → Environment} (hf : ∀ t ∈ tasks, ranAlone task place t = .ok (f t)) :
    ran (evalChunk schedule task place tasks) = .ok (tasks.map f) := by
  have alone : ∀ t ∈ tasks, (runAlone schedule task (place ++ [t.2]) .endless t.1).1 = .ok (f t) := hf
  have untold : failsUntold schedule task place .endless tasks = false := by
    refine List.any_eq_false.mpr fun t ht => ?_
    simp [failed, alone t ht]
  have calm : (chunkResults schedule task place .endless tasks).any failed = false := by
    rw [chunkResults_eq, untold, List.any_map, List.any_eq_false]
    intro t ht
    simp [runTask, failed, alone t ht]
  rw [ran, outcome_evalChunk, restOf_chunkResults_endless h, Patience.ask_endless, calm]
  refine congrArg Except.ok ?_
  rw [chunkResults_eq, untold, List.filterMap_map, ← List.filterMap_eq_map]
  refine List.filterMap_congr fun t ht => ?_
  simp [runTask, alone t ht, Except.toOption]

/-- If a task fails on its own, the chunk fails with an error that one of its tasks comes to on its
own. -/
theorem ran_evalChunk_error (h : ∀ place, ∀ t ∈ tasks, Patient (task place t.1))
    {t : Composite × Nat} {e : EvalError} (ht : t ∈ tasks) (he : ranAlone task place t = .error e) :
    ∃ t' ∈ tasks, ∃ e', ranAlone task place t' = .error e' ∧
      ran (evalChunk schedule task place tasks) = .error e' := by
  have alone : failed (runAlone schedule task (place ++ [t.2]) .endless t.1) = true :=
    failed_iff.mpr ⟨e, he⟩
  have fails : (chunkResults schedule task place .endless tasks).any failed = true := by
    rw [chunkResults_eq, List.any_map, List.any_eq_true]
    cases hf : failsUntold schedule task place .endless tasks with
    | false => exact ⟨t, ht, alone⟩
    | true =>
      obtain ⟨u, hu, untold⟩ := List.any_eq_true.mp hf
      obtain ⟨failing, untold⟩ := (Bool.and_eq_true _ _).mp untold
      refine ⟨u, hu, ?_⟩
      rwa [Function.comp, runTask_untold task .endless (Option.isNone_iff_eq_none.mp untold)]
  obtain ⟨e', genuine⟩ := genuine_of_any_failed h fails
  obtain ⟨r, hr, hr'⟩ := genuineError?_eq_some genuine
  rw [chunkResults_eq] at hr
  obtain ⟨t', ht', rfl⟩ := List.mem_map.mp hr
  refine ⟨t', ht', e', error_of_genuine (fun place => h place t' ht')
    (genuineError?_ne_cancelled genuine) hr', ?_⟩
  rw [ran, outcome_evalChunk, restOf_chunkResults_endless h, Patience.ask_endless, fails, genuine]
  rfl

theorem evalChunk_agrees (h : ∀ place, ∀ t ∈ tasks, Patient (task place t.1)) (env : Environment)
    (one : single → OneError (ranAlone task place) tasks) :
    Agrees single
      (ran (evalChunk schedule task place tasks) >>= fun envs =>
        pure (envs.foldl Environment.merge env))
      (mergeAll (ranAlone task place) env tasks) := by
  by_cases fails : ∃ t ∈ tasks, ∃ e, ranAlone task place t = .error e
  · obtain ⟨t, ht, e, he⟩ := fails
    obtain ⟨a, ha, e₁, ha', parallel⟩ := ran_evalChunk_error schedule h ht he
    obtain ⟨b, hb, e₂, hb', serial⟩ := mergeAll_error ht he env
    rw [parallel, serial]
    exact ⟨rfl, fun hs => congrArg Except.error (one hs a ha b hb e₁ e₂ ha' hb')⟩
  · have ok : ∀ t ∈ tasks,
        ranAlone task place t = .ok ((ranAlone task place t).toOption.getD .empty) := by
      intro t ht
      cases hr : ranAlone task place t with
      | ok own => rfl
      | error e => exact (fails ⟨t, ht, e, hr⟩).elim
    rw [ran_evalChunk_ok schedule h ok, mergeAll_ok ok]
    exact agrees_refl

end

/-! ## Siblings -/

section

variable {host : Host} {o : EvalOptions} {schedule : Schedule} {task : Task} {place : Place}
  {single : Prop}

theorem evalSerially_agrees {cs : List Composite} (h : ∀ place, ∀ c ∈ cs, Patient (task place c)) :
    ran (evalSerially task place cs) = mergeAll (ranAlone task place) .empty cs.zipIdx := by
  have own : ∀ t ∈ cs.zipIdx, ∀ place, Patient (task place t.1) :=
    fun t ht place => h place t.1 (List.fst_mem_of_mem_zipIdx ht)
  have steps : ∀ (env : Environment), ∀ t ∈ cs.zipIdx,
      Steady (do return env.merge (← task (place ++ [t.2]) t.1)) :=
    fun env t ht => ((own t ht _).bind fun _ => patient_pure _).toSteady
  refine (ran_foldlM steps _).trans (foldlM_congr (fun env t ht => ?_) _)
  rw [ran_bind (own t ht _).toSteady]
  rfl

theorem evalChunks_agrees {size : Nat} {cs : List Composite}
    (h : ∀ place, ∀ c ∈ cs, Patient (task place c))
    (one : single → OneError (ranAlone task place) cs.zipIdx) :
    Agrees single (ran (evalChunks schedule task place size cs))
      (mergeAll (ranAlone task place) .empty cs.zipIdx) := by
  have own : ∀ chunk ∈ chunks size cs.zipIdx, ∀ place, ∀ t ∈ chunk, Patient (task place t.1) :=
    fun chunk hc place t ht => h place t.1 (List.fst_mem_of_mem_zipIdx (mem_of_mem_chunks hc ht))
  have steps : ∀ (env : Environment), ∀ chunk ∈ chunks size cs.zipIdx, Steady (do
      Evaluation.goOn
      return (← evalChunk schedule task place chunk).foldl Environment.merge env) :=
    fun env chunk hc => (asks_goOn.bind
      ((patient_evalChunk (own chunk hc)).bind fun _ => patient_pure _).toSteady).toSteady
  have flat : mergeAll (ranAlone task place) .empty cs.zipIdx =
      (chunks size cs.zipIdx).foldlM (mergeAll (ranAlone task place)) .empty := by
    rw [← mergeAll_flatten, chunks_flatten]
  rw [evalChunks, ran_foldlM steps, flat]
  refine agrees_foldlM (fun env chunk hc => ?_) _
  rw [ran_goOn, ran_bind (patient_evalChunk (own chunk hc)).toSteady]
  refine evalChunk_agrees schedule (own chunk hc) env fun hs a ha b hb => ?_
  exact one hs a (mem_of_mem_chunks hc ha) b (mem_of_mem_chunks hc hb)

/-- Siblings come to what they come to one after another. -/
theorem evalMany_agrees {cs : List Composite} {result : Composite → Except EvalError Environment}
    (h : ∀ place, ∀ c ∈ cs, Patient (task place c))
    (each : ∀ place, ∀ c ∈ cs, Agrees single (ran (task place c)) (result c))
    (one : single → OneError result cs) :
    Agrees single (ran (evalMany host o schedule task place cs)) (mergeAll result .empty cs) := by
  have alone : ∀ t ∈ cs.zipIdx, Agrees single (ranAlone task place t) (result t.1) :=
    fun t ht => each _ t.1 (List.fst_mem_of_mem_zipIdx ht)
  have oneAlone : single → OneError (ranAlone task place) cs.zipIdx := by
    intro hs t ht u hu e e' he he'
    rw [(alone t ht).error hs] at he
    rw [(alone u hu).error hs] at he'
    exact one hs t.1 (List.fst_mem_of_mem_zipIdx ht) u.1 (List.fst_mem_of_mem_zipIdx hu) e e' he he'
  have whole : Agrees single (mergeAll (ranAlone task place) .empty cs.zipIdx)
      (mergeAll result .empty cs) := by
    have places : mergeAll result .empty cs = mergeAll (fun t => result t.1) .empty cs.zipIdx :=
      (mergeAll_zipIdx cs .empty).symm
    rw [places]
    exact agrees_foldlM (fun env t ht => (alone t ht).bind fun _ => agrees_refl) _
  unfold evalMany
  split
  · rw [evalSerially_agrees h]
    exact whole
  · exact (evalChunks_agrees h oneAlone).trans whole

end

/-! ## References -/

section

variable (e : Evaluator) (chain : List String) (place : Place)

theorem steady_siblings (cs : List Composite) :
    Steady (evalMany e.host e.options e.schedule (evalComposite e chain) place cs) :=
  (patient_evalMany fun place d _ => patient_evalComposite e chain place d).toSteady

theorem ran_evalDefinition (c : Composite) (t : Namespace × Nat) :
    ran (evalDefinition e (evalComposite e chain) place c t) =
      ran (evalMany e.host e.options e.schedule (evalComposite e chain) (place ++ [t.2])
        t.1.composites) >>= fun composed =>
      ran (runNamespace e.host e.options t.1 composed c.arguments) :=
  ran_bind (steady_siblings e chain _ _)

theorem ran_evalDefinitions (c : Composite) :
    ran (evalDefinitions e (evalComposite e chain) place c) =
      (e.ast.lookup c.ident).zipIdx.foldlM (fun env t =>
        ran (evalDefinition e (evalComposite e chain) place c t) >>= fun own =>
        pure (env.merge own)) .empty := by
  have steady (t : Namespace × Nat) : Steady (evalDefinition e (evalComposite e chain) place c t) :=
    (steady_siblings e chain _ _).bind fun _ => patient_runNamespace ..
  refine (ran_foldlM (fun env t _ => ?_) _).trans (foldlM_congr (fun env t _ => ?_) _)
  · exact (steady t).bind fun _ => patient_pure _
  · exact ran_bind (steady t)

/-- What a reference with its chain comes to, if nobody cancels it. -/
def Evaluator.comesTo (c : Composite) : Except EvalError Environment :=
  ran (evalComposite e chain [] c)

variable {e} (serial : e.options.Serial e.host)

include serial

/-- One after another, the place of a reference does not matter. -/
theorem ran_evalComposite (c : Composite) :
    ran (evalComposite e chain place c) = e.comesTo chain c := by
  rw [Evaluator.comesTo, evalComposite_eq_journal serial, evalComposite_eq_journal serial]

theorem ran_siblings (cs : List Composite) :
    ran (evalMany e.host e.options e.schedule (evalComposite e chain) place cs) =
      mergeAll (e.comesTo chain) .empty cs := by
  have places : mergeAll (e.comesTo chain) .empty cs =
      mergeAll (fun t => e.comesTo chain t.1) .empty cs.zipIdx := (mergeAll_zipIdx cs .empty).symm
  rw [evalMany_of_serial serial, places,
    evalSerially_agrees fun place c _ => patient_evalComposite e chain place c]
  exact mergeAll_congr (fun t _ => ran_evalComposite chain _ serial t.1) _

end

/-- The lists of siblings that an evaluation of requested names meets, each with its chain. -/
inductive Ast.Siblings (ast : Ast) (names : List String) :
    List String → List Composite → Prop where
  | requested : Siblings ast names [] (names.map Composite.named)
  | composed {chain : List String} {cs : List Composite} {c : Composite} {n : Namespace}
      (siblings : Siblings ast names chain cs) (mem : c ∈ cs) (fresh : c.ident ∉ chain)
      (defined : n ∈ ast.lookup c.ident) :
      Siblings ast names (chain ++ [c.ident]) n.composites

/-- The settings of an evaluation one after another. -/
def EvalOptions.serial (o : EvalOptions) : EvalOptions := { o with jobs := 1 }

theorem serial_serial (o : EvalOptions) (host : Host) : o.serial.Serial host :=
  Nat.min_le_left 1 host.cores

/-- What a reference with its chain comes to on its own, one after another. -/
def Model.alone (m : Model) (host : Host) (o : EvalOptions) (chain : List String) (c : Composite) :
    Except EvalError Environment :=
  ran (evalComposite ⟨host, m.ast, o.serial, .calm⟩ chain [] c)

/-- Does a reference with its chain fail on its own? -/
def Model.failsAlone (m : Model) (host : Host) (o : EvalOptions) (chain : List String)
    (c : Composite) : Bool :=
  match m.alone host o chain c with
  | .ok _ => false
  | .error _ => true

section

variable {m : Model} {host : Host} {o : EvalOptions} {schedule : Schedule} {names : List String}

theorem ran_evalMany_serial (chain : List String) (place : Place) (cs : List Composite) :
    ran (evalMany host o.serial .calm (evalComposite ⟨host, m.ast, o.serial, .calm⟩ chain) place cs) =
      mergeAll (m.alone host o chain) .empty cs :=
  ran_siblings (e := ⟨host, m.ast, o.serial, .calm⟩) chain place (serial_serial o host) cs

/-- At most one of some siblings fails on its own. -/
def Model.AtMostOneFails (m : Model) (host : Host) (o : EvalOptions) (chain : List String)
    (cs : List Composite) : Prop :=
  cs.countP (m.failsAlone host o chain) ≤ 1

theorem oneError_of_atMostOneFails {chain : List String} {cs : List Composite}
    (h : m.AtMostOneFails host o chain cs) : OneError (m.alone host o chain) cs := by
  intro a ha b hb e e' he he'
  have inFilter {c : Composite} {e : EvalError} (hc : c ∈ cs) (he : m.alone host o chain c = .error e) :
      c ∈ cs.filter (m.failsAlone host o chain) :=
    List.mem_filter.mpr ⟨hc, by simp [Model.failsAlone, he]⟩
  rw [Model.AtMostOneFails, List.countP_eq_length_filter] at h
  match hf : cs.filter (m.failsAlone host o chain), inFilter ha he, inFilter hb he' with
  | [c], ha, hb =>
    obtain rfl := List.mem_singleton.mp ha
    obtain rfl := List.mem_singleton.mp hb
    exact Except.error.inj (he.symm.trans he')
  | c :: d :: rest, _, _ => simp [hf] at h

variable (m host o schedule names)

/-- Of all siblings that an evaluation meets, at most one fails on its own. -/
def Model.NoFailuresTogether : Prop :=
  ∀ chain cs, m.ast.Siblings names chain cs → m.AtMostOneFails host o chain cs

variable {m host o schedule names}

theorem evalDefinitions_agrees {single : Prop} {chain : List String} {place place' : Place}
    {c : Composite}
    (each : ∀ n ∈ m.ast.lookup c.ident, ∀ place, ∀ d ∈ n.composites,
      Agrees single (ran (evalComposite ⟨host, m.ast, o, schedule⟩ (chain ++ [c.ident]) place d))
        (m.alone host o (chain ++ [c.ident]) d))
    (one : single → ∀ n ∈ m.ast.lookup c.ident,
      OneError (m.alone host o (chain ++ [c.ident])) n.composites) :
    Agrees single
      (ran (evalDefinitions ⟨host, m.ast, o, schedule⟩
        (evalComposite ⟨host, m.ast, o, schedule⟩ (chain ++ [c.ident])) place c))
      (ran (evalDefinitions ⟨host, m.ast, o.serial, .calm⟩
        (evalComposite ⟨host, m.ast, o.serial, .calm⟩ (chain ++ [c.ident])) place' c)) := by
  rw [ran_evalDefinitions, ran_evalDefinitions]
  refine agrees_foldlM (fun env t ht => Agrees.bind ?_ fun own => agrees_refl) _
  have hn := List.fst_mem_of_mem_zipIdx ht
  rw [ran_evalDefinition, ran_evalDefinition]
  refine Agrees.bind ?_ fun composed => agrees_refl
  rw [ran_evalMany_serial]
  exact evalMany_agrees (fun place d _ => patient_evalComposite _ _ place d) (each t.1 hn)
    fun hs => one hs t.1 hn

theorem evalComposite_agrees (chain : List String) :
    ∀ cs, m.ast.Siblings names chain cs → ∀ place, ∀ c ∈ cs,
      Agrees (m.NoFailuresTogether host o names)
        (ran (evalComposite ⟨host, m.ast, o, schedule⟩ chain place c)) (m.alone host o chain c) := by
  induction chain using chain_induction m.ast with
  | step chain ih =>
    intro cs siblings place c hc
    rw [Model.alone, evalComposite_eq, evalComposite_eq, evalReference, evalReference, ran_goOn,
      ran_goOn]
    by_cases again : c.ident ∈ chain
    · rw [if_pos again, if_pos again]
      exact agrees_refl
    rw [if_neg again, if_neg again]
    by_cases undefined : m.ast.lookup c.ident = []
    · rw [if_pos undefined, if_pos undefined]
      exact agrees_refl
    rw [if_neg undefined, if_neg undefined]
    by_cases duplicate :
        (o.unique && hasDuplicate ((m.ast.lookup c.ident).map Namespace.print)) = true
    · have duplicate' : (o.serial.unique &&
          hasDuplicate ((m.ast.lookup c.ident).map Namespace.print)) = true := duplicate
      rw [if_pos duplicate, if_pos duplicate']
      exact agrees_refl
    have duplicate' : ¬ (o.serial.unique &&
        hasDuplicate ((m.ast.lookup c.ident).map Namespace.print)) = true := duplicate
    rw [if_neg duplicate, if_neg duplicate']
    have next : ∀ n ∈ m.ast.lookup c.ident, m.ast.Siblings names (chain ++ [c.ident]) n.composites :=
      fun n hn => .composed siblings hc again hn
    exact evalDefinitions_agrees (fun n hn => ih c.ident again undefined n.composites (next n hn))
      fun single n hn => oneError_of_atMostOneFails (single _ _ (next n hn))

/-- Whatever the schedule, an evaluation with chunks gives the variables that the evaluation one
after another gives, and fails if that one fails. If at most one of any siblings fails on its own,
it fails with the same error. -/
theorem parallel_agrees_with_serial (m : Model) (host : Host) (schedule : Schedule)
    (o : EvalOptions) (names : List String) :
    (∀ vars, m.eval host schedule o .endless names = .ok vars ↔
      m.eval host .calm o.serial .endless names = .ok vars) ∧
    (m.NoFailuresTogether host o names →
      m.eval host schedule o .endless names = m.eval host .calm o.serial .endless names) := by
  have agrees : Agrees (m.NoFailuresTogether host o names)
      (ran (evalRequested ⟨host, m.ast, o, schedule⟩ names))
      (ran (evalRequested ⟨host, m.ast, o.serial, .calm⟩ names)) := by
    rw [evalRequested, evalRequested, ran_evalMany_serial]
    exact evalMany_agrees (fun place c _ => patient_evalComposite _ [] place c)
      (evalComposite_agrees [] _ .requested) fun single =>
      oneError_of_atMostOneFails (single _ _ .requested)
  exact ⟨fun vars => agrees.map.ok_iff, agrees.map.error⟩

/-- A host that runs two tasks at once. -/
def Host.dual : Host := { Host.bare with cores := 2 }

/-- The first task of a chunk is told at once to stop when another one has failed. -/
def Schedule.hasty : Schedule := ⟨fun place => if place = [0] then some 0 else none, fun _ => none⟩

def EvalOptions.strictly : EvalOptions := { EvalOptions.default with strict := true }

/-- One name without composites. -/
def lonely : Model := ⟨⟨[.composing "a" []]⟩, []⟩

theorem lonely_siblings {chain : List String} {cs : List Composite}
    (h : lonely.ast.Siblings ["a", "b"] chain cs) :
    (chain = [] ∧ cs = ["a", "b"].map Composite.named) ∨ cs = [] := by
  cases h with
  | requested => exact .inl ⟨rfl, rfl⟩
  | composed _ _ _ defined =>
    obtain rfl := List.mem_singleton.mp (List.mem_filter.mp defined).1
    exact .inr rfl

theorem lonely_fails_alike :
    lonely.eval .dual .hasty .strictly .endless ["a", "b"] =
      lonely.eval .dual .calm EvalOptions.strictly.serial .endless ["a", "b"] ∧
    (lonely.eval .dual .hasty .strictly .endless ["a", "b"]).isOk = false := by
  constructor
  · refine (parallel_agrees_with_serial _ _ _ _ _).2 fun chain cs siblings => ?_
    rcases lonely_siblings siblings with ⟨rfl, rfl⟩ | rfl
    · unfold Model.AtMostOneFails
      decide +kernel
    · exact Nat.zero_le 1
  · decide +kernel

end

end EnvManifest
