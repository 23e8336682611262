import EnvManifest.Proofs.Eval.Schedule
import Mathlib.Data.List.Nodup
import Mathlib.Logic.Function.Basic
import Mathlib.Logic.Relation

/-!
# Tasks that take turns

The tasks of a chunk run at the same time. Each of them asks from time to time whether the chunk has
been cancelled, and a task that ends with an error cancels it. In whatever order that happens, the
tasks come to what they come to under some schedule.
-/

namespace EnvManifest

/-- How far a task has come. -/
inductive Progress where
  /-- It has asked so many times, and was told to go on. -/
  | asking (answers : Nat)
  /-- It asks no more. -/
  | settled (r : TaskResult)
  /-- The chunk knows its result. -/
  | ended (r : TaskResult)

def Progress.result? : Progress → Option TaskResult
  | asking _ => none
  | settled r | ended r => some r

/-- A chunk while its tasks run. -/
structure Turns (α : Type) where
  progress : α → Progress
  cancelled : Bool

section

open Classical Function

variable {α : Type} (tasks : List α) (alone : α → TaskResult) (told : Nat → α → TaskResult)

/-- One thing that happens in a chunk. -/
inductive Happens : Turns α → Turns α → Prop where
  /-- A task asks and is told to go on. -/
  | answer {progress a n} (ha : a ∈ tasks) (h : progress a = .asking n) :
      Happens ⟨progress, false⟩ ⟨update progress a (.asking (n + 1)), false⟩
  /-- A task has asked for the last time, and the chunk is not cancelled. -/
  | settle {progress a n} (ha : a ∈ tasks) (h : progress a = .asking n) :
      Happens ⟨progress, false⟩ ⟨update progress a (.settled (alone a)), false⟩
  /-- The chunk is cancelled, so that a task is told to stop when it asks again. -/
  | stop {progress a n} (ha : a ∈ tasks) (h : progress a = .asking n) :
      Happens ⟨progress, true⟩ ⟨update progress a (.settled (told n a)), true⟩
  /-- A task ends. With an error it cancels the chunk. -/
  | finish {progress a r cancelled} (ha : a ∈ tasks) (h : progress a = .settled r) :
      Happens ⟨progress, cancelled⟩ ⟨update progress a (.ended r), cancelled || failed r⟩

/-- What the tasks of a chunk can come to, in some order of what happens. -/
def Interleaved (results : α → TaskResult) : Prop :=
  ∃ s, Relation.ReflTransGen (Happens tasks alone told) ⟨fun _ => .asking 0, false⟩ s ∧
    ∀ a ∈ tasks, s.progress a = .ended (results a)

/-- Every result is that of a task on its own, or that of a task which was told to stop by a task
that failed on its own. -/
structure Orderly (s : Turns α) : Prop where
  result : ∀ a r, (s.progress a).result? = some r →
    r = alone a ∨ (s.cancelled = true ∧ ∃ n, r = told n a)
  cancels : ∀ a r, s.progress a = .ended r → failed r = true → s.cancelled = true
  cause : s.cancelled = true →
    ∃ a ∈ tasks, s.progress a = .ended (alone a) ∧ failed (alone a) = true

variable {tasks alone told}

theorem Orderly.happens {s s' : Turns α} (h : Orderly tasks alone told s)
    (step : Happens tasks alone told s s') : Orderly tasks alone told s' := by
  obtain ⟨result, cancels, cause⟩ := h
  cases step <;> dsimp only at result cancels cause
  case answer a n ha hp =>
    refine ⟨fun b r hr => ?_, fun b r hr => ?_, nofun⟩ <;> dsimp only at hr <;>
      rw [update_apply] at hr <;> split at hr
    · cases hr
    · exact result b r hr
    · cases hr
    · exact cancels b r hr
  case settle a n ha hp =>
    refine ⟨fun b r hr => ?_, fun b r hr => ?_, nofun⟩ <;> dsimp only at hr <;>
      rw [update_apply] at hr <;> split at hr
    next same => exact .inl (same ▸ (Option.some.inj hr).symm)
    · exact result b r hr
    · cases hr
    · exact cancels b r hr
  case stop a n ha hp =>
    refine ⟨fun b r hr => ?_, fun b r hr _ => rfl, fun _ => ?_⟩
    · dsimp only at hr
      rw [update_apply] at hr
      split at hr
      next same => exact .inr ⟨rfl, n, same ▸ (Option.some.inj hr).symm⟩
      · exact result b r hr
    · obtain ⟨b, hb, ended, fails⟩ := cause rfl
      have other : b ≠ a := fun same => by rw [same, hp] at ended; cases ended
      exact ⟨b, hb, (update_of_ne other ..).trans ended, fails⟩
  case finish a r cancelled ha hp =>
    have own := result a r (by rw [hp]; rfl)
    refine ⟨fun b r' hr => ?_, fun b r' hr fails => ?_, fun hc => ?_⟩ <;> dsimp only at *
    · have before : r' = alone b ∨ (cancelled = true ∧ ∃ n, r' = told n b) := by
        rw [update_apply] at hr
        split at hr
        next same => rw [same, ← Option.some.inj hr]; exact own
        · exact result b r' hr
      exact before.imp_right fun ⟨hc, n⟩ => ⟨by simp [hc], n⟩
    · rw [update_apply] at hr
      split at hr
      · rw [Progress.ended.inj hr, fails]
        exact Bool.or_true _
      · simp [cancels b r' hr fails]
    · by_cases already : cancelled = true
      · obtain ⟨b, hb, ended, fails⟩ := cause already
        have other : b ≠ a := fun same => by rw [same, hp] at ended; cases ended
        exact ⟨b, hb, by rw [update_of_ne other, ended], fails⟩
      -- Nobody cancelled the chunk before, so the task that does it now was never told to stop.
      · obtain rfl | ⟨hc, -⟩ := own
        · exact ⟨a, ha, update_self .., by simpa [already] using hc⟩
        · exact (already hc).elim

theorem Interleaved.orderly {results : α → TaskResult} (h : Interleaved tasks alone told results) :
    ∃ cancelled, (∀ a ∈ tasks, results a = alone a ∨ (cancelled = true ∧ ∃ n, results a = told n a)) ∧
      (∀ a ∈ tasks, failed (results a) = true → cancelled = true) ∧
      (cancelled = true → ∃ a ∈ tasks, results a = alone a ∧ failed (alone a) = true) := by
  obtain ⟨s, run, ended⟩ := h
  have orderly : Orderly tasks alone told s := by
    clear ended
    induction run with
    | refl => exact ⟨nofun, nofun, nofun⟩
    | tail _ step ih => exact ih.happens step
  refine ⟨s.cancelled, fun a ha => orderly.result a _ (by rw [ended a ha]; rfl),
    fun a ha => orderly.cancels a _ (ended a ha), fun hc => ?_⟩
  obtain ⟨a, ha, own, fails⟩ := orderly.cause hc
  exact ⟨a, ha, Progress.ended.inj ((ended a ha).symm.trans own), fails⟩

end

/-! ## Every order is a schedule -/

/-- A schedule with the moments at which the tasks of one chunk notice that it is cancelled. -/
def Schedule.noticing (schedule : Schedule) (place : Place) (limit : Nat → Option Nat) : Schedule :=
  { schedule with
    notices := fun there =>
      if there.dropLast = place then there.getLast?.bind limit else schedule.notices there }

theorem Schedule.notices_noticing (schedule : Schedule) (place : Place) (limit : Nat → Option Nat)
    (i : Nat) : (schedule.noticing place limit).notices (place ++ [i]) = limit i := by
  simp [noticing]

/-- Whatever the order in which the tasks of a chunk ask, fail and cancel it, they come to what they
come to under a schedule. -/
theorem scheduled_of_interleaved {schedule : Schedule} {task : Task} {place : Place} {p : Patience}
    {tasks : List (Composite × Nat)} {results : Composite × Nat → TaskResult}
    (distinct : (tasks.map Prod.snd).Nodup)
    (h : Interleaved tasks (fun t => runAlone schedule task (place ++ [t.2]) p t.1)
      (fun n t => runTold schedule task (place ++ [t.2]) p n t.1) results) :
    ∃ limit, chunkResults (schedule.noticing place limit) task place p tasks =
      tasks.map results := by
  classical
  obtain ⟨cancelled, result, cancels, cause⟩ := h.orderly
  -- A task whose result is its own is never told to stop.
  let limitOf (t : Composite × Nat) : Option Nat :=
    if own : results t = runAlone schedule task (place ++ [t.2]) p t.1 then none
    else if told : ∃ n, results t = runTold schedule task (place ++ [t.2]) p n t.1 then some told.choose
    else none
  let limit (i : Nat) : Option Nat := (tasks.find? (·.2 == i)).bind limitOf
  have limit_eq : ∀ t ∈ tasks, limit t.2 = limitOf t := by
    intro t ht
    have same : ∀ u ∈ tasks, u.2 = t.2 → u = t :=
      fun u hu he => List.inj_on_of_nodup_map distinct hu ht he
    cases hf : tasks.find? (·.2 == t.2) with
    | none => exact (List.find?_eq_none.mp hf t ht (by simp)).elim
    | some u =>
      obtain rfl := same u (List.mem_of_find?_eq_some hf) (by simpa using List.find?_some hf)
      simp only [limit, hf, Option.bind_some]
  have notices : ∀ t ∈ tasks, (schedule.noticing place limit).notices (place ++ [t.2]) = limitOf t :=
    fun t ht => (schedule.notices_noticing place limit t.2).trans (limit_eq t ht)
  have untold : ∀ t ∈ tasks, results t = runAlone schedule task (place ++ [t.2]) p t.1 →
      (schedule.noticing place limit).notices (place ++ [t.2]) = none :=
    fun t ht own => (notices t ht).trans (dif_pos own)
  have fails : failsUntold (schedule.noticing place limit) task place p tasks = cancelled := by
    rw [failsUntold, Bool.eq_iff_iff, List.any_eq_true]
    refine ⟨fun ⟨t, ht, h⟩ => ?_, fun hc => ?_⟩
    · obtain ⟨failing, -⟩ := (Bool.and_eq_true _ _).mp h
      by_contra calm
      have own := (result t ht).resolve_right fun told => calm told.1
      exact calm (cancels t ht (own.symm ▸ failing))
    · obtain ⟨t, ht, own, failing⟩ := cause hc
      exact ⟨t, ht, (Bool.and_eq_true _ _).mpr ⟨failing, by rw [untold t ht own]; rfl⟩⟩
  refine ⟨limit, ?_⟩
  rw [chunkResults_eq, fails]
  refine List.map_congr_left fun t ht => ?_
  by_cases own : results t = runAlone schedule task (place ++ [t.2]) p t.1
  · exact (runTask_untold task p (untold t ht own) cancelled).trans own.symm
  · obtain ⟨hc, n, told⟩ := (result t ht).resolve_left own
    have told : ∃ n, results t = runTold schedule task (place ++ [t.2]) p n t.1 := ⟨n, told⟩
    have limited : limitOf t = some told.choose := (dif_neg own).trans (dif_pos told)
    rw [hc]
    exact (runTask_told task p ((notices t ht).trans limited)).trans told.choose_spec.symm

end EnvManifest
