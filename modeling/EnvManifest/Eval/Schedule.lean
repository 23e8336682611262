import EnvManifest.Eval.Pass

/-!
# Composites at the same time

The composites of a namespace are evaluated one after another, or in chunks whose tasks run at the
same time. A task that fails cancels the rest of its chunk, so what the other tasks come to depends
on when they notice. A schedule fixes that. Every schedule is possible: the first task to fail is
not told to stop, and the others notice at any time after that or not at all.
-/

namespace EnvManifest

/-- The place of a task in an evaluation: for each composition on the way to it the number of the
definition and the number of the task. -/
abbrev Place := List Nat

structure Schedule where
  /-- After how many questions a task notices that its chunk has failed, none if it does not. -/
  notices : Place → Option Nat
  /-- After how many questions a task of a chunk that is to be cancelled notices that. -/
  noticesOuter : Place → Option Nat

/-- The schedule in which no task notices that another one has failed. -/
def Schedule.calm : Schedule := ⟨fun _ => none, fun _ => none⟩

/-- What a task comes to, and the patience that is left. -/
abbrev TaskResult := Except EvalError Environment × Patience

/-- How a composite is evaluated at a place. -/
abbrev Task := Place → Composite → Evaluation Environment

/-! ## One after another -/

/-- The environments of some composites in one. The first error ends the work. -/
def evalSerially (task : Task) (place : Place) (composites : List Composite) :
    Evaluation Environment :=
  composites.zipIdx.foldlM
    (fun env (c, i) => return env.merge (← task (place ++ [i]) c)) .empty

/-! ## Chunks -/

/-- The items in lists of a size. The last one may be shorter. -/
def chunks {α : Type} (size : Nat) (items : List α) : List (List α) :=
  if _h : size = 0 ∨ items = [] then (if items.isEmpty then [] else [items])
  else items.take size :: chunks size (items.drop size)
termination_by items.length
decreasing_by
  have := List.length_pos_iff.mpr (not_or.mp _h).2
  simp only [List.length_drop]; omega

/-- The patience of a task of a chunk: what the schedule makes of the patience of the chunk. -/
def taskPatience (schedule : Schedule) (place : Place) (p : Patience) : Patience :=
  ⟨p.left.map fun n => (schedule.noticesOuter place).getD n⟩

def failed (r : TaskResult) : Bool :=
  match r.1 with
  | .ok _ => false
  | .error _ => true

/-- What a task of a chunk comes to if it does not notice that the chunk has failed. -/
def runAlone (schedule : Schedule) (task : Task) (place : Place) (p : Patience) (c : Composite) :
    TaskResult :=
  ((task place c).run).run (taskPatience schedule place p)

/-- What a task of a chunk comes to if it notices after some questions that the chunk has failed.
The questions that were answered with no also count for the chunk. -/
def runTold (schedule : Schedule) (task : Task) (place : Place) (p : Patience) (limit : Nat)
    (c : Composite) : TaskResult :=
  let own := taskPatience schedule place p
  let told := own.least ⟨some limit⟩
  let (result, rest) := ((task place c).run).run told
  (result, own.after (told.since rest))

/-- What the tasks of a chunk come to. Tasks are told to stop if one fails that is never told. -/
def chunkResults (schedule : Schedule) (task : Task) (place : Place) (p : Patience)
    (tasks : List (Composite × Nat)) : List TaskResult :=
  let alone := tasks.map fun (c, i) => runAlone schedule task (place ++ [i]) p c
  let fails := (alone.zip tasks).any fun (r, _, i) =>
    failed r && (schedule.notices (place ++ [i])).isNone
  if fails then
    (alone.zip tasks).map fun (r, c, i) =>
      match schedule.notices (place ++ [i]) with
      | none => r
      | some limit => runTold schedule task (place ++ [i]) p limit c
  else alone

/-- The first error that is not the cancellation by another error. -/
def genuineError? (results : List TaskResult) : Option EvalError :=
  results.findSome? fun r =>
    match r.1 with
    | .ok _ | .error .cancelled => none
    | .error e => some e

/-- The environments of the tasks of a chunk. -/
def evalChunk (schedule : Schedule) (task : Task) (place : Place)
    (tasks : List (Composite × Nat)) : Evaluation (List Environment) := do
  let p ← get
  let results := chunkResults schedule task place p tasks
  set (results.foldl (fun p r => p.least r.2) p)
  let stop ← Evaluation.isCancelled
  if stop || results.any failed then
    Evaluation.goOn
    throw ((genuineError? results).getD .cancelled)
  else return results.filterMap fun r => r.1.toOption

/-- The environments of some composites in one, chunk by chunk. -/
def evalChunks (schedule : Schedule) (task : Task) (place : Place) (size : Nat)
    (composites : List Composite) : Evaluation Environment :=
  (chunks size composites.zipIdx).foldlM (fun env tasks => do
    Evaluation.goOn
    return (← evalChunk schedule task place tasks).foldl Environment.merge env) .empty

/-- The environments of some composites in one. -/
def evalMany (host : Host) (o : EvalOptions) (schedule : Schedule) (task : Task) (place : Place)
    (composites : List Composite) : Evaluation Environment :=
  match o.chunkSize? host composites.length with
  | none => evalSerially task place composites
  | some size => evalChunks schedule task place size composites

end EnvManifest
