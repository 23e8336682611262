import EnvManifest.Proofs.Eval.Renaming
import EnvManifest.Proofs.Script.Renaming.Start

/-!
# What a pass sees of earlier ones

All passes of a namespace run in one engine. Each has a scope of its own, but the tables of globals
are shared. A pass that finds them as they were at the start binds what it binds alone: what earlier
passes have made has other numbers than what they would have left free, and nothing else.
-/

namespace EnvManifest

open Patiently Script

/-- Passes one after another, from what is bound before them. -/
def runAll (o : EvalOptions) (bound : Fields Value) (ps : List Pass) : Passing (Fields Value) :=
  ps.foldlM (fun bound pass => return Fields.union bound (← pass.run o)) bound

/-- An engine in which nothing has run, and which nothing stops. -/
def Engine.fresh (host : Host) : Engine := Engine.new host (Facts.ofHost host) .endless

/-! ## Settings -/

/-- Work that leaves the host and the hints of an engine as they are. -/
def KeepsSetting {α : Type} (m : Passing α) : Prop :=
  ∀ e, (outcome m e).2.host = e.host ∧ (outcome m e).2.hints = e.hints

section

variable {α β : Type}

theorem keepsSetting_pure (a : α) : KeepsSetting (pure a) := fun _ => ⟨rfl, rfl⟩

theorem keepsSetting_throw (error : EvalError) : KeepsSetting (throw error : Passing α) :=
  fun _ => ⟨rfl, rfl⟩

theorem KeepsSetting.bind {m : Passing α} {k : α → Passing β} (hm : KeepsSetting m)
    (hk : ∀ a, KeepsSetting (k a)) : KeepsSetting (m >>= k) := by
  intro e
  have first := hm e
  rcases hr : outcome m e with ⟨error | a, t⟩
  · rw [hr] at first
    rw [outcome_bind_error hr]
    exact first
  · rw [hr] at first
    rw [outcome_bind_ok hr]
    exact ⟨(hk a t).1.trans first.1, (hk a t).2.trans first.2⟩

theorem keepsSetting_foldlM {k : β → α → Passing β} (hk : ∀ b a, KeepsSetting (k b a))
    (as : List α) (b : β) : KeepsSetting (as.foldlM k b) := by
  induction as generalizing b with
  | nil => exact keepsSetting_pure b
  | cons a as ih => exact (hk b a).bind ih

theorem keepsSetting_goOn : KeepsSetting (Passing.ofEvaluation Evaluation.goOn) := by
  intro e
  rw [outcome_ofEvaluation]
  exact ⟨rfl, rfl⟩

end

theorem keepsSetting_valueOf (pass : Pass) (o : EvalOptions) (scope : ScopeId) (s : Statement) :
    KeepsSetting (modifyGet (pass.valueOf o scope s)) := by
  intro e
  rw [outcome_modifyGet, valueOf_eq]
  cases parseProgram (Engine.programText (pass.sourceOf o s e)) with
  | error fault => exact ⟨rfl, rfl⟩
  | ok body =>
    dsimp only
    rw [run_eq]
    generalize Engine.resultOf _ = result
    cases result <;> exact ⟨rfl, rfl⟩

theorem keepsSetting_runStatement (pass : Pass) (o : EvalOptions) (scope : ScopeId)
    (s : Statement) : KeepsSetting (pass.runStatement o scope s) := by
  rw [runStatement_eq]
  refine keepsSetting_goOn.bind fun _ => (keepsSetting_valueOf pass o scope s).bind fun result => ?_
  cases result with
  | ok v => exact keepsSetting_pure v
  | error e => exact keepsSetting_goOn.bind fun _ => keepsSetting_throw _

theorem bindAll_setting (scope : ScopeId) (bindings : List (String × Value)) (e : Engine) :
    (Engine.bindAll scope bindings e).host = e.host ∧
      (Engine.bindAll scope bindings e).hints = e.hints := by
  induction bindings generalizing e with
  | nil => exact ⟨rfl, rfl⟩
  | cons b bindings ih => exact ih (e.bind scope b.1 b.2)

theorem keepsSetting_run (pass : Pass) (o : EvalOptions) : KeepsSetting (pass.run o) := by
  have opens : KeepsSetting (pass.openScope o) := by
    intro e
    rw [openScope_eq, outcome_modifyGet]
    exact bindAll_setting e.scope.2 (pass.bindings o) e.scope.1
  exact opens.bind fun scope => keepsSetting_foldlM
    (fun _ s => (keepsSetting_runStatement pass o scope s).bind fun _ => keepsSetting_pure _) _ _

/-! ## Texts with passes -/

/-- A number, if it is the only variable. -/
def number? : Except EvalError (Fields Value) → Option Int
  | .ok [(_, .int n)] => some n
  | _ => none

/-- The passes of the only namespace of a text. -/
def passesOf? (text : String) : Option (Namespace × List Pass) :=
  match Model.ofText text with
  | .ok ⟨⟨[ns]⟩, _⟩ => some (ns, passes ns [] ns.parameters)
  | _ => none

theorem exists_passes {text : String} {p : Namespace × List Pass → Bool}
    (h : (passesOf? text).any p = true) : ∃ ns, p (ns, passes ns [] ns.parameters) = true := by
  obtain ⟨⟨ns, ps⟩, found, holds⟩ := (Option.any_eq_true _ _).1 h
  unfold passesOf? at found
  split at found
  · cases found
    exact ⟨_, holds⟩
  · cases found

/-! ## Passes alone -/

/-- The tables that all scopes share are as they are in a fresh engine. -/
def Engine.SharesStart (engine : Engine) (host : Host) : Prop :=
  (Engine.fresh host).heap.tables.toList <+: engine.heap.tables.toList

deriving instance DecidableEq for Number, Datum, Table

instance (engine : Engine) (host : Host) : Decidable (engine.SharesStart host) :=
  inferInstanceAs (Decidable (_ <+: _))

/-- An engine with the same shared tables differs from a fresh one in its numbers. -/
theorem renamed_of_sharesStart {host : Host} {o : EvalOptions} {composed bound : Fields Value}
    {before : List Pass} {engine : Engine}
    (hran : outcome (runAll o composed before) (Engine.fresh host) = (.ok bound, engine))
    (shared : engine.SharesStart host) : ∃ r, EngineRenamed r (Engine.fresh host) engine := by
  obtain ⟨closed, six⟩ := Heap.closed_start (Facts.ofHost host)
  have setting : KeepsSetting (runAll o composed before) :=
    keepsSetting_foldlM
      (fun _ pass => (keepsSetting_run pass o).bind fun _ => keepsSetting_pure _) _ _
  have patient : Patient (runAll o composed before) :=
    patient_foldlM (fun _ pass _ => (patient_run pass o).bind fun _ => patient_pure _) _
  have same := setting (Engine.fresh host)
  have endless := (patient.endless (Engine.fresh host) rfl).1
  rw [hran] at same endless
  have size : (Engine.fresh host).heap.tables.size ≤ engine.heap.tables.size := by
    simpa using shared.length_le
  have kept : ∀ id < (Engine.fresh host).heap.tables.size,
      engine.heap.tables[id]? = (Engine.fresh host).heap.tables[id]? := by
    intro id hid
    have found := List.prefix_iff_getElem?.1 shared id (by simpa using hid)
    simpa [hid] using found
  exact ⟨_, same.1, same.2, .behind closed (Nat.le_trans (by decide) six) size kept, rfl, endless⟩

/-- Two passes that count themselves in a name of their scope. -/
def localText : String :=
  "a(1, 2) \x7b x = (function() n = (n or 0) + 1 return n end)() \x7d"

/-- A pass that runs alone stops, without a number shown. -/
def Pass.hides (pass : Pass) (o : EvalOptions) (host : Host) (n : Nat) (s : Statement) : Bool :=
  match outcome (pass.openScope o) (Engine.fresh host) with
  | (.ok scope, there) =>
    match parseProgram (Engine.programText (pass.sourceOf o s there)) with
    | .ok body => (there.machine scope body).stopsHidden there.host n
    | .error _ => true
  | _ => true

theorem Pass.hidden_of_hides {pass : Pass} {o : EvalOptions} {host : Host} {n : Nat} {s : Statement}
    (only : pass.ns.statements = [s]) (h : pass.hides o host n s = true) (scope : ScopeId)
    (t : Statement) (there : Engine)
    (executes : pass.Executes o (Engine.fresh host) scope t there) :
    ¬ pass.ShowsNumber o scope t there := by
  rintro ⟨body, hbody, k, -, shows⟩
  obtain ⟨opened, bound, hopened, before, after, split, comes⟩ := executes
  rw [only] at split
  obtain ⟨rfl, rfl, rfl⟩ : before = [] ∧ t = s ∧ after = [] := by
    simpa using List.singleton_eq_append_iff.1 split
  obtain rfl : opened = there := congrArg Prod.snd comes
  unfold hides at h
  rw [hopened] at h
  dsimp only at h
  rw [hbody] at h
  exact absurd shows (Bool.eq_false_iff.1 (Machine.hidden_of_stopsHidden h k))

/-- The second pass does not find what the first one has counted. -/
theorem localText_values : (passesOf? localText).any fun (_, ps) =>
    match ps with
    | [first, second] =>
      let ran := outcome (runAll .default [] [first]) (Engine.fresh .bare)
      match second.ns.statements with
      | [s] =>
        number? ran.1 = some 1 ∧
          number? (outcome (second.run .default) (Engine.fresh .bare)).1 = some 1 ∧
          ran.2.SharesStart .bare ∧ second.hides .default .bare 100 s
      | _ => false
    | _ => false := by decide +kernel

/-- Two passes that count themselves in a global. -/
def countedText : String :=
  "a(1, 2) \x7b x = (function() _G.n = (_G.n or 0) + 1 return _G.n end)() \x7d"

/-- The second pass counts on where the first one has stopped. -/
theorem countedText_values : (passesOf? countedText).any fun (ns, ps) =>
    match ps with
    | [first, second] =>
      let ran := outcome (runAll .default [] [first]) (Engine.fresh .bare)
      ns.parameters.length = 2 ∧ number? ran.1 = some 1 ∧
        number? (outcome (second.run .default) ran.2).1 = some 2 ∧
        number? (outcome (second.run .default) (Engine.fresh .bare)).1 = some 1
    | _ => false := by decide +kernel

end EnvManifest
