import EnvManifest.Eval.Model

/-!
# What an evaluation comes to

Rules for work that may fail and that has a state: how it runs, and which values and errors it ends
with whatever the state is.
-/

namespace EnvManifest

/-- Work with a state that ends with a value or an error. -/
abbrev Work (σ α : Type) := ExceptT EvalError (StateM σ) α

/-- What some work comes to in a state, and the state after it. -/
def outcome {σ α : Type} (m : Work σ α) (s : σ) : Except EvalError α × σ := (m.run).run s

/-- Work ends, in any state, with a value of one kind or an error of another. -/
def Ends {σ α : Type} (m : Work σ α) (good : α → Prop) (bad : EvalError → Prop) : Prop :=
  ∀ s,
    match (outcome m s).1 with
    | .ok a => good a
    | .error e => bad e

section

variable {σ α β : Type}

/-! ## Running -/

@[simp] theorem outcome_pure (a : α) (s : σ) : outcome (pure a) s = (.ok a, s) := rfl

@[simp] theorem outcome_throw (e : EvalError) (s : σ) :
    outcome (throw e : Work σ α) s = (.error e, s) := rfl

@[simp] theorem outcome_get (s : σ) : outcome (get : Work σ σ) s = (.ok s, s) := rfl

@[simp] theorem outcome_set (s t : σ) : outcome (set t : Work σ PUnit) s = (.ok ⟨⟩, t) := rfl

theorem outcome_bind (m : Work σ α) (f : α → Work σ β) (s : σ) :
    outcome (m >>= f) s =
      match outcome m s with
      | (.ok a, t) => outcome (f a) t
      | (.error e, t) => (.error e, t) := by
  simp only [outcome, ExceptT.run_bind, StateT.run_bind]
  rcases h : (m.run).run s with ⟨_ | a, t⟩ <;> rfl

theorem outcome_bind_ok {m : Work σ α} {f : α → Work σ β} {s t : σ} {a : α}
    (h : outcome m s = (.ok a, t)) : outcome (m >>= f) s = outcome (f a) t := by
  rw [outcome_bind, h]

theorem outcome_bind_error {m : Work σ α} {f : α → Work σ β} {s t : σ} {e : EvalError}
    (h : outcome m s = (.error e, t)) : outcome (m >>= f) s = (.error e, t) := by
  rw [outcome_bind, h]

theorem outcome_map (f : α → β) (m : Work σ α) (s : σ) :
    outcome (f <$> m) s = ((outcome m s).1.map f, (outcome m s).2) := by
  rw [map_eq_pure_bind, outcome_bind]
  rcases outcome m s with ⟨_ | a, t⟩ <;> rfl

theorem work_ext {m n : Work σ α} (h : ∀ s, outcome m s = outcome n s) : m = n := funext h

/-! ## Ends -/

variable {good : α → Prop} {bad : EvalError → Prop}

theorem Ends.ok {m : Work σ α} (h : Ends m good bad) {s : σ} {a : α}
    (hr : (outcome m s).1 = .ok a) : good a := by
  have := h s
  rwa [hr] at this

theorem Ends.error {m : Work σ α} (h : Ends m good bad) {s : σ} {e : EvalError}
    (hr : (outcome m s).1 = .error e) : bad e := by
  have := h s
  rwa [hr] at this

theorem ends_of {m : Work σ α} (hok : ∀ s a, (outcome m s).1 = .ok a → good a)
    (herror : ∀ s e, (outcome m s).1 = .error e → bad e) : Ends m good bad := by
  intro s
  cases hr : (outcome m s).1 with
  | ok a => exact hok s a hr
  | error e => exact herror s e hr

theorem ends_pure {a : α} (h : good a) : Ends (pure a : Work σ α) good bad := fun _ => h

theorem ends_throw {e : EvalError} (h : bad e) : Ends (throw e : Work σ α) good bad := fun _ => h

theorem Ends.mono {m : Work σ α} {good' : α → Prop} {bad' : EvalError → Prop}
    (h : Ends m good bad) (hg : ∀ a, good a → good' a) (hb : ∀ e, bad e → bad' e) :
    Ends m good' bad' := by
  intro s
  have hs := h s
  cases hr : (outcome m s).1 with
  | ok a => rw [hr] at hs; exact hg a hs
  | error e => rw [hr] at hs; exact hb e hs

theorem Ends.bind {m : Work σ α} {f : α → Work σ β} {good' : β → Prop} (h : Ends m good bad)
    (hf : ∀ a, good a → Ends (f a) good' bad) : Ends (m >>= f) good' bad := by
  intro s
  have hs := h s
  rw [outcome_bind]
  rcases hm : outcome m s with ⟨_ | a, t⟩
  · rw [hm] at hs; exact hs
  · rw [hm] at hs; exact hf a hs t

/-- A walk over a list: every step ends well, or the walk ends with the error of one. -/
theorem ends_foldlM {f : β → α → Work σ β} {P : α → Prop} (as : List α)
    (h : ∀ b, ∀ a ∈ as, Ends (f b a) (fun _ => P a) bad) (b : β) :
    Ends (as.foldlM f b) (fun _ => ∀ a ∈ as, P a) bad := by
  induction as generalizing b with
  | nil => exact ends_pure (by simp)
  | cons a as ih =>
    rw [List.foldlM_cons]
    refine (h b a List.mem_cons_self).bind fun c ha => ?_
    refine (ih (fun b x hx => h b x (List.mem_cons_of_mem _ hx)) c).mono ?_ (fun _ he => he)
    intro _ has
    exact List.forall_mem_cons.mpr ⟨ha, has⟩

/-- A walk over a list with an invariant that tells how far it has come. -/
theorem ends_foldlM_inv {f : β → α → Work σ β} {I : List α → β → Prop} (as : List α) {b : β}
    (start : I [] b)
    (step : ∀ before b, ∀ a ∈ as, I before b → Ends (f b a) (I (before ++ [a])) bad) :
    Ends (as.foldlM f b) (I as) bad := by
  have walk : ∀ before b, I before b → Ends (as.foldlM f b) (I (before ++ as)) bad := by
    clear start
    induction as with
    | nil => exact fun before b h => ends_pure (by simpa using h)
    | cons a as ih =>
      intro before b h
      rw [List.foldlM_cons]
      refine (step before b a List.mem_cons_self h).bind fun c hc => ?_
      simpa using ih (fun before b x hx => step before b x (List.mem_cons_of_mem _ hx))
        (before ++ [a]) c hc
  exact walk [] b start

end

/-! ## Walks -/

section

variable {m : Type → Type} [Monad m] {α β γ : Type}

theorem foldlM_congr {f g : β → α → m β} {as : List α} (h : ∀ b, ∀ a ∈ as, f b a = g b a) (b : β) :
    as.foldlM f b = as.foldlM g b := by
  induction as generalizing b with
  | nil => rfl
  | cons a as ih =>
    rw [List.foldlM_cons, List.foldlM_cons, h b a List.mem_cons_self]
    congr 1
    funext c
    exact ih (fun b x hx => h b x (List.mem_cons_of_mem _ hx)) c

/-- A walk whose steps are the steps of another one seen through a function. -/
theorem foldlM_map [LawfulMonad m] {φ : β → γ} {f : β → α → m β} {g : γ → α → m γ} {as : List α}
    (h : ∀ b, ∀ a ∈ as, g (φ b) a = φ <$> f b a) (b : β) :
    as.foldlM g (φ b) = φ <$> as.foldlM f b := by
  induction as generalizing b with
  | nil => simp
  | cons a as ih =>
    rw [List.foldlM_cons, List.foldlM_cons, h b a List.mem_cons_self, bind_map_left, map_bind]
    congr 1
    funext c
    exact ih (fun b x hx => h b x (List.mem_cons_of_mem _ hx)) c

end

/-! ## Questions -/

theorem outcome_isCancelled (p : Patience) :
    outcome Evaluation.isCancelled p = (.ok p.ask.1, p.ask.2) := rfl

theorem outcome_goOn (p : Patience) :
    outcome Evaluation.goOn p = (if p.ask.1 then .error .cancelled else .ok (), p.ask.2) := by
  rw [Evaluation.goOn, outcome_bind, outcome_isCancelled]
  cases p.ask.1 <;> rfl

theorem goOn_ends : Ends Evaluation.goOn (fun _ => True) (· = .cancelled) := by
  intro p
  rw [outcome_goOn]
  cases p.ask.1 <;> simp

end EnvManifest
