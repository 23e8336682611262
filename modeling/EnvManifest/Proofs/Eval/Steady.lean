import EnvManifest.Proofs.Eval.Pass
import EnvManifest.Proofs.Patience

/-!
# More patience changes nothing

Work either uses up its patience, and then it does not fail with an error of its own, or it comes to
the same with any patience that is at least as long. So work that is told to stop can be cancelled,
but it cannot come to another error.
-/

namespace EnvManifest

/-! ## Steady work -/

/-- A state that holds the patience of its work. -/
class Patiently (σ : Type) where
  patience : σ → Patience
  withPatience : σ → Patience → σ
  patience_with : ∀ s q, patience (withPatience s q) = q
  with_with : ∀ s p q, withPatience (withPatience s p) q = withPatience s q

open Patiently

instance : Patiently Patience := ⟨id, fun _ q => q, fun _ _ => rfl, fun _ _ _ => rfl⟩

instance : Patiently Engine :=
  ⟨fun e => e.clock.patience, Engine.withPatience, fun _ _ => rfl, fun _ _ _ => rfl⟩

/-- A result that is an error of the work itself. -/
def Genuine {α : Type} (r : Except EvalError α) : Prop := ∃ e, r = .error e ∧ e ≠ .cancelled

section

variable {σ α β : Type} [Patiently σ]

/-- Work that uses up its patience or comes to the same with more of it. -/
structure Steady (m : Work σ α) : Prop where
  spends : ∀ s, patience (outcome m s).2 ≤ patience s
  same : ∀ s q, patience s ≤ q →
    (patience (outcome m s).2 = .exhausted ∧ ¬ Genuine (outcome m s).1) ∨
    ∃ q', patience (outcome m s).2 ≤ q' ∧
      outcome m (withPatience s q) = ((outcome m s).1, withPatience (outcome m s).2 q')
  endless : ∀ s, patience s = .endless →
    patience (outcome m s).2 = .endless ∧ (outcome m s).1 ≠ .error .cancelled

/-- Steady work that asks before it fails. -/
structure Patient (m : Work σ α) : Prop extends Steady m where
  yields : ∀ s, patience s = .exhausted → ¬ Genuine (outcome m s).1

theorem not_genuine_ok {a : α} : ¬ Genuine (.ok a) := by
  rintro ⟨e, h, -⟩
  cases h

theorem not_genuine_cancelled : ¬ Genuine (.error .cancelled : Except EvalError α) := by
  rintro ⟨e, h, genuine⟩
  exact genuine (Except.error.inj h).symm

theorem steady_throw {e : EvalError} (genuine : e ≠ .cancelled) : Steady (throw e : Work σ α) where
  spends _ := Patience.le_refl _
  same _ q h := .inr ⟨q, h, rfl⟩
  endless _ h := ⟨h, fun same => genuine (Except.error.inj same)⟩

theorem patient_pure (a : α) : Patient (pure a : Work σ α) where
  spends _ := Patience.le_refl _
  same _ q h := .inr ⟨q, h, rfl⟩
  endless _ h := ⟨h, nofun⟩
  yields _ _ := not_genuine_ok

/-- Work that goes on with work that asks before it fails. -/
theorem Steady.bind {m : Work σ α} {f : α → Work σ β} (hm : Steady m) (hf : ∀ a, Patient (f a)) :
    Steady (m >>= f) := by
  refine ⟨fun s => ?_, fun s q hq => ?_, fun s hs => ?_⟩
  · have spends := hm.spends s
    rw [outcome_bind]
    rcases hr : outcome m s with ⟨_ | a, t⟩ <;> rw [hr] at spends
    · exact spends
    · exact Patience.le_trans ((hf a).spends t) spends
  · have same := hm.same s q hq
    rw [outcome_bind, outcome_bind]
    rcases hr : outcome m s with ⟨e | a, t⟩ <;> rw [hr] at same
    · obtain ⟨used, notGenuine⟩ | ⟨q', hq', same⟩ := same
      · exact .inl ⟨used, fun ⟨e', h, genuine⟩ => notGenuine ⟨e, rfl, (Except.error.inj h) ▸ genuine⟩⟩
      · exact .inr ⟨q', hq', by rw [same]⟩
    · obtain ⟨used, -⟩ | ⟨q', hq', same⟩ := same
      · refine .inl ⟨Patience.eq_exhausted ?_, (hf a).yields t used⟩
        exact used ▸ (hf a).spends t
      · rw [same]
        exact (hf a).same t q' hq'
  · have endless := hm.endless s hs
    rw [outcome_bind]
    rcases hr : outcome m s with ⟨e | a, t⟩ <;> rw [hr] at endless
    · exact ⟨endless.1, fun h => endless.2 (congrArg Except.error (Except.error.inj h))⟩
    · exact (hf a).endless t endless.1

theorem Patient.bind {m : Work σ α} {f : α → Work σ β} (hm : Patient m) (hf : ∀ a, Patient (f a)) :
    Patient (m >>= f) := by
  refine ⟨hm.toSteady.bind hf, fun s hs => ?_⟩
  have yields := hm.yields s hs
  have spends := hm.spends s
  rw [outcome_bind]
  rcases hr : outcome m s with ⟨e | a, t⟩ <;> rw [hr] at yields spends
  · exact fun ⟨e', h, genuine⟩ => yields ⟨e, rfl, (Except.error.inj h) ▸ genuine⟩
  · exact (hf a).yields t (Patience.eq_exhausted (hs ▸ spends))

theorem patient_foldlM {f : β → α → Work σ β} {as : List α}
    (h : ∀ b, ∀ a ∈ as, Patient (f b a)) (b : β) : Patient (as.foldlM f b) := by
  induction as generalizing b with
  | nil => exact patient_pure b
  | cons a as ih =>
    rw [List.foldlM_cons]
    exact (h b a List.mem_cons_self).bind fun c =>
      ih (fun b x hx => h b x (List.mem_cons_of_mem _ hx)) c

/-- A question whether to stop. -/
def Asks (m : Work σ Unit) : Prop :=
  ∀ s, outcome m s =
    (if (patience s).ask.1 then .error .cancelled else .ok (), withPatience s (patience s).ask.2)

theorem Asks.bind {m : Work σ Unit} {f : Unit → Work σ α} (hm : Asks m) (hf : Steady (f ())) :
    Patient (m >>= f) := by
  have yes {s : σ} (h : (patience s).ask.1 = true) : outcome (m >>= f) s =
      (.error .cancelled, withPatience s (patience s).ask.2) :=
    outcome_bind_error (by rw [hm s, if_pos h])
  have no {s : σ} (h : (patience s).ask.1 = false) : outcome (m >>= f) s =
      outcome (f ()) (withPatience s (patience s).ask.2) :=
    outcome_bind_ok (by rw [hm s, if_neg (by simp [h])])
  refine ⟨⟨fun s => ?_, fun s q hq => ?_, fun s hs => ?_⟩, fun s hs => ?_⟩
  · cases h : (patience s).ask.1 with
    | true =>
      rw [yes h, patience_with]
      exact Patience.ask_le _
    | false =>
      rw [no h]
      refine Patience.le_trans (hf.spends _) ?_
      rw [patience_with]
      exact Patience.ask_le _
  · cases h : (patience s).ask.1 with
    | true =>
      rw [yes h, patience_with, Patience.ask_yes h]
      exact .inl ⟨rfl, not_genuine_cancelled⟩
    | false =>
      obtain ⟨h', le⟩ := Patience.ask_no h hq
      rw [no h, no (s := withPatience s q) (by rwa [patience_with]), patience_with, with_with,
        ← with_with s (patience s).ask.2 q.ask.2]
      exact hf.same _ _ (by rwa [patience_with])
  · rw [no (by rw [hs]; rfl), hs]
    exact hf.endless _ (patience_with _ _)
  · rw [yes (by rw [hs]; rfl)]
    exact not_genuine_cancelled

end

theorem asks_goOn : Asks Evaluation.goOn := outcome_goOn

theorem asks_ofEvaluation : Asks (Passing.ofEvaluation Evaluation.goOn) := by
  intro engine
  rw [outcome_ofEvaluation, outcome_goOn]
  rfl

end EnvManifest
