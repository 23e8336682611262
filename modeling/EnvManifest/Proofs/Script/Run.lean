import EnvManifest.Proofs.Script.Machine
import Mathlib.Logic.Function.Iterate

/-!
# Whole runs of programs that fold

An expression can be looked up if its value is there without a call of any function. If every
expression that has another one in its place is looked up with the same value as that one, and no
error is caught, then both programs come to the same values, or both to an error.
-/

namespace EnvManifest.Script

variable {swaps : Expr → Expr → Prop}

/-! ## Looking up -/

/-- What an operation is done with. -/
def Operated.done? : Operated → Option Datum
  | .done d => some d
  | _ => none

def Heap.Access.done? {α : Type} : Heap.Access α → Option α
  | .done a => some a
  | _ => none

/-- The value of an expression that calls nothing. -/
def Heap.look (h : Heap) (s : Scope) : Expr → Option Datum
  | .nil => some .nil
  | .bool b => some (.bool b)
  | .int n => some (.number (.int n))
  | .float x => some (.number (.float x))
  | .str bs => some (.str bs)
  | .var v => some (h.valueOf s v.index)
  | .index _ object key => do
    let a ← h.look s object
    let b ← h.look s key
    (h.index a b).done?
  | .single e => h.look s e
  | .unary _ op e => do (h.unary op ⟨← h.look s e, none⟩).done?
  | .binary _ op a b => do
    let a ← h.look s a
    let b ← h.look s b
    (h.binary op ⟨a, none⟩ ⟨b, none⟩).done?
  | _ => none

/-- How many steps it takes to look an expression up. -/
def Expr.cost : Expr → Nat
  | .index _ a b | .binary _ _ a b => a.cost + b.cost + 3
  | .single e | .unary _ _ e => e.cost + 2
  | _ => 1

theorem Expr.cost_pos (e : Expr) : 0 < e.cost := by
  cases e <;> simp [Expr.cost]

theorem Operated.Alike.done? {o o' : Operated} (h : o.Alike o') : o.done? = o'.done? := by
  cases h <;> rfl

theorem HeapFolds.look {h h' : Heap} (hh : HeapFolds swaps h h') (s : Scope) (e : Expr) :
    h.look s e = h'.look s e := by
  match e with
  | .var v => simp only [Heap.look, hh.valueOf]
  | .index _ object key => simp only [Heap.look, hh.look s object, hh.look s key, hh.index]
  | .single e => simp only [Heap.look, hh.look s e]
  | .unary _ op e =>
    have hu : ∀ a, (h.unary op ⟨a, none⟩).done? = (h'.unary op ⟨a, none⟩).done? :=
      fun a => (hh.unary_alike op rfl).done?
    simp only [Heap.look, hh.look s e, hu]
  | .binary _ op a b =>
    have hu : ∀ a b, (h.binary op ⟨a, none⟩ ⟨b, none⟩).done? =
        (h'.binary op ⟨a, none⟩ ⟨b, none⟩).done? :=
      fun a b => (hh.binary_alike op rfl rfl).done?
    simp only [Heap.look, hh.look s a, hh.look s b, hu]
  | .nil | .bool _ | .int _ | .float _ | .str _ => simp only [Heap.look]
  | .varargs | .lambda _ | .call _ _ _ | .method _ _ _ _ _ | .concat _ _ | .both _ _ | .either _ _
  | .table _ => simp only [Heap.look]

theorem Operated.eq_done {o o' : Operated} (h : o.Alike o') {d : Datum} (hd : o.done? = some d) :
    o' = .done d := by
  rw [h.done?] at hd
  cases o' with
  | done => simpa [Operated.done?] using hd
  | _ => simp [Operated.done?] at hd

theorem Heap.Access.eq_done {α : Type} {x : Heap.Access α} {a : α} (h : x.done? = some a) :
    x = .done a := by
  cases x with
  | done => simpa [Heap.Access.done?] using h
  | _ => simp [Heap.Access.done?] at h

/-! ## Ends -/

theorem MachineFolds.outcome {m m' : Machine} (hm : MachineFolds swaps m m') :
    m.outcome?.isSome = m'.outcome?.isSome ∧
      ∀ values, m.outcome? = some (.ok values) ↔ m'.outcome? = some (.ok values) := by
  obtain ⟨h, control, fs, depth⟩ := m
  obtain ⟨h', control', fs', depth'⟩ := m'
  obtain ⟨hh, hc, hf, hd⟩ := hm
  cases hf with
  | nil => cases hc <;> simp [Machine.outcome?]
  | cons => cases hc <;> simp [Machine.outcome?]

namespace Machine

variable {host : Host}

/-- One state leads to another in so many steps, and no state before that one has stopped. -/
inductive Reaches (host : Host) : Nat → Machine → Machine → Prop
  | refl (m : Machine) : Reaches host 0 m m
  | step {n : Nat} {m m₁ : Machine} (h : m.outcome? = none)
    (hr : Reaches host n (m.step host) m₁) : Reaches host (n + 1) m m₁

theorem Reaches.trans {n k : Nat} {m m₁ m₂ : Machine} (h : Reaches host n m m₁)
    (h' : Reaches host k m₁ m₂) : Reaches host (n + k) m m₂ := by
  induction h with
  | refl => rwa [Nat.zero_add]
  | @step n _ _ hm _ ih =>
    rw [Nat.add_right_comm]
    exact .step hm (ih h')

theorem look_reaches (h : Heap) (s : Scope) (e : Expr) (d : Datum) (fs : List Frame) (depth : Nat)
    (hl : h.look s e = some d) :
    Reaches host e.cost ⟨h, .eval s e, fs, depth⟩ ⟨h, .give [d], fs, depth⟩ := by
  match e with
  | .nil | .bool _ | .int _ | .float _ | .str _ | .var _ =>
    obtain rfl := Option.some.inj hl
    exact .step rfl (.refl _)
  | .index l object key =>
    simp only [Heap.look, Option.bind_eq_bind, Option.bind_eq_some_iff] at hl
    obtain ⟨a, ha, b, hb, hi⟩ := hl
    have last : Reaches host 0 (index h fs depth ⟨s.chunk, l⟩ ⟨a, object.origin?⟩ b)
        ⟨h, .give [d], fs, depth⟩ := by
      simp only [index, Heap.Access.eq_done hi]
      exact .refl _
    refine .step rfl ?_
    rw [Nat.add_assoc]
    exact (look_reaches h s object a _ depth ha).trans (.step rfl
      ((look_reaches h s key b _ depth hb).trans (.step rfl last)))
  | .single e => exact .step rfl ((look_reaches h s e d _ depth hl).trans (.step rfl (.refl _)))
  | .unary l op e =>
    simp only [Heap.look, Option.bind_eq_bind, Option.bind_eq_some_iff] at hl
    obtain ⟨a, ha, ho⟩ := hl
    have hd := Operated.eq_done (h.unary_alike op a none e.origin?) ho
    have last : Reaches host 0 (operated h fs depth ⟨s.chunk, l⟩ (h.unary op ⟨a, e.origin?⟩))
        ⟨h, .give [d], fs, depth⟩ := by
      rw [hd, operated]
      exact .refl _
    exact .step rfl ((look_reaches h s e a _ depth ha).trans (.step rfl last))
  | .binary l op e₁ e₂ =>
    simp only [Heap.look, Option.bind_eq_bind, Option.bind_eq_some_iff] at hl
    obtain ⟨a, ha, b, hb, ho⟩ := hl
    have hd := Operated.eq_done (h.binary_alike op a b none e₁.origin? none e₂.origin?) ho
    have last : Reaches host 0 (operated h fs depth ⟨s.chunk, l⟩
        (h.binary op ⟨a, e₁.origin?⟩ ⟨b, e₂.origin?⟩)) ⟨h, .give [d], fs, depth⟩ := by
      rw [hd, operated]
      exact .refl _
    refine .step rfl ?_
    rw [Nat.add_assoc]
    exact (look_reaches h s e₁ a _ depth ha).trans (.step rfl
      ((look_reaches h s e₂ b _ depth hb).trans (.step rfl last)))
  | .varargs | .lambda _ | .call _ _ _ | .method _ _ _ _ _ | .concat _ _ | .both _ _ | .either _ _
  | .table _ => simp [Heap.look] at hl

/-! ## Runs -/

/-- A machine that has stopped stays as it is. -/
theorem step_of_outcome {m : Machine} (h : m.outcome?.isSome) : m.step host = m := by
  obtain ⟨heap, control, frames, depth⟩ := m
  cases frames with
  | nil => cases control <;> simp_all [outcome?, step]
  | cons => cases control <;> simp [outcome?] at h

theorem Reaches.iterate {n : Nat} {m m₁ : Machine} (h : Reaches host n m m₁) :
    (Machine.step host)^[n] m = m₁ := by
  induction h with
  | refl => rfl
  | step _ _ ih => exact ih

/-- A state that is passed on the way to the end. -/
theorem Reaches.passed {n k : Nat} {m m₁ : Machine} (h : Reaches host k m m₁)
    (hn : ((Machine.step host)^[n] m).outcome?.isSome) :
    k ≤ n ∧ (Machine.step host)^[n] m = (Machine.step host)^[n - k] m₁ := by
  induction h generalizing n with
  | refl => exact ⟨Nat.zero_le n, rfl⟩
  | step hm _ ih =>
    cases n with
    | zero => simp [hm] at hn
    | succ n =>
      obtain ⟨hle, he⟩ := ih hn
      exact ⟨by omega, by rw [Nat.add_sub_add_right]; exact he⟩

/-- What the run of a program must keep to: an expression with another one in its place has the
value of that one, and no error is caught. -/
structure Keeps (swaps : Expr → Expr → Prop) (m : Machine) : Prop where
  found : ∀ s e e', m.control = .eval s e → swaps e e' →
    ∃ d, m.heap.look s e = some d ∧ m.heap.look s e' = some d
  uncaught : ∀ d f fs, m.control = .raise d → m.frames = f :: fs → ¬ Catches f

/-- A whole run: where one program stops, the other one stops too, after at most so many times as
many steps as any expression that is put in the place of another takes. -/
theorem run_folds (hs : ∀ e e', swaps e e' → e.isCall = false ∧ e'.isCall = false) {most : Nat}
    (hmost : ∀ e e', swaps e e' → e'.cost ≤ most) (h1 : 1 ≤ most) (n : Nat) {m m' : Machine}
    (hm : MachineFolds swaps m m') (hk : ∀ k, Keeps swaps ((step host)^[k] m))
    (hn : ((step host)^[n] m).outcome?.isSome) :
    ∃ n' ≤ most * n, MachineFolds swaps ((step host)^[n] m) ((step host)^[n'] m') := by
  induction n using Nat.strongRecOn generalizing m m' with
  | _ n ih =>
  cases ho : m.outcome? with
  | some r =>
    have hfix : (step host)^[n] m = m := Function.iterate_fixed (step_of_outcome (by simp [ho])) n
    exact ⟨0, Nat.zero_le _, by rwa [hfix]⟩
  | none =>
    -- Where an expression is replaced, both machines look up one value; else they step together.
    by_cases hsw : ∃ s e e', m.control = .eval s e ∧ m'.control = .eval s e' ∧ swaps e e'
    · obtain ⟨s, e, e', hc, hc', hse⟩ := hsw
      obtain ⟨h, control, fs, depth⟩ := m
      obtain ⟨h', control', fs', depth'⟩ := m'
      obtain ⟨hh, -, hf, rfl : depth = depth'⟩ := hm
      obtain rfl : control = .eval s e := hc
      obtain rfl : control' = .eval s e' := hc'
      have hh : HeapFolds swaps h h' := hh
      obtain ⟨d, hd, hd'⟩ : ∃ d, h.look s e = some d ∧ h.look s e' = some d :=
        (hk 0).found s e e' rfl hse
      rw [hh.look] at hd'
      have hr : Reaches host e.cost ⟨h, .eval s e, fs, depth⟩ ⟨h, .give [d], fs, depth⟩ :=
        look_reaches h s e d fs depth hd
      have hr' : Reaches host e'.cost ⟨h', .eval s e', fs', depth⟩ ⟨h', .give [d], fs', depth⟩ :=
        look_reaches h' s e' d fs' depth hd'
      obtain ⟨hle, hend⟩ := hr.passed hn
      have hpos := e.cost_pos
      have hmid : MachineFolds swaps ⟨h, .give [d], fs, depth⟩ ⟨h', .give [d], fs', depth⟩ :=
        ⟨hh, .give [d], hf, rfl⟩
      have hkeep : ∀ k, Keeps swaps ((step host)^[k] ⟨h, .give [d], fs, depth⟩) := fun k => by
        rw [← hr.iterate, ← Function.iterate_add_apply]
        exact hk _
      obtain ⟨n', hn', hf'⟩ := ih (n - e.cost) (by omega) hmid hkeep (by rwa [← hend])
      refine ⟨n' + e'.cost, ?_, ?_⟩
      · calc n' + e'.cost ≤ most * (n - e.cost) + most :=
              Nat.add_le_add hn' (hmost e e' hse)
          _ = most * (n - e.cost + 1) := (Nat.mul_succ _ _).symm
          _ ≤ most * n := Nat.mul_le_mul_left most (by omega)
      · rw [hend, Function.iterate_add_apply, hr'.iterate]
        exact hf'
    · have h1n : 0 < n := by
        rcases n with _ | n
        · simp [ho] at hn
        · omega
      obtain ⟨n, rfl⟩ : ∃ k, n = k + 1 := ⟨n - 1, by omega⟩
      have hstep : MachineFolds swaps (m.step host) (m'.step host) := by
        refine step_folds hs host hm (fun s e e' hc hc' => ?_) (hk 0).uncaught
        have hcf := hm.control
        rw [hc, hc'] at hcf
        cases hcf with | eval s he =>
        cases he with
        | swap hse => exact absurd ⟨s, e, e', hc, hc', hse⟩ hsw
        | node hn => exact hn
      obtain ⟨n', hle, hf⟩ := ih n (by omega) hstep (fun k => hk (k + 1)) hn
      exact ⟨n' + 1, by rw [Nat.mul_succ]; omega, hf⟩

end Machine

end EnvManifest.Script
