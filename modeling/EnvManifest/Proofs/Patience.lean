import EnvManifest.Clock

/-!
# Patience in order

One patience is at most another one if it ends first. A question that is answered with no is
answered with no for all that have more patience.
-/

namespace EnvManifest

/-! ## The order of patience -/

instance : LE Patience where
  le p q :=
    match p.left, q.left with
    | _, none => True
    | none, some _ => False
    | some m, some n => m ≤ n

namespace Patience

theorem le_refl (p : Patience) : p ≤ p := by
  rcases p with ⟨_ | n⟩
  · trivial
  · exact Nat.le_refl n

theorem le_trans {p q r : Patience} (h : p ≤ q) (h' : q ≤ r) : p ≤ r := by
  rcases p with ⟨_ | k⟩ <;> rcases q with ⟨_ | m⟩ <;> rcases r with ⟨_ | n⟩ <;> try trivial
  exact Nat.le_trans (m := m) h h'

theorem le_endless (p : Patience) : p ≤ endless := by
  rcases p with ⟨_ | n⟩ <;> trivial

theorem eq_endless {p : Patience} (h : endless ≤ p) : p = endless := by
  rcases p with ⟨_ | n⟩
  · rfl
  · exact h.elim

theorem eq_exhausted {p : Patience} (h : p ≤ exhausted) : p = exhausted := by
  rcases p with ⟨_ | n⟩
  · exact h.elim
  · exact congrArg (fun n => Patience.mk (some n)) (Nat.le_zero.mp h)

/-! ## The patience that ends first -/

theorem least_le_left (p q : Patience) : p.least q ≤ p := by
  rcases p with ⟨_ | m⟩ <;> rcases q with ⟨_ | n⟩ <;> try trivial
  · exact Patience.le_refl _
  · exact Nat.min_le_left m n

theorem least_le_right (p q : Patience) : p.least q ≤ q := by
  rcases p with ⟨_ | m⟩ <;> rcases q with ⟨_ | n⟩ <;> try trivial
  · exact Patience.le_refl _
  · exact Nat.min_le_right m n

theorem least_le_least {p p' q q' : Patience} (hp : p ≤ p') (hq : q ≤ q') :
    p.least q ≤ p'.least q' := by
  rcases p with ⟨_ | m⟩ <;> rcases p' with ⟨_ | m'⟩ <;> rcases q with ⟨_ | n⟩ <;>
    rcases q' with ⟨_ | n'⟩ <;> try trivial
  · change min m n ≤ n'
    exact Nat.le_trans (Nat.min_le_right m n) hq
  · change min m n ≤ m'
    exact Nat.le_trans (Nat.min_le_left m n) hp
  · change min m n ≤ min m' n'
    exact Nat.le_min.mpr ⟨Nat.le_trans (Nat.min_le_left m n) hp, Nat.le_trans (Nat.min_le_right m n) hq⟩

/-! ## Questions -/

theorem ask_exhausted : exhausted.ask = (true, exhausted) := rfl

theorem ask_endless : endless.ask = (false, endless) := rfl

theorem ask_le (p : Patience) : p.ask.2 ≤ p := by
  rcases p with ⟨_ | _ | n⟩
  · trivial
  · exact Nat.le_refl 0
  · exact Nat.le_succ n

theorem ask_yes {p : Patience} (h : p.ask.1 = true) : p = exhausted := by
  rcases p with ⟨_ | _ | n⟩
  · cases h
  · rfl
  · cases h

theorem ask_no {p q : Patience} (h : p.ask.1 = false) (hq : p ≤ q) :
    q.ask.1 = false ∧ p.ask.2 ≤ q.ask.2 := by
  rcases p with ⟨_ | _ | m⟩
  · rw [show q = endless from eq_endless hq]
    exact ⟨rfl, trivial⟩
  · cases h
  · rcases q with ⟨_ | _ | n⟩
    · exact ⟨rfl, trivial⟩
    · exact absurd hq (Nat.not_succ_le_zero m)
    · exact ⟨rfl, Nat.le_of_succ_le_succ hq⟩

/-! ## Patience with a limit -/

/-- The patience that is left to a task which is told to stop, less than that of a task of a chunk
with more patience. -/
theorem after_since_le {limit : Nat} {p q rest rest' : Patience} (hq : p ≤ q) (hrest : rest ≤ rest')
    (hp : rest ≤ p.least ⟨some limit⟩) :
    p.after ((p.least ⟨some limit⟩).since rest) ≤ q.after ((q.least ⟨some limit⟩).since rest') := by
  rcases q with ⟨_ | n⟩
  · exact le_endless _
  rcases p with ⟨_ | m⟩
  · exact hq.elim
  rcases rest with ⟨_ | k⟩
  · exact hp.elim
  change m ≤ n at hq
  change k ≤ min m limit at hp
  rcases rest' with ⟨_ | k'⟩
  · change m - (min m limit - k) ≤ n - 0
    omega
  · change k ≤ k' at hrest
    change m - (min m limit - k) ≤ n - (min n limit - k')
    omega

theorem least_of_early {limit : Nat} {p : Patience} (h : ¬ (⟨some limit⟩ : Patience) ≤ p) :
    p.least ⟨some limit⟩ = p := by
  rcases p with ⟨_ | m⟩
  · exact (h trivial).elim
  · have early : m ≤ limit := Nat.le_of_lt (Nat.lt_of_not_le h)
    exact congrArg (fun n => Patience.mk (some n)) (Nat.min_eq_left early)

theorem least_of_late {limit : Nat} {p : Patience} (h : (⟨some limit⟩ : Patience) ≤ p) :
    p.least ⟨some limit⟩ = ⟨some limit⟩ := by
  rcases p with ⟨_ | m⟩
  · rfl
  · exact congrArg (fun n => Patience.mk (some n)) (Nat.min_eq_right h)

theorem le_least {p q r : Patience} (hq : p ≤ q) (hr : p ≤ r) : p ≤ q.least r := by
  rcases q with ⟨_ | m⟩
  · exact hr
  · rcases r with ⟨_ | n⟩
    · exact hq
    · rcases p with ⟨_ | k⟩
      · exact hq.elim
      · exact Nat.le_min.mpr ⟨hq, hr⟩

end Patience

end EnvManifest
