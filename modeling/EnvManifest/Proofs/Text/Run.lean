import EnvManifest.Text.Blank
import EnvManifest.Text.Hex

/-!
# Runs of characters

A run takes the characters of one kind, and ends where a character of another kind comes.
-/

namespace EnvManifest.Text

/-- Does a run of such characters end before this text? -/
def stops (p : Char → Bool) (rest : List Char) : Prop := ∀ c, rest.head? = some c → p c = false

theorem stops_nil (p : Char → Bool) : stops p [] := by
  intro c hc
  exact absurd hc (by simp)

theorem stops_cons {p : Char → Bool} {c : Char} (h : p c = false) (cs : List Char) :
    stops p (c :: cs) := by
  intro d hd
  obtain rfl := Option.some.inj hd
  exact h

theorem takeWhile_run {p : Char → Bool} {run rest : List Char} (hrun : ∀ c ∈ run, p c)
    (hrest : stops p rest) : (run ++ rest).takeWhile p = run := by
  induction run with
  | nil =>
    cases rest with
    | nil => rfl
    | cons c cs => rw [List.nil_append, List.takeWhile_cons_of_neg (by simp [hrest c rfl])]
  | cons c run ih =>
    rw [List.cons_append, List.takeWhile_cons_of_pos (hrun c (List.mem_cons_self ..)),
      ih fun d hd => hrun d (List.mem_cons_of_mem c hd)]

theorem dropWhile_run {p : Char → Bool} {run rest : List Char} (hrun : ∀ c ∈ run, p c)
    (hrest : stops p rest) : (run ++ rest).dropWhile p = rest := by
  have h := List.takeWhile_append_dropWhile (p := p) (l := run ++ rest)
  rw [takeWhile_run hrun hrest] at h
  exact List.append_cancel_left h

theorem stops_dropWhile (p : Char → Bool) (cs : List Char) : stops p (cs.dropWhile p) := by
  have h := List.head?_dropWhile_not p cs
  intro c hc
  rw [hc] at h
  simpa using h

theorem drop_takeWhile {α : Type} (p : α → Bool) (xs : List α) :
    xs.drop (xs.takeWhile p).length = xs.dropWhile p := by
  have h := List.takeWhile_append_dropWhile (p := p) (l := xs)
  calc xs.drop (xs.takeWhile p).length
      = (xs.takeWhile p ++ xs.dropWhile p).drop (xs.takeWhile p).length := by rw [h]
    _ = xs.dropWhile p := List.drop_left

theorem toNat_of_isLetter {c : Char} (h : isLetter c) :
    (97 ≤ c.toNat ∧ c.toNat ≤ 122) ∨ (65 ≤ c.toNat ∧ c.toNat ≤ 90) := by
  simpa [isLetter, Char.le_def, UInt32.le_iff_toNat_le] using h

theorem toNat_of_isDigit {c : Char} (h : isDigit c) : 48 ≤ c.toNat ∧ c.toNat ≤ 57 := by
  simpa [isDigit, Char.le_def, UInt32.le_iff_toNat_le] using h

/-- Visible ASCII characters are not blank. -/
theorem isBlank_of_visible {c : Char} (h : 0x21 ≤ c.toNat ∧ c.toNat ≤ 0x7E) : isBlank c = false := by
  simp only [isBlank, Bool.or_eq_false_iff, Bool.and_eq_false_iff, decide_eq_false_iff_not,
    beq_eq_false_iff_ne]
  omega

/-- A character that is no digit differs from one that is. -/
theorem ne_of_isDigit {c d : Char} (h : isDigit c) (hd : isDigit d = false) : c ≠ d := by
  rintro rfl
  rw [h] at hd
  exact absurd hd (by decide)

end EnvManifest.Text
