import Mathlib
import EnvManifest.Proofs.Manifest.Position
import EnvManifest.Proofs.Manifest.Tiling

/-!
# Lines and columns as coordinates

A line and a column name one place between the characters of a text. Later places have greater
coordinates, and an offset inside a character has those of the place before it.
-/

namespace EnvManifest

open Text

/-! ## One character further -/

theorem lineColOf_concat (before : List Char) (c : Char) :
    lineColOf (before ++ [c]) =
      if c = '\n' then ((lineColOf before).1 + 1, 1)
      else ((lineColOf before).1, (lineColOf before).2 + 1) := by
  unfold lineColOf
  by_cases hc : c = '\n'
  · simp [hc]
  · simp [hc]

theorem lineColOf_lt_concat (before : List Char) (c : Char) :
    toLex (lineColOf before) < toLex (lineColOf (before ++ [c])) := by
  rw [lineColOf_concat, Prod.Lex.toLex_lt_toLex]
  split
  · exact .inl (Nat.lt_succ_self _)
  · exact .inr ⟨rfl, Nat.lt_succ_self _⟩

theorem lineColOf_lt_append (before : List Char) {more : List Char} (h : more ≠ []) :
    toLex (lineColOf before) < toLex (lineColOf (before ++ more)) := by
  induction more using List.reverseRecOn with
  | nil => exact absurd rfl h
  | append_singleton more c ih =>
    rw [← List.append_assoc]
    by_cases hm : more = []
    · rw [hm, List.append_nil]
      exact lineColOf_lt_concat before c
    · exact (ih hm).trans (lineColOf_lt_concat _ c)

/-! ## Boundaries -/

theorem lineCol_boundary (front back : List Char) :
    lineCol (front ++ back) (byteLength front) = lineColOf front := by
  rw [lineCol, charsBefore_append]

/-- Of two places in a text, one comes first. -/
theorem append_of_lt {front back front' back' : List Char} (h : front ++ back = front' ++ back')
    (hlt : byteLength front < byteLength front') : ∃ more, more ≠ [] ∧ front' = front ++ more := by
  obtain ⟨more, rfl, -⟩ | ⟨more, rfl, -⟩ := List.append_eq_append_iff.mp h
  · refine ⟨more, ?_, rfl⟩
    rintro rfl
    simp at hlt
  · simp only [byteLength_append] at hlt
    omega

theorem lineCol_strictMonoOn (text : List Char) :
    StrictMonoOn (fun n => toLex (lineCol text n)) {n | Boundary text n} := by
  rintro m ⟨front, back, rfl, rfl⟩ n ⟨front', back', same, rfl⟩ hlt
  obtain ⟨more, nonempty, rfl⟩ := append_of_lt same hlt
  dsimp only
  rw [lineCol_boundary, same, lineCol_boundary]
  exact lineColOf_lt_append front nonempty

/-! ## From coordinates to offsets -/

/-- What stands before the end of a number of lines, with their line feeds. -/
def throughLines : Nat → List Char → List Char
  | 0, _ => []
  | _ + 1, [] => []
  | n + 1, c :: cs => c :: if c = '\n' then throughLines n cs else throughLines (n + 1) cs

/-- The byte offset of a line and a column: so many line feeds before it, and after the last of
them so many characters. -/
def offsetAt (text : List Char) (place : Nat × Nat) : Nat :=
  let lines := throughLines (place.1 - 1) text
  byteLength lines + byteLength ((text.drop lines.length).take (place.2 - 1))

theorem throughLines_line {n : Nat} {line : List Char} (within : '\n' ∉ line) (rest : List Char) :
    throughLines (n + 1) (line ++ '\n' :: rest) = line ++ '\n' :: throughLines n rest := by
  induction line with
  | nil => rfl
  | cons c line ih =>
    obtain ⟨hc, within⟩ := List.ne_and_not_mem_of_not_mem_cons within
    rw [List.cons_append, throughLines, if_neg (Ne.symm hc), ih within]
    rfl

theorem StartsLine.throughLines {n : Nat} {lines : List Char} (h : StartsLine (n + 1) lines)
    (rest : List Char) : EnvManifest.throughLines n (lines ++ rest) = lines := by
  induction n generalizing lines with
  | zero => rw [startsLine_one.mp h, EnvManifest.throughLines]
  | succ n ih =>
    obtain ⟨front, more, rfl, fresh, starts⟩ := startsLine_succ.mp h
    rw [List.append_assoc, List.cons_append, throughLines_line fresh, ih starts]

theorem offsetAt_lineCol {text : List Char} {n : Nat} (h : Boundary text n) :
    offsetAt text (lineCol text n) = n := by
  obtain ⟨front, back, rfl, rfl⟩ := h
  rw [lineCol_boundary]
  obtain ⟨lines, column, hfront, starts, within⟩ := exists_line_start front
  rw [hfront, lineColOf_line (hfront ▸ starts) within]
  have before := starts.throughLines (column ++ back)
  simp only [offsetAt, List.append_assoc, Nat.add_sub_cancel]
  rw [← hfront, before, List.drop_left, List.take_left, hfront, byteLength_append]

/-! ## Offsets inside characters -/

/-- What stands before an offset is as much of the text as fits. -/
theorem charsBefore_floor (offset : Nat) (text : List Char) :
    ∃ back, text = charsBefore offset text ++ back ∧
      byteLength (charsBefore offset text) ≤ offset ∧
      ∀ c ∈ back.head?, offset < byteLength (charsBefore offset text) + c.utf8Size := by
  induction text generalizing offset with
  | nil => exact ⟨[], rfl, Nat.zero_le _, nofun⟩
  | cons c cs ih =>
    rw [charsBefore]
    split
    · rename_i fits
      obtain ⟨back, text, bound, next⟩ := ih (offset - c.utf8Size)
      refine ⟨back, congrArg (c :: ·) text, ?_, fun d hd => ?_⟩
      · rw [byteLength_cons]
        omega
      · have := next d hd
        rw [byteLength_cons]
        omega
    · rename_i inside
      refine ⟨c :: cs, rfl, Nat.zero_le _, fun d hd => ?_⟩
      obtain rfl := Option.some.inj hd
      simpa using inside

/-- An offset has the coordinates of the last boundary that is not after it. -/
theorem lineCol_floor (text : List Char) (offset : Nat) :
    ∃ n, IsGreatest {n | Boundary text n ∧ n ≤ offset} n ∧ lineCol text offset = lineCol text n := by
  unfold lineCol
  obtain ⟨back, split, bound, next⟩ := charsBefore_floor offset text
  generalize charsBefore offset text = front at split bound next ⊢
  subst split
  refine ⟨byteLength front, ⟨⟨⟨front, back, rfl, rfl⟩, bound⟩, ?_⟩, by rw [charsBefore_append]⟩
  rintro n ⟨⟨front', back', same, rfl⟩, hn⟩
  by_contra later
  obtain ⟨more, nonempty, rfl⟩ := append_of_lt same (Nat.lt_of_not_le later)
  obtain ⟨c, more, rfl⟩ := List.exists_cons_of_ne_nil nonempty
  rw [List.append_assoc] at same
  obtain rfl := List.append_cancel_left same
  have := next c rfl
  simp only [byteLength_append, byteLength_cons] at hn
  omega

/-! ## Coordinates -/

/-- **Lines and columns are coordinates.** They grow along the boundaries of a text, they say where
a boundary is, and every other offset has those of the last boundary before it, which is the end of
the text where the offset lies past it. -/
theorem lineCol_coordinates (text : List Char) :
    StrictMonoOn (fun n => toLex (lineCol text n)) {n | Boundary text n} ∧
      (∀ n, Boundary text n → offsetAt text (lineCol text n) = n) ∧
      ∀ offset, ∃ n, IsGreatest {n | Boundary text n ∧ n ≤ offset} n ∧
        lineCol text offset = lineCol text n ∧ (byteLength text ≤ offset → n = byteLength text) := by
  refine ⟨lineCol_strictMonoOn text, fun n => offsetAt_lineCol, fun offset => ?_⟩
  obtain ⟨n, greatest, same⟩ := lineCol_floor text offset
  refine ⟨n, greatest, same, fun past => ?_⟩
  obtain ⟨⟨front, back, rfl, rfl⟩, -⟩ := greatest.1
  have ending := greatest.2 ⟨⟨front ++ back, [], by simp, rfl⟩, past⟩
  rw [byteLength_append] at ending ⊢
  omega

/-- Two lines, the second of them with a character of two bytes. -/
def accentedLines : List Char := "ab\né\tf".toList

theorem accentedLines_coordinates :
    toLex (lineCol accentedLines 3) < toLex (lineCol accentedLines 5) ∧
      lineCol accentedLines 5 = (2, 2) ∧ offsetAt accentedLines (2, 2) = 5 ∧
      lineCol accentedLines 9 = lineCol accentedLines 7 := by
  obtain ⟨grows, returns, floors⟩ := lineCol_coordinates accentedLines
  have start : Boundary accentedLines 3 := ⟨['a', 'b', '\n'], ['é', '\t', 'f'], by decide, by decide⟩
  have next : Boundary accentedLines 5 := ⟨['a', 'b', '\n', 'é'], ['\t', 'f'], by decide, by decide⟩
  have place : lineCol accentedLines 5 = (2, 2) := by decide
  obtain ⟨n, -, same, past⟩ := floors 9
  have ending : n = 7 := past (by decide)
  exact ⟨grows start next (by decide), place, place ▸ returns 5 next, ending ▸ same⟩

end EnvManifest
