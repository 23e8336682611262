import EnvManifest.Text.Split
import Mathlib.Data.List.Infix

/-!
# Parts of a text

The parts of a text hold no separator, and a separator between two texts is one between their
parts. A separator of more than one character that overlaps itself can start in front of the place
where it was put, so that parts that are joined with it are not found again.
-/

namespace EnvManifest.Text

/-! ## At a character -/

section

variable {separator : Char}

theorem splitChar_cons {c : Char} (hc : c ≠ separator) (cs : List Char) :
    ∃ part parts, splitChar separator cs = part :: parts ∧
      splitChar separator (c :: cs) = (c :: part) :: parts := by
  rw [splitChar, if_neg hc]
  cases hcs : splitChar separator cs with
  | nil =>
    cases cs with
    | nil => cases hcs
    | cons d ds =>
      unfold splitChar at hcs
      repeat' split at hcs
      all_goals cases hcs
  | cons part parts => exact ⟨part, parts, rfl, rfl⟩

theorem splitChar_of_not_mem {cs : List Char} (h : separator ∉ cs) : splitChar separator cs = [cs] := by
  induction cs with
  | nil => rfl
  | cons c cs ih =>
    obtain ⟨ne, rest⟩ := List.ne_and_not_mem_of_not_mem_cons h
    rw [splitChar, if_neg ne.symm, ih rest]

theorem splitChar_append (cs ds : List Char) :
    splitChar separator (cs ++ separator :: ds) = splitChar separator cs ++ splitChar separator ds := by
  induction cs with
  | nil => simp [splitChar]
  | cons c cs ih =>
    by_cases hc : c = separator
    · rw [hc, List.cons_append, splitChar, if_pos rfl, splitChar, if_pos rfl, ih, List.cons_append]
    · obtain ⟨part, parts, split, longer⟩ := splitChar_cons hc cs
      rw [longer, List.cons_append, splitChar, if_neg hc, ih, split]
      rfl

theorem not_mem_splitChar (cs : List Char) : ∀ part ∈ splitChar separator cs, separator ∉ part := by
  induction cs with
  | nil => simp [splitChar]
  | cons c cs ih =>
    by_cases hc : c = separator
    · rw [splitChar, if_pos hc]
      exact List.forall_mem_cons.mpr ⟨List.not_mem_nil, ih⟩
    · obtain ⟨first, parts, split, longer⟩ := splitChar_cons hc cs
      rw [split, List.forall_mem_cons] at ih
      rw [longer, List.forall_mem_cons]
      exact ⟨List.not_mem_cons_of_ne_of_not_mem (Ne.symm hc) ih.1, ih.2⟩

/-! ## Splitting at a text of one character -/

theorem splitChar_eq_splitOn (cs : List Char) : splitChar separator cs = cs.splitOn separator := by
  induction cs with
  | nil => rfl
  | cons c cs ih =>
    rw [splitChar, List.splitOn_cons_eq_if_modifyHead, ih]
    simp only [beq_iff_eq]
    split
    · rfl
    · cases parts : cs.splitOn separator with
      | nil => exact absurd parts (List.splitOn_ne_nil _ _)
      | cons => rfl

theorem splitChar_ne_nil (separator : Char) (cs : List Char) : splitChar separator cs ≠ [] := by
  rw [splitChar_eq_splitOn]
  exact List.splitOn_ne_nil _ _

/-- The part that has been begun stands at the start of the first part. -/
theorem go_singleton (part cs : List Char) : splitOn.go [separator] 0 part cs =
    (cs.splitOn separator).modifyHead (part.reverse ++ ·) := by
  induction cs generalizing part with
  | nil => simp [splitOn.go]
  | cons c cs ih =>
    rw [splitOn.go, List.splitOn_cons_eq_if_modifyHead]
    by_cases same : c = separator
    · subst same
      have rest : splitOn.go [c] 0 [] cs = cs.splitOn c := by
        rw [ih]
        exact congrFun List.modifyHead_id _
      simp [rest]
    · simp [ih, same, Ne.symm same]
      rfl

theorem splitOn_singleton (cs : List Char) : splitOn [separator] cs = cs.splitOn separator := by
  rw [splitOn, if_neg (by simp), go_singleton]
  exact congrFun List.modifyHead_id _

end

section

variable {separator : List Char}

/-! ## The first separator -/

/-- No separator starts in a text, not even one that ends in a separator behind it. -/
def Clear (separator text : List Char) : Prop :=
  ∀ rest, rest <:+ text → rest ≠ [] → ¬ separator <+: rest ++ separator

theorem clear_nil : Clear separator [] := fun _ suffix ne => absurd (List.suffix_nil.mp suffix) ne

theorem clear_cons {c : Char} {cs : List Char} :
    Clear separator (c :: cs) ↔ ¬ separator <+: c :: (cs ++ separator) ∧ Clear separator cs := by
  constructor
  · intro clear
    exact ⟨clear _ (List.suffix_refl _) (List.cons_ne_nil c cs),
      fun rest suffix => clear rest (suffix.trans (List.suffix_cons c cs))⟩
  · rintro ⟨first, later⟩ rest suffix ne
    obtain rfl | suffix := List.suffix_cons_iff.mp suffix
    · exact first
    · exact later rest suffix ne

/-- A text in which no separator starts holds none. -/
theorem Clear.absent (h : separator ≠ []) {text : List Char} (clear : Clear separator text) :
    ¬ separator <:+: text := by
  rintro ⟨front, back, rfl⟩
  refine clear (separator ++ back) ?_ (by simp [h]) ?_
  · rw [List.append_assoc]
    exact List.suffix_append front _
  · rw [List.append_assoc]
    exact List.prefix_append separator _

/-- What follows the separator behind a text does not matter for what starts in the text. -/
theorem Clear.not_prefix {c : Char} {cs : List Char} (clear : Clear separator (c :: cs))
    (more : List Char) : ¬ separator <+: c :: (cs ++ (separator ++ more)) := by
  intro starts
  refine (clear_cons.mp clear).1 (List.prefix_of_prefix_length_le starts ?_ ?_)
  · exact ⟨more, by simp⟩
  · simp only [List.length_cons, List.length_append]
    omega

/-- A text that holds a separator holds a first one. -/
theorem exists_first (h : separator ≠ []) {text : List Char} (held : separator <:+: text) :
    ∃ front more, text = front ++ (separator ++ more) ∧ Clear separator front := by
  induction text with
  | nil => exact absurd (List.infix_nil.mp held) h
  | cons c text ih =>
    by_cases starts : separator <+: c :: text
    · obtain ⟨more, rest⟩ := starts
      exact ⟨[], more, rest.symm, clear_nil⟩
    · obtain ⟨front, more, rfl, clear⟩ :=
        ih ((List.infix_cons_iff.mp held).resolve_left starts)
      refine ⟨c :: front, more, rfl, clear_cons.mpr ⟨fun early => starts ?_, clear⟩⟩
      exact early.trans ⟨more, by simp⟩

/-! ## Parts -/

theorem splitOn_nil_eq (h : separator = []) (text : List Char) :
    splitOn separator text = text.map ([·]) := by
  rw [splitOn, if_pos (List.isEmpty_iff.mpr h)]

theorem splitOn_eq_go (h : separator ≠ []) (text : List Char) :
    splitOn separator text = splitOn.go separator 0 [] text := by
  rw [splitOn, if_neg (by simpa using h)]

theorem go_skip (part found more : List Char) :
    splitOn.go separator found.length part (found ++ more) = splitOn.go separator 0 part more := by
  induction found with
  | nil => rfl
  | cons c found ih =>
    rw [List.cons_append, splitOn.go, if_pos (by simp), List.length_cons, Nat.add_sub_cancel, ih]

theorem go_absent {text : List Char} (absent : ¬ separator <:+: text) (part : List Char) :
    splitOn.go separator 0 part text = [part.reverse ++ text] := by
  induction text generalizing part with
  | nil => rw [splitOn.go, List.append_nil]
  | cons c text ih =>
    rw [List.infix_cons_iff, not_or] at absent
    rw [splitOn.go, if_neg (by simp), if_neg (by simpa using absent.1), ih absent.2]
    simp

theorem go_first (h : separator ≠ []) {front : List Char} (clear : Clear separator front)
    (part more : List Char) : splitOn.go separator 0 part (front ++ (separator ++ more)) =
      (part.reverse ++ front) :: splitOn.go separator 0 [] more := by
  induction front generalizing part with
  | nil =>
    obtain ⟨s, found, rfl⟩ := List.exists_cons_of_ne_nil h
    rw [List.nil_append, List.cons_append, splitOn.go, if_neg (by simp), if_pos (by simp),
      List.length_cons, Nat.add_sub_cancel, go_skip, List.append_nil]
  | cons c front ih =>
    rw [List.cons_append, splitOn.go, if_neg (by simp),
      if_neg (by simpa using clear.not_prefix more), ih (clear_cons.mp clear).2]
    simp

/-- A text without separators is its only part. -/
theorem splitOn_absent (h : separator ≠ []) {text : List Char} (absent : ¬ separator <:+: text) :
    splitOn separator text = [text] := by
  rw [splitOn_eq_go h, go_absent absent]
  rfl

/-- The text in front of the first separator is the first part. -/
theorem splitOn_first (h : separator ≠ []) {front : List Char} (clear : Clear separator front)
    (more : List Char) :
    splitOn separator (front ++ (separator ++ more)) = front :: splitOn separator more := by
  rw [splitOn_eq_go h, go_first h clear, splitOn_eq_go h]
  rfl

/-- What can be told of the parts of a text: they hold no separator, and none starts in a part that
has another one behind it. -/
structure Separable (separator : List Char) (parts : List (List Char)) : Prop where
  absent : ∀ part ∈ parts, ¬ separator <:+: part
  clear : parts.Pairwise fun part _ => Clear separator part

theorem Separable.sublist {parts kept : List (List Char)} (h : Separable separator parts)
    (sub : kept.Sublist parts) : Separable separator kept :=
  ⟨fun part mem => h.absent part (sub.subset mem), h.clear.sublist sub⟩

theorem separable_splitOn (h : separator ≠ []) (text : List Char) :
    Separable separator (splitOn separator text) := by
  induction length : text.length using Nat.strongRecOn generalizing text with
  | ind n ih =>
    subst length
    by_cases held : separator <:+: text
    · obtain ⟨front, more, rfl, clear⟩ := exists_first h held
      have shorter : more.length < (front ++ (separator ++ more)).length := by
        have := List.length_pos_iff.mpr h
        simp only [List.length_append]
        omega
      have later := ih _ shorter more rfl
      rw [splitOn_first h clear]
      exact ⟨List.forall_mem_cons.mpr ⟨clear.absent h, later.absent⟩,
        List.pairwise_cons.mpr ⟨fun _ _ => clear, later.clear⟩⟩
    · rw [splitOn_absent h held]
      exact ⟨List.forall_mem_singleton.mpr held, List.pairwise_singleton ..⟩

/-- Parts that are joined are found again. -/
theorem splitOn_intercalate_of_separable (h : separator ≠ []) {parts : List (List Char)}
    (ne : parts ≠ []) (sep : Separable separator parts) :
    splitOn separator (separator.intercalate parts) = parts := by
  induction parts with
  | nil => exact absurd rfl ne
  | cons part parts ih =>
    cases parts with
    | nil =>
      rw [List.intercalate_singleton]
      exact splitOn_absent h (sep.absent part (List.mem_cons_self ..))
    | cons next parts =>
      obtain ⟨clear, later⟩ := List.pairwise_cons.mp sep.clear
      rw [List.intercalate_cons_cons, List.append_assoc,
        splitOn_first h (clear next (List.mem_cons_self ..)),
        ih (List.cons_ne_nil next parts) (sep.sublist (List.sublist_cons_self ..))]

/-! ## Separators behind a text -/

/-- A separator behind a text is found there, whatever follows it. -/
def Ends (separator text : List Char) : Prop :=
  ∀ more, splitOn separator (text ++ (separator ++ more)) =
    splitOn separator text ++ splitOn separator more

theorem Clear.ends (h : separator ≠ []) {text : List Char} (clear : Clear separator text) :
    Ends separator text := by
  intro more
  rw [splitOn_first h clear, splitOn_absent h (clear.absent h), List.singleton_append]

/-- An end of the separator is also a start of it. -/
def Overlaps (separator : List Char) : Prop :=
  ∃ n < separator.length, 0 < n ∧ separator.drop n <+: separator

instance (separator : List Char) : Decidable (Overlaps separator) :=
  inferInstanceAs (Decidable (∃ n < separator.length, 0 < n ∧ separator.drop n <+: separator))

theorem not_overlaps_singleton (c : Char) : ¬ Overlaps [c] := by
  rintro ⟨n, small, pos, -⟩
  rw [List.length_singleton] at small
  omega

/-- A separator that does not overlap itself starts in no text that holds none. -/
theorem clear_of_absent (h : ¬ Overlaps separator) {text : List Char}
    (absent : ¬ separator <:+: text) : Clear separator text := by
  intro rest suffix ne starts
  by_cases long : separator.length ≤ rest.length
  · have held := List.prefix_of_prefix_length_le starts (List.prefix_append ..) long
    exact absent (held.isInfix.trans suffix.isInfix)
  · refine h ⟨rest.length, by omega, List.length_pos_iff.mpr ne, ?_⟩
    have later := starts.drop rest.length
    rwa [List.drop_left] at later

theorem ends_of_not_overlaps (h : ¬ Overlaps separator) (text : List Char) : Ends separator text := by
  by_cases empty : separator = []
  · intro more
    rw [splitOn_nil_eq empty, splitOn_nil_eq empty, splitOn_nil_eq empty, empty, List.nil_append,
      List.map_append]
  induction length : text.length using Nat.strongRecOn generalizing text with
  | ind n ih =>
    subst length
    by_cases held : separator <:+: text
    · obtain ⟨front, rest, rfl, clear⟩ := exists_first empty held
      have shorter : rest.length < (front ++ (separator ++ rest)).length := by
        have := List.length_pos_iff.mpr empty
        simp only [List.length_append]
        omega
      intro more
      rw [List.append_assoc, List.append_assoc, splitOn_first empty clear,
        splitOn_first empty clear, ih _ shorter rest rfl more, List.cons_append]
    · exact (clear_of_absent h held).ends empty

end

end EnvManifest.Text
