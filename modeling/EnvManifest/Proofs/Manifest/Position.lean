import Mathlib.Tactic.ByContra
import EnvManifest.Manifest.Position
import EnvManifest.Proofs.Text.Digits
import EnvManifest.Proofs.Text.Run
import EnvManifest.Proofs.Text.Split

/-!
# Lines and columns of a place

A place of a text is in one line: the number of the line, the column and the excerpt agree on it,
whatever ends the line.
-/

namespace EnvManifest

open Text

/-! ## Starts of lines -/

/-- What stands before the line with a number, from one. -/
structure StartsLine (n : Nat) (before : List Char) : Prop where
  count : before.count '\n' + 1 = n
  last : before ≠ [] → before.getLast? = some '\n'

theorem startsLine_one {before : List Char} : StartsLine 1 before ↔ before = [] := by
  constructor
  · rintro ⟨count, last⟩
    by_contra hb
    have mem := List.mem_of_getLast? (last hb)
    have pos := List.count_pos_iff.mpr mem
    omega
  · rintro rfl
    exact ⟨rfl, nofun⟩

theorem startsLine_succ {n : Nat} {before : List Char} :
    StartsLine (n + 2) before ↔
      ∃ front more, before = front ++ '\n' :: more ∧ '\n' ∉ front ∧ StartsLine (n + 1) more := by
  constructor
  · rintro ⟨count, last⟩
    have mem : '\n' ∈ before := List.count_pos_iff.mp (by omega)
    obtain ⟨front, more, rfl, fresh⟩ := List.eq_append_cons_of_mem mem
    refine ⟨front, more, rfl, fresh, ?_, fun hm => ?_⟩
    · simp only [List.count_append, List.count_eq_zero.mpr fresh, List.count_cons_self] at count
      omega
    · obtain ⟨c, more, rfl⟩ := List.exists_cons_of_ne_nil hm
      simpa using last (by simp)
  · rintro ⟨front, more, rfl, fresh, count, last⟩
    refine ⟨?_, fun _ => ?_⟩
    · simp only [List.count_append, List.count_eq_zero.mpr fresh, List.count_cons_self]
      omega
    · cases more with
      | nil => simp
      | cons c more => simpa using last (by simp)

theorem exists_startsLine {n : Nat} {cs : List Char} (h : n ≤ cs.count '\n') :
    ∃ before after, cs = before ++ after ∧ StartsLine (n + 1) before := by
  induction n generalizing cs with
  | zero => exact ⟨[], cs, rfl, startsLine_one.mpr rfl⟩
  | succ n ih =>
    have mem : '\n' ∈ cs := List.count_pos_iff.mp (by omega)
    obtain ⟨front, more, rfl, fresh⟩ := List.eq_append_cons_of_mem mem
    simp only [List.count_append, List.count_eq_zero.mpr fresh, List.count_cons_self] at h
    have fewer : n ≤ more.count '\n' := by omega
    obtain ⟨before, after, rfl, starts⟩ := ih fewer
    exact ⟨front ++ '\n' :: before, after, by simp, startsLine_succ.mpr ⟨_, _, rfl, fresh, starts⟩⟩

/-- A place is in the line that starts last before it. -/
theorem exists_line_start (before : List Char) : ∃ lines front,
    before = lines ++ front ∧ StartsLine (before.count '\n' + 1) lines ∧ '\n' ∉ front := by
  obtain ⟨lines, front, rfl, starts⟩ := exists_startsLine (Nat.le_refl (before.count '\n'))
  have count := starts.count
  rw [List.count_append] at count
  exact ⟨lines, front, rfl, starts, List.count_eq_zero.mp (by omega)⟩

/-! ## Lines and columns -/

theorem charsBefore_append (front rest : List Char) :
    charsBefore (byteLength front) (front ++ rest) = front := by
  induction front with
  | nil =>
    cases rest with
    | nil => rfl
    | cons c rest =>
      have := c.utf8Size_pos
      exact if_neg (by simp; omega)
  | cons c front ih =>
    rw [List.cons_append, charsBefore, byteLength_cons, if_pos (Nat.le_add_right ..),
      Nat.add_sub_cancel_left, ih]

theorem lineColOf_line {n : Nat} {lines front : List Char} (starts : StartsLine n lines)
    (within : '\n' ∉ front) : lineColOf (lines ++ front) = (n, front.length + 1) := by
  have count : (lines ++ front).count '\n' + 1 = n := by
    rw [List.count_append, List.count_eq_zero.mpr within]
    exact starts.count
  have run : (front.reverse ++ lines.reverse).takeWhile (· != '\n') = front.reverse := by
    refine takeWhile_run (fun c hc => ?_) fun c hc => ?_
    · rw [bne_iff_ne]
      exact ne_of_mem_of_not_mem (List.mem_reverse.mp hc) within
    · have nonempty : lines ≠ [] := by
        rintro rfl
        cases hc
      rw [List.head?_reverse, starts.last nonempty] at hc
      obtain rfl := Option.some.inj hc
      rfl
  rw [lineColOf, List.reverse_append, run, count, List.length_reverse]

/-! ## Ends of lines -/

/-- What ends a line, and what follows. The last line of a text has no end of its own. -/
inductive EndsLine (line : List Char) : List Char → List Char → Prop
  | lineFeed (after : List Char) (plain : line.getLast? ≠ some '\r') : EndsLine line ['\n'] after
  | both (after : List Char) : EndsLine line ['\r', '\n'] after
  | last : EndsLine line [] []

/-- A line that is longer at its start ends in the same way. -/
theorem EndsLine.longer {line ending after : List Char} (h : EndsLine line ending after)
    (nonempty : line = [] → ending = []) (front : List Char) : EndsLine (front ++ line) ending after := by
  cases h with
  | lineFeed _ plain =>
    refine .lineFeed after ?_
    rwa [List.getLast?_append, Option.or_of_isSome]
    rw [List.getLast?_isSome]
    exact fun none => nomatch nonempty none
  | both => exact .both after
  | last => exact .last

theorem exists_endsLine (cs : List Char) : ∃ line ending after,
    cs = line ++ (ending ++ after) ∧ '\n' ∉ line ∧ EndsLine line ending after := by
  by_cases mem : '\n' ∈ cs
  · obtain ⟨line, after, rfl, fresh⟩ := List.eq_append_cons_of_mem mem
    by_cases carriage : line.getLast? = some '\r'
    · obtain ⟨line, rfl⟩ := List.getLast?_eq_some_iff.mp carriage
      exact ⟨line, ['\r', '\n'], after, by simp, fun h => fresh (by simp [h]), .both after⟩
    · exact ⟨line, ['\n'], after, rfl, fresh, .lineFeed after carriage⟩
  · exact ⟨cs, [], [], by simp, mem, .last⟩

theorem textLines_cons {c : Char} {cs : List Char} (hc : c ≠ '\n')
    (carriage : c = '\r' → cs.head? ≠ some '\n') :
    textLines (c :: cs) = (c :: (textLines cs).headD []) :: (textLines cs).tail := by
  rw [textLines]
  · cases textLines cs <;> rfl
  · exact hc
  · rintro rest rfl rfl
    exact carriage rfl rfl

/-- A line goes in front of what starts no line of its own. -/
theorem textLines_append {line rest : List Char} (within : '\n' ∉ line)
    (apart : line.getLast? = some '\r' → rest.head? ≠ some '\n')
    (closes : (textLines rest).headD [] = []) :
    (textLines (line ++ rest)).headD [] = line ∧
      (textLines (line ++ rest)).tail = (textLines rest).tail := by
  induction line with
  | nil => exact ⟨closes, rfl⟩
  | cons c line ih =>
    obtain ⟨hc, within⟩ := List.ne_and_not_mem_of_not_mem_cons within
    have inner : line.getLast? = some '\r' → rest.head? ≠ some '\n' := fun carriage =>
      apart (by rw [List.getLast?_cons, carriage]; rfl)
    obtain ⟨head, tail⟩ := ih within inner
    have single : c = '\r' → (line ++ rest).head? ≠ some '\n' := by
      rintro rfl
      cases line with
      | nil => exact apart rfl
      | cons d line => exact fun feed => within (by simp [Option.some.inj feed])
    rw [List.cons_append, textLines_cons (Ne.symm hc) single, head, tail]
    exact ⟨rfl, rfl⟩

theorem EndsLine.headD_textLines {line ending after : List Char} (h : EndsLine line ending after)
    (within : '\n' ∉ line) : (textLines (line ++ (ending ++ after))).headD [] = line := by
  cases h with
  | lineFeed _ plain => exact (textLines_append within (fun carriage => (plain carriage).elim) rfl).1
  | both => exact (textLines_append within (fun _ => by simp) rfl).1
  | last => exact (textLines_append within (fun _ => by simp) rfl).1

theorem textLines_tail {front : List Char} (fresh : '\n' ∉ front) (rest : List Char) :
    (textLines (front ++ '\n' :: rest)).tail = textLines rest := by
  by_cases carriage : front.getLast? = some '\r'
  · obtain ⟨front, rfl⟩ := List.getLast?_eq_some_iff.mp carriage
    rw [List.append_assoc]
    exact (textLines_append (fun h => fresh (by simp [h])) (fun _ => by simp) rfl).2
  · exact (textLines_append fresh (fun h => (carriage h).elim) rfl).2

/-- The line with a number is the first of what stands from its start on. -/
theorem StartsLine.getD_textLines {n : Nat} {lines : List Char} (h : StartsLine (n + 1) lines)
    (rest : List Char) : (textLines (lines ++ rest)).getD n [] = (textLines rest).headD [] := by
  induction n generalizing lines with
  | zero =>
    obtain rfl := startsLine_one.mp h
    rw [List.nil_append]
    cases textLines rest <;> rfl
  | succ n ih =>
    obtain ⟨front, more, rfl, fresh, starts⟩ := startsLine_succ.mp h
    rw [List.append_assoc, List.cons_append, ← ih starts, ← textLines_tail fresh (more ++ rest),
      List.getD_eq_getElem?_getD, List.getD_eq_getElem?_getD, List.getElem?_tail]

/-! ## Places in lines -/

/-- A place of a text in its line. -/
structure LineOf (text : List Char) (offset : Nat) where
  /-- The lines before. -/
  lines : List Char
  /-- The line up to the place. -/
  front : List Char
  /-- The line from the place on. -/
  back : List Char
  ending : List Char
  after : List Char
  text_eq : text = lines ++ (front ++ back ++ (ending ++ after))
  offset_eq : offset = byteLength (lines ++ front)
  starts : lines ≠ [] → lines.getLast? = some '\n'
  within : '\n' ∉ front ++ back
  ends : EndsLine (front ++ back) ending after

/-- Every place has its line, if it is not in the middle of what ends one. -/
theorem nonempty_lineOf (before rest : List Char) (h : ∀ c ∈ rest.head?, c ≠ '\n' ∧ c ≠ '\r') :
    Nonempty (LineOf (before ++ rest) (byteLength before)) := by
  obtain ⟨lines, front, rfl, starts, inFront⟩ := exists_line_start before
  obtain ⟨back, ending, after, rfl, inBack, ends⟩ := exists_endsLine rest
  have nonempty : back = [] → ending = [] := by
    rintro rfl
    cases ends with
    | lineFeed => exact absurd rfl (h '\n' rfl).1
    | both => exact absurd rfl (h '\r' rfl).2
    | last => rfl
  exact ⟨lines, front, back, ending, after, by simp, rfl, starts.last,
    fun mem => (List.mem_append.mp mem).elim inFront inBack, ends.longer nonempty front⟩

namespace LineOf

variable {text : List Char} {offset : Nat} (l : LineOf text offset)

def number : Nat := l.lines.count '\n' + 1

def column : Nat := l.front.length + 1

/-- The line without its end. -/
def line : List Char := l.front ++ l.back

/-- What stands under the line up to the place. -/
def indentation : List Char := l.front.map fun c => if c = '\t' then '\t' else ' '

theorem startsLine : StartsLine l.number l.lines := ⟨rfl, l.starts⟩

theorem lineCol_eq : lineCol text offset = (l.number, l.column) := by
  have split : text = (l.lines ++ l.front) ++ (l.back ++ (l.ending ++ l.after)) := by
    simpa using l.text_eq
  have place : charsBefore offset text = l.lines ++ l.front :=
    (congrArg₂ charsBefore l.offset_eq split).trans (charsBefore_append ..)
  rw [lineCol, place]
  exact lineColOf_line l.startsLine fun mem => l.within (List.mem_append_left _ mem)

theorem getD_textLines : (textLines text).getD (l.number - 1) [] = l.line :=
  calc (textLines text).getD (l.number - 1) []
      = (textLines (l.lines ++ (l.line ++ (l.ending ++ l.after)))).getD (l.number - 1) [] :=
        congrArg (fun cs => (textLines cs).getD (l.number - 1) []) l.text_eq
    _ = (textLines (l.line ++ (l.ending ++ l.after))).headD [] := l.startsLine.getD_textLines _
    _ = l.line := l.ends.headD_textLines l.within

theorem padding_eq : padding l.line l.column = l.indentation := by
  rw [padding, line, column, Nat.add_sub_cancel, List.take_left]
  rfl

/-- The room that the number takes in the lines around its own. -/
def gutter : String := String.ofList (List.replicate (toString l.number).length ' ')

/-- The lines of an excerpt: where the place is, an empty one, the line of the place, and the mark. -/
def excerptLines (name : String) : List (List Char) :=
  [(l.gutter ++ " --> " ++ name ++ ":" ++ toString l.number ++ ":" ++ toString l.column).toList,
    (l.gutter ++ " |").toList,
    (toString l.number ++ " | ").toList ++ l.line,
    (l.gutter ++ " | ").toList ++ l.indentation ++ ['^']]

end LineOf

theorem excerpt_eq {name source : String} {offset : Nat} (l : LineOf source.toList offset) :
    (excerpt name source offset).toList =
      (l.gutter ++ " --> " ++ name ++ ":" ++ toString l.number ++ ":" ++ toString l.column).toList ++
        '\n' :: ((l.gutter ++ " |").toList ++
        '\n' :: ((toString l.number ++ " | ").toList ++ l.line ++
        '\n' :: ((l.gutter ++ " | ").toList ++ l.indentation ++ ['^']))) := by
  unfold excerpt
  rw [l.lineCol_eq]
  dsimp only
  rw [l.getD_textLines, l.padding_eq]
  simp [LineOf.gutter]

/-- **The excerpt of a place has four lines**, if the name of the text has one. -/
theorem splitChar_excerpt {name source : String} {offset : Nat} (hname : '\n' ∉ name.toList)
    (l : LineOf source.toList offset) :
    splitChar '\n' (excerpt name source offset).toList = l.excerptLines name := by
  have number (n : Nat) : '\n' ∉ Nat.toDigits 10 n := fun mem =>
    absurd (isDigit_of_mem_toDigits mem) (by decide)
  have room : '\n' ∉ l.gutter.toList := by simp [LineOf.gutter]
  have under : '\n' ∉ l.indentation := by
    intro mem
    obtain ⟨c, -, hc⟩ := List.mem_map.mp mem
    split at hc <;> cases hc
  have shown : '\n' ∉ l.line := l.within
  rw [excerpt_eq, splitChar_append, splitChar_append, splitChar_append, splitChar_of_not_mem,
    splitChar_of_not_mem, splitChar_of_not_mem, splitChar_of_not_mem]
  · rfl
  all_goals
    simp only [String.toList_append, List.mem_append, not_or]
    simp [number, room, under, shown, hname]

example : excerpt "m" "é\r\na\tb\r\n" 6 = "  --> m:2:3\n  |\n2 | a\tb\n  |  \t^" := by decide

end EnvManifest
