import EnvManifest.Patch.Token
import EnvManifest.Proofs.Text.Octets
import EnvManifest.Proofs.Text.Split
import EnvManifest.Proofs.Value.Fields
import EnvManifest.Render
import Mathlib.Data.List.Forall2

/-!
# Rendered environments

An environment is rendered as one line for each variable. No control character of a value stands in
its line, and of values that are no floats, lists or objects each has a text of its own.
-/

namespace EnvManifest

open Text

/-! ## Numbers -/

namespace Decimal

theorem printable_positional {keepPoint : Bool} {digits : List Char} (h : Printable digits)
    (exponent : Int) : Printable (positional keepPoint digits exponent) := by
  unfold positional
  have point : Printable (if keepPoint then ['.', '0'] else []) := by cases keepPoint <;> decide
  split
  · exact printable_append.mpr ⟨printable_append.mpr ⟨h, printable_zeros _⟩, point⟩
  · dsimp only
    split
    · exact printable_append.mpr ⟨h.subset (List.take_subset ..),
        printable_cons.mpr ⟨by decide, h.subset (List.drop_subset ..)⟩⟩
    · exact printable_cons.mpr ⟨by decide, printable_cons.mpr ⟨by decide,
        printable_append.mpr ⟨printable_zeros _, h⟩⟩⟩

theorem printable_scientific {plus : Bool} {digits : List Char} (h : Printable digits) (width : Nat)
    (top : Int) : Printable (scientific plus width digits top) := by
  unfold scientific
  dsimp only
  refine printable_append.mpr ⟨printable_append.mpr ⟨printable_append.mpr ⟨?_, ?_⟩, ?_⟩, ?_⟩
  · split
    · simp only [printable_cons] at h ⊢
      exact ⟨h.1, by decide, h.2⟩
    · exact h
  · refine printable_cons.mpr ⟨by decide, ?_⟩
    cases plus <;> split <;> decide
  · exact printable_zeros _
  · exact printable_toString _

theorem printable_numeral (l : Layout) (d : Numeral) : Printable (d.text l) := by
  unfold Numeral.text
  dsimp only
  split
  · exact printable_positional (printable_toString _) _
  · exact printable_scientific (printable_toString _) _ _

/-- The text of a number has no controls if the words of its layout have none. -/
theorem printable_text {l : Layout} (words : Printable l.nan.toList ∧
    Printable l.infinity.toList ∧ Printable l.negativeInfinity.toList) (x : Float) :
    Printable (text l x).toList := by
  unfold text textWith
  split
  · exact words.1
  split
  · split
    · exact words.2.2
    · exact words.2.1
  · dsimp only
    rw [String.toList_ofList]
    have digits : Printable (if (Binary.ofFloat x).mantissa = 0 then positional l.keepPoint ['0'] 0
        else (Binary.ofFloat x).shortest.text l) := by
      split
      · exact printable_positional (by decide) _
      · exact printable_numeral l _
    split
    · exact printable_cons.mpr ⟨by decide, digits⟩
    · exact digits

end Decimal

namespace Json

theorem printable_charText (c : Char) : Printable (charText c) := by
  unfold charText
  iterate 7
    split
    · decide
  split
  · exact printable_append.mpr ⟨by decide, printable_toHexPadded 4 _⟩
  · exact List.forall_mem_singleton.mpr (Nat.le_of_not_lt ‹_›)

theorem printable_stringText (s : String) : Printable (stringText s) := by
  unfold stringText
  refine printable_append.mpr ⟨printable_cons.mpr ⟨by decide, fun c hc => ?_⟩, by decide⟩
  obtain ⟨d, -, hc⟩ := List.mem_flatMap.mp hc
  exact printable_charText d c hc

mutual

theorem printable_compact (v : Value) : Printable (compact v) := by
  match v with
  | .null => simp only [compact, scalarText]; decide
  | .bool b => simp only [compact, scalarText]; exact printable_bool b
  | .int n => simp only [compact, scalarText]; exact printable_int n
  | .float x => simp only [compact, scalarText]; exact Decimal.printable_text (by decide) x
  | .str s => simp only [compact, scalarText]; exact printable_stringText s
  | .list items =>
    rw [compact]
    exact printable_append.mpr
      ⟨printable_cons.mpr ⟨by decide, printable_compactItems items⟩, by decide⟩
  | .object fields =>
    rw [compact]
    exact printable_append.mpr
      ⟨printable_cons.mpr ⟨by decide, printable_compactFields fields⟩, by decide⟩

theorem printable_compactItems (items : List Value) : Printable (compactItems items) := by
  match items with
  | [] => rw [compactItems]; exact nofun
  | [x] => rw [compactItems]; exact printable_compact x
  | x :: y :: more =>
    rw [compactItems]
    exact printable_append.mpr ⟨printable_compact x,
      printable_cons.mpr ⟨by decide, printable_compactItems (y :: more)⟩⟩

theorem printable_compactFields (fields : List (String × Value)) :
    Printable (compactFields fields) := by
  match fields with
  | [] => rw [compactFields]; exact nofun
  | [(k, x)] =>
    rw [compactFields]
    exact printable_append.mpr
      ⟨printable_stringText k, printable_cons.mpr ⟨by decide, printable_compact x⟩⟩
  | (k, x) :: e :: more =>
    rw [compactFields]
    have field := printable_append.mpr
      ⟨printable_stringText k, printable_cons.mpr ⟨show 0x20 ≤ ':'.toNat by decide, printable_compact x⟩⟩
    exact printable_append.mpr
      ⟨field, printable_cons.mpr ⟨by decide, printable_compactFields (e :: more)⟩⟩

end

end Json

namespace Render

/-! ## Strings -/

/-- The letters after a backslash, and what they stand for. -/
def letters : List (Char × Char) :=
  [('"', '"'), ('\\', '\\'), ('n', '\n'), ('r', '\r'), ('t', '\t'), ('a', '\x07'), ('b', '\x08'),
    ('f', '\x0c'), ('v', '\x0b')]

/-- The letters in front of a number, and how many digits it has. -/
def widths : List (Char × Nat) := [('x', 2), ('u', 4)]

/-- What a quoted string holds for a character: a letter after a backslash, its number, or itself. -/
inductive WrittenAs (c : Char) : List Char → Prop
  | letter (e : Char) (he : (e, c) ∈ letters) : WrittenAs c ['\\', e]
  | number (mark : Char) (width : Nat) (hmark : (mark, width) ∈ widths) (hn : c.toNat < 16 ^ width) :
    WrittenAs c ('\\' :: mark :: toHexPadded width c.toNat)
  | self (hquote : c ≠ '"') (hslash : c ≠ '\\') (hvisible : 0x20 ≤ c.toNat) : WrittenAs c [c]

theorem eq_of_toNat {c d : Char} (h : c.toNat = d.toNat) : c = d := by
  rw [← Char.ofNat_toNat c, h, Char.ofNat_toNat]

theorem writtenAs_charText (c : Char) : WrittenAs c (charText c) := by
  have letter : ∀ e d, (e, d) ∈ letters → c = d → WrittenAs c ['\\', e] := by
    rintro e d he rfl
    exact .letter e he
  unfold charText
  split
  · exact letter _ '"' (by decide) ‹_›
  next hquote =>
  split
  · exact letter _ '\\' (by decide) ‹_›
  next hslash =>
  split
  · exact letter _ '\n' (by decide) ‹_›
  split
  · exact letter _ '\r' (by decide) ‹_›
  split
  · exact letter _ '\t' (by decide) ‹_›
  split
  · exact letter _ '\x07' (by decide) (eq_of_toNat ‹_›)
  split
  · exact letter _ '\x08' (by decide) (eq_of_toNat ‹_›)
  split
  · exact letter _ '\x0c' (by decide) (eq_of_toNat ‹_›)
  split
  · exact letter _ '\x0b' (by decide) (eq_of_toNat ‹_›)
  split
  next control =>
    -- No control has a number of more than eight bits, so the widest form is never written.
    have small : c.toNat ≤ 0x9F := by
      simp only [isControl, Bool.or_eq_true, decide_eq_true_eq, Bool.and_eq_true] at control
      omega
    unfold controlText
    dsimp only
    split
    · exact .number 'x' 2 (by decide) (by omega)
    · rw [if_pos (by omega)]
      exact .number 'u' 4 (by decide) (by omega)
  next visible =>
    refine .self hquote hslash ?_
    simp only [isControl, Bool.or_eq_true, decide_eq_true_eq, not_or] at visible
    omega

theorem printable_charText (c : Char) : Printable (charText c) := by
  have written := writtenAs_charText c
  generalize charText c = text at written
  cases written with
  | letter e he =>
    have all : ∀ p ∈ letters, 0x20 ≤ p.1.toNat := by decide
    exact printable_cons.mpr ⟨by decide, List.forall_mem_singleton.mpr (all _ he)⟩
  | number mark width hmark =>
    have all : ∀ p ∈ widths, 0x20 ≤ p.1.toNat := by decide
    exact printable_cons.mpr ⟨by decide, printable_cons.mpr ⟨all _ hmark, printable_toHexPadded _ _⟩⟩
  | self _ _ hvisible => exact List.forall_mem_singleton.mpr hvisible

/-- Characters can be told apart by how they are written, whatever follows them. -/
theorem WrittenAs.inj {c d : Char} {x y s t : List Char} (hx : WrittenAs c x) (hy : WrittenAs d y)
    (h : x ++ s = y ++ t) : c = d ∧ s = t := by
  have apart : ∀ p ∈ letters, ∀ q ∈ widths, p.1 ≠ q.1 := by decide
  cases hx with
  | letter e he =>
    have single : ∀ p ∈ letters, ∀ q ∈ letters, p.1 = q.1 → p.2 = q.2 := by decide
    cases hy with
    | letter e' he' =>
      obtain ⟨same, rest⟩ := List.cons.inj (List.cons.inj h).2
      exact ⟨single _ he _ he' same, rest⟩
    | number mark width hmark =>
      exact absurd (List.cons.inj (List.cons.inj h).2).1 (apart _ he _ hmark)
    | self _ hslash => exact absurd (List.cons.inj h).1.symm hslash
  | number mark width hmark hn =>
    have single : ∀ p ∈ widths, 0 < p.2 ∧ ∀ q ∈ widths, p.1 = q.1 → p.2 = q.2 := by decide
    cases hy with
    | letter e' he' => exact absurd (List.cons.inj (List.cons.inj h).2).1.symm (apart _ he' _ hmark)
    | number mark' width' hmark' hn' =>
      obtain ⟨same, rest⟩ := List.cons.inj (List.cons.inj h).2
      obtain ⟨pos, unique⟩ := single _ hmark
      obtain rfl : width = width' := unique _ hmark' same
      obtain ⟨digits, rest⟩ := List.append_inj rest
        (by rw [length_toHexPadded pos hn, length_toHexPadded pos hn'])
      exact ⟨eq_of_toNat (toHexPadded_inj digits), rest⟩
    | self _ hslash => exact absurd (List.cons.inj h).1.symm hslash
  | self _ hslash =>
    cases hy with
    | letter => exact absurd (List.cons.inj h).1 hslash
    | number => exact absurd (List.cons.inj h).1 hslash
    | self => exact List.cons.inj h

/-- No character is written with a quote first. -/
theorem WrittenAs.ne_quote {c : Char} {x s : List Char} (h : WrittenAs c x) (t : List Char) :
    x ++ s ≠ '"' :: t := by
  intro same
  cases h with
  | letter => exact absurd (List.cons.inj same).1 (by decide)
  | number => exact absurd (List.cons.inj same).1 (by decide)
  | self hquote => exact hquote (List.cons.inj same).1

/-- **A quoted string is that of no other string.** -/
theorem quote_injective : Function.Injective quote := by
  intro cs ds h
  have body : cs.flatMap charText ++ ['"'] = ds.flatMap charText ++ ['"'] := (List.cons.inj h).2
  clear h
  induction cs generalizing ds with
  | nil =>
    cases ds with
    | nil => rfl
    | cons d ds =>
      rw [List.flatMap_cons, List.append_assoc] at body
      exact absurd body.symm ((writtenAs_charText d).ne_quote [])
  | cons c cs ih =>
    cases ds with
    | nil =>
      rw [List.flatMap_cons, List.append_assoc] at body
      exact absurd body ((writtenAs_charText c).ne_quote [])
    | cons d ds =>
      rw [List.flatMap_cons, List.flatMap_cons, List.append_assoc, List.append_assoc] at body
      obtain ⟨rfl, rest⟩ := (writtenAs_charText c).inj (writtenAs_charText d) body
      rw [ih rest]

theorem printable_quote (cs : List Char) : Printable (quote cs) := by
  unfold quote
  refine printable_append.mpr ⟨printable_cons.mpr ⟨by decide, fun c hc => ?_⟩, by decide⟩
  obtain ⟨d, -, hc⟩ := List.mem_flatMap.mp hc
  exact printable_charText d c hc

/-! ## Values -/

theorem printable_value (v : Value) : Printable (value v) := by
  cases v with
  | null => decide
  | bool b => exact printable_bool b
  | int n => exact printable_int n
  | float x => exact Decimal.printable_text (by decide) x
  | str s => exact printable_quote s.toList
  | list items => exact Json.printable_compact (.list items)
  | object fields => exact Json.printable_compact (.object fields)

/-- Is a value null, a boolean, a whole number or a string? -/
def IsPlain : Value → Prop
  | .null | .bool _ | .int _ | .str _ => True
  | .float _ | .list _ | .object _ => False

/-- A whole number is digits, with a sign or without. -/
theorem mem_int {n : Int} {c : Char} (h : c ∈ value (.int n)) : c = '-' ∨ isDigit c := by
  change c ∈ (toString n).toList at h
  cases n with
  | ofNat n => exact .inr (isDigit_of_mem_toString h)
  | negSucc n =>
    rw [toString_negSucc] at h
    exact (List.mem_cons.mp h).imp_right isDigit_of_mem_toString

theorem value_int_ne {n : Int} {text : List Char} {c : Char} (h : c ∈ text)
    (other : ¬(c = '-' ∨ isDigit c)) : value (.int n) ≠ text :=
  fun same => other (mem_int (same ▸ h))

/-- Plain values can be told apart by their texts. -/
theorem value_inj {v w : Value} (hv : IsPlain v) (hw : IsPlain w) (h : value v = value w) : v = w := by
  have word {n : Int} {w : Value} (c : Char) (hc : c ∈ value w)
      (other : ¬(c = '-' ∨ isDigit c) := by decide) : value (.int n) ≠ value w :=
    value_int_ne hc other
  have quoted (s : String) : '"' ∈ value (.str s) := List.mem_cons_self ..
  cases v with
  | null =>
    cases w with
    | null => rfl
    | bool b => cases b <;> exact absurd h (by decide)
    | int n => exact absurd h.symm (word '<' (by decide))
    | str s => exact absurd (List.cons.inj h).1 (by decide)
    | float | list | object => exact hw.elim
  | bool a =>
    cases w with
    | null => cases a <;> exact absurd h (by decide)
    | bool b => cases a <;> cases b <;> first | rfl | exact absurd h (by decide)
    | int n =>
      have vowel : 'e' ∈ value (.bool a) := by cases a <;> decide
      exact absurd h.symm (word 'e' vowel)
    | str s => cases a <;> exact absurd (List.cons.inj h).1 (by decide)
    | float | list | object => exact hw.elim
  | int m =>
    cases w with
    | null => exact absurd h (word '<' (by decide))
    | bool b =>
      have vowel : 'e' ∈ value (.bool b) := by cases b <;> decide
      exact absurd h (word 'e' vowel)
    | int n => rw [toString_int_inj h]
    | str s => exact absurd h (word '"' (quoted s))
    | float | list | object => exact hw.elim
  | str s =>
    cases w with
    | null => exact absurd (List.cons.inj h).1 (by decide)
    | bool b => cases b <;> exact absurd (List.cons.inj h).1 (by decide)
    | int n => exact absurd h.symm (word '"' (quoted s))
    | str t => rw [String.toList_inj.mp (quote_injective h)]
    | float | list | object => exact hw.elim
  | float | list | object => exact hv.elim

/-! ## Lines -/

/-- Letters, digits and underscores, of which the first is no digit. -/
def IsKey (key : String) : Prop :=
  key.toList.head?.any Patch.isNameStart ∧ ∀ c ∈ key.toList, Patch.isNamePart c

instance (key : String) : Decidable (IsKey key) :=
  haveI := List.decidableBAll (fun c => Patch.isNamePart c = true) key.toList
  inferInstanceAs (Decidable (_ ∧ _))

theorem toNat_of_isNamePart {c : Char} (h : Patch.isNamePart c) : 0x30 ≤ c.toNat ∧ c.toNat ≤ 0x7A := by
  unfold Patch.isNamePart isAlphanumeric at h
  rw [Bool.or_eq_true, Bool.or_eq_true, beq_iff_eq] at h
  obtain (letter | digit) | rfl := h
  · have := toNat_of_isLetter letter
    omega
  · have := toNat_of_isDigit digit
    omega
  · decide

theorem not_mem_key {key : String} (h : IsKey key) : '=' ∉ key.toList := fun hc =>
  absurd (h.2 _ hc) (by decide)

theorem printable_line {key : String} (h : IsKey key) (v : Value) : Printable (line key v) := by
  refine printable_append.mpr ⟨fun c hc => ?_, printable_cons.mpr ⟨by decide, printable_value v⟩⟩
  have := toNat_of_isNamePart (h.2 c hc)
  omega

theorem line_inj {d e : String × Value} (hd : IsKey d.1) (he : IsKey e.1) (hd' : IsPlain d.2)
    (he' : IsPlain e.2) (h : line d.1 d.2 = line e.1 e.2) : d = e := by
  have parts : splitChar '=' (line d.1 d.2) = splitChar '=' (line e.1 e.2) := by rw [h]
  rw [line, line, splitChar_append, splitChar_append, splitChar_of_not_mem (not_mem_key hd),
    splitChar_of_not_mem (not_mem_key he)] at parts
  have keys : d.1.toList = e.1.toList := (List.cons.inj parts).1
  rw [line, line, keys, List.append_cancel_left_eq] at h
  exact Prod.ext (String.toList_inj.mp keys) (value_inj hd' he' (List.cons.inj h).2)

/-- The parts of a rendered environment at the ends of lines are its lines. -/
theorem splitChar_environment {env : Fields Value} (keys : ∀ e ∈ env, IsKey e.1) :
    splitChar '\n' (environment env) = env.map (fun e => line e.1 e.2) ++ [[]] := by
  induction env with
  | nil => rfl
  | cons e env ih =>
    obtain ⟨first, later⟩ := List.forall_mem_cons.mp keys
    have plain : '\n' ∉ line e.1 e.2 := fun mem => absurd (printable_line first e.2 _ mem) (by decide)
    have text : environment (e :: env) = line e.1 e.2 ++ '\n' :: environment env := by
      simp [environment]
    rw [text, splitChar_append, splitChar_of_not_mem plain, ih later, List.map_cons]
    rfl

/-! ## Environments -/

theorem encode_key_lt {k l : String} (hk : IsKey k) (hl : IsKey l) (h : k < l) :
    encode k.toList < encode l.toList := by
  have ascii {key : String} (h : IsKey key) : ∀ c ∈ key.toList, c.toNat ≤ 0x7F := fun c hc => by
    have := toNat_of_isNamePart (h.2 c hc)
    omega
  exact encode_lt (ascii hk) (ascii hl) (String.lt_iff_toList_lt.mp h)

/-- The lines of an environment: one for each variable, which starts with its key and `=` and has no
control characters, in the order of the bytes of the keys. -/
structure LinesOf (env : Fields Value) (lines : List (List Char)) : Prop where
  starts : List.Forall₂ (fun e line => e.1.toList ++ ['='] <+: line) env lines
  printable : ∀ line ∈ lines, Printable line
  ordered : env.Pairwise fun d e => encode d.1.toList < encode e.1.toList

theorem linesOf_map {env : Fields Value} (sorted : env.Sorted) (keys : ∀ e ∈ env, IsKey e.1) :
    LinesOf env (env.map fun e => line e.1 e.2) where
  starts := by
    rw [List.forall₂_map_right_iff, List.forall₂_same]
    exact fun e _ => ⟨value e.2, by rw [line, List.append_assoc, List.singleton_append]⟩
  printable := by
    rw [List.forall_mem_map]
    exact fun e he => printable_line (keys e he) e.2
  ordered := List.Pairwise.imp_of_mem
    (fun hd he less => encode_key_lt (keys _ hd) (keys _ he) less) sorted

/-- Lines of plain values are those of one environment. -/
theorem map_line_inj {env other : Fields Value} (h : ∀ e ∈ env, IsKey e.1 ∧ IsPlain e.2)
    (h' : ∀ e ∈ other, IsKey e.1 ∧ IsPlain e.2)
    (same : env.map (fun e => line e.1 e.2) = other.map fun e => line e.1 e.2) : env = other := by
  induction env generalizing other with
  | nil => exact (List.map_eq_nil_iff.mp same.symm).symm
  | cons d env ih =>
    cases other with
    | nil => exact List.map_eq_nil_iff.mp same
    | cons e other =>
      obtain ⟨hd, h⟩ := List.forall_mem_cons.mp h
      obtain ⟨he, h'⟩ := List.forall_mem_cons.mp h'
      obtain ⟨first, rest⟩ := List.cons.inj same
      rw [line_inj hd.1 he.1 hd.2 he.2 first, ih h h' rest]

/-- **A rendered environment is its lines, and of plain values those of no other environment.** -/
theorem environment_unambiguous {env : Fields Value} (sorted : env.Sorted)
    (keys : ∀ e ∈ env, IsKey e.1) :
    (∃ lines, environment env = lines.flatMap (· ++ ['\n']) ∧ LinesOf env lines) ∧
    ((∀ e ∈ env, IsPlain e.2) → ∀ other : Fields Value, other.Sorted →
      (∀ e ∈ other, IsKey e.1 ∧ IsPlain e.2) → environment other = environment env → other = env) := by
  refine ⟨⟨_, ?_, linesOf_map sorted keys⟩, fun plain other _ proper same => ?_⟩
  · rw [environment, List.flatMap_map]
  · have lines := congrArg (splitChar '\n') same
    rw [splitChar_environment keys, splitChar_environment fun e he => (proper e he).1,
      List.append_cancel_right_eq] at lines
    exact map_line_inj proper (fun e he => ⟨keys e he, plain e he⟩) lines

/-- Two strings that read like other values: one like a string and a second line, one like null. -/
def crowdedEnvironment : Fields Value :=
  [("A", .str "1\nB=\"\\\x01é"), ("B", .null), ("_c9", .str "<nil>"), ("d", .int (-7))]

theorem crowded_environment_read :
    crowdedEnvironment.Sorted ∧ (∀ e ∈ crowdedEnvironment, IsKey e.1) ∧
      (∀ e ∈ crowdedEnvironment, IsPlain e.2) ∧
      (∃ lines, environment crowdedEnvironment = lines.flatMap (· ++ ['\n']) ∧
        LinesOf crowdedEnvironment lines) ∧
      environment crowdedEnvironment ≠ environment [("A", .str "1"), ("B", .null)] := by
  have sorted : crowdedEnvironment.Sorted := by unfold Fields.Sorted; decide
  have keys : ∀ e ∈ crowdedEnvironment, IsKey e.1 := by decide
  have plain : ∀ e ∈ crowdedEnvironment, IsPlain e.2 := by simp [crowdedEnvironment, IsPlain]
  obtain ⟨lines, unique⟩ := environment_unambiguous sorted keys
  refine ⟨sorted, keys, plain, lines, fun same => ?_⟩
  have other := unique plain [("A", .str "1"), ("B", .null)] (by unfold Fields.Sorted; decide)
    (by simp [IsPlain]; decide) same.symm
  exact absurd (congrArg List.length other) (by decide)

end Render

end EnvManifest
