import EnvManifest.Patch.Token
import EnvManifest.Proofs.Text.Octets

/-!
# A scanner over bytes

The tokens of a text, found by a scanner that sees bytes and keeps a byte offset. It may be inside a
character for a while, and takes parts of the text by offsets that need not be places of it. Whatever
starts somewhere ends behind it, so that the scanner ends on every text.
-/

namespace EnvManifest.Patch

open Text

/-! ## The scanner -/

section

variable (bytes : List Char)

/-- Where a string ends, from an offset behind its opening quote. A backslash skips one byte, which
may be the first of a longer character, or behind the end. -/
def quotedEnd (quote : Char) (i : Nat) : Nat :=
  if h : i < bytes.length then
    if bytes[i] = '\\' then quotedEnd quote (i + 2)
    else if bytes[i] = quote then i + 1
    else quotedEnd quote (i + 1)
  else bytes.length
termination_by bytes.length - i

def marksExponent (previous : Char) : Bool :=
  previous == 'e' || previous == 'E' || previous == 'p' || previous == 'P'

/-- Is a byte of a number that starts at an offset a hexadecimal digit `e`? -/
def isHexE (start : Nat) (previous : Char) : Bool :=
  (bytes[start + 1]?.any fun b => b == 'x' || b == 'X') && (previous == 'e' || previous == 'E')

/-- Where a number ends that starts at an offset and goes up to another one at least. -/
def numberEnd (start i : Nat) : Nat :=
  if h : i < bytes.length then
    if isAlphanumeric bytes[i] || bytes[i] == '.' || bytes[i] == '_' ||
        ((bytes[i] == '+' || bytes[i] == '-') && decide (start < i) && marksExponent bytes[i - 1] &&
          !isHexE bytes start bytes[i - 1]) then
      numberEnd start (i + 1)
    else i
  else i
termination_by bytes.length - i

def wordEnd (i : Nat) : Nat :=
  if h : i < bytes.length then if isNamePart bytes[i] then wordEnd (i + 1) else i else i
termination_by bytes.length - i

end

/-- The symbols of more than one character, the longest first. -/
def symbols : List (List Char) :=
  ["...", "..", "::", "==", "~=", "<=", ">=", "//", "<<", ">>"].map String.toList

/-- The size of the symbol that a text starts with. -/
def symbolSize (rest : List Char) : Nat :=
  match symbols.find? (·.isPrefixOf rest) with
  | some symbol => byteLength symbol
  | none => (rest.head?.map Char.utf8Size).getD 1

/-- The level of the long bracket that a text starts with. Its `=` are counted as bytes. -/
def bracket? : List Char → Option Nat
  | '[' :: rest => longLevel? (octets rest)
  | _ => none

/-- Where a long bracket ends that starts at an offset. -/
def longEnd? (source : List Char) (start level : Nat) : Option Nat :=
  let body := start + level + 2
  (from? source body).map fun inner =>
    match offset? (longClose level) inner with
    | some n => body + n + byteLength (longClose level)
    | none => byteLength source

/-- Where a comment ends that starts at an offset, and the text from there on. -/
def commentEnd? (source : List Char) (start : Nat) (rest : List Char) : Option Nat :=
  (from? source (start + 2)).bind fun more =>
    match bracket? more with
    | some level => longEnd? source (start + 2) level
    | none => some (((offset? ['\n'] rest).map (start + ·)).getD (byteLength source))

/-- What starts at an offset, and where it ends. There is no answer where a part of the text would
start inside a character. -/
def step? (source : List Char) (i : Nat) : Option (Option Kind × Nat) :=
  (octets source)[i]?.bind fun b =>
    if isAsciiBlank b then some (none, i + 1)
    else (from? source i).bind fun rest =>
      if ['-', '-'].isPrefixOf rest then (commentEnd? source i rest).map (none, ·)
      else
        match if b = '[' then bracket? rest else none with
        | some level => (longEnd? source i level).map (some .str, ·)
        | none =>
          if b = '"' ∨ b = '\'' then some (some .str, quotedEnd (octets source) b (i + 1))
          else if isDigit b || (b == '.' && (octets source)[i + 1]?.any isDigit) then
            some (some .number, numberEnd (octets source) i i)
          else if isNameStart b then some (some .name, wordEnd (octets source) i)
          else some (some .punct, i + symbolSize rest)

/-! ## It goes on -/

section

variable {bytes : List Char} {i : Nat} {b : Char}

theorem quotedEnd_at (quote : Char) (h : bytes[i]? = some b) :
    quotedEnd bytes quote i =
      if b = '\\' then quotedEnd bytes quote (i + 2)
      else if b = quote then i + 1
      else quotedEnd bytes quote (i + 1) := by
  obtain ⟨hi, rfl⟩ := List.getElem?_eq_some_iff.1 h
  rw [quotedEnd, dif_pos hi]

theorem quotedEnd_behind (quote : Char) (h : bytes.length ≤ i) :
    quotedEnd bytes quote i = bytes.length := by
  rw [quotedEnd, dif_neg (Nat.not_lt.2 h)]

theorem numberEnd_at {p : Char} (start : Nat) (h : bytes[i]? = some b) (hp : bytes[i - 1]? = some p) :
    numberEnd bytes start i =
      if isAlphanumeric b || b == '.' || b == '_' ||
          ((b == '+' || b == '-') && decide (start < i) && marksExponent p &&
            !isHexE bytes start p) then
        numberEnd bytes start (i + 1)
      else i := by
  obtain ⟨hi, rfl⟩ := List.getElem?_eq_some_iff.1 h
  obtain ⟨hi', rfl⟩ := List.getElem?_eq_some_iff.1 hp
  rw [numberEnd, dif_pos hi]

theorem numberEnd_behind (start : Nat) (h : bytes.length ≤ i) : numberEnd bytes start i = i := by
  rw [numberEnd, dif_neg (Nat.not_lt.2 h)]

/-- A number has its first character. -/
theorem numberEnd_first (start : Nat) {point : Bool} (h : bytes[i]? = some b)
    (hb : isDigit b || (b == '.' && point)) :
    numberEnd bytes start i = numberEnd bytes start (i + 1) := by
  have hi := (List.getElem?_eq_some_iff.1 h).1
  have hp : bytes[i - 1]? = some bytes[i - 1] := List.getElem?_eq_getElem (by omega)
  rw [numberEnd_at start h hp, if_pos]
  simp only [Bool.or_eq_true, Bool.and_eq_true] at hb
  obtain hb | ⟨hb, -⟩ := hb
  · simp [isAlphanumeric, hb]
  · simp [hb]

theorem isNamePart_of_isNameStart (h : isNameStart b) : isNamePart b := by
  simp only [isNameStart, Bool.or_eq_true] at h
  simp only [isNamePart, isAlphanumeric, Bool.or_eq_true]
  exact h.imp_left .inl

theorem wordEnd_at (h : bytes[i]? = some b) :
    wordEnd bytes i = if isNamePart b then wordEnd bytes (i + 1) else i := by
  obtain ⟨hi, rfl⟩ := List.getElem?_eq_some_iff.1 h
  rw [wordEnd, dif_pos hi]

theorem wordEnd_behind (h : bytes.length ≤ i) : wordEnd bytes i = i := by
  rw [wordEnd, dif_neg (Nat.not_lt.2 h)]

theorem le_quotedEnd (quote : Char) (h : i ≤ bytes.length) : i ≤ quotedEnd bytes quote i := by
  fun_induction quotedEnd bytes quote i with
  | case1 i hi hb ih =>
    by_cases hend : i + 2 ≤ bytes.length
    · have := ih hend
      omega
    · rw [quotedEnd_behind _ (by omega)]
      omega
  | case2 => omega
  | case3 i hi hb hq ih =>
    have := ih hi
    omega
  | case4 => omega

theorem le_numberEnd (start i : Nat) : i ≤ numberEnd bytes start i := by
  fun_induction numberEnd bytes start i with
  | case1 => omega
  | case2 => exact Nat.le_refl _
  | case3 => exact Nat.le_refl _

theorem le_wordEnd (i : Nat) : i ≤ wordEnd bytes i := by
  fun_induction wordEnd bytes i with
  | case1 => omega
  | case2 => exact Nat.le_refl _
  | case3 => exact Nat.le_refl _

end

theorem symbolSize_pos (rest : List Char) : 0 < symbolSize rest := by
  have solid : ∀ symbol ∈ symbols, 0 < byteLength symbol := by decide
  unfold symbolSize
  split
  · rename_i symbol h
    exact solid symbol (List.mem_of_find?_eq_some h)
  · cases rest with
    | nil => decide
    | cons c cs => exact c.utf8Size_pos

theorem le_longEnd? {source : List Char} {start level j : Nat}
    (h : longEnd? source start level = some j) : start + 2 ≤ j := by
  obtain ⟨inner, hinner, rfl⟩ := Option.map_eq_some_iff.1 h
  have := le_of_from? hinner
  split <;> omega

theorem lt_commentEnd? {source rest : List Char} {start j : Nat}
    (h : commentEnd? source start rest = some j) (hrest : ['-', '-'].isPrefixOf rest) : start < j := by
  obtain ⟨more, hmore, h⟩ := Option.bind_eq_some_iff.1 h
  have hle := le_of_from? hmore
  split at h
  · have := le_longEnd? h
    omega
  · obtain rfl := Option.some.inj h
    cases hn : offset? ['\n'] rest with
    | none => exact Nat.lt_of_lt_of_le (by omega) hle
    | some n =>
      refine Nat.lt_add_of_pos_right (Nat.pos_of_ne_zero ?_)
      -- The line feed is not where the comment starts.
      rintro rfl
      obtain ⟨rest, rfl⟩ := List.isPrefixOf_iff_prefix.1 hrest
      have hfirst : ¬['\n'].isPrefixOf ('-' :: (['-'] ++ rest)) := by simp
      rw [List.cons_append, offset?, if_neg hfirst] at hn
      obtain ⟨m, -, hm⟩ := Option.map_eq_some_iff.1 hn
      have hdash : '-'.utf8Size = 1 := rfl
      omega

/-- **Whatever starts somewhere ends behind it.** -/
theorem lt_of_step? {source : List Char} {i j : Nat} {kind : Option Kind}
    (h : step? source i = some (kind, j)) : i < j := by
  obtain ⟨b, hb, h⟩ := Option.bind_eq_some_iff.1 h
  have hi : i < (octets source).length := (List.getElem?_eq_some_iff.1 hb).1
  split at h
  · obtain ⟨-, rfl⟩ := Prod.mk.inj (Option.some.inj h)
    exact Nat.lt_succ_self i
  obtain ⟨rest, -, h⟩ := Option.bind_eq_some_iff.1 h
  split at h
  · rename_i hdashes
    obtain ⟨k, hk, hkj⟩ := Option.map_eq_some_iff.1 h
    obtain ⟨-, rfl⟩ := Prod.mk.inj hkj
    exact lt_commentEnd? hk hdashes
  split at h
  · obtain ⟨k, hk, hkj⟩ := Option.map_eq_some_iff.1 h
    obtain ⟨-, rfl⟩ := Prod.mk.inj hkj
    exact Nat.lt_of_lt_of_le (by omega) (le_longEnd? hk)
  split at h
  · obtain ⟨-, rfl⟩ := Prod.mk.inj (Option.some.inj h)
    exact le_quotedEnd b hi
  split at h
  · rename_i hnumber
    obtain ⟨-, rfl⟩ := Prod.mk.inj (Option.some.inj h)
    rw [numberEnd_first i hb hnumber]
    exact le_numberEnd i (i + 1)
  split at h
  · rename_i hname
    obtain ⟨-, rfl⟩ := Prod.mk.inj (Option.some.inj h)
    rw [wordEnd_at hb, if_pos (isNamePart_of_isNameStart hname)]
    exact le_wordEnd (i + 1)
  · obtain ⟨-, rfl⟩ := Prod.mk.inj (Option.some.inj h)
    exact Nat.lt_add_of_pos_right (symbolSize_pos rest)

/-- A token and the byte offsets where it starts and ends. -/
structure Placed where
  kind : Kind
  text : List Char
  start : Nat
  stop : Nat
deriving DecidableEq, Repr

/-- The tokens from an offset on. -/
def scan (source : List Char) (i : Nat) : Option (List Placed) :=
  if i < byteLength source then
    match _h : step? source i with
    | none => none
    | some (none, j) => scan source j
    | some (some kind, j) =>
      (between? source i j).bind fun text => (scan source j).map (⟨kind, text, i, j⟩ :: ·)
  else some []
termination_by byteLength source - i
decreasing_by all_goals (have hlt := lt_of_step? _h; omega)

end EnvManifest.Patch
