import EnvManifest.Path.Basic
import EnvManifest.Proofs.Text.Split

/-!
# Components of joined paths

A path is its start and then the parts that count. Joining a relative path to another one adds its
parts, so that a path made of components has those components again.
-/

namespace EnvManifest.Path

open Text

/-! ## Parts -/

/-- The parts of a path that count, without its start. -/
def parts (path : List Char) : List Component := (splitChar '/' path).filterMap part?

theorem parts_append (base path : List Char) : parts (base ++ '/' :: path) = parts base ++ parts path := by
  rw [parts, splitChar_append, List.filterMap_append]
  rfl

theorem part?_nil : part? [] = none := rfl

theorem components_eq (path : List Char) : components path = (start? path).toList ++ parts path := by
  unfold components body
  congr 1
  split
  next started =>
    -- The first part of a path with a start is empty or a point.
    unfold start? at started
    split at started
    · rfl
    · rfl
    · rfl
    · cases started
  next => rfl

/-- A component that stands for itself between separators: a step up or a name. -/
def Component.IsPart (c : Component) : Prop := '/' ∉ c.text ∧ part? c.text = some c

theorem text_of_part? {part : List Char} {c : Component} (h : part? part = some c) : c.text = part := by
  unfold part? at h
  split at h
  · cases h
  split at h
  next up =>
    obtain rfl := Option.some.inj h
    exact up.symm
  next =>
    obtain rfl := Option.some.inj h
    rfl

theorem isPart_of_mem_parts {path : List Char} {c : Component} (h : c ∈ parts path) : c.IsPart := by
  obtain ⟨part, mem, hc⟩ := List.mem_filterMap.mp h
  have text := text_of_part? hc
  exact ⟨text ▸ not_mem_splitChar path part mem, text ▸ hc⟩

/-- The text of a name: not empty, without separators, and neither `.` nor `..`. -/
structure IsName (text : List Char) : Prop where
  nonempty : text ≠ []
  plain : '/' ∉ text
  ne_here : text ≠ ['.']
  ne_up : text ≠ ['.', '.']

theorem isPart_up : Component.up.IsPart := by
  unfold Component.IsPart
  decide

theorem isPart_name {text : List Char} : (Component.name text).IsPart ↔ IsName text := by
  change '/' ∉ text ∧ part? text = some (.name text) ↔ _
  unfold part? isIdle
  constructor
  · rintro ⟨plain, part⟩
    split at part
    · cases part
    next counts =>
    split at part
    · cases part
    next name =>
    simp only [Bool.or_eq_true, beq_iff_eq, not_or] at counts
    exact ⟨counts.1, plain, counts.2, name⟩
  · rintro ⟨nonempty, plain, here, up⟩
    refine ⟨plain, ?_⟩
    rw [if_neg (by simp [nonempty, here]), if_neg up]

theorem isPart_cases {c : Component} (h : c.IsPart) : c = .up ∨ ∃ text, c = .name text ∧ IsName text := by
  cases c with
  | root => exact absurd h.2 (by decide)
  | here => exact absurd h.2 (by decide)
  | up => exact .inl rfl
  | name text => exact .inr ⟨text, rfl, isPart_name.mp h⟩

theorem parts_text {c : Component} (h : c.IsPart) : parts c.text = [c] := by
  rw [parts, splitChar_of_not_mem h.1, List.filterMap_cons, h.2]
  rfl

/-! ## Joining -/

theorem start?_singleton (c : Char) :
    start? [c] = if c = '/' then some .root else if c = '.' then some .here else none := by
  unfold start?
  split <;> simp_all

theorem start?_cons_cons (c d : Char) (cs : List Char) : start? (c :: d :: cs) =
    if c = '/' then some .root else if c = '.' ∧ d = '/' then some .here else none := by
  unfold start?
  split <;> simp_all

/-- What stands after a separator does not matter for the start. -/
theorem start?_append (base path : List Char) : start? (base ++ '/' :: path) = start? (base ++ ['/']) := by
  match base with
  | [] => rfl
  | [c] => rw [List.singleton_append, List.singleton_append, start?_cons_cons, start?_cons_cons]
  | c :: d :: base => simp only [List.cons_append, start?_cons_cons]

theorem start?_slash {base : List Char} (h : base ≠ []) : start? (base ++ ['/']) = start? base := by
  match base with
  | [c] => simp [start?_singleton, start?_cons_cons]
  | c :: d :: base => simp only [List.cons_append, start?_cons_cons]

theorem components_append (base path : List Char) :
    components (base ++ '/' :: path) = components (base ++ ['/']) ++ parts path := by
  rw [components_eq, components_eq, start?_append, parts_append, parts_append, List.append_assoc,
    List.append_assoc]
  rfl

theorem components_slash {base : List Char} (h : base ≠ []) :
    components (base ++ ['/']) = components base := by
  rw [components_eq, components_eq, start?_slash h, parts_append]
  simp [parts, splitChar, part?_nil]

/-- A relative path after another one adds its parts. -/
theorem components_join {base path : List Char} (hbase : base ≠ []) (relative : isAbsolute path = false) :
    components (join base path) = components base ++ parts path := by
  unfold join
  rw [relative]
  simp only [Bool.false_eq_true, if_false, List.isEmpty_eq_false_iff.mpr hbase, Bool.false_or, beq_iff_eq]
  split
  next last =>
    obtain ⟨front, rfl⟩ := List.getLast?_eq_some_iff.mp last
    rw [List.append_assoc, List.singleton_append, components_append]
  next => rw [components_append, components_slash hbase]

theorem join_ne_nil {base path : List Char} (h : base ≠ []) : join base path ≠ [] := by
  unfold join
  split
  next absolute =>
    rintro rfl
    cases absolute
  split <;> simp [h]

theorem isAbsolute_text {c : Component} (h : c.IsPart) : isAbsolute c.text = false := by
  unfold isAbsolute
  cases hc : c.text with
  | nil => rfl
  | cons d ds =>
    have plain := h.1
    rw [hc] at plain
    simp [Ne.symm (List.ne_of_not_mem_cons plain)]

theorem start?_name {text : List Char} (h : IsName text) : start? text = none := by
  match text with
  | [] => rfl
  | [c] =>
    have plain : c ≠ '/' := fun e => h.plain (by simp [e])
    have point : c ≠ '.' := fun e => h.ne_here (by rw [e])
    rw [start?_singleton, if_neg plain, if_neg point]
  | c :: d :: cs =>
    have plain : c ≠ '/' := fun e => h.plain (by simp [e])
    have plain' : d ≠ '/' := fun e => h.plain (by simp [e])
    rw [start?_cons_cons, if_neg plain, if_neg fun e => plain' e.2]

theorem components_text {c : Component} (h : c.IsPart) : components c.text = [c] := by
  rw [components_eq, parts_text h]
  obtain rfl | ⟨text, rfl, name⟩ := isPart_cases h
  · rfl
  · rw [Component.text, start?_name name]
    rfl

/-- A path that is made of parts has those components after its own. -/
theorem components_foldl_join {base : List Char} (hbase : base ≠ []) {cs : List Component}
    (h : ∀ c ∈ cs, c.IsPart) :
    components ((cs.map (·.text)).foldl join base) = components base ++ cs := by
  induction cs generalizing base with
  | nil => exact (List.append_nil _).symm
  | cons c cs ih =>
    obtain ⟨hc, h⟩ := List.forall_mem_cons.mp h
    rw [List.map_cons, List.foldl_cons, ih (join_ne_nil hbase) h,
      components_join hbase (isAbsolute_text hc), parts_text hc, List.append_assoc, List.singleton_append]

/-- A path that is made of components has those components, if only the first may be a start. -/
theorem components_ofComponents {cs : List Component}
    (first : ∀ c ∈ cs.head?, components c.text = [c]) (later : ∀ c ∈ cs.tail, c.IsPart) :
    components (ofComponents cs) = cs := by
  cases cs with
  | nil => rfl
  | cons c cs =>
    have own := first c rfl
    have nonempty : c.text ≠ [] := by
      intro empty
      rw [empty] at own
      cases own
    have alone : join [] c.text = c.text := by simp [join]
    have joined : components ((cs.map (·.text)).foldl join c.text) = components c.text ++ cs :=
      components_foldl_join nonempty later
    rw [ofComponents, joinAll, List.map_cons, List.foldl_cons, alone, joined, own, List.singleton_append]

end EnvManifest.Path
