import EnvManifest.Proofs.Path.Normal

/-!
# Absolute paths

A path joined to another one leads on from where the other one leads. The normal form of an
absolute path spells the way to its directory: a slash, and names with slashes between them.
-/

namespace EnvManifest.Path

open Text

/-! ## Joined paths -/

theorem walk_absolute {path : List Char} (h : isAbsolute path = true) (dir dir' : Directory) :
    walk path dir = walk path dir' := by
  rw [walk, walk, if_pos h, if_pos h]

theorem walk_relative {path : List Char} (h : isAbsolute path = false) (dir : Directory) :
    walk path dir = (parts path).foldl Component.visit dir := by
  rw [walk, if_neg (by simp [h]), foldl_visit]
  rfl

/-- A joined path leads on from where the path before it leads. -/
theorem walk_join (base path : List Char) (dir : Directory) :
    walk (join base path) dir = walk path (walk base dir) := by
  cases absolute : isAbsolute path with
  | true =>
    rw [join, if_pos absolute]
    exact walk_absolute absolute _ _
  | false =>
    by_cases empty : base = []
    · subst empty
      simp [join, walk, splitChar, visit, isAbsolute]
    · rw [walk_eq, components_join empty absolute, List.foldl_append, ← walk_eq,
        ← walk_relative absolute]

theorem isAbsolute_join {base : List Char} (h : isAbsolute base = true) (path : List Char) :
    isAbsolute (join base path) = true := by
  cases base with
  | nil => cases h
  | cons c base =>
    unfold join
    split
    next absolute => exact absolute
    split <;> exact h

theorem walk_foldl_join (base : List Char) (paths : List (List Char)) (dir : Directory) :
    walk (paths.foldl join base) dir =
      paths.foldl (fun dir path => walk path dir) (walk base dir) := by
  induction paths generalizing base with
  | nil => rfl
  | cons path paths ih => rw [List.foldl_cons, ih, walk_join, List.foldl_cons]

theorem isAbsolute_foldl_join {base : List Char} (h : isAbsolute base = true)
    (paths : List (List Char)) : isAbsolute (paths.foldl join base) = true := by
  induction paths generalizing base with
  | nil => exact h
  | cons path paths ih => exact ih (isAbsolute_join h path)

/-! ## Normal forms -/

/-- The text of an absolute path in normal form. -/
def IsCanonical (path : List Char) : Prop :=
  ∃ names : List (List Char), (∀ n ∈ names, IsName n) ∧ path = '/' :: ['/'].intercalate names

theorem isAbsolute_name {text : List Char} (h : IsName text) : isAbsolute text = false :=
  isAbsolute_text (isPart_name.mpr h)

/-- A name that ends a path is no slash. -/
theorem getLast?_name {text : List Char} (h : IsName text) (base : List Char) :
    (base ++ text).getLast? ≠ some '/' := by
  rw [List.getLast?_append, Option.or_of_isSome (List.getLast?_isSome.mpr h.nonempty)]
  exact fun last => h.plain (List.mem_of_getLast? last)

theorem intercalate_append (separator base text : List Char) (texts : List (List Char)) :
    separator.intercalate ((base ++ text) :: texts) =
      base ++ separator.intercalate (text :: texts) := by
  cases texts with
  | nil => rw [List.intercalate_singleton, List.intercalate_singleton]
  | cons next texts =>
    rw [List.intercalate_cons_cons, List.intercalate_cons_cons, List.append_assoc, List.append_assoc,
      List.append_assoc]

/-- Names joined to a path that ends in no slash have slashes between them. -/
theorem foldl_join_names {base : List Char} (hbase : base ≠ []) (last : base.getLast? ≠ some '/')
    {names : List (List Char)} (h : ∀ n ∈ names, IsName n) :
    names.foldl join base = ['/'].intercalate (base :: names) := by
  induction names generalizing base with
  | nil => exact List.intercalate_singleton.symm
  | cons n names ih =>
    obtain ⟨name, h⟩ := List.forall_mem_cons.mp h
    have joined : join base n = base ++ '/' :: n := by simp [join, isAbsolute_name name, hbase, last]
    have ends : (base ++ '/' :: n).getLast? ≠ some '/' := by
      rw [← List.singleton_append, ← List.append_assoc]
      exact getLast?_name name _
    rw [List.foldl_cons, joined, ih (by simp) ends h, List.intercalate_cons_cons, List.append_assoc,
      intercalate_append]
    exact congrArg (base ++ ·) (intercalate_append ['/'] ['/'] n names)

theorem ofComponents_root {names : List (List Char)} (h : ∀ n ∈ names, IsName n) :
    ofComponents (.root :: names.map .name) = '/' :: ['/'].intercalate names := by
  have texts : (names.map Component.name).map (·.text) = names := by
    rw [List.map_map]
    exact List.map_id names
  rw [ofComponents, joinAll, List.map_cons, texts]
  cases names with
  | nil => rfl
  | cons n names =>
    obtain ⟨name, h⟩ := List.forall_mem_cons.mp h
    have joined : join ['/'] n = '/' :: n := by simp [join, isAbsolute_name name]
    calc names.foldl join (join ['/'] n)
        = names.foldl join (['/'] ++ n) := by rw [joined, List.singleton_append]
      _ = ['/'].intercalate ((['/'] ++ n) :: names) :=
        foldl_join_names (by simp) (getLast?_name name ['/']) h
      _ = '/' :: ['/'].intercalate (n :: names) := intercalate_append ['/'] ['/'] n names

/-- The components of a canonical path are the root and names. -/
theorem IsCanonical.components_eq {path : List Char} (h : IsCanonical path) :
    ∃ names : List (List Char), components path = .root :: names.map .name := by
  obtain ⟨names, proper, rfl⟩ := h
  refine ⟨names, ?_⟩
  rw [← ofComponents_root proper]
  refine components_ofComponents (by rintro c ⟨⟩; rfl) fun c hc => ?_
  obtain ⟨n, hn, rfl⟩ := List.mem_map.mp hc
  exact isPart_name.mpr (proper n hn)

theorem kept_absolute {path : List Char} (h : isAbsolute path = true) :
    ∃ names : List (List Char), (∀ n ∈ names, IsName n) ∧ kept path = names.map .name ++ [.root] := by
  obtain ⟨names, climb, proper, settled⟩ := settled_kept path
  rw [h] at settled
  exact ⟨names, proper, settled⟩

/-- The normal form of an absolute path is the text of names behind the root. -/
theorem isCanonical_normalize {path : List Char} (h : isAbsolute path = true) :
    IsCanonical (normalize path) := by
  obtain ⟨names, proper, settled⟩ := kept_absolute h
  have reversed : ∀ n ∈ names.reverse, IsName n := fun n hn => proper n (List.mem_reverse.mp hn)
  refine ⟨names.reverse, reversed, ?_⟩
  rw [normalize_eq, settled, if_neg (by simp), List.reverse_append, ← List.map_reverse]
  exact ofComponents_root reversed

/-- Absolute paths have the same normal form exactly if they lead to the same directory. -/
theorem normalize_eq_iff {path other : List Char} (h : isAbsolute path = true)
    (h' : isAbsolute other = true) : normalize path = normalize other ↔ walk path [] = walk other [] := by
  constructor
  · intro same
    rw [← walk_normalize path, same, walk_normalize]
  · intro same
    have equal : kept path = kept other := by
      refine eq_of_lead (settled_kept path) (settled_kept other) fun dir _ => ?_
      rw [lead_kept, lead_kept, walk_absolute h dir [], same, walk_absolute h' [] dir]
    rw [normalize_eq, equal, ← normalize_eq]

end EnvManifest.Path
