import EnvManifest.Proofs.Builtin.Calls
import EnvManifest.Proofs.Path.Absolute
import Mathlib.Data.List.DropRight

/-!
# Paths taken apart and put together

A path can be taken apart into all its components, or into the path in front of its last name and
that name. Joined again, either of them has the components of the path. The extension is the end of
the name from its last point on.
-/

namespace EnvManifest.Path

open Text Builtin

/-! ## The start of a path -/

theorem splitChar_intercalate {ps : List (List Char)} (plain : ∀ p ∈ ps, '/' ∉ p) (ne : ps ≠ []) :
    splitChar '/' (['/'].intercalate ps) = ps := by
  rw [splitChar_eq_splitOn, List.splitOn_intercalate _ plain ne]

/-- The first part of a path decides how it starts. -/
theorem start?_of_splitChar {path first : List Char} {rest : List (List Char)}
    (h : splitChar '/' path = first :: rest) : start? path =
      if first = [] then if rest = [] then none else some .root
      else if first = ['.'] then some .here else none := by
  cases path with
  | nil =>
    obtain ⟨rfl, rfl⟩ := List.cons.inj h
    rfl
  | cons c cs =>
    by_cases slash : c = '/'
    · subst slash
      rw [splitChar, if_pos rfl] at h
      obtain ⟨rfl, rfl⟩ := List.cons.inj h
      rw [if_pos rfl, if_neg (splitChar_ne_nil '/' cs)]
      rfl
    · obtain ⟨part, parts, split, longer⟩ := splitChar_cons slash cs
      rw [longer] at h
      obtain ⟨rfl, rfl⟩ := List.cons.inj h
      rw [if_neg (List.cons_ne_nil c part)]
      simp only [List.cons.injEq]
      cases cs with
      | nil =>
        obtain ⟨rfl, -⟩ := List.cons.inj split
        rw [start?_singleton, if_neg slash]
        simp
      | cons d ds =>
        rw [start?_cons_cons, if_neg slash]
        by_cases slash' : d = '/'
        · rw [splitChar, if_pos slash'] at split
          obtain ⟨rfl, -⟩ := List.cons.inj split
          simp [slash']
        · obtain ⟨part', parts', -, longer'⟩ := splitChar_cons slash' ds
          rw [longer'] at split
          obtain ⟨rfl, -⟩ := List.cons.inj split
          simp [slash']

theorem start?_cases (path : List Char) :
    start? path = none ∨ start? path = some .root ∨ start? path = some .here := by
  unfold start?
  split <;> simp

theorem plain_of_mem_body {path part : List Char} (h : part ∈ body path) : '/' ∉ part := by
  unfold body at h
  split at h
  · exact not_mem_splitChar path part (List.mem_of_mem_drop h)
  · exact not_mem_splitChar path part h

theorem parts_intercalate {ps : List (List Char)} (plain : ∀ p ∈ ps, '/' ∉ p) :
    parts (['/'].intercalate ps) = ps.filterMap part? := by
  by_cases none : ps = []
  · subst none
    rfl
  · rw [parts, splitChar_intercalate plain none]

/-! ## The path in front of the last name -/

theorem dropIdleEnd_concat (ps : List (List Char)) (p : List Char) :
    dropIdleEnd (ps ++ [p]) = if isIdle p then dropIdleEnd ps else ps ++ [p] :=
  List.rdropWhile_concat isIdle ps p

theorem prefix_dropIdleEnd (ps : List (List Char)) : dropIdleEnd ps <+: ps :=
  List.rdropWhile_prefix isIdle ps

theorem part?_of_isIdle {p : List Char} (h : isIdle p) : part? p = none := if_pos h

/-- Idle parts at the end do not count. -/
theorem filterMap_dropIdleEnd (ps : List (List Char)) :
    (dropIdleEnd ps).filterMap part? = ps.filterMap part? := by
  induction ps using List.reverseRecOn with
  | nil => rfl
  | append_singleton ps p ih =>
    rw [dropIdleEnd_concat]
    split
    next idle => rw [ih, List.filterMap_append, List.filterMap_cons_none (part?_of_isIdle idle)]; simp
    next => rfl

/-- Nothing counts, or what is left ends with a part that does. -/
theorem dropIdleEnd_cases (ps : List (List Char)) : dropIdleEnd ps = [] ∨
    ∃ front last c, dropIdleEnd ps = front ++ [last] ∧ part? last = some c := by
  induction ps using List.reverseRecOn with
  | nil => exact .inl rfl
  | append_singleton ps p ih =>
    rw [dropIdleEnd_concat]
    split
    next => exact ih
    next counts =>
      refine .inr ⟨ps, p, if p = ['.', '.'] then .up else .name p, rfl, ?_⟩
      rw [part?, if_neg counts]
      split <;> rfl

/-- The path in front of its last component, as far as it is kept. -/
def parentOf (start : Option Component) (kept : List (List Char)) : List Char :=
  match start with
  | some .root => '/' :: ['/'].intercalate kept
  | some _ => ['/'].intercalate (['.'] :: kept)
  | none => ['/'].intercalate kept

theorem parent?_eq {path last : List Char} {front : List (List Char)}
    (h : dropIdleEnd (body path) = front ++ [last]) :
    parent? path = some (parentOf (start? path) (dropIdleEnd front)) := by
  unfold parent?
  rw [h]
  dsimp only
  split
  · exact absurd ‹front ++ [last] = []› (by simp)
  · exact absurd ‹front ++ [last] = []› (by simp)
  · rw [List.dropLast_concat]
    obtain start | start | start := start?_cases path <;> rw [start] <;> rfl

/-- A path whose first part is kept starts alike. -/
theorem start?_kept {path : List Char} {kept : List (List Char)} (start : start? path = none)
    (h : kept <+: splitChar '/' path) (named : splitChar '/' path ≠ [[]]) :
    start? (['/'].intercalate kept) = none := by
  cases kept with
  | nil => rfl
  | cons first rest =>
    have plain : ∀ p ∈ first :: rest, '/' ∉ p := fun p hp =>
      not_mem_splitChar path p (h.subset hp)
    obtain ⟨more, whole⟩ := h
    rw [start?_of_splitChar whole.symm] at start
    have ne : first ≠ [] := by
      rintro rfl
      rw [if_pos rfl] at start
      split at start
      next none => exact named (whole.symm.trans (congrArg ([] :: ·) none))
      next => cases start
    rw [start?_of_splitChar (splitChar_intercalate plain (List.cons_ne_nil first rest)), if_neg ne]
    rw [if_neg ne] at start
    split at start
    next => cases start
    next other => rw [if_neg other]

theorem components_parentOf {path : List Char} {kept : List (List Char)} (h : kept <+: body path)
    (named : body path ≠ [[]]) : components (parentOf (start? path) kept) =
      (start? path).toList ++ kept.filterMap part? := by
  have plain : ∀ p ∈ kept, '/' ∉ p := fun p hp => plain_of_mem_body (h.subset hp)
  rw [components_eq]
  obtain start | start | start := start?_cases path
  · unfold body at h named
    rw [start, Option.isSome_none, if_neg Bool.false_ne_true] at h named
    rw [start, parentOf, start?_kept start h named, parts_intercalate plain]
  · rw [start, parentOf, ← List.nil_append ('/' :: _), parts_append, parts_intercalate plain]
    rfl
  · have plain' : ∀ p ∈ ['.'] :: kept, '/' ∉ p := List.forall_mem_cons.mpr ⟨by decide, plain⟩
    have split := splitChar_intercalate plain' (List.cons_ne_nil ['.'] kept)
    have text : parentOf (some .here) kept = ['/'].intercalate (['.'] :: kept) := rfl
    rw [start, text, start?_of_splitChar split, parts_intercalate plain']
    rfl

/-- A path with a last name has a parent, and the name behind it. -/
theorem exists_parent {path name : List Char} (h : fileName? path = some name) :
    ∃ dir, parent? path = some dir ∧ components path = components dir ++ [.name name] := by
  have count := filterMap_dropIdleEnd (body path)
  obtain none | ⟨front, last, c, ends, counts⟩ := dropIdleEnd_cases (body path)
  · -- Then the path is at most its start, which is no name.
    rw [none, List.filterMap_nil] at count
    rw [fileName?, components, ← count, List.append_nil] at h
    obtain start | start | start := start?_cases path <;> rw [start] at h <;> cases h
  · have prefixes : dropIdleEnd front <+: body path :=
      (prefix_dropIdleEnd front).trans ((List.prefix_append front [last]).trans
        (ends ▸ prefix_dropIdleEnd (body path)))
    have named : body path ≠ [[]] := by
      intro single
      rw [single] at ends
      have : dropIdleEnd [[]] = [] := rfl
      simp [this] at ends
    have whole : components path = components (parentOf (start? path) (dropIdleEnd front)) ++ [c] := by
      rw [components_parentOf prefixes named, filterMap_dropIdleEnd, components, ← count, ends,
        List.filterMap_append, List.append_assoc, List.filterMap_cons_some counts]
      rfl
    refine ⟨_, parent?_eq ends, ?_⟩
    rw [fileName?, whole, List.getLast?_concat] at h
    split at h
    next found =>
      obtain rfl := Option.some.inj h
      rw [whole, Option.some.inj found]
    next => cases h

/-- A name behind any path is its last component. -/
theorem components_join_name {name : List Char} (h : IsName name) (dir : List Char) :
    components (join dir name) = components dir ++ [.name name] := by
  by_cases empty : dir = []
  · subst empty
    have alone : join [] name = name := by simp [join]
    rw [alone]
    exact components_text (isPart_name.mpr h)
  · rw [components_join empty (isAbsolute_name h)]
    exact congrArg (components dir ++ ·) (parts_text (isPart_name.mpr h))

/-! ## All components -/

theorem isPart_of_mem_components {path : List Char} {c : Component} (h : c ∈ (components path).tail) :
    c.IsPart := by
  rw [components_eq] at h
  obtain start | start | start := start?_cases path <;> rw [start] at h
  · exact isPart_of_mem_parts (List.mem_of_mem_tail h)
  · exact isPart_of_mem_parts h
  · exact isPart_of_mem_parts h

/-- The components of a path that are joined are its components again. -/
theorem components_joinAll (path : List Char) :
    components (joinAll ((components path).map (·.text))) = components path := by
  refine components_ofComponents (fun c first => ?_) fun c later => isPart_of_mem_components later
  rw [components_eq] at first
  obtain start | start | start := start?_cases path <;> rw [start] at first
  · exact components_text (isPart_of_mem_parts (List.mem_of_mem_head? first))
  · obtain rfl := Option.some.inj first
    rfl
  · obtain rfl := Option.some.inj first
    rfl

theorem isName_of_fileName? {path name : List Char} (h : fileName? path = some name) : IsName name := by
  unfold fileName? at h
  split at h
  next last =>
    obtain rfl := Option.some.inj h
    have mem := List.mem_of_getLast? last
    rw [components_eq] at mem
    obtain start | start | start := start?_cases path <;> rw [start] at mem
    · exact isPart_name.mp (isPart_of_mem_parts mem)
    · exact isPart_name.mp (isPart_of_mem_parts ((List.mem_cons.mp mem).resolve_left nofun))
    · exact isPart_name.mp (isPart_of_mem_parts ((List.mem_cons.mp mem).resolve_left nofun))
  next => cases h

/-! ## Extensions -/

/-- An extension of a name: the end of it from its last point on, with something in front. -/
def IsExtension (extension name : List Char) : Prop :=
  ∃ stem ending, name = stem ++ extension ∧ extension = '.' :: ending ∧ '.' ∉ ending ∧ stem ≠ []

/-- What follows the last point of a text is all of it, or has a point in front. -/
theorem ending_cases (text : List Char) :
    text.rtakeWhile (· != '.') = text ∨
      ∃ stem, text = stem ++ '.' :: text.rtakeWhile (· != '.') := by
  have split := List.rdropWhile_append_rtakeWhile (p := (· != '.')) (l := text)
  by_cases none : text.rdropWhile (· != '.') = []
  · rw [none, List.nil_append] at split
    exact .inl split
  · have point : (text.rdropWhile (· != '.')).getLast none = '.' := by
      simpa using List.rdropWhile_last_not (· != '.') text none
    have front := List.dropLast_concat_getLast none
    rw [point] at front
    refine .inr ⟨(text.rdropWhile (· != '.')).dropLast, ?_⟩
    rw [List.append_cons, front, split]

theorem isExtension_of_extension? {name extension : List Char} (h : extension? name = some extension) :
    IsExtension extension name := by
  have plain : '.' ∉ name.rtakeWhile (· != '.') := fun mem => by
    simpa using List.mem_rtakeWhile_imp mem
  have cases := ending_cases name
  have eq : extension? name =
      if (name.rtakeWhile (· != '.')).length = name.length ∨
        name.take (name.length - (name.rtakeWhile (· != '.')).length - 1) = [] then none
      else some ('.' :: name.rtakeWhile (· != '.')) := rfl
  rw [eq] at h
  generalize name.rtakeWhile (· != '.') = ending at h plain cases
  split at h
  next => cases h
  next counts =>
  obtain rfl := Option.some.inj h
  obtain rfl | ⟨stem, rfl⟩ := cases
  · exact absurd (.inl rfl) counts
  · have front : (stem ++ '.' :: ending).length - ending.length - 1 = stem.length := by
      simp only [List.length_append, List.length_cons]
      omega
    rw [front, List.take_left, not_or] at counts
    exact ⟨stem, ending, rfl, rfl, plain, counts.2⟩

/-! ## Calls -/

/-- Paths are joined to one that splits into these components. -/
def Rejoins (h : Host) (paths : List (List Char)) (components : List (List Char)) : Prop :=
  ∃ joined, call h .pathJoin (paths.map ofChars) = .ok joined ∧
    call h .pathSplit [joined] = .ok (.list (components.map ofChars))

theorem strings_ofChars (paths : List (List Char)) : strings (paths.map ofChars) = paths := by
  have texts := strings_map (paths.map String.ofList)
  rw [List.map_map, List.map_map] at texts
  refine texts.trans ((List.map_congr_left fun cs _ => String.toList_ofList).trans (List.map_id paths))

theorem call_pathSplit (h : Host) (path : List Char) : call h .pathSplit [ofChars path] =
    .ok (.list (((components path).map (·.text)).map ofChars)) := by
  rw [List.map_map]
  exact congrArg
    (fun cs => Except.ok (Value.list ((components cs).map fun c => ofChars c.text)))
    String.toList_ofList

theorem rejoins {h : Host} {paths : List (List Char)} {path : List Char}
    (same : components (joinAll paths) = components path) :
    Rejoins h paths ((components path).map (·.text)) := by
  refine ⟨ofChars (joinAll paths), ?_, by rw [call_pathSplit, same]⟩
  exact congrArg (fun paths => Except.ok (ofChars (joinAll paths))) (strings_ofChars paths)

/-- **Taking a path apart and joining it agree.** A path splits into components that are joined to a
path with the same ones. A name is the last of them, joining it to the directory in front of it
makes a path with the same ones, and its extension is the end of it. An extension is not the whole
name, and has no point but its first character. -/
theorem decomposition_agrees (h : Host) (path : String) :
    ∃ components directory name extension,
      call h .pathSplit [.str path] = .ok (.list (components.map ofChars)) ∧
      call h .pathDirname [.str path] = .ok (ofChars directory) ∧
      call h .pathBasename [.str path] = .ok (ofChars name) ∧
      call h .pathExtname [.str path] = .ok (ofChars extension) ∧
      Rejoins h components components ∧
      (name ≠ [] → components.getLast? = some name ∧ Rejoins h [directory, name] components ∧
        extension <:+ name) ∧
      (extension = [] ∨ IsExtension extension name) := by
  have split := call_pathSplit h path.toList
  rw [ofChars, String.ofList_toList] at split
  refine ⟨_, _, _, _, split, rfl, rfl, rfl, rejoins (components_joinAll path.toList), ?_, ?_⟩
  · intro named
    cases last : fileName? path.toList with
    | none => exact absurd (by rw [last]; rfl) named
    | some name =>
      obtain ⟨dir, parent, whole⟩ := exists_parent last
      have proper := isName_of_fileName? last
      have alone : join [] dir = dir := by simp [join]
      rw [parent, Option.getD_some, Option.getD_some, Option.bind_some]
      refine ⟨?_, rejoins ?_, ?_⟩
      · rw [whole, List.map_append, List.map_singleton, List.getLast?_concat]
        rfl
      · rw [joinAll, List.foldl_cons, List.foldl_cons, List.foldl_nil, alone,
          components_join_name proper, whole]
      · cases ext : extension? name with
        | none => exact List.nil_suffix
        | some extension =>
          obtain ⟨stem, ending, text, -⟩ := isExtension_of_extension? ext
          exact ⟨stem, text.symm⟩
  · cases last : fileName? path.toList with
    | none => exact .inl rfl
    | some name =>
      rw [Option.getD_some, Option.bind_some]
      cases ext : extension? name with
      | none => exact .inl rfl
      | some extension => exact .inr (isExtension_of_extension? ext)

end EnvManifest.Path
