import EnvManifest.Proofs.Path.Components

/-!
# The normal form of a path

A path leads from each directory to another one. Its normal form leads to the same directories, and
two paths have the same normal form only if they lead to the same directories from everywhere.
-/

namespace EnvManifest.Path

open Text

/-! ## Where a path leads -/

/-- A directory: the names on the way to it from the root, the last of them first. -/
abbrev Directory := List (List Char)

/-- Where one part of a path leads. There is nothing above the root. -/
def visit (dir : Directory) (part : List Char) : Directory :=
  if part = [] ∨ part = ['.'] then dir
  else if part = ['.', '.'] then dir.tail
  else part :: dir

/-- Where a path leads from a directory, part by part. An absolute path starts at the root. -/
def walk (path : List Char) (dir : Directory) : Directory :=
  (splitChar '/' path).foldl visit (if isAbsolute path then [] else dir)

/-- Where a component leads. -/
def Component.visit (dir : Directory) : Component → Directory
  | root => []
  | here => dir
  | up => dir.tail
  | name text => text :: dir

theorem visit_part? (dir : Directory) (part : List Char) :
    visit dir part = (part? part).elim dir (Component.visit dir) := by
  unfold visit part? isIdle
  simp only [Bool.or_eq_true, beq_iff_eq]
  split
  · rfl
  split <;> rfl

theorem foldl_visit (ps : List (List Char)) (dir : Directory) :
    ps.foldl visit dir = (ps.filterMap part?).foldl Component.visit dir := by
  induction ps generalizing dir with
  | nil => rfl
  | cons p ps ih =>
    rw [List.foldl_cons, visit_part?, ih]
    cases hp : part? p with
    | none => rw [List.filterMap_cons_none hp, Option.elim_none]
    | some c => rw [List.filterMap_cons_some hp, Option.elim_some, List.foldl_cons]

theorem isAbsolute_iff (path : List Char) : isAbsolute path = true ↔ start? path = some .root := by
  unfold isAbsolute start?
  rw [beq_iff_eq]
  split <;> simp_all [List.head?_eq_some_iff]

theorem start?_relative {path : List Char} (h : isAbsolute path = false) :
    start? path = none ∨ start? path = some .here := by
  have other : start? path ≠ some .root := fun e => by simp [(isAbsolute_iff path).mpr e] at h
  revert other
  unfold start?
  split <;> simp

theorem visit_start (path : List Char) (dir : Directory) :
    (start? path).toList.foldl Component.visit dir = if isAbsolute path then [] else dir := by
  cases absolute : isAbsolute path with
  | true =>
    rw [(isAbsolute_iff path).mp absolute]
    rfl
  | false => obtain none | here := start?_relative absolute <;> simp [*, Component.visit]

/-- A path leads where its components lead. -/
theorem walk_eq (path : List Char) (dir : Directory) :
    walk path dir = (components path).foldl Component.visit dir := by
  rw [walk, foldl_visit, components_eq, List.foldl_append, visit_start]
  rfl

/-! ## What is kept -/

/-- The components that the normal form keeps, the last of them first. -/
def kept (path : List Char) : List Component := (components path).foldl normalStep []

/-- Where the kept components lead. -/
def lead (cs : List Component) (dir : Directory) : Directory :=
  cs.foldr (fun c dir => Component.visit dir c) dir

theorem lead_normalStep (cs : List Component) (c : Component) (dir : Directory) :
    lead (normalStep cs c) dir = Component.visit (lead cs dir) c := by
  cases c with
  | up =>
    match cs with
    | [] => rfl
    | .root :: _ => rfl
    | .here :: _ => rfl
    | .up :: _ => rfl
    | .name _ :: _ => rfl
  | _ => rfl

theorem lead_foldl (cs done : List Component) (dir : Directory) :
    lead (cs.foldl normalStep done) dir = cs.foldl Component.visit (lead done dir) := by
  induction cs generalizing done with
  | nil => rfl
  | cons c cs ih => rw [List.foldl_cons, ih, lead_normalStep, List.foldl_cons]

/-- What is kept leads where the path leads. -/
theorem lead_kept (path : List Char) (dir : Directory) : lead (kept path) dir = walk path dir := by
  rw [walk_eq, kept, lead_foldl]
  rfl

/-- The start of a normal path: the root, or some steps up. -/
def base (absolute : Bool) (climb : Nat) : List Component :=
  if absolute then [.root] else List.replicate climb .up

/-- Names after a start, the last of them first. -/
def Settled (absolute : Bool) (cs : List Component) : Prop :=
  ∃ (names : List (List Char)) (climb : Nat),
    (∀ n ∈ names, IsName n) ∧ cs = names.map .name ++ base absolute climb

theorem settled_step {absolute : Bool} {cs : List Component} {c : Component}
    (h : Settled absolute cs) (hc : c.IsPart) : Settled absolute (normalStep cs c) := by
  obtain ⟨names, climb, proper, rfl⟩ := h
  obtain rfl | ⟨text, rfl, name⟩ := isPart_cases hc
  · cases names with
    | cons n names => exact ⟨names, climb, (List.forall_mem_cons.mp proper).2, rfl⟩
    | nil =>
      cases absolute with
      | true => exact ⟨[], climb, proper, rfl⟩
      | false =>
        refine ⟨[], climb + 1, proper, ?_⟩
        cases climb <;> rfl
  · exact ⟨text :: names, climb, List.forall_mem_cons.mpr ⟨name, proper⟩, rfl⟩

theorem settled_foldl {absolute : Bool} {cs done : List Component} (h : Settled absolute done)
    (hcs : ∀ c ∈ cs, c.IsPart) : Settled absolute (cs.foldl normalStep done) := by
  induction cs generalizing done with
  | nil => exact h
  | cons c cs ih =>
    obtain ⟨hc, hcs⟩ := List.forall_mem_cons.mp hcs
    exact ih (settled_step h hc) hcs

theorem settled_kept (path : List Char) : Settled (isAbsolute path) (kept path) := by
  rw [kept, components_eq, List.foldl_append]
  refine settled_foldl ?_ fun c hc => isPart_of_mem_parts hc
  cases absolute : isAbsolute path with
  | true =>
    rw [(isAbsolute_iff path).mp absolute]
    exact ⟨[], 0, nofun, rfl⟩
  | false =>
    obtain none | here := start?_relative absolute
    · rw [none]
      exact ⟨[], 0, nofun, rfl⟩
    · rw [here]
      exact ⟨[], 0, nofun, rfl⟩

/-! ## The normal form has what is kept -/

theorem reverse_base (absolute : Bool) (climb : Nat) : (base absolute climb).reverse = base absolute climb := by
  cases absolute with
  | true => rfl
  | false => exact List.reverse_replicate ..

/-- Nothing is taken away from what is kept. -/
theorem foldl_reverse {absolute : Bool} {cs : List Component} (h : Settled absolute cs) :
    cs.reverse.foldl normalStep [] = cs := by
  obtain ⟨names, climb, -, rfl⟩ := h
  induction names with
  | nil =>
    rw [List.map_nil, List.nil_append]
    cases absolute with
    | true => rfl
    | false =>
      change (List.replicate climb Component.up).reverse.foldl normalStep [] = List.replicate climb Component.up
      induction climb with
      | zero => rfl
      | succ climb ih =>
        rw [List.replicate_succ, List.reverse_cons, List.foldl_append, ih]
        cases climb <;> rfl
  | cons n names ih =>
    rw [List.map_cons, List.cons_append, List.reverse_cons, List.foldl_append, ih]
    rfl

theorem components_settled {absolute : Bool} {cs : List Component} (h : Settled absolute cs) :
    components (ofComponents cs.reverse) = cs.reverse := by
  obtain ⟨names, climb, proper, rfl⟩ := h
  have named : ∀ c ∈ (names.map Component.name).reverse, c.IsPart := by
    intro c hc
    obtain ⟨n, hn, rfl⟩ := List.mem_map.mp (List.mem_reverse.mp hc)
    exact isPart_name.mpr (proper n hn)
  rw [List.reverse_append, reverse_base]
  cases absolute with
  | true => exact components_ofComponents (by rintro c ⟨⟩; rfl) named
  | false =>
    have all : ∀ c ∈ base false climb ++ (names.map Component.name).reverse, c.IsPart := by
      intro c hc
      obtain hc | hc := List.mem_append.mp hc
      · rw [List.eq_of_mem_replicate hc]
        exact isPart_up
      · exact named c hc
    exact components_ofComponents (fun c hc => components_text (all c (List.mem_of_mem_head? hc)))
      fun c hc => all c (List.mem_of_mem_tail hc)

theorem normalize_eq (path : List Char) :
    normalize path = if kept path = [] then ['.'] else ofComponents (kept path).reverse := by
  unfold normalize
  split
  next none => exact (if_pos none).symm
  next some => exact (if_neg some).symm

theorem components_normalize (path : List Char) :
    components (normalize path) = if kept path = [] then [.here] else (kept path).reverse := by
  rw [normalize_eq]
  split
  · rfl
  · exact components_settled (settled_kept path)

/-- The normal form is kept whole. -/
theorem kept_normalize (path : List Char) : kept (normalize path) = kept path := by
  rw [kept, components_normalize]
  split
  next none => exact none.symm
  next => exact foldl_reverse (settled_kept path)

theorem walk_normalize (path : List Char) : walk (normalize path) = walk path := by
  funext dir
  rw [← lead_kept, ← lead_kept, kept_normalize]

theorem normalize_normalize (path : List Char) : normalize (normalize path) = normalize path := by
  rw [normalize_eq, kept_normalize, ← normalize_eq]

/-! ## Paths that lead to the same directories -/

theorem lead_settled (names : List (List Char)) (absolute : Bool) (climb : Nat) (dir : Directory) :
    lead (names.map .name ++ base absolute climb) dir =
      names ++ if absolute then [] else dir.drop climb := by
  induction names with
  | cons n names ih => exact congrArg (n :: ·) ih
  | nil =>
    cases absolute with
    | true => rfl
    | false =>
      change lead (List.replicate climb .up) dir = dir.drop climb
      induction climb with
      | zero => rfl
      | succ climb ih =>
        change (lead (List.replicate climb .up) dir).tail = _
        rw [ih, List.tail_drop]

theorem exists_fresh (names : List (List Char)) : ∃ z, IsName z ∧ z ∉ names := by
  have bound : ∃ k, ∀ n ∈ names, n.length ≤ k := by
    induction names with
    | nil => exact ⟨0, nofun⟩
    | cons n names ih =>
      obtain ⟨k, hk⟩ := ih
      refine ⟨max n.length k, List.forall_mem_cons.mpr ⟨Nat.le_max_left .., fun m hm => ?_⟩⟩
      exact Nat.le_trans (hk m hm) (Nat.le_max_right ..)
  obtain ⟨k, hk⟩ := bound
  refine ⟨List.replicate (k + 1) 'z', ⟨by simp, by simp, by simp [List.replicate_succ],
    by simp [List.replicate_succ]⟩, fun mem => ?_⟩
  have := hk _ mem
  rw [List.length_replicate] at this
  omega

/-- What leads to the same directories is the same: a directory that is deep enough, with names of
its own, tells the names, the number of steps up and the root apart. -/
theorem eq_of_lead {absolute absolute' : Bool} {cs ds : List Component} (hcs : Settled absolute cs)
    (hds : Settled absolute' ds)
    (same : ∀ dir : Directory, (∀ n ∈ dir, IsName n) → lead cs dir = lead ds dir) : cs = ds := by
  obtain ⟨names, climb, -, rfl⟩ := hcs
  obtain ⟨names', climb', -, rfl⟩ := hds
  obtain ⟨z, proper, fresh⟩ := exists_fresh (names ++ names')
  rw [List.mem_append, not_or] at fresh
  have deep := same (List.replicate (climb + climb' + 1) z) fun n hn => List.eq_of_mem_replicate hn ▸ proper
  rw [lead_settled, lead_settled] at deep
  have counts := congrArg (List.count z) deep
  simp only [List.count_append, List.count_eq_zero.mpr fresh.1, List.count_eq_zero.mpr fresh.2,
    List.drop_replicate, Nat.zero_add] at counts
  cases absolute <;> cases absolute' <;>
    simp only [if_true, Bool.false_eq_true, if_false, List.count_nil, List.count_replicate_self] at counts deep
  · obtain rfl : climb = climb' := by omega
    rw [List.append_cancel_right deep]
  · omega
  · omega
  · rw [List.append_nil, List.append_nil] at deep
    rw [deep]
    rfl

/-! ## The normal form -/

theorem Settled.root_mem {absolute : Bool} {cs : List Component} (h : Settled absolute cs) :
    Component.root ∈ cs ↔ absolute = true := by
  obtain ⟨names, climb, -, rfl⟩ := h
  cases absolute <;> simp [base]

/-- The normal form of an absolute path is absolute, and that of a relative path is relative. -/
theorem isAbsolute_normalize (path : List Char) : isAbsolute (normalize path) = isAbsolute path := by
  have same := settled_kept (normalize path)
  rw [kept_normalize] at same
  rw [Bool.eq_iff_iff, ← same.root_mem, (settled_kept path).root_mem]

/-- A path without `.`, and with `..` only at the start of a relative path. -/
def IsNormal (path : List Char) : Prop :=
  ∃ (names : List (List Char)) (climb : Nat), (∀ n ∈ names, IsName n) ∧
    components path = base (isAbsolute path) climb ++ names.map .name

theorem normalize_here_or_isNormal (path : List Char) : normalize path = ['.'] ∨ IsNormal (normalize path) := by
  by_cases none : kept path = []
  · left
    rw [normalize_eq, if_pos none]
  · right
    obtain ⟨names, climb, proper, settled⟩ := settled_kept path
    refine ⟨names.reverse, climb, fun n hn => proper n (List.mem_reverse.mp hn), ?_⟩
    rw [components_normalize, if_neg none, settled, isAbsolute_normalize, List.reverse_append,
      reverse_base, List.map_reverse]

/-- **The normal form is canonical.** It leads where the path leads, two paths have the same one
exactly if they lead to the same directories, and it is its own normal form. -/
theorem normalize_canonical (path other : List Char) :
    walk (normalize path) = walk path ∧
    (normalize path = normalize other ↔
      ∀ dir : Directory, (∀ n ∈ dir, IsName n) → walk path dir = walk other dir) ∧
    normalize (normalize path) = normalize path ∧
    isAbsolute (normalize path) = isAbsolute path ∧
    (normalize path = ['.'] ∨ IsNormal (normalize path)) := by
  refine ⟨walk_normalize path, ⟨fun same dir _ => ?_, fun same => ?_⟩, normalize_normalize path,
    isAbsolute_normalize path, normalize_here_or_isNormal path⟩
  · rw [← walk_normalize path, same, walk_normalize]
  · have equal : kept path = kept other := by
      refine eq_of_lead (settled_kept path) (settled_kept other) fun dir proper => ?_
      rw [lead_kept, lead_kept, same dir proper]
    rw [normalize_eq, equal, ← normalize_eq]

example : String.ofList (normalize "../a/./b//../c".toList) = "../a/c" := by decide

end EnvManifest.Path
