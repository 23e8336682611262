import EnvManifest.Proofs.Builtin.Calls
import EnvManifest.Proofs.Path.Absolute

/-!
# Paths from one directory to another

A relative path between two absolute paths goes up as many steps as the first has components of its
own, and then takes those of the second. Each `..` of the first counts as a step too, so that the
path leads two directories too high for it.
-/

namespace EnvManifest.Path

open Text

/-! ## Where two paths part -/

theorem common_comm (old new : List Component) : common old new = common new old := by
  induction old generalizing new with
  | nil => cases new <;> rfl
  | cons a old ih =>
    cases new with
    | nil => rfl
    | cons b new =>
      rw [common, common, ih]
      by_cases same : a = b
      · rw [if_pos same, if_pos same.symm]
      · rw [if_neg same, if_neg (Ne.symm same)]

theorem take_common (old new : List Component) :
    new.take (common old new) = old.take (common old new) := by
  induction old generalizing new with
  | nil => cases new <;> rfl
  | cons a old ih =>
    cases new with
    | nil => rfl
    | cons b new =>
      rw [common]
      split
      next same => rw [List.take_succ_cons, List.take_succ_cons, ih, same]
      next => rfl

/-- The components of a path from where it parts from another one. -/
def apart (path other : List Char) : List Component :=
  (components path).drop (common (components path) (components other))

/-- The directory in which two paths part. -/
def parting (path other : List Char) : Directory :=
  ((components path).take (common (components path) (components other))).foldl Component.visit []

theorem parting_comm (path other : List Char) : parting path other = parting other path := by
  rw [parting, parting, ← take_common, common_comm]

theorem walk_apart (path other : List Char) :
    walk path [] = (apart path other).foldl Component.visit (parting path other) := by
  rw [walk_eq, apart, parting, ← List.foldl_append, List.take_append_drop]

theorem components_absolute {path : List Char} (h : isAbsolute path = true) :
    components path = .root :: parts path := by
  rw [components_eq, (isAbsolute_iff path).mp h]
  rfl

/-- Absolute paths have the root in common, so what is their own are steps up and names. -/
theorem isPart_of_mem_apart {path other : List Char} (h : isAbsolute path = true)
    (h' : isAbsolute other = true) {c : Component} (hc : c ∈ apart path other) : c.IsPart := by
  rw [apart, components_absolute h, components_absolute h', common, if_pos rfl, List.drop_succ_cons] at hc
  exact isPart_of_mem_parts (List.mem_of_mem_drop hc)

/-! ## The way back -/

/-- As many steps up as a way has parts lead back to its start, but two directories higher for each
step up of the way. -/
theorem foldl_back {way : List Component} (h : ∀ c ∈ way, c.IsPart) (dir : Directory) :
    (List.replicate way.length Component.up).foldl Component.visit (way.foldl Component.visit dir) =
      dir.drop (2 * way.count Component.up) := by
  induction way generalizing dir with
  | nil => rfl
  | cons c way ih =>
    obtain ⟨hc, rest⟩ := List.forall_mem_cons.mp h
    rw [List.length_cons, List.replicate_succ', List.foldl_append, List.foldl_cons (a := c), ih rest]
    change ((c.visit dir).drop _).tail = _
    rw [List.tail_drop]
    obtain rfl | ⟨text, rfl, -⟩ := isPart_cases hc
    · rw [List.count_cons_self, Component.visit, ← List.drop_one, List.drop_drop]
      congr 1
      omega
    · have other : Component.name text ≠ .up := by simp
      rw [List.count_cons_of_ne other, Component.visit, List.drop_succ_cons]

/-- Does a way come by the root, at its start, in between or at its end? -/
def PassesRoot (way : List Component) (dir : Directory) : Prop :=
  ∃ n, (way.take n).foldl Component.visit dir = []

theorem passesRoot_nil {dir : Directory} : PassesRoot [] dir ↔ dir = [] := by
  simp [PassesRoot]

theorem passesRoot_cons {c : Component} {way : List Component} {dir : Directory} :
    PassesRoot (c :: way) dir ↔ dir = [] ∨ PassesRoot way (c.visit dir) := by
  constructor
  · rintro ⟨n, root⟩
    cases n with
    | zero => exact .inl root
    | succ n => exact .inr ⟨n, root⟩
  · rintro (root | ⟨n, root⟩)
    · exact ⟨0, root⟩
    · exact ⟨n + 1, root⟩

theorem drop_eq_self {dir : Directory} {n : Nat} (hn : 0 < n) : dir.drop n = dir ↔ dir = [] := by
  constructor
  · intro same
    have counts := congrArg List.length same
    rw [List.length_drop] at counts
    exact List.eq_nil_of_length_eq_zero (by omega)
  · rintro rfl
    exact List.drop_nil

/-- A way leads to the same place from a directory and from one above it only if it leaves behind
what the two have apart, and so comes by the root. -/
theorem foldl_drop_iff {way : List Component} (h : ∀ c ∈ way, c.IsPart) (front dir : Directory)
    {n : Nat} (hn : 0 < n) :
    way.foldl Component.visit (front ++ dir.drop n) = way.foldl Component.visit (front ++ dir) ↔
      dir = [] ∨ PassesRoot way (front ++ dir) := by
  induction way generalizing front dir with
  | nil =>
    rw [List.foldl_nil, List.foldl_nil, List.append_cancel_left_eq, drop_eq_self hn, passesRoot_nil,
      List.append_eq_nil_iff]
    exact (or_iff_left_of_imp And.right).symm
  | cons c way ih =>
    obtain ⟨hc, rest⟩ := List.forall_mem_cons.mp h
    have absorbed : front ++ dir = [] → dir = [] := fun e => (List.append_eq_nil_iff.mp e).2
    rw [List.foldl_cons, List.foldl_cons, passesRoot_cons, ← or_assoc, or_iff_left_of_imp absorbed]
    obtain rfl | ⟨text, rfl, -⟩ := isPart_cases hc
    · cases front with
      | nil =>
        have root : dir.tail = [] → PassesRoot way dir.tail := fun root => ⟨0, root⟩
        have above : (dir.drop n).tail = dir.tail.drop n := by rw [List.tail_drop, List.drop_tail]
        have next := ih rest [] dir.tail
        rw [List.nil_append, List.nil_append, ← above, or_iff_right_of_imp root] at next
        change way.foldl Component.visit (dir.drop n).tail = way.foldl Component.visit dir.tail ↔
          dir = [] ∨ PassesRoot way dir.tail
        rw [next, or_iff_right_of_imp fun empty => root (by rw [empty]; rfl)]
      | cons f front => exact ih rest front dir
    · exact ih rest (text :: front) dir

/-! ## Relative paths -/

/-- A path that is made of parts, or a point for none, leads where the parts lead. -/
theorem walk_steps {steps : List Component} (h : ∀ c ∈ steps, c.IsPart) (dir : Directory) :
    walk (if steps.isEmpty then ['.'] else ofComponents steps) dir =
      steps.foldl Component.visit dir := by
  split
  next none =>
    obtain rfl := List.isEmpty_iff.mp none
    rfl
  next =>
    rw [walk_eq, components_ofComponents]
    · exact fun c hc => components_text (h c (List.mem_of_mem_head? hc))
    · exact fun c hc => h c (List.mem_of_mem_tail hc)

theorem relative_eq (origin target : List Char) :
    let steps := List.replicate (apart origin target).length .up ++ apart target origin
    relative origin target = if steps.isEmpty then ['.'] else ofComponents steps := by
  rw [apart, apart, List.length_drop, common_comm (components target)]
  rfl

/-- Where a relative path leads from its origin. -/
theorem walk_join_relative {origin target : List Char} (h : isAbsolute origin = true)
    (h' : isAbsolute target = true) :
    walk (join origin (relative origin target)) [] = (apart target origin).foldl Component.visit
      ((parting target origin).drop (2 * (apart origin target).count Component.up)) := by
  have steps : ∀ c ∈ List.replicate (apart origin target).length .up ++ apart target origin,
      c.IsPart := by
    intro c hc
    obtain hc | hc := List.mem_append.mp hc
    · rw [List.eq_of_mem_replicate hc]
      exact isPart_up
    · exact isPart_of_mem_apart h' h hc
  rw [walk_join, relative_eq, walk_steps steps, walk_apart origin target, List.foldl_append,
    foldl_back fun c hc => isPart_of_mem_apart h h' hc, parting_comm]

theorem normalize_join_relative {origin target : List Char} (h : isAbsolute origin = true)
    (h' : isAbsolute target = true) :
    normalize (join origin (relative origin target)) = normalize target ↔
      .up ∉ apart origin target ∨ PassesRoot (apart target origin) (parting target origin) := by
  have own : ∀ c ∈ apart target origin, c.IsPart := fun c hc => isPart_of_mem_apart h' h hc
  rw [normalize_eq_iff (isAbsolute_join h _) h', walk_join_relative h h', walk_apart target origin]
  by_cases level : .up ∈ apart origin target
  · have higher : 0 < 2 * (apart origin target).count Component.up := by
      have := List.count_pos_iff.mpr level
      omega
    have same := foldl_drop_iff own [] (parting target origin) higher
    rw [or_iff_right_of_imp fun empty => ⟨0, empty⟩] at same
    rw [or_iff_right (not_not_intro level)]
    exact same
  · rw [List.count_eq_zero.mpr level]
    exact iff_of_true rfl (.inl level)

/-- **When a relative path leads to its target.** Joined to the first of two absolute paths, the
relative path leads to the second exactly if the first has no step up after they part, or the second
comes by the root there. -/
theorem relative_leads_iff (host : Host) {origin target : String}
    (h : isAbsolute origin.toList = true) (h' : isAbsolute target.toList = true) :
    ∃ way joined : String,
      Builtin.call host .pathRelative [.str origin, .str target] = .ok (.str way) ∧
      Builtin.call host .pathJoin [.str origin, .str way] = .ok (.str joined) ∧
      (Builtin.call host .pathNormalize [.str joined] =
          Builtin.call host .pathNormalize [.str target] ↔
        .up ∉ apart origin.toList target.toList ∨
          PassesRoot (apart target.toList origin.toList) (parting target.toList origin.toList)) := by
  refine ⟨_, _, rfl, Builtin.call_join host origin _, ?_⟩
  rw [Builtin.call_normalize, Builtin.call_normalize, Except.ok.injEq, Builtin.ofChars_inj,
    String.toList_ofList, String.toList_ofList]
  exact normalize_join_relative h h'

/-- The second path may go up, and points and further slashes do not count. -/
theorem sibling_reached :
    isAbsolute "/srv/./www//x".toList = true ∧ isAbsolute "/srv/log/../etc/".toList = true ∧
      let host := Host.inDirectory "/"
      Builtin.call host .pathRelative [.str "/srv/./www//x", .str "/srv/log/../etc/"] =
        .ok (.str "../../log/../etc") ∧
      Builtin.call host .pathJoin [.str "/srv/./www//x", .str "../../log/../etc"] =
        .ok (.str "/srv/./www//x/../../log/../etc") ∧
      Builtin.call host .pathNormalize [.str "/srv/./www//x/../../log/../etc"] =
        Builtin.call host .pathNormalize [.str "/srv/log/../etc/"] := by
  have absolute : isAbsolute "/srv/./www//x".toList = true := by decide
  have absolute' : isAbsolute "/srv/log/../etc/".toList = true := by decide
  obtain ⟨way, joined, related, composed, leads⟩ :=
    relative_leads_iff (Host.inDirectory "/") absolute absolute'
  have way_eq : way = "../../log/../etc" := by
    cases related
    rfl
  subst way_eq
  have joined_eq : joined = "/srv/./www//x/../../log/../etc" := by
    cases composed
    rfl
  subst joined_eq
  exact ⟨absolute, absolute', related, composed, leads.mpr (.inl (by decide))⟩

/-- A step up in the first path alone is counted as a directory to leave. -/
theorem relative_misses : ¬ ∀ (host : Host) (origin target way joined : String),
    isAbsolute origin.toList = true → isAbsolute target.toList = true →
      Builtin.call host .pathRelative [.str origin, .str target] = .ok (.str way) →
      Builtin.call host .pathJoin [.str origin, .str way] = .ok (.str joined) →
      Builtin.call host .pathNormalize [.str joined] =
        Builtin.call host .pathNormalize [.str target] := by
  intro leads
  have same := leads (Host.inDirectory "/") "/a/.." "/a/b" "../b" "/a/../../b" (by decide) (by decide)
    rfl rfl
  rw [Builtin.call_normalize, Builtin.call_normalize, Except.ok.injEq, Builtin.ofChars_inj] at same
  exact absurd same (by decide)

end EnvManifest.Path
