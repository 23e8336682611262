import EnvManifest.Proofs.Builtin.Calls
import EnvManifest.Proofs.Path.Absolute

/-!
# Resolved paths

A resolved list of paths is the normal form of all of them joined to the working directory. So a
list can be resolved in steps, and what stands before an absolute path does not matter.
-/

namespace EnvManifest.Path

/-! ## Lists of paths after a base -/

/-- A normal form in the place of the paths that it stands for. -/
theorem normalize_foldl_join {base : List Char} (h : isAbsolute base = true)
    (paths : List (List Char)) :
    normalize (paths.foldl join (normalize base)) = normalize (paths.foldl join base) := by
  have first : isAbsolute (normalize base) = true := by rw [isAbsolute_normalize, h]
  rw [normalize_eq_iff (isAbsolute_foldl_join first paths) (isAbsolute_foldl_join h paths),
    walk_foldl_join, walk_foldl_join, walk_normalize]

/-- An absolute path takes the place of what stands before it. -/
theorem foldl_join_absolute {path : List Char} (h : isAbsolute path = true) (base : List Char)
    (before after : List (List Char)) :
    (before ++ path :: after).foldl join base = after.foldl join path := by
  rw [List.foldl_append, List.foldl_cons, join, if_pos h]

/-! ## Calls -/

/-- **Paths resolve step by step.** A list of paths resolves as the resolution of its front before
the rest does. The answer is an absolute path of names alone, and only the last absolute path counts
with what stands after it, on every host. -/
theorem resolve_incremental (h : Host) (absolute : isAbsolute h.workingDirectory.toList = true)
    (paths more : List String) :
    ∃ first whole : String,
      Builtin.call h .pathResolve (paths.map .str) = .ok (.str first) ∧
      Builtin.call h .pathResolve ((paths ++ more).map .str) = .ok (.str whole) ∧
      Builtin.call h .pathResolve ((first :: more).map .str) = .ok (.str whole) ∧
      isAbsolute first.toList = true ∧
      (∀ c ∈ components first.toList, c ≠ .here ∧ c ≠ .up) ∧
      IsCanonical first.toList ∧
      ∀ before path after, paths = before ++ path :: after → isAbsolute path.toList = true →
        ∀ (other : Host) (before' : List String),
          Builtin.call other .pathResolve ((before' ++ path :: after).map .str) = .ok (.str first) := by
  have joined := isAbsolute_foldl_join absolute (paths.map String.toList)
  have canonical := isCanonical_normalize joined
  refine ⟨_, _, Builtin.call_resolve h paths, Builtin.call_resolve h (paths ++ more), ?_, ?_, ?_, ?_, ?_⟩
  · rw [Builtin.call_resolve, List.map_cons, List.foldl_cons, String.toList_ofList, join,
      if_pos (by rw [isAbsolute_normalize, joined]), normalize_foldl_join joined, List.map_append,
      List.foldl_append]
    rfl
  · rw [String.toList_ofList, isAbsolute_normalize, joined]
  · rw [String.toList_ofList]
    obtain ⟨names, names_eq⟩ := canonical.components_eq
    rw [names_eq]
    simp
  · rw [String.toList_ofList]
    exact canonical
  · rintro before path after rfl last other before'
    rw [Builtin.call_resolve, List.map_append, List.map_append, List.map_cons,
      foldl_join_absolute last, foldl_join_absolute last]
    rfl

/-- A step up in the rest takes away a name of the front, and what stands before `/b` is lost. -/
theorem site_resolved :
    isAbsolute (Host.inDirectory "/srv").workingDirectory.toList = true ∧
      isAbsolute "/b/./c".toList = true ∧
      Builtin.call (Host.inDirectory "/srv") .pathResolve [.str "a", .str "/b/./c", .str ""] =
        .ok (.str "/b/c") ∧
      Builtin.call (Host.inDirectory "/srv") .pathResolve
        [.str "a", .str "/b/./c", .str "", .str "../d"] = .ok (.str "/b/d") ∧
      Builtin.call (Host.inDirectory "/srv") .pathResolve [.str "/b/c", .str "../d"] =
        .ok (.str "/b/d") ∧
      Builtin.call (Host.inDirectory "/home") .pathResolve [.str "/b/./c", .str ""] =
        .ok (.str "/b/c") := by
  have absolute : isAbsolute (Host.inDirectory "/srv").workingDirectory.toList = true := by decide
  have last : isAbsolute "/b/./c".toList = true := by decide
  obtain ⟨first, whole, hfirst, hwhole, steps, -, -, -, independent⟩ :=
    resolve_incremental (Host.inDirectory "/srv") absolute ["a", "/b/./c", ""] ["../d"]
  have first_eq : first = "/b/c" := by
    cases hfirst
    rfl
  have whole_eq : whole = "/b/d" := by
    cases hwhole
    rfl
  subst first_eq whole_eq
  exact ⟨absolute, last, hfirst, hwhole, steps,
    independent ["a"] "/b/./c" [""] rfl last (Host.inDirectory "/home") []⟩

end EnvManifest.Path
