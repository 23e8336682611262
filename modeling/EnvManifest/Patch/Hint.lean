import EnvManifest.Value.Basic

/-!
# Hints

What a dotted path such as `platform.os` names before an expression runs.
-/

namespace EnvManifest

inductive Known where
  | value (value : Value)
  | function

structure Hint where
  path : String
  known : Known

/-- The value at a path. The first hint for the path decides. -/
def Hint.value? (hints : List Hint) (path : String) : Option Value :=
  match hints.find? (·.path == path) with
  | some ⟨_, .value v⟩ => some v
  | _ => none

end EnvManifest
