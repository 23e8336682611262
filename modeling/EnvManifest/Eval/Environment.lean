import EnvManifest.Manifest.Ast
import EnvManifest.Value.Basic

/-!
# Environments

What the evaluation of a namespace gives: its variables, and the parameters that it hands to the
namespaces which compose it.
-/

namespace EnvManifest

structure Environment where
  vars : Fields Value
  parameters : List Parameter

namespace Environment

def empty : Environment := ⟨[], []⟩

/-- Two environments in one. The variables of the second count, and its parameters come last. -/
def merge (a b : Environment) : Environment :=
  ⟨Fields.union a.vars b.vars, a.parameters ++ b.parameters⟩

end Environment

end EnvManifest
