import EnvManifest.Host.Basic

/-!
# Settings of an evaluation
-/

namespace EnvManifest

structure EvalOptions where
  /-- References to undefined namespaces are errors. -/
  strict : Bool
  /-- How many composites are evaluated at once at most. Zero stands for what the host can do. -/
  jobs : Nat
  /-- The name of the current parameter in expressions. -/
  parameterName : String
  /-- Two definitions of a namespace with the same text are an error. -/
  unique : Bool
deriving DecidableEq, Repr

namespace EvalOptions

def default : EvalOptions := ⟨false, 0, "_", false⟩

/-- How many composites are evaluated at once. -/
def parallelism (o : EvalOptions) (host : Host) : Nat := if o.jobs = 0 then host.cores else o.jobs

/-- The number of composites in a chunk, none if there are no chunks. -/
def chunkSize? (o : EvalOptions) (host : Host) (composites : Nat) : Option Nat :=
  let workers := min (o.parallelism host) host.cores
  if 1 < workers ∧ 1 < composites then some (min workers composites) else none

end EvalOptions

end EnvManifest
