import EnvManifest.Builtin.Basic
import EnvManifest.Host.Basic
import EnvManifest.Patch.Hint

/-!
# Facts

What expressions see under fixed names: the target, the platform, the names of host and user, and
the shell. Each evaluation may have facts of its own.
-/

namespace EnvManifest

/-- Facts by name. -/
abbrev Facts := Fields Value

namespace Facts

/-- The facts of a host. -/
def ofHost (h : Host) : Facts :=
  let target := h.target
  Fields.ofList [
    ("target", Value.ofFields
      [("os", .str target.system), ("arch", .str target.processor), ("triple", .str target.triple)]),
    ("platform", Value.ofFields
      [("os", .str h.system), ("arch", .str h.processor), ("family", .str h.family)]),
    ("hostname", .str h.hostName),
    ("user", .str h.userName),
    ("shell", .str h.shell)]

mutual

/-- The values below a path that are not objects, each with its path. -/
def leaves (path : String) : Value → List (String × Value)
  | .object fields => leavesOf path fields
  | .null => [(path, .null)]
  | .bool b => [(path, .bool b)]
  | .int n => [(path, .int n)]
  | .float x => [(path, .float x)]
  | .str s => [(path, .str s)]
  | .list items => [(path, .list items)]

def leavesOf (path : String) : List (String × Value) → List (String × Value)
  | [] => []
  | (key, v) :: more => leaves (path ++ "." ++ key) v ++ leavesOf path more

end

/-- What every dotted path names: the facts, then the functions. -/
def hints (facts : Facts) : List Hint :=
  facts.flatMap (fun (key, v) => (leaves key v).map fun (path, v) => ⟨path, .value v⟩) ++
    Builtin.all.map fun b => ⟨b.name, .function⟩

end Facts

end EnvManifest
