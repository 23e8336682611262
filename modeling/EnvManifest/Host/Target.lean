import EnvManifest.Value.Basic

/-!
# Operating systems and processors

Hosts report their system and processor under one spelling; targets use another.
-/

namespace EnvManifest.Host

inductive Os where
  | linux | darwin | windows | freeBsd | netBsd | openBsd
  /-- Any other system, under the name that the host reports. -/
  | other (name : String)
deriving DecidableEq, Repr

/-- The system that a host reports. -/
def Os.ofReport : String → Os
  | "linux" => linux
  | "macos" => darwin
  | "windows" => windows
  | "freebsd" => freeBsd
  | "netbsd" => netBsd
  | "openbsd" => openBsd
  | name => other name

/-- The name in a target. -/
def Os.name : Os → String
  | linux => "linux"
  | darwin => "darwin"
  | windows => "windows"
  | freeBsd => "freebsd"
  | netBsd => "netbsd"
  | openBsd => "openbsd"
  | other name => name

inductive Processor where
  | x86_64 | x86 | aarch64 | riscv64
  /-- 32-bit ARM of a revision. -/
  | arm (revision : Nat)
  /-- Any other processor, under the name that the host reports. -/
  | other (name : String)
deriving DecidableEq, Repr

/-- The processor that a host reports. Plain `arm` is of the oldest revision in use. -/
def Processor.ofReport : String → Processor
  | "x86_64" => x86_64
  | "x86" => x86
  | "aarch64" => aarch64
  | "arm" => arm 5
  | "riscv64" => riscv64
  | name => other name

/-- The name in a target. Darwin has its own name for 64-bit ARM. -/
def Processor.nameOn (system : Os) : Processor → String
  | x86_64 => "x86_64"
  | x86 => "i686"
  | aarch64 => if system = .darwin then "arm64" else "aarch64"
  | arm revision => "armv" ++ toString revision
  | riscv64 => "riscv64"
  | other name => name

structure Target where
  processor : String
  system : String
deriving DecidableEq, Repr

def Target.of (processor : Processor) (system : Os) : Target :=
  ⟨processor.nameOn system, system.name⟩

/-- The target as one word, such as `x86_64-linux`. -/
def Target.triple (t : Target) : String := t.processor ++ "-" ++ t.system

end EnvManifest.Host
