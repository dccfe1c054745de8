import VectorUnit.Memory
import VectorUnit.Registers
import VectorUnit.Tracking
import VectorUnit.UnitKind

/-!
# Save states

A `SaveState` is the part of a vector unit that outlives it: the microcode, the branch tracking and
the registers. Compiled code is never part of it. A save state fits a unit when it was taken from
one of the same kind and its microcode has the size of that unit's memory (`SaveState.fit`).
-/

namespace VectorUnit

/-- The saved state of a vector unit. -/
structure SaveState where
  kind : UnitKind
  microcode : Memory
  tracking : Tracking
  registers : Registers
deriving DecidableEq

namespace SaveState

/-- A save state does not fit the unit that should load it. -/
structure Misfit where
  expected : UnitKind
  found : UnitKind
  /-- The number of bytes of microcode in the save state. -/
  length : Nat
deriving DecidableEq, Repr

/-- The text of the error. -/
def Misfit.message (e : Misfit) : String :=
  s!"snapshot of {e.found.name} does not fit {e.expected.name} ({e.length} bytes of microcode)"

/-- The save state fits a unit of the given kind. -/
def fit (s : SaveState) (kind : UnitKind) : Except Misfit Unit :=
  if s.kind = kind ∧ s.microcode.size = kind.memorySize then .ok ()
  else .error ⟨kind, s.kind, s.microcode.size⟩

end SaveState

end VectorUnit
