/-!
# Branch tracking between blocks

`Tracking` remembers where the last block started and to where it left, and how many blocks ran
since it was zeroed. `Tracking.Reliance` says how far the next block may rely on it. Changing the
microcode sets everything back to `Tracking.zero`.
-/

namespace VectorUnit

namespace Tracking

/-- How far the state left by the last block may be relied on. It is judged by each lookup, and lost
whenever microcode changes. -/
inductive Reliance where
  /-- It has to be compared again. -/
  | unknown
  /-- The program was created from the whole live image or matched against it. -/
  | verified
  /-- The program was found by a shortcut or by its compiled ranges. -/
  | presumed
deriving DecidableEq, Repr, Inhabited

/-- The name in save states. -/
def Reliance.title : Reliance → String
  | .unknown => "Compare"
  | .verified => "Same"
  | .presumed => "Continue"

/-- Every value. -/
def Reliance.all : List Reliance := [.unknown, .verified, .presumed]

end Tracking

/-- The state of branch tracking. -/
structure Tracking where
  reliance : Tracking.Reliance
  /-- The offset of the last block that ran. -/
  enteredAt : UInt32
  /-- The offset to which it left. -/
  leftTo : UInt32
  /-- The number of blocks that ran since the state was zeroed, modulo 2^32. -/
  turns : UInt32
deriving DecidableEq, Repr

namespace Tracking

/-- The state that relies on nothing. -/
def zero : Tracking :=
  ⟨.unknown, 0, 0, 0⟩

instance : Inhabited Tracking := ⟨zero⟩

/-- The state after a block from `start` left to `exit`. -/
def advance (t : Tracking) (start exit : UInt32) : Tracking :=
  { t with enteredAt := start, leftTo := exit, turns := t.turns + 1 }

end Tracking

end VectorUnit
