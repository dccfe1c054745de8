import VectorUnit.Instruction.Pair

/-!
# The two vector units

There are two vector units, which differ in the size of their microcode memory and in the number
under which they are addressed. `UnitKind.pairOffset` turns any byte offset into the offset of a
pair inside the unit's memory (`UnitKind.pairOffset_lt`, `UnitKind.dvd_pairOffset`).

Units and modes are read from their names in lower case; any other text is the error
`UnknownName`.
-/

namespace VectorUnit

/-- A text that should name one of finitely many choices names none of them. -/
inductive UnknownName where
  | unknownName
deriving DecidableEq, Repr

/-- The text of the error. -/
def UnknownName.message (_ : UnknownName) : String :=
  "Matching variant not found"

/-- The choice, among those listed with their names, that a text names. -/
def choose {α : Type} (choices : List (String × α)) (text : String) : Except UnknownName α :=
  match choices.lookup text with
  | some choice => .ok choice
  | none => .error .unknownName

/-- One of the two vector units. -/
inductive UnitKind where
  | vu0 | vu1
deriving DecidableEq, Repr, Inhabited

namespace UnitKind

/-- The number of bytes that the unit holds for microcode. -/
def memorySize : UnitKind → Nat
  | vu0 => 4096
  | vu1 => 16384

/-- The number under which the unit is addressed. -/
def number : UnitKind → Nat
  | vu0 => 0
  | vu1 => 1

/-- The other unit. -/
def other : UnitKind → UnitKind
  | vu0 => vu1
  | vu1 => vu0

/-- The name of the unit in text that users read and write. -/
def name : UnitKind → String
  | vu0 => "vu0"
  | vu1 => "vu1"

/-- The name of the unit in save states and diagnostics. -/
def title : UnitKind → String
  | vu0 => "Vu0"
  | vu1 => "Vu1"

/-- Both units. -/
def all : List UnitKind := [vu0, vu1]

/-- The unit that a text names. -/
def ofText (text : String) : Except UnknownName UnitKind :=
  choose (all.map fun k => (k.name, k)) text

/-- The offset of a pair inside the unit's memory that stands for any byte offset. -/
def pairOffset (k : UnitKind) (offset : UInt32) : Nat :=
  offset.toNat % k.memorySize / Pair.size * Pair.size

theorem pairOffset_lt (k : UnitKind) (offset : UInt32) : k.pairOffset offset < k.memorySize := by
  cases k <;> simp only [pairOffset, memorySize, Pair.size] <;> omega

theorem dvd_pairOffset (k : UnitKind) (offset : UInt32) : Pair.size ∣ k.pairOffset offset :=
  Nat.dvd_mul_left _ _

end UnitKind

end VectorUnit
