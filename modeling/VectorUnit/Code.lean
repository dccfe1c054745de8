import VectorUnit.Registers

/-!
# Host code

`Code` is what a block of instruction pairs is compiled to: a straight line of gates over
32-bit values, each of which may use constants, the registers as they are when the block is
entered, and the values of the gates before it. What the block leaves behind is said at its end, by
naming a value for every register, for the offset at which execution continues and for the kick
address, and by the status bits that the block raises.

Inside the code an integer register is a 32-bit value that repeats its sign above bit 15, so that
comparisons see the signed number; the low sixteen bits are stored back (`Code.run`).
-/

namespace VectorUnit

namespace Code

/-- A sixteen bit value with its sign repeated in the upper half of a word. -/
def widen (value : UInt16) : UInt32 :=
  value.toInt16.toInt32.toUInt32

/-- Where a gate finds a value. -/
inductive Operand where
  /-- The value itself. -/
  | const (value : UInt32)
  /-- An integer register as it is when the block is entered. -/
  | entry (register : Registers.Index)
  /-- The value of the gate with this number. -/
  | gate (index : Nat)
deriving DecidableEq, Repr

instance : Inhabited Operand := ⟨.const 0⟩

/-- A comparison of two values as signed numbers. -/
inductive Comparison where
  | eq | ne | lt | gt | le | ge
deriving DecidableEq, Repr

/-- What a gate computes, from the registers on entry and the gates in front of it. -/
inductive Gate where
  | add (a b : Operand)
  | sub (a b : Operand)
  | and (a b : Operand)
  | or (a b : Operand)
  /-- The value times eight. -/
  | scale (a : Operand)
  /-- The low half of the value, its sign repeated in the upper half. -/
  | narrow (a : Operand)
  /-- One if the comparison holds and zero otherwise. -/
  | compare (relation : Comparison) (a b : Operand)
  /-- The second value if the first is zero, and otherwise the first of the two others. -/
  | select (condition whenSet whenZero : Operand)
deriving DecidableEq, Repr

end Code

open Code in
/-- A straight line of gates and what it leaves behind. -/
structure Code where
  gates : Array Gate
  /-- The value of each integer register at the end. The place of register 0 is never read. -/
  final : Vector Operand 16
  /-- The offset at which execution continues. -/
  exit : Operand
  /-- The address of the last kick, if there is one. -/
  kick : Option Operand
  /-- The status bits that are raised. -/
  status : UInt32
  /-- The number of cycles taken. -/
  cycles : UInt32
deriving DecidableEq, Repr

namespace Code

/-! ### Evaluation -/

/-- Whether a comparison holds of two values as signed numbers. -/
def Comparison.holds (relation : Comparison) (a b : UInt32) : Bool :=
  match relation with
  | .eq => a == b
  | .ne => a != b
  | .lt => a.toInt32 < b.toInt32
  | .gt => b.toInt32 < a.toInt32
  | .le => a.toInt32 ≤ b.toInt32
  | .ge => b.toInt32 ≤ a.toInt32

/-- The value of an operand, given the registers on entry and the values of earlier gates. -/
def Operand.value (regs : Registers) (values : Array UInt32) : Operand → UInt32
  | .const value => value
  | .entry register => widen (regs.vi.get register)
  | .gate index => values.getD index 0

/-- The value of a gate, given the registers on entry and the values of earlier gates. -/
def Gate.value (regs : Registers) (values : Array UInt32) : Gate → UInt32
  | .add a b => a.value regs values + b.value regs values
  | .sub a b => a.value regs values - b.value regs values
  | .and a b => a.value regs values &&& b.value regs values
  | .or a b => a.value regs values ||| b.value regs values
  | .scale a => a.value regs values <<< 3
  | .narrow a => widen (a.value regs values).toUInt16
  | .compare relation a b =>
    if relation.holds (a.value regs values) (b.value regs values) then 1 else 0
  | .select condition whenSet whenZero =>
    if condition.value regs values == 0 then whenZero.value regs values
    else whenSet.value regs values

/-- The values of a line of gates, given the registers on entry. -/
def gateValues (regs : Registers) (gates : Array Gate) : Array UInt32 :=
  gates.foldl (fun values g => values.push (g.value regs values)) #[]

/-- The registers after the code has run. -/
def run (code : Code) (regs : Registers) : Registers :=
  let values := gateValues regs code.gates
  { vi := Vector.ofFn fun r =>
      if r = 0 then regs.vi.get r else ((code.final.get r).value regs values).toUInt16
    pc := code.exit.value regs values
    status := regs.status ||| code.status
    kick := (code.kick.map fun o => o.value regs values).getD regs.kick }

end Code

end VectorUnit
