import VectorUnit.Registers
import VectorUnit.Sequence

/-!
# Plain interpretation

`Sequence.interpret` says what a sequence of instruction pairs does by executing them one after
another on the register file, without any host code. Arithmetic is modulo 2^16, comparisons are on
signed sixteen bit numbers, and register 0 is zero. A branch decides and computes its target when
it is executed, then writes its link, and the transfer happens behind its delay slot; a branch in a
delay slot does nothing at all.

This is the meaning that compiled code has to have.
-/

namespace VectorUnit

namespace Interpreter

/-- The registers and the target of the transfer of control that is waiting, if one is. It is taken
behind the pair that comes next. -/
structure State where
  registers : Registers
  target : Option UInt32
deriving DecidableEq, Repr

/-- The signed number that a register holds. -/
def signed (regs : Registers) (field : Nat) : Int :=
  (regs.read (.ofField field)).toInt16.toInt

/-- The value of the register that a field names. -/
def value (regs : Registers) (field : Nat) : UInt16 :=
  regs.read (.ofField field)

/-- The registers after a write to the register that a field names. -/
def assign (regs : Registers) (field : Nat) (value : UInt16) : Registers :=
  regs.write (.ofField field) value

/-! ### Branches -/

/-- The offset of a pair, in a memory of `memLength` bytes, that stands for any number. -/
def wrapOffset (memLength : Nat) (offset : Int) : UInt32 :=
  UInt32.ofInt offset &&& UInt32.ofNat ((memLength - 1) / Pair.size * Pair.size)

/-- A branch transfers control. -/
def takes (regs : Registers) (p : Pair) : Bool :=
  match p.opcode with
  | .ibeq => signed regs p.it == signed regs p.is
  | .ibne => signed regs p.it != signed regs p.is
  | .ibltz => signed regs p.is < 0
  | .ibgtz => 0 < signed regs p.is
  | .iblez => signed regs p.is ≤ 0
  | .ibgez => 0 ≤ signed regs p.is
  | _ => true

/-- The offset to which a branch transfers control. -/
def target (regs : Registers) (memLength offset : Nat) (p : Pair) : UInt32 :=
  match p.opcode with
  | .jr | .jalr => wrapOffset memLength (Pair.size * (value regs p.is).toNat)
  | _ => wrapOffset memLength (offset + Pair.size + Pair.size * p.imm11)

/-- The registers after the link of a branch, if it has one. -/
def link (regs : Registers) (offset : Nat) (p : Pair) : Registers :=
  match p.opcode with
  | .bal | .jalr => assign regs p.it (UInt16.ofNat ((offset + 16) / Pair.size))
  | _ => regs

/-- The state after a branch outside of a delay slot. -/
def branch (s : State) (memLength offset : Nat) (p : Pair) : State where
  registers := link s.registers offset p
  target := if takes s.registers p then some (target s.registers memLength offset p) else none

/-! ### Pairs -/

/-- The registers after an operation other than a branch. -/
def arithmetic (regs : Registers) (p : Pair) : Registers :=
  match p.opcode with
  | .iaddiu => assign regs p.it (value regs p.is + UInt16.ofNat p.imm15)
  | .isubiu => assign regs p.it (value regs p.is - UInt16.ofNat p.imm15)
  | .iaddi => assign regs p.it (value regs p.is + UInt16.ofInt p.imm5)
  | .iadd => assign regs p.id (value regs p.is + value regs p.it)
  | .isub => assign regs p.id (value regs p.is - value regs p.it)
  | .iand => assign regs p.id (value regs p.is &&& value regs p.it)
  | .ior => assign regs p.id (value regs p.is ||| value regs p.it)
  | .xgkick => { regs with kick := (value regs p.is).toUInt32 }.raise Status.kick
  | _ => regs

/-- The status bits that the flags of a pair raise. -/
def flagStatus (p : Pair) : UInt32 :=
  (if p.dBit then Status.debugBreak else 0) ||| (if p.tBit then Status.debugHalt else 0)

/-- The state after a pair. -/
def step (memLength : Nat) (inSlot : Bool) (s : State) (e : Sequence.Entry) : State :=
  let s :=
    if e.pair.isBranch then if inSlot then s else branch s memLength e.offset e.pair
    else { s with registers := arithmetic s.registers e.pair }
  { s with registers := s.registers.raise (flagStatus e.pair) }

/-- The state after some pairs, the first of which may stand in a delay slot. -/
def steps (memLength : Nat) : (inSlot : Bool) → State → List Sequence.Entry → State
  | _, s, [] => s
  | inSlot, s, e :: rest =>
    steps memLength (!inSlot && e.pair.hasDelaySlot) (step memLength inSlot s e) rest

end Interpreter

/-- The registers after the pairs of a sequence have been executed one after another. -/
def Sequence.interpret (s : Sequence) (regs : Registers) : Registers :=
  let final := Interpreter.steps s.memLength false ⟨regs, none⟩ s.entries
  let regs := if s.isFinal then final.registers.raise Status.ended else final.registers
  { regs with pc := final.target.getD (UInt32.ofNat s.behind) }

end VectorUnit
