import VectorUnit.Code
import VectorUnit.Sequence

/-!
# Drafts of host code

`Sequence.toCode` turns a sequence into host code, pair by pair. A `Draft` is the code of the
pairs taken in so far: the gates, the operand that holds each register, the transfer of control
that waits for its delay slot, the kick and the status bits. A register that is written gets a new
operand and is stored only when the block is left, so its old operands stay good; that is why a
branch may fix its condition and its target at once (`Draft.branch`), before its link is written
and before its delay slot runs. A branch in a delay slot is dropped, and so is its link.
-/

namespace VectorUnit

namespace Code

/-- A transfer of control whose delay slot has not run: where it goes to, and the condition under
which it does. -/
structure Transfer where
  /-- The value that must not be zero for the transfer to happen, if there is one. -/
  condition : Option Operand
  target : Operand
deriving DecidableEq, Repr

/-- The code of the pairs taken in so far. -/
structure Draft where
  gates : Array Gate
  held : Vector Operand 16
  transfer : Option Transfer
  kick : Option Operand
  status : UInt32
deriving DecidableEq, Repr

namespace Draft

/-- The draft before any pair is taken in. -/
def empty : Draft :=
  ⟨#[], Vector.ofFn .entry, none, none, 0⟩

/-! ### Values and registers -/

/-- The draft with one more gate, and the operand that holds its value. -/
def push (d : Draft) (g : Gate) : Operand × Draft :=
  (.gate d.gates.size, { d with gates := d.gates.push g })

/-- The operand that holds a register. -/
def read (d : Draft) (r : Registers.Index) : Operand :=
  if r = 0 then .const 0 else d.held.get r

/-- The draft after the low half of a value is written to a register. -/
def write (d : Draft) (r : Registers.Index) (value : Operand) : Draft :=
  if r = 0 then d
  else
    let (narrowed, d) := d.push (.narrow value)
    { d with held := d.held.set r narrowed r.lt }

/-- The draft after the value of a gate is written to a register. -/
def compute (d : Draft) (r : Registers.Index) (g : Gate) : Draft :=
  let (value, d) := d.push g
  d.write r value

/-! ### Operations -/

/-- The registers that the operand fields of a pair name. -/
def itOf (p : Pair) : Registers.Index := .ofField p.it

@[inherit_doc itOf]
def isOf (p : Pair) : Registers.Index := .ofField p.is

@[inherit_doc itOf]
def idOf (p : Pair) : Registers.Index := .ofField p.id

/-- A signed constant. -/
def constant (value : Int) : Operand :=
  .const (UInt32.ofInt value)

/-- The sum of the register `is` and a constant, in the register `it`. -/
def addConstant (d : Draft) (p : Pair) (value : Int) : Draft :=
  d.compute (itOf p) (.add (d.read (isOf p)) (constant value))

/-- A function of the registers `is` and `it`, in the register `id`. -/
def combine (d : Draft) (p : Pair) (g : Operand → Operand → Gate) : Draft :=
  d.compute (idOf p) (g (d.read (isOf p)) (d.read (itOf p)))

/-- The kick address is the unsigned value of the register `is`. -/
def kicking (d : Draft) (p : Pair) : Draft :=
  let (address, d) := d.push (.and (d.read (isOf p)) (.const 0xFFFF))
  { d with kick := some address, status := d.status ||| Status.kick }

/-- The bits of an offset inside a memory at which a pair may start. -/
def targetMask (memLength : Nat) : UInt32 :=
  UInt32.ofNat ((memLength - 1) / Pair.size * Pair.size)

/-- The value that decides a branch, if it has a condition. -/
def condition (d : Draft) (p : Pair) : Option Operand × Draft :=
  let against (relation : Comparison) (a b : Operand) : Option Operand × Draft :=
    let (value, d) := d.push (.compare relation a b)
    (some value, d)
  match p.opcode with
  | .ibeq => against .eq (d.read (itOf p)) (d.read (isOf p))
  | .ibne => against .ne (d.read (itOf p)) (d.read (isOf p))
  | .ibltz => against .lt (d.read (isOf p)) (.const 0)
  | .ibgtz => against .gt (d.read (isOf p)) (.const 0)
  | .iblez => against .le (d.read (isOf p)) (.const 0)
  | .ibgez => against .ge (d.read (isOf p)) (.const 0)
  | _ => (none, d)

/-- The offset to which a branch transfers control. -/
def target (d : Draft) (memLength offset : Nat) (p : Pair) : Operand × Draft :=
  match p.opcode with
  | .jr | .jalr =>
    let (scaled, d) := d.push (.scale (d.read (isOf p)))
    d.push (.and scaled (.const (targetMask memLength)))
  | _ =>
    (.const (UInt32.ofInt (offset + Pair.size + p.imm11 * Pair.size) &&& targetMask memLength), d)

/-- The draft after the link of a branch, if it has one: the number of the pair behind the delay
slot. -/
def link (d : Draft) (offset : Nat) (p : Pair) : Draft :=
  match p.opcode with
  | .bal | .jalr =>
    d.write (itOf p) (.const (UInt32.ofNat ((offset + 2 * Pair.size) / Pair.size)))
  | _ => d

/-- The draft after a branch outside of a delay slot. -/
def branch (d : Draft) (memLength offset : Nat) (p : Pair) : Draft :=
  let (condition, d) := d.condition p
  let (target, d) := d.target memLength offset p
  -- The link comes last: a jump through the register that it overwrites goes to the old value.
  let d := d.link offset p
  { d with transfer := some ⟨condition, target⟩ }

/-- The draft after the operation of a pair. -/
def operation (d : Draft) (memLength offset : Nat) (p : Pair) (inSlot : Bool) : Draft :=
  match p.opcode with
  | .iaddiu => d.addConstant p p.imm15
  | .isubiu => d.addConstant p (-p.imm15)
  | .iaddi => d.addConstant p p.imm5
  | .iadd => d.combine p .add
  | .isub => d.combine p .sub
  | .iand => d.combine p .and
  | .ior => d.combine p .or
  | .xgkick => d.kicking p
  | op => if op.isBranch && !inSlot then d.branch memLength offset p else d

/-- The draft after a pair, with the status bits that its flags raise. -/
def pair (d : Draft) (memLength offset : Nat) (p : Pair) (inSlot : Bool) : Draft :=
  let d := d.operation memLength offset p inSlot
  let d := if p.dBit then { d with status := d.status ||| Status.debugBreak } else d
  if p.tBit then { d with status := d.status ||| Status.debugHalt } else d

/-- The draft after some entries, the first of which may stand in a delay slot. -/
def entries (memLength : Nat) : (inSlot : Bool) → Draft → List Sequence.Entry → Draft
  | _, d, [] => d
  | inSlot, d, e :: rest =>
    let d := d.pair memLength e.offset e.pair inSlot
    entries memLength (!inSlot && e.pair.hasDelaySlot) d rest

/-! ### Leaving the block -/

/-- The operand of the offset at which execution continues. -/
def exit (d : Draft) (behind : Nat) : Operand × Draft :=
  match d.transfer with
  | none => (.const (UInt32.ofNat behind), d)
  | some ⟨none, target⟩ => (target, d)
  | some ⟨some condition, target⟩ =>
    d.push (.select condition target (.const (UInt32.ofNat behind)))

/-- The finished code of a draft. -/
def toCode (d : Draft) (behind length : Nat) (isFinal : Bool) : Code :=
  let (exit, d) := d.exit behind
  { gates := d.gates
    final := d.held
    exit := exit
    kick := d.kick
    status := if isFinal then d.status ||| Status.ended else d.status
    cycles := UInt32.ofNat length }

end Draft

end Code

/-- The host code of a sequence. A pair that no operation names does nothing. -/
def Sequence.toCode (s : Sequence) : Code :=
  (Code.Draft.entries s.memLength false .empty s.entries).toCode s.behind s.length
    s.isFinal

end VectorUnit
