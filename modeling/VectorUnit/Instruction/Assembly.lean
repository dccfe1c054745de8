import VectorUnit.Instruction.Pair

/-!
# Assembling lower words

A `Statement` is an operation with its operands, each operand in the machine integer that holds
it. `Statement.word` writes the statement as a lower word: every operand is cut to the width of
its field and placed there, so that no operand reaches another field. `Pair.statement?` is the way
back, from a pair to the statement that names its operation and its decoded operands.

A lower word becomes a pair next to an idle upper word (`Pair.ofLower`), or one that carries flags
(`Pair.withFlags`), and a list of pairs becomes the bytes of a memory image (`Pair.image`).
-/

namespace VectorUnit

/-- An operation on the integer registers, or a transfer of control, with its operands. -/
inductive Statement where
  | iaddiu (it is : UInt8) (imm : UInt16)
  | isubiu (it is : UInt8) (imm : UInt16)
  | iaddi (it is : UInt8) (imm : Int8)
  | iadd (id is it : UInt8)
  | isub (id is it : UInt8)
  | iand (id is it : UInt8)
  | ior (id is it : UInt8)
  | b (offset : Int16)
  | bal (it : UInt8) (offset : Int16)
  | jr (is : UInt8)
  | jalr (it is : UInt8)
  | ibeq (it is : UInt8) (offset : Int16)
  | ibne (it is : UInt8) (offset : Int16)
  | ibltz (is : UInt8) (offset : Int16)
  | ibgtz (is : UInt8) (offset : Int16)
  | iblez (is : UInt8) (offset : Int16)
  | ibgez (is : UInt8) (offset : Int16)
  | xgkick (is : UInt8)
deriving DecidableEq, Repr

namespace Statement

/-! ### Operands in their fields -/

/-- The low bits of a signed number, in a field. -/
def placeSigned (f : Field) (value : Int) : Nat :=
  f.place (value % f.size).toNat

/-- The registers `it` and `is`. -/
def registers (it is : UInt8) : Nat :=
  Pair.itField.place it.toNat + Pair.isField.place is.toNat

/-- The register `id`. -/
def destination (id : UInt8) : Nat :=
  Pair.idField.place id.toNat

/-- An unsigned immediate of fifteen bits, split over its two fields. -/
def immediate15 (imm : UInt16) : Nat :=
  Pair.imm15HighField.place (imm.toNat / Pair.imm15LowField.size)
    + Pair.imm15LowField.place imm.toNat

/-- A signed immediate of five bits. -/
def immediate5 (imm : Int8) : Nat :=
  placeSigned Pair.imm5Field imm.toInt

/-- A branch offset. -/
def branchOffset (offset : Int16) : Nat :=
  placeSigned Pair.offsetField offset.toInt

/-- The major field alone. -/
def major (value : Nat) : Nat :=
  Opcode.majorField.place value

/-- The fields that name a special operation, `tail` being the bits at the bottom. -/
def specialWord (tail : Nat) : Nat :=
  major Opcode.specialMajor + tail

/-! ### Words -/

/-- The lower word of a statement, as a number. -/
def bits : Statement → Nat
  | iaddiu it is imm => major 0x08 + registers it is + immediate15 imm
  | isubiu it is imm => major 0x09 + registers it is + immediate15 imm
  | iaddi it is imm => specialWord 0x32 + registers it is + immediate5 imm
  | iadd id is it => specialWord 0x30 + registers it is + destination id
  | isub id is it => specialWord 0x31 + registers it is + destination id
  | iand id is it => specialWord 0x34 + registers it is + destination id
  | ior id is it => specialWord 0x35 + registers it is + destination id
  | b offset => major 0x20 + branchOffset offset
  | bal it offset => major 0x21 + registers it 0 + branchOffset offset
  | jr is => major 0x24 + registers 0 is
  | jalr it is => major 0x25 + registers it is
  | ibeq it is offset => major 0x28 + registers it is + branchOffset offset
  | ibne it is offset => major 0x29 + registers it is + branchOffset offset
  | ibltz is offset => major 0x2C + registers 0 is + branchOffset offset
  | ibgtz is offset => major 0x2D + registers 0 is + branchOffset offset
  | iblez is offset => major 0x2E + registers 0 is + branchOffset offset
  | ibgez is offset => major 0x2F + registers 0 is + branchOffset offset
  | xgkick is => specialWord 0x6FC + registers 0 is

/-- The lower word of a statement. -/
def word (s : Statement) : UInt32 :=
  UInt32.ofNat s.bits

/-- The operation of a statement. -/
def opcode : Statement → Opcode
  | iaddiu .. => .iaddiu
  | isubiu .. => .isubiu
  | iaddi .. => .iaddi
  | iadd .. => .iadd
  | isub .. => .isub
  | iand .. => .iand
  | ior .. => .ior
  | b .. => .b
  | bal .. => .bal
  | jr .. => .jr
  | jalr .. => .jalr
  | ibeq .. => .ibeq
  | ibne .. => .ibne
  | ibltz .. => .ibltz
  | ibgtz .. => .ibgtz
  | iblez .. => .iblez
  | ibgez .. => .ibgez
  | xgkick .. => .xgkick

end Statement

namespace Pair

/-! ### From words to pairs and back -/

/-- The upper word that does nothing. -/
def idleUpper : UInt32 := 0x000002FF

/-- The lower word that does nothing. -/
def idleLower : UInt32 := 0x8000033C

/-- A lower word next to an upper word that does nothing. -/
def ofLower (lower : UInt32) : Pair :=
  ⟨idleUpper, lower⟩

/-- A lower word next to an upper word that carries flags and does nothing else. -/
def withFlags (flags lower : UInt32) : Pair :=
  ⟨idleUpper ||| flags, lower⟩

/-- The pair that does nothing. -/
def nop : Pair :=
  ofLower idleLower

/-- The pair that ends a program and does nothing else. -/
def programEnd : Pair :=
  withFlags (Flag.mask .e) idleLower

/-- The statement of a pair: its operation, if a statement can name it, with the decoded
operands. -/
def statement? (p : Pair) : Option Statement :=
  let it := UInt8.ofNat p.it
  let is := UInt8.ofNat p.is
  let id := UInt8.ofNat p.id
  let offset := Int16.ofInt p.imm11
  match p.opcode with
  | .iaddiu => some (.iaddiu it is (UInt16.ofNat p.imm15))
  | .isubiu => some (.isubiu it is (UInt16.ofNat p.imm15))
  | .iaddi => some (.iaddi it is (Int8.ofInt p.imm5))
  | .iadd => some (.iadd id is it)
  | .isub => some (.isub id is it)
  | .iand => some (.iand id is it)
  | .ior => some (.ior id is it)
  | .b => some (.b offset)
  | .bal => some (.bal it offset)
  | .jr => some (.jr is)
  | .jalr => some (.jalr it is)
  | .ibeq => some (.ibeq it is offset)
  | .ibne => some (.ibne it is offset)
  | .ibltz => some (.ibltz is offset)
  | .ibgtz => some (.ibgtz is offset)
  | .iblez => some (.iblez is offset)
  | .ibgez => some (.ibgez is offset)
  | .xgkick => some (.xgkick is)
  | _ => none

/-- A memory image of `length` bytes: the program, cut off or filled up with pairs that do
nothing. -/
def image (program : List Pair) (length : Nat) : List UInt8 :=
  (program ++ List.replicate length nop).flatMap toBytes |>.take length

theorem length_image (program : List Pair) (length : Nat) :
    (image program length).length = length := by
  have h : ∀ ps : List Pair, (ps.flatMap toBytes).length = 8 * ps.length := by
    intro ps
    induction ps with
    | nil => rfl
    | cons p ps ih => simp only [List.flatMap_cons, List.length_append, ih, length_toBytes,
        List.length_cons, size]; omega
  rw [image, List.length_take, h, List.length_append, List.length_replicate]
  omega

end Pair

end VectorUnit
