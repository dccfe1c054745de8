import VectorUnit.Instruction.Field

/-!
# Operations of the lower word

An instruction pair joins an upper and a lower word. Only the lower word names an operation here:
`Opcode` lists the operations that can be told apart. `Opcode.ofWord` finds the operation of a
lower word in three steps. The seven bits at the top name most operations; the value
`Opcode.specialMajor` there hands over to the six bits at the bottom, and four of their values hand
over to the lowest eleven bits. Every other word decodes to `Opcode.other`.

An operation is a branch (`Opcode.isBranch`) when it is followed by a delay slot, and a
synchronization point (`Opcode.stopsBlock`) when it talks to another unit.
-/

namespace VectorUnit

/-- The operation of a lower word. `immediate` is a lower word that holds a floating point number
for the upper operation, and `other` is any encoding that is not listed. -/
inductive Opcode where
  | lq | sq | ilw | isw | iaddiu | isubiu
  | fceq | fcset | fcand | fcor | fseq | fsset | fsand | fsor | fmeq | fmand | fmor | fcget
  | b | bal | jr | jalr | ibeq | ibne | ibltz | ibgtz | iblez | ibgez
  | iadd | isub | iaddi | iand | ior | nop | xgkick
  | immediate | other
deriving DecidableEq, Repr, Inhabited

namespace Opcode

/-- Every operation, in the order of their listing. -/
def all : List Opcode :=
  [lq, sq, ilw, isw, iaddiu, isubiu,
   fceq, fcset, fcand, fcor, fseq, fsset, fsand, fsor, fmeq, fmand, fmor, fcget,
   b, bal, jr, jalr, ibeq, ibne, ibltz, ibgtz, iblez, ibgez,
   iadd, isub, iaddi, iand, ior, nop, xgkick,
   immediate, other]

theorem mem_all (op : Opcode) : op ∈ all := by
  cases op <;> decide

/-! ### Classes of operations -/

/-- Operations that transfer control and are therefore followed by a delay slot. -/
def isBranch : Opcode → Bool
  | b | bal | jr | jalr | ibeq | ibne | ibltz | ibgtz | iblez | ibgez => true
  | _ => false

/-- Operations that synchronize with another unit. -/
def stopsBlock : Opcode → Bool
  | xgkick => true
  | _ => false

/-! ### Names -/

/-- The name of an operation as it stands in assembly text. -/
def mnemonic : Opcode → String
  | lq => "lq" | sq => "sq" | ilw => "ilw" | isw => "isw"
  | iaddiu => "iaddiu" | isubiu => "isubiu"
  | fceq => "fceq" | fcset => "fcset" | fcand => "fcand" | fcor => "fcor"
  | fseq => "fseq" | fsset => "fsset" | fsand => "fsand" | fsor => "fsor"
  | fmeq => "fmeq" | fmand => "fmand" | fmor => "fmor" | fcget => "fcget"
  | b => "b" | bal => "bal" | jr => "jr" | jalr => "jalr"
  | ibeq => "ibeq" | ibne => "ibne"
  | ibltz => "ibltz" | ibgtz => "ibgtz" | iblez => "iblez" | ibgez => "ibgez"
  | iadd => "iadd" | isub => "isub" | iaddi => "iaddi" | iand => "iand" | ior => "ior"
  | nop => "nop" | xgkick => "xgkick"
  | immediate => "immediate" | other => "other"

/-- The name of an operation in diagnostics: its mnemonic with a capital first letter. -/
def name (op : Opcode) : String :=
  op.mnemonic.capitalize

/-! ### Encodings -/

/-- The seven bits at the top of a lower word. -/
def majorField : Field := ⟨25, 7⟩

/-- The six bits at the bottom, which tell the special operations apart. -/
def minorField : Field := ⟨0, 6⟩

/-- The eleven bits at the bottom, which tell the operations apart whose minor field is at least
`0x3C`. -/
def extendedField : Field := ⟨0, 11⟩

/-- The value of the major field under which the minor field names the operation. -/
def specialMajor : Nat := 0x40

/-- The operation that the lowest eleven bits name. -/
def ofExtended : Nat → Opcode
  | 0x33C => nop
  | 0x6FC => xgkick
  | _ => other

/-- The operation that the lowest six bits name, `extended` being the lowest eleven. -/
def ofMinor (extended : Nat) : Nat → Opcode
  | 0x30 => iadd
  | 0x31 => isub
  | 0x32 => iaddi
  | 0x34 => iand
  | 0x35 => ior
  | 0x3C | 0x3D | 0x3E | 0x3F => ofExtended extended
  | _ => other

/-- The operation that the major field names, `minor` and `extended` being the fields at the
bottom of the word. -/
def ofMajor (minor extended : Nat) : Nat → Opcode
  | 0x00 => lq
  | 0x01 => sq
  | 0x04 => ilw
  | 0x05 => isw
  | 0x08 => iaddiu
  | 0x09 => isubiu
  | 0x10 => fceq
  | 0x11 => fcset
  | 0x12 => fcand
  | 0x13 => fcor
  | 0x14 => fseq
  | 0x15 => fsset
  | 0x16 => fsand
  | 0x17 => fsor
  | 0x18 => fmeq
  | 0x1A => fmand
  | 0x1B => fmor
  | 0x1C => fcget
  | 0x20 => b
  | 0x21 => bal
  | 0x24 => jr
  | 0x25 => jalr
  | 0x28 => ibeq
  | 0x29 => ibne
  | 0x2C => ibltz
  | 0x2D => ibgtz
  | 0x2E => iblez
  | 0x2F => ibgez
  | 0x40 => ofMinor extended minor
  | _ => other

/-- The operation of a lower word. -/
def ofWord (word : Nat) : Opcode :=
  ofMajor (minorField.extract word) (extendedField.extract word) (majorField.extract word)

end Opcode

end VectorUnit
