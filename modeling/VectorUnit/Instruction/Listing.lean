import VectorUnit.Instruction.Pair
import VectorUnit.Text.Hexadecimal

/-!
# Listings of instruction pairs

Two texts of a pair. `Pair.text` is its line in an assembly listing: the mnemonic, the operands in
the order of the assembler, and a mark for each of the flags E, M, D and T that is set. Unsigned
immediates are written in base sixteen, signed ones and branch offsets in base ten. A word that
holds a number is listed as `loi`, and one that no operation names as `???`.

`Pair.diagnostic` is the text for error messages: the name of the operation and both words.
-/

namespace VectorUnit

namespace Pair

/-- The name of an integer register in a listing. -/
def registerText (r : Nat) : String :=
  s!"vi{r}"

/-- The marks of the flags that a listing shows. -/
def flagMarks (p : Pair) : List String :=
  [(p.eBit, "[e]"), (p.mBit, "[m]"), (p.dBit, "[d]"), (p.tBit, "[t]")].filterMap
    fun (isSet, mark) => if isSet then some mark else none

/-- The name of the operation in a listing. -/
def listedName (p : Pair) : String :=
  match p.opcode with
  | .immediate => "loi"
  | .other => "???"
  | op => op.mnemonic

/-- The operands in a listing, in the order of the assembler. -/
def operandTexts (p : Pair) : List String :=
  let it := registerText p.it
  let is := registerText p.is
  let id := registerText p.id
  let offset := toString p.imm11
  match p.opcode with
  | .iaddiu | .isubiu => [it, is, Hex.marked p.imm15]
  | .iaddi => [it, is, toString p.imm5]
  | .iadd | .isub | .iand | .ior => [id, is, it]
  | .b => [offset]
  | .bal => [it, offset]
  | .jr => [is]
  | .jalr => [it, is]
  | .ibeq | .ibne => [it, is, offset]
  | .ibltz | .ibgtz | .iblez | .ibgez => [is, offset]
  | .xgkick => [is]
  | .immediate | .other => [Hex.markedPadded 8 p.lower.toNat]
  | _ => []

/-- The line of a pair in an assembly listing. -/
def text (p : Pair) : String :=
  let operands := ", ".intercalate p.operandTexts
  let line := if operands.isEmpty then [p.listedName] else [p.listedName, operands]
  " ".intercalate (line ++ p.flagMarks)

/-- The text of a pair in an error message. -/
def diagnostic (p : Pair) : String :=
  p.opcode.name ++ " (" ++ Hex.capitals 8 p.upper.toNat ++ ":" ++ Hex.capitals 8 p.lower.toNat
    ++ ")"

end Pair

end VectorUnit
