import VectorUnit.Instruction.Opcode

/-!
# Instruction pairs

A `Pair` is what one cycle executes: an upper word, of which only five flag bits matter here, and
a lower word, which names an operation and its operands. The I bit turns the lower word into a
number, so that the pair decodes to `Opcode.immediate` whatever the word holds
(`Pair.opcode_of_iBit`).

In memory a pair takes `Pair.size` bytes, the lower word before the upper one, and each word with
its least significant byte first. `Pair.ofBytes` undoes `Pair.toBytes` (`Pair.ofBytes_toBytes`).
-/

namespace VectorUnit

/-- An instruction pair. -/
structure Pair where
  upper : UInt32
  lower : UInt32
deriving DecidableEq, Repr, Inhabited

namespace Pair

/-- The length of a pair in memory, in bytes. -/
def size : Nat := 8

/-! ### Flags of the upper word -/

/-- The flags of an upper word, named by the letters of the bits that set them. -/
inductive Flag where
  | i | e | m | d | t
deriving DecidableEq, Repr

/-- The flags from the highest bit down. -/
def Flag.all : List Flag := [.i, .e, .m, .d, .t]

/-- The number of the bit that sets a flag. -/
def Flag.bit : Flag → Nat
  | .i => 31
  | .e => 30
  | .m => 29
  | .d => 28
  | .t => 27

/-- The upper word in which only the given flag is set. -/
def Flag.mask (f : Flag) : UInt32 :=
  UInt32.ofNat (1 <<< f.bit)

/-- Whether a flag is set. -/
def has (p : Pair) (f : Flag) : Bool :=
  p.upper.toNat.testBit f.bit

/-- The lower word is a number. -/
def iBit (p : Pair) : Bool := p.has .i

/-- The program ends after the next pair. -/
def eBit (p : Pair) : Bool := p.has .e

/-- The M bit, which has no effect here. -/
def mBit (p : Pair) : Bool := p.has .m

/-- Debug break. -/
def dBit (p : Pair) : Bool := p.has .d

/-- Debug halt. -/
def tBit (p : Pair) : Bool := p.has .t

/-! ### Operands of the lower word -/

/-- The field of the register `it`. -/
def itField : Field := ⟨16, 5⟩

/-- The field of the register `is`. -/
def isField : Field := ⟨11, 5⟩

/-- The field of the register `id`. -/
def idField : Field := ⟨6, 5⟩

/-- The field of a branch offset. -/
def offsetField : Field := ⟨0, 11⟩

/-- The field of the five bit immediate, which shares its bits with the register `id`. -/
def imm5Field : Field := ⟨6, 5⟩

/-- The low part of the fifteen bit immediate. -/
def imm15LowField : Field := ⟨0, 11⟩

/-- The high part of the fifteen bit immediate. -/
def imm15HighField : Field := ⟨21, 4⟩

/-- The number in the field of the register `it`. -/
def it (p : Pair) : Nat := itField.extract p.lower.toNat

/-- The number in the field of the register `is`. -/
def is (p : Pair) : Nat := isField.extract p.lower.toNat

/-- The number in the field of the register `id`. -/
def id (p : Pair) : Nat := idField.extract p.lower.toNat

/-- The branch offset, counted in pairs from the pair behind the branch. -/
def imm11 (p : Pair) : Int := offsetField.extractSigned p.lower.toNat

/-- The unsigned immediate of fifteen bits. -/
def imm15 (p : Pair) : Nat :=
  imm15HighField.extract p.lower.toNat * imm15LowField.size + imm15LowField.extract p.lower.toNat

/-- The signed immediate of five bits. -/
def imm5 (p : Pair) : Int := imm5Field.extractSigned p.lower.toNat

/-! ### Decoding -/

/-- The operation of a pair. -/
def opcode (p : Pair) : Opcode :=
  if p.iBit then .immediate else .ofWord p.lower.toNat

theorem opcode_of_iBit {p : Pair} (h : p.iBit = true) : p.opcode = .immediate := by
  rw [opcode, if_pos h]

/-- The pair transfers control. -/
def isBranch (p : Pair) : Bool := p.opcode.isBranch

/-- The pair opens a delay slot: the next pair still runs whatever this one decides. -/
def hasDelaySlot (p : Pair) : Bool := p.eBit || p.isBranch

/-! ### Pairs in memory -/

/-- The bytes of a word, the least significant one first. -/
def wordBytes (w : UInt32) : List UInt8 :=
  [UInt8.ofNat w.toNat, UInt8.ofNat (w.toNat / 256), UInt8.ofNat (w.toNat / 65536),
   UInt8.ofNat (w.toNat / 16777216)]

/-- The word of four bytes, the least significant one first. -/
def wordOfBytes (a b c d : UInt8) : UInt32 :=
  UInt32.ofNat (a.toNat + 256 * b.toNat + 65536 * c.toNat + 16777216 * d.toNat)

/-- The bytes of a pair in memory. -/
def toBytes (p : Pair) : List UInt8 :=
  wordBytes p.lower ++ wordBytes p.upper

/-- The pair whose bytes `byte` lists. -/
def ofBytes (byte : Nat → UInt8) : Pair where
  upper := wordOfBytes (byte 4) (byte 5) (byte 6) (byte 7)
  lower := wordOfBytes (byte 0) (byte 1) (byte 2) (byte 3)

@[simp] theorem length_toBytes (p : Pair) : p.toBytes.length = size := rfl

theorem wordOfBytes_wordBytes (w : UInt32) :
    wordOfBytes (UInt8.ofNat w.toNat) (UInt8.ofNat (w.toNat / 256))
      (UInt8.ofNat (w.toNat / 65536)) (UInt8.ofNat (w.toNat / 16777216)) = w := by
  have h : w.toNat < 2 ^ 32 := w.toNat_lt
  apply UInt32.toNat_inj.mp
  simp only [wordOfBytes, UInt8.toNat_ofNat', UInt32.toNat_ofNat']
  omega

/-- A pair is recovered from its bytes. -/
theorem ofBytes_toBytes (p : Pair) : ofBytes (fun i => p.toBytes.getD i 0) = p := by
  obtain ⟨upper, lower⟩ := p
  have hu := wordOfBytes_wordBytes upper
  have hl := wordOfBytes_wordBytes lower
  simp only [ofBytes, mk.injEq]
  exact ⟨hu, hl⟩

end Pair

end VectorUnit
