import Mathlib.Algebra.Group.Nat.Defs
import VectorUnit.Instruction.Assembly
import VectorUnit.Recompiler

/-!
# Assembling and decoding

A lower word falls into five fields that cover all of its bits (`Pair.Layout`). Every statement says
what each of them holds (`Statement.layout`), so that an operand reaches its own field and no other
(`Statement.layout_word`), and both the operation and the operands of a pair are read off the five
(`Pair.opcode_eq`, `Statement.isIn_of_layout`). So a word decodes to the statement it was assembled
from, with each operand cut to its field.

The other way round, a pair that a statement can name is reassembled from its decoded operands. Bits
that its operation does not look at may be lost, but nothing that a translation depends on
(`Code.Draft.pair_congr`). See `Statement.decodes_and_reassembles`.
-/

namespace VectorUnit

/-! ### Five fields -/

/-- What the fields of a lower word hold, from the top down. The operand `id`, the smaller
immediates, the branch offset and the fields that name special operations share the lowest one. -/
structure Pair.Layout where
  major : Nat
  high : Nat
  it : Nat
  is : Nat
  low : Nat
deriving DecidableEq, Repr

namespace Pair

namespace Layout

/-- Every number fits into its field. Then the word in which they are put side by side determines
each of them. -/
structure Fits (l : Layout) : Prop where
  major_lt : l.major < 128
  high_lt : l.high < 16
  it_lt : l.it < 32
  is_lt : l.is < 32
  low_lt : l.low < 2048

/-- The word in which the fields hold these numbers. -/
def word (l : Layout) : Nat :=
  (((l.major * 16 + l.high) * 32 + l.it) * 32 + l.is) * 2048 + l.low

end Layout

/-- What the fields of the lower word of a pair hold. -/
def layout (p : Pair) : Layout where
  major := Opcode.majorField.extract p.lower.toNat
  high := imm15HighField.extract p.lower.toNat
  it := p.it
  is := p.is
  low := offsetField.extract p.lower.toNat

theorem extract_eq (f : Field) (word : Nat) : f.extract word = word / 2 ^ f.lsb % 2 ^ f.width := by
  rw [Field.extract, Field.size, Nat.shiftRight_eq_div_pow, Nat.one_shiftLeft]

/-- The fields read back what they hold. -/
theorem layout_of_word {l : Layout} (h : l.Fits) {upper : UInt32} :
    layout ⟨upper, UInt32.ofNat l.word⟩ = l := by
  obtain ⟨hmajor, hhigh, hit, his, hlow⟩ := h
  have hword : (UInt32.ofNat l.word).toNat = l.word := by
    refine UInt32.toNat_ofNat_of_lt' ?_
    rw [Layout.word, UInt32.size]
    omega
  simp only [layout, Pair.it, Pair.is, extract_eq, hword, Opcode.majorField, imm15HighField,
    itField, isField, offsetField]
  obtain ⟨major, high, it, is, low⟩ := l
  dsimp only at hmajor hhigh hit his hlow
  simp only [Layout.word, Layout.mk.injEq]
  refine ⟨?_, ?_, ?_, ?_, ?_⟩ <;> omega

/-- The operation is read off the fields at the top and at the bottom. -/
theorem opcode_eq {p : Pair} (hi : p.iBit = false) :
    p.opcode = .ofMajor (p.layout.low % 64) p.layout.low p.layout.major := by
  have hminor : Opcode.minorField.extract p.lower.toNat = p.layout.low % 64 := by
    simp only [layout, extract_eq, Opcode.minorField, offsetField]
    omega
  rw [opcode, hi, if_neg Bool.false_ne_true, Opcode.ofWord, hminor]
  rfl

theorem id_eq (p : Pair) : p.id = p.layout.low / 64 % 32 := by
  simp only [id, layout, extract_eq, idField, offsetField]
  omega

theorem imm15_eq (p : Pair) : p.imm15 = p.layout.high * 2048 + p.layout.low := rfl

theorem imm15_lt (p : Pair) : p.imm15 < 2 ^ 15 := by
  have hhigh : p.layout.high < 16 := Field.extract_lt imm15HighField _
  have hlow : p.layout.low < 2048 := Field.extract_lt offsetField _
  rw [imm15_eq]
  omega

theorem imm11_eq (p : Pair) : p.imm11 = Int.bmod p.layout.low 2048 := rfl

theorem imm5_eq (p : Pair) : p.imm5 = Int.bmod (p.layout.low / 64 % 32 : Nat) 32 := by
  rw [← id_eq]
  rfl

end Pair

namespace Statement

/-! ### The layout of a statement -/

/-- The low bits of a signed number. -/
def lowBits (value : Int) (count : Nat) : Nat :=
  (value % count).toNat

/-- What the fields of the word of a statement hold. -/
def layout : Statement → Pair.Layout
  | iaddiu it is imm =>
    ⟨0x08, imm.toNat / 2048 % 16, it.toNat % 32, is.toNat % 32, imm.toNat % 2048⟩
  | isubiu it is imm =>
    ⟨0x09, imm.toNat / 2048 % 16, it.toNat % 32, is.toNat % 32, imm.toNat % 2048⟩
  | iaddi it is imm => ⟨0x40, 0, it.toNat % 32, is.toNat % 32, lowBits imm.toInt 32 * 64 + 0x32⟩
  | iadd id is it => ⟨0x40, 0, it.toNat % 32, is.toNat % 32, id.toNat % 32 * 64 + 0x30⟩
  | isub id is it => ⟨0x40, 0, it.toNat % 32, is.toNat % 32, id.toNat % 32 * 64 + 0x31⟩
  | iand id is it => ⟨0x40, 0, it.toNat % 32, is.toNat % 32, id.toNat % 32 * 64 + 0x34⟩
  | ior id is it => ⟨0x40, 0, it.toNat % 32, is.toNat % 32, id.toNat % 32 * 64 + 0x35⟩
  | b offset => ⟨0x20, 0, 0, 0, lowBits offset.toInt 2048⟩
  | bal it offset => ⟨0x21, 0, it.toNat % 32, 0, lowBits offset.toInt 2048⟩
  | jr is => ⟨0x24, 0, 0, is.toNat % 32, 0⟩
  | jalr it is => ⟨0x25, 0, it.toNat % 32, is.toNat % 32, 0⟩
  | ibeq it is offset => ⟨0x28, 0, it.toNat % 32, is.toNat % 32, lowBits offset.toInt 2048⟩
  | ibne it is offset => ⟨0x29, 0, it.toNat % 32, is.toNat % 32, lowBits offset.toInt 2048⟩
  | ibltz is offset => ⟨0x2C, 0, 0, is.toNat % 32, lowBits offset.toInt 2048⟩
  | ibgtz is offset => ⟨0x2D, 0, 0, is.toNat % 32, lowBits offset.toInt 2048⟩
  | iblez is offset => ⟨0x2E, 0, 0, is.toNat % 32, lowBits offset.toInt 2048⟩
  | ibgez is offset => ⟨0x2F, 0, 0, is.toNat % 32, lowBits offset.toInt 2048⟩
  | xgkick is => ⟨0x40, 0, 0, is.toNat % 32, 0x6FC⟩

theorem lowBits_lt (value : Int) {count : Nat} (h : 0 < count) : lowBits value count < count := by
  have hpos : (0 : Int) < count := Int.natCast_pos.mpr h
  have hlt := Int.emod_lt_of_pos value hpos
  have hle := Int.emod_nonneg value (Int.ne_of_gt hpos)
  rw [lowBits]
  omega

theorem fits_layout (s : Statement) : s.layout.Fits := by
  have hsmall : ∀ imm : Int8, lowBits imm.toInt 32 < 32 := fun imm => lowBits_lt _ (by decide)
  have hoffset : ∀ offset : Int16, lowBits offset.toInt 2048 < 2048 := fun offset =>
    lowBits_lt _ (by decide)
  cases s with
  | iaddi it is imm =>
    have := hsmall imm
    constructor <;> simp only [layout] <;> omega
  | b offset | bal it offset | ibeq it is offset | ibne it is offset | ibltz is offset
  | ibgtz is offset | iblez is offset | ibgez is offset =>
    have := hoffset offset
    constructor <;> simp only [layout] <;> omega
  | _ => constructor <;> simp only [layout] <;> omega

theorem place_eq (f : Field) (value : Nat) : f.place value = value % 2 ^ f.width * 2 ^ f.lsb := by
  rw [Field.place, Field.size, Nat.shiftLeft_eq, Nat.one_shiftLeft]

theorem placeSigned_offset (value : Int) :
    placeSigned Pair.offsetField value = lowBits value 2048 := by
  have hlt := lowBits_lt value (show 0 < 2048 by decide)
  have hsize : (value % Pair.offsetField.size).toNat = lowBits value 2048 := rfl
  rw [placeSigned, place_eq, hsize]
  simp only [Pair.offsetField]
  omega

theorem placeSigned_imm5 (value : Int) :
    placeSigned Pair.imm5Field value = lowBits value 32 * 64 := by
  have hlt := lowBits_lt value (show 0 < 32 by decide)
  have hsize : (value % Pair.imm5Field.size).toNat = lowBits value 32 := rfl
  rw [placeSigned, place_eq, hsize]
  simp only [Pair.imm5Field]
  omega

/-- The word of a statement holds the layout. -/
theorem bits_eq (s : Statement) : s.bits = s.layout.word := by
  cases s <;>
    simp only [bits, layout, Pair.Layout.word, major, specialWord, registers, destination,
      immediate15, immediate5, branchOffset, placeSigned_offset, placeSigned_imm5, place_eq,
      Opcode.majorField, Opcode.specialMajor, Pair.itField, Pair.isField, Pair.idField,
      Pair.imm15HighField, Pair.imm15LowField, Field.size, Nat.one_shiftLeft, UInt8.toNat_zero] <;>
    omega

/-- **Assembling.** Next to any upper word, the fields of the word hold what the statement says.
Fields that the statement does not use are zero. -/
theorem layout_word (s : Statement) (upper : UInt32) : Pair.layout ⟨upper, s.word⟩ = s.layout := by
  rw [word, bits_eq]
  exact Pair.layout_of_word s.fits_layout

/-! ### Operands -/

/-- The operand fields of a pair hold the operands of a statement, each cut to its field. Immediates
and offsets with a sign are cut to the number between the bounds that is congruent to them. -/
def IsIn (s : Statement) (p : Pair) : Prop :=
  match s with
  | iaddiu it is imm | isubiu it is imm =>
    p.it = it.toNat % 32 ∧ p.is = is.toNat % 32 ∧ p.imm15 = imm.toNat % 2 ^ 15
  | iaddi it is imm =>
    p.it = it.toNat % 32 ∧ p.is = is.toNat % 32 ∧ p.imm5 = Int.bmod imm.toInt 32
  | iadd id is it | isub id is it | iand id is it | ior id is it =>
    p.id = id.toNat % 32 ∧ p.is = is.toNat % 32 ∧ p.it = it.toNat % 32
  | b offset => p.imm11 = Int.bmod offset.toInt 2048
  | bal it offset => p.it = it.toNat % 32 ∧ p.imm11 = Int.bmod offset.toInt 2048
  | jr is | xgkick is => p.is = is.toNat % 32
  | jalr it is => p.it = it.toNat % 32 ∧ p.is = is.toNat % 32
  | ibeq it is offset | ibne it is offset =>
    p.it = it.toNat % 32 ∧ p.is = is.toNat % 32 ∧ p.imm11 = Int.bmod offset.toInt 2048
  | ibltz is offset | ibgtz is offset | iblez is offset | ibgez is offset =>
    p.is = is.toNat % 32 ∧ p.imm11 = Int.bmod offset.toInt 2048

/-- Every operand is in the range of its field, so that none of them is cut when the statement is
assembled. What is decoded always fits. -/
def Fits (s : Statement) : Prop :=
  match s with
  | iaddiu it is imm | isubiu it is imm => it.toNat < 32 ∧ is.toNat < 32 ∧ imm.toNat < 2 ^ 15
  | iaddi it is imm => it.toNat < 32 ∧ is.toNat < 32 ∧ -16 ≤ imm.toInt ∧ imm.toInt < 16
  | iadd id is it | isub id is it | iand id is it | ior id is it =>
    id.toNat < 32 ∧ is.toNat < 32 ∧ it.toNat < 32
  | b offset => -1024 ≤ offset.toInt ∧ offset.toInt < 1024
  | bal it offset => it.toNat < 32 ∧ -1024 ≤ offset.toInt ∧ offset.toInt < 1024
  | jr is | xgkick is => is.toNat < 32
  | jalr it is => it.toNat < 32 ∧ is.toNat < 32
  | ibeq it is offset | ibne it is offset =>
    it.toNat < 32 ∧ is.toNat < 32 ∧ -1024 ≤ offset.toInt ∧ offset.toInt < 1024
  | ibltz is offset | ibgtz is offset | iblez is offset | ibgez is offset =>
    is.toNat < 32 ∧ -1024 ≤ offset.toInt ∧ offset.toInt < 1024

/-- The signed number that some low bits stand for. -/
theorem bmod_lowBits (value : Int) {count : Nat} (h : 0 < count) :
    Int.bmod (lowBits value count) count = Int.bmod value count := by
  have hle := Int.emod_nonneg value (Int.ne_of_gt (Int.natCast_pos.mpr h))
  rw [lowBits, Int.toNat_of_nonneg hle, Int.emod_bmod]

/-- The operation of a pair with the layout of a statement is that of the statement. -/
theorem opcode_of_layout (s : Statement) :
    Opcode.ofMajor (s.layout.low % 64) s.layout.low s.layout.major = s.opcode := by
  cases s with
  | iaddi | iadd | isub | iand | ior =>
    simp only [layout, Nat.mul_add_mod_self_right]
    rfl
  | xgkick =>
    show Opcode.ofMajor (0x6FC % 64) 0x6FC 0x40 = .xgkick
    decide
  | _ => rfl

/-- A pair with the layout of a statement holds its operands. -/
theorem isIn_of_layout {s : Statement} {p : Pair} (h : p.layout = s.layout) : s.IsIn p := by
  have hit : p.it = s.layout.it := congrArg Pair.Layout.it h
  have his : p.is = s.layout.is := congrArg Pair.Layout.is h
  have hid := h ▸ p.id_eq
  have himm15 := h ▸ p.imm15_eq
  have himm11 := h ▸ p.imm11_eq
  have himm5 := h ▸ p.imm5_eq
  -- the sign of an offset is in the highest bit of its field
  have hoffset : ∀ offset : Int16,
      Int.bmod (lowBits offset.toInt 2048) 2048 = Int.bmod offset.toInt 2048 := fun offset =>
    bmod_lowBits _ (by decide)
  cases s with
  | iaddiu | isubiu =>
    refine ⟨hit, his, himm15.trans ?_⟩
    simp only [layout]
    omega
  | iaddi it is imm =>
    have hlt := lowBits_lt imm.toInt (show 0 < 32 by decide)
    have hfield : (lowBits imm.toInt 32 * 64 + 0x32) / 64 % 32 = lowBits imm.toInt 32 := by omega
    refine ⟨hit, his, himm5.trans ?_⟩
    simp only [layout, hfield]
    exact bmod_lowBits _ (by decide)
  | iadd | isub | iand | ior =>
    refine ⟨hid.trans ?_, his, hit⟩
    simp only [layout]
    omega
  | b offset => exact himm11.trans (hoffset offset)
  | bal it offset => exact ⟨hit, himm11.trans (hoffset offset)⟩
  | jr | xgkick => exact his
  | jalr => exact ⟨hit, his⟩
  | ibeq it is offset | ibne it is offset => exact ⟨hit, his, himm11.trans (hoffset offset)⟩
  | ibltz is offset | ibgtz is offset | iblez is offset | ibgez is offset =>
    exact ⟨his, himm11.trans (hoffset offset)⟩

/-! ### The statement of a pair -/

/-- A register field is kept by the integer that holds it. -/
theorem toNat_ofNat_register {n : Nat} (h : n < 32) :
    n = (UInt8.ofNat n).toNat % 32 ∧ (UInt8.ofNat n).toNat < 32 := by
  rw [UInt8.toNat_ofNat']
  omega

theorem ofNat_register {n : Nat} {r : UInt8} (h : n = r.toNat % 32) (hr : r.toNat < 32) :
    UInt8.ofNat n = r := by
  rw [h, Nat.mod_eq_of_lt hr, UInt8.ofNat_toNat]

theorem toNat_ofNat_imm15 {n : Nat} (h : n < 2 ^ 15) :
    n = (UInt16.ofNat n).toNat % 2 ^ 15 ∧ (UInt16.ofNat n).toNat < 2 ^ 15 := by
  rw [UInt16.toNat_ofNat']
  omega

theorem ofNat_imm15 {n : Nat} {imm : UInt16} (h : n = imm.toNat % 2 ^ 15)
    (himm : imm.toNat < 2 ^ 15) : UInt16.ofNat n = imm := by
  rw [h, Nat.mod_eq_of_lt himm, UInt16.ofNat_toNat]

/-- So is a signed one. -/
theorem toInt_ofInt_imm5 (value : Int) :
    Int.bmod value 32 = Int.bmod (Int8.ofInt (Int.bmod value 32)).toInt 32 ∧
      -16 ≤ (Int8.ofInt (Int.bmod value 32)).toInt ∧
      (Int8.ofInt (Int.bmod value 32)).toInt < 16 := by
  have hle := Int.le_bmod (x := value) (m := 32) (by decide)
  have hlt := Int.bmod_lt (x := value) (m := 32) (by decide)
  rw [Int8.toInt_ofInt_of_le (by omega) (by omega), Int.bmod_bmod]
  omega

theorem ofInt_imm5 {n : Int} {imm : Int8} (h : n = Int.bmod imm.toInt 32)
    (hle : -16 ≤ imm.toInt) (hlt : imm.toInt < 16) : Int8.ofInt n = imm := by
  rw [h, Int.bmod_eq_of_le (by omega) (by omega), Int8.ofInt_toInt]

theorem toInt_ofInt_imm11 (value : Int) :
    Int.bmod value 2048 = Int.bmod (Int16.ofInt (Int.bmod value 2048)).toInt 2048 ∧
      -1024 ≤ (Int16.ofInt (Int.bmod value 2048)).toInt ∧
      (Int16.ofInt (Int.bmod value 2048)).toInt < 1024 := by
  have hle := Int.le_bmod (x := value) (m := 2048) (by decide)
  have hlt := Int.bmod_lt (x := value) (m := 2048) (by decide)
  rw [Int16.toInt_ofInt_of_le (by omega) (by omega), Int.bmod_bmod]
  omega

theorem ofInt_imm11 {n : Int} {offset : Int16} (h : n = Int.bmod offset.toInt 2048)
    (hle : -1024 ≤ offset.toInt) (hlt : offset.toInt < 1024) : Int16.ofInt n = offset := by
  rw [h, Int.bmod_eq_of_le (by omega) (by omega), Int16.ofInt_toInt]

/-- **Decoding.** A pair decodes to a statement exactly if it has its operation and holds its
operands, and these are in the ranges of their fields. -/
theorem statement?_eq_some_iff {p : Pair} {s : Statement} :
    p.statement? = some s ↔ p.opcode = s.opcode ∧ s.IsIn p ∧ s.Fits := by
  constructor
  · intro h
    -- each operand that is decoded is in the range of its field and keeps the field
    obtain ⟨hit, hit'⟩ := toNat_ofNat_register (show p.it < 32 from Field.extract_lt _ _)
    obtain ⟨his, his'⟩ := toNat_ofNat_register (show p.is < 32 from Field.extract_lt _ _)
    obtain ⟨hid, hid'⟩ := toNat_ofNat_register (show p.id < 32 from Field.extract_lt _ _)
    obtain ⟨himm15, himm15'⟩ := toNat_ofNat_imm15 p.imm15_lt
    obtain ⟨himm5, himm5'⟩ := toInt_ofInt_imm5 (Pair.imm5Field.extract p.lower.toNat)
    obtain ⟨himm11, himm11'⟩ := toInt_ofInt_imm11 (Pair.offsetField.extract p.lower.toNat)
    rw [Pair.statement?] at h
    split at h
    case h_1 hop | h_2 hop =>
      obtain rfl := Option.some.inj h
      exact ⟨hop, ⟨hit, his, himm15⟩, hit', his', himm15'⟩
    case h_3 hop =>
      obtain rfl := Option.some.inj h
      exact ⟨hop, ⟨hit, his, himm5⟩, hit', his', himm5'⟩
    case h_4 hop | h_5 hop | h_6 hop | h_7 hop =>
      obtain rfl := Option.some.inj h
      exact ⟨hop, ⟨hid, his, hit⟩, hid', his', hit'⟩
    case h_8 hop =>
      obtain rfl := Option.some.inj h
      exact ⟨hop, himm11, himm11'⟩
    case h_9 hop =>
      obtain rfl := Option.some.inj h
      exact ⟨hop, ⟨hit, himm11⟩, hit', himm11'⟩
    case h_10 hop | h_18 hop =>
      obtain rfl := Option.some.inj h
      exact ⟨hop, his, his'⟩
    case h_11 hop =>
      obtain rfl := Option.some.inj h
      exact ⟨hop, ⟨hit, his⟩, hit', his'⟩
    case h_12 hop | h_13 hop =>
      obtain rfl := Option.some.inj h
      exact ⟨hop, ⟨hit, his, himm11⟩, hit', his', himm11'⟩
    case h_14 hop | h_15 hop | h_16 hop | h_17 hop =>
      obtain rfl := Option.some.inj h
      exact ⟨hop, ⟨his, himm11⟩, his', himm11'⟩
    case h_19 => cases h
  · -- and an operand in range is the one that its field holds
    rintro ⟨hop, hin, hfits⟩
    rw [Pair.statement?, hop]
    cases s with
    | iaddiu | isubiu =>
      obtain ⟨hit, his, himm⟩ := hin
      obtain ⟨hit', his', himm'⟩ := hfits
      simp only [opcode, ofNat_register hit hit', ofNat_register his his', ofNat_imm15 himm himm']
    | iaddi =>
      obtain ⟨hit, his, himm⟩ := hin
      obtain ⟨hit', his', hle, hlt⟩ := hfits
      simp only [opcode, ofNat_register hit hit', ofNat_register his his', ofInt_imm5 himm hle hlt]
    | iadd | isub | iand | ior =>
      obtain ⟨hid, his, hit⟩ := hin
      obtain ⟨hid', his', hit'⟩ := hfits
      simp only [opcode, ofNat_register hid hid', ofNat_register his his', ofNat_register hit hit']
    | b => simp only [opcode, ofInt_imm11 hin hfits.1 hfits.2]
    | bal =>
      obtain ⟨hit, himm⟩ := hin
      obtain ⟨hit', hle, hlt⟩ := hfits
      simp only [opcode, ofNat_register hit hit', ofInt_imm11 himm hle hlt]
    | jr | xgkick => simp only [opcode, ofNat_register hin hfits]
    | jalr => simp only [opcode, ofNat_register hin.1 hfits.1, ofNat_register hin.2 hfits.2]
    | ibeq | ibne =>
      obtain ⟨hit, his, himm⟩ := hin
      obtain ⟨hit', his', hle, hlt⟩ := hfits
      simp only [opcode, ofNat_register hit hit', ofNat_register his his', ofInt_imm11 himm hle hlt]
    | ibltz | ibgtz | iblez | ibgez =>
      obtain ⟨his, himm⟩ := hin
      obtain ⟨his', hle, hlt⟩ := hfits
      simp only [opcode, ofNat_register his his', ofInt_imm11 himm hle hlt]

/-- A pair with the operation of some statement decodes to one. -/
theorem exists_statement? {p : Pair} {t : Statement} (h : p.opcode = t.opcode) :
    ∃ s, p.statement? = some s := by
  rw [Pair.statement?, h]
  cases t <;> exact ⟨_, rfl⟩

end Statement

/-! ### Flags -/

namespace Pair

theorem has_withFlags (flags lower : UInt32) (f : Flag) :
    (withFlags flags lower).has f = flags.toNat.testBit f.bit := by
  have hidle : idleUpper.toNat.testBit f.bit = false := by cases f <;> decide
  rw [has, withFlags, UInt32.toNat_or, Nat.testBit_or, hidle, Bool.false_or]

/-- The word of a statement decodes to its operation next to flags without the I bit. -/
theorem opcode_withFlags (s : Statement) {flags : UInt32}
    (hi : flags.toNat.testBit Flag.i.bit = false) :
    (withFlags flags s.word).opcode = s.opcode := by
  have hlayout : (withFlags flags s.word).layout = s.layout := s.layout_word _
  rw [opcode_eq ((has_withFlags flags s.word .i).trans hi), hlayout, Statement.opcode_of_layout]

theorem isIn_withFlags (s : Statement) (flags : UInt32) : s.IsIn (withFlags flags s.word) :=
  Statement.isIn_of_layout (s.layout_word _)

/-- Two pairs have the same flags and decode to the same statement. They may differ in the rest of
the upper word, and in bits of the lower one that the statement does not use. -/
structure Alike (p p' : Pair) (s : Statement) : Prop where
  has_eq : ∀ f, p'.has f = p.has f
  decodes : p.statement? = some s
  decodes' : p'.statement? = some s

namespace Alike

variable {p p' : Pair} {s : Statement}

theorem opcode_eq (h : Alike p p' s) : p'.opcode = p.opcode :=
  (Statement.statement?_eq_some_iff.mp h.decodes').1.trans
    (Statement.statement?_eq_some_iff.mp h.decodes).1.symm

theorem isBranch_eq (h : Alike p p' s) : p'.isBranch = p.isBranch :=
  congrArg Opcode.isBranch h.opcode_eq

theorem hasDelaySlot_eq (h : Alike p p' s) : p'.hasDelaySlot = p.hasDelaySlot := by
  rw [hasDelaySlot, hasDelaySlot, eBit, h.has_eq, h.isBranch_eq]
  rfl

/-- Alike pairs close a sequence in the same way. -/
theorem closing_eq (h : Alike p p' s) : Sequence.closing p' = Sequence.closing p := by
  rw [Sequence.closing, Sequence.closing, eBit, dBit, tBit, h.has_eq, h.has_eq, h.has_eq,
    h.isBranch_eq, h.opcode_eq]
  rfl

/-- Neither of them is a pair that no operation names. -/
theorem opcode_ne_other (h : Alike p p' s) : (p.opcode == .other) = false := by
  rw [(Statement.statement?_eq_some_iff.mp h.decodes).1]
  cases s <;> rfl

end Alike

end Pair

/-! ### Translation -/

namespace Code.Draft

variable {p p' : Pair} {s : Statement}

theorem operation_congr (d : Draft) (memLength offset : Nat) (inSlot : Bool)
    (h : Pair.Alike p p' s) :
    d.operation memLength offset p' inSlot = d.operation memLength offset p inSlot := by
  obtain ⟨hop, hin, -⟩ := Statement.statement?_eq_some_iff.mp h.decodes
  obtain ⟨hop', hin', -⟩ := Statement.statement?_eq_some_iff.mp h.decodes'
  cases s with
  | iaddiu | isubiu | iaddi =>
    simp only [operation, hop, hop', Statement.opcode, addConstant, itOf, isOf, hin.1, hin'.1,
      hin.2.1, hin'.2.1, hin.2.2, hin'.2.2]
  | iadd | isub | iand | ior =>
    simp only [operation, hop, hop', Statement.opcode, combine, itOf, isOf, idOf, hin.1, hin'.1,
      hin.2.1, hin'.2.1, hin.2.2, hin'.2.2]
  | xgkick =>
    have his : p'.is = p.is := hin'.trans hin.symm
    simp only [operation, hop, hop', Statement.opcode, kicking, isOf, his]
  | b =>
    have himm : p'.imm11 = p.imm11 := hin'.trans hin.symm
    simp only [operation, hop, hop', Statement.opcode, branch, condition, target, link, himm]
  | jr =>
    have his : p'.is = p.is := hin'.trans hin.symm
    simp only [operation, hop, hop', Statement.opcode, branch, condition, target, link, isOf, his]
  | bal =>
    simp only [operation, hop, hop', Statement.opcode, branch, condition, target, link, itOf,
      hin.1, hin'.1, hin.2, hin'.2]
  | jalr =>
    simp only [operation, hop, hop', Statement.opcode, branch, condition, target, link, itOf, isOf,
      hin.1, hin'.1, hin.2, hin'.2]
  | ibeq | ibne =>
    simp only [operation, hop, hop', Statement.opcode, branch, condition, target, link, itOf, isOf,
      hin.1, hin'.1, hin.2.1, hin'.2.1, hin.2.2, hin'.2.2]
  | ibltz | ibgtz | iblez | ibgez =>
    simp only [operation, hop, hop', Statement.opcode, branch, condition, target, link, isOf,
      hin.1, hin'.1, hin.2, hin'.2]

theorem pair_congr (d : Draft) (memLength offset : Nat) (inSlot : Bool) (h : Pair.Alike p p' s) :
    d.pair memLength offset p' inSlot = d.pair memLength offset p inSlot := by
  have hd : p'.dBit = p.dBit := h.has_eq .d
  have ht : p'.tBit = p.tBit := h.has_eq .t
  rw [pair, pair, operation_congr d memLength offset inSlot h, hd, ht]

theorem entries_congr (memLength offset : Nat) (before after : List Sequence.Entry)
    (h : Pair.Alike p p' s) (inSlot : Bool) (d : Draft) :
    entries memLength inSlot d (before ++ ⟨offset, p'⟩ :: after) =
      entries memLength inSlot d (before ++ ⟨offset, p⟩ :: after) := by
  induction before generalizing inSlot d with
  | nil =>
    rw [List.nil_append, List.nil_append, entries, entries, pair_congr _ _ _ _ h,
      h.hasDelaySlot_eq]
  | cons e before ih => exact ih _ _

end Code.Draft

namespace Sequence

/-- What a sequence says about its place in microcode depends on the offsets of its entries
alone. -/
theorem place_congr {s t : Sequence}
    (h : t.entries.map Entry.offset = s.entries.map Entry.offset)
    (hmem : t.memLength = s.memLength) :
    t.start = s.start ∧ t.behind = s.behind ∧ t.length = s.length ∧ t.ranges = s.ranges := by
  have hhead : ∀ s : Sequence, (s.entries.map Entry.offset).head? = some s.start := fun s => by
    rw [List.head?_map, List.head?_eq_some_head s.entries_ne_nil]
    rfl
  have hlast : ∀ s : Sequence, (s.entries.map Entry.offset).getLast? = some s.last.offset :=
    fun s => by
      rw [List.getLast?_map, List.getLast?_eq_some_getLast s.entries_ne_nil]
      rfl
  have hranges : ∀ s : Sequence, s.ranges = (s.entries.map Entry.offset).foldr
      (fun offset rs => Range.consJoin ⟨offset, offset + Pair.size⟩ rs) [] := fun s => by
    rw [List.foldr_map]
    rfl
  refine ⟨?_, ?_, ?_, ?_⟩
  · exact Option.some.inj ((hhead t).symm.trans (h ▸ hhead s))
  · rw [behind, behind, hmem, Option.some.inj ((hlast t).symm.trans (h ▸ hlast s))]
  · have hcount := congrArg List.length h
    rwa [List.length_map, List.length_map] at hcount
  · rw [hranges, hranges, h]

end Sequence

namespace Recompiler

/-- **Translation.** A compiler does the same with a sequence in which a pair is exchanged for one
that is alike. -/
theorem compile_congr {p p' : Pair} {s : Statement} (h : Pair.Alike p p' s) (host : Host)
    (r : Recompiler) (before after : List Sequence.Entry) (offset : Nat)
    (ending : Sequence.Ending) (memLength : Nat)
    (hne : before ++ ⟨offset, p⟩ :: after ≠ []) (hne' : before ++ ⟨offset, p'⟩ :: after ≠ []) :
    r.compile host ⟨before ++ ⟨offset, p'⟩ :: after, ending, memLength, hne'⟩ =
      r.compile host ⟨before ++ ⟨offset, p⟩ :: after, ending, memLength, hne⟩ := by
  obtain ⟨hstart, hbehind, hlength, hranges⟩ := Sequence.place_congr
    (s := ⟨before ++ ⟨offset, p⟩ :: after, ending, memLength, hne⟩)
    (t := ⟨before ++ ⟨offset, p'⟩ :: after, ending, memLength, hne'⟩)
    (by simp only [List.map_append, List.map_cons]) rfl
  have hcode : Sequence.toCode ⟨before ++ ⟨offset, p'⟩ :: after, ending, memLength, hne'⟩ =
      Sequence.toCode ⟨before ++ ⟨offset, p⟩ :: after, ending, memLength, hne⟩ := by
    rw [Sequence.toCode, Sequence.toCode, hbehind, hlength]
    exact congrArg (fun d : Code.Draft => d.toCode _ _ _)
      (Code.Draft.entries_congr memLength offset before after h false .empty)
  have hunknown :
      Sequence.unknownPair? ⟨before ++ ⟨offset, p'⟩ :: after, ending, memLength, hne'⟩ =
      Sequence.unknownPair? ⟨before ++ ⟨offset, p⟩ :: after, ending, memLength, hne⟩ := by
    simp only [Sequence.unknownPair?, List.find?_append, List.find?_cons, h.opcode_eq,
      h.opcode_ne_other]
  simp only [compile, compileAny, hunknown, hcode, hstart, hlength, hranges]

end Recompiler

/-! ### Both ways -/

namespace Statement

open Pair (withFlags)

/-- **Assembling and decoding.** Next to flags without the I bit, the word of a statement is a pair
that decodes to the operation of the statement, holds its operands, each cut to its field, and
nothing else; if the operands are in range the pair decodes to the statement itself. Conversely a
pair without the I bit that has the operation of some statement decodes to a statement, and its word
next to the same flags is a pair that has the operation and holds the operands, closes a sequence in
the same way, and makes no difference to a compiler. -/
theorem decodes_and_reassembles :
    (∀ (s : Statement) (flags : UInt32), flags.toNat.testBit Pair.Flag.i.bit = false →
      (withFlags flags s.word).opcode = s.opcode ∧
      s.IsIn (withFlags flags s.word) ∧
      (withFlags flags s.word).layout = s.layout ∧
      (s.Fits → (withFlags flags s.word).statement? = some s)) ∧
    (∀ (p : Pair) (t : Statement), p.iBit = false → p.opcode = t.opcode →
      ∃ s, p.statement? = some s ∧ s.IsIn p ∧
        ∀ flags : UInt32, (∀ f : Pair.Flag, flags.toNat.testBit f.bit = p.has f) →
          (withFlags flags s.word).opcode = p.opcode ∧
          s.IsIn (withFlags flags s.word) ∧
          (withFlags flags s.word).statement? = p.statement? ∧
          Sequence.closing (withFlags flags s.word) = Sequence.closing p ∧
          ∀ (host : Host) (r : Recompiler) (before after : List Sequence.Entry) (offset : Nat)
            (ending : Sequence.Ending) (memLength : Nat) (hne : before ++ ⟨offset, p⟩ :: after ≠ [])
            (hne' : before ++ ⟨offset, withFlags flags s.word⟩ :: after ≠ []),
            r.compile host
                ⟨before ++ ⟨offset, withFlags flags s.word⟩ :: after, ending, memLength, hne'⟩ =
              r.compile host ⟨before ++ ⟨offset, p⟩ :: after, ending, memLength, hne⟩) := by
  constructor
  · intro s flags hi
    have hop := Pair.opcode_withFlags s hi
    have hin := Pair.isIn_withFlags s flags
    exact ⟨hop, hin, s.layout_word _, fun hfits => statement?_eq_some_iff.mpr ⟨hop, hin, hfits⟩⟩
  · intro p t hi hop
    obtain ⟨s, hs⟩ := exists_statement? hop
    obtain ⟨hop, hin, hfits⟩ := statement?_eq_some_iff.mp hs
    refine ⟨s, hs, hin, fun flags hflags => ?_⟩
    have hop' := Pair.opcode_withFlags s ((hflags .i).trans hi)
    have hin' := Pair.isIn_withFlags s flags
    have halike : Pair.Alike p (withFlags flags s.word) s :=
      { has_eq := fun f => (Pair.has_withFlags flags s.word f).trans (hflags f)
        decodes := hs
        decodes' := statement?_eq_some_iff.mpr ⟨hop', hin', hfits⟩ }
    exact ⟨halike.opcode_eq, hin', halike.decodes'.trans hs.symm, halike.closing_eq,
      Recompiler.compile_congr halike⟩

/-- The greatest immediate is kept, and one bit more is cut off; a jump with all the bits set that
it does not look at is reassembled without them. -/
theorem decodes_and_reassembles_of_wideOperands :
    (withFlags (Pair.Flag.mask .t) (iaddiu 1 2 0x7FFF).word).statement? =
      some (iaddiu 1 2 0x7FFF) ∧
    (iaddiu 33 34 0xFFFF).IsIn (withFlags (Pair.Flag.mask .t) (iaddiu 33 34 0xFFFF).word) ∧
    ∃ s, (⟨Pair.Flag.mask .e, 0x481F1FFF⟩ : Pair).statement? = some s ∧
      (withFlags (Pair.Flag.mask .e) s.word).statement? =
        (⟨Pair.Flag.mask .e, 0x481F1FFF⟩ : Pair).statement? := by
  have hkept := decodes_and_reassembles.1 (iaddiu 1 2 0x7FFF) (Pair.Flag.mask .t) (by decide)
  have hcut := decodes_and_reassembles.1 (iaddiu 33 34 0xFFFF) (Pair.Flag.mask .t) (by decide)
  obtain ⟨s, hs, -, hagain⟩ := decodes_and_reassembles.2 ⟨Pair.Flag.mask .e, 0x481F1FFF⟩ (.jr 3)
    (by decide) (by decide)
  exact ⟨hkept.2.2.2 ⟨by decide, by decide, by decide⟩, hcut.2.1, s, hs,
    (hagain (Pair.Flag.mask .e) fun _ => rfl).2.2.1⟩

end Statement

end VectorUnit
