import VectorUnit.Code.Draft
import VectorUnit.Interpreter

/-!
# Sixteen bit values in 32-bit words

Host code keeps an integer register as a word whose upper half repeats the sign of the lower one
(`Code.widen`). This file says why nothing is lost: the low half is the register
(`toUInt16_widen`), the word and the register are the same signed number (`toInt_widen`), and the
halves of sums, differences, conjunctions and disjunctions are those of the registers.

Two operations see the upper half. A kick clears it (`widen_and_low`). A jump shifts it, and the
mask of the memory takes the shifted bits away as long as the memory has no more than `8 * 65536`
bytes (`scale_and`); every masked offset is the offset of a pair inside the memory
(`and_targetMask_lt`, `dvd_and_targetMask`).
-/

namespace VectorUnit

namespace Code

/-! ### The register in the word -/

/-- The low half of a widened register is the register. -/
theorem toUInt16_widen (v : UInt16) : (widen v).toUInt16 = v := by
  apply UInt16.toBitVec_inj.mp
  rw [UInt32.toBitVec_toUInt16]
  change (v.toBitVec.signExtend 32).setWidth 16 = v.toBitVec
  -- the bits below bit 16 are the ones that the sign extension leaves alone
  ext i hi
  rw [BitVec.getElem_setWidth, BitVec.getLsbD_signExtend, if_pos hi, BitVec.getLsbD_eq_getElem hi]
  simp only [Bool.and_eq_right_iff_imp, decide_eq_true_eq]
  omega

/-- A widened register is the same signed number. -/
theorem toInt_widen (v : UInt16) : (widen v).toInt32.toInt = v.toInt16.toInt := by
  rw [widen, Int32.toInt32_toUInt32, Int16.toInt_toInt32]

theorem widen_injective {a b : UInt16} (h : widen a = widen b) : a = b := by
  rw [← toUInt16_widen a, h, toUInt16_widen]

private theorem toNat_widen_mod (v : UInt16) :
    (widen v).toNat % UInt16.size = v.toNat := by
  rw [← UInt32.toNat_toUInt16, toUInt16_widen]

/-- Constants may be cut to sixteen bits before or after they are made unsigned. -/
theorem toUInt16_ofInt (i : Int) : (UInt32.ofInt i).toUInt16 = UInt16.ofInt i := by
  apply UInt16.toNat_inj.mp
  simp only [UInt32.ofInt, UInt16.ofInt, UInt32.toNat_toUInt16, UInt32.toNat_ofNat',
    UInt16.toNat_ofNat']
  omega

theorem ofInt_natCast (n : Nat) : UInt16.ofInt n = UInt16.ofNat n := by
  apply UInt16.toNat_inj.mp
  simp only [UInt16.ofInt, UInt16.toNat_ofNat']
  omega

/-- The unsigned value of a register is the low half of its word. -/
theorem widen_and_low (v : UInt16) : widen v &&& 0xFFFF = v.toUInt32 := by
  apply UInt32.toNat_inj.mp
  rw [UInt32.toNat_and, UInt16.toNat_toUInt32]
  exact (Nat.and_two_pow_sub_one_eq_mod _ 16).trans (toNat_widen_mod v)

/-! ### Comparisons -/

/-- The comparison of two numbers. -/
def Comparison.ofInts (relation : Comparison) (a b : Int) : Bool :=
  match relation with
  | .eq => a == b
  | .ne => a != b
  | .lt => a < b
  | .gt => b < a
  | .le => a ≤ b
  | .ge => b ≤ a

private theorem toInt16_inj {a b : UInt16} : a.toInt16.toInt = b.toInt16.toInt ↔ a = b := by
  constructor
  · intro h
    have h16 : a.toInt16 = b.toInt16 := Int16.toInt_inj.mp h
    rw [← UInt16.toUInt16_toInt16 a, h16, UInt16.toUInt16_toInt16]
  · rintro rfl
    rfl

/-- Words compare as the signed numbers in the registers do. -/
theorem Comparison.holds_widen (relation : Comparison) (a b : UInt16) :
    relation.holds (widen a) (widen b) = relation.ofInts a.toInt16.toInt b.toInt16.toInt := by
  have hinj : widen a = widen b ↔ a.toInt16.toInt = b.toInt16.toInt :=
    ⟨fun h => toInt16_inj.mpr (widen_injective h), fun h => by rw [toInt16_inj.mp h]⟩
  cases relation with
  | eq => simp only [holds, ofInts, Bool.beq_eq_decide_eq, hinj]
  | ne => simp only [holds, ofInts, bne, Bool.beq_eq_decide_eq, hinj]
  | lt | gt => simp only [holds, ofInts, Int32.lt_iff_toInt_lt, toInt_widen]
  | le | ge => simp only [holds, ofInts, Int32.le_iff_toInt_le, toInt_widen]

/-! ### Offsets inside a memory -/

/-- In a memory of at most `8 * 65536` bytes the sign of a register has no part in the offset to
which a jump through it goes. -/
theorem scale_and (v : UInt16) {mask : UInt32}
    (h : mask.toNat < 8 * UInt16.size) :
    widen v <<< 3 &&& mask = UInt32.ofInt (8 * v.toNat) &&& mask := by
  have hsmall : mask.toNat < 2 ^ 19 := h
  have hmask : mask.toNat = mask.toNat &&& (2 ^ 19 - 1) := by
    rw [Nat.and_two_pow_sub_one_eq_mod, Nat.mod_eq_of_lt hsmall]
  -- the mask sees the bits below bit 19 only
  have hlow : ∀ n : Nat, n &&& mask.toNat = n % 2 ^ 19 &&& mask.toNat := by
    intro n
    calc n &&& mask.toNat
        = n &&& ((2 ^ 19 - 1) &&& mask.toNat) := by rw [Nat.and_comm (2 ^ 19 - 1), ← hmask]
      _ = n &&& (2 ^ 19 - 1) &&& mask.toNat := (Nat.and_assoc ..).symm
      _ = n % 2 ^ 19 &&& mask.toNat := by rw [Nat.and_two_pow_sub_one_eq_mod]
  have hv : (widen v).toNat % 2 ^ 16 = v.toNat := toNat_widen_mod v
  apply UInt32.toNat_inj.mp
  rw [UInt32.toNat_and, UInt32.toNat_and, hlow, hlow (UInt32.ofInt _).toNat]
  congr 1
  -- and there the word shifted by three bits is the register shifted by three bits
  simp only [UInt32.ofInt, UInt32.toNat_ofNat', UInt32.toNat_shiftLeft]
  rw [show (3 : UInt32).toNat % 32 = 3 from rfl, Nat.shiftLeft_eq]
  omega

namespace Draft

theorem toNat_targetMask_le (memLength : Nat) :
    (targetMask memLength).toNat ≤ (memLength - 1) / Pair.size * Pair.size := by
  rw [targetMask, UInt32.toNat_ofNat']
  exact Nat.mod_le _ _

/-- A masked offset lies inside the memory. -/
theorem and_targetMask_lt (offset : UInt32) {memLength : Nat} (h : 0 < memLength) :
    (offset &&& targetMask memLength).toNat < memLength := by
  have hmask := toNat_targetMask_le memLength
  have hand : (offset &&& targetMask memLength).toNat ≤ (targetMask memLength).toNat := by
    rw [UInt32.toNat_and]
    exact Nat.and_le_right
  have hdiv := Nat.div_mul_le_self (memLength - 1) Pair.size
  omega

/-- A masked offset is the offset of a pair. -/
theorem dvd_and_targetMask (offset : UInt32) (memLength : Nat) :
    Pair.size ∣ (offset &&& targetMask memLength).toNat := by
  have hmask : (targetMask memLength).toNat % 2 ^ 3 = 0 := by
    rw [targetMask, UInt32.toNat_ofNat', show Pair.size = 2 ^ 3 from rfl]
    omega
  apply Nat.dvd_of_mod_eq_zero
  rw [show Pair.size = 2 ^ 3 from rfl, UInt32.toNat_and, Nat.and_mod_two_pow, hmask,
    Nat.and_zero]

end Draft

end Code

end VectorUnit
