/-!
# Bit fields of a word

A field is a run of bits of a 32-bit word. `Field.extract` reads the number that a field holds,
`Field.place` is the number that a word gains when the field is filled, and `Field.extractSigned`
reads a field as a two's complement number. A placed value keeps only the bits that its field has
(`Field.place_mod`), and a field reads back what was placed in it (`Field.extract_place`).
-/

namespace VectorUnit

/-- A field of `width` bits whose lowest bit is bit `lsb`. -/
structure Field where
  lsb : Nat
  width : Nat
deriving DecidableEq, Repr

namespace Field

/-- The number of values that a field can hold. -/
def size (f : Field) : Nat :=
  1 <<< f.width

/-- The unsigned number that field `f` of a word holds. -/
def extract (f : Field) (word : Nat) : Nat :=
  word >>> f.lsb % f.size

/-- The two's complement number that field `f` of a word holds. -/
def extractSigned (f : Field) (word : Nat) : Int :=
  Int.bmod (f.extract word) f.size

/-- The contribution of the low bits of `value` to a word whose field `f` they fill. -/
def place (f : Field) (value : Nat) : Nat :=
  (value % f.size) <<< f.lsb

theorem size_pos (f : Field) : 0 < f.size := by
  rw [size, Nat.one_shiftLeft]
  exact Nat.two_pow_pos f.width

theorem extract_lt (f : Field) (word : Nat) : f.extract word < f.size :=
  Nat.mod_lt _ f.size_pos

/-- Bits above the field are dropped when a value is placed. -/
theorem place_mod (f : Field) (value : Nat) : f.place (value % f.size) = f.place value := by
  rw [place, place, Nat.mod_mod]

/-- A field alone in a word reads back the value placed in it, cut to the field's width. -/
theorem extract_place (f : Field) (value : Nat) :
    f.extract (f.place value) = value % f.size := by
  rw [extract, place, Nat.shiftLeft_shiftRight, Nat.mod_mod]

end Field

end VectorUnit
