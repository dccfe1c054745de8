import Std.Data.HashMap

/-!
# Sparse bytes

A large run of bytes most of which are zero. `Bytes.byte` looks a byte up, `Bytes.write` puts
bytes one after another from an offset on, and afterwards each byte there is the one that was
written and every other byte is what it was (`Bytes.byte_write`).
-/

namespace VectorUnit

namespace Arena

/-- An unbounded run of bytes, zero wherever nothing was written. How many of them there are is the
concern of the arena. -/
structure Bytes where
  cells : Std.HashMap Nat UInt8

namespace Bytes

/-- Nothing but zeros. -/
def zeros : Bytes := ⟨∅⟩

instance : Inhabited Bytes := ⟨zeros⟩

/-- The byte at an offset. -/
def byte (b : Bytes) (offset : Nat) : UInt8 :=
  b.cells.getD offset 0

/-- The `count` bytes from an offset on. -/
def read (b : Bytes) (offset count : Nat) : List UInt8 :=
  (List.range count).map fun i => b.byte (offset + i)

/-- The bytes after one of them is changed. -/
def set (b : Bytes) (offset : Nat) (value : UInt8) : Bytes :=
  ⟨b.cells.insert offset value⟩

/-- The bytes after `data` is written from an offset on. -/
def write (b : Bytes) (offset : Nat) : List UInt8 → Bytes
  | [] => b
  | value :: rest => write (b.set offset value) (offset + 1) rest

@[simp] theorem byte_zeros (offset : Nat) : zeros.byte offset = 0 := by
  simp [byte, zeros]

theorem byte_set (b : Bytes) (offset i : Nat) (value : UInt8) :
    (b.set offset value).byte i = if i = offset then value else b.byte i := by
  simp only [byte, set, Std.HashMap.getD_insert, beq_iff_eq]
  by_cases h : i = offset
  · rw [if_pos h, if_pos h.symm]
  · rw [if_neg h, if_neg (Ne.symm h)]

theorem byte_write (b : Bytes) (offset i : Nat) (data : List UInt8) :
    (b.write offset data).byte i =
      if offset ≤ i ∧ i < offset + data.length then data.getD (i - offset) 0 else b.byte i := by
  induction data generalizing b offset with
  | nil =>
    rw [write, if_neg]
    simp only [List.length_nil]
    omega
  | cons value rest ih =>
    rw [write, ih, byte_set, List.length_cons]
    by_cases h : i = offset
    · subst h
      rw [if_neg (by omega), if_pos rfl, if_pos (by omega), Nat.sub_self]
      rfl
    · by_cases h' : offset + 1 ≤ i ∧ i < offset + 1 + rest.length
      · rw [if_pos h', if_pos (by omega), show i - offset = (i - (offset + 1)) + 1 by omega]
        rfl
      · rw [if_neg h', if_neg h, if_neg (by omega)]

end Bytes

end Arena

end VectorUnit
