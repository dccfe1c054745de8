import VectorUnit.Instruction.Pair

/-!
# Microcode memory

`Memory` is a run of bytes that holds instruction pairs. A pair is read at any offset at which all
of its bytes lie inside the memory (`Memory.pair?`); a write goes around the end of the memory and
starts over at offset 0 (`Memory.write`), so that of several bytes written to one place the last
one stays. Writing changes no length (`Memory.size_write`).
-/

namespace VectorUnit

/-- A run of bytes. Nothing that is done to a memory changes how many there are. -/
structure Memory where
  bytes : Array UInt8
deriving DecidableEq, Inhabited

namespace Memory

/-- The memory that holds the given bytes. -/
def ofList (bytes : List UInt8) : Memory :=
  ⟨bytes.toArray⟩

/-- The bytes of a memory in order. -/
def toList (m : Memory) : List UInt8 :=
  m.bytes.toList

/-- A memory of `length` zeros. -/
def zeros (length : Nat) : Memory :=
  ⟨Array.replicate length 0⟩

/-- The number of bytes. -/
def size (m : Memory) : Nat :=
  m.bytes.size

/-- The byte at an offset, and zero outside. -/
def byte (m : Memory) (offset : Nat) : UInt8 :=
  m.bytes.getD offset 0

/-! ### Reading -/

/-- The pair at an offset, the bytes outside counting as zero. -/
def pair (m : Memory) (offset : Nat) : Pair :=
  Pair.ofBytes fun i => m.byte (offset + i)

/-- The pair at an offset, if the memory holds all of it. -/
def pair? (m : Memory) (offset : Nat) : Option Pair :=
  if offset + Pair.size ≤ m.size then some (m.pair offset) else none

/-- The bytes from `start` up to `stop`, as far as the memory goes. -/
def slice (m : Memory) (start stop : Nat) : Array UInt8 :=
  m.bytes.extract start stop

/-- The memory holds exactly the given bytes from `start` on. -/
def holds (m : Memory) (start : Nat) (bytes : Array UInt8) : Bool :=
  start + bytes.size ≤ m.size &&
    Nat.all bytes.size fun i h => m.byte (start + i) == bytes[i]

/-! ### Writing -/

/-- The memory after one byte is written. -/
def set (m : Memory) (offset : Nat) (value : UInt8) : Memory :=
  ⟨m.bytes.setIfInBounds offset value⟩

/-- The memory after `data` is written from `offset` on, around the end if need be. -/
def write (m : Memory) (offset : Nat) : List UInt8 → Memory
  | [] => m
  | value :: rest => write (m.set (offset % m.size) value) (offset + 1) rest

@[simp] theorem size_set (m : Memory) (offset : Nat) (value : UInt8) :
    (m.set offset value).size = m.size := by
  simp [set, size]

@[simp] theorem size_zeros (length : Nat) : (zeros length).size = length := by
  simp [zeros, size]

theorem size_write (m : Memory) (offset : Nat) (data : List UInt8) :
    (m.write offset data).size = m.size := by
  induction data generalizing m offset with
  | nil => rfl
  | cons value rest ih => rw [write, ih, size_set]

theorem byte_set (m : Memory) (offset i : Nat) (value : UInt8) :
    (m.set offset value).byte i = if i = offset ∧ i < m.size then value else m.byte i := by
  simp only [byte, set, size, Array.getD_eq_getD_getElem?, Array.getElem?_setIfInBounds]
  grind

end Memory

end VectorUnit
