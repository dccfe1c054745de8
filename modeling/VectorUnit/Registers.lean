/-!
# Register file

`Registers` holds the sixteen integer registers of a vector unit, the offset at which execution
continues, the status bits and the address of the last kick. Register numbers count modulo sixteen
(`Registers.Index.ofField`). Register 0 reads as zero whatever is stored in its place, and writing
to it changes nothing (`Registers.read_zero`, `Registers.write_zero`).

The status bits of `Status` are gathered by executing pairs; any of `Status.stopping` stops a run
(`Registers.isStopped`).
-/

namespace VectorUnit

/-! ### Status bits -/

namespace Status

/-- The program ended. -/
def ended : UInt32 := 1

/-- A pair with the D bit was executed. -/
def debugBreak : UInt32 := 2

/-- A pair with the T bit was executed. -/
def debugHalt : UInt32 := 4

/-- A kick was executed. -/
def kick : UInt32 := 8

/-- The bits that stop a run. -/
def stopping : UInt32 := ended ||| debugBreak ||| debugHalt

end Status

/-! ### Registers -/

/-- The register state of a vector unit. -/
structure Registers where
  /-- The stored contents of the integer registers. -/
  vi : Vector UInt16 16
  /-- The offset at which execution continues. -/
  pc : UInt32
  /-- The status bits gathered so far. -/
  status : UInt32
  /-- The address that the last kick named, in quadwords. -/
  kick : UInt32
deriving DecidableEq, Repr

namespace Registers

/-- Register numbers have numerals. -/
instance : @NeZero Nat Zero.ofOfNat0 16 :=
  ⟨by decide⟩

/-- The number of an integer register. -/
abbrev Index := Fin 16

theorem Index.lt (r : Index) : r.val < 16 :=
  r.isLt

/-- The register that an operand field names: fields have more values than there are registers,
and the excess is dropped. -/
def Index.ofField (n : Nat) : Index :=
  Fin.ofNat 16 n

/-- The register state after power on. -/
def initial : Registers :=
  ⟨Vector.replicate 16 0, 0, 0, 0⟩

instance : Inhabited Registers := ⟨initial⟩

/-- The value of an integer register; register 0 reads as zero. -/
def read (regs : Registers) (r : Index) : UInt16 :=
  if r = 0 then 0 else regs.vi.get r

/-- The registers after a write to an integer register; register 0 takes no writes. -/
def write (regs : Registers) (r : Index) (value : UInt16) : Registers :=
  if r = 0 then regs else { regs with vi := regs.vi.set r value r.lt }

/-- The registers with further status bits set. -/
def raise (regs : Registers) (bits : UInt32) : Registers :=
  { regs with status := regs.status ||| bits }

/-- A bit that stops a run is set. -/
def isStopped (regs : Registers) : Bool :=
  regs.status &&& Status.stopping != 0

theorem get_ofFn {α : Type} (f : Index → α) (r : Index) : (Vector.ofFn f).get r = f r :=
  Vector.getElem_ofFn r.lt

/-- Storing in the place of one register leaves the places of all others alone. -/
theorem get_set {α : Type} (places : Vector α 16) (r s : Index) (x : α) :
    (places.set r x r.lt).get s = if r = s then x else places.get s := by
  have hset : (places.set r x r.lt)[s] = if r.val = s.val then x else places[s] :=
    Vector.getElem_set r.lt s.lt
  simp only [Fin.val_inj] at hset
  exact hset

@[simp] theorem read_zero (regs : Registers) : regs.read 0 = 0 := rfl

@[simp] theorem write_zero (regs : Registers) (value : UInt16) : regs.write 0 value = regs := rfl

theorem read_write (regs : Registers) (r s : Index) (value : UInt16) :
    (regs.write r value).read s = if s = r ∧ r ≠ 0 then value else regs.read s := by
  by_cases hr : r = 0
  · subst hr
    simp
  · by_cases hs : s = 0
    · subst hs
      simp [read, Ne.symm hr]
    · rw [read, write, if_neg hr, if_neg hs, get_set, read, if_neg hs]
      by_cases h : r = s
      · rw [if_pos h, if_pos ⟨h.symm, hr⟩]
      · rw [if_neg h, if_neg fun e => h e.1.symm]

end Registers

end VectorUnit
