import VectorUnit.Processor.Execution

/-!
# Execution without a cache

`Uncached` is a vector unit that keeps nothing but its microcode and registers. Before each block
it takes the sequence of live memory at the offset where it stands and compiles it
(`Uncached.code?`), so that no code can be out of date. A unit with a cache shows the same
registers, microcode and results; `Processor.uncached` forgets what such a unit knows beyond them.
-/

namespace VectorUnit

/-- A vector unit without a cache. -/
structure Uncached where
  kind : UnitKind
  /-- The greatest number of pairs in a block, delay slots not counted. -/
  maxBlockLength : Nat
  microcode : Memory
  registers : Registers
deriving DecidableEq

namespace Uncached

/-- The code for an offset, compiled from live memory. -/
def code? (u : Uncached) (offset : Nat) : Option Code :=
  (Sequence.ofMemory? u.microcode offset u.maxBlockLength).map Sequence.toCode

/-- The unit after bytes are written to its microcode, around the end of memory if need be. -/
def write (u : Uncached) (offset : UInt32) (data : List UInt8) : Uncached :=
  { u with microcode := u.microcode.write offset.toNat data }

/-- The unit with other registers. -/
def withRegisters (u : Uncached) (registers : Registers) : Uncached :=
  { u with registers := registers }

/-- The unit after it has loaded a save state. -/
def load (u : Uncached) (s : SaveState) : Except SaveState.Misfit Uncached := do
  s.fit u.kind
  return { u with microcode := s.microcode, registers := s.registers }

/-- At most `turns` blocks of a run. -/
def runBlocks (budget : UInt32) : (turns : Nat) → Uncached → (pc : UInt32) → (done : Tally) →
    Option (Tally × Uncached)
  | 0, u, _, done => some (done, u)
  | turns + 1, u, pc, done =>
    match u.code? pc.toNat with
    | none => none
    | some code =>
      let u := u.withRegisters (code.run u.registers)
      let done := done.add code.cycles
      if u.registers.isStopped || budget.toNat ≤ done.cycles then some (done, u)
      else runBlocks budget turns u u.registers.pc done

/-- Runs microcode from an offset until a status bit stops it or at least `budget` cycles were
taken. -/
def execute (u : Uncached) (start budget : UInt32) : Option (Tally × Uncached) :=
  let pc := UInt32.ofNat (u.kind.pairOffset start)
  runBlocks budget (max 1 budget.toNat)
    (u.withRegisters { u.registers with pc := pc, status := 0 }) pc .zero

end Uncached

/-- What a unit would be without its cache. -/
def Processor.uncached (p : Processor) : Uncached where
  kind := p.config.kind
  maxBlockLength := p.config.maxBlockLength
  microcode := p.microcode
  registers := p.registers

end VectorUnit
