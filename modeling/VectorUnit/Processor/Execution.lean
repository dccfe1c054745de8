import VectorUnit.Processor

/-!
# Execution

`Processor.execute` runs microcode block by block until a status bit stops it or its budget of
cycles is used up; at least one block always runs. `Processor.turn` is one turn: the cache is
flushed if too little room is left, the block at the offset is looked up, its code runs on the
registers, and branch tracking and counters are brought up to date. Blocks behind the first one are
taken from the program that the first one belongs to, as long as no flush comes between.

Each block takes at least one cycle, so `max 1 budget` turns are always enough; that bound is the
measure of `Processor.runBlocks`.
-/

namespace VectorUnit

/-- What a run came to. -/
structure Tally where
  /-- The cycles taken, of which no more than `Tally.maxCycles` are counted. -/
  cycles : Nat
  /-- The blocks that ran. -/
  blocks : Nat
deriving DecidableEq, Repr

namespace Tally

/-- A run that has not begun. -/
def zero : Tally := ⟨0, 0⟩

instance : Inhabited Tally := ⟨zero⟩

/-- The greatest number of cycles that is counted. -/
def maxCycles : Nat := UInt32.size - 1

/-- The count after one more block. Cycles are counted up to a greatest number and not beyond it;
blocks are counted as they are. -/
def add (t : Tally) (cycles : UInt32) : Tally :=
  ⟨min (t.cycles + cycles.toNat) maxCycles, t.blocks + 1⟩

end Tally

namespace Processor

/-- Finds the block with which a run goes on: in the most recent program if the run has begun and
the program is still there. -/
def nextBlock (p : Processor) (pc : UInt32) (begun : Bool) : Except Fault (Hit × Processor) :=
  match p.recent with
  | some program => if begun then p.enterProgram program pc.toNat else p.findBlock pc
  | none => p.findBlock pc

/-- The unit after the block found for `pc` has run. -/
def enter (p : Processor) (block : Block) (pc : UInt32) : Processor :=
  let registers := block.run p.registers
  { p with
    registers := registers
    tracking := p.tracking.advance pc registers.pc }.count fun s =>
      { s with turns := s.turns + 1 }

/-- One turn of a run: the cycles that it took and the unit after it. Room for code is made before
the block is looked up. -/
def turn (p : Processor) (pc : UInt32) (begun : Bool) : Except Fault (UInt32 × Processor) := do
  let (found, p) ← p.ensureRoom.nextBlock pc begun
  return (found.block.cycles, p.enter found.block pc)

/-- At most `turns` turns of a run, which has come to `done` so far. The number of turns bounds the
recursion and nothing else: it is never used up before the budget. -/
def runBlocks (budget : UInt32) : (turns : Nat) → (p : Processor) → (pc : UInt32) →
    (done : Tally) → Except Fault (Tally × Processor)
  | 0, p, _, done => .ok (done, p)
  | turns + 1, p, pc, done =>
    match p.turn pc (0 < done.blocks) with
    | .error fault => .error fault
    | .ok (cycles, p) =>
      let done := done.add cycles
      -- The budget is looked at behind a block, never within one.
      if p.registers.isStopped || budget.toNat ≤ done.cycles then .ok (done, p)
      else runBlocks budget turns p p.registers.pc done

/-- A run that has a result takes a turn, which has one as well. It ends behind that turn, or what
is left of it has the same result. -/
theorem runBlocks_eq_ok {p q : Processor} {budget pc : UInt32} {turns : Nat} {done t : Tally}
    (h : p.runBlocks budget (turns + 1) pc done = .ok (t, q)) :
    ∃ cycles p₁, p.turn pc (0 < done.blocks) = .ok (cycles, p₁) ∧
      ((p₁.registers.isStopped || budget.toNat ≤ (done.add cycles).cycles) = true ∧
          t = done.add cycles ∧ q = p₁ ∨
        ¬ (p₁.registers.isStopped || budget.toNat ≤ (done.add cycles).cycles) = true ∧
          p₁.runBlocks budget turns p₁.registers.pc (done.add cycles) = .ok (t, q)) := by
  rw [runBlocks] at h
  split at h
  · cases h
  · case h_2 cycles p₁ hturn =>
    refine ⟨cycles, p₁, hturn, ?_⟩
    dsimp only at h
    split at h
    · case isTrue hends =>
      obtain ⟨rfl, rfl⟩ := Prod.mk.inj (Except.ok.inj h)
      exact .inl ⟨hends, rfl, rfl⟩
    · case isFalse hgoes => exact .inr ⟨hgoes, h⟩

/-- The unit at the beginning of a run, with the status of the last one cleared. -/
def beginRun (p : Processor) (pc : UInt32) : Processor :=
  { p with registers := { p.registers with pc := pc, status := 0 } }.count fun s =>
    { s with runs := s.runs + 1 }

/-- Runs microcode from an offset until a status bit stops it or at least `budget` cycles were
taken. -/
def execute (p : Processor) (start budget : UInt32) : Except Fault (Tally × Processor) :=
  let pc := UInt32.ofNat (p.config.kind.pairOffset start)
  runBlocks budget (max 1 budget.toNat) (p.beginRun pc) pc .zero

end Processor

end VectorUnit
