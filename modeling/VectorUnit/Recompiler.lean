import VectorUnit.Arena
import VectorUnit.Code.Draft
import VectorUnit.Host
import VectorUnit.Instruction.Listing

/-!
# The recompiler

A `Recompiler` turns sequences into `Block`s: it compiles them and places the code in its arena.
Unless it is told to ignore them, pairs that no operation names are refused before anything
else happens, and the first such pair is reported (`Recompiler.compile`). A compilation that fails
leaves the recompiler as it was; one that succeeds is counted.

A recompiler only says where in its arena the code goes. Whether the machine lets the arena be
written is asked by the unit when it writes the block there (`Processor.writeBlock`).
-/

namespace VectorUnit

/-- A compiled sequence, placed in an arena. Its code is there to be run as well as its place, since
the bytes of host code are left open. -/
structure Block where
  /-- The offset of the first pair. -/
  start : Nat
  /-- Where in microcode the pairs of the block stand. -/
  ranges : List Range
  /-- The number of pairs. -/
  pairCount : Nat
  ending : Sequence.Ending
  code : Code
  /-- Where the code is placed. -/
  span : Span
deriving DecidableEq, Repr

namespace Block

/-- The number of cycles that the block takes. -/
def cycles (b : Block) : UInt32 :=
  b.code.cycles

/-- The registers after the block has run. -/
def run (b : Block) (regs : Registers) : Registers :=
  b.code.run regs

end Block

/-- Why a sequence is not compiled. -/
inductive CompileError where
  /-- No operation names this pair. -/
  | unimplemented (pair : Pair)
  /-- The code does not fit into what is left of the arena. -/
  | exhausted
deriving DecidableEq, Repr

/-- The text of the error. -/
def CompileError.message : CompileError → String
  | unimplemented pair => "unimplemented instruction " ++ pair.diagnostic
  | exhausted => "code region exhausted"

/-- A compiler with the arena that it fills. -/
structure Recompiler where
  arena : Arena
  /-- The number of blocks compiled so far. -/
  compiled : Nat
  /-- Pairs that no operation names are compiled as pairs that do nothing. -/
  ignoresUnknown : Bool

namespace Recompiler

/-- The alignment of every block. -/
def alignment : Nat := 64

/-- A recompiler with a fresh arena of at least `arenaLength` bytes. -/
def create (ignoresUnknown : Bool) (arenaLength : Nat) :
    Except Arena.ReservationError Recompiler := do
  let arena ← Arena.reserve arenaLength
  return ⟨arena, 0, ignoresUnknown⟩

/-- Compiles a sequence whatever pairs it holds. -/
def compileAny (host : Host) (r : Recompiler) (s : Sequence) :
    Except CompileError (Block × Recompiler) :=
  let code := s.toCode
  match r.arena.place alignment (host.encode code) with
  | .error _ => .error .exhausted
  | .ok (span, arena) =>
    .ok (⟨s.start, s.ranges, s.length, s.ending, code, span⟩,
      { r with arena := arena, compiled := r.compiled + 1 })

/-- Compiles a sequence, unless it holds a pair that no operation names and such pairs are not
ignored. -/
def compile (host : Host) (r : Recompiler) (s : Sequence) :
    Except CompileError (Block × Recompiler) :=
  match s.unknownPair? with
  | some pair =>
    if r.ignoresUnknown then r.compileAny host s else .error (.unimplemented pair)
  | none => r.compileAny host s

/-- The recompiler with its arena rewound. No block compiled so far may be entered any
more. -/
def rewind (r : Recompiler) : Recompiler :=
  { r with arena := r.arena.rewind }

end Recompiler

end VectorUnit
