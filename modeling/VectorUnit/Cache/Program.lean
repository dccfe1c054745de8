import Std.Data.TreeMap
import VectorUnit.Recompiler

/-!
# Programs

A `Program` is a version of microcode memory that was seen once, together with the blocks that were
compiled from it. It remembers either the whole image or only the bytes that its blocks were
compiled from (`Program.Basis`), and `Program.matchesMemory` tells whether live memory is such a
version: in the first case the images have to be equal, in the second every remembered range has to
hold its bytes.
-/

namespace VectorUnit

/-- The number of a program among those stored. It says nothing once programs were forgotten, unlike
a serial number. -/
structure ProgramNumber where
  value : Nat
deriving DecidableEq, Repr, Inhabited

/-- The number of a block among those stored, counted over all programs in the order of compilation.
-/
structure BlockNumber where
  value : Nat
deriving DecidableEq, Repr, Inhabited

namespace Program

/-- A range of microcode that was compiled and the bytes it held then. A program whose excerpts all
match is taken to be that of live memory. -/
structure Excerpt where
  range : Range
  bytes : Array UInt8
deriving DecidableEq

/-- The excerpt that covers a range of a memory. -/
def Excerpt.ofMemory (m : Memory) (r : Range) : Excerpt :=
  ⟨r, m.slice r.start r.stop⟩

/-- A memory holds the bytes of an excerpt in their place. -/
def Excerpt.matchesMemory (e : Excerpt) (m : Memory) : Bool :=
  m.holds e.range.start e.bytes

/-- By what a program recognizes its version of microcode. All programs of a unit do so in the same
way, which its configuration chooses. -/
inductive Basis where
  /-- By the excerpts that its blocks were compiled from. -/
  | excerpts
  /-- By the whole image, whose digest is kept as well. -/
  | image (image : Memory) (digest : UInt64)
deriving DecidableEq

end Program

open Program in
/-- A version of microcode memory and the blocks compiled from it. It is never changed but by adding
blocks. -/
structure Program where
  /-- The place of the program in the order of creation. -/
  serial : Nat
  basis : Basis
  /-- What was compiled, in the order of compilation. Excerpts may overlap. -/
  excerpts : List Excerpt
  /-- The blocks by the offsets at which they are entered. -/
  blocks : Std.TreeMap Nat BlockNumber

namespace Program

/-- A program without blocks. -/
def create (serial : Nat) (basis : Basis) : Program :=
  ⟨serial, basis, [], ∅⟩

/-- The ranges compiled so far, in the order of compilation. -/
def ranges (p : Program) : List Range :=
  p.excerpts.map Excerpt.range

/-- The block that is entered at an offset, if it has been compiled. -/
def block? (p : Program) (offset : Nat) : Option BlockNumber :=
  p.blocks[offset]?

/-- The entry offsets with their blocks, by ascending offset. -/
def entries (p : Program) : List (Nat × BlockNumber) :=
  p.blocks.toList

/-- The program with one more block, which was compiled from the given ranges of `m` and is entered
at `offset`. -/
def addBlock (p : Program) (offset : Nat) (id : BlockNumber) (ranges : List Range) (m : Memory) :
    Program :=
  { p with
    excerpts := p.excerpts ++ ranges.map (Excerpt.ofMemory m)
    blocks := p.blocks.insert offset id }

/-- The program was created from microcode that agrees with `m`. A digest of `m`, if given, rules
out whole images that have another one. -/
def matchesMemory (p : Program) (m : Memory) (digest? : Option UInt64) : Bool :=
  match p.basis with
  | .excerpts => p.excerpts.all fun e => e.matchesMemory m
  | .image image digest => digest?.all (· == digest) && image == m

end Program

end VectorUnit
