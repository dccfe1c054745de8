import VectorUnit.Cache.Shelf

/-!
# The program cache

A `Cache` stores programs and their blocks and finds them again by offset. Each pair of
neighbouring offsets has a shelf; `Cache.lookup` compares the programs of a shelf with live memory
in the order of most recent use and stops at the first that matches.

Programs and blocks are numbered in the order in which they were stored. `Cache.forgetAll`
forgets them all, but `nextSerial`, the serial number of the next program, never goes back. An
operation answers `none` exactly when an offset has no shelf or a number names nothing stored.
-/

namespace VectorUnit

/-- Programs and their blocks, found by offset. Both are stored under numbers, which stay theirs
until all of them are forgotten. -/
structure Cache where
  programs : Array Program
  blocks : Array Block
  shelves : Array Shelf
  /-- The serial number of the next program. -/
  nextSerial : Nat

namespace Cache

/-- The cache of a memory of `memLength` bytes, which holds nothing. -/
def create (memLength : Nat) : Cache :=
  ⟨#[], #[], Array.replicate (memLength / Shelf.span) .empty, 0⟩

/-! ### Looking things up -/

/-- The program with a number. -/
def program? (c : Cache) (id : ProgramNumber) : Option Program :=
  c.programs[id.value]?

/-- The block with a number. -/
def block? (c : Cache) (id : BlockNumber) : Option Block :=
  c.blocks[id.value]?

/-- The shelf of an offset. -/
def shelf? (c : Cache) (offset : Nat) : Option Shelf :=
  c.shelves[offset / Shelf.span]?

/-- What a lookup came to, and the number of programs that were compared for it. -/
structure Lookup where
  /-- The first program that matches. -/
  found : Option ProgramNumber
  /-- The number of programs that were compared. -/
  comparisons : Nat
deriving DecidableEq, Repr

/-- The first of some programs that matches a memory, `compared` of them having been compared
before. -/
def lookupAmong (c : Cache) (m : Memory) (digest? : Option UInt64) (compared : Nat) :
    List ProgramNumber → Option Lookup
  | [] => some ⟨none, compared⟩
  | id :: rest =>
    match c.program? id with
    | none => none
    | some p =>
      if p.matchesMemory m digest? then some ⟨some id, compared + 1⟩
      else lookupAmong c m digest? (compared + 1) rest

/-- The first program in the shelf of an offset that matches a memory. The list is gone through from
the front, and no further than to that program. -/
def lookup (c : Cache) (offset : Nat) (m : Memory) (digest? : Option UInt64) : Option Lookup :=
  match c.shelf? offset with
  | none => none
  | some s => c.lookupAmong m digest? 0 s.programs

/-! ### Changing shelves -/

/-- The cache with the shelf of an offset changed. -/
def modifyShelf (c : Cache) (offset : Nat) (f : Shelf → Shelf) : Option Cache :=
  if offset / Shelf.span < c.shelves.size then
    some { c with shelves := c.shelves.modify (offset / Shelf.span) f }
  else none

/-- The cache with a shortcut for the shelf of an offset. -/
def setShortcut (c : Cache) (offset : Nat) (program : ProgramNumber) (block : BlockNumber) :
    Option Cache :=
  c.modifyShelf offset fun s => s.setShortcut (some (program, block))

/-- The cache with a program moved to the front of the shelf of an offset. -/
def touch (c : Cache) (offset : Nat) (id : ProgramNumber) : Option Cache :=
  c.modifyShelf offset fun s => s.touch id

/-- The cache without shortcuts. -/
def dropShortcuts (c : Cache) : Cache :=
  { c with shelves := c.shelves.map fun s => s.setShortcut none }

/-! ### Storing and forgetting -/

/-- The cache with one more program, at the front of the shelf of an offset. -/
def addProgram (c : Cache) (offset : Nat) (basis : Program.Basis) :
    Option (ProgramNumber × Cache) :=
  let id : ProgramNumber := ⟨c.programs.size⟩
  { c with
    programs := c.programs.push (.create c.nextSerial basis)
    nextSerial := c.nextSerial + 1 }.modifyShelf offset (·.push id) |>.map (id, ·)

/-- The cache with a block compiled from `m` as the block of a program that is entered at
`offset`. -/
def addBlock (c : Cache) (program : ProgramNumber) (offset : Nat) (block : Block)
    (m : Memory) : Option (BlockNumber × Cache) :=
  let id : BlockNumber := ⟨c.blocks.size⟩
  if program.value < c.programs.size then
    { c with
      programs := c.programs.modify program.value fun p => p.addBlock offset id block.ranges m
      blocks := c.blocks.push block }.modifyShelf offset (·.enlist program) |>.map (id, ·)
  else none

/-- The cache without programs and blocks. Serial numbers go on. -/
def forgetAll (c : Cache) : Cache :=
  { programs := #[]
    blocks := #[]
    shelves := c.shelves.map fun _ => .empty
    nextSerial := c.nextSerial }

/-- The shelves that hold anything, with the first offset of each, by ascending offset. -/
def usedShelves (c : Cache) : List (Nat × Shelf) :=
  c.shelves.toList.zipIdx.filterMap fun (s, i) =>
    if s.isUsed then some (Shelf.span * i, s) else none

end Cache

end VectorUnit
