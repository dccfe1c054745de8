import VectorUnit.Cache.Program

/-!
# Shelves

Two neighbouring pairs of microcode share a `Shelf`: the programs that have a block starting
there, the most recently used one first, and a shortcut to what was found there last.
`Shelf.touch` moves a program to the front and leaves the others in their order; it changes the
members in no way when the program is one of them (`Shelf.mem_touch`).
-/

namespace VectorUnit

/-- What is known about the blocks that start in a pair of neighbouring offsets: the programs that
have one, and the one entered last. -/
structure Shelf where
  /-- The program and the block found last. -/
  shortcut : Option (ProgramNumber × BlockNumber)
  /-- The programs with a block here, most recently used first. -/
  programs : List ProgramNumber
deriving DecidableEq, Repr, Inhabited

namespace Shelf

/-- The number of bytes of microcode that share a shelf. -/
def span : Nat := 16

/-- A shelf that holds nothing. -/
def empty : Shelf := ⟨none, []⟩

/-- The shelf holds anything at all. -/
def isUsed (s : Shelf) : Bool :=
  s.shortcut.isSome || !s.programs.isEmpty

/-- A program moved to the front of a list. -/
def moveToFront (id : ProgramNumber) (ids : List ProgramNumber) : List ProgramNumber :=
  if ids.head? = some id then ids else id :: ids.filter (· ≠ id)

/-- The shelf with a program at the front. -/
def touch (s : Shelf) (id : ProgramNumber) : Shelf :=
  { s with programs := moveToFront id s.programs }

/-- The shelf with a new program at the front. -/
def push (s : Shelf) (id : ProgramNumber) : Shelf :=
  { s with programs := id :: s.programs }

/-- The shelf with a program among its members, at the front if it was not. A program that is listed
already keeps its place. -/
def enlist (s : Shelf) (id : ProgramNumber) : Shelf :=
  if s.programs.contains id then s else s.push id

/-- The shelf with another shortcut. -/
def setShortcut (s : Shelf) (shortcut : Option (ProgramNumber × BlockNumber)) : Shelf :=
  { s with shortcut := shortcut }

theorem head?_touch (s : Shelf) (id : ProgramNumber) :
    (s.touch id).programs.head? = some id := by
  simp only [touch, moveToFront]
  split
  · assumption
  · rfl

theorem mem_touch (s : Shelf) (id other : ProgramNumber) :
    other ∈ (s.touch id).programs ↔ other = id ∨ other ∈ s.programs := by
  simp only [touch, moveToFront]
  split
  case isTrue h =>
    have := List.mem_of_mem_head? (Option.mem_def.mpr h)
    grind
  case isFalse => grind

end Shelf

end VectorUnit
