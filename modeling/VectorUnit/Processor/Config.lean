import VectorUnit.UnitKind

/-!
# Configuration of a vector unit

`Config` says which unit is modelled and how its program cache works: how programs are compared
with live microcode, how long a block may be, how much room there is for host code and how much of
it has to be left before a block is entered, and whether pairs that no operation names are refused
at first.
-/

namespace VectorUnit

/-- How it is decided whether a program was created from microcode like that in memory. -/
inductive MatchMode where
  /-- By the bytes that its blocks were compiled from. -/
  | byExcerpts
  /-- By all bytes of memory. -/
  | byImage
deriving DecidableEq, Repr, Inhabited

namespace MatchMode

/-- The name of the mode in text that users read and write. -/
def name : MatchMode → String
  | byExcerpts => "partial"
  | byImage => "whole"

/-- The name of the mode in diagnostics. -/
def title : MatchMode → String
  | byExcerpts => "Partial"
  | byImage => "Whole"

/-- Both modes. -/
def all : List MatchMode := [byExcerpts, byImage]

/-- The mode that a text names. -/
def ofText (text : String) : Except UnknownName MatchMode :=
  choose (all.map fun m => (m.name, m)) text

end MatchMode

/-- The configuration of a vector unit. -/
structure Config where
  kind : UnitKind
  matchMode : MatchMode
  /-- The greatest number of pairs in a block, delay slots not counted. -/
  maxBlockLength : Nat
  /-- The number of bytes for host code. -/
  arenaSize : Nat
  /-- When fewer bytes than this are left for host code, the cache is flushed before the next block
  is entered. -/
  headroom : Nat
  /-- Pairs that no operation names are compiled at once, as pairs that do nothing. -/
  ignoresUnknown : Bool
deriving DecidableEq, Repr

/-- The configuration used when nothing is said. -/
def Config.standard : Config where
  kind := .vu0
  matchMode := .byExcerpts
  maxBlockLength := 1024
  arenaSize := 16 * 1024 * 1024
  headroom := 256 * 1024
  ignoresUnknown := false

instance : Inhabited Config := ⟨.standard⟩

end VectorUnit
