import VectorUnit.Cbor.Record
import VectorUnit.SaveState

/-!
# Save states as CBOR documents

A save state has four fields, and so have the branch tracking and the registers within it. The
fields of a record are listed by its keys (`SaveState.Key`, `Tracking.Key`, `Registers.Key`), each
with the name under which it is written.

`SaveState.encode` writes a save state as a map of its fields, in their order, with the microcode
and the integer registers as arrays of integers and the names of choices as texts.
`SaveState.decode` reads what `encode` writes, with the liberties that `Cbor.readRecord` and its
fellows grant; it stops behind the document and looks at nothing that follows.
-/

namespace VectorUnit

open Cbor

/-! ### Fields -/

/-- The fields of branch tracking. -/
inductive Tracking.Key where
  | reliance
  | enteredAt
  | leftTo
  | turns
deriving DecidableEq

/-- The fields in the order in which they are written. -/
def Tracking.Key.all : List Key :=
  [reliance, enteredAt, leftTo, turns]

/-- The name under which a field is written. -/
def Tracking.Key.name : Key → String
  | reliance => "reuse"
  | enteredAt => "last_start"
  | leftTo => "last_exit"
  | turns => "blocks_run"

/-- The fields of registers. -/
inductive Registers.Key where
  | vi
  | pc
  | status
  | kick
deriving DecidableEq

/-- The fields in the order in which they are written. -/
def Registers.Key.all : List Key :=
  [vi, pc, status, kick]

/-- The name under which a field is written. -/
def Registers.Key.name : Key → String
  | vi => "vi"
  | pc => "pc"
  | status => "status"
  | kick => "kick"

/-- The fields of a save state. -/
inductive SaveState.Key where
  | kind
  | microcode
  | tracking
  | registers
deriving DecidableEq

/-- The fields in the order in which they are written. -/
def SaveState.Key.all : List Key :=
  [kind, microcode, tracking, registers]

/-- The name under which a field is written. -/
def SaveState.Key.name : Key → String
  | kind => "variant"
  | microcode => "microcode"
  | tracking => "pipeline"
  | registers => "registers"

/-! ### Writing -/

/-- The entry of a record. -/
def Cbor.entry (name : String) (value : Item) : Item × Item :=
  (.text name, value)

/-- A word as a number. -/
def Cbor.ofWord (w : UInt32) : Item :=
  .unsigned w.toNat

/-- The entries of branch tracking. -/
def Tracking.entries (p : Tracking) : List (Item × Item) := [
  entry Key.reliance.name (.text p.reliance.title),
  entry Key.enteredAt.name (ofWord p.enteredAt),
  entry Key.leftTo.name (ofWord p.leftTo),
  entry Key.turns.name (ofWord p.turns)]

/-- The branch tracking as an item. -/
def Tracking.toItem (p : Tracking) : Item :=
  .map p.entries

/-- The entries of registers. -/
def Registers.entries (r : Registers) : List (Item × Item) := [
  entry Key.vi.name (.array (r.vi.toList.map fun v => .unsigned v.toNat)),
  entry Key.pc.name (ofWord r.pc),
  entry Key.status.name (ofWord r.status),
  entry Key.kick.name (ofWord r.kick)]

/-- The registers as an item. -/
def Registers.toItem (r : Registers) : Item :=
  .map r.entries

/-- The entries of a save state. -/
def SaveState.entries (s : SaveState) : List (Item × Item) := [
  entry Key.kind.name (.text s.kind.title),
  entry Key.microcode.name (.array (s.microcode.toList.map fun b => .unsigned b.toNat)),
  entry Key.tracking.name s.tracking.toItem,
  entry Key.registers.name s.registers.toItem]

/-- A save state as an item. -/
def SaveState.toItem (s : SaveState) : Item :=
  .map s.entries

/-- The document of a save state. -/
def SaveState.encode (s : SaveState) : List UInt8 :=
  s.toItem.encode

/-! ### Reading -/

namespace Cbor

/-- Reads a word. -/
def readWord : Reader UInt32 :=
  UInt32.ofNat <$> integer 32

/-- The values of a choice with the names under which they are written. -/
def named {α : Type} (title : α → String) (values : List α) : List (String × α) :=
  values.map fun a => (title a, a)

end Cbor

/-! #### Branch tracking -/

/-- The fields of branch tracking that have been read. -/
structure Tracking.Partial where
  reliance : Option Reliance
  enteredAt : Option UInt32
  leftTo : Option UInt32
  turns : Option UInt32

/-- The field has been read. -/
def Tracking.Partial.has (s : Partial) : Key → Bool
  | .reliance => s.reliance.isSome
  | .enteredAt => s.enteredAt.isSome
  | .leftTo => s.leftTo.isSome
  | .turns => s.turns.isSome

/-- Reads the value of a field. -/
def Tracking.Partial.fill (s : Partial) (depth : Nat) : Key → Reader Partial
  | .reliance => return { s with
      reliance := some (← readChoice (named Reliance.title Reliance.all) depth) }
  | .enteredAt => return { s with enteredAt := some (← readWord) }
  | .leftTo => return { s with leftTo := some (← readWord) }
  | .turns => return { s with turns := some (← readWord) }

/-- The branch tracking, if none of its fields is missing. -/
def Tracking.Partial.complete (s : Partial) : Except Problem Tracking := do
  return {
    reliance := ← required Key.reliance.name s.reliance
    enteredAt := ← required Key.enteredAt.name s.enteredAt
    leftTo := ← required Key.leftTo.name s.leftTo
    turns := ← required Key.turns.name s.turns }

/-- Branch tracking as a record. -/
def Tracking.record : Cbor.Record Key Partial Tracking where
  keys := Key.all
  name := Key.name
  empty := ⟨none, none, none, none⟩
  has := Partial.has
  fill := Partial.fill
  complete := Partial.complete

/-- Reads branch tracking. -/
def Tracking.read (depth : Nat) : Reader Tracking :=
  record.read depth

/-! #### Registers -/

/-- The fields of registers that have been read. -/
structure Registers.Partial where
  vi : Option (List UInt16)
  pc : Option UInt32
  status : Option UInt32
  kick : Option UInt32

/-- The field has been read. -/
def Registers.Partial.has (s : Partial) : Key → Bool
  | .vi => s.vi.isSome
  | .pc => s.pc.isSome
  | .status => s.status.isSome
  | .kick => s.kick.isSome

/-- Reads the value of a field. -/
def Registers.Partial.fill (s : Partial) (depth : Nat) : Key → Reader Partial
  | .vi => return { s with vi := some (← readHalfWords 16 depth) }
  | .pc => return { s with pc := some (← readWord) }
  | .status => return { s with status := some (← readWord) }
  | .kick => return { s with kick := some (← readWord) }

/-- The registers, if none of the fields is missing. -/
def Registers.Partial.complete (s : Partial) : Except Problem Registers := do
  let vi ← required Key.vi.name s.vi
  return {
    vi := Vector.ofFn fun r => vi.getD r 0
    pc := ← required Key.pc.name s.pc
    status := ← required Key.status.name s.status
    kick := ← required Key.kick.name s.kick }

/-- Registers as a record. -/
def Registers.record : Cbor.Record Key Partial Registers where
  keys := Key.all
  name := Key.name
  empty := ⟨none, none, none, none⟩
  has := Partial.has
  fill := Partial.fill
  complete := Partial.complete

/-- Reads registers. -/
def Registers.readRecord (depth : Nat) : Reader Registers :=
  record.read depth

/-! #### Save states -/

/-- The fields of a save state that have been read. -/
structure SaveState.Partial where
  kind : Option UnitKind
  microcode : Option Memory
  tracking : Option Tracking
  registers : Option Registers

/-- The field has been read. -/
def SaveState.Partial.has (s : Partial) : Key → Bool
  | .kind => s.kind.isSome
  | .microcode => s.microcode.isSome
  | .tracking => s.tracking.isSome
  | .registers => s.registers.isSome

/-- Reads the value of a field. -/
def SaveState.Partial.fill (s : Partial) (depth : Nat) : Key → Reader Partial
  | .kind => return { s with
      kind := some (← readChoice (named UnitKind.title UnitKind.all) depth) }
  | .microcode => return { s with microcode := some (.ofList (← readBytes depth)) }
  | .tracking => return { s with tracking := some (← Tracking.read depth) }
  | .registers => return { s with registers := some (← Registers.readRecord depth) }

/-- The save state, if none of its fields is missing. -/
def SaveState.Partial.complete (s : Partial) : Except Problem SaveState := do
  return {
    kind := ← required Key.kind.name s.kind
    microcode := ← required Key.microcode.name s.microcode
    tracking := ← required Key.tracking.name s.tracking
    registers := ← required Key.registers.name s.registers }

/-- A save state as a record. -/
def SaveState.record : Cbor.Record Key Partial SaveState where
  keys := Key.all
  name := Key.name
  empty := ⟨none, none, none, none⟩
  has := Partial.has
  fill := Partial.fill
  complete := Partial.complete

/-- Reads a save state. -/
def SaveState.read (depth : Nat) : Reader SaveState :=
  record.read depth

/-- The save state whose document stands at the front of the input. -/
def SaveState.decode (input : List UInt8) : Except DecodeError SaveState :=
  (SaveState.read maxDepth).ofDocument input

end VectorUnit
