import VectorUnit.Runner
import VectorUnit.Slots

/-!
# Workspaces

A `Workspace` keeps units under names, alone or behind runners, together with the slots in which
they are. A unit is only created when the slot of its number is free, and it gives the slot back
when it is dropped. A worker that a fault ends drops its unit there and then; the runner which is
left holds no slot. What stood under a name is dropped when something new takes the name, but only
after the new thing was made: a unit cannot take the place of one with the same number.
-/

namespace VectorUnit

/-- Why a unit cannot be created. -/
inductive AdmissionError where
  | reserve (error : Arena.ReservationError)
  | claim (error : SlotError)
deriving DecidableEq, Repr

/-- The text of the error. -/
def AdmissionError.message : AdmissionError → String
  | reserve error => error.message
  | claim error => error.message

namespace Workspace

/-- What stands under a name. -/
inductive Holder where
  /-- A slot that is claimed for nothing. -/
  | claim (slot : Nat)
  | unit (p : Processor)
  | runner (b : Runner)

/-- The slot that is held. A worker that is gone has given the slot of its unit back. -/
def Holder.slot? : Holder → Option Nat
  | .claim slot => some slot
  | .unit p => some p.config.kind.number
  | .runner b => if b.work = .died then none else some b.unit.config.kind.number

/-- What there is left to drop when the worker, if there is one, has taken on all requests. -/
def Holder.close : Holder → Holder
  | .claim slot => .claim slot
  | .unit p => .unit p
  | .runner b => .runner b.close

end Workspace

/-- Slots, and what holds them. -/
structure Workspace where
  slots : Slots
  /-- What stands under each name. No name is there twice. -/
  holders : List (String × Workspace.Holder)

namespace Workspace

/-- A workspace with nothing in it. -/
def empty : Workspace :=
  ⟨.free, []⟩

/-- What stands under a name. -/
def find? (w : Workspace) (name : String) : Option Holder :=
  w.holders.lookup name

/-- The workspace without what stands under a name, whose slot stays claimed. -/
def remove (w : Workspace) (name : String) : Workspace :=
  { w with holders := w.holders.filter fun entry => entry.1 != name }

/-- The workspace with another thing under a name, in the slot of the one that stood there. -/
def replace (w : Workspace) (name : String) (holder : Holder) : Workspace :=
  { w with holders := (name, holder) :: (w.remove name).holders }

/-- The workspace after what stands under a name has become something else, in the same slot or in
none any more. -/
def update (w : Workspace) (name : String) (holder : Holder) : Workspace :=
  match w.find? name with
  | none => w
  | some former =>
    let slots := if holder.slot?.isNone then w.slots.vacate former.slot? else w.slots
    { w.replace name holder with slots := slots }

/-- The workspace after what stands under a name is dropped. -/
def drop (w : Workspace) (name : String) : Workspace :=
  match w.find? name with
  | none => w
  | some holder =>
    let w := w.update name holder.close
    { w.remove name with slots := w.slots.vacate holder.close.slot? }

/-- The workspace after a thing whose slot has been claimed takes a name. -/
def put (w : Workspace) (name : String) (holder : Holder) : Workspace :=
  let w := w.drop name
  { w with holders := (name, holder) :: w.holders }

/-- Claims a slot for nothing. -/
def claim (w : Workspace) (name : String) (slot : Nat) : Except SlotError Workspace := do
  let slots ← w.slots.claim slot
  return { w with slots := slots }.put name (.claim slot)

/-- Creates a unit in the slot of its number. -/
def create (w : Workspace) (name : String) (host : Host) (config : Config) :
    Except AdmissionError Workspace :=
  match Processor.create host config with
  | .error e => .error (.reserve e)
  | .ok unit =>
    match w.slots.claim config.kind.number with
    | .error e => .error (.claim e)
    | .ok slots => .ok ({ w with slots := slots }.put name (.unit unit))

/-- Moves a unit behind a runner, where it keeps its slot. -/
def toRunner (w : Workspace) (name : String) (mode : Runner.Mode) : Option (Runner × Workspace) :=
  match w.find? name with
  | some (.unit p) =>
    let runner := Runner.create mode p
    some (runner, w.replace name (.runner runner))
  | _ => none

end Workspace

end VectorUnit
