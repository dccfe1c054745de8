/-!
# Dispatcher slots

There is one slot for each unit number, and a unit keeps the slot of its number for as long as it
lives. `Slots` says which slots are taken: `Slots.claim` takes one that is free, and
`Slots.release` gives it back. A claim that is refused changes nothing.
-/

namespace VectorUnit

/-- The slots that are taken. There is a flag for each, and who holds it is not written down here.
-/
structure Slots where
  taken : List Bool
deriving DecidableEq, Repr

/-- Why a slot cannot be claimed: there is none with that number, or something holds it. -/
inductive SlotError where
  | alreadyClaimed (slot : Nat)
  | noSuchSlot (slot : Nat)
deriving DecidableEq, Repr

/-- The text of the error. -/
def SlotError.message : SlotError → String
  | alreadyClaimed slot => s!"dispatcher slot {slot} is already claimed"
  | noSuchSlot slot => s!"no dispatcher slot with index {slot}"

namespace Slots

/-- The number of slots. -/
def count : Nat := 2

/-- Slots that are all free. -/
def free : Slots :=
  ⟨List.replicate count false⟩

/-- A slot is taken, or is not there at all. -/
def isTaken (s : Slots) (slot : Nat) : Bool :=
  s.taken.getD slot true

/-- The slots after one is claimed. -/
def claim (s : Slots) (slot : Nat) : Except SlotError Slots :=
  match s.taken[slot]? with
  | none => .error (.noSuchSlot slot)
  | some true => .error (.alreadyClaimed slot)
  | some false => .ok ⟨s.taken.set slot true⟩

/-- The slots after one is given back. -/
def release (s : Slots) (slot : Nat) : Slots :=
  ⟨s.taken.set slot false⟩

/-- The slots after one is given back, if there is one to give back. -/
def vacate (s : Slots) : Option Nat → Slots
  | none => s
  | some slot => s.release slot

theorem isTaken_of_claim {s t : Slots} {slot : Nat} (h : s.claim slot = .ok t) (i : Nat) :
    t.isTaken i = (decide (i = slot) || s.isTaken i) := by
  unfold claim at h
  split at h
  · cases h
  · cases h
  · next hs =>
    cases h
    simp only [isTaken, List.getD_eq_getElem?_getD, List.getElem?_set]
    by_cases hi : i = slot
    · subst hi
      simp [List.getElem?_eq_some_iff.1 hs |>.1]
    · simp [hi, Ne.symm hi]

theorem isTaken_release (s : Slots) {slot : Nat} (h : slot < s.taken.length) (i : Nat) :
    (s.release slot).isTaken i = (!decide (i = slot) && s.isTaken i) := by
  simp only [release, isTaken, List.getD_eq_getElem?_getD, List.getElem?_set]
  by_cases hi : i = slot
  · subst hi
    simp [h]
  · simp [hi, Ne.symm hi]

end Slots

end VectorUnit
