import VectorUnit.Host

/-!
# Dispatchers

A unit enters its blocks through a `Dispatcher`: the trampoline of the host, which stands in an
arena of its own, the slot of the unit. It is installed when the unit is created and again on every
reset (`Dispatcher.reinstall`). A slot is rewound first, so whatever stood there is written over,
and the trampoline finds its place at the start of the slot every time (`Dispatcher.place_eq`).
-/

namespace VectorUnit

/-- A slot in which a trampoline stands, through which all code of a unit is entered. It is no part
of the arena, and is not lost when that is rewound. -/
structure Dispatcher where
  slot : Arena
  /-- Where the trampoline stands. -/
  span : Span
  capacity_eq : slot.capacity = Arena.minLength

namespace Dispatcher

/-- The alignment of every trampoline. -/
def alignment : Nat := 16

/-- Puts the trampoline of a host into a slot, over what stood there before. -/
def place (host : Host) (slot : Arena) : Except Host.WriteError (Span × Arena) :=
  host.place slot.rewind alignment host.trampoline

/-- The trampoline of a host fits into every slot, and the host lets it be written there. -/
theorem place_eq (host : Host) {slot : Arena} (h : slot.capacity = Arena.minLength) :
    place host slot = .ok (⟨0, host.trampoline.length⟩, { slot with
      cursor := host.trampoline.length
      bytes := slot.bytes.write 0 host.trampoline }) := by
  have hcapacity : slot.rewind.capacity = Arena.minLength := h
  have hfits : 0 + host.trampoline.length ≤ slot.rewind.capacity := by
    rw [Nat.zero_add, hcapacity]
    exact host.length_trampoline_le
  have hunlocks : host.unlocks slot.rewind.capacity = true := by
    rw [hcapacity]
    exact host.unlocks_minLength
  rw [place, Host.place_eq host _ (by decide) host.trampoline_ne_nil, Arena.nextOffset_rewind,
    if_pos hfits, if_pos hunlocks, Nat.zero_add]
  rfl

/-- The dispatcher after the trampoline of a host has been put into a slot. -/
def install (host : Host) (slot : Arena) (h : slot.capacity = Arena.minLength) : Dispatcher :=
  match hplace : place host slot with
  | .ok (span, filled) =>
    { slot := filled
      span := span
      capacity_eq := by
        rw [place_eq host h] at hplace
        obtain ⟨-, rfl⟩ := Prod.mk.inj (Except.ok.inj hplace)
        exact h }
  | .error e => absurd ((place_eq host h).symm.trans hplace) nofun

/-- A dispatcher in a slot where nothing stood before. -/
def create (host : Host) : Dispatcher :=
  install host ⟨Arena.minLength, 0, .zeros⟩ rfl

/-- The dispatcher after its trampoline has been put into its slot once more. -/
def reinstall (host : Host) (d : Dispatcher) : Dispatcher :=
  install host d.slot d.capacity_eq

/-- Reinstalling puts the trampoline where the dispatcher says, and nothing keeps it out. -/
theorem place_slot_eq (host : Host) (d : Dispatcher) :
    place host d.slot = .ok ((d.reinstall host).span, (d.reinstall host).slot) := by
  rw [reinstall, install]
  split
  · case h_1 hplace => exact hplace
  · case h_2 hplace => exact absurd ((place_eq host d.capacity_eq).symm.trans hplace) nofun

end Dispatcher

end VectorUnit
