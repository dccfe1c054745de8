import VectorUnit.Arena
import VectorUnit.Code
import VectorUnit.Memory

/-!
# The host machine

A `Host` gathers what the library leaves open about the machine it runs on: the bytes in which a
block of host code is written down, those of the trampoline by which blocks are entered, whether an
arena of some length can be written at all, and a digest of memory images by which most unequal
images are told apart at once. A block takes at least one byte (`Host.encode_ne_nil`), a trampoline
can be put into a slot of its own, and a digest is a function of the image, which several images may
share. Nothing else may be assumed of them.

Arenas are never open to writes and to execution at once. `Host.place` therefore changes the
protection of an arena before it writes there and again afterwards. A machine that has granted a
long arena may still refuse that (`Host.unlocks`), for then it has to find memory for all of it.

`Host.compact` is the host that programs use. It keeps the gates of a block beside its span, and
writes into the span only how many gates and how many cycles there are.
-/

namespace VectorUnit

/-- What is left open about the machine that runs host code: what the bytes of code are, how
microcode is digested, and which arenas may be written. What is said about a unit holds for any of
them. -/
structure Host where
  /-- The bytes in which host code is written down. -/
  encode : Code → List UInt8
  encode_ne_nil : ∀ code, encode code ≠ []
  /-- The bytes of the code that enters a block on behalf of a unit. -/
  trampoline : List UInt8
  trampoline_ne_nil : trampoline ≠ []
  length_trampoline_le : trampoline.length ≤ Arena.minLength
  /-- The protection of an arena of so many bytes can be changed. What the machine says about a
  length it says every time. -/
  unlocks : Nat → Bool
  /-- No unit could be made otherwise, since a trampoline goes into an arena of the least length. -/
  unlocks_minLength : unlocks Arena.minLength = true
  /-- A digest of a memory image. -/
  digest : Memory → UInt64

namespace Host

/-! ### Writing to arenas -/

/-- Why data is not written to an arena. -/
inductive WriteError where
  /-- The data has no place there. -/
  | noPlace (error : Arena.PlacementError)
  /-- The protection of the arena cannot be changed. -/
  | locked
deriving DecidableEq, Repr

/-- Places data behind the cursor of an arena, and writes it there between two changes of the
protection of the arena. Data that has no place is turned away before the protection is touched. -/
def place (host : Host) (r : Arena) (alignment : Nat) (data : List UInt8) :
    Except WriteError (Span × Arena) :=
  match r.place alignment data with
  | .error e => .error (.noPlace e)
  | .ok placed => if host.unlocks r.capacity then .ok placed else .error .locked

/-- What placing data on a host comes to, where it is long enough to be placed at all and the
alignment is one that can be had. The protection is looked at last. -/
theorem place_eq (host : Host) (r : Arena) {alignment : Nat} {data : List UInt8}
    (halignment : alignment ≤ Arena.maxAlignment) (hdata : data ≠ []) :
    host.place r alignment data =
      if r.nextOffset alignment + data.length ≤ r.capacity then
        if host.unlocks r.capacity then
          .ok (⟨r.nextOffset alignment, data.length⟩, { r with
            cursor := r.nextOffset alignment + data.length
            bytes := r.bytes.write (r.nextOffset alignment) data })
        else .error .locked
      else .error (.noPlace .exhausted) := by
  rw [place, Arena.place_eq r halignment hdata]
  by_cases hle : r.nextOffset alignment + data.length ≤ r.capacity
  · rw [if_pos hle, if_pos hle]
  · rw [if_neg hle, if_neg hle]

/-! ### A host for programs -/

/-- A digest that multiplies by the prime `0x100000001B3` after each byte. -/
def mixedDigest (m : Memory) : UInt64 :=
  m.bytes.foldl (fun h b => (h ^^^ b.toUInt64) * 0x100000001B3) 0xCBF29CE484222325

/-- The length from which on the compact host grants arenas that it does not let be written. -/
def lockedLength : Nat := 1 <<< 36

/-- The host that writes down the number of gates and the number of cycles. -/
def compact : Host where
  encode code := Pair.toBytes ⟨code.cycles, UInt32.ofNat code.gates.size⟩
  encode_ne_nil _ := List.cons_ne_nil _ _
  trampoline := [0]
  trampoline_ne_nil := List.cons_ne_nil _ _
  length_trampoline_le := by decide
  unlocks length := decide (length < lockedLength)
  unlocks_minLength := by decide
  digest := mixedDigest

instance : Inhabited Host := ⟨compact⟩

end Host

end VectorUnit
