import VectorUnit.Arena.Bytes

/-!
# Arenas

An `Arena` is a run of bytes of fixed length from which aligned spans are handed out, one behind the
other. `Arena.place` puts data at the first aligned offset that is not below the cursor and moves
the cursor behind it; if the data does not fit, nothing changes. Spans are never given back one by
one: `Arena.rewind` moves the cursor to the start of the arena, and the bytes stay until they are
written over.

An alignment is at least one and is rounded up to a power of two. Whether the machine lets the bytes
be written at all is not decided here but by the host of the arena, which places data by the same
rule.
-/

namespace VectorUnit

/-- A run of bytes that were handed out: `length` of them from `offset` on. It is up to whoever has
it how long it is used. -/
structure Span where
  offset : Nat
  length : Nat
deriving DecidableEq, Repr, Inhabited

/-- The offset behind the last byte of a span. -/
def Span.stop (s : Span) : Nat :=
  s.offset + s.length

/-- A run of bytes of fixed length with a cursor. What was handed out since the arena was rewound
last lies below the cursor. -/
structure Arena where
  /-- The number of bytes. -/
  capacity : Nat
  /-- The cursor: every span that was handed out lies below it. -/
  cursor : Nat
  bytes : Arena.Bytes
deriving Inhabited

namespace Arena

/-! ### Reserving -/

/-- The smallest length of an arena. -/
def minLength : Nat := 1 <<< 16

/-- The length from which on no arena can be reserved. -/
def unmappableLength : Nat := 1 <<< 62

/-- Why an arena cannot be reserved. -/
inductive ReservationError where
  /-- The arena is too long for the memory of the machine. -/
  | outOfMemory
deriving DecidableEq, Repr

/-- The text of the error, as the operating system words it. -/
def ReservationError.message : ReservationError → String
  | .outOfMemory => "Cannot allocate memory (os error 12)"

/-- A fresh arena of at least `length` bytes. -/
def reserve (length : Nat) : Except ReservationError Arena :=
  if unmappableLength ≤ length then .error .outOfMemory
  else .ok ⟨max length minLength, 0, .zeros⟩

/-! ### Handing out spans -/

/-- Why data cannot be placed. -/
inductive PlacementError where
  /-- There is no data. -/
  | noData
  /-- The alignment rounds up to no power of two that a machine word holds. -/
  | alignmentTooLarge
  /-- The data does not fit behind the cursor. -/
  | exhausted
deriving DecidableEq, Repr

/-- The largest alignment. -/
def maxAlignment : Nat := 1 <<< 63

/-- The least power of two that is at least `n`. -/
def nextPower (n : Nat) : Nat :=
  if n ≤ 1 then 1 else 1 <<< ((n - 1).log2 + 1)

/-- The least multiple of `alignment` that is at least `n`. -/
def roundUp (alignment n : Nat) : Nat :=
  (n + (alignment - 1)) / alignment * alignment

/-- The number of bytes behind the cursor. -/
def room (r : Arena) : Nat :=
  r.capacity - r.cursor

/-- The offset at which data of the given alignment would be placed. -/
def nextOffset (r : Arena) (alignment : Nat) : Nat :=
  roundUp (nextPower (max alignment 1)) r.cursor

/-- Places data behind the cursor, as far as the arena is concerned: what is handed out for it, and
what the arena holds once the data is written there. -/
def place (r : Arena) (alignment : Nat) (data : List UInt8) :
    Except PlacementError (Span × Arena) :=
  if data.isEmpty then .error .noData
  else if maxAlignment < alignment then .error .alignmentTooLarge
  else
    let span : Span := ⟨r.nextOffset alignment, data.length⟩
    if r.capacity < span.stop then .error .exhausted
    else .ok (span, { r with cursor := span.stop, bytes := r.bytes.write span.offset data })

/-- The arena with its cursor at the start. -/
def rewind (r : Arena) : Arena :=
  { r with cursor := 0 }

/-! ### What placing comes to -/

/-- What placing data comes to. -/
theorem place_eq (r : Arena) {alignment : Nat} {data : List UInt8}
    (halignment : alignment ≤ maxAlignment) (hdata : data ≠ []) :
    r.place alignment data =
      if r.nextOffset alignment + data.length ≤ r.capacity then
        .ok (⟨r.nextOffset alignment, data.length⟩, { r with
          cursor := r.nextOffset alignment + data.length
          bytes := r.bytes.write (r.nextOffset alignment) data })
      else .error .exhausted := by
  have hsome : data.isEmpty = false := List.isEmpty_eq_false_iff.mpr hdata
  rw [place, hsome, if_neg Bool.false_ne_true, if_neg (Nat.not_lt.mpr halignment)]
  by_cases hle : r.nextOffset alignment + data.length ≤ r.capacity
  · rw [if_pos hle]
    exact if_neg (Nat.not_lt.mpr hle)
  · rw [if_neg hle]
    exact if_pos (Nat.not_le.mp hle)

theorem place_eq_ok {r r' : Arena} {alignment : Nat} {data : List UInt8} {span : Span}
    (h : r.place alignment data = .ok (span, r')) :
    data ≠ [] ∧ span = ⟨r.nextOffset alignment, data.length⟩ ∧ span.stop ≤ r.capacity ∧
      r' = { r with cursor := span.stop, bytes := r.bytes.write span.offset data } := by
  rw [place] at h
  split at h
  · cases h
  · case isFalse hsome =>
    split at h
    · cases h
    · dsimp only at h
      split at h
      · cases h
      · case isFalse hle =>
        obtain ⟨rfl, rfl⟩ := Prod.mk.inj (Except.ok.inj h)
        refine ⟨fun hnil => hsome ?_, rfl, Nat.not_lt.mp hle, rfl⟩
        rw [hnil, List.isEmpty_nil]

/-- A rewound arena hands out its start, whatever the alignment. -/
theorem nextOffset_rewind (r : Arena) (alignment : Nat) : r.rewind.nextOffset alignment = 0 := by
  have hpower : 0 < nextPower (max alignment 1) := by
    rw [nextPower]
    split
    · exact Nat.one_pos
    · rw [Nat.one_shiftLeft]
      exact Nat.two_pow_pos _
  have hshort : 0 + (nextPower (max alignment 1) - 1) < nextPower (max alignment 1) := by omega
  rw [nextOffset, roundUp, show r.rewind.cursor = 0 from rfl, Nat.div_eq_of_lt hshort, Nat.zero_mul]

/-! ### The bytes of an arena -/

/-- The `count` bytes from an offset on. -/
def read (r : Arena) (offset count : Nat) : List UInt8 :=
  r.bytes.read offset count

/-- The arena after data is written over the bytes from an offset on, if they all lie in it. -/
def overwrite? (r : Arena) (offset : Nat) (data : List UInt8) : Option Arena :=
  if offset + data.length ≤ r.capacity then
    some { r with bytes := r.bytes.write offset data }
  else none

end Arena

end VectorUnit
