/-!
# Hexadecimal text

Numbers are written in base sixteen in four ways: with as few digits as possible (`Hex.digits`),
padded with zeros to a width (`Hex.padded`), with the mark `0x` in front (`Hex.marked`,
`Hex.markedPadded`), and with capital digits (`Hex.capitals`). A width never cuts a number off:
`Hex.padded` writes at least the digits that `Hex.digits` writes.
-/

namespace VectorUnit

namespace Hex

/-- The digits of `n` in base sixteen, the most significant one first and none in excess. -/
def digits (n : Nat) : List Char :=
  Nat.toDigits 16 n

/-- Zeros put in front of a list of digits until it has the given width. -/
def fill (width : Nat) (ds : List Char) : List Char :=
  List.replicate (width - ds.length) '0' ++ ds

/-- The shortest text of a number. -/
def short (n : Nat) : String :=
  String.ofList (digits n)

/-- The text of a number in at least `width` digits. -/
def padded (width n : Nat) : String :=
  String.ofList (fill width (digits n))

/-- The text of a number in at least `width` capital digits. -/
def capitals (width n : Nat) : String :=
  String.ofList (fill width ((digits n).map Char.toUpper))

/-- The shortest text of a number behind the mark `0x`. -/
def marked (n : Nat) : String :=
  "0x" ++ short n

/-- The text of a number in at least `width` digits behind the mark `0x`. -/
def markedPadded (width n : Nat) : String :=
  "0x" ++ padded width n

theorem length_fill (width : Nat) (ds : List Char) :
    (fill width ds).length = max width ds.length := by
  simp only [fill, List.length_append, List.length_replicate]
  omega

end Hex

end VectorUnit
