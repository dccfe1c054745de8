import VectorUnit.Text.Hexadecimal

/-!
# The shortest decimal of a binary number

A binary number of 53 significant bits stands for all numbers that are nearer to it than to its
neighbours (`Binary.holds`). `Binary.shortest` is the decimal with the fewest digits among them: it
looks for a multiple of a power of ten, from the greatest power down, and the first power that has
one decides. Of two multiples the nearer one is taken, and the greater one where both are equally
near. All of this is arithmetic on natural numbers.

`Scaled.positional` writes a decimal with all its places and without an exponent.
-/

namespace VectorUnit

namespace Decimal

/-- The number `digits * 10 ^ exponent`. -/
structure Scaled where
  digits : Nat
  exponent : Int
deriving DecidableEq, Repr

/-- The text of a number, with at least one digit on each side of the point. -/
def Scaled.positional (d : Scaled) : String :=
  let whole := d.digits * Nat.pow 10 d.exponent.toNat
  let places := (-d.exponent).toNat
  let digits := Nat.toDigits 10 (whole % Nat.pow 10 places)
  s!"{whole / Nat.pow 10 places}.{String.ofList (Hex.fill places digits)}"

/-- The number `significand * 2 ^ exponent`. -/
structure Binary where
  significand : Nat
  exponent : Int
deriving DecidableEq, Repr

namespace Binary

/-- The number of significant bits. -/
def precision : Nat := 53

/-- The least exponent. -/
def minExponent : Int := -1074

/-- The same number with as many significant bits as its exponent leaves room for. -/
def normalize (b : Binary) : Binary :=
  let shift := min (precision - 1 - b.significand.log2) (b.exponent - minExponent).toNat
  ⟨b.significand <<< shift, b.exponent - shift⟩

/-- The distance to the neighbour below is half the distance to the neighbour above. -/
def isNarrowBelow (b : Binary) : Bool :=
  b.significand == 1 <<< (precision - 1) && b.exponent != minExponent

/-- The lower end of the numbers that a binary number stands for, in quarters of its last place. -/
def lowerEnd (b : Binary) : Nat :=
  4 * b.significand - if b.isNarrowBelow then 1 else 2

/-- The upper end of the numbers that a binary number stands for, in quarters of its last place. -/
def upperEnd (b : Binary) : Nat :=
  4 * b.significand + 2

/-- A binary number stands for `n`, where `quarter` is a quarter of its last place. It stands for
both ends of its range when its significand is even. -/
def holds (b : Binary) (quarter n : Nat) : Bool :=
  (b.lowerEnd * quarter < n && n < b.upperEnd * quarter) ||
    (b.significand % 2 == 0 && (n == b.lowerEnd * quarter || n == b.upperEnd * quarter))

/-- The multiple of `10 ^ exponent` that a binary number stands for. Everything is measured in a
unit of which both the power of ten and a quarter of the last place are multiples; only the two
multiples around the number need a look. -/
def multiple? (b : Binary) (exponent : Int) : Option Scaled :=
  let quarter := Nat.pow 10 (-exponent).toNat <<< (b.exponent - 2).toNat
  let power := Nat.pow 10 exponent.toNat <<< (2 - b.exponent).toNat
  let value := 4 * b.significand * quarter
  let below := value / power
  let above := below + 1
  let isNearerAbove := (below + above) * power ≤ 2 * value
  if b.holds quarter (above * power) && (isNearerAbove || !b.holds quarter (below * power)) then
    some ⟨above, exponent⟩
  else if b.holds quarter (below * power) then some ⟨below, exponent⟩
  else none

/-- All the digits of a number. -/
def exact (b : Binary) : Scaled :=
  ⟨b.significand <<< b.exponent.toNat * Nat.pow 5 (-b.exponent).toNat, min b.exponent 0⟩

/-- The greatest power of ten that is looked at; no number has a greater one. -/
def maxPower : Int := 309

/-- The number of powers of ten that are looked at. The last one is `10 ^ (-324)`, finer than the
last place of any number. -/
def powerCount : Nat := 634

/-- The decimal with the fewest digits for which a number stands. -/
def shortest (b : Binary) : Scaled :=
  let b := b.normalize
  ((List.range powerCount).findSome? fun (i : Nat) => b.multiple? (maxPower - i)).getD b.exact

end Binary

end Decimal

end VectorUnit
