import VectorUnit.Text.Shortest

/-!
# Floating point numbers in CBOR

A floating point number is written in two, four or eight bytes, which hold a sign, an exponent and a
fraction. `Floating.ofBits` reads them for any widths of the two. Its text has the fewest digits
that tell the number from all others of eight bytes, whatever the number of bytes it was read from.
-/

namespace VectorUnit

namespace Cbor

/-- A floating point number. -/
inductive Floating where
  /-- The number `significand * 2 ^ exponent`, with a sign that zero has as well. -/
  | finite (isNegative : Bool) (significand : Nat) (exponent : Int)
  | infinite (isNegative : Bool)
  | notANumber
deriving DecidableEq, Repr

namespace Floating

/-- The number that bits stand for: from the lowest bit up a fraction, an exponent and a sign. -/
def ofBits (exponentWidth fractionWidth bits : Nat) : Floating :=
  let fraction := bits % 1 <<< fractionWidth
  let exponent := bits >>> fractionWidth % 1 <<< exponentWidth
  let isNegative := bits.testBit (fractionWidth + exponentWidth)
  let least : Int := 2 - (1 <<< (exponentWidth - 1) : Nat) - fractionWidth
  if exponent = 1 <<< exponentWidth - 1 then
    if fraction = 0 then infinite isNegative else notANumber
  else if exponent = 0 then finite isNegative fraction least
  else finite isNegative (1 <<< fractionWidth + fraction) (least + exponent - 1)

/-- The number in two bytes. -/
def ofHalf (bits : Nat) : Floating :=
  ofBits 5 10 bits

/-- The number in four bytes. -/
def ofSingle (bits : Nat) : Floating :=
  ofBits 8 23 bits

/-- The number in eight bytes. -/
def ofDouble (bits : Nat) : Floating :=
  ofBits 11 52 bits

/-- The text of a sign. -/
def signText (isNegative : Bool) : String :=
  if isNegative then "-" else ""

/-- The text of a number. -/
def text : Floating → String
  | finite isNegative 0 _ => signText isNegative ++ "0.0"
  | finite isNegative significand exponent =>
    let digits := (Decimal.Binary.mk significand exponent).shortest
    signText isNegative ++ digits.positional
  | infinite isNegative => signText isNegative ++ "inf"
  | notANumber => "NaN"

end Floating

end Cbor

end VectorUnit
