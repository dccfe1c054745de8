/-!
# Bytes as text

`Utf8.replacing` reads bytes as text, character by character, and never fails: bytes that do not
make up a character are replaced by a mark (`Utf8.replacement`). A character is its first byte and
up to three more, each of them in a range that depends on the first byte (`Utf8.followers?`). One
mark stands for all bytes that agree with the ranges so far.
-/

namespace VectorUnit

namespace Utf8

/-- The mark in place of bytes that make up no character. -/
def replacement : Char := '\uFFFD'

/-- The range of a byte that may follow another one within a character. -/
def follower : UInt8 × UInt8 := (0x80, 0xBF)

/-- The ranges of the bytes that follow the first byte of a character; `none` for a byte that is the
first byte of no character. The range of the second byte leaves out what could be written with fewer
bytes, what is half of a pair, and what is beyond the last character. -/
def followers? (first : UInt8) : Option (List (UInt8 × UInt8)) :=
  if first < 0x80 then some []
  else if first < 0xC2 then none
  else if first < 0xE0 then some [follower]
  else if first = 0xE0 then some [(0xA0, 0xBF), follower]
  else if first = 0xED then some [(0x80, 0x9F), follower]
  else if first < 0xF0 then some [follower, follower]
  else if first = 0xF0 then some [(0x90, 0xBF), follower, follower]
  else if first < 0xF4 then some [follower, follower, follower]
  else if first = 0xF4 then some [(0x80, 0x8F), follower, follower]
  else none

/-- The bytes in front that lie in the ranges, one by one, and the bytes behind them. -/
def splitFollowers : (ranges : List (UInt8 × UInt8)) → List UInt8 → List UInt8 × List UInt8
  | range :: ranges, b :: rest =>
    if range.1 ≤ b && b ≤ range.2 then
      let (front, rest) := splitFollowers ranges rest
      (b :: front, rest)
    else ([], b :: rest)
  | _, rest => ([], rest)

/-- The number of a character of several bytes: the low bits of its first byte and six bits of each
byte that follows. -/
def number (first : UInt8) (following : List UInt8) : Nat :=
  following.foldl (fun n b => 64 * n + b.toNat % 64) (first.toNat % 1 <<< (6 - following.length))

/-- The character of a first byte and all the bytes that follow it. -/
def character (first : UInt8) (following : List UInt8) : Char :=
  Char.ofNat (if following.isEmpty then first.toNat else number first following)

/-- Reads at most one character for each byte of `fuel`. -/
def charactersWithin : (fuel : List UInt8) → List UInt8 → List Char
  | _ :: fuel, first :: rest =>
    match followers? first with
    | none => replacement :: charactersWithin fuel rest
    | some ranges =>
      let (following, rest) := splitFollowers ranges rest
      let c := if following.length = ranges.length then character first following else replacement
      c :: charactersWithin fuel rest
  | _, _ => []

/-- The text of bytes, with a mark in place of those that make up no character. -/
def replacing (bytes : List UInt8) : String :=
  String.ofList (charactersWithin bytes bytes)

end Utf8

end VectorUnit
