import VectorUnit.Sequence
import VectorUnit.Instruction.Listing

/-!
# Listing of a sequence

`Sequence.text` lists a sequence, one pair to a line, each line opening with the offset of its pair
in at least four hexadecimal digits.
-/

namespace VectorUnit

namespace Sequence

/-- The line of an entry. -/
def Entry.text (e : Entry) : String :=
  Hex.padded 4 e.offset ++ ": " ++ e.pair.text ++ "\n"

/-- The listing of a sequence. -/
def text (s : Sequence) : String :=
  String.join (s.entries.map Entry.text)

end Sequence

end VectorUnit
