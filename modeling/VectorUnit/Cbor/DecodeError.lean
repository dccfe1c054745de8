import VectorUnit.Cbor.Header
import VectorUnit.Text.Quoted

/-!
# Why a document cannot be read

`DecodeError` has the four kinds of error that end the reading of a document. One of them is that an
item does not fit the place where it stands, and `Problem` says in which way. `Problem.text` and
`DecodeError.message` are their texts.
-/

namespace VectorUnit

namespace Cbor

/-- In which way an item does not fit the place where it stands. -/
inductive Problem where
  /-- An item of another kind is wanted. -/
  | wrongKind (found : Header) (wanted : String)
  /-- A number is too large for a word of some bits. -/
  | tooWide (value bits : Nat)
  /-- A negative number stands where none may. -/
  | negativeNumber
  /-- A number is larger than any word. -/
  | tooLarge
  /-- A number has more bytes than any may have. -/
  | tooManyBytes
  /-- An array ends too early. -/
  | tooFew (found wanted : Nat)
  /-- A name is not among those of the values to choose from. -/
  | unknownChoice (name : String) (choices : List String)
  | missingField (name : String)
  | repeatedField (name : String)
deriving DecidableEq, Repr

/-- The text of names to choose from. -/
def alternatives : List String → String
  | [a, b] => s!"`{a}` or `{b}`"
  | [a] => s!"`{a}`"
  | names => "one of " ++ ", ".intercalate (names.map fun a => s!"`{a}`")

/-- The text of a problem. -/
def Problem.text : Problem → String
  | wrongKind found wanted => s!"invalid type: {found.description}, expected {wanted}"
  | tooWide value bits => s!"invalid value: integer `{value}`, expected u{bits}"
  | negativeNumber => "unexpected negative integer"
  | tooLarge => "integer too large"
  | tooManyBytes => "bigint too large"
  | tooFew found wanted => s!"invalid length {found}, expected an array of length {wanted}"
  | unknownChoice name choices => s!"unknown variant `{name}`, expected {alternatives choices}"
  | missingField name => s!"missing field `{name}`"
  | repeatedField name => s!"duplicate field `{name}`"

/-- Why a document cannot be read. -/
inductive DecodeError where
  /-- The input ends within an item. -/
  | endOfInput
  /-- A head that is reserved, or a text that is not UTF-8, and where it begins. -/
  | malformed (offset : Nat)
  /-- An item does not fit the place where it stands. -/
  | unexpected (problem : Problem)
  /-- Items lie too deep within each other. -/
  | tooDeep
deriving DecidableEq, Repr

/-- The text of the error. -/
def DecodeError.message : DecodeError → String
  | endOfInput =>
    "Io(Error \x7b kind: UnexpectedEof, message: \"failed to fill whole buffer\" \x7d)"
  | malformed offset => s!"Syntax({offset})"
  | unexpected problem => s!"Semantic(None, {quoted problem.text})"
  | tooDeep => "RecursionLimitExceeded"

end Cbor

end VectorUnit
