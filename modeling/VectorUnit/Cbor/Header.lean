import VectorUnit.Cbor.Floating
import VectorUnit.Cbor.Item

/-!
# Heads of CBOR items

An item opens with a head, which says what the item is and, if it has contents, how long they are
(`Header`). `Header.description` names what a head opens, for a reader who expected something else.
-/

namespace VectorUnit

namespace Cbor

/-- The head of an item. A length is absent when it is indefinite. -/
inductive Header where
  | unsigned (value : Nat)
  /-- The number `-1 - value`. -/
  | negative (value : Nat)
  | bytes (length? : Option Nat)
  | text (length? : Option Nat)
  | array (length? : Option Nat)
  | map (length? : Option Nat)
  | tag (value : Nat)
  | simple (value : Nat)
  | float (value : Floating)
  | breakMark
deriving DecidableEq, Repr

/-- The simple value that stands for false. -/
def simpleFalse : Nat := 20

/-- The simple value that stands for true. -/
def simpleTrue : Nat := 21

/-- The simple value that stands for the absence of a value. -/
def simpleNull : Nat := 22

/-- The simple value that stands for an undefined value. -/
def simpleUndefined : Nat := 23

/-- The name of a simple value. -/
def simpleDescription (value : Nat) : String :=
  if value = simpleFalse then "boolean `false`"
  else if value = simpleTrue then "boolean `true`"
  else if value = simpleNull then "null"
  else if value = simpleUndefined then "undefined"
  else "simple"

/-- What a head opens. Negative numbers are shown as they are in 64 bits with a sign. -/
def Header.description : Header → String
  | unsigned value => s!"integer `{value}`"
  | negative value => s!"integer `{Int.bmod (-1 - value) UInt64.size}`"
  | bytes _ => "bytes"
  | text _ => "string"
  | array _ => "sequence"
  | map _ => "map"
  | tag _ => "tag"
  | simple value => simpleDescription value
  | float value => s!"floating point `{value.text}`"
  | breakMark => "break"

/-- The shortest head of a text. -/
def textHead : (length? : Option Nat) → List UInt8
  | some length => head textMajor length
  | none => [initialByte textMajor 31]

end Cbor

end VectorUnit
