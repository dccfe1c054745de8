import VectorUnit.Cbor.Reader
import VectorUnit.Text.Utf8

/-!
# Records and choices in CBOR

A record is written as a map from the names of its fields to their values. `readRecord` reads one:
the fields may come in any order, entries with other keys are skipped, and a field that comes twice
is an error as soon as its name has been read again. The values read so far are gathered in a
state, which a `Field` reads and fills. A `Record` names its fields and says how each is read; at
the end of the map none of them may be missing (`Record.read`).

A choice is written as the name of one of its values (`readChoice`). A map with one entry stands
for the key of that entry, whose value stays unread.
-/

namespace VectorUnit

namespace Cbor

/-- A field of a record whose values are gathered in a state. -/
structure Field (σ : Type) where
  name : String
  /-- The field has been read. -/
  isRead : σ → Bool
  /-- Reads the value of the field, with the given number of levels left. -/
  read : (depth : Nat) → σ → Reader σ

/-- The field with the given name. -/
def findField {σ : Type} (fields : List (Field σ)) (name : List UInt8) : Option (Field σ) :=
  fields.find? fun f => utf8 f.name == name

/-- Reads one entry of a record. -/
def readEntry {σ : Type} (fields : List (Field σ)) (depth : Nat) (state : σ) : Reader σ := do
  match findField fields (← identifier) with
  | none => do
    skip depth
    return state
  | some field =>
    if field.isRead state then unexpected (.repeatedField field.name) else field.read depth state

/-- Reads entries up to the end of a record, at most one for each byte of `fuel`. -/
def readEntries {σ : Type} (fields : List (Field σ)) (depth : Nat) :
    (fuel : List UInt8) → (count? : Option Nat) → σ → Reader σ
  | [], count?, state => if count? = some 0 then pure state else throw .endOfInput
  | _ :: fuel, count?, state => do
    if ← atEnd count? then pure state
    else do
      let state ← readEntry fields depth state
      readEntries fields depth fuel (count?.map (· - 1)) state

/-- The number of levels left one level deeper. -/
def deeper : (depth : Nat) → Reader Nat
  | 0 => throw .tooDeep
  | depth + 1 => pure depth

/-- Reads a record. There are no more entries than bytes. -/
def readRecord {σ : Type} (fields : List (Field σ)) (depth : Nat) (state : σ) : Reader σ := do
  match ← headerPastTags with
  | .map count? => do
    let depth ← deeper depth
    readEntries fields depth (← get) count? state
  | h => unexpected (.wrongKind h "map")

/-- The value of a field, which must be there. -/
def required {α : Type} (name : String) : Option α → Except Problem α
  | some a => .ok a
  | none => .error (.missingField name)

/-- A record with fields `κ`, whose values are gathered in a state `σ`. -/
structure Record (κ σ ρ : Type) where
  /-- The fields, in the order in which they are written. -/
  keys : List κ
  name : κ → String
  /-- Nothing has been read. -/
  empty : σ
  /-- The field has been read. -/
  has : σ → κ → Bool
  /-- Reads the value of the field, with the given number of levels left. -/
  fill : σ → (depth : Nat) → κ → Reader σ
  /-- What has been gathered, if no field is missing. -/
  complete : σ → Except Problem ρ

namespace Record

variable {κ σ ρ : Type}

/-- A field of a record. -/
def field (R : Record κ σ ρ) (k : κ) : Field σ :=
  ⟨R.name k, (R.has · k), fun depth state => R.fill state depth k⟩

/-- The fields of a record. -/
def fields (R : Record κ σ ρ) : List (Field σ) :=
  R.keys.map R.field

/-- Gives what has been gathered. -/
def finish (R : Record κ σ ρ) (state : σ) : Reader ρ :=
  match R.complete state with
  | .ok record => pure record
  | .error problem => unexpected problem

/-- Reads a record all of whose fields are there. -/
def read (R : Record κ σ ρ) (depth : Nat) : Reader ρ := do
  R.finish (← readRecord R.fields depth R.empty)

end Record

/-- Reads heads up to one that opens a choice. The head of a text is put back. -/
def openChoice : Reader PUnit := do
  passTags (← get)
  let place ← get
  match ← header with
  | .map (some 1) => pure ⟨⟩
  | .text length? => putBack place (.text length?)
  | h => unexpected (.wrongKind h "enum")

/-- Reads a choice among named values. -/
def readChoice {α : Type} (choices : List (String × α)) (depth : Nat) : Reader α := do
  openChoice
  let _ ← deeper depth
  let name ← identifier
  match choices.find? fun c => utf8 c.1 == name with
  | some (_, a) => return a
  | none => unexpected (.unknownChoice (Utf8.replacing name) (choices.map Prod.fst))

/-- Reads numbers below 256, written as an array of integers or as a byte string. -/
def readBytes (depth : Nat) : Reader (List UInt8) := do
  match ← headerPastTags with
  | .array count? => do
    let _ ← deeper depth
    elements (UInt8.ofNat <$> integer 8) count?
  | .bytes length? => bytesBody length?
  | h => unexpected (.wrongKind h "array")

/-- Reads exactly `count` numbers below 2^16, written as an array of integers or as a byte string.
What follows them in the array is left unread. -/
def readHalfWords (count depth : Nat) : Reader (List UInt16) := do
  match ← headerPastTags with
  | .array count? => do
    let _ ← deeper depth
    firstElements (UInt16.ofNat <$> integer 16) count count?
  | .bytes length? => do
    let content ← bytesBody length?
    if count ≤ content.length then pure ((content.take count).map UInt8.toUInt16)
    else unexpected (.tooFew content.length count)
  | h => unexpected (.wrongKind h "array")

end Cbor

end VectorUnit
