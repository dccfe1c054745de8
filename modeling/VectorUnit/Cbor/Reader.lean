import VectorUnit.Cbor.DecodeError

/-!
# Reading CBOR

A `Reader` takes what it needs from the front of the input and leaves the rest; it reads the input
once from front to back, and the first problem that it meets decides (`DecodeError`). The readers
here are the parts from which the reader of a document is put together: `header` reads the head of
an item, `integer` a number, `identifier` a key, `bytesBody` and `textBody` the contents of a
string, `elements` the contents of an array, and `skip` any item at all.

A reader also knows how long the whole document is, which tells where in it the input at hand
begins: an error that has a place counts it from the front (`malformedAt`).

Where a value is wanted, tags in front of it are passed over (`headerPastTags`). Lengths may be
indefinite: the contents then end at a break.

Each item within another one goes a level deeper, and there is a limit to the levels: readers that
go deeper take the number of levels that are left (`enter`). Readers that go on for as long as there
is input count down the bytes that were there when they began, which they never outlive.
-/

namespace VectorUnit

namespace Cbor

/-- A reader of what stands at the front of the input, given the length of the whole document. -/
abbrev Reader := ReaderT Nat (StateT (List UInt8) (Except DecodeError))

/-- What a reader takes from the front of a document. It need not read all of it. -/
def Reader.ofDocument {α : Type} (reader : Reader α) (document : List UInt8) :
    Except DecodeError α :=
  match reader document.length document with
  | .ok (a, _) => .ok a
  | .error e => .error e

/-- The number of levels that a document may have. -/
def maxDepth : Nat := 256

/-- The number of bytes of a text that are read at once. No key is longer. -/
def partLength : Nat := 4096

/-- Fails because of what stands at the front of `place`, which is the input at an earlier point. -/
def malformedAt {α : Type} (place : List UInt8) : Reader α := do
  throw (.malformed ((← read) - place.length))

/-- Fails because of an item that does not fit. -/
def unexpected {α : Type} (problem : Problem) : Reader α :=
  throw (.unexpected problem)

/-- One level deeper. -/
def enter {α : Type} (inner : Option α) : Reader α :=
  match inner with
  | some a => pure a
  | none => throw .tooDeep

/-! ### Bytes -/

/-- Reads one byte. -/
def byte : Reader UInt8 := fun _ input =>
  match input with
  | [] => .error .endOfInput
  | b :: rest => .ok (b, rest)

/-- Reads `count` bytes. -/
def take (count : Nat) : Reader (List UInt8) := fun _ input =>
  let (front, rest) := input.splitAt count
  if front.length = count then .ok (front, rest) else .error .endOfInput

/-- The number that bytes write, the most significant one first. -/
def ofBigEndian (bytes : List UInt8) : Nat :=
  bytes.foldl (fun n b => 256 * n + b.toNat) 0

/-! ### Heads -/

/-- Reads the number of a head that begins at `place`, given the five bits that say how it is
written; `none` stands for an indefinite length. -/
def argument (place : List UInt8) (minor : Nat) : Reader (Option Nat) :=
  if minor < 24 then pure (some minor)
  else if minor = 24 then some <$> ofBigEndian <$> take 1
  else if minor = 25 then some <$> ofBigEndian <$> take 2
  else if minor = 26 then some <$> ofBigEndian <$> take 4
  else if minor = 27 then some <$> ofBigEndian <$> take 8
  else if minor = 31 then pure none
  else malformedAt place

/-- The head of a simple value or a floating point number, `minor` being the five bits in its first
byte. -/
def simpleOrFloat (minor value : Nat) : Header :=
  if minor = 25 then .float (.ofHalf value)
  else if minor = 26 then .float (.ofSingle value)
  else if minor = 27 then .float (.ofDouble value)
  else .simple value

/-- The head of a major type, `minor` being the five bits in its first byte and `value?` its number;
`none` for a head that lacks a number and must have one. -/
def headerOf? (major minor : Nat) (value? : Option Nat) : Option Header :=
  if major = unsignedMajor then value?.map .unsigned
  else if major = negativeMajor then value?.map .negative
  else if major = bytesMajor then some (.bytes value?)
  else if major = textMajor then some (.text value?)
  else if major = arrayMajor then some (.array value?)
  else if major = mapMajor then some (.map value?)
  else if major = tagMajor then value?.map .tag
  else some (value?.elim .breakMark (simpleOrFloat minor))

/-- Reads the head of an item. -/
def header : Reader Header := do
  let place ← get
  let initial := (← byte).toNat
  let value? ← argument place (initial % 32)
  match headerOf? (initial / 32) (initial % 32) value? with
  | some h => return h
  | none => malformedAt place

/-- Puts back a head, which was read from the front of `place`, to be read again. A text is said to
begin where its head would if it were as short as it can be, so that is what is put back. -/
def putBack (place : List UInt8) : Header → Reader PUnit
  | .text length? => modify (textHead length? ++ ·)
  | _ => set place

/-- Reads the next head and puts it back. -/
def upcomingHeader : Reader Header := do
  let place ← get
  let h ← header
  putBack place h
  return h

/-- Passes over tags, at most one for each byte of `fuel`. -/
def passTags : (fuel : List UInt8) → Reader PUnit
  | [] => pure ⟨⟩
  | _ :: fuel => do
    let place ← get
    match ← header with
    | .tag _ => passTags fuel
    | _ => set place

/-- Reads the next head that is not a tag. There are no more tags than bytes. -/
def headerPastTags : Reader Header := do
  passTags (← get)
  header

/-! ### Strings -/

/-- The bytes are a text. -/
def isText (content : List UInt8) : Bool :=
  (ByteArray.mk content.toArray).validateUTF8

/-- Reads a text of the given length, all at once. Its head begins at `place`. -/
def wholeText (place : List UInt8) (length : Nat) : Reader (List UInt8) := do
  let content ← take length
  if isText content then pure content else malformedAt place

/-- The bytes behind the last complete character of a text, as long as there are few enough of them
to begin another one. -/
def unfinished? (content : List UInt8) : Option (List UInt8) :=
  [0, 1, 2, 3].findSome? fun count =>
    let split := content.length - count
    if isText (content.take split) then some (content.drop split) else none

/-- Reads a text of the given length in parts of at most `partLength` bytes, `done` being what was
read of it, the latest part first, and `opened` the bytes at the end of the latest part that do not
make up a character. A part is looked at before the next one is read. The head of the text begins at
`place`. -/
def textParts (place : List UInt8) : (parts : Nat) → (length : Nat) → (opened : List UInt8) →
    (done : List (List UInt8)) → Reader (List UInt8)
  | 0, _, opened, done => if opened.isEmpty then pure done.reverse.flatten else malformedAt place
  | parts + 1, length, opened, done =>
    if length = 0 then
      if opened.isEmpty then pure done.reverse.flatten else malformedAt place
    else do
      let count := min (partLength - opened.length) length
      let part ← take count
      match unfinished? (opened ++ part) with
      | none => malformedAt place
      | some opened => textParts place parts (length - count) opened (part :: done)

/-- Reads the contents of one piece of a text, which must be valid on its own. Its head begins at
`place`. -/
def textPiece (place : List UInt8) (length : Nat) : Reader (List UInt8) :=
  if length ≤ partLength then wholeText place length else textParts place length length [] []

/-- The length in the head of a byte string. -/
def bytesLength? : Header → Option (Option Nat)
  | .bytes length? => some length?
  | _ => none

/-- The length in the head of a text. -/
def textLength? : Header → Option (Option Nat)
  | .text length? => some length?
  | _ => none

/-- Reads the pieces of a string of indefinite length, up to the break that ends the outermost of
`nested` such strings, each with `piece`, which is given the place where the head of the piece
begins, the length of the piece and what the pieces before it came to. Strings of another kind have
no place within. -/
def pieces {σ : Type} (lengthOf? : Header → Option (Option Nat))
    (piece : (place : List UInt8) → Nat → σ → Reader σ) :
    (fuel : List UInt8) → (nested : Nat) → σ → Reader σ
  | [], _, _ => throw .endOfInput
  | _ :: fuel, nested, s => do
    let place ← get
    match ← header with
    | .breakMark =>
      if nested ≤ 1 then pure s else pieces lengthOf? piece fuel (nested - 1) s
    | h =>
      match lengthOf? h with
      | none => malformedAt place
      | some none => pieces lengthOf? piece fuel (nested + 1) s
      | some (some length) => do
        pieces lengthOf? piece fuel nested (← piece place length s)

/-- Reads the contents of a string behind its head, which begins at `place`. -/
def body (lengthOf? : Header → Option (Option Nat))
    (piece : (place : List UInt8) → Nat → Reader (List UInt8)) (place : List UInt8) :
    (length? : Option Nat) → Reader (List UInt8)
  | some length => piece place length
  | none => do
    let gather (place : List UInt8) (length : Nat) (done : List (List UInt8)) :
        Reader (List (List UInt8)) :=
      return (← piece place length) :: done
    return (← pieces lengthOf? gather (← get) 1 []).reverse.flatten

/-- Reads the contents of a byte string behind its head. Nothing can be wrong with them, so the
place of the head does not matter. -/
def bytesBody : (length? : Option Nat) → Reader (List UInt8) :=
  body bytesLength? (fun _ length => take length) []

/-- Reads the contents of a text behind its head, which begins at `place`. -/
def textBody : (place : List UInt8) → (length? : Option Nat) → Reader (List UInt8) :=
  body textLength? textPiece

/-- The length in the head of a text or a byte string that may be a key. -/
def identifierLength? (h : Header) : Option Nat :=
  ((textLength? h).or (bytesLength? h)).join.filter (· ≤ partLength)

/-- Reads a key: a text or a byte string of definite length, which fits into one part. -/
def identifier : Reader (List UInt8) := do
  passTags (← get)
  let place ← get
  let h ← header
  match identifierLength? h with
  | some length => if h = .text (some length) then wholeText place length else take length
  | none => unexpected (.wrongKind h "str or bytes")

/-! ### Integers -/

/-- The tag of a large unsigned integer. -/
def largeUnsignedTag : Nat := 2

/-- The tag of a large negative integer. -/
def largeNegativeTag : Nat := 3

/-- The greatest number of bytes in a large integer, leading zeros left out. -/
def maxLargeLength : Nat := 16

/-- Reads one piece of the bytes of a large integer, `digits` being the bytes before it, leading
zeros left out. It is read in parts that are no longer than the integer can be, and is refused as
soon as a part makes the integer too long. -/
def largeParts : (parts : Nat) → (length : Nat) → (digits : List UInt8) → Reader (List UInt8)
  | 0, _, digits => pure digits
  | parts + 1, length, digits =>
    if length = 0 then pure digits
    else do
      let count := min maxLargeLength length
      let digits := (digits ++ (← take count)).dropWhile (· == 0)
      if digits.length ≤ maxLargeLength then largeParts parts (length - count) digits
      else unexpected .tooManyBytes

/-- Reads a large integer behind its tag. -/
def largeInteger : Reader Nat := do
  match ← header with
  | .bytes (some length) => ofBigEndian <$> largeParts length length []
  | .bytes none =>
    let piece (_ : List UInt8) (length : Nat) := largeParts length length
    ofBigEndian <$> pieces bytesLength? piece (← get) 1 []
  | h => unexpected (.wrongKind h "bytes")

/-- The number, which must fit into a word of some bits. No word has more than 64. -/
def fitting (bits value : Nat) : Reader Nat :=
  if value < 1 <<< bits then pure value
  else if value < UInt64.size then unexpected (.tooWide value bits)
  else unexpected .tooLarge

/-- Reads an integer that is at least zero and fits into a word of some bits, passing over at most
one tag for each byte of `fuel`. -/
def integerPast (bits : Nat) : (fuel : List UInt8) → Reader Nat
  | [] => throw .endOfInput
  | _ :: fuel => do
    match ← header with
    | .unsigned value => fitting bits value
    | .negative _ => unexpected .negativeNumber
    | .tag tag =>
      if tag = largeUnsignedTag then do fitting bits (← largeInteger)
      else if tag = largeNegativeTag then do
        let _ ← largeInteger
        unexpected .negativeNumber
      else integerPast bits fuel
    | h => unexpected (.wrongKind h "integer")

/-- Reads an integer that is at least zero and fits into a word of some bits. -/
def integer (bits : Nat) : Reader Nat := do
  integerPast bits (← get)

/-! ### Arrays and maps -/

/-- The contents end here: all items were read, or a break stands in front, which is read then. -/
def atEnd : (count? : Option Nat) → Reader Bool
  | some count => pure (count == 0)
  | none => do
    let place ← get
    match ← header with
    | .breakMark => pure true
    | h =>
      putBack place h
      pure false

/-- Reads items up to the end of the contents, at most one for each byte of `fuel`, `done` being
the items read so far, the latest first. -/
def elementsWithin {α : Type} (element : Reader α) :
    (fuel : List UInt8) → (count? : Option Nat) → (done : List α) → Reader (List α)
  | [], count?, done => if count? = some 0 then pure done.reverse else throw .endOfInput
  | _ :: fuel, count?, done => do
    if ← atEnd count? then pure done.reverse
    else do
      let a ← element
      elementsWithin element fuel (count?.map (· - 1)) (a :: done)

/-- Reads the contents of an array behind its head. There are no more items than bytes. -/
def elements {α : Type} (element : Reader α) (count? : Option Nat) : Reader (List α) := do
  elementsWithin element (← get) count? []

/-- Reads exactly the next `wanted` items of the contents of an array, of which `found` were read
before, and leaves the others. -/
def nextElements {α : Type} (element : Reader α) :
    (wanted : Nat) → (found : Nat) → (count? : Option Nat) → Reader (List α)
  | 0, _, _ => pure []
  | wanted + 1, found, count? => do
    if ← atEnd count? then unexpected (.tooFew found (found + wanted + 1))
    else do
      let a ← element
      return a :: (← nextElements element wanted (found + 1) (count?.map (· - 1)))

/-- Reads exactly the first `wanted` items of the contents of an array and leaves the others. -/
def firstElements {α : Type} (element : Reader α) (wanted : Nat) (count? : Option Nat) :
    Reader (List α) :=
  nextElements element wanted 0 count?

/-! ### Skipping -/

/-- The simple value has a meaning. -/
def isKnownSimple (value : Nat) : Bool :=
  simpleFalse ≤ value && value ≤ simpleUndefined

/-- The tag and the head behind it belong to a large integer that is read as one even where any item
will do: its bytes are in one piece, and there are no more of them than it can have. -/
def isShortLarge (tag : Nat) : Header → Bool
  | .bytes (some length) =>
    (tag == largeUnsignedTag || tag == largeNegativeTag) && length ≤ maxLargeLength
  | _ => false

/-- The bound of a large negative integer where any item will do. -/
def largeNegativeBound : Nat := 1 <<< 127

/-- Reads any item. The items within it are read by `inner`, unless they lie too deep. -/
def skipItem (inner : Option (Reader PUnit)) : Reader PUnit := do
  match ← header with
  | .unsigned _ | .negative _ | .float _ => pure ⟨⟩
  | .bytes length? => do
    let _ ← bytesBody length?
  | .text length? => do
    let _ ← textBody (textHead length? ++ (← get)) length?
  | .array count? => do
    let item ← enter inner
    let _ ← elements item count?
  | .map count? => do
    let item ← enter inner
    let _ ← elements (do item; item) count?
  | .tag tag => do
    -- The head behind the tag is read first, so that it fails before the levels do.
    if isShortLarge tag (← upcomingHeader) then do
      let value ← largeInteger
      if tag = largeNegativeTag ∧ largeNegativeBound ≤ value then unexpected .tooLarge
    else do
      let item ← enter inner
      item
  | .simple value =>
    if isKnownSimple value then pure ⟨⟩
    else unexpected (.wrongKind (.simple value) "known simple value")
  | .breakMark => unexpected (.wrongKind .breakMark "non-break")

/-- Reads any item with at most `depth` levels within it. -/
def skip : (depth : Nat) → Reader PUnit
  | 0 => skipItem none
  | depth + 1 => skipItem (some (skip depth))

end Cbor

end VectorUnit
