/-!
# CBOR items

`Item` is the part of the CBOR data model that documents here are written in: integers, byte and
text strings, arrays and maps. `Item.encode` writes an item with definite lengths and with the
shortest form of every number: each item opens with a head, which joins its major type to a number
(`head`), and its contents follow (`Item.encode_array`, `Item.encode_map`).
-/

namespace VectorUnit

namespace Cbor

/-- A CBOR data item. -/
inductive Item where
  | unsigned (value : Nat)
  /-- The number `-1 - value`. -/
  | negative (value : Nat)
  | bytes (content : List UInt8)
  | text (content : String)
  | array (items : List Item)
  | map (entries : List (Item × Item))

/-! ### Major types -/

/-- The major type of unsigned integers. -/
def unsignedMajor : Nat := 0

/-- The major type of negative integers. -/
def negativeMajor : Nat := 1

/-- The major type of byte strings. -/
def bytesMajor : Nat := 2

/-- The major type of text strings. -/
def textMajor : Nat := 3

/-- The major type of arrays. -/
def arrayMajor : Nat := 4

/-- The major type of maps. -/
def mapMajor : Nat := 5

/-- The major type of tags. -/
def tagMajor : Nat := 6

/-! ### Encoding -/

/-- The `count` low bytes of a number, the most significant one first. -/
def bigEndian : (count : Nat) → Nat → List UInt8
  | 0, _ => []
  | count + 1, n => UInt8.ofNat (n >>> (8 * count)) :: bigEndian count n

/-- The byte that opens an item: its major type and five more bits. -/
def initialByte (major minor : Nat) : UInt8 :=
  UInt8.ofNat (32 * major + minor)

/-- The shortest head of an item: its major type and a number below 2^64. -/
def head (major n : Nat) : List UInt8 :=
  if n < 24 then [initialByte major n]
  else if n < 256 then initialByte major 24 :: bigEndian 1 n
  else if n < 65536 then initialByte major 25 :: bigEndian 2 n
  else if n < 4294967296 then initialByte major 26 :: bigEndian 4 n
  else initialByte major 27 :: bigEndian 8 n

/-- The bytes of a text. -/
def utf8 (s : String) : List UInt8 :=
  s.toUTF8.data.toList

/-- Bytes put behind those that were written, the latest one first. -/
def append (written bytes : List UInt8) : List UInt8 :=
  bytes.reverseAux written

mutual

/-- The bytes that were written, the latest one first, when an item is written behind them. -/
def Item.write (written : List UInt8) : Item → List UInt8
  | .unsigned value => append written (head unsignedMajor value)
  | .negative value => append written (head negativeMajor value)
  | .bytes content => append (append written (head bytesMajor content.length)) content
  | .text content => append (append written (head textMajor (utf8 content).length)) (utf8 content)
  | .array items => writeAll (append written (head arrayMajor items.length)) items
  | .map entries => writeEntries (append written (head mapMajor entries.length)) entries

/-- The bytes that were written when items are written behind them. -/
def writeAll (written : List UInt8) : List Item → List UInt8
  | [] => written
  | item :: rest => writeAll (item.write written) rest

/-- The bytes that were written when the entries of a map are written behind them. -/
def writeEntries (written : List UInt8) : List (Item × Item) → List UInt8
  | [] => written
  | (key, value) :: rest => writeEntries (value.write (key.write written)) rest

end

/-- The bytes of an item. -/
def Item.encode (item : Item) : List UInt8 :=
  (item.write []).reverse

/-! ### The bytes of compound items -/

theorem append_eq (written bytes : List UInt8) : append written bytes = bytes.reverse ++ written :=
  List.reverseAux_eq

mutual

theorem Item.write_eq (written : List UInt8) : (item : Item) →
    item.write written = item.encode.reverse ++ written
  | .unsigned value => by simp [Item.encode, Item.write, append_eq]
  | .negative value => by simp [Item.encode, Item.write, append_eq]
  | .bytes content => by simp [Item.encode, Item.write, append_eq]
  | .text content => by simp [Item.encode, Item.write, append_eq]
  | .array items => by simp [Item.encode, Item.write, append_eq, writeAll_eq _ items]
  | .map entries => by simp [Item.encode, Item.write, append_eq, writeEntries_eq _ entries]

theorem writeAll_eq (written : List UInt8) : (items : List Item) →
    writeAll written items = (items.flatMap Item.encode).reverse ++ written
  | [] => rfl
  | item :: rest => by
    rw [writeAll, writeAll_eq _ rest, Item.write_eq _ item]
    simp

theorem writeEntries_eq (written : List UInt8) : (entries : List (Item × Item)) →
    writeEntries written entries =
      (entries.flatMap fun entry => entry.1.encode ++ entry.2.encode).reverse ++ written
  | [] => rfl
  | (key, value) :: rest => by
    rw [writeEntries, writeEntries_eq _ rest, Item.write_eq _ value, Item.write_eq _ key]
    simp

end

theorem Item.encode_unsigned (value : Nat) :
    (Item.unsigned value).encode = head unsignedMajor value := by
  simp [Item.encode, Item.write, append_eq]

theorem Item.encode_text (content : String) :
    (Item.text content).encode = head textMajor (utf8 content).length ++ utf8 content := by
  simp [Item.encode, Item.write, append_eq]

/-- An array is its head and then its items. -/
theorem Item.encode_array (items : List Item) :
    (Item.array items).encode = head arrayMajor items.length ++ items.flatMap Item.encode := by
  simp [Item.encode, Item.write, append_eq, writeAll_eq]

/-- A map is its head and then its entries, each a key and a value. -/
theorem Item.encode_map (entries : List (Item × Item)) :
    (Item.map entries).encode = head mapMajor entries.length ++
      entries.flatMap fun entry => entry.1.encode ++ entry.2.encode := by
  simp [Item.encode, Item.write, append_eq, writeEntries_eq]

@[simp] theorem length_bigEndian (count n : Nat) : (bigEndian count n).length = count := by
  induction count with
  | zero => rfl
  | succ count ih => rw [bigEndian, List.length_cons, ih]

theorem head_ne_nil (major n : Nat) : head major n ≠ [] := by
  unfold head
  repeat' split
  all_goals simp

end Cbor

end VectorUnit
