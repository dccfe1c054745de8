import Mathlib.Data.List.Basic
import VectorUnit.SaveState.Encoding

/-!
# What is written is read

A reader reads some bytes as a value if it takes them from the front of any input and gives the
value (`Cbor.Reads`). That is how what is read follows what was written: the head of an item, the
item, the entries of a record in the order of its fields (`Cbor.Fills`), and at last a save state
(`SaveState.reads_encode`). Documents of save states are a prefix code
(`SaveState.prefixFree_encode`).

Readers that look ahead and put back what they have seen, such as those that pass over tags, leave
the input as it was (`Cbor.Peeks`); the next reader reads what they saw.
-/

namespace VectorUnit

namespace Cbor

variable {α β σ : Type}

/-- The reader takes the bytes from the front of any input, and gives the value. Because what
follows may be anything, readers can be put one behind the other. -/
def Reads (reader : Reader α) (bytes : List UInt8) (a : α) : Prop :=
  ∀ total rest, reader total (bytes ++ rest) = .ok (a, rest)

/-- The reader gives the value for any input with the bytes in front, and takes nothing. Readers
that look ahead, or put back what they have read, are of this kind. -/
def Peeks (reader : Reader α) (bytes : List UInt8) (a : α) : Prop :=
  ∀ total rest, reader total (bytes ++ rest) = .ok (a, bytes ++ rest)

/-! ### One reader after another -/

section Sequencing

variable {x : Reader α} {f : α → Reader β} {bytes bytes' : List UInt8} {a : α} {b : β}

theorem Reads.pure (a : α) : Reads (pure a) [] a := fun _ _ => rfl

/-- A computation goes on with what the reader gives, and with what it leaves. -/
theorem bind_apply {total : Nat} {input rest : List UInt8} (hx : x total input = .ok (a, rest)) :
    (x >>= f) total input = f a total rest := by
  show (x total input >>= fun r => f r.1 total r.2) = _
  rw [hx]
  rfl

/-- A computation fails where its first part does. -/
theorem bind_apply_of_error {total : Nat} {input : List UInt8} {e : DecodeError}
    (hx : x total input = .error e) : (x >>= f) total input = .error e := by
  show (x total input >>= fun r => f r.1 total r.2) = _
  rw [hx]
  rfl

theorem Reads.bind (hx : Reads x bytes a) (hf : Reads (f a) bytes' b) :
    Reads (x >>= f) (bytes ++ bytes') b := by
  intro total rest
  rw [List.append_assoc, bind_apply (hx total _)]
  exact hf total rest

/-- What follows takes nothing. -/
theorem Reads.bind_pure (hx : Reads x bytes a) (hf : Reads (f a) [] b) :
    Reads (x >>= f) bytes b := by
  have h := hx.bind hf
  rwa [List.append_nil] at h

theorem Reads.map (hx : Reads x bytes a) (g : α → β) : Reads (g <$> x) bytes (g a) := by
  rw [map_eq_pure_bind]
  exact hx.bind_pure (.pure (g a))

theorem Peeks.bind (hx : Peeks x bytes a) (hf : Reads (f a) bytes b) :
    Reads (x >>= f) bytes b := by
  intro total rest
  rw [bind_apply (hx total rest)]
  exact hf total rest

/-- More may stand behind what a reader looks at. -/
theorem Peeks.append (hx : Peeks x bytes a) (bytes' : List UInt8) :
    Peeks x (bytes ++ bytes') a := by
  intro total rest
  rw [List.append_assoc]
  exact hx total (bytes' ++ rest)

/-- A reader may look at the input before it begins. -/
theorem Reads.get_bind {f : List UInt8 → Reader β}
    (hf : ∀ place, bytes <+: place → Reads (f place) bytes b) : Reads (get >>= f) bytes b :=
  fun total rest => hf (bytes ++ rest) (List.prefix_append _ _) total rest

end Sequencing

/-! ### Heads -/

theorem ofBigEndian_bigEndian {count n : Nat} (hn : n < 1 <<< (8 * count)) :
    ofBigEndian (bigEndian count n) = n := by
  have hfold : ∀ count n start, (bigEndian count n).foldl (fun n b => 256 * n + b.toNat) start =
      1 <<< (8 * count) * start + n % 1 <<< (8 * count) := by
    intro count
    induction count with
    | zero =>
      intro n start
      simp [bigEndian, Nat.mod_one]
    | succ count ih =>
      intro n start
      have hpow : 1 <<< (8 * (count + 1)) = 1 <<< (8 * count) * 256 := by
        rw [Nat.mul_succ, Nat.shiftLeft_add, Nat.shiftLeft_eq _ 8]
      have hbyte : (UInt8.ofNat (n >>> (8 * count))).toNat = n / 1 <<< (8 * count) % 256 := by
        rw [UInt8.toNat_ofNat', Nat.shiftRight_eq_div_pow, Nat.one_shiftLeft]
      rw [bigEndian, List.foldl_cons, ih, hbyte, hpow, Nat.mod_mul, Nat.mul_add, Nat.mul_assoc]
      omega
  rw [ofBigEndian, hfold, Nat.mul_zero, Nat.zero_add, Nat.mod_eq_of_lt hn]

theorem reads_take (bytes : List UInt8) : Reads (take bytes.length) bytes bytes := by
  intro total rest
  simp [take, List.splitAt_eq]

/-- The five low bits of the byte that opens an item, and the bytes behind it, write a number. -/
theorem reads_argument_bigEndian {count minor n : Nat} (place : List UInt8)
    (hargument : argument place minor = some <$> ofBigEndian <$> take count)
    (hn : n < 1 <<< (8 * count)) : Reads (argument place minor) (bigEndian count n) (some n) := by
  have htake := reads_take (bigEndian count n)
  rw [length_bigEndian] at htake
  have h := (htake.map ofBigEndian).map some
  rw [ofBigEndian_bigEndian hn] at h
  rwa [hargument]

theorem toNat_initialByte {major minor : Nat} (hmajor : major < 8) (hminor : minor < 32) :
    (initialByte major minor).toNat / 32 = major ∧
      (initialByte major minor).toNat % 32 = minor := by
  have hbyte : (initialByte major minor).toNat = 32 * major + minor := by
    rw [initialByte, UInt8.toNat_ofNat']
    omega
  omega

/-- A head is its first byte and its number. -/
theorem reads_header_of_argument {major minor : Nat} {n? : Option Nat} {bytes : List UInt8}
    {h : Header} (hmajor : major < 8) (hminor : minor < 32)
    (hargument : ∀ place, Reads (argument place minor) bytes n?)
    (hheader : headerOf? major minor n? = some h) :
    Reads header (initialByte major minor :: bytes) h := by
  refine Reads.get_bind fun place _ => ?_
  have hbyte : Reads byte [initialByte major minor] (initialByte major minor) := fun _ _ => rfl
  obtain ⟨hdiv, hmod⟩ := toNat_initialByte hmajor hminor
  refine hbyte.bind ?_
  dsimp only
  rw [hdiv, hmod]
  refine (hargument place).bind_pure ?_
  rw [hheader]
  exact .pure h

/-- The bytes are a head of a major type with a number, which need not be written as shortly as it
can be, or without one. -/
inductive IsHead (major : Nat) : (n? : Option Nat) → List UInt8 → Prop where
  | short {n : Nat} (hn : n < 24) : IsHead major (some n) [initialByte major n]
  | long {n minor count : Nat} (hwidth : (minor, count) ∈ [(24, 1), (25, 2), (26, 4), (27, 8)])
      (hn : n < 1 <<< (8 * count)) :
      IsHead major (some n) (initialByte major minor :: bigEndian count n)
  | indefinite : IsHead major none [initialByte major 31]

theorem isHead_head (major : Nat) {n : Nat} (hn : n < UInt64.size) :
    IsHead major (some n) (head major n) := by
  rw [head]
  split
  · case isTrue hlt => exact .short hlt
  split
  · case isTrue hlt => exact .long (by simp) hlt
  split
  · case isTrue hlt => exact .long (by simp) hlt
  split
  · case isTrue hlt => exact .long (by simp) hlt
  · exact .long (by simp) hn

/-- **Heads.** Each head is read as what it opens, in whatever width its argument was written. -/
theorem IsHead.reads_header {major : Nat} {n? : Option Nat} {bytes : List UInt8} {h : Header}
    (hbytes : IsHead major n? bytes) (hmajor : major < 8)
    (hheader : ∀ minor, headerOf? major minor n? = some h) : Reads header bytes h := by
  cases hbytes with
  | @short n hn =>
    refine reads_header_of_argument hmajor (by omega) (fun place => ?_) (hheader n)
    rw [argument, if_pos hn]
    exact .pure (some n)
  | @long n minor count hwidth hn =>
    simp only [List.mem_cons, Prod.mk.injEq, List.not_mem_nil, or_false] at hwidth
    obtain ⟨rfl, rfl⟩ | ⟨rfl, rfl⟩ | ⟨rfl, rfl⟩ | ⟨rfl, rfl⟩ := hwidth
    all_goals
      refine reads_header_of_argument hmajor (by decide) (fun place => ?_) (hheader _)
      exact reads_argument_bigEndian place rfl hn
  | indefinite =>
    exact reads_header_of_argument hmajor (by decide) (fun place => .pure none) (hheader 31)

/-- The shortest head of each number of at most 64 bits is read as that number. -/
theorem reads_header {major n : Nat} {h : Header} (hmajor : major < 8) (hn : n < UInt64.size)
    (hheader : ∀ minor, headerOf? major minor (some n) = some h) :
    Reads header (head major n) h :=
  (isHead_head major hn).reads_header hmajor hheader

section Tags

variable {bytes : List UInt8} {h : Header}

/-- There are no tags to pass over where another head stands. -/
theorem peeks_passTags (hbytes : Reads header bytes h) (htag : ∀ tag, h ≠ .tag tag)
    (fuel : List UInt8) : Peeks (passTags fuel) bytes ⟨⟩ := by
  cases fuel with
  | nil => exact fun total rest => rfl
  | cons first fuel =>
    intro total rest
    rw [passTags]
    refine (bind_apply rfl).trans ?_
    rw [bind_apply (hbytes total rest)]
    cases h with
    | tag value => exact absurd rfl (htag value)
    | _ => rfl

theorem reads_headerPastTags (hbytes : Reads header bytes h) (htag : ∀ tag, h ≠ .tag tag) :
    Reads headerPastTags bytes h :=
  Reads.get_bind fun place _ => (peeks_passTags hbytes htag place).bind hbytes

end Tags

/-! ### Numbers and texts -/

/-- Input with a head in front is not empty. -/
theorem exists_cons_of_prefix {major n : Nat} {place : List UInt8} (h : head major n <+: place) :
    ∃ first rest, place = first :: rest := by
  cases place with
  | nil => exact absurd (List.prefix_nil.mp h) (head_ne_nil major n)
  | cons first rest => exact ⟨first, rest, rfl⟩

/-- A number of at most 64 bits is read as a number of so many bits. -/
theorem reads_integer {bits n : Nat} (hbits : bits ≤ 64) (hn : n < 1 <<< bits) :
    Reads (integer bits) (Item.unsigned n).encode n := by
  have hle : 1 <<< bits ≤ UInt64.size := by
    rw [Nat.one_shiftLeft]
    exact Nat.pow_le_pow_right (by decide) hbits
  have hhead : Reads header (head unsignedMajor n) (.unsigned n) :=
    reads_header (by decide) (Nat.lt_of_lt_of_le hn hle) fun _ => rfl
  rw [Item.encode_unsigned]
  refine Reads.get_bind fun place hplace => ?_
  obtain ⟨first, rest, rfl⟩ := exists_cons_of_prefix hplace
  refine hhead.bind_pure ?_
  show Reads (fitting bits n) [] n
  rw [fitting, if_pos hn]
  exact .pure n

theorem reads_word (w : UInt32) : Reads readWord (ofWord w).encode w := by
  have h := (reads_integer (show 32 ≤ 64 by decide) w.toNat_lt).map UInt32.ofNat
  rwa [UInt32.ofNat_toNat] at h

/-- Every text is one. -/
theorem isText_utf8 (text : String) : isText (utf8 text) = true :=
  ByteArray.validateUTF8_eq_true_iff.mpr text.isValidUTF8

/-- A text that fits into one part is read as a key. -/
theorem IsHead.reads_identifier {text : String} {bytes : List UInt8}
    (hbytes : IsHead textMajor (some (utf8 text).length) bytes)
    (hlength : (utf8 text).length ≤ partLength) :
    Reads identifier (bytes ++ utf8 text) (utf8 text) := by
  have hhead : Reads header bytes (.text (some (utf8 text).length)) :=
    hbytes.reads_header (by decide) fun _ => rfl
  refine Reads.get_bind fun fuel _ => ?_
  have hpeek := peeks_passTags hhead (fun _ h => by cases h) fuel
  refine (hpeek.append _).bind (Reads.get_bind fun place _ => ?_)
  refine hhead.bind ?_
  have hidentifier : identifierLength? (.text (some (utf8 text).length)) =
      some (utf8 text).length := by
    simp [identifierLength?, textLength?, hlength]
  rw [hidentifier]
  dsimp only
  rw [if_pos rfl]
  refine (reads_take (utf8 text)).bind_pure ?_
  rw [isText_utf8]
  exact .pure _

theorem reads_identifier {text : String} (hlength : (utf8 text).length ≤ partLength) :
    Reads identifier (Item.text text).encode (utf8 text) := by
  rw [Item.encode_text]
  exact (isHead_head textMajor (Nat.lt_of_le_of_lt hlength (by decide))).reads_identifier hlength

/-- The head of a text is put back, for the key that it opens. -/
theorem peeks_openChoice {n : Nat} (hn : n < UInt64.size) :
    Peeks openChoice (head textMajor n) ⟨⟩ := by
  have hhead : Reads header (head textMajor n) (.text (some n)) :=
    reads_header (by decide) hn fun _ => rfl
  intro total rest
  have hpeek := peeks_passTags hhead (fun _ h => by cases h) (head textMajor n ++ rest) total rest
  rw [openChoice]
  refine (bind_apply rfl).trans ?_
  rw [bind_apply hpeek]
  refine (bind_apply rfl).trans ?_
  rw [bind_apply (hhead total rest)]
  rfl

/-- The name of a choice is read as that choice. -/
theorem reads_readChoice {choices : List (String × α)} {name : String} {a : α} (depth : Nat)
    (hlength : (utf8 name).length ≤ partLength)
    (hfind : choices.find? (fun c => utf8 c.1 == utf8 name) = some (name, a)) :
    Reads (readChoice choices (depth + 1)) (Item.text name).encode a := by
  have hopen := peeks_openChoice (Nat.lt_of_le_of_lt hlength (by decide))
  have hname := reads_identifier hlength
  rw [Item.encode_text] at hname ⊢
  refine (hopen.append _).bind ?_
  have hdeeper : Reads (deeper (depth + 1)) [] depth := .pure depth
  refine hdeeper.bind (hname.bind_pure ?_)
  rw [hfind]
  exact .pure a

/-! ### Arrays -/

/-- Items that are read one by one are read as the contents of an array. -/
theorem reads_elementsWithin {element : Reader α} {encode : α → List UInt8} (items : List α)
    (helement : ∀ a ∈ items, Reads element (encode a) a) (fuel : List UInt8)
    (hfuel : items.length ≤ fuel.length) (done : List α) :
    Reads (elementsWithin element fuel (some items.length) done) (items.flatMap encode)
      (done.reverse ++ items) := by
  induction items generalizing fuel done with
  | nil =>
    rw [List.append_nil]
    cases fuel with
    | nil => exact .pure _
    | cons first fuel => exact .pure _
  | cons a rest ih =>
    cases fuel with
    | nil => cases hfuel
    | cons first fuel =>
      have hrest := ih (fun b hb => helement b (List.mem_cons_of_mem _ hb)) fuel
        (Nat.le_of_succ_le_succ hfuel) (a :: done)
      rw [List.reverse_cons, List.append_assoc] at hrest
      show Reads (element >>= fun b => elementsWithin element fuel (some rest.length) (b :: done))
        (encode a ++ rest.flatMap encode) _
      exact (helement a List.mem_cons_self).bind hrest

theorem reads_nextElements {element : Reader α} {encode : α → List UInt8} (items : List α)
    (helement : ∀ a ∈ items, Reads element (encode a) a) (found : Nat) :
    Reads (nextElements element items.length found (some items.length)) (items.flatMap encode)
      items := by
  induction items generalizing found with
  | nil => exact .pure _
  | cons a rest ih =>
    have hrest := ih (fun b hb => helement b (List.mem_cons_of_mem _ hb)) (found + 1)
    show Reads (element >>= fun b => do
        return b :: (← nextElements element rest.length (found + 1) (some rest.length)))
      (encode a ++ rest.flatMap encode) _
    exact (helement a List.mem_cons_self).bind (hrest.bind_pure (.pure _))

/-- An array is read where its contents are. -/
theorem reads_array {reader : Option Nat → Reader α} {items : List Item} {a : α} (depth : Nat)
    (hlength : items.length < UInt64.size)
    (hreader : Reads (reader (some items.length)) (items.flatMap Item.encode) a)
    {wrong : Header → Reader α} {bytes : Option Nat → Reader α} :
    Reads (do
      match ← headerPastTags with
      | .array count? => do
        let _ ← deeper (depth + 1)
        reader count?
      | .bytes length? => bytes length?
      | h => wrong h) (Item.array items).encode a := by
  have hhead : Reads header (head arrayMajor items.length) (.array (some items.length)) :=
    reads_header (by decide) hlength fun _ => rfl
  rw [Item.encode_array]
  refine (reads_headerPastTags hhead fun _ h => by cases h).bind ?_
  have hdeeper : Reads (deeper (depth + 1)) [] depth := .pure depth
  exact hdeeper.bind hreader

/-- There are no more items than bytes. -/
theorem length_le_flatMap {encode : α → List UInt8} {items : List α}
    (hencode : ∀ a ∈ items, encode a ≠ []) : items.length ≤ (items.flatMap encode).length := by
  induction items with
  | nil => exact Nat.le_refl 0
  | cons a rest ih =>
    rw [List.forall_mem_cons] at hencode
    have hpos := List.length_pos_iff.mpr hencode.1
    have hrest := ih hencode.2
    rw [List.flatMap_cons, List.length_append, List.length_cons]
    omega

/-- An item has a head at least. -/
theorem Item.encode_ne_nil (item : Item) : item.encode ≠ [] := by
  cases item with
  | unsigned value | negative value | bytes content | text content =>
    simp [Item.encode, Item.write, append_eq, head_ne_nil]
  | array items =>
    rw [Item.encode_array]
    exact List.append_ne_nil_of_left_ne_nil (head_ne_nil _ _) _
  | map entries =>
    rw [Item.encode_map]
    exact List.append_ne_nil_of_left_ne_nil (head_ne_nil _ _) _

theorem reads_readBytes (bytes : List UInt8) (depth : Nat) (hlength : bytes.length < UInt64.size) :
    Reads (readBytes (depth + 1)) (Item.array (bytes.map fun b => .unsigned b.toNat)).encode
      bytes := by
  refine reads_array depth (by rwa [List.length_map]) ?_
  rw [List.length_map, List.flatMap_map]
  refine Reads.get_bind fun fuel hfuel => ?_
  have hbyte : ∀ b ∈ bytes, Reads (UInt8.ofNat <$> integer 8) (Item.unsigned b.toNat).encode b := by
    intro b _
    have h := (reads_integer (show 8 ≤ 64 by decide) b.toNat_lt).map UInt8.ofNat
    rwa [UInt8.ofNat_toNat] at h
  refine reads_elementsWithin bytes hbyte fuel ?_ []
  have hlonger : bytes.length ≤ (bytes.flatMap fun b => (Item.unsigned b.toNat).encode).length :=
    length_le_flatMap fun b _ => (Item.unsigned b.toNat).encode_ne_nil
  exact Nat.le_trans hlonger hfuel.length_le

theorem reads_readHalfWords (words : List UInt16) (depth : Nat)
    (hlength : words.length < UInt64.size) :
    Reads (readHalfWords words.length (depth + 1))
      (Item.array (words.map fun w => .unsigned w.toNat)).encode words := by
  refine reads_array depth (by rwa [List.length_map]) ?_
  rw [List.length_map, List.flatMap_map]
  refine reads_nextElements words (fun w _ => ?_) 0
  have h := (reads_integer (show 16 ≤ 64 by decide) w.toNat_lt).map UInt16.ofNat
  rwa [UInt16.ofNat_toNat] at h

/-! ### Records -/

/-- The entries of a record, one after another, take what has been read of it from one state to
another: each is that of a field which was not read before. -/
inductive Fills (fields : List (Field σ)) (depth : Nat) :
    σ → List (Item × Item) → σ → Prop where
  | nil (state : σ) : Fills fields depth state [] state
  | cons {state state' state'' : σ} {name : String} {value : Item} {rest : List (Item × Item)}
      (field : Field σ) (hfield : findField fields (utf8 name) = some field)
      (hlength : (utf8 name).length ≤ partLength) (hnew : field.isRead state = false)
      (hread : Reads (field.read depth state) value.encode state')
      (hrest : Fills fields depth state' rest state'') :
      Fills fields depth state (entry name value :: rest) state''

variable {fields : List (Field σ)} {depth : Nat} {state state' : σ}
  {entries : List (Item × Item)}

/-- An entry is read as the field that its key names, unless that was read before. -/
theorem reads_readEntry {name : String} {bytes : List UInt8} {field : Field σ}
    (hfield : findField fields (utf8 name) = some field)
    (hlength : (utf8 name).length ≤ partLength) (hnew : field.isRead state = false)
    (hread : Reads (field.read depth state) bytes state') :
    Reads (readEntry fields depth state) ((Item.text name).encode ++ bytes) state' := by
  refine (reads_identifier hlength).bind ?_
  rw [hfield]
  dsimp only
  rw [hnew]
  exact hread

theorem reads_readEntries (h : Fills fields depth state entries state') (fuel : List UInt8)
    (hfuel : entries.length ≤ fuel.length) :
    Reads (readEntries fields depth fuel (some entries.length) state)
      (entries.flatMap fun e => e.1.encode ++ e.2.encode) state' := by
  induction h generalizing fuel with
  | nil state =>
    cases fuel with
    | nil => exact .pure _
    | cons first fuel => exact .pure _
  | @cons state state' state'' name value rest field hfield hlength hnew hread hrest ih =>
    cases fuel with
    | nil => cases hfuel
    | cons first fuel =>
      have hentry := reads_readEntry hfield hlength hnew hread
      show Reads (readEntry fields depth state >>= fun state =>
          readEntries fields depth fuel (some rest.length) state)
        (((Item.text name).encode ++ value.encode) ++
          rest.flatMap fun e => e.1.encode ++ e.2.encode) _
      exact hentry.bind (ih fuel (Nat.le_of_succ_le_succ hfuel))

/-- What a record is gathered from is read from its entries. -/
theorem reads_readRecord (h : Fills fields depth state entries state')
    (hlength : entries.length < UInt64.size) :
    Reads (readRecord fields (depth + 1) state) (Item.map entries).encode state' := by
  have hhead : Reads header (head mapMajor entries.length) (.map (some entries.length)) :=
    reads_header (by decide) hlength fun _ => rfl
  rw [Item.encode_map]
  refine (reads_headerPastTags hhead fun _ h => by cases h).bind ?_
  have hdeeper : Reads (deeper (depth + 1)) [] depth := .pure depth
  refine hdeeper.bind (Reads.get_bind fun fuel hfuel => reads_readEntries h fuel ?_)
  have hentry : ∀ e ∈ entries, e.1.encode ++ e.2.encode ≠ [] := fun e _ =>
    List.append_ne_nil_of_left_ne_nil e.1.encode_ne_nil _
  exact Nat.le_trans (length_le_flatMap hentry) hfuel.length_le

/-- **Records.** A record is read from its entries if they leave no field out. What is gathered from
them is complete then. -/
theorem Record.reads_read {κ ρ : Type} {R : Record κ σ ρ} {record : ρ}
    (h : Fills R.fields depth R.empty entries state) (hlength : entries.length < UInt64.size)
    (hcomplete : R.complete state = .ok record) :
    Reads (R.read (depth + 1)) (Item.map entries).encode record := by
  refine (reads_readRecord h hlength).bind_pure ?_
  rw [finish, hcomplete]
  exact .pure record

end Cbor

/-! ### Save states -/

open Cbor

theorem Tracking.Reliance.reads_title (r : Reliance) (depth : Nat) :
    Reads (readChoice (named Reliance.title Reliance.all) (depth + 1))
      (Item.text r.title).encode r := by
  refine reads_readChoice depth ?_ ?_
  · cases r <;> decide
  · cases r <;> rfl

theorem Tracking.fills (t : Tracking) (depth : Nat) :
    Fills record.fields (depth + 1) record.empty t.entries
      ⟨some t.reliance, some t.enteredAt, some t.leftTo, some t.turns⟩ :=
  .cons _ rfl (by decide) rfl ((t.reliance.reads_title depth).bind_pure (.pure _)) <|
  .cons _ rfl (by decide) rfl ((reads_word t.enteredAt).bind_pure (.pure _)) <|
  .cons _ rfl (by decide) rfl ((reads_word t.leftTo).bind_pure (.pure _)) <|
  .cons _ rfl (by decide) rfl ((reads_word t.turns).bind_pure (.pure _)) <|
  .nil _

theorem Tracking.reads_read (t : Tracking) (depth : Nat) :
    Reads (Tracking.read (depth + 2)) t.toItem.encode t :=
  Record.reads_read (t.fills depth) (show 4 < UInt64.size by decide) rfl

theorem Registers.reads_vi (vi : Vector UInt16 16) (depth : Nat) :
    Reads (readHalfWords 16 (depth + 1))
      (Item.array (vi.toList.map fun v => .unsigned v.toNat)).encode vi.toList := by
  have hlength : vi.toList.length = 16 := vi.length_toList
  have hvi := reads_readHalfWords vi.toList depth (by rw [hlength]; decide)
  rwa [hlength] at hvi

theorem Registers.fills (r : Registers) (depth : Nat) :
    Fills record.fields (depth + 1) record.empty r.entries
      ⟨some r.vi.toList, some r.pc, some r.status, some r.kick⟩ :=
  .cons _ rfl (by decide) rfl ((reads_vi r.vi depth).bind_pure (.pure _)) <|
  .cons _ rfl (by decide) rfl ((reads_word r.pc).bind_pure (.pure _)) <|
  .cons _ rfl (by decide) rfl ((reads_word r.status).bind_pure (.pure _)) <|
  .cons _ rfl (by decide) rfl ((reads_word r.kick).bind_pure (.pure _)) <|
  .nil _

/-- The integer registers are those in the list that was read. -/
theorem Registers.complete_eq (r : Registers) :
    record.complete ⟨some r.vi.toList, some r.pc, some r.status, some r.kick⟩ = .ok r := by
  have hvi : (Vector.ofFn fun i : Fin 16 => r.vi.toList.getD i 0) = r.vi := by
    refine Vector.ext fun i hi => ?_
    simp [List.getD_eq_getElem?_getD]
  show Except.ok { r with vi := Vector.ofFn fun i : Fin 16 => r.vi.toList.getD i 0 } = _
  rw [hvi]

theorem Registers.reads_readRecord (r : Registers) (depth : Nat) :
    Reads (Registers.readRecord (depth + 2)) r.toItem.encode r :=
  Record.reads_read (r.fills depth) (show 4 < UInt64.size by decide) r.complete_eq

theorem UnitKind.reads_title (k : UnitKind) (depth : Nat) :
    Reads (readChoice (named UnitKind.title UnitKind.all) (depth + 1))
      (Item.text k.title).encode k := by
  refine reads_readChoice depth ?_ ?_
  · cases k <;> decide
  · cases k <;> rfl

namespace SaveState

theorem fills (s : SaveState) (depth : Nat) (hsize : s.microcode.size < UInt64.size) :
    Fills record.fields (depth + 2) record.empty s.entries
      ⟨some s.kind, some s.microcode, some s.tracking, some s.registers⟩ :=
  have hmicrocode := reads_readBytes s.microcode.toList (depth + 1) hsize
  .cons _ rfl (by decide) rfl ((s.kind.reads_title (depth + 1)).bind_pure (.pure _)) <|
  .cons _ rfl (by decide) rfl (hmicrocode.bind_pure (.pure _)) <|
  .cons _ rfl (by decide) rfl ((s.tracking.reads_read depth).bind_pure (.pure _)) <|
  .cons _ rfl (by decide) rfl ((s.registers.reads_readRecord depth).bind_pure (.pure _)) <|
  .nil _

/-- **Save states.** The document of a save state is read as that save state, whatever follows. The
two records within it are read before the save state is put together. -/
theorem reads_encode (s : SaveState) (depth : Nat) (hsize : s.microcode.size < UInt64.size) :
    Reads (SaveState.read (depth + 3)) s.encode s :=
  Record.reads_read (s.fills depth hsize) (show 4 < UInt64.size by decide) rfl

/-- A document may be decoded from a longer input. -/
theorem decode_encode_append (s : SaveState) (hsize : s.microcode.size < UInt64.size)
    (rest : List UInt8) : decode (s.encode ++ rest) = .ok s := by
  have hread : Reads (SaveState.read maxDepth) s.encode s := s.reads_encode 253 hsize
  rw [decode, Reader.ofDocument, hread]

/-- **Prefix code.** The document of a save state is read as that save state whatever follows it. So
it is not the document of another save state, and no document of another one begins with it. A byte
count of 64 bits holds the length of any microcode. -/
theorem prefixFree_encode (s : SaveState) (hsize : s.microcode.size < UInt64.size) :
    (∀ rest, decode (s.encode ++ rest) = .ok s) ∧
      ∀ t : SaveState, t.microcode.size < UInt64.size →
        (s.encode = t.encode → s = t) ∧ (s.encode <+: t.encode → s = t) := by
  have hdecode := decode_encode_append s hsize
  refine ⟨hdecode, fun t hsize' => ?_⟩
  have hprefix : s.encode <+: t.encode → s = t := by
    rintro ⟨rest, hrest⟩
    -- the longer document is read as both
    have htwice := t.decode_encode_append hsize' []
    rw [List.append_nil, ← hrest, hdecode] at htwice
    exact Except.ok.inj htwice
  exact ⟨fun heq => hprefix (heq ▸ List.prefix_refl _), hprefix⟩

/-- A save state with numbers on both sides of the bounds between the widths of heads, and with as
many bytes of microcode as need a head of three bytes. -/
def widthsState : SaveState where
  kind := .vu1
  microcode := .ofList ([23, 24, 255] ++ List.replicate 253 0)
  tracking := ⟨.presumed, 255, 256, 4294967295⟩
  registers := {
    vi := Vector.ofFn fun r => if r = 0 then 65535 else 24
    pc := 65535
    status := 65536
    kick := 23 }

theorem prefixFree_encode_of_widthsState :
    widthsState.microcode.size < UInt64.size ∧
      (∀ rest, decode (widthsState.encode ++ rest) = .ok widthsState) ∧
      ∀ t : SaveState, t.microcode.size < UInt64.size →
        (widthsState.encode = t.encode → widthsState = t) ∧
          (widthsState.encode <+: t.encode → widthsState = t) :=
  have hsize : widthsState.microcode.size < UInt64.size := by decide +kernel
  ⟨hsize, prefixFree_encode widthsState hsize⟩

end SaveState

end VectorUnit
