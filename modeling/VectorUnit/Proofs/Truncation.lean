import VectorUnit.Proofs.RoundTrip

/-!
# Documents that are cut short

A reader starves on some bytes if it finds the input to end too early wherever it ends within them
(`Cbor.Starves`). The bytes of a number starve the reader of a head, those of a head and its
contents the reader of an item, and so on up to the reader of a save state: a reader that goes on
with another one starves on the bytes of both (`Cbor.Starves.bind`), so a cut in the second part is
found by the reader of that part, and what it finds is passed on as it is.

So a document of a save state that was cut short is not taken for another one, nor for one that is
wrong in any other way (`SaveState.decode_of_truncated`).
-/

namespace VectorUnit

namespace Cbor

variable {α β σ : Type}

/-- The reader finds the input to end too early wherever it ends within the bytes, the very
beginning included. It never settles for less, and never finds another problem first. -/
def Starves (reader : Reader α) (bytes : List UInt8) : Prop :=
  ∀ total front, front <+: bytes → front ≠ bytes → reader total front = .error .endOfInput

/-! ### One reader after another -/

section Sequencing

variable {x : Reader α} {f : α → Reader β} {bytes bytes' : List UInt8} {a : α}

/-- There is nothing to be cut off where there is nothing. -/
theorem Starves.nil (x : Reader α) : Starves x [] := by
  intro total front hfront hne
  exact absurd (List.prefix_nil.mp hfront) hne

/-- Input that ends within two parts ends within the first one or within the second one. -/
theorem proper_prefix_append {front : List UInt8} (hfront : front <+: bytes ++ bytes')
    (hne : front ≠ bytes ++ bytes') :
    (front <+: bytes ∧ front ≠ bytes) ∨
      ∃ front', front = bytes ++ front' ∧ front' <+: bytes' ∧ front' ≠ bytes' := by
  by_cases hlonger : bytes <+: front
  · obtain ⟨front', rfl⟩ := hlonger
    refine .inr ⟨front', rfl, (List.prefix_append_right_inj bytes).mp hfront, ?_⟩
    rintro rfl
    exact hne rfl
  · have hor := List.prefix_or_prefix_of_prefix hfront (List.prefix_append bytes bytes')
    refine .inl ⟨hor.resolve_right hlonger, ?_⟩
    rintro rfl
    exact hlonger (List.prefix_refl _)

/-- **Sequencing.** A cut falls into the first part, or behind it into the second one. So if both
readers starve on their parts, the one made of both does. -/
theorem Starves.bind (hx : Starves x bytes) (hread : Reads x bytes a)
    (hf : Starves (f a) bytes') : Starves (x >>= f) (bytes ++ bytes') := by
  intro total front hfront hne
  rcases proper_prefix_append hfront hne with ⟨hfront, hne⟩ | ⟨front', rfl, hfront', hne'⟩
  · exact bind_apply_of_error (hx total front hfront hne)
  · rw [bind_apply (hread total front')]
    exact hf total front' hfront' hne'

/-- What follows does not matter if it has no part of its own. -/
theorem Starves.bind_of_all (hx : Starves x bytes) (f : α → Reader β) :
    Starves (x >>= f) bytes :=
  fun total front hfront hne => bind_apply_of_error (hx total front hfront hne)

theorem Starves.map (hx : Starves x bytes) (g : α → β) : Starves (g <$> x) bytes := by
  rw [map_eq_pure_bind]
  exact hx.bind_of_all _

/-- Nothing has to be there for a first part that takes nothing. -/
theorem Starves.of_takes_nothing (hx : Reads x [] a) (hf : Starves (f a) bytes) :
    Starves (x >>= f) bytes := by
  have h := (Starves.nil x).bind hx hf
  rwa [List.nil_append] at h

/-- What follows takes the bytes that a reader has only looked at, and may take more. -/
theorem Starves.bind_of_peeks {whole : List UInt8} (hx : Starves x bytes)
    (hpeek : Peeks x bytes a) (hwhole : bytes <+: whole) (hf : Starves (f a) whole) :
    Starves (x >>= f) whole := by
  obtain ⟨bytes', rfl⟩ := hwhole
  intro total front hfront hne
  rcases proper_prefix_append hfront hne with ⟨hfront, hne⟩ | ⟨front', rfl, -, -⟩
  · exact bind_apply_of_error (hx total front hfront hne)
  · rw [bind_apply (hpeek total front')]
    exact hf total _ hfront hne

/-- A reader may look at the input before it begins. -/
theorem Starves.get_bind {f : List UInt8 → Reader β} (hf : ∀ place, Starves (f place) bytes) :
    Starves (get >>= f) bytes :=
  fun total front => hf front total front

end Sequencing

/-! ### Heads -/

theorem starves_take (bytes : List UInt8) : Starves (take bytes.length) bytes := by
  intro total front hfront hne
  have hlt : front.length < bytes.length :=
    Nat.lt_of_le_of_ne hfront.length_le fun heq => hne (hfront.eq_of_length heq)
  have hshort : min bytes.length front.length ≠ bytes.length := by omega
  simp [take, List.splitAt_eq, hshort]

theorem starves_argument_bigEndian {count minor n : Nat} (place : List UInt8)
    (hargument : argument place minor = some <$> ofBigEndian <$> take count) :
    Starves (argument place minor) (bigEndian count n) := by
  have htake := starves_take (bigEndian count n)
  rw [length_bigEndian] at htake
  rw [hargument]
  exact (htake.map ofBigEndian).map some

theorem starves_header_of_argument {major minor : Nat} {bytes : List UInt8}
    (hmajor : major < 8) (hminor : minor < 32)
    (hargument : ∀ place, Starves (argument place minor) bytes) :
    Starves header (initialByte major minor :: bytes) := by
  refine Starves.get_bind fun place => ?_
  have hbyte : Starves byte [initialByte major minor] := by
    intro total front hfront hne
    rcases List.prefix_cons_iff.mp hfront with rfl | ⟨front', rfl, hnil⟩
    · rfl
    · rw [List.prefix_nil.mp hnil] at hne
      exact absurd rfl hne
  have hread : Reads byte [initialByte major minor] (initialByte major minor) := fun _ _ => rfl
  refine hbyte.bind hread ?_
  dsimp only
  rw [(toNat_initialByte hmajor hminor).2]
  exact (hargument place).bind_of_all _

/-- **Heads.** The reader of a head starves on each of them, be it cut before its first byte or
within its argument. -/
theorem starves_header {major : Nat} (hmajor : major < 8) (n : Nat) :
    Starves header (head major n) := by
  rw [head]
  split
  · exact starves_header_of_argument hmajor (by omega) fun place => .nil _
  split
  · exact starves_header_of_argument hmajor (by decide) fun place =>
      starves_argument_bigEndian place rfl
  split
  · exact starves_header_of_argument hmajor (by decide) fun place =>
      starves_argument_bigEndian place rfl
  split
  · exact starves_header_of_argument hmajor (by decide) fun place =>
      starves_argument_bigEndian place rfl
  · exact starves_header_of_argument hmajor (by decide) fun place =>
      starves_argument_bigEndian place rfl

/-- Looking for tags finds nothing at the end of the input, where what follows starves as well. -/
theorem starves_passTags_bind {f : PUnit → Reader α} {bytes whole : List UInt8} {h : Header}
    (hbytes : Reads header bytes h) (hcut : Starves header bytes) (htag : ∀ tag, h ≠ .tag tag)
    (hwhole : bytes <+: whole) (hf : Starves (f ⟨⟩) whole) (fuel : List UInt8) :
    Starves (passTags fuel >>= f) whole := by
  cases fuel with
  | nil => exact Starves.of_takes_nothing (.pure _) hf
  | cons first fuel =>
    refine Starves.bind_of_peeks ?_ (peeks_passTags hbytes htag (first :: fuel)) hwhole hf
    exact Starves.get_bind fun place => hcut.bind_of_all _

theorem starves_headerPastTags {bytes : List UInt8} {h : Header} (hbytes : Reads header bytes h)
    (hcut : Starves header bytes) (htag : ∀ tag, h ≠ .tag tag) : Starves headerPastTags bytes :=
  Starves.get_bind (starves_passTags_bind hbytes hcut htag (List.prefix_refl _) hcut)

/-! ### Numbers and texts -/

theorem starves_integer (bits n : Nat) : Starves (integer bits) (Item.unsigned n).encode := by
  rw [Item.encode_unsigned]
  refine Starves.get_bind fun fuel => ?_
  cases fuel with
  | nil => exact fun total front _ _ => rfl
  | cons first fuel => exact (starves_header (by decide) n).bind_of_all _

theorem starves_word (w : UInt32) : Starves readWord (ofWord w).encode :=
  (starves_integer 32 w.toNat).map _

/-- The head of a text that fits into one part. -/
theorem reads_header_text {text : String} (hlength : (utf8 text).length ≤ partLength) :
    Reads header (head textMajor (utf8 text).length) (.text (some (utf8 text).length)) :=
  reads_header (by decide) (Nat.lt_of_le_of_lt hlength (by decide)) fun _ => rfl

theorem starves_identifier {text : String} (hlength : (utf8 text).length ≤ partLength) :
    Starves identifier (Item.text text).encode := by
  have hhead := reads_header_text hlength
  have hcut := starves_header (show textMajor < 8 by decide) (utf8 text).length
  rw [Item.encode_text]
  refine Starves.get_bind (starves_passTags_bind hhead hcut (fun _ h => by cases h)
    (List.prefix_append _ _) ?_)
  refine Starves.get_bind fun place => hcut.bind hhead ?_
  have hidentifier : identifierLength? (.text (some (utf8 text).length)) =
      some (utf8 text).length := by
    simp [identifierLength?, textLength?, hlength]
  rw [hidentifier]
  dsimp only
  rw [if_pos rfl]
  exact (starves_take (utf8 text)).bind_of_all _

theorem starves_openChoice {n : Nat} (hn : n < UInt64.size) :
    Starves openChoice (head textMajor n) := by
  have hhead : Reads header (head textMajor n) (.text (some n)) :=
    reads_header (by decide) hn fun _ => rfl
  have hcut := starves_header (show textMajor < 8 by decide) n
  refine Starves.get_bind (starves_passTags_bind hhead hcut (fun _ h => by cases h)
    (List.prefix_refl _) ?_)
  exact Starves.get_bind fun place => hcut.bind_of_all _

theorem starves_readChoice {name : String} (choices : List (String × α)) (depth : Nat)
    (hlength : (utf8 name).length ≤ partLength) :
    Starves (readChoice choices (depth + 1)) (Item.text name).encode := by
  have hn : (utf8 name).length < UInt64.size := Nat.lt_of_le_of_lt hlength (by decide)
  have hname := starves_identifier hlength
  rw [Item.encode_text] at hname ⊢
  refine (starves_openChoice hn).bind_of_peeks (peeks_openChoice hn)
    (List.prefix_append _ _) ?_
  have hdeeper : Reads (deeper (depth + 1)) [] depth := .pure depth
  exact Starves.of_takes_nothing hdeeper (hname.bind_of_all _)

/-! ### Arrays -/

variable {element : Reader α} {encode : α → List UInt8}

theorem starves_elementsWithin (items : List α)
    (hread : ∀ a ∈ items, Reads element (encode a) a)
    (hcut : ∀ a ∈ items, Starves element (encode a)) (fuel : List UInt8) (done : List α) :
    Starves (elementsWithin element fuel (some items.length) done) (items.flatMap encode) := by
  induction items generalizing fuel done with
  | nil => exact .nil _
  | cons a rest ih =>
    rw [List.forall_mem_cons] at hread hcut
    cases fuel with
    | nil => exact fun total front _ _ => rfl
    | cons first fuel =>
      have hrest := ih hread.2 hcut.2 fuel (a :: done)
      show Starves (element >>= fun b => elementsWithin element fuel (some rest.length) (b :: done))
        (encode a ++ rest.flatMap encode)
      exact hcut.1.bind hread.1 hrest

theorem starves_nextElements (items : List α)
    (hread : ∀ a ∈ items, Reads element (encode a) a)
    (hcut : ∀ a ∈ items, Starves element (encode a)) (found : Nat) :
    Starves (nextElements element items.length found (some items.length))
      (items.flatMap encode) := by
  induction items generalizing found with
  | nil => exact .nil _
  | cons a rest ih =>
    rw [List.forall_mem_cons] at hread hcut
    have hrest := ih hread.2 hcut.2 (found + 1)
    show Starves (element >>= fun b => do
        return b :: (← nextElements element rest.length (found + 1) (some rest.length)))
      (encode a ++ rest.flatMap encode)
    exact hcut.1.bind hread.1 (hrest.bind_of_all _)

/-- An array is cut short in its head or in its contents. -/
theorem starves_array {reader : Option Nat → Reader α} {items : List Item} (depth : Nat)
    (hlength : items.length < UInt64.size)
    (hreader : Starves (reader (some items.length)) (items.flatMap Item.encode))
    {wrong : Header → Reader α} {bytes : Option Nat → Reader α} :
    Starves (do
      match ← headerPastTags with
      | .array count? => do
        let _ ← deeper (depth + 1)
        reader count?
      | .bytes length? => bytes length?
      | h => wrong h) (Item.array items).encode := by
  have hhead : Reads header (head arrayMajor items.length) (.array (some items.length)) :=
    reads_header (by decide) hlength fun _ => rfl
  have hcut := starves_header (show arrayMajor < 8 by decide) items.length
  have htag : ∀ tag, Header.array (some items.length) ≠ .tag tag := fun _ h => by cases h
  rw [Item.encode_array]
  refine (starves_headerPastTags hhead hcut htag).bind (reads_headerPastTags hhead htag) ?_
  have hdeeper : Reads (deeper (depth + 1)) [] depth := .pure depth
  exact Starves.of_takes_nothing hdeeper hreader

theorem starves_readBytes (bytes : List UInt8) (depth : Nat)
    (hlength : bytes.length < UInt64.size) :
    Starves (readBytes (depth + 1)) (Item.array (bytes.map fun b => .unsigned b.toNat)).encode := by
  refine starves_array depth (by rwa [List.length_map]) ?_
  rw [List.length_map, List.flatMap_map]
  refine Starves.get_bind fun fuel =>
    starves_elementsWithin bytes (fun b _ => ?_) (fun b _ => ?_) _ _
  · have h := (reads_integer (show 8 ≤ 64 by decide) b.toNat_lt).map UInt8.ofNat
    rwa [UInt8.ofNat_toNat] at h
  · exact (starves_integer 8 b.toNat).map _

theorem starves_readHalfWords (words : List UInt16) (depth : Nat)
    (hlength : words.length < UInt64.size) :
    Starves (readHalfWords words.length (depth + 1))
      (Item.array (words.map fun w => .unsigned w.toNat)).encode := by
  refine starves_array depth (by rwa [List.length_map]) ?_
  rw [List.length_map, List.flatMap_map]
  refine starves_nextElements words (fun w _ => ?_) (fun w _ => ?_) 0
  · have h := (reads_integer (show 16 ≤ 64 by decide) w.toNat_lt).map UInt16.ofNat
    rwa [UInt16.ofNat_toNat] at h
  · exact (starves_integer 16 w.toNat).map _

/-! ### Records -/

/-- The reader of the field of an entry starves on its value, whatever was read before. An entry
whose key is no field would be skipped, and is of no concern here. -/
def StarvesAt (fields : List (Field σ)) (depth : Nat) (e : Item × Item) : Prop :=
  ∀ name value, e = entry name value → ∀ field, findField fields (utf8 name) = some field →
    ∀ state, Starves (field.read depth state) value.encode

theorem starvesAt_entry {fields : List (Field σ)} {depth : Nat} {name : String} {value : Item}
    (field : Field σ) (hfield : findField fields (utf8 name) = some field)
    (hcut : ∀ state, Starves (field.read depth state) value.encode) :
    StarvesAt fields depth (entry name value) := by
  intro name' value' heq field' hfield' state
  obtain ⟨hname, rfl⟩ := Prod.mk.inj heq
  obtain rfl := Item.text.inj hname
  obtain rfl := Option.some.inj (hfield.symm.trans hfield')
  exact hcut state

variable {fields : List (Field σ)} {depth : Nat} {state state' : σ}
  {entries : List (Item × Item)}

theorem starves_readEntries (h : Fills fields depth state entries state')
    (hcut : ∀ e ∈ entries, StarvesAt fields depth e) (fuel : List UInt8) :
    Starves (readEntries fields depth fuel (some entries.length) state)
      (entries.flatMap fun e => e.1.encode ++ e.2.encode) := by
  induction h generalizing fuel with
  | nil state => exact .nil _
  | @cons state state' state'' name value rest field hfield hlength hnew hread hrest ih =>
    rw [List.forall_mem_cons] at hcut
    cases fuel with
    | nil => exact fun total front _ _ => rfl
    | cons first fuel =>
      have hentry := reads_readEntry hfield hlength hnew hread
      have hentryCut : Starves (readEntry fields depth state)
          ((Item.text name).encode ++ value.encode) := by
        refine (starves_identifier hlength).bind (reads_identifier hlength) ?_
        rw [hfield]
        dsimp only
        rw [hnew]
        exact hcut.1 name value rfl field hfield state
      show Starves (readEntry fields depth state >>= fun state =>
          readEntries fields depth fuel (some rest.length) state)
        (((Item.text name).encode ++ value.encode) ++
          rest.flatMap fun e => e.1.encode ++ e.2.encode)
      exact hentryCut.bind hentry (ih hcut.2 fuel)

theorem starves_readRecord (h : Fills fields depth state entries state')
    (hcut : ∀ e ∈ entries, StarvesAt fields depth e) (hlength : entries.length < UInt64.size) :
    Starves (readRecord fields (depth + 1) state) (Item.map entries).encode := by
  have hhead : Reads header (head mapMajor entries.length) (.map (some entries.length)) :=
    reads_header (by decide) hlength fun _ => rfl
  have hheadCut := starves_header (show mapMajor < 8 by decide) entries.length
  have htag : ∀ tag, Header.map (some entries.length) ≠ .tag tag := fun _ h => by cases h
  rw [Item.encode_map]
  refine (starves_headerPastTags hhead hheadCut htag).bind (reads_headerPastTags hhead htag) ?_
  have hdeeper : Reads (deeper (depth + 1)) [] depth := .pure depth
  refine Starves.of_takes_nothing hdeeper (Starves.get_bind fun fuel => ?_)
  exact starves_readEntries h hcut fuel

/-- **Records.** The reader of a record starves on it if those of its fields starve on their
values. -/
theorem Record.starves_read {κ ρ : Type} {R : Record κ σ ρ}
    (h : Fills R.fields depth R.empty entries state)
    (hcut : ∀ e ∈ entries, StarvesAt R.fields depth e) (hlength : entries.length < UInt64.size) :
    Starves (R.read (depth + 1)) (Item.map entries).encode :=
  (starves_readRecord h hcut hlength).bind_of_all _

end Cbor

/-! ### Save states -/

open Cbor

theorem Tracking.starves_read (t : Tracking) (depth : Nat) :
    Starves (Tracking.read (depth + 2)) t.toItem.encode := by
  have hreliance : Starves (readChoice (named Reliance.title Reliance.all) (depth + 1))
      (Item.text t.reliance.title).encode :=
    starves_readChoice _ depth (by cases t.reliance <;> decide)
  refine Record.starves_read (t.fills depth) ?_ (show 4 < UInt64.size by decide)
  simp only [entries, List.forall_mem_cons]
  refine ⟨?_, ?_, ?_, ?_, by simp⟩
  · exact starvesAt_entry _ rfl fun state => hreliance.bind_of_all _
  · exact starvesAt_entry _ rfl fun state => (starves_word t.enteredAt).bind_of_all _
  · exact starvesAt_entry _ rfl fun state => (starves_word t.leftTo).bind_of_all _
  · exact starvesAt_entry _ rfl fun state => (starves_word t.turns).bind_of_all _

theorem Registers.starves_readRecord (r : Registers) (depth : Nat) :
    Starves (Registers.readRecord (depth + 2)) r.toItem.encode := by
  have hlength : r.vi.toList.length = 16 := r.vi.length_toList
  have hvi := starves_readHalfWords r.vi.toList depth (by rw [hlength]; decide)
  rw [hlength] at hvi
  refine Record.starves_read (r.fills depth) ?_ (show 4 < UInt64.size by decide)
  simp only [entries, List.forall_mem_cons]
  refine ⟨?_, ?_, ?_, ?_, by simp⟩
  · exact starvesAt_entry _ rfl fun state => hvi.bind_of_all _
  · exact starvesAt_entry _ rfl fun state => (starves_word r.pc).bind_of_all _
  · exact starvesAt_entry _ rfl fun state => (starves_word r.status).bind_of_all _
  · exact starvesAt_entry _ rfl fun state => (starves_word r.kick).bind_of_all _

namespace SaveState

/-- The reader of a save state starves on the document of each of them. -/
theorem starves_encode (s : SaveState) (depth : Nat) (hsize : s.microcode.size < UInt64.size) :
    Starves (SaveState.read (depth + 3)) s.encode := by
  have hkind : Starves (readChoice (named UnitKind.title UnitKind.all) (depth + 2))
      (Item.text s.kind.title).encode :=
    starves_readChoice _ (depth + 1) (by cases s.kind <;> decide)
  have hmicrocode := starves_readBytes s.microcode.toList (depth + 1) hsize
  have htracking := s.tracking.starves_read depth
  have hregisters := s.registers.starves_readRecord depth
  refine Record.starves_read (s.fills depth hsize) ?_ (show 4 < UInt64.size by decide)
  simp only [entries, List.forall_mem_cons]
  refine ⟨?_, ?_, ?_, ?_, by simp⟩
  · exact starvesAt_entry _ rfl fun state => hkind.bind_of_all _
  · exact starvesAt_entry _ rfl fun state => hmicrocode.bind_of_all _
  · exact starvesAt_entry _ rfl fun state => htracking.bind_of_all _
  · exact starvesAt_entry _ rfl fun state => hregisters.bind_of_all _

/-- **Truncation.** A document of a save state that is cut short anywhere, at its very beginning
included, is found to end too early. -/
theorem decode_of_truncated (s : SaveState) (hsize : s.microcode.size < UInt64.size)
    (front : List UInt8) (hfront : front <+: s.encode) (hne : front ≠ s.encode) :
    decode front = .error .endOfInput := by
  have hcut : Starves (SaveState.read maxDepth) s.encode := s.starves_encode 253 hsize
  rw [decode, Reader.ofDocument, hcut front.length front hfront hne]

/-- The cut is within the head of the microcode, behind the first of its three bytes. -/
theorem decode_of_truncated_of_widthsState :
    widthsState.microcode.size < UInt64.size ∧
      widthsState.encode.take 24 <+: widthsState.encode ∧
      widthsState.encode.take 24 ≠ widthsState.encode ∧
      decode (widthsState.encode.take 24) = .error .endOfInput := by
  have hsize : widthsState.microcode.size < UInt64.size := by decide +kernel
  have hfront : widthsState.encode.take 24 <+: widthsState.encode := List.take_prefix _ _
  have hne : widthsState.encode.take 24 ≠ widthsState.encode := by decide +kernel
  exact ⟨hsize, hfront, hne, decode_of_truncated widthsState hsize _ hfront hne⟩

end SaveState

end VectorUnit
