import VectorUnit.Proofs.RoundTrip

/-!
# Items that are skipped

Bytes spell an item if they are one of the ways in which an integer, a byte string, a text, an array
or a map can be written: a head need not be as short as it can be, strings may come in pieces, and
arrays and maps may be counted or end at a break (`Cbor.Spells`). Whatever spells an item that has
no more levels than are left is skipped as a whole, and nothing behind it is touched
(`Cbor.Spells.reads_skip`).

Two things stand in the way of a plain induction. Long texts are looked at in parts, which may cut a
character in two: what is unfinished at the end of a part goes on in the next one
(`Cbor.exists_unfinished`, `Cbor.reads_textParts`). And where an array or a map ends at a break, the
head of a text is put back in another form than it had, so that the bytes that are read next are
others, which spell the same item (`Cbor.Spells.exists_atEnd`).
-/

namespace VectorUnit

namespace Cbor

variable {α β σ : Type}

/-! ### Texts that are cut -/

theorem isText_iff {content : List UInt8} :
    isText content = true ↔ content.toByteArray.IsValidUTF8 := by
  have hbytes : ByteArray.mk content.toArray = content.toByteArray :=
    ByteArray.ext List.data_toByteArray.symm
  rw [isText, ByteArray.validateUTF8_eq_true_iff, hbytes]

@[simp] theorem isText_nil : isText [] = true := by
  rw [isText_iff]
  exact ⟨[], rfl⟩

/-- A text is its characters, one after another. -/
theorem exists_characters {content : List UInt8} (h : isText content = true) :
    ∃ characters : List Char, content = characters.flatMap String.utf8EncodeChar := by
  obtain ⟨characters, hcharacters⟩ := isText_iff.mp h
  refine ⟨characters, ?_⟩
  have hbytes := congrArg (fun b : ByteArray => b.data.toList) hcharacters
  simpa only [List.utf8Encode, List.data_toByteArray, List.toList_toArray] using hbytes

theorem isText_character_append (c : Char) (content : List UInt8) :
    isText (String.utf8EncodeChar c ++ content) = true ↔ isText content = true := by
  rw [isText_iff, isText_iff, List.toByteArray_append, ← List.utf8Encode_singleton,
    ByteArray.isValidUTF8_utf8Encode_singleton_append_iff]

/-- What follows a text within a text is a text. -/
theorem isText_append_iff {content : List UInt8} (h : isText content = true)
    (rest : List UInt8) : isText (content ++ rest) = true ↔ isText rest = true := by
  obtain ⟨characters, rfl⟩ := exists_characters h
  clear h
  induction characters with
  | nil => simp
  | cons c characters ih =>
    rw [List.flatMap_cons, List.append_assoc, isText_character_append, ih]

/-- The front of a text is complete characters and at most three bytes of another one. -/
theorem exists_complete {content rest : List UInt8} (h : isText (content ++ rest) = true) :
    ∃ complete opened, content = complete ++ opened ∧ isText complete = true ∧
      opened.length ≤ 3 := by
  obtain ⟨characters, hcharacters⟩ := exists_characters h
  clear h
  induction characters generalizing content with
  | nil =>
    have hnil : content = [] := (List.append_eq_nil_iff.mp hcharacters).1
    exact ⟨[], [], by simp [hnil]⟩
  | cons c characters ih =>
    rw [List.flatMap_cons] at hcharacters
    rcases List.append_eq_append_iff.mp hcharacters with ⟨back, hback, -⟩ | ⟨back, rfl, hrest⟩
    · -- the cut is within the first character or right behind it
      by_cases hwhole : back = []
      · subst hwhole
        rw [List.append_nil] at hback
        refine ⟨content, [], by simp, ?_, by simp⟩
        have h := (isText_character_append c []).mpr isText_nil
        rwa [List.append_nil, hback] at h
      · have hlength := congrArg List.length hback
        have hpos := List.length_pos_iff.mpr hwhole
        have hsize := c.utf8Size_le_four
        rw [String.length_utf8EncodeChar, List.length_append] at hlength
        exact ⟨[], content, by simp, isText_nil, by omega⟩
    · obtain ⟨complete, opened, rfl, hcomplete, hopened⟩ := ih hrest.symm
      exact ⟨String.utf8EncodeChar c ++ complete, opened, (List.append_assoc _ _ _).symm,
        (isText_character_append c complete).mpr hcomplete, hopened⟩

/-- **Cut texts.** A text may be cut anywhere: what is unfinished in front of the cut is too short
to be a character, and it is a text together with what is behind the cut. -/
theorem exists_unfinished {content rest : List UInt8} (h : isText (content ++ rest) = true) :
    ∃ opened, unfinished? content = some opened ∧ opened.length ≤ 3 ∧
      isText (opened ++ rest) = true ∧ (rest = [] → opened = []) := by
  have hsome : (unfinished? content).isSome := by
    obtain ⟨complete, opened, rfl, hcomplete, hlength⟩ := exists_complete h
    have hmem : opened.length ∈ [0, 1, 2, 3] := by
      simp only [List.mem_cons, List.not_mem_nil, or_false]
      omega
    rw [unfinished?, List.findSome?_isSome_iff]
    exact ⟨opened.length, hmem, by simp [hcomplete]⟩
  obtain ⟨opened, hopened⟩ := Option.isSome_iff_exists.mp hsome
  obtain ⟨count, hcount, hcut⟩ := List.exists_of_findSome?_eq_some hopened
  have hcount' : count ≤ 3 := by
    simp only [List.mem_cons, List.not_mem_nil, or_false] at hcount
    omega
  simp only [Option.ite_none_right_eq_some, Option.some.injEq] at hcut
  obtain ⟨hcomplete, rfl⟩ := hcut
  refine ⟨_, hopened, by simp; omega, ?_, ?_⟩
  · rwa [← isText_append_iff hcomplete, ← List.append_assoc, List.take_append_drop]
  · rintro rfl
    rw [List.append_nil] at h
    simpa [unfinished?, h] using hopened.symm

/-! ### Strings -/

/-- The rest of a text is read in parts, if what is unfinished at the end of the latest one is a
text together with it. -/
theorem reads_textParts (place : List UInt8) {parts : Nat} {opened rest : List UInt8}
    (hparts : rest.length ≤ parts) (hopened : opened.length ≤ 3)
    (htext : isText (opened ++ rest) = true) (hend : rest = [] → opened = [])
    (done : List (List UInt8)) :
    Reads (textParts place parts rest.length opened done) rest (done.reverse.flatten ++ rest) := by
  induction parts generalizing opened rest done with
  | zero =>
    obtain rfl := List.eq_nil_of_length_eq_zero (Nat.le_zero.mp hparts)
    obtain rfl := hend rfl
    rw [List.append_nil]
    exact .pure _
  | succ parts ih =>
    by_cases hnil : rest = []
    · subst hnil
      obtain rfl := hend rfl
      rw [List.append_nil]
      exact .pure _
    · obtain ⟨part, back, hcount, rfl⟩ : ∃ part back,
          min (partLength - opened.length) rest.length = part.length ∧ rest = part ++ back := by
        refine ⟨rest.take (min (partLength - opened.length) rest.length), rest.drop _, ?_,
          (List.take_append_drop _ _).symm⟩
        rw [List.length_take]
        omega
      have hpos : 0 < (part ++ back).length := List.length_pos_iff.mpr hnil
      have hpart : 0 < part.length := by
        rw [← hcount, partLength]
        omega
      rw [List.length_append] at hparts
      rw [← List.append_assoc] at htext
      -- a part may end in the middle of a character, whose bytes are kept for the next part
      obtain ⟨opened', hunfinished, hopened', htext', hend'⟩ := exists_unfinished htext
      have hback := ih (by omega) hopened' htext' hend' (part :: done)
      rw [List.reverse_cons, List.flatten_append, List.flatten_singleton,
        List.append_assoc] at hback
      rw [textParts, if_neg (Nat.ne_of_gt hpos), hcount, List.length_append]
      refine (reads_take part).bind ?_
      rw [hunfinished, Nat.add_sub_cancel_left]
      exact hback

theorem reads_textPiece (place : List UInt8) {content : List UInt8}
    (hcontent : isText content = true) :
    Reads (textPiece place content.length) content content := by
  rw [textPiece]
  split
  · refine (reads_take content).bind_pure ?_
    rw [hcontent]
    exact .pure content
  · exact reads_textParts place (Nat.le_refl _) (by simp) (by simpa using hcontent) (by simp) []

/-- The byte that ends contents whose length is not told in front. -/
def breakByte : UInt8 :=
  initialByte 7 31

theorem reads_header_break : Reads header [breakByte] .breakMark :=
  IsHead.indefinite.reads_header (by decide) fun _ => rfl

/-- The bytes are what stands behind the head of a string with the given content: the content in one
piece, of the length in the head, or pieces with heads of their own and a break. -/
inductive IsString (major : Nat) (IsPiece : List UInt8 → Prop) :
    (length? : Option Nat) → (content : List UInt8) → List UInt8 → Prop where
  | whole {content : List UInt8} (hcontent : IsPiece content) :
      IsString major IsPiece (some content.length) content content
  | pieces {parts : List (List UInt8 × List UInt8)}
      (hparts : ∀ part ∈ parts, IsHead major (some part.2.length) part.1 ∧ IsPiece part.2) :
      IsString major IsPiece none (parts.map Prod.snd).flatten
        ((parts.flatMap fun part => part.1 ++ part.2) ++ [breakByte])

/-- The strings of a major type: what their heads open, and where the length is found in it. Byte
strings and texts are read alike from there, in pieces or in one. -/
structure IsStringKind (major : Nat) (opens : Option Nat → Header)
    (lengthOf? : Header → Option (Option Nat)) : Prop where
  major_lt : major < 8
  headerOf?_eq : ∀ minor length?, headerOf? major minor length? = some (opens length?)
  lengthOf?_eq : ∀ length?, lengthOf? (opens length?) = some length?
  lengthOf?_breakMark : lengthOf? .breakMark = none

theorem isStringKind_bytes : IsStringKind bytesMajor .bytes bytesLength? :=
  ⟨by decide, fun _ _ => rfl, fun _ => rfl, rfl⟩

theorem isStringKind_text : IsStringKind textMajor .text textLength? :=
  ⟨by decide, fun _ _ => rfl, fun _ => rfl, rfl⟩

section Strings

variable {major : Nat} {IsPiece : List UInt8 → Prop} {opens : Option Nat → Header}
  {lengthOf? : Header → Option (Option Nat)}

theorem IsHead.ne_nil {n? : Option Nat} {bytes : List UInt8} (h : IsHead major n? bytes) :
    bytes ≠ [] := by
  cases h <;> simp

/-- Behind the head of a piece, the piece is read, and then the pieces behind it. -/
theorem reads_pieces_cons (hkind : IsStringKind major opens lengthOf?)
    {piece : List UInt8 → Nat → σ → Reader σ} {front content rest : List UInt8} {s s' s'' : σ}
    (hfront : IsHead major (some content.length) front)
    (hpiece : ∀ place, Reads (piece place content.length s) content s') (first : UInt8)
    {fuel : List UInt8} (hrest : Reads (pieces lengthOf? piece fuel 1 s') rest s'') :
    Reads (pieces lengthOf? piece (first :: fuel) 1 s) ((front ++ content) ++ rest) s'' := by
  have hheader := hfront.reads_header hkind.major_lt fun minor => hkind.headerOf?_eq minor _
  have hlength := hkind.lengthOf?_eq (some content.length)
  rw [List.append_assoc]
  refine Reads.get_bind fun place _ => hheader.bind ?_
  have hpieces := (hpiece place).bind hrest
  cases hopens : opens (some content.length) with
  | breakMark => simp [hopens, hkind.lengthOf?_breakMark] at hlength
  | _ =>
    rw [hopens] at hlength
    dsimp only
    rw [hlength]
    exact hpieces

/-- Pieces are read one after another, up to the break behind them. -/
theorem reads_pieces (hkind : IsStringKind major opens lengthOf?)
    (piece : List UInt8 → Nat → σ → Reader σ)
    (step : σ → List UInt8 → σ) {parts : List (List UInt8 × List UInt8)}
    (hparts : ∀ part ∈ parts, IsHead major (some part.2.length) part.1 ∧
      ∀ place s, Reads (piece place part.2.length s) part.2 (step s part.2))
    (fuel : List UInt8) (hfuel : parts.length < fuel.length) (s : σ) :
    Reads (pieces lengthOf? piece fuel 1 s)
      ((parts.flatMap fun part => part.1 ++ part.2) ++ [breakByte])
      ((parts.map Prod.snd).foldl step s) := by
  induction parts generalizing fuel s with
  | nil =>
    cases fuel with
    | nil => simp at hfuel
    | cons first fuel =>
      exact Reads.get_bind fun place _ => reads_header_break.bind_pure (.pure s)
  | cons part parts ih =>
    cases fuel with
    | nil => simp at hfuel
    | cons first fuel =>
      rw [List.forall_mem_cons] at hparts
      obtain ⟨⟨hfront, hpiece⟩, hparts⟩ := hparts
      have hrest := ih hparts fuel (Nat.lt_of_succ_lt_succ hfuel) (step s part.2)
      rw [List.flatMap_cons, List.append_assoc]
      exact reads_pieces_cons hkind hfront (fun place => hpiece place s) first hrest

/-- **Strings.** The content of a string is read if each piece of it can be, in one piece or in
several up to a break. -/
theorem IsString.reads_body {length? : Option Nat} {content back : List UInt8}
    (h : IsString major IsPiece length? content back)
    (hkind : IsStringKind major opens lengthOf?) {piece : List UInt8 → Nat → Reader (List UInt8)}
    (hpiece : ∀ place content, IsPiece content →
      Reads (piece place content.length) content content)
    (place : List UInt8) : Reads (body lengthOf? piece place length?) back content := by
  cases h with
  | whole hcontent => exact hpiece place content hcontent
  | @pieces parts hparts =>
    let gather (place : List UInt8) (length : Nat) (done : List (List UInt8)) :
        Reader (List (List UInt8)) :=
      return (← piece place length) :: done
    have hgather : ∀ part ∈ parts, IsHead major (some part.2.length) part.1 ∧
        ∀ place done, Reads (gather place part.2.length done) part.2 (part.2 :: done) := by
      intro part hpart
      refine ⟨(hparts part hpart).1, fun place done => ?_⟩
      exact (hpiece place part.2 (hparts part hpart).2).bind_pure (.pure _)
    have hshort : parts.length ≤ (parts.flatMap fun part => part.1 ++ part.2).length :=
      length_le_flatMap fun part hpart =>
        List.append_ne_nil_of_left_ne_nil (hparts part hpart).1.ne_nil _
    refine Reads.get_bind fun fuel hfuel => ?_
    have hlonger := hfuel.length_le
    rw [List.length_append, List.length_singleton] at hlonger
    have hfuel' : parts.length < fuel.length := by omega
    have hpieces := reads_pieces hkind gather (fun done content => content :: done) hgather fuel
      hfuel' []
    rw [List.foldl_flip_cons_eq_append, List.append_nil, List.map_id'] at hpieces
    refine hpieces.bind_pure ?_
    rw [List.reverse_reverse]
    exact .pure _

end Strings

theorem IsString.reads_bytesBody {length? : Option Nat} {content back : List UInt8}
    (h : IsString bytesMajor (fun _ => True) length? content back) :
    Reads (bytesBody length?) back content :=
  h.reads_body isStringKind_bytes (fun _ content _ => reads_take content) []

theorem IsString.reads_textBody {length? : Option Nat} {content back : List UInt8}
    (h : IsString textMajor (isText · = true) length? content back) (place : List UInt8) :
    Reads (textBody place length?) back content :=
  h.reads_body isStringKind_text (fun place _ hcontent => reads_textPiece place hcontent) place

/-! ### The ends of arrays and maps -/

/-- Contents of so many items end behind them if their number is told in front, and at a break
otherwise. -/
inductive IsEnd (count : Nat) : (count? : Option Nat) → List UInt8 → Prop where
  | counted : IsEnd count (some count) []
  | broken : IsEnd count none [breakByte]

/-- An element is read, also where the end of the contents was looked for before, which may have put
the head of a text back in another form. -/
structure Passes (element : Reader PUnit) (item : List UInt8) : Prop where
  reads : Reads element item ⟨⟩
  exists_atEnd : ∃ item', Reads element item' ⟨⟩ ∧
    ∀ total rest, atEnd none total (item ++ rest) = .ok (false, item' ++ rest)

/-- Contents that have not ended are told apart from those that have. -/
theorem Passes.exists_atEnd_of_isEnd {element : Reader PUnit} {item back : List UInt8} {count : Nat}
    {count? : Option Nat} (h : Passes element item) (hend : IsEnd (count + 1) count? back) :
    ∃ item', Reads element item' ⟨⟩ ∧
      ∀ total rest, atEnd count? total (item ++ rest) = .ok (false, item' ++ rest) := by
  cases hend with
  | counted => exact ⟨item, h.reads, fun total rest => rfl⟩
  | broken => exact h.exists_atEnd

theorem IsEnd.pred {count : Nat} {count? : Option Nat} {back : List UInt8}
    (h : IsEnd (count + 1) count? back) : IsEnd count (count?.map (· - 1)) back := by
  cases h with
  | counted => exact .counted
  | broken => exact .broken

/-- Items are read one after another, up to the end of the contents. -/
theorem exists_reads_elementsWithin {element : Reader PUnit} {items : List (List UInt8)}
    (hitems : ∀ item ∈ items, Passes element item) {count? : Option Nat} {back : List UInt8}
    (hend : IsEnd items.length count? back) (done : List PUnit) :
    ∃ as, ∀ fuel : List UInt8, items.length + back.length ≤ fuel.length →
      Reads (elementsWithin element fuel count? done) (items.flatten ++ back) as := by
  induction items generalizing count? done with
  | nil =>
    -- only the break is left to read, if the contents end with one
    refine ⟨done.reverse, fun fuel hfuel => ?_⟩
    cases hend with
    | counted =>
      cases fuel with
      | nil => exact .pure _
      | cons first fuel => exact .pure _
    | broken =>
      cases fuel with
      | nil => simp at hfuel
      | cons first fuel =>
        have hatEnd : Reads (atEnd none) [breakByte] true :=
          Reads.get_bind fun place _ => reads_header_break.bind_pure (.pure true)
        exact hatEnd.bind_pure (.pure _)
  | cons item items ih =>
    rw [List.forall_mem_cons] at hitems
    obtain ⟨hitem, hitems⟩ := hitems
    obtain ⟨item', hitem', hatEnd⟩ := hitem.exists_atEnd_of_isEnd hend
    obtain ⟨as, has⟩ := ih hitems hend.pred (⟨⟩ :: done)
    refine ⟨as, fun fuel hfuel => ?_⟩
    rw [List.length_cons] at hfuel
    cases fuel with
    | nil => simp at hfuel
    | cons first fuel =>
      have hrest := has fuel (by rw [List.length_cons] at hfuel; omega)
      intro total rest
      rw [List.flatten_cons, List.append_assoc, List.append_assoc, elementsWithin,
        bind_apply (hatEnd total _)]
      rw [if_neg Bool.false_ne_true, bind_apply (hitem' total _), ← List.append_assoc]
      exact hrest total rest

/-- **Arrays and maps.** The contents are read if each item can be. There are no more items than
bytes. -/
theorem exists_reads_elements {element : Reader PUnit} {items : List (List UInt8)}
    (hitems : ∀ item ∈ items, Passes element item) (hne : ∀ item ∈ items, item ≠ [])
    {count? : Option Nat} {back : List UInt8} (hend : IsEnd items.length count? back) :
    ∃ as, Reads (elements element count?) (items.flatten ++ back) as := by
  obtain ⟨as, has⟩ := exists_reads_elementsWithin hitems hend []
  refine ⟨as, Reads.get_bind fun fuel hfuel => has fuel ?_⟩
  have hshort : items.length ≤ items.flatten.length := by
    rw [← List.flatMap_id]
    exact length_le_flatMap hne
  have hlonger := hfuel.length_le
  rw [List.length_append] at hlonger
  omega

section Ends

variable {front : List UInt8} {h : Header}

/-- Contents do not end where an item begins. Its head is put back as it was, unless it is that of a
text. -/
theorem peeks_atEnd (hfront : Reads header front h) (hbreak : h ≠ .breakMark)
    (htext : ∀ length?, h ≠ .text length?) : Peeks (atEnd none) front false := by
  intro total rest
  refine (bind_apply rfl).trans ?_
  rw [bind_apply (hfront total rest)]
  cases h with
  | breakMark => exact absurd rfl hbreak
  | text length? => exact absurd rfl (htext length?)
  | _ => rfl

theorem atEnd_of_text {length? : Option Nat} (hfront : Reads header front (.text length?))
    (total : Nat) (rest : List UInt8) :
    atEnd none total (front ++ rest) = .ok (false, textHead length? ++ rest) := by
  refine (bind_apply rfl).trans ?_
  rw [bind_apply (hfront total rest)]
  rfl

end Ends

/-! ### Items -/

/-- The bytes write an integer, a byte string, a text, or an array or a map with at most so many
levels of arrays and maps, itself among them. -/
inductive Spells : (levels : Nat) → List UInt8 → Prop where
  | unsigned {levels n : Nat} {front : List UInt8} (hfront : IsHead unsignedMajor (some n) front) :
      Spells levels front
  | negative {levels n : Nat} {front : List UInt8} (hfront : IsHead negativeMajor (some n) front) :
      Spells levels front
  | bytes {levels : Nat} {length? : Option Nat} {front content back : List UInt8}
      (hfront : IsHead bytesMajor length? front)
      (hback : IsString bytesMajor (fun _ => True) length? content back) :
      Spells levels (front ++ back)
  | text {levels : Nat} {length? : Option Nat} {front content back : List UInt8}
      (hfront : IsHead textMajor length? front)
      (hback : IsString textMajor (isText · = true) length? content back) :
      Spells levels (front ++ back)
  | array {levels : Nat} {count? : Option Nat} {front back : List UInt8}
      {items : List (List UInt8)} (hfront : IsHead arrayMajor count? front)
      (hend : IsEnd items.length count? back) (hitems : ∀ item ∈ items, Spells levels item) :
      Spells (levels + 1) (front ++ (items.flatten ++ back))
  | map {levels : Nat} {count? : Option Nat} {front back : List UInt8}
      {entries : List (List UInt8 × List UInt8)} (hfront : IsHead mapMajor count? front)
      (hend : IsEnd entries.length count? back) (hkeys : ∀ e ∈ entries, Spells levels e.1)
      (hvalues : ∀ e ∈ entries, Spells levels e.2) :
      Spells (levels + 1) (front ++ ((entries.map fun e => e.1 ++ e.2).flatten ++ back))

theorem Spells.ne_nil {levels : Nat} {bytes : List UInt8} (h : Spells levels bytes) :
    bytes ≠ [] := by
  cases h with
  | unsigned hfront | negative hfront => exact hfront.ne_nil
  | bytes hfront | text hfront | array hfront | map hfront =>
    exact List.append_ne_nil_of_left_ne_nil hfront.ne_nil _

theorem IsHead.lt {major n : Nat} {bytes : List UInt8} (h : IsHead major (some n) bytes) :
    n < UInt64.size := by
  cases h with
  | short hn => exact Nat.lt_trans hn (by decide)
  | long hwidth hn =>
    simp only [List.mem_cons, Prod.mk.injEq, List.not_mem_nil, or_false] at hwidth
    obtain ⟨-, rfl⟩ | ⟨-, rfl⟩ | ⟨-, rfl⟩ | ⟨-, rfl⟩ := hwidth
    all_goals exact Nat.lt_of_lt_of_le hn (by decide)

/-- What is put back for a head of a text is a head of the same text. -/
theorem IsHead.isHead_textHead {length? : Option Nat} {front : List UInt8}
    (h : IsHead textMajor length? front) : IsHead textMajor length? (textHead length?) := by
  cases length? with
  | none => exact .indefinite
  | some length => exact isHead_head textMajor h.lt

/-- Contents do not end where an item begins, and what stands there afterwards is an item again. -/
theorem Spells.exists_atEnd {levels : Nat} {item : List UInt8} (h : Spells levels item) :
    ∃ item', Spells levels item' ∧
      ∀ total rest, atEnd none total (item ++ rest) = .ok (false, item' ++ rest) := by
  have hsame : Peeks (atEnd none) item false → ∃ item', Spells levels item' ∧
      ∀ total rest, atEnd none total (item ++ rest) = .ok (false, item' ++ rest) :=
    fun hpeek => ⟨item, h, hpeek⟩
  cases h with
  | unsigned hfront | negative hfront =>
    have hheader := hfront.reads_header (by decide) fun _ => rfl
    exact hsame (peeks_atEnd hheader nofun nofun)
  | bytes hfront | array hfront | map hfront =>
    have hheader := hfront.reads_header (by decide) fun _ => rfl
    exact hsame ((peeks_atEnd hheader nofun nofun).append _)
  | text hfront hback =>
    have hheader := hfront.reads_header (by decide) fun _ => rfl
    refine ⟨_, .text hfront.isHead_textHead hback, fun total rest => ?_⟩
    rw [List.append_assoc, List.append_assoc, atEnd_of_text hheader]

theorem Spells.passes {levels : Nat} {item : List UInt8} {element : Reader PUnit}
    (helement : ∀ item, Spells levels item → Reads element item ⟨⟩) (h : Spells levels item) :
    Passes element item := by
  obtain ⟨item', hitem', hatEnd⟩ := h.exists_atEnd
  exact ⟨helement item h, item', helement item' hitem', hatEnd⟩

/-- A key and its value are read one after the other. -/
theorem Passes.bind {element : Reader PUnit} {key value : List UInt8} (hkey : Passes element key)
    (hvalue : Reads element value ⟨⟩) : Passes (do element; element) (key ++ value) := by
  obtain ⟨key', hkey', hatEnd⟩ := hkey.exists_atEnd
  refine ⟨hkey.reads.bind hvalue, key' ++ value, hkey'.bind hvalue, fun total rest => ?_⟩
  rw [List.append_assoc, List.append_assoc, hatEnd]

/-- An item is skipped if the items within it can be. -/
theorem Spells.reads_skipItem {levels : Nat} {bytes : List UInt8} {inner : Option (Reader PUnit)}
    (h : Spells levels bytes)
    (hinner : ∀ levels', levels = levels' + 1 →
      ∃ element, inner = some element ∧ ∀ item, Spells levels' item → Reads element item ⟨⟩) :
    Reads (skipItem inner) bytes ⟨⟩ := by
  cases h with
  | unsigned hfront | negative hfront =>
    exact (hfront.reads_header (by decide) fun _ => rfl).bind_pure (.pure _)
  | bytes hfront hback =>
    refine (hfront.reads_header (by decide) fun _ => rfl).bind ?_
    exact hback.reads_bytesBody.bind_pure (.pure _)
  | text hfront hback =>
    refine (hfront.reads_header (by decide) fun _ => rfl).bind (Reads.get_bind fun place _ => ?_)
    exact (hback.reads_textBody _).bind_pure (.pure _)
  | @array levels count? front back items hfront hend hitems =>
    refine (hfront.reads_header (by decide) fun _ => rfl).bind ?_
    obtain ⟨element, rfl, helement⟩ := hinner levels rfl
    obtain ⟨as, has⟩ := exists_reads_elements
      (fun item hitem => (hitems item hitem).passes helement)
      (fun item hitem => (hitems item hitem).ne_nil) hend
    show Reads (elements element count? >>= fun _ => pure PUnit.unit) _ _
    exact has.bind_pure (.pure _)
  | @map levels count? front back entries hfront hend hkeys hvalues =>
    refine (hfront.reads_header (by decide) fun _ => rfl).bind ?_
    obtain ⟨element, rfl, helement⟩ := hinner levels rfl
    -- a map is read like an array whose items are keys with their values
    rw [← List.length_map fun e : List UInt8 × List UInt8 => e.1 ++ e.2] at hend
    have hentries : ∀ entry ∈ entries.map fun e => e.1 ++ e.2,
        Passes (do element; element) entry ∧ entry ≠ [] := by
      rw [List.forall_mem_map]
      intro e he
      exact ⟨((hkeys e he).passes helement).bind (helement e.2 (hvalues e he)),
        List.append_ne_nil_of_left_ne_nil (hkeys e he).ne_nil _⟩
    obtain ⟨as, has⟩ := exists_reads_elements (fun entry hentry => (hentries entry hentry).1)
      (fun entry hentry => (hentries entry hentry).2) hend
    show Reads (elements (do element; element) count? >>= fun _ => pure PUnit.unit) _ _
    exact has.bind_pure (.pure _)

/-- **Skipping.** Whatever spells an item is skipped as a whole if there are enough levels left. By
induction on the levels: what arrays and maps contain has one level less. -/
theorem Spells.reads_skip {levels depth : Nat} {bytes : List UInt8} (h : Spells levels bytes)
    (hlevels : levels ≤ depth) : Reads (skip depth) bytes ⟨⟩ := by
  induction depth generalizing levels bytes with
  | zero => exact h.reads_skipItem fun levels' heq => by omega
  | succ depth ih =>
    refine h.reads_skipItem fun levels' heq => ⟨skip depth, rfl, fun item hitem => ?_⟩
    exact ih hitem (by omega)

end Cbor

end VectorUnit
