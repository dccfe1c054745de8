import VectorUnit.Cache
import VectorUnit.Proofs.Recognition

/-!
# Caches in order

What a cache stores stays in order under all its operations. A cache is in order for a memory of
`memLength` bytes (`Cache.InOrder`) if it has a shelf for each offset of that memory, its shelves
list stored programs only, and its programs are faithful. The operations then have an answer, and
each of them is described by one lemma: which cache it gives, that this cache is in order, which
shortcuts it has (`Cache.ShortcutsSatisfy`) and which memories its programs recognize
(`Cache.Recognizes`).

Nothing here depends on what live memory holds at the time, except where a block is added: it has to
come from a memory that the program admits (`Cache.InOrder.addBlock`).

What an operation does to recognition and to shortcuts has nothing to do with order: where it has a
result at all, that is what the lemmas named `..._eq_some` say.
-/

namespace VectorUnit

namespace Cache

/-- The program with a number recognizes a memory. A number that no program has recognizes nothing.
-/
def Recognizes (c : Cache) (id : ProgramNumber) (m : Memory) : Prop :=
  ∃ p, c.program? id = some p ∧ p.Recognizes m

/-- All shortcuts lead to programs of which `Q` holds. Dropping shortcuts keeps this whatever `Q`
is, and setting one asks for `Q` of its program alone. -/
def ShortcutsSatisfy (c : Cache) (Q : ProgramNumber → Prop) : Prop :=
  ∀ s ∈ c.shelves, ∀ hit, s.shortcut = some hit → Q hit.1

/-- A cache is in order for memories of `memLength` bytes and blocks of at most `maxLength`
pairs. -/
structure InOrder (c : Cache) (memLength maxLength : Nat) : Prop where
  length_eq : memLength = Shelf.span * c.shelves.size
  stored : ∀ s ∈ c.shelves, ∀ id ∈ s.programs, id.value < c.programs.size
  faithful : ∀ p ∈ c.programs, p.Faithful c.blocks memLength maxLength

theorem Recognizes.of_programs_eq {c c' : Cache} {id : ProgramNumber} {m : Memory}
    (hprograms : c'.programs = c.programs) (h : c.Recognizes id m) : c'.Recognizes id m := by
  rwa [Recognizes, program?, hprograms]

theorem Recognizes.lt_size {c : Cache} {id : ProgramNumber} {m : Memory}
    (h : c.Recognizes id m) : id.value < c.programs.size := by
  obtain ⟨p, hp, -⟩ := h
  exact (Array.getElem?_eq_some_iff.mp hp).1

theorem ShortcutsSatisfy.mono {c : Cache} {Q R : ProgramNumber → Prop} (h : c.ShortcutsSatisfy Q)
    (himp : ∀ id, Q id → R id) : c.ShortcutsSatisfy R := fun s hs hit hhit =>
  himp _ (h s hs hit hhit)

/-! ### Results of operations -/

section Results

variable {c c' : Cache} {offset : Nat}

theorem modifyShelf_eq_some {f : Shelf → Shelf} (h : c.modifyShelf offset f = some c') :
    offset / Shelf.span < c.shelves.size ∧
      c' = { c with shelves := c.shelves.modify (offset / Shelf.span) f } := by
  rw [modifyShelf] at h
  split at h
  · case isTrue hlt => exact ⟨hlt, (Option.some.inj h).symm⟩
  · cases h

theorem addProgram_eq_some {basis : Program.Basis} {id : ProgramNumber}
    (h : c.addProgram offset basis = some (id, c')) :
    offset / Shelf.span < c.shelves.size ∧ id = ⟨c.programs.size⟩ ∧
      c' = { c with
        programs := c.programs.push (.create c.nextSerial basis)
        nextSerial := c.nextSerial + 1
        shelves := c.shelves.modify (offset / Shelf.span) (·.push id) } := by
  rw [addProgram, Option.map_eq_some_iff] at h
  obtain ⟨c₁, hmodify, hpair⟩ := h
  obtain ⟨rfl, rfl⟩ := Prod.mk.inj hpair
  obtain ⟨hlt, rfl⟩ := modifyShelf_eq_some hmodify
  exact ⟨hlt, rfl, rfl⟩

theorem addBlock_eq_some {program : ProgramNumber} {b : Block} {m : Memory} {id : BlockNumber}
    (h : c.addBlock program offset b m = some (id, c')) :
    program.value < c.programs.size ∧ offset / Shelf.span < c.shelves.size ∧
      id = ⟨c.blocks.size⟩ ∧
      c' = { c with
        programs := c.programs.modify program.value fun q => q.addBlock offset id b.ranges m
        blocks := c.blocks.push b
        shelves := c.shelves.modify (offset / Shelf.span) (·.enlist program) } := by
  rw [addBlock] at h
  split at h
  · case isTrue hprogram =>
    obtain ⟨c₁, hmodify, hpair⟩ := Option.map_eq_some_iff.mp h
    obtain ⟨rfl, rfl⟩ := Prod.mk.inj hpair
    obtain ⟨hlt, rfl⟩ := modifyShelf_eq_some hmodify
    exact ⟨hprogram, hlt, rfl, rfl⟩
  · cases h

/-! #### What programs recognize -/

theorem Recognizes.addProgram {basis : Program.Basis} {id id' : ProgramNumber} {m : Memory}
    (hadd : c.addProgram offset basis = some (id, c')) (h : c.Recognizes id' m) :
    c'.Recognizes id' m := by
  obtain ⟨-, -, rfl⟩ := addProgram_eq_some hadd
  obtain ⟨p, hp, hm⟩ := h
  refine ⟨p, ?_, hm⟩
  have hlt := Recognizes.lt_size ⟨p, hp, hm⟩
  rw [program?, Array.getElem?_push, if_neg (Nat.ne_of_lt hlt)]
  exact hp

/-- With a block of a memory, programs go on recognizing that memory. -/
theorem Recognizes.addBlock {program id' : ProgramNumber} {b : Block} {m : Memory}
    {id : BlockNumber} {maxLength : Nat} {s : Sequence}
    (hadd : c.addBlock program offset b m = some (id, c')) (hpair : m.HasPair offset)
    (hs : Sequence.ofMemory? m offset maxLength = some s) (hranges : b.ranges = s.ranges)
    (h : c.Recognizes id' m) : c'.Recognizes id' m := by
  obtain ⟨-, -, -, rfl⟩ := addBlock_eq_some hadd
  obtain ⟨p, hp, hm⟩ := h
  rw [program?] at hp
  rw [Recognizes, program?, Array.getElem?_modify, hp]
  split
  · exact ⟨_, rfl, hranges ▸ hm.addBlock hpair hs _⟩
  · exact ⟨p, rfl, hm⟩

/-! #### Where shortcuts lead -/

/-- What holds of all members of an array, and of a changed one if it held of it before, holds of
all members after the change. -/
theorem forall_mem_modify {α : Type} {P : α → Prop} {members : Array α} {i : Nat} {f : α → α}
    (hall : ∀ a ∈ members, P a) (hf : ∀ a, P a → P (f a)) : ∀ a ∈ members.modify i f, P a := by
  intro a ha
  obtain ⟨k, hk, rfl⟩ := Array.mem_iff_getElem.mp ha
  rw [Array.getElem_modify]
  split
  · exact hf _ (hall _ (Array.getElem_mem _))
  · exact hall _ (Array.getElem_mem _)

variable {Q : ProgramNumber → Prop}

theorem ShortcutsSatisfy.modify {i : Nat} {f : Shelf → Shelf} (h : c.ShortcutsSatisfy Q)
    (hshelves : c'.shelves = c.shelves.modify i f)
    (hf : ∀ s, (f s).shortcut = s.shortcut ∨ ∃ hit, (f s).shortcut = some hit ∧ Q hit.1) :
    c'.ShortcutsSatisfy Q := by
  rw [ShortcutsSatisfy, hshelves]
  refine forall_mem_modify h fun s hs hit hhit => ?_
  rcases hf s with hsame | ⟨hit', hhit', hQ⟩
  · exact hs hit (hsame ▸ hhit)
  · obtain rfl := Option.some.inj (hhit'.symm.trans hhit)
    exact hQ

theorem ShortcutsSatisfy.setShortcut {program : ProgramNumber} {block : BlockNumber}
    (hset : c.setShortcut offset program block = some c') (h : c.ShortcutsSatisfy Q)
    (hQ : Q program) : c'.ShortcutsSatisfy Q := by
  obtain ⟨-, rfl⟩ := modifyShelf_eq_some hset
  refine h.modify (f := fun s => s.setShortcut (some (program, block))) rfl fun s => .inr ?_
  exact ⟨_, rfl, hQ⟩

theorem ShortcutsSatisfy.touch {id : ProgramNumber} (htouch : c.touch offset id = some c')
    (h : c.ShortcutsSatisfy Q) : c'.ShortcutsSatisfy Q := by
  obtain ⟨-, rfl⟩ := modifyShelf_eq_some htouch
  exact h.modify (f := fun s => s.touch id) rfl fun _ => .inl rfl

theorem ShortcutsSatisfy.addProgram {basis : Program.Basis} {id : ProgramNumber}
    (hadd : c.addProgram offset basis = some (id, c')) (h : c.ShortcutsSatisfy Q) :
    c'.ShortcutsSatisfy Q := by
  obtain ⟨-, -, rfl⟩ := addProgram_eq_some hadd
  exact h.modify (f := fun s => s.push id) rfl fun _ => .inl rfl

theorem ShortcutsSatisfy.addBlock {program : ProgramNumber} {b : Block} {m : Memory}
    {id : BlockNumber} (hadd : c.addBlock program offset b m = some (id, c'))
    (h : c.ShortcutsSatisfy Q) : c'.ShortcutsSatisfy Q := by
  obtain ⟨-, -, -, rfl⟩ := addBlock_eq_some hadd
  refine h.modify (f := fun s => s.enlist program) rfl fun s => .inl ?_
  rw [Shelf.enlist]
  split
  · rfl
  · rfl

theorem shortcutsSatisfy_dropShortcuts (c : Cache) (Q : ProgramNumber → Prop) :
    c.dropShortcuts.ShortcutsSatisfy Q := by
  intro s hs hit hhit
  obtain ⟨t, -, rfl⟩ := Array.mem_map.mp hs
  cases hhit

theorem shortcutsSatisfy_forgetAll (c : Cache) (Q : ProgramNumber → Prop) :
    c.forgetAll.ShortcutsSatisfy Q := by
  intro s hs hit hhit
  obtain ⟨t, -, rfl⟩ := Array.mem_map.mp hs
  cases hhit

end Results

/-! ### Shelves -/

section Shelves

variable {c : Cache} {memLength maxLength offset : Nat}

theorem InOrder.lt_size (h : c.InOrder memLength maxLength) (hoffset : offset < memLength) :
    offset / Shelf.span < c.shelves.size :=
  Nat.div_lt_of_lt_mul (h.length_eq ▸ hoffset)

theorem InOrder.exists_shelf (h : c.InOrder memLength maxLength) (hoffset : offset < memLength) :
    ∃ s ∈ c.shelves, c.shelf? offset = some s := by
  have hlt := h.lt_size hoffset
  exact ⟨c.shelves[offset / Shelf.span], Array.getElem_mem hlt, Array.getElem?_eq_getElem hlt⟩

theorem InOrder.modifyShelf_eq (h : c.InOrder memLength maxLength) (hoffset : offset < memLength)
    (f : Shelf → Shelf) : c.modifyShelf offset f =
      some { c with shelves := c.shelves.modify (offset / Shelf.span) f } := by
  rw [modifyShelf, if_pos (h.lt_size hoffset)]

/-- Changing one shelf leaves a cache in order, if the shelf goes on listing stored programs. -/
theorem InOrder.modifyShelf (h : c.InOrder memLength maxLength) (hoffset : offset < memLength)
    (f : Shelf → Shelf) (hf : ∀ s, (∀ id ∈ s.programs, id.value < c.programs.size) →
      ∀ id ∈ (f s).programs, id.value < c.programs.size) :
    ∃ c', c.modifyShelf offset f = some c' ∧ c'.InOrder memLength maxLength ∧
      c'.programs = c.programs ∧ c'.blocks = c.blocks := by
  refine ⟨_, h.modifyShelf_eq hoffset f, ⟨?_, ?_, h.faithful⟩, rfl, rfl⟩
  · rw [Array.size_modify]
    exact h.length_eq
  · exact forall_mem_modify h.stored hf

end Shelves

/-! ### Storing programs and blocks -/

section Storing

variable {c : Cache} {memLength maxLength offset : Nat}

theorem InOrder.create (memLength maxLength : Nat) (h : Shelf.span ∣ memLength) :
    (Cache.create memLength).InOrder memLength maxLength := by
  refine ⟨?_, fun s hs id hid => ?_, fun p hp => ?_⟩
  · rw [Cache.create, Array.size_replicate, Nat.mul_div_cancel' h]
  · obtain ⟨-, rfl⟩ := Array.mem_replicate.mp hs
    cases hid
  · exact absurd hp (Array.not_mem_empty p)

theorem InOrder.setShortcut (h : c.InOrder memLength maxLength) (hoffset : offset < memLength)
    (program : ProgramNumber) (block : BlockNumber) :
    ∃ c', c.setShortcut offset program block = some c' ∧ c'.InOrder memLength maxLength ∧
      (∀ id, c'.block? id = c.block? id) ∧
      (∀ id m, c.Recognizes id m → c'.Recognizes id m) ∧
      ∀ Q : ProgramNumber → Prop, Q program → c.ShortcutsSatisfy Q → c'.ShortcutsSatisfy Q := by
  obtain ⟨c', hc', hin, hprograms, hblocks⟩ :=
    h.modifyShelf hoffset (fun s => s.setShortcut (some (program, block))) fun s hs => hs
  exact ⟨c', hc', hin, fun id => by rw [block?, hblocks, block?],
    fun id m => Recognizes.of_programs_eq hprograms, fun Q hQ hall => hall.setShortcut hc' hQ⟩

theorem InOrder.touch (h : c.InOrder memLength maxLength) (hoffset : offset < memLength)
    {id : ProgramNumber} (hid : id.value < c.programs.size) :
    ∃ c', c.touch offset id = some c' ∧ c'.InOrder memLength maxLength ∧
      (∀ id m, c.Recognizes id m → c'.Recognizes id m) ∧
      ∀ Q, c.ShortcutsSatisfy Q → c'.ShortcutsSatisfy Q := by
  obtain ⟨c', hc', hin, hprograms, -⟩ :=
    h.modifyShelf hoffset (fun s => s.touch id) fun s hs id' hid' => by
      rcases (s.mem_touch id id').mp hid' with rfl | hmem
      · exact hid
      · exact hs id' hmem
  exact ⟨c', hc', hin, fun id m => Recognizes.of_programs_eq hprograms,
    fun Q hall => hall.touch hc'⟩

/-- A new program is known by its number, and the programs that were there keep theirs. -/
theorem InOrder.addProgram (h : c.InOrder memLength maxLength) (hoffset : offset < memLength)
    (basis : Program.Basis) :
    ∃ id c', c.addProgram offset basis = some (id, c') ∧ c'.InOrder memLength maxLength ∧
      c'.program? id = some (.create c.nextSerial basis) ∧
      (∀ id' m, c.Recognizes id' m → c'.Recognizes id' m) ∧
      ∀ Q, c.ShortcutsSatisfy Q → c'.ShortcutsSatisfy Q := by
  have hmono : ∀ {id : ProgramNumber}, id.value < c.programs.size →
      id.value < (c.programs.push (.create c.nextSerial basis)).size := fun hid => by
    rw [Array.size_push]
    exact Nat.lt_succ_of_lt hid
  have hpushed : InOrder { c with
      programs := c.programs.push (.create c.nextSerial basis)
      nextSerial := c.nextSerial + 1 } memLength maxLength := by
    refine ⟨h.length_eq, fun s hs id hid => hmono (h.stored s hs id hid), fun p hp => ?_⟩
    rcases Array.mem_push.mp hp with hp | rfl
    · exact h.faithful p hp
    · exact Program.faithful_create _ _
  obtain ⟨c', hc', hin, hprograms, -⟩ :=
    hpushed.modifyShelf hoffset (fun s => s.push ⟨c.programs.size⟩) fun s hs id hid => by
      rcases List.mem_cons.mp hid with rfl | hmem
      · rw [Array.size_push]
        exact Nat.lt_succ_self _
      · exact hs id hmem
  have hadd : c.addProgram offset basis = some (⟨c.programs.size⟩, c') := by
    rw [Cache.addProgram, hc', Option.map_some]
  refine ⟨_, c', hadd, hin, ?_, fun id' m hm => hm.addProgram hadd, fun Q hall =>
    hall.addProgram hadd⟩
  rw [program?, hprograms, Array.getElem?_push_size]

theorem InOrder.dropShortcuts (h : c.InOrder memLength maxLength) :
    c.dropShortcuts.InOrder memLength maxLength := by
  refine ⟨?_, fun s hs => ?_, h.faithful⟩
  · rw [Cache.dropShortcuts, Array.size_map]
    exact h.length_eq
  · obtain ⟨t, ht, rfl⟩ := Array.mem_map.mp hs
    exact h.stored t ht

theorem InOrder.forgetAll (h : c.InOrder memLength maxLength) :
    c.forgetAll.InOrder memLength maxLength := by
  refine ⟨?_, fun s hs id hid => ?_, fun p hp => ?_⟩
  · rw [Cache.forgetAll, Array.size_map]
    exact h.length_eq
  · obtain ⟨t, ht, rfl⟩ := Array.mem_map.mp hs
    cases hid
  · exact absurd hp (Array.not_mem_empty p)

/-- A block compiled from a memory that its program admits may be stored there. The programs that
recognize that memory go on doing so. -/
theorem InOrder.addBlock (h : c.InOrder memLength maxLength) {m : Memory} {s : Sequence}
    {b : Block} {program : ProgramNumber} (hpair : m.HasPair offset) (hsize : m.size = memLength)
    (hs : Sequence.ofMemory? m offset maxLength = some s) (hb : b.Renders s) {p : Program}
    (hp : c.program? program = some p) (hm : p.Admits m) :
    ∃ id c', c.addBlock program offset b m = some (id, c') ∧ c'.InOrder memLength maxLength ∧
      c'.block? id = some b ∧
      (∀ id', c.Recognizes id' m → c'.Recognizes id' m) ∧
      ∀ Q, c.ShortcutsSatisfy Q → c'.ShortcutsSatisfy Q := by
  obtain ⟨hlt, rfl⟩ := Array.getElem?_eq_some_iff.mp hp
  have hadded : InOrder { c with
      programs := c.programs.modify program.value fun p =>
        p.addBlock offset ⟨c.blocks.size⟩ b.ranges m
      blocks := c.blocks.push b } memLength maxLength := by
    refine ⟨h.length_eq, fun s' hs' id hid => ?_, fun p' hp' => ?_⟩
    · rw [Array.size_modify]
      exact h.stored s' hs' id hid
    · obtain ⟨k, hk, rfl⟩ := Array.mem_iff_getElem.mp hp'
      rw [Array.getElem_modify]
      have hk' : k < c.programs.size := Array.size_modify ▸ hk
      have hfaithful := h.faithful c.programs[k] (Array.getElem_mem hk')
      -- the program given gets the block, and for all others it is stored behind theirs
      split
      · case isTrue heq =>
        subst heq
        have hadd := hfaithful.addBlock hpair hs hb hsize hm
        rw [← hb.ranges_eq] at hadd
        exact hadd
      · exact hfaithful.push b
  obtain ⟨c', hc', hin, -, hblocks⟩ :=
    hadded.modifyShelf (hsize ▸ hpair.inside) (fun s => s.enlist program)
      fun s' hs' id hid => by
        rw [Shelf.enlist] at hid
        split at hid
        · exact hs' id hid
        · rcases List.mem_cons.mp hid with rfl | hmem
          · rwa [Array.size_modify]
          · exact hs' id hmem
  have hadd : c.addBlock program offset b m = some (⟨c.blocks.size⟩, c') := by
    rw [Cache.addBlock, if_pos hlt, hc', Option.map_some]
  refine ⟨_, c', hadd, hin, ?_, fun id' hm' => hm'.addBlock hadd hpair hs hb.ranges_eq,
    fun Q hall => hall.addBlock hadd⟩
  rw [block?, hblocks, Array.getElem?_push_size]

end Storing

/-! ### Looking programs up -/

/-- A program is stored, and comparing it with a memory comes to a result. The digest of the memory
is given only where programs remember images. -/
def ComparesAs (c : Cache) (m : Memory) (digest? : Option UInt64) (id : ProgramNumber)
    (result : Bool) : Prop :=
  ∃ q, c.program? id = some q ∧ q.matchesMemory m digest? = result

/-- A lookup among some programs stops at the first that matches, or else compares them all. Its
count of comparisons says how far it has come. -/
inductive Scans (c : Cache) (m : Memory) (digest? : Option UInt64) :
    List ProgramNumber → Lookup → Prop where
  | found {before : List ProgramNumber} {id : ProgramNumber} (after : List ProgramNumber)
      (hmisses : ∀ other ∈ before, c.ComparesAs m digest? other false)
      (hmatches : c.ComparesAs m digest? id true) :
      Scans c m digest? (before ++ id :: after) ⟨some id, before.length + 1⟩
  | missed {ids : List ProgramNumber} (hmisses : ∀ id ∈ ids, c.ComparesAs m digest? id false) :
      Scans c m digest? ids ⟨none, ids.length⟩

section Scans

variable {c : Cache} {m : Memory} {digest? : Option UInt64} {ids : List ProgramNumber} {l : Lookup}

/-- One more program that does not match, in front of the others, is one more comparison. -/
theorem Scans.cons {first : ProgramNumber} (hfirst : c.ComparesAs m digest? first false)
    (h : c.Scans m digest? ids l) :
    c.Scans m digest? (first :: ids) ⟨l.found, l.comparisons + 1⟩ := by
  cases h with
  | found after hmisses hmatches =>
    exact .found after (List.forall_mem_cons.mpr ⟨hfirst, hmisses⟩) hmatches
  | missed hmisses => exact .missed (List.forall_mem_cons.mpr ⟨hfirst, hmisses⟩)

theorem scans_of_lookupAmong {compared : Nat} (h : c.lookupAmong m digest? compared ids = some l) :
    ∃ l', c.Scans m digest? ids l' ∧ l = ⟨l'.found, compared + l'.comparisons⟩ := by
  induction ids generalizing compared with
  | nil =>
    obtain rfl := Option.some.inj h
    exact ⟨_, .missed (List.forall_mem_nil _), rfl⟩
  | cons first rest ih =>
    rw [lookupAmong] at h
    split at h
    · cases h
    · case h_2 q hq =>
      split at h
      · case isTrue hmatch =>
        obtain rfl := Option.some.inj h
        exact ⟨_, .found rest (List.forall_mem_nil _) ⟨q, hq, hmatch⟩, rfl⟩
      · case isFalse hdiffers =>
        obtain ⟨l', hscans, rfl⟩ := ih h
        refine ⟨_, hscans.cons ⟨q, hq, Bool.eq_false_iff.mpr hdiffers⟩, ?_⟩
        rw [Nat.add_assoc, Nat.add_comm 1]

/-- A lookup compares the programs of the shelf, the most recently used one first. -/
theorem scans_of_lookup {offset : Nat} (h : c.lookup offset m digest? = some l) :
    ∃ s, c.shelf? offset = some s ∧ c.Scans m digest? s.programs l := by
  rw [lookup] at h
  split at h
  · cases h
  · case h_2 s hs =>
    obtain ⟨l', hscans, rfl⟩ := scans_of_lookupAmong h
    rw [Nat.zero_add]
    exact ⟨s, hs, hscans⟩

/-- What a lookup finds is a program of the shelf that matches the memory. -/
theorem lookup_found {offset : Nat} {id : ProgramNumber} (h : c.lookup offset m digest? = some l)
    (hfound : l.found = some id) : ∃ s, c.shelf? offset = some s ∧ id ∈ s.programs ∧
      ∃ q, c.program? id = some q ∧ q.matchesMemory m digest? = true := by
  obtain ⟨s, hs, hscans⟩ := scans_of_lookup h
  generalize hids : s.programs = ids at hscans
  cases hscans with
  | found after hmisses hmatches =>
    obtain rfl := Option.some.inj hfound
    exact ⟨s, hs, hids ▸ List.mem_append_cons_self, hmatches⟩
  | missed hmisses => cases hfound

end Scans

theorem exists_lookupAmong {c : Cache} (m : Memory) (digest? : Option UInt64)
    (ids : List ProgramNumber) (hids : ∀ id ∈ ids, id.value < c.programs.size) (compared : Nat) :
    ∃ l, c.lookupAmong m digest? compared ids = some l := by
  induction ids generalizing compared with
  | nil => exact ⟨_, rfl⟩
  | cons id rest ih =>
    have hlt := hids id List.mem_cons_self
    have hprogram : c.program? id = some c.programs[id.value] := Array.getElem?_eq_getElem hlt
    rw [lookupAmong, hprogram]
    by_cases hmatch : (c.programs[id.value].matchesMemory m digest?) = true
    · exact ⟨_, if_pos hmatch⟩
    · obtain ⟨l, hl⟩ := ih (fun id hid => hids id (List.mem_cons_of_mem _ hid)) (compared + 1)
      exact ⟨l, (if_neg hmatch).trans hl⟩

/-- A lookup has an answer, and what it finds recognizes the memory. -/
theorem InOrder.lookup {c : Cache} {memLength maxLength offset : Nat}
    (h : c.InOrder memLength maxLength) (hoffset : offset < memLength) (m : Memory)
    (digest? : Option UInt64) : ∃ l, c.lookup offset m digest? = some l ∧
      ∀ id, l.found = some id → c.Recognizes id m := by
  obtain ⟨s, hs, hshelf⟩ := h.exists_shelf hoffset
  obtain ⟨l, hl⟩ := exists_lookupAmong m digest? s.programs (h.stored s hs) 0
  have hlookup : c.lookup offset m digest? = some l := by
    rw [Cache.lookup, hshelf]
    exact hl
  refine ⟨l, hlookup, fun id hid => ?_⟩
  obtain ⟨-, -, -, p, hp, hmatch⟩ := lookup_found hlookup hid
  -- with or without a digest
  exact ⟨p, hp, Program.recognizes_of_matchesMemory hmatch⟩

end Cache

end VectorUnit
