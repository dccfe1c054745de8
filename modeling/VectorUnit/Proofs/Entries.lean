import Mathlib.Data.List.Basic
import VectorUnit.Proofs.Steps

/-!
# Entries

A cache maps programs and offsets to the blocks that are entered there (`Cache.blockOf?`), and all
of its lists and numbers follow this map. In a cache that is filed (`Cache.Filed`) a shelf lists the
programs with an entry in it, each of them once, and its shortcut is such an entry
(`Shelf.Serves`); each block is stored for one entry, and a program remembers the ranges of its
blocks in the order in which they were compiled (`Cache.Numbered`).

A lookup that finds no program lists a new one before it has any entry. So a program may await its
first block in some shelf, and adding that block ends the waiting (`Cache.Filed.addBlock`).

The lemmas about shelves know nothing of the cache but this map, and those about numbers nothing of
shelves.
-/

namespace VectorUnit

namespace Program

/-- The block is one of the program. -/
def owns (q : Program) (id : BlockNumber) : Bool :=
  q.entries.any fun e => e.2 = id

theorem owns_iff {q : Program} {id : BlockNumber} :
    q.owns id = true ↔ ∃ offset, q.block? offset = some id := by
  simp only [owns, entries, List.any_eq_true, decide_eq_true_eq, Prod.exists, block?,
    Std.TreeMap.mem_toList_iff_getElem?_eq_some]
  constructor
  · rintro ⟨offset, _, h, rfl⟩
    exact ⟨offset, h⟩
  · rintro ⟨offset, h⟩
    exact ⟨offset, id, h, rfl⟩

theorem block?_create (serial : Nat) (basis : Basis) (offset : Nat) :
    (create serial basis).block? offset = none :=
  Std.TreeMap.getElem?_emptyc

section AddBlock

variable (q : Program) {entry : Nat} (id : BlockNumber) (rs : List Range) (m : Memory)

theorem block?_addBlock (entry offset : Nat) : (q.addBlock entry id rs m).block? offset =
    if entry = offset then some id else q.block? offset := by
  simp only [block?, addBlock, Std.TreeMap.getElem?_insert, Nat.compare_eq_eq]

/-- A program that is given a block where it had none keeps those that it had. -/
theorem block?_addBlock_of_some {offset : Nat} {id' : BlockNumber} (hnone : q.block? entry = none)
    (h : q.block? offset = some id') : (q.addBlock entry id rs m).block? offset = some id' := by
  rw [block?_addBlock, if_neg]
  · exact h
  · rintro rfl
    rw [hnone] at h
    cases h

theorem owns_addBlock_iff (hnone : q.block? entry = none) (id' : BlockNumber) :
    (q.addBlock entry id rs m).owns id' = true ↔ id' = id ∨ q.owns id' = true := by
  rw [owns_iff, owns_iff]
  constructor
  · rintro ⟨offset, hblock⟩
    rw [block?_addBlock] at hblock
    split at hblock
    · exact .inl (Option.some.inj hblock).symm
    · exact .inr ⟨offset, hblock⟩
  · rintro (rfl | ⟨offset, hblock⟩)
    · exact ⟨entry, by rw [block?_addBlock, if_pos rfl]⟩
    · exact ⟨offset, q.block?_addBlock_of_some id rs m hnone hblock⟩

theorem ranges_addBlock (entry : Nat) : (q.addBlock entry id rs m).ranges = q.ranges ++ rs := by
  simp [ranges, addBlock, Excerpt.ofMemory, Function.comp_def]

end AddBlock

end Program

namespace Cache

/-! ### Entries -/

/-- The block of a program at an offset. -/
def blockOf? (c : Cache) (program : ProgramNumber) (offset : Nat) : Option BlockNumber :=
  (c.program? program).bind fun q => q.block? offset

/-- The blocks of a program in the order in which they were compiled. -/
def blocksOf (c : Cache) (q : Program) : List Block :=
  c.blocks.toList.zipIdx.filterMap fun (b, i) => if q.owns ⟨i⟩ then some b else none

end Cache

/-! ### Shelves -/

namespace Shelf

variable {s : Shelf} {i offset : Nat} {blockOf? : ProgramNumber → Nat → Option BlockNumber}
  {awaited : Option (ProgramNumber × Nat)} {program id : ProgramNumber} {block : BlockNumber}

/-- A program has a block that starts in the shelf with a number. A shelf lists exactly these
programs, but for one whose first block there is still awaited. -/
def StartsIn (blockOf? : ProgramNumber → Nat → Option BlockNumber) (id : ProgramNumber) (i : Nat) :
    Prop :=
  ∃ offset, offset / span = i ∧ (blockOf? id offset).isSome

/-- A shelf with the number `i` lists the programs with a block that starts there, and the one that
awaits its first block there, if there is one. -/
structure Serves (s : Shelf) (i : Nat) (blockOf? : ProgramNumber → Nat → Option BlockNumber)
    (awaited : Option (ProgramNumber × Nat)) : Prop where
  nodup : s.programs.Nodup
  mem_iff : ∀ id, id ∈ s.programs ↔ StartsIn blockOf? id i ∨ awaited = some (id, i)
  shortcut : ∀ program id, s.shortcut = some (program, id) →
    ∃ offset, offset / span = i ∧ blockOf? program offset = some id

theorem Serves.empty (h : ∀ program offset, blockOf? program offset = none) :
    Shelf.empty.Serves i blockOf? none := by
  refine ⟨List.nodup_nil, fun id => ?_, fun program id hid => by cases hid⟩
  simp [Shelf.empty, StartsIn, h]

theorem Serves.touch (h : s.Serves i blockOf? none) (hid : id ∈ s.programs) :
    (s.touch id).Serves i blockOf? none := by
  refine ⟨?_, fun other => ?_, h.shortcut⟩
  · simp only [Shelf.touch, moveToFront]
    split
    · exact h.nodup
    · exact List.nodup_cons.mpr ⟨by simp, h.nodup.filter _⟩
  · rw [mem_touch, ← h.mem_iff other]
    constructor
    · rintro (rfl | hmem)
      · exact hid
      · exact hmem
    · exact .inr

theorem Serves.setShortcut (h : s.Serves i blockOf? none) (hi : offset / span = i)
    (hentry : blockOf? program offset = some block) :
    (s.setShortcut (some (program, block))).Serves i blockOf? none := by
  refine ⟨h.nodup, h.mem_iff, fun program' id' hid' => ?_⟩
  obtain ⟨rfl, rfl⟩ := Prod.mk.inj (Option.some.inj hid')
  exact ⟨offset, hi, hentry⟩

theorem Serves.dropShortcut (h : s.Serves i blockOf? awaited) :
    (s.setShortcut none).Serves i blockOf? awaited :=
  ⟨h.nodup, h.mem_iff, fun _ _ hid => by cases hid⟩

/-- A program without blocks may be listed, which then awaits one. -/
theorem Serves.push (h : s.Serves i blockOf? none) (hnew : ∀ offset, blockOf? id offset = none) :
    (s.push id).Serves i blockOf? (some (id, i)) := by
  have hstarts : ¬ StartsIn blockOf? id i := by
    rintro ⟨offset, -, hsome⟩
    rw [hnew] at hsome
    cases hsome
  refine ⟨List.nodup_cons.mpr ⟨?_, h.nodup⟩, fun other => ?_, h.shortcut⟩
  · rw [h.mem_iff]
    rintro (hmem | hmem)
    · exact hstarts hmem
    · cases hmem
  · rw [Shelf.push, List.mem_cons, h.mem_iff, or_comm]
    simp [eq_comm]

/-- What is awaited in another shelf makes no difference. -/
theorem Serves.await {j : Nat} (h : s.Serves i blockOf? none) (hne : j ≠ i) (id : ProgramNumber) :
    s.Serves i blockOf? (some (id, j)) := by
  refine ⟨h.nodup, fun other => ?_, h.shortcut⟩
  rw [h.mem_iff]
  simp [hne]

/-- What has a block is not awaited any more. -/
theorem Serves.settle (h : s.Serves i blockOf? awaited)
    (hawaited : ∀ id j, awaited = some (id, j) → StartsIn blockOf? id j) :
    s.Serves i blockOf? none := by
  refine ⟨h.nodup, fun other => ?_, h.shortcut⟩
  rw [h.mem_iff]
  constructor
  · rintro (hstarts | hother)
    · exact .inl hstarts
    · exact .inl (hawaited other i hother)
  · rintro (hstarts | hother)
    · exact .inl hstarts
    · cases hother

section Enlist

variable {blockOf?' : ProgramNumber → Nat → Option BlockNumber}
  (hadd : ∀ other offset', blockOf?' other offset' =
    if other = program ∧ offset = offset' then some block else blockOf? other offset')

include hadd

/-- After a block is added, its program starts in the shelf of the block as well. -/
private theorem startsIn_add (other : ProgramNumber) (i : Nat) :
    StartsIn blockOf?' other i ↔
      StartsIn blockOf? other i ∨ (other = program ∧ offset / span = i) := by
  constructor
  · rintro ⟨offset', hi, hsome⟩
    rw [hadd] at hsome
    split at hsome
    · case isTrue heq =>
      obtain ⟨rfl, rfl⟩ := heq
      exact .inr ⟨rfl, hi⟩
    · exact .inl ⟨offset', hi, hsome⟩
  · rintro (⟨offset', hi, hsome⟩ | ⟨rfl, hi⟩)
    · refine ⟨offset', hi, ?_⟩
      rw [hadd]
      split
      · rfl
      · exact hsome
    · refine ⟨offset, hi, ?_⟩
      rw [hadd, if_pos ⟨rfl, rfl⟩]
      rfl

variable (hnone : blockOf? program offset = none)

include hnone

/-- A block that is added replaces none, so shortcuts stay good. -/
private theorem shortcut_add (h : s.Serves i blockOf? awaited)
    (other : ProgramNumber) (id : BlockNumber) (hid : s.shortcut = some (other, id)) :
    ∃ offset', offset' / span = i ∧ blockOf?' other offset' = some id := by
  obtain ⟨offset', hi, hentry⟩ := h.shortcut other id hid
  refine ⟨offset', hi, ?_⟩
  rw [hadd, if_neg]
  · exact hentry
  · rintro ⟨rfl, rfl⟩
    rw [hnone] at hentry
    cases hentry

/-- The shelf of a block that is added lists its program. -/
theorem Serves.enlist (h : s.Serves (offset / span) blockOf? awaited)
    (hawaited : awaited = none ∨ awaited = some (program, offset / span)) :
    (s.enlist program).Serves (offset / span) blockOf?' none := by
  have hshortcut := shortcut_add hadd hnone h
  have hstarts := fun other => startsIn_add hadd other (offset / span)
  have hold : ∀ other, other ∈ s.programs ∨ other = program ↔
      StartsIn blockOf?' other (offset / span) := by
    intro other
    rw [hstarts, h.mem_iff]
    rcases hawaited with rfl | rfl
    · simp
    · simp [eq_comm]
  rw [Shelf.enlist]
  split
  · case isTrue hmem =>
    refine ⟨h.nodup, fun other => ?_, hshortcut⟩
    rw [← hold]
    have hmem' : program ∈ s.programs := by simpa using hmem
    constructor
    · exact fun hother => .inl (.inl hother)
    · rintro ((hother | rfl) | hother)
      · exact hother
      · exact hmem'
      · cases hother
  · case isFalse hmem =>
    refine ⟨List.nodup_cons.mpr ⟨by simpa using hmem, h.nodup⟩, fun other => ?_, hshortcut⟩
    rw [← hold, Shelf.push, List.mem_cons]
    simp [or_comm]

/-- The other shelves list what they did before a block was added. -/
theorem Serves.pass (h : s.Serves i blockOf? awaited)
    (hawaited : awaited = none ∨ awaited = some (program, offset / span))
    (hne : offset / span ≠ i) : s.Serves i blockOf?' none := by
  refine ⟨h.nodup, fun other => ?_, shortcut_add hadd hnone h⟩
  rw [h.mem_iff, startsIn_add hadd]
  rcases hawaited with rfl | rfl
  · simp [hne]
  · simp [hne]

end Enlist

end Shelf

namespace Cache

variable {c c' : Cache} {offset : Nat} {program : ProgramNumber} {q : Program}

/-! ### Entries under changes of the cache -/

theorem blockOf?_eq (hq : c.program? program = some q) (offset : Nat) :
    c.blockOf? program offset = q.block? offset := by
  rw [blockOf?, hq, Option.bind_some]

theorem exists_program_of_blockOf? {id : BlockNumber} (h : c.blockOf? program offset = some id) :
    ∃ q, c.program? program = some q ∧ q.block? offset = some id :=
  Option.bind_eq_some_iff.mp h

/-- A new program has no entries. -/
theorem blockOf?_addProgram {serial : Nat} {basis : Program.Basis}
    (hprograms : c'.programs = c.programs.push (.create serial basis)) :
    c'.blockOf? = c.blockOf? := by
  funext program offset
  simp only [blockOf?, program?, hprograms, Array.getElem?_push]
  split
  · case isTrue heq =>
    rw [heq, Array.getElem?_eq_none (Nat.le_refl _), Option.bind_some, Option.bind_none]
    exact Program.block?_create _ _ _
  · rfl

theorem blockOf?_addBlock {id : BlockNumber} {rs : List Range} {m : Memory}
    (hq : c.program? program = some q)
    (hprograms : c'.programs = c.programs.modify program.value fun q => q.addBlock offset id rs m)
    (other : ProgramNumber) (offset' : Nat) :
    c'.blockOf? other offset' =
      if other = program ∧ offset = offset' then some id else c.blockOf? other offset' := by
  simp only [blockOf?, program?, hprograms, Array.getElem?_modify]
  by_cases heq : program = other
  · subst heq
    rw [program?] at hq
    simp [hq, Program.block?_addBlock]
  · have hne : program.value ≠ other.value := fun h => heq (by cases program; cases other; simp_all)
    rw [if_neg hne, if_neg fun h => heq h.1.symm]

/-- What is added is the block of one entry more. -/
theorem blockOf?_addBlock_of_some {id id' : BlockNumber} {rs : List Range} {m : Memory}
    (hq : c.program? program = some q) (hnone : q.block? offset = none)
    (hprograms : c'.programs = c.programs.modify program.value fun q => q.addBlock offset id rs m)
    {other : ProgramNumber} {offset' : Nat} (h : c.blockOf? other offset' = some id') :
    c'.blockOf? other offset' = some id' := by
  rw [blockOf?_addBlock hq hprograms, if_neg]
  · exact h
  · rintro ⟨rfl, rfl⟩
    rw [blockOf?_eq hq, hnone] at h
    cases h

theorem blocksOf_push {b : Block} (hblocks : c'.blocks = c.blocks.push b) (q : Program) :
    c'.blocksOf q = c.blocksOf q ++ if q.owns ⟨c.blocks.size⟩ then [b] else [] := by
  simp only [blocksOf, hblocks, Array.toList_push, List.zipIdx_append, List.filterMap_append,
    List.zipIdx_singleton, Nat.zero_add, Array.length_toList]
  split <;> simp_all

/-- Which of the stored blocks belong to a program is all that matters. -/
theorem blocksOf_congr {q' : Program} (h : ∀ i < c.blocks.size, q'.owns ⟨i⟩ = q.owns ⟨i⟩) :
    c.blocksOf q' = c.blocksOf q := by
  simp only [blocksOf]
  refine List.filterMap_congr ?_
  rintro ⟨b, i⟩ hmem
  have hlt : i < c.blocks.size := by
    have := List.snd_lt_of_mem_zipIdx hmem
    simpa using this
  simp only [h i hlt]

/-! ### Numbers -/

/-- Programs and blocks are numbered as their entries say: each block belongs to one program under
one offset, and is found again under its number. -/
structure Numbered (c : Cache) : Prop where
  entered : ∀ program offset id, c.blockOf? program offset = some id →
    ∃ b, c.block? id = some b ∧ b.start = offset
  injective : ∀ e e' : ProgramNumber × Nat, ∀ id, c.blockOf? e.1 e.2 = some id →
    c.blockOf? e'.1 e'.2 = some id → e = e'
  surjective : ∀ id, id.value < c.blocks.size →
    ∃ e : ProgramNumber × Nat, c.blockOf? e.1 e.2 = some id
  ranges_eq : ∀ q ∈ c.programs, q.ranges = (c.blocksOf q).flatMap Block.ranges
  serials : (c.programs.toList.map Program.serial).Pairwise (· < ·)
  serial_lt : ∀ q ∈ c.programs, q.serial < c.nextSerial

theorem Numbered.id_lt (h : c.Numbered) {id : BlockNumber}
    (hentry : c.blockOf? program offset = some id) : id.value < c.blocks.size := by
  obtain ⟨b, hb, -⟩ := h.entered program offset id hentry
  exact (Array.getElem?_eq_some_iff.mp hb).1

/-- A stored program owns stored blocks only. -/
theorem Numbered.owns_lt (h : c.Numbered) (hq : q ∈ c.programs) {id : BlockNumber}
    (howns : q.owns id = true) : id.value < c.blocks.size := by
  obtain ⟨k, hk, rfl⟩ := Array.mem_iff_getElem.mp hq
  obtain ⟨offset, hblock⟩ := Program.owns_iff.mp howns
  have hprogram : c.program? ⟨k⟩ = some c.programs[k] := Array.getElem?_eq_getElem hk
  exact h.id_lt ((blockOf?_eq hprogram offset).trans hblock)

theorem Numbered.congr (h : c.Numbered) (hprograms : c'.programs = c.programs)
    (hblocks : c'.blocks = c.blocks) (hnext : c'.nextSerial = c.nextSerial) : c'.Numbered := by
  have hentry : c'.blockOf? = c.blockOf? := by
    funext program offset
    rw [blockOf?, program?, hprograms, blockOf?, program?]
  have hblocksOf : c'.blocksOf = c.blocksOf := by
    funext q
    rw [blocksOf, hblocks, blocksOf]
  constructor
  · rw [hentry]
    simpa [block?, hblocks] using h.entered
  · rw [hentry]
    exact h.injective
  · rw [hentry, hblocks]
    exact h.surjective
  · rw [hprograms, hblocksOf]
    exact h.ranges_eq
  · rw [hprograms]
    exact h.serials
  · rw [hprograms, hnext]
    exact h.serial_lt

theorem Numbered.empty (hprograms : c.programs = #[]) (hblocks : c.blocks = #[]) : c.Numbered := by
  have hentry : ∀ program offset, c.blockOf? program offset = none := by
    intro program offset
    simp [blockOf?, program?, hprograms]
  constructor
  · intro program offset id h
    rw [hentry] at h
    cases h
  · intro e e' id h
    rw [hentry] at h
    cases h
  · intro id h
    simp [hblocks] at h
  all_goals simp [hprograms]

theorem Numbered.addProgram (h : c.Numbered) (basis : Program.Basis)
    (hprograms : c'.programs = c.programs.push (.create c.nextSerial basis))
    (hblocks : c'.blocks = c.blocks) (hnext : c'.nextSerial = c.nextSerial + 1) :
    c'.Numbered := by
  have hentry := blockOf?_addProgram hprograms
  have hblocksOf : c'.blocksOf = c.blocksOf := by
    funext q
    rw [blocksOf, hblocks, blocksOf]
  constructor
  · rw [hentry]
    simpa [block?, hblocks] using h.entered
  · rw [hentry]
    exact h.injective
  · rw [hentry, hblocks]
    exact h.surjective
  · intro q hq
    rw [hprograms] at hq
    rw [hblocksOf]
    rcases Array.mem_push.mp hq with hq | rfl
    · exact h.ranges_eq q hq
    · -- a new program has neither excerpts nor blocks
      have hnone : c.blocksOf (.create c.nextSerial basis) = [] := by
        simp only [blocksOf, Program.owns, Program.entries, Program.create]
        simp
      rw [hnone]
      rfl
  · rw [hprograms, Array.toList_push, List.map_append, List.pairwise_append]
    refine ⟨h.serials, by simp, ?_⟩
    intro n hn n' hn'
    obtain ⟨q, hq, rfl⟩ := List.mem_map.mp hn
    obtain rfl : n' = c.nextSerial := by simpa [Program.create] using hn'
    exact h.serial_lt q (Array.mem_toList_iff.mp hq)
  · intro q hq
    rw [hprograms] at hq
    rw [hnext]
    rcases Array.mem_push.mp hq with hq | rfl
    · exact Nat.lt_succ_of_lt (h.serial_lt q hq)
    · exact Nat.lt_succ_self _

/-- The ranges of a program go on with those of the block that it is given, and all other programs
keep their blocks. -/
private theorem Numbered.ranges_addBlock (h : c.Numbered) {b : Block} {m : Memory}
    (hq : c.program? program = some q) (hnone : q.block? offset = none)
    (hprograms : c'.programs = c.programs.modify program.value fun q =>
      q.addBlock offset ⟨c.blocks.size⟩ b.ranges m)
    (hblocks : c'.blocks = c.blocks.push b) :
    ∀ q ∈ c'.programs, q.ranges = (c'.blocksOf q).flatMap Block.ranges := by
  intro q' hq'
  rw [hprograms] at hq'
  obtain ⟨k, hk, rfl⟩ := Array.mem_iff_getElem.mp hq'
  have hk' : k < c.programs.size := by simpa using hk
  have hmem : c.programs[k] ∈ c.programs := Array.getElem_mem hk'
  rw [Array.getElem_modify]
  split
  · case isTrue heq =>
    subst heq
    obtain rfl : c.programs[program.value] = q := by
      rw [program?, Array.getElem?_eq_getElem hk'] at hq
      exact Option.some.inj hq
    have howns := fun i => Program.owns_addBlock_iff _ ⟨c.blocks.size⟩ b.ranges m hnone ⟨i⟩
    -- of the blocks that were there before it owns those that it owned
    have hbefore : c.blocksOf (c.programs[program.value].addBlock offset ⟨c.blocks.size⟩ b.ranges m)
        = c.blocksOf c.programs[program.value] := by
      refine blocksOf_congr fun i hi => ?_
      rw [Bool.eq_iff_iff, howns]
      simp [Nat.ne_of_lt hi]
    rw [Program.ranges_addBlock, h.ranges_eq _ hmem, blocksOf_push hblocks,
      if_pos ((howns _).mpr (.inl rfl)), hbefore, List.flatMap_append, List.flatMap_singleton]
  · rw [blocksOf_push hblocks, if_neg, List.append_nil]
    · exact h.ranges_eq _ hmem
    · exact fun howns => Nat.lt_irrefl _ (h.owns_lt hmem howns)

private theorem map_serial_modify {programs : Array Program} {k : Nat} {f : Program → Program}
    (hf : ∀ q, (f q).serial = q.serial) :
    (programs.modify k f).toList.map Program.serial = programs.toList.map Program.serial := by
  refine List.ext_getElem? fun i => ?_
  simp only [List.getElem?_map, Array.getElem?_toList, Array.getElem?_modify]
  split
  · rw [Option.map_map]
    exact congrArg (Option.map · programs[i]?) (funext hf)
  · rfl

/-- The block that is added gets the number behind all others, and its ranges come last. -/
theorem Numbered.addBlock (h : c.Numbered) {b : Block} {m : Memory}
    (hq : c.program? program = some q) (hnone : q.block? offset = none) (hstart : b.start = offset)
    (hprograms : c'.programs = c.programs.modify program.value fun q =>
      q.addBlock offset ⟨c.blocks.size⟩ b.ranges m)
    (hblocks : c'.blocks = c.blocks.push b) (hnext : c'.nextSerial = c.nextSerial) :
    c'.Numbered := by
  -- an entry is the one that is added, or it was there before
  have hcases : ∀ {other offset' id}, c'.blockOf? other offset' = some id →
      (other = program ∧ offset' = offset ∧ id = ⟨c.blocks.size⟩) ∨
        c.blockOf? other offset' = some id := by
    intro other offset' id hid
    rw [blockOf?_addBlock hq hprograms] at hid
    split at hid
    · case isTrue heq => exact .inl ⟨heq.1, heq.2.symm, (Option.some.inj hid).symm⟩
    · exact .inr hid
  refine ⟨?_, ?_, ?_, ?_, ?_, ?_⟩
  · intro other offset' id hid
    rcases hcases hid with ⟨rfl, rfl, rfl⟩ | hid
    · refine ⟨b, ?_, hstart⟩
      rw [block?, hblocks, Array.getElem?_push_size]
    · obtain ⟨b', hb', hstart'⟩ := h.entered other offset' id hid
      refine ⟨b', ?_, hstart'⟩
      rw [block?, hblocks, Array.getElem?_push, if_neg (Nat.ne_of_lt (h.id_lt hid))]
      exact hb'
  · -- the new number was not given before, so two entries with it are both the new one
    rintro ⟨other, o⟩ ⟨other', o'⟩ id hid hid'
    rcases hcases hid with ⟨rfl, rfl, rfl⟩ | hid
    · rcases hcases hid' with ⟨rfl, rfl, -⟩ | hid'
      · rfl
      · exact absurd (h.id_lt hid') (Nat.lt_irrefl _)
    · rcases hcases hid' with ⟨rfl, rfl, rfl⟩ | hid'
      · exact absurd (h.id_lt hid) (Nat.lt_irrefl _)
      · exact h.injective _ _ id hid hid'
  · intro id hid
    rw [hblocks, Array.size_push] at hid
    rcases Nat.lt_succ_iff_lt_or_eq.mp hid with hlt | heq
    · obtain ⟨e, he⟩ := h.surjective id hlt
      exact ⟨e, blockOf?_addBlock_of_some hq hnone hprograms he⟩
    · refine ⟨(program, offset), ?_⟩
      rw [blockOf?_addBlock hq hprograms, if_pos ⟨rfl, rfl⟩, ← heq]
  · exact h.ranges_addBlock hq hnone hprograms hblocks
  · rw [hprograms, map_serial_modify]
    · exact h.serials
    · exact fun q => rfl
  · rw [hprograms, hnext]
    exact forall_mem_modify h.serial_lt fun q hq => hq

/-! ### Files -/

variable {awaited awaited' : Option (ProgramNumber × Nat)}

/-- The numbers and shelves of a cache follow its entries. A program may await its first block in
some shelf. -/
structure Filed (c : Cache) (awaited : Option (ProgramNumber × Nat)) : Prop where
  numbered : c.Numbered
  serves : ∀ i, ∀ s : Shelf, c.shelves[i]? = some s → s.Serves i c.blockOf? awaited

theorem Filed.create (memLength : Nat) : (Cache.create memLength).Filed none := by
  refine ⟨.empty rfl rfl, fun i s hs => ?_⟩
  obtain ⟨-, rfl⟩ := Array.mem_replicate.mp (Array.mem_of_getElem? hs)
  exact .empty fun program offset => rfl

theorem Filed.forgetAll (c : Cache) : c.forgetAll.Filed none := by
  refine ⟨.empty rfl rfl, fun i s hs => ?_⟩
  obtain ⟨t, -, rfl⟩ := Array.mem_map.mp (Array.mem_of_getElem? hs)
  exact .empty fun program offset => rfl

theorem Filed.dropShortcuts (h : c.Filed awaited) : c.dropShortcuts.Filed awaited := by
  refine ⟨h.numbered.congr rfl rfl rfl, fun i s hs => ?_⟩
  rw [Cache.dropShortcuts, Array.getElem?_map, Option.map_eq_some_iff] at hs
  obtain ⟨t, ht, rfl⟩ := hs
  exact (h.serves i t ht).dropShortcut

/-- The shelves of a cache serve again if one of them is changed as it should be, and the others
could stay as they were. -/
private theorem serves_modify {blockOf? blockOf?' : ProgramNumber → Nat → Option BlockNumber}
    {k : Nat} {f : Shelf → Shelf}
    (h : ∀ i, ∀ s : Shelf, c.shelves[i]? = some s → s.Serves i blockOf? awaited)
    (hchanged : ∀ s : Shelf, s.Serves k blockOf? awaited → (f s).Serves k blockOf?' awaited')
    (hothers : ∀ i, ∀ s : Shelf, k ≠ i → s.Serves i blockOf? awaited →
      s.Serves i blockOf?' awaited') :
    ∀ i, ∀ s : Shelf, (c.shelves.modify k f)[i]? = some s → s.Serves i blockOf?' awaited' := by
  intro i s hs
  rw [Array.getElem?_modify] at hs
  split at hs
  · case isTrue heq =>
    subst heq
    obtain ⟨t, ht, rfl⟩ := Option.map_eq_some_iff.mp hs
    exact hchanged t (h k t ht)
  · case isFalse hne => exact hothers i s hne (h i s hs)

theorem Filed.setShortcut {id : BlockNumber} (h : c.Filed none)
    (hentry : c.blockOf? program offset = some id)
    (hset : c.setShortcut offset program id = some c') : c'.Filed none := by
  obtain ⟨-, rfl⟩ := modifyShelf_eq_some hset
  refine ⟨h.numbered.congr rfl rfl rfl, ?_⟩
  exact serves_modify h.serves (fun s hs => hs.setShortcut rfl hentry) fun i s _ hs => hs

/-- A program that a lookup found is in the shelf already. -/
theorem Filed.touch {m : Memory} {digest? : Option UInt64} {l : Lookup} (h : c.Filed none)
    (hlookup : c.lookup offset m digest? = some l) (hfound : l.found = some program)
    (htouch : c.touch offset program = some c') : c'.Filed none := by
  obtain ⟨s, hs, hmem, -⟩ := lookup_found hlookup hfound
  obtain ⟨-, rfl⟩ := modifyShelf_eq_some htouch
  refine ⟨h.numbered.congr rfl rfl rfl, fun i t ht => ?_⟩
  rw [Array.getElem?_modify] at ht
  split at ht
  · case isTrue heq =>
    subst heq
    rw [shelf?] at hs
    rw [hs] at ht
    obtain rfl := Option.some.inj ht
    exact (h.serves _ s hs).touch hmem
  · exact h.serves i t ht

theorem Filed.addProgram {basis : Program.Basis} (h : c.Filed none)
    (hadd : c.addProgram offset basis = some (program, c')) :
    c'.Filed (some (program, offset / Shelf.span)) := by
  obtain ⟨-, rfl, rfl⟩ := addProgram_eq_some hadd
  refine ⟨h.numbered.addProgram basis rfl rfl rfl, ?_⟩
  rw [blockOf?_addProgram (c := c) rfl]
  refine serves_modify h.serves (fun s hs => hs.push fun offset' => ?_) fun i s hne hs =>
    hs.await hne _
  rw [blockOf?, program?, Array.getElem?_eq_none (Nat.le_refl _), Option.bind_none]

/-- A block ends the waiting of its program. -/
theorem Filed.addBlock {b : Block} {m : Memory} {id : BlockNumber} (h : c.Filed awaited)
    (hq : c.program? program = some q) (hnone : q.block? offset = none) (hstart : b.start = offset)
    (hadd : c.addBlock program offset b m = some (id, c'))
    (hawaited : awaited = none ∨ awaited = some (program, offset / Shelf.span)) :
    c'.Filed none ∧ c'.blockOf? program offset = some id := by
  obtain ⟨-, -, rfl, rfl⟩ := addBlock_eq_some hadd
  have hnone' : c.blockOf? program offset = none := (blockOf?_eq hq offset).trans hnone
  have hentry : ∀ c' : Cache, c'.programs = c.programs.modify program.value
        (fun q => q.addBlock offset ⟨c.blocks.size⟩ b.ranges m) → ∀ other offset',
      c'.blockOf? other offset' = if other = program ∧ offset = offset' then
        some ⟨c.blocks.size⟩ else c.blockOf? other offset' :=
    fun _ h => blockOf?_addBlock hq h
  refine ⟨⟨h.numbered.addBlock hq hnone hstart rfl rfl rfl, ?_⟩, ?_⟩
  · refine serves_modify h.serves (fun s hs => ?_) fun i s hne hs => ?_
    · exact .enlist (hentry _ rfl) hnone' hs hawaited
    · exact .pass (hentry _ rfl) hnone' hs hawaited hne
  · rw [hentry _ rfl, if_pos ⟨rfl, rfl⟩]

/-- A program that has a block in the shelf does not await one there. -/
theorem Filed.settle {id : BlockNumber} (h : c.Filed awaited)
    (hentry : c.blockOf? program offset = some id)
    (hawaited : awaited = none ∨ awaited = some (program, offset / Shelf.span)) :
    c.Filed none := by
  refine ⟨h.numbered, fun i s hs => (h.serves i s hs).settle fun other j hother => ?_⟩
  rcases hawaited with rfl | rfl
  · cases hother
  · obtain ⟨rfl, rfl⟩ := Prod.mk.inj (Option.some.inj hother)
    exact ⟨offset, rfl, by rw [hentry]; rfl⟩

end Cache

end VectorUnit
