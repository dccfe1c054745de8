import Mathlib.Logic.ExistsUnique
import VectorUnit.Proofs.Entries

/-!
# Caches are consistent

The lists, shortcuts and numbers of a cache fit together (`Cache.Consistent`) in every unit,
whatever was done to it before, and serial numbers go on and are never given again
(`Cache.Precedes`): see `Processor.consistent_of_uses`. That holds also where stored programs are
asked for blocks which have nothing to do with the microcode that they were created from.

Each step of a unit keeps its cache filed (`Processor.InFile.step`), and only adds to the cache or
forgets all of it (`Processor.precedes_step`).
-/

namespace VectorUnit

/-! ### Programs and caches as they grow -/

/-- A program later on: it has all the blocks that it had, and perhaps more. What it was created
from stays, so only what was compiled since can keep it from matching. -/
structure Program.GrowsInto (q q' : Program) : Prop where
  serial_eq : q'.serial = q.serial
  basis_eq : q'.basis = q.basis
  excerpts : q.excerpts <+: q'.excerpts
  blocks : ∀ offset id, q.block? offset = some id → q'.block? offset = some id

namespace Program.GrowsInto

theorem refl (q : Program) : q.GrowsInto q :=
  ⟨rfl, rfl, List.prefix_refl _, fun _ _ h => h⟩

theorem trans {q q' q'' : Program} (h : q.GrowsInto q') (h' : q'.GrowsInto q'') :
    q.GrowsInto q'' :=
  ⟨h'.serial_eq.trans h.serial_eq, h'.basis_eq.trans h.basis_eq, h.excerpts.trans h'.excerpts,
    fun offset id hid => h'.blocks offset id (h.blocks offset id hid)⟩

theorem addBlock {q : Program} {entry : Nat} (hnone : q.block? entry = none) (id : BlockNumber)
    (rs : List Range) (m : Memory) : q.GrowsInto (q.addBlock entry id rs m) :=
  ⟨rfl, rfl, List.prefix_append _ _,
    fun _ _ h => q.block?_addBlock_of_some id rs m hnone h⟩

end Program.GrowsInto

namespace Cache

/-- A cache later on: serial numbers have not gone back, and a program whose serial number had been
given before is the one that it had been given to. -/
structure Precedes (c c' : Cache) : Prop where
  nextSerial_le : c.nextSerial ≤ c'.nextSerial
  known : ∀ id q', c'.program? id = some q' → q'.serial < c.nextSerial →
    ∃ q, c.program? id = some q ∧ q.GrowsInto q'

variable {c c' c'' : Cache} {offset : Nat} {program : ProgramNumber}

namespace Precedes

theorem of_eq (hprograms : c'.programs = c.programs) (hnext : c'.nextSerial = c.nextSerial) :
    c.Precedes c' := by
  refine ⟨Nat.le_of_eq hnext.symm, fun id q' hq' _ => ⟨q', ?_, .refl q'⟩⟩
  rwa [program?, ← hprograms]

theorem trans (h : c.Precedes c') (h' : c'.Precedes c'') : c.Precedes c'' := by
  refine ⟨Nat.le_trans h.nextSerial_le h'.nextSerial_le, fun id q'' hq'' hlt => ?_⟩
  obtain ⟨q', hq', hgrows'⟩ := h'.known id q'' hq'' (Nat.lt_of_lt_of_le hlt h.nextSerial_le)
  obtain ⟨q, hq, hgrows⟩ := h.known id q' hq' (hgrows'.serial_eq ▸ hlt)
  exact ⟨q, hq, hgrows.trans hgrows'⟩

/-- No program is left that could have got a serial number twice. -/
theorem forgetAll (c : Cache) : c.Precedes c.forgetAll :=
  ⟨Nat.le_refl _, fun id q' hq' _ => by cases hq'⟩

theorem modifyShelf {f : Shelf → Shelf} (h : c.modifyShelf offset f = some c') : c.Precedes c' := by
  obtain ⟨-, rfl⟩ := modifyShelf_eq_some h
  exact .of_eq rfl rfl

theorem addProgram {basis : Program.Basis} (h : c.addProgram offset basis = some (program, c')) :
    c.Precedes c' := by
  obtain ⟨-, rfl, rfl⟩ := addProgram_eq_some h
  refine ⟨Nat.le_succ _, fun id q' hq' hlt => ?_⟩
  rw [program?, Array.getElem?_push] at hq'
  split at hq'
  · -- the new program has the serial number that was due, which had not been given
    obtain rfl := Option.some.inj hq'
    exact absurd hlt (Nat.lt_irrefl _)
  · exact ⟨q', hq', .refl q'⟩

theorem addBlock {q : Program} {b : Block} {m : Memory} {id : BlockNumber}
    (hq : c.program? program = some q) (hnone : q.block? offset = none)
    (h : c.addBlock program offset b m = some (id, c')) : c.Precedes c' := by
  obtain ⟨-, -, rfl, rfl⟩ := addBlock_eq_some h
  refine ⟨Nat.le_refl _, fun id' q' hq' _ => ?_⟩
  rw [program?, Array.getElem?_modify] at hq'
  split at hq'
  · case isTrue heq =>
    rw [program?, heq] at hq
    rw [hq] at hq'
    obtain rfl := Option.some.inj hq'
    exact ⟨q, hq, .addBlock hnone _ _ _⟩
  · exact ⟨q', hq', .refl q'⟩

end Precedes

/-! ### Consistent caches -/

/-- The lists, shortcuts and numbers of a cache fit together, so that whatever is looked up under
one of them is found under the others. This is what a unit shows of its cache after any operation.
-/
structure Consistent (c : Cache) : Prop where
  /-- Shelves list stored programs, and each of them once. -/
  listed : ∀ s ∈ c.shelves, s.programs.Nodup ∧ ∀ id ∈ s.programs, id.value < c.programs.size
  /-- A shelf lists the programs with a block that starts there. -/
  mem_iff : ∀ i, ∀ s : Shelf, c.shelves[i]? = some s → ∀ id, id ∈ s.programs ↔
    ∃ offset, offset / Shelf.span = i ∧ (c.blockOf? id offset).isSome
  /-- A shortcut leads to a listed program and to its block at some offset of the shelf. -/
  shortcut : ∀ i, ∀ s : Shelf, c.shelves[i]? = some s → ∀ program id,
    s.shortcut = some (program, id) → program ∈ s.programs ∧
      ∃ offset, offset / Shelf.span = i ∧ c.blockOf? program offset = some id
  /-- Each stored block belongs to one program and one offset, and no others belong to any. -/
  stored_iff : ∀ id : BlockNumber, id.value < c.blocks.size ↔
    ∃! e : ProgramNumber × Nat, c.blockOf? e.1 e.2 = some id
  /-- A block is entered where it starts. -/
  entered : ∀ program offset id, c.blockOf? program offset = some id →
    ∃ b, c.block? id = some b ∧ b.start = offset
  /-- A program remembers the ranges of its blocks, in the order in which they were compiled. -/
  ranges_eq : ∀ q ∈ c.programs, q.ranges = (c.blocksOf q).flatMap Block.ranges
  /-- Serial numbers ascend in the order of creation. -/
  serials : (c.programs.toList.map Program.serial).Pairwise (· < ·)
  serial_lt : ∀ q ∈ c.programs, q.serial < c.nextSerial

theorem lt_size_of_blockOf? {id : BlockNumber} (h : c.blockOf? program offset = some id) :
    program.value < c.programs.size := by
  obtain ⟨q, hq, -⟩ := exists_program_of_blockOf? h
  exact (Array.getElem?_eq_some_iff.mp hq).1

/-- A cache is consistent once no program awaits its first block. -/
theorem Filed.consistent (h : c.Filed none) : c.Consistent := by
  -- with no program waiting, a shelf lists those that have an entry in it
  have hmem : ∀ i, ∀ s : Shelf, c.shelves[i]? = some s → ∀ id, id ∈ s.programs ↔
      ∃ offset, offset / Shelf.span = i ∧ (c.blockOf? id offset).isSome := by
    intro i s hs id
    rw [(h.serves i s hs).mem_iff]
    simp [Shelf.StartsIn]
  refine
    { listed := ?_
      mem_iff := hmem
      shortcut := ?_
      stored_iff := ?_
      entered := h.numbered.entered
      ranges_eq := h.numbered.ranges_eq
      serials := h.numbered.serials
      serial_lt := h.numbered.serial_lt }
  · intro s hs
    obtain ⟨i, hi⟩ := Array.mem_iff_getElem?.mp hs
    refine ⟨(h.serves i s hi).nodup, fun id hid => ?_⟩
    obtain ⟨offset, -, hsome⟩ := (hmem i s hi id).mp hid
    obtain ⟨block, hblock⟩ := Option.isSome_iff_exists.mp hsome
    exact lt_size_of_blockOf? hblock
  · intro i s hi program id hid
    obtain ⟨offset, hoffset, hblock⟩ := (h.serves i s hi).shortcut program id hid
    have hmember := (hmem i s hi program).mpr ⟨offset, hoffset, by rw [hblock]; rfl⟩
    exact ⟨hmember, offset, hoffset, hblock⟩
  · intro id
    constructor
    · intro hid
      obtain ⟨e, he⟩ := h.numbered.surjective id hid
      exact ⟨e, he, fun e' he' => h.numbered.injective e' e id he' he⟩
    · rintro ⟨e, he, -⟩
      exact h.numbered.id_lt he

end Cache

/-! ### Units -/

namespace Processor

variable {p p' : Processor} {offset : Nat} {program : ProgramNumber}
  {Allows : Processor → ProgramNumber → Prop}

/-! #### Lookups -/

/-- Asking a program for a block gives its entry, and ends the waiting of the program. -/
theorem filed_blockAt {awaited : Option (ProgramNumber × Nat)} {id : BlockNumber}
    (hblock : p.blockAt program offset = .ok (id, p')) (hp : p.cache.Filed awaited)
    (h : p.microcode.HasPair offset)
    (hawaited : awaited = none ∨ awaited = some (program, offset / Shelf.span)) :
    p'.cache.Filed none ∧ p'.cache.blockOf? program offset = some id := by
  obtain ⟨q, hq, ⟨hid, rfl⟩ | ⟨hnone, b, p₁, cache, hcompile, hadd, rfl⟩⟩ := blockAt_eq_ok hblock
  · have hentry := (Cache.blockOf?_eq hq offset).trans hid
    exact ⟨hp.settle hentry hawaited, hentry⟩
  · obtain ⟨s, r, hs, hany, rfl⟩ := compileAt_eq_ok hcompile
    have hstart : b.start = offset :=
      (Recompiler.renders_of_compileAny hany).start_eq.trans (Sequence.start_ofMemory? h hs)
    exact hp.addBlock hq hnone hstart hadd hawaited

theorem filed_enterProgram {awaited : Option (ProgramNumber × Nat)} {hit : Hit}
    (henter : p.enterProgram program offset = .ok (hit, p')) (hp : p.cache.Filed awaited)
    (h : p.microcode.HasPair offset)
    (hawaited : awaited = none ∨ awaited = some (program, offset / Shelf.span)) :
    p'.cache.Filed none ∧ program.value < p'.cache.programs.size := by
  obtain ⟨p₁, cache, hblock, hcache, -, -, rfl⟩ := enterProgram_eq_ok henter
  obtain ⟨hfiled, hentry⟩ := filed_blockAt hblock hp h hawaited
  refine ⟨hfiled.setShortcut hentry hcache, ?_⟩
  obtain ⟨-, rfl⟩ := Cache.modifyShelf_eq_some hcache
  exact Cache.lt_size_of_blockOf? hentry

/-- Comparing programs leaves at most the one that it gives without a block. -/
theorem filed_matchPrograms (hp : p.cache.Filed none)
    (hmatch : p.matchPrograms offset = .ok (program, p')) :
    ∃ awaited, p'.cache.Filed awaited ∧
      (awaited = none ∨ awaited = some (program, offset / Shelf.span)) := by
  obtain ⟨l, hl, ⟨hfound, cache, hcache, rfl⟩ | ⟨-, cache, hcache, rfl⟩⟩ :=
    matchPrograms_eq_ok hmatch
  · exact ⟨none, hp.touch hl hfound hcache, .inl rfl⟩
  · exact ⟨_, hp.addProgram hcache, .inr rfl⟩

/-- The program of a block that was found is stored, and it is the one found last. -/
theorem filed_findBlockAt {hit : Hit} (hp : p.cache.Filed none) (h : p.microcode.HasPair offset)
    (hfind : p.findBlockAt offset = .ok (hit, p')) :
    p'.cache.Filed none ∧ ∀ id, p'.recent = some id → id.value < p'.cache.programs.size := by
  obtain ⟨shelf, -, ⟨program, id, -, henter⟩ | ⟨-, program, p₁, hmatch, henter⟩⟩ :=
    findBlockAt_eq_ok hfind
  · obtain ⟨hfiled, hlt⟩ := filed_enterProgram henter hp h (.inl rfl)
    obtain ⟨-, hrecent, -⟩ := enterProgram_fresh henter
    exact ⟨hfiled, fun id hid => Option.some.inj (hrecent.symm.trans hid) ▸ hlt⟩
  · obtain ⟨awaited, hfiled₁, hawaited⟩ := filed_matchPrograms hp hmatch
    obtain ⟨hmicrocode, -⟩ := matchPrograms_keeps hmatch
    obtain ⟨hfiled, hlt⟩ := filed_enterProgram henter hfiled₁ (hmicrocode ▸ h) hawaited
    obtain ⟨-, hrecent, -⟩ := enterProgram_fresh henter
    exact ⟨hfiled, fun id hid => Option.some.inj (hrecent.symm.trans hid) ▸ hlt⟩

theorem precedes_blockAt {id : BlockNumber} (hblock : p.blockAt program offset = .ok (id, p')) :
    p.cache.Precedes p'.cache ∧ p'.cache.programs.size = p.cache.programs.size ∧
      p'.recent = p.recent := by
  obtain ⟨q, hq, ⟨hid, rfl⟩ | ⟨hnone, b, p₁, cache, hcompile, hadd, rfl⟩⟩ := blockAt_eq_ok hblock
  · exact ⟨.of_eq rfl rfl, rfl, rfl⟩
  · obtain ⟨s, r, -, -, rfl⟩ := compileAt_eq_ok hcompile
    refine ⟨.addBlock hq hnone hadd, ?_, rfl⟩
    obtain ⟨-, -, -, rfl⟩ := Cache.addBlock_eq_some hadd
    exact Array.size_modify ..

theorem precedes_enterProgram {hit : Hit} (henter : p.enterProgram program offset = .ok (hit, p')) :
    p.cache.Precedes p'.cache := by
  obtain ⟨p₁, cache, hblock, hcache, -, -, rfl⟩ := enterProgram_eq_ok henter
  exact (precedes_blockAt hblock).1.trans (.modifyShelf hcache)

theorem precedes_findBlockAt {hit : Hit} (hfind : p.findBlockAt offset = .ok (hit, p')) :
    p.cache.Precedes p'.cache := by
  obtain ⟨shelf, -, ⟨program, id, -, henter⟩ | ⟨-, program, p₁, hmatch, henter⟩⟩ :=
    findBlockAt_eq_ok hfind
  · have hprecedes := precedes_enterProgram henter
    exact hprecedes
  · have hprecedes : p.cache.Precedes p₁.cache := by
      obtain ⟨l, -, ⟨-, cache, hcache, rfl⟩ | ⟨-, cache, hcache, rfl⟩⟩ :=
        matchPrograms_eq_ok hmatch
      · exact .modifyShelf hcache
      · exact .addProgram hcache
    exact hprecedes.trans (precedes_enterProgram henter)

/-! #### Steps -/

/-- The cache of a unit is filed, and the program found last is stored. While an operation is under
way a shelf may wait for the block of a new program, but never between operations. -/
structure InFile (p : Processor) : Prop where
  filed : p.cache.Filed none
  recent : ∀ id, p.recent = some id → id.value < p.cache.programs.size

theorem InFile.forget (p : Processor) : p.forget.InFile :=
  ⟨.forgetAll _, fun id hid => by cases hid⟩

/-- The cache and the program found last are all that matters. -/
theorem InFile.congr (hp : p.InFile) (hcache : p'.cache = p.cache)
    (hrecent : p'.recent = p.recent) : p'.InFile := by
  refine ⟨hcache ▸ hp.filed, ?_⟩
  rw [hcache, hrecent]
  exact hp.recent

/-- **Step.** Every step keeps a cache filed. Lookups are the only steps that touch lists and
numbers; all others drop shortcuts or forget everything. -/
theorem InFile.step (hp : p.InFile) (h : Step Allows p p') : p'.InFile := by
  rcases step_cases h with hsame | hsame | ⟨m, -, rfl⟩ | ⟨offset, hit, h, hfind⟩ |
    ⟨program, offset, hit, -, -, h, henter⟩ | ⟨program, offset, id, h, hfetch⟩
  · exact hp.congr hsame.cache_eq hsame.recent_eq
  · exact (InFile.forget p).congr hsame.cache_eq hsame.recent_eq
  · rw [markStale]
    split
    · exact hp.congr rfl rfl
    · exact ⟨hp.filed.dropShortcuts, hp.recent⟩
  · obtain ⟨hfiled, hrecent⟩ := filed_findBlockAt hp.filed h hfind
    exact ⟨hfiled, hrecent⟩
  · obtain ⟨hfiled, hlt⟩ := filed_enterProgram henter hp.filed h (.inl rfl)
    obtain ⟨-, hrecent, -⟩ := enterProgram_fresh henter
    exact ⟨hfiled, fun id hid => Option.some.inj (hrecent.symm.trans hid) ▸ hlt⟩
  · obtain ⟨hfiled, -⟩ := filed_blockAt hfetch hp.filed h (.inl rfl)
    obtain ⟨-, hsize, hrecent⟩ := precedes_blockAt hfetch
    refine ⟨hfiled, ?_⟩
    rw [hsize, hrecent]
    exact hp.recent

theorem InFile.steps (hp : p.InFile) (h : Steps Allows p p') : p'.InFile := by
  induction h with
  | refl => exact hp
  | tail _ hstep ih => exact ih.step hstep

/-- **Step.** Every step adds to a cache or forgets all of it. Programs and blocks are never taken
away one by one, so a number means the same thing until all are forgotten. -/
theorem precedes_step (h : Step Allows p p') : p.cache.Precedes p'.cache := by
  rcases step_cases h with hsame | hsame | ⟨m, -, rfl⟩ | ⟨offset, hit, -, hfind⟩ |
    ⟨program, offset, hit, -, -, -, henter⟩ | ⟨program, offset, id, -, hfetch⟩
  · rw [hsame.cache_eq]
    exact .of_eq rfl rfl
  · rw [hsame.cache_eq]
    exact .forgetAll _
  · rw [markStale]
    split
    · exact .of_eq rfl rfl
    · exact .of_eq rfl rfl
  · exact precedes_findBlockAt hfind
  · exact precedes_enterProgram henter
  · exact (precedes_blockAt hfetch).1

theorem precedes_steps (h : Steps Allows p p') : p.cache.Precedes p'.cache := by
  induction h with
  | refl => exact .of_eq rfl rfl
  | tail _ hstep ih => exact ih.trans (precedes_step hstep)

theorem inFile_create {host : Host} {config : Config} (h : create host config = .ok p) :
    p.InFile := by
  obtain ⟨recompiler, -, h⟩ := exists_of_bind_eq_ok h
  obtain rfl := Except.ok.inj h
  exact ⟨.create _, fun id hid => by cases hid⟩

/-- **Consistency.** Whatever is done to a new unit, its cache is consistent, and the program found
last is stored. What is done to the unit after that gives no serial number again. -/
theorem consistent_of_uses {host : Host} {config : Config} (hcreate : create host config = .ok p)
    (h : Uses anyProgram p p') :
    p'.cache.Consistent ∧ (∀ id, p'.recent = some id → id.value < p'.cache.programs.size) ∧
      ∀ p'', Uses anyProgram p' p'' → p'.cache.Precedes p''.cache := by
  have hstocked := stocked_create hcreate
  obtain ⟨hstocked', hfile⟩ := hstocked.uses_induction (inFile_create hcreate)
    (fun q q' _ hq hstep => hq.step hstep) h
  refine ⟨hfile.filed.consistent, hfile.recent, fun p'' h' => ?_⟩
  exact precedes_steps (hstocked'.steps_of_uses h')

theorem consistent_of_strayBlock : ∃ p p',
    create .compact { Config.standard with maxBlockLength := 1 } = .ok p ∧
      Uses anyProgram p p' ∧ p'.cache.programs.size = 1 ∧ p'.cache.blocks.size = 2 ∧
      p'.cache.Consistent ∧ p'.cache.Precedes (p'.reset true).cache := by
  obtain ⟨p, hnew, hok⟩ : ∃ p,
      create .compact { Config.standard with maxBlockLength := 1 } = .ok p ∧
        p.strayBlock.toOption.any (fun p' =>
          p'.cache.programs.size = 1 && p'.cache.blocks.size = 2) = true :=
    ⟨_, rfl, by decide +kernel⟩
  obtain ⟨p', hstray, hok⟩ := exists_ok_of_any hok
  rw [Bool.and_eq_true, decide_eq_true_iff, decide_eq_true_iff] at hok
  have huses := (stocked_create hnew).uses_strayBlock hstray
  obtain ⟨hconsistent, -, hprecedes⟩ := consistent_of_uses hnew huses
  have hreset : Uses anyProgram p' (p'.reset true) :=
    .single (.perform (show p'.perform (.reset true) = .ok (.done, _) from rfl))
  exact ⟨p, p', hnew, huses, hok.1, hok.2, hconsistent, hprecedes _ hreset⟩

end Processor

end VectorUnit
