import Mathlib.Logic.Relation
import VectorUnit.Proofs.Transparency

/-!
# Vector units step by step

Whatever is done to a unit comes down to a few kinds of steps (`Processor.Step`): microcode or
registers are replaced, programs are forgotten, a block is found by a lookup or taken from the
program of the block before, a block runs. A run is a sequence of such steps, and so is every other
operation (`Processor.steps_perform`), so what all steps keep is true of a unit whatever was done to
it. Asking a stored program for a block at an offset, whether or not that program has anything to do
with what is in memory, is a step of its own.

A unit is stocked (`Processor.Stocked`) if everything it stores was made by it: each block was
compiled from some memory of the unit's size, and each program remembers memories of that size in
the way the unit compares them. That is enough for a run to stay inside memory, even where blocks
are not those of live memory. All steps keep a unit stocked (`Processor.Stocked.step`).

The lemmas named `..._eq_ok` say all that an operation may have done where it has a result, and
`Processor.step_cases` says what a step may have done to what is stored.
-/

namespace VectorUnit

/-! ### Blocks and programs that are stored -/

/-- A block was compiled from a memory of `memLength` bytes, be it live memory or what memory once
was. It starts at the offset of a pair, and leaves to one. -/
def Block.Fits (b : Block) (memLength maxLength : Nat) : Prop :=
  ∃ m s, m.size = memLength ∧ m.HasPair b.start ∧
    Sequence.ofMemory? m b.start maxLength = some s ∧ b.Renders s

/-- A block that was compiled from one memory leaves to the offset of a pair of every memory that is
as long. -/
theorem Block.Fits.hasPair_run {b : Block} {memLength maxLength : Nat}
    (h : b.Fits memLength maxLength) (hle : memLength ≤ 512 * 1024) {m : Memory}
    (hsize : m.size = memLength) (regs : Registers) : m.HasPair (b.run regs).pc.toNat := by
  obtain ⟨m₀, s, hsize₀, hpair, hs, hb⟩ := h
  have hlength : s.memLength = m₀.size := ((Sequence.ofMemory?_eq_some_iff hpair).mp hs).1
  have hrun : b.run regs = s.interpret regs := by
    rw [Block.run, hb.code_eq]
    exact s.run_toCode (show s.memLength ≤ 512 * 1024 by omega) regs
  rw [hrun]
  have hexit := Sequence.hasPair_interpret hpair hs (by omega) regs
  exact hexit.congr (hsize.trans hsize₀.symm)

/-- The first pair of a sequence is the one at which the scan begins. -/
theorem Sequence.start_ofMemory? {m : Memory} {offset maxLength : Nat} {s : Sequence}
    (h : m.HasPair offset) (hs : ofMemory? m offset maxLength = some s) : s.start = offset := by
  have hscans := ((ofMemory?_eq_some_iff h).mp hs).2
  have hhead : ∀ {room es t}, Scans m offset room es t → ∃ rest,
      es = entryAt m offset :: rest := by
    intro room es t hscans
    cases hscans with
    | closes => exact ⟨_, rfl⟩
    | full => exact ⟨_, rfl⟩
    | passes => exact ⟨_, rfl⟩
  obtain ⟨rest, hentries⟩ := hhead hscans
  simp only [start, first, hentries, List.head_cons, entryAt]

/-- A program remembers memories in the way that a unit with this configuration compares them, by
excerpts or by an image with its digest. All excerpts lie within memory. -/
structure Program.Suits (q : Program) (host : Host) (config : Config) : Prop where
  basis : match config.matchMode with
    | .byExcerpts => q.basis = .excerpts
    | .byImage => ∃ image, q.basis = .image image (host.digest image)
  excerpts : ∀ e ∈ q.excerpts, ∃ m r, m.size = config.kind.memorySize ∧
    Range.Within r config.kind.memorySize ∧ e = Excerpt.ofMemory m r

/-- A program that is given a block of live memory goes on to suit the unit. -/
theorem Program.Suits.addBlock {q : Program} {host : Host} {config : Config}
    (hq : q.Suits host config) {m : Memory} {offset maxLength : Nat} {s : Sequence}
    (hsize : m.size = config.kind.memorySize) (h : m.HasPair offset)
    (hs : Sequence.ofMemory? m offset maxLength = some s) (entry : Nat) (id : BlockNumber) :
    (q.addBlock entry id s.ranges m).Suits host config := by
  refine ⟨hq.basis, fun e he => ?_⟩
  rcases List.mem_append.mp he with he | he
  · exact hq.excerpts e he
  · obtain ⟨r, hr, rfl⟩ := List.mem_map.mp he
    exact ⟨m, r, hsize, hsize ▸ Sequence.within_ranges h hs r hr, rfl⟩

/-! ### Lookups -/

theorem Fault.inRange_eq_ok {α : Type} {o : Option α} {a : α} (h : inRange o = .ok a) :
    o = some a := by
  cases o with
  | none => cases h
  | some a' => exact congrArg some (Except.ok.inj h)

namespace Processor

variable {p p' : Processor} {offset : Nat} {program : ProgramNumber}

theorem compileAt_eq_ok {b : Block} (h : p.compileAt offset = .ok (b, p')) :
    ∃ s r, Sequence.ofMemory? p.microcode offset p.config.maxBlockLength = some s ∧
      p.recompiler.compileAny p.host s = .ok (b, r) ∧
      p' = { p with
        recompiler := r
        counters := { p.counters with
          compilations := p.counters.compilations + 1
          tolerated := p.counters.tolerated + if p.recompiler.refuses s then 1 else 0 } } := by
  rw [compileAt_eq] at h
  obtain ⟨s, hs, h⟩ := exists_of_bind_eq_ok h
  obtain ⟨r, hany, -, -, hp'⟩ := compileSequence_eq_ok h
  exact ⟨s, r, Fault.inRange_eq_ok hs, hany, hp'⟩

/-- A program has the block already, or it is compiled from live memory and stored. -/
theorem blockAt_eq_ok {id : BlockNumber} (h : p.blockAt program offset = .ok (id, p')) :
    ∃ q, p.cache.program? program = some q ∧
      ((q.block? offset = some id ∧ p' = p) ∨
        (q.block? offset = none ∧ ∃ b p₁ cache, p.compileAt offset = .ok (b, p₁) ∧
          p.cache.addBlock program offset b p.microcode = some (id, cache) ∧
          p' = { p₁ with cache := cache })) := by
  obtain ⟨q, hq, h⟩ := exists_of_bind_eq_ok h
  refine ⟨q, Fault.inRange_eq_ok hq, ?_⟩
  cases hblock : q.block? offset with
  | some id' =>
    rw [hblock] at h
    obtain ⟨rfl, rfl⟩ := Prod.mk.inj (Except.ok.inj h)
    exact .inl ⟨rfl, rfl⟩
  | none =>
    rw [hblock] at h
    obtain ⟨⟨b, p₁⟩, hcompile, h⟩ := exists_of_bind_eq_ok h
    obtain ⟨⟨id', cache⟩, hadd, h⟩ := exists_of_bind_eq_ok h
    obtain ⟨rfl, rfl⟩ := Prod.mk.inj (Except.ok.inj h)
    obtain ⟨s, r, -, -, rfl⟩ := compileAt_eq_ok hcompile
    exact .inr ⟨rfl, b, _, cache, hcompile, Fault.inRange_eq_ok hadd, rfl⟩

theorem enterProgram_eq_ok {hit : Hit} (h : p.enterProgram program offset = .ok (hit, p')) :
    ∃ p₁ cache,
      { p with stale := false, recent := some program }.blockAt program offset = .ok (hit.id, p₁) ∧
        p₁.cache.setShortcut offset program hit.id = some cache ∧
        cache.block? hit.id = some hit.block ∧ hit.program = program ∧
        p' = { p₁ with cache := cache } := by
  obtain ⟨⟨id, p₁⟩, hblock, h⟩ := exists_of_bind_eq_ok h
  obtain ⟨cache, hcache, h⟩ := exists_of_bind_eq_ok h
  obtain ⟨b, hb, h⟩ := exists_of_bind_eq_ok h
  obtain ⟨rfl, rfl⟩ := Prod.mk.inj (Except.ok.inj h)
  exact ⟨p₁, cache, hblock, Fault.inRange_eq_ok hcache, Fault.inRange_eq_ok hb, rfl, rfl⟩

/-- Programs are compared until one matches, which is moved to the front; where none does, one is
created. -/
theorem matchPrograms_eq_ok (h : p.matchPrograms offset = .ok (program, p')) :
    ∃ l, p.cache.lookup offset p.microcode p.liveDigest? = some l ∧
      ((l.found = some program ∧ ∃ cache, p.cache.touch offset program = some cache ∧
          p' = { p with
            cache := cache
            tracking := { p.tracking with reliance := matchReliance p.config.matchMode }
            counters := { p.counters with
              lookups := p.counters.lookups + 1
              comparisons := p.counters.comparisons + l.comparisons } }) ∨
        (l.found = none ∧ ∃ cache, p.cache.addProgram offset p.liveBasis = some (program, cache) ∧
          p' = { p with
            cache := cache
            tracking := { p.tracking with reliance := .verified }
            counters := { p.counters with
              lookups := p.counters.lookups + 1
              comparisons := p.counters.comparisons + l.comparisons
              creations := p.counters.creations + 1 } })) := by
  obtain ⟨l, hl, h⟩ := exists_of_bind_eq_ok h
  refine ⟨l, Fault.inRange_eq_ok hl, ?_⟩
  cases hfound : l.found with
  | some found =>
    simp only [hfound] at h
    obtain ⟨cache, hcache, h⟩ := exists_of_bind_eq_ok h
    obtain ⟨rfl, rfl⟩ := Prod.mk.inj (Except.ok.inj h)
    exact .inl ⟨rfl, cache, Fault.inRange_eq_ok hcache, rfl⟩
  | none =>
    simp only [hfound] at h
    obtain ⟨⟨created, cache⟩, hcache, h⟩ := exists_of_bind_eq_ok h
    obtain ⟨rfl, rfl⟩ := Prod.mk.inj (Except.ok.inj h)
    exact .inr ⟨rfl, cache, Fault.inRange_eq_ok hcache, rfl⟩

/-- A lookup takes the shortcut, or else compares programs. -/
theorem findBlockAt_eq_ok {hit : Hit} (h : p.findBlockAt offset = .ok (hit, p')) :
    ∃ shelf, p.cache.shelf? offset = some shelf ∧
      ((∃ program id, shelf.shortcut = some (program, id) ∧
          { p with
            tracking := { p.tracking with reliance := .presumed }
            counters := { p.counters with
              shortcuts := p.counters.shortcuts + 1 } }.enterProgram program offset =
            .ok (hit, p')) ∨
        (shelf.shortcut = none ∧ ∃ program p₁, p.matchPrograms offset = .ok (program, p₁) ∧
          p₁.enterProgram program offset = .ok (hit, p'))) := by
  obtain ⟨shelf, hshelf, h⟩ := exists_of_bind_eq_ok h
  refine ⟨shelf, Fault.inRange_eq_ok hshelf, ?_⟩
  cases hshortcut : shelf.shortcut with
  | some shortcut =>
    rw [hshortcut] at h
    exact .inl ⟨shortcut.1, shortcut.2, rfl, h⟩
  | none =>
    rw [hshortcut] at h
    obtain ⟨⟨program, p₁⟩, hmatch, h⟩ := exists_of_bind_eq_ok h
    exact .inr ⟨rfl, program, p₁, hmatch, h⟩

/-! ### Stocked units -/

/-- All that a unit stores was made by it, and its memory and its shelves are as long as those of
its kind. This is true whatever programs are asked for blocks. -/
structure Stocked (p : Processor) : Prop where
  size_eq : p.microcode.size = p.config.kind.memorySize
  length_eq : p.config.kind.memorySize = Shelf.span * p.cache.shelves.size
  blocks : ∀ b ∈ p.cache.blocks, b.Fits p.config.kind.memorySize p.config.maxBlockLength
  programs : ∀ q ∈ p.cache.programs, q.Suits p.host p.config

/-- Registers, recompiler, branch tracking, counters and what was found last make no difference. -/
theorem Stocked.congr (hp : p.Stocked) (hhost : p'.host = p.host) (hconfig : p'.config = p.config)
    (hmicrocode : p'.microcode = p.microcode) (hcache : p'.cache = p.cache) : p'.Stocked := by
  obtain ⟨hsize, hlength, hblocks, hprograms⟩ := hp
  constructor
  · rw [hmicrocode, hconfig, hsize]
  · rw [hconfig, hcache, hlength]
  · rw [hconfig, hcache]
    exact hblocks
  · rw [hhost, hconfig, hcache]
    exact hprograms

/-- The programs and blocks of a cache are all that matters about it. -/
theorem Stocked.withShelves (hp : p.Stocked) {shelves : Array Shelf}
    (hshelves : shelves.size = p.cache.shelves.size) :
    Stocked { p with cache := { p.cache with shelves := shelves } } :=
  { size_eq := hp.size_eq
    length_eq := hp.length_eq.trans (congrArg _ hshelves.symm)
    blocks := hp.blocks
    programs := hp.programs }

/-- What a unit remembers of live memory suits it. -/
theorem suits_create_liveBasis (p : Processor) (serial : Nat) :
    (Program.create serial p.liveBasis).Suits p.host p.config := by
  refine ⟨?_, fun e he => by cases he⟩
  simp only [Program.create, liveBasis]
  cases p.config.matchMode with
  | byExcerpts => rfl
  | byImage => exact ⟨_, rfl⟩

/-! #### Lookups keep a unit stocked -/

theorem Stocked.blockAt {id : BlockNumber} (hp : p.Stocked) (h : p.microcode.HasPair offset)
    (hblock : p.blockAt program offset = .ok (id, p')) : p'.Stocked := by
  obtain ⟨q, -, ⟨-, rfl⟩ | ⟨-, b, p₁, cache, hcompile, hadd, rfl⟩⟩ := blockAt_eq_ok hblock
  · exact hp
  · obtain ⟨s, r, hs, hany, rfl⟩ := compileAt_eq_ok hcompile
    obtain ⟨-, -, -, rfl⟩ := Cache.addBlock_eq_some hadd
    have hrenders := Recompiler.renders_of_compileAny hany
    have hstart : b.start = offset := hrenders.start_eq.trans (Sequence.start_ofMemory? h hs)
    refine ⟨hp.size_eq, ?_, fun b' hb' => ?_, ?_⟩
    · simpa using hp.length_eq
    · rcases Array.mem_push.mp hb' with hb' | rfl
      · exact hp.blocks b' hb'
      · exact ⟨p.microcode, s, hp.size_eq, hstart ▸ h, hstart ▸ hs, hrenders⟩
    · rw [hrenders.ranges_eq]
      exact Cache.forall_mem_modify hp.programs fun q hq => hq.addBlock hp.size_eq h hs _ _

/-- The block found is stored, and the unit knows what is in memory. -/
theorem Stocked.enterProgram {hit : Hit} (hp : p.Stocked) (h : p.microcode.HasPair offset)
    (henter : p.enterProgram program offset = .ok (hit, p')) :
    p'.Stocked ∧ hit.block ∈ p'.cache.blocks := by
  obtain ⟨p₁, cache, hblock, hcache, hb, -, rfl⟩ := enterProgram_eq_ok henter
  have hentered : Stocked { p with stale := false, recent := some program } :=
    hp.congr rfl rfl rfl rfl
  have hp₁ := hentered.blockAt h hblock
  obtain ⟨-, rfl⟩ := Cache.modifyShelf_eq_some hcache
  exact ⟨hp₁.withShelves (Array.size_modify ..), Array.mem_of_getElem? hb⟩

theorem Stocked.matchPrograms (hp : p.Stocked)
    (hmatch : p.matchPrograms offset = .ok (program, p')) : p'.Stocked := by
  obtain ⟨l, -, ⟨-, cache, hcache, rfl⟩ | ⟨-, cache, hcache, rfl⟩⟩ := matchPrograms_eq_ok hmatch
  · obtain ⟨-, rfl⟩ := Cache.modifyShelf_eq_some hcache
    exact (hp.withShelves (Array.size_modify ..)).congr rfl rfl rfl rfl
  · obtain ⟨-, -, rfl⟩ := Cache.addProgram_eq_some hcache
    refine ⟨hp.size_eq, ?_, hp.blocks, fun q hq => ?_⟩
    · simpa using hp.length_eq
    · rcases Array.mem_push.mp hq with hq | rfl
      · exact hp.programs q hq
      · exact suits_create_liveBasis p _

/-- Comparing programs changes neither microcode nor configuration. -/
theorem matchPrograms_keeps (hmatch : p.matchPrograms offset = .ok (program, p')) :
    p'.microcode = p.microcode ∧ p'.config = p.config := by
  obtain ⟨l, -, ⟨-, cache, -, rfl⟩ | ⟨-, cache, -, rfl⟩⟩ := matchPrograms_eq_ok hmatch
  · exact ⟨rfl, rfl⟩
  · exact ⟨rfl, rfl⟩

theorem Stocked.findBlockAt {hit : Hit} (hp : p.Stocked) (h : p.microcode.HasPair offset)
    (hfind : p.findBlockAt offset = .ok (hit, p')) :
    p'.Stocked ∧ hit.block ∈ p'.cache.blocks := by
  obtain ⟨shelf, -, ⟨program, id, -, henter⟩ | ⟨-, program, p₁, hmatch, henter⟩⟩ :=
    findBlockAt_eq_ok hfind
  · refine Stocked.enterProgram ?_ ?_ henter
    · exact hp.congr rfl rfl rfl rfl
    · exact h
  · obtain ⟨hmicrocode, -⟩ := matchPrograms_keeps hmatch
    exact (hp.matchPrograms hmatch).enterProgram (hmicrocode ▸ h) henter

/-! ### Making room -/

theorem microcode_ensureRoom (p : Processor) : p.ensureRoom.microcode = p.microcode := by
  rw [ensureRoom]
  split
  · rfl
  · rfl

theorem config_ensureRoom (p : Processor) : p.ensureRoom.config = p.config := by
  rw [ensureRoom]
  split
  · rfl
  · rfl

/-- A unit that has made room and still has a program to go on with was not flushed. -/
theorem stale_ensureRoom {program : ProgramNumber} (hfresh : p.stale = false)
    (hrecent : p.ensureRoom.recent = some program) : p.ensureRoom.stale = false := by
  rw [ensureRoom] at hrecent ⊢
  split
  · case isTrue hshort =>
    rw [if_pos hshort] at hrecent
    cases hrecent
  · exact hfresh

/-! ### Steps -/

/-- One step of a unit. `Allows` says of which programs blocks are asked from outside. Operations
are made of such steps, and what each step preserves holds throughout. -/
inductive Step (Allows : Processor → ProgramNumber → Prop) (p : Processor) : Processor → Prop where
  /-- Microcode is changed, or may have been. -/
  | change (m : Memory) (hsize : m.size = p.microcode.size) :
      Step Allows p (markStale { p with microcode := m })
  | setRegisters (registers : Registers) : Step Allows p (p.withRegisters registers)
  | setTracking (tracking : Tracking) : Step Allows p { p with tracking := tracking }
  | reset (full : Bool) : Step Allows p (p.reset full)
  /-- A run begins. -/
  | begin (pc : UInt32) : Step Allows p (p.beginRun pc)
  /-- All programs are forgotten if room for code is short. -/
  | makeRoom : Step Allows p p.ensureRoom
  /-- A block is looked up. -/
  | find {offset : Nat} {hit : Hit} {p' : Processor} (h : p.microcode.HasPair offset)
      (hfind : p.findBlockAt offset = .ok (hit, p')) : Step Allows p p'
  /-- The program of the block before gives the next block. -/
  | chain {program : ProgramNumber} {offset : Nat} {hit : Hit} {p' : Processor}
      (hrecent : p.recent = some program) (hfresh : p.stale = false)
      (h : p.microcode.HasPair offset) (henter : p.enterProgram program offset = .ok (hit, p')) :
      Step Allows p p'
  /-- A stored block runs. -/
  | run {b : Block} (pc : UInt32) (hb : b ∈ p.cache.blocks) : Step Allows p (p.enter b pc)
  /-- A stored program is asked for a block. -/
  | fetch {program : ProgramNumber} {offset : Nat} {id : BlockNumber} {p' : Processor}
      (hallows : Allows p program) (h : p.microcode.HasPair offset)
      (hfetch : p.blockAt program offset = .ok (id, p')) : Step Allows p p'

/-- Some steps, one after another. A run is such a chain, and so is the whole life of a unit. -/
abbrev Steps (Allows : Processor → ProgramNumber → Prop) : Processor → Processor → Prop :=
  Relation.ReflTransGen (Step Allows)

variable {Allows : Processor → ProgramNumber → Prop}

/-- A unit stores what another one stores, and knows the same of what is in memory. Registers,
recompiler, branch tracking and counters may differ. -/
structure StoresAs (p' p : Processor) : Prop where
  host_eq : p'.host = p.host
  config_eq : p'.config = p.config
  microcode_eq : p'.microcode = p.microcode
  cache_eq : p'.cache = p.cache
  stale_eq : p'.stale = p.stale
  recent_eq : p'.recent = p.recent

/-- What a step does to what a unit stores: nothing, or it forgets all programs, or microcode is
changed, or a program is entered or asked for a block. -/
theorem step_cases (h : Step Allows p p') :
    p'.StoresAs p ∨ p'.StoresAs p.forget ∨
      (∃ m, m.size = p.microcode.size ∧ p' = markStale { p with microcode := m }) ∨
      (∃ offset hit, p.microcode.HasPair offset ∧ p.findBlockAt offset = .ok (hit, p')) ∨
      (∃ program offset hit, p.recent = some program ∧ p.stale = false ∧
        p.microcode.HasPair offset ∧ p.enterProgram program offset = .ok (hit, p')) ∨
      ∃ program offset id, p.microcode.HasPair offset ∧
        p.blockAt program offset = .ok (id, p') := by
  cases h with
  | change m hsize => exact .inr (.inr (.inl ⟨m, hsize, rfl⟩))
  | setRegisters registers => exact .inl ⟨rfl, rfl, rfl, rfl, rfl, rfl⟩
  | setTracking tracking => exact .inl ⟨rfl, rfl, rfl, rfl, rfl, rfl⟩
  | reset full =>
    rw [reset_eq]
    exact .inr (.inl ⟨rfl, rfl, rfl, rfl, rfl, rfl⟩)
  | begin pc => exact .inl ⟨rfl, rfl, rfl, rfl, rfl, rfl⟩
  | makeRoom =>
    rw [ensureRoom]
    split
    · exact .inr (.inl ⟨rfl, rfl, rfl, rfl, rfl, rfl⟩)
    · exact .inl ⟨rfl, rfl, rfl, rfl, rfl, rfl⟩
  | find h hfind => exact .inr (.inr (.inr (.inl ⟨_, _, h, hfind⟩)))
  | chain hrecent hfresh h henter =>
    exact .inr (.inr (.inr (.inr (.inl ⟨_, _, _, hrecent, hfresh, h, henter⟩))))
  | @run b pc hb =>
    rw [Processor.enter, count]
    generalize b.run p.registers = regs
    exact .inl ⟨rfl, rfl, rfl, rfl, rfl, rfl⟩
  | fetch hallows h hfetch => exact .inr (.inr (.inr (.inr (.inr ⟨_, _, _, h, hfetch⟩))))

theorem Stocked.markStale (hp : p.Stocked) {m : Memory} (hsize : m.size = p.microcode.size) :
    Stocked (Processor.markStale { p with microcode := m }) := by
  have hchanged : Stocked { p with microcode := m } :=
    { size_eq := hsize.trans hp.size_eq
      length_eq := hp.length_eq
      blocks := hp.blocks
      programs := hp.programs }
  rw [Processor.markStale]
  split
  · exact hchanged
  · exact (hchanged.withShelves (Array.size_map ..)).congr rfl rfl rfl rfl

theorem Stocked.forget (hp : p.Stocked) : p.forget.Stocked := by
  refine ⟨hp.size_eq, ?_, fun b hb => ?_, fun q hq => ?_⟩
  · simpa [Processor.forget, Cache.forgetAll] using hp.length_eq
  · exact absurd hb (Array.not_mem_empty b)
  · exact absurd hq (Array.not_mem_empty q)

/-- **Step.** Every step keeps a unit stocked. A step that compiles stores what it has compiled from
its own memory, and no other step stores anything. -/
theorem Stocked.step (hp : p.Stocked) (h : Step Allows p p') : p'.Stocked := by
  rcases step_cases h with hsame | hsame | ⟨m, hsize, rfl⟩ | ⟨offset, hit, h, hfind⟩ |
    ⟨program, offset, hit, -, -, h, henter⟩ | ⟨program, offset, id, h, hfetch⟩
  · exact hp.congr hsame.host_eq hsame.config_eq hsame.microcode_eq hsame.cache_eq
  · exact hp.forget.congr hsame.host_eq hsame.config_eq hsame.microcode_eq hsame.cache_eq
  · exact hp.markStale hsize
  · exact (hp.findBlockAt h hfind).1
  · exact (hp.enterProgram h henter).1
  · exact hp.blockAt h hfetch

theorem Stocked.steps (hp : p.Stocked) (h : Steps Allows p p') : p'.Stocked := by
  induction h with
  | refl => exact hp
  | tail _ hstep ih => exact ih.step hstep

/-! ### Operations as steps -/

/-- The program that gave a block is the one found last, in a unit that knows what is in memory. -/
theorem enterProgram_fresh {hit : Hit} (h : p.enterProgram program offset = .ok (hit, p')) :
    p'.stale = false ∧ p'.recent = some program ∧ p'.microcode = p.microcode ∧
      p'.config = p.config := by
  obtain ⟨p₁, cache, hblock, -, -, -, rfl⟩ := enterProgram_eq_ok h
  obtain ⟨q, -, ⟨-, rfl⟩ | ⟨-, b, p₂, cache', hcompile, -, rfl⟩⟩ := blockAt_eq_ok hblock
  · exact ⟨rfl, rfl, rfl, rfl⟩
  · obtain ⟨s, r, -, -, rfl⟩ := compileAt_eq_ok hcompile
    exact ⟨rfl, rfl, rfl, rfl⟩

/-- Entering a program counts blocks that are compiled, and nothing else. -/
theorem counters_enterProgram {hit : Hit} (h : p.enterProgram program offset = .ok (hit, p')) :
    ∃ compilations tolerated, p'.counters =
      { p.counters with compilations := compilations, tolerated := tolerated } := by
  obtain ⟨p₁, cache, hblock, -, -, -, rfl⟩ := enterProgram_eq_ok h
  obtain ⟨q, -, ⟨-, rfl⟩ | ⟨-, b, p₂, cache', hcompile, -, rfl⟩⟩ := blockAt_eq_ok hblock
  · exact ⟨_, _, rfl⟩
  · obtain ⟨s, r, -, -, rfl⟩ := compileAt_eq_ok hcompile
    exact ⟨_, _, rfl⟩

theorem findBlockAt_fresh {hit : Hit} (h : p.findBlockAt offset = .ok (hit, p')) :
    p'.stale = false ∧ p'.microcode = p.microcode ∧ p'.config = p.config := by
  obtain ⟨shelf, -, ⟨program, id, -, henter⟩ | ⟨-, program, p₁, hmatch, henter⟩⟩ :=
    findBlockAt_eq_ok h
  · obtain ⟨hstale, -, hmicrocode, hconfig⟩ := enterProgram_fresh henter
    exact ⟨hstale, hmicrocode, hconfig⟩
  · obtain ⟨hstale, -, hmicrocode, hconfig⟩ := enterProgram_fresh henter
    obtain ⟨hmicrocode', hconfig'⟩ := matchPrograms_keeps hmatch
    exact ⟨hstale, hmicrocode.trans hmicrocode', hconfig.trans hconfig'⟩

theorem config_markStale (p : Processor) : p.markStale.config = p.config := by
  rw [markStale]
  split
  · rfl
  · rfl

theorem config_step (h : Step Allows p p') : p'.config = p.config := by
  rcases step_cases h with hsame | hsame | ⟨m, -, rfl⟩ | ⟨offset, hit, -, hfind⟩ |
    ⟨program, offset, hit, -, -, -, henter⟩ | ⟨program, offset, id, -, hfetch⟩
  · exact hsame.config_eq
  · exact hsame.config_eq
  · exact config_markStale _
  · obtain ⟨-, -, hconfig⟩ := findBlockAt_fresh hfind
    exact hconfig
  · obtain ⟨-, -, -, hconfig⟩ := enterProgram_fresh henter
    exact hconfig
  · obtain ⟨q, -, ⟨-, rfl⟩ | ⟨-, b, p₁, cache, hcompile, -, rfl⟩⟩ := blockAt_eq_ok hfetch
    · rfl
    · obtain ⟨s, r, -, -, rfl⟩ := compileAt_eq_ok hcompile
      rfl

theorem config_steps (h : Steps Allows p p') : p'.config = p.config := by
  induction h with
  | refl => rfl
  | tail _ hstep ih => exact (config_step hstep).trans ih

/-! #### Whether the arena may be written is settled for good -/

theorem isUnlocked_blockAt {id : BlockNumber} (h : p.blockAt program offset = .ok (id, p')) :
    p'.isUnlocked = p.isUnlocked := by
  obtain ⟨q, -, ⟨-, rfl⟩ | ⟨-, b, p₁, cache, hcompile, -, rfl⟩⟩ := blockAt_eq_ok h
  · rfl
  · rw [compileAt_eq] at hcompile
    obtain ⟨s, -, hcompile⟩ := exists_of_bind_eq_ok hcompile
    obtain ⟨r, -, -, hcapacity, rfl⟩ := compileSequence_eq_ok hcompile
    rw [isUnlocked, isUnlocked, hcapacity]

theorem isUnlocked_enterProgram {hit : Hit} (h : p.enterProgram program offset = .ok (hit, p')) :
    p'.isUnlocked = p.isUnlocked := by
  obtain ⟨p₁, cache, hblock, -, -, -, rfl⟩ := enterProgram_eq_ok h
  have hsame := isUnlocked_blockAt hblock
  exact hsame

theorem isUnlocked_matchPrograms (h : p.matchPrograms offset = .ok (program, p')) :
    p'.isUnlocked = p.isUnlocked := by
  obtain ⟨l, -, ⟨-, cache, -, rfl⟩ | ⟨-, cache, -, rfl⟩⟩ := matchPrograms_eq_ok h
  · rfl
  · rfl

theorem isUnlocked_findBlockAt {hit : Hit} (h : p.findBlockAt offset = .ok (hit, p')) :
    p'.isUnlocked = p.isUnlocked := by
  obtain ⟨shelf, -, ⟨program, id, -, henter⟩ | ⟨-, program, p₁, hmatch, henter⟩⟩ :=
    findBlockAt_eq_ok h
  · have hsame := isUnlocked_enterProgram henter
    exact hsame
  · exact (isUnlocked_enterProgram henter).trans (isUnlocked_matchPrograms hmatch)

/-- No step gives a unit another arena or puts it on another machine. -/
theorem isUnlocked_step (h : Step Allows p p') : p'.isUnlocked = p.isUnlocked := by
  cases h with
  | change m hsize => exact isUnlocked_markStale _
  | setRegisters registers => rfl
  | setTracking tracking => rfl
  | reset full => exact isUnlocked_reset p full
  | begin pc => rfl
  | makeRoom => exact isUnlocked_ensureRoom p
  | find h hfind => exact isUnlocked_findBlockAt hfind
  | chain hrecent hfresh h henter => exact isUnlocked_enterProgram henter
  | run pc hb => rfl
  | fetch hallows h hfetch => exact isUnlocked_blockAt hfetch

theorem isUnlocked_steps (h : Steps Allows p p') : p'.isUnlocked = p.isUnlocked := by
  induction h with
  | refl => rfl
  | tail _ hstep ih => exact (isUnlocked_step hstep).trans ih

/-! #### No operation changes the configuration -/

theorem config_create {host : Host} {config : Config} (h : create host config = .ok p) :
    p.config = config := by
  obtain ⟨recompiler, -, h⟩ := exists_of_bind_eq_ok h
  obtain rfl := Except.ok.inj h
  rfl

theorem config_write (p : Processor) (offset : UInt32) (data : List UInt8) :
    (p.write offset data).config = p.config := by
  rw [Processor.write]
  split
  · rfl
  · exact config_markStale _

theorem config_reset (p : Processor) (full : Bool) : (p.reset full).config = p.config := by
  rw [reset_eq]
  rfl

/-- A save state that is taken over has as much microcode as the unit. -/
theorem size_of_load_eq_ok {s : SaveState} (h : p.load s = .ok p') :
    s.microcode.size = p.config.kind.memorySize := by
  rw [load_eq, SaveState.fit] at h
  by_cases hfit : s.kind = p.config.kind ∧ s.microcode.size = p.config.kind.memorySize
  · exact hfit.2
  · rw [if_neg hfit] at h
    cases h

theorem config_load {s : SaveState} (h : p.load s = .ok p') : p'.config = p.config := by
  obtain rfl := load_eq_ok h
  exact config_markStale _

theorem config_turn {pc : UInt32} {begun : Bool} {cycles : UInt32}
    (h : p.turn pc begun = .ok (cycles, p')) : p'.config = p.config := by
  obtain ⟨⟨hit, q⟩, hnext, h⟩ := exists_of_bind_eq_ok h
  obtain ⟨-, rfl⟩ := Prod.mk.inj (Except.ok.inj h)
  have hfound : q.config = p.ensureRoom.config := by
    rw [nextBlock] at hnext
    split at hnext
    · split at hnext
      · exact (enterProgram_fresh hnext).2.2.2
      · exact (findBlockAt_fresh hnext).2.2
    · exact (findBlockAt_fresh hnext).2.2
  exact hfound.trans p.config_ensureRoom

theorem config_runBlocks {budget pc : UInt32} (turns : Nat) {done t : Tally}
    (hrun : p.runBlocks budget turns pc done = .ok (t, p')) : p'.config = p.config := by
  induction turns generalizing p pc done with
  | zero =>
    obtain ⟨-, rfl⟩ := Prod.mk.inj (Except.ok.inj hrun)
    rfl
  | succ turns ih =>
    obtain ⟨cycles, p₁, hturn, ⟨-, -, rfl⟩ | ⟨-, hrun⟩⟩ := runBlocks_eq_ok hrun
    · exact config_turn hturn
    · exact (ih hrun).trans (config_turn hturn)

theorem config_execute {start budget : UInt32} {t : Tally}
    (hrun : p.execute start budget = .ok (t, p')) : p'.config = p.config := by
  have hbegun : p'.config = (p.beginRun (UInt32.ofNat (p.config.kind.pairOffset start))).config :=
    config_runBlocks _ hrun
  exact hbegun

theorem config_perform {op : Operation} {a : Answer} (h : p.perform op = .ok (a, p')) :
    p'.config = p.config := by
  cases performs_of_eq_ok h with
  | writeNone offset => rfl
  | write offset hne => exact config_markStale _
  | noteChange offset size => exact p.config_markStale
  | reset full => exact p.config_reset full
  | load hload => exact config_load hload
  | refused hload => rfl
  | setRegisters registers => rfl
  | findBlock hfind => exact (findBlockAt_fresh hfind).2.2
  | execute hrun => exact config_execute hrun

/-! #### Steps of a run -/

theorem step_nextBlock {pc : UInt32} {begun : Bool} {hit : Hit} (hp : p.Stocked)
    (h : p.microcode.HasPair pc.toNat)
    (hfresh : begun = true → ∀ id, p.recent = some id → p.stale = false)
    (hnext : p.nextBlock pc begun = .ok (hit, p')) :
    Step Allows p p' ∧ hit.block ∈ p'.cache.blocks ∧ p'.stale = false ∧
      p'.microcode = p.microcode := by
  have hself : p.config.kind.pairOffset pc = pc.toNat :=
    p.config.kind.pairOffset_eq_self hp.size_eq h
  have hlookup : p.findBlock pc = .ok (hit, p') → Step Allows p p' ∧
      hit.block ∈ p'.cache.blocks ∧ p'.stale = false ∧ p'.microcode = p.microcode := by
    intro hfind
    rw [findBlock, hself] at hfind
    obtain ⟨hstale, hmicrocode, -⟩ := findBlockAt_fresh hfind
    exact ⟨.find h hfind, (hp.findBlockAt h hfind).2, hstale, hmicrocode⟩
  rw [nextBlock] at hnext
  split at hnext
  · case h_1 program hrecent =>
    split at hnext
    · case isTrue hbegun =>
      obtain ⟨hstale, -, hmicrocode, -⟩ := enterProgram_fresh hnext
      have hstale' := hfresh hbegun program hrecent
      exact ⟨.chain hrecent hstale' h hnext, (hp.enterProgram h hnext).2, hstale, hmicrocode⟩
    · exact hlookup hnext
  · exact hlookup hnext

/-- A turn makes room and finds a block, which is stored then. -/
theorem steps_ensureRoom_nextBlock {pc : UInt32} {begun : Bool} {hit : Hit} (hp : p.Stocked)
    (h : p.microcode.HasPair pc.toNat) (hfresh : begun = true → p.stale = false)
    (hnext : p.ensureRoom.nextBlock pc begun = .ok (hit, p')) :
    Steps Allows p p' ∧ hit.block ∈ p'.cache.blocks ∧ p'.stale = false := by
  have hroom : Step Allows p p.ensureRoom := .makeRoom
  obtain ⟨hstep, hb, hstale, -⟩ := step_nextBlock (hp.step hroom) (p.microcode_ensureRoom ▸ h)
    (fun hbegun _ => stale_ensureRoom (hfresh hbegun)) hnext
  exact ⟨(Relation.ReflTransGen.single hroom).tail hstep, hb, hstale⟩

/-- **Turn.** A turn makes room, finds a block and runs it, and leaves to the offset of a pair, so
the next turn can begin there. -/
theorem steps_turn {pc : UInt32} {begun : Bool} {cycles : UInt32} (hp : p.Stocked)
    (h : p.microcode.HasPair pc.toNat) (hfresh : begun = true → p.stale = false)
    (hturn : p.turn pc begun = .ok (cycles, p')) :
    Steps Allows p p' ∧ p'.stale = false ∧ p'.microcode.HasPair p'.registers.pc.toNat := by
  obtain ⟨⟨hit, p₁⟩, hnext, hturn⟩ := exists_of_bind_eq_ok hturn
  obtain ⟨rfl, rfl⟩ := Prod.mk.inj (Except.ok.inj hturn)
  obtain ⟨hfound, hb, hstale⟩ : Steps Allows p p₁ ∧ _ :=
    steps_ensureRoom_nextBlock hp h hfresh hnext
  have hp₁ := hp.steps hfound
  have hrun : Step Allows p₁ (p₁.enter hit.block pc) := .run pc hb
  refine ⟨hfound.tail hrun, ?_, ?_⟩
  · rw [stale_enter]
    exact hstale
  · have hexit := (hp₁.blocks _ hb).hasPair_run p₁.config.kind.memorySize_le hp₁.size_eq
    exact hexit p₁.registers

theorem steps_runBlocks {budget pc : UInt32} (turns : Nat) {done t : Tally} (hp : p.Stocked)
    (h : p.microcode.HasPair pc.toNat) (hfresh : 0 < done.blocks → p.stale = false)
    (hrun : p.runBlocks budget turns pc done = .ok (t, p')) : Steps Allows p p' := by
  induction turns generalizing p pc done with
  | zero =>
    obtain ⟨-, rfl⟩ := Prod.mk.inj (Except.ok.inj hrun)
    exact .refl
  | succ turns ih =>
    obtain ⟨cycles, p₁, hturn, hrest⟩ := runBlocks_eq_ok hrun
    have hfresh' : decide (0 < done.blocks) = true → p.stale = false := fun hb =>
      hfresh (of_decide_eq_true hb)
    obtain ⟨hsteps, hstale, hexit⟩ : Steps Allows p p₁ ∧ _ := steps_turn hp h hfresh' hturn
    obtain ⟨-, -, rfl⟩ | ⟨-, hrun⟩ := hrest
    · exact hsteps
    · exact hsteps.trans (ih (hp.steps hsteps) hexit (fun _ => hstale) hrun)

theorem steps_execute {start budget : UInt32} {t : Tally} (hp : p.Stocked)
    (hrun : p.execute start budget = .ok (t, p')) : Steps Allows p p' := by
  have hbegin : Step Allows p (p.beginRun (UInt32.ofNat (p.config.kind.pairOffset start))) :=
    .begin _
  have h := p.config.kind.hasPair_pairOffset hp.size_eq start
  rw [← p.config.kind.toNat_ofNat_pairOffset start] at h
  have hsteps : Steps Allows _ p' :=
    steps_runBlocks _ (hp.step hbegin) h (fun hblocks => by cases hblocks) hrun
  exact hsteps.head hbegin

/-- **Operations are steps.** So what every step keeps is kept by operations, and has to be shown
only once. -/
theorem steps_perform {op : Operation} {a : Answer} (hp : p.Stocked)
    (h : p.perform op = .ok (a, p')) : Steps Allows p p' := by
  cases performs_of_eq_ok h with
  | writeNone offset => exact .refl
  | write offset hne => exact .single (.change _ (p.microcode.size_write offset.toNat _))
  | noteChange offset size => exact .single (.change p.microcode rfl)
  | reset full => exact .single (.reset full)
  | @load s _ hload =>
    -- the registers are taken over, then microcode, then branch tracking
    obtain rfl := load_eq_ok hload
    have hsize : s.microcode.size = p.microcode.size :=
      (size_of_load_eq_ok hload).trans hp.size_eq.symm
    have hregisters : Step Allows p (p.withRegisters s.registers) := .setRegisters _
    have hchange : Step Allows (p.withRegisters s.registers) _ := .change s.microcode hsize
    exact ((Relation.ReflTransGen.single hregisters).tail hchange).tail (.setTracking s.tracking)
  | refused hload => exact .refl
  | setRegisters registers => exact .single (.setRegisters registers)
  | findBlock hfind =>
    exact .single (.find (p.config.kind.hasPair_pairOffset hp.size_eq _) hfind)
  | execute hrun => exact steps_execute hp hrun

/-! ### What is done to a unit -/

/-- One thing that is done to a unit from outside: an operation, or asking a stored program for its
block at the offset of a pair. `Allows` says of which programs blocks are asked. -/
inductive Use (Allows : Processor → ProgramNumber → Prop) (p : Processor) : Processor → Prop where
  | perform {op : Operation} {a : Answer} {p' : Processor} (h : p.perform op = .ok (a, p')) :
      Use Allows p p'
  | fetch {program : ProgramNumber} {offset : Nat} {id : BlockNumber} {p' : Processor}
      (hallows : Allows p program) (h : p.microcode.HasPair offset)
      (hfetch : p.blockAt program offset = .ok (id, p')) : Use Allows p p'

/-- Some things that are done to a unit, one after another: operations, and requests for the blocks
of stored programs. -/
abbrev Uses (Allows : Processor → ProgramNumber → Prop) : Processor → Processor → Prop :=
  Relation.ReflTransGen (Use Allows)

/-- Blocks are asked of any stored program, also of one that does not match live memory. This is the
weakest promise about the outside. -/
def anyProgram (_ : Processor) (_ : ProgramNumber) : Prop := True

theorem stocked_create {host : Host} {config : Config} (h : create host config = .ok p) :
    p.Stocked := by
  obtain ⟨recompiler, -, h⟩ := exists_of_bind_eq_ok h
  obtain rfl := Except.ok.inj h
  refine ⟨Memory.size_zeros _, ?_, fun b hb => ?_, fun q hq => ?_⟩
  · simp only [Cache.create, Array.size_replicate]
    cases config.kind <;> rfl
  · exact absurd hb (Array.not_mem_empty b)
  · exact absurd hq (Array.not_mem_empty q)

/-- Whatever is done to a stocked unit comes down to steps. -/
theorem Stocked.steps_of_uses (hp : p.Stocked) (h : Uses Allows p p') : Steps Allows p p' := by
  induction h with
  | refl => exact .refl
  | tail _ huse ih =>
    cases huse with
    | perform h => exact ih.trans (steps_perform (hp.steps ih) h)
    | fetch hallows h hfetch => exact ih.tail (.fetch hallows h hfetch)

/-- The arena of a unit may be written if the machine says so of its length, whatever is done to the
unit. -/
theorem isUnlocked_of_uses {host : Host} {config : Config} (hcreate : create host config = .ok p)
    (h : Uses Allows p p') :
    p'.isUnlocked = host.unlocks (max config.arenaSize Arena.minLength) := by
  have hsteps : Steps Allows p p' := (stocked_create hcreate).steps_of_uses h
  rw [isUnlocked_steps hsteps, isUnlocked_create hcreate]

/-- **Invariants.** What every step of a stocked unit keeps is kept whatever is done to the unit,
operations and requests for blocks alike. -/
theorem Stocked.uses_induction {I : Processor → Prop} (hp : p.Stocked) (hI : I p)
    (hstep : ∀ q q', q.Stocked → I q → Step Allows q q' → I q') (h : Uses Allows p p') :
    p'.Stocked ∧ I p' := by
  have hsteps := hp.steps_of_uses h
  clear h
  induction hsteps with
  | refl => exact ⟨hp, hI⟩
  | tail _ hlast ih => exact ⟨ih.1.step hlast, hstep _ _ ih.1 ih.2 hlast⟩

/-- Finds a block, writes behind it, asks the program found for a block where was written, and takes
the write back. That block has nothing to do with the microcode that the program was created
from. -/
def strayBlock (p : Processor) : Except Fault Processor := do
  let (_, found) ← p.perform (.findBlock 0)
  let five := Pair.ofLower (Statement.word (.iaddiu 1 0 5))
  let (_, written) ← found.perform (.write 8 five.toBytes)
  let (_, asked) ← written.blockAt ⟨0⟩ 8
  let (_, restored) ← asked.perform (.write 8 (Pair.toBytes ⟨0, 0⟩))
  return restored

theorem Stocked.uses_strayBlock (hp : p.Stocked) (h : p.strayBlock = .ok p') :
    Uses anyProgram p p' := by
  obtain ⟨⟨_, found⟩, hfind, h⟩ := exists_of_bind_eq_ok h
  obtain ⟨⟨_, written⟩, hwrite, h⟩ := exists_of_bind_eq_ok h
  obtain ⟨⟨_, asked⟩, hask, h⟩ := exists_of_bind_eq_ok h
  obtain ⟨⟨_, restored⟩, hrestore, h⟩ := exists_of_bind_eq_ok h
  obtain rfl := Except.ok.inj h
  have huses : Uses anyProgram p written := .tail (.single (.perform hfind)) (.perform hwrite)
  have hsize := (hp.steps (hp.steps_of_uses huses)).size_eq
  have hpair : written.microcode.HasPair 8 := by
    have hpair := written.config.kind.hasPair_pairOffset hsize 8
    rwa [show written.config.kind.pairOffset 8 = 8 by cases written.config.kind <;> rfl] at hpair
  exact (huses.tail (.fetch trivial hpair hask)).tail (.perform hrestore)

end Processor

end VectorUnit
