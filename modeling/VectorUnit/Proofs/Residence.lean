import VectorUnit.Proofs.Journal
import VectorUnit.Proofs.Trails

/-!
# No code is entered after it was rewound

The arena of a unit is rewound when the unit is reset in full, and when its cache is flushed for
want of room, which may happen between any two blocks of a run. All stored blocks are forgotten each
time. So a block that is stored was placed since the arena was rewound last
(`Processor.Standing`), and stored blocks lie behind each other in the arena, where their code still
stands (`Processor.Laid`).

Blocks are called from two places: a lookup hands one out, and a run enters one in every turn
(`Processor.calls`). Both get them from the cache as it is at that moment, after all flushing
(`Processor.standing_of_uses`).
-/

namespace VectorUnit

namespace Processor

variable {Allows : Processor → ProgramNumber → Prop} {p p' q : Processor} {b : Block}
  {offset : Nat} {program : ProgramNumber}

/-! ### What steps do to the arena -/

/-- The code of a block is placed in the arena, which may be written, and the block is stored. The
span of the block is the one that the arena has handed out for the code. -/
structure Places (b : Block) (p p' : Processor) : Prop where
  unlocked : p.isUnlocked = true
  place_eq : p.recompiler.arena.place Recompiler.alignment (p.host.encode b.code) =
    .ok (b.span, p'.recompiler.arena)
  blocks_eq : p'.cache.blocks = p.cache.blocks.push b

/-- At most one block is placed and stored, and none is forgotten. Lookups are such steps, whether
or not they compile a block. -/
structure Builds (p p' : Processor) : Prop where
  host_eq : p'.host = p.host
  registers_eq : p'.registers = p.registers
  places : (p'.recompiler.arena = p.recompiler.arena ∧ p'.cache.blocks = p.cache.blocks) ∨
    ∃ b, Places b p p'

/-- The arena is rewound, so that the spans handed out before are given up. It goes with forgetting
all blocks, whose code would be overwritten next. -/
def Rewinds (p p' : Processor) : Prop :=
  p'.recompiler.arena = p.recompiler.arena.rewind

/-- All that matters before is host, registers, arena and blocks. -/
theorem Builds.congr (h : q.Builds p') (hhost : q.host = p.host)
    (hregisters : q.registers = p.registers) (harena : q.recompiler.arena = p.recompiler.arena)
    (hblocks : q.cache.blocks = p.cache.blocks) : p.Builds p' := by
  refine ⟨h.host_eq.trans hhost, h.registers_eq.trans hregisters, ?_⟩
  rcases h.places with ⟨harena', hblocks'⟩ | ⟨b, hunlocked, hplace, hblocks'⟩
  · exact .inl ⟨harena'.trans harena, hblocks'.trans hblocks⟩
  · rw [isUnlocked, harena, hhost] at hunlocked
    rw [harena, hhost] at hplace
    rw [hblocks] at hblocks'
    exact .inr ⟨b, hunlocked, hplace, hblocks'⟩

theorem builds_blockAt {id : BlockNumber} (hblock : p.blockAt program offset = .ok (id, p')) :
    p.Builds p' := by
  obtain ⟨q, -, ⟨-, rfl⟩ | ⟨-, b, p₁, cache, hcompile, hadd, rfl⟩⟩ := blockAt_eq_ok hblock
  · exact ⟨rfl, rfl, .inl ⟨rfl, rfl⟩⟩
  · rw [compileAt_eq] at hcompile
    obtain ⟨s, -, hcompile⟩ := exists_of_bind_eq_ok hcompile
    obtain ⟨r, hany, hunlocked, -, rfl⟩ := compileSequence_eq_ok hcompile
    obtain ⟨arena, hplace, hb, rfl⟩ := Recompiler.compileAny_eq_ok hany
    obtain ⟨-, -, -, rfl⟩ := Cache.addBlock_eq_some hadd
    have hcode : b.code = s.toCode := congrArg Block.code hb
    exact ⟨rfl, rfl, .inr ⟨b, hunlocked, hcode ▸ hplace, rfl⟩⟩

theorem builds_enterProgram {hit : Hit} (henter : p.enterProgram program offset = .ok (hit, p')) :
    p.Builds p' ∧ hit.block ∈ p'.cache.blocks := by
  obtain ⟨p₁, cache, hblock, hcache, hb, -, rfl⟩ := enterProgram_eq_ok henter
  obtain ⟨hhost, hregisters, hplaces⟩ := builds_blockAt hblock
  obtain ⟨-, rfl⟩ := Cache.modifyShelf_eq_some hcache
  refine ⟨⟨hhost, hregisters, ?_⟩, Array.mem_of_getElem? hb⟩
  rcases hplaces with hsame | ⟨b, hunlocked, hplace, hblocks⟩
  · exact .inl hsame
  · exact .inr ⟨b, hunlocked, hplace, hblocks⟩

theorem builds_findBlockAt {hit : Hit} (hfind : p.findBlockAt offset = .ok (hit, p')) :
    p.Builds p' ∧ hit.block ∈ p'.cache.blocks := by
  obtain ⟨shelf, -, ⟨program, id, -, henter⟩ | ⟨-, program, p₁, hmatch, henter⟩⟩ :=
    findBlockAt_eq_ok hfind
  · obtain ⟨hbuilds, hb⟩ := builds_enterProgram henter
    exact ⟨hbuilds.congr rfl rfl rfl rfl, hb⟩
  · obtain ⟨hbuilds, hb⟩ := builds_enterProgram henter
    refine ⟨?_, hb⟩
    obtain ⟨l, -, ⟨-, cache, hcache, rfl⟩ | ⟨-, cache, hcache, rfl⟩⟩ := matchPrograms_eq_ok hmatch
    · obtain ⟨-, rfl⟩ := Cache.modifyShelf_eq_some hcache
      exact hbuilds.congr rfl rfl rfl rfl
    · obtain ⟨-, -, rfl⟩ := Cache.addProgram_eq_some hcache
      exact hbuilds.congr rfl rfl rfl rfl

theorem builds_nextBlock {pc : UInt32} {begun : Bool} {hit : Hit}
    (hnext : p.nextBlock pc begun = .ok (hit, p')) : p.Builds p' := by
  rw [nextBlock] at hnext
  split at hnext
  · split at hnext
    · exact (builds_enterProgram hnext).1
    · exact (builds_findBlockAt hnext).1
  · exact (builds_findBlockAt hnext).1

/-- What a step does to the arena: it places and stores one block at most, or it forgets all blocks,
and possibly rewinds the arena. -/
theorem arena_cases (h : Step Allows p p') :
    (p'.host = p.host ∧ ((p'.recompiler.arena = p.recompiler.arena ∧
        p'.cache.blocks = p.cache.blocks) ∨ ∃ b, Places b p p')) ∨
      (p'.cache.blocks = #[] ∧
        (p'.recompiler.arena = p.recompiler.arena ∨ p.Rewinds p')) := by
  cases h with
  | change m hsize =>
    rw [markStale]
    split
    · exact .inl ⟨rfl, .inl ⟨rfl, rfl⟩⟩
    · exact .inl ⟨rfl, .inl ⟨rfl, rfl⟩⟩
  | setRegisters registers => exact .inl ⟨rfl, .inl ⟨rfl, rfl⟩⟩
  | setTracking tracking => exact .inl ⟨rfl, .inl ⟨rfl, rfl⟩⟩
  | reset full =>
    -- only a full reset rewinds the arena
    rw [Rewinds, Processor.reset]
    split
    · exact .inr ⟨rfl, .inr rfl⟩
    · exact .inr ⟨rfl, .inl rfl⟩
  | begin pc => exact .inl ⟨rfl, .inl ⟨rfl, rfl⟩⟩
  | makeRoom =>
    rw [Rewinds, ensureRoom]
    split
    · exact .inr ⟨rfl, .inr rfl⟩
    · exact .inl ⟨rfl, .inl ⟨rfl, rfl⟩⟩
  | find h hfind =>
    obtain ⟨hbuilds, -⟩ := builds_findBlockAt hfind
    exact .inl ⟨hbuilds.host_eq, hbuilds.places⟩
  | chain hrecent hfresh h henter =>
    obtain ⟨hbuilds, -⟩ := builds_enterProgram henter
    exact .inl ⟨hbuilds.host_eq, hbuilds.places⟩
  | run pc hb =>
    rw [Processor.enter, count]
    exact .inl ⟨rfl, .inl ⟨rfl, rfl⟩⟩
  | fetch hallows h hfetch =>
    have hbuilds := builds_blockAt hfetch
    exact .inl ⟨hbuilds.host_eq, hbuilds.places⟩

/-- The arena of a unit that stores blocks may be written, for their code was. So a unit that has
run once needs no promise about the machine any more. -/
def StoresUnlocked (p : Processor) : Prop :=
  p.cache.blocks ≠ #[] → p.isUnlocked = true

/-- **Step.** Blocks are stored only where their code is written, and the machine does not change
its mind about an arena. -/
theorem StoresUnlocked.step (hp : p.StoresUnlocked) (h : Step Allows p p') : p'.StoresUnlocked := by
  intro hblocks
  rw [isUnlocked_step h]
  rcases arena_cases h with ⟨-, ⟨-, hsame⟩ | ⟨b, hplaces⟩⟩ | ⟨hnone, -⟩
  · exact hp (hsame ▸ hblocks)
  · exact hplaces.unlocked
  · exact absurd hnone hblocks

theorem StoresUnlocked.steps (hp : p.StoresUnlocked) (h : Steps Allows p p') :
    p'.StoresUnlocked := by
  induction h with
  | refl => exact hp
  | tail _ hstep ih => exact ih.step hstep

theorem storesUnlocked_create {host : Host} {config : Config} (h : create host config = .ok p) :
    p.StoresUnlocked := by
  obtain ⟨recompiler, -, h⟩ := exists_of_bind_eq_ok h
  obtain rfl := Except.ok.inj h
  exact fun hblocks => absurd rfl hblocks

/-! ### Where the code of stored blocks stands -/

/-- The arena of a unit, with the blocks that are stored, as a journal of what was placed there. -/
def journal (p : Processor) : Arena.Journal :=
  ⟨p.recompiler.arena, p.cache.blocks.toList.map fun b => ⟨b.span, p.host.encode b.code, true⟩⟩

/-- The code of all stored blocks stands in the arena, aligned as code has to be. The journal of the
unit has them in the order in which they were placed. -/
structure Laid (p : Processor) : Prop where
  kept : p.journal.Kept
  aligned : ∀ b ∈ p.cache.blocks, Recompiler.alignment ∣ b.span.offset

theorem Laid.of_empty (h : p.recompiler.arena.cursor ≤ p.recompiler.arena.capacity)
    (hblocks : p.cache.blocks = #[]) : p.Laid := by
  refine ⟨?_, fun b hb => ?_⟩
  · rw [journal, hblocks]
    exact .start h
  · rw [hblocks] at hb
    exact absurd hb (Array.not_mem_empty b)

theorem Laid.places (hp : p.Laid) (hhost : p'.host = p.host) (h : Places b p p') : p'.Laid := by
  constructor
  · have hkept := hp.kept.place h.place_eq
    rw [journal, h.blocks_eq, hhost, Array.toList_push, List.map_append]
    exact hkept
  · rw [h.blocks_eq]
    intro b' hb'
    rcases Array.mem_push.mp hb' with hb' | rfl
    · exact hp.aligned b' hb'
    · obtain ⟨-, hspan, -, -⟩ := Arena.place_eq_ok h.place_eq
      rw [hspan]
      exact (Arena.isLeast_nextOffset p.recompiler.arena Recompiler.alignment).1.1

/-- **Step.** Every step leaves the code of stored blocks where it stands, or forgets the blocks
together with rewinding the arena. -/
theorem Laid.step (hp : p.Laid) (h : Step Allows p p') : p'.Laid := by
  rcases arena_cases h with ⟨hhost, ⟨harena, hblocks⟩ | ⟨b, hplaces⟩⟩ |
    ⟨hblocks, harena | harena⟩
  · refine ⟨?_, hblocks ▸ hp.aligned⟩
    rw [journal, harena, hblocks, hhost]
    exact hp.kept
  · exact hp.places hhost hplaces
  · exact .of_empty (harena ▸ hp.kept.cursor_le) hblocks
  · refine .of_empty ?_ hblocks
    rw [harena]
    exact Nat.zero_le _

/-- Where a block is stored, something is in the arena. -/
theorem Laid.codeSize_pos (hp : p.Laid) (hb : b ∈ p.cache.blocks) : 0 < p.codeSize := by
  have hmem : ⟨b.span, p.host.encode b.code, true⟩ ∈ p.journal.placements :=
    List.mem_map.mpr ⟨b, Array.mem_toList_iff.mpr hb, rfl⟩
  obtain ⟨hlength, hdata⟩ := hp.kept.length_eq _ hmem
  have hstop : b.span.offset + b.span.length ≤ p.codeSize := hp.kept.below _ hmem
  have hpos : 0 < (p.host.encode b.code).length := List.length_pos_iff.mpr hdata
  have hlength' : b.span.length = (p.host.encode b.code).length := hlength
  omega

/-! ### When stored blocks were placed -/

/-- What a unit has been since it was made, from step to step, the latest first. Where a stored
block was placed is told by one of these. -/
inductive Past (p : Processor) : List Processor → Prop where
  | new : Past p [p]
  | step {q q' : Processor} {past : List Processor} (h : Past p (q :: past))
      (hstep : Step anyProgram q q') : Past p (q' :: q :: past)

/-- A block was placed in the arena by one of the steps of a past. The arena has not been rewound
since, and the block has been stored all the time. -/
inductive Standing (b : Block) : List Processor → Prop where
  | placed {q q' : Processor} {past : List Processor} (h : Places b q q') :
      Standing b (q' :: q :: past)
  | spared {q q' : Processor} {past : List Processor} (h : Standing b (q :: past))
      (hspared : ¬ q.Rewinds q') (hb : b ∈ q'.cache.blocks) : Standing b (q' :: q :: past)

theorem exists_past (h : Steps anyProgram p q) : ∃ past, Past p (q :: past) := by
  induction h with
  | refl => exact ⟨[], .new⟩
  | tail _ hstep ih =>
    obtain ⟨past, hpast⟩ := ih
    exact ⟨_, hpast.step hstep⟩

/-- **Step.** A block that stays stored was not rewound, for rewinding the arena forgets all blocks.
-/
theorem Standing.step {past : List Processor} (hq : q.Laid)
    (hstanding : ∀ b ∈ q.cache.blocks, Standing b (q :: past)) (h : Step Allows q p')
    (hb : b ∈ p'.cache.blocks) : Standing b (p' :: q :: past) := by
  have hcursor : 0 < p'.recompiler.arena.cursor := (hq.step h).codeSize_pos hb
  have hspared : ¬ q.Rewinds p' := by
    intro hrewinds
    rw [hrewinds] at hcursor
    exact absurd hcursor (Nat.lt_irrefl 0)
  rcases arena_cases h with ⟨-, ⟨-, hblocks⟩ | ⟨b', hplaces⟩⟩ | ⟨hblocks, -⟩
  · exact .spared (hstanding b (hblocks ▸ hb)) hspared hb
  · rw [hplaces.blocks_eq] at hb
    rcases Array.mem_push.mp hb with hb' | rfl
    · exact .spared (hstanding b hb') hspared (hplaces.blocks_eq ▸ hb)
    · exact .placed hplaces
  · rw [hblocks] at hb
    exact absurd hb (Array.not_mem_empty b)

/-- **Past.** Whatever a unit went through, its blocks stand where they were placed, and they were
placed since it was rewound last. -/
theorem Past.standing {units past : List Processor} (h : Past p units) (hunits : units = q :: past)
    (hp : p.Laid) (hblocks : p.cache.blocks = #[]) :
    q.Laid ∧ ∀ b ∈ q.cache.blocks, Standing b (q :: past) := by
  induction h generalizing q past with
  | new =>
    obtain ⟨rfl, -⟩ := List.cons.inj hunits
    refine ⟨hp, fun b hb => ?_⟩
    rw [hblocks] at hb
    exact absurd hb (Array.not_mem_empty b)
  | step h hstep ih =>
    obtain ⟨rfl, rfl⟩ := List.cons.inj hunits
    obtain ⟨hlaid, hstanding⟩ := ih rfl
    exact ⟨hlaid.step hstep, fun b hb => .step hlaid hstanding hstep hb⟩

/-- What is stored in `q`, which has become of `p`, stands in the arena since that was rewound last,
whatever was done in between. -/
structure Resident (p q : Processor) : Prop where
  reached : ∃ past, Past p (q :: past)
  standing : ∀ past, Past p (q :: past) → ∀ b ∈ q.cache.blocks, Standing b (q :: past)
  laid : q.Laid

theorem laid_create {host : Host} {config : Config} (h : create host config = .ok p) :
    p.Laid ∧ p.cache.blocks = #[] := by
  obtain ⟨recompiler, hrecompiler, h⟩ := exists_of_bind_eq_ok h
  obtain ⟨arena, harena, hrecompiler⟩ := exists_of_bind_eq_ok hrecompiler
  obtain rfl := Except.ok.inj hrecompiler
  obtain rfl := Except.ok.inj h
  refine ⟨.of_empty ?_ rfl, rfl⟩
  rw [(Arena.reserve_eq_ok harena).1]
  exact Nat.zero_le _

theorem resident_of_steps {host : Host} {config : Config} (hcreate : create host config = .ok p)
    (h : Steps anyProgram p q) : p.Resident q := by
  obtain ⟨hlaid, hblocks⟩ := laid_create hcreate
  obtain ⟨past, hpast⟩ := exists_past h
  exact ⟨⟨past, hpast⟩, fun past hpast => (hpast.standing rfl hlaid hblocks).2,
    (hpast.standing rfl hlaid hblocks).1⟩

/-! ### Calls -/

/-- A block that a run enters, and the unit at that moment. The block is stored then, and its code
stands where the block says. -/
structure Call extends Visit where
  unit : Processor

/-- The blocks that at most `turns` turns of a run enter. -/
def callsFrom (budget : UInt32) : (turns : Nat) → Processor → (pc : UInt32) → (done : Tally) →
    List Call
  | 0, _, _, _ => []
  | turns + 1, p, pc, done =>
    match p.ensureRoom.nextBlock pc (0 < done.blocks) with
    | .error _ => []
    | .ok (hit, q) =>
      let p := q.enter hit.block pc
      let done := done.add hit.block.cycles
      ⟨⟨pc.toNat, hit⟩, q⟩ ::
        if p.registers.isStopped || budget.toNat ≤ done.cycles then []
        else callsFrom budget turns p p.registers.pc done

/-- The blocks that a run enters, also where the run ends in a fault, each with the unit at the
moment when it is entered. -/
def calls (p : Processor) (start budget : UInt32) : List Call :=
  callsFrom budget (max 1 budget.toNat) (p.beginRun (p.startPc start)) (p.startPc start) .zero

/-- Blocks run one after another. -/
def runCalls (registers : Registers) (calls : List Call) : Registers :=
  calls.foldl (fun registers c => c.hit.block.run registers) registers

theorem map_callsFrom {budget pc : UInt32} (turns : Nat) {done : Tally} :
    (callsFrom budget turns p pc done).map Call.toVisit = trailFrom budget turns p pc done := by
  induction turns generalizing p pc done with
  | zero => rfl
  | succ turns ih =>
    rw [callsFrom, trailFrom]
    cases p.ensureRoom.nextBlock pc (0 < done.blocks) with
    | error fault => rfl
    | ok found =>
      dsimp only
      rw [List.map_cons, ← ih]
      split
      · rfl
      · rfl

/-- The calls of a run are the blocks that it comes to. -/
theorem map_calls (p : Processor) (start budget : UInt32) :
    (p.calls start budget).map Call.toVisit = p.trail start budget :=
  map_callsFrom _

theorem registers_ensureRoom (p : Processor) : p.ensureRoom.registers = p.registers := by
  rw [ensureRoom]
  split
  · rfl
  · rfl

/-- A turn changes registers only by the block that it enters. -/
theorem registers_enter_nextBlock {pc : UInt32} {begun : Bool} {hit : Hit} {q : Processor}
    (hnext : p.ensureRoom.nextBlock pc begun = .ok (hit, q)) :
    (q.enter hit.block pc).registers = hit.block.run p.registers :=
  congrArg hit.block.run ((builds_nextBlock hnext).registers_eq.trans p.registers_ensureRoom)

/-- **Run.** Registers are what the blocks that were entered have made of them, in the order in
which they were entered. -/
theorem registers_runBlocks {budget pc : UInt32} (turns : Nat) {done t : Tally}
    (hrun : p.runBlocks budget turns pc done = .ok (t, p')) :
    p'.registers = runCalls p.registers (callsFrom budget turns p pc done) := by
  induction turns generalizing p pc done with
  | zero =>
    obtain ⟨-, rfl⟩ := Prod.mk.inj (Except.ok.inj hrun)
    rfl
  | succ turns ih =>
    obtain ⟨cycles, p₁, hturn, hrest⟩ := runBlocks_eq_ok hrun
    obtain ⟨hit, q, hnext, rfl, rfl⟩ := turn_eq_ok hturn
    rw [callsFrom, hnext]
    dsimp only
    rw [runCalls, List.foldl_cons, ← registers_enter_nextBlock hnext, ← runCalls]
    obtain ⟨hends, -, rfl⟩ | ⟨hgoes, hrun⟩ := hrest
    · rw [if_pos hends]
      rfl
    · rw [if_neg hgoes]
      exact ih hrun

/-- **Run.** Every block is stored at the moment when it is entered, also where programs were
forgotten on the way. -/
theorem Stocked.stored_callsFrom {budget pc : UInt32} (turns : Nat) {done : Tally} (hp : p.Stocked)
    (h : p.microcode.HasPair pc.toNat) (hfresh : 0 < done.blocks → p.stale = false) :
    ∀ c ∈ callsFrom budget turns p pc done,
      Steps Allows p c.unit ∧ c.hit.block ∈ c.unit.cache.blocks := by
  induction turns generalizing p pc done with
  | zero => exact fun c hc => absurd hc List.not_mem_nil
  | succ turns ih =>
    rw [callsFrom]
    cases hnext : p.ensureRoom.nextBlock pc (0 < done.blocks) with
    | error fault => exact fun c hc => absurd hc List.not_mem_nil
    | ok found =>
      obtain ⟨hit, q⟩ := found
      have hfresh' : decide (0 < done.blocks) = true → p.stale = false := fun hb =>
        hfresh (of_decide_eq_true hb)
      obtain ⟨hfound, hb, -⟩ : Steps Allows p q ∧ _ :=
        steps_ensureRoom_nextBlock hp h hfresh' hnext
      have hturn : p.turn pc (0 < done.blocks) = .ok (hit.block.cycles, q.enter hit.block pc) := by
        rw [turn, hnext]
        rfl
      obtain ⟨hsteps, hstale, hexit⟩ : Steps Allows p (q.enter hit.block pc) ∧ _ :=
        steps_turn hp h hfresh' hturn
      dsimp only
      refine List.forall_mem_cons.mpr ⟨⟨hfound, hb⟩, ?_⟩
      split
      · exact fun c hc => absurd hc List.not_mem_nil
      · intro c hc
        obtain ⟨hlater, hb'⟩ := ih (hp.steps hsteps) hexit (fun _ => hstale) c hc
        exact ⟨hsteps.trans hlater, hb'⟩

theorem Stocked.stored_calls (hp : p.Stocked) (start budget : UInt32) :
    ∀ c ∈ p.calls start budget, Steps Allows p c.unit ∧ c.hit.block ∈ c.unit.cache.blocks := by
  intro c hc
  obtain ⟨hsteps, hb⟩ : Steps Allows _ c.unit ∧ _ :=
    (hp.begun _).stored_callsFrom _ (hp.hasPair_startPc start)
      (fun hblocks => by cases hblocks) c hc
  exact ⟨hsteps.head (.begin _), hb⟩

/-- **Residence.** Whatever is done to a new unit, every block that is stored was placed in the
arena since that was rewound last. The code of stored blocks stands in the arena, below the cursor,
aligned and without overlap. A lookup hands out a stored block, and every block that a run enters is
stored at that moment, whether or not the run comes to an end. -/
theorem standing_of_uses {host : Host} {config : Config} (hcreate : create host config = .ok p)
    (h : Uses anyProgram p p') :
    p.Resident p' ∧
      (∀ offset hit q, p'.findBlock offset = .ok (hit, q) →
        p.Resident q ∧ hit.block ∈ q.cache.blocks) ∧
      ∀ start budget,
        (∀ c ∈ p'.calls start budget, p.Resident c.unit ∧ c.hit.block ∈ c.unit.cache.blocks) ∧
        ∀ t q, p'.execute start budget = .ok (t, q) →
          t.blocks = (p'.calls start budget).length ∧
            q.registers = runCalls (p'.beginRun (p'.startPc start)).registers
              (p'.calls start budget) := by
  have hsteps := (stocked_create hcreate).steps_of_uses h
  have hp' := (stocked_create hcreate).steps hsteps
  refine ⟨resident_of_steps hcreate hsteps, fun offset hit q hfind => ?_, fun start budget =>
    ⟨fun c hc => ?_, fun t q hrun => ⟨?_, registers_runBlocks _ hrun⟩⟩⟩
  · have hfound : Step anyProgram p' q :=
      .find (p'.config.kind.hasPair_pairOffset hp'.size_eq offset) hfind
    exact ⟨resident_of_steps hcreate (hsteps.tail hfound), (builds_findBlockAt hfind).2⟩
  · obtain ⟨hlater, hb⟩ := hp'.stored_calls start budget c hc
    exact ⟨resident_of_steps hcreate (hsteps.trans hlater), hb⟩
  · rw [← length_trail hrun, ← map_calls, List.length_map]

/-- The cache is flushed before every block but the first. -/
def tightConfig : Config :=
  { Config.standard with maxBlockLength := 1, arenaSize := 0, headroom := Arena.minLength }

theorem standing_of_flushingRun : ∃ p t p', create .compact tightConfig = .ok p ∧
    p.execute 0 3 = .ok (t, p') ∧ p'.counters.flushes = 2 ∧ p'.cache.blocks.size = 1 ∧
    p.Resident p' ∧ t.blocks = 3 ∧ (p.calls 0 3).length = 3 ∧
    ∀ c ∈ p.calls 0 3, c.hit.block.span = ⟨0, 8⟩ ∧ c.hit.block ∈ c.unit.cache.blocks := by
  obtain ⟨p, hnew, hok⟩ : ∃ p, create .compact tightConfig = .ok p ∧
      ((p.execute 0 3).toOption.any fun r =>
        r.2.counters.flushes = 2 && r.2.cache.blocks.size = 1 && r.1.blocks = 3 &&
          (p.calls 0 3).all fun c => c.hit.block.span = ⟨0, 8⟩) = true :=
    ⟨_, rfl, by decide +kernel⟩
  obtain ⟨⟨t, p'⟩, hrun, hok⟩ := exists_ok_of_any hok
  simp only [Bool.and_eq_true, decide_eq_true_iff, List.all_eq_true] at hok
  obtain ⟨⟨⟨hflushes, hsize⟩, hturns⟩, hspans⟩ := hok
  obtain ⟨-, -, hcalls⟩ := standing_of_uses hnew .refl
  obtain ⟨hstored, hrun'⟩ := hcalls 0 3
  have hperform : p.perform (.execute 0 3) = .ok (.ran t, p') := by
    rw [perform, hrun]
    rfl
  obtain ⟨hresident, -, -⟩ := standing_of_uses hnew (.single (.perform hperform))
  exact ⟨p, t, p', hnew, hrun, hflushes, hsize, hresident, hturns,
    (hrun' t p' hrun).1.symm.trans hturns, fun c hc => ⟨hspans c hc, (hstored c hc).2⟩⟩

end Processor

end VectorUnit
