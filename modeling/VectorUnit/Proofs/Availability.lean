import VectorUnit.Proofs.Consistency
import VectorUnit.Proofs.Freshness

/-!
# Operations have results

Whatever was done to a unit, each of its operations has a result, unless the code of a block has no
room or its arena may not be written (`Processor.InUse.yields_perform`). No unit ever asks for an
offset or a number that is not there: the shelves cover microcode, shelves and shortcuts name stored
programs only (`Cache.Filed`), and blocks leave to offsets inside memory (`Processor.Stocked`).

It makes no difference to this whether blocks are those of live memory. So it holds also where
stored programs were asked for blocks which have nothing to do with the microcode that they were
created from.
-/

namespace VectorUnit

namespace Cache

variable {c : Cache} {offset : Nat} {program : ProgramNumber}

theorem exists_modifyShelf (h : offset / Shelf.span < c.shelves.size) (f : Shelf → Shelf) :
    ∃ c', c.modifyShelf offset f = some c' :=
  ⟨_, if_pos h⟩

theorem exists_addProgram (h : offset / Shelf.span < c.shelves.size) (basis : Program.Basis) :
    ∃ r, c.addProgram offset basis = some r := by
  obtain ⟨c', hc'⟩ := exists_modifyShelf (c := { c with
    programs := c.programs.push (.create c.nextSerial basis)
    nextSerial := c.nextSerial + 1 }) h (·.push ⟨c.programs.size⟩)
  exact ⟨_, congrArg (Option.map _) hc'⟩

theorem exists_addBlock (h : offset / Shelf.span < c.shelves.size)
    (hprogram : program.value < c.programs.size) (b : Block) (m : Memory) :
    ∃ r, c.addBlock program offset b m = some r := by
  obtain ⟨c', hc'⟩ := exists_modifyShelf (c := { c with
    programs := c.programs.modify program.value fun q =>
      q.addBlock offset ⟨c.blocks.size⟩ b.ranges m
    blocks := c.blocks.push b }) h (·.enlist program)
  exact ⟨_, (if_pos hprogram).trans (congrArg (Option.map _) hc')⟩

/-- A lookup has an answer where the programs that the shelf lists are stored. -/
theorem Consistent.exists_lookup (hc : c.Consistent) {s : Shelf} (h : c.shelf? offset = some s)
    (m : Memory) (digest? : Option UInt64) : ∃ l, c.lookup offset m digest? = some l := by
  have hlisted := (hc.listed s (Array.mem_of_getElem? h)).2
  obtain ⟨l, hl⟩ := exists_lookupAmong m digest? s.programs hlisted 0
  refine ⟨l, ?_⟩
  rw [lookup, h]
  exact hl

end Cache

namespace Processor

variable {p p' : Processor} {offset : Nat} {program : ProgramNumber}
  {Allows : Processor → ProgramNumber → Prop}

/-- The shelves cover microcode. -/
theorem Stocked.shelf_lt (hp : p.Stocked) (h : p.microcode.HasPair offset) :
    offset / Shelf.span < p.cache.shelves.size := by
  refine Nat.div_lt_of_lt_mul ?_
  rw [← hp.length_eq, ← hp.size_eq]
  exact h.inside

theorem Stocked.exists_shelf (hp : p.Stocked) (h : p.microcode.HasPair offset) :
    ∃ s, p.cache.shelf? offset = some s :=
  ⟨_, Array.getElem?_eq_getElem (hp.shelf_lt h)⟩

/-! ### Lookups -/

theorem Stocked.yields_blockAt (hp : p.Stocked) (h : p.microcode.HasPair offset)
    (hprogram : program.value < p.cache.programs.size) :
    p.Yields (p.blockAt program offset) fun _ => True := by
  refine Yields.inRange_bind (Array.getElem?_eq_getElem hprogram) ?_
  split
  · trivial
  · refine (compileAt_spec h).bind ?_
    rintro ⟨b, p'⟩ ⟨s, recompiler, counters, -, -, rfl, -⟩
    obtain ⟨r, hadd⟩ := Cache.exists_addBlock (hp.shelf_lt h) hprogram b p.microcode
    exact Yields.inRange_bind hadd trivial

/-- A stored program can be entered, also if it awaits its first block in the shelf. -/
theorem Stocked.yields_enterProgram {awaited : Option (ProgramNumber × Nat)} (hp : p.Stocked)
    (hfiled : p.cache.Filed awaited) (h : p.microcode.HasPair offset)
    (hprogram : program.value < p.cache.programs.size)
    (hawaited : awaited = none ∨ awaited = some (program, offset / Shelf.span)) :
    p.Yields (p.enterProgram program offset) fun _ => True := by
  have hentered : Stocked { p with stale := false, recent := some program } :=
    hp.congr rfl rfl rfl rfl
  have hyields := (hentered.yields_blockAt h hprogram).with_eq
  refine (hyields.of_isUnlocked_eq rfl).bind ?_
  rintro ⟨id, p'⟩ ⟨hblock, -⟩
  obtain ⟨hfiled', hentry⟩ := filed_blockAt hblock hfiled h hawaited
  obtain ⟨b, hb, -⟩ := hfiled'.numbered.entered program offset id hentry
  have h' : p'.microcode.HasPair offset := (retains_blockAt hblock h).1.microcode_eq ▸ h
  have hlt := (hentered.blockAt h hblock).shelf_lt h'
  obtain ⟨cache, hcache⟩ := Cache.exists_modifyShelf hlt fun s => s.setShortcut (some (program, id))
  have hb' : cache.block? id = some b := by
    obtain ⟨-, rfl⟩ := Cache.modifyShelf_eq_some hcache
    exact hb
  exact Yields.inRange_bind hcache (Yields.inRange_bind hb' trivial)

theorem Stocked.yields_matchPrograms (hp : p.Stocked) (hfiled : p.cache.Filed none)
    (h : p.microcode.HasPair offset) : p.Yields (p.matchPrograms offset) fun _ => True := by
  obtain ⟨s, hs⟩ := hp.exists_shelf h
  obtain ⟨l, hl⟩ := hfiled.consistent.exists_lookup hs p.microcode p.liveDigest?
  refine Yields.inRange_bind hl ?_
  dsimp only
  split
  · case h_1 program _ =>
    obtain ⟨cache, hcache⟩ := Cache.exists_modifyShelf (hp.shelf_lt h) fun s => s.touch program
    exact Yields.inRange_bind hcache trivial
  · obtain ⟨r, hadd⟩ := Cache.exists_addProgram (hp.shelf_lt h) p.liveBasis
    exact Yields.inRange_bind hadd trivial

/-- The program that comparing programs gives is stored. -/
theorem lt_size_of_matchPrograms (hmatch : p.matchPrograms offset = .ok (program, p')) :
    program.value < p'.cache.programs.size := by
  obtain ⟨-, q, hq, -⟩ := retains_matchPrograms hmatch
  exact (Array.getElem?_eq_some_iff.mp hq).1

theorem Stocked.yields_findBlockAt (hp : p.Stocked) (hfiled : p.cache.Filed none)
    (h : p.microcode.HasPair offset) : p.Yields (p.findBlockAt offset) fun _ => True := by
  obtain ⟨s, hs⟩ := hp.exists_shelf h
  refine Yields.inRange_bind hs ?_
  split
  · case h_1 program id hshortcut =>
    -- the shortcut leads to a program that the shelf lists
    have hlisted := hfiled.consistent.shortcut _ s hs program id hshortcut
    have hprogram := (hfiled.consistent.listed s (Array.mem_of_getElem? hs)).2 program hlisted.1
    have hcounted : Stocked ((p.setReliance .presumed).count fun s =>
        { s with shortcuts := s.shortcuts + 1 }) := hp.congr rfl rfl rfl rfl
    exact (hcounted.yields_enterProgram hfiled h hprogram (.inl rfl)).of_isUnlocked_eq rfl
  · refine (hp.yields_matchPrograms hfiled h).with_eq.bind ?_
    rintro ⟨program, p₁⟩ ⟨hmatch, -⟩
    obtain ⟨awaited, hfiled₁, hawaited⟩ := filed_matchPrograms hfiled hmatch
    obtain ⟨hmicrocode, -⟩ := matchPrograms_keeps hmatch
    have hprogram := lt_size_of_matchPrograms hmatch
    have henter :=
      (hp.matchPrograms hmatch).yields_enterProgram hfiled₁ (hmicrocode ▸ h) hprogram hawaited
    exact henter.of_isUnlocked_eq (isUnlocked_matchPrograms hmatch)

/-! ### Units in use -/

/-- What is true of a unit, whatever was done to it, also when stored programs were asked for blocks
of other microcode than their own. It is enough for every operation to have a result. -/
structure InUse (p : Processor) : Prop where
  stocked : p.Stocked
  inFile : p.InFile
  fresh : p.Fresh

/-- **Step.** Every step leaves a unit in use, whatever programs are asked for blocks. The three
parts of being in use are kept side by side, for none of them needs the others. -/
theorem InUse.step (hp : p.InUse) (h : Step Allows p p') : p'.InUse :=
  ⟨hp.stocked.step h, hp.inFile.step h, hp.fresh.step h⟩

theorem InUse.steps (hp : p.InUse) (h : Steps Allows p p') : p'.InUse := by
  induction h with
  | refl => exact hp
  | tail _ hstep ih => exact ih.step hstep

theorem InUse.uses (hp : p.InUse) (h : Uses Allows p p') : p'.InUse :=
  hp.steps (hp.stocked.steps_of_uses h)

/-- **Operations.** An operation leaves a unit in use, since it is made of steps. -/
theorem InUse.of_perform {op : Operation} {a : Answer} (hp : p.InUse)
    (h : p.perform op = .ok (a, p')) : p'.InUse := by
  have hsteps : Steps anyProgram p p' := steps_perform hp.stocked h
  exact hp.steps hsteps

theorem inUse_create {host : Host} {config : Config} (h : create host config = .ok p) : p.InUse :=
  ⟨stocked_create h, inFile_create h, fresh_create h⟩

/-- A unit keeps the configuration that it was created with. -/
theorem config_of_uses {host : Host} {config : Config} (hcreate : create host config = .ok p)
    (h : Uses Allows p p') : p'.config = config := by
  rw [config_steps ((stocked_create hcreate).steps_of_uses h)]
  exact config_create hcreate

/-! ### Runs -/

theorem InUse.yields_nextBlock {pc : UInt32} (hp : p.InUse) (h : p.microcode.HasPair pc.toNat)
    (begun : Bool) : p.Yields (p.nextBlock pc begun) fun _ => True := by
  have hlookup : p.Yields (p.findBlock pc) fun _ => True := by
    have hself := p.config.kind.pairOffset_eq_self hp.stocked.size_eq h
    rw [findBlock, hself]
    exact hp.stocked.yields_findBlockAt hp.inFile.filed h
  rw [nextBlock]
  split
  · case h_1 program hrecent =>
    split
    · exact hp.stocked.yields_enterProgram hp.inFile.filed h (hp.inFile.recent program hrecent)
        (.inl rfl)
    · exact hlookup
  · exact hlookup

theorem InUse.yields_turn {pc : UInt32} (hp : p.InUse) (h : p.microcode.HasPair pc.toNat)
    (begun : Bool) : p.Yields (p.turn pc begun) fun _ => True := by
  have hroom : Step anyProgram p p.ensureRoom := .makeRoom
  have hpair : p.ensureRoom.microcode.HasPair pc.toNat := p.microcode_ensureRoom ▸ h
  have hnext := (hp.step hroom).yields_nextBlock hpair begun
  exact (hnext.of_isUnlocked_eq p.isUnlocked_ensureRoom).bind fun _ _ => trivial

theorem InUse.yields_runBlocks {budget pc : UInt32} (turns : Nat) {done : Tally} (hp : p.InUse)
    (h : p.microcode.HasPair pc.toNat) (hfresh : 0 < done.blocks → p.stale = false) :
    p.Yields (p.runBlocks budget turns pc done) fun _ => True := by
  induction turns generalizing p pc done with
  | zero => trivial
  | succ turns ih =>
    have hturn := (hp.yields_turn h (0 < done.blocks)).with_eq
    rw [runBlocks]
    split
    · case h_1 fault hfault =>
      rw [hfault] at hturn
      exact hturn
    · case h_2 cycles p₁ hok =>
      obtain ⟨hsteps, hstale, hexit⟩ : Steps anyProgram p p₁ ∧ _ :=
        steps_turn hp.stocked h (fun hb => hfresh (of_decide_eq_true hb)) hok
      dsimp only
      split
      · trivial
      · exact Yields.of_isUnlocked_eq (isUnlocked_steps hsteps)
          (ih (hp.steps hsteps) hexit fun _ => hstale)

theorem InUse.yields_execute (hp : p.InUse) (start budget : UInt32) :
    p.Yields (p.execute start budget) fun _ => True := by
  have hbegin : Step anyProgram p (p.beginRun (UInt32.ofNat (p.config.kind.pairOffset start))) :=
    .begin _
  have h := p.config.kind.hasPair_pairOffset hp.stocked.size_eq start
  rw [← p.config.kind.toNat_ofNat_pairOffset start] at h
  exact Yields.of_isUnlocked_eq (isUnlocked_step hbegin)
    ((hp.step hbegin).yields_runBlocks _ h fun hblocks => by cases hblocks)

/-- **Availability.** Every operation has a result, unless the code of a block has no room or the
machine does not let the arena be written. -/
theorem InUse.yields_perform (hp : p.InUse) (op : Operation) :
    p.Yields (p.perform op) fun _ => True := by
  cases op with
  | write offset data => trivial
  | noteChange offset size => trivial
  | reset full => trivial
  | load s =>
    rw [perform_load]
    split
    · trivial
    · trivial
  | setRegisters registers => trivial
  | findBlock offset =>
    have h := p.config.kind.hasPair_pairOffset hp.stocked.size_eq offset
    exact (hp.stocked.yields_findBlockAt hp.inFile.filed h).bind fun _ _ => trivial
  | execute start budget => exact (hp.yields_execute start budget).bind fun _ _ => trivial

end Processor

end VectorUnit
