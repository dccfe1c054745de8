import VectorUnit.Proofs.Lookup

/-!
# The cache is transparent

Nobody who works with a unit can tell that it has a cache. A run of a sound unit does, block by
block, what the unit without a cache does (`Processor.runBlocks_spec`), through flushes in its midst
and along chains of blocks that are taken from one program without a lookup. All operations keep a
unit sound (`Processor.perform_spec`), so whatever was done to a unit before, its registers, its
microcode and what it returns are those of the unit without a cache (`Processor.history_eq`).

`Operation` lists the operations and `Answer` what they return; `Processor.perform` and
`Uncached.perform` carry an operation out. What a lookup returns is the code found.
-/

namespace VectorUnit

/-! ### Runs -/

namespace Uncached

/-- The code of live memory leaves to the offset of a pair of that memory. -/
theorem hasPair_run {u : Uncached} {offset : Nat} {code : Code} (h : u.microcode.HasPair offset)
    (hsize : u.microcode.size ≤ 512 * 1024) (hcode : u.code? offset = some code)
    (regs : Registers) : u.microcode.HasPair (code.run regs).pc.toNat := by
  obtain ⟨s, hs, -, hrun⟩ := Sequence.exists_toCode h hsize u.maxBlockLength
  rw [code?, hs, Option.map_some] at hcode
  obtain rfl := Option.some.inj hcode
  rw [hrun]
  exact Sequence.hasPair_interpret h hs hsize regs

end Uncached

namespace UnitKind

theorem memorySize_le (k : UnitKind) : k.memorySize ≤ 512 * 1024 := by
  cases k <;> decide

/-- The offset of a pair stands for itself. -/
theorem pairOffset_eq_self (k : UnitKind) {m : Memory} {offset : UInt32}
    (hsize : m.size = k.memorySize) (h : m.HasPair offset.toNat) :
    k.pairOffset offset = offset.toNat := by
  rw [pairOffset, Nat.mod_eq_of_lt (hsize ▸ h.inside), Nat.div_mul_cancel h.aligned]

theorem toNat_ofNat_pairOffset (k : UnitKind) (offset : UInt32) :
    (UInt32.ofNat (k.pairOffset offset)).toNat = k.pairOffset offset := by
  have hlt := k.pairOffset_lt offset
  have hle := k.memorySize_le
  have hsize : UInt32.size = 4294967296 := rfl
  exact UInt32.toNat_ofNat_of_lt' (by omega)

end UnitKind

namespace Processor

variable {p : Processor} {pc : UInt32} {begun : Bool}

theorem isUnlocked_ensureRoom (p : Processor) : p.ensureRoom.isUnlocked = p.isUnlocked := by
  rw [ensureRoom]
  split
  · rfl
  · rfl

theorem isUnlocked_reset (p : Processor) (full : Bool) :
    (p.reset full).isUnlocked = p.isUnlocked := by
  cases full with
  | true => rfl
  | false => rfl

/-- Forgetting all programs leaves nothing that could be out of date. -/
theorem Sound.forget (hp : p.Sound) : p.forget.Sound :=
  { size_eq := hp.size_eq
    inOrder := hp.inOrder.forgetAll
    shortcuts := p.cache.shortcutsSatisfy_forgetAll _
    recent := fun hstale => by cases hstale }

theorem ensureRoom_spec (hp : p.Sound) :
    p.Hidden p.ensureRoom ∧ (p.stale = false → ∀ id, p.ensureRoom.recent = some id →
      p.ensureRoom.cache.Recognizes id p.ensureRoom.microcode) := by
  rw [ensureRoom]
  split
  · refine ⟨⟨hp.forget.congr rfl rfl rfl rfl rfl, rfl, rfl⟩, fun _ id hid => ?_⟩
    cases hid
  · exact ⟨⟨hp, rfl, rfl⟩, hp.recent⟩

/-- Both ways of going on with a run find the code of live memory. -/
theorem nextBlock_spec (hp : p.Sound) (h : p.microcode.HasPair pc.toNat)
    (hrecent : begun = true → ∀ id, p.recent = some id → p.cache.Recognizes id p.microcode) :
    p.Yields (p.nextBlock pc begun) fun (hit, p') => p.Finds pc.toNat hit p' := by
  have hfind : p.Yields (p.findBlock pc) fun (hit, p') => p.Finds pc.toNat hit p' := by
    have hspec := findBlock_spec hp pc
    rwa [p.config.kind.pairOffset_eq_self hp.size_eq h] at hspec
  rw [nextBlock]
  split
  · case h_1 program hprogram =>
    -- the program of the block before is asked first, but not for the first block of a run
    split
    · case isTrue hbegun => exact enterProgram_spec hp (hrecent hbegun program hprogram) h
    · exact hfind
  · exact hfind

/-- The cache does not change while a block runs. -/
theorem Sound.enter (hp : p.Sound) (b : Block) (pc : UInt32) : (p.enter b pc).Sound := by
  rw [Processor.enter, count]
  -- what the code does to the registers has no part in this
  generalize b.run p.registers = regs
  exact hp.congr rfl rfl rfl rfl rfl

theorem stale_enter (p : Processor) (b : Block) (pc : UInt32) :
    (p.enter b pc).stale = p.stale := by
  rw [Processor.enter, count]

theorem uncached_enter (p : Processor) (b : Block) (pc : UInt32) :
    (p.enter b pc).uncached = p.uncached.withRegisters (b.code.run p.registers) := rfl

/-- **Turn.** One turn runs the code of live memory on the registers, wherever that code has come
from, and counts what it does. -/
theorem turn_spec (hp : p.Sound) (h : p.microcode.HasPair pc.toNat)
    (hbegun : begun = true → p.stale = false) :
    p.Yields (p.turn pc begun) fun (cycles, p') => p'.Sound ∧ p'.stale = false ∧
      p'.isUnlocked = p.isUnlocked ∧
      ∃ code, p.uncached.code? pc.toNat = some code ∧ cycles = code.cycles ∧
        p'.uncached = p.uncached.withRegisters (code.run p.registers) := by
  -- a flush may come before the block is found, and no one sees it either
  obtain ⟨hidden, hrecent⟩ := ensureRoom_spec hp
  have h' : p.ensureRoom.microcode.HasPair pc.toNat := hidden.microcode_eq ▸ h
  rw [turn]
  have hnext := nextBlock_spec hidden.sound h' fun hb => hrecent (hbegun hb)
  refine (hnext.of_isUnlocked_eq hidden.isUnlocked_eq).bind ?_
  rintro ⟨hit, p'⟩ found
  have hidden' := hidden.trans found.hidden
  have hregs : p'.registers = p.registers := congrArg Uncached.registers hidden'.uncached_eq
  have hrun := p'.uncached_enter hit.block pc
  rw [hidden'.uncached_eq, hregs] at hrun
  have hcode := found.code?_eq
  rw [hidden.uncached_eq] at hcode
  have hcurrent := (p'.stale_enter hit.block pc).trans found.current
  exact ⟨hidden'.sound.enter hit.block pc, hcurrent, hidden'.isUnlocked_eq, hit.block.code, hcode,
    rfl, hrun⟩

/-- **Run.** A run goes on as it does without a cache, if code has room and the arena may be
written. A flush on the way makes no difference to that. -/
theorem runBlocks_spec {budget : UInt32} (turns : Nat) {done : Tally} (hp : p.Sound)
    (h : p.microcode.HasPair pc.toNat) (hbegun : 0 < done.blocks → p.stale = false) :
    p.Yields (p.runBlocks budget turns pc done) fun (t, p') => p'.Sound ∧
      p.uncached.runBlocks budget turns pc done = some (t, p'.uncached) ∧
      p'.isUnlocked = p.isUnlocked := by
  induction turns generalizing p pc done with
  | zero => exact ⟨hp, rfl, rfl⟩
  | succ turns ih =>
    have hbegun' : decide (0 < done.blocks) = true → p.stale = false := fun hb =>
      hbegun (of_decide_eq_true hb)
    have hturn := turn_spec hp h hbegun'
    rw [runBlocks]
    split
    · case h_1 fault hfault =>
      rw [hfault] at hturn
      exact hturn
    · case h_2 cycles p' hok =>
      rw [hok] at hturn
      obtain ⟨hsound, hcurrent, hunlocked, code, hcode, rfl, hrun⟩ := hturn
      have hregs : p'.registers = code.run p.registers := congrArg Uncached.registers hrun
      have hmem : p'.microcode = p.microcode := congrArg Uncached.microcode hrun
      have hsize : p.microcode.size ≤ 512 * 1024 := hp.size_eq ▸ p.config.kind.memorySize_le
      -- the block leaves to the offset of a pair again, so the run never gets outside of memory
      have hnext : p'.microcode.HasPair p'.registers.pc.toNat := by
        rw [hmem, hregs]
        exact Uncached.hasPair_run (u := p.uncached) h hsize hcode p.registers
      rw [Uncached.runBlocks, hcode]
      dsimp only
      rw [← show p'.uncached = p.uncached.withRegisters (code.run p.uncached.registers) from hrun]
      have hstop : p'.uncached.registers = p'.registers := rfl
      rw [hstop]
      split
      · exact ⟨hsound, rfl, hunlocked⟩
      · refine ((ih hsound hnext fun _ => hcurrent).of_isUnlocked_eq hunlocked).mono ?_
        rintro ⟨t, p''⟩ ⟨hsound', hrest, hunlocked'⟩
        exact ⟨hsound', hrest, hunlocked'.trans hunlocked⟩

theorem execute_spec (hp : p.Sound) (start budget : UInt32) :
    p.Yields (p.execute start budget) fun (t, p') => p'.Sound ∧
      p.uncached.execute start budget = some (t, p'.uncached) ∧ p'.isUnlocked = p.isUnlocked := by
  have hbegin : (p.beginRun (UInt32.ofNat (p.config.kind.pairOffset start))).Sound :=
    hp.congr rfl rfl rfl rfl rfl
  have hpc := p.config.kind.hasPair_pairOffset hp.size_eq start
  rw [← p.config.kind.toNat_ofNat_pairOffset start] at hpc
  exact Yields.of_isUnlocked_eq rfl
    (runBlocks_spec _ hbegin hpc fun hblocks => absurd hblocks (Nat.lt_irrefl 0))

end Processor

/-! ### Operations -/

/-- An operation on a vector unit. These are all that can be done to one from outside, apart from
asking a program of its own choice for a block. -/
inductive Operation where
  | write (offset : UInt32) (data : List UInt8)
  | noteChange (offset size : UInt32)
  | reset (full : Bool)
  | load (s : SaveState)
  | setRegisters (registers : Registers)
  | findBlock (offset : UInt32)
  | execute (start budget : UInt32)

/-- What an operation returns. Of a block that is looked up only the code is seen here, for its
number and its place depend on what was done before. -/
inductive Answer where
  | done
  /-- The save state does not fit, and nothing has happened. -/
  | refused (e : SaveState.Misfit)
  /-- The code of the block found. -/
  | found (code : Code)
  | ran (t : Tally)
deriving DecidableEq

namespace Processor

/-- What an operation returns, and the unit after it. -/
def perform (p : Processor) : Operation → Except Fault (Answer × Processor)
  | .write offset data => .ok (.done, p.write offset data)
  | .noteChange offset size => .ok (.done, p.noteChange offset size)
  | .reset full => .ok (.done, p.reset full)
  | .load s =>
    match (loadInPlace s).run p with
    | .ok _ p' => .ok (.done, p')
    | .error e p' => .ok (.refused e, p')
  | .setRegisters registers => .ok (.done, p.withRegisters registers)
  | .findBlock offset => do
    let (hit, p') ← p.findBlock offset
    return (.found hit.block.code, p')
  | .execute start budget => do
    let (t, p') ← p.execute start budget
    return (.ran t, p')

/-- A save state that is refused leaves the unit as it was. -/
theorem perform_load (p : Processor) (s : SaveState) :
    p.perform (.load s) =
      match p.load s with
      | .ok p' => .ok (.done, p')
      | .error e => .ok (.refused e, p) := by
  rw [perform, load, run_loadInPlace]
  cases s.fit p.config.kind with
  | ok _ => rfl
  | error e => rfl

/-- What an operation that has a result comes to: one case for each operation, and two for those
that may do nothing. Nothing is written if there are no bytes, and a save state is refused if it is
not one for this unit. -/
inductive Performs (p : Processor) : Operation → Answer → Processor → Prop
  | writeNone (offset : UInt32) : p.Performs (.write offset []) .done p
  | write (offset : UInt32) {data : List UInt8} (hne : data ≠ []) :
    p.Performs (.write offset data) .done
      { p with microcode := p.microcode.write offset.toNat data }.markStale
  | noteChange (offset size : UInt32) : p.Performs (.noteChange offset size) .done p.markStale
  | reset (full : Bool) : p.Performs (.reset full) .done (p.reset full)
  | load {s : SaveState} {q : Processor} (hload : p.load s = .ok q) : p.Performs (.load s) .done q
  | refused {s : SaveState} {e : SaveState.Misfit} (hload : p.load s = .error e) :
    p.Performs (.load s) (.refused e) p
  | setRegisters (registers : Registers) :
    p.Performs (.setRegisters registers) .done (p.withRegisters registers)
  | findBlock {offset : UInt32} {hit : Hit} {q : Processor}
    (hfind : p.findBlock offset = .ok (hit, q)) :
    p.Performs (.findBlock offset) (.found hit.block.code) q
  | execute {start budget : UInt32} {t : Tally} {q : Processor}
    (hrun : p.execute start budget = .ok (t, q)) : p.Performs (.execute start budget) (.ran t) q

/-- Whatever operations do, these are the cases. What each of them keeps is shown by going through
them, without opening operations again. -/
theorem performs_of_eq_ok {p q : Processor} {op : Operation} {a : Answer}
    (h : p.perform op = .ok (a, q)) : p.Performs op a q := by
  cases op with
  | write offset data =>
    obtain ⟨rfl, rfl⟩ := Prod.mk.inj (Except.ok.inj h)
    by_cases hne : data = []
    · rw [hne, write_nil]
      exact .writeNone offset
    · rw [write_of_ne_nil hne]
      exact .write offset hne
  | noteChange offset size =>
    obtain ⟨rfl, rfl⟩ := Prod.mk.inj (Except.ok.inj h)
    exact .noteChange offset size
  | reset full =>
    obtain ⟨rfl, rfl⟩ := Prod.mk.inj (Except.ok.inj h)
    exact .reset full
  | load s =>
    rw [perform_load] at h
    split at h
    · case h_1 q' hload =>
      obtain ⟨rfl, rfl⟩ := Prod.mk.inj (Except.ok.inj h)
      exact .load hload
    · case h_2 e hload =>
      obtain ⟨rfl, rfl⟩ := Prod.mk.inj (Except.ok.inj h)
      exact .refused hload
  | setRegisters registers =>
    obtain ⟨rfl, rfl⟩ := Prod.mk.inj (Except.ok.inj h)
    exact .setRegisters registers
  | findBlock offset =>
    obtain ⟨⟨hit, q'⟩, hfind, h⟩ := exists_of_bind_eq_ok h
    obtain ⟨rfl, rfl⟩ := Prod.mk.inj (Except.ok.inj h)
    exact .findBlock hfind
  | execute start budget =>
    obtain ⟨⟨t, q'⟩, hrun, h⟩ := exists_of_bind_eq_ok h
    obtain ⟨rfl, rfl⟩ := Prod.mk.inj (Except.ok.inj h)
    exact .execute hrun

/-- What some operations return one after another, each with the unit after it. -/
def history (p : Processor) : List Operation → Except Fault (List (Answer × Processor))
  | [] => .ok []
  | op :: rest => do
    let (a, p') ← p.perform op
    let later ← p'.history rest
    return (a, p') :: later

end Processor

namespace Uncached

/-- A unit whose memory and registers are zero. -/
def create (config : Config) : Uncached where
  kind := config.kind
  maxBlockLength := config.maxBlockLength
  microcode := .zeros config.kind.memorySize
  registers := .initial

/-- What an operation returns, and the unit after it. There is nothing that a note of a change or a
reset could do. -/
def perform (u : Uncached) : Operation → Option (Answer × Uncached)
  | .write offset data => some (.done, u.write offset data)
  | .noteChange _ _ => some (.done, u)
  | .reset _ => some (.done, u)
  | .load s =>
    match u.load s with
    | .ok u' => some (.done, u')
    | .error e => some (.refused e, u)
  | .setRegisters registers => some (.done, u.withRegisters registers)
  | .findBlock offset => do
    let code ← u.code? (u.kind.pairOffset offset)
    return (.found code, u)
  | .execute start budget => do
    let (t, u') ← u.execute start budget
    return (.ran t, u')

/-- What some operations return one after another, each with the unit after it. -/
def history (u : Uncached) : List Operation → Option (List (Answer × Uncached))
  | [] => some []
  | op :: rest => do
    let (a, u') ← u.perform op
    let later ← u'.history rest
    return (a, u') :: later

end Uncached

namespace Processor

variable {p : Processor}

/-- The arena of a new unit is as long as the configuration says, or of the least length. -/
theorem isUnlocked_create {host : Host} {config : Config} (h : create host config = .ok p) :
    p.isUnlocked = host.unlocks (max config.arenaSize Arena.minLength) := by
  rw [create, Recompiler.create, Arena.reserve] at h
  split at h
  · cases h
  · obtain rfl := Except.ok.inj h
    rfl

/-- A new unit is sound. -/
theorem sound_create {host : Host} {config : Config} (h : create host config = .ok p) :
    p.Sound ∧ p.uncached = .create config := by
  have hspan : Shelf.span ∣ config.kind.memorySize := by
    cases config.kind <;> decide
  rw [create] at h
  obtain ⟨recompiler, -, h⟩ := exists_of_bind_eq_ok h
  obtain rfl := Except.ok.inj h
  refine ⟨⟨Memory.size_zeros _, .create _ _ hspan, fun s hs hit hhit => ?_, ?_⟩, rfl⟩
  · obtain ⟨-, rfl⟩ := Array.mem_replicate.mp hs
    cases hhit
  · exact fun hstale => by cases hstale

/-- Whatever is in microcode after a change, nothing that was known of it is relied on. -/
theorem Sound.markStale (hp : p.Sound) {m : Memory} (hsize : m.size = p.config.kind.memorySize) :
    Sound (Processor.markStale { p with microcode := m }) := by
  rw [Processor.markStale]
  split
  · case isTrue hstale =>
    -- the shortcuts were dropped by an earlier change
    refine ⟨hsize, hp.inOrder, hp.shortcuts.mono fun id h => ?_, fun hfresh => ?_⟩
    · exact absurd hstale (by rw [h.1]; decide)
    · exact absurd hstale (by rw [hfresh]; decide)
  · have hshortcuts := p.cache.shortcutsSatisfy_dropShortcuts
    refine ⟨hsize, hp.inOrder.dropShortcuts, hshortcuts _, fun hfresh => ?_⟩
    cases hfresh

theorem isUnlocked_markStale (p : Processor) : p.markStale.isUnlocked = p.isUnlocked := by
  rw [Processor.markStale]
  split
  · rfl
  · rfl

theorem uncached_markStale (p : Processor) : p.markStale.uncached = p.uncached := by
  rw [Processor.markStale]
  split
  · rfl
  · rfl

theorem write_spec (hp : p.Sound) (offset : UInt32) (data : List UInt8) :
    (p.write offset data).Sound ∧
      (p.write offset data).uncached = p.uncached.write offset data ∧
      (p.write offset data).isUnlocked = p.isUnlocked := by
  rw [Processor.write]
  split
  · case isTrue hempty =>
    obtain rfl := List.isEmpty_iff.mp hempty
    exact ⟨hp, rfl, rfl⟩
  · have hsize : (p.microcode.write offset.toNat data).size = p.config.kind.memorySize :=
      (p.microcode.size_write offset.toNat data).trans hp.size_eq
    exact ⟨hp.markStale hsize, uncached_markStale _, isUnlocked_markStale _⟩

theorem reset_spec (hp : p.Sound) (full : Bool) :
    (p.reset full).Sound ∧ (p.reset full).uncached = p.uncached := by
  rw [reset_eq]
  exact ⟨hp.forget.congr rfl rfl rfl rfl rfl, rfl⟩

/-- What loading a save state comes to, and what it does without a cache. -/
theorem load_spec (hp : p.Sound) (s : SaveState) :
    (∃ p', p.load s = .ok p' ∧ p'.Sound ∧ p.uncached.load s = .ok p'.uncached ∧
        p'.isUnlocked = p.isUnlocked) ∨
      ∃ e, p.load s = .error e ∧ p.uncached.load s = .error e := by
  have hkind : p.uncached.kind = p.config.kind := rfl
  rw [load_eq, Uncached.load, hkind, SaveState.fit]
  by_cases hfit : s.kind = p.config.kind ∧ s.microcode.size = p.config.kind.memorySize
  · rw [if_pos hfit]
    have hregisters : (p.withRegisters s.registers).Sound := hp.congr rfl rfl rfl rfl rfl
    have hsound := hregisters.markStale hfit.2
    have huncached :=
      uncached_markStale { p.withRegisters s.registers with microcode := s.microcode }
    have hunlocked :=
      isUnlocked_markStale { p.withRegisters s.registers with microcode := s.microcode }
    exact .inl ⟨_, rfl, hsound.congr rfl rfl rfl rfl rfl, congrArg Except.ok huncached.symm,
      hunlocked⟩
  · rw [if_neg hfit]
    exact .inr ⟨_, rfl, rfl⟩

/-- **Step.** An operation on a sound unit returns what it returns without a cache, and keeps the
unit sound. -/
theorem perform_spec (hp : p.Sound) (op : Operation) :
    p.Yields (p.perform op) fun (a, p') => p'.Sound ∧
      p.uncached.perform op = some (a, p'.uncached) ∧ p'.isUnlocked = p.isUnlocked := by
  cases op with
  | write offset data =>
    obtain ⟨hsound, huncached, hunlocked⟩ := write_spec hp offset data
    exact ⟨hsound, by rw [huncached]; rfl, hunlocked⟩
  | noteChange offset size =>
    have hsound := hp.markStale hp.size_eq
    have huncached := congrArg (fun u => some (Answer.done, u)) (uncached_markStale p).symm
    exact ⟨hsound, huncached, isUnlocked_markStale p⟩
  | reset full =>
    obtain ⟨hsound, huncached⟩ := reset_spec hp full
    exact ⟨hsound, by rw [huncached]; rfl, isUnlocked_reset p full⟩
  | load s =>
    rw [perform_load, Uncached.perform]
    rcases load_spec hp s with ⟨p', hload, hsound, huncached, hunlocked⟩ | ⟨e, hload, huncached⟩
    · rw [hload, huncached]
      exact ⟨hsound, rfl, hunlocked⟩
    · rw [hload, huncached]
      exact ⟨hp, rfl, rfl⟩
  | setRegisters registers => exact ⟨hp.congr rfl rfl rfl rfl rfl, rfl, rfl⟩
  | findBlock offset =>
    refine (findBlock_spec hp offset).bind ?_
    rintro ⟨hit, p'⟩ found
    have hcode : p.uncached.code? (p.uncached.kind.pairOffset offset) = some hit.block.code :=
      found.code?_eq
    refine ⟨found.hidden.sound, ?_, found.hidden.isUnlocked_eq⟩
    rw [Uncached.perform, hcode, found.hidden.uncached_eq]
    rfl
  | execute start budget =>
    refine (execute_spec hp start budget).bind ?_
    rintro ⟨t, p'⟩ ⟨hsound, hrun, hunlocked⟩
    refine ⟨hsound, ?_, hunlocked⟩
    rw [Uncached.perform, hrun]
    rfl

/-- What is seen of a history: what the operations return, and what the units would be without
their caches. -/
def seen (h : List (Answer × Processor)) : List (Answer × Uncached) :=
  h.map fun r => (r.1, r.2.uncached)

theorem history_spec (hp : p.Sound) (ops : List Operation) :
    p.Yields (p.history ops) fun h => p.uncached.history ops = some (seen h) := by
  induction ops generalizing p with
  | nil => rfl
  | cons op rest ih =>
    refine (perform_spec hp op).bind ?_
    rintro ⟨a, p'⟩ ⟨hsound, hperform, hunlocked⟩
    refine ((ih hsound).of_isUnlocked_eq hunlocked).bind fun later hlater => ?_
    show p.uncached.history (op :: rest) = some (seen ((a, p') :: later))
    rw [Uncached.history, hperform]
    show (p'.uncached.history rest).bind _ = _
    rw [hlater]
    rfl

/-- **Transparency.** Whatever operations are carried out on a new unit whose arena may be written,
each returns what it returns without a cache and leaves the same registers and the same microcode,
as long as the code of all blocks has room. -/
theorem history_eq {host : Host} {config : Config} (hnew : create host config = .ok p)
    (hunlocked : p.isUnlocked = true) (ops : List Operation)
    (hroom : ∀ offset, p.history ops ≠ .error (.exhausted offset)) :
    ∃ h, p.history ops = .ok h ∧ (Uncached.create config).history ops = some (seen h) := by
  obtain ⟨hsound, hcreate⟩ := sound_create hnew
  rw [← hcreate]
  exact (history_spec hsound ops).exists_ok hunlocked hroom

/-- A program runs, and runs again after the pair in its delay slot was written over. -/
def rewrittenSlot : List Operation :=
  [.write 0 (Pair.image [Pair.programEnd] 16), .execute 0 8,
    .write 8 (Pair.toBytes (Pair.ofLower (Statement.word (.iaddi 1 1 1)))), .execute 0 8]

theorem history_eq_of_rewrittenSlot : ∃ p h, create .compact .standard = .ok p ∧
    p.history rewrittenSlot = .ok h ∧
    (Uncached.create .standard).history rewrittenSlot = some (seen h) := by
  obtain ⟨p, hnew, hunlocked, hok⟩ : ∃ p, create .compact .standard = .ok p ∧
      p.isUnlocked = true ∧ (p.history rewrittenSlot).toBool = true :=
    ⟨_, rfl, rfl, by decide +kernel⟩
  obtain ⟨h, hrun, hseen⟩ := history_eq hnew hunlocked rewrittenSlot fun offset hfault => by
    rw [hfault] at hok
    cases hok
  exact ⟨p, h, hnew, hrun, hseen⟩

end Processor

end VectorUnit
