import VectorUnit.Proofs.Residence
import VectorUnit.Proofs.Turns

/-!
# Counters account for what was done

What was done to a unit (`Processor.Deed`) is summed up in an `Account`: how often it ran and what
its runs took, what was looked up and which sequences were compiled, and what the counters were
whenever all programs were forgotten. The counters of a unit tell its account exactly
(`Counters.Tells`), and what is stored is what was created and compiled since programs were
forgotten last (`Processor.StoredSince`). See `Processor.accounts_of_chronicle`.

Accounts of what is done in turn add up, and so do counters (`Processor.Adds.trans`). So every part
of a lookup, each turn of a run and each operation has an account of its own.
-/

namespace VectorUnit

/-! ### Accounts -/

/-- An account of what was done to a unit. Accounts of what is done in turn add up, so the account
of a long history is put together from those of its parts. -/
structure Account where
  runs : Nat
  /-- Blocks that ran. -/
  turns : Nat
  /-- Blocks that were looked up, and not taken from the program of the block before. -/
  lookups : Nat
  /-- The sequences that were compiled. -/
  compiled : List Sequence
  flushes : Nat
  resets : Nat
  /-- The counters whenever all programs were forgotten. -/
  forgettings : List Counters

namespace Account

/-- Nothing was done. -/
def zero : Account := ⟨0, 0, 0, [], 0, 0, []⟩

instance : Inhabited Account := ⟨zero⟩

/-- One account after another. -/
def add (a b : Account) : Account where
  runs := a.runs + b.runs
  turns := a.turns + b.turns
  lookups := a.lookups + b.lookups
  compiled := a.compiled ++ b.compiled
  flushes := a.flushes + b.flushes
  resets := a.resets + b.resets
  forgettings := a.forgettings ++ b.forgettings

theorem zero_add (a : Account) : zero.add a = a := by
  simp only [add, zero, Nat.zero_add, List.nil_append]

theorem add_zero (a : Account) : a.add zero = a := by
  simp only [add, zero, Nat.add_zero, List.append_nil]

theorem add_assoc (a b c : Account) : (a.add b).add c = a.add (b.add c) := by
  simp only [add, Nat.add_assoc, List.append_assoc]

/-- The sum of some accounts. -/
def sum (as : List Account) : Account :=
  as.foldr add zero

theorem sum_append (as bs : List Account) : sum (as ++ bs) = (sum as).add (sum bs) := by
  induction as with
  | nil => exact (zero_add _).symm
  | cons a rest ih =>
    show a.add (sum (rest ++ bs)) = (a.add (sum rest)).add (sum bs)
    rw [ih, add_assoc]

/-- What the counters were when all programs were forgotten last, if they ever were. Everything
created and compiled since is still stored. -/
def mark (a : Account) : Counters :=
  a.forgettings.getLast?.getD .zero

end Account

namespace Counters

/-- Counters that have gone on counting. -/
def add (s d : Counters) : Counters where
  runs := s.runs + d.runs
  turns := s.turns + d.turns
  shortcuts := s.shortcuts + d.shortcuts
  lookups := s.lookups + d.lookups
  comparisons := s.comparisons + d.comparisons
  creations := s.creations + d.creations
  compilations := s.compilations + d.compilations
  flushes := s.flushes + d.flushes
  resets := s.resets + d.resets
  tolerated := s.tolerated + d.tolerated

theorem zero_add (s : Counters) : zero.add s = s := by
  simp only [add, zero, Nat.zero_add]

theorem add_assoc (s d e : Counters) : (s.add d).add e = s.add (d.add e) := by
  simp only [add, Nat.add_assoc]

/-- No counter of the first is greater than that of the second. Nothing that is done to a unit ever
sets a counter back, so this holds between any two states of one unit. -/
structure AtMost (s s' : Counters) : Prop where
  runs : s.runs ≤ s'.runs
  turns : s.turns ≤ s'.turns
  shortcuts : s.shortcuts ≤ s'.shortcuts
  lookups : s.lookups ≤ s'.lookups
  comparisons : s.comparisons ≤ s'.comparisons
  creations : s.creations ≤ s'.creations
  compilations : s.compilations ≤ s'.compilations
  flushes : s.flushes ≤ s'.flushes
  resets : s.resets ≤ s'.resets
  tolerated : s.tolerated ≤ s'.tolerated

theorem atMost_add (s d : Counters) : s.AtMost (s.add d) := by
  constructor <;> exact Nat.le_add_right _ _

/-- Counters tell what was done since they were zero. `refuses` says which sequences are refused at
first. -/
structure Tells (d : Counters) (a : Account) (refuses : Sequence → Bool) : Prop where
  runs_eq : d.runs = a.runs
  turns_eq : d.turns = a.turns
  lookups_eq : d.shortcuts + d.lookups = a.lookups
  creations_le : d.creations ≤ d.lookups
  compilations_eq : d.compilations = a.compiled.length
  tolerated_eq : d.tolerated = a.compiled.countP refuses
  flushes_eq : d.flushes = a.flushes
  resets_eq : d.resets = a.resets

theorem Tells.add {d e : Counters} {a b : Account} {refuses : Sequence → Bool}
    (h : d.Tells a refuses) (h' : e.Tells b refuses) : (d.add e).Tells (a.add b) refuses where
  runs_eq := congrArg₂ _ h.runs_eq h'.runs_eq
  turns_eq := congrArg₂ _ h.turns_eq h'.turns_eq
  lookups_eq := by
    show d.shortcuts + e.shortcuts + (d.lookups + e.lookups) = a.lookups + b.lookups
    rw [← h.lookups_eq, ← h'.lookups_eq]
    omega
  creations_le := Nat.add_le_add h.creations_le h'.creations_le
  compilations_eq := by
    rw [Account.add, List.length_append, ← h.compilations_eq, ← h'.compilations_eq]
    rfl
  tolerated_eq := by
    rw [Account.add, List.countP_append, ← h.tolerated_eq, ← h'.tolerated_eq]
    rfl
  flushes_eq := congrArg₂ _ h.flushes_eq h'.flushes_eq
  resets_eq := congrArg₂ _ h.resets_eq h'.resets_eq

end Counters

namespace Processor

variable {p p' p'' q : Processor} {a b : Account} {offset : Nat} {program : ProgramNumber}

/-- What is stored is what was created and compiled since the counters were `mark`: the counters
themselves are never set back, but a reset and a flush forget all programs and blocks, and move the
mark to where the counters are then. -/
structure StoredSince (p : Processor) (mark : Counters) : Prop where
  programs : p.cache.programs.size + mark.creations = p.counters.creations
  blocks : p.cache.blocks.size + mark.compilations = p.counters.compilations

/-- What was done between one unit and another is told by what the counters have gone on
counting. -/
structure Adds (p : Processor) (a : Account) (q : Processor) : Prop where
  counted : ∃ d, q.counters = p.counters.add d ∧ d.Tells a p.recompiler.refuses ∧
    q.cache.nextSerial = p.cache.nextSerial + d.creations
  compiled_eq : q.recompiler.compiled = p.recompiler.compiled + a.compiled.length
  ignoresUnknown_eq : q.recompiler.ignoresUnknown = p.recompiler.ignoresUnknown
  storedSince : ∀ mark, p.StoredSince mark → q.StoredSince (a.forgettings.getLast?.getD mark)

namespace Adds

theorem refuses_eq (h : p.Adds a q) : q.recompiler.refuses = p.recompiler.refuses := by
  funext s
  rw [Recompiler.refuses, h.ignoresUnknown_eq, Recompiler.refuses]

theorem trans (h : p.Adds a p') (h' : p'.Adds b p'') : p.Adds (a.add b) p'' := by
  obtain ⟨d, hd, htells, hserial⟩ := h.counted
  obtain ⟨e, he, htells', hserial'⟩ := h'.counted
  refine ⟨⟨d.add e, ?_, htells.add (h.refuses_eq ▸ htells'), ?_⟩, ?_,
    h'.ignoresUnknown_eq.trans h.ignoresUnknown_eq, fun mark hmark => ?_⟩
  · rw [he, hd, Counters.add_assoc]
  · rw [hserial', hserial, Nat.add_assoc]
    rfl
  · rw [h'.compiled_eq, h.compiled_eq, Account.add, List.length_append, Nat.add_assoc]
  · rw [Account.add, List.getLast?_append, Option.getD_or]
    exact h'.storedSince _ (h.storedSince mark hmark)

theorem atMost (h : p.Adds a q) : p.counters.AtMost q.counters := by
  obtain ⟨d, hd, -, -⟩ := h.counted
  exact hd ▸ p.counters.atMost_add d

/-- Something was counted, but nothing stored, compiled or forgotten. -/
theorem of_counted {d : Counters} (hcounters : q.counters = p.counters.add d)
    (htells : d.Tells a p.recompiler.refuses) (hcreations : d.creations = 0)
    (hcompiled : a.compiled = []) (hforgettings : a.forgettings = [])
    (hrecompiler : q.recompiler = p.recompiler)
    (hprograms : q.cache.programs.size = p.cache.programs.size)
    (hblocks : q.cache.blocks = p.cache.blocks)
    (hserial : q.cache.nextSerial = p.cache.nextSerial) : p.Adds a q := by
  refine ⟨⟨d, hcounters, htells, ?_⟩, ?_, by rw [hrecompiler], fun mark hmark => ?_⟩
  · rw [hserial, hcreations, Nat.add_zero]
  · rw [hrecompiler, hcompiled, List.length_nil, Nat.add_zero]
  · have hcompilations : d.compilations = 0 := by
      rw [htells.compilations_eq, hcompiled, List.length_nil]
    rw [hforgettings, List.getLast?_nil, Option.getD_none]
    constructor
    · rw [hprograms, hmark.programs, hcounters]
      exact (congrArg (p.counters.creations + ·) hcreations).symm
    · rw [hblocks, hmark.blocks, hcounters]
      exact (congrArg (p.counters.compilations + ·) hcompilations).symm

/-- Nothing that is counted was done. -/
theorem of_eq (hcounters : q.counters = p.counters) (hrecompiler : q.recompiler = p.recompiler)
    (hprograms : q.cache.programs.size = p.cache.programs.size)
    (hblocks : q.cache.blocks = p.cache.blocks)
    (hserial : q.cache.nextSerial = p.cache.nextSerial) : p.Adds .zero q :=
  of_counted (d := .zero) hcounters ⟨rfl, rfl, rfl, Nat.le_refl _, rfl, rfl, rfl, rfl⟩ rfl rfl rfl
    hrecompiler hprograms hblocks hserial

/-- All programs were forgotten. -/
theorem of_forgetting {d : Counters} (hcounters : q.counters = p.counters.add d)
    (htells : d.Tells a p.recompiler.refuses) (hcreations : d.creations = 0)
    (hcompiled : a.compiled = []) (hforgettings : a.forgettings = [p.counters])
    (hcache : q.cache = p.cache.forgetAll)
    (hrecompiler : q.recompiler.compiled = p.recompiler.compiled)
    (hignores : q.recompiler.ignoresUnknown = p.recompiler.ignoresUnknown) : p.Adds a q := by
  refine ⟨⟨d, hcounters, htells, ?_⟩, ?_, hignores, fun mark _ => ?_⟩
  · rw [hcache, hcreations]
    rfl
  · rw [hrecompiler, hcompiled, List.length_nil, Nat.add_zero]
  · have hcompilations : d.compilations = 0 := by
      rw [htells.compilations_eq, hcompiled, List.length_nil]
    rw [hforgettings, List.getLast?_singleton, Option.getD_some]
    constructor
    · rw [hcache, hcounters, Counters.add, hcreations]
      exact Nat.zero_add _
    · rw [hcache, hcounters, Counters.add, hcompilations]
      exact Nat.zero_add _

theorem refl (p : Processor) : p.Adds .zero p :=
  .of_eq rfl rfl rfl rfl rfl

/-- Nothing was counted before. -/
theorem of_zero_add (h : p.Adds (Account.zero.add a) q) : p.Adds a q :=
  Account.zero_add a ▸ h

theorem of_add_zero (h : p.Adds (a.add .zero) q) : p.Adds a q :=
  Account.add_zero a ▸ h

end Adds

/-! ### Lookups -/

/-- The sequence that is compiled when a program is asked for its block at an offset, if it has
none. -/
def compiledAt (p : Processor) (program : ProgramNumber) (offset : Nat) : List Sequence :=
  if (p.cache.blockOf? program offset).isSome then []
  else (Sequence.ofMemory? p.microcode offset p.config.maxBlockLength).toList

/-- Sequences were compiled. -/
def compiling (ss : List Sequence) : Account :=
  { Account.zero with compiled := ss }

theorem adds_blockAt {id : BlockNumber} (hblock : p.blockAt program offset = .ok (id, q)) :
    p.Adds (compiling (p.compiledAt program offset)) q := by
  obtain ⟨owner, howner, ⟨hid, rfl⟩ | ⟨hnone, b, p₁, cache, hcompile, hadd, rfl⟩⟩ :=
    blockAt_eq_ok hblock
  · have hcompiled : q.compiledAt program offset = [] :=
      if_pos (by rw [Cache.blockOf?_eq howner, hid]; rfl)
    rw [hcompiled]
    exact .refl q
  · obtain ⟨s, r, hs, hany, rfl⟩ := compileAt_eq_ok hcompile
    obtain ⟨-, -, -, rfl⟩ := Cache.addBlock_eq_some hadd
    obtain ⟨arena, -, -, rfl⟩ := Recompiler.compileAny_eq_ok hany
    have hcompiled : p.compiledAt program offset = [s] := by
      rw [compiledAt, if_neg (by rw [Cache.blockOf?_eq howner, hnone]; decide), hs]
      rfl
    rw [hcompiled]
    refine ⟨⟨{ Counters.zero with
        compilations := 1
        tolerated := if p.recompiler.refuses s then 1 else 0 }, rfl,
      ⟨rfl, rfl, rfl, Nat.le_refl _, rfl, ?_, rfl, rfl⟩, rfl⟩, rfl, rfl,
      fun mark hmark => ⟨?_, ?_⟩⟩
    · rw [compiling, List.countP_singleton]
    · exact (congrArg (· + mark.creations) (Array.size_modify ..)).trans hmark.programs
    · have hblocks := hmark.blocks
      show (p.cache.blocks.push b).size + mark.compilations = p.counters.compilations + 1
      rw [Array.size_push]
      omega

theorem adds_enterProgram {hit : Hit} (henter : p.enterProgram program offset = .ok (hit, q)) :
    p.Adds (compiling (p.compiledAt hit.program offset)) q := by
  obtain ⟨p₁, cache, hblock, hcache, -, rfl, rfl⟩ := enterProgram_eq_ok henter
  have hentered : p.Adds .zero { p with stale := false, recent := some hit.program } :=
    .of_eq rfl rfl rfl rfl rfl
  have hset : p₁.Adds .zero { p₁ with cache := cache } := by
    obtain ⟨-, rfl⟩ := Cache.modifyShelf_eq_some hcache
    exact .of_eq rfl rfl rfl rfl rfl
  exact ((hentered.trans (adds_blockAt hblock)).of_zero_add.trans hset).of_add_zero

/-- Blocks were looked up. -/
def lookingUp (count : Nat) : Account :=
  { Account.zero with lookups := count }

/-- Comparing programs is a lookup, and no program has a block afterwards that it did not have. -/
theorem adds_matchPrograms (hmatch : p.matchPrograms offset = .ok (program, q)) :
    p.Adds (lookingUp 1) q ∧ q.compiledAt program offset = p.compiledAt program offset := by
  obtain ⟨l, -, ⟨-, cache, hcache, rfl⟩ | ⟨-, cache, hcache, rfl⟩⟩ := matchPrograms_eq_ok hmatch
  · obtain ⟨-, rfl⟩ := Cache.modifyShelf_eq_some hcache
    have htells : Counters.Tells { Counters.zero with
        lookups := 1
        comparisons := l.comparisons } (lookingUp 1) p.recompiler.refuses :=
      ⟨rfl, rfl, rfl, Nat.zero_le _, rfl, rfl, rfl, rfl⟩
    exact ⟨.of_counted rfl htells rfl rfl rfl rfl rfl rfl rfl, rfl⟩
  · obtain ⟨-, rfl, rfl⟩ := Cache.addProgram_eq_some hcache
    refine ⟨⟨⟨{ Counters.zero with
        lookups := 1
        comparisons := l.comparisons
        creations := 1 }, rfl, ⟨rfl, rfl, rfl, Nat.le_refl _, rfl, rfl, rfl, rfl⟩, rfl⟩, rfl, rfl,
      fun mark hmark => ⟨?_, hmark.blocks⟩⟩, ?_⟩
    · have hprograms := hmark.programs
      show (p.cache.programs.push _).size + mark.creations = p.counters.creations + 1
      rw [Array.size_push]
      omega
    · rw [compiledAt, compiledAt]
      dsimp only
      rw [Cache.blockOf?_addProgram (c := p.cache) rfl]

/-- A block was looked up, and some sequences were compiled. -/
theorem adds_findBlockAt {hit : Hit} (hfind : p.findBlockAt offset = .ok (hit, q)) :
    p.Adds ((lookingUp 1).add (compiling (p.compiledAt hit.program offset))) q := by
  obtain ⟨shelf, -, ⟨program, id, -, henter⟩ | ⟨-, program, p₁, hmatch, henter⟩⟩ :=
    findBlockAt_eq_ok hfind
  · have hentered := adds_enterProgram henter
    refine Adds.trans ?_ hentered
    have htells : Counters.Tells { Counters.zero with shortcuts := 1 } (lookingUp 1)
        p.recompiler.refuses := ⟨rfl, rfl, rfl, Nat.le_refl _, rfl, rfl, rfl, rfl⟩
    exact .of_counted rfl htells rfl rfl rfl rfl rfl rfl rfl
  · obtain rfl := program_enterProgram henter
    obtain ⟨hadds, hcompiled⟩ := adds_matchPrograms hmatch
    rw [← hcompiled]
    exact hadds.trans (adds_enterProgram henter)

/-- Only the block of the program that the unit goes on with is not looked up. -/
theorem adds_nextBlock {pc : UInt32} {begun : Bool} {hit : Hit}
    (hself : p.config.kind.pairOffset pc = pc.toNat)
    (hnext : p.nextBlock pc begun = .ok (hit, q)) :
    p.Adds ((lookingUp (if begun && p.recent.isSome then 0 else 1)).add
        (compiling (p.compiledAt hit.program pc.toNat))) q ∧ q.recent = some hit.program := by
  have hfound : ∀ hfind : p.findBlock pc = .ok (hit, q),
      p.Adds ((lookingUp 1).add (compiling (p.compiledAt hit.program pc.toNat))) q ∧
        q.recent = some hit.program := by
    intro hfind
    rw [findBlock, hself] at hfind
    exact ⟨adds_findBlockAt hfind, recent_findBlockAt hfind⟩
  rw [nextBlock] at hnext
  cases hrecent : p.recent with
  | none =>
    rw [hrecent] at hnext
    rw [Option.isSome_none, Bool.and_false]
    exact hfound hnext
  | some program =>
    rw [hrecent] at hnext
    rw [Option.isSome_some, Bool.and_true]
    cases begun with
    | true => exact ⟨(adds_enterProgram hnext), recent_enterProgram hnext⟩
    | false => exact hfound hnext

/-! ### Turns -/

namespace Turn

/-- Too little room is left, so all programs are forgotten before a block is found, and the block is
looked up even if the run has begun. -/
def isShort (t : Turn) : Bool :=
  t.unit.recompiler.arena.room < t.unit.config.headroom

/-- Programs are forgotten although the run has begun. -/
def isLate (t : Turn) : Bool :=
  t.begun && t.isShort

/-- The sequences that are compiled in a turn. -/
def compiled (t : Turn) : List Sequence :=
  match t.lookup with
  | .ok (hit, _) => t.unit.ensureRoom.compiledAt hit.program t.pc.toNat
  | .error _ => []

/-- The account of some turns. -/
def account (ts : List Turn) : Account where
  runs := 0
  turns := ts.length
  lookups := ts.countP fun t => !t.begun || t.isShort
  compiled := ts.flatMap compiled
  flushes := ts.countP isShort
  resets := 0
  forgettings := (ts.filter isShort).map fun t => t.unit.counters

theorem account_cons (t : Turn) (ts : List Turn) :
    account (t :: ts) = (account [t]).add (account ts) := by
  rw [← List.singleton_append]
  simp only [account, Account.add, List.length_append, List.countP_append, List.flatMap_append,
    List.filter_append, List.map_append, Nat.zero_add]

theorem account_singleton {t : Turn} {hit : Hit} {q : Processor}
    (hlookup : t.lookup = .ok (hit, q)) : account [t] =
      ⟨0, 1, if !t.begun || t.isShort then 1 else 0,
        t.unit.ensureRoom.compiledAt hit.program t.pc.toNat, if t.isShort then 1 else 0, 0,
        if t.isShort then [t.unit.counters] else []⟩ := by
  rw [account, List.flatMap_singleton, compiled, hlookup, List.countP_singleton,
    List.countP_singleton, List.filter_singleton]
  cases t.isShort <;> rfl

end Turn

/-- Making room is a flush if too little is left. -/
theorem adds_ensureRoom (t : Turn) :
    t.unit.Adds { Account.zero with
        flushes := if t.isShort then 1 else 0
        forgettings := if t.isShort then [t.unit.counters] else [] } t.unit.ensureRoom ∧
      t.unit.ensureRoom.recent = if t.isShort then none else t.unit.recent := by
  cases hshort : t.isShort with
  | true =>
    have htells : Counters.Tells { Counters.zero with flushes := 1 }
        { Account.zero with flushes := 1, forgettings := [t.unit.counters] }
        t.unit.recompiler.refuses := ⟨rfl, rfl, rfl, Nat.le_refl _, rfl, rfl, rfl, rfl⟩
    rw [ensureRoom, if_pos (of_decide_eq_true hshort)]
    exact ⟨.of_forgetting rfl htells rfl rfl rfl rfl rfl rfl, rfl⟩
  | false =>
    rw [ensureRoom, if_neg (of_decide_eq_false hshort)]
    exact ⟨.refl _, rfl⟩

/-- A block ran. -/
theorem adds_enter (p : Processor) (b : Block) (pc : UInt32) :
    p.Adds { Account.zero with turns := 1 } (p.enter b pc) := by
  have htells : Counters.Tells { Counters.zero with turns := 1 }
      { Account.zero with turns := 1 } p.recompiler.refuses :=
    ⟨rfl, rfl, rfl, Nat.le_refl _, rfl, rfl, rfl, rfl⟩
  rw [enter, count]
  exact .of_counted rfl htells rfl rfl rfl rfl rfl rfl rfl

/-- **Turn.** A turn of a unit that goes on with a program if the run has begun leaves a unit that
does. -/
theorem adds_turn {pc : UInt32} {begun : Bool} {cycles : UInt32}
    (hself : p.config.kind.pairOffset pc = pc.toNat)
    (hbegun : begun = true → p.recent.isSome = true)
    (hturn : p.turn pc begun = .ok (cycles, q)) :
    p.Adds (Turn.account [⟨p, pc, begun⟩]) q ∧ q.recent.isSome = true := by
  obtain ⟨hit, q₁, hnext, -, rfl⟩ := turn_eq_ok hturn
  obtain ⟨hroom, hrecent⟩ := adds_ensureRoom ⟨p, pc, begun⟩
  obtain ⟨hfound, hrecent'⟩ := adds_nextBlock (p.config_ensureRoom.symm ▸ hself) hnext
  have hadds := (hroom.trans hfound).trans (adds_enter q₁ hit.block pc)
  refine ⟨?_, by rw [enter, count, hrecent']; rfl⟩
  have hlookup : (Turn.mk p pc begun).lookup = .ok (hit, q₁) := hnext
  rw [Turn.account_singleton hlookup]
  -- the block is looked up unless there is a program to go on with, which a flush takes away
  have hlooks : (if begun && p.ensureRoom.recent.isSome then 0 else 1) =
      if !begun || (Turn.mk p pc begun).isShort then 1 else 0 := by
    rw [show p.ensureRoom.recent = _ from hrecent]
    cases (Turn.mk p pc begun).isShort with
    | true => simp
    | false =>
      cases begun with
      | true => simp [hbegun rfl]
      | false => rfl
  rw [hlooks] at hadds
  simpa [Account.add, Account.zero, lookingUp, compiling] using hadds

/-- **Run.** A run adds the accounts of its turns, flushes in the middle of it included. The turns
are those that the run takes, so nothing is counted twice. -/
theorem adds_runBlocks {budget pc : UInt32} (turns : Nat) {done tally : Tally} (hp : p.InUse)
    (h : p.microcode.HasPair pc.toNat) (hfresh : 0 < done.blocks → p.stale = false)
    (hrecent : 0 < done.blocks → p.recent.isSome = true)
    (hrun : p.runBlocks budget turns pc done = .ok (tally, q)) :
    p.Adds (Turn.account (turnsFrom budget turns p pc done)) q := by
  induction turns using Nat.strongRecOn generalizing p pc done with
  | ind turns ih =>
  cases turns with
  | zero =>
    obtain ⟨-, rfl⟩ := Prod.mk.inj (Except.ok.inj hrun)
    exact .refl p
  | succ turns =>
    rcases runBlocks_succ budget turns p pc done with ⟨fault, -, hfails, -⟩ |
      ⟨cycles, p₁, left, hturn, hleft, hgoes, hturns⟩
    · cases hfails.symm.trans hrun
    · have hself := p.config.kind.pairOffset_eq_self hp.stocked.size_eq h
      obtain ⟨hadds, hrecent₁⟩ :=
        adds_turn hself (fun hbegun => hrecent (of_decide_eq_true hbegun)) hturn
      obtain ⟨hsteps, hstale, hexit⟩ : Steps anyProgram p p₁ ∧ _ :=
        steps_turn hp.stocked h (fun hbegun => hfresh (of_decide_eq_true hbegun)) hturn
      rw [hturns, Turn.account_cons]
      exact hadds.trans (ih left (Nat.lt_succ_of_le hleft) (hp.steps hsteps) hexit
        (fun _ => hstale) (fun _ => hrecent₁) (hgoes ▸ hrun))

/-- The first block of a run is looked up, and those before which programs were forgotten. -/
theorem lookups_account_turns (p : Processor) (start budget : UInt32) :
    (Turn.account (p.turns start budget)).lookups =
      1 + (p.turns start budget).countP Turn.isLate := by
  obtain ⟨first, rest, hturns, hfirst, hrest⟩ := p.exists_turns_eq start budget
  have hlate : rest.countP (fun t => !t.begun || t.isShort) = rest.countP Turn.isLate :=
    List.countP_congr fun t ht => by simp [Turn.isLate, hrest t ht]
  have hfirst' : first.isLate = false := by
    rw [Turn.isLate, hfirst, Bool.false_and]
  show (p.turns start budget).countP (fun t => !t.begun || t.isShort) = _
  rw [hturns, List.countP_cons, List.countP_cons, hlate, hfirst, hfirst']
  exact Nat.add_comm _ _

theorem adds_execute {start budget : UInt32} {tally : Tally} (hp : p.InUse)
    (hrun : p.execute start budget = .ok (tally, q)) :
    p.Adds (({ Account.zero with runs := 1 } : Account).add
      (Turn.account (p.turns start budget))) q := by
  have htells : Counters.Tells { Counters.zero with runs := 1 } { Account.zero with runs := 1 }
      p.recompiler.refuses := ⟨rfl, rfl, rfl, Nat.le_refl _, rfl, rfl, rfl, rfl⟩
  have hbegin : p.Adds { Account.zero with runs := 1 } (p.beginRun (p.startPc start)) :=
    .of_counted rfl htells rfl rfl rfl rfl rfl rfl rfl
  have hstep : Step anyProgram p (p.beginRun (p.startPc start)) := .begin _
  exact hbegin.trans (adds_runBlocks _ (hp.step hstep) (hp.stocked.hasPair_startPc start)
    (fun hblocks => by cases hblocks) (fun hblocks => by cases hblocks) hrun)

/-! ### Deeds -/

/-- Something that was done to a unit, with the unit before it. What it adds to an account can be
read off it without carrying it out again. -/
inductive Deed where
  /-- An operation and what it returned. -/
  | perform (unit : Processor) (op : Operation) (answer : Answer)
  /-- A stored program was asked for its block at an offset. -/
  | fetch (unit : Processor) (program : ProgramNumber) (offset : Nat)

/-- The sequences that are compiled when a block is looked up. -/
def compiledFor (p : Processor) (offset : UInt32) : List Sequence :=
  match p.findBlock offset with
  | .ok (hit, _) => p.compiledAt hit.program (p.config.kind.pairOffset offset)
  | .error _ => []

/-- The account of a deed. A run has looked up its first block and those in front of which all
programs were forgotten. -/
def Deed.account : Deed → Account
  | .perform unit (.reset _) _ =>
    { Account.zero with resets := 1, forgettings := [unit.counters] }
  | .perform unit (.findBlock offset) _ =>
    { Account.zero with lookups := 1, compiled := unit.compiledFor offset }
  | .perform unit (.execute start budget) (.ran tally) =>
    let turns := unit.turns start budget
    { runs := 1
      turns := tally.blocks
      lookups := 1 + turns.countP Turn.isLate
      compiled := turns.flatMap Turn.compiled
      flushes := turns.countP Turn.isShort
      resets := 0
      forgettings := (turns.filter Turn.isShort).map fun t => t.unit.counters }
  | .perform _ _ _ => .zero
  | .fetch unit program offset =>
    { Account.zero with compiled := unit.compiledAt program offset }

theorem adds_markStale (p : Processor) : p.Adds .zero p.markStale := by
  rw [markStale]
  split
  · exact .refl p
  · exact .of_eq rfl rfl rfl rfl rfl

theorem adds_reset (p : Processor) (full : Bool) :
    p.Adds { Account.zero with resets := 1, forgettings := [p.counters] } (p.reset full) := by
  have htells : Counters.Tells { Counters.zero with resets := 1 }
      { Account.zero with resets := 1, forgettings := [p.counters] } p.recompiler.refuses :=
    ⟨rfl, rfl, rfl, Nat.le_refl _, rfl, rfl, rfl, rfl⟩
  cases full with
  | true => exact .of_forgetting rfl htells rfl rfl rfl rfl rfl rfl
  | false => exact .of_forgetting rfl htells rfl rfl rfl rfl rfl rfl

/-- **Operation.** What an operation does is told by the counters: the account of the operation is
read off the unit before it, and added to what the counters told then. -/
theorem adds_perform {op : Operation} {answer : Answer} (hp : p.InUse)
    (h : p.perform op = .ok (answer, q)) : p.Adds (Deed.perform p op answer).account q := by
  cases performs_of_eq_ok h with
  | writeNone offset => exact .refl p
  | @write offset data hne =>
    have hwritten : p.Adds .zero { p with microcode := p.microcode.write offset.toNat data } :=
      .of_eq rfl rfl rfl rfl rfl
    exact (hwritten.trans (adds_markStale _)).of_zero_add
  | noteChange offset size => exact adds_markStale p
  | reset full => exact adds_reset p full
  | @load s _ hload =>
    obtain rfl := load_eq_ok hload
    have hloaded : p.Adds .zero { p with microcode := s.microcode, registers := s.registers } :=
      .of_eq rfl rfl rfl rfl rfl
    have hrestored : ∀ u : Processor, u.Adds .zero { u with tracking := s.tracking } :=
      fun u => .of_eq rfl rfl rfl rfl rfl
    exact ((hloaded.trans (adds_markStale _)).of_zero_add.trans (hrestored _)).of_zero_add
  | refused hload => exact .refl p
  | setRegisters registers => exact .of_eq rfl rfl rfl rfl rfl
  | findBlock hfind =>
    have hadds := adds_findBlockAt hfind
    rw [Deed.account, compiledFor, hfind]
    exact hadds
  | @execute start budget tally _ hrun =>
    have hadds := adds_execute hp hrun
    have haccount : ({ Account.zero with runs := 1 } : Account).add
        (Turn.account (p.turns start budget)) =
          (Deed.perform p (.execute start budget) (.ran tally)).account := by
      rw [Account.add, lookups_account_turns]
      simp [Turn.account, Deed.account, Account.zero, length_turns hrun]
    exact haccount ▸ hadds

/-! ### Chronicles -/

/-- What was done to a unit, one deed after another. Every state that a unit can be brought to has
such a chronicle, and what the counters say is said about it. -/
inductive Chronicle (p : Processor) : List Deed → Processor → Prop where
  | none : Chronicle p [] p
  | perform {q q' : Processor} {deeds : List Deed} {op : Operation} {answer : Answer}
      (before : Chronicle p deeds q) (h : q.perform op = .ok (answer, q')) :
      Chronicle p (deeds ++ [.perform q op answer]) q'
  | fetch {q q' : Processor} {deeds : List Deed} {program : ProgramNumber} {offset : Nat}
      {id : BlockNumber} (before : Chronicle p deeds q) (h : q.microcode.HasPair offset)
      (hfetch : q.blockAt program offset = .ok (id, q')) :
      Chronicle p (deeds ++ [.fetch q program offset]) q'

/-- The account of some deeds. -/
def account (deeds : List Deed) : Account :=
  .sum (deeds.map Deed.account)

theorem account_append_singleton (deeds : List Deed) (d : Deed) :
    account (deeds ++ [d]) = (account deeds).add d.account := by
  rw [account, List.map_append, Account.sum_append]
  exact congrArg _ (Account.add_zero _)

variable {deeds deeds' : List Deed}

theorem Chronicle.uses (h : Chronicle p deeds q) : Uses anyProgram p q := by
  induction h with
  | none => exact .refl
  | perform _ h ih => exact ih.tail (.perform h)
  | fetch _ h hfetch ih => exact ih.tail (.fetch trivial h hfetch)

/-- Whatever can be done to a unit makes a chronicle. -/
theorem exists_chronicle_of_uses (h : Uses anyProgram p q) : ∃ deeds, Chronicle p deeds q := by
  induction h with
  | refl => exact ⟨[], .none⟩
  | tail _ huse ih =>
    obtain ⟨deeds, hdeeds⟩ := ih
    cases huse with
    | perform h => exact ⟨_, hdeeds.perform h⟩
    | fetch _ h hfetch => exact ⟨_, hdeeds.fetch h hfetch⟩

/-- **Chronicle.** What was done to a unit in use is told by the counters, by adding up one deed
after another. -/
theorem Chronicle.adds (h : Chronicle p deeds q) (hp : p.InUse) : p.Adds (account deeds) q := by
  induction h with
  | none => exact .refl p
  | perform before h ih =>
    rw [account_append_singleton]
    exact ih.trans (adds_perform (hp.uses before.uses) h)
  | fetch before _ hfetch ih =>
    rw [account_append_singleton]
    exact ih.trans (adds_blockAt hfetch)

/-- Nothing has been counted, stored or compiled in a new unit. -/
theorem create_eq_ok {host : Host} {config : Config} (h : create host config = .ok p) :
    p.counters = .zero ∧ p.cache = .create config.kind.memorySize ∧ p.recompiler.compiled = 0 ∧
      p.recompiler.ignoresUnknown = config.ignoresUnknown := by
  obtain ⟨recompiler, hrecompiler, h⟩ := exists_of_bind_eq_ok h
  obtain ⟨arena, -, hrecompiler⟩ := exists_of_bind_eq_ok hrecompiler
  obtain rfl := Except.ok.inj hrecompiler
  obtain rfl := Except.ok.inj h
  exact ⟨rfl, rfl, rfl, rfl⟩

/-- **Accounts.** Whatever is done to a new unit, the counters tell what was done; serial numbers
were given to the programs that were created, and to no others; what is stored was created and
compiled since all programs were forgotten last; the recompiler has compiled what is counted; and no
counter ever goes back. -/
theorem accounts_of_chronicle {host : Host} {config : Config}
    (hcreate : create host config = .ok p) (h : Chronicle p deeds q) :
    q.counters.Tells (account deeds)
        (fun s => s.unknownPair?.isSome && !config.ignoresUnknown) ∧
      q.counters.creations = q.cache.nextSerial ∧ q.StoredSince (account deeds).mark ∧
      q.counters.compilations = q.recompiler.compiled ∧
      ∀ deeds' q', Chronicle q deeds' q' → q.counters.AtMost q'.counters := by
  have hp := inUse_create hcreate
  have hadds := h.adds hp
  obtain ⟨hcounters, hcache, hcompiled, hignores⟩ := create_eq_ok hcreate
  obtain ⟨d, hd, htells, hserial⟩ := hadds.counted
  rw [hcounters, Counters.zero_add] at hd
  rw [hcache] at hserial
  have hrefuses : p.recompiler.refuses =
      fun s => s.unknownPair?.isSome && !config.ignoresUnknown := by
    funext s
    rw [Recompiler.refuses, hignores]
  refine ⟨hd ▸ hrefuses ▸ htells, ?_, ?_, ?_,
    fun deeds' q' h' => (h'.adds (hp.uses h.uses)).atMost⟩
  · rw [hd, hserial]
    exact (Nat.zero_add _).symm
  · refine hadds.storedSince .zero ⟨?_, ?_⟩
    · rw [hcounters, hcache]
      rfl
    · rw [hcounters, hcache]
      rfl
  · rw [hadds.compiled_eq, hcompiled, hd, htells.compilations_eq, Nat.zero_add]

/-- An unknown pair is written, three blocks run, and everything is forgotten. -/
theorem accounts_of_flushingRun : ∃ p t q deeds, create .compact tightConfig = .ok p ∧
    (p.write 0 (Pair.toBytes ⟨0, 0xFFFFFFFF⟩)).execute 0 3 = .ok (t, q) ∧
      q.counters = ⟨1, 3, 0, 3, 0, 3, 3, 2, 0, 1⟩ ∧ Chronicle p deeds (q.reset false) ∧
      (account deeds).turns = 3 ∧ (account deeds).lookups = 3 ∧
      (account deeds).compiled.length = 3 ∧ (account deeds).mark = q.counters ∧
      (q.reset false).StoredSince q.counters := by
  obtain ⟨p, hnew, hok⟩ : ∃ p, create .compact tightConfig = .ok p ∧
      (((p.write 0 (Pair.toBytes ⟨0, 0xFFFFFFFF⟩)).execute 0 3).toOption.any fun r =>
        r.2.counters = ⟨1, 3, 0, 3, 0, 3, 3, 2, 0, 1⟩) = true :=
    ⟨_, rfl, by decide +kernel⟩
  obtain ⟨⟨t, q⟩, hrun, hok⟩ := exists_ok_of_any hok
  have hcounters : q.counters = ⟨1, 3, 0, 3, 0, 3, 3, 2, 0, 1⟩ := of_decide_eq_true hok
  have hperform : (p.write 0 (Pair.toBytes ⟨0, 0xFFFFFFFF⟩)).perform (.execute 0 3) =
      .ok (.ran t, q) := by
    rw [perform, hrun]
    rfl
  have hran := (Chronicle.none (p := p)).perform
    (show p.perform (.write 0 (Pair.toBytes ⟨0, 0xFFFFFFFF⟩)) = .ok (.done, _) from rfl)
      |>.perform hperform
  have hreset := hran.perform (show q.perform (.reset false) = .ok (.done, q.reset false) from rfl)
  obtain ⟨htells, -, hstored, -⟩ := accounts_of_chronicle hnew hreset
  have hturns := htells.turns_eq
  have hlookups := htells.lookups_eq
  have hcompilations := htells.compilations_eq
  have hcounted : (q.reset false).counters = { q.counters with resets := q.counters.resets + 1 } :=
    rfl
  have hmark : ∀ deeds,
      (account (deeds ++ [.perform q (.reset false) .done])).mark = q.counters := by
    intro deeds
    rw [account_append_singleton, Account.mark, Account.add, List.getLast?_append]
    rfl
  rw [hcounted, hcounters] at hturns hlookups hcompilations
  rw [hmark] at hstored
  exact ⟨p, t, q, _, hnew, hrun, hcounters, hreset, hturns.symm, hlookups.symm,
    hcompilations.symm, hmark _, hstored⟩

end Processor

end VectorUnit
