import VectorUnit.Cache
import VectorUnit.Dispatcher
import VectorUnit.Processor.Config
import VectorUnit.SaveState

/-!
# Vector units

A `Processor` is a vector unit: its microcode and registers, the recompiler, and the cache of the
programs that were seen in its memory. A write to microcode throws no program away. It only takes
back the shortcuts (`Processor.markStale`), so that the next lookup compares the programs of a shelf
with live memory again.

`Processor.findBlock` finds the block at an offset: by the shortcut of the offset's shelf, or else
among the programs of the shelf, or else in a program created for the purpose. A block that the
program found does not have yet is compiled from live memory (`Processor.blockAt`). Lookups change
neither registers nor microcode.

The operations fail in two ways only while offsets and numbers are in range: the code of a block
does not fit into the arena (`Fault.exhausted`), or it would fit, but the machine does not let the
arena be written (`Fault.locked`). Whether it does depends on the length of the arena, and so it is
settled when the unit is created (`Processor.isUnlocked`).
-/

namespace VectorUnit

/-- Why an operation is abandoned, leaving nothing to go on with. Only the first two of these ever
come of what is asked of a unit by itself. -/
inductive Fault where
  /-- The block at an offset cannot be compiled, because its code does not fit. -/
  | exhausted (offset : Nat)
  /-- The machine does not let the protection of the arena be changed. -/
  | locked
  /-- An offset or a number has no place in what it addresses. -/
  | outOfBounds
  /-- An action handed in from outside gave up. -/
  | gaveUp
  /-- The worker that owns the unit is gone. -/
  | workerLost
deriving DecidableEq, Repr

/-- The text of a fault, where it has one of its own. The others are worded by what has found them
out. -/
def Fault.message? : Fault → Option String
  | exhausted offset =>
    some ("failed to compile block at " ++ Hex.padded 4 offset ++ ": "
      ++ CompileError.exhausted.message)
  | locked => none
  | outOfBounds => none
  | gaveUp => none
  | workerLost => some "vector unit worker thread died"

/-- The value that must be there. Everything that is looked up under an offset or a number goes
through this. -/
def Fault.inRange {α : Type} : Option α → Except Fault α
  | some a => .ok a
  | none => .error .outOfBounds

/-- A computation that goes on with the result of another has one only if the other has. -/
theorem exists_of_bind_eq_ok {ε α β : Type} {x : Except ε α} {f : α → Except ε β} {b : β}
    (h : x >>= f = .ok b) : ∃ a, x = .ok a ∧ f a = .ok b := by
  rcases x with e | a
  · cases h
  · exact ⟨a, rfl, h⟩

/-- It fails where the other fails, or where what follows fails. -/
theorem error_or_of_bind_eq_error {ε α β : Type} {x : Except ε α} {f : α → Except ε β} {e : ε}
    (h : x >>= f = .error e) : x = .error e ∨ ∃ a, x = .ok a ∧ f a = .error e := by
  rcases x with e' | a
  · exact .inl (congrArg Except.error (Except.error.inj h))
  · exact .inr ⟨a, rfl, h⟩

/-- Counters of what a unit has done. They are never set back. -/
structure Counters where
  runs : Nat
  /-- Blocks that ran. -/
  turns : Nat
  /-- Lookups answered by a shortcut. -/
  shortcuts : Nat
  /-- Lookups that went through the programs of a shelf. -/
  lookups : Nat
  /-- Programs compared with live memory. -/
  comparisons : Nat
  /-- Programs created. -/
  creations : Nat
  /-- Blocks compiled. -/
  compilations : Nat
  /-- Times the cache was flushed for want of room. -/
  flushes : Nat
  resets : Nat
  /-- Blocks that were refused and then compiled all the same. -/
  tolerated : Nat
deriving DecidableEq, Repr

/-- The counters of a new unit. -/
def Counters.zero : Counters := ⟨0, 0, 0, 0, 0, 0, 0, 0, 0, 0⟩

instance : Inhabited Counters := ⟨.zero⟩

/-- A vector unit. The microcode, the registers and the branch tracking are what a program can see
of it; the recompiler and the cache only spare it work. -/
structure Processor where
  host : Host
  config : Config
  microcode : Memory
  registers : Registers
  recompiler : Recompiler
  cache : Cache
  dispatcher : Dispatcher
  tracking : Tracking
  /-- No shortcut may be there: the next lookup has to compare programs. -/
  stale : Bool
  /-- The program that gave the block found last, until it is forgotten. -/
  recent : Option ProgramNumber
  counters : Counters

namespace Processor

/-- A unit whose memory and registers are zero and whose cache is empty. -/
def create (host : Host) (config : Config) : Except Arena.ReservationError Processor := do
  let recompiler ← Recompiler.create config.ignoresUnknown config.arenaSize
  return {
    host := host
    config := config
    microcode := .zeros config.kind.memorySize
    registers := .initial
    recompiler := recompiler
    cache := .create config.kind.memorySize
    dispatcher := .create host
    tracking := .zero
    stale := true
    recent := none
    counters := .zero }

/-- The machine lets the arena of the unit be written. -/
def isUnlocked (p : Processor) : Bool :=
  p.host.unlocks p.recompiler.arena.capacity

/-- The unit with its counters changed. -/
def count (p : Processor) (f : Counters → Counters) : Processor :=
  { p with counters := f p.counters }

/-- The number of bytes of host code in use. -/
def codeSize (p : Processor) : Nat :=
  p.recompiler.arena.cursor

/-! ### Changing the microcode -/

/-- The unit without shortcuts and branch tracking. Programs and blocks stay, so that they are found
again if microcode turns out to be as it was. In a stale unit there is nothing left to drop. -/
def markStale (p : Processor) : Processor :=
  if p.stale then p
  else { p with stale := true, tracking := .zero, cache := p.cache.dropShortcuts }

/-- The unit after it is told that microcode has changed. Where it changed makes no difference. -/
def noteChange (p : Processor) (_offset _size : UInt32) : Processor :=
  p.markStale

/-- The unit after bytes are written to its microcode, around the end of memory if need be. -/
def write (p : Processor) (offset : UInt32) (data : List UInt8) : Processor :=
  if data.isEmpty then p
  else
    { p with microcode := p.microcode.write offset.toNat data }.noteChange offset
      (UInt32.ofNat data.length)

/-- The unit with other registers. -/
def withRegisters (p : Processor) (registers : Registers) : Processor :=
  { p with registers := registers }

/-! ### Forgetting programs -/

/-- The unit without programs and blocks. Their host code is not touched, for the arena is rewound
by whoever wants its room. -/
def forget (p : Processor) : Processor :=
  { p with cache := p.cache.forgetAll, recent := none, tracking := .zero, stale := true }

/-- The unit after a reset, which a full one takes to the arena as well. Its dispatcher is installed
anew. -/
def reset (p : Processor) (full : Bool) : Processor :=
  let p := { p.forget with dispatcher := p.dispatcher.reinstall p.host }.count fun s =>
    { s with resets := s.resets + 1 }
  if full then { p with recompiler := p.recompiler.rewind } else p

/-- The unit after it has forgotten all programs, if too little room for host code is left. It does
so before a block is looked up, and never while one is being compiled. -/
def ensureRoom (p : Processor) : Processor :=
  if p.recompiler.arena.room < p.config.headroom then
    { p.forget with recompiler := p.recompiler.rewind }.count fun s =>
      { s with flushes := s.flushes + 1 }
  else p

/-! ### Finding blocks -/

/-- Writes a block to where a recompiler has placed it, if the machine lets the arena be written.
The unit goes on with that recompiler, and counts the block. -/
def writeBlock (p : Processor) (b : Block) (r : Recompiler) (tolerated : Nat) :
    Except Fault (Block × Processor) :=
  if p.isUnlocked then
    .ok (b, { p with recompiler := r }.count fun s =>
      { s with
        compilations := s.compilations + 1
        tolerated := s.tolerated + tolerated })
  else .error .locked

/-- Compiles the sequence of live memory at an offset. A refused sequence is compiled all the
same. -/
def compileAt (p : Processor) (offset : Nat) : Except Fault (Block × Processor) := do
  let sequence ← Fault.inRange (Sequence.ofMemory? p.microcode offset p.config.maxBlockLength)
  match p.recompiler.compile p.host sequence with
  | .ok (b, r) => p.writeBlock b r 0
  | .error (.unimplemented _) =>
    -- The refusal placed nothing in the arena, so the second attempt starts where the first did.
    match p.recompiler.compileAny p.host sequence with
    | .ok (b, r) => p.writeBlock b r 1
    | .error _ => throw (.exhausted offset)
  | .error .exhausted => throw (.exhausted offset)

/-- The block of a program at an offset, which is compiled from live memory if it is not there yet,
whether or not that is the memory that the program was created from. -/
def blockAt (p : Processor) (program : ProgramNumber) (offset : Nat) :
    Except Fault (BlockNumber × Processor) := do
  let owner ← Fault.inRange (p.cache.program? program)
  match owner.block? offset with
  | some id => return (id, p)
  | none =>
    let (block, p) ← p.compileAt offset
    let (id, cache) ← Fault.inRange (p.cache.addBlock program offset block p.microcode)
    return (id, { p with cache := cache })

/-- A block that a lookup has found, with the numbers under which it and its program are stored. -/
structure Hit where
  program : ProgramNumber
  id : BlockNumber
  block : Block
deriving DecidableEq, Repr

/-- Makes a program the most recent one, and takes its block at an offset, to which the shortcut of
the shelf leads then. -/
def enterProgram (p : Processor) (program : ProgramNumber) (offset : Nat) :
    Except Fault (Hit × Processor) := do
  let (id, p) ← { p with stale := false, recent := some program }.blockAt program offset
  let cache ← Fault.inRange (p.cache.setShortcut offset program id)
  let block ← Fault.inRange (cache.block? id)
  return (⟨program, id, block⟩, { p with cache := cache })

/-- The digest of live memory, in the mode that compares whole images. It is taken once for all
comparisons of a lookup. -/
def liveDigest? (p : Processor) : Option UInt64 :=
  match p.config.matchMode with
  | .byExcerpts => none
  | .byImage => some (p.host.digest p.microcode)

/-- What a program created now remembers of live memory. In the mode that compares excerpts that is
nothing yet: an excerpt is added with each block. -/
def liveBasis (p : Processor) : Program.Basis :=
  match p.config.matchMode with
  | .byExcerpts => .excerpts
  | .byImage => .image p.microcode (p.host.digest p.microcode)

/-- How far branch tracking may be relied on after a program has matched live memory. Excerpts may
leave out bytes that have changed, so a match by excerpts is only presumed. -/
def matchReliance : MatchMode → Tracking.Reliance
  | .byExcerpts => .presumed
  | .byImage => .verified

/-- The unit with another judgement of its branch tracking. -/
def setReliance (p : Processor) (reliance : Tracking.Reliance) : Processor :=
  { p with tracking := { p.tracking with reliance := reliance } }

/-- Finds or creates the program for an offset by comparing programs with live memory, those of the
shelf alone, in the order in which it lists them. -/
def matchPrograms (p : Processor) (offset : Nat) : Except Fault (ProgramNumber × Processor) := do
  let lookup ← Fault.inRange (p.cache.lookup offset p.microcode p.liveDigest?)
  let p := p.count fun s =>
    { s with lookups := s.lookups + 1, comparisons := s.comparisons + lookup.comparisons }
  match lookup.found with
  | some program =>
    let cache ← Fault.inRange (p.cache.touch offset program)
    return (program, { p with cache := cache }.setReliance (matchReliance p.config.matchMode))
  | none =>
    let (program, cache) ← Fault.inRange (p.cache.addProgram offset p.liveBasis)
    return (program, ({ p with cache := cache }.setReliance .verified).count fun s =>
      { s with creations := s.creations + 1 })

/-- Finds the block for an offset inside memory: by the shortcut of its shelf if there is one, and
by comparing programs otherwise. -/
def findBlockAt (p : Processor) (offset : Nat) : Except Fault (Hit × Processor) := do
  let shelf ← Fault.inRange (p.cache.shelf? offset)
  match shelf.shortcut with
  | some (program, _) =>
    -- Another offset of the shelf may have set the shortcut, so the program is asked for its block.
    ((p.setReliance .presumed).count fun s => { s with shortcuts := s.shortcuts + 1 }).enterProgram
      program offset
  | none =>
    let (program, p) ← p.matchPrograms offset
    p.enterProgram program offset

/-- Finds the block for any offset, which is masked to that of a pair of memory. -/
def findBlock (p : Processor) (offset : UInt32) : Except Fault (Hit × Processor) :=
  p.findBlockAt (p.config.kind.pairOffset offset)

/-! ### Saving and loading -/

/-- The part of the unit that outlives it. What was compiled is not among it, and can be had again
from the microcode. -/
def save (p : Processor) : SaveState where
  kind := p.config.kind
  microcode := p.microcode
  tracking := p.tracking
  registers := p.registers

/-- Loads a save state in place. If it does not fit, the unit is left as it is at the moment when
this is found out. Programs and blocks stay, so that those compiled from the same microcode are
found again. -/
def loadInPlace (s : SaveState) : EStateM SaveState.Misfit Processor Unit := do
  if let .error e := s.fit (← get).config.kind then throw e
  modify fun p => { p with microcode := s.microcode }
  modify fun p => { p with registers := s.registers }
  modify markStale
  -- The tracking comes last: it would be lost if the unit became stale only now.
  modify fun p => { p with tracking := s.tracking }

/-- A save state that fits is taken over, and any other leaves no trace. The check is the first
thing that is done, so nothing has to be undone. -/
theorem run_loadInPlace (s : SaveState) (p : Processor) :
    (loadInPlace s).run p =
      match s.fit p.config.kind with
      | .ok _ =>
        .ok () { { p with microcode := s.microcode, registers := s.registers }.markStale with
          tracking := s.tracking }
      | .error e => .error e p := by
  simp only [loadInPlace, EStateM.run_bind, EStateM.run_get]
  cases s.fit p.config.kind with
  | ok _ => rfl
  | error e => rfl

/-- The unit after it has loaded a save state. -/
def load (p : Processor) (s : SaveState) : Except SaveState.Misfit Processor :=
  match (loadInPlace s).run p with
  | .ok _ q => .ok q
  | .error e _ => .error e

theorem write_nil (p : Processor) (offset : UInt32) : p.write offset [] = p := rfl

theorem write_of_ne_nil {data : List UInt8} (h : data ≠ []) (p : Processor) (offset : UInt32) :
    p.write offset data =
      markStale { p with microcode := p.microcode.write offset.toNat data } := by
  rw [write, if_neg (by simpa only [List.isEmpty_iff] using h)]
  rfl

/-- A full reset differs from any other in what it leaves of the arena only. -/
theorem reset_eq (p : Processor) (full : Bool) :
    p.reset full =
      { p.forget with
        dispatcher := p.dispatcher.reinstall p.host
        counters := { p.counters with resets := p.counters.resets + 1 }
        recompiler := if full then p.recompiler.rewind else p.recompiler } := by
  cases full with
  | true => rfl
  | false => rfl

theorem load_eq (p : Processor) (s : SaveState) :
    p.load s =
      match s.fit p.config.kind with
      | .ok _ => .ok { { p with microcode := s.microcode, registers := s.registers }.markStale with
          tracking := s.tracking }
      | .error e => .error e := by
  rw [load, run_loadInPlace]
  cases s.fit p.config.kind with
  | ok _ => rfl
  | error e => rfl

theorem load_eq_ok {p q : Processor} {s : SaveState} (h : p.load s = .ok q) :
    q = { { p with microcode := s.microcode, registers := s.registers }.markStale with
      tracking := s.tracking } := by
  rw [load_eq] at h
  split at h
  · exact (Except.ok.inj h).symm
  · cases h

end Processor

end VectorUnit
