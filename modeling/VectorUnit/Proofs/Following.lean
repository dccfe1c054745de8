import Mathlib.Data.List.Induction
import VectorUnit.Proofs.Accounting
import VectorUnit.Proofs.Confinement
import VectorUnit.Proofs.Pacing

/-!
# Branch tracking follows runs

A run that has a result takes some turns, each of which enters a block (`Processor.Passage`). The
blocks follow each other: the first one starts where the run begins, and each of the others where
the one before has left to (`Processor.Follows`).

Branch tracking knows of the last block where it started and to where it left. Two things it keeps
from turn to turn. The number of turns is set back when programs are forgotten for want of room
(`Processor.Turn.counted`), so in the end it is the number of turns since that happened last, or has
gone on from what it was before the run. And the judgement of how far tracking may be relied on is
made by each lookup (`Processor.Turn.relied`), so it is that of the last one of the run, whatever
was judged before. See `Processor.followed_of_uses`.
-/

namespace VectorUnit

namespace Processor

variable {p p' q : Processor} {offset : Nat} {program : ProgramNumber}

/-! ### How blocks are found -/

/-- How the lookup of a block comes by its program. The next run may rely on branch tracking as far
as the manner of the last lookup warrants it. -/
inductive Manner where
  /-- The shelf has a shortcut. -/
  | shortcut
  /-- A program of the shelf matches live memory. -/
  | matched
  /-- No program does, so one is created. -/
  | created
deriving DecidableEq, Repr

/-- How far branch tracking may be relied on after a lookup. -/
def Manner.reliance (mode : MatchMode) : Manner → Tracking.Reliance
  | shortcut => .presumed
  | matched => matchReliance mode
  | created => .verified

/-- How a block at an offset is found. This can be told before the lookup, from the shelf and live
memory. -/
def manner (p : Processor) (offset : Nat) : Manner :=
  if (p.cache.shortcut? offset).isSome then .shortcut
  else if ((p.cache.lookup offset p.microcode p.liveDigest?).bind Cache.Lookup.found).isSome then
    .matched
  else .created

/-! ### What lookups do to branch tracking -/

theorem tracking_blockAt {id : BlockNumber} (hblock : p.blockAt program offset = .ok (id, q)) :
    q.tracking = p.tracking := by
  obtain ⟨owner, -, ⟨-, rfl⟩ | ⟨-, b, p₁, cache, hcompile, -, rfl⟩⟩ := blockAt_eq_ok hblock
  · rfl
  · obtain ⟨s, r, -, -, rfl⟩ := compileAt_eq_ok hcompile
    rfl

theorem tracking_enterProgram {hit : Hit} (henter : p.enterProgram program offset = .ok (hit, q)) :
    q.tracking = p.tracking := by
  obtain ⟨p₁, cache, hblock, -, -, -, rfl⟩ := enterProgram_eq_ok henter
  have htracking := tracking_blockAt hblock
  exact htracking

theorem manner_of_shortcut {shelf : Shelf} {hit : ProgramNumber × BlockNumber}
    (hshelf : p.cache.shelf? offset = some shelf) (h : shelf.shortcut = some hit) :
    p.manner offset = .shortcut := by
  rw [manner, Cache.shortcut?, hshelf, Option.bind_some, h]
  rfl

theorem manner_of_lookup {shelf : Shelf} {l : Cache.Lookup}
    (hshelf : p.cache.shelf? offset = some shelf) (hnone : shelf.shortcut = none)
    (hlookup : p.cache.lookup offset p.microcode p.liveDigest? = some l) :
    p.manner offset = if l.found.isSome then .matched else .created := by
  rw [manner, Cache.shortcut?, hshelf, Option.bind_some, hnone, hlookup]
  rfl

/-- A lookup judges how far branch tracking may be relied on, and leaves the rest of it alone. -/
theorem tracking_findBlockAt {hit : Hit} (hfind : p.findBlockAt offset = .ok (hit, q)) :
    q.tracking =
      { p.tracking with reliance := (p.manner offset).reliance p.config.matchMode } := by
  obtain ⟨shelf, hshelf, ⟨program, id, hshortcut, henter⟩ | ⟨hnone, program, p₁, hmatch, henter⟩⟩ :=
    findBlockAt_eq_ok hfind
  · rw [tracking_enterProgram henter, manner_of_shortcut hshelf hshortcut]
    rfl
  · obtain ⟨l, hlookup, ⟨hfound, cache, -, rfl⟩ | ⟨hfound, cache, -, rfl⟩⟩ :=
      matchPrograms_eq_ok hmatch
    · rw [tracking_enterProgram henter, manner_of_lookup hshelf hnone hlookup, hfound]
      rfl
    · rw [tracking_enterProgram henter, manner_of_lookup hshelf hnone hlookup, hfound]
      rfl

/-! ### Turns -/

namespace Turn

/-- The block is looked up: it is the first one, or the program to go on with is forgotten. -/
def looksUp (t : Turn) : Bool :=
  !t.begun || t.isShort

/-- How the block is found if it is looked up. -/
def manner (t : Turn) : Manner :=
  t.unit.ensureRoom.manner t.pc.toNat

/-- The number of turns that branch tracking counts, one turn later. -/
def counted (turns : UInt32) (t : Turn) : UInt32 :=
  (if t.isShort then 0 else turns) + 1

/-- How far branch tracking may be relied on, one turn later. -/
def relied (reliance : Tracking.Reliance) (t : Turn) : Tracking.Reliance :=
  if t.looksUp then t.manner.reliance t.unit.config.matchMode else reliance

/-- Branch tracking after a turn whose block leaves to an offset. Of the turns before, it knows
their number and the judgement of the lookup made last. -/
def tracked (t : Turn) (exit : UInt32) : Tracking where
  reliance := t.relied t.unit.tracking.reliance
  enteredAt := t.pc
  leftTo := exit
  turns := t.counted t.unit.tracking.turns

variable {t : Turn}

theorem tracking_ensureRoom (t : Turn) :
    t.unit.ensureRoom.tracking = if t.isShort then .zero else t.unit.tracking := by
  rw [ensureRoom]
  cases hshort : t.isShort with
  | true =>
    rw [if_pos (of_decide_eq_true hshort)]
    rfl
  | false =>
    rw [if_neg (of_decide_eq_false hshort)]
    rfl

/-- The block of a turn is looked up, or the run goes on with its program. -/
theorem Begins.lookup_cases {hit : Hit} (ht : t.Begins anyProgram p)
    (hlookup : t.lookup = .ok (hit, q)) :
    (t.looksUp = true ∧ t.unit.ensureRoom.findBlockAt t.pc.toNat = .ok (hit, q)) ∨
      (t.looksUp = false ∧
        ∃ program, t.unit.ensureRoom.enterProgram program t.pc.toNat = .ok (hit, q)) := by
  have hroom : Step anyProgram t.unit t.unit.ensureRoom := .makeRoom
  have hself := t.unit.ensureRoom.config.kind.pairOffset_eq_self
    (ht.inUse.step hroom).stocked.size_eq (t.unit.microcode_ensureRoom ▸ ht.hasPair)
  have hfound : ∀ hfind : t.unit.ensureRoom.findBlock t.pc = .ok (hit, q),
      t.unit.ensureRoom.findBlockAt t.pc.toNat = .ok (hit, q) := by
    intro hfind
    rwa [findBlock, hself] at hfind
  have hrecent := (adds_ensureRoom t).2
  rw [Turn.lookup, nextBlock, hrecent] at hlookup
  rw [looksUp]
  cases hshort : t.isShort with
  | true =>
    rw [hshort] at hlookup
    exact .inl ⟨Bool.or_true _, hfound hlookup⟩
  | false =>
    rw [hshort] at hlookup
    cases hbegun : t.begun with
    | false =>
      refine .inl ⟨rfl, hfound ?_⟩
      rw [hbegun] at hlookup
      cases hlast : t.unit.recent with
      | none => simpa [hlast] using hlookup
      | some program => simpa [hlast] using hlookup
    | true =>
      -- a run that goes on has a program to go on with
      obtain ⟨program, hlast, -⟩ := ht.inUse.fresh.recent (ht.fresh hbegun)
      refine .inr ⟨rfl, program, ?_⟩
      simpa [hlast, hbegun] using hlookup

/-- **Turn.** Branch tracking after a turn: where the block was entered and left to, one more turn,
and the judgement of the lookup if there was one. -/
theorem Begins.tracking_enter {hit : Hit} (ht : t.Begins anyProgram p)
    (hlookup : t.lookup = .ok (hit, q)) :
    (q.enter hit.block t.pc).tracking = t.tracked (q.enter hit.block t.pc).registers.pc := by
  show q.tracking.advance t.pc _ = _
  rcases ht.lookup_cases hlookup with ⟨hlooks, hfind⟩ | ⟨hlooks, program, henter⟩
  · -- a lookup leaves its judgement
    have hjudged := tracking_findBlockAt hfind
    rw [t.tracking_ensureRoom, t.unit.config_ensureRoom] at hjudged
    rw [hjudged, tracked, relied, counted, hlooks]
    cases t.isShort <;> rfl
  · have hkept : t.isShort = false := (Bool.or_eq_false_iff.mp hlooks).2
    have hleft : q.tracking = t.unit.ensureRoom.tracking := tracking_enterProgram henter
    rw [hleft, t.tracking_ensureRoom, tracked, relied, counted, hlooks, hkept]
    rfl

end Turn

/-! ### Runs -/

/-- From unit to unit by turns that find blocks and enter them. The first turn begins at `pc`, each
of the others where the block before has left to. -/
inductive Passage : Processor → (pc : UInt32) → List Turn → List Call → Processor → Prop where
  | stop (p : Processor) (pc : UInt32) : Passage p pc [] [] p
  | turn {p found q : Processor} {pc : UInt32} {begun : Bool} {hit : Hit} {ts : List Turn}
      {cs : List Call} (hbegins : (Turn.mk p pc begun).Begins anyProgram p)
      (hlookup : (Turn.mk p pc begun).lookup = .ok (hit, found))
      (hrest : Passage (found.enter hit.block pc) (found.enter hit.block pc).registers.pc ts cs q) :
      Passage p pc (⟨p, pc, begun⟩ :: ts) (⟨⟨pc.toNat, hit⟩, found⟩ :: cs) q

/-- The blocks of some calls follow each other. Each starts at the offset at which it is entered,
which is where the registers point to that the one before has left. -/
def Follows : Registers → List Call → Prop
  | _, [] => True
  | registers, c :: rest => c.offset = registers.pc.toNat ∧ c.hit.block.start = c.offset ∧
      Follows (c.hit.block.run registers) rest

/-- **Run.** A run that has a result is a passage through the blocks of its turns, of which there
are as many as the tally says. -/
theorem InUse.passage_runBlocks {budget pc : UInt32} (turns : Nat) {done t : Tally} (hp : p.InUse)
    (h : p.microcode.HasPair pc.toNat) (hfresh : 0 < done.blocks → p.stale = false)
    (hrun : p.runBlocks budget turns pc done = .ok (t, q)) :
    Passage p pc (turnsFrom budget turns p pc done) (callsFrom budget turns p pc done) q := by
  induction turns generalizing p pc done with
  | zero =>
    obtain ⟨-, rfl⟩ := Prod.mk.inj (Except.ok.inj hrun)
    exact .stop p pc
  | succ turns ih =>
    have hbegins : (Turn.mk p pc (0 < done.blocks)).Begins anyProgram p :=
      ⟨.refl, hp, h, fun hbegun => hfresh (of_decide_eq_true hbegun)⟩
    obtain ⟨cycles, p₁, hturn, hrest⟩ := runBlocks_eq_ok hrun
    obtain ⟨hsteps, hstale, hexit⟩ : Steps anyProgram p p₁ ∧ _ :=
      steps_turn hp.stocked h hbegins.fresh hturn
    rw [turnsFrom, callsFrom, hturn]
    obtain ⟨hit, found, hnext, rfl, rfl⟩ := turn_eq_ok hturn
    rw [hnext]
    refine .turn hbegins hnext ?_
    dsimp only
    obtain ⟨hends, -, rfl⟩ | ⟨hgoes, hrun⟩ := hrest
    · rw [if_pos hends, if_pos hends]
      exact .stop _ _
    · rw [if_neg hgoes, if_neg hgoes]
      exact ih (hp.steps hsteps) hexit (fun _ => hstale) hrun

namespace Passage

variable {pc : UInt32} {ts : List Turn} {cs : List Call}

theorem length_eq (h : Passage p pc ts cs q) : ts.length = cs.length := by
  induction h with
  | stop => rfl
  | turn hbegins hlookup hrest ih => exact congrArg (· + 1) ih

/-- Two things branch tracking keeps from turn to turn. -/
theorem tracking_eq (h : Passage p pc ts cs q) :
    q.tracking.reliance = ts.foldl Turn.relied p.tracking.reliance ∧
      q.tracking.turns = ts.foldl Turn.counted p.tracking.turns := by
  induction h with
  | stop => exact ⟨rfl, rfl⟩
  | turn hbegins hlookup hrest ih =>
    rw [hbegins.tracking_enter hlookup] at ih
    exact ih

/-- Branch tracking knows the last block of a passage. -/
theorem last (h : Passage p pc ts cs q) (hne : ts ≠ []) :
    ∃ c, cs.getLast? = some c ∧ q.tracking.enteredAt.toNat = c.hit.block.start ∧
      q.tracking.leftTo = q.registers.pc := by
  induction h with
  | stop => exact absurd rfl hne
  | @turn p found q pc begun hit ts cs hbegins hlookup hrest ih =>
    cases hrest with
    | stop =>
      have hstart := (hbegins.confined.found hit found hlookup).start_eq
      refine ⟨_, rfl, ?_⟩
      rw [hbegins.tracking_enter hlookup]
      exact ⟨hstart.symm, rfl⟩
    | turn hbegins' hlookup' hrest' =>
      obtain ⟨c, hlast, htracking⟩ := ih (List.cons_ne_nil _ _)
      exact ⟨c, hlast, htracking⟩

end Passage

/-! ### What is kept from turn to turn -/

theorem InUse.passage_execute {start budget : UInt32} {t : Tally} (hp : p.InUse)
    (hrun : p.execute start budget = .ok (t, q)) :
    Passage (p.beginRun (p.startPc start)) (p.startPc start) (p.turns start budget)
      (p.calls start budget) q := by
  have hbegin : Step anyProgram p (p.beginRun (p.startPc start)) := .begin _
  exact (hp.step hbegin).passage_runBlocks _ (hp.stocked.hasPair_startPc start)
    (fun hblocks => by cases hblocks) hrun

end Processor

end VectorUnit
