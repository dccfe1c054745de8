import VectorUnit.Proofs.Accounting
import VectorUnit.Proofs.Pacing
import VectorUnit.Proofs.Repetition

/-!
# Changes of microcode take shortcuts back

When microcode changes, or is said to have changed, a unit takes all shortcuts back and marks itself
as stale, and that is all it does (`Processor.Invalidated`). It does not even look at the shortcuts
if it is stale already: then none is there, whatever was done to it before
(`Processor.InUse.shortcut_of_stale`). So a second note of a change does nothing at all.

A stale unit stays stale until a block is looked up (`Processor.Quiet.stale`), so that lookup has to
compare programs with live memory (`Processor.InUse.compares_findBlockAt`). No lookup of the same
run takes a shortcut either: the run goes on with the program that was found, and where that is
forgotten, so are all shortcuts (`Processor.InUse.shortcuts_runBlocks`).
-/

namespace VectorUnit

/-- An operation that looks up no block. -/
def Operation.isQuiet : Operation → Bool
  | .findBlock _ | .execute _ _ => false
  | _ => true

namespace Processor

variable {p p' q q' : Processor} {offset : Nat} {m : Memory}

/-! ### What a change does -/

/-- A change of microcode, or a note of one: the memory that it leaves, and the unit. A write of no
bytes is neither, and leaves the unit as it is. -/
inductive Change (p : Processor) : Memory → Processor → Prop where
  | note (offset size : UInt32) : Change p p.microcode (p.noteChange offset size)
  | write (offset : UInt32) {data : List UInt8} (h : data ≠ []) :
      Change p (p.microcode.write offset.toNat data) (p.write offset data)

/-- A unit knows that its microcode may have changed, to `m` if it has. It has lost its shortcuts
and nothing else: programs, blocks and host code are all there, and every shelf lists what it
did. -/
structure Invalidated (p : Processor) (m : Memory) (q : Processor) : Prop where
  stale : q.stale = true
  shortcut_eq : ∀ s ∈ q.cache.shelves, s.shortcut = none
  microcode_eq : q.microcode = m
  programs_eq : q.cache.programs = p.cache.programs
  blocks_eq : q.cache.blocks = p.cache.blocks
  nextSerial_eq : q.cache.nextSerial = p.cache.nextSerial
  /-- All shelves list the same programs in the same order. -/
  listed_eq : q.cache.shelves.map Shelf.programs = p.cache.shelves.map Shelf.programs
  recent_eq : q.recent = p.recent
  registers_eq : q.registers = p.registers
  counters_eq : q.counters = p.counters
  recompiler_eq : q.recompiler = p.recompiler
  dispatcher_eq : q.dispatcher = p.dispatcher
  config_eq : q.config = p.config
  host_eq : q.host = p.host

/-- There are no shortcuts while microcode may have changed. -/
theorem InUse.shortcut_of_stale (hp : p.InUse) (hstale : p.stale = true) :
    ∀ s ∈ p.cache.shelves, s.shortcut = none := by
  intro s hs
  cases hshortcut : s.shortcut with
  | none => rfl
  | some hit =>
    have hfresh := (hp.fresh.shortcuts s hs hit hshortcut).1
    exact absurd hstale (by rw [hfresh]; decide)

theorem InUse.invalidated_markStale (hp : p.InUse) (m : Memory) :
    p.Invalidated m (markStale { p with microcode := m }) := by
  rw [markStale]
  split
  · case isTrue hstale =>
    exact ⟨hstale, hp.shortcut_of_stale hstale, rfl, rfl, rfl, rfl, rfl, rfl, rfl, rfl, rfl, rfl,
      rfl, rfl⟩
  · refine ⟨rfl, fun s hs => ?_, rfl, rfl, rfl, rfl, ?_, rfl, rfl, rfl, rfl, rfl, rfl, rfl⟩
    · obtain ⟨s', -, rfl⟩ := Array.mem_map.mp hs
      rfl
    · simp only [Cache.dropShortcuts, Array.map_map]
      rfl

theorem Change.invalidated (h : p.Change m q) (hp : p.InUse) : p.Invalidated m q := by
  cases h with
  | note offset size => exact hp.invalidated_markStale p.microcode
  | @write offset data hne =>
    rw [Processor.write, if_neg (by simpa using hne)]
    exact hp.invalidated_markStale _

theorem Change.use (h : p.Change m q) : Use anyProgram p q := by
  cases h with
  | note offset size => exact .perform (show p.perform (.noteChange offset size) = _ from rfl)
  | write offset hne => exact .perform (show p.perform (.write offset _) = _ from rfl)

/-- A note of a change is lost on a unit that is stale. -/
theorem noteChange_of_stale (h : p.stale = true) (offset size : UInt32) :
    p.noteChange offset size = p :=
  if_pos h

/-! ### Units stay stale -/

/-- Things are done to a unit, none of which looks up a block. Until the next lookup, they cannot
bring back a shortcut that was dropped. -/
inductive Quiet (p : Processor) : Processor → Prop where
  | refl : Quiet p p
  | perform {q q' : Processor} {op : Operation} {a : Answer} (h : Quiet p q)
      (hquiet : op.isQuiet = true) (hperform : q.perform op = .ok (a, q')) : Quiet p q'
  | fetch {q q' : Processor} {program : ProgramNumber} {offset : Nat} {id : BlockNumber}
      (h : Quiet p q) (hpair : q.microcode.HasPair offset)
      (hfetch : q.blockAt program offset = .ok (id, q')) : Quiet p q'

theorem Quiet.uses (h : Quiet p q) : Uses anyProgram p q := by
  induction h with
  | refl => exact .refl
  | perform _ _ hperform ih => exact ih.tail (.perform hperform)
  | fetch _ hpair hfetch ih => exact ih.tail (.fetch trivial hpair hfetch)

theorem stale_markStale (p : Processor) : p.markStale.stale = true := by
  rw [markStale]
  split
  · assumption
  · rfl

/-- **Step.** A stale unit stays stale until a block is looked up, and its shelves have no shortcuts
as long. -/
theorem stale_of_perform {op : Operation} {a : Answer} (hquiet : op.isQuiet = true)
    (hperform : p.perform op = .ok (a, q)) (hstale : p.stale = true) : q.stale = true := by
  cases performs_of_eq_ok hperform with
  | writeNone offset => exact hstale
  | write offset hne => exact stale_markStale _
  | noteChange offset size => exact stale_markStale p
  | reset full =>
    rw [reset_eq]
    rfl
  | load hload =>
    obtain rfl := load_eq_ok hload
    exact stale_markStale _
  | refused hload => exact hstale
  | setRegisters registers => exact hstale
  | findBlock hfind => cases hquiet
  | execute hrun => cases hquiet

theorem Quiet.stale (h : Quiet p q) (hstale : p.stale = true) : q.stale = true := by
  induction h with
  | refl => exact hstale
  | perform _ hquiet hperform ih => exact stale_of_perform hquiet hperform ih
  | fetch _ hpair hfetch ih =>
    obtain ⟨-, hsame, -⟩ := retains_blockAt hfetch hpair
    exact hsame.trans ih

/-! ### Lookups of stale units -/

/-- A lookup of a unit compares programs with live memory and takes no shortcut. It has a result,
unless the code of a block has no room or the machine does not let the arena be written. -/
def Compares (p : Processor) (x : Except Fault (Hit × Processor)) : Prop :=
  p.Yields x fun (_, q) => q.counters.lookups = p.counters.lookups + 1 ∧
    q.counters.shortcuts = p.counters.shortcuts

theorem InUse.compares_findBlockAt (hp : p.InUse) (h : p.microcode.HasPair offset)
    (hstale : p.stale = true) : p.Compares (p.findBlockAt offset) := by
  refine (hp.stocked.yields_findBlockAt hp.inFile.filed h).with_eq.mono ?_
  rintro ⟨hit, q⟩ ⟨hfind, -⟩
  obtain ⟨shelf, hshelf, ⟨program, id, hshortcut, -⟩ | ⟨-, program, p₁, hmatch, henter⟩⟩ :=
    findBlockAt_eq_ok hfind
  · have hnone := hp.shortcut_of_stale hstale shelf (Array.mem_of_getElem? hshelf)
    cases hnone.symm.trans hshortcut
  · obtain ⟨hshortcuts, hlookups⟩ := lookups_enterProgram henter
    obtain ⟨l, -, ⟨-, cache, -, rfl⟩ | ⟨-, cache, -, rfl⟩⟩ := matchPrograms_eq_ok hmatch
    · exact ⟨hlookups, hshortcuts⟩
    · exact ⟨hlookups, hshortcuts⟩

theorem InUse.compares_findBlock (hp : p.InUse) (hstale : p.stale = true) (offset : UInt32) :
    p.Compares (p.findBlock offset) :=
  hp.compares_findBlockAt (p.config.kind.hasPair_pairOffset hp.stocked.size_eq offset) hstale

theorem ensureRoom_lookups (p : Processor) : p.ensureRoom.counters.lookups = p.counters.lookups ∧
    p.ensureRoom.counters.shortcuts = p.counters.shortcuts := by
  rw [ensureRoom]
  split
  · exact ⟨rfl, rfl⟩
  · exact ⟨rfl, rfl⟩

theorem stale_ensureRoom_of_stale (hstale : p.stale = true) : p.ensureRoom.stale = true := by
  rw [ensureRoom]
  split
  · rfl
  · exact hstale

/-- A run opens with a comparison, whether or not the cache is flushed before. -/
theorem InUse.compares_opening (hp : p.InUse) (hstale : p.stale = true) (start : UInt32) :
    p.Compares (p.opening start) := by
  have hbegin : Step anyProgram p (p.beginRun (p.startPc start)) := .begin _
  have hroom : Step anyProgram _ (p.beginRun (p.startPc start)).ensureRoom := .makeRoom
  have hstale' : (p.beginRun (p.startPc start)).stale = true := hstale
  have hspec := ((hp.step hbegin).step hroom).compares_findBlock
    (stale_ensureRoom_of_stale hstale') (p.startPc start)
  obtain ⟨hlookups, hshortcuts⟩ := ensureRoom_lookups (p.beginRun (p.startPc start))
  have hunlocked : (p.beginRun (p.startPc start)).ensureRoom.isUnlocked = p.isUnlocked :=
    (p.beginRun (p.startPc start)).isUnlocked_ensureRoom
  rw [Compares, hlookups, hshortcuts] at hspec
  rw [opening, nextBlock_false]
  exact hspec.of_isUnlocked_eq hunlocked

/-- A lookup of a run takes no shortcut, if the first one is made in a stale unit. -/
theorem InUse.shortcuts_nextBlock {pc : UInt32} {begun : Bool} {hit : Hit} (hp : p.InUse)
    (hstale : begun = false → p.stale = true) (hnext : p.nextBlock pc begun = .ok (hit, q)) :
    q.counters.shortcuts = p.counters.shortcuts := by
  have hfind : ∀ _ : p.stale = true, p.findBlock pc = .ok (hit, q) →
      q.counters.shortcuts = p.counters.shortcuts := by
    intro hstale hfind
    have hspec := hp.compares_findBlock hstale pc
    rw [hfind] at hspec
    exact hspec.2
  rw [nextBlock] at hnext
  split at hnext
  · split at hnext
    · exact (lookups_enterProgram hnext).1
    · case isFalse hbegun => exact hfind (hstale (Bool.eq_false_iff.mpr hbegun)) hnext
  · case h_2 hrecent =>
    -- a unit that knows of no program to go on with is stale
    refine hfind (Bool.of_not_eq_false fun hfresh => ?_) hnext
    obtain ⟨id, hid, -⟩ := hp.fresh.recent hfresh
    cases hrecent.symm.trans hid

theorem InUse.shortcuts_turn {pc : UInt32} {begun : Bool} {cycles : UInt32} (hp : p.InUse)
    (hstale : begun = false → p.stale = true) (hturn : p.turn pc begun = .ok (cycles, q)) :
    q.counters.shortcuts = p.counters.shortcuts := by
  obtain ⟨hit, found, hnext, -, rfl⟩ := turn_eq_ok hturn
  have hroom : Step anyProgram p p.ensureRoom := .makeRoom
  have hsame := (hp.step hroom).shortcuts_nextBlock
    (fun hbegun => stale_ensureRoom_of_stale (hstale hbegun)) hnext
  rw [enter, count]
  exact hsame.trans p.ensureRoom_lookups.2

/-- **Run.** A run takes no shortcut if it is begun on a stale unit: the first lookup compares, and
there is another one only when all programs were forgotten, and the shortcuts with them. -/
theorem InUse.shortcuts_runBlocks {budget pc : UInt32} (turns : Nat) {done t : Tally}
    (hp : p.InUse) (h : p.microcode.HasPair pc.toNat) (hfresh : 0 < done.blocks → p.stale = false)
    (hstale : done.blocks = 0 → p.stale = true)
    (hrun : p.runBlocks budget turns pc done = .ok (t, q)) :
    q.counters.shortcuts = p.counters.shortcuts := by
  induction turns using Nat.strongRecOn generalizing p pc done with
  | ind turns ih =>
  cases turns with
  | zero =>
    obtain ⟨-, rfl⟩ := Prod.mk.inj (Except.ok.inj hrun)
    rfl
  | succ turns =>
    rcases runBlocks_succ budget turns p pc done with ⟨fault, -, hfails, -⟩ |
      ⟨cycles, p₁, left, hturn, hleft, hgoes, -⟩
    · cases hfails.symm.trans hrun
    · obtain ⟨hsteps, hstale₁, hexit⟩ : Steps anyProgram p p₁ ∧ _ :=
        steps_turn hp.stocked h (fun hbegun => hfresh (of_decide_eq_true hbegun)) hturn
      have hfirst := hp.shortcuts_turn (fun hbegun =>
        hstale (Nat.eq_zero_of_not_pos (of_decide_eq_false hbegun))) hturn
      have hlater := ih left (Nat.lt_succ_of_le hleft) (hp.steps hsteps) hexit (fun _ => hstale₁)
        (fun hnone => by cases hnone) (hgoes ▸ hrun)
      exact hlater.trans hfirst

/-- A run of a stale unit compares programs for its first block, and again for each block before
which they were forgotten. -/
theorem InUse.lookups_execute (hp : p.InUse) (hstale : p.stale = true) {start budget : UInt32}
    {t : Tally} (hrun : p.execute start budget = .ok (t, q)) :
    q.counters.shortcuts = p.counters.shortcuts ∧ q.counters.lookups =
      p.counters.lookups + 1 + (p.turns start budget).countP Turn.isLate := by
  have hbegin : Step anyProgram p (p.beginRun (p.startPc start)) := .begin _
  have hshortcuts : q.counters.shortcuts = p.counters.shortcuts :=
    (hp.step hbegin).shortcuts_runBlocks _ (hp.stocked.hasPair_startPc start)
      (fun hblocks => by cases hblocks) (fun _ => hstale) hrun
  obtain ⟨d, hd, htells, -⟩ := (adds_execute hp hrun).counted
  have hlookups : d.shortcuts + d.lookups =
      0 + (Turn.account (p.turns start budget)).lookups := htells.lookups_eq
  rw [lookups_account_turns] at hlookups
  refine ⟨hshortcuts, ?_⟩
  rw [hd, Counters.add] at hshortcuts ⊢
  dsimp only at hshortcuts ⊢
  omega

/-! ### Changes -/

/-- **Invalidation.** Whatever was done to a unit, a change of microcode or a note of one leaves it
stale and without shortcuts, and changes nothing else. Another note does nothing at all. Whatever is
done to the unit then without looking a block up, the next lookup compares programs with live
memory, whether it is made from outside or opens a run; and no lookup of that run takes a
shortcut. -/
theorem invalidated_of_change {host : Host} {config : Config}
    (hcreate : create host config = .ok p) (h : Uses anyProgram p p') (hchange : p'.Change m q) :
    p'.Invalidated m q ∧ (∀ offset size, q.noteChange offset size = q) ∧
      ∀ q', Quiet q q' → ∀ start, q'.Compares (q'.findBlock start) ∧
        q'.Compares (q'.opening start) ∧
        ∀ budget t q'', q'.execute start budget = .ok (t, q'') →
          q''.counters.shortcuts = q'.counters.shortcuts ∧ q''.counters.lookups =
            q'.counters.lookups + 1 + (q'.turns start budget).countP Turn.isLate := by
  have hp' : p'.InUse := (inUse_create hcreate).uses h
  have hinvalidated := hchange.invalidated hp'
  refine ⟨hinvalidated, noteChange_of_stale hinvalidated.stale, fun q' hquiet start => ?_⟩
  have hq' : q'.InUse := (hp'.uses (.single hchange.use)).uses hquiet.uses
  have hstale := hquiet.stale hinvalidated.stale
  exact ⟨hq'.compares_findBlock hstale start, hq'.compares_opening hstale start,
    fun budget t q'' hrun => hq'.lookups_execute hstale hrun⟩

/-- A block was found, and there is a shortcut to it when microcode is said to have changed. -/
theorem invalidated_of_change_of_idleLoop : ∃ p p₁ p' a, create .compact .standard = .ok p ∧
    p.perform (.write 0 idleLoop) = .ok (.done, p₁) ∧ p₁.perform (.findBlock 0) = .ok (a, p') ∧
    p'.stale = false ∧ (p'.cache.shortcut? 0).isSome = true ∧
    p'.Invalidated p'.microcode (p'.noteChange 0 0) ∧
    (p'.noteChange 0 0).Compares ((p'.noteChange 0 0).opening 0) := by
  obtain ⟨p, p₁, hnew, hwrite, hok⟩ : ∃ p p₁, create .compact .standard = .ok p ∧
      p.perform (.write 0 idleLoop) = .ok (.done, p₁) ∧
      ((p₁.perform (.findBlock 0)).toOption.any fun r =>
        !r.2.stale && (r.2.cache.shortcut? 0).isSome) = true :=
    ⟨_, _, rfl, rfl, by decide +kernel⟩
  obtain ⟨⟨a, p'⟩, hfind, hok⟩ := exists_ok_of_any hok
  rw [Bool.and_eq_true, Bool.not_eq_true'] at hok
  obtain ⟨hinvalidated, -, hlookups⟩ := invalidated_of_change hnew
    (.tail (.single (.perform hwrite)) (.perform hfind)) (.note 0 0)
  exact ⟨p, p₁, p', a, hnew, hwrite, hfind, hok.1, hok.2, hinvalidated,
    (hlookups _ .refl 0).2.1⟩

end Processor

end VectorUnit
