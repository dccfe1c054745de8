import VectorUnit.Proofs.Availability
import VectorUnit.Proofs.Retention

/-!
# Trails

The trail of a run (`Processor.trail`) is the list of the blocks that it came to, each with the
offset at which it was entered. The first block is looked up (`Processor.opening`). As long as no
programs are forgotten, all others are blocks of the same program, which is entered again and again
(`Processor.Chained`), so a run has one program (`Processor.exists_opening`).

Each block that a run comes to is left as the shortcut of its shelf. So after some runs the shortcut
of a shelf is the block entered last in that shelf, by whichever run and at whichever of its offsets
(`Processor.Executions.leaves`).
-/

namespace VectorUnit

/-! ### Shortcuts of shelves -/

namespace Cache

/-- The shortcut of the shelf of an offset. -/
def shortcut? (c : Cache) (offset : Nat) : Option (ProgramNumber × BlockNumber) :=
  (c.shelf? offset).bind Shelf.shortcut

variable {c c' : Cache} {offset : Nat} {program : ProgramNumber}

/-- Listing programs leaves shortcuts alone. -/
theorem shortcut?_modify {i : Nat} {f : Shelf → Shelf} (hf : ∀ s, (f s).shortcut = s.shortcut)
    (hshelves : c'.shelves = c.shelves.modify i f) : c'.shortcut? = c.shortcut? := by
  funext offset
  rw [shortcut?, shelf?, hshelves, Array.getElem?_modify, shortcut?, shelf?]
  split
  · rw [Option.bind_map]
    exact congrArg _ (funext hf)
  · rfl

theorem shortcut?_setShortcut {id : BlockNumber}
    (hset : c.setShortcut offset program id = some c') (offset' : Nat) :
    c'.shortcut? offset' = if offset / Shelf.span = offset' / Shelf.span then some (program, id)
      else c.shortcut? offset' := by
  obtain ⟨hlt, rfl⟩ := modifyShelf_eq_some hset
  rw [shortcut?, shelf?, Array.getElem?_modify]
  split
  · case isTrue heq =>
    rw [← heq, Array.getElem?_eq_getElem hlt]
    rfl
  · rfl

end Cache

namespace Processor

variable {p p' p'' : Processor} {offset : Nat} {program : ProgramNumber}

theorem shortcut?_blockAt {id : BlockNumber} (hblock : p.blockAt program offset = .ok (id, p')) :
    p'.cache.shortcut? = p.cache.shortcut? := by
  obtain ⟨q, -, ⟨-, rfl⟩ | ⟨-, b, p₁, cache, hcompile, hadd, rfl⟩⟩ := blockAt_eq_ok hblock
  · rfl
  · obtain ⟨-, -, -, rfl⟩ := Cache.addBlock_eq_some hadd
    refine Cache.shortcut?_modify (f := fun s => s.enlist program) (fun s => ?_) rfl
    rw [Shelf.enlist]
    split
    · rfl
    · rfl

theorem shortcut?_matchPrograms (hmatch : p.matchPrograms offset = .ok (program, p')) :
    p'.cache.shortcut? = p.cache.shortcut? := by
  obtain ⟨l, -, ⟨-, cache, hcache, rfl⟩ | ⟨-, cache, hcache, rfl⟩⟩ := matchPrograms_eq_ok hmatch
  · obtain ⟨-, rfl⟩ := Cache.modifyShelf_eq_some hcache
    exact Cache.shortcut?_modify (f := fun s => s.touch program) (fun _ => rfl) rfl
  · obtain ⟨-, -, rfl⟩ := Cache.addProgram_eq_some hcache
    exact Cache.shortcut?_modify (f := fun s => s.push program) (fun _ => rfl) rfl

/-- A block that is found is left as the shortcut of its shelf. -/
theorem shortcut?_enterProgram {hit : Hit} (henter : p.enterProgram program offset = .ok (hit, p'))
    (offset' : Nat) : p'.cache.shortcut? offset' =
      if offset / Shelf.span = offset' / Shelf.span then some (hit.program, hit.id)
        else p.cache.shortcut? offset' := by
  obtain ⟨p₁, cache, hblock, hcache, -, rfl, rfl⟩ := enterProgram_eq_ok henter
  rw [Cache.shortcut?_setShortcut hcache, shortcut?_blockAt hblock]

theorem shortcut?_findBlockAt {hit : Hit} (hfind : p.findBlockAt offset = .ok (hit, p'))
    (offset' : Nat) : p'.cache.shortcut? offset' =
      if offset / Shelf.span = offset' / Shelf.span then some (hit.program, hit.id)
        else p.cache.shortcut? offset' := by
  obtain ⟨shelf, -, ⟨program, id, -, henter⟩ | ⟨-, program, p₁, hmatch, henter⟩⟩ :=
    findBlockAt_eq_ok hfind
  · exact shortcut?_enterProgram henter offset'
  · rw [shortcut?_enterProgram henter, shortcut?_matchPrograms hmatch]

/-! ### Trails of runs -/

/-- A block that a run came to, and the offset at which it was entered. It becomes the shortcut of
the shelf to which the offset belongs. -/
structure Visit where
  offset : Nat
  hit : Hit
deriving DecidableEq

/-- The shortcut that a visit leaves. -/
def Visit.shortcut (v : Visit) : ProgramNumber × BlockNumber :=
  (v.hit.program, v.hit.id)

/-- The visits in the shelf of an offset, which has two offsets of pairs. -/
def near (offset : Nat) (visits : List Visit) : List Visit :=
  visits.filter fun v => v.offset / Shelf.span = offset / Shelf.span

/-- Where a run begins. -/
def startPc (p : Processor) (start : UInt32) : UInt32 :=
  UInt32.ofNat (p.config.kind.pairOffset start)

/-- The first lookup of a run: what it finds for the offset at which the run begins, after room was
made. -/
def opening (p : Processor) (start : UInt32) : Except Fault (Hit × Processor) :=
  (p.beginRun (p.startPc start)).ensureRoom.nextBlock (p.startPc start) false

/-- The blocks that at most `turns` turns of a run come to. -/
def trailFrom (budget : UInt32) : (turns : Nat) → Processor → (pc : UInt32) → (done : Tally) →
    List Visit
  | 0, _, _, _ => []
  | turns + 1, p, pc, done =>
    match p.ensureRoom.nextBlock pc (0 < done.blocks) with
    | .error _ => []
    | .ok (hit, p) =>
      let p := p.enter hit.block pc
      let done := done.add hit.block.cycles
      ⟨pc.toNat, hit⟩ ::
        if p.registers.isStopped || budget.toNat ≤ done.cycles then []
        else trailFrom budget turns p p.registers.pc done

/-- The blocks that a run comes to, in the order in which it enters them. -/
def trail (p : Processor) (start budget : UInt32) : List Visit :=
  trailFrom budget (max 1 budget.toNat) (p.beginRun (p.startPc start)) (p.startPc start) .zero

/-- A turn finds a block and runs it. -/
theorem turn_eq_ok {pc : UInt32} {begun : Bool} {cycles : UInt32}
    (h : p.turn pc begun = .ok (cycles, p')) : ∃ hit q,
      p.ensureRoom.nextBlock pc begun = .ok (hit, q) ∧ cycles = hit.block.cycles ∧
        p' = q.enter hit.block pc := by
  obtain ⟨⟨hit, q⟩, hnext, h⟩ := exists_of_bind_eq_ok h
  obtain ⟨rfl, rfl⟩ := Prod.mk.inj (Except.ok.inj h)
  exact ⟨hit, q, hnext, rfl, rfl⟩

/-- The trail has as many blocks as ran. -/
theorem length_trailFrom {budget pc : UInt32} (turns : Nat) {done t : Tally}
    (hrun : p.runBlocks budget turns pc done = .ok (t, p')) :
    t.blocks = done.blocks + (trailFrom budget turns p pc done).length := by
  induction turns generalizing p pc done with
  | zero =>
    obtain ⟨rfl, -⟩ := Prod.mk.inj (Except.ok.inj hrun)
    rfl
  | succ turns ih =>
    obtain ⟨cycles, p₁, hturn, hrest⟩ := runBlocks_eq_ok hrun
    obtain ⟨hit, q, hnext, rfl, rfl⟩ := turn_eq_ok hturn
    rw [trailFrom, hnext]
    dsimp only
    rw [List.length_cons]
    obtain ⟨hends, rfl, -⟩ | ⟨hgoes, hrun⟩ := hrest
    · rw [if_pos hends]
      rfl
    · rw [if_neg hgoes, ih hrun]
      simp only [Tally.add]
      omega

theorem length_trail {start budget : UInt32} {t : Tally}
    (hrun : p.execute start budget = .ok (t, p')) :
    (p.trail start budget).length = t.blocks := by
  rw [length_trailFrom _ hrun, trail]
  exact (Nat.zero_add _).symm

/-! ### Runs that forget nothing -/

/-- Going from unit to unit by entering one program at one offset after another, each time to run
the block that is found. -/
inductive Chained (program : ProgramNumber) : Processor → List Visit → Processor → Prop where
  | stop (p : Processor) : Chained program p [] p
  | next {p q p' : Processor} {hit : Hit} {pc : UInt32} {visits : List Visit}
      (h : p.microcode.HasPair pc.toNat) (henter : p.enterProgram program pc.toNat = .ok (hit, q))
      (hrest : Chained program (q.enter hit.block pc) visits p') :
      Chained program p (⟨pc.toNat, hit⟩ :: visits) p'

theorem keeps_enter (p : Processor) (b : Block) (pc : UInt32) : p.Keeps (p.enter b pc) := by
  rw [enter, count]
  exact ⟨.refl _, rfl⟩

theorem microcode_enter (p : Processor) (b : Block) (pc : UInt32) :
    (p.enter b pc).microcode = p.microcode := by
  rw [enter, count]

/-- A turn that forgets nothing need not make room. -/
theorem turn_of_kept {pc : UInt32} {begun : Bool} {cycles : UInt32}
    (hturn : p.turn pc begun = .ok (cycles, p'))
    (hkept : p'.counters.forgettings = p.counters.forgettings) : ∃ hit q,
      p.ensureRoom = p ∧ p.nextBlock pc begun = .ok (hit, q) ∧ cycles = hit.block.cycles ∧
        p' = q.enter hit.block pc := by
  obtain ⟨hit, q, hnext, rfl, rfl⟩ := turn_eq_ok hturn
  rw [(keeps_enter q hit.block pc).forgettings_eq, (keeps_nextBlock hnext).forgettings_eq] at hkept
  rcases p.ensureRoom_cases with hroom | hforgets
  · rw [hroom] at hnext
    exact ⟨hit, q, hroom, hnext, rfl, rfl⟩
  · exact absurd hkept (Nat.ne_of_gt hforgets)

/-- **Turn.** A run that forgets nothing finds a block in the cache as it is, runs it, and goes on
with the turns that are left, of which there are none where it ends. -/
theorem Stocked.exists_turn {budget pc : UInt32} {turns : Nat} {done t : Tally} (hp : p.Stocked)
    (h : p.microcode.HasPair pc.toNat) (hfresh : 0 < done.blocks → p.stale = false)
    (hrun : p.runBlocks budget (turns + 1) pc done = .ok (t, p'))
    (hkept : p'.counters.forgettings = p.counters.forgettings) : ∃ hit q p₁ left,
      p.ensureRoom = p ∧ p.nextBlock pc (0 < done.blocks) = .ok (hit, q) ∧
        p₁ = q.enter hit.block pc ∧ p₁.Stocked ∧ p₁.stale = false ∧
        p₁.microcode.HasPair p₁.registers.pc.toNat ∧
        p'.counters.forgettings = p₁.counters.forgettings ∧ left ≤ turns ∧
        p₁.runBlocks budget left p₁.registers.pc (done.add hit.block.cycles) = .ok (t, p') ∧
        trailFrom budget (turns + 1) p pc done = ⟨pc.toNat, hit⟩ ::
          trailFrom budget left p₁ p₁.registers.pc (done.add hit.block.cycles) := by
  obtain ⟨cycles, p₁, hturn, hrest⟩ := runBlocks_eq_ok hrun
  obtain ⟨hsteps, hstale, hexit⟩ : Steps anyProgram p p₁ ∧ _ :=
    steps_turn hp h (fun hb => hfresh (of_decide_eq_true hb)) hturn
  have hstocked := hp.steps hsteps
  obtain ⟨left, hleft, hrest, hends⟩ : ∃ left, left ≤ turns ∧
      p₁.runBlocks budget left p₁.registers.pc (done.add cycles) = .ok (t, p') ∧
      (if (p₁.registers.isStopped || budget.toNat ≤ (done.add cycles).cycles) = true then []
        else trailFrom budget turns p₁ p₁.registers.pc (done.add cycles)) =
        trailFrom budget left p₁ p₁.registers.pc (done.add cycles) := by
    obtain ⟨hends, rfl, rfl⟩ | ⟨hgoes, hrun⟩ := hrest
    · exact ⟨0, Nat.zero_le _, rfl, if_pos hends⟩
    · exact ⟨turns, Nat.le_refl _, hrun, if_neg hgoes⟩
  have hlater : Steps anyProgram p₁ p' :=
    steps_runBlocks left hstocked hexit (fun _ => hstale) hrest
  obtain ⟨hkept₁, hkept₂⟩ := forgettings_eq_of_steps hsteps hlater hkept
  obtain ⟨hit, q, hroom, hnext, rfl, rfl⟩ := turn_of_kept hturn hkept₁
  refine ⟨hit, q, _, left, hroom, hnext, rfl, hstocked, hstale, hexit, hkept₂, hleft, hrest, ?_⟩
  rw [trailFrom, hroom, hnext, ← hends]

/-- **Run.** The blocks behind the first one are taken from one program, as long as no programs are
forgotten on the way. -/
theorem chained_of_runBlocks {budget pc : UInt32} (turns : Nat) {done t : Tally}
    (hp : p.Stocked) (h : p.microcode.HasPair pc.toNat) (hbegun : 0 < done.blocks)
    (hfresh : p.stale = false) (hrecent : p.recent = some program)
    (hrun : p.runBlocks budget turns pc done = .ok (t, p'))
    (hkept : p'.counters.forgettings = p.counters.forgettings) :
    Chained program p (trailFrom budget turns p pc done) p' := by
  induction turns using Nat.strongRecOn generalizing p pc done with
  | ind turns ih =>
  cases turns with
  | zero =>
    obtain ⟨-, rfl⟩ := Prod.mk.inj (Except.ok.inj hrun)
    exact .stop p
  | succ turns =>
    obtain ⟨hit, q, p₁, left, -, henter, hp₁, hstocked, hstale, hexit, hkept₁, hleft, hrest,
      htrail⟩ := hp.exists_turn h (fun _ => hfresh) hrun hkept
    rw [decide_eq_true hbegun, nextBlock, hrecent] at henter
    obtain ⟨-, hrecent', -, -⟩ := enterProgram_fresh henter
    rw [htrail]
    subst hp₁
    exact .next h henter (ih left (Nat.lt_succ_of_le hleft) hstocked hexit (Nat.succ_pos _) hstale
      hrecent' hrest hkept₁)

/-- Going on with one program forgets nothing. -/
theorem Chained.keeps {visits : List Visit} (h : Chained program p visits p') : p.Keeps p' := by
  induction h with
  | stop p => exact .refl p
  | @next p q p' hit pc visits _ henter _ ih =>
    exact ((keeps_enterProgram henter).trans (keeps_enter q hit.block pc)).trans ih

/-- The program stays the one found last, and microcode stays as it is. -/
theorem Chained.fresh {visits : List Visit} (h : Chained program p visits p')
    (hrecent : p.recent = some program) (hfresh : p.stale = false) :
    p'.recent = some program ∧ p'.stale = false ∧ p'.microcode = p.microcode := by
  induction h with
  | stop p => exact ⟨hrecent, hfresh, rfl⟩
  | @next p q p' hit pc visits _ henter _ ih =>
    obtain ⟨hfresh', hrecent', hmicrocode, -⟩ := enterProgram_fresh henter
    obtain ⟨hlast, hstale, hsame⟩ := ih hrecent' hfresh'
    exact ⟨hlast, hstale, (hsame.trans (microcode_enter q hit.block pc)).trans hmicrocode⟩

/-! ### Openings -/

theorem nextBlock_false (p : Processor) (pc : UInt32) : p.nextBlock pc false = p.findBlock pc := by
  rw [nextBlock]
  split
  · rfl
  · rfl

theorem toNat_startPc (p : Processor) (start : UInt32) :
    (p.startPc start).toNat = p.config.kind.pairOffset start :=
  p.config.kind.toNat_ofNat_pairOffset start

theorem Stocked.hasPair_startPc (hp : p.Stocked) (start : UInt32) :
    p.microcode.HasPair (p.startPc start).toNat := by
  rw [toNat_startPc]
  exact p.config.kind.hasPair_pairOffset hp.size_eq start

theorem Stocked.begun (hp : p.Stocked) (pc : UInt32) : (p.beginRun pc).Stocked :=
  hp.congr rfl rfl rfl rfl

/-- If there is room, a run opens with a lookup in the cache as it is. -/
theorem Stocked.opening_eq (hp : p.Stocked) {start : UInt32}
    (hroom : (p.beginRun (p.startPc start)).ensureRoom = p.beginRun (p.startPc start)) :
    p.opening start =
      (p.beginRun (p.startPc start)).findBlockAt (p.startPc start).toNat := by
  have hself := p.config.kind.pairOffset_eq_self hp.size_eq (hp.hasPair_startPc start)
  rw [opening, hroom, nextBlock_false, findBlock]
  exact congrArg _ hself

/-- Entering a program gives a block of that program. -/
theorem program_enterProgram {hit : Hit} (henter : p.enterProgram program offset = .ok (hit, p')) :
    hit.program = program := by
  obtain ⟨-, -, -, -, -, hprogram, -⟩ := enterProgram_eq_ok henter
  exact hprogram

theorem recent_enterProgram {hit : Hit} (henter : p.enterProgram program offset = .ok (hit, p')) :
    p'.recent = some hit.program := by
  obtain ⟨-, hrecent, -, -⟩ := enterProgram_fresh henter
  rw [hrecent, program_enterProgram henter]

/-- What a lookup finds is a block of the program found last. -/
theorem recent_findBlockAt {hit : Hit} (hfind : p.findBlockAt offset = .ok (hit, p')) :
    p'.recent = some hit.program := by
  obtain ⟨shelf, -, ⟨program, id, -, henter⟩ | ⟨-, program, p₁, -, henter⟩⟩ :=
    findBlockAt_eq_ok hfind
  · exact recent_enterProgram henter
  · exact recent_enterProgram henter

/-- **Run.** A run that forgets nothing opens with a lookup, and takes all other blocks from the
program that gave the first. -/
theorem Stocked.exists_opening (hp : p.Stocked) {start budget : UInt32} {t : Tally}
    (hrun : p.execute start budget = .ok (t, p'))
    (hkept : p'.counters.forgettings = p.counters.forgettings) : ∃ hit q rest,
      p.opening start = .ok (hit, q) ∧
        (p.beginRun (p.startPc start)).findBlockAt (p.startPc start).toNat = .ok (hit, q) ∧
        p.trail start budget = ⟨(p.startPc start).toNat, hit⟩ :: rest ∧
        Chained hit.program (q.enter hit.block (p.startPc start)) rest p' := by
  obtain ⟨turns, hturns⟩ : ∃ turns, max 1 budget.toNat = turns + 1 :=
    Nat.exists_eq_succ_of_ne_zero (by omega)
  have hrun' : (p.beginRun (p.startPc start)).runBlocks budget (turns + 1) (p.startPc start) .zero =
      .ok (t, p') := hturns ▸ hrun
  obtain ⟨hit, q, p₁, left, hroom, hnext, rfl, hstocked, hstale, hexit, hkept₁, -, hrest, htrail⟩ :=
    (hp.begun _).exists_turn (hp.hasPair_startPc start) (fun hblocks => by cases hblocks) hrun'
      hkept
  have hopening : p.opening start = .ok (hit, q) := by
    rw [opening, hroom]
    exact hnext
  have hfind := (hp.opening_eq hroom).symm.trans hopening
  have hrecent := recent_findBlockAt hfind
  refine ⟨hit, q, _, hopening, hfind, (congrArg (trailFrom budget · _ _ _) hturns).trans htrail, ?_⟩
  exact chained_of_runBlocks left hstocked hexit (Nat.succ_pos _) hstale hrecent hrest hkept₁

/-! ### What runs leave -/

/-- The shortcuts of a unit are those of another one, but for what some visits have left. The last
visit in a shelf decides, and other shelves are as they were. -/
def Leaves (p : Processor) (visits : List Visit) (p' : Processor) : Prop :=
  ∀ offset, p'.cache.shortcut? offset =
    ((near offset visits).getLast?.map Visit.shortcut).or (p.cache.shortcut? offset)

theorem Leaves.of_eq (h : p'.cache = p.cache) : p.Leaves [] p' := by
  intro offset
  rw [h]
  rfl

theorem Leaves.trans {visits visits' : List Visit} (h : p.Leaves visits p')
    (h' : p'.Leaves visits' p'') : p.Leaves (visits ++ visits') p'' := by
  intro offset
  -- the last visit of all is the last of the later ones, or the last of the earlier ones
  have hlast : (near offset (visits ++ visits')).getLast? =
      (near offset visits').getLast?.or (near offset visits).getLast? := by
    rw [near, near, near, List.filter_append, List.getLast?_append]
  rw [h' offset, h offset, hlast, Option.map_or, Option.or_assoc]

theorem Leaves.single {visit : Visit}
    (h : ∀ offset, p'.cache.shortcut? offset =
      if visit.offset / Shelf.span = offset / Shelf.span then some visit.shortcut
        else p.cache.shortcut? offset) : p.Leaves [visit] p' := by
  intro offset
  rw [h offset, near, List.filter_singleton]
  split
  · case isTrue hnear =>
    rw [decide_eq_true hnear]
    rfl
  · case isFalse hfar =>
    rw [decide_eq_false hfar]
    rfl

/-- **Run.** The blocks that are taken from one program are of that program, and the last of them in
a shelf is its shortcut. -/
theorem Chained.leaves {visits : List Visit} (h : Chained program p visits p') :
    (∀ v ∈ visits, v.hit.program = program) ∧ p.Leaves visits p' := by
  induction h with
  | stop p => exact ⟨fun v hv => (by cases hv), .of_eq rfl⟩
  | @next p q p' hit pc visits h henter _ ih =>
    refine ⟨fun v hv => ?_, ?_⟩
    · rcases List.mem_cons.mp hv with rfl | hv
      · exact program_enterProgram henter
      · exact ih.1 v hv
    · have hleft : p.Leaves [⟨pc.toNat, hit⟩] q := .single (shortcut?_enterProgram henter)
      exact hleft.trans ih.2

/-- A run has one program, that of its first block. -/
theorem Stocked.leaves_execute (hp : p.Stocked) {start budget : UInt32} {t : Tally}
    (hrun : p.execute start budget = .ok (t, p'))
    (hkept : p'.counters.forgettings = p.counters.forgettings) : ∃ hit q,
      p.opening start = .ok (hit, q) ∧
        (p.beginRun (p.startPc start)).findBlockAt (p.startPc start).toNat = .ok (hit, q) ∧
        (∀ v ∈ p.trail start budget, v.hit.program = hit.program) ∧
        p.Leaves (p.trail start budget) p' := by
  obtain ⟨hit, q, rest, hopening, hfind, htrail, hchained⟩ := hp.exists_opening hrun hkept
  obtain ⟨hprograms, hleaves⟩ := hchained.leaves
  have hfirst : (p.beginRun (p.startPc start)).Leaves [⟨(p.startPc start).toNat, hit⟩] q :=
    .single (shortcut?_findBlockAt hfind)
  rw [htrail]
  refine ⟨hit, q, hopening, hfind, fun v hv => ?_, hfirst.trans hleaves⟩
  rcases List.mem_cons.mp hv with rfl | hv
  · rfl
  · exact hprograms v hv

/-! ### One run after another -/

/-- A run: where it was started, and what it came to. Its budget does not matter for what follows
it, but only the blocks that it has entered. -/
structure Run where
  start : UInt32
  trail : List Visit

/-- Runs one after another, with nothing done to the unit in between. They may start anywhere and
have any budgets, and may enter each other's shelves. -/
inductive Executions (p : Processor) : List Run → Processor → Prop where
  | none : Executions p [] p
  | more {p' p'' : Processor} {runs : List Run} {start budget : UInt32} {t : Tally}
      (h : Executions p runs p') (hrun : p'.execute start budget = .ok (t, p'')) :
      Executions p (runs ++ [⟨start, p'.trail start budget⟩]) p''

variable {runs : List Run}

/-- Runs are among what can be done to a unit. -/
theorem Executions.uses (h : Executions p runs p') : Uses anyProgram p p' := by
  induction h with
  | none => exact .refl
  | @more p' p'' runs start budget t _ hrun ih =>
    have hperform : p'.perform (.execute start budget) = .ok (.ran t, p'') := by
      rw [perform, hrun]
      rfl
    exact ih.tail (.perform hperform)

/-- Runs that forget nothing, followed by another one, forgot nothing before that one. -/
theorem Executions.kept (h : Executions p runs p') (hp : p.Stocked) {start budget : UInt32}
    {t : Tally} (hrun : p'.execute start budget = .ok (t, p''))
    (hkept : p''.counters.forgettings = p.counters.forgettings) :
    p'.Stocked ∧ p'.counters.forgettings = p.counters.forgettings ∧
      p''.counters.forgettings = p'.counters.forgettings := by
  have hsteps := hp.steps_of_uses h.uses
  have hlast : Steps anyProgram p' p'' := steps_execute (hp.steps hsteps) hrun
  exact ⟨hp.steps hsteps, forgettings_eq_of_steps hsteps hlast hkept⟩

/-- **Runs.** The shortcut of a shelf is the block that was entered last in that shelf, by whichever
of the runs. -/
theorem Executions.leaves (h : Executions p runs p') (hp : p.Stocked)
    (hkept : p'.counters.forgettings = p.counters.forgettings) :
    p.Leaves (runs.flatMap Run.trail) p' := by
  induction h with
  | none => exact .of_eq rfl
  | @more p' p'' runs start budget t h hrun ih =>
    obtain ⟨hstocked, hkept₁, hkept₂⟩ := h.kept hp hrun hkept
    obtain ⟨-, -, -, -, -, hleaves⟩ := hstocked.leaves_execute hrun hkept₂
    rw [List.flatMap_append, List.flatMap_singleton]
    exact (ih hkept₁).trans hleaves

end Processor

end VectorUnit
