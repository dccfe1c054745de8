import VectorUnit.Instruction.Assembly
import VectorUnit.Proofs.Trails

/-!
# Runs from the same offset

A run that starts where an earlier one started opens with the block that the earlier one opened
with, and nothing is compiled for that (`Processor.opening_of_executions`), if microcode was left
alone and no programs were forgotten in between, and if the shortcut still leads to the program of
the earlier run.

The last condition is not always met. The blocks behind the first one of a run are taken from the
program of the first, and whatever program that is, its block becomes the shortcut of its shelf. So
a run that started elsewhere may have left another program there, which then opens later runs, with
a block of its own (`Processor.opening_ne_of_backwardJump`).
-/

namespace VectorUnit

/-- A computation goes on with what is there. -/
theorem Fault.inRange_bind {α β : Type} {o : Option α} {a : α} {f : α → Except Fault β}
    (h : o = some a) : inRange o >>= f = f a := by
  rw [h]
  rfl

namespace Processor

variable {p p' : Processor} {offset : Nat} {program : ProgramNumber} {start : UInt32}

/-! ### Entering programs -/

/-- Entering a program compiles blocks, but counts as no lookup. -/
theorem lookups_enterProgram {hit : Hit} (henter : p.enterProgram program offset = .ok (hit, p')) :
    p'.counters.shortcuts = p.counters.shortcuts ∧ p'.counters.lookups = p.counters.lookups := by
  obtain ⟨compilations, tolerated, hcounters⟩ := counters_enterProgram henter
  rw [hcounters]
  exact ⟨rfl, rfl⟩

/-- A program that has a block gives it without compiling anything. -/
theorem blockAt_of_entry {id : BlockNumber} (hentry : p.cache.blockOf? program offset = some id) :
    p.blockAt program offset = .ok (id, p) := by
  obtain ⟨q, hq, hid⟩ := Cache.exists_program_of_blockOf? hentry
  rw [Processor.blockAt, Fault.inRange_bind hq, hid]
  rfl

theorem Stocked.enterProgram_of_stores {hit : Hit} (hp : p.Stocked)
    (h : p.microcode.HasPair offset) (hstores : p.cache.Stores offset hit) :
    ∃ p', p.enterProgram hit.program offset = .ok (hit, p') ∧ p'.recompiler = p.recompiler ∧
      p'.counters = p.counters := by
  have hblock : { p with stale := false, recent := some hit.program }.blockAt hit.program offset =
      .ok (hit.id, { p with stale := false, recent := some hit.program }) :=
    blockAt_of_entry hstores.entry
  obtain ⟨cache, hcache⟩ := Cache.exists_modifyShelf (hp.shelf_lt h) fun s =>
    s.setShortcut (some (hit.program, hit.id))
  have hb : cache.block? hit.id = some hit.block :=
    (Cache.Keeps.setShortcut hcache).blocks _ _ hstores.block
  refine ⟨{ p with stale := false, recent := some hit.program, cache := cache }, ?_, rfl, rfl⟩
  rw [Processor.enterProgram, hblock]
  exact (Fault.inRange_bind hcache).trans (Fault.inRange_bind hb)

/-! ### Lookups by shortcut -/

/-- A lookup whose shelf has a shortcut enters the program to which it leads. -/
theorem findBlockAt_of_shortcut {id : BlockNumber}
    (hshortcut : p.cache.shortcut? offset = some (program, id)) :
    p.findBlockAt offset = ((p.setReliance .presumed).count fun s =>
      { s with shortcuts := s.shortcuts + 1 }).enterProgram program offset := by
  obtain ⟨shelf, hshelf, hshelf'⟩ := Option.bind_eq_some_iff.mp hshortcut
  rw [findBlockAt, Fault.inRange_bind hshelf, hshelf']

/-- Where there is a shortcut, the block found is one of its program. -/
theorem program_of_shortcut {id : BlockNumber} {hit : Hit}
    (hshortcut : p.cache.shortcut? offset = some (program, id))
    (hfind : p.findBlockAt offset = .ok (hit, p')) : hit.program = program := by
  rw [findBlockAt_of_shortcut hshortcut] at hfind
  exact program_enterProgram hfind

/-- There is room for more code, in the sense in which a run asks before each block. While there is,
no run forgets its programs. -/
def HasRoom (p : Processor) : Prop :=
  p.config.headroom ≤ p.recompiler.arena.room

theorem HasRoom.ensureRoom_eq (h : p.HasRoom) (pc : UInt32) :
    (p.beginRun pc).ensureRoom = p.beginRun pc :=
  if_neg (Nat.not_lt.mpr h)

/-- A run that finds a shortcut opens with the program to which it leads. -/
theorem InUse.opening_of_shortcut (hp : p.InUse) (hroom : p.HasRoom) {id : BlockNumber}
    (hshortcut : p.cache.shortcut? (p.startPc start).toNat = some (program, id)) :
    p.Yields (p.opening start) fun (hit, p') => hit.program = program ∧
      p'.counters.shortcuts = p.counters.shortcuts + 1 ∧
      p'.counters.lookups = p.counters.lookups := by
  have hbegun : (p.beginRun (p.startPc start)).Stocked := hp.stocked.begun _
  have hshortcut' : (p.beginRun (p.startPc start)).cache.shortcut? (p.startPc start).toNat =
      some (program, id) := hshortcut
  have hyields := hbegun.yields_findBlockAt hp.inFile.filed (hp.stocked.hasPair_startPc start)
  rw [hp.stocked.opening_eq (hroom.ensureRoom_eq _)]
  refine (Yields.of_isUnlocked_eq rfl hyields).with_eq.mono ?_
  rintro ⟨hit, p'⟩ ⟨hfind, -⟩
  refine ⟨program_of_shortcut hshortcut' hfind, ?_⟩
  rw [findBlockAt_of_shortcut hshortcut'] at hfind
  exact lookups_enterProgram hfind

/-- A run that finds a shortcut to a program which has the block opens with that block, and nothing
is compiled. -/
theorem Stocked.opening_of_stores (hp : p.Stocked) (hroom : p.HasRoom) {hit : Hit}
    {id : BlockNumber}
    (hshortcut : p.cache.shortcut? (p.startPc start).toNat = some (hit.program, id))
    (hstores : p.cache.Stores (p.startPc start).toNat hit) :
    ∃ p', p.opening start = .ok (hit, p') ∧ p'.recompiler = p.recompiler ∧
      p'.counters.compilations = p.counters.compilations := by
  have hshortcut' : (p.beginRun (p.startPc start)).cache.shortcut? (p.startPc start).toNat =
      some (hit.program, id) := hshortcut
  have hcounted : (((p.beginRun (p.startPc start)).setReliance .presumed).count fun s =>
      { s with shortcuts := s.shortcuts + 1 }).Stocked := hp.congr rfl rfl rfl rfl
  obtain ⟨p', henter, hrecompiler, hcounters⟩ :=
    hcounted.enterProgram_of_stores (hp.hasPair_startPc start) hstores
  refine ⟨p', ?_, hrecompiler, ?_⟩
  · rw [hp.opening_eq (hroom.ensureRoom_eq _)]
    exact (findBlockAt_of_shortcut hshortcut').trans henter
  · rw [hcounters]
    rfl

/-! ### The program of a shelf after some runs -/

/-- The program of the last visit in the shelf of an offset, or else another one. -/
def lastProgram (offset : Nat) (visits : List Visit) (program : ProgramNumber) : ProgramNumber :=
  ((near offset visits).map fun v => v.hit.program).getLastD program

theorem lastProgram_eq {visits : List Visit}
    (h : ∀ v ∈ near offset visits, v.hit.program = program) :
    lastProgram offset visits program = program := by
  rcases List.mem_cons.mp List.getLastD_mem_cons with heq | hmem
  · exact heq
  · obtain ⟨v, hv, heq⟩ := List.mem_map.mp hmem
    exact heq.symm.trans (h v hv)

/-- The shortcut of a shelf leads to the program of the last visit there. -/
theorem Leaves.exists_shortcut {visits : List Visit} (h : p.Leaves visits p') {id : BlockNumber}
    (hshortcut : p.cache.shortcut? offset = some (program, id)) :
    ∃ id', p'.cache.shortcut? offset = some (lastProgram offset visits program, id') := by
  rw [h offset, lastProgram, hshortcut, List.getLastD_eq_getLast?, List.getLast?_map]
  cases (near offset visits).getLast? with
  | none => exact ⟨id, rfl⟩
  | some v => exact ⟨v.hit.id, rfl⟩

/-- **Run.** After a run that forgets nothing, the block that it opened with is stored, and the
shortcut there leads to the program of that block. -/
theorem InUse.shortcut_execute (hp : p.InUse) {budget : UInt32} {t : Tally}
    (hrun : p.execute start budget = .ok (t, p'))
    (hkept : p'.counters.forgettings = p.counters.forgettings) : ∃ hit q id,
      p.opening start = .ok (hit, q) ∧
        p'.cache.shortcut? (p.config.kind.pairOffset start) = some (hit.program, id) ∧
        p'.cache.Stores (p.config.kind.pairOffset start) hit := by
  obtain ⟨hit, q, rest, hopening, hfind, -, hchained⟩ := hp.stocked.exists_opening hrun hkept
  have hpair := hp.stocked.hasPair_startPc start
  rw [toNat_startPc] at hfind hpair
  have hopened : q.cache.shortcut? (p.config.kind.pairOffset start) = some (hit.program, hit.id) :=
    (shortcut?_findBlockAt hfind _).trans (if_pos rfl)
  have hstores : q.cache.Stores (p.config.kind.pairOffset start) hit :=
    stores_findBlockAt hfind hp.inFile.filed hpair
  -- the run goes on with that program, so later blocks may change the shortcut, but not its program
  obtain ⟨hprograms, hleaves⟩ := hchained.leaves
  obtain ⟨id, hshortcut⟩ := hleaves.exists_shortcut hopened
  rw [lastProgram_eq fun v hv => hprograms v (List.mem_of_mem_filter hv)] at hshortcut
  exact ⟨hit, q, id, hopening, hshortcut, hstores.of_keeps hchained.keeps.cache⟩

/-- **Runs.** Runs from one offset all have the program to which its shortcut leads, for each begins
with that shortcut and goes on with its program. -/
theorem Executions.program_eq {runs : List Run} (h : Executions p runs p') (hp : p.Stocked)
    (hkept : p'.counters.forgettings = p.counters.forgettings) {id : BlockNumber}
    (hshortcut : p.cache.shortcut? offset = some (program, id))
    (hstarts : ∀ r ∈ runs, p.config.kind.pairOffset r.start = offset) :
    ∀ v ∈ runs.flatMap Run.trail, v.hit.program = program := by
  induction h with
  | none => exact fun v hv => by cases hv
  | @more p' p'' runs start budget t h hrun ih =>
    obtain ⟨hstocked, hkept₁, hkept₂⟩ := h.kept hp hrun hkept
    have hbefore := ih hkept₁ fun r hr => hstarts r (List.mem_append_left _ hr)
    -- the run opens with the shortcut that the runs before it have left
    obtain ⟨id', hshortcut'⟩ := (h.leaves hp hkept₁).exists_shortcut hshortcut
    rw [lastProgram_eq fun v hv => hbefore v (List.mem_of_mem_filter hv)] at hshortcut'
    obtain ⟨hit, q, -, hfind, hprograms, -⟩ := hstocked.leaves_execute hrun hkept₂
    have hoffset : (p'.startPc start).toNat = offset := by
      have hstart := hstarts ⟨start, _⟩ (List.mem_append_right _ (List.mem_singleton.mpr rfl))
      rw [toNat_startPc, config_steps (hp.steps_of_uses h.uses)]
      exact hstart
    rw [hoffset] at hfind
    have hprogram : hit.program = program :=
      program_of_shortcut (p := p'.beginRun (p'.startPc start)) hshortcut' hfind
    intro v hv
    rw [List.flatMap_append, List.flatMap_singleton] at hv
    rcases List.mem_append.mp hv with hv | hv
    · exact hbefore v hv
    · exact (hprograms v hv).trans hprogram

/-- **Repetition.** After a run from some offset, and any other runs that forget no programs, a run
from that offset opens by the shortcut, and with the program of the block that was entered last in
the shelf. If that is the first run's program, whatever was entered there before, then it opens with
the very block that the first run opened with, and nothing is compiled for that. So it is when all
runs start at that offset. -/
theorem opening_of_executions {host : Host} {config : Config} {p₁ p₂ p₃ : Processor}
    (hcreate : create host config = .ok p) (h : Uses anyProgram p p₁) {budget : UInt32} {t : Tally}
    (hrun : p₁.execute start budget = .ok (t, p₂)) {runs : List Run}
    (hruns : Executions p₂ runs p₃)
    (hkept : p₃.counters.forgettings = p₁.counters.forgettings) (hroom : p₃.HasRoom) :
    ∃ hit q, p₁.opening start = .ok (hit, q) ∧
      (p₃.Yields (p₃.opening start) fun (hit', q') =>
        hit'.program =
            lastProgram (config.kind.pairOffset start) (runs.flatMap Run.trail) hit.program ∧
          q'.counters.shortcuts = p₃.counters.shortcuts + 1 ∧
          q'.counters.lookups = p₃.counters.lookups) ∧
      (lastProgram (config.kind.pairOffset start) (runs.flatMap Run.trail) hit.program =
          hit.program ∨
        (∀ r ∈ runs, config.kind.pairOffset r.start = config.kind.pairOffset start) →
        ∃ q', p₃.opening start = .ok (hit, q') ∧ q'.recompiler = p₃.recompiler ∧
          q'.counters.compilations = p₃.counters.compilations) := by
  have hp₁ := (inUse_create hcreate).uses h
  obtain rfl : p₁.config = config := config_of_uses hcreate h
  have hfirst : Steps anyProgram p₁ p₂ := steps_execute hp₁.stocked hrun
  have hp₂ := hp₁.steps hfirst
  have hlater := hp₂.stocked.steps_of_uses hruns.uses
  have hconfig₂ : p₂.config = p₁.config := config_steps hfirst
  have hpc₃ : (p₃.startPc start).toNat = p₁.config.kind.pairOffset start := by
    rw [toNat_startPc, config_steps hlater, hconfig₂]
  obtain ⟨hkept₁, hkept₂⟩ := forgettings_eq_of_steps hfirst hlater hkept
  -- the first run leaves a shortcut to its program, and the later ones to that of the last visit
  obtain ⟨hit, q, id₂, hopening, hshortcut₂, hstores₂⟩ := hp₁.shortcut_execute hrun hkept₁
  obtain ⟨id₃, hshortcut₃⟩ := (hruns.leaves hp₂.stocked hkept₂).exists_shortcut hshortcut₂
  refine ⟨hit, q, hopening, ?_, fun hsame => ?_⟩
  · rw [← hpc₃] at hshortcut₃ ⊢
    exact (hp₂.uses hruns.uses).opening_of_shortcut hroom hshortcut₃
  · have hlast : lastProgram (p₁.config.kind.pairOffset start) (runs.flatMap Run.trail)
        hit.program = hit.program := by
      rcases hsame with hlast | hstarts
      · exact hlast
      · have hstarts₂ : ∀ r ∈ runs, p₂.config.kind.pairOffset r.start =
            p₁.config.kind.pairOffset start := hconfig₂.symm ▸ hstarts
        have hvisits := hruns.program_eq hp₂.stocked hkept₂ hshortcut₂ hstarts₂
        exact lastProgram_eq fun v hv => hvisits v (List.mem_of_mem_filter hv)
    have hstores₃ := hstores₂.of_keeps (hp₂.stocked.keeps_of_uses hruns.uses hkept₂).cache
    rw [hlast, ← hpc₃] at hshortcut₃
    rw [← hpc₃] at hstores₃
    exact (hp₂.stocked.steps hlater).opening_of_stores hroom hshortcut₃ hstores₃

/-- Two programs that end at once, one behind the other, and further on a jump back to the second
one. -/
def backwardJump (p : Processor) : Processor :=
  (p.write 0 (Pair.programEnd.toBytes ++ Pair.programEnd.toBytes)).write 64
    (Pair.ofLower (Statement.word (.b (-8)))).toBytes

theorem uses_backwardJump (p : Processor) : Uses anyProgram p p.backwardJump :=
  .tail (.single (.perform (show p.perform (.write 0 _) = .ok (.done, _) from rfl)))
    (.perform (show (p.write 0 _).perform (.write 64 _) = .ok (.done, _) from rfl))

/-- The run in between starts at the other offset of the shelf, so what opens the last run is not
what the shortcut leads to. -/
theorem opening_of_executions_of_backwardJump : ∃ p p₂ p₃ t t' hit q q',
    create .compact .standard = .ok p ∧ Uses anyProgram p p.backwardJump ∧
      p.backwardJump.execute 0 8 = .ok (t, p₂) ∧ p₂.execute 8 8 = .ok (t', p₃) ∧
      Executions p₂ [⟨8, p₂.trail 8 8⟩] p₃ ∧
      p₃.counters.forgettings = p.backwardJump.counters.forgettings ∧ p₃.HasRoom ∧
      p.backwardJump.opening 0 = .ok (hit, q) ∧ p₃.opening 0 = .ok (hit, q') ∧
      q'.recompiler = p₃.recompiler ∧ q'.counters.compilations = p₃.counters.compilations := by
  obtain ⟨p, hnew, hok⟩ : ∃ p, create .compact .standard = .ok p ∧
      (p.backwardJump.execute 0 8).toOption.any (fun r =>
        (r.2.execute 8 8).toOption.any fun r' =>
          r'.2.counters.forgettings = p.backwardJump.counters.forgettings &&
            r'.2.config.headroom ≤ r'.2.recompiler.arena.room &&
            (p.backwardJump.opening 0).toOption.any fun o =>
              (near 0 (r.2.trail 8 8)).all fun v => v.hit.program = o.1.program) = true :=
    ⟨_, rfl, by decide +kernel⟩
  obtain ⟨⟨t, p₂⟩, hrun, hok⟩ := exists_ok_of_any hok
  obtain ⟨⟨t', p₃⟩, hrun', hok⟩ := exists_ok_of_any hok
  simp only [Bool.and_eq_true, decide_eq_true_iff] at hok
  obtain ⟨⟨hkept, hroom⟩, hok⟩ := hok
  obtain ⟨⟨hit, q⟩, hopening, hnear⟩ := exists_ok_of_any hok
  have huses := p.uses_backwardJump
  have hruns : Executions p₂ [⟨8, p₂.trail 8 8⟩] p₃ := .more .none hrun'
  obtain ⟨hit₁, q₁, hopening₁, -, hrepeats⟩ :=
    opening_of_executions hnew huses hrun hruns hkept hroom
  obtain ⟨rfl, rfl⟩ := Prod.mk.inj (Except.ok.inj (hopening₁.symm.trans hopening))
  obtain ⟨q', hopening', hrecompiler, hcompilations⟩ :=
    hrepeats <| .inl <| lastProgram_eq fun v hv => by
      rw [List.flatMap_singleton] at hv
      exact of_decide_eq_true (List.all_eq_true.mp hnear v hv)
  exact ⟨p, p₂, p₃, t, t', hit₁, q₁, q', hnew, huses, hrun, hrun', hruns, hkept, hroom, hopening,
    hopening', hrecompiler, hcompilations⟩

/-- A run that jumps back into the shelf of an earlier one leaves its own program there, which has
no block yet where the earlier run started. -/
theorem opening_ne_of_backwardJump : ∃ p p₂ p₃ t t' hit q hit' q',
    create .compact .standard = .ok p ∧ Uses anyProgram p p.backwardJump ∧
      p.backwardJump.execute 0 8 = .ok (t, p₂) ∧ p₂.execute 64 8 = .ok (t', p₃) ∧
      Executions p₂ [⟨64, p₂.trail 64 8⟩] p₃ ∧
      p₃.counters.forgettings = p.backwardJump.counters.forgettings ∧ p₃.HasRoom ∧
      p.backwardJump.opening 0 = .ok (hit, q) ∧ p₃.opening 0 = .ok (hit', q') ∧
      hit'.program ≠ hit.program ∧ hit'.id ≠ hit.id ∧
      q'.counters.compilations = p₃.counters.compilations + 1 := by
  obtain ⟨p, hnew, hok⟩ : ∃ p, create .compact .standard = .ok p ∧
      (p.backwardJump.execute 0 8).toOption.any (fun r =>
        (r.2.execute 64 8).toOption.any fun r' =>
          r'.2.counters.forgettings = p.backwardJump.counters.forgettings &&
            r'.2.config.headroom ≤ r'.2.recompiler.arena.room &&
            (p.backwardJump.opening 0).toOption.any fun o =>
              (r'.2.opening 0).toOption.any fun o' =>
                o'.1.program != o.1.program && o'.1.id != o.1.id &&
                  o'.2.counters.compilations = r'.2.counters.compilations + 1) = true :=
    ⟨_, rfl, by decide +kernel⟩
  obtain ⟨⟨t, p₂⟩, hrun, hok⟩ := exists_ok_of_any hok
  obtain ⟨⟨t', p₃⟩, hrun', hok⟩ := exists_ok_of_any hok
  simp only [Bool.and_eq_true, decide_eq_true_iff] at hok
  obtain ⟨⟨hkept, hroom⟩, hok⟩ := hok
  obtain ⟨⟨hit, q⟩, hopening, hok⟩ := exists_ok_of_any hok
  obtain ⟨⟨hit', q'⟩, hopening', hok⟩ := exists_ok_of_any hok
  simp only [Bool.and_eq_true, decide_eq_true_iff, bne_iff_ne] at hok
  obtain ⟨⟨hprogram, hid⟩, hcompilations⟩ := hok
  exact ⟨p, p₂, p₃, t, t', hit, q, hit', q', hnew, p.uses_backwardJump, hrun, hrun',
    .more .none hrun', hkept, hroom, hopening, hopening', hprogram, hid, hcompilations⟩

end Processor

end VectorUnit
