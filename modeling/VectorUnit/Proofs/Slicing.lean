import VectorUnit.Proofs.Pacing
import VectorUnit.Proofs.Turns

/-!
# Runs in slices

A run whose budget is used up can be taken up where it stopped. Both slices together come to what
one run comes to that has the cycles of the first slice and the budget of the second
(`Processor.execute_of_slices`), although the second slice looks its first block up where the one
run goes on with its program.

Without a cache, a run with a greater budget passes all the blocks of a run that was not stopped
(`Uncached.runBlocks_append`). From there it goes on like the second slice, but for what it has
counted already and for the status bits that the first slice has left behind: no code looks at them
(`Code.run_raise`), and none of them stops the run (`Uncached.runBlocks_shift`).
-/

namespace VectorUnit

/-! ### What code does not look at -/

namespace Code

theorem Operand.value_raise (regs : Registers) (bits : UInt32) (values : Array UInt32)
    (o : Operand) : o.value (regs.raise bits) values = o.value regs values := by
  cases o <;> rfl

theorem gateValues_raise (regs : Registers) (bits : UInt32) (gates : Array Gate) :
    gateValues (regs.raise bits) gates = gateValues regs gates := by
  have hvalue : ∀ (values : Array UInt32) (g : Gate),
      g.value (regs.raise bits) values = g.value regs values := by
    intro values g
    cases g <;> simp only [Gate.value, Operand.value_raise]
  simp only [gateValues, hvalue]

/-- No code looks at status bits: those that are set before are set afterwards as well. -/
theorem run_raise (code : Code) (regs : Registers) (bits : UInt32) :
    code.run (regs.raise bits) = (code.run regs).raise bits := by
  have hstatus : regs.status ||| bits ||| code.status = regs.status ||| code.status ||| bits := by
    rw [UInt32.or_assoc, UInt32.or_comm bits, UInt32.or_assoc]
  simp only [run, gateValues_raise, Operand.value_raise]
  exact congrArg (Registers.mk _ _ · _) hstatus

end Code

/-- Of two sets of bits together, those among some others. -/
theorem Status.or_and (a b c : UInt32) : (a ||| b) &&& c = a &&& c ||| b &&& c := by
  rw [← UInt32.toBitVec_inj]
  ext i
  simp [Bool.and_or_distrib_right]

/-- Bits that do not stop a run make no difference to whether it is stopped. -/
theorem Registers.isStopped_raise {bits : UInt32} (h : bits &&& Status.stopping = 0)
    (regs : Registers) : (regs.raise bits).isStopped = regs.isStopped := by
  have hstopping : (regs.status ||| bits) &&& Status.stopping =
      regs.status &&& Status.stopping := by
    rw [Status.or_and, h, UInt32.or_zero]
  rw [isStopped, raise, hstopping, isStopped]

/-! ### Counting on -/

namespace Tally

/-- What is counted in all, if this much was counted before. Cycles go no further than the greatest
number that is counted. -/
def after (before t : Tally) : Tally :=
  ⟨min (before.cycles + t.cycles) maxCycles, before.blocks + t.blocks⟩

theorem after_add (before t : Tally) (cycles : UInt32) :
    before.after (t.add cycles) = (before.after t).add cycles := by
  simp only [after, add, mk.injEq]
  omega

theorem after_zero {t : Tally} (h : t.cycles ≤ maxCycles) : t.after zero = t := by
  simp only [after, zero, Nat.add_zero, Nat.min_eq_left h]

end Tally

namespace Processor

/-- A budget that grows by what was counted before ends a run in the same place. -/
theorem ends_after_iff {budget more bits : UInt32} {before t : Tally} (regs : Registers)
    (hmore : more.toNat = before.cycles + budget.toNat) (hbits : bits &&& Status.stopping = 0) :
    Ends more (regs.raise bits) (before.after t).cycles ↔ Ends budget regs t.cycles := by
  have hmax : more.toNat ≤ Tally.maxCycles := Nat.le_sub_one_of_lt more.toNat_lt
  rw [Ends, Ends, Registers.isStopped_raise hbits, Tally.after]
  refine or_congr_right ?_
  dsimp only
  omega

end Processor

namespace Uncached

open Processor (Ends ends_after_iff)

variable {u u' : Uncached} {pc budget : UInt32} {done t : Tally}

/-! ### Runs -/

/-- **Turn.** A run that has a result runs the code of live memory. It ends behind that code if it
has to, and otherwise it goes on with the turns that are left. -/
theorem exists_code {turns : Nat}
    (hrun : u.runBlocks budget (turns + 1) pc done = some (t, u')) : ∃ code,
      u.code? pc.toNat = some code ∧
        ((Ends budget (code.run u.registers) (done.add code.cycles).cycles ∧
            t = done.add code.cycles ∧ u' = u.withRegisters (code.run u.registers)) ∨
          (¬ Ends budget (code.run u.registers) (done.add code.cycles).cycles ∧
            (u.withRegisters (code.run u.registers)).runBlocks budget turns
              (code.run u.registers).pc (done.add code.cycles) = some (t, u'))) := by
  rw [runBlocks] at hrun
  cases hcode : u.code? pc.toNat with
  | none =>
    rw [hcode] at hrun
    cases hrun
  | some code =>
    rw [hcode] at hrun
    refine ⟨code, rfl, ?_⟩
    dsimp only at hrun
    split at hrun
    · case isTrue hends =>
      rw [Bool.or_eq_true, decide_eq_true_iff] at hends
      obtain ⟨rfl, rfl⟩ := Prod.mk.inj (Option.some.inj hrun)
      exact .inl ⟨hends, rfl, rfl⟩
    · case isFalse hgoes =>
      rw [Bool.or_eq_true, decide_eq_true_iff] at hgoes
      exact .inr ⟨hgoes, hrun⟩

/-- The other way round, code that does not end a run is one of its turns. -/
theorem runBlocks_of_ends {code : Code} (hcode : u.code? pc.toNat = some code)
    (hends : Ends budget (code.run u.registers) (done.add code.cycles).cycles) (turns : Nat) :
    u.runBlocks budget (turns + 1) pc done =
      some (done.add code.cycles, u.withRegisters (code.run u.registers)) := by
  rw [runBlocks, hcode]
  refine if_pos ?_
  rw [Bool.or_eq_true, decide_eq_true_iff]
  exact hends

theorem runBlocks_of_goes {code : Code} (hcode : u.code? pc.toNat = some code)
    (hgoes : ¬ Ends budget (code.run u.registers) (done.add code.cycles).cycles) (turns : Nat) :
    u.runBlocks budget (turns + 1) pc done =
      (u.withRegisters (code.run u.registers)).runBlocks budget turns (code.run u.registers).pc
        (done.add code.cycles) := by
  rw [runBlocks, hcode]
  refine if_neg ?_
  rw [Bool.or_eq_true, decide_eq_true_iff]
  exact hgoes

/-- A run changes registers only, leaves to the offset of a pair, and counts no less than before. So
a later run may go on where it has ended. -/
structure Runs (u : Uncached) (done : Tally) (u' : Uncached) (t : Tally) : Prop where
  unit_eq : u' = u.withRegisters u'.registers
  hasPair : u.microcode.HasPair u'.registers.pc.toNat
  cycles_le : done.cycles ≤ t.cycles
  counted : t.cycles ≤ Tally.maxCycles

theorem runs_of_runBlocks (turns : Nat) (hsize : u.microcode.size ≤ 512 * 1024)
    (h : u.microcode.HasPair u.registers.pc.toNat) (hdone : done.cycles ≤ Tally.maxCycles)
    (hrun : u.runBlocks budget turns u.registers.pc done = some (t, u')) : u.Runs done u' t := by
  induction turns generalizing u done with
  | zero =>
    obtain ⟨rfl, rfl⟩ := Prod.mk.inj (Option.some.inj hrun)
    exact ⟨rfl, h, Nat.le_refl _, hdone⟩
  | succ turns ih =>
    obtain ⟨code, hcode, hturn⟩ := exists_code hrun
    have hexit := hasPair_run h hsize hcode u.registers
    have hle : done.cycles ≤ (done.add code.cycles).cycles :=
      Nat.le_min.mpr ⟨Nat.le_add_right _ _, hdone⟩
    have hcounted : (done.add code.cycles).cycles ≤ Tally.maxCycles := Nat.min_le_right _ _
    -- what the code does to the registers has no part in this
    generalize code.run u.registers = regs at hexit hturn
    rcases hturn with ⟨-, rfl, rfl⟩ | ⟨-, hrest⟩
    · exact ⟨rfl, hexit, hle, hcounted⟩
    · obtain ⟨hunit, hpair, hlater, hall⟩ :=
        ih (u := u.withRegisters regs) hsize hexit hcounted hrest
      exact ⟨hunit, hpair, Nat.le_trans hle hlater, hall⟩

/-- **Run.** What a run that was not stopped has gone through, a run with a greater budget goes
through as well. -/
theorem runBlocks_append {small big : UInt32} (turns : Nat)
    (hsize : u.microcode.size ≤ 512 * 1024) (h : u.microcode.HasPair u.registers.pc.toNat)
    (hrun : u.runBlocks small turns u.registers.pc done = some (t, u'))
    (hgoes : u'.registers.isStopped = false) (hbudget : t.cycles < big.toNat) (extra : Nat) :
    ∃ left, extra ≤ left ∧ u.runBlocks big (turns + extra) u.registers.pc done =
      u'.runBlocks big left u'.registers.pc t := by
  induction turns generalizing u done with
  | zero =>
    obtain ⟨rfl, rfl⟩ := Prod.mk.inj (Option.some.inj hrun)
    exact ⟨extra, Nat.le_refl _, by rw [Nat.zero_add]⟩
  | succ turns ih =>
    obtain ⟨code, hcode, hturn⟩ := exists_code hrun
    have hexit := hasPair_run h hsize hcode u.registers
    have hlater : ¬ Processor.Ends big (code.run u.registers) (done.add code.cycles).cycles →
        ∀ turns, u.runBlocks big (turns + 1) u.registers.pc done =
          (u.withRegisters (code.run u.registers)).runBlocks big turns
            (code.run u.registers).pc (done.add code.cycles) := runBlocks_of_goes hcode
    generalize code.run u.registers = regs at hexit hturn hlater
    rw [Nat.add_right_comm]
    rcases hturn with ⟨-, rfl, rfl⟩ | ⟨hsmall, hrest⟩
    · have hbig : ¬ Ends big regs (done.add code.cycles).cycles :=
        not_or.mpr ⟨Bool.eq_false_iff.mp hgoes, Nat.not_le.mpr hbudget⟩
      exact ⟨turns + extra, Nat.le_add_left _ _, hlater hbig _⟩
    · have hle : (done.add code.cycles).cycles ≤ t.cycles :=
        (runs_of_runBlocks (u := u.withRegisters regs) turns hsize hexit (Nat.min_le_right _ _)
          hrest).cycles_le
      have hbig : ¬ Ends big regs (done.add code.cycles).cycles :=
        not_or.mpr ⟨(not_or.mp hsmall).1, Nat.not_le.mpr (Nat.lt_of_le_of_lt hle hbudget)⟩
      rw [hlater hbig]
      exact ih (u := u.withRegisters regs) hsize hexit hrest

/-- **Run.** A run that has counted something before, with a budget that is greater by as much, and
with status bits that do not stop it, goes the same way. -/
theorem runBlocks_shift {more bits : UInt32} {before : Tally} (turns : Nat)
    (hmore : more.toNat = before.cycles + budget.toNat) (hbits : bits &&& Status.stopping = 0)
    (hrun : u.runBlocks budget turns pc done = some (t, u')) :
    (u.withRegisters (u.registers.raise bits)).runBlocks more turns pc (before.after done) =
      some (before.after t, u'.withRegisters (u'.registers.raise bits)) := by
  induction turns generalizing u pc done with
  | zero =>
    obtain ⟨rfl, rfl⟩ := Prod.mk.inj (Option.some.inj hrun)
    rfl
  | succ turns ih =>
    obtain ⟨code, hcode, hturn⟩ := exists_code hrun
    have hcode' : (u.withRegisters (u.registers.raise bits)).code? pc.toNat = some code := hcode
    have hrun' : code.run (u.withRegisters (u.registers.raise bits)).registers =
        (code.run u.registers).raise bits := code.run_raise u.registers bits
    have hends := ends_after_iff (t := done.add code.cycles) (code.run u.registers) hmore hbits
    rw [Tally.after_add, ← hrun'] at hends
    rcases hturn with ⟨hstops, rfl, rfl⟩ | ⟨hgoes, hrest⟩
    · rw [runBlocks_of_ends hcode' (hends.mpr hstops), Tally.after_add, hrun']
      rfl
    · rw [runBlocks_of_goes hcode' (hends.not.mpr hgoes), hrun', ← Tally.after_add]
      exact ih (u := u.withRegisters (code.run u.registers)) hrest

/-- **Second slice.** A run that is begun once more where it was not stopped goes the way on which
it would have gone on. -/
theorem runBlocks_of_execute {more : UInt32} {before : Tally}
    (hsize : u.microcode.size = u.kind.memorySize)
    (h : u.microcode.HasPair u.registers.pc.toNat) (hgoes : u.registers.isStopped = false)
    (hbefore : before.cycles ≤ Tally.maxCycles)
    (hmore : more.toNat = before.cycles + budget.toNat)
    (hrun : u.execute u.registers.pc budget = some (t, u')) :
    u.runBlocks more (max 1 budget.toNat) u.registers.pc before =
      some (before.after t, u'.withRegisters (u'.registers.raise u.registers.status)) := by
  have hstart : UInt32.ofNat (u.kind.pairOffset u.registers.pc) = u.registers.pc := by
    rw [u.kind.pairOffset_eq_self hsize h, UInt32.ofNat_toNat]
  have hbits : u.registers.status &&& Status.stopping = 0 := by
    simpa [Registers.isStopped] using hgoes
  have hregisters : Registers.raise { u.registers with pc := u.registers.pc, status := 0 }
      u.registers.status = u.registers := by
    rw [Registers.raise, UInt32.zero_or]
  rw [execute, hstart] at hrun
  have hshift := runBlocks_shift _ hmore hbits hrun
  rw [Tally.after_zero hbefore] at hshift
  rw [← hshift]
  exact congrArg (fun regs => runBlocks more _ (u.withRegisters regs) _ _) hregisters.symm

/-- **Slices.** A run that was not stopped, and the one that takes it up, come to what one run comes
to. -/
theorem execute_append {u₁ u₂ : Uncached} {start first second more : UInt32} {t₁ t₂ : Tally}
    (hsize : u.microcode.size = u.kind.memorySize)
    (hfirst : u.execute start first = some (t₁, u₁)) (hgoes : u₁.registers.isStopped = false)
    (hpos : 0 < second.toNat) (hsecond : u₁.execute u₁.registers.pc second = some (t₂, u₂))
    (hmore : more.toNat = t₁.cycles + second.toNat) :
    u.execute start more =
      some (t₁.after t₂, u₂.withRegisters (u₂.registers.raise u₁.registers.status)) := by
  have hle : u.microcode.size ≤ 512 * 1024 := hsize ▸ u.kind.memorySize_le
  have h := u.kind.hasPair_pairOffset hsize start
  rw [← u.kind.toNat_ofNat_pairOffset start] at h
  let begun : Uncached := u.withRegisters
    { u.registers with pc := UInt32.ofNat (u.kind.pairOffset start), status := 0 }
  obtain ⟨hunit, hpair, -, hcounted⟩ : begun.Runs .zero u₁ t₁ :=
    runs_of_runBlocks _ hle h (Nat.zero_le _) hfirst
  have hkind : u₁.kind = u.kind := (congrArg kind hunit).trans rfl
  have hmicrocode : u₁.microcode = u.microcode := (congrArg microcode hunit).trans rfl
  have hpair₁ : u₁.microcode.HasPair u₁.registers.pc.toNat := hmicrocode ▸ hpair
  have hbudget : t₁.cycles < more.toNat := by omega
  obtain ⟨left, hleft, happend⟩ :=
    runBlocks_append (u := begun) _ hle h hfirst hgoes hbudget (max 1 more.toNat)
  have hsize₁ : u₁.microcode.size = u₁.kind.memorySize := by rw [hmicrocode, hkind, hsize]
  -- turns for one slice and the other are more than are needed, but that makes no difference
  calc u.execute start more
    _ = begun.runBlocks more (max 1 more.toNat) begun.registers.pc .zero := rfl
    _ = begun.runBlocks more (max 1 first.toNat + max 1 more.toNat) begun.registers.pc .zero :=
      (runBlocks_eq_of_le (u := begun) hle h (by omega) (by omega) (Nat.le_add_left _ _)).symm
    _ = u₁.runBlocks more left u₁.registers.pc t₁ := happend
    _ = u₁.runBlocks more (max 1 second.toNat) u₁.registers.pc t₁ :=
      runBlocks_eq_of_le (hmicrocode ▸ hle) hpair₁ (by omega) (by omega) (by omega)
    _ = _ := runBlocks_of_execute hsize₁ hpair₁ hgoes hcounted hmore hsecond

end Uncached

namespace Processor

/-- A reachable unit stores blocks only where its arena may be written. -/
theorem Reachable.storesUnlocked {p : Processor} (hp : p.Reachable) :
    p.Stocked ∧ p.StoresUnlocked := by
  induction hp with
  | create h => exact ⟨stocked_create h, storesUnlocked_create h⟩
  | @perform p p' op a _ h ih =>
    obtain ⟨hstocked, hstores⟩ := ih
    have hsteps : Steps anyProgram p p' := steps_perform hstocked h
    exact ⟨hstocked.steps hsteps, hstores.steps hsteps⟩

/-- The arena of a unit that can be run may be written, for a run does not return before it has
entered a block. -/
theorem Reachable.isUnlocked {p q : Processor} (hp : p.Reachable) {start budget : UInt32}
    {t : Tally} (hrun : p.execute start budget = .ok (t, q)) : p.isUnlocked = true := by
  obtain ⟨hstocked, hstores⟩ := hp.storesUnlocked
  have hbegin : Step anyProgram p (p.beginRun (p.startPc start)) := .begin _
  obtain ⟨turns, hturns⟩ : ∃ turns, max 1 budget.toNat = turns + 1 :=
    ⟨max 1 budget.toNat - 1, by omega⟩
  have hrun' : (p.beginRun (p.startPc start)).runBlocks budget (turns + 1) (p.startPc start) .zero =
      .ok (t, q) := hturns ▸ hrun
  rcases runBlocks_succ budget turns (p.beginRun (p.startPc start)) (p.startPc start) .zero with
    ⟨fault, -, hfails, -⟩ | ⟨cycles, p₁, left, hturn, -, -, -⟩
  · cases hfails.symm.trans hrun'
  · obtain ⟨hit, found, hnext, -, -⟩ := turn_eq_ok hturn
    obtain ⟨hsteps, hb, -⟩ : Steps anyProgram _ found ∧ _ :=
      steps_ensureRoom_nextBlock (hstocked.step hbegin) (hstocked.hasPair_startPc start)
        (fun hbegun => by cases hbegun) hnext
    have hfound : Steps anyProgram p found := hsteps.head hbegin
    rw [← isUnlocked_steps hfound]
    exact hstores.steps hfound (Array.ne_empty_of_mem hb)

/-- **Slices.** A run that uses up its budget, and a second one from where it stopped, come to what
one run comes to that has the cycles of the first and the budget of the second: their cycles and
blocks add up, the registers are those after the second, and status bits of both are set. It makes
no difference what is found and forgotten on either way, as long as code has room. -/
theorem execute_of_slices {p p₁ p₂ : Processor} (hp : p.Reachable)
    {start first second : UInt32} {t₁ t₂ : Tally} (hfirst : p.execute start first = .ok (t₁, p₁))
    (hgoes : p₁.registers.isStopped = false) (hpos : 0 < second.toNat)
    (hsecond : p₁.execute p₁.registers.pc second = .ok (t₂, p₂))
    (hcount : t₁.cycles + second.toNat < UInt32.size)
    (hroom : ∀ offset, p.execute start (UInt32.ofNat (t₁.cycles + second.toNat)) ≠
      .error (.exhausted offset)) :
    ∃ t q, p.execute start (UInt32.ofNat (t₁.cycles + second.toNat)) = .ok (t, q) ∧
      t.cycles = min (t₁.cycles + t₂.cycles) Tally.maxCycles ∧
      t.blocks = t₁.blocks + t₂.blocks ∧
      q.registers =
        { p₂.registers with status := p₁.registers.status ||| p₂.registers.status } := by
  obtain ⟨hsound₁, hseen₁, -⟩ : p₁.Sound ∧
      p.uncached.execute start first = some (t₁, p₁.uncached) ∧ _ := by
    have hspec := execute_spec hp.sound start first
    rwa [hfirst] at hspec
  obtain ⟨-, hseen₂, -⟩ : p₂.Sound ∧
      p₁.uncached.execute p₁.registers.pc second = some (t₂, p₂.uncached) ∧ _ := by
    have hspec := execute_spec hsound₁ p₁.registers.pc second
    rwa [hsecond] at hspec
  have hmore : (UInt32.ofNat (t₁.cycles + second.toNat)).toNat = t₁.cycles + second.toNat :=
    UInt32.toNat_ofNat_of_lt' hcount
  have honce := Uncached.execute_append hp.sound.size_eq hseen₁ hgoes hpos hseen₂ hmore
  obtain ⟨⟨t, q⟩, hrun, -, hq, -⟩ :=
    (execute_spec hp.sound start _).exists_ok (hp.isUnlocked hfirst) hroom
  obtain ⟨rfl, hunit⟩ := Prod.mk.inj (Option.some.inj (hq.symm.trans honce))
  have hregisters : q.registers = p₂.registers.raise p₁.registers.status :=
    congrArg Uncached.registers hunit
  refine ⟨_, q, hrun, rfl, rfl, ?_⟩
  rw [hregisters, Registers.raise, UInt32.or_comm]

/-- A loop that counts, and kicks what it has counted. -/
def kickingLoop : List UInt8 :=
  Pair.image [.ofLower (Statement.word (.iaddi 1 1 1)), .ofLower (Statement.word (.b (-2))),
    .ofLower (Statement.word (.xgkick 1))] 24

/-- The first slice stops in front of the branch. The cache is flushed before every block but the
first of a run. -/
theorem execute_of_slices_of_kickingLoop : ∃ p p₁ p₂ q t, Reachable p ∧ p.config = tightConfig ∧
    p.execute 0 4 = .ok (⟨4, 3⟩, p₁) ∧ p₁.execute p₁.registers.pc 2 = .ok (⟨2, 1⟩, p₂) ∧
    p.execute 0 6 = .ok (t, q) ∧ t.cycles = 6 ∧ t.blocks = 4 ∧
    q.registers =
      { p₂.registers with status := p₁.registers.status ||| p₂.registers.status } := by
  obtain ⟨p, hp, hconfig, hok⟩ : ∃ p, Reachable p ∧ p.config = tightConfig ∧
      ((p.execute 0 4).toOption.any fun r => r.1 = ⟨4, 3⟩ && !r.2.registers.isStopped &&
        (r.2.execute r.2.registers.pc 2).toOption.any fun r' => r'.1 = ⟨2, 1⟩ &&
          (p.execute 0 6).toOption.isSome) = true :=
    ⟨_, .perform (.create (show create .compact tightConfig = .ok _ from rfl))
      (show perform _ (.write 0 kickingLoop) = .ok (.done, _) from rfl), rfl,
      by decide +kernel⟩
  obtain ⟨⟨t₁, p₁⟩, hfirst, hok⟩ := exists_ok_of_any hok
  simp only [Bool.and_eq_true, decide_eq_true_iff, Bool.not_eq_true'] at hok
  obtain ⟨⟨rfl, hgoes⟩, hok⟩ := hok
  obtain ⟨⟨t₂, p₂⟩, hsecond, hok⟩ := exists_ok_of_any hok
  simp only [Bool.and_eq_true, decide_eq_true_iff] at hok
  obtain ⟨rfl, honce⟩ := hok
  obtain ⟨t, q, hrun, hcycles, hblocks, hregisters⟩ := execute_of_slices hp hfirst hgoes
    (by decide) hsecond (by decide) fun offset hfault => by
      rw [show p.execute 0 6 = .error (.exhausted offset) from hfault] at honce
      cases honce
  exact ⟨p, p₁, p₂, q, t, hp, hconfig, hfirst, hsecond, hrun, hcycles, hblocks, hregisters⟩

end Processor

end VectorUnit
