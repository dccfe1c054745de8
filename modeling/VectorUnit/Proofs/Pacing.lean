import VectorUnit.Proofs.Boundaries
import VectorUnit.Proofs.Residence
import VectorUnit.Proofs.Splitting

/-!
# Runs keep to their budget

A run has to end behind the first block after which it is stopped or has counted its budget
(`Processor.Ends`). It ends there and nowhere else, although it is given no more than
`max 1 budget` turns: every block has a pair, and so takes a cycle (`Block.Fits.pairCount_pos`), and
a count that has reached the greatest number has reached every budget. So as long as a run goes on,
its turns are at least as many as what is left of its budget (`Processor.ends_callsFrom_iff`), and
with more of them it would come to the same (`Processor.runBlocks_of_le`).

A block has as many pairs as are allowed, or as are there up to the end of memory, and a delay slot
at most (`Block.Fits.pairCount_le`). So a run does not go far beyond its budget
(`Processor.paced_of_uses`).
-/

namespace VectorUnit

/-! ### Lengths of blocks -/

/-- A block has a pair, and takes one cycle for each of its pairs. So every turn of a run brings its
end nearer, whatever the budget is. -/
structure Block.Timed (b : Block) : Prop where
  cycles_eq : b.cycles.toNat = b.pairCount
  pairCount_pos : 0 < b.pairCount

namespace Block.Fits

variable {b : Block} {memLength maxLength : Nat}

theorem timed (h : b.Fits memLength maxLength) (hle : memLength ≤ 512 * 1024) : b.Timed := by
  obtain ⟨m, s, rfl, hpair, hs, hb⟩ := h
  obtain ⟨s', hs', hcycles, -⟩ := Sequence.exists_toCode hpair hle maxLength
  obtain rfl := Option.some.inj (hs.symm.trans hs')
  constructor
  · rw [cycles, hb.code_eq, hb.pairCount_eq, hcycles]
  · rw [hb.pairCount_eq]
    exact s.length_pos

theorem pairCount_le (h : b.Fits memLength maxLength) :
    b.pairCount ≤ min (max maxLength 1) (memLength / Pair.size) + 1 := by
  obtain ⟨m, s, rfl, hpair, hs, hb⟩ := h
  have hlimit : s.length ≤ max maxLength 1 + 1 :=
    ((Sequence.delimits_iff_eq hpair hs).mpr rfl).length_le
  have hend : b.start + Pair.size * s.length ≤ m.size + Pair.size :=
    ((Sequence.ofMemory?_eq_some_iff hpair).mp hs).2.length_le hpair
  have hinside : s.length - 1 ≤ m.size / Pair.size := by
    rw [Nat.le_div_iff_mul_le (by decide)]
    simp only [Pair.size] at hend ⊢
    omega
  rw [hb.pairCount_eq]
  omega

end Block.Fits

namespace Processor

variable {p p' q : Processor} {budget pc : UInt32}

/-! ### Where a run has to end -/

/-- A run that has come to these registers in so many cycles has to end. Nothing else ends a run,
but it is asked only between blocks. -/
def Ends (budget : UInt32) (registers : Registers) (cycles : Nat) : Prop :=
  registers.isStopped = true ∨ budget.toNat ≤ cycles

/-- The number of pairs in the blocks of some calls. -/
def pairsRun : List Call → Nat
  | [] => 0
  | c :: rest => c.hit.block.pairCount + pairsRun rest

theorem pairsRun_append (calls calls' : List Call) :
    pairsRun (calls ++ calls') = pairsRun calls + pairsRun calls' := by
  induction calls with
  | nil => exact (Nat.zero_add _).symm
  | cons c rest ih => rw [List.cons_append, pairsRun, pairsRun, ih, Nat.add_assoc]

/-- Blocks that have pairs are no more than those pairs. -/
theorem length_le_pairsRun {calls : List Call} (h : ∀ c ∈ calls, c.hit.block.Timed) :
    calls.length ≤ pairsRun calls := by
  induction calls with
  | nil => exact Nat.le_refl 0
  | cons c rest ih =>
    obtain ⟨hc, hrest⟩ := List.forall_mem_cons.mp h
    have hle := ih hrest
    have hpos := hc.pairCount_pos
    rw [pairsRun, List.length_cons]
    omega

/-- **Turn.** A run that has a result enters a block. It ends behind that block if it has to, and
otherwise it goes on with the turns that are left. -/
theorem exists_call {turns : Nat} {done t : Tally}
    (hrun : p.runBlocks budget (turns + 1) pc done = .ok (t, p')) : ∃ (c : Call) (q : Processor),
      q.registers = c.hit.block.run p.registers ∧
        ((Ends budget q.registers (done.add c.hit.block.cycles).cycles ∧ ∀ turns,
            p.runBlocks budget (turns + 1) pc done = .ok (done.add c.hit.block.cycles, q) ∧
            callsFrom budget (turns + 1) p pc done = [c]) ∨
          (¬ Ends budget q.registers (done.add c.hit.block.cycles).cycles ∧ ∀ turns,
            p.runBlocks budget (turns + 1) pc done =
              q.runBlocks budget turns q.registers.pc (done.add c.hit.block.cycles) ∧
            callsFrom budget (turns + 1) p pc done =
              c :: callsFrom budget turns q q.registers.pc (done.add c.hit.block.cycles))) := by
  obtain ⟨cycles, q, hturn, -⟩ := runBlocks_eq_ok hrun
  obtain ⟨hit, found, hnext, rfl, rfl⟩ := turn_eq_ok hturn
  refine ⟨⟨⟨pc.toNat, hit⟩, found⟩, found.enter hit.block pc, registers_enter_nextBlock hnext, ?_⟩
  simp only [runBlocks, callsFrom, hturn, hnext, Ends, Bool.or_eq_true, decide_eq_true_iff]
  by_cases hends : (found.enter hit.block pc).registers.isStopped = true ∨
      budget.toNat ≤ (done.add hit.block.cycles).cycles
  · simp only [hends, if_true, true_and, implies_true, not_true, false_and, or_false]
  · simp only [hends, if_false, not_false_eq_true, true_and, implies_true, false_and, false_or]

/-- A block that takes a cycle leaves a run that goes on with no more of its budget than turns. -/
theorem turns_of_goes {registers : Registers} {turns : Nat} {done : Tally} {cycles : UInt32}
    (hbudget : budget.toNat ≤ done.cycles + (turns + 1)) (hcycles : 0 < cycles.toNat)
    (hgoes : ¬ Ends budget registers (done.add cycles).cycles) :
    0 < turns ∧ budget.toNat ≤ (done.add cycles).cycles + turns := by
  rw [Ends, not_or, Nat.not_le] at hgoes
  -- a budget can be counted, so the block was counted in full
  have hmax : budget.toNat ≤ Tally.maxCycles := Nat.le_sub_one_of_lt budget.toNat_lt
  have hadd := Tally.cycles_add_of_lt (Nat.lt_of_lt_of_le hgoes.2 hmax)
  omega

/-- What is counted of one block and of some others. -/
theorem count_cons {c : Call} (hc : c.hit.block.Timed) (done : Tally) (calls : List Call) :
    min ((done.add c.hit.block.cycles).cycles + pairsRun calls) Tally.maxCycles =
      min (done.cycles + pairsRun (c :: calls)) Tally.maxCycles := by
  have hcycles := hc.cycles_eq
  simp only [Tally.add, pairsRun]
  omega

/-- **Run.** A run ends where it has to, and nowhere before. What it has to is told by the registers
and the cycles behind each of its blocks. -/
theorem ends_callsFrom_iff (turns : Nat) {done t : Tally}
    (hrun : p.runBlocks budget turns pc done = .ok (t, p')) (hpos : 0 < turns)
    (hbudget : budget.toNat ≤ done.cycles + turns)
    (hblocks : ∀ c ∈ callsFrom budget turns p pc done, c.hit.block.Timed) :
    callsFrom budget turns p pc done ≠ [] ∧
      ∀ front, front <+: callsFrom budget turns p pc done → front ≠ [] →
        (Ends budget (runCalls p.registers front)
            (min (done.cycles + pairsRun front) Tally.maxCycles) ↔
          front = callsFrom budget turns p pc done) := by
  induction turns generalizing p pc done with
  | zero => exact absurd hpos (Nat.lt_irrefl 0)
  | succ turns ih =>
    obtain ⟨c, q, hregisters, hturn⟩ := exists_call hrun
    have hreached : ∀ rest, runCalls p.registers (c :: rest) = runCalls q.registers rest := by
      intro rest
      rw [runCalls, List.foldl_cons, ← hregisters, runCalls]
    have hcounted : min ((done.add c.hit.block.cycles).cycles + pairsRun []) Tally.maxCycles =
        (done.add c.hit.block.cycles).cycles := Nat.min_eq_left (Nat.min_le_right _ _)
    rcases hturn with ⟨hends, hlast⟩ | ⟨hgoes, hlater⟩
    · -- the run ends here, so its only front is all of it
      obtain ⟨-, hcalls⟩ := hlast turns
      rw [hcalls] at hblocks ⊢
      have hc := hblocks c (List.mem_singleton_self c)
      refine ⟨List.cons_ne_nil _ _, fun front hfront hne => ?_⟩
      obtain ⟨c', rest, rfl⟩ := List.exists_cons_of_ne_nil hne
      obtain ⟨rfl, hprefix⟩ := List.cons_prefix_cons.mp hfront
      obtain rfl := List.prefix_nil.mp hprefix
      rw [hreached, ← count_cons hc, hcounted]
      exact iff_of_true hends rfl
    · -- it goes on, and ends where the rest of it ends
      obtain ⟨hsame, hcalls⟩ := hlater turns
      rw [hcalls] at hblocks ⊢
      obtain ⟨hc, hrest⟩ := List.forall_mem_cons.mp hblocks
      obtain ⟨hpos', hbudget'⟩ :=
        turns_of_goes hbudget (hc.cycles_eq.symm ▸ hc.pairCount_pos) hgoes
      obtain ⟨hne', hiff⟩ := ih (hsame ▸ hrun) hpos' hbudget' hrest
      refine ⟨List.cons_ne_nil _ _, fun front hfront hne => ?_⟩
      obtain ⟨c', rest, rfl⟩ := List.exists_cons_of_ne_nil hne
      obtain ⟨rfl, hprefix⟩ := List.cons_prefix_cons.mp hfront
      rw [hreached, ← count_cons hc, List.cons.injEq, eq_self, true_and]
      by_cases hnil : rest = []
      · rw [hnil, hcounted]
        exact iff_of_false hgoes hne'.symm
      · exact hiff rest hprefix hnil

/-- Cycles are the pairs of all blocks, as far as they are counted. -/
theorem cycles_runBlocks (turns : Nat) {done t : Tally}
    (hrun : p.runBlocks budget turns pc done = .ok (t, p')) (hdone : done.cycles ≤ Tally.maxCycles)
    (hblocks : ∀ c ∈ callsFrom budget turns p pc done, c.hit.block.Timed) :
    t.cycles = min (done.cycles + pairsRun (callsFrom budget turns p pc done)) Tally.maxCycles := by
  induction turns generalizing p pc done with
  | zero =>
    obtain ⟨rfl, -⟩ := Prod.mk.inj (Except.ok.inj hrun)
    exact (Nat.min_eq_left hdone).symm
  | succ turns ih =>
    obtain ⟨c, q, -, ⟨-, hlast⟩ | ⟨-, hlater⟩⟩ := exists_call hrun
    · obtain ⟨hdone', hcalls⟩ := hlast turns
      obtain ⟨rfl, -⟩ := Prod.mk.inj (Except.ok.inj (hdone'.symm.trans hrun))
      rw [hcalls] at hblocks ⊢
      rw [← count_cons (hblocks c (List.mem_singleton_self c))]
      exact (Nat.min_eq_left (Nat.min_le_right _ _)).symm
    · obtain ⟨hsame, hcalls⟩ := hlater turns
      rw [hcalls] at hblocks ⊢
      obtain ⟨hc, hrest⟩ := List.forall_mem_cons.mp hblocks
      rw [← count_cons hc]
      exact ih (hsame ▸ hrun) (Nat.min_le_right _ _) hrest

/-- With more turns than what is left of its budget a run comes to the same. -/
theorem runBlocks_of_le (turns : Nat) {more : Nat} {done t : Tally}
    (hrun : p.runBlocks budget turns pc done = .ok (t, p')) (hpos : 0 < turns)
    (hbudget : budget.toNat ≤ done.cycles + turns) (hle : turns ≤ more)
    (hblocks : ∀ c ∈ callsFrom budget turns p pc done, c.hit.block.Timed) :
    p.runBlocks budget more pc done = .ok (t, p') := by
  induction turns generalizing p pc done more with
  | zero => exact absurd hpos (Nat.lt_irrefl 0)
  | succ turns ih =>
    obtain ⟨more, rfl⟩ := Nat.exists_eq_add_of_le' (Nat.le_trans hpos hle)
    obtain ⟨c, q, -, ⟨-, hlast⟩ | ⟨hgoes, hlater⟩⟩ := exists_call hrun
    · rw [(hlast more).1, ← (hlast turns).1, hrun]
    · obtain ⟨hsame, hcalls⟩ := hlater turns
      rw [hcalls] at hblocks
      obtain ⟨hc, hrest⟩ := List.forall_mem_cons.mp hblocks
      obtain ⟨hpos', hbudget'⟩ :=
        turns_of_goes hbudget (hc.cycles_eq.symm ▸ hc.pairCount_pos) hgoes
      rw [(hlater more).1]
      exact ih (hsame ▸ hrun) hpos' hbudget' (Nat.le_of_succ_le_succ hle) hrest

/-! ### Runs -/

/-- The blocks that a run of a unit enters were compiled from memories of the unit's size. -/
theorem Stocked.fits_calls (hp : p.Stocked) (start budget : UInt32) :
    ∀ c ∈ p.calls start budget,
      c.hit.block.Fits p.config.kind.memorySize p.config.maxBlockLength := by
  intro c hc
  obtain ⟨hsteps, hb⟩ : Steps anyProgram p c.unit ∧ _ := hp.stored_calls start budget c hc
  have hfits := (hp.steps hsteps).blocks c.hit.block hb
  rwa [config_steps hsteps] at hfits

/-- A run that comes to a tally and a unit keeps to its budget: it ends on account of a status bit
or of the cycles that it has counted, and at the first block behind which it may. What it comes to
is read off the blocks that it enters (`Processor.calls`), one cycle for each of their pairs. -/
structure Paced (p : Processor) (start budget : UInt32) (t : Tally) (q : Processor) : Prop where
  /-- Turns do not end the run: with more of them it comes to the same. -/
  run_eq : ∀ turns, max 1 budget.toNat ≤ turns →
    (p.beginRun (p.startPc start)).runBlocks budget turns (p.startPc start) .zero = .ok (t, q)
  blocks_eq : t.blocks = (p.calls start budget).length
  /-- Even a run without a budget enters a block. -/
  blocks_pos : 1 ≤ t.blocks
  blocks_le : t.blocks ≤ max 1 budget.toNat
  /-- The number of blocks fits the counter that programs keep it in. -/
  blocks_lt : t.blocks < UInt32.size
  /-- Cycles are the pairs of all blocks, as far as they are counted. -/
  cycles_eq : t.cycles = min (pairsRun (p.calls start budget)) Tally.maxCycles
  registers_eq : q.registers =
    runCalls (p.beginRun (p.startPc start)).registers (p.calls start budget)
  /-- The run ends behind the first block behind which it has to. -/
  ends_iff : ∀ front, front <+: p.calls start budget → front ≠ [] →
    (Ends budget (runCalls (p.beginRun (p.startPc start)).registers front)
        (min (pairsRun front) Tally.maxCycles) ↔
      front = p.calls start budget)
  /-- Only the last block can lie beyond the budget. -/
  cycles_le : 0 < budget.toNat → t.cycles ≤ min Tally.maxCycles
    (budget.toNat - 1 + (min (max p.config.maxBlockLength 1) (p.microcode.size / Pair.size) + 1))

/-- A run that ends where it has to stays within its budget, but for its last block. -/
theorem exists_last {registers : Registers} {calls : List Call} (hne : calls ≠ [])
    (hends : ∀ front, front <+: calls → front ≠ [] →
      (Ends budget (runCalls registers front) (min (pairsRun front) Tally.maxCycles) ↔
        front = calls)) :
    ∃ init last, calls = init ++ [last] ∧ pairsRun init < max 1 budget.toNat := by
  refine ⟨calls.dropLast, calls.getLast hne, (List.dropLast_append_getLast hne).symm, ?_⟩
  by_cases hinit : calls.dropLast = []
  · rw [hinit]
    exact Nat.lt_of_lt_of_le Nat.zero_lt_one (Nat.le_max_left _ _)
  · have hgoes := (hends _ (List.dropLast_prefix calls) hinit).not.mpr fun h => by
      have hlength := congrArg List.length h
      have hpos := List.length_pos_iff.mpr hne
      rw [List.length_dropLast] at hlength
      omega
    have hmax : budget.toNat ≤ Tally.maxCycles := Nat.le_sub_one_of_lt budget.toNat_lt
    rw [Ends, not_or, Nat.not_le] at hgoes
    omega

/-- **Run.** A run from an offset ends behind the first block behind which it has to, and enters at
least that one. -/
theorem InUse.ends_calls_iff (hp : p.InUse) {start : UInt32} {t : Tally}
    (hrun : p.execute start budget = .ok (t, q)) : p.calls start budget ≠ [] ∧
      ∀ front, front <+: p.calls start budget → front ≠ [] →
        (Ends budget (runCalls (p.beginRun (p.startPc start)).registers front)
            (min (pairsRun front) Tally.maxCycles) ↔ front = p.calls start budget) := by
  have hblocks : ∀ c ∈ p.calls start budget, c.hit.block.Timed := fun c hc =>
    (hp.stocked.fits_calls start budget c hc).timed p.config.kind.memorySize_le
  have hends := ends_callsFrom_iff _ hrun (by omega) (by omega) hblocks
  have hzero : Tally.zero.cycles = 0 := rfl
  simp only [hzero, Nat.zero_add] at hends
  exact hends

/-- **Run.** A run has no more blocks than its budget has cycles, and no more pairs but for those of
its last block. -/
theorem InUse.pairsRun_calls_le (hp : p.InUse) {start : UInt32} {t : Tally}
    (hrun : p.execute start budget = .ok (t, q)) :
    (p.calls start budget).length ≤ max 1 budget.toNat ∧
      pairsRun (p.calls start budget) ≤ max 1 budget.toNat - 1 +
        (min (max p.config.maxBlockLength 1) (p.microcode.size / Pair.size) + 1) := by
  have hfits := hp.stocked.fits_calls start budget
  obtain ⟨hne, hends⟩ := hp.ends_calls_iff hrun
  obtain ⟨init, last, hcalls, hinit⟩ := exists_last hne hends
  rw [hcalls] at hfits ⊢
  have hlength : init.length ≤ pairsRun init := length_le_pairsRun fun c hc =>
    (hfits c (List.mem_append_left _ hc)).timed p.config.kind.memorySize_le
  have hlast := (hfits last (List.mem_append_right _ (List.mem_singleton_self _))).pairCount_le
  rw [hp.stocked.size_eq, List.length_append, List.length_singleton, pairsRun_append]
  refine ⟨by omega, Nat.add_le_add (Nat.le_sub_one_of_lt hinit) ?_⟩
  simpa only [pairsRun, Nat.add_zero] using hlast

/-- **Pacing.** Whatever was done to a unit whose arena may be written, each of its runs has a
result unless the code of a block has no room. It runs at least one block, and no more blocks than
its budget has cycles. It ends behind the first block behind which a status bit stops it or its
budget is counted, and counts one cycle for each pair that it has run. -/
theorem paced_of_uses {host : Host} {config : Config} (hcreate : create host config = .ok p)
    (h : Uses anyProgram p p') (start budget : UInt32) (hunlocked : p'.isUnlocked = true)
    (hroom : ∀ offset, p'.execute start budget ≠ .error (.exhausted offset)) :
    ∃ t q, p'.execute start budget = .ok (t, q) ∧ p'.Paced start budget t q := by
  have hp' : p'.InUse := (inUse_create hcreate).uses h
  obtain ⟨⟨t, q⟩, hrun, -⟩ := (hp'.yields_execute start budget).exists_ok hunlocked hroom
  have hblocks : ∀ c ∈ p'.calls start budget, c.hit.block.Timed := fun c hc =>
    (hp'.stocked.fits_calls start budget c hc).timed p'.config.kind.memorySize_le
  have hturns : ∀ turns, max 1 budget.toNat ≤ turns →
      (p'.beginRun (p'.startPc start)).runBlocks budget turns (p'.startPc start) .zero =
        .ok (t, q) := fun turns hle =>
    runBlocks_of_le _ hrun (by omega) (by omega) hle hblocks
  have hcycles : t.cycles =
      min (Tally.zero.cycles + pairsRun (p'.calls start budget)) Tally.maxCycles :=
    cycles_runBlocks _ hrun (Nat.zero_le _) hblocks
  rw [show Tally.zero.cycles = 0 from rfl, Nat.zero_add] at hcycles
  have hlength : t.blocks = (p'.calls start budget).length := by
    rw [← length_trail hrun, ← map_calls, List.length_map]
  obtain ⟨hne, hends⟩ := hp'.ends_calls_iff hrun
  obtain ⟨hle, hpairs⟩ := hp'.pairsRun_calls_le hrun
  have hlt : max 1 budget.toNat < UInt32.size := max_lt (by decide) budget.toNat_lt
  refine ⟨t, q, hrun, hturns, hlength, ?_, hlength ▸ hle, hlength ▸ Nat.lt_of_le_of_lt hle hlt,
    hcycles, registers_runBlocks _ hrun, hends, fun hpositive => ?_⟩
  · rw [hlength]
    exact List.length_pos_iff.mpr hne
  · rw [Nat.max_eq_right hpositive] at hpairs
    rw [hcycles]
    omega

/-- The pair that goes back to itself forever, and then what is in its delay slot. -/
def idleLoop : List UInt8 :=
  Pair.image [.ofLower (Statement.word (.b (-1)))] 16

/-- An endless loop of two pairs is left behind the block that counts the last of its budget. -/
theorem paced_of_idleLoop : ∃ p p' t q, create .compact .standard = .ok p ∧
    p.perform (.write 0 idleLoop) = .ok (.done, p') ∧ p'.execute 0 5 = .ok (t, q) ∧
    t = ⟨6, 3⟩ ∧ p'.Paced 0 5 t q := by
  obtain ⟨p, p', hnew, hwrite, hunlocked, hok⟩ : ∃ p p', create .compact .standard = .ok p ∧
      p.perform (.write 0 idleLoop) = .ok (.done, p') ∧ p'.isUnlocked = true ∧
      ((p'.execute 0 5).toOption.any fun r => r.1 = ⟨6, 3⟩) = true :=
    ⟨_, _, rfl, rfl, rfl, by decide +kernel⟩
  obtain ⟨⟨t, q⟩, hrun, htally⟩ := exists_ok_of_any hok
  obtain ⟨t', q', hrun', hpaced⟩ := paced_of_uses hnew (.single (.perform hwrite)) 0 5 hunlocked
    fun offset hfault => by cases hrun.symm.trans hfault
  obtain ⟨rfl, rfl⟩ := Prod.mk.inj (Except.ok.inj (hrun.symm.trans hrun'))
  exact ⟨p, p', t, q, hnew, hwrite, hrun, of_decide_eq_true htally, hpaced⟩

end Processor

end VectorUnit
