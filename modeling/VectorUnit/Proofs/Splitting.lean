import VectorUnit.Proofs.Transparency

/-!
# The length of blocks makes no difference

Two units that differ in the greatest length of their blocks cut a program into different blocks.
Both runs are compared with a machine that takes blocks of least length, one pair with its delay
slot at a time (`Memory.Advances`). A block of any length is a number of its steps, none of which
stops before the end (`Memory.advances_interpret`): the scan passes pairs only that neither branch
nor raise a status bit nor open a delay slot. Steps are determined by the registers, so a run that
stops has taken the same ones whatever the blocks are (`Memory.Advances.continue`), and a run of a
unit follows them to their end (`Uncached.runBlocks_of_advances`). The turns that a run is given are
enough for it in any case (`Uncached.runBlocks_eq_of_le`).
-/

namespace VectorUnit

/-! ### What pairs do not look at -/

namespace Interpreter

/-- The registers with another offset at which execution continues. -/
def withPc (regs : Registers) (pc : UInt32) : Registers :=
  { regs with pc := pc }

theorem value_withPc (regs : Registers) (pc : UInt32) (field : Nat) :
    value (withPc regs pc) field = value regs field := rfl

theorem assign_withPc (regs : Registers) (pc : UInt32) (field : Nat) (v : UInt16) :
    assign (withPc regs pc) field v = withPc (assign regs field v) pc := by
  simp only [assign, Registers.write]
  split
  · rfl
  · rfl

theorem takes_withPc (regs : Registers) (pc : UInt32) (p : Pair) :
    takes (withPc regs pc) p = takes regs p := rfl

theorem target_withPc (regs : Registers) (pc : UInt32) (memLength offset : Nat) (p : Pair) :
    target (withPc regs pc) memLength offset p = target regs memLength offset p := rfl

theorem link_withPc (regs : Registers) (pc : UInt32) (offset : Nat) (p : Pair) :
    link (withPc regs pc) offset p = withPc (link regs offset p) pc := by
  simp only [link]
  split
  · exact assign_withPc _ _ _ _
  · exact assign_withPc _ _ _ _
  · rfl

theorem arithmetic_withPc (regs : Registers) (pc : UInt32) (p : Pair) :
    arithmetic (withPc regs pc) p = withPc (arithmetic regs p) pc := by
  simp only [arithmetic, value_withPc]
  split
  all_goals first
    | exact assign_withPc _ _ _ _
    | rfl

/-- No pair looks at the offset at which execution would continue. -/
theorem step_withPc (memLength : Nat) (inSlot : Bool) (regs : Registers) (pc : UInt32)
    (target : Option UInt32) (e : Sequence.Entry) :
    step memLength inSlot ⟨withPc regs pc, target⟩ e =
      ⟨withPc (step memLength inSlot ⟨regs, target⟩ e).registers pc,
        (step memLength inSlot ⟨regs, target⟩ e).target⟩ := by
  simp only [step, branch, takes_withPc, target_withPc, link_withPc, arithmetic_withPc]
  split
  · split
    · rfl
    · rfl
  · rfl

theorem steps_withPc (memLength : Nat) (inSlot : Bool) (s : State) (pc : UInt32)
    (es : List Sequence.Entry) :
    steps memLength inSlot ⟨withPc s.registers pc, s.target⟩ es =
      ⟨withPc (steps memLength inSlot s es).registers pc,
        (steps memLength inSlot s es).target⟩ := by
  induction es generalizing inSlot s with
  | nil => rfl
  | cons e rest ih =>
    rw [steps, steps, step_withPc]
    exact ih _ _

theorem exists_assign (regs : Registers) (field : Nat) (v : UInt16) :
    ∃ vi, assign regs field v = { regs with vi := vi } := by
  rw [assign, Registers.write]
  split
  · exact ⟨regs.vi, rfl⟩
  · exact ⟨_, rfl⟩

/-- Only a kick does more to the registers than to write to one of them. -/
theorem exists_arithmetic {p : Pair} (h : p.opcode ≠ .xgkick) (regs : Registers) :
    ∃ vi, arithmetic regs p = { regs with vi := vi } := by
  rw [arithmetic]
  split
  all_goals first
    | exact exists_assign _ _ _
    | exact absurd ‹_› h
    | exact ⟨regs.vi, rfl⟩

theorem status_arithmetic {p : Pair} (h : p.opcode ≠ .xgkick) (regs : Registers) :
    (arithmetic regs p).status = regs.status := by
  obtain ⟨vi, hvi⟩ := exists_arithmetic h regs
  rw [hvi]

end Interpreter

/-- What is computed does not depend on the offset at which execution would continue. -/
theorem Sequence.interpret_withPc (s : Sequence) (regs : Registers) (pc : UInt32) :
    s.interpret (Interpreter.withPc regs pc) = s.interpret regs := by
  have hsteps := Interpreter.steps_withPc s.memLength false ⟨regs, none⟩ pc s.entries
  simp only [interpret, hsteps]
  split
  · rfl
  · rfl

/-! ### Pairs that a scan passes -/

namespace Sequence

/-- What a pair is that does not close a sequence. It goes on to the pair behind it and sets no
flag, so a block may as well be cut there. -/
structure Passes (p : Pair) : Prop where
  isBranch_eq : p.isBranch = false
  hasDelaySlot_eq : p.hasDelaySlot = false
  flagStatus_eq : Interpreter.flagStatus p = 0
  opcode_ne : p.opcode ≠ .xgkick

theorem passes_of_closing {p : Pair} (h : closing p = none) : Passes p := by
  rw [closing] at h
  split at h
  · cases h
  · case isFalse he =>
    split at h
    · cases h
    · case isFalse hb =>
      split at h
      · cases h
      · case isFalse hs =>
        simp only [Bool.or_eq_true, not_or, Bool.not_eq_true] at he hb hs
        obtain ⟨⟨hop, hd⟩, ht⟩ := hs
        refine ⟨hb, ?_, ?_, fun hkick => ?_⟩
        · rw [Pair.hasDelaySlot, he, hb, Bool.or_false]
        · rw [Interpreter.flagStatus, hd, ht]
          rfl
        · rw [hkick] at hop
          cases hop

/-- A pair that a scan passes does not stop a run, and nothing waits behind it. -/
theorem Passes.step {p : Pair} (h : Passes p) (memLength offset : Nat) (regs : Registers) :
    ∃ regs', Interpreter.step memLength false ⟨regs, none⟩ ⟨offset, p⟩ = ⟨regs', none⟩ ∧
      regs'.status = regs.status := by
  have hbranch : (⟨offset, p⟩ : Entry).pair.isBranch = false := h.isBranch_eq
  rw [Interpreter.step, hbranch, if_neg Bool.false_ne_true]
  refine ⟨_, rfl, ?_⟩
  rw [Registers.raise, h.flagStatus_eq, UInt32.or_zero, Interpreter.status_arithmetic h.opcode_ne]

/-- The sequence of a pair that the scan would pass if it had to take more than one. It ends there
because it has its full length, which is one. -/
def single (m : Memory) (offset : Nat) : Sequence :=
  ⟨[entryAt m offset], .fullLength, m.size, List.cons_ne_nil _ _⟩

/-- A pair that the scan passes leads to the next one and does not stop a run. -/
theorem interpret_single {m : Memory} {offset : Nat} (h : closesAt m offset = none)
    (regs : Registers) : ∃ regs',
      Interpreter.step m.size false ⟨regs, none⟩ (entryAt m offset) = ⟨regs', none⟩ ∧
      (single m offset).interpret regs =
        Interpreter.withPc regs' (UInt32.ofNat (offset + Pair.size)) ∧
      ((single m offset).interpret regs).isStopped = regs.isStopped := by
  obtain ⟨regs', hstep, hstatus⟩ :=
    (passes_of_closing (closing_of_passes h)).step m.size offset regs
  have hinterpret : (single m offset).interpret regs =
      Interpreter.withPc regs' (UInt32.ofNat (offset + Pair.size)) := by
    have hbehind : (single m offset).behind = offset + Pair.size :=
      Nat.mod_eq_of_lt (lt_of_passes h)
    have hfinal : Interpreter.steps (single m offset).memLength false ⟨regs, none⟩
        (single m offset).entries = ⟨regs', none⟩ := hstep
    simp only [interpret, hfinal, hbehind, Option.getD_none]
    rfl
  refine ⟨regs', hstep, hinterpret, ?_⟩
  rw [hinterpret]
  show (regs'.status &&& Status.stopping != 0) = (regs.status &&& Status.stopping != 0)
  rw [hstatus]

/-- Interpreting a sequence whose first pair the scan passed is interpreting that pair alone, and
then the rest. -/
theorem interpret_cons {m : Memory} {offset : Nat} {es : List Entry} (t : Ending)
    (h : closesAt m offset = none) (hne : es ≠ []) (regs : Registers) :
    interpret ⟨entryAt m offset :: es, t, m.size, List.cons_ne_nil _ _⟩ regs =
      interpret ⟨es, t, m.size, hne⟩ ((single m offset).interpret regs) := by
  obtain ⟨regs', hstep, hsingle, -⟩ := interpret_single h regs
  have hslot : (!false && (entryAt m offset).pair.hasDelaySlot) = false :=
    (passes_of_closing (closing_of_passes h)).hasDelaySlot_eq
  have hsteps : Interpreter.steps m.size false ⟨regs, none⟩ (entryAt m offset :: es) =
      Interpreter.steps m.size false ⟨regs', none⟩ es := by
    rw [Interpreter.steps, hslot, hstep]
  rw [hsingle, interpret_withPc]
  simp only [interpret, hsteps, behind, last, List.getLast_cons hne]
  rfl

end Sequence

/-! ### Blocks of least length -/

/-- Blocks of least length lead from some registers to others in a number of cycles. None of them
starts when the run is stopped. -/
inductive Memory.Advances (m : Memory) : Registers → (cycles : Nat) → Registers → Prop where
  | refl (regs : Registers) : Advances m regs 0 regs
  | block {regs regs' : Registers} {s : Sequence} {cycles : Nat} (hrunning : regs.isStopped = false)
      (hs : Sequence.ofMemory? m regs.pc.toNat 1 = some s)
      (rest : Advances m (s.interpret regs) cycles regs') :
      Advances m regs (s.length + cycles) regs'

namespace Memory

variable {m : Memory} {regs regs' : Registers} {c : Nat}

/-- Nothing advances when the run is stopped. -/
theorem Advances.eq_of_stopped (h : m.Advances regs c regs') (hstopped : regs.isStopped = true) :
    c = 0 ∧ regs' = regs := by
  cases h with
  | refl => exact ⟨rfl, rfl⟩
  | block hrunning => exact absurd hstopped (by rw [hrunning]; decide)

theorem Advances.pos (h : m.Advances regs c regs') (hrunning : regs.isStopped = false)
    (hstopped : regs'.isStopped = true) : 0 < c := by
  cases h with
  | refl => exact absurd hstopped (by rw [hrunning]; decide)
  | block _ hs => exact Nat.add_pos_left (Sequence.length_pos _) _

/-- **Determinism.** What stops has gone through all that is reached on the way, so two ways of
cutting code into blocks lead to the same end. -/
theorem Advances.continue {regs'' : Registers} {d : Nat} (h : m.Advances regs c regs')
    (hstopped : regs'.isStopped = true) (h' : m.Advances regs d regs'') :
    ∃ e, c = d + e ∧ m.Advances regs'' e regs' := by
  induction h' generalizing c with
  | refl => exact ⟨c, (Nat.zero_add c).symm, h⟩
  | block hrunning hs rest ih =>
    cases h with
    | refl => exact absurd hstopped (by rw [hrunning]; decide)
    | block hrunning' hs' rest' =>
      obtain rfl := Option.some.inj (hs'.symm.trans hs)
      obtain ⟨e, rfl, hrest⟩ := ih rest'
      exact ⟨e, (Nat.add_assoc _ _ _).symm, hrest⟩

theorem Advances.trans {regs'' : Registers} {d : Nat} (h : m.Advances regs c regs')
    (h' : m.Advances regs' d regs'') : m.Advances regs (c + d) regs'' := by
  induction h with
  | refl => rwa [Nat.zero_add]
  | block hrunning hs rest ih =>
    rw [Nat.add_assoc]
    exact .block hrunning hs (ih h')

open Sequence in
/-- **Splitting.** A block of any length is a number of blocks of least length: the pairs of the
block that close nothing may each be a block of their own. -/
theorem advances_interpret {offset maxLength : Nat} {s : Sequence} (h : m.HasPair offset)
    (hsize : m.size ≤ 512 * 1024) (hs : ofMemory? m offset maxLength = some s)
    (hpc : regs.pc.toNat = offset) (hrunning : regs.isStopped = false) :
    m.Advances regs s.length (s.interpret regs) := by
  obtain ⟨hlength, hscans⟩ := (ofMemory?_eq_some_iff h).mp hs
  obtain ⟨es, t, memLength, hne⟩ := s
  obtain rfl : memLength = m.size := hlength
  -- a scan of least length that closes here at once
  have hone : ∀ {offset es t} {regs : Registers} (hne : es ≠ []), m.HasPair offset →
      Scans m offset 0 es t → regs.pc.toNat = offset → regs.isStopped = false →
      m.Advances regs es.length (interpret ⟨es, t, m.size, hne⟩ regs) := by
    intro offset es t regs hne h hscans hpc hrunning
    have hs : ofMemory? m regs.pc.toNat 1 = some ⟨es, t, m.size, hne⟩ := by
      rw [hpc]
      exact (ofMemory?_eq_some_iff h).mpr ⟨rfl, hscans⟩
    exact .block hrunning hs (.refl _)
  clear hs
  dsimp only at hscans
  generalize maxLength - 1 = room at hscans
  induction hscans generalizing regs with
  | closes hc => exact hone hne h (.closes hc) hpc hrunning
  | full hc => exact hone hne h (.full hc) hpc hrunning
  | @passes offset room es t hc rest ih =>
    have hnext := h.next (lt_of_passes hc)
    have hinside := hnext.inside
    obtain ⟨regs', -, hsingle, hstopped⟩ := interpret_single hc regs
    have hpc' : ((single m offset).interpret regs).pc.toNat = offset + Pair.size := by
      rw [hsingle]
      exact (UInt32.toNat_ofNat').trans (Nat.mod_eq_of_lt (by omega))
    have hfirst := hone (single m offset).entries_ne_nil h (.full hc) hpc hrunning
    have hrest := ih hnext hpc' (hstopped.trans hrunning) rest.ne_nil
    rw [interpret_cons t hc rest.ne_nil]
    have htrans : m.Advances regs (1 + es.length) _ := hfirst.trans hrest
    rw [Nat.add_comm] at htrans
    exact htrans

end Memory

/-! ### Runs -/

/-- What stays below the greatest number that is counted is counted in full. -/
theorem Tally.cycles_add_of_lt {t : Tally} {cycles : UInt32}
    (h : (t.add cycles).cycles < maxCycles) :
    (t.add cycles).cycles = t.cycles + cycles.toNat := by
  simp only [add] at h ⊢
  omega

theorem Tally.cycles_add_of_add_lt {t : Tally} {cycles : UInt32}
    (h : t.cycles + cycles.toNat < maxCycles) :
    (t.add cycles).cycles = t.cycles + cycles.toNat :=
  Nat.min_eq_left (Nat.le_of_lt h)

namespace Uncached

variable {u : Uncached} {budget : UInt32}

/-- The code of live memory is the translation of a sequence, which interprets it in as many cycles
as it has pairs. -/
theorem exists_sequence {offset : Nat} (h : u.microcode.HasPair offset)
    (hsize : u.microcode.size ≤ 512 * 1024) : ∃ s,
      Sequence.ofMemory? u.microcode offset u.maxBlockLength = some s ∧
      u.code? offset = some s.toCode ∧ s.toCode.cycles.toNat = s.length ∧
      ∀ regs, s.toCode.run regs = s.interpret regs := by
  obtain ⟨s, hs, hcycles, hrun⟩ := Sequence.exists_toCode h hsize u.maxBlockLength
  have hcode : u.code? offset = some s.toCode := by rw [code?, hs, Option.map_some]
  exact ⟨s, hs, hcode, hcycles, hrun⟩

/-- **Turns.** Every block takes a cycle, so a run that has a turn for each cycle of its budget goes
to its end: with more turns it would come to the same. -/
theorem runBlocks_eq_of_le {turns more : Nat} {done : Tally}
    (hsize : u.microcode.size ≤ 512 * 1024) (h : u.microcode.HasPair u.registers.pc.toNat)
    (hpos : 0 < turns) (hbudget : budget.toNat ≤ done.cycles + turns) (hle : turns ≤ more) :
    u.runBlocks budget more u.registers.pc done =
      u.runBlocks budget turns u.registers.pc done := by
  induction turns generalizing u done more with
  | zero => exact absurd hpos (Nat.lt_irrefl 0)
  | succ turns ih =>
    obtain ⟨more, rfl⟩ := Nat.exists_eq_add_of_le' (Nat.le_trans hpos hle)
    obtain ⟨s, hs, hcode, hcycles, hinterpret⟩ := exists_sequence h hsize
    rw [runBlocks, runBlocks, hcode]
    dsimp only
    split
    · rfl
    · case isFalse hgo =>
      rw [Bool.or_eq_true, decide_eq_true_iff, not_or, Nat.not_le] at hgo
      -- a budget can be counted, so a block that leaves some of it was counted in full
      have hmax : budget.toNat ≤ Tally.maxCycles := Nat.le_sub_one_of_lt budget.toNat_lt
      have hadd := Tally.cycles_add_of_lt (Nat.lt_of_lt_of_le hgo.2 hmax)
      have hlength := s.length_pos
      have hnext := Sequence.hasPair_interpret h hs hsize u.registers
      rw [hinterpret]
      exact ih (u := u.withRegisters (s.interpret u.registers)) hsize hnext (by omega) (by omega)
        (Nat.le_of_succ_le_succ hle)

/-- A run that counts all its cycles advances by them. -/
theorem advances_of_runBlocks {turns : Nat} {done t : Tally} {u' : Uncached}
    (hsize : u.microcode.size ≤ 512 * 1024) (h : u.microcode.HasPair u.registers.pc.toNat)
    (hrunning : u.registers.isStopped = false)
    (hrun : u.runBlocks budget turns u.registers.pc done = some (t, u'))
    (hcount : t.cycles < Tally.maxCycles) :
    ∃ c, t.cycles = done.cycles + c ∧ u.microcode.Advances u.registers c u'.registers := by
  induction turns generalizing u done with
  | zero =>
    obtain ⟨rfl, rfl⟩ := Prod.mk.inj (Option.some.inj hrun)
    exact ⟨0, rfl, .refl _⟩
  | succ turns ih =>
    obtain ⟨s, hs, hcode, hcycles, hinterpret⟩ := exists_sequence h hsize
    have hblock := Memory.advances_interpret h hsize hs rfl hrunning
    rw [runBlocks, hcode] at hrun
    dsimp only at hrun
    rw [hinterpret] at hrun
    split at hrun
    · obtain ⟨rfl, rfl⟩ := Prod.mk.inj (Option.some.inj hrun)
      refine ⟨s.length, ?_, hblock⟩
      rw [Tally.cycles_add_of_lt hcount, hcycles]
    · case isFalse hgo =>
      rw [Bool.or_eq_true, not_or, Bool.not_eq_true] at hgo
      have hnext := Sequence.hasPair_interpret h hs hsize u.registers
      obtain ⟨c, hc, hrest⟩ :=
        ih (u := u.withRegisters (s.interpret u.registers)) hsize hnext hgo.1 hrun
      refine ⟨s.length + c, ?_, hblock.trans hrest⟩
      rw [hc, Tally.cycles_add_of_lt (by omega), hcycles, Nat.add_assoc]

/-- A run with enough turns and budget follows the blocks of least length until they stop. -/
theorem runBlocks_of_advances {turns c : Nat} {done : Tally} {regs : Registers}
    (hsize : u.microcode.size ≤ 512 * 1024) (h : u.microcode.HasPair u.registers.pc.toNat)
    (hrunning : u.registers.isStopped = false)
    (hadvances : u.microcode.Advances u.registers c regs) (hstopped : regs.isStopped = true)
    (hcount : done.cycles + c < Tally.maxCycles) (hbudget : done.cycles + c ≤ budget.toNat)
    (hturns : c ≤ turns) : ∃ t, t.cycles = done.cycles + c ∧
      u.runBlocks budget turns u.registers.pc done = some (t, u.withRegisters regs) := by
  induction turns generalizing u done c with
  | zero =>
    have hpos := hadvances.pos hrunning hstopped
    omega
  | succ turns ih =>
    obtain ⟨s, hs, hcode, hcycles, hinterpret⟩ := exists_sequence h hsize
    -- the first block is a front of the way to where the run stops
    have hblock := Memory.advances_interpret h hsize hs rfl hrunning
    obtain ⟨e, rfl, hrest⟩ := hadvances.continue hstopped hblock
    have hadd : (done.add s.toCode.cycles).cycles = done.cycles + s.length := by
      rw [Tally.cycles_add_of_add_lt (by omega), hcycles]
    rw [runBlocks, hcode]
    dsimp only
    rw [hinterpret]
    by_cases hstop : (s.interpret u.registers).isStopped = true
    · obtain ⟨rfl, rfl⟩ := hrest.eq_of_stopped hstop
      refine ⟨_, hadd, if_pos ?_⟩
      exact Bool.or_eq_true_iff.mpr (.inl hstop)
    · have hgo := Bool.eq_false_iff.mpr hstop
      have hpos := hrest.pos hgo hstopped
      have hlength := s.length_pos
      have hnext := Sequence.hasPair_interpret h hs hsize u.registers
      have hcount' : (done.add s.toCode.cycles).cycles + e < Tally.maxCycles := by omega
      obtain ⟨t, ht, hrun⟩ := ih (u := u.withRegisters (s.interpret u.registers)) hsize hnext hgo
        hrest hcount' (by omega) (by omega)
      refine ⟨t, by omega, ?_⟩
      rw [if_neg]
      · exact hrun
      · rw [Bool.or_eq_true, decide_eq_true_iff, hadd]
        rintro (h | h)
        · exact hstop h
        · omega

/-- **Runs that stop.** Units that differ in the length of their blocks stop alike: if one of them
stops within its budget, so does the other. Each is compared with blocks of least length. -/
theorem execute_eq_of_stopped {v u' : Uncached} {start : UInt32} {t : Tally}
    (hsize : u.microcode.size = u.kind.memorySize) (hkind : v.kind = u.kind)
    (hmicrocode : v.microcode = u.microcode) (hregisters : v.registers = u.registers)
    (hrun : u.execute start budget = some (t, u')) (hstopped : u'.registers.isStopped = true)
    (hcount : t.cycles < Tally.maxCycles) (hbudget : t.cycles ≤ budget.toNat) :
    ∃ t' v', v.execute start budget = some (t', v') ∧ t'.cycles = t.cycles ∧
      v'.registers = u'.registers := by
  have hle : u.microcode.size ≤ 512 * 1024 := hsize ▸ u.kind.memorySize_le
  have h := u.kind.hasPair_pairOffset hsize start
  rw [← u.kind.toNat_ofNat_pairOffset start] at h
  -- both runs start with these registers
  let regs : Registers :=
    { u.registers with pc := UInt32.ofNat (u.kind.pairOffset start), status := 0 }
  have hrunning : regs.isStopped = false := by
    simp only [Registers.isStopped, regs, UInt32.zero_and, bne_self_eq_false]
  obtain ⟨c, hc, hadvances⟩ :=
    advances_of_runBlocks (u := u.withRegisters regs) hle h hrunning hrun hcount
  obtain rfl : t.cycles = c := hc.trans (Nat.zero_add c)
  have hzero : Tally.zero.cycles + t.cycles = t.cycles := Nat.zero_add _
  have hv : (v.withRegisters regs).microcode = u.microcode := hmicrocode
  have hcount' : Tally.zero.cycles + t.cycles < Tally.maxCycles := by rwa [hzero]
  have hturns : t.cycles ≤ max 1 budget.toNat := by omega
  obtain ⟨t', ht', hrun'⟩ := runBlocks_of_advances (u := v.withRegisters regs) (hv ▸ hle) (hv ▸ h)
    hrunning (hv ▸ hadvances) hstopped hcount' (by rwa [hzero]) hturns
  refine ⟨t', v.withRegisters u'.registers, ?_, ht'.trans hzero, rfl⟩
  rw [execute, hkind, hregisters]
  exact hrun'

end Uncached

namespace Processor

/-- The units that operations lead to from a new one, none of which found no room for code. Two of
them may have been made with different bounds on the length of blocks. -/
inductive Reachable : Processor → Prop where
  | create {host : Host} {config : Config} {p : Processor} (h : create host config = .ok p) :
      Reachable p
  | perform {p p' : Processor} {op : Operation} {a : Answer} (hp : Reachable p)
      (h : p.perform op = .ok (a, p')) : Reachable p'

theorem Reachable.sound {p : Processor} (h : p.Reachable) : p.Sound := by
  induction h with
  | create h => exact (sound_create h).1
  | @perform p p' op a hp h ih =>
    have hspec := perform_spec ih op
    rw [h] at hspec
    exact hspec.1

/-- **Block splitting.** Two units of one kind, with the same microcode and registers but blocks of
whatever length, run alike: where a run of one of them stops within its budget, one of the other
stops as well, after the same number of cycles and with the same registers. All the other one needs
is that its arena may be written, and room there for the code of its blocks. -/
theorem execute_of_stopped {p q p' : Processor} (hp : p.Reachable) (hq : q.Reachable)
    (hkind : q.config.kind = p.config.kind) (hmicrocode : q.microcode = p.microcode)
    (hregisters : q.registers = p.registers) {start budget : UInt32} {t : Tally}
    (hrun : p.execute start budget = .ok (t, p')) (hstopped : p'.registers.isStopped = true)
    (hcount : t.cycles < Tally.maxCycles) (hbudget : t.cycles ≤ budget.toNat)
    (hunlocked : q.isUnlocked = true)
    (hroom : ∀ offset, q.execute start budget ≠ .error (.exhausted offset)) :
    ∃ t' q', q.execute start budget = .ok (t', q') ∧ t'.cycles = t.cycles ∧
      q'.registers = p'.registers := by
  obtain ⟨-, hseen, -⟩ : p'.Sound ∧
      p.uncached.execute start budget = some (t, p'.uncached) ∧ _ := by
    have hspec := execute_spec hp.sound start budget
    rwa [hrun] at hspec
  obtain ⟨t', v, hv, hcycles, hregs⟩ := Uncached.execute_eq_of_stopped (u := p.uncached)
    (v := q.uncached) hp.sound.size_eq hkind hmicrocode hregisters hseen hstopped hcount hbudget
  obtain ⟨⟨t'', q'⟩, hrun', -, hseen', -⟩ :=
    (execute_spec hq.sound start budget).exists_ok hunlocked hroom
  obtain ⟨rfl, rfl⟩ := Prod.mk.inj (Option.some.inj (hv.symm.trans hseen'))
  exact ⟨_, q', hrun', hcycles, hregs⟩

/-- The microcode of a program of two pairs and a delay slot. -/
def countingImage : List UInt8 :=
  Pair.image [.ofLower (Statement.word (.iaddi 1 1 1)),
    .withFlags (Pair.Flag.mask .e) (Statement.word (.iaddi 1 1 1))] 24

theorem execute_of_stopped_of_countingImage : ∃ p q t p' t' q',
    Reachable p ∧ Reachable q ∧ p.config.maxBlockLength = 1024 ∧ q.config.maxBlockLength = 0 ∧
      p.execute 0 8 = .ok (t, p') ∧ q.execute 0 8 = .ok (t', q') ∧ t'.cycles = t.cycles ∧
      q'.registers = p'.registers := by
  obtain ⟨p, q, hp, hq, hlong, hshort, hkind, hmicrocode, hregisters, hunlocked, hstops, hruns⟩ :
      ∃ p q, Reachable p ∧ Reachable q ∧ p.config.maxBlockLength = 1024 ∧
        q.config.maxBlockLength = 0 ∧ q.config.kind = p.config.kind ∧
        q.microcode = p.microcode ∧ q.registers = p.registers ∧ q.isUnlocked = true ∧
        (match p.execute 0 8 with
          | .ok (t, p') => p'.registers.isStopped && t.cycles ≤ 8
          | .error _ => false) = true ∧ (q.execute 0 8).toBool = true :=
    ⟨_, _, .perform (.create (show create .compact .standard = .ok _ from rfl))
        (show perform _ (.write 0 countingImage) = .ok (.done, _) from rfl),
      .perform (.create (show create .compact { Config.standard with
        maxBlockLength := 0 } = .ok _ from rfl))
        (show perform _ (.write 0 countingImage) = .ok (.done, _) from rfl),
      rfl, rfl, rfl, rfl, rfl, rfl, by decide +kernel, by decide +kernel⟩
  cases hrun : p.execute 0 8 with
  | error fault =>
    rw [hrun] at hstops
    cases hstops
  | ok result =>
    obtain ⟨t, p'⟩ := result
    rw [hrun, Bool.and_eq_true, decide_eq_true_iff] at hstops
    have hcount : t.cycles < Tally.maxCycles := Nat.lt_of_le_of_lt hstops.2 (by decide)
    obtain ⟨t', q', hrun', hcycles, hregs⟩ := execute_of_stopped hp hq hkind hmicrocode
      hregisters hrun hstops.1 hcount hstops.2 hunlocked fun offset hfault => by
        rw [hfault] at hruns
        cases hruns
    exact ⟨p, q, t, p', t', q', hp, hq, hlong, hshort, hrun, hrun', hcycles, hregs⟩

end Processor

end VectorUnit
