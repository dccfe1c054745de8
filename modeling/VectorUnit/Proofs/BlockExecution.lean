import VectorUnit.Instruction.Assembly
import VectorUnit.Proofs.Scanning
import VectorUnit.Proofs.Translation
import VectorUnit.Recompiler

/-!
# Blocks found in memory

A block that is compiled from the sequence at the offset of a pair does what interpreting the
sequence does, takes one cycle for each pair (`run_block_eq_interpret`), and leaves to the offset of
a pair in the same memory (`Sequence.hasPair_interpret`). The last of these keeps a run inside its
microcode: an offset that a branch computes is masked, and any other exit is the offset behind the
last pair, around the end of memory.
-/

namespace VectorUnit

/-! ### Exits -/

namespace Interpreter

/-- A waiting target was masked to the pairs of a memory. Branches to registers and to places
outside of memory are masked alike, so every block leaves to the offset of a pair. -/
def IsMasked (memLength : Nat) (target : Option UInt32) : Prop :=
  ∀ v, target = some v → ∃ offset : UInt32, v = offset &&& Code.Draft.targetMask memLength

theorem isMasked_branch (s : State) (memLength offset : Nat) (p : Pair) :
    IsMasked memLength (branch s memLength offset p).target := by
  intro v hv
  simp only [branch] at hv
  split at hv
  · obtain rfl := Option.some.inj hv
    rw [target]
    split
    · exact ⟨_, rfl⟩
    · exact ⟨_, rfl⟩
    · exact ⟨_, rfl⟩
  · cases hv

theorem isMasked_step {memLength : Nat} {s : State} (h : IsMasked memLength s.target)
    (inSlot : Bool) (e : Sequence.Entry) :
    IsMasked memLength (step memLength inSlot s e).target := by
  simp only [step]
  split
  · split
    · exact h
    · exact isMasked_branch s memLength e.offset e.pair
  · exact h

theorem isMasked_steps {memLength : Nat} {s : State} (h : IsMasked memLength s.target)
    (inSlot : Bool) (es : List Sequence.Entry) :
    IsMasked memLength (steps memLength inSlot s es).target := by
  induction es generalizing inSlot s with
  | nil => exact h
  | cons e rest ih => exact ih (isMasked_step h inSlot e) _

end Interpreter

namespace Sequence

variable {m : Memory} {offset maxLength : Nat} {s : Sequence}

/-- The offset behind a sequence is the offset of a pair. -/
theorem hasPair_behind (h : m.HasPair offset) (hs : ofMemory? m offset maxLength = some s) :
    m.HasPair s.behind := by
  obtain ⟨hlength, hscans⟩ := (ofMemory?_eq_some_iff h).mp hs
  have hlast := (hscans.entry_eq h (List.getLast_mem s.entries_ne_nil)).1
  rw [behind, hlength]
  exact hlast.behind

/-- **Exit.** A sequence found in memory leaves to the offset of a pair of that memory: targets are
masked, and going on around the end of memory stays at offsets of pairs. -/
theorem hasPair_interpret (h : m.HasPair offset) (hs : ofMemory? m offset maxLength = some s)
    (hsize : m.size ≤ 512 * 1024) (regs : Registers) : m.HasPair (s.interpret regs).pc.toNat := by
  obtain ⟨hlength, hscans⟩ := (ofMemory?_eq_some_iff h).mp hs
  have hnone : Interpreter.IsMasked s.memLength none := fun v hv => by cases hv
  have hmasked := Interpreter.isMasked_steps (s := ⟨regs, none⟩) hnone false s.entries
  rw [interpret]
  cases htarget : (Interpreter.steps s.memLength false ⟨regs, none⟩ s.entries).target with
  | none =>
    -- nothing waits, so the exit is the offset behind the last pair
    have hbehind := hasPair_behind h hs
    have hinside := hbehind.inside
    rw [Option.getD_none, UInt32.toNat_ofNat', Nat.mod_eq_of_lt (by omega)]
    exact hbehind
  | some v =>
    obtain ⟨x, rfl⟩ := hmasked v htarget
    rw [Option.getD_some, hlength]
    exact ⟨h.whole, Code.Draft.dvd_and_targetMask x m.size,
      Code.Draft.and_targetMask_lt x (Nat.zero_lt_of_lt h.inside)⟩

/-! ### Lengths -/

/-- A scan takes no more pairs than there are up to the end of memory, and a delay slot. -/
theorem Scans.length_le {room : Nat} {es : List Entry} {t : Ending}
    (hscans : Scans m offset room es t) (h : m.HasPair offset) :
    offset + Pair.size * es.length ≤ m.size + Pair.size := by
  induction hscans with
  | @closes offset room t hc =>
    have hend := h.end_le
    have hslot : (slotEntries m offset t).length ≤ 1 := by
      rw [slotEntries]
      split <;> simp
    rw [List.length_cons, Nat.mul_succ]
    have hmul := Nat.mul_le_mul_left Pair.size hslot
    omega
  | full hc =>
    have hend := h.end_le
    simp only [List.length_singleton, Nat.mul_one]
    omega
  | passes hc rest ih =>
    have hrest := ih (h.next (lt_of_passes hc))
    rw [List.length_cons, Nat.mul_succ]
    omega

theorem length_lt (h : m.HasPair offset) (hs : ofMemory? m offset maxLength = some s)
    (hsize : m.size ≤ 512 * 1024) : s.length < UInt32.size := by
  have hle := ((ofMemory?_eq_some_iff h).mp hs).2.length_le h
  rw [length, UInt32.size, Pair.size] at *
  omega

/-- At the offset of every pair there is a sequence, and its code does what interpreting it does, in
one cycle for each pair. -/
theorem exists_toCode (h : m.HasPair offset) (hsize : m.size ≤ 512 * 1024) (maxLength : Nat) :
    ∃ s, ofMemory? m offset maxLength = some s ∧ s.toCode.cycles.toNat = s.length ∧
      ∀ regs, s.toCode.run regs = s.interpret regs := by
  obtain ⟨s, hs, hlength, -⟩ := exists_scans h maxLength
  have hlt := length_lt h hs hsize
  refine ⟨s, hs, ?_, s.run_toCode (hlength ▸ hsize)⟩
  exact (UInt32.toNat_ofNat').trans (Nat.mod_eq_of_lt hlt)

end Sequence

/-! ### Compiled blocks -/

/-- A block is what a sequence is compiled to, wherever its code was placed. Everything that a run
can see of a block follows from the sequence. -/
structure Block.Renders (b : Block) (s : Sequence) : Prop where
  start_eq : b.start = s.start
  ranges_eq : b.ranges = s.ranges
  pairCount_eq : b.pairCount = s.length
  ending_eq : b.ending = s.ending
  code_eq : b.code = s.toCode

namespace Recompiler

variable {host : Host} {r r' : Recompiler} {s : Sequence} {b : Block}

/-- What a compiled block is, and what compiling it does. -/
theorem compileAny_eq_ok (h : r.compileAny host s = .ok (b, r')) :
    ∃ arena, r.arena.place alignment (host.encode s.toCode) = .ok (b.span, arena) ∧
      b = ⟨s.start, s.ranges, s.length, s.ending, s.toCode, b.span⟩ ∧
      r' = { r with arena := arena, compiled := r.compiled + 1 } := by
  rw [compileAny] at h
  split at h
  · cases h
  · case h_2 span arena hplace =>
    obtain ⟨rfl, rfl⟩ := Prod.mk.inj (Except.ok.inj h)
    exact ⟨arena, hplace, rfl, rfl⟩

/-- A compiled block renders its sequence. -/
theorem renders_of_compileAny (h : r.compileAny host s = .ok (b, r')) : b.Renders s := by
  obtain ⟨arena, -, hb, -⟩ := compileAny_eq_ok h
  rw [hb]
  exact ⟨rfl, rfl, rfl, rfl, rfl⟩

/-- Compiling whatever pairs there are fails only for want of room. -/
theorem compileAny_eq_error {e : CompileError} (h : r.compileAny host s = .error e) :
    e = .exhausted := by
  rw [compileAny] at h
  split at h
  · exact (Except.error.inj h).symm
  · cases h

/-- A sequence is refused at first: no operation names one of its pairs, and that matters. -/
def refuses (r : Recompiler) (s : Sequence) : Bool :=
  s.unknownPair?.isSome && !r.ignoresUnknown

/-- What a recompiler refuses, and nothing else, is reported as unknown. -/
theorem compile_eq (host : Host) (r : Recompiler) (s : Sequence) :
    (r.refuses s = true ∧ ∃ pair, r.compile host s = .error (.unimplemented pair)) ∨
      (r.refuses s = false ∧ r.compile host s = r.compileAny host s) := by
  rw [compile, refuses]
  cases hunknown : s.unknownPair? with
  | none => exact .inr ⟨rfl, rfl⟩
  | some pair =>
    cases hignores : r.ignoresUnknown with
    | true => exact .inr ⟨rfl, rfl⟩
    | false => exact .inl ⟨rfl, pair, rfl⟩

end Recompiler

/-- **Block translation is correct.** From the offset of every pair of a memory of at most 512 KiB,
with any limit on the length, there is a sequence, and a block compiled from it does what executing
its pairs one after another does, in one cycle for each pair. The block is compiled unless its code
finds no room. -/
theorem run_block_eq_interpret (image : Memory) (hwhole : Pair.size ∣ image.size)
    (hsize : image.size ≤ 512 * 1024) (start maxLength : Nat) (haligned : Pair.size ∣ start)
    (hstart : start < image.size) (regs : Registers) :
    ∃ s, Sequence.ofMemory? image start maxLength = some s ∧
      s.toCode.run regs = s.interpret regs ∧ s.toCode.cycles.toNat = s.length ∧
      ∀ (host : Host) (r : Recompiler), r.compileAny host s = .error .exhausted ∨
        ∃ b r', r.compileAny host s = .ok (b, r') ∧
          b.run regs = s.interpret regs ∧ b.cycles.toNat = s.length := by
  have h : image.HasPair start := ⟨hwhole, haligned, hstart⟩
  obtain ⟨s, hs, hcycles, hrun⟩ := Sequence.exists_toCode h hsize maxLength
  refine ⟨s, hs, hrun regs, hcycles, fun host r => ?_⟩
  cases hcompile : r.compileAny host s with
  | error e => exact .inl (by rw [Recompiler.compileAny_eq_error hcompile])
  | ok result =>
    obtain ⟨b, r'⟩ := result
    obtain ⟨arena, -, hb, -⟩ := Recompiler.compileAny_eq_ok hcompile
    have hcode : b.code = s.toCode := by rw [hb]
    refine .inr ⟨b, r', rfl, ?_, ?_⟩
    · rw [Block.run, hcode, hrun]
    · rw [Block.cycles, hcode, hcycles]

/-- A jump through the register that it links, as the last pair of memory, with its delay slot
around the end. -/
theorem run_block_eq_interpret_of_jalr :
    ∃ s, Sequence.ofMemory? (.ofList (Pair.image
        [.ofLower (Statement.word (.iaddi 1 1 1)), .ofLower (Statement.word (.jalr 1 1))] 16)) 8 0
          = some s ∧
      s.toCode.run .initial = s.interpret .initial ∧ s.toCode.cycles.toNat = s.length ∧
      ∀ (host : Host) (r : Recompiler), r.compileAny host s = .error .exhausted ∨
        ∃ b r', r.compileAny host s = .ok (b, r') ∧
          b.run .initial = s.interpret .initial ∧ b.cycles.toNat = s.length :=
  run_block_eq_interpret _ (by decide) (by decide) 8 0 (by decide) (by decide) .initial

end VectorUnit
