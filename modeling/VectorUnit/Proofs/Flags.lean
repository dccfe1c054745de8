import Mathlib.Data.List.Forall2
import VectorUnit.Proofs.Confinement
import VectorUnit.Proofs.Slicing

/-!
# Flagged pairs take effect

A pair raises its status bits wherever it is executed (`Pair.raised`, `Interpreter.exists_step`): in
a delay slot, and whatever its lower word stands for. Nothing else sets a status bit, but for the
one that says that the program ended, which a sequence sets that ends behind a pair with the E bit.
So the bits that are set behind some sequences tell which pairs were executed
(`Sequence.has_interpretAll`).

A sequence that reaches to a block boundary holds nothing behind a pair with the E bit but its delay
slot (`Sequence.Place.isFinal_of_eBit`), and a run goes no further than the block that sets a bit
which stops it. So every flagged pair of a run takes effect (`Sequence.TakeEffect`,
`Processor.takeEffect_of_uses`). There is one exception: the scan closes a sequence at the delay
slot of a branch without looking at the E bit of the pair there, and the program goes on
(`Processor.not_ended_of_lostEnd`).
-/

namespace VectorUnit

/-! ### Status bits -/

namespace Status

/-- Some of these bits are set. Both the bits that stop a run and each of the flags are asked for in
this way. -/
def Has (status bits : UInt32) : Prop :=
  status &&& bits ≠ 0

instance (status bits : UInt32) : Decidable (Has status bits) :=
  inferInstanceAs (Decidable (_ ≠ _))

/-- All bits that are ever set. -/
def all : UInt32 := ended ||| debugBreak ||| debugHalt ||| kick

@[simp] theorem not_has_zero (bits : UInt32) : ¬ Has 0 bits := by
  simp [Has]

@[simp] theorem has_or (a b bits : UInt32) : Has (a ||| b) bits ↔ Has a bits ∨ Has b bits := by
  rw [Has, or_and, ne_eq, UInt32.or_eq_zero_iff, not_and_or]
  exact Iff.rfl

/-- A bit that stops a run is one of three. -/
theorem has_stopping (status : UInt32) :
    Has status stopping ↔ Has status ended ∨ Has status debugBreak ∨ Has status debugHalt := by
  have hcomm : ∀ bits, Has status bits ↔ Has bits status := by
    intro bits
    rw [Has, Has, UInt32.and_comm]
  simp only [hcomm, stopping, has_or, or_assoc]

end Status

theorem Registers.isStopped_iff (regs : Registers) :
    regs.isStopped = true ↔ Status.Has regs.status Status.stopping := by
  rw [isStopped, bne_iff_ne]
  exact Iff.rfl

/-- The status bits that a pair raises wherever it is executed. -/
def Pair.raised (p : Pair) : UInt32 :=
  Interpreter.flagStatus p ||| if p.opcode = .xgkick then Status.kick else 0

open Status in
theorem Pair.has_raised (p : Pair) (bits : UInt32) : Has p.raised bits ↔
    (p.dBit = true ∧ Has debugBreak bits) ∨ (p.tBit = true ∧ Has debugHalt bits) ∨
      (p.opcode = .xgkick ∧ Has kick bits) := by
  have hif : ∀ (c : Prop) [Decidable c] (a : UInt32),
      Has (if c then a else 0) bits ↔ c ∧ Has a bits := by
    intro c _ a
    by_cases hc : c <;> simp [hc]
  rw [raised, Interpreter.flagStatus, has_or, has_or, hif, hif, hif, or_assoc]

section raised

open Status

theorem Pair.has_raised_ended (p : Pair) : ¬ Has p.raised ended := by
  simp +decide [has_raised]

theorem Pair.has_raised_debugBreak (p : Pair) : Has p.raised debugBreak ↔ p.dBit = true := by
  simp +decide [has_raised]

theorem Pair.has_raised_debugHalt (p : Pair) : Has p.raised debugHalt ↔ p.tBit = true := by
  simp +decide [has_raised]

theorem Pair.has_raised_kick (p : Pair) : Has p.raised kick ↔ p.opcode = .xgkick := by
  simp +decide [has_raised]

theorem Pair.has_raised_stopping (p : Pair) :
    Has p.raised stopping ↔ p.dBit = true ∨ p.tBit = true := by
  rw [has_stopping, has_raised_debugBreak, has_raised_debugHalt]
  exact or_iff_right p.has_raised_ended

end raised

/-! ### What pairs do to status and kick address -/

namespace Interpreter

variable {memLength : Nat} {inSlot : Bool} {s : State}

theorem exists_link (regs : Registers) (offset : Nat) (p : Pair) :
    ∃ vi, link regs offset p = { regs with vi := vi } := by
  rw [link]
  split
  · exact exists_assign _ _ _
  · exact exists_assign _ _ _
  · exact ⟨regs.vi, rfl⟩

/-- **Pair.** A pair raises its bits wherever it stands, and a kick leaves its address. Which bits
these are depends on the pair and on whether it stands in a delay slot. -/
theorem exists_step (memLength : Nat) (inSlot : Bool) (s : State) (e : Sequence.Entry) :
    ∃ vi, (step memLength inSlot s e).registers =
      { s.registers with
        vi := vi
        status := s.registers.status ||| e.pair.raised
        kick := if e.pair.opcode = .xgkick then (value s.registers e.pair.is).toUInt32
          else s.registers.kick } := by
  by_cases hkick : e.pair.opcode = .xgkick
  · have hbranch : e.pair.isBranch = false := by
      rw [Pair.isBranch, hkick]
      rfl
    refine ⟨s.registers.vi, ?_⟩
    rw [step, hbranch, Pair.raised, hkick]
    simp only [arithmetic, hkick, Registers.raise, if_true, Bool.false_eq_true, if_false]
    rw [UInt32.or_assoc, UInt32.or_comm Status.kick]
  · obtain ⟨vi, hvi⟩ : ∃ vi, (if e.pair.isBranch then
        if inSlot then s else branch s memLength e.offset e.pair
        else { s with registers := arithmetic s.registers e.pair }).registers =
          { s.registers with vi := vi } := by
      split
      · split
        · exact ⟨s.registers.vi, rfl⟩
        · exact exists_link _ _ _
      · exact exists_arithmetic hkick _
    refine ⟨vi, ?_⟩
    simp only [step, Registers.raise, hvi, Pair.raised, if_neg hkick, UInt32.or_zero]

/-- **Pairs.** A bit is set behind some pairs if it was set before or one of them raises it. No pair
ever clears a bit. -/
theorem has_steps (memLength : Nat) (inSlot : Bool) (s : State) (es : List Sequence.Entry)
    (bits : UInt32) : Status.Has (steps memLength inSlot s es).registers.status bits ↔
      Status.Has s.registers.status bits ∨ ∃ e ∈ es, Status.Has e.pair.raised bits := by
  induction es generalizing inSlot s with
  | nil => simp [steps]
  | cons e rest ih =>
    obtain ⟨vi, hstep⟩ := exists_step memLength inSlot s e
    rw [steps, ih, hstep]
    simp only [Status.has_or, List.mem_cons, exists_eq_or_imp, or_assoc]

/-- Without a kick the address of the last one stays. -/
theorem kick_steps (memLength : Nat) (inSlot : Bool) (s : State) {es : List Sequence.Entry}
    (h : ∀ e ∈ es, e.pair.opcode ≠ .xgkick) :
    (steps memLength inSlot s es).registers.kick = s.registers.kick := by
  induction es generalizing inSlot s with
  | nil => rfl
  | cons e rest ih =>
    obtain ⟨hkick, hrest⟩ := List.forall_mem_cons.mp h
    obtain ⟨vi, hstep⟩ := exists_step memLength inSlot s e
    rw [steps, ih _ _ hrest, hstep]
    exact if_neg hkick

/-- The pairs behind others are executed in the state that those have left. -/
theorem exists_steps_append (memLength : Nat) (inSlot : Bool) (s : State)
    (es es' : List Sequence.Entry) : ∃ inSlot', steps memLength inSlot s (es ++ es') =
      steps memLength inSlot' (steps memLength inSlot s es) es' := by
  induction es generalizing inSlot s with
  | nil => exact ⟨inSlot, rfl⟩
  | cons e rest ih => exact ih _ _

end Interpreter

namespace Sequence

/-! ### What sequences do -/

/-- **Sequence.** A bit is set behind a sequence if it was set before, one of its pairs raises it,
or it says that the program ended and the sequence ends the program. -/
theorem has_interpret (s : Sequence) (regs : Registers) (bits : UInt32) :
    Status.Has (s.interpret regs).status bits ↔ Status.Has regs.status bits ∨
      (∃ e ∈ s.entries, Status.Has e.pair.raised bits) ∨
        (s.isFinal = true ∧ Status.Has Status.ended bits) := by
  have hsteps := Interpreter.has_steps s.memLength false ⟨regs, none⟩ s.entries bits
  rw [interpret, ← or_assoc, ← hsteps]
  by_cases hfinal : s.isFinal = true
  · simp only [hfinal, if_true, Registers.raise, Status.has_or, true_and]
  · simp only [hfinal, if_false, Bool.false_eq_true, false_and, or_false]

theorem kick_interpret (s : Sequence) (regs : Registers) : (s.interpret regs).kick =
    (Interpreter.steps s.memLength false ⟨regs, none⟩ s.entries).registers.kick := by
  rw [interpret]
  dsimp only
  split
  · rfl
  · rfl

/-- The registers after some sequences have been interpreted one after another. -/
def interpretAll (regs : Registers) (ss : List Sequence) : Registers :=
  ss.foldl (fun regs s => s.interpret regs) regs

theorem interpretAll_append (regs : Registers) (ss ss' : List Sequence) :
    interpretAll regs (ss ++ ss') = interpretAll (interpretAll regs ss) ss' :=
  List.foldl_append

/-- **Sequences.** A bit is set behind some sequences if it was set before, or one of them raises
it. -/
theorem has_interpretAll (regs : Registers) (ss : List Sequence) (bits : UInt32) :
    Status.Has (interpretAll regs ss).status bits ↔ Status.Has regs.status bits ∨
      ∃ s ∈ ss, (∃ e ∈ s.entries, Status.Has e.pair.raised bits) ∨
        (s.isFinal = true ∧ Status.Has Status.ended bits) := by
  induction ss generalizing regs with
  | nil => simp [interpretAll]
  | cons s rest ih =>
    have hrest := ih (s.interpret regs)
    rw [interpretAll, List.foldl_cons, ← interpretAll, hrest, has_interpret]
    simp only [List.mem_cons, exists_eq_or_imp, or_assoc]

theorem kick_interpretAll (regs : Registers) {ss : List Sequence}
    (h : ∀ e ∈ ss.flatMap entries, e.pair.opcode ≠ .xgkick) :
    (interpretAll regs ss).kick = regs.kick := by
  induction ss generalizing regs with
  | nil => rfl
  | cons s rest ih =>
    rw [List.flatMap_cons] at h
    obtain ⟨hfirst, hrest⟩ := List.forall_mem_append.mp h
    calc (interpretAll regs (s :: rest)).kick
        = (interpretAll (s.interpret regs) rest).kick := rfl
      _ = (s.interpret regs).kick := ih _ hrest
      _ = regs.kick := by rw [kick_interpret, Interpreter.kick_steps _ _ _ hfirst]

/-! ### Pairs in their sequences -/

/-- A place in some sequences where a pair stands, with all that was carried out before it. So the
registers with which it is executed can be told (`Place.registers`). -/
structure Place (ss : List Sequence) where
  /-- The sequences in front of the one that holds the pair. -/
  done : List Sequence
  sequence : Sequence
  later : List Sequence
  /-- The pairs of the sequence in front of this one. -/
  before : List Entry
  entry : Entry
  after : List Entry
  sequences_eq : ss = done ++ sequence :: later
  entries_eq : sequence.entries = before ++ entry :: after

namespace Place

variable {ss : List Sequence}

/-- All pairs behind this one. -/
def further (l : Place ss) : List Entry :=
  l.after ++ l.later.flatMap entries

/-- The pair stands in the delay slot of a branch that does not end the program itself. The E bit of
such a pair is passed over, although its other bits are not. -/
def InBranchSlot (l : Place ss) : Prop :=
  ∃ b, l.before.getLast? = some b ∧ b.pair.isBranch = true ∧ b.pair.eBit = false

/-- The registers with which the pair is executed. -/
def registers (l : Place ss) (regs : Registers) : Registers :=
  (Interpreter.steps l.sequence.memLength false ⟨interpretAll regs l.done, none⟩
    l.before).registers

theorem exists_place {s : Sequence} {e : Entry} (hs : s ∈ ss) (he : e ∈ s.entries) :
    ∃ l : Place ss, l.entry = e := by
  obtain ⟨done, later, hss⟩ := List.append_of_mem hs
  obtain ⟨before, after, hentries⟩ := List.append_of_mem he
  exact ⟨⟨done, s, later, before, e, after, hss, hentries⟩, rfl⟩

theorem mem_sequences (l : Place ss) : l.sequence ∈ ss := by
  have hmem : l.sequence ∈ l.done ++ l.sequence :: l.later :=
    List.mem_append_right _ List.mem_cons_self
  exact (congrArg (l.sequence ∈ ·) l.sequences_eq).mpr hmem

theorem mem_entries (l : Place ss) : l.entry ∈ l.sequence.entries := by
  rw [l.entries_eq]
  exact List.mem_append_right _ List.mem_cons_self

end Place

/-- The sequence reaches to a block boundary of some memory. So it has a delay slot exactly if a
pair in front of that asks for it, and no pair closes it earlier. -/
def Delimited (s : Sequence) : Prop :=
  ∃ m start limit, s.Delimits m start limit

theorem isFinal_iff (s : Sequence) : s.isFinal = true ↔ s.ending = .programEnd :=
  beq_iff_eq

namespace Place

variable {ss : List Sequence}

/-- A pair with the E bit ends the program behind the next pair, but for the delay slot of a
branch. -/
theorem isFinal_of_eBit (l : Place ss) (hs : l.sequence.Delimited)
    (he : l.entry.pair.eBit = true) (hslot : ¬ l.InBranchSlot) :
    l.sequence.isFinal = true ∧ l.after.length ≤ 1 := by
  obtain ⟨m, start, limit, hs⟩ := hs
  have hdelay : l.entry.pair.hasDelaySlot = true := by rw [Pair.hasDelaySlot, he, Bool.true_or]
  have hlength : l.sequence.length = l.before.length + (l.after.length + 1) := by
    rw [length, l.entries_eq, List.length_append, List.length_cons]
  rw [isFinal_iff, hs.programEnd_iff]
  by_cases hafter : l.after = []
  · have hentries := l.entries_eq
    rw [hafter] at hentries
    refine ⟨?_, by rw [hafter]; exact Nat.zero_le 1⟩
    -- the pair stands in a delay slot itself, for otherwise it would have one behind it
    have hhas : l.sequence.ending.hasSlot = true := by
      refine Bool.of_not_eq_false fun hnone => ?_
      have hlast : l.sequence.last = l.entry := by
        simp only [last, hentries, List.getLast_append_singleton]
      have hplain := hs.last_plain hnone
      rw [hlast, hdelay] at hplain
      cases hplain
    obtain ⟨b, hb, hopens⟩ := hs.hasSlot_iff.mp hhas
    have hbefore : l.sequence.penultimate? = l.before.getLast? := by
      rw [penultimate?, hentries, List.dropLast_concat]
    refine ⟨b, hb, Bool.of_not_eq_false fun hend => hslot ⟨b, hbefore ▸ hb, ?_, hend⟩⟩
    rwa [Pair.hasDelaySlot, hend, Bool.false_or] at hopens
  · have hpos : 0 < l.after.length := List.length_pos_iff.mpr hafter
    have hentry : l.sequence.entries[l.before.length]? = some l.entry := by
      rw [l.entries_eq, List.getElem?_append_right (Nat.le_refl _), Nat.sub_self,
        List.getElem?_cons_zero]
    rcases hs.passes _ _ hentry (by omega) with ⟨hplain, -⟩ | ⟨hlast, -⟩
    · cases hplain.symm.trans hdelay
    · exact ⟨⟨_, penultimate?_eq_some_iff.mpr ⟨_, hlast, hentry⟩, he⟩, by omega⟩

/-- Only a pair with the E bit makes a sequence end the program, and one that is not in the delay
slot of a branch. -/
theorem exists_of_isFinal {s : Sequence} (hmem : s ∈ ss) (hs : s.Delimited)
    (hfinal : s.isFinal = true) :
    ∃ l : Place ss, l.entry.pair.eBit = true ∧ ¬ l.InBranchSlot := by
  obtain ⟨m, start, limit, hs⟩ := hs
  obtain ⟨e, hpenultimate, he⟩ := hs.programEnd_iff.mp ((isFinal_iff s).mp hfinal)
  obtain ⟨i, hi, hentry⟩ := penultimate?_eq_some_iff.mp hpenultimate
  obtain ⟨done, later, hss⟩ := List.append_of_mem hmem
  obtain ⟨hlt, rfl⟩ := List.getElem?_eq_some_iff.mp hentry
  have hentries : s.entries = s.entries.take i ++ s.entries[i] :: s.entries.drop (i + 1) := by
    rw [List.getElem_cons_drop, List.take_append_drop]
  refine ⟨⟨done, s, later, _, _, _, hss, hentries⟩, he, ?_⟩
  rintro ⟨b, hb, hbranch, -⟩
  have hpos : i ≠ 0 := by
    rintro rfl
    cases hb
  have hb' : s.entries[i - 1]? = some b := by
    have hlt' : i - 1 < s.entries.length := by omega
    rw [List.getLast?_take, if_neg hpos, List.getElem?_eq_getElem hlt', Option.some_or] at hb
    rw [List.getElem?_eq_getElem hlt', hb]
  -- nothing in front of the pair with the delay slot opens another one
  rcases hs.passes _ _ hb' (by rw [length] at *; omega) with ⟨hplain, -⟩ | ⟨hlast, -⟩
  · rw [Pair.hasDelaySlot, hbranch, Bool.or_true] at hplain
    cases hplain
  · omega

end Place

/-! ### Pairs take effect -/

/-- What a list of sequences, executed one after another, makes of the registers is what its flagged
pairs ask for, and nothing else. -/
structure TakeEffect (ss : List Sequence) (regs regs' : Registers) : Prop where
  /-- A pair with the E bit ends the program, but for the delay slot of a branch. -/
  ended_iff : Status.Has regs'.status Status.ended ↔
    ∃ l : Place ss, l.entry.pair.eBit = true ∧ ¬ l.InBranchSlot
  debugBreak_iff : Status.Has regs'.status Status.debugBreak ↔
    ∃ l : Place ss, l.entry.pair.dBit = true
  debugHalt_iff : Status.Has regs'.status Status.debugHalt ↔
    ∃ l : Place ss, l.entry.pair.tBit = true
  kick_iff : Status.Has regs'.status Status.kick ↔ ∃ l : Place ss, l.entry.pair.opcode = .xgkick
  /-- No other status bits are set. -/
  has_all : ∀ bits, Status.Has regs'.status bits → Status.Has Status.all bits
  /-- One pair more is executed behind one that ends the program. -/
  further_of_eBit : ∀ l : Place ss, l.entry.pair.eBit = true → ¬ l.InBranchSlot →
    l.further.length ≤ 1
  /-- The sequence of a pair with a debug bit is the last one. -/
  later_of_debug : ∀ l : Place ss, l.entry.pair.dBit = true ∨ l.entry.pair.tBit = true →
    l.later = []
  /-- The last kick leaves its address. -/
  kick_of_last : ∀ l : Place ss, l.entry.pair.opcode = .xgkick →
    (∀ e ∈ l.further, e.pair.opcode ≠ .xgkick) →
      regs'.kick = (Interpreter.value (l.registers regs) l.entry.pair.is).toUInt32
  kick_of_none : (∀ e ∈ ss.flatMap entries, e.pair.opcode ≠ .xgkick) → regs'.kick = regs.kick

/-- A bit that one of the sequences raises is set behind all of them. -/
theorem has_interpretAll_of_mem {ss : List Sequence} {s : Sequence} {e : Entry} (hs : s ∈ ss)
    (he : e ∈ s.entries) (regs : Registers) {bits : UInt32} (h : Status.Has e.pair.raised bits) :
    Status.Has (interpretAll regs ss).status bits :=
  (has_interpretAll regs ss bits).mpr (.inr ⟨s, hs, .inl ⟨e, he, h⟩⟩)

/-- A bit that was not set before is set if a pair raises it, unless it says that the program
ended. -/
theorem has_interpretAll_iff_place {ss : List Sequence} {regs : Registers}
    (hstatus : regs.status = 0) {bits : UInt32} (hbits : ¬ Status.Has Status.ended bits) :
    Status.Has (interpretAll regs ss).status bits ↔
      ∃ l : Place ss, Status.Has l.entry.pair.raised bits := by
  constructor
  · intro h
    rw [has_interpretAll, hstatus] at h
    rcases h with hzero | ⟨s, hs, ⟨e, he, hraised⟩ | ⟨-, hended⟩⟩
    · exact absurd hzero (Status.not_has_zero bits)
    · obtain ⟨l, rfl⟩ := Place.exists_place hs he
      exact ⟨l, hraised⟩
    · exact absurd hended hbits
  · rintro ⟨l, hraised⟩
    exact has_interpretAll_of_mem l.mem_sequences l.mem_entries regs hraised

/-- The program has ended if a sequence ended it. -/
theorem has_ended_iff {ss : List Sequence} {regs : Registers} (hstatus : regs.status = 0) :
    Status.Has (interpretAll regs ss).status Status.ended ↔ ∃ s ∈ ss, s.isFinal = true := by
  have hone : Status.Has Status.ended Status.ended := by decide
  rw [has_interpretAll, hstatus]
  simp only [Status.not_has_zero, Pair.has_raised_ended, hone, and_false, exists_false, false_or,
    and_true]

namespace Place

variable {ss : List Sequence}

/-- The last kick leaves its address. -/
theorem kick_eq_of_last (l : Place ss) (regs : Registers) (h : l.entry.pair.opcode = .xgkick)
    (hlast : ∀ e ∈ l.further, e.pair.opcode ≠ .xgkick) : (interpretAll regs ss).kick =
      (Interpreter.value (l.registers regs) l.entry.pair.is).toUInt32 := by
  obtain ⟨hafter, hlater⟩ := List.forall_mem_append.mp hlast
  obtain ⟨inSlot, hsteps⟩ := Interpreter.exists_steps_append l.sequence.memLength false
    ⟨interpretAll regs l.done, none⟩ l.before (l.entry :: l.after)
  obtain ⟨vi, hstep⟩ := Interpreter.exists_step l.sequence.memLength inSlot
    (Interpreter.steps l.sequence.memLength false ⟨interpretAll regs l.done, none⟩ l.before)
    l.entry
  have hall : interpretAll regs ss =
      interpretAll (l.sequence.interpret (interpretAll regs l.done)) l.later := by
    rw [congrArg (interpretAll regs) l.sequences_eq, interpretAll_append]
    rfl
  have hsequence : (l.sequence.interpret (interpretAll regs l.done)).kick =
      (Interpreter.value (l.registers regs) l.entry.pair.is).toUInt32 := by
    rw [kick_interpret, l.entries_eq, hsteps, Interpreter.steps,
      Interpreter.kick_steps _ _ _ hafter, hstep]
    exact if_pos h
  rw [hall, kick_interpretAll _ hlater, hsequence]

/-- If nothing comes behind a sequence that stops the run, then nothing comes behind this one. -/
theorem later_eq_nil (l : Place ss) {regs : Registers}
    (hstops : ∀ front, front <+: ss → front ≠ [] →
      (interpretAll regs front).isStopped = true → front = ss)
    (h : Status.Has (interpretAll regs (l.done ++ [l.sequence])).status Status.stopping) :
    l.later = [] := by
  have heq := l.sequences_eq
  have hsplit : l.done ++ [l.sequence] ++ l.later = ss := by
    rw [List.append_assoc, List.singleton_append, ← heq]
  have hfront := hstops (l.done ++ [l.sequence]) ⟨l.later, hsplit⟩ (by simp)
    ((Registers.isStopped_iff _).mpr h)
  exact List.append_right_eq_self.mp (hsplit.trans hfront.symm)

end Place

/-- **Sequences.** If every sequence reaches to a block boundary, and none comes behind one that
stops the run, pairs take effect. -/
theorem takeEffect_interpretAll {ss : List Sequence} {regs : Registers}
    (hblocks : ∀ s ∈ ss, s.Delimited) (hstatus : regs.status = 0)
    (hstops : ∀ front, front <+: ss → front ≠ [] →
      (interpretAll regs front).isStopped = true → front = ss) :
    TakeEffect ss regs (interpretAll regs ss) := by
  have hmem : ∀ l : Place ss, l.sequence ∈ l.done ++ [l.sequence] := fun l =>
    List.mem_append_right _ (List.mem_singleton_self _)
  have hfinal := fun l : Place ss => l.isFinal_of_eBit (hblocks _ l.mem_sequences)
  constructor
  case ended_iff =>
    rw [has_ended_iff hstatus]
    constructor
    · rintro ⟨s, hs, hends⟩
      exact Place.exists_of_isFinal hs (hblocks s hs) hends
    · rintro ⟨l, he, hslot⟩
      exact ⟨l.sequence, l.mem_sequences, (hfinal l he hslot).1⟩
  case debugBreak_iff =>
    exact (has_interpretAll_iff_place hstatus (by decide)).trans
      (exists_congr fun l => Pair.has_raised_debugBreak _)
  case debugHalt_iff =>
    exact (has_interpretAll_iff_place hstatus (by decide)).trans
      (exists_congr fun l => Pair.has_raised_debugHalt _)
  case kick_iff =>
    exact (has_interpretAll_iff_place hstatus (by decide)).trans
      (exists_congr fun l => Pair.has_raised_kick _)
  case has_all =>
    intro bits h
    simp only [Status.all, Status.has_or]
    by_cases hended : Status.Has Status.ended bits
    · exact .inl (.inl (.inl hended))
    · obtain ⟨l, hraised⟩ := (has_interpretAll_iff_place hstatus hended).mp h
      rw [Pair.has_raised] at hraised
      tauto
  case further_of_eBit =>
    intro l he hslot
    obtain ⟨hends, hafter⟩ := hfinal l he hslot
    have hended := (has_ended_iff hstatus).mpr ⟨l.sequence, hmem l, hends⟩
    have hlater := l.later_eq_nil hstops ((Status.has_stopping _).mpr (.inl hended))
    rwa [Place.further, hlater, List.flatMap_nil, List.append_nil]
  case later_of_debug =>
    intro l h
    exact l.later_eq_nil hstops (has_interpretAll_of_mem (hmem l) l.mem_entries regs
      ((Pair.has_raised_stopping _).mpr h))
  case kick_of_last => exact fun l => l.kick_eq_of_last regs
  case kick_of_none => exact kick_interpretAll regs

end Sequence

namespace Processor

variable {p p' q : Processor} {budget pc : UInt32}

/-! ### What the blocks of a run execute -/

/-- The block of a call is the translation of a sequence that was found at the same offset, in some
memory of the unit's size. -/
structure Call.Executes (config : Config) (c : Call) (s : Sequence) : Prop where
  code_eq : c.hit.block.code = s.toCode
  found : ∃ m : Memory, m.size = config.kind.memorySize ∧ m.HasPair c.offset ∧
    Sequence.ofMemory? m c.offset config.maxBlockLength = some s

theorem Call.Executes.run_eq {config : Config} {c : Call} {s : Sequence} (h : c.Executes config s)
    (regs : Registers) : c.hit.block.run regs = s.interpret regs := by
  obtain ⟨m, hsize, hpair, hs⟩ := h.found
  have hlength : s.memLength = m.size := ((Sequence.ofMemory?_eq_some_iff hpair).mp hs).1
  rw [Block.run, h.code_eq]
  exact s.run_toCode (by rw [hlength, hsize]; exact config.kind.memorySize_le) regs

theorem Call.Executes.delimited {config : Config} {c : Call} {s : Sequence}
    (h : c.Executes config s) : s.Delimited := by
  obtain ⟨m, -, hpair, hs⟩ := h.found
  exact ⟨m, _, _, (Sequence.delimits_iff_eq hpair hs).mpr rfl⟩

/-- Blocks that are entered one after another do what the pairs of their sequences do. -/
theorem runCalls_eq_interpretAll {config : Config} {calls : List Call} {ss : List Sequence}
    (h : List.Forall₂ (Call.Executes config) calls ss) (regs : Registers) :
    runCalls regs calls = Sequence.interpretAll regs ss := by
  induction h generalizing regs with
  | nil => rfl
  | cons hc _ ih =>
    rw [runCalls, List.foldl_cons, hc.run_eq]
    exact ih _

theorem delimited_of_executes {config : Config} {calls : List Call} {ss : List Sequence}
    (h : List.Forall₂ (Call.Executes config) calls ss) : ∀ s ∈ ss, s.Delimited := by
  induction h with
  | nil => exact fun s hs => absurd hs List.not_mem_nil
  | cons hc _ ih => exact List.forall_mem_cons.mpr ⟨hc.delimited, ih⟩

/-- A call comes from the lookup of a turn. -/
theorem exists_turn_of_mem_callsFrom (turns : Nat) {done : Tally} {c : Call}
    (hc : c ∈ callsFrom budget turns p pc done) :
    ∃ t ∈ turnsFrom budget turns p pc done, t.lookup = .ok (c.hit, c.unit) ∧
      t.pc.toNat = c.offset := by
  induction turns generalizing p pc done with
  | zero => cases hc
  | succ turns ih =>
    rw [callsFrom] at hc
    cases hnext : p.ensureRoom.nextBlock pc (0 < done.blocks) with
    | error fault =>
      rw [hnext] at hc
      cases hc
    | ok found =>
      obtain ⟨hit, q⟩ := found
      have hturn : p.turn pc (0 < done.blocks) = .ok (hit.block.cycles, q.enter hit.block pc) := by
        rw [turn, hnext]
        rfl
      rw [hnext] at hc
      rw [turnsFrom, hturn]
      dsimp only at hc ⊢
      rcases List.mem_cons.mp hc with rfl | hc
      · exact ⟨_, List.mem_cons_self, hnext, rfl⟩
      · split at hc
        · cases hc
        · case isFalse hgoes =>
          obtain ⟨t, ht, hfound⟩ := ih hc
          rw [if_neg hgoes]
          exact ⟨t, List.mem_cons_of_mem _ ht, hfound⟩

/-- **Run.** Every block that a run enters executes a sequence that starts where it is entered, be
it one of live memory or of what memory was. -/
theorem InUse.exists_executes (hp : p.InUse) (start budget : UInt32) :
    ∀ c ∈ p.calls start budget, ∃ s, c.Executes p.config s := by
  intro c hc
  obtain ⟨t, ht, hlookup, hpc⟩ := exists_turn_of_mem_callsFrom _ hc
  have hbegins : t.Begins anyProgram p := hp.begins_turns start budget t ht
  have hstart := (hbegins.confined.found c.hit c.unit hlookup).start_eq
  obtain ⟨m, s, hsize, hpair, hs, hrenders⟩ := hp.stocked.fits_calls start budget c hc
  rw [hstart, hpc] at hpair hs
  exact ⟨s, hrenders.code_eq, m, hsize, hpair, hs⟩

/-- **Run.** What a run of a sound unit executes are sequences of live microcode, as a lookup finds
no other code, and blocks that follow are of the same program. -/
theorem Sound.exists_live_callsFrom (turns : Nat) {done : Tally} (hp : p.Sound)
    (h : p.microcode.HasPair pc.toNat) (hfresh : 0 < done.blocks → p.stale = false) :
    ∀ c ∈ callsFrom budget turns p pc done, p.microcode.HasPair c.offset ∧
      ∃ s, Sequence.ofMemory? p.microcode c.offset p.config.maxBlockLength = some s ∧
        c.hit.block.code = s.toCode := by
  induction turns generalizing p pc done with
  | zero => exact fun c hc => absurd hc List.not_mem_nil
  | succ turns ih =>
    have hbegun : decide (0 < done.blocks) = true → p.stale = false := fun hb =>
      hfresh (of_decide_eq_true hb)
    obtain ⟨hidden, hrecent⟩ := ensureRoom_spec hp
    have hlookup := nextBlock_spec hidden.sound (hidden.microcode_eq ▸ h) fun hb =>
      hrecent (hbegun hb)
    have hturn := turn_spec hp h hbegun
    rw [callsFrom]
    rw [turn] at hturn
    cases hnext : p.ensureRoom.nextBlock pc (0 < done.blocks) with
    | error fault => exact fun c hc => absurd hc List.not_mem_nil
    | ok found =>
      obtain ⟨hit, q⟩ := found
      rw [hnext] at hlookup hturn
      obtain ⟨hsound, hstale, -, code, hcode, -, hunit⟩ : (q.enter hit.block pc).Sound ∧ _ := hturn
      -- without a cache the same code is found, which is that of a sequence
      have hfirst : p.uncached.code? pc.toNat = some hit.block.code :=
        hidden.uncached_eq ▸ hlookup.code?_eq
      obtain ⟨s, hs, hblock⟩ := Option.map_eq_some_iff.mp hfirst
      dsimp only
      refine List.forall_mem_cons.mpr ⟨⟨h, s, hs, hblock.symm⟩, ?_⟩
      split
      · exact fun c hc => absurd hc List.not_mem_nil
      · have hmicrocode : (q.enter hit.block pc).microcode = p.microcode :=
          congrArg Uncached.microcode hunit
        have hlength : (q.enter hit.block pc).config.maxBlockLength = p.config.maxBlockLength :=
          congrArg Uncached.maxBlockLength hunit
        have hregisters : (q.enter hit.block pc).registers = code.run p.registers :=
          congrArg Uncached.registers hunit
        have hexit : p.microcode.HasPair (code.run p.registers).pc.toNat :=
          Uncached.hasPair_run (u := p.uncached) h
            (hp.size_eq ▸ p.config.kind.memorySize_le) hcode p.registers
        rw [← hregisters, ← hmicrocode] at hexit
        rw [← hmicrocode, ← hlength]
        exact ih hsound hexit fun _ => hstale

theorem Sound.exists_live (hp : p.Sound) (start budget : UInt32) :
    ∀ c ∈ p.calls start budget, ∃ s,
      Sequence.ofMemory? p.microcode c.offset p.config.maxBlockLength = some s ∧
        c.Executes p.config s := by
  intro c hc
  have hpair := p.config.kind.hasPair_pairOffset hp.size_eq start
  rw [← toNat_startPc] at hpair
  have hbegun : (p.beginRun (p.startPc start)).Sound := hp.congr rfl rfl rfl rfl rfl
  obtain ⟨hpair, s, hs, hcode⟩ :=
    hbegun.exists_live_callsFrom _ hpair (fun hblocks => by cases hblocks) c hc
  exact ⟨s, hs, hcode, p.microcode, hp.size_eq, hpair, hs⟩

/-- **Run.** No sequence is executed behind one that stops the run, so a sequence with a flag that
stops is the last one. -/
theorem InUse.eq_of_stops (hp : p.InUse) {start : UInt32} {t : Tally}
    (hrun : p.execute start budget = .ok (t, q)) {config : Config} {ss : List Sequence}
    (hss : List.Forall₂ (Call.Executes config) (p.calls start budget) ss)
    {front : List Sequence} (hfront : front <+: ss) (hne : front ≠ [])
    (hstops : (Sequence.interpretAll (p.beginRun (p.startPc start)).registers front).isStopped =
      true) : front = ss := by
  obtain ⟨-, hends⟩ := hp.ends_calls_iff hrun
  obtain ⟨rest, rfl⟩ := hfront
  have hcalls := List.forall₂_take_append _ front rest hss
  have hall : (p.calls start budget).take front.length = p.calls start budget := by
    refine (hends _ (List.take_prefix _ _) fun hnil => ?_).mp (.inl ?_)
    · rw [hnil, List.forall₂_nil_left_iff] at hcalls
      exact hne hcalls
    · rwa [runCalls_eq_interpretAll hcalls]
  have hlength := hss.length_eq
  rw [← hall, hcalls.length_eq, List.length_append] at hlength
  rw [List.length_eq_zero_iff.mp (by omega : rest.length = 0), List.append_nil]

/-- **Flags.** Whatever was done to a unit, each of its runs executes sequences one after another,
and every flagged pair of them takes effect, wherever it stands; only the E bit is not looked at in
the delay slot of a branch. No status bit is set for any other reason. The sequences are those of
live microcode, unless a program was asked for a block that has nothing to do with it. -/
theorem takeEffect_of_uses {host : Host} {config : Config} (hcreate : create host config = .ok p)
    (h : Uses anyProgram p p') (start budget : UInt32) (hunlocked : p'.isUnlocked = true)
    (hroom : ∀ offset, p'.execute start budget ≠ .error (.exhausted offset)) :
    ∃ t q, p'.execute start budget = .ok (t, q) ∧
      (∀ c ∈ p'.calls start budget, ∃ s, c.Executes config s) ∧
      (p'.Reachable → ∀ c ∈ p'.calls start budget, ∃ s,
        Sequence.ofMemory? p'.microcode c.offset config.maxBlockLength = some s ∧
          c.Executes config s) ∧
      ∀ ss, List.Forall₂ (Call.Executes config) (p'.calls start budget) ss →
        Sequence.TakeEffect ss (p'.beginRun (p'.startPc start)).registers q.registers := by
  have hp' : p'.InUse := (inUse_create hcreate).uses h
  obtain ⟨⟨t, q⟩, hrun, -⟩ := (hp'.yields_execute start budget).exists_ok hunlocked hroom
  have hconfig : p'.config = config := config_of_uses hcreate h
  refine ⟨t, q, hrun, hconfig ▸ hp'.exists_executes start budget,
    fun hreachable => hconfig ▸ hreachable.sound.exists_live start budget, fun ss hss => ?_⟩
  rw [registers_runBlocks _ hrun]
  change Sequence.TakeEffect ss _ (runCalls _ (p'.calls start budget))
  rw [runCalls_eq_interpretAll hss]
  exact Sequence.takeEffect_interpretAll (delimited_of_executes hss) rfl
    fun front => hp'.eq_of_stops hrun hss

/-- The delay slot of a pair with the E bit holds a kick with the D bit. -/
def flaggedSlot : List UInt8 :=
  Pair.image [.programEnd, .withFlags (Pair.Flag.mask .d) (Statement.word (.xgkick 1))] 16

theorem takeEffect_of_flaggedSlot : ∃ p p' t q c s, create .compact .standard = .ok p ∧
    p.perform (.write 0 flaggedSlot) = .ok (.done, p') ∧ p'.execute 0 8 = .ok (t, q) ∧
    q.registers.status = Status.ended ||| Status.debugBreak ||| Status.kick ∧
    p'.calls 0 8 = [c] ∧ c.Executes .standard s ∧
    Sequence.TakeEffect [s] (p'.beginRun (p'.startPc 0)).registers q.registers := by
  obtain ⟨p, p', hnew, hwrite, hunlocked, hok, hcalls⟩ : ∃ p p',
      create .compact .standard = .ok p ∧
      p.perform (.write 0 flaggedSlot) = .ok (.done, p') ∧ p'.isUnlocked = true ∧
      ((p'.execute 0 8).toOption.any fun r =>
        r.2.registers.status = Status.ended ||| Status.debugBreak ||| Status.kick) = true ∧
      (p'.calls 0 8).map (fun c => c.offset) = [0] :=
    ⟨_, _, rfl, rfl, rfl, by decide +kernel, by decide +kernel⟩
  obtain ⟨⟨t, q⟩, hrun, hstatus⟩ := exists_ok_of_any hok
  obtain ⟨c, hc, -⟩ := List.map_eq_singleton_iff.mp hcalls
  obtain ⟨t', q', hrun', hexecutes, -, heffect⟩ := takeEffect_of_uses hnew
    (.single (.perform hwrite)) 0 8 hunlocked fun offset hfault => by
      cases hrun.symm.trans hfault
  obtain ⟨rfl, rfl⟩ := Prod.mk.inj (Except.ok.inj (hrun.symm.trans hrun'))
  obtain ⟨s, hs⟩ := hexecutes c (by rw [hc]; exact List.mem_singleton_self c)
  refine ⟨p, p', t, q, c, s, hnew, hwrite, hrun, of_decide_eq_true hstatus, hc, hs, heffect [s] ?_⟩
  rw [hc]
  exact .cons hs .nil

/-- A branch to itself, and the pair that should end the program in its delay slot. -/
def lostEnd : List UInt8 :=
  Pair.image [.ofLower (Statement.word (.b (-1))), .programEnd] 16

/-- The E bit is executed in the delay slot of a branch, and the program does not end. -/
theorem not_ended_of_lostEnd : ∃ p p' t q c s, create .compact .standard = .ok p ∧
    p.perform (.write 0 lostEnd) = .ok (.done, p') ∧ p'.execute 0 2 = .ok (t, q) ∧
    p'.calls 0 2 = [c] ∧ c.Executes .standard s ∧ (∃ e ∈ s.entries, e.pair.eBit = true) ∧
    ¬ Status.Has q.registers.status Status.ended := by
  obtain ⟨p, p', hnew, hwrite, hok, hcalls, hscan⟩ : ∃ p p', create .compact .standard = .ok p ∧
      p.perform (.write 0 lostEnd) = .ok (.done, p') ∧
      ((p'.execute 0 2).toOption.any fun r => r.2.registers.status = 0) = true ∧
      (p'.calls 0 2).map (fun c => c.offset) = [0] ∧
      ((Sequence.ofMemory? p'.microcode 0 1024).all fun s =>
        s.entries.any fun e => e.pair.eBit) = true :=
    ⟨_, _, rfl, rfl, by decide +kernel, by decide +kernel, by decide +kernel⟩
  obtain ⟨⟨t, q⟩, hrun, hstatus⟩ := exists_ok_of_any hok
  obtain ⟨c, hc, hoffset⟩ := List.map_eq_singleton_iff.mp hcalls
  have hreachable : p'.Reachable := .perform (.create hnew) hwrite
  obtain ⟨s, hs, hexecutes⟩ := hreachable.sound.exists_live 0 2 c
    (by rw [hc]; exact List.mem_singleton_self c)
  have huses : Uses anyProgram p p' := .single (.perform hwrite)
  rw [config_of_uses hnew huses] at hs hexecutes
  have hflagged : ∃ e ∈ s.entries, e.pair.eBit = true := by
    rw [← hoffset, show (1024 : Nat) = Config.standard.maxBlockLength from rfl, hs] at hscan
    exact List.any_eq_true.mp hscan
  refine ⟨p, p', t, q, c, s, hnew, hwrite, hrun, hc, hexecutes, hflagged, ?_⟩
  rw [of_decide_eq_true hstatus]
  exact Status.not_has_zero _

end Processor

end VectorUnit
