import VectorUnit.Proofs.Trails

/-!
# Turns of a run

The turns of a run (`Processor.turns`) are listed with the unit before each of them, and with them
the turn that fails, if one does. A turn that is not the last one leaves to the offset at which the
next one begins, and a run comes to what its last turn comes to (`Processor.runBlocks_succ`): it
counts its turns (`Processor.length_turns`) or has the fault of the last lookup
(`Processor.exists_turn_of_error`).

Every turn of a unit in use begins at the offset of a pair, in a unit in use
(`Processor.InUse.begins_turns`).
-/

namespace VectorUnit

namespace Processor

/-- A turn of a run: the unit before it and the offset at which it begins. Whether the run has had a
turn before decides if its block has to be looked up. -/
structure Turn where
  unit : Processor
  pc : UInt32
  /-- The run has had a turn before. -/
  begun : Bool

/-- The lookup of a turn, in the unit that has made room. -/
def Turn.lookup (t : Turn) : Except Fault (Hit × Processor) :=
  t.unit.ensureRoom.nextBlock t.pc t.begun

/-- The turns, at most `turns` of them, that a run takes. -/
def turnsFrom (budget : UInt32) : (turns : Nat) → Processor → (pc : UInt32) → (done : Tally) →
    List Turn
  | 0, _, _, _ => []
  | turns + 1, p, pc, done =>
    ⟨p, pc, 0 < done.blocks⟩ ::
      match p.turn pc (0 < done.blocks) with
      | .error _ => []
      | .ok (cycles, p) =>
        if p.registers.isStopped || budget.toNat ≤ (done.add cycles).cycles then []
        else turnsFrom budget turns p p.registers.pc (done.add cycles)

/-- The turns of a run, each with the unit that it begins in. What the lookups of the run are is
told by these. -/
def turns (p : Processor) (start budget : UInt32) : List Turn :=
  turnsFrom budget (max 1 budget.toNat) (p.beginRun (p.startPc start)) (p.startPc start) .zero

variable {p p' : Processor} {Allows : Processor → ProgramNumber → Prop} {budget pc : UInt32}

/-- A turn fails where its lookup does. -/
theorem lookup_of_turn_error {begun : Bool} {fault : Fault}
    (h : p.turn pc begun = .error fault) : (Turn.mk p pc begun).lookup = .error fault := by
  rcases error_or_of_bind_eq_error h with hlookup | ⟨found, -, hran⟩
  · exact hlookup
  · cases hran

/-- **Turn.** The first turn of a run fails, and with it the run, or the run goes on from there,
with no turns left where it ends. -/
theorem runBlocks_succ (budget : UInt32) (turns : Nat) (p : Processor) (pc : UInt32)
    (done : Tally) :
    (∃ fault, p.turn pc (0 < done.blocks) = .error fault ∧
        p.runBlocks budget (turns + 1) pc done = .error fault ∧
        turnsFrom budget (turns + 1) p pc done = [⟨p, pc, 0 < done.blocks⟩]) ∨
      ∃ cycles p₁ left, p.turn pc (0 < done.blocks) = .ok (cycles, p₁) ∧ left ≤ turns ∧
        p.runBlocks budget (turns + 1) pc done =
          p₁.runBlocks budget left p₁.registers.pc (done.add cycles) ∧
        turnsFrom budget (turns + 1) p pc done = ⟨p, pc, 0 < done.blocks⟩ ::
          turnsFrom budget left p₁ p₁.registers.pc (done.add cycles) := by
  rw [runBlocks, turnsFrom]
  cases p.turn pc (0 < done.blocks) with
  | error fault => exact .inl ⟨fault, rfl, rfl, rfl⟩
  | ok result =>
    obtain ⟨cycles, p₁⟩ := result
    refine .inr ⟨cycles, p₁, ?_⟩
    dsimp only
    split
    · exact ⟨0, rfl, Nat.zero_le _, rfl, rfl⟩
    · exact ⟨turns, rfl, Nat.le_refl _, rfl, rfl⟩

/-- A run counts its turns. -/
theorem length_turnsFrom (turns : Nat) {done t : Tally}
    (hrun : p.runBlocks budget turns pc done = .ok (t, p')) :
    t.blocks = done.blocks + (turnsFrom budget turns p pc done).length := by
  induction turns using Nat.strongRecOn generalizing p pc done with
  | ind turns ih =>
  cases turns with
  | zero =>
    obtain ⟨rfl, -⟩ := Prod.mk.inj (Except.ok.inj hrun)
    rfl
  | succ turns =>
    rcases runBlocks_succ budget turns p pc done with ⟨fault, -, hfails, -⟩ |
      ⟨cycles, p₁, left, -, hleft, hgoes, hturns⟩
    · cases hfails.symm.trans hrun
    · have hcount : (done.add cycles).blocks = done.blocks + 1 := rfl
      rw [hturns, List.length_cons, ih left (Nat.lt_succ_of_le hleft) (hgoes ▸ hrun), hcount]
      omega

theorem length_turns {start : UInt32} {t : Tally}
    (hrun : p.execute start budget = .ok (t, p')) : t.blocks = (p.turns start budget).length := by
  rw [length_turnsFrom _ hrun]
  exact Nat.zero_add _

/-- A run that fails has the fault of its last lookup. -/
theorem exists_turnsFrom_of_error (turns : Nat) {done : Tally} {fault : Fault}
    (hrun : p.runBlocks budget turns pc done = .error fault) :
    ∃ t, (turnsFrom budget turns p pc done).getLast? = some t ∧ t.lookup = .error fault := by
  induction turns using Nat.strongRecOn generalizing p pc done with
  | ind turns ih =>
  cases turns with
  | zero => cases hrun
  | succ turns =>
    rcases runBlocks_succ budget turns p pc done with ⟨fault', hturn, hfails, hturns⟩ |
      ⟨cycles, p₁, left, -, hleft, hgoes, hturns⟩
    · obtain rfl := Except.error.inj (hfails.symm.trans hrun)
      exact ⟨_, by rw [hturns]; rfl, lookup_of_turn_error hturn⟩
    · obtain ⟨t, hlast, hlookup⟩ := ih left (Nat.lt_succ_of_le hleft) (hgoes ▸ hrun)
      exact ⟨t, by rw [hturns, List.getLast?_cons, hlast]; rfl, hlookup⟩

theorem exists_turn_of_error {start : UInt32} {fault : Fault}
    (hrun : p.execute start budget = .error fault) :
    ∃ t, (p.turns start budget).getLast? = some t ∧ t.lookup = .error fault :=
  exists_turnsFrom_of_error _ hrun

/-- All turns but the first one of a run know that the run has begun. -/
theorem begun_of_mem_turnsFrom (turns : Nat) {done : Tally} (hdone : 0 < done.blocks) :
    ∀ t ∈ turnsFrom budget turns p pc done, t.begun = true := by
  induction turns using Nat.strongRecOn generalizing p pc done with
  | ind turns ih =>
  cases turns with
  | zero => exact fun t ht => absurd ht List.not_mem_nil
  | succ turns =>
    have hfirst : (Turn.mk p pc (0 < done.blocks)).begun = true := decide_eq_true hdone
    rcases runBlocks_succ budget turns p pc done with ⟨fault, -, -, hturns⟩ |
      ⟨cycles, p₁, left, -, hleft, -, hturns⟩
    · rw [hturns]
      exact List.forall_mem_singleton.mpr hfirst
    · rw [hturns]
      exact List.forall_mem_cons.mpr
        ⟨hfirst, ih left (Nat.lt_succ_of_le hleft) (Nat.succ_pos _)⟩

theorem exists_turns_eq (p : Processor) (start budget : UInt32) : ∃ first rest,
    p.turns start budget = first :: rest ∧ first.begun = false ∧ ∀ t ∈ rest, t.begun = true := by
  obtain ⟨n, hn⟩ : ∃ n, max 1 budget.toNat = n + 1 := Nat.exists_eq_succ_of_ne_zero (by omega)
  rw [turns, hn]
  rcases runBlocks_succ budget n (p.beginRun (p.startPc start)) (p.startPc start) .zero with
    ⟨fault, -, -, hturns⟩ | ⟨cycles, p₁, left, -, -, -, hturns⟩
  · exact ⟨_, [], hturns, rfl, fun t ht => absurd ht List.not_mem_nil⟩
  · exact ⟨_, _, hturns, rfl, begun_of_mem_turnsFrom left (Nat.succ_pos _)⟩

/-! ### Where turns begin -/

/-- A turn begins in a unit in use that `p` has become, at the offset of a pair. If it is not the
first one, the unit is not stale, for the first lookup has seen to that. -/
structure Turn.Begins (Allows : Processor → ProgramNumber → Prop) (p : Processor) (t : Turn) :
    Prop where
  steps : Steps Allows p t.unit
  inUse : t.unit.InUse
  hasPair : t.unit.microcode.HasPair t.pc.toNat
  fresh : t.begun = true → t.unit.stale = false

/-- **Run.** All turns begin at the offset of a pair if the first one does, as every block leaves to
one. -/
theorem InUse.begins_turnsFrom (turns : Nat) {done : Tally} (hp : p.InUse)
    (h : p.microcode.HasPair pc.toNat) (hfresh : 0 < done.blocks → p.stale = false) :
    ∀ t ∈ turnsFrom budget turns p pc done, t.Begins Allows p := by
  induction turns using Nat.strongRecOn generalizing p pc done with
  | ind turns ih =>
  cases turns with
  | zero => exact fun t ht => absurd ht List.not_mem_nil
  | succ turns =>
    have hfirst : Turn.Begins Allows p ⟨p, pc, 0 < done.blocks⟩ :=
      ⟨.refl, hp, h, fun hbegun => hfresh (of_decide_eq_true hbegun)⟩
    rcases runBlocks_succ budget turns p pc done with ⟨fault, -, -, hturns⟩ |
      ⟨cycles, p₁, left, hturn, hleft, -, hturns⟩
    · rw [hturns]
      exact List.forall_mem_singleton.mpr hfirst
    · obtain ⟨hsteps, hstale, hexit⟩ : Steps Allows p p₁ ∧ _ :=
        steps_turn hp.stocked h hfirst.fresh hturn
      rw [hturns]
      refine List.forall_mem_cons.mpr ⟨hfirst, fun t ht => ?_⟩
      obtain ⟨hlater, hinUse, hpair, hknown⟩ :=
        ih left (Nat.lt_succ_of_le hleft) (hp.steps hsteps) hexit (fun _ => hstale) t ht
      exact ⟨hsteps.trans hlater, hinUse, hpair, hknown⟩

theorem InUse.begins_turns (hp : p.InUse) (start budget : UInt32) :
    ∀ t ∈ p.turns start budget, t.Begins Allows p := by
  intro t ht
  have hbegin : Step Allows p (p.beginRun (p.startPc start)) := .begin _
  obtain ⟨hsteps, hinUse, hpair, hfresh⟩ : t.Begins Allows (p.beginRun (p.startPc start)) :=
    (hp.step hbegin).begins_turnsFrom _ (hp.stocked.hasPair_startPc start)
      (fun hblocks => by cases hblocks) t ht
  exact ⟨hsteps.head hbegin, hinUse, hpair, hfresh⟩

end Processor

end VectorUnit
