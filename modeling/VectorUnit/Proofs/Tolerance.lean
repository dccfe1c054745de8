import Mathlib.Data.List.Forall2
import VectorUnit.Proofs.Steps

/-!
# Refusing unknown pairs is only a detour

A unit that does not ignore pairs no operation names refuses to compile a sequence with such a pair,
and then compiles it all the same. Nothing of this can be seen, but in the counter of the sequences
that were tolerated: two units that differ in this setting alone come to the same with everything
that is done to them (`Processor.alike_course`).

What makes it so lies beneath. Both attempts at a sequence are made in place, the second one on
whatever the first one has left (`Recompiler.attempt`, `Processor.compileAt_eq_inPlace`). But an
attempt that fails leaves the recompiler as it was, and one that succeeds does the same whether or
not unknown pairs are ignored (`Recompiler.forthright`). See `Processor.alike_of_config`.
-/

namespace VectorUnit

/-! ### Attempts in place -/

/-- This is the first pair of the sequence that no operation names. It is the one that is reported
when such pairs are not tolerated, and the only one. -/
def Sequence.FirstUnknown (s : Sequence) (pair : Pair) : Prop :=
  ∃ before e after, s.entries = before ++ e :: after ∧ e.pair = pair ∧ pair.opcode = .other ∧
    ∀ e' ∈ before, e'.pair.opcode ≠ .other

theorem Sequence.unknownPair?_eq_some_iff {s : Sequence} {pair : Pair} :
    s.unknownPair? = some pair ↔ s.FirstUnknown pair := by
  rw [unknownPair?, Option.map_eq_some_iff]
  constructor
  · rintro ⟨e, hfind, rfl⟩
    obtain ⟨hother, before, after, hentries, hbefore⟩ := List.find?_eq_some_iff_append.mp hfind
    refine ⟨before, e, after, hentries, rfl, eq_of_beq hother, fun e' he' hother' => ?_⟩
    simpa [hother'] using hbefore e' he'
  · rintro ⟨before, e, after, hentries, rfl, hother, hbefore⟩
    refine ⟨e, List.find?_eq_some_iff_append.mpr ⟨beq_of_eq hother, before, after, hentries,
      fun e' he' => ?_⟩, rfl⟩
    simpa using hbefore e' he'

namespace Recompiler

variable {host : Host} {r r' : Recompiler} {s : Sequence} {ignoresUnknown : Bool}

/-- Takes over the arena in which the code of a sequence was placed, and counts it. -/
def commit (s : Sequence) : Except Arena.PlacementError (Span × Arena) →
    EStateM CompileError Recompiler Block
  | .error _ => throw .exhausted
  | .ok (span, arena) => do
    modify fun r => { r with arena := arena }
    modify fun r => { r with compiled := r.compiled + 1 }
    return ⟨s.start, s.ranges, s.length, s.ending, s.toCode, span⟩

/-- Places the code of a sequence. -/
def build (host : Host) (s : Sequence) : EStateM CompileError Recompiler Block := do
  commit s ((← get).arena.place alignment (host.encode s.toCode))

/-- Compiles a sequence in place. An attempt that fails goes no further, and leaves behind what was
done up to there. -/
def attempt (host : Host) (ignoresUnknown : Bool) (s : Sequence) :
    EStateM CompileError Recompiler Block := do
  unless ignoresUnknown do
    if let some pair := s.unknownPair? then throw (.unimplemented pair)
  build host s

/-- What an attempt comes to that leaves the recompiler as it was if it fails. -/
def settle (r : Recompiler) :
    Except CompileError (Block × Recompiler) → EStateM.Result CompileError Recompiler Block
  | .ok (b, r') => .ok b r'
  | .error e => .error e r

theorem run_build : (build host s).run r = r.settle (r.compileAny host s) := by
  -- the recompiler is read once, before anything is done to it
  show (commit s (r.arena.place alignment (host.encode s.toCode))).run r = _
  rw [compileAny]
  cases r.arena.place alignment (host.encode s.toCode) with
  | error e => rfl
  | ok placed => rfl

theorem run_attempt_true : (attempt host true s).run r = r.settle (r.compileAny host s) :=
  run_build

theorem run_attempt : (attempt host r.ignoresUnknown s).run r = r.settle (r.compile host s) := by
  rw [attempt, compile]
  cases r.ignoresUnknown with
  | true =>
    cases s.unknownPair? with
    | some pair => exact run_build
    | none => exact run_build
  | false =>
    cases s.unknownPair? with
    | some pair => rfl
    | none => exact run_build

/-- What a recompiler reports of a sequence is what there is to report, and no more is left of an
attempt that fails. -/
structure Forthright (host : Host) (r : Recompiler) (s : Sequence) : Prop where
  /-- The first unknown pair is reported if such pairs are not ignored, whether or not there is room
  for the code. -/
  unimplemented_iff : ∀ pair, r.compile host s = .error (.unimplemented pair) ↔
    r.ignoresUnknown = false ∧ s.FirstUnknown pair
  /-- A sequence that is not refused is compiled as any other. -/
  compile_eq : (∀ pair, s.FirstUnknown pair → r.ignoresUnknown = true) →
    r.compile host s = r.compileAny host s
  compileAny_ne : ∀ pair, r.compileAny host s ≠ .error (.unimplemented pair)
  inPlace : (attempt host r.ignoresUnknown s).run r = r.settle (r.compile host s)
  inPlaceAny : (attempt host true s).run r = r.settle (r.compileAny host s)
  unchanged : ∀ ignoresUnknown e r', (attempt host ignoresUnknown s).run r = .error e r' → r' = r

theorem settle_eq_error {x : Except CompileError (Block × Recompiler)} {e : CompileError}
    (h : r.settle x = .error e r') : x = .error e ∧ r' = r := by
  cases x with
  | ok result => cases h
  | error e' =>
    cases h
    exact ⟨rfl, rfl⟩

/-- An attempt that fails leaves the recompiler as it was. -/
theorem eq_of_run_attempt {e : CompileError}
    (h : (attempt host ignoresUnknown s).run r = .error e r') : r' = r := by
  cases ignoresUnknown with
  | true =>
    rw [run_attempt_true] at h
    exact (settle_eq_error h).2
  | false =>
    rw [attempt] at h
    cases hunknown : s.unknownPair? with
    | some pair =>
      rw [hunknown] at h
      cases h
      rfl
    | none =>
      rw [hunknown] at h
      exact (settle_eq_error (run_build.symm.trans h)).2

theorem compileAny_ne_unimplemented (pair : Pair) :
    r.compileAny host s ≠ .error (.unimplemented pair) := by
  intro h
  cases compileAny_eq_error h

theorem compile_eq_unimplemented_iff {pair : Pair} :
    r.compile host s = .error (.unimplemented pair) ↔
      r.ignoresUnknown = false ∧ s.unknownPair? = some pair := by
  rw [compile]
  cases s.unknownPair? with
  | none => exact iff_of_false (compileAny_ne_unimplemented pair) (fun h => by cases h.2)
  | some pair' =>
    cases r.ignoresUnknown with
    | true => exact iff_of_false (compileAny_ne_unimplemented pair) (fun h => by cases h.1)
    | false => simp

theorem forthright (host : Host) (r : Recompiler) (s : Sequence) : r.Forthright host s := by
  refine ⟨fun pair => ?_, fun hnamed => ?_, compileAny_ne_unimplemented, run_attempt,
    run_attempt_true, fun _ _ _ => eq_of_run_attempt⟩
  · rw [← Sequence.unknownPair?_eq_some_iff]
    exact compile_eq_unimplemented_iff
  · rw [compile]
    split
    · case h_1 pair hunknown =>
      rw [if_pos (hnamed pair (Sequence.unknownPair?_eq_some_iff.mp hunknown))]
    · rfl

end Recompiler

namespace Processor

variable {α β : Type} {ignores : Bool}

/-- The unit with its setting changed, and with another count of the sequences tolerated. In nothing
else may the two units differ. -/
def tolerating (p : Processor) (ignores : Bool) (tolerated : Nat) : Processor :=
  { p with
    config := { p.config with ignoresUnknown := ignores }
    recompiler := { p.recompiler with ignoresUnknown := ignores }
    counters := { p.counters with tolerated := tolerated } }

/-- Two computations come to the same, up to tolerance: the second one as if the setting were
`ignores`. -/
def Alike (ignores : Bool) (x x' : Except Fault (α × Processor)) : Prop :=
  ∃ n, x' = x.map fun r => (r.1, r.2.tolerating ignores n)

namespace Alike

theorem ok (a : α) (p : Processor) (n : Nat) :
    Alike ignores (.ok (a, p)) (.ok (a, p.tolerating ignores n)) :=
  ⟨n, rfl⟩

theorem error (fault : Fault) : Alike (α := α) ignores (.error fault) (.error fault) :=
  ⟨0, rfl⟩

theorem bind {x x' : Except Fault (α × Processor)}
    {f f' : α × Processor → Except Fault (β × Processor)} (h : Alike ignores x x')
    (hf : ∀ a p n, Alike ignores (f (a, p)) (f' (a, p.tolerating ignores n))) :
    Alike ignores (x >>= f) (x' >>= f') := by
  obtain ⟨n, rfl⟩ := h
  cases x with
  | error fault => exact .error fault
  | ok r => exact hf r.1 r.2 n

/-- What does not depend on the setting comes first. -/
theorem of_bind {x : Except Fault α} {f f' : α → Except Fault (β × Processor)}
    (hf : ∀ a, Alike ignores (f a) (f' a)) : Alike ignores (x >>= f) (x >>= f') := by
  cases x with
  | error fault => exact .error fault
  | ok a => exact hf a

end Alike

section

variable (p : Processor) (ignores : Bool) (n : Nat)

/-! ### Compiling -/

/-- Compiles the sequence of live memory at an offset in place. The second attempt at a sequence
that was refused is made on what the first one has left. -/
def compileInPlace (offset : Nat) : Except Fault (Block × Processor) := do
  let sequence ← Fault.inRange (Sequence.ofMemory? p.microcode offset p.config.maxBlockLength)
  match (Recompiler.attempt p.host p.recompiler.ignoresUnknown sequence).run p.recompiler with
  | .ok b r => p.writeBlock b r 0
  | .error (.unimplemented _) r =>
    match (Recompiler.attempt p.host true sequence).run r with
    | .ok b r => p.writeBlock b r 1
    | .error _ _ => throw (.exhausted offset)
  | .error .exhausted _ => throw (.exhausted offset)

theorem compileAt_eq_inPlace (offset : Nat) : p.compileAt offset = p.compileInPlace offset := by
  rw [compileAt, compileInPlace]
  refine congrArg _ (funext fun s => ?_)
  rw [Recompiler.run_attempt]
  cases p.recompiler.compile p.host s with
  | ok result => rfl
  | error e =>
    cases e with
    | exhausted => rfl
    | unimplemented pair =>
      dsimp only [Recompiler.settle]
      rw [Recompiler.run_attempt_true]
      cases p.recompiler.compileAny p.host s with
      | ok result => rfl
      | error e => rfl

theorem alike_compileAt (offset : Nat) :
    Alike ignores (p.compileAt offset) ((p.tolerating ignores n).compileAt offset) := by
  have hhost : (p.tolerating ignores n).host = p.host := rfl
  have harena : (p.tolerating ignores n).recompiler.arena = p.recompiler.arena := rfl
  rw [compileAt_eq, compileAt_eq]
  refine .of_bind fun s => ?_
  rw [compileSequence, compileSequence, hhost, harena]
  cases p.host.place p.recompiler.arena Recompiler.alignment (p.host.encode s.toCode) with
  | ok placed => exact .ok _ _ _
  | error e =>
    cases e with
    | noPlace e => exact .error _
    | locked => exact .error _

/-! ### Lookups -/

theorem alike_blockAt (program : ProgramNumber) (offset : Nat) : Alike ignores
    (p.blockAt program offset) ((p.tolerating ignores n).blockAt program offset) := by
  refine .of_bind fun owner => ?_
  cases owner.block? offset with
  | some id => exact .ok id p n
  | none =>
    refine (alike_compileAt p ignores n offset).bind fun b p₁ n₁ => ?_
    exact .of_bind fun added => .ok added.1 { p₁ with cache := added.2 } n₁

theorem alike_enterProgram (program : ProgramNumber) (offset : Nat) : Alike ignores
    (p.enterProgram program offset) ((p.tolerating ignores n).enterProgram program offset) := by
  refine (alike_blockAt { p with stale := false, recent := some program } ignores n program
    offset).bind fun id p₁ n₁ => ?_
  refine .of_bind fun cache => .of_bind fun b => ?_
  exact .ok (Hit.mk program id b) { p₁ with cache := cache } n₁

theorem alike_matchPrograms (offset : Nat) :
    Alike ignores (p.matchPrograms offset) ((p.tolerating ignores n).matchPrograms offset) := by
  refine .of_bind fun l => ?_
  dsimp only
  cases l.found with
  | some program => exact .of_bind fun cache => .ok _ _ n
  | none => exact .of_bind fun added => .ok _ _ n

theorem alike_findBlockAt (offset : Nat) :
    Alike ignores (p.findBlockAt offset) ((p.tolerating ignores n).findBlockAt offset) := by
  refine .of_bind fun shelf => ?_
  cases shelf.shortcut with
  | some shortcut => exact alike_enterProgram _ ignores n shortcut.1 offset
  | none =>
    refine (alike_matchPrograms p ignores n offset).bind fun program p₁ n₁ => ?_
    exact alike_enterProgram p₁ ignores n₁ program offset

theorem alike_findBlock (offset : UInt32) :
    Alike ignores (p.findBlock offset) ((p.tolerating ignores n).findBlock offset) :=
  alike_findBlockAt p ignores n _

/-! ### Runs -/

theorem ensureRoom_tolerating :
    (p.tolerating ignores n).ensureRoom = p.ensureRoom.tolerating ignores n := by
  rw [ensureRoom, ensureRoom]
  split
  · case isTrue hshort =>
    rw [if_pos (show p.recompiler.arena.room < p.config.headroom from hshort)]
    rfl
  · case isFalse hroom =>
    rw [if_neg (show ¬ p.recompiler.arena.room < p.config.headroom from hroom)]

theorem alike_nextBlock (pc : UInt32) (begun : Bool) :
    Alike ignores (p.nextBlock pc begun) ((p.tolerating ignores n).nextBlock pc begun) := by
  have hrecent : (p.tolerating ignores n).recent = p.recent := rfl
  rw [nextBlock, nextBlock, hrecent]
  cases p.recent with
  | none => exact alike_findBlock p ignores n pc
  | some program =>
    cases begun with
    | true => exact alike_enterProgram p ignores n program pc.toNat
    | false => exact alike_findBlock p ignores n pc

/-- **Turn.** A turn comes to the same, whether or not unknown pairs are ignored, as all that it
compiles does. -/
theorem alike_turn (pc : UInt32) (begun : Bool) :
    Alike ignores (p.turn pc begun) ((p.tolerating ignores n).turn pc begun) := by
  rw [turn, turn, ensureRoom_tolerating]
  refine (alike_nextBlock p.ensureRoom ignores n pc begun).bind fun hit p₁ n₁ => ?_
  exact .ok hit.block.cycles (p₁.enter hit.block pc) n₁

/-- **Run.** So does a run, turn by turn. -/
theorem alike_runBlocks (budget : UInt32) (turns : Nat) (pc : UInt32) (done : Tally) :
    Alike ignores (p.runBlocks budget turns pc done)
      ((p.tolerating ignores n).runBlocks budget turns pc done) := by
  induction turns generalizing p n pc done with
  | zero => exact .ok done p n
  | succ turns ih =>
    rw [runBlocks, runBlocks]
    obtain ⟨n₁, hturn⟩ := alike_turn p ignores n pc (0 < done.blocks)
    rw [hturn]
    cases p.turn pc (0 < done.blocks) with
    | error fault => exact .error fault
    | ok result =>
      obtain ⟨cycles, p₁⟩ := result
      show Alike ignores (if p₁.registers.isStopped || _ then _ else _)
        (if p₁.registers.isStopped || _ then _ else _)
      split
      · exact .ok _ p₁ n₁
      · exact ih p₁ n₁ p₁.registers.pc _

theorem alike_execute (start budget : UInt32) :
    Alike ignores (p.execute start budget) ((p.tolerating ignores n).execute start budget) :=
  alike_runBlocks (p.beginRun _) ignores n budget _ _ .zero

/-! ### Operations -/

theorem markStale_tolerating :
    (p.tolerating ignores n).markStale = p.markStale.tolerating ignores n := by
  rw [markStale, markStale]
  show (if p.stale then _ else _) = _
  split
  · rfl
  · rfl

theorem write_tolerating (offset : UInt32) (data : List UInt8) :
    (p.tolerating ignores n).write offset data = (p.write offset data).tolerating ignores n := by
  rw [Processor.write, Processor.write]
  split
  · rfl
  · exact markStale_tolerating { p with microcode := p.microcode.write offset.toNat data } ignores n

theorem reset_tolerating (full : Bool) :
    (p.tolerating ignores n).reset full = (p.reset full).tolerating ignores n := by
  cases full <;> rfl

theorem load_tolerating (s : SaveState) :
    (p.tolerating ignores n).load s = (p.load s).map fun q => q.tolerating ignores n := by
  have hkind : (p.tolerating ignores n).config.kind = p.config.kind := rfl
  have hmark := markStale_tolerating
    { p with microcode := s.microcode, registers := s.registers } ignores n
  rw [load_eq, load_eq, hkind]
  cases s.fit p.config.kind with
  | error e => rfl
  | ok _ =>
    exact congrArg (fun q : Processor => Except.ok { q with tracking := s.tracking }) hmark

/-- **Operation.** An operation comes to the same, whether or not unknown pairs are ignored: the
same answer, or the same fault, and units that differ in their configuration and in one counter
alone. -/
theorem alike_perform (op : Operation) :
    Alike ignores (p.perform op) ((p.tolerating ignores n).perform op) := by
  cases op with
  | write offset data =>
    rw [perform, perform, write_tolerating]
    exact .ok _ _ n
  | noteChange offset size =>
    rw [perform, perform, noteChange, noteChange, markStale_tolerating]
    exact .ok _ _ n
  | reset full =>
    rw [perform, perform, reset_tolerating]
    exact .ok _ _ n
  | load s =>
    rw [perform_load, perform_load, load_tolerating]
    cases p.load s with
    | ok q => exact .ok _ q n
    | error e => exact .ok _ p n
  | setRegisters registers => exact .ok _ (p.withRegisters registers) n
  | findBlock offset =>
    exact (alike_findBlock p ignores n offset).bind fun hit q n' => .ok _ q n'
  | execute start budget =>
    exact (alike_execute p ignores n start budget).bind fun t q n' => .ok _ q n'

/-! ### Whatever is done -/

/-- Something that is done to a unit, or asked of it. Besides operations these are questions that
show numbers of programs and blocks, which have to be the same for both units. -/
inductive Action where
  | operate (op : Operation)
  /-- A block is looked up, and its numbers are asked for. -/
  | lookUp (offset : UInt32)
  /-- A stored program is asked for its block at an offset. -/
  | fetch (program : ProgramNumber) (offset : Nat)
  | save

/-- What a unit replies. Two units that take the same course give the same replies, down to the
numbers under which things are stored. -/
inductive Reply where
  | answered (a : Answer)
  | found (hit : Hit)
  | fetched (id : BlockNumber)
  | saved (s : SaveState)

/-- What an action comes to: the reply, and the unit after it. -/
def act (p : Processor) : Action → Except Fault (Reply × Processor)
  | .operate op => do
    let (a, p) ← p.perform op
    return (.answered a, p)
  | .lookUp offset => do
    let (hit, p) ← p.findBlock offset
    return (.found hit, p)
  | .fetch program offset => do
    let (id, p) ← p.blockAt program offset
    return (.fetched id, p)
  | .save => .ok (.saved p.save, p)

/-- What some actions come to one after another: the replies, each with the unit after it, and the
fault with which they end early, if they do. -/
def course (p : Processor) : List Action → List (Reply × Processor) × Option Fault
  | [] => ([], none)
  | action :: rest =>
    match p.act action with
    | .error fault => ([], some fault)
    | .ok (reply, p) => ((reply, p) :: (p.course rest).1, (p.course rest).2)

theorem alike_act (action : Action) :
    Alike ignores (p.act action) ((p.tolerating ignores n).act action) := by
  cases action with
  | operate op => exact (alike_perform p ignores n op).bind fun a q n' => .ok _ q n'
  | lookUp offset => exact (alike_findBlock p ignores n offset).bind fun hit q n' => .ok _ q n'
  | fetch program offset =>
    exact (alike_blockAt p ignores n program offset).bind fun id q n' => .ok _ q n'
  | save => exact .ok (Reply.saved p.save) p n

/-- Two units take the same course, up to tolerance: they end with the same fault or none, reply the
same, and are the same after each action but for the setting and the count of what was tolerated. -/
def SameCourse (ignores : Bool) (c c' : List (Reply × Processor) × Option Fault) : Prop :=
  c'.2 = c.2 ∧ List.Forall₂ (fun r r' => r'.1 = r.1 ∧ ∃ n, r'.2 = r.2.tolerating ignores n) c.1 c'.1

/-- **Run.** Whatever is done to them, two units that differ in their tolerance take the same
course. -/
theorem alike_course (actions : List Action) :
    SameCourse ignores (p.course actions) ((p.tolerating ignores n).course actions) := by
  induction actions generalizing p n with
  | nil => exact ⟨rfl, .nil⟩
  | cons action rest ih =>
    obtain ⟨n', hact⟩ := alike_act p ignores n action
    rw [course, course, hact]
    cases p.act action with
    | error fault => exact ⟨rfl, .nil⟩
    | ok result =>
      obtain ⟨hfault, hreplies⟩ := ih result.2 n'
      exact ⟨hfault, .cons ⟨rfl, n', rfl⟩ hreplies⟩

end

theorem create_tolerating (host : Host) (config : Config) (ignores : Bool) :
    create host { config with ignoresUnknown := ignores } =
      (create host config).map fun p => p.tolerating ignores 0 := by
  rw [create, create, Recompiler.create, Recompiler.create]
  cases Arena.reserve config.arenaSize with
  | error e => rfl
  | ok arena => rfl

/-- **Tolerance.** Two units whose configurations differ in nothing but whether unknown pairs are
ignored are both created or both not, and take the same course whatever is done to them. What their
recompilers report of a sequence is what there is to report, attempts that fail leave them as they
were, and a unit makes its attempts in place. -/
theorem alike_of_config (host : Host) (config : Config) (ignores : Bool) :
    (∀ e, create host { config with ignoresUnknown := ignores } = .error e ↔
      create host config = .error e) ∧
      (∀ p, create host config = .ok p →
        ∃ q, create host { config with ignoresUnknown := ignores } = .ok q ∧
          q = p.tolerating ignores 0 ∧
          ∀ actions, SameCourse ignores (p.course actions) (q.course actions)) ∧
      (∀ r s, Recompiler.Forthright host r s) ∧
      ∀ p offset, compileAt p offset = p.compileInPlace offset := by
  rw [create_tolerating]
  refine ⟨fun e => ?_, fun p hcreate => ?_, Recompiler.forthright host, compileAt_eq_inPlace⟩
  · cases create host config with
    | error e' => simp [Except.map]
    | ok p => simp [Except.map]
  · rw [hcreate]
    exact ⟨_, rfl, rfl, alike_course p ignores 0⟩

/-- A pair is run that no operation names. -/
def unknownRun : List Action :=
  [.operate (.write 0 (Pair.toBytes ⟨0, 0xFFFFFFFF⟩)), .operate (.execute 0 1), .save]

/-- The pair is refused in one unit and not in the other. -/
theorem alike_of_config_of_unknownRun : ∃ p q,
    create .compact { Config.standard with maxBlockLength := 1 } = .ok p ∧
      create .compact { Config.standard with maxBlockLength := 1, ignoresUnknown := true } = .ok q ∧
      ((p.course unknownRun).1.map fun r => r.2.counters.tolerated) = [0, 1, 1] ∧
      ((q.course unknownRun).1.map fun r => r.2.counters.tolerated) = [0, 0, 0] ∧
      SameCourse true (p.course unknownRun) (q.course unknownRun) := by
  obtain ⟨p, hnew, hrefused⟩ : ∃ p,
      create .compact { Config.standard with maxBlockLength := 1 } = .ok p ∧
        ((p.course unknownRun).1.map fun r => r.2.counters.tolerated) = [0, 1, 1] :=
    ⟨_, rfl, by decide +kernel⟩
  obtain ⟨q, hnew', hignored⟩ : ∃ q, create .compact
      { Config.standard with maxBlockLength := 1, ignoresUnknown := true } = .ok q ∧
        ((q.course unknownRun).1.map fun r => r.2.counters.tolerated) = [0, 0, 0] :=
    ⟨_, rfl, by decide +kernel⟩
  obtain ⟨-, hcreated, -⟩ :=
    alike_of_config .compact { Config.standard with maxBlockLength := 1 } true
  obtain ⟨q', hnew'', -, hcourse⟩ := hcreated p hnew
  obtain rfl := Except.ok.inj (hnew'.symm.trans hnew'')
  exact ⟨p, q, hnew, hnew', hrefused, hignored, hcourse unknownRun⟩

end Processor

end VectorUnit
