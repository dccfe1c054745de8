import VectorUnit.Proofs.Journal
import VectorUnit.Proofs.Turns

/-!
# Execution stays inside microcode

No run ever leaves microcode memory. Each of its turns looks up a block at the offset of a pair,
compiles nothing but the sequence at that offset, and enters a block that starts there
(`Processor.Confined`), however registers, branch tracking and microcode came to be what they are.
All offsets and numbers that a lookup asks for are there, so there are two faults only that any
operation can come to. The code of a sequence does not fit behind the cursor of the arena
(`Processor.Refuses`), or it has a place there, but the machine does not let an arena of that length
be written (`Processor.Locks`). See `Processor.confined_of_uses`.

The second fault is no mere possibility. A machine may grant an arena that is longer than all its
memory, and then a unit that has done nothing yet cannot run (`Processor.locked_of_longArena`).

The lemmas named `..._eq_error` say what a fault may be before it is known that no number is out of
bounds, which `Processor.InUse.yields_perform` and the lemmas that it rests on rule out.
-/

namespace VectorUnit

theorem Fault.inRange_eq_error {α : Type} {o : Option α} {fault : Fault}
    (h : inRange o = .error fault) : fault = .outOfBounds := by
  cases o with
  | none => exact (Except.error.inj h).symm
  | some a => cases h

namespace Processor

variable {p p' : Processor} {offset : Nat} {program : ProgramNumber} {fault : Fault}
  {Allows : Processor → ProgramNumber → Prop}

/-! ### Code that is not written -/

/-- The code of the sequence at an offset does not fit behind the cursor. The sequence is there all
the same, so it is the code region that is too short and not the memory. -/
def Refuses (p : Processor) (offset : Nat) : Prop :=
  ∃ s, Sequence.ofMemory? p.microcode offset p.config.maxBlockLength = some s ∧
    p.recompiler.arena.capacity <
      p.recompiler.arena.nextOffset Recompiler.alignment + (p.host.encode s.toCode).length

/-- The code of the sequence at an offset fits behind the cursor, but the machine does not let the
arena be written. -/
def Locks (p : Processor) (offset : Nat) : Prop :=
  p.isUnlocked = false ∧
    ∃ s, Sequence.ofMemory? p.microcode offset p.config.maxBlockLength = some s ∧
      p.recompiler.arena.nextOffset Recompiler.alignment + (p.host.encode s.toCode).length ≤
        p.recompiler.arena.capacity

/-- A lookup at an offset comes to this fault because code is not written: it does not fit, or the
machine keeps it out. -/
def Withholds (p : Processor) (offset : Nat) (fault : Fault) : Prop :=
  (fault = .exhausted offset ∧ p.Refuses offset) ∨ (fault = .locked ∧ p.Locks offset)

/-- A lookup at an offset may come to this fault: something is out of bounds, or code is not
written. -/
def FailsAt (p : Processor) (offset : Nat) (fault : Fault) : Prop :=
  fault = .outOfBounds ∨ p.Withholds offset fault

theorem FailsAt.of_inRange {α : Type} {o : Option α} (h : Fault.inRange o = .error fault) :
    p.FailsAt offset fault :=
  .inl (Fault.inRange_eq_error h)

/-- Code is asked for room before the machine is asked for leave. -/
theorem withholds_of_compileSequence {s : Sequence}
    (hs : Sequence.ofMemory? p.microcode offset p.config.maxBlockLength = some s)
    (h : p.compileSequence offset s = .error fault) : p.Withholds offset fault := by
  have hcode := p.host.encode_ne_nil s.toCode
  rw [compileSequence, Host.place_eq _ _ (by decide) hcode] at h
  by_cases hfits : p.recompiler.arena.nextOffset Recompiler.alignment +
      (p.host.encode s.toCode).length ≤ p.recompiler.arena.capacity
  · rw [if_pos hfits] at h
    cases hunlocked : p.host.unlocks p.recompiler.arena.capacity with
    | true =>
      rw [hunlocked] at h
      cases h
    | false =>
      rw [hunlocked] at h
      obtain rfl := Except.error.inj h
      exact .inr ⟨rfl, hunlocked, s, hs, hfits⟩
  · rw [if_neg hfits] at h
    obtain rfl := Except.error.inj h
    exact .inl ⟨rfl, s, hs, Nat.lt_of_not_le hfits⟩

theorem compileAt_eq_error (h : p.compileAt offset = .error fault) : p.FailsAt offset fault := by
  rw [compileAt_eq] at h
  rcases error_or_of_bind_eq_error h with hscan | ⟨s, hs, h⟩
  · exact .of_inRange hscan
  · exact .inr (withholds_of_compileSequence (Fault.inRange_eq_ok hs) h)

theorem blockAt_eq_error (h : p.blockAt program offset = .error fault) :
    p.FailsAt offset fault := by
  rcases error_or_of_bind_eq_error h with hprogram | ⟨q, -, h⟩
  · exact .of_inRange hprogram
  · split at h
    · cases h
    · rcases error_or_of_bind_eq_error h with hcompile | ⟨⟨b, p₁⟩, -, h⟩
      · exact compileAt_eq_error hcompile
      · rcases error_or_of_bind_eq_error h with hadd | ⟨_, -, h⟩
        · exact .of_inRange hadd
        · cases h

theorem enterProgram_eq_error (h : p.enterProgram program offset = .error fault) :
    p.FailsAt offset fault := by
  rcases error_or_of_bind_eq_error h with hblock | ⟨⟨id, p₁⟩, -, h⟩
  · have hfails := blockAt_eq_error hblock
    exact hfails
  · rcases error_or_of_bind_eq_error h with hcache | ⟨cache, -, h⟩
    · exact .of_inRange hcache
    · rcases error_or_of_bind_eq_error h with hblock | ⟨b, -, h⟩
      · exact .of_inRange hblock
      · cases h

theorem matchPrograms_eq_error (h : p.matchPrograms offset = .error fault) :
    fault = .outOfBounds := by
  rcases error_or_of_bind_eq_error h with hlookup | ⟨l, -, h⟩
  · exact Fault.inRange_eq_error hlookup
  · dsimp only at h
    split at h
    · rcases error_or_of_bind_eq_error h with hcache | ⟨_, -, h⟩
      · exact Fault.inRange_eq_error hcache
      · cases h
    · rcases error_or_of_bind_eq_error h with hcache | ⟨_, -, h⟩
      · exact Fault.inRange_eq_error hcache
      · cases h

theorem findBlockAt_eq_error (h : p.findBlockAt offset = .error fault) :
    p.FailsAt offset fault := by
  rcases error_or_of_bind_eq_error h with hshelf | ⟨shelf, -, h⟩
  · exact .of_inRange hshelf
  · split at h
    · have hfails := enterProgram_eq_error h
      exact hfails
    · rcases error_or_of_bind_eq_error h with hmatch | ⟨⟨program, p₁⟩, hmatch, h⟩
      · exact .inl (matchPrograms_eq_error hmatch)
      · have hfails := enterProgram_eq_error h
        obtain ⟨l, -, ⟨-, cache, -, rfl⟩ | ⟨-, cache, -, rfl⟩⟩ := matchPrograms_eq_ok hmatch
        · exact hfails
        · exact hfails

/-! ### Lookups -/

/-- A block that was found at an offset starts there, lies inside microcode and leaves to the offset
of a pair. It is stored, and its program is listed by the shelf. -/
structure Lands (q : Processor) (offset : Nat) (hit : Hit) : Prop where
  stores : q.cache.Stores offset hit
  listed : ∃ s, q.cache.shelf? offset = some s ∧ hit.program ∈ s.programs
  start_eq : hit.block.start = offset
  within : ∀ r ∈ hit.block.ranges, r.Within q.config.kind.memorySize
  exits : ∀ registers, q.microcode.HasPair (hit.block.run registers).pc.toNat

/-- A lookup of a unit that comes to `x` stays inside microcode. It is made at the offset of a pair,
a block that it finds starts there and leads inside microcode again, and it fails only if the code
of the sequence at that offset is not written. -/
structure Confined (p : Processor) (offset : Nat) (x : Except Fault (Hit × Processor)) :
    Prop where
  aligned : Pair.size ∣ offset
  inside : offset < p.config.kind.memorySize
  found : ∀ hit q, x = .ok (hit, q) → q.Lands offset hit
  failed : ∀ fault, x = .error fault → p.Withholds offset fault

/-- The ranges of a block that was compiled lie in memory. -/
theorem within_of_fits {b : Block} {memLength maxLength : Nat} (h : b.Fits memLength maxLength) :
    ∀ r ∈ b.ranges, r.Within memLength := by
  obtain ⟨m, s, rfl, hpair, hs, hb⟩ := h
  rw [hb.ranges_eq]
  exact Sequence.within_ranges hpair hs

/-- A block that is stored at an offset in a unit in use is what a lookup there may find. -/
theorem InUse.lands_of_stores (hp : p.InUse) (h : p.microcode.HasPair offset) {hit : Hit}
    (hstores : p.cache.Stores offset hit) : p.Lands offset hit := by
  have hconsistent := hp.inFile.filed.consistent
  have hfits := hp.stocked.blocks _ (Array.mem_of_getElem? hstores.block)
  obtain ⟨b, hb, hstart⟩ := hconsistent.entered _ _ _ hstores.entry
  obtain rfl := Option.some.inj (hstores.block.symm.trans hb)
  obtain ⟨s, hs⟩ := hp.stocked.exists_shelf h
  refine ⟨hstores, ⟨s, hs, (hconsistent.mem_iff _ s hs _).mpr ⟨offset, rfl, ?_⟩⟩, hstart,
    within_of_fits hfits, hfits.hasPair_run p.config.kind.memorySize_le hp.stocked.size_eq⟩
  rw [hstores.entry]
  rfl

/-- A lookup is confined if it is known to have a result, unless code is not written. -/
theorem InUse.confined (hp : p.InUse) (h : p.microcode.HasPair offset)
    {x : Except Fault (Hit × Processor)} (hyields : p.Yields x fun _ => True)
    (hfails : ∀ fault, x = .error fault → p.FailsAt offset fault)
    (hfound : ∀ hit q, x = .ok (hit, q) →
      q.InUse ∧ q.microcode = p.microcode ∧ q.cache.Stores offset hit) : p.Confined offset x := by
  refine ⟨h.aligned, hp.stocked.size_eq ▸ h.inside, fun hit q hok => ?_, fun fault herror => ?_⟩
  · obtain ⟨hq, hmicrocode, hstores⟩ := hfound hit q hok
    exact hq.lands_of_stores (hmicrocode ▸ h) hstores
  · rw [herror] at hyields
    rcases hfails _ herror with rfl | hwithheld
    · exact hyields.elim
    · exact hwithheld

theorem InUse.confined_findBlock (hp : p.InUse) (offset : UInt32) :
    p.Confined (p.config.kind.pairOffset offset) (p.findBlock offset) := by
  have h := p.config.kind.hasPair_pairOffset hp.stocked.size_eq offset
  refine hp.confined h (hp.stocked.yields_findBlockAt hp.inFile.filed h)
    (fun fault => findBlockAt_eq_error) fun hit q hfind => ?_
  have hstep : Step anyProgram p q := .find h hfind
  obtain ⟨-, hmicrocode, -⟩ := findBlockAt_fresh hfind
  exact ⟨hp.step hstep, hmicrocode, stores_findBlockAt hfind hp.inFile.filed h⟩

theorem InUse.confined_nextBlock {pc : UInt32} {begun : Bool} (hp : p.InUse)
    (h : p.microcode.HasPair pc.toNat)
    (hfresh : begun = true → ∀ id, p.recent = some id → p.stale = false) :
    p.Confined pc.toNat (p.nextBlock pc begun) := by
  have hself := p.config.kind.pairOffset_eq_self hp.stocked.size_eq h
  refine hp.confined h (hp.yields_nextBlock h begun) (fun fault hnext => ?_) fun hit q hnext => ?_
  · rw [nextBlock] at hnext
    split at hnext
    · split at hnext
      · exact enterProgram_eq_error hnext
      · exact hself ▸ findBlockAt_eq_error hnext
    · exact hself ▸ findBlockAt_eq_error hnext
  · obtain ⟨hstep, -, -, hmicrocode⟩ : Step anyProgram p q ∧ _ :=
      step_nextBlock hp.stocked h hfresh hnext
    refine ⟨hp.step hstep, hmicrocode, ?_⟩
    rw [nextBlock] at hnext
    split at hnext
    · split at hnext
      · exact stores_enterProgram hnext hp.inFile.filed h (.inl rfl)
      · exact hself ▸ stores_findBlockAt hnext hp.inFile.filed (hself ▸ h)
    · exact hself ▸ stores_findBlockAt hnext hp.inFile.filed (hself ▸ h)

/-- **Turn.** The lookup of a turn is confined: it is made at the offset of a pair, and comes to a
block that leaves to one, unless the code of a block has no room or cannot be written. -/
theorem Turn.Begins.confined {t : Turn} (ht : t.Begins Allows p) :
    t.unit.ensureRoom.Confined t.pc.toNat t.lookup := by
  have hroom : Step anyProgram t.unit t.unit.ensureRoom := .makeRoom
  exact (ht.inUse.step hroom).confined_nextBlock (t.unit.microcode_ensureRoom ▸ ht.hasPair)
    fun hbegun _ => stale_ensureRoom (ht.fresh hbegun)

/-! ### Operations -/

/-- An operation fails only where a lookup fails: in the unit itself, or in one that a run of it has
come to. -/
theorem InUse.exists_confined_of_error (hp : p.InUse) {op : Operation}
    (h : p.perform op = .error fault) : ∃ q offset x, Steps Allows p q ∧ q.Confined offset x ∧
      x = .error fault := by
  cases op with
  | write offset data => cases h
  | noteChange offset size => cases h
  | reset full => cases h
  | load s =>
    rw [perform_load] at h
    split at h
    · cases h
    · cases h
  | setRegisters registers => cases h
  | findBlock offset =>
    rcases error_or_of_bind_eq_error h with hfind | ⟨_, -, h⟩
    · exact ⟨p, _, _, .refl, hp.confined_findBlock offset, hfind⟩
    · cases h
  | execute start budget =>
    rcases error_or_of_bind_eq_error h with hrun | ⟨_, -, h⟩
    · obtain ⟨t, hlast, hlookup⟩ := exists_turn_of_error hrun
      have ht : t.Begins Allows p := hp.begins_turns start budget t (List.mem_of_getLast? hlast)
      exact ⟨_, _, _, ht.steps.tail .makeRoom, ht.confined, hlookup⟩
    · cases h

/-- The lookups of a run are confined, and they are all there is to it: it takes as many turns as it
counts blocks, or ends with the turn whose lookup fails. -/
structure Contained (p : Processor) (start budget : UInt32) : Prop where
  confined : ∀ t ∈ p.turns start budget, p.config.kind.pairOffset t.pc = t.pc.toNat ∧
    t.unit.ensureRoom.Confined t.pc.toNat t.lookup
  length_eq : ∀ tally q, p.execute start budget = .ok (tally, q) →
    tally.blocks = (p.turns start budget).length
  fails_last : ∀ fault, p.execute start budget = .error fault →
    ∃ t, (p.turns start budget).getLast? = some t ∧ t.lookup = .error fault

theorem InUse.contained (hp : p.InUse) (start budget : UInt32) : p.Contained start budget := by
  refine ⟨fun t ht => ?_, fun tally q => length_turns, fun fault => exists_turn_of_error⟩
  have hbegins : t.Begins anyProgram p := hp.begins_turns start budget t ht
  have hself := t.unit.config.kind.pairOffset_eq_self hbegins.inUse.stocked.size_eq hbegins.hasPair
  exact ⟨config_steps hbegins.steps ▸ hself, hbegins.confined⟩

/-- An operation abandons a unit because code is not written: that of the sequence at the offset of
a pair, and in the unit as it is by then. -/
def Abandons (p : Processor) (fault : Fault) : Prop :=
  ∃ q offset, Steps anyProgram p q ∧ Pair.size ∣ offset ∧ offset < p.config.kind.memorySize ∧
    q.Withholds offset fault

theorem InUse.abandons (hp : p.InUse) {op : Operation} (h : p.perform op = .error fault) :
    p.Abandons fault := by
  obtain ⟨q, offset, x, hsteps, hconfined, hx⟩ : ∃ q offset x, Steps anyProgram p q ∧ _ :=
    hp.exists_confined_of_error h
  exact ⟨q, offset, hsteps, hconfined.aligned, config_steps hsteps ▸ hconfined.inside,
    hconfined.failed fault hx⟩

/-- Where the arena may be written, want of room is all that an operation can fail for. -/
theorem Abandons.exists_exhausted (h : p.Abandons fault) (hunlocked : p.isUnlocked = true) :
    ∃ offset, fault = .exhausted offset := by
  obtain ⟨q, offset, hsteps, -, -, ⟨rfl, -⟩ | ⟨-, hlocked, -⟩⟩ := h
  · exact ⟨offset, rfl⟩
  · rw [← isUnlocked_steps hsteps, hlocked] at hunlocked
    cases hunlocked

/-- **Confinement.** Whatever was done to a new unit, lookups from outside and all lookups of runs
stay inside microcode. An operation fails only because the code of the sequence at the offset of a
pair is not written, and only for want of room where the machine lets an arena of that length be
written. On a reset the dispatcher is always put back into its place. -/
theorem confined_of_uses {host : Host} {config : Config} (hcreate : create host config = .ok p)
    (h : Uses anyProgram p p') :
    (∀ offset, p'.Confined (p'.config.kind.pairOffset offset) (p'.findBlock offset)) ∧
      (∀ start budget, p'.Contained start budget) ∧
      (∀ op fault, p'.perform op = .error fault → p'.Abandons fault) ∧
      (host.unlocks (max config.arenaSize Arena.minLength) = true →
        ∀ op fault, p'.perform op = .error fault → ∃ offset, fault = .exhausted offset) ∧
      ∀ full, Dispatcher.place p'.host p'.dispatcher.slot =
        .ok ((p'.reset full).dispatcher.span, (p'.reset full).dispatcher.slot) := by
  have hp' : p'.InUse := (inUse_create hcreate).uses h
  refine ⟨hp'.confined_findBlock, hp'.contained, fun op fault => hp'.abandons,
    fun hunlocks op fault hfault => ?_, fun full => ?_⟩
  · have hunlocked : p'.isUnlocked = true := (isUnlocked_of_uses hcreate h).trans hunlocks
    exact (hp'.abandons hfault).exists_exhausted hunlocked
  · rw [Dispatcher.place_slot_eq]
    cases full with
    | true => rfl
    | false => rfl

/-- A jump through a register that leads far outside microcode. -/
def wildJump (p : Processor) : Processor :=
  (p.write 0 (Pair.ofLower (Statement.word (.jr 1))).toBytes).withRegisters
    (p.registers.write 1 0xFE00)

theorem uses_wildJump (p : Processor) : Uses anyProgram p p.wildJump :=
  .tail (.single (.perform (show p.perform (.write 0 _) = .ok (.done, _) from rfl)))
    (.perform (show (p.write 0 _).perform (.setRegisters _) = .ok (.done, _) from rfl))

/-- The run is started far outside microcode, and its blocks jump there. -/
theorem confined_of_wildJump : ∃ p, create .compact .standard = .ok p ∧
    Uses anyProgram p p.wildJump ∧
      (p.wildJump.turns 0xFFFFF003 3).map Turn.pc = [0, 0] ∧
      p.wildJump.Contained 0xFFFFF003 3 ∧
      ∀ op fault, p.wildJump.perform op = .error fault → ∃ offset, fault = .exhausted offset := by
  obtain ⟨p, hnew, hok⟩ : ∃ p, create .compact .standard = .ok p ∧
      ((p.wildJump.turns 0xFFFFF003 3).map Turn.pc == [0, 0]) = true :=
    ⟨_, rfl, by decide +kernel⟩
  obtain ⟨-, hruns, -, hexhausted, -⟩ := confined_of_uses hnew p.uses_wildJump
  exact ⟨p, hnew, p.uses_wildJump, eq_of_beq hok, hruns 0xFFFFF003 3, hexhausted rfl⟩

/-- A configuration that asks for more room for host code than a machine has memory. -/
def longArena : Config :=
  { Config.standard with arenaSize := 1 <<< 44 }

/-- The arena is granted, but the first block cannot be written to it, and that is not for want of
room. -/
theorem locked_of_longArena : ∃ p, create .compact longArena = .ok p ∧
    Uses anyProgram p p.wildJump ∧ p.wildJump.perform (.execute 0 8) = .error .locked ∧
      ∀ offset, Fault.locked ≠ .exhausted offset := by
  obtain ⟨p, hnew, hlocked⟩ : ∃ p, create .compact longArena = .ok p ∧
      (p.wildJump.perform (.execute 0 8)).map (fun _ => ()) = .error .locked :=
    ⟨_, rfl, by decide +kernel⟩
  refine ⟨p, hnew, p.uses_wildJump, ?_, nofun⟩
  cases hrun : p.wildJump.perform (.execute 0 8) with
  | ok result =>
    rw [hrun] at hlocked
    cases hlocked
  | error fault =>
    rw [hrun] at hlocked
    exact congrArg Except.error (Except.error.inj hlocked)

end Processor

end VectorUnit
