import VectorUnit.Processor.Uncached
import VectorUnit.Proofs.BlockExecution
import VectorUnit.Proofs.Shelving

/-!
# Lookups of vector units

A unit is sound (`Processor.Sound`) if its cache is in order and it takes no shortcut that live
memory does not bear out: as long as microcode may have changed there are no shortcuts, and
otherwise all of them, and the program found last, recognize live memory.

A lookup in a sound unit finds the code that compiling live memory at the offset gives, whichever
way it goes (`Processor.Finds`): by a shortcut, by a program that matches, by a new program, or by
the program of the block before. Each step of a lookup has one lemma, such as
`Processor.findBlock_spec` for `Processor.findBlock`, which says that it fails for want of room
only, or because the machine keeps the arena from being written (`Processor.Yields`), and what it
comes to otherwise.
-/

namespace VectorUnit

/-! ### Results -/

/-- A result that passes a test is there. -/
theorem exists_ok_of_any {ε α : Type} {x : Except ε α} {test : α → Bool}
    (h : x.toOption.any test = true) : ∃ a, x = .ok a ∧ test a = true := by
  cases x with
  | ok a => exact ⟨a, rfl, h⟩
  | error e => cases h

namespace Processor

/-- The faults to which an operation on a unit may come whatever its offsets and numbers are: the
code of a block has no room, or the machine does not let the arena of the unit be written. -/
def Excuses (p : Processor) : Fault → Prop
  | .exhausted _ => True
  | .locked => p.isUnlocked = false
  | .outOfBounds | .gaveUp | .workerLost => False

/-- An operation on a unit has a result of which `Q` holds, unless the code of a block has no room
or the machine does not let the arena of the unit be written. -/
def Yields {α : Type} (p : Processor) (x : Except Fault α) (Q : α → Prop) : Prop :=
  match x with
  | .ok a => Q a
  | .error fault => p.Excuses fault

namespace Yields

variable {α β : Type} {p p' : Processor} {x : Except Fault α} {Q R : α → Prop}

theorem mono (h : p.Yields x Q) (himp : ∀ a, Q a → R a) : p.Yields x R := by
  cases x with
  | ok a => exact himp a h
  | error fault => exact h

theorem bind {f : α → Except Fault β} {S : β → Prop} (h : p.Yields x Q)
    (hf : ∀ a, Q a → p.Yields (f a) S) : p.Yields (x >>= f) S := by
  cases x with
  | ok a => exact hf a h
  | error fault => exact h

/-- Where an operation is known to have a result, the result is what the operation comes to. -/
theorem with_eq (h : p.Yields x Q) : p.Yields x fun a => x = .ok a ∧ Q a := by
  cases x with
  | ok a => exact ⟨rfl, h⟩
  | error fault => exact h

/-- A unit whose arena may be written if that of another may has the same excuses. -/
theorem of_isUnlocked_eq (hunlocked : p'.isUnlocked = p.isUnlocked) (h : p'.Yields x Q) :
    p.Yields x Q := by
  cases x with
  | ok a => exact h
  | error fault =>
    cases fault with
    | locked => exact hunlocked.symm.trans h
    | exhausted offset => trivial
    | outOfBounds => exact h
    | gaveUp => exact h
    | workerLost => exact h

/-- A result is there, if the arena may be written and there is room. -/
theorem exists_ok (h : p.Yields x Q) (hunlocked : p.isUnlocked = true)
    (hroom : ∀ offset, x ≠ .error (.exhausted offset)) : ∃ a, x = .ok a ∧ Q a := by
  cases x with
  | ok a => exact ⟨a, rfl, h⟩
  | error fault =>
    cases fault with
    | exhausted offset => exact absurd rfl (hroom offset)
    | locked => cases hunlocked.symm.trans h
    | outOfBounds => exact h.elim
    | gaveUp => exact h.elim
    | workerLost => exact h.elim

/-- What must be there is there. -/
theorem inRange_bind {o : Option α} {a : α} {f : α → Except Fault β} {S : β → Prop}
    (h : o = some a) (hf : p.Yields (f a) S) : p.Yields (Fault.inRange o >>= f) S := by
  rw [h]
  exact hf

end Yields

variable {p : Processor} {offset : Nat}

/-! ### Sound units -/

/-- The cache of a unit is in order, and what it takes for granted is true of live memory. This is
why code that was compiled earlier may be run without looking at memory again. -/
structure Sound (p : Processor) : Prop where
  size_eq : p.microcode.size = p.config.kind.memorySize
  inOrder : p.cache.InOrder p.config.kind.memorySize p.config.maxBlockLength
  shortcuts : p.cache.ShortcutsSatisfy fun id =>
    p.stale = false ∧ p.cache.Recognizes id p.microcode
  recent : p.stale = false → ∀ id, p.recent = some id → p.cache.Recognizes id p.microcode

/-- A unit comes from another one in a way that nobody sees who does not look at the cache. It has
the same arena on the same machine, whatever is placed there. -/
structure Hidden (p p' : Processor) : Prop where
  sound : p'.Sound
  uncached_eq : p'.uncached = p.uncached
  isUnlocked_eq : p'.isUnlocked = p.isUnlocked

theorem Hidden.trans {p p' p'' : Processor} (h : p.Hidden p') (h' : p'.Hidden p'') :
    p.Hidden p'' :=
  ⟨h'.sound, h'.uncached_eq.trans h.uncached_eq, h'.isUnlocked_eq.trans h.isUnlocked_eq⟩

theorem Hidden.microcode_eq {p p' : Processor} (h : p.Hidden p') : p'.microcode = p.microcode :=
  congrArg Uncached.microcode h.uncached_eq

theorem Hidden.kind_eq {p p' : Processor} (h : p.Hidden p') : p'.config.kind = p.config.kind :=
  congrArg Uncached.kind h.uncached_eq

/-- Registers, recompiler, branch tracking and counters make no difference. -/
theorem Sound.congr (hp : p.Sound) {p' : Processor} (hmicrocode : p'.microcode = p.microcode)
    (hconfig : p'.config = p.config) (hcache : p'.cache = p.cache) (hstale : p'.stale = p.stale)
    (hrecent : p'.recent = p.recent) : p'.Sound := by
  obtain ⟨hsize, hin, hshortcuts, hfound⟩ := hp
  rw [← hmicrocode, ← hconfig] at hsize
  rw [← hconfig, ← hcache] at hin
  rw [← hmicrocode, ← hcache, ← hstale] at hshortcuts
  rw [← hmicrocode, ← hcache, ← hstale, ← hrecent] at hfound
  exact ⟨hsize, hin, hshortcuts, hfound⟩

/-- A sound unit stays sound with a cache that recognizes live memory wherever the old one does. -/
theorem Sound.withCache (hp : p.Sound) {cache : Cache}
    (hin : cache.InOrder p.config.kind.memorySize p.config.maxBlockLength)
    (hrecognizes : ∀ id, p.cache.Recognizes id p.microcode → cache.Recognizes id p.microcode)
    (hshortcuts : cache.ShortcutsSatisfy fun id =>
      p.stale = false ∧ p.cache.Recognizes id p.microcode) :
    Sound { p with cache := cache } :=
  { size_eq := hp.size_eq
    inOrder := hin
    shortcuts := hshortcuts.mono fun id h => ⟨h.1, hrecognizes id h.2⟩
    recent := fun hstale id hid => hrecognizes id (hp.recent hstale id hid) }

/-! ### Compiling blocks -/

/-- Writes the code of a sequence to the arena and counts it, with those that were tolerated if the
sequence was refused at first. -/
def compileSequence (p : Processor) (offset : Nat) (s : Sequence) :
    Except Fault (Block × Processor) :=
  match p.host.place p.recompiler.arena Recompiler.alignment (p.host.encode s.toCode) with
  | .ok (span, arena) =>
    .ok (⟨s.start, s.ranges, s.length, s.ending, s.toCode, span⟩, { p with
      recompiler := { p.recompiler with
        arena := arena
        compiled := p.recompiler.compiled + 1 }
      counters := { p.counters with
        compilations := p.counters.compilations + 1
        tolerated := p.counters.tolerated + if p.recompiler.refuses s then 1 else 0 } })
  | .error (.noPlace _) => .error (.exhausted offset)
  | .error .locked => .error .locked

/-- Whether the code may be written is asked once it has a place. -/
theorem compileSequence_eq (p : Processor) (offset : Nat) (s : Sequence) :
    p.compileSequence offset s =
      match p.recompiler.compileAny p.host s with
      | .ok (b, r) => p.writeBlock b r (if p.recompiler.refuses s then 1 else 0)
      | .error _ => .error (.exhausted offset) := by
  rw [compileSequence, Host.place, Recompiler.compileAny]
  cases p.recompiler.arena.place Recompiler.alignment (p.host.encode s.toCode) with
  | error e => rfl
  | ok placed =>
    dsimp only
    rw [writeBlock, isUnlocked]
    cases p.host.unlocks p.recompiler.arena.capacity with
    | true => rfl
    | false => rfl

/-- Compiling takes the sequence of live memory, and it makes no difference at which attempt its
code is placed. -/
theorem compileAt_eq (p : Processor) (offset : Nat) : p.compileAt offset =
    Fault.inRange (Sequence.ofMemory? p.microcode offset p.config.maxBlockLength) >>=
      p.compileSequence offset := by
  rw [compileAt]
  refine congrArg _ (funext fun s => ?_)
  rw [compileSequence_eq]
  rcases Recompiler.compile_eq p.host p.recompiler s with ⟨hrefuses, pair, hcompile⟩ |
    ⟨hrefuses, hcompile⟩
  · -- the second attempt decides
    rw [hcompile, hrefuses]
    rfl
  · rw [hcompile, hrefuses]
    cases hany : p.recompiler.compileAny p.host s with
    | ok result => rfl
    | error e =>
      rw [Recompiler.compileAny_eq_error hany]
      rfl

/-- What a sequence is compiled to, and how it leaves the unit. -/
theorem compileSequence_eq_ok {s : Sequence} {b : Block} {p' : Processor}
    (h : p.compileSequence offset s = .ok (b, p')) :
    ∃ r, p.recompiler.compileAny p.host s = .ok (b, r) ∧ p.isUnlocked = true ∧
      r.arena.capacity = p.recompiler.arena.capacity ∧
      p' = { p with
        recompiler := r
        counters := { p.counters with
          compilations := p.counters.compilations + 1
          tolerated := p.counters.tolerated + if p.recompiler.refuses s then 1 else 0 } } := by
  rw [compileSequence_eq] at h
  split at h
  · case h_1 b' r hany =>
    rw [writeBlock] at h
    split at h
    · case isTrue hunlocked =>
      obtain ⟨rfl, rfl⟩ := Prod.mk.inj (Except.ok.inj h)
      obtain ⟨arena, hplace, -, rfl⟩ := Recompiler.compileAny_eq_ok hany
      obtain ⟨-, -, -, rfl⟩ := Arena.place_eq_ok hplace
      exact ⟨_, hany, hunlocked, rfl, rfl⟩
    · cases h
  · cases h

/-- Compiling changes recompiler and counters only, and fails with an excuse if at all. -/
theorem compileAt_spec (h : p.microcode.HasPair offset) :
    p.Yields (p.compileAt offset) fun (b, p') => ∃ s recompiler counters,
      Sequence.ofMemory? p.microcode offset p.config.maxBlockLength = some s ∧ b.Renders s ∧
      p' = { p with recompiler := recompiler, counters := counters } ∧
      p'.isUnlocked = p.isUnlocked := by
  obtain ⟨s, hs, -, -⟩ := Sequence.exists_scans h p.config.maxBlockLength
  rw [compileAt_eq]
  refine Yields.inRange_bind hs ?_
  cases hcompile : p.compileSequence offset s with
  | ok result =>
    obtain ⟨r, hany, -, hcapacity, hp'⟩ := compileSequence_eq_ok hcompile
    have hunlocked : result.2.isUnlocked = p.isUnlocked := by
      rw [hp', isUnlocked, isUnlocked, hcapacity]
    exact ⟨s, r, _, hs, Recompiler.renders_of_compileAny hany, hp', hunlocked⟩
  | error fault =>
    rw [compileSequence_eq] at hcompile
    split at hcompile
    · rw [writeBlock] at hcompile
      split at hcompile
      · cases hcompile
      · case isFalse hlocked =>
        obtain rfl := Except.error.inj hcompile
        exact eq_false_of_ne_true hlocked
    · obtain rfl := Except.error.inj hcompile
      trivial

/-- The block of a program that recognizes live memory is the one compiled from it. -/
theorem blockAt_spec (hp : p.Sound) {program : ProgramNumber}
    (hprogram : p.cache.Recognizes program p.microcode) (h : p.microcode.HasPair offset) :
    p.Yields (p.blockAt program offset) fun (id, p') => p.Hidden p' ∧ p'.stale = p.stale ∧
      p'.cache.Recognizes program p'.microcode ∧
      ∃ b, p'.cache.block? id = some b ∧ p.uncached.code? offset = some b.code := by
  obtain ⟨owner, howner, hmatch⟩ := hprogram
  refine Yields.inRange_bind howner ?_
  cases hid : owner.block? offset with
  | some id =>
    -- the block is there, and it is right for every memory that the program recognizes
    have hmem : owner ∈ p.cache.programs := Array.mem_of_getElem? howner
    obtain ⟨b, hb, hall⟩ := hp.inOrder.faithful owner hmem offset id hid
    obtain ⟨s, hs, hrenders⟩ := hall p.microcode hp.size_eq hmatch
    refine ⟨⟨hp, rfl, rfl⟩, rfl, ⟨owner, howner, hmatch⟩, b, hb, ?_⟩
    rw [Uncached.code?, hrenders.code_eq]
    exact congrArg (Option.map Sequence.toCode) hs
  | none =>
    -- compiled from live memory, which the program recognizes
    refine (compileAt_spec h).bind ?_
    rintro ⟨b, p'⟩ ⟨s, recompiler, counters, hs, hrenders, rfl, hunlocked⟩
    obtain ⟨id, cache, hadd, hin, hb, hrecognizes, hshortcuts⟩ :=
      hp.inOrder.addBlock h hp.size_eq hs hrenders howner (.inr hmatch)
    refine Yields.inRange_bind hadd ?_
    have hsound := hp.withCache hin hrecognizes (hshortcuts _ hp.shortcuts)
    refine ⟨⟨hsound.congr rfl rfl rfl rfl rfl, rfl, hunlocked⟩, rfl,
      hrecognizes _ ⟨owner, howner, hmatch⟩, b, hb, ?_⟩
    rw [Uncached.code?, hrenders.code_eq]
    exact congrArg (Option.map Sequence.toCode) hs

/-! ### Finding blocks -/

/-- What a lookup comes to: nobody sees it, and the code found is that of live memory, just as if
the sequence at the offset had been compiled there and then. -/
structure Finds (p : Processor) (offset : Nat) (hit : Hit) (p' : Processor) : Prop where
  hidden : p.Hidden p'
  current : p'.stale = false
  code?_eq : p.uncached.code? offset = some hit.block.code

theorem enterProgram_spec (hp : p.Sound) {program : ProgramNumber}
    (hprogram : p.cache.Recognizes program p.microcode) (h : p.microcode.HasPair offset) :
    p.Yields (p.enterProgram program offset) fun (hit, p') => p.Finds offset hit p' := by
  have hentered : Sound { p with stale := false, recent := some program } :=
    { size_eq := hp.size_eq
      inOrder := hp.inOrder
      shortcuts := hp.shortcuts.mono fun _ h => ⟨rfl, h.2⟩
      recent := fun _ id hid => Option.some.inj hid ▸ hprogram }
  refine (Yields.of_isUnlocked_eq rfl (blockAt_spec hentered hprogram h)).bind ?_
  rintro ⟨id, p'⟩ ⟨hidden, hcurrent, hrecognizes, b, hb, hcode⟩
  have hinside : offset < p'.config.kind.memorySize := by
    rw [hidden.kind_eq]
    exact hp.size_eq ▸ h.inside
  obtain ⟨cache, hcache, hin, hblock, hsame, hshortcuts⟩ :=
    hidden.sound.inOrder.setShortcut hinside program id
  have hshortcuts' := hshortcuts _ ⟨hcurrent, hrecognizes⟩ hidden.sound.shortcuts
  have hsound := hidden.sound.withCache hin (fun id => hsame id _) hshortcuts'
  refine Yields.inRange_bind hcache (Yields.inRange_bind ((hblock id).trans hb) ?_)
  exact ⟨⟨hsound, hidden.uncached_eq, hidden.isUnlocked_eq⟩, hcurrent, hcode⟩

/-- What a unit remembers of live memory is enough to recognize it. -/
theorem recognizes_create_liveBasis (p : Processor) (serial : Nat) :
    (Program.create serial p.liveBasis).Recognizes p.microcode := by
  rw [liveBasis]
  split
  · exact Program.recognizes_create_excerpts serial p.microcode
  · exact Program.recognizes_create_image serial p.microcode _

/-- The program found among those of a shelf, or else created, recognizes live memory. -/
theorem matchPrograms_spec (hp : p.Sound) (h : offset < p.config.kind.memorySize) :
    p.Yields (p.matchPrograms offset) fun (program, p') =>
      p.Hidden p' ∧ p'.cache.Recognizes program p'.microcode := by
  obtain ⟨l, hl, hfound⟩ := hp.inOrder.lookup h p.microcode p.liveDigest?
  refine Yields.inRange_bind hl ?_
  dsimp only
  split
  · case h_1 program hprogram =>
    have hrecognizes := hfound program hprogram
    obtain ⟨cache, hcache, hin, hsame, hshortcuts⟩ := hp.inOrder.touch h hrecognizes.lt_size
    have hsound := hp.withCache hin (fun id => hsame id _) (hshortcuts _ hp.shortcuts)
    refine Yields.inRange_bind hcache ?_
    exact ⟨⟨hsound.congr rfl rfl rfl rfl rfl, rfl, rfl⟩, hsame _ _ hrecognizes⟩
  · obtain ⟨program, cache, hcache, hin, hq, hsame, hshortcuts⟩ :=
      hp.inOrder.addProgram h p.liveBasis
    have hsound := hp.withCache hin (fun id => hsame id _) (hshortcuts _ hp.shortcuts)
    refine Yields.inRange_bind hcache ?_
    exact ⟨⟨hsound.congr rfl rfl rfl rfl rfl, rfl, rfl⟩, _, hq, p.recognizes_create_liveBasis _⟩

/-- **Lookup.** What is found for an offset is the code of live memory there, whether a shortcut was
taken, a program has matched or a new one was created. -/
theorem findBlockAt_spec (hp : p.Sound) (h : p.microcode.HasPair offset) :
    p.Yields (p.findBlockAt offset) fun (hit, p') => p.Finds offset hit p' := by
  have hinside : offset < p.config.kind.memorySize := hp.size_eq ▸ h.inside
  obtain ⟨shelf, hmem, hshelf⟩ := hp.inOrder.exists_shelf hinside
  refine Yields.inRange_bind hshelf ?_
  cases hshortcut : shelf.shortcut with
  | some hit =>
    -- a shortcut that is still there leads to a program that recognizes live memory
    obtain ⟨program, id⟩ := hit
    obtain ⟨-, hprogram⟩ := hp.shortcuts shelf hmem _ hshortcut
    have hsound : Sound ((p.setReliance .presumed).count fun s =>
        { s with shortcuts := s.shortcuts + 1 }) := hp.congr rfl rfl rfl rfl rfl
    have hyields := Yields.of_isUnlocked_eq rfl (enterProgram_spec hsound hprogram h)
    refine hyields.mono fun _ found => ?_
    exact ⟨⟨found.hidden.sound, found.hidden.uncached_eq, found.hidden.isUnlocked_eq⟩,
      found.current, found.code?_eq⟩
  | none =>
    refine (matchPrograms_spec hp hinside).bind ?_
    rintro ⟨program, p'⟩ ⟨hidden, hprogram⟩
    have h' : p'.microcode.HasPair offset := hidden.microcode_eq ▸ h
    have henter := enterProgram_spec hidden.sound hprogram h'
    refine (henter.of_isUnlocked_eq hidden.isUnlocked_eq).mono fun _ found => ?_
    exact ⟨hidden.trans found.hidden, found.current, hidden.uncached_eq ▸ found.code?_eq⟩

/-- A block can be found for any number, which stands for the offset of a pair. -/
theorem findBlock_spec (hp : p.Sound) (offset : UInt32) :
    p.Yields (p.findBlock offset) fun (hit, p') =>
      p.Finds (p.config.kind.pairOffset offset) hit p' :=
  findBlockAt_spec hp (p.config.kind.hasPair_pairOffset hp.size_eq offset)

end Processor

end VectorUnit
