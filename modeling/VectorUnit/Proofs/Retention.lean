import VectorUnit.Proofs.Consistency

/-!
# What is stored stays stored

A unit forgets programs on a reset and on a flush, all of them at once, and counts both
(`Counters.forgettings`). While that count stands still nothing is lost, whatever is done to the
unit: programs keep their numbers and have all that they had, blocks keep their numbers, and no
shelf loses a program (`Cache.Keeps`). Programs that were given nothing but bytes of a memory go on
recognizing it (`Cache.Keeps.recognizes_iff`).

Each step keeps all or is counted (`Processor.keeps_step`), and so does each run of steps
(`Processor.keeps_of_steps`).
-/

namespace VectorUnit

/-- The number of times that all programs were forgotten, by a reset or for want of room. -/
def Counters.forgettings (s : Counters) : Nat :=
  s.flushes + s.resets

/-- All that a program has been given since it was another one are bytes that a memory holds. So it
recognizes that memory if it did before. -/
def Program.GainsFrom (q' q : Program) (m : Memory) : Prop :=
  ∀ e ∈ q'.excerpts, e ∈ q.excerpts ∨ e.matchesMemory m = true

/-- A program that recognizes a memory goes on doing so as long as it is given nothing but bytes of
that memory. If it compares whole images, then what it is given makes no difference. -/
theorem Program.GrowsInto.recognizes_iff {q q' : Program} {m : Memory} (h : q.GrowsInto q')
    (hm : q.Recognizes m) : q'.Recognizes m ↔ (q.basis = .excerpts → q'.GainsFrom q m) := by
  rw [Recognizes, matchesMemory] at hm ⊢
  rw [h.basis_eq]
  cases hbasis : q.basis with
  | image image digest =>
    rw [hbasis] at hm
    exact ⟨fun _ hexcerpts => (by cases hexcerpts), fun _ => hm⟩
  | excerpts =>
    rw [hbasis] at hm
    refine List.all_eq_true.trans ⟨fun hall _ e he => .inr (hall e he), fun hgains e he => ?_⟩
    rcases hgains rfl e he with hold | hnew
    · exact List.all_eq_true.mp hm e hold
    · exact hnew

namespace Cache

/-- A cache later on, with all that was stored before: programs may have grown, blocks are as they
were, and no program has left the list of a shelf. -/
structure Keeps (c c' : Cache) : Prop where
  programs : ∀ id q, c.program? id = some q → ∃ q', c'.program? id = some q' ∧ q.GrowsInto q'
  blocks : ∀ id b, c.block? id = some b → c'.block? id = some b
  members : ∀ (i : Nat) (s : Shelf), c.shelves[i]? = some s →
    ∃ s' : Shelf, c'.shelves[i]? = some s' ∧ s.programs ⊆ s'.programs

variable {c c' c'' : Cache} {offset : Nat} {program : ProgramNumber}

namespace Keeps

theorem refl (c : Cache) : c.Keeps c where
  programs _ q hq := ⟨q, hq, .refl q⟩
  blocks _ _ hb := hb
  members _ s hs := ⟨s, hs, List.Subset.refl _⟩

theorem trans (h : c.Keeps c') (h' : c'.Keeps c'') : c.Keeps c'' := by
  refine ⟨fun id q hq => ?_, fun id b hb => h'.blocks id b (h.blocks id b hb), fun i s hs => ?_⟩
  · obtain ⟨q', hq', hgrows⟩ := h.programs id q hq
    obtain ⟨q'', hq'', hgrows'⟩ := h'.programs id q' hq'
    exact ⟨q'', hq'', hgrows.trans hgrows'⟩
  · obtain ⟨s', hs', hsubset⟩ := h.members i s hs
    obtain ⟨s'', hs'', hsubset'⟩ := h'.members i s' hs'
    exact ⟨s'', hs'', List.Subset.trans hsubset hsubset'⟩

/-- A shelf that is changed and loses no program. -/
private theorem members_modify {shelves : Array Shelf} {k : Nat} {f : Shelf → Shelf}
    (hf : ∀ s : Shelf, s.programs ⊆ (f s).programs) (i : Nat) (s : Shelf)
    (hs : shelves[i]? = some s) :
    ∃ s' : Shelf, (shelves.modify k f)[i]? = some s' ∧ s.programs ⊆ s'.programs := by
  rw [Array.getElem?_modify, hs]
  split
  · exact ⟨f s, rfl, hf s⟩
  · exact ⟨s, rfl, List.Subset.refl _⟩

theorem modifyShelf {f : Shelf → Shelf} (h : c.modifyShelf offset f = some c')
    (hf : ∀ s : Shelf, s.programs ⊆ (f s).programs) : c.Keeps c' := by
  obtain ⟨-, rfl⟩ := modifyShelf_eq_some h
  exact ⟨(refl c).programs, (refl c).blocks, members_modify hf⟩

theorem setShortcut {id : BlockNumber} (h : c.setShortcut offset program id = some c') :
    c.Keeps c' :=
  modifyShelf h fun _ => List.Subset.refl _

theorem touch (h : c.touch offset program = some c') : c.Keeps c' :=
  modifyShelf h fun s _ hid => (s.mem_touch program _).mpr (.inr hid)

theorem dropShortcuts (c : Cache) : c.Keeps c.dropShortcuts := by
  refine ⟨(refl c).programs, (refl c).blocks, fun i s hs => ⟨s.setShortcut none, ?_, ?_⟩⟩
  · rw [Cache.dropShortcuts, Array.getElem?_map, hs]
    rfl
  · exact List.Subset.refl _

theorem addProgram {basis : Program.Basis} (h : c.addProgram offset basis = some (program, c')) :
    c.Keeps c' := by
  obtain ⟨-, rfl, rfl⟩ := addProgram_eq_some h
  refine ⟨fun id q hq => ⟨q, ?_, .refl q⟩, fun _ _ hb => hb, ?_⟩
  · have hlt := (Array.getElem?_eq_some_iff.mp hq).1
    rw [program?, Array.getElem?_push, if_neg (Nat.ne_of_lt hlt)]
    exact hq
  · exact members_modify fun s => List.subset_cons_self _ _

theorem addBlock {q : Program} {b : Block} {m : Memory} {id : BlockNumber}
    (hq : c.program? program = some q) (hnone : q.block? offset = none)
    (h : c.addBlock program offset b m = some (id, c')) : c.Keeps c' := by
  obtain ⟨-, -, rfl, rfl⟩ := addBlock_eq_some h
  refine ⟨fun id' q' hq' => ?_, fun id' b' hb' => ?_, ?_⟩
  · rw [program?, Array.getElem?_modify, show c.programs[id'.value]? = some q' from hq']
    split
    · case isTrue heq =>
      -- the program that is given the block has none there yet
      rw [program?, heq] at hq
      obtain rfl := Option.some.inj (hq.symm.trans hq')
      exact ⟨_, rfl, .addBlock hnone _ _ _⟩
    · exact ⟨q', rfl, .refl q'⟩
  · have hlt := (Array.getElem?_eq_some_iff.mp hb').1
    rw [block?, Array.getElem?_push, if_neg (Nat.ne_of_lt hlt)]
    exact hb'
  · refine members_modify fun s => ?_
    rw [Shelf.enlist]
    split
    · exact List.Subset.refl _
    · exact List.subset_cons_self _ _

/-- A block stays the block of its program at its offset. -/
theorem blockOf? (h : c.Keeps c') {id : BlockNumber}
    (hentry : c.blockOf? program offset = some id) : c'.blockOf? program offset = some id := by
  obtain ⟨q, hq, hid⟩ := exists_program_of_blockOf? hentry
  obtain ⟨q', hq', hgrows⟩ := h.programs program q hq
  exact (blockOf?_eq hq' offset).trans (hgrows.blocks offset id hid)

/-- Whether a program that recognized a memory still does so depends on what it has been given. -/
theorem recognizes_iff (h : c.Keeps c') {q : Program} {m : Memory}
    (hq : c.program? program = some q) (hm : q.Recognizes m) :
    ∃ q', c'.program? program = some q' ∧
      (c'.Recognizes program m ↔ (q.basis = .excerpts → q'.GainsFrom q m)) := by
  obtain ⟨q', hq', hgrows⟩ := h.programs program q hq
  refine ⟨q', hq', Iff.trans ?_ (hgrows.recognizes_iff hm)⟩
  constructor
  · rintro ⟨q'', hq'', hrecognizes⟩
    obtain rfl := Option.some.inj (hq''.symm.trans hq')
    exact hrecognizes
  · exact fun hrecognizes => ⟨q', hq', hrecognizes⟩

end Keeps

/-- A block that a lookup may find at an offset is stored, both under the entry of its program and
under its number. It stays so as long as nothing is forgotten. -/
structure Stores (c : Cache) (offset : Nat) (hit : Processor.Hit) : Prop where
  entry : c.blockOf? hit.program offset = some hit.id
  block : c.block? hit.id = some hit.block

theorem Stores.of_keeps {hit : Processor.Hit} (hc : c.Stores offset hit) (h : c.Keeps c') :
    c'.Stores offset hit :=
  ⟨h.blockOf? hc.entry, h.blocks _ _ hc.block⟩

end Cache

namespace Processor

variable {p p' p'' : Processor} {offset : Nat} {program : ProgramNumber}
  {Allows : Processor → ProgramNumber → Prop}

/-- A unit later on, with all that was stored before, and without having forgotten programs
meanwhile. -/
structure Keeps (p p' : Processor) : Prop where
  cache : p.cache.Keeps p'.cache
  forgettings_eq : p'.counters.forgettings = p.counters.forgettings

namespace Keeps

theorem refl (p : Processor) : p.Keeps p :=
  ⟨.refl _, rfl⟩

theorem trans (h : p.Keeps p') (h' : p'.Keeps p'') : p.Keeps p'' :=
  ⟨h.cache.trans h'.cache, h'.forgettings_eq.trans h.forgettings_eq⟩

end Keeps

/-! ### Lookups -/

theorem keeps_blockAt {id : BlockNumber} (hblock : p.blockAt program offset = .ok (id, p')) :
    p.Keeps p' := by
  obtain ⟨q, hq, ⟨-, rfl⟩ | ⟨hnone, b, p₁, cache, hcompile, hadd, rfl⟩⟩ := blockAt_eq_ok hblock
  · exact .refl _
  · obtain ⟨s, r, -, -, rfl⟩ := compileAt_eq_ok hcompile
    exact ⟨.addBlock hq hnone hadd, rfl⟩

theorem keeps_enterProgram {hit : Hit} (henter : p.enterProgram program offset = .ok (hit, p')) :
    p.Keeps p' := by
  obtain ⟨p₁, cache, hblock, hcache, -, -, rfl⟩ := enterProgram_eq_ok henter
  have hkeeps := keeps_blockAt hblock
  exact ⟨hkeeps.cache.trans (.setShortcut hcache), hkeeps.forgettings_eq⟩

theorem keeps_matchPrograms (hmatch : p.matchPrograms offset = .ok (program, p')) :
    p.Keeps p' := by
  obtain ⟨l, -, ⟨-, cache, hcache, rfl⟩ | ⟨-, cache, hcache, rfl⟩⟩ := matchPrograms_eq_ok hmatch
  · exact ⟨.touch hcache, rfl⟩
  · exact ⟨.addProgram hcache, rfl⟩

theorem keeps_findBlockAt {hit : Hit} (hfind : p.findBlockAt offset = .ok (hit, p')) :
    p.Keeps p' := by
  obtain ⟨shelf, -, ⟨program, id, -, henter⟩ | ⟨-, program, p₁, hmatch, henter⟩⟩ :=
    findBlockAt_eq_ok hfind
  · have hkeeps := keeps_enterProgram henter
    exact ⟨hkeeps.cache, hkeeps.forgettings_eq⟩
  · exact (keeps_matchPrograms hmatch).trans (keeps_enterProgram henter)

theorem keeps_nextBlock {pc : UInt32} {begun : Bool} {hit : Hit}
    (hnext : p.nextBlock pc begun = .ok (hit, p')) : p.Keeps p' := by
  rw [nextBlock] at hnext
  split at hnext
  · split at hnext
    · exact keeps_enterProgram hnext
    · exact keeps_findBlockAt hnext
  · exact keeps_findBlockAt hnext

/-- What is found is stored. -/
theorem stores_enterProgram {awaited : Option (ProgramNumber × Nat)} {hit : Hit}
    (henter : p.enterProgram program offset = .ok (hit, p')) (hp : p.cache.Filed awaited)
    (h : p.microcode.HasPair offset)
    (hawaited : awaited = none ∨ awaited = some (program, offset / Shelf.span)) :
    p'.cache.Stores offset hit := by
  obtain ⟨p₁, cache, hblock, hcache, hb, rfl, rfl⟩ := enterProgram_eq_ok henter
  obtain ⟨-, hentry⟩ := filed_blockAt hblock hp h hawaited
  exact ⟨(Cache.Keeps.setShortcut hcache).blockOf? hentry, hb⟩

theorem stores_findBlockAt {hit : Hit} (hfind : p.findBlockAt offset = .ok (hit, p'))
    (hp : p.cache.Filed none) (h : p.microcode.HasPair offset) : p'.cache.Stores offset hit := by
  obtain ⟨shelf, -, ⟨program, id, -, henter⟩ | ⟨-, program, p₁, hmatch, henter⟩⟩ :=
    findBlockAt_eq_ok hfind
  · exact stores_enterProgram henter hp h (.inl rfl)
  · obtain ⟨awaited, hfiled, hawaited⟩ := filed_matchPrograms hp hmatch
    obtain ⟨hmicrocode, -⟩ := matchPrograms_keeps hmatch
    exact stores_enterProgram henter hfiled (hmicrocode ▸ h) hawaited

/-! ### Steps -/

/-- There is room, or all programs are forgotten, which is counted. -/
theorem ensureRoom_cases (p : Processor) :
    p.ensureRoom = p ∨ p.counters.forgettings < p.ensureRoom.counters.forgettings := by
  rw [ensureRoom]
  split
  · refine .inr ?_
    show p.counters.flushes + p.counters.resets < p.counters.flushes + 1 + p.counters.resets
    omega
  · exact .inl rfl

theorem forgettings_reset (p : Processor) (full : Bool) :
    p.counters.forgettings < (p.reset full).counters.forgettings := by
  rw [reset]
  split <;> exact Nat.lt_succ_self _

/-- **Step.** Every step keeps all that is stored, or is counted among those that forget it. So
equal counts of forgettings say that everything is still there. -/
theorem keeps_step (h : Step Allows p p') :
    p.Keeps p' ∨ p.counters.forgettings < p'.counters.forgettings := by
  cases h with
  | change m hsize =>
    refine .inl ?_
    rw [markStale]
    split
    · exact ⟨.refl _, rfl⟩
    · exact ⟨.dropShortcuts _, rfl⟩
  | setRegisters registers => exact .inl ⟨.refl _, rfl⟩
  | setTracking tracking => exact .inl ⟨.refl _, rfl⟩
  | reset full => exact .inr (p.forgettings_reset full)
  | begin pc => exact .inl ⟨.refl _, rfl⟩
  | makeRoom =>
    rcases p.ensureRoom_cases with hroom | hforgets
    · rw [hroom]
      exact .inl (.refl p)
    · exact .inr hforgets
  | find h hfind => exact .inl (keeps_findBlockAt hfind)
  | chain hrecent hfresh h henter => exact .inl (keeps_enterProgram henter)
  | run pc hb =>
    rw [Processor.enter, count]
    exact .inl ⟨.refl _, rfl⟩
  | fetch hallows h hfetch => exact .inl (keeps_blockAt hfetch)

/-- **Run.** What is stored stays stored as long as no forgetting is counted, and the count never
goes back. -/
theorem keeps_of_steps (h : Steps Allows p p') :
    p.Keeps p' ∨ p.counters.forgettings < p'.counters.forgettings := by
  induction h with
  | refl => exact .inl (.refl p)
  | tail _ hstep ih =>
    rcases ih, keeps_step hstep with ⟨hkeeps | hforgets, hkeeps' | hforgets'⟩
    · exact .inl (hkeeps.trans hkeeps')
    · exact .inr (hkeeps.forgettings_eq ▸ hforgets')
    · exact .inr (hkeeps'.forgettings_eq ▸ hforgets)
    · exact .inr (Nat.lt_trans hforgets hforgets')

theorem forgettings_le_of_steps (h : Steps Allows p p') :
    p.counters.forgettings ≤ p'.counters.forgettings := by
  rcases keeps_of_steps h with hkeeps | hforgets
  · exact Nat.le_of_eq hkeeps.forgettings_eq.symm
  · exact Nat.le_of_lt hforgets

/-- If no forgetting is counted from before some steps until after some more, then none is in either
part. -/
theorem forgettings_eq_of_steps (h : Steps Allows p p') (h' : Steps Allows p' p'')
    (hkept : p''.counters.forgettings = p.counters.forgettings) :
    p'.counters.forgettings = p.counters.forgettings ∧
      p''.counters.forgettings = p'.counters.forgettings := by
  have hle := forgettings_le_of_steps h
  have hle' := forgettings_le_of_steps h'
  exact ⟨Nat.le_antisymm (hkept ▸ hle') hle, Nat.le_antisymm (hkept ▸ hle) hle'⟩

/-- Whatever is done to a unit, what it stores stays stored as long as no forgetting is counted. -/
theorem Stocked.keeps_of_uses (hp : p.Stocked) (h : Uses Allows p p')
    (hkept : p'.counters.forgettings = p.counters.forgettings) : p.Keeps p' := by
  rcases keeps_of_steps (hp.steps_of_uses h) with hkeeps | hforgets
  · exact hkeeps
  · exact absurd hkept (Nat.ne_of_gt hforgets)

end Processor

end VectorUnit
