import VectorUnit.Instruction.Assembly
import VectorUnit.Proofs.Trails
import VectorUnit.Proofs.Vouching

/-!
# Finding programs again

A lookup without a shortcut compares the programs that the shelf lists one by one, up to the first
that matches live memory (`Processor.Selects`), and creates one if and only if none does
(`Processor.Stocked.findBlockAt_creates`). So once an offset was looked up, another lookup in the
same shelf under the same microcode creates no program as long as the one found then still matches,
whatever was in memory in between and whatever was done to the unit, short of forgetting programs.

Where whole images are compared, that is always so (`Processor.finds_image_again`): an image is
never given up, and digests only save comparisons. Where excerpts are compared, it depends on what
the program was given in between (`Processor.finds_excerpts_again`). While other microcode is in
memory, which the program happens to match as well, it may be given blocks of that microcode, and
does not match the old one any more when it is back (`Processor.creates_again_of_borrowedBlock`).
-/

namespace VectorUnit

/-- An operation looks up the block at an offset: it asks for it, or it begins a run there. Later
blocks of a run are looked up only if programs were forgotten before them. -/
def Operation.LooksUp (op : Operation) (start : UInt32) : Prop :=
  op = .findBlock start ∨ ∃ budget, op = .execute start budget

namespace Cache

variable {c c' : Cache} {offset : Nat} {program : ProgramNumber}

/-- A shelf lists the programs of the blocks that are entered there. -/
theorem Consistent.mem_of_entry (hc : c.Consistent) {s : Shelf} {id : BlockNumber}
    (hshelf : c.shelf? offset = some s) (hentry : c.blockOf? program offset = some id) :
    program ∈ s.programs :=
  (hc.mem_iff _ s hshelf program).mpr ⟨offset, rfl, by rw [hentry]; rfl⟩

/-- The image by which a program recognizes memory, if it does so by one. -/
def imageOf? (c : Cache) (id : ProgramNumber) : Option Memory :=
  (c.program? id).bind Program.image?

end Cache

namespace Processor

variable {p p' p'' : Processor} {offset : Nat} {program : ProgramNumber}

/-! ### Creating programs -/

/-- No program was created, and the counts say so. The number of programs, the serial number that is
due and the counter go together. -/
structure CreatesNone (p p' : Processor) : Prop where
  size_eq : p'.cache.programs.size = p.cache.programs.size
  nextSerial_eq : p'.cache.nextSerial = p.cache.nextSerial
  creations_eq : p'.counters.creations = p.counters.creations

/-- One program was created, which has the serial number that was due. Serial numbers are not used
again, so it is told apart from all programs before it, also from those forgotten since. -/
structure Creates (p p' : Processor) (program : ProgramNumber) : Prop where
  value_eq : program.value = p.cache.programs.size
  serial : ∃ q, p'.cache.program? program = some q ∧ q.serial = p.cache.nextSerial
  size_eq : p'.cache.programs.size = p.cache.programs.size + 1
  nextSerial_eq : p'.cache.nextSerial = p.cache.nextSerial + 1
  creations_eq : p'.counters.creations = p.counters.creations + 1

namespace CreatesNone

theorem refl (p : Processor) : p.CreatesNone p :=
  ⟨rfl, rfl, rfl⟩

theorem trans (h : p.CreatesNone p') (h' : p'.CreatesNone p'') : p.CreatesNone p'' :=
  ⟨h'.size_eq.trans h.size_eq, h'.nextSerial_eq.trans h.nextSerial_eq,
    h'.creations_eq.trans h.creations_eq⟩

theorem not_creates (h : p.CreatesNone p') : ¬ p.Creates p' program := fun h' =>
  Nat.ne_of_lt (Nat.lt_succ_self _) (h.creations_eq.symm.trans h'.creations_eq)

end CreatesNone

/-- What is done without creating programs leaves the one created before as it is. -/
theorem Creates.trans (h : p.Creates p' program) (hkeeps : p'.cache.Keeps p''.cache)
    (h' : p'.CreatesNone p'') : p.Creates p'' program := by
  obtain ⟨q, hq, hserial⟩ := h.serial
  obtain ⟨q', hq', hgrows⟩ := hkeeps.programs program q hq
  exact ⟨h.value_eq, ⟨q', hq', hgrows.serial_eq.trans hserial⟩, h'.size_eq.trans h.size_eq,
    h'.nextSerial_eq.trans h.nextSerial_eq, h'.creations_eq.trans h.creations_eq⟩

theorem createsNone_enterProgram {hit : Hit}
    (henter : p.enterProgram program offset = .ok (hit, p')) : p.CreatesNone p' := by
  obtain ⟨p₁, cache, hblock, hcache, -, -, rfl⟩ := enterProgram_eq_ok henter
  obtain ⟨-, rfl⟩ := Cache.modifyShelf_eq_some hcache
  obtain ⟨q, -, ⟨-, rfl⟩ | ⟨-, b, p₂, cache', hcompile, hadd, rfl⟩⟩ := blockAt_eq_ok hblock
  · exact ⟨rfl, rfl, rfl⟩
  · obtain ⟨s, r, -, -, rfl⟩ := compileAt_eq_ok hcompile
    obtain ⟨-, -, -, rfl⟩ := Cache.addBlock_eq_some hadd
    exact ⟨Array.size_modify .., rfl, rfl⟩

theorem createsNone_enter (p : Processor) (b : Block) (pc : UInt32) :
    p.CreatesNone (p.enter b pc) := by
  rw [enter, count]
  exact ⟨rfl, rfl, rfl⟩

/-- Going on with one program creates none. -/
theorem Chained.createsNone {visits : List Visit} (h : Chained program p visits p') :
    p.CreatesNone p' := by
  induction h with
  | stop p => exact .refl p
  | @next p q p' hit pc visits _ henter _ ih =>
    exact ((createsNone_enterProgram henter).trans (createsNone_enter q hit.block pc)).trans ih

/-! ### Comparing programs -/

/-- The first program of a list that matches live memory was found, after some that do not. The rest
of the list was not looked at, as the number of comparisons shows. -/
structure FindsFirst (p p' : Processor) (program : ProgramNumber) (before : List ProgramNumber) :
    Prop where
  misses : ∀ id ∈ before, ¬ p.Matches id
  found : p.Matches program
  comparisons_eq : p'.counters.comparisons = p.counters.comparisons + (before.length + 1)
  createsNone : p.CreatesNone p'

/-- No program of a list matches live memory, so all were compared and one was created. There is no
other way in which a lookup comes to a new program. -/
structure FindsNone (p p' : Processor) (program : ProgramNumber) (ids : List ProgramNumber) :
    Prop where
  misses : ∀ id ∈ ids, ¬ p.Matches id
  comparisons_eq : p'.counters.comparisons = p.counters.comparisons + ids.length
  creates : p.Creates p' program

/-- A unit has come to a program by comparing those of a list with live memory one by one, from the
front. The list is split at the program found, or has been gone through. -/
inductive Selects (p p' : Processor) (program : ProgramNumber) : List ProgramNumber → Prop where
  | found {before : List ProgramNumber} (after : List ProgramNumber)
      (h : p.FindsFirst p' program before) : Selects p p' program (before ++ program :: after)
  | missed {ids : List ProgramNumber} (h : p.FindsNone p' program ids) : Selects p p' program ids

/-- A program that compares as different does not match. -/
theorem not_matches_of_comparesAs
    (h : p.cache.ComparesAs p.microcode p.liveDigest? program false) : ¬ p.Matches program := by
  rintro ⟨q, hq, hmatches, -⟩
  obtain ⟨q', hq', hdiffers⟩ := h
  obtain rfl := Option.some.inj (hq'.symm.trans hq)
  rw [hmatches] at hdiffers
  cases hdiffers

theorem Stocked.matches_of_comparesAs (hp : p.Stocked)
    (h : p.cache.ComparesAs p.microcode p.liveDigest? program true) : p.Matches program := by
  obtain ⟨q, hq, hmatches⟩ := h
  exact hp.matches ⟨q, hq, Program.recognizes_of_matchesMemory hmatches⟩

theorem Stocked.selects_matchPrograms (hp : p.Stocked)
    (hmatch : p.matchPrograms offset = .ok (program, p')) {s : Shelf}
    (hshelf : p.cache.shelf? offset = some s) : p.Selects p' program s.programs := by
  obtain ⟨l, hl, hresult⟩ := matchPrograms_eq_ok hmatch
  obtain ⟨s', hshelf', hscans⟩ := Cache.scans_of_lookup hl
  obtain rfl := Option.some.inj (hshelf'.symm.trans hshelf)
  generalize s'.programs = ids at hscans ⊢
  cases hscans with
  | found after hmisses hmatches =>
    obtain ⟨hfound, cache, hcache, rfl⟩ | ⟨hmissed, -⟩ := hresult
    · obtain rfl := Option.some.inj hfound
      obtain ⟨-, rfl⟩ := Cache.modifyShelf_eq_some hcache
      refine .found after ⟨fun id hid => ?_, hp.matches_of_comparesAs hmatches, rfl, rfl, rfl, rfl⟩
      exact not_matches_of_comparesAs (hmisses id hid)
    · cases hmissed
  | missed hmisses =>
    obtain ⟨hfound, -⟩ | ⟨-, cache, hcache, rfl⟩ := hresult
    · cases hfound
    · obtain ⟨-, rfl, rfl⟩ := Cache.addProgram_eq_some hcache
      refine .missed ⟨fun id hid => not_matches_of_comparesAs (hmisses id hid), rfl, ?_⟩
      exact ⟨rfl, ⟨_, Array.getElem?_push_size, rfl⟩, Array.size_push .., rfl, rfl⟩

/-- Entering the program that was selected compares no more programs. -/
theorem Selects.enterProgram {ids : List ProgramNumber} {hit : Hit}
    (h : p.Selects p' program ids) (henter : p'.enterProgram program offset = .ok (hit, p'')) :
    p.Selects p'' program ids := by
  obtain ⟨compilations, tolerated, hcounters⟩ := counters_enterProgram henter
  have hcompared : p''.counters.comparisons = p'.counters.comparisons := by rw [hcounters]
  have hentered := createsNone_enterProgram henter
  cases h with
  | found after h =>
    exact .found after ⟨h.misses, h.found, hcompared.trans h.comparisons_eq,
      h.createsNone.trans hentered⟩
  | missed h =>
    exact .missed ⟨h.misses, hcompared.trans h.comparisons_eq,
      h.creates.trans (keeps_enterProgram henter).cache hentered⟩

/-- **Lookup.** A lookup without a shortcut selects a program by comparing those of the shelf. What
it comes to is all there in the counters and in the list that it leaves. -/
theorem Stocked.selects_findBlockAt {hit : Hit} (hp : p.Stocked)
    (hfind : p.findBlockAt offset = .ok (hit, p')) {s : Shelf}
    (hshelf : p.cache.shelf? offset = some s) (hnone : s.shortcut = none) :
    p.Selects p' hit.program s.programs := by
  obtain ⟨s', hs', ⟨program, id, hshortcut, -⟩ | ⟨-, program, p₁, hmatch, henter⟩⟩ :=
    findBlockAt_eq_ok hfind
  · obtain rfl := Option.some.inj (hs'.symm.trans hshelf)
    rw [hnone] at hshortcut
    cases hshortcut
  · have hselects := (hp.selects_matchPrograms hmatch hshelf).enterProgram henter
    rwa [program_enterProgram henter]

/-- A lookup without a shortcut creates a program exactly where none of those that the shelf lists
matches live memory. -/
theorem Stocked.findBlockAt_creates {hit : Hit} (hp : p.Stocked)
    (hfind : p.findBlockAt offset = .ok (hit, p')) {s : Shelf}
    (hshelf : p.cache.shelf? offset = some s) (hnone : s.shortcut = none) :
    ((∃ id ∈ s.programs, p.Matches id) ∧ hit.program ∈ s.programs ∧ p.CreatesNone p') ∨
      ((∀ id ∈ s.programs, ¬ p.Matches id) ∧ p.Creates p' hit.program) := by
  have hselects := hp.selects_findBlockAt hfind hshelf hnone
  generalize s.programs = ids at hselects ⊢
  cases hselects with
  | @found before after h =>
    have hmem : hit.program ∈ before ++ hit.program :: after := List.mem_append_cons_self
    exact .inl ⟨⟨hit.program, hmem, h.found⟩, hmem, h.createsNone⟩
  | missed h => exact .inr ⟨h.misses, h.creates⟩

/-- A lookup with a shortcut goes to a program that the shelf lists, and creates none. -/
theorem createsNone_of_shortcut {hit : Hit} (hc : p.cache.Consistent)
    (hfind : p.findBlockAt offset = .ok (hit, p')) {s : Shelf}
    (hshelf : p.cache.shelf? offset = some s) (hsome : s.shortcut ≠ none) :
    hit.program ∈ s.programs ∧ p.CreatesNone p' := by
  obtain ⟨s', hs', ⟨program, id, hshortcut, henter⟩ | ⟨hnone, -⟩⟩ := findBlockAt_eq_ok hfind
  · obtain rfl := Option.some.inj (hs'.symm.trans hshelf)
    have hentered := createsNone_enterProgram henter
    obtain rfl := program_enterProgram henter
    refine ⟨(hc.shortcut _ s' hs' _ id hshortcut).1, ?_⟩
    exact ⟨hentered.size_eq, hentered.nextSerial_eq, hentered.creations_eq⟩
  · obtain rfl := Option.some.inj (hs'.symm.trans hshelf)
    exact absurd hnone hsome

/-- In a stocked unit, matching live memory is the same with and without its digest. -/
theorem Stocked.matches_iff (hp : p.Stocked) :
    p.Matches program ↔ p.cache.Recognizes program p.microcode := by
  constructor
  · rintro ⟨q, hq, hmatches, -⟩
    exact ⟨q, hq, Program.recognizes_of_matchesMemory hmatches⟩
  · exact hp.matches

/-- The program found last recognizes live memory as long as nothing is written. -/
theorem InUse.recognizes_recent (hp : p.InUse) (hfresh : p.stale = false)
    (hrecent : p.recent = some program) : p.cache.Recognizes program p.microcode := by
  obtain ⟨id, hid, hrecognizes⟩ := hp.fresh.recent hfresh
  obtain rfl := Option.some.inj (hid.symm.trans hrecent)
  exact hrecognizes

/-- Programs recognize memory by excerpts in units which are configured so. -/
theorem Stocked.basis_eq_excerpts_iff (hp : p.Stocked) {q : Program}
    (hq : p.cache.program? program = some q) :
    q.basis = .excerpts ↔ p.config.matchMode = .byExcerpts := by
  have hbasis := (hp.programs q (Array.mem_of_getElem? hq)).basis
  cases hmode : p.config.matchMode with
  | byExcerpts =>
    rw [hmode] at hbasis
    exact iff_of_true hbasis rfl
  | byImage =>
    rw [hmode] at hbasis
    obtain ⟨image, hbasis⟩ := hbasis
    exact iff_of_false (fun hexcerpts => by cases hbasis.symm.trans hexcerpts) fun h => by cases h

/-! ### Operations that look up -/

variable {op : Operation} {a : Answer} {start : UInt32}

/-- An operation that looks up a block, and forgets nothing, goes on with the program found. -/
theorem InUse.exists_lookup (hp : p.InUse) (hlooks : op.LooksUp start)
    (h : p.perform op = .ok (a, p'))
    (hkept : p'.counters.forgettings = p.counters.forgettings) :
    ∃ (p₀ : Processor) (hit : Hit) (q : Processor),
      p₀.InUse ∧ p₀.StoresAs p ∧ p.CreatesNone p₀ ∧
        p₀.findBlockAt (p.config.kind.pairOffset start) = .ok (hit, q) ∧ q.Keeps p' ∧
        q.CreatesNone p' ∧ p'.recent = some hit.program ∧ p'.stale = false ∧
        p'.microcode = p.microcode := by
  rcases hlooks with rfl | ⟨budget, rfl⟩
  · obtain ⟨⟨hit, q⟩, hfind, h⟩ := exists_of_bind_eq_ok h
    obtain ⟨-, rfl⟩ := Prod.mk.inj (Except.ok.inj h)
    obtain ⟨hstale, hmicrocode, -⟩ := findBlockAt_fresh hfind
    exact ⟨p, hit, q, hp, ⟨rfl, rfl, rfl, rfl, rfl, rfl⟩, .refl p, hfind, .refl q, .refl q,
      recent_findBlockAt hfind, hstale, hmicrocode⟩
  · obtain ⟨⟨t, p₁⟩, hrun, h⟩ := exists_of_bind_eq_ok h
    obtain ⟨-, rfl⟩ := Prod.mk.inj (Except.ok.inj h)
    obtain ⟨hit, q, rest, -, hfind, -, hchained⟩ := hp.stocked.exists_opening hrun hkept
    have hbegin : Step anyProgram p (p.beginRun (p.startPc start)) := .begin _
    have hrecent := recent_findBlockAt hfind
    obtain ⟨hstale, hmicrocode, -⟩ := findBlockAt_fresh hfind
    obtain ⟨hrecent', hstale', hmicrocode'⟩ := hchained.fresh hrecent hstale
    have hsame := microcode_enter q hit.block (p.startPc start)
    have hran := keeps_enter q hit.block (p.startPc start)
    have hran' := createsNone_enter q hit.block (p.startPc start)
    rw [toNat_startPc] at hfind
    exact ⟨_, hit, q, hp.step hbegin, ⟨rfl, rfl, rfl, rfl, rfl, rfl⟩, ⟨rfl, rfl, rfl⟩, hfind,
      hran.trans hchained.keeps, hran'.trans hchained.createsNone, hrecent', hstale',
      (hmicrocode'.trans hsame).trans hmicrocode⟩

/-- The program of a lookup is listed in the shelf afterwards, and recognizes live memory. -/
theorem InUse.exists_listed (hp : p.InUse) (hlooks : op.LooksUp start)
    (h : p.perform op = .ok (a, p'))
    (hkept : p'.counters.forgettings = p.counters.forgettings) : ∃ program s,
      p'.recent = some program ∧ p'.cache.shelf? (p.config.kind.pairOffset start) = some s ∧
        program ∈ s.programs ∧ p'.cache.Recognizes program p'.microcode ∧
        p'.microcode = p.microcode := by
  obtain ⟨p₀, hit, q, hp₀, hstores, -, hfind, hkeeps, -, hrecent, hstale, hmicrocode⟩ :=
    hp.exists_lookup hlooks h hkept
  have hp' : p'.InUse := hp.of_perform h
  have hpair : p.microcode.HasPair (p.config.kind.pairOffset start) :=
    p.config.kind.hasPair_pairOffset hp.stocked.size_eq start
  obtain ⟨s, hs⟩ := hp'.stocked.exists_shelf (hmicrocode.symm ▸ hpair)
  have hstored : q.cache.Stores (p.config.kind.pairOffset start) hit :=
    stores_findBlockAt hfind hp₀.inFile.filed (hstores.microcode_eq.symm ▸ hpair)
  exact ⟨hit.program, s, hrecent, hs, hp'.inFile.filed.consistent.mem_of_entry hs
    (hstored.of_keeps hkeeps.cache).entry, hp'.recognizes_recent hstale hrecent, hmicrocode⟩

/-- A lookup creates no program if one of those that the shelf lists recognizes live memory. -/
theorem InUse.createsNone_of_recognizes (hp : p.InUse) (hlooks : op.LooksUp start)
    (h : p.perform op = .ok (a, p')) (hkept : p'.counters.forgettings = p.counters.forgettings)
    {s : Shelf} (hshelf : p.cache.shelf? (p.config.kind.pairOffset start) = some s)
    (hmem : program ∈ s.programs) (hrecognizes : p.cache.Recognizes program p.microcode) :
    p.CreatesNone p' ∧ ∃ found ∈ s.programs, p'.recent = some found ∧ p'.Matches found := by
  obtain ⟨p₀, hit, q, hp₀, hstores, hnone, hfind, -, hnone', hrecent, hstale, -⟩ :=
    hp.exists_lookup hlooks h hkept
  have hp' : p'.InUse := hp.of_perform h
  have hmatches' := hp'.stocked.matches (hp'.recognizes_recent hstale hrecent)
  have hshelf₀ : p₀.cache.shelf? (p.config.kind.pairOffset start) = some s :=
    hstores.cache_eq.symm ▸ hshelf
  have hfound : hit.program ∈ s.programs ∧ p₀.CreatesNone q := by
    by_cases hshortcut : s.shortcut = none
    · have hmatches₀ : p₀.Matches program := by
        rw [hp₀.stocked.matches_iff, hstores.cache_eq, hstores.microcode_eq]
        exact hrecognizes
      rcases hp₀.stocked.findBlockAt_creates hfind hshelf₀ hshortcut with ⟨-, hfound⟩ |
        ⟨hmisses, -⟩
      · exact hfound
      · exact absurd hmatches₀ (hmisses program hmem)
    · exact createsNone_of_shortcut hp₀.inFile.filed.consistent hfind hshelf₀ hshortcut
  exact ⟨(hnone.trans hfound.2).trans hnone', hit.program, hfound.1, hrecent, hmatches'⟩

/-- A lookup has a result, unless the code of a block has no room or the machine does not let the
arena be written, and it creates no program if one of those that the shelf lists matches live
memory. -/
theorem InUse.yields_createsNone (hp : p.InUse) (hlooks : op.LooksUp start) {s : Shelf}
    (hshelf : p.cache.shelf? (p.config.kind.pairOffset start) = some s)
    (hmem : program ∈ s.programs) (hmatches : p.Matches program) :
    p.Yields (p.perform op) fun (_, p') => p'.counters.forgettings = p.counters.forgettings →
      p.CreatesNone p' ∧ ∃ found ∈ s.programs, p'.recent = some found ∧ p'.Matches found := by
  refine (hp.yields_perform op).with_eq.mono ?_
  rintro ⟨a, p'⟩ ⟨h, -⟩ hkept
  exact hp.createsNone_of_recognizes hlooks h hkept hshelf hmem (hp.stocked.matches_iff.mp hmatches)

/-- **Run.** After a lookup and anything else that forgets no programs, the program that the lookup
found is still listed in the shelf. When the same microcode is in memory again the program matches
it, if it compares whole images, and otherwise exactly if it was given nothing but bytes of that
microcode. If it matches, then no lookup in that shelf creates a program. -/
theorem InUse.exists_listed_after {p₁ p₂ p₃ : Processor} (hp : p₁.InUse) (hlooks : op.LooksUp start)
    (hop : p₁.perform op = .ok (a, p₂)) (huses : Uses anyProgram p₂ p₃)
    (hsame : p₃.microcode = p₁.microcode)
    (hkept : p₃.counters.forgettings = p₁.counters.forgettings) :
    ∃ (program : ProgramNumber) (q q' : Program) (s : Shelf), p₂.recent = some program ∧
      p₂.cache.program? program = some q ∧ p₃.cache.program? program = some q' ∧
      p₃.cache.shelf? (p₁.config.kind.pairOffset start) = some s ∧ program ∈ s.programs ∧
      (p₃.Matches program ↔
        (p₁.config.matchMode = .byExcerpts → q'.GainsFrom q p₁.microcode)) ∧
      (p₃.Matches program → ∀ op' start', op'.LooksUp start' →
        p₁.config.kind.pairOffset start' / Shelf.span =
          p₁.config.kind.pairOffset start / Shelf.span →
        p₃.Yields (p₃.perform op') fun (_, p₄) =>
          p₄.counters.forgettings = p₃.counters.forgettings →
          p₃.CreatesNone p₄ ∧ ∃ found ∈ s.programs, p₄.recent = some found ∧ p₄.Matches found) := by
  have hfirst : Steps anyProgram p₁ p₂ := steps_perform hp.stocked hop
  have hp₂ := hp.steps hfirst
  have hlater := hp₂.stocked.steps_of_uses huses
  have hp₃ := hp₂.steps hlater
  obtain ⟨hkept₁, hkept₂⟩ := forgettings_eq_of_steps hfirst hlater hkept
  obtain ⟨program, s, hrecent, hs, hmem, ⟨q, hq, hm⟩, hmicrocode⟩ :=
    hp.exists_listed hlooks hop hkept₁
  have hkeeps := (hp₂.stocked.keeps_of_uses huses hkept₂).cache
  obtain ⟨s', hs', hsubset⟩ := hkeeps.members _ s hs
  obtain ⟨q', hq', hiff⟩ := hkeeps.recognizes_iff hq hm
  rw [hp₂.stocked.basis_eq_excerpts_iff hq, config_steps hfirst, hmicrocode, ← hsame,
    ← hp₃.stocked.matches_iff, hsame] at hiff
  refine ⟨program, q, q', s', hrecent, hq, hq', hs', hsubset hmem, hiff, ?_⟩
  intro hmatches op' start' hlooks' hnear
  have hshelf' : p₃.cache.shelf? (p₃.config.kind.pairOffset start') = some s' := by
    rw [Cache.shelf?, config_steps hlater, config_steps hfirst, hnear]
    exact hs'
  exact hp₃.yields_createsNone hlooks' hshelf' (hsubset hmem) hmatches

/-- Writes a pair into memory that is zero, does something else, and takes the pair back. -/
def detour (pair : Pair) (op : Operation) (p : Processor) : Except Fault Processor := do
  let (_, q) ← (p.write 64 pair.toBytes).perform op
  return q.write 64 (Pair.toBytes ⟨0, 0⟩)

theorem uses_detour {pair : Pair} (h : p.detour pair op = .ok p') : Uses anyProgram p p' := by
  obtain ⟨⟨a, q⟩, hop, h⟩ := exists_of_bind_eq_ok h
  obtain rfl := Except.ok.inj h
  have hwritten : Uses anyProgram p (p.write 64 pair.toBytes) :=
    .single (.perform (show p.perform (.write 64 _) = .ok (.done, _) from rfl))
  exact (hwritten.tail (.perform hop)).tail
    (.perform (show q.perform (.write 64 _) = .ok (.done, _) from rfl))

/-! ### Whole images -/

/-- Where whole images are compared, a program matches live memory if that is its image. -/
theorem Stocked.matches_iff_imageOf? (hp : p.Stocked) (hmode : p.config.matchMode = .byImage) :
    p.Matches program ↔ p.cache.imageOf? program = some p.microcode := by
  constructor
  · rintro ⟨q, hq, -, himage⟩
    rw [hmode] at himage
    obtain ⟨digest, hbasis⟩ := himage
    rw [Cache.imageOf?, hq, Option.bind_some, Program.image?, hbasis]
  · intro himage
    obtain ⟨q, hq, himage⟩ := Option.bind_eq_some_iff.mp himage
    exact hp.matches ⟨q, hq, Program.recognizes_of_image? himage⟩

/-- What a lookup without a shortcut finds has live memory as its image, and is new exactly if no
program that the shelf lists has. -/
theorem InUse.findBlock_image (hp : p.InUse) (hmode : p.config.matchMode = .byImage)
    (offset : UInt32) {s : Shelf}
    (hshelf : p.cache.shelf? (p.config.kind.pairOffset offset) = some s)
    (hnone : s.shortcut = none) :
    p.Yields (p.findBlock offset) fun (hit, p') =>
      p'.cache.imageOf? hit.program = some p.microcode ∧
        (p.Creates p' hit.program ↔
          ∀ id ∈ s.programs, p.cache.imageOf? id ≠ some p.microcode) ∧
        (p.CreatesNone p' ↔ ∃ id ∈ s.programs, p.cache.imageOf? id = some p.microcode) := by
  have hpair := p.config.kind.hasPair_pairOffset hp.stocked.size_eq offset
  refine (hp.stocked.yields_findBlockAt hp.inFile.filed hpair).with_eq.mono ?_
  rintro ⟨hit, p'⟩ ⟨hfind, -⟩
  have hfound : Step anyProgram p p' := .find hpair hfind
  obtain ⟨hstale, hmicrocode, -⟩ := findBlockAt_fresh hfind
  have hp' := hp.step hfound
  have hrecognizes := hp'.recognizes_recent hstale (recent_findBlockAt hfind)
  have hmatches : p'.Matches hit.program := hp'.stocked.matches hrecognizes
  rw [hp'.stocked.matches_iff_imageOf? (config_step hfound ▸ hmode), hmicrocode] at hmatches
  have hcreates := hp.stocked.findBlockAt_creates hfind hshelf hnone
  simp only [hp.stocked.matches_iff_imageOf? hmode] at hcreates
  refine ⟨hmatches, ?_⟩
  rcases hcreates with ⟨⟨id, hid, himage⟩, -, hnone'⟩ | ⟨hdiffers, hnew⟩
  · refine ⟨iff_of_false hnone'.not_creates fun hall => hall id hid himage, ?_⟩
    exact iff_of_true hnone' ⟨id, hid, himage⟩
  · refine ⟨iff_of_true hnew hdiffers, iff_of_false (fun hnone' => hnone'.not_creates hnew) ?_⟩
    rintro ⟨id, hid, himage⟩
    exact hdiffers id hid himage

/-- **Whole images.** Where whole images are compared, a lookup without a shortcut finds a program
whose image is live memory, and creates one if and only if the shelf lists none, whatever the
digests are. So after a lookup under some microcode, any other lookup in the same shelf under the
same microcode creates no program, whatever was done in between, as long as no programs are
forgotten. -/
theorem finds_image_again {host : Host} {config : Config} {p₁ : Processor}
    (hcreate : create host config = .ok p) (hmode : config.matchMode = .byImage)
    (h : Uses anyProgram p p₁) :
    (∀ offset s, p₁.cache.shelf? (config.kind.pairOffset offset) = some s → s.shortcut = none →
      p₁.Yields (p₁.findBlock offset) fun (hit, p₂) =>
        p₂.cache.imageOf? hit.program = some p₁.microcode ∧
          (p₁.Creates p₂ hit.program ↔
            ∀ id ∈ s.programs, p₁.cache.imageOf? id ≠ some p₁.microcode) ∧
          (p₁.CreatesNone p₂ ↔ ∃ id ∈ s.programs, p₁.cache.imageOf? id = some p₁.microcode)) ∧
      ∀ op start a p₂ p₃ op' start', op.LooksUp start → p₁.perform op = .ok (a, p₂) →
        Uses anyProgram p₂ p₃ → p₃.microcode = p₁.microcode →
        p₃.counters.forgettings = p₁.counters.forgettings → op'.LooksUp start' →
        config.kind.pairOffset start' / Shelf.span = config.kind.pairOffset start / Shelf.span →
        p₃.Yields (p₃.perform op') fun (_, p₄) =>
          p₄.counters.forgettings = p₃.counters.forgettings → p₃.CreatesNone p₄ := by
  have hp₁ := (inUse_create hcreate).uses h
  obtain rfl : p₁.config = config := config_of_uses hcreate h
  refine ⟨fun offset s => hp₁.findBlock_image hmode offset, ?_⟩
  intro op start a p₂ p₃ op' start' hlooks hop huses hsame hkept hlooks' hnear
  obtain ⟨program, q, q', s, -, -, -, -, -, hiff, hagain⟩ :=
    hp₁.exists_listed_after hlooks hop huses hsame hkept
  -- a program of this mode has an image, so it does not matter what it was given
  have hmatches : p₃.Matches program := hiff.mpr fun hexcerpts => by
    rw [hmode] at hexcerpts
    cases hexcerpts
  exact (hagain hmatches op' start' hlooks' hnear).mono fun _ hnone hkept' => (hnone hkept').1

/-- A host whose digest is a single byte, so that many images have the same. -/
def samplingHost : Host :=
  { Host.compact with digest := fun m => (m.byte 64).toUInt64 }

/-- The detour creates a program, and the image from before it is found again. -/
theorem finds_image_again_of_detour : ∃ p p₁ hit p₂ p₃,
    create samplingHost { Config.standard with matchMode := .byImage } = .ok p ∧
      Uses anyProgram p p₁ ∧ p₁.findBlock 0 = .ok (hit, p₂) ∧
      p₂.cache.imageOf? hit.program = some p₁.microcode ∧ p₁.Creates p₂ hit.program ∧
      Uses anyProgram p₂ p₃ ∧ p₃.microcode = p₁.microcode ∧ p₃.cache.programs.size = 2 ∧
      p₃.Yields (p₃.perform (.execute 8 1)) fun (_, p₄) =>
        p₄.counters.forgettings = p₃.counters.forgettings → p₃.CreatesNone p₄ := by
  obtain ⟨p, p₁, hnew, hwrite, hempty, hok⟩ : ∃ p p₁,
      create samplingHost { Config.standard with matchMode := .byImage } = .ok p ∧
        p.perform (.write 0 (Pair.programEnd.toBytes ++ Pair.programEnd.toBytes)) =
          .ok (.done, p₁) ∧
        p₁.cache.shelf? 0 = some .empty ∧
        (p₁.findBlock 0).toOption.any (fun r =>
          (r.2.detour .nop (.findBlock 8)).toOption.any fun p₃ =>
            p₃.microcode.toList == p₁.microcode.toList &&
              p₃.counters.forgettings = p₁.counters.forgettings &&
              p₃.cache.programs.size = 2) = true :=
    ⟨_, _, rfl, rfl, by decide +kernel, by decide +kernel⟩
  obtain ⟨⟨hit, p₂⟩, hfind, hok⟩ := exists_ok_of_any hok
  obtain ⟨p₃, hdetour, hok⟩ := exists_ok_of_any hok
  simp only [Bool.and_eq_true, decide_eq_true_iff, beq_iff_eq] at hok
  obtain ⟨⟨hbytes, hkept⟩, hsize⟩ := hok
  have huses : Uses anyProgram p p₁ := .single (.perform hwrite)
  have hsame : p₃.microcode = p₁.microcode := congrArg Memory.mk (Array.toList_inj.mp hbytes)
  have hlooked : p₁.perform (.findBlock 0) = .ok (.found hit.block.code, p₂) := by
    rw [perform, hfind]
    rfl
  obtain ⟨hfinds, hagain⟩ := finds_image_again hnew rfl huses
  have hfound := hfinds 0 .empty hempty rfl
  rw [hfind] at hfound
  obtain ⟨himage, hcreates, -⟩ := hfound
  refine ⟨p, p₁, hit, p₂, p₃, hnew, huses, hfind, himage, ?_, uses_detour hdetour, hsame, hsize, ?_⟩
  · exact hcreates.mpr fun id hid => by cases hid
  · exact hagain _ 0 _ p₂ p₃ (.execute 8 1) 8 (.inl rfl) hlooked (uses_detour hdetour) hsame hkept
      (.inr ⟨1, rfl⟩) rfl

/-! ### Excerpts -/

/-- **Excerpts.** Where excerpts are compared, the program that a lookup found under some microcode
is still listed in the shelf after whatever else forgets no programs, and matches the same microcode
again exactly if it was given nothing but bytes of that microcode in between. If so, another lookup
in the same shelf goes to a listed program that matches, and creates none. -/
theorem finds_excerpts_again {host : Host} {config : Config} {p₁ p₂ p₃ : Processor}
    (hcreate : create host config = .ok p) (hmode : config.matchMode = .byExcerpts)
    (h : Uses anyProgram p p₁) (hlooks : op.LooksUp start) (hop : p₁.perform op = .ok (a, p₂))
    (huses : Uses anyProgram p₂ p₃) (hsame : p₃.microcode = p₁.microcode)
    (hkept : p₃.counters.forgettings = p₁.counters.forgettings) :
    ∃ (program : ProgramNumber) (q q' : Program) (s : Shelf), p₂.recent = some program ∧
      p₂.cache.program? program = some q ∧ p₃.cache.program? program = some q' ∧
      p₃.cache.shelf? (config.kind.pairOffset start) = some s ∧ program ∈ s.programs ∧
      (p₃.Matches program ↔ q'.GainsFrom q p₁.microcode) ∧
      (q'.GainsFrom q p₁.microcode → ∀ op' start', op'.LooksUp start' →
        config.kind.pairOffset start' / Shelf.span = config.kind.pairOffset start / Shelf.span →
        p₃.Yields (p₃.perform op') fun (_, p₄) =>
          p₄.counters.forgettings = p₃.counters.forgettings →
          p₃.CreatesNone p₄ ∧ ∃ found ∈ s.programs, p₄.recent = some found ∧ p₄.Matches found) := by
  have hp₁ := (inUse_create hcreate).uses h
  obtain rfl : p₁.config = config := config_of_uses hcreate h
  obtain ⟨program, q, q', s, hrecent, hq, hq', hshelf, hmem, hiff, hagain⟩ :=
    hp₁.exists_listed_after hlooks hop huses hsame hkept
  have hiff' : p₃.Matches program ↔ q'.GainsFrom q p₁.microcode :=
    hiff.trans (forall_prop_of_true hmode)
  exact ⟨program, q, q', s, hrecent, hq, hq', hshelf, hmem, hiff', fun hgains =>
    hagain (hiff'.mpr hgains)⟩

/-- In the detour the program is given a block at its second pair, from the same bytes as before. -/
theorem finds_excerpts_again_of_detour : ∃ p p₁ a p₂ p₃ program q q' a' p₄,
    create .compact .standard = .ok p ∧ Uses anyProgram p p₁ ∧
      p₁.perform (.findBlock 0) = .ok (a, p₂) ∧ Uses anyProgram p₂ p₃ ∧
      p₃.microcode = p₁.microcode ∧ p₂.recent = some program ∧
      p₂.cache.program? program = some q ∧ p₃.cache.program? program = some q' ∧
      q.excerpts.length < q'.excerpts.length ∧ q'.GainsFrom q p₁.microcode ∧
      p₃.Matches program ∧ p₃.perform (.execute 8 1) = .ok (a', p₄) ∧ p₃.CreatesNone p₄ := by
  obtain ⟨p, p₁, hnew, hwrite, hok⟩ : ∃ p p₁, create .compact .standard = .ok p ∧
      p.perform (.write 0 (Pair.programEnd.toBytes ++ Pair.programEnd.toBytes)) =
        .ok (.done, p₁) ∧
      (p₁.perform (.findBlock 0)).toOption.any (fun r =>
        (r.2.detour .nop (.findBlock 8)).toOption.any fun p₃ =>
          p₃.microcode.toList == p₁.microcode.toList &&
            p₃.counters.forgettings = p₁.counters.forgettings &&
            (r.2.recent.any fun program => (r.2.cache.program? program).any fun q =>
              (p₃.cache.program? program).any fun q' =>
                q.excerpts.length < q'.excerpts.length &&
                  q'.excerpts.all fun e => e ∈ q.excerpts || e.matchesMemory p₁.microcode) &&
            (p₃.perform (.execute 8 1)).toOption.any fun r' =>
              r'.2.counters.forgettings = p₃.counters.forgettings) = true :=
    ⟨_, _, rfl, rfl, by decide +kernel⟩
  obtain ⟨⟨a, p₂⟩, hfind, hok⟩ := exists_ok_of_any hok
  obtain ⟨p₃, hdetour, hok⟩ := exists_ok_of_any hok
  simp only [Bool.and_eq_true, decide_eq_true_iff, beq_iff_eq] at hok
  obtain ⟨⟨⟨hbytes, hkept⟩, hgained⟩, hok⟩ := hok
  simp only [Option.any_eq_true, Bool.and_eq_true, decide_eq_true_iff] at hgained
  obtain ⟨program, hrecent, q, hq, q', hq', hlonger, hgains⟩ := hgained
  obtain ⟨⟨a', p₄⟩, hop, hkept'⟩ := exists_ok_of_any hok
  have huses : Uses anyProgram p p₁ := .single (.perform hwrite)
  have hsame : p₃.microcode = p₁.microcode := congrArg Memory.mk (Array.toList_inj.mp hbytes)
  have hgains' : q'.GainsFrom q p₁.microcode := fun e he => by
    have heither := List.all_eq_true.mp hgains e he
    rwa [Bool.or_eq_true, decide_eq_true_iff] at heither
  obtain ⟨program₁, q₁, q₁', s, hrecent₁, hq₁, hq₁', -, -, hiff, hagain⟩ :=
    finds_excerpts_again hnew rfl huses (.inl rfl) hfind (uses_detour hdetour) hsame hkept
  obtain rfl := Option.some.inj (hrecent₁.symm.trans hrecent)
  obtain rfl := Option.some.inj (hq₁.symm.trans hq)
  obtain rfl := Option.some.inj (hq₁'.symm.trans hq')
  have hfound := hagain hgains' (.execute 8 1) 8 (.inr ⟨1, rfl⟩) rfl
  rw [hop] at hfound
  exact ⟨p, p₁, a, p₂, p₃, program₁, q₁, q₁', a', p₄, hnew, huses, hfind, uses_detour hdetour,
    hsame, hrecent, hq, hq', hlonger, hgains', hiff.mpr hgains', hop,
    (hfound (of_decide_eq_true hkept')).1⟩

/-- The program found jumps to where the detour writes, and is given the block there. With that
block it does not match any more when the pair is taken back, and the same lookup as before creates
a program. -/
theorem creates_again_of_borrowedBlock : ∃ p p₁ a p₂ p₃ a' p₄,
    create .compact .standard = .ok p ∧ p.config.matchMode = .byExcerpts ∧ Uses anyProgram p p₁ ∧
      p₁.perform (.findBlock 0) = .ok (a, p₂) ∧ Uses anyProgram p₂ p₃ ∧
      p₃.microcode = p₁.microcode ∧ p₃.perform (.findBlock 0) = .ok (a', p₄) ∧
      p₄.counters.forgettings = p₁.counters.forgettings ∧ p₄.recent ≠ p₂.recent ∧
      p₄.cache.programs.size = p₃.cache.programs.size + 1 ∧
      p₄.counters.creations = p₃.counters.creations + 1 := by
  obtain ⟨p, p₁, hnew, hmode, hwrite, hok⟩ : ∃ p p₁, create .compact .standard = .ok p ∧
      p.config.matchMode = .byExcerpts ∧
      p.perform (.write 0 (Pair.ofLower (Statement.word (.b 7))).toBytes) = .ok (.done, p₁) ∧
      (p₁.perform (.findBlock 0)).toOption.any (fun r =>
        (r.2.detour .programEnd (.execute 0 8)).toOption.any fun p₃ =>
          p₃.microcode.toList == p₁.microcode.toList &&
            (p₃.perform (.findBlock 0)).toOption.any fun r' =>
              r'.2.counters.forgettings = p₁.counters.forgettings &&
                r'.2.recent != r.2.recent &&
                r'.2.cache.programs.size = p₃.cache.programs.size + 1 &&
                r'.2.counters.creations = p₃.counters.creations + 1) = true :=
    ⟨_, _, rfl, rfl, rfl, by decide +kernel⟩
  obtain ⟨⟨a, p₂⟩, hfind, hok⟩ := exists_ok_of_any hok
  obtain ⟨p₃, hdetour, hok⟩ := exists_ok_of_any hok
  rw [Bool.and_eq_true, beq_iff_eq] at hok
  obtain ⟨⟨a', p₄⟩, hagain, hok'⟩ := exists_ok_of_any hok.2
  simp only [Bool.and_eq_true, decide_eq_true_iff, bne_iff_ne] at hok'
  obtain ⟨⟨⟨hkept, hother⟩, hsize⟩, hcreations⟩ := hok'
  exact ⟨p, p₁, a, p₂, p₃, a', p₄, hnew, hmode, .single (.perform hwrite), hfind,
    uses_detour hdetour, congrArg Memory.mk (Array.toList_inj.mp hok.1), hagain, hkept, hother,
    hsize, hcreations⟩

end Processor

end VectorUnit
