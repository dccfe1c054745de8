import VectorUnit.Proofs.Steps

/-!
# Shortcuts are never out of date

A unit relies on shortcuts and on the program found last only as long as live memory bears them out
(`Processor.Fresh`). When microcode changes while shortcuts are there, they are all dropped; when it
changes again before the next lookup nothing is done, for there are none. Lookups set shortcuts to
programs that recognize live memory only, and a block that is compiled meanwhile comes from live
memory, so no program stops recognizing it.

That is so whatever is done to a unit (`Processor.fresh_of_uses`), also where blocks are compiled
for programs that do not match live memory at all.
-/

namespace VectorUnit

/-- A memory that an excerpt of another one matches has the same bytes in its range. -/
theorem Program.Excerpt.slice_eq_of_matchesMemory {m m' : Memory} {r : Range}
    (h : r.Within m.size) (hsize : m'.size = m.size)
    (hmatch : (ofMemory m r).matchesMemory m' = true) :
    m'.slice r.start r.stop = m.slice r.start r.stop := by
  have hagrees := (Memory.holds_slice_iff h hsize).mp hmatch
  have hlength := m.size_slice h
  refine Array.ext ?_ fun i hi hi' => ?_
  · rw [hlength, m'.size_slice (hsize ▸ h)]
  · rw [m'.getElem_slice hi, m.getElem_slice hi']
    exact hagrees _ (Nat.le_add_right _ _) (by omega)

namespace Processor

variable {p p' : Processor} {offset : Nat} {program : ProgramNumber}
  {Allows : Processor → ProgramNumber → Prop}

/-- A stored program matches live memory: the ranges that it remembers hold the bytes that they
held, or live memory is the image that it remembers. -/
def Matches (p : Processor) (id : ProgramNumber) : Prop :=
  ∃ q, p.cache.program? id = some q ∧ q.matchesMemory p.microcode p.liveDigest? = true ∧
    match p.config.matchMode with
    | .byExcerpts => ∀ e ∈ q.excerpts, p.microcode.slice e.range.start e.range.stop = e.bytes
    | .byImage => ∃ digest, q.basis = .image p.microcode digest

/-- A program that recognizes live memory without its digest matches it with it as well. -/
theorem Stocked.matches (hp : p.Stocked) {id : ProgramNumber}
    (h : p.cache.Recognizes id p.microcode) : p.Matches id := by
  obtain ⟨q, hq, hrecognizes⟩ := h
  have hsuits := hp.programs q (Array.mem_of_getElem? hq)
  have hbasis := hsuits.basis
  refine ⟨q, hq, ?_⟩
  rw [liveDigest?]
  rw [Program.Recognizes, Program.matchesMemory] at hrecognizes
  cases hmode : p.config.matchMode with
  | byExcerpts =>
    rw [hmode] at hbasis
    dsimp only at hbasis ⊢
    rw [hbasis] at hrecognizes
    refine ⟨?_, fun e he => ?_⟩
    · rw [Program.matchesMemory, hbasis]
      exact hrecognizes
    · obtain ⟨m, r, hsize, hwithin, rfl⟩ := hsuits.excerpts e he
      refine Program.Excerpt.slice_eq_of_matchesMemory (hsize ▸ hwithin) ?_ ?_
      · exact hp.size_eq.trans hsize.symm
      · exact List.all_eq_true.mp hrecognizes _ he
  | byImage =>
    rw [hmode] at hbasis
    obtain ⟨image, himage⟩ := hbasis
    rw [himage] at hrecognizes
    obtain rfl : image = p.microcode := eq_of_beq hrecognizes
    refine ⟨?_, _, himage⟩
    rw [Program.matchesMemory, himage]
    simp

/-- Shortcuts, and the program found last, are there only if live memory bears them out. So a stale
unit has no shortcuts, and one that is not stale needs no comparison to follow them. -/
structure Fresh (p : Processor) : Prop where
  shortcuts : p.cache.ShortcutsSatisfy fun id =>
    p.stale = false ∧ p.cache.Recognizes id p.microcode
  recent : p.stale = false → ∃ id, p.recent = some id ∧ p.cache.Recognizes id p.microcode

/-! ### Lookups -/

/-- A unit has come from another one with the same live memory, and what recognized that before
still does. Giving a program a block of live memory is such a step. -/
structure Retains (p p' : Processor) : Prop where
  microcode_eq : p'.microcode = p.microcode
  recognizes : ∀ id, p.cache.Recognizes id p.microcode → p'.cache.Recognizes id p.microcode
  shortcuts : ∀ Q, p.cache.ShortcutsSatisfy Q → p'.cache.ShortcutsSatisfy Q

theorem retains_blockAt {id : BlockNumber} (hblock : p.blockAt program offset = .ok (id, p'))
    (h : p.microcode.HasPair offset) :
    p.Retains p' ∧ p'.stale = p.stale ∧ p'.recent = p.recent := by
  obtain ⟨q, -, ⟨-, rfl⟩ | ⟨-, b, p₁, cache, hcompile, hadd, rfl⟩⟩ := blockAt_eq_ok hblock
  · exact ⟨⟨rfl, fun _ h => h, fun _ h => h⟩, rfl, rfl⟩
  · obtain ⟨s, r, hs, hany, rfl⟩ := compileAt_eq_ok hcompile
    have hranges := (Recompiler.renders_of_compileAny hany).ranges_eq
    refine ⟨⟨rfl, fun id' hid' => ?_, fun Q hQ => hQ.addBlock hadd⟩, rfl, rfl⟩
    exact hid'.addBlock hadd h hs hranges

/-- A program that recognizes live memory is entered: it may have a shortcut then. -/
theorem fresh_enterProgram {hit : Hit} (henter : p.enterProgram program offset = .ok (hit, p'))
    (h : p.microcode.HasPair offset) (hprogram : p.cache.Recognizes program p.microcode)
    (hshortcuts : p.cache.ShortcutsSatisfy fun id => p.cache.Recognizes id p.microcode) :
    p'.Fresh := by
  obtain ⟨hstale, hrecent, hmicrocode, -⟩ := enterProgram_fresh henter
  obtain ⟨p₁, cache, hblock, hcache, -, -, rfl⟩ := enterProgram_eq_ok henter
  obtain ⟨retains, -, -⟩ := retains_blockAt hblock h
  have hsame : ∀ id, p₁.cache.Recognizes id p.microcode → cache.Recognizes id p.microcode := by
    obtain ⟨-, rfl⟩ := Cache.modifyShelf_eq_some hcache
    exact fun id hid => hid.of_programs_eq rfl
  have hprogram' : cache.Recognizes program p.microcode :=
    hsame _ (retains.recognizes _ hprogram)
  have hshortcuts' : cache.ShortcutsSatisfy fun id => cache.Recognizes id p.microcode := by
    refine Cache.ShortcutsSatisfy.setShortcut hcache ?_ hprogram'
    exact (retains.shortcuts _ hshortcuts).mono fun id hid => hsame _ (retains.recognizes _ hid)
  refine ⟨hshortcuts'.mono fun id hid => ⟨hstale, ?_⟩, fun _ => ⟨program, hrecent, ?_⟩⟩
  · rw [hmicrocode]
    exact hid
  · rw [hmicrocode]
    exact hprogram'

/-- Comparing programs with live memory gives one that recognizes it, found or new. -/
theorem retains_matchPrograms (hmatch : p.matchPrograms offset = .ok (program, p')) :
    p.Retains p' ∧ p'.cache.Recognizes program p.microcode := by
  obtain ⟨l, hl, ⟨hfound, cache, hcache, rfl⟩ | ⟨-, cache, hcache, rfl⟩⟩ :=
    matchPrograms_eq_ok hmatch
  · obtain ⟨-, -, -, q, hq, hrecognizes⟩ := Cache.lookup_found hl hfound
    have hsame : ∀ id, p.cache.Recognizes id p.microcode → cache.Recognizes id p.microcode := by
      obtain ⟨-, rfl⟩ := Cache.modifyShelf_eq_some hcache
      exact fun id hid => hid.of_programs_eq rfl
    refine ⟨⟨rfl, hsame, fun Q hQ => hQ.touch hcache⟩, hsame _ ⟨q, hq, ?_⟩⟩
    exact Program.recognizes_of_matchesMemory hrecognizes
  · refine ⟨⟨rfl, fun id hid => hid.addProgram hcache, fun Q hQ => hQ.addProgram hcache⟩, ?_⟩
    obtain ⟨-, rfl, rfl⟩ := Cache.addProgram_eq_some hcache
    exact ⟨_, Array.getElem?_push_size, p.recognizes_create_liveBasis _⟩

theorem fresh_findBlockAt {hit : Hit} (hp : p.Fresh) (h : p.microcode.HasPair offset)
    (hfind : p.findBlockAt offset = .ok (hit, p')) : p'.Fresh := by
  have hshortcuts : p.cache.ShortcutsSatisfy fun id => p.cache.Recognizes id p.microcode :=
    hp.shortcuts.mono fun _ hid => hid.2
  obtain ⟨shelf, hshelf, ⟨program, id, hshortcut, henter⟩ | ⟨-, program, p₁, hmatch, henter⟩⟩ :=
    findBlockAt_eq_ok hfind
  · have hprogram := (hp.shortcuts shelf (Array.mem_of_getElem? hshelf) _ hshortcut).2
    exact fresh_enterProgram henter h hprogram hshortcuts
  · obtain ⟨retains, hprogram⟩ := retains_matchPrograms hmatch
    have hmicrocode := retains.microcode_eq
    refine fresh_enterProgram henter (hmicrocode ▸ h) (hmicrocode ▸ hprogram) ?_
    rw [hmicrocode]
    exact (retains.shortcuts _ hshortcuts).mono retains.recognizes

/-! ### Steps -/

theorem Fresh.congr (hp : p.Fresh) (hsame : p'.StoresAs p) : p'.Fresh := by
  refine ⟨?_, ?_⟩
  · rw [hsame.microcode_eq, hsame.cache_eq, hsame.stale_eq]
    exact hp.shortcuts
  · rw [hsame.microcode_eq, hsame.cache_eq, hsame.stale_eq, hsame.recent_eq]
    exact hp.recent

theorem Fresh.forget (p : Processor) : p.forget.Fresh :=
  ⟨p.cache.shortcutsSatisfy_forgetAll _, fun hfresh => by cases hfresh⟩

/-- Whatever is in microcode after a change, nothing that was known of it is relied on. -/
theorem Fresh.markStale (hp : p.Fresh) (m : Memory) :
    Fresh (Processor.markStale { p with microcode := m }) := by
  rw [Processor.markStale]
  split
  · case isTrue hstale =>
    -- the shortcuts were dropped by an earlier change
    refine ⟨hp.shortcuts.mono fun id hid => ?_, fun hfresh => ?_⟩
    · exact absurd hstale (by rw [hid.1]; decide)
    · exact absurd hstale (by rw [hfresh]; decide)
  · exact ⟨p.cache.shortcutsSatisfy_dropShortcuts _, fun hfresh => by cases hfresh⟩

/-- **Step.** Every step keeps a unit fresh. A change of microcode drops all shortcuts with it, and
a lookup that is not led by one compares before it sets any. -/
theorem Fresh.step (hp : p.Fresh) (h : Step Allows p p') : p'.Fresh := by
  rcases step_cases h with hsame | hsame | ⟨m, -, rfl⟩ | ⟨offset, hit, h, hfind⟩ |
    ⟨program, offset, hit, hrecent, hfresh, h, henter⟩ | ⟨program, offset, id, h, hfetch⟩
  · exact hp.congr hsame
  · exact (Fresh.forget p).congr hsame
  · exact hp.markStale m
  · exact fresh_findBlockAt hp h hfind
  · obtain ⟨id, hid, hprogram⟩ := hp.recent hfresh
    obtain rfl := Option.some.inj (hrecent.symm.trans hid)
    exact fresh_enterProgram henter h hprogram (hp.shortcuts.mono fun _ hid => hid.2)
  · obtain ⟨retains, hstale, hrecent⟩ := retains_blockAt hfetch h
    refine ⟨(retains.shortcuts _ hp.shortcuts).mono fun id hid => ?_, fun hfresh => ?_⟩
    · rw [hstale, retains.microcode_eq]
      exact ⟨hid.1, retains.recognizes id hid.2⟩
    · obtain ⟨id, hid, hprogram⟩ := hp.recent (hstale ▸ hfresh)
      rw [hrecent, retains.microcode_eq]
      exact ⟨id, hid, retains.recognizes id hprogram⟩

theorem fresh_create {host : Host} {config : Config} (h : create host config = .ok p) :
    p.Fresh := by
  obtain ⟨recompiler, -, h⟩ := exists_of_bind_eq_ok h
  obtain rfl := Except.ok.inj h
  refine ⟨fun s hs hit hhit => ?_, fun hfresh => by cases hfresh⟩
  obtain ⟨-, rfl⟩ := Array.mem_replicate.mp hs
  cases hhit

/-- **Freshness.** Whatever is done to a new unit, there are no shortcuts while microcode may have
changed, each shortcut leads to a program that matches live memory, and when microcode has not
changed since the last lookup, then the program found last matches live memory. -/
theorem fresh_of_uses {host : Host} {config : Config} (hcreate : create host config = .ok p)
    (h : Uses anyProgram p p') :
    (p'.stale = true → ∀ s ∈ p'.cache.shelves, s.shortcut = none) ∧
      (∀ s ∈ p'.cache.shelves, ∀ program id, s.shortcut = some (program, id) →
        p'.Matches program) ∧
      (p'.stale = false → ∃ program, p'.recent = some program ∧ p'.Matches program) := by
  obtain ⟨hstocked, hfresh⟩ := (stocked_create hcreate).uses_induction (fresh_create hcreate)
    (fun q q' _ hq hstep => hq.step hstep) h
  refine ⟨fun hstale s hs => ?_, fun s hs program id hid => ?_, fun hstale => ?_⟩
  · cases hshortcut : s.shortcut with
    | none => rfl
    | some hit =>
      have hfalse := (hfresh.shortcuts s hs hit hshortcut).1
      rw [hstale] at hfalse
      cases hfalse
  · exact hstocked.matches (hfresh.shortcuts s hs _ hid).2
  · obtain ⟨program, hrecent, hprogram⟩ := hfresh.recent hstale
    exact ⟨program, hrecent, hstocked.matches hprogram⟩

theorem fresh_of_strayBlock : ∃ p p' a p'',
    create .compact { Config.standard with maxBlockLength := 1 } = .ok p ∧
      Uses anyProgram p p' ∧ p'.stale = true ∧ (∀ s ∈ p'.cache.shelves, s.shortcut = none) ∧
      p'.perform (.findBlock 8) = .ok (a, p'') ∧ p''.stale = false ∧
      ∃ program, p''.recent = some program ∧ p''.Matches program := by
  obtain ⟨p, hnew, hok⟩ : ∃ p,
      create .compact { Config.standard with maxBlockLength := 1 } = .ok p ∧
        p.strayBlock.toOption.any (fun p' =>
          p'.stale && (p'.perform (.findBlock 8)).toOption.any fun r => !r.2.stale) = true :=
    ⟨_, rfl, by decide +kernel⟩
  obtain ⟨p', hstray, hok⟩ := exists_ok_of_any hok
  obtain ⟨hstale, hfound⟩ := Bool.and_eq_true _ _ ▸ hok
  obtain ⟨⟨a, p''⟩, hfind, hfound⟩ := exists_ok_of_any hfound
  rw [Bool.not_eq_true'] at hfound
  have huses := (stocked_create hnew).uses_strayBlock hstray
  obtain ⟨hnone, -, -⟩ := fresh_of_uses hnew huses
  obtain ⟨-, -, hrecent⟩ := fresh_of_uses hnew (huses.tail (.perform hfind))
  exact ⟨p, p', a, p'', hnew, huses, hstale, hnone hstale, hfind, hfound, hrecent hfound⟩

end Processor

end VectorUnit
