import VectorUnit.Proofs.Freshness

/-!
# What a match vouches for

A stored program that matches live memory has the blocks that compiling live memory gives, as long
as blocks are asked only of programs that may be given blocks of live memory
(`Processor.vouches_of_uses`). In the mode that compares excerpts these are all programs: whatever
a program is given, it remembers the bytes, and stops matching memory that holds others. In the mode
that compares whole images they are the programs that match.

A program of that mode which is asked for a block while other microcode is in memory stores the
block of the other microcode, and nothing about it tells. As soon as its own image is back the
program matches again, with a block that is not what is in memory (`Processor.strayBlock_matches`).
-/

namespace VectorUnit

namespace Program

/-- The image by which a program recognizes memory, if it does so by one. -/
def image? (q : Program) : Option Memory :=
  match q.basis with
  | .excerpts => none
  | .image image _ => some image

theorem recognizes_of_image? {q : Program} {m : Memory} (h : q.image? = some m) :
    q.Recognizes m := by
  rw [image?] at h
  rw [Recognizes, matchesMemory]
  cases hbasis : q.basis with
  | excerpts =>
    rw [hbasis] at h
    cases h
  | image image digest =>
    rw [hbasis] at h
    obtain rfl := Option.some.inj h
    exact beq_self_eq_true image

end Program

namespace Processor

variable {p p' : Processor} {offset : Nat} {program : ProgramNumber}

/-- Blocks are asked of programs that remember excerpts, or match live memory. A program that
remembers an image would not notice a block of other microcode. -/
def admitted (p : Processor) (program : ProgramNumber) : Prop :=
  p.config.matchMode = .byExcerpts ∨ p.Matches program

/-- In the mode that compares excerpts, blocks may be asked of any program. -/
theorem Stocked.uses_admitted (hp : p.Stocked) (hmode : p.config.matchMode = .byExcerpts)
    (h : Uses anyProgram p p') : Uses admitted p p' := by
  induction h with
  | refl => exact .refl
  | @tail q q' huses huse ih =>
    cases huse with
    | perform h => exact ih.tail (.perform h)
    | fetch hallows h hfetch =>
      have hconfig : q.config = p.config := config_steps (hp.steps_of_uses huses)
      exact ih.tail (.fetch (.inl (hconfig ▸ hmode)) h hfetch)

/-- In a stocked unit, such a program may be given blocks of live memory. -/
theorem Stocked.admits (hp : p.Stocked) (h : p.admitted program) {q : Program}
    (hq : p.cache.program? program = some q) : q.Admits p.microcode := by
  rcases h with hmode | ⟨q', hq', hmatch, -⟩
  · have hbasis := (hp.programs q (Array.mem_of_getElem? hq)).basis
    rw [hmode] at hbasis
    exact .inl hbasis
  · obtain rfl := Option.some.inj (hq'.symm.trans hq)
    exact .inr (Program.recognizes_of_matchesMemory hmatch)

/-- A program that may be given blocks of live memory may be asked for one. -/
theorem Sound.blockAt {id : BlockNumber} (hp : p.Sound) (hstocked : p.Stocked)
    (h : p.microcode.HasPair offset) (hadmitted : p.admitted program)
    (hblock : p.blockAt program offset = .ok (id, p')) : p'.Sound := by
  obtain ⟨q, hq, ⟨-, rfl⟩ | ⟨-, b, p₁, cache, hcompile, hadd, rfl⟩⟩ := blockAt_eq_ok hblock
  · exact hp
  · obtain ⟨s, r, hs, hany, rfl⟩ := compileAt_eq_ok hcompile
    have hb := Recompiler.renders_of_compileAny hany
    obtain ⟨id', cache', hadd', hin, -, hrecognizes, hshortcuts⟩ :=
      hp.inOrder.addBlock h hp.size_eq hs hb hq (hstocked.admits hadmitted hq)
    obtain ⟨rfl, rfl⟩ := Prod.mk.inj (Option.some.inj (hadd'.symm.trans hadd))
    have hsound := hp.withCache hin hrecognizes (hshortcuts _ hp.shortcuts)
    exact hsound.congr rfl rfl rfl rfl rfl

/-- **Run.** Whatever is done to a sound unit, it stays sound as long as blocks are asked of such
programs only. -/
theorem Sound.uses (hp : p.Sound) (hstocked : p.Stocked) (h : Uses admitted p p') : p'.Sound := by
  induction h with
  | refl => exact hp
  | @tail q q' huses huse ih =>
    cases huse with
    | @perform op a q' h =>
      have hspec := perform_spec ih op
      rw [h] at hspec
      exact hspec.1
    | fetch hadmitted h hfetch =>
      have hstocked' := hstocked.steps (hstocked.steps_of_uses huses)
      exact ih.blockAt hstocked' h hadmitted hfetch

/-- **Vouching.** If blocks are asked only of programs that remember excerpts or match live memory,
then each block of each stored program that matches live memory is what the sequence at its offset
in live memory is compiled to, and what a lookup finds is so as well. -/
theorem vouches_of_uses {host : Host} {config : Config} (hcreate : create host config = .ok p)
    (h : Uses admitted p p') :
    (∀ program q, p'.Matches program → p'.cache.program? program = some q →
      ∀ offset id, q.block? offset = some id → ∃ b s, p'.cache.block? id = some b ∧
        Sequence.ofMemory? p'.microcode offset p'.config.maxBlockLength = some s ∧ b.Renders s) ∧
      ∀ offset hit p'', p'.findBlock offset = .ok (hit, p'') → ∃ s,
        Sequence.ofMemory? p'.microcode (p'.config.kind.pairOffset offset)
          p'.config.maxBlockLength = some s ∧ hit.block.code = s.toCode := by
  have hsound : p'.Sound := (sound_create hcreate).1.uses (stocked_create hcreate) h
  constructor
  · rintro program q ⟨q', hq', hmatch, -⟩ hq offset id hid
    obtain rfl := Option.some.inj (hq'.symm.trans hq)
    have hfaithful := hsound.inOrder.faithful q' (Array.mem_of_getElem? hq)
    obtain ⟨b, hb, hall⟩ := hfaithful offset id hid
    obtain ⟨s, hs, hrenders⟩ :=
      hall p'.microcode hsound.size_eq (Program.recognizes_of_matchesMemory hmatch)
    exact ⟨b, s, hb, hs, hrenders⟩
  · intro offset hit p'' hfind
    have hspec := findBlock_spec hsound offset
    rw [hfind] at hspec
    have hcode := hspec.code?_eq
    rw [Uncached.code?, Option.map_eq_some_iff] at hcode
    obtain ⟨s, hs, hcode⟩ := hcode
    exact ⟨s, hs, hcode.symm⟩

theorem vouches_of_strayBlock : ∃ p p' hit p'' s,
    create .compact { Config.standard with maxBlockLength := 1 } = .ok p ∧
      Uses admitted p p' ∧ p'.findBlock 8 = .ok (hit, p'') ∧ hit.program = ⟨1⟩ ∧
      Sequence.ofMemory? p'.microcode (p'.config.kind.pairOffset 8)
        p'.config.maxBlockLength = some s ∧ hit.block.code = s.toCode := by
  obtain ⟨p, hnew, hok⟩ : ∃ p,
      create .compact { Config.standard with maxBlockLength := 1 } = .ok p ∧
        p.strayBlock.toOption.any (fun p' =>
          (p'.findBlock 8).toOption.any fun r => r.1.program = ⟨1⟩) = true :=
    ⟨_, rfl, by decide +kernel⟩
  obtain ⟨p', hstray, hok⟩ := exists_ok_of_any hok
  obtain ⟨⟨hit, p''⟩, hfind, hok⟩ := exists_ok_of_any hok
  have hstocked := stocked_create hnew
  have hmode : p.config.matchMode = .byExcerpts := by
    obtain rfl := Except.ok.inj hnew
    rfl
  have huses := hstocked.uses_admitted hmode (hstocked.uses_strayBlock hstray)
  obtain ⟨-, hfound⟩ := vouches_of_uses hnew huses
  obtain ⟨s, hs, hcode⟩ := hfound 8 hit p'' hfind
  exact ⟨p, p', hit, p'', s, hnew, huses, hfind, of_decide_eq_true hok, hs, hcode⟩

/-- Where whole images are compared, a program matches its image as before when it has a block that
was compiled from other microcode, and running that block is not what is in memory. -/
theorem strayBlock_matches : ∃ p p' q id b s,
    create .compact { Config.standard with matchMode := .byImage, maxBlockLength := 1 } = .ok p ∧
      Uses anyProgram p p' ∧ p'.Matches ⟨0⟩ ∧ p'.cache.program? ⟨0⟩ = some q ∧
      q.block? 8 = some id ∧ p'.cache.block? id = some b ∧
      Sequence.ofMemory? p'.microcode 8 p'.config.maxBlockLength = some s ∧
      b.code ≠ s.toCode ∧ (b.run p'.registers).read 1 = 5 ∧
      (s.interpret p'.registers).read 1 = 0 := by
  obtain ⟨p, hnew, hok⟩ : ∃ p,
      create .compact { Config.standard with matchMode := .byImage, maxBlockLength := 1 } =
        .ok p ∧
        p.strayBlock.toOption.any (fun p' => (p'.cache.program? ⟨0⟩).any fun q =>
          q.image?.any (fun image => image.toList == p'.microcode.toList) &&
            (q.block? 8).any fun id => (p'.cache.block? id).any fun b =>
              (Sequence.ofMemory? p'.microcode 8 p'.config.maxBlockLength).any fun s =>
                b.code != s.toCode && (b.run p'.registers).read 1 == (5 : UInt16) &&
                  (s.interpret p'.registers).read 1 == (0 : UInt16)) = true :=
    ⟨_, rfl, by decide +kernel⟩
  obtain ⟨p', hstray, hok⟩ := exists_ok_of_any hok
  simp only [Option.any_eq_true, Bool.and_eq_true, bne_iff_ne, beq_iff_eq] at hok
  obtain ⟨q, hq, ⟨image, himage, hsame⟩, id, hid, b, hb, s, hs, ⟨hcode, hrun⟩, hread⟩ := hok
  obtain rfl : image = p'.microcode := congrArg Memory.mk (Array.toList_inj.mp hsame)
  have hstocked := stocked_create hnew
  have huses := hstocked.uses_strayBlock hstray
  have hmatches := (hstocked.steps (hstocked.steps_of_uses huses)).matches
    ⟨q, hq, Program.recognizes_of_image? himage⟩
  exact ⟨p, p', q, id, b, s, hnew, huses, hmatches, hq, hid, hb, hs, hcode, hrun, hread⟩

end Processor

end VectorUnit
