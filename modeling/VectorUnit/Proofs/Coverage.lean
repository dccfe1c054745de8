import Mathlib.Tactic.TFAE
import VectorUnit.Proofs.Boundaries

/-!
# What the ranges of a sequence cover

The ranges of a sequence hold the bytes of its pairs and no others. A scan reads nothing beyond
them, and no byte of them can change without a change of some pair, for the bytes of a pair are
recovered from it (`Pair.ofBytes_inj`). Comparing the ranges of a sequence with another memory is
therefore the same as comparing the sequences that are found there, and so a program that compares
excerpts recognizes, once it has a block, the memories that have the block
(`Program.recognizes_addBlock_iff_ofMemory?`).
-/

namespace VectorUnit

/-! ### The bytes of a pair -/

namespace Pair

theorem wordOfBytes_inj {a b c d a' b' c' d' : UInt8}
    (h : wordOfBytes a b c d = wordOfBytes a' b' c' d') : a = a' ∧ b = b' ∧ c = c' ∧ d = d' := by
  have hword := congrArg UInt32.toNat h
  have ha := a.toNat_lt
  have hb := b.toNat_lt
  have hc := c.toNat_lt
  have hd := d.toNat_lt
  have ha' := a'.toNat_lt
  have hb' := b'.toNat_lt
  have hc' := c'.toNat_lt
  have hd' := d'.toNat_lt
  simp only [wordOfBytes, UInt32.toNat_ofNat'] at hword
  simp only [← UInt8.toNat_inj]
  omega

/-- A pair has no other bytes than those it was made of. -/
theorem ofBytes_inj {f g : Nat → UInt8} (h : ofBytes f = ofBytes g) : ∀ i < size, f i = g i := by
  obtain ⟨h4, h5, h6, h7⟩ := wordOfBytes_inj (congrArg upper h)
  obtain ⟨h0, h1, h2, h3⟩ := wordOfBytes_inj (congrArg lower h)
  intro i hi
  match i, hi with
  | 0, _ | 1, _ | 2, _ | 3, _ | 4, _ | 5, _ | 6, _ | 7, _ => assumption

end Pair

/-- Memories have the same pair at an offset exactly when they agree on its bytes. -/
theorem Memory.pair_eq_iff_agrees {m m' : Memory} {offset : Nat} :
    m'.pair offset = m.pair offset ↔ Range.Agrees ⟨offset, offset + Pair.size⟩ m m' := by
  refine ⟨fun h i hstart hstop => ?_, pair_eq_of_agrees⟩
  obtain ⟨k, rfl⟩ := Nat.exists_eq_add_of_le hstart
  exact Pair.ofBytes_inj h k (Nat.lt_of_add_lt_add_left hstop)

namespace Sequence

/-! ### The bytes of a sequence -/

/-- Joining adds no bytes. -/
theorem Range.exists_mem_of_consJoin {r t : VectorUnit.Range} {rs : List VectorUnit.Range}
    (ht : t ∈ consJoin r rs) {i : Nat} (hstart : t.start ≤ i) (hstop : i < t.stop) :
    ∃ s ∈ r :: rs, s.start ≤ i ∧ i < s.stop := by
  cases rs with
  | nil => exact ⟨t, ht, hstart, hstop⟩
  | cons s rest =>
    rw [consJoin] at ht
    split at ht
    · case isTrue htouch =>
      -- a byte of two ranges that became one is in the first or in the second
      rcases List.mem_cons.mp ht with rfl | ht
      · rcases Nat.lt_or_ge i r.stop with hlt | hge
        · exact ⟨r, List.mem_cons_self, hstart, hlt⟩
        · exact ⟨s, List.mem_cons_of_mem _ List.mem_cons_self, htouch ▸ hge, hstop⟩
      · exact ⟨t, List.mem_cons_of_mem _ (List.mem_cons_of_mem _ ht), hstart, hstop⟩
    · exact ⟨t, ht, hstart, hstop⟩

/-- Every byte of the ranges of some entries belongs to the pair of one of them. -/
theorem exists_entry_of_mem_rangesOf {es : List Entry} {r : Range} (hr : r ∈ rangesOf es) {i : Nat}
    (hstart : r.start ≤ i) (hstop : i < r.stop) :
    ∃ e ∈ es, e.offset ≤ i ∧ i < e.offset + Pair.size := by
  induction es generalizing r with
  | nil => cases hr
  | cons e rest ih =>
    obtain ⟨s, hs, hsstart, hsstop⟩ := Range.exists_mem_of_consJoin hr hstart hstop
    rcases List.mem_cons.mp hs with rfl | hs
    · exact ⟨e, List.mem_cons_self, hsstart, hsstop⟩
    · obtain ⟨f, hf, hbyte⟩ := ih hs hsstart hsstop
      exact ⟨f, List.mem_cons_of_mem _ hf, hbyte⟩

variable {m m' : Memory} {offset maxLength : Nat} {s : Sequence}

/-- A memory that has the entries of a sequence agrees on its ranges. -/
theorem agrees_of_entries_eq (h : m.HasPair offset) (hs : ofMemory? m offset maxLength = some s)
    (hsize : m'.size = m.size) {s' : Sequence} (hs' : ofMemory? m' offset maxLength = some s')
    (hentries : s'.entries = s.entries) : ∀ r ∈ s.ranges, r.Agrees m m' := by
  intro r hr i hstart hstop
  obtain ⟨e, he, hbyte⟩ := exists_entry_of_mem_rangesOf hr hstart hstop
  have hentry := (((ofMemory?_eq_some_iff h).mp hs).2.entry_eq h he).2
  have hentry' := (((ofMemory?_eq_some_iff (h.congr hsize)).mp hs').2.entry_eq (h.congr hsize)
    (hentries ▸ he)).2
  have hpair : m'.pair e.offset = m.pair e.offset :=
    congrArg Entry.pair (hentry'.symm.trans hentry)
  exact Memory.pair_eq_iff_agrees.mp hpair i hbyte.1 hbyte.2

/-- A memory agrees on the ranges of a sequence exactly when it has the sequence. -/
theorem agrees_iff (h : m.HasPair offset) (hs : ofMemory? m offset maxLength = some s)
    (hsize : m'.size = m.size) :
    (∀ r ∈ s.ranges, r.Agrees m m') ↔ ofMemory? m' offset maxLength = some s :=
  ⟨ofMemory?_of_agrees h hs hsize, fun hs' => agrees_of_entries_eq h hs hsize hs' rfl⟩

/-- Matching the excerpts of a sequence compares its ranges. -/
theorem matchesMemory_excerpts_iff (h : m.HasPair offset)
    (hs : ofMemory? m offset maxLength = some s) (hsize : m'.size = m.size) :
    (∀ r ∈ s.ranges, (Program.Excerpt.ofMemory m r).matchesMemory m' = true) ↔
      ∀ r ∈ s.ranges, r.Agrees m m' :=
  forall₂_congr fun r hr => Memory.holds_slice_iff (within_ranges h hs r hr) hsize

/-- **Coverage.** Memories of one size have the same sequence at an offset if they have the same
entries there, which they have if they agree on the ranges of one of the sequences and not
otherwise; and that is what matching the excerpts of these ranges finds out. -/
theorem exists_tfae_agrees (hsize : m'.size = m.size) (hwhole : Pair.size ∣ m.size)
    (haligned : Pair.size ∣ offset) (hinside : offset < m.size) (maxLength : Nat) :
    ∃ s s', ofMemory? m offset maxLength = some s ∧ ofMemory? m' offset maxLength = some s' ∧
      [s' = s, s'.entries = s.entries, ∀ r ∈ s.ranges, r.Agrees m m',
        ∀ r ∈ s.ranges, (Program.Excerpt.ofMemory m r).matchesMemory m' = true].TFAE := by
  have h : m.HasPair offset := ⟨hwhole, haligned, hinside⟩
  obtain ⟨s, hs, -⟩ := exists_scans h maxLength
  obtain ⟨s', hs', -⟩ := exists_scans (h.congr hsize) maxLength
  refine ⟨s, s', hs, hs', ?_⟩
  tfae_have 1 → 2 := congrArg entries
  tfae_have 2 → 3 := agrees_of_entries_eq h hs hsize hs'
  tfae_have 3 → 1 := fun hagrees =>
    Option.some.inj (hs'.symm.trans ((agrees_iff h hs hsize).mp hagrees))
  tfae_have 4 ↔ 3 := matchesMemory_excerpts_iff h hs hsize
  tfae_finish

/-- The jump has its delay slot in the first pair, which the other memory does not have. -/
theorem exists_tfae_agrees_of_jalr :
    ∃ s s', ofMemory? (addAndJump 1) 8 4 = some s ∧ ofMemory? (addAndJump 2) 8 4 = some s' ∧
      [s' = s, s'.entries = s.entries, ∀ r ∈ s.ranges, r.Agrees (addAndJump 1) (addAndJump 2),
        ∀ r ∈ s.ranges,
          (Program.Excerpt.ofMemory (addAndJump 1) r).matchesMemory (addAndJump 2) = true].TFAE :=
  exists_tfae_agrees (by decide) (by decide) (by decide) (by decide) 4

end Sequence

/-- A program that compares excerpts recognizes with a block more the memories that have it. -/
theorem Program.recognizes_addBlock_iff_ofMemory? {p : Program} {m m' : Memory}
    {offset maxLength : Nat} {s : Sequence} (hbasis : p.basis = .excerpts)
    (hsize : m'.size = m.size) (h : m.HasPair offset)
    (hs : Sequence.ofMemory? m offset maxLength = some s) (id : BlockNumber) :
    (p.addBlock offset id s.ranges m).Recognizes m' ↔
      p.Recognizes m' ∧ Sequence.ofMemory? m' offset maxLength = some s := by
  rw [recognizes_addBlock_iff, ← Sequence.agrees_iff h hs hsize,
    ← Sequence.matchesMemory_excerpts_iff h hs hsize]
  exact and_congr_right fun _ => ⟨fun hranges => hranges hbasis, fun hranges _ => hranges⟩

end VectorUnit
